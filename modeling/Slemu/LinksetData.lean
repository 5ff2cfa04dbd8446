import Slemu.World
import Slemu.NamedMap

/-! Linkset data: volume.c and the `llLinksetData*` builtins. -/

namespace Slemu

/-- Letters, digits, `_`, `-` and `.` stay; any other byte becomes `_`. -/
def sanitiseByte (c : UInt8) : UInt8 :=
  if isAlnum c || c == 95 || c == 45 || c == 46 then c else 95

/-- `sanitise_key` -/
def sanitiseKey (k : Bytes) : Bytes := k.map sanitiseByte

/-- `.txt` -/
def txtSuffix : Bytes := [46, 116, 120, 116]

/-- The file of a key, below `lsd/`. -/
def lsdFile (k : Bytes) : Bytes := sanitiseKey k ++ txtSuffix

/-- The test of `volume_lsd_list_keys` on a directory entry, and the key it reports. -/
def keyOfEntry (name : Bytes) : Option Bytes :=
  if 4 < name.length ∧ name.drop (name.length-4) = txtSuffix then
    some (name.take (name.length-4))
  else none

variable {F : Type}

namespace World

/-- The contents of `lsd/`. -/
def lsdFiles (w : World F) (name : Bytes) : Option Bytes :=
  w.volume.bind fun v => v.lsd.lookup name

/-- `volume_lsd_write`, on a file system that does not fail. -/
def lsdWrite (w : World F) (k val : Bytes) : World F :=
  { w with volume := w.volume.map fun v => { v with lsd := v.lsd.insert (lsdFile k) val } }

/-- `volume_lsd_read` -/
def lsdRead (w : World F) (k : Bytes) : Option Bytes := w.lsdFiles (lsdFile k)

/-- `volume_lsd_delete`: whether there was a file to remove. -/
def lsdDelete (w : World F) (k : Bytes) : Bool × World F :=
  ((w.lsdRead k).isSome,
    { w with volume := w.volume.map fun v => { v with lsd := v.lsd.erase (lsdFile k) } })

/-- `volume_lsd_list_keys`, over the entries of `lsd/` as `readdir` returns them. -/
def lsdListKeys (w : World F) : List Bytes :=
  match w.volume with
  | none => []
  | some v => (w.env.readdir ([lit ".", lit ".."] ++ v.lsd.keys)).filterMap keyOfEntry

variable [CDouble F]

/-- `bi_llLinksetDataWrite` -/
def llLinksetDataWrite (w : World F) (s : ℕ) (a : List (SValue F)) : SValue F × World F :=
  if w.volume.isNone then (.int 0, w)
  else
    let k := argStr a 0
    let v := argStr a 1
    (.int 0, (w.lsdWrite k v).emit (.lsdSet (w.script s).name k v))

/-- `bi_llLinksetDataRead` -/
def llLinksetDataRead (w : World F) (a : List (SValue F)) : SValue F :=
  .string ((w.lsdRead (argStr a 0)).getD [])

/-- `bi_llLinksetDataDelete` -/
def llLinksetDataDelete (w : World F) (s : ℕ) (a : List (SValue F)) : SValue F × World F :=
  if w.volume.isNone then (.int 0, w)
  else
    let k := argStr a 0
    let (ok, w) := w.lsdDelete k
    (.int (if ok then 0 else 1), w.emit (.lsdSet (w.script s).name k []))

/-- One round of `bi_llLinksetDataReset`. -/
def resetKey (s : ℕ) (w : World F) (k : Bytes) : World F :=
  (w.lsdDelete k).2.emit (.lsdSet (w.script s).name k [])

/-- `bi_llLinksetDataReset` -/
def llLinksetDataReset (w : World F) (s : ℕ) : World F :=
  w.lsdListKeys.foldl (resetKey s) w

/-- `bi_llLinksetDataCountKeys` -/
def llLinksetDataCountKeys (w : World F) : SValue F := .int w.lsdListKeys.length

/-- `bi_llLinksetDataListKeys` -/
def llLinksetDataListKeys (w : World F) : SValue F := .list (w.lsdListKeys.map .string)

end World

/-! ### File names -/

@[simp] theorem sanitiseByte_idem (c : UInt8) : sanitiseByte (sanitiseByte c) = sanitiseByte c := by
  unfold sanitiseByte
  split
  · rfl
  · rfl

@[simp] theorem sanitiseKey_idem (k : Bytes) : sanitiseKey (sanitiseKey k) = sanitiseKey k := by
  simp only [sanitiseKey, List.map_map]
  apply List.map_congr_left
  intro c _
  exact sanitiseByte_idem c

theorem lsdFile_inj (k k' : Bytes) : lsdFile k = lsdFile k' ↔ sanitiseKey k = sanitiseKey k' := by
  simp only [lsdFile, List.append_left_inj]

theorem keyOfEntry_append (x : Bytes) :
    keyOfEntry (x ++ txtSuffix) = if x = [] then none else some x := by
  have hl : (x ++ txtSuffix).length-4 = x.length := by simp [txtSuffix]
  unfold keyOfEntry
  rw [hl, List.drop_left, List.take_left]
  by_cases hx : x = []
  · simp [hx, txtSuffix]
  · have h4 : 4 < (x ++ txtSuffix).length := by
      have := List.length_pos_of_ne_nil hx
      simp only [List.length_append, txtSuffix, List.length_cons, List.length_nil]
      omega
    rw [if_pos ⟨h4, rfl⟩, if_neg hx]

theorem eq_append_of_keyOfEntry (n x : Bytes) (h : keyOfEntry n = some x) : n = x ++ txtSuffix := by
  unfold keyOfEntry at h
  split at h
  · rename_i hn
    obtain rfl : n.take (n.length-4) = x := Option.some.inj h
    rw [← hn.2, List.take_append_drop]
  · cases h

/-- Keys and file names of `lsd/`. -/
def lsdNaming : Naming Bytes Bytes where
  enc := lsdFile
  dec := keyOfEntry
  enc_of_dec k x h := by
    have hx := eq_append_of_keyOfEntry _ x h
    rw [lsdFile, List.append_left_inj] at hx
    rw [lsdFile_inj, ← hx, sanitiseKey_idem]
  dec_inj n n' x h h' := by
    rw [eq_append_of_keyOfEntry n x h, eq_append_of_keyOfEntry n' x h']

theorem sanitiseByte_cases (c : UInt8) : sanitiseByte c = c ∨ sanitiseByte c = 95 := by
  unfold sanitiseByte
  split
  · exact Or.inl rfl
  · exact Or.inr rfl

/-- A key without `_` after sanitising was not changed by it. -/
theorem sanitiseKey_of_clean (k : Bytes) (h : (95 : UInt8) ∉ sanitiseKey k) :
    sanitiseKey k = k := by
  have hc : ∀ c ∈ k, sanitiseByte c = id c := by
    intro c hc
    refine (sanitiseByte_cases c).resolve_right ?_
    intro h95
    exact h (h95 ▸ List.mem_map_of_mem hc)
  exact (List.map_congr_left hc).trans (List.map_id k)

theorem lsdNaming_enc (k : Bytes) : lsdNaming.enc k = lsdFile k := rfl

/-- The keys that share their file are those with a `_` after sanitising. -/
theorem shared_iff (k : Bytes) : lsdNaming.Shared k ↔ 95 ∈ sanitiseKey k := by
  constructor
  · rintro ⟨k', hne, he⟩
    by_contra h
    have he' : sanitiseKey k' = sanitiseKey k := (lsdFile_inj k' k).mp he
    have hk' : sanitiseKey k' = k' := sanitiseKey_of_clean k' (he'.symm ▸ h)
    exact hne (by rw [← hk', he', sanitiseKey_of_clean k h])
  · intro h
    obtain ⟨c, hc, hs⟩ := List.mem_map.mp h
    obtain ⟨a, b, rfl⟩ := List.append_of_mem hc
    -- another byte that becomes `_`
    obtain ⟨c', hne, hc'⟩ : ∃ c', c' ≠ c ∧ sanitiseByte c' = 95 := by
      by_cases h95 : c = 95
      · exact ⟨32, by rw [h95]; decide, by decide⟩
      · exact ⟨95, Ne.symm h95, by decide⟩
    refine ⟨a ++ c' :: b, ?_, ?_⟩
    · intro he
      exact hne (List.cons.inj (List.append_cancel_left he)).1
    · refine (lsdFile_inj _ _).mpr ?_
      simp only [sanitiseKey, List.map_append, List.map_cons, hs, hc']

/-! ### The directory as a map -/

namespace World

theorem lsdFiles_lsdWrite (w : World F) (hv : w.volume.isSome) (k val : Bytes) :
    (w.lsdWrite k val).lsdFiles = Function.update w.lsdFiles (lsdNaming.enc k) (some val) := by
  obtain ⟨v, hv⟩ := Option.isSome_iff_exists.mp hv
  funext n
  rw [lsdNaming_enc]
  by_cases hn : n = lsdFile k
  · rw [hn, Function.update_self]
    simp only [lsdFiles, lsdWrite, hv, Option.map_some, Option.bind_some, AList.lookup_insert]
  · rw [Function.update_of_ne hn]
    simp only [lsdFiles, lsdWrite, hv, Option.map_some, Option.bind_some,
      AList.lookup_insert_ne hn]

theorem lsdFiles_lsdDelete (w : World F) (k : Bytes) :
    (w.lsdDelete k).2.lsdFiles = Function.update w.lsdFiles (lsdNaming.enc k) none := by
  funext n
  rw [lsdNaming_enc]
  unfold lsdFiles lsdDelete
  cases w.volume with
  | none => simp [Function.update_apply]
  | some v =>
    by_cases hn : n = lsdFile k
    · rw [hn, Function.update_self]
      simp only [Option.map_some, Option.bind_some, AList.lookup_erase]
    · rw [Function.update_of_ne hn]
      simp only [Option.map_some, Option.bind_some, AList.lookup_erase_ne hn]

/-- The listed keys, in the order of the directory. -/
theorem lsdListKeys_perm (w : World F) (v : Volume) (hv : w.volume = some v) :
    w.lsdListKeys.Perm (v.lsd.keys.filterMap keyOfEntry) := by
  unfold lsdListKeys
  rw [hv]
  have h := (w.env.readdir_perm ([lit ".", lit ".."] ++ v.lsd.keys)).filterMap keyOfEntry
  rwa [List.filterMap_append, show [lit ".", lit ".."].filterMap keyOfEntry = [] by decide,
    List.nil_append] at h

theorem mem_lsdListKeys (w : World F) (x : Bytes) :
    x ∈ w.lsdListKeys ↔ ∃ n, (w.lsdFiles n).isSome ∧ lsdNaming.dec n = some x := by
  cases hv : w.volume with
  | none => simp [lsdListKeys, lsdFiles, hv]
  | some v =>
    rw [(w.lsdListKeys_perm v hv).mem_iff, List.mem_filterMap]
    apply exists_congr
    intro n
    simp only [lsdFiles, hv, Option.bind_some, AList.lookup_isSome, AList.mem_keys]
    rfl

theorem nodup_lsdListKeys (w : World F) : w.lsdListKeys.Nodup := by
  cases hv : w.volume with
  | none => simp [lsdListKeys, hv]
  | some v =>
    rw [(w.lsdListKeys_perm v hv).nodup_iff]
    exact v.lsd.keys_nodup.filterMap fun n n' x h h' => lsdNaming.dec_inj n n' x h h'

variable [CDouble F]

@[simp] theorem lsdFiles_resetKey (s : ℕ) (w : World F) (k : Bytes) :
    (resetKey s w k).lsdFiles = Function.update w.lsdFiles (lsdNaming.enc k) none :=
  w.lsdFiles_lsdDelete k

theorem lsdFiles_foldl_resetKey (s : ℕ) (ks : List Bytes) (w : World F) (n : Bytes) :
    (ks.foldl (resetKey s) w).lsdFiles n =
      if ∃ k ∈ ks, lsdNaming.enc k = n then none else w.lsdFiles n := by
  induction ks generalizing w with
  | nil => simp
  | cons k ks ih =>
    rw [List.foldl_cons, ih, lsdFiles_resetKey]
    by_cases hk : lsdNaming.enc k = n
    · simp [hk]
    · simp [hk, Function.update_of_ne (Ne.symm hk)]

theorem volume_reset (w : World F) (s : ℕ) (hv : w.volume.isSome) :
    (w.llLinksetDataReset s).volume.isSome := by
  unfold llLinksetDataReset
  induction w.lsdListKeys generalizing w with
  | nil => exact hv
  | cons k ks ih =>
    apply ih
    simpa [resetKey, emit, lsdDelete] using hv

/-- The reset empties the directory but for the files that the listing skips. -/
theorem lsdFiles_reset (w : World F) (s : ℕ) (hc : lsdNaming.Covers w.lsdFiles) :
    (w.llLinksetDataReset s).lsdFiles = lsdNaming.clear w.lsdFiles := by
  funext n
  unfold llLinksetDataReset Naming.clear
  rw [lsdFiles_foldl_resetKey]
  by_cases hn : (w.lsdFiles n).isSome
  · obtain ⟨k, rfl⟩ := hc n hn
    apply ite_congr _ (fun _ => rfl) (fun _ => rfl)
    apply propext
    constructor
    · rintro ⟨x, hx, he⟩
      obtain ⟨n, hn', hd⟩ := (mem_lsdListKeys w x).mp hx
      obtain ⟨k', rfl⟩ := hc n hn'
      rw [← he, lsdNaming.enc_of_dec k' x hd, hd]
      rfl
    · intro hd
      obtain ⟨x, hx⟩ := Option.isSome_iff_exists.mp hd
      exact ⟨x, (mem_lsdListKeys w x).mpr ⟨_, hn, hx⟩, lsdNaming.enc_of_dec k x hx⟩
  · have hnone : w.lsdFiles n = none := by simpa using hn
    simp [hnone]

end World

/-! ### Runs

Linkset data operations of any scripts, with anything else in between that leaves `lsd/` alone,
such as the end of the process and a new start on the same volume. -/

inductive LsdOp (F : Type)
  | write (s : ℕ) (a : List (SValue F))
  | delete (s : ℕ) (a : List (SValue F))
  | reset (s : ℕ)
  | elsewhere (w : World F)

/-- The operation in the emulator. -/
def LsdOp.step [CDouble F] (w : World F) : LsdOp F → World F
  | .write s a => (w.llLinksetDataWrite s a).2
  | .delete s a => (w.llLinksetDataDelete s a).2
  | .reset s => w.llLinksetDataReset s
  | .elsewhere w' => { w' with volume := w.volume.map fun v =>
      { v with economy := w'.volume.bind Volume.economy } }

/-- The operation on a map from keys to values, as the scripts mean it. -/
def LsdOp.spec (m : Bytes → Option Bytes) : LsdOp F → Bytes → Option Bytes
  | .write _ a => Function.update m (argStr a 0) (some (argStr a 1))
  | .delete _ a => Function.update m (argStr a 0) none
  | .reset _ => fun _ => none
  | .elsewhere _ => m

/-- The operation on the directory. -/
def LsdOp.onFiles (f : Bytes → Option Bytes) : LsdOp F → Bytes → Option Bytes
  | .write _ a => Function.update f (lsdNaming.enc (argStr a 0)) (some (argStr a 1))
  | .delete _ a => Function.update f (lsdNaming.enc (argStr a 0)) none
  | .reset _ => lsdNaming.clear f
  | .elsewhere _ => f

variable [CDouble F]

/-- A volume whose files all belong to keys. -/
structure LsdVolume (w : World F) : Prop where
  volume : w.volume.isSome
  covers : lsdNaming.Covers w.lsdFiles

theorem LsdOp.step_files (w : World F) (hw : LsdVolume w) (op : LsdOp F) :
    (op.step w).lsdFiles = op.onFiles w.lsdFiles := by
  have hv : w.volume.isNone = false := by simpa using hw.volume
  cases op with
  | write s a =>
    simp only [step, World.llLinksetDataWrite, hv, Bool.false_eq_true, if_false]
    exact w.lsdFiles_lsdWrite hw.volume (argStr a 0) (argStr a 1)
  | delete s a =>
    simp only [step, World.llLinksetDataDelete, hv, Bool.false_eq_true, if_false]
    exact w.lsdFiles_lsdDelete (argStr a 0)
  | reset s => exact w.lsdFiles_reset s hw.covers
  | elsewhere w' =>
    funext n
    obtain ⟨v, hv⟩ := Option.isSome_iff_exists.mp hw.volume
    simp only [step, onFiles, World.lsdFiles, hv, Option.map_some, Option.bind_some]

theorem LsdOp.step_volume (w : World F) (hw : LsdVolume w) (op : LsdOp F) :
    LsdVolume (op.step w) := by
  constructor
  · have hv : w.volume.isNone = false := by simpa using hw.volume
    cases op with
    | write s a =>
      simp only [step, World.llLinksetDataWrite, hv, Bool.false_eq_true, if_false]
      simpa [World.emit, World.lsdWrite] using hw.volume
    | delete s a =>
      simp only [step, World.llLinksetDataDelete, hv, Bool.false_eq_true, if_false]
      simpa [World.emit, World.lsdDelete] using hw.volume
    | reset s => exact w.volume_reset s hw.volume
    | elsewhere w' => simpa [step] using hw.volume
  · rw [op.step_files w hw]
    cases op with
    | write s a => exact hw.covers.update _ _
    | delete s a => exact hw.covers.update _ _
    | reset s => exact hw.covers.clear
    | elsewhere w' => exact hw.covers

/-- A volume without linkset data. -/
def freshVolume (w : World F) (economy : Option Bytes) : World F :=
  { w with volume := some ⟨economy, ∅⟩ }

omit [CDouble F] in
theorem lsdFiles_freshVolume (w : World F) (economy : Option Bytes) :
    (freshVolume w economy).lsdFiles = fun _ => none := by
  funext n
  unfold freshVolume World.lsdFiles
  exact AList.lookup_empty n

omit [CDouble F] in
theorem lsdVolume_freshVolume (w : World F) (economy : Option Bytes) :
    LsdVolume (freshVolume w economy) := by
  refine ⟨rfl, ?_⟩
  intro n hn
  rw [lsdFiles_freshVolume] at hn
  cases hn

/-! ### Reading -/

/-- Every key reads as its value in the map, and as the empty string without one. -/
def ReadsRight (w : World F) (m : Bytes → Option Bytes) : Prop :=
  ∀ a, w.llLinksetDataRead a = .string ((m (argStr a 0)).getD [])

def AlwaysReads (w : World F) (m : Bytes → Option Bytes) : List (LsdOp F) → Prop
  | [] => ReadsRight w m
  | op :: ops => ReadsRight w m ∧ AlwaysReads (op.step w) (op.spec m) ops

/-- The operation does not run into shared or unlisted file names: a value goes to a key that
no other key shares its file with, and a reset finds no value in the file of the empty key. -/
def LsdOp.Unshared (w : World F) : LsdOp F → Prop
  | .write _ a => argStr a 1 = [] ∨ (95 : UInt8) ∉ sanitiseKey (argStr a 0)
  | .delete _ _ => True
  | .reset _ => (w.lsdFiles txtSuffix).getD [] = []
  | .elsewhere _ => True

def AllUnshared (w : World F) : List (LsdOp F) → Prop
  | [] => True
  | op :: ops => op.Unshared w ∧ AllUnshared (op.step w) ops

omit [CDouble F] in
theorem readsRight_iff (w : World F) (m : Bytes → Option Bytes) :
    ReadsRight w m ↔ lsdNaming.ReadsAs [] w.lsdFiles m := by
  constructor
  · intro h k
    exact SValue.string.inj (h [.string k])
  · intro h a
    exact congrArg SValue.string (h (argStr a 0))

theorem keyOfEntry_lsdFile_none (k : Bytes) : keyOfEntry (lsdFile k) = none ↔ k = [] := by
  rw [lsdFile, keyOfEntry_append]
  simp [sanitiseKey]

theorem LsdOp.step_reads_iff (w : World F) (m : Bytes → Option Bytes) (op : LsdOp F)
    (hw : LsdVolume w) (h : lsdNaming.ReadsAs [] w.lsdFiles m)
    (hb : lsdNaming.SharedBlank [] m) :
    lsdNaming.ReadsAs [] (op.step w).lsdFiles (op.spec m) ↔ op.Unshared w := by
  rw [op.step_files w hw]
  cases op with
  | write s a =>
    simp only [onFiles, spec, Unshared]
    rw [h.put_iff hb, shared_iff]
    tauto
  | delete s a => exact iff_of_true (h.del hb (argStr a 0)) trivial
  | reset s =>
    simp only [onFiles, spec, Unshared]
    rw [h.clear_iff]
    have hk (k : Bytes) : lsdNaming.dec (lsdNaming.enc k) = none ↔ k = [] :=
      keyOfEntry_lsdFile_none k
    simp only [hk, forall_eq, ← h []]
    rfl
  | elsewhere w' => exact iff_of_true h trivial

omit [CDouble F] in
theorem LsdOp.spec_sharedBlank (w : World F) (m : Bytes → Option Bytes) (op : LsdOp F)
    (hb : lsdNaming.SharedBlank [] m) (ho : op.Unshared w) :
    lsdNaming.SharedBlank [] (op.spec m) := by
  cases op with
  | write s a =>
    refine hb.update (argStr a 0) (some (argStr a 1)) ?_
    intro hs
    exact ho.resolve_right (not_not_intro ((shared_iff _).mp hs))
  | delete s a => exact hb.update (argStr a 0) none fun _ => rfl
  | reset s => exact fun _ _ => rfl
  | elsewhere w' => exact hb

theorem alwaysReads_iff (w : World F) (m : Bytes → Option Bytes) (ops : List (LsdOp F))
    (hw : LsdVolume w) (h : lsdNaming.ReadsAs [] w.lsdFiles m)
    (hb : lsdNaming.SharedBlank [] m) : AlwaysReads w m ops ↔ AllUnshared w ops := by
  induction ops generalizing w m with
  | nil => exact iff_of_true ((readsRight_iff w m).mpr h) trivial
  | cons op ops ih =>
    have hstep := op.step_reads_iff w m hw h hb
    constructor
    · rintro ⟨-, hr⟩
      have hr1 : ReadsRight (op.step w) (op.spec m) := by
        cases ops with
        | nil => exact hr
        | cons op' ops => exact hr.1
      have ho := hstep.mp ((readsRight_iff _ _).mp hr1)
      exact ⟨ho, (ih _ _ (op.step_volume w hw) (hstep.mpr ho)
        (op.spec_sharedBlank w m hb ho)).mp hr⟩
    · rintro ⟨ho, hr⟩
      exact ⟨(readsRight_iff w m).mpr h, (ih _ _ (op.step_volume w hw) (hstep.mpr ho)
        (op.spec_sharedBlank w m hb ho)).mpr hr⟩

/-- From a fresh volume on, `llLinksetDataRead` answers from the map of what was written,
deleted and reset exactly in the runs whose operations keep to unshared files. -/
theorem linksetData_reads_iff (w : World F) (economy : Option Bytes) (ops : List (LsdOp F)) :
    AlwaysReads (freshVolume w economy) (fun _ => none) ops ↔
      AllUnshared (freshVolume w economy) ops := by
  apply alwaysReads_iff _ _ _ (lsdVolume_freshVolume w economy)
  · rw [lsdFiles_freshVolume]
    exact fun _ => rfl
  · exact fun _ _ => rfl

/-- Writing `a b` after `a_b` changes what is read for `a_b`. -/
theorem linksetData_shared_file :
    ¬ AlwaysReads (freshVolume (regionInit (default : Env ℚ)) none) (fun _ => none)
      [.write 0 [.string (lit "a_b"), .string (lit "1")],
       .write 0 [.string (lit "a b"), .string (lit "2")]] := by
  rintro ⟨-, -, h⟩
  have ha := SValue.string.inj (h [.string (lit "a_b")])
  exact absurd ha (by decide)

/-! ### Listing -/

/-- The listing shows every key of the map once, and nothing else; the count is its length. -/
def ListsRight (w : World F) (m : Bytes → Option Bytes) : Prop :=
  ∃ ks : List Bytes, w.llLinksetDataListKeys = .list (ks.map .string) ∧ ks.Nodup ∧
    (∀ k, k ∈ ks ↔ (m k).isSome) ∧ w.llLinksetDataCountKeys = .int ks.length

/-- What a reset promises. -/
def Emptied (w : World F) : Prop :=
  w.llLinksetDataCountKeys = .int 0 ∧ ∀ a, w.llLinksetDataRead a = .string []

def LsdOp.isReset : LsdOp F → Bool
  | .reset _ => true
  | _ => false

def AlwaysLists (w : World F) (m : Bytes → Option Bytes) : List (LsdOp F) → Prop
  | [] => ListsRight w m
  | op :: ops => ListsRight w m ∧ (op.isReset → Emptied (op.step w)) ∧
      AlwaysLists (op.step w) (op.spec m) ops

/-- The operation leaves the listing right: what is written is listed under its own spelling,
and what is deleted is the file of no other key. -/
def LsdOp.Listable (w : World F) : LsdOp F → Prop
  | .write _ a => sanitiseKey (argStr a 0) = argStr a 0 ∧ argStr a 0 ≠ []
  | .delete _ a => sanitiseKey (argStr a 0) = argStr a 0 ∨ w.lsdFiles (lsdFile (argStr a 0)) = none
  | .reset _ => True
  | .elsewhere _ => True

def AllListable (w : World F) : List (LsdOp F) → Prop
  | [] => True
  | op :: ops => op.Listable w ∧ AllListable (op.step w) ops

omit [CDouble F] in
theorem map_string_injective :
    Function.Injective (List.map (SValue.string : Bytes → SValue F)) :=
  List.map_injective_iff.mpr fun _ _ => SValue.string.inj

omit [CDouble F] in
theorem listsRight_iff (w : World F) (m : Bytes → Option Bytes) :
    ListsRight w m ↔ lsdNaming.ListsAs w.lsdFiles m := by
  unfold Naming.ListsAs
  simp only [← World.mem_lsdListKeys]
  constructor
  · rintro ⟨ks, hl, -, hm, -⟩
    rwa [map_string_injective (SValue.list.inj hl)]
  · intro hm
    exact ⟨w.lsdListKeys, rfl, w.nodup_lsdListKeys, hm, rfl⟩

theorem own_iff (k : Bytes) : lsdNaming.Own k ↔ sanitiseKey k = k ∧ k ≠ [] := by
  have hk : sanitiseKey k = [] ↔ k = [] := by simp [sanitiseKey]
  change keyOfEntry (sanitiseKey k ++ txtSuffix) = some k ↔ _
  rw [keyOfEntry_append]
  split
  · rename_i h
    simp [hk.mp h]
  · rename_i h
    simp [mt hk.mpr h]

theorem LsdOp.step_lists_iff (w : World F) (m : Bytes → Option Bytes) (op : LsdOp F)
    (hw : LsdVolume w) (h : lsdNaming.ListsAs w.lsdFiles m) :
    lsdNaming.ListsAs (op.step w).lsdFiles (op.spec m) ↔ op.Listable w := by
  rw [op.step_files w hw]
  cases op with
  | write s a => exact (h.put_iff hw.covers _ _).trans (own_iff _)
  | delete s a =>
    refine (h.del_iff hw.covers _).trans ?_
    change (∀ x, keyOfEntry (sanitiseKey (argStr a 0) ++ txtSuffix) = some x → _) ↔ _
    rw [keyOfEntry_append]
    split
    · rename_i hk
      have hk' : argStr a 0 = [] := by simpa [sanitiseKey] using hk
      simp [Listable, hk', sanitiseKey]
    · simp only [Option.some.injEq, forall_eq', Listable, lsdNaming_enc]
  | reset s => exact iff_of_true Naming.ListsAs.clear trivial
  | elsewhere w' => exact iff_of_true h trivial

/-- No file is hidden from the listing. -/
def NoHidden (f : Bytes → Option Bytes) : Prop := f txtSuffix = none

theorem LsdOp.step_noHidden (w : World F) (op : LsdOp F) (hw : LsdVolume w)
    (hn : NoHidden w.lsdFiles) (ho : op.Listable w) : NoHidden (op.step w).lsdFiles := by
  have hne (k : Bytes) (hk : k ≠ []) : txtSuffix ≠ lsdFile k := by
    intro he
    have := (keyOfEntry_lsdFile_none k).mp (he ▸ by decide)
    exact hk this
  unfold NoHidden at hn ⊢
  rw [op.step_files w hw]
  cases op with
  | write s a => exact (Function.update_of_ne (hne _ ho.2) _ _).trans hn
  | delete s a =>
    simp only [onFiles, Function.update_apply]
    split
    · rfl
    · exact hn
  | reset s =>
    simp only [onFiles, Naming.clear, hn, ite_self]
  | elsewhere w' => exact hn

/-- With nothing hidden a reset leaves no file. -/
theorem reset_emptied (w : World F) (s : ℕ) (hw : LsdVolume w) (hn : NoHidden w.lsdFiles) :
    Emptied (w.llLinksetDataReset s) := by
  have hf : (w.llLinksetDataReset s).lsdFiles = fun _ => none := by
    rw [w.lsdFiles_reset s hw.covers]
    funext n
    unfold Naming.clear
    split
    · rfl
    · rename_i hd
      by_contra hsome
      obtain ⟨k, rfl⟩ := hw.covers n (Option.isSome_iff_ne_none.mpr hsome)
      have hk : k = [] := (keyOfEntry_lsdFile_none k).mp (Option.not_isSome_iff_eq_none.mp hd)
      subst hk
      exact hsome hn
  constructor
  · have hl : (w.llLinksetDataReset s).lsdListKeys = [] := by
      apply List.eq_nil_iff_forall_not_mem.mpr
      intro x hx
      obtain ⟨n, hn, -⟩ := (World.mem_lsdListKeys _ x).mp hx
      simp [hf] at hn
    simp only [World.llLinksetDataCountKeys, hl, List.length_nil, Nat.cast_zero]
  · intro a
    simp only [World.llLinksetDataRead, World.lsdRead, hf, Option.getD_none]

theorem alwaysLists_iff (w : World F) (m : Bytes → Option Bytes) (ops : List (LsdOp F))
    (hw : LsdVolume w) (h : lsdNaming.ListsAs w.lsdFiles m) (hn : NoHidden w.lsdFiles) :
    AlwaysLists w m ops ↔ AllListable w ops := by
  induction ops generalizing w m with
  | nil => exact iff_of_true ((listsRight_iff w m).mpr h) trivial
  | cons op ops ih =>
    have hstep := op.step_lists_iff w m hw h
    constructor
    · rintro ⟨-, -, hl⟩
      have hl1 : ListsRight (op.step w) (op.spec m) := by
        cases ops with
        | nil => exact hl
        | cons op' ops => exact hl.1
      have ho := hstep.mp ((listsRight_iff _ _).mp hl1)
      exact ⟨ho, (ih _ _ (op.step_volume w hw) (hstep.mpr ho)
        (op.step_noHidden w hw hn ho)).mp hl⟩
    · rintro ⟨ho, hl⟩
      refine ⟨(listsRight_iff w m).mpr h, ?_, (ih _ _ (op.step_volume w hw) (hstep.mpr ho)
        (op.step_noHidden w hw hn ho)).mpr hl⟩
      intro hr
      cases op with
      | reset s => exact reset_emptied w s hw hn
      | write s a => cases hr
      | delete s a => cases hr
      | elsewhere w' => cases hr

/-- From a fresh volume on, the listing is exact in exactly the runs that write keys under
their own spelling and delete no other key's file. -/
theorem linksetData_lists_iff (w : World F) (economy : Option Bytes) (ops : List (LsdOp F)) :
    AlwaysLists (freshVolume w economy) (fun _ => none) ops ↔
      AllListable (freshVolume w economy) ops := by
  apply alwaysLists_iff _ _ _ (lsdVolume_freshVolume w economy)
  · rw [lsdFiles_freshVolume]
    intro x
    simp
  · rw [lsdFiles_freshVolume]
    rfl

/-- The key `a b` is listed as `a_b`. -/
theorem linksetData_lists_sanitised :
    ¬ AlwaysLists (freshVolume (regionInit (default : Env ℚ)) none) (fun _ => none)
      [.write 0 [.string (lit "a b"), .string (lit "1")]] := by
  rintro ⟨-, -, ks, hl, -, hm, -⟩
  have hk : lit "a b" ∈ ks := (hm (lit "a b")).mpr (by decide)
  rw [← map_string_injective (SValue.list.inj hl)] at hk
  exact absurd hk (by decide)

end Slemu
