import Slemu.EventLines
import Slemu.SchedulerSteps

/-! Which of the lines written with `--json-events` are JSON that says what was reported. -/

namespace Slemu
open Json (Str Chr Out Val isPlain)
variable {F : Type} [CDouble F]

/-! ### The characters of `j_emit_str` -/

def nibble (n : UInt8) : UInt8 := if n < 10 then 48+n else 87+n

theorem isHex_nibble : ∀ c : UInt8, Json.isHex (nibble (c%16)) := by decide +kernel

/-- The character of a JSON string that `j_emit_str` writes for a byte. -/
def escChr (c : UInt8) : Chr :=
  if h : c = 34 ∨ c = 92 then .esc c (by rcases h with rfl | rfl <;> rfl)
  else if c = 10 then .esc 110 rfl
  else if c = 13 then .esc 114 rfl
  else if c = 9 then .esc 116 rfl
  else if h : isPlain c then .plain c h
  else .hex 48 48 (nibble (c/16%16)) (nibble (c%16))
    ⟨rfl, rfl, isHex_nibble (c/16), isHex_nibble c⟩

theorem escChr_raw : ∀ c, (escChr c).raw = jEmitChar c := by decide +kernel

theorem decode_escChr (c : UInt8) (s : Str) :
    Str.decode (escChr c :: s) = c :: Str.decode s := by
  unfold escChr
  split_ifs with h h10 h13 h9 hp
  · rcases h with rfl | rfl
    · rfl
    · rfl
  · rw [h10]
    rfl
  · rw [h13]
    rfl
  · rw [h9]
    rfl
  · rfl
  · have hu : ∀ c : UInt8, isPlain c = false →
        Json.isHigh (Json.hexUnit 48 48 (nibble (c/16%16)) (nibble (c%16))) = false ∧
        (¬ (c = 34 ∨ c = 92) →
          Json.utf8 (Json.hexUnit 48 48 (nibble (c/16%16)) (nibble (c%16))) = [c]) := by
      decide +kernel
    obtain ⟨hlow, hutf⟩ := hu c (by simpa using hp)
    rw [Str.decode_hex _ hlow, hutf h]
    rfl

/-- What `j_emit_str` writes between its quotes. -/
def escStr (b : Bytes) : Str := b.map escChr

theorem escStr_text (b : Bytes) : (escStr b).text = jEmitStr b := by
  have h : Str.raw (escStr b) = b.flatMap jEmitChar := by
    rw [Str.raw, escStr, List.flatMap_map]
    simp only [escChr_raw]
  rw [Str.text, h]
  rfl

theorem decode_escStr (b : Bytes) : Str.decode (escStr b) = b := by
  induction b with
  | nil => rfl
  | cons c b ih =>
    have h : Str.decode (escStr (c :: b)) = c :: Str.decode (escStr b) := decode_escChr c _
    rw [h, ih]

/-! ### What an event should say -/

/-- The members of every event. -/
def header (now : F) (type : Bytes) : List (Bytes × Val) :=
  [(lit "t", .num (CDouble.fmt 3 now)), (lit "type", .str type)]

def Field.meant : Field F → Bytes × Val
  | .str k v => (k, .str v)
  | .int k v => (k, .num (decBytes v))
  | .dbl k v => (k, .num (CDouble.fmt 6 v))
  | .strs k l => (k, .arr (l.map .str))

def Report.meant (now : F) (r : Report F) : List (Bytes × Val) :=
  header now r.type ++ r.fields.map Field.meant

def setPosSays (now : F) (src : Bytes) (x y z : F) : List (Bytes × Val) :=
  header now (lit "set-pos") ++
    [(lit "src", .str src), (lit "x", .num (CDouble.fmt 6 x)), (lit "y", .num (CDouble.fmt 6 y)),
      (lit "z", .num (CDouble.fmt 6 z))]

def setRotSays (now : F) (src : Bytes) (x y z s : F) : List (Bytes × Val) :=
  header now (lit "set-rot") ++
    [(lit "src", .str src), (lit "x", .num (CDouble.fmt 6 x)), (lit "y", .num (CDouble.fmt 6 y)),
      (lit "z", .num (CDouble.fmt 6 z)), (lit "s", .num (CDouble.fmt 6 s))]

def avatarSays (a : Avatar) : Val :=
  .obj [(lit "uuid", .str a.uuid), (lit "name", .str a.name),
    (lit "balance", .num (decBytes a.balance)),
    (lit "attached", .str (a.attachedObject.getD []))]

def groupSays (g : Group) : Val :=
  .obj [(lit "uuid", .str g.uuid), (lit "name", .str g.name),
    (lit "n_members", .num (decBytes g.nMembers))]

def scriptSays (t : Script F) : Val :=
  .obj [(lit "name", .str t.name), (lit "uuid", .str t.uuid), (lit "link", .num (decBytes t.linkNum)),
    (lit "hud_text", .str (t.hudText.getD []))]

def dialogSays (d : OpenDialog) : Val :=
  .obj [(lit "src", .str d.scriptUuid), (lit "to", .str d.toAvatar),
    (lit "ch", .num (decBytes d.channel)),
    (lit "is_textbox", .num (decBytes (if d.isTextbox then 1 else 0))),
    (lit "msg", .str d.message), (lit "buttons", .arr (d.buttons.map .str))]

def snapshotSays (groups : List Group) (w : World F) : List (Bytes × Val) :=
  header w.virtualNow (lit "snapshot") ++
    [(lit "avatars", .arr (w.avatars.map avatarSays)), (lit "groups", .arr (groups.map groupSays)),
      (lit "scripts", .arr (w.scripts.map scriptSays)),
      (lit "dialogs", .arr (w.dialogs.map dialogSays))]

/-- The members the event should have, with the strings as the emitter was given them. -/
def Emission.meant (groups : List Group) (w : World F) : Emission F → List (Bytes × Val)
  | .evt e => match e with
    | .chat kind ch src srcUuid msg => (evtChat kind ch src srcUuid msg).meant w.virtualNow
    | .chatTo src srcUuid dst ch msg => (evtChatTo src srcUuid dst ch msg).meant w.virtualNow
    | .dialog src srcUuid dst msg buttons ch isTextbox =>
      (evtDialog src srcUuid dst msg buttons ch isTextbox).meant w.virtualNow
    | .loadUrl src dst label url => (evtLoadurl src dst label url).meant w.virtualNow
    | .hudText src text r g b alpha => (evtHudText src text r g b alpha).meant w.virtualNow
    | .money src dst amt ok => (evtMoney src dst amt ok).meant w.virtualNow
    | .permissionRequest src who mask => (evtPermissionRequest src who mask).meant w.virtualNow
    | .linkMsg src srcLink target num str id =>
      (evtLinkMsg src srcLink target num str id).meant w.virtualNow
    | .httpOut src url method status bodyLen =>
      (evtHttpOut src url method status bodyLen).meant w.virtualNow
    | .eventDispatch src event nArgs => (evtEventDispatch src event nArgs).meant w.virtualNow
    | .info msg => (evtInfo msg).meant w.virtualNow
    | .assertion what passed detail => (evtAssertion what passed detail).meant w.virtualNow
    | .lsdSet src key value => (evtLsdSet src key value).meant w.virtualNow
    | .primSet src fn => (evtPrimSet src fn).meant w.virtualNow
    | .agentDataRequest src who kind => (evtAgentDataRequest src who kind).meant w.virtualNow
    | .rez src inventory => (evtRez src inventory).meant w.virtualNow
    | .setPos src x y z => setPosSays w.virtualNow src x y z
    | .setRot src x y z s => setRotSays w.virtualNow src x y z s
    | .snapshot => snapshotSays groups w
  | .stateChange src old new => (evtStateChange src old new).meant w.virtualNow
  | .die src => (evtDie src).meant w.virtualNow
  | .reset src => (evtReset src).meant w.virtualNow

/-- One line with one JSON object, which has these members. -/
def IsEventLine (line : Bytes) (ms : List (Bytes × Val)) : Prop :=
  ∃ d : Json.Doc, line = d.text ++ [10] ∧ (10 : UInt8) ∉ d.text ∧ d.root.decode = .obj ms

/-! ### When it does -/

def IsNumber (t : Bytes) : Prop := ∃ n : Json.Num, n.text = t

/-- No quote, backslash or control character. -/
def IsPlain (b : Bytes) : Prop := ∀ c ∈ b, isPlain c

instance (b : Bytes) : Decidable (IsPlain b) := inferInstanceAs (Decidable (∀ c ∈ b, isPlain c))

theorem isNumber_decBytes (i : ℤ) : IsNumber (decBytes i) := ⟨decNum i, decNum_text i⟩

def Avatar.Plain (a : Avatar) : Prop :=
  IsPlain a.uuid ∧ IsPlain a.name ∧ IsPlain (a.attachedObject.getD [])

def Group.Plain (g : Group) : Prop := IsPlain g.uuid ∧ IsPlain g.name

def Script.Plain (t : Script F) : Prop :=
  IsPlain t.name ∧ IsPlain t.uuid ∧ IsPlain (t.hudText.getD [])

def OpenDialog.Plain (d : OpenDialog) : Prop :=
  IsPlain d.scriptUuid ∧ IsPlain d.toAvatar ∧ IsPlain d.message ∧ ∀ b ∈ d.buttons, IsPlain b

/-- What is printed without `j_emit_str` is plain, what is printed as a number is one, and what
goes through a buffer fits in it. -/
def Emission.Clean (groups : List Group) (w : World F) : Emission F → Prop
  | .evt (.hudText _ _ r g b alpha) => ∀ f ∈ [r, g, b, alpha], IsNumber (CDouble.fmt 6 f)
  | .evt (.info msg) => msg.length ≤ 1023
  | .evt (.setPos src x y z) => IsPlain src ∧ ∀ f ∈ [x, y, z], IsNumber (CDouble.fmt 6 f)
  | .evt (.setRot src x y z s) => IsPlain src ∧ ∀ f ∈ [x, y, z, s], IsNumber (CDouble.fmt 6 f)
  | .evt .snapshot => (∀ a ∈ w.avatars, a.Plain) ∧ (∀ g ∈ groups, g.Plain) ∧
      (∀ t ∈ w.scripts, t.Plain) ∧ ∀ d ∈ w.dialogs, d.Plain
  | _ => True

/-! ### The lines as texts put together -/

def eventOut (now : F) (type : Bytes) (fields : List (Bytes × Out)) : Out :=
  .obj ((lit "t", .num (CDouble.fmt 3 now)) :: (lit "type", .raw type) :: fields)

def Field.out : Field F → Bytes × Out
  | .str k v => (k, .esc (escStr v) v)
  | .int k v => (k, .num (decBytes v))
  | .dbl k v => (k, .num (CDouble.fmt 6 v))
  | .strs k l => (k, .arr (l.map fun v => .esc (escStr v) v))

def Report.out (now : F) (r : Report F) : Out := eventOut now r.type (r.fields.map Field.out)

/-- One text of an event written with its key. -/
def memberBytes (m : Bytes × Out) : Bytes := 44 :: 34 :: m.1 ++ 34 :: 58 :: m.2.render

theorem eventOut_render (now : F) (type : Bytes) (fields : List (Bytes × Out)) :
    (eventOut now type fields).render ++ [10] =
      jOpen now type ++ (fields.flatMap memberBytes ++ lit "\x7d\n") := by
  have hl : lit "\x7d\n" = [125, 10] := by decide +kernel
  rw [eventOut, Out.render, Out.renderMembers_eq, List.map_cons, List.map_cons, Json.items,
    List.flatMap_cons, List.flatMap_map, hl]
  simp only [Out.render, jOpen, List.append_assoc, List.cons_append, List.nil_append]
  rfl

theorem Field.bytes_eq (f : Field F) : f.bytes = memberBytes f.out := by
  have h1 : lit ",\"" = [44, 34] := by decide +kernel
  have h2 : lit "\":" = [34, 58] := by decide +kernel
  have h3 : lit "\":[" = [34, 58, 91] := by decide +kernel
  have h4 : lit "]" = [93] := by decide +kernel
  cases f with
  | strs k l =>
    rw [bytes, memberBytes, out, h1, h3, h4]
    simp only [Out.render, Out.renderElems_eq, List.map_map, List.append_assoc, List.cons_append,
      List.nil_append]
    have h : (l.map jEmitStr) = l.map (Out.render ∘ fun v => .esc (escStr v) v) :=
      List.map_congr_left fun v _ => (escStr_text v).symm
    rw [h]
  | str k v =>
    rw [bytes, memberBytes, out, h1, h2, Out.render, escStr_text, List.append_assoc]
    rfl
  | int k v =>
    rw [bytes, memberBytes, out, h1, h2, Out.render, List.append_assoc]
    rfl
  | dbl k v =>
    rw [bytes, memberBytes, out, h1, h2, Out.render, List.append_assoc]
    rfl

theorem Report.line_eq (now : F) (r : Report F) : r.line now = (r.out now).render ++ [10] := by
  have h : (Field.bytes : Field F → Bytes) = fun f => memberBytes f.out := funext Field.bytes_eq
  rw [out, eventOut_render, line, List.flatMap_map, h]

def setPosOut (now : F) (src : Bytes) (x y z : F) : Out :=
  eventOut now (lit "set-pos")
    [(lit "src", .raw src), (lit "x", .num (CDouble.fmt 6 x)), (lit "y", .num (CDouble.fmt 6 y)),
      (lit "z", .num (CDouble.fmt 6 z))]

theorem setPosLine_eq (now : F) (src : Bytes) (x y z : F) :
    setPosLine now src x y z = (setPosOut now src x y z).render ++ [10] := by
  rw [setPosOut, eventOut_render, setPosLine]
  simp only [List.append_assoc, List.flatMap_cons, List.flatMap_nil, List.nil_append, memberBytes,
    List.cons_append, Out.render, jOpen]
  rfl

def setRotOut (now : F) (src : Bytes) (x y z s : F) : Out :=
  eventOut now (lit "set-rot")
    [(lit "src", .raw src), (lit "x", .num (CDouble.fmt 6 x)), (lit "y", .num (CDouble.fmt 6 y)),
      (lit "z", .num (CDouble.fmt 6 z)), (lit "s", .num (CDouble.fmt 6 s))]

theorem setRotLine_eq (now : F) (src : Bytes) (x y z s : F) :
    setRotLine now src x y z s = (setRotOut now src x y z s).render ++ [10] := by
  rw [setRotOut, eventOut_render, setRotLine]
  simp only [List.append_assoc, List.flatMap_cons, List.flatMap_nil, List.nil_append, memberBytes,
    List.cons_append, Out.render, jOpen]
  rfl

def avatarOut (a : Avatar) : Out :=
  .obj [(lit "uuid", .raw a.uuid), (lit "name", .raw a.name),
    (lit "balance", .num (decBytes a.balance)),
    (lit "attached", .raw (a.attachedObject.getD []))]

def groupOut (g : Group) : Out :=
  .obj [(lit "uuid", .raw g.uuid), (lit "name", .raw g.name),
    (lit "n_members", .num (decBytes g.nMembers))]

def scriptOut (t : Script F) : Out :=
  .obj [(lit "name", .raw t.name), (lit "uuid", .raw t.uuid), (lit "link", .num (decBytes t.linkNum)),
    (lit "hud_text", .raw (t.hudText.getD []))]

def dialogOut (d : OpenDialog) : Out :=
  .obj [(lit "src", .raw d.scriptUuid), (lit "to", .raw d.toAvatar),
    (lit "ch", .num (decBytes d.channel)),
    (lit "is_textbox", .num (decBytes (if d.isTextbox then 1 else 0))),
    (lit "msg", .raw d.message), (lit "buttons", .arr (d.buttons.map .raw))]

def snapshotOut (groups : List Group) (w : World F) : Out :=
  eventOut w.virtualNow (lit "snapshot")
    [(lit "avatars", .arr (w.avatars.map avatarOut)), (lit "groups", .arr (groups.map groupOut)),
      (lit "scripts", .arr (w.scripts.map scriptOut)),
      (lit "dialogs", .arr (w.dialogs.map dialogOut))]

theorem snapshotAvatar_eq (a : Avatar) : snapshotAvatar a = (avatarOut a).render := by
  rw [snapshotAvatar, avatarOut]
  simp only [Out.render, Out.renderMembers, Json.items, List.append_assoc, List.flatMap_cons,
    List.flatMap_nil, List.cons_append, List.nil_append]
  rfl

theorem snapshotGroup_eq (g : Group) : snapshotGroup g = (groupOut g).render := by
  rw [snapshotGroup, groupOut]
  simp only [Out.render, Out.renderMembers, Json.items, List.append_assoc, List.flatMap_cons,
    List.flatMap_nil, List.cons_append, List.nil_append]
  rfl

omit [CDouble F] in
theorem snapshotScript_eq (t : Script F) : snapshotScript t = (scriptOut t).render := by
  rw [snapshotScript, scriptOut]
  simp only [Out.render, Out.renderMembers, Json.items, List.append_assoc, List.flatMap_cons,
    List.flatMap_nil, List.cons_append, List.nil_append]
  rfl

theorem snapshotDialog_eq (d : OpenDialog) : snapshotDialog d = (dialogOut d).render := by
  have hb : (d.buttons.map fun b => lit "\"" ++ b ++ lit "\"") =
      d.buttons.map (Out.render ∘ .raw) := rfl
  rw [snapshotDialog, dialogOut, hb]
  simp only [Out.render, Out.renderMembers, Out.renderElems_eq, List.map_map, Json.items,
    List.append_assoc, List.flatMap_cons, List.flatMap_nil, List.cons_append, List.nil_append]
  rfl

theorem snapshotLine_eq (groups : List Group) (w : World F) :
    snapshotLine groups w = (snapshotOut groups w).render ++ [10] := by
  have ha : (snapshotAvatar : Avatar → Bytes) = Out.render ∘ avatarOut := funext snapshotAvatar_eq
  have hg : (snapshotGroup : Group → Bytes) = Out.render ∘ groupOut := funext snapshotGroup_eq
  have ht : (snapshotScript : Script F → Bytes) = Out.render ∘ scriptOut :=
    funext snapshotScript_eq
  have hd : (snapshotDialog : OpenDialog → Bytes) = Out.render ∘ dialogOut :=
    funext snapshotDialog_eq
  rw [snapshotOut, eventOut_render, snapshotLine, ha, hg, ht, hd]
  simp only [List.append_assoc, List.flatMap_cons, List.flatMap_nil, List.nil_append, memberBytes,
    List.cons_append, Out.render, Out.renderElems_eq, List.map_map, jOpen]
  rfl

/-! ### Events that say what they should -/

theorem isEventLine_iff {line : Bytes} {o : Out} {ms : List (Bytes × Val)}
    (hl : line = o.render ++ [10]) (hm : o.meaning = .obj ms) : IsEventLine line ms ↔ o.Good := by
  rw [← Out.exists_doc_iff]
  constructor
  · rintro ⟨d, hd, -, hj⟩
    exact ⟨d, List.append_cancel_right (hd.symm.trans hl), hj.trans hm.symm⟩
  · rintro ⟨d, hd, hj⟩
    have hgood := (Out.exists_doc_iff o).mp ⟨d, hd, hj⟩
    exact ⟨d, by rw [hl, hd], by rw [hd]; exact hgood.one_line, hj.trans hm⟩

theorem eventOut_good {now : F} {type : Bytes} {fields : List (Bytes × Out)} (ht : IsPlain type) :
    (eventOut now type fields).Good ↔
      IsNumber (CDouble.fmt 3 now) ∧ ∀ m ∈ fields, IsPlain m.1 ∧ m.2.Good := by
  have h1 : IsPlain (lit "t") := by simp [lit, IsPlain, isPlain]
  have h2 : IsPlain (lit "type") := by simp [lit, IsPlain, isPlain]
  rw [eventOut, Out.good_obj, List.forall_mem_cons, List.forall_mem_cons, Out.good_num,
    Out.good_raw]
  exact ⟨fun h => ⟨h.1.2, h.2.2⟩, fun h => ⟨⟨h1, h.1⟩, ⟨h2, ht⟩, h.2⟩⟩

def Field.key : Field F → Bytes
  | .str k _ => k
  | .int k _ => k
  | .dbl k _ => k
  | .strs k _ => k

/-- A field that is printed as a number is one. -/
def Field.Clean : Field F → Prop
  | .dbl _ v => IsNumber (CDouble.fmt 6 v)
  | _ => True

theorem Field.good_iff (f : Field F) : f.out.2.Good ↔ f.Clean := by
  cases f with
  | str k v => exact iff_of_true (.esc (decode_escStr v)) trivial
  | int k v => exact Out.good_num.trans (iff_of_true (isNumber_decBytes v) trivial)
  | dbl k v => exact Out.good_num
  | strs k l =>
    refine iff_of_true (.arr fun o ho => ?_) trivial
    obtain ⟨v, -, rfl⟩ := List.mem_map.mp ho
    exact .esc (decode_escStr v)

theorem Report.meaning_eq (now : F) (r : Report F) : (r.out now).meaning = .obj (r.meant now) := by
  have h (f : Field F) : (f.out.1, f.out.2.meaning) = f.meant := by
    cases f with
    | strs k l =>
      rw [Field.out, Field.meant, Out.meaning, Out.elemMeanings_eq, List.map_map]
      rfl
    | _ => rfl
  rw [out, eventOut, Out.meaning, Out.memberMeanings_eq, List.map_cons, List.map_cons,
    List.map_map, Report.meant, header]
  simp only [Function.comp_def, h]
  rfl

/-- Whatever goes through the helpers of events.c says what it should, as long as the numbers
are numbers. -/
theorem Report.isEventLine_iff (now : F) (r : Report F) (ht : IsPlain r.type)
    (hk : ∀ k ∈ r.fields.map Field.key, IsPlain k) :
    IsEventLine (r.line now) (r.meant now) ↔
      IsNumber (CDouble.fmt 3 now) ∧ ∀ f ∈ r.fields, f.Clean := by
  rw [Slemu.isEventLine_iff (r.line_eq now) (r.meaning_eq now), out, eventOut_good ht,
    List.forall_mem_map]
  refine and_congr_right fun _ => forall₂_congr fun f hf => ?_
  have hkey : f.out.1 = f.key := by cases f <;> rfl
  rw [hkey, Field.good_iff]
  exact and_iff_right (hk f.key (List.mem_map_of_mem hf))

theorem setPos_isEventLine (now : F) (src : Bytes) (x y z : F) :
    IsEventLine (setPosLine now src x y z) (setPosSays now src x y z) ↔
      IsNumber (CDouble.fmt 3 now) ∧ IsPlain src ∧ ∀ f ∈ [x, y, z], IsNumber (CDouble.fmt 6 f) := by
  have ht : IsPlain (lit "set-pos") := by simp [lit, IsPlain, isPlain]
  have hk : IsPlain (lit "src") ∧ IsPlain (lit "x") ∧ IsPlain (lit "y") ∧ IsPlain (lit "z") := by
    decide +kernel
  have hm : (setPosOut now src x y z).meaning = .obj (setPosSays now src x y z) := rfl
  rw [isEventLine_iff (setPosLine_eq now src x y z) hm, setPosOut, eventOut_good ht]
  refine and_congr_right fun _ => ?_
  simp only [List.forall_mem_cons, List.not_mem_nil, IsEmpty.forall_iff, implies_true, and_true,
    hk, true_and, Out.good_raw, Out.good_num]
  rfl

theorem setRot_isEventLine (now : F) (src : Bytes) (x y z s : F) :
    IsEventLine (setRotLine now src x y z s) (setRotSays now src x y z s) ↔
      IsNumber (CDouble.fmt 3 now) ∧ IsPlain src ∧
        ∀ f ∈ [x, y, z, s], IsNumber (CDouble.fmt 6 f) := by
  have ht : IsPlain (lit "set-rot") := by simp [lit, IsPlain, isPlain]
  have hk : IsPlain (lit "src") ∧ IsPlain (lit "x") ∧ IsPlain (lit "y") ∧ IsPlain (lit "z") ∧
      IsPlain (lit "s") := by simp [lit, IsPlain, isPlain]
  have hm : (setRotOut now src x y z s).meaning = .obj (setRotSays now src x y z s) := rfl
  rw [isEventLine_iff (setRotLine_eq now src x y z s) hm, setRotOut, eventOut_good ht]
  refine and_congr_right fun _ => ?_
  simp only [List.forall_mem_cons, List.not_mem_nil, IsEmpty.forall_iff, implies_true, and_true,
    hk, true_and, Out.good_raw, Out.good_num]
  rfl

/-- An object of the snapshot: its keys are fixed, its texts are put in as they are. -/
theorem good_obj_of_keys {ks : List Bytes} (hk : ∀ k ∈ ks, IsPlain k) {ms : List (Bytes × Out)}
    (hms : ms.map Prod.fst = ks) : (Out.obj ms).Good ↔ ∀ m ∈ ms, m.2.Good := by
  rw [Out.good_obj]
  exact forall₂_congr fun m hm => and_iff_right (hk m.1 (hms ▸ List.mem_map_of_mem hm))

theorem good_decBytes (i : ℤ) : (Out.num (decBytes i)).Good :=
  Out.good_num.mpr (isNumber_decBytes i)

theorem avatarOut_good (a : Avatar) : (avatarOut a).Good ↔ a.Plain := by
  have hk : ∀ k ∈ [lit "uuid", lit "name", lit "balance", lit "attached"], IsPlain k := by
    decide +kernel
  rw [avatarOut]
  refine Iff.trans (good_obj_of_keys hk rfl) ?_
  simp only [List.forall_mem_cons, List.not_mem_nil, IsEmpty.forall_iff, implies_true, and_true,
    good_decBytes, true_and, Out.good_raw]
  rfl

theorem groupOut_good (g : Group) : (groupOut g).Good ↔ g.Plain := by
  have hk : ∀ k ∈ [lit "uuid", lit "name", lit "n_members"], IsPlain k := by simp [lit, IsPlain, isPlain]
  rw [groupOut]
  refine Iff.trans (good_obj_of_keys hk rfl) ?_
  simp only [List.forall_mem_cons, List.not_mem_nil, IsEmpty.forall_iff, implies_true, and_true,
    good_decBytes, Out.good_raw]
  rfl

omit [CDouble F] in
theorem scriptOut_good (t : Script F) : (scriptOut t).Good ↔ t.Plain := by
  have hk : ∀ k ∈ [lit "name", lit "uuid", lit "link", lit "hud_text"], IsPlain k := by
    decide +kernel
  rw [scriptOut]
  refine Iff.trans (good_obj_of_keys hk rfl) ?_
  simp only [List.forall_mem_cons, List.not_mem_nil, IsEmpty.forall_iff, implies_true, and_true,
    good_decBytes, true_and, Out.good_raw]
  rfl

theorem dialogOut_good (d : OpenDialog) : (dialogOut d).Good ↔ d.Plain := by
  have hk : ∀ k ∈ [lit "src", lit "to", lit "ch", lit "is_textbox", lit "msg", lit "buttons"],
      IsPlain k := by simp [lit, IsPlain, isPlain]
  rw [dialogOut]
  refine Iff.trans (good_obj_of_keys hk rfl) ?_
  simp only [List.forall_mem_cons, List.not_mem_nil, IsEmpty.forall_iff, implies_true, and_true,
    good_decBytes, true_and, Out.good_raw, Out.good_arr, List.forall_mem_map]
  rfl

theorem snapshotOut_meaning (groups : List Group) (w : World F) :
    (snapshotOut groups w).meaning = .obj (snapshotSays groups w) := by
  have hd : Out.meaning ∘ dialogOut = dialogSays := by
    refine funext fun d => ?_
    rw [Function.comp, dialogOut, dialogSays]
    simp only [Out.meaning, Out.memberMeanings, Out.elemMeanings_eq, List.map_map]
    rfl
  rw [snapshotOut, eventOut, snapshotSays]
  simp only [Out.meaning, Out.memberMeanings, Out.elemMeanings_eq, List.map_map, hd]
  rfl

theorem snapshot_isEventLine (groups : List Group) (w : World F) :
    IsEventLine (snapshotLine groups w) (snapshotSays groups w) ↔
      IsNumber (CDouble.fmt 3 w.virtualNow) ∧ (∀ a ∈ w.avatars, a.Plain) ∧
        (∀ g ∈ groups, g.Plain) ∧ (∀ t ∈ w.scripts, t.Plain) ∧ ∀ d ∈ w.dialogs, d.Plain := by
  have ht : IsPlain (lit "snapshot") := by simp [lit, IsPlain, isPlain]
  have hk : IsPlain (lit "avatars") ∧ IsPlain (lit "groups") ∧ IsPlain (lit "scripts") ∧
      IsPlain (lit "dialogs") := by simp [lit, IsPlain, isPlain]
  rw [isEventLine_iff (snapshotLine_eq groups w) (snapshotOut_meaning groups w), snapshotOut,
    eventOut_good ht]
  refine and_congr_right fun _ => ?_
  simp only [List.forall_mem_cons, List.not_mem_nil, IsEmpty.forall_iff, implies_true, and_true,
    hk, true_and, Out.good_arr, List.forall_mem_map, avatarOut_good, groupOut_good,
    scriptOut_good, dialogOut_good]

def infoOut (now : F) (msg : Bytes) : Out :=
  eventOut now (lit "info") [(lit "msg", .esc (escStr (msg.take 1023)) msg)]

theorem info_isEventLine (now : F) (msg : Bytes) :
    IsEventLine ((evtInfo (msg.take 1023)).line now) ((evtInfo msg).meant now) ↔
      IsNumber (CDouble.fmt 3 now) ∧ msg.length ≤ 1023 := by
  have ht : IsPlain (lit "info") := by simp [lit, IsPlain, isPlain]
  have hk : IsPlain (lit "msg") := by simp [lit, IsPlain, isPlain]
  have hl : (evtInfo (msg.take 1023)).line now = (infoOut now msg).render ++ [10] :=
    Report.line_eq now (evtInfo (msg.take 1023))
  have hm : (infoOut now msg).meaning = .obj ((evtInfo msg).meant now) := rfl
  rw [isEventLine_iff hl hm, infoOut, eventOut_good ht, List.forall_mem_singleton, Out.good_esc,
    decode_escStr, List.take_eq_self_iff]
  exact and_congr_right fun _ => and_iff_right hk

/-- The line of an emission is one line with one JSON object that says what was reported exactly
if the virtual time is printed as a number, and the emission is clean. -/
theorem json_event_lines (groups : List Group) (w : World F) (e : Emission F) :
    IsEventLine (e.line groups w) (e.meant groups w) ↔
      IsNumber (CDouble.fmt 3 w.virtualNow) ∧ e.Clean groups w := by
  have hreport (r : Report F) (hk : ∀ k ∈ r.type :: r.fields.map Field.key, IsPlain k) :
      IsEventLine (r.line w.virtualNow) (r.meant w.virtualNow) ↔
        IsNumber (CDouble.fmt 3 w.virtualNow) ∧ ∀ f ∈ r.fields, f.Clean :=
    r.isEventLine_iff w.virtualNow (hk _ List.mem_cons_self)
      fun k h => hk k (List.mem_cons_of_mem _ h)
  cases e with
  | evt e =>
    cases e with
    | setPos src x y z => exact setPos_isEventLine w.virtualNow src x y z
    | setRot src x y z s => exact setRot_isEventLine w.virtualNow src x y z s
    | snapshot => exact snapshot_isEventLine groups w
    | info msg => exact info_isEventLine w.virtualNow msg
    | hudText src text r g b alpha =>
      have hk : ∀ k ∈ [lit "hud", lit "src", lit "text", lit "r", lit "g", lit "b", lit "a"],
          IsPlain k := by simp [lit, IsPlain, isPlain]
      refine (hreport (evtHudText src text r g b alpha) hk).trans ?_
      simp [evtHudText, Field.Clean, Emission.Clean]
    | dialog src srcUuid dst msg buttons ch isTextbox =>
      refine (hreport (evtDialog src srcUuid dst msg buttons ch isTextbox) ?_).trans
        (and_congr_right fun _ => iff_of_true ?_ trivial)
      · cases isTextbox <;> simp [evtDialog, Field.key, lit, IsPlain, isPlain]
      · cases isTextbox <;> simp [evtDialog, Field.Clean]
    | _ =>
      -- the other emitters have texts and whole numbers only
      refine (hreport _ ?_).trans (and_congr_right fun _ => iff_of_true ?_ trivial)
      · simp only [evtChat, evtChatTo, evtLoadurl, evtMoney, evtPermissionRequest, evtLinkMsg,
          evtHttpOut, evtEventDispatch, evtAssertion, evtLsdSet, evtPrimSet, evtAgentDataRequest,
          evtRez, List.map_cons, List.map_nil, Field.key]
        simp [lit, IsPlain, isPlain]
      · simp [evtChat, evtChatTo, evtLoadurl, evtMoney, evtPermissionRequest, evtLinkMsg,
          evtHttpOut, evtEventDispatch, evtAssertion, evtLsdSet, evtPrimSet, evtAgentDataRequest,
          evtRez, Field.Clean]
  | _ =>
    refine (hreport _ ?_).trans (and_congr_right fun _ => iff_of_true ?_ trivial)
    · simp only [evtStateChange, evtDie, evtReset, List.map_cons, List.map_nil, Field.key]
      simp [lit, IsPlain, isPlain]
    · simp [evtStateChange, evtDie, evtReset, Field.Clean]

/-! ### An object name with a quote -/

/-- Sets the name of its object to `say "hi"`, and then the position. -/
def renamingProgram : Program :=
  { strings := [lit "default", lit "state_entry", lit "llSetObjectName", lit "llSetPos",
      lit "say \"hi\""]
    globals := []
    funcs := []
    states := [⟨0, 1, 1, [⟨1, 2, [], .block 2
      [.expr 3 (.call SV.void 0 2 [.stringLit SV.string 0 4]),
       .expr 4 (.call SV.void 0 3 [.vectorLit SV.vector 0 (.intLit SV.integer 0 1)
        (.intLit SV.integer 0 2) (.intLit SV.integer 0 3)])]⟩]⟩]
    flags := 0 }

/-- A region that runs with `--json-events`. -/
def jsonRegion (ps : List Program) (lines : List Bytes) : Conf ℚ :=
  let c := regionOf ps lines
  { c with machine := { c.machine with world := { c.world with jsonEvents := true } } }

theorem start_jsonRegion (ps : List Program) (lines : List Bytes) :
    Conf.Start (jsonRegion ps lines) := by
  have h := start_regionOf ps lines
  exact ⟨h.phase, h.virtualNow, h.virtualOffset, h.advances, h.nextCommand, h.frames, h.log,
    h.scripts⟩

/-- The name with which `llSetPos` reported an object. -/
def Evt.movedObject : Evt F → Option Bytes
  | .setPos src _ _ _ => some src
  | _ => none

omit [CDouble F] in
theorem Evt.movedObject_eq {e : Evt F} {src : Bytes} (h : e.movedObject = some src) :
    ∃ x y z, e = .setPos src x y z := by
  cases e with
  | setPos src' x y z =>
    obtain rfl := Option.some.inj h
    exact ⟨x, y, z, rfl⟩
  | _ => cases h

/-- The line for its `llSetPos` is not JSON with the name of the object. -/
theorem json_setPos_quote : ∃ c : ℕ → Conf ℚ, Conf.IsRun noLib c 8 ∧
    (c 8).world.jsonEvents = true ∧ ∃ e, ((c 8).world.virtualNow, e) ∈ (c 8).world.out ∧
      ∀ groups, ¬ IsEventLine ((Emission.evt e).line groups (c 8).world)
        ((Emission.evt e).meant groups (c 8).world) := by
  have hmoved : (((jsonRegion [renamingProgram] []).after noLib 30 8).world.virtualNow,
      some (lit "say \"hi\"")) ∈
      ((jsonRegion [renamingProgram] []).after noLib 30 8).world.out.map
        fun e => (e.1, e.2.movedObject) := by decide +kernel
  refine ⟨(jsonRegion [renamingProgram] []).after noLib 30,
    Conf.isRun_after (start_jsonRegion _ _) (by decide +kernel), by decide +kernel, ?_⟩
  obtain ⟨⟨t, e⟩, he, ht⟩ := List.mem_map.mp hmoved
  obtain ⟨rfl, hsrc⟩ := Prod.mk.inj ht
  obtain ⟨x, y, z, rfl⟩ := Evt.movedObject_eq hsrc
  refine ⟨_, he, fun groups h => ?_⟩
  exact absurd ((setPos_isEventLine _ _ x y z).mp h).2.1 (by decide +kernel)

end Slemu
