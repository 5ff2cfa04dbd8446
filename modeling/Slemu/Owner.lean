import Slemu.Startup

/-! Who the owner of the region is: the avatar that was entered first, whatever the command line
and the config file say. -/

namespace Slemu
variable {F : Type} [CDouble F]

/-! ### The first avatar -/

/-- The UUID of the first avatar. -/
def firstUuid (as : List Avatar) : Option Bytes := (uuids as).head?

theorem Entered.firstUuid {as bs : List Avatar} (h : Entered as bs) {u : Bytes}
    (hu : firstUuid as = some u) : firstUuid bs = some u := by
  obtain ⟨t, ht⟩ := h.places
  rw [Slemu.firstUuid, ← ht, List.head?_append_of_ne_nil]
  · exact hu
  · intro hn
    rw [Slemu.firstUuid, hn] at hu
    cases hu

theorem firstUuid_addAvatar (u : Bytes) (b : ℤ) (nm : Option Bytes) (as : List Avatar) :
    firstUuid (addAvatar u b nm as).1 = (firstUuid as).or (some u) := by
  rw [firstUuid, uuids_addAvatar]
  split
  · rename_i hu
    have hne := List.ne_nil_of_mem hu
    rw [firstUuid, List.head?_eq_some_head hne, Option.some_or]
  · rw [List.head?_append]
    rfl

omit [CDouble F] in
theorem firstUuid_regionSetOwner (w : World F) (u : Bytes) (nm : Option Bytes) :
    firstUuid (w.regionSetOwner u nm).avatars = (firstUuid w.avatars).or (some u) := by
  rw [World.regionSetOwner]
  cases hf : w.regionFindAvatar u with
  | none => exact firstUuid_addAvatar u 0 nm w.avatars
  | some i =>
    have hi := List.mem_of_getElem? (regionFindAvatar_some w u i hf)
    have hne := List.ne_nil_of_mem hi
    dsimp only
    rw [firstUuid, uuids_modify _ _ (fun a => by split <;> rfl), firstUuid,
      List.head?_eq_some_head hne, Option.some_or]

omit [CDouble F] in
theorem ownerUuid_eq (w : World F) (u : Bytes) (h : firstUuid w.avatars = some u) :
    w.ownerUuid = u := by
  rw [World.ownerUuid]
  cases ha : w.avatars with
  | nil => rw [ha] at h; cases h
  | cons a as => rw [ha] at h; exact Option.some.inj h

omit [CDouble F] in
theorem entered_regionSetOwner (w : World F) (u : Bytes) (nm : Option Bytes) :
    Entered w.avatars (w.regionSetOwner u nm).avatars := by
  rw [World.regionSetOwner]
  cases hf : w.regionFindAvatar u with
  | none => exact Entered.addAvatar u 0 nm w.avatars
  | some i => exact Entered.of_uuids (uuids_modify _ _ (fun a => by split <;> rfl) _)

/-! ### What a run does to the avatars -/

theorem fireTimer_avatars (w : World F) : w.fireTimer.2.avatars = w.avatars := by
  rcases h : w.dueTimer with ⟨d, _ | i⟩
  · rw [fireTimer_none h]
  · rw [fireTimer_some h]
    rfl

theorem Moves.entered {p p' : Phase} {w w' : World F} (h : Moves p w p' w') :
    Entered w.avatars w'.avatars := by
  have hsame {u u' : World F} (hc : u'.avatars = u.avatars) : Entered u.avatars u'.avatars :=
    .of_uuids (congrArg uuids hc)
  have hcore {u u' : World F} (hc : u'.core = u.core) : Entered u.avatars u'.avatars :=
    hsame (congrArg (fun c => c.2.2) hc)
  have htold {u u' : World F} (ht : Pumped u u') : Entered u.avatars u'.avatars := by
    obtain ⟨-, ht⟩ := ht
    cases ht with
    | grown h => exact h.avatars
    | wait f h => exact hsame (congrArg (fun c => c.2.2) h)
  cases h with
  | load h => exact h.avatars
  | init _ h => exact h.elsewhere.avatars
  | start _ h => exact hcore h
  | @head _ u h =>
    refine hsame ((fireTimer_avatars u).trans ?_)
    exact congrArg (fun c => c.2.2) h
  | limit h => exact hcore h
  | around => exact Entered.refl _
  | quiet => exact Entered.refl _
  | skip => exact Entered.refl _
  | ignore _ _ _ h => exact hsame (congrArg (fun c => c.2.2) h)
  | dispatch _ _ _ h => exact h.elsewhere.avatars
  | settled => exact Entered.refl _
  | change => exact Entered.refl _
  | exit h => exact h.elsewhere.avatars
  | entry => exact Entered.refl _
  | command h => exact htold h
  | settleDown => exact Entered.refl _
  | drain h => exact htold h
  | drained => exact Entered.refl _
  | save h => exact hcore h

/-! ### What the setup does to the region -/

/-- What `region_run` expects to find untouched. -/
def World.starting (w : World F) : List (Script F) × F × F × List F × ℕ × List (Frame F) :=
  (w.scripts, w.virtualNow, w.virtualOffset, w.advances, w.nextCommand, w.frames)

/-- A change of the region that only settings and new avatars show. -/
structure Prepares (w w' : World F) : Prop where
  starting : w'.starting = w.starting
  avatars : Entered w.avatars w'.avatars

section
omit [CDouble F]

namespace Prepares
variable {u v w : World F}

theorem refl (w : World F) : Prepares w w := ⟨rfl, Entered.refl _⟩

theorem trans (h : Prepares u v) (h' : Prepares v w) : Prepares u w :=
  ⟨h'.starting.trans h.starting, h.avatars.trans h'.avatars⟩

/-- A change of settings. -/
theorem settings (hs : v.starting = u.starting) (ha : v.avatars = u.avatars) : Prepares u v :=
  ⟨hs, .of_uuids (congrArg uuids ha)⟩

theorem regionAddAvatar (w : World F) (u : Bytes) (b : ℤ) (nm : Option Bytes) :
    Prepares w (w.regionAddAvatar u b nm).2 := ⟨rfl, Entered.addAvatar u b nm w.avatars⟩

theorem regionSetOwner (w : World F) (u : Bytes) (nm : Option Bytes) :
    Prepares w (w.regionSetOwner u nm) := by
  refine ⟨?_, entered_regionSetOwner w u nm⟩
  rw [World.regionSetOwner]
  cases w.regionFindAvatar u <;> rfl

theorem configLine (st : World F × Bool) (line : Bytes) :
    Prepares st.1 (World.configLine st line).1 := by
  obtain ⟨w, fx⟩ := st
  unfold World.configLine
  dsimp only
  split
  · exact (regionAddAvatar _ _ _ _).trans (regionSetOwner _ _ _)
  split
  · unfold World.configAvatar
    split
    · exact refl w
    · exact regionAddAvatar _ _ _ _
  split
  · exact settings rfl rfl
  split
  · split <;> exact settings rfl rfl
  split
  · split <;> exact settings rfl rfl
  split <;> exact settings rfl rfl

theorem configLoad (w : World F) (text : Bytes) : Prepares w (w.configLoad text) := by
  have h (lines : List Bytes) (st : World F × Bool) :
      Prepares st.1 (lines.foldl World.configLine st).1 := by
    induction lines generalizing st with
    | nil => exact refl st.1
    | cons line lines ih => exact (configLine st line).trans (ih _)
  exact h (configLines text) (w, false)

theorem registerOwner (s : Settings F) (w : World F) : Prepares w (Slemu.registerOwner s w) := by
  rw [Slemu.registerOwner]
  cases s.ownerUuid with
  | none => exact (regionAddAvatar _ _ _ _).trans (regionSetOwner _ _ _)
  | some u => exact (regionAddAvatar _ _ _ _).trans (regionSetOwner _ _ _)

end Prepares

theorem firstUuid_registerOwner (s : Settings F) (w : World F) :
    firstUuid (registerOwner s w).avatars =
      (firstUuid w.avatars).or (some (s.ownerUuid.getD defaultOwner)) := by
  have h (u : Bytes) (b : ℤ) (nm nm' : Option Bytes) :
      firstUuid ((w.regionAddAvatar u b nm).2.regionSetOwner u nm').avatars =
        (firstUuid w.avatars).or (some u) := by
    have ha : firstUuid (w.regionAddAvatar u b nm).2.avatars = (firstUuid w.avatars).or (some u) :=
      firstUuid_addAvatar u b nm w.avatars
    rw [firstUuid_regionSetOwner, ha, Option.or_assoc, Option.some_or]
  rw [registerOwner]
  cases s.ownerUuid with
  | none => exact h _ _ _ _
  | some u => exact h _ _ _ _

end

/-! ### Options -/

def flagNames : List Bytes :=
  [lit "--trace", lit "--no-http", lit "--http-real", lit "--json-events", lit "--debug"]

/-- The values that the command line gives to the option `name`, in order. -/
def optionValues (name : Bytes) : List Bytes → List Bytes
  | [] => []
  | a :: args =>
    if a.head? ≠ some 45 ∨ a = lit "--" then []
    else if a ∈ flagNames then optionValues name args
    else
      match args with
      | [] => []
      | v :: args => if a = name then v :: optionValues name args else optionValues name args

theorem optionValues_cons (name a : Bytes) (args : List Bytes) : optionValues name (a :: args) =
    if a.head? ≠ some 45 ∨ a = lit "--" then []
    else if a ∈ flagNames then optionValues name args
    else
      match args with
      | [] => []
      | v :: args => if a = name then v :: optionValues name args else optionValues name args := by
  cases args <;> rfl

theorem optionValues_end {name a : Bytes} {args : List Bytes}
    (h : a.head? ≠ some 45 ∨ a = lit "--") : optionValues name (a :: args) = [] := by
  rw [optionValues_cons]
  exact if_pos h

theorem optionValues_flag {name a : Bytes} {args : List Bytes}
    (h : ¬ (a.head? ≠ some 45 ∨ a = lit "--")) (hf : a ∈ flagNames) :
    optionValues name (a :: args) = optionValues name args := by
  rw [optionValues_cons]
  exact (if_neg h).trans (if_pos hf)

theorem optionValues_value {name a v : Bytes} {args : List Bytes}
    (h : ¬ (a.head? ≠ some 45 ∨ a = lit "--")) (hf : a ∉ flagNames) :
    optionValues name (a :: v :: args) =
      (if a = name then [v] else []) ++ optionValues name args := by
  rw [optionValues_cons]
  refine (if_neg h).trans ((if_neg hf).trans ?_)
  dsimp only
  split <;> rfl

/-- What reading options does to the settings that the owner depends on. -/
structure OptionsRead (owners configs avatars : List Bytes) (s s' : Settings F) : Prop where
  owner : s'.ownerUuid = (owners.getLast?.map beforeColon).or s.ownerUuid
  config : s'.configPath = configs.getLast?.or s.configPath
  first : firstUuid s'.region.avatars =
    (firstUuid s.region.avatars).or (avatars.head?.map beforeColon)
  prepares : Prepares s.region s'.region

namespace OptionsRead
variable {s s' s'' : Settings F}

omit [CDouble F] in
/-- A change of other settings. -/
theorem other (ho : s'.ownerUuid = s.ownerUuid) (hc : s'.configPath = s.configPath)
    (hs : s'.region.starting = s.region.starting) (ha : s'.region.avatars = s.region.avatars) :
    OptionsRead [] [] [] s s' :=
  ⟨ho, hc, by rw [ha]; exact (Option.or_none).symm, .settings hs ha⟩

omit [CDouble F] in
theorem trans {os os' cs cs' as as' : List Bytes} (h : OptionsRead os cs as s s')
    (h' : OptionsRead os' cs' as' s' s'') :
    OptionsRead (os ++ os') (cs ++ cs') (as ++ as') s s'' where
  owner := by
    rw [h'.owner, h.owner, ← Option.or_assoc, List.getLast?_append]
    cases os'.getLast? <;> rfl
  config := by rw [h'.config, h.config, ← Option.or_assoc, List.getLast?_append]
  first := by
    rw [h'.first, h.first, Option.or_assoc, List.head?_append]
    cases as.head? <;> rfl
  prepares := h.prepares.trans h'.prepares

end OptionsRead

omit [CDouble F] in
theorem flagOption_some {a : Bytes} {s s' : Settings F} (h : flagOption a s = some s') :
    a ∈ flagNames ∧ OptionsRead [] [] [] s s' := by
  have hflag {n : Bytes} {u : Settings F} (h : some u = some s') (ha : a = n)
      (hn : n ∈ flagNames) (hu : OptionsRead [] [] [] s u) :
      a ∈ flagNames ∧ OptionsRead [] [] [] s s' := Option.some.inj h ▸ ⟨ha ▸ hn, hu⟩
  unfold flagOption at h
  by_cases h1 : a = lit "--trace"
  · rw [if_pos h1] at h
    exact hflag h h1 (by decide +kernel) (.other rfl rfl rfl rfl)
  by_cases h2 : a = lit "--no-http"
  · rw [if_neg h1, if_pos h2] at h
    exact hflag h h2 (by decide +kernel) (.other rfl rfl rfl rfl)
  by_cases h3 : a = lit "--http-real"
  · rw [if_neg h1, if_neg h2, if_pos h3] at h
    exact hflag h h3 (by decide +kernel) (.other rfl rfl rfl rfl)
  by_cases h4 : a = lit "--json-events" ∨ a = lit "--debug"
  · rw [if_neg h1, if_neg h2, if_neg h3, if_pos h4] at h
    rcases h4 with h4 | h4
    · exact hflag h h4 (by decide +kernel) (.other rfl rfl rfl rfl)
    · exact hflag h h4 (by decide +kernel) (.other rfl rfl rfl rfl)
  · rw [if_neg h1, if_neg h2, if_neg h3, if_neg h4] at h
    cases h

omit [CDouble F] in
theorem flagOption_none {a : Bytes} {s : Settings F} (h : flagOption a s = none) :
    a ∉ flagNames := by
  intro ha
  unfold flagOption at h
  simp only [flagNames, List.mem_cons, List.not_mem_nil, or_false] at ha
  split_ifs at h with h1 h2 h3 h4
  exact ha.elim h1 fun ha => ha.elim h2 fun ha => ha.elim h3 h4

/-- The values that one option with its value adds. -/
theorem valueOption_ok {a v : Bytes} {s s' : Settings F} (h : valueOption a v s = .ok s') :
    OptionsRead (if a = lit "--owner" then [v] else []) (if a = lit "--config" then [v] else [])
      (if a = lit "--avatar" then [v] else []) s s' := by
  have hother {n : Bytes} {u : Settings F} (h : (.ok u : Except Exit _) = .ok s') (ha : a = n)
      (hn : n ∉ [lit "--owner", lit "--config", lit "--avatar"])
      (hu : OptionsRead [] [] [] s u) :
      OptionsRead (if a = lit "--owner" then [v] else []) (if a = lit "--config" then [v] else [])
        (if a = lit "--avatar" then [v] else []) s s' := by
    simp only [List.mem_cons, List.not_mem_nil, or_false, not_or] at hn
    rw [← ha] at hn
    rw [if_neg hn.1, if_neg hn.2.1, if_neg hn.2.2]
    exact Except.ok.inj h ▸ hu
  have hoc : lit "--owner" ≠ lit "--config" := by decide +kernel
  have hoa : lit "--owner" ≠ lit "--avatar" := by decide +kernel
  have hca : lit "--config" ≠ lit "--avatar" := by decide +kernel
  unfold valueOption at h
  by_cases h1 : a = lit "--http-fixture"
  · rw [if_pos h1] at h
    exact hother h h1 (by decide +kernel) (.other rfl rfl rfl rfl)
  rw [if_neg h1] at h
  by_cases h2 : a = lit "--volume"
  · rw [if_pos h2] at h
    exact hother h h2 (by decide +kernel) (.other rfl rfl rfl rfl)
  rw [if_neg h2] at h
  by_cases h3 : a = lit "--owner"
  · rw [if_pos h3] at h
    rw [if_pos h3, h3, if_neg hoc, if_neg hoa]
    cases h
    exact ⟨rfl, rfl, Option.or_none.symm, .settings rfl rfl⟩
  rw [if_neg h3] at h
  by_cases h4 : a = lit "--owner-balance"
  · rw [if_pos h4] at h
    exact hother h h4 (by decide +kernel) (.other rfl rfl rfl rfl)
  rw [if_neg h4] at h
  by_cases h5 : a = lit "--avatar"
  · rw [if_pos h5] at h
    rw [if_neg h3, if_pos h5, h5, if_neg hca.symm]
    split at h
    · cases h
    · cases h
      exact ⟨rfl, rfl, firstUuid_addAvatar _ _ _ _, .regionAddAvatar _ _ _ _⟩
  rw [if_neg h5] at h
  by_cases h6 : a = lit "--steps"
  · rw [if_pos h6] at h
    exact hother h h6 (by decide +kernel) (.other rfl rfl rfl rfl)
  rw [if_neg h6] at h
  by_cases h7 : a = lit "--timeout"
  · rw [if_pos h7] at h
    exact hother h h7 (by decide +kernel) (.other rfl rfl rfl rfl)
  rw [if_neg h7] at h
  by_cases h8 : a = lit "--name"
  · rw [if_pos h8] at h
    exact hother h h8 (by decide +kernel) (.other rfl rfl rfl rfl)
  rw [if_neg h8] at h
  by_cases h9 : a = lit "--config"
  · rw [if_pos h9] at h
    rw [if_neg h3, if_pos h9, if_neg h5]
    cases h
    exact ⟨rfl, rfl, Option.or_none.symm, .settings rfl rfl⟩
  rw [if_neg h9] at h
  by_cases h10 : a = lit "--commands"
  · rw [if_pos h10] at h
    exact hother h h10 (by decide +kernel) (.other rfl rfl rfl rfl)
  rw [if_neg h10] at h
  cases h

theorem optionsRead {args paths : List Bytes} {s s' : Settings F}
    (h : readOptions args s = .ok (s', paths)) :
    OptionsRead (optionValues (lit "--owner") args) (optionValues (lit "--config") args)
      (optionValues (lit "--avatar") args) s s' := by
  fun_induction readOptions args s
  case case1 s =>
    cases h
    exact .other rfl rfl rfl rfl
  case case2 a args s ha =>
    cases h
    rw [optionValues_end (.inl ha), optionValues_end (.inl ha), optionValues_end (.inl ha)]
    exact .other rfl rfl rfl rfl
  case case3 => cases h
  case case4 args s ha hd =>
    cases h
    rw [optionValues_end (.inr rfl), optionValues_end (.inr rfl), optionValues_end (.inr rfl)]
    exact .other rfl rfl rfl rfl
  case case5 a args s hd _ he u hu ih =>
    obtain ⟨hf, hread⟩ := flagOption_some hu
    have hend := not_or.mpr ⟨hd, he⟩
    rw [optionValues_flag hend hf, optionValues_flag hend hf, optionValues_flag hend hf]
    exact hread.trans (ih h)
  case case6 => cases h
  case case7 a s hd _ he hu v args u hv ih =>
    have hf := flagOption_none hu
    have hend := not_or.mpr ⟨hd, he⟩
    rw [optionValues_value hend hf, optionValues_value hend hf, optionValues_value hend hf]
    exact (valueOption_ok hv).trans (ih h)
  case case8 => cases h

/-! ### `main` -/

omit [CDouble F] in
theorem prepares_withFile {disk : Disk} {path : Option Bytes} {w w' : World F}
    {f : Bytes → World F} (h : withFile disk path w f = .ok w')
    (hf : ∀ text, Prepares w (f text)) : Prepares w w' := by
  unfold withFile at h
  cases path with
  | none =>
    cases h
    exact .refl w
  | some path =>
    dsimp only at h
    cases hr : disk.readFile path with
    | none => rw [hr] at h; cases h
    | some text =>
      rw [hr] at h
      cases h
      exact hf text

theorem Conf.Start.rename {w : World F} (hw : Start ⟨.load, ⟨w, CDouble.zero, []⟩⟩) (i : ℕ)
    (name : Bytes) :
    Start ⟨.load, ⟨w.modScript i fun t => { t with name := name }, CDouble.zero, []⟩⟩ := by
  refine ⟨rfl, hw.virtualNow, hw.virtualOffset, hw.advances, hw.nextCommand, hw.frames, rfl,
    fun t ht => ?_⟩
  obtain ⟨k, hk, rfl⟩ := List.mem_iff_getElem.mp ht
  have hk' : k < w.scripts.length := by
    rwa [Conf.world, World.modScript_length] at hk
  have hu := hw.scripts _ (List.getElem_mem hk')
  simp only [Conf.world, World.modScript, List.getElem_modify]
  split
  · exact ⟨hu.1, hu.2, hu.3, hu.4, hu.5, hu.6, hu.7⟩
  · exact hu

theorem loadScripts_ready {disk : Disk} {name : Bytes} {paths : List Bytes} {w w' : World F}
    (hw : Conf.Start ⟨.load, ⟨w, CDouble.zero, []⟩⟩)
    (h : loadScripts disk name paths w = .ok w') :
    Conf.Start ⟨.load, ⟨w', CDouble.zero, []⟩⟩ ∧ w'.avatars = w.avatars := by
  induction paths generalizing w with
  | nil =>
    cases h
    exact ⟨hw, rfl⟩
  | cons path paths ih =>
    unfold loadScripts at h
    split at h
    · cases h
    · rename_i p hp
      obtain ⟨hr, ha⟩ := ih ((hw.loadScript p path).rename _ name) h
      exact ⟨hr, ha.trans rfl⟩

/-- A change of settings leaves a region that is ready to run. -/
theorem Prepares.start {w w' : World F} (h : Prepares w w')
    (hw : Conf.Start ⟨.load, ⟨w, CDouble.zero, []⟩⟩) :
    Conf.Start ⟨.load, ⟨w', CDouble.zero, []⟩⟩ := by
  have hs := h.starting
  simp only [World.starting, Prod.mk.injEq] at hs
  obtain ⟨h1, h2, h3, h4, h5, h6⟩ := hs
  exact ⟨rfl, h2.trans hw.virtualNow, h3.trans hw.virtualOffset, h4.trans hw.advances,
    h5.trans hw.nextCommand, h6.trans hw.frames, rfl, fun t ht => hw.scripts t (h1 ▸ ht)⟩

/-- The UUID that the last `--owner` gives. -/
def ownerOption (args : List Bytes) : Option Bytes :=
  (optionValues (lit "--owner") args).getLast?.map beforeColon

/-- The first avatar that `main` enters: that of the first `--avatar`, else its owner. -/
def firstEntered (args : List Bytes) : Bytes :=
  ((optionValues (lit "--avatar") args).head?.map beforeColon).getD
    ((ownerOption args).getD defaultOwner)

omit [CDouble F] in
theorem of_bind_ok {α β : Type} {x : Except Exit α} {f : α → Except Exit β} {b : β}
    (h : x >>= f = .ok b) : ∃ a, x = .ok a ∧ f a = .ok b := by
  cases x with
  | error e => cases h
  | ok a => exact ⟨a, rfl, h⟩

/-- A region that `main` has set up is ready to run, and its first avatar is known. -/
theorem setUp_ready {disk : Disk} {env : Env F} {args : List Bytes} {w : World F}
    (h : setUp disk env args = .ok w) :
    Conf.Start ⟨.load, ⟨w, CDouble.zero, []⟩⟩ ∧ (uuids w.avatars).Nodup ∧
      firstUuid w.avatars = some (firstEntered args) := by
  unfold setUp at h
  obtain ⟨⟨s, paths⟩, ho, h⟩ := of_bind_ok h
  dsimp only at h
  split at h
  · cases h
  obtain ⟨v, -, h⟩ := of_bind_ok h
  obtain ⟨w1, h1, h⟩ := of_bind_ok h
  obtain ⟨w2, h2, h⟩ := of_bind_ok h
  obtain ⟨w3, h3, h⟩ := of_bind_ok h
  have hread := optionsRead ho
  have hvolume : Prepares s.region { s.region with volume := some v } := .settings rfl rfl
  have hfiles : Prepares (registerOwner s { s.region with volume := some v }) w3 :=
    ((prepares_withFile h1 fun _ => .settings rfl rfl).trans
      (prepares_withFile h2 fun text => .configLoad w1 text)).trans
      (prepares_withFile h3 fun _ => .settings rfl rfl)
  have hall := (hread.prepares.trans (hvolume.trans (.registerOwner s _))).trans hfiles
  obtain ⟨hs, ha⟩ := loadScripts_ready
    (hall.start ⟨rfl, rfl, rfl, rfl, rfl, rfl, rfl, nofun⟩) h
  refine ⟨hs, ?_, ?_⟩
  · rw [ha]
    exact hall.avatars.nodup List.nodup_nil
  · rw [ha]
    refine hfiles.avatars.firstUuid ?_
    rw [firstUuid_registerOwner, hread.first, hread.owner, firstEntered, ownerOption]
    cases (optionValues (lit "--avatar") args).head? <;>
      cases (optionValues (lit "--owner") args).getLast? <;> rfl

/-! ### The owner -/

/-- `bi_llGetOwner` -/
def World.llGetOwner (w : World F) (_ : ℕ) (_ : List (SValue F)) : SValue F × ℕ :=
  (.key w.ownerUuid, 0)

/-- The last `OWNER` line of a config file. -/
def lastOwnerLine (text : Bytes) : Option Bytes :=
  ((configLines text).filterMap fun line =>
    if (nextTok line).1 = some (lit "OWNER") then some (ownerUuidOf (nextTok line).2)
    else none).getLast?

/-- The owner that the config file gives, or `--owner`, or the default. -/
def givenOwner (disk : Disk) (args : List Bytes) : Bytes :=
  (((optionValues (lit "--config") args).getLast?.bind disk.readFile).bind lastOwnerLine).getD
    ((ownerOption args).getD defaultOwner)

/-- `llGetOwner` returns `o`, `llGiveMoney` takes from `o`, and `MONEY_FROM` gives to `o`. -/
structure OwnerIs (lib : Lib F) (o : Bytes) (w : World F) : Prop where
  getOwner : ∃ f, builtinsLookup lib (lit "llGetOwner") = some f ∧ ∀ s a, (f w s a).1 = .key o
  debits : ∀ s a, Settles w (w.llGiveMoney s a).2
    (if hasBit (w.script s).perms 1 then some ⟨o, argStr a 0, argInt a 1⟩ else none)
  credits : ∀ p who, (moneyFromArgs p).1 = some who → who ∈ uuids w.avatars →
    Settles w (w.cmdMoneyFrom p) (some ⟨who, o, (moneyFromArgs p).2⟩)

theorem builtinsLookup_llGetOwner {lib : Lib F}
    (h : lib.lookup (lit "llGetOwner") = some World.llGetOwner) :
    builtinsLookup lib (lit "llGetOwner") = some (Lib.builtin World.llGetOwner) := by
  have hn : (effectTable ++ stubTable : List (Bytes × Builtin F)).lookup (lit "llGetOwner") =
      none := rfl
  rw [builtinsLookup, hn, h]
  rfl

/-- The owner is the first avatar. -/
theorem ownerIs_iff {lib : Lib F} (hlib : lib.lookup (lit "llGetOwner") = some World.llGetOwner)
    {w : World F} (hn : (uuids w.avatars).Nodup) {u : Bytes} (hu : firstUuid w.avatars = some u)
    (o : Bytes) : OwnerIs lib o w ↔ u = o := by
  have ho := ownerUuid_eq w u hu
  constructor
  · intro h
    obtain ⟨f, hf, hget⟩ := h.getOwner
    rw [builtinsLookup_llGetOwner hlib] at hf
    cases hf
    have hk : SValue.key w.ownerUuid = SValue.key o := hget 0 []
    rw [← ho]
    exact SValue.key.inj hk
  · rintro rfl
    refine ⟨⟨_, builtinsLookup_llGetOwner hlib, fun s a => ?_⟩, fun s a => ?_, fun p who hw hm => ?_⟩
    · exact congrArg SValue.key ho
    · rw [← ho]
      exact (llGiveMoney_settles w s a hn).2
    · have hs := (cmdMoneyFrom_settles w p hn).2
      have hf : w.avatars.head?.map Avatar.uuid = some u := by
        rw [← hu, firstUuid, uuids, List.head?_map]
      rw [moneyFromRequest, hw, hf] at hs
      dsimp only at hs
      rwa [if_pos hm] at hs

theorem Conf.IsRun.entered {lib : Lib F} {c : ℕ → Conf F} {n : ℕ} (h : IsRun lib c n) {k : ℕ}
    (hk : k ≤ n) : Entered (c 0).world.avatars (c k).world.avatars := by
  induction k with
  | zero => exact Entered.refl _
  | succ k ih => exact (ih (by omega)).trans (h.step k hk).moves.entered

/-- The owner is `o` in every state of a run. -/
def Conf.OwnerStays (lib : Lib F) (o : Bytes) (c : ℕ → Conf F) (n : ℕ) : Prop :=
  ∀ k ≤ n, OwnerIs lib o (c k).world

/-- Whatever the command line, the config file and the economy are: the owner is the one given
exactly if the first avatar entered is. -/
theorem owner_given_iff (lib : Lib F)
    (hlib : lib.lookup (lit "llGetOwner") = some World.llGetOwner) (disk : Disk) (env : Env F)
    (args : List Bytes) (c : ℕ → Conf F) (n : ℕ) (h : Conf.IsRun lib c n)
    (hw : setUp disk env args = .ok (c 0).world) :
    Conf.OwnerStays lib (givenOwner disk args) c n ↔
      firstEntered args = givenOwner disk args := by
  obtain ⟨-, hn, hf⟩ := setUp_ready hw
  have howner {k : ℕ} (hk : k ≤ n) : OwnerIs lib (givenOwner disk args) (c k).world ↔
      firstEntered args = givenOwner disk args :=
    ownerIs_iff hlib ((h.entered hk).nodup hn) ((h.entered hk).firstUuid hf) _
  exact ⟨fun h => (howner (Nat.zero_le n)).mp (h 0 (Nat.zero_le n)), fun h k hk => (howner hk).mpr h⟩

/-! ### Two command lines -/

/-- A script without states, and a config file. -/
def ownerDisk : Disk where
  readFile path :=
    if path = lit "a.lslbc" then some (magicBytes ++ [1, 0, 0, 0] ++ List.replicate 20 0)
    else if path = lit "club.cfg" then some (lit "# club\nOWNER bob 10 Bob\nAVATAR eve 5\n")
    else none
  volumeOpen _ := some ⟨none, ∅⟩
  junk _ := 0

def ownerLib : Lib ℚ :=
  ⟨fun name => if name = lit "llGetOwner" then some World.llGetOwner else none⟩

/-- `region_run` after `main` has set up the region. -/
def startedWith (args : List Bytes) : Conf ℚ :=
  match setUp ownerDisk default args with
  | .ok w => ⟨.load, ⟨w, CDouble.zero, []⟩⟩
  | .error _ => ⟨.done, ⟨regionInit default, CDouble.zero, []⟩⟩

theorem setUp_startedWith (args : List Bytes)
    (h : (setUp ownerDisk (default : Env ℚ) args).toBool) :
    setUp ownerDisk default args = .ok (startedWith args).world ∧ (startedWith args).Start := by
  rw [startedWith]
  cases hs : setUp ownerDisk (default : Env ℚ) args with
  | error e =>
    rw [hs] at h
    cases h
  | ok w => exact ⟨rfl, (setUp_ready hs).1⟩

def bobOwns : List Bytes :=
  [lit "--owner-balance", lit "7", lit "--owner", lit "bob:Bob", lit "--config", lit "club.cfg",
   lit "a.lslbc"]

theorem owner_given_bob :
    Conf.OwnerStays ownerLib (lit "bob") ((startedWith bobOwns).after ownerLib 30) 5 := by
  obtain ⟨hs, hr⟩ := setUp_startedWith bobOwns (by decide +kernel)
  have hiff := owner_given_iff ownerLib rfl ownerDisk default bobOwns
    ((startedWith bobOwns).after ownerLib 30) 5 (Conf.isRun_after hr (by decide +kernel)) hs
  have hbob : givenOwner ownerDisk bobOwns = lit "bob" := by decide +kernel
  rw [hbob] at hiff
  exact hiff.mpr (by decide +kernel)

def eveFirst : List Bytes :=
  [lit "--avatar", lit "eve:5", lit "--owner", lit "bob:Bob", lit "a.lslbc"]

/-- An `--avatar` is entered before the owner and becomes the owner. -/
theorem avatar_before_owner : ∃ c : ℕ → Conf ℚ, Conf.IsRun ownerLib c 5 ∧
    setUp ownerDisk default eveFirst = .ok (c 0).world ∧
    ¬ Conf.OwnerStays ownerLib (givenOwner ownerDisk eveFirst) c 5 := by
  obtain ⟨hs, hr⟩ := setUp_startedWith eveFirst (by decide +kernel)
  refine ⟨(startedWith eveFirst).after ownerLib 30, Conf.isRun_after hr (by decide +kernel), hs,
    fun h => ?_⟩
  obtain ⟨-, hn, hf⟩ := setUp_ready hs
  have he := (ownerIs_iff rfl hn hf _).mp (h 0 (Nat.zero_le 5))
  exact absurd he (by decide +kernel)

end Slemu
