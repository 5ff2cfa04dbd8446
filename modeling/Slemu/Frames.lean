import Slemu.Builtins

/-! Builtins look neither at the frames of the interpreter nor at the count of steps, and leave
both alone. -/

namespace Slemu
variable {F : Type}

/-- What only the interpreter and the loop of `region_run` use: the frames, and the count of steps
with its limit. -/
structure Control (F : Type) where
  frames : List (Frame F)
  maxSteps : ℤ
  nSteps : ℤ

namespace World

def control (w : World F) : Control F := ⟨w.frames, w.maxSteps, w.nSteps⟩

def withControl (w : World F) (c : Control F) : World F :=
  { w with frames := c.frames, maxSteps := c.maxSteps, nSteps := c.nSteps }

@[simp] theorem withControl_control (w : World F) : w.withControl w.control = w := rfl

@[simp] theorem control_withControl (w : World F) (c : Control F) : (w.withControl c).control = c :=
  rfl

variable (w : World F) (c : Control F)

theorem withControl_emit (e : Evt F) : (w.withControl c).emit e = (w.emit e).withControl c := rfl

theorem withControl_chatlogRecord (kind : Bytes) (ch : ℤ) (msg : Bytes) :
    (w.withControl c).chatlogRecord kind ch msg = (w.chatlogRecord kind ch msg).withControl c := rfl

theorem withControl_pushTimes (i : ℕ) (name : Bytes) (args : List (SValue F)) (n : ℕ) :
    (w.withControl c).pushTimes i name args n = (w.pushTimes i name args n).withControl c := by
  induction n generalizing w with
  | zero => rfl
  | succ n ih =>
    rw [pushTimes, pushTimes, ← ih]
    rfl

theorem withControl_pushAll (name : Bytes) (args : List (SValue F)) (times : ℕ → Script F → ℕ) :
    (w.withControl c).pushAll name args times = (w.pushAll name args times).withControl c := by
  change w.scripts.zipIdx.foldl _ (w.withControl c) = (w.scripts.zipIdx.foldl _ w).withControl c
  induction w.scripts.zipIdx generalizing w with
  | nil => rfl
  | cons x l ih =>
    obtain ⟨t, i⟩ := x
    simp only [List.foldl_cons, withControl_pushTimes, ih]

theorem withControl_enterAvatar (i : Option ℕ) (uuid : Bytes) :
    (w.withControl c).enterAvatar i uuid =
      ((w.enterAvatar i uuid).1, (w.enterAvatar i uuid).2.withControl c) := by
  cases i <;> rfl

theorem withControl_httpAnswer (url : Bytes) :
    (w.withControl c).httpAnswer url = ((w.httpAnswer url).1, (w.httpAnswer url).2.withControl c) := by
  have hreal : (w.withControl c).httpReal = w.httpReal := rfl
  have hmatch : (w.withControl c).httpFixtureMatch url = w.httpFixtureMatch url := rfl
  rw [httpAnswer, httpAnswer, hreal, hmatch]
  cases w.httpReal with
  | true => rfl
  | false => cases w.httpFixtureMatch url <;> rfl

theorem control_pushAll (name : Bytes) (args : List (SValue F)) (times : ℕ → Script F → ℕ) :
    (w.pushAll name args times).control = w.control := by
  have h := w.withControl_pushAll w.control name args times
  rw [withControl_control] at h
  rw [h, control_withControl]

theorem script_withControl [CDouble F] (i : ℕ) : (w.withControl c).script i = w.script i := rfl

end World

variable [CDouble F]

/-- The builtin does the same whatever is in the frames and the counter, and changes neither. -/
def Blind (f : Builtin F) : Prop :=
  ∀ w c s a, f (w.withControl c) s a = ((f w s a).1, (f w s a).2.withControl c)

namespace Blind

omit [CDouble F] in
theorem keeps {f : Builtin F} (h : Blind f) (w : World F) (s : ℕ) (a : List (SValue F)) :
    (f w s a).2.control = w.control := by
  have hw := h w w.control s a
  rw [World.withControl_control] at hw
  rw [hw]
  rfl

theorem chat (kind : Bytes) : Blind (World.chat kind : Builtin F) := by
  intro w c s a
  simp only [World.chat, World.routeListen, World.script_withControl, World.withControl_emit,
    World.withControl_chatlogRecord, World.withControl_pushAll]

theorem llRegionSayTo : Blind (World.llRegionSayTo : Builtin F) := by
  intro w c s a
  simp only [World.llRegionSayTo, World.script_withControl, World.withControl_emit,
    World.withControl_chatlogRecord, World.withControl_pushAll]

theorem llMessageLinked : Blind (World.llMessageLinked : Builtin F) := by
  intro w c s a
  simp only [World.llMessageLinked, World.script_withControl, World.withControl_emit,
    World.withControl_pushAll]

theorem llSetPos : Blind (World.llSetPos : Builtin F) := by
  intro w c s a
  have hjson : (w.withControl c).jsonEvents = w.jsonEvents := rfl
  rw [World.llSetPos, World.llSetPos, hjson]
  cases w.jsonEvents <;> rfl

theorem llSetRot : Blind (World.llSetRot : Builtin F) := by
  intro w c s a
  have hjson : (w.withControl c).jsonEvents = w.jsonEvents := rfl
  rw [World.llSetRot, World.llSetRot, hjson]
  cases w.jsonEvents <;> rfl

theorem llGiveMoney : Blind (World.llGiveMoney : Builtin F) := by
  intro w c s a
  have hperms : ((w.withControl c).script s).perms = (w.script s).perms := rfl
  unfold World.llGiveMoney
  dsimp only
  rw [hperms]
  split
  · rfl
  · have hd (uuid : Bytes) : lastAvatar uuid (w.withControl c).avatars = lastAvatar uuid w.avatars :=
      rfl
    have ho : (w.withControl c).ownerUuid = w.ownerUuid := rfl
    rw [ho, hd, hd, World.withControl_enterAvatar, World.withControl_enterAvatar]
    dsimp only
    split
    · rename_i hlt
      rw [if_pos (by exact hlt)]
    · rename_i hlt
      rw [if_neg (by exact hlt)]
      rfl

theorem llTransferLindenDollars : Blind (World.llTransferLindenDollars : Builtin F) := by
  intro w c s a
  unfold World.llTransferLindenDollars
  rw [llGiveMoney]
  rfl

theorem llLinksetDataWrite : Blind (World.llLinksetDataWrite : Builtin F) := by
  intro w c s a
  have hvolume : (w.withControl c).volume = w.volume := rfl
  rw [World.llLinksetDataWrite, World.llLinksetDataWrite, hvolume]
  cases w.volume <;> rfl

theorem llLinksetDataDelete : Blind (World.llLinksetDataDelete : Builtin F) := by
  intro w c s a
  have hvolume : (w.withControl c).volume = w.volume := rfl
  rw [World.llLinksetDataDelete, World.llLinksetDataDelete, hvolume]
  cases w.volume <;> rfl

theorem llLinksetDataReset :
    Blind (fun w s _ => (.void, w.llLinksetDataReset s) : Builtin F) := by
  intro w c s a
  refine congrArg (Prod.mk _) ?_
  change w.lsdListKeys.foldl _ (w.withControl c) = (w.lsdListKeys.foldl _ w).withControl c
  induction w.lsdListKeys generalizing w with
  | nil => rfl
  | cons k ks ih =>
    have hkey : World.resetKey s (w.withControl c) k = (World.resetKey s w k).withControl c := rfl
    rw [List.foldl_cons, List.foldl_cons, hkey, ih]

theorem llHTTPRequest : Blind (World.llHTTPRequest : Builtin F) := by
  intro w c s a
  have hid : (w.withControl c).genUuid = (w.genUuid.1, w.genUuid.2.withControl c) := rfl
  simp only [World.llHTTPRequest, World.httpRequest, hid, World.withControl_httpAnswer]
  rfl

theorem effectTable : ∀ p ∈ (Slemu.effectTable : List (Bytes × Builtin F)), Blind p.2 := by
  simp only [Slemu.effectTable, List.forall_mem_cons]
  exact ⟨chat _, chat _, chat _, fun _ _ _ _ => rfl, chat _, llRegionSayTo, fun _ _ _ _ => rfl,
    fun _ _ _ _ => rfl, fun _ _ _ _ => rfl, fun _ _ _ _ => rfl, fun _ _ _ _ => rfl,
    fun _ _ _ _ => rfl, fun _ _ _ _ => rfl, fun _ _ _ _ => rfl, fun _ _ _ _ => rfl,
    fun _ _ _ _ => rfl, llSetPos, llSetRot, fun _ _ _ _ => rfl, fun _ _ _ _ => rfl,
    fun _ _ _ _ => rfl, llMessageLinked, fun _ _ _ _ => rfl, llGiveMoney,
    llTransferLindenDollars, llLinksetDataWrite, fun _ _ _ _ => rfl, llLinksetDataDelete,
    llLinksetDataReset, fun _ _ _ _ => rfl, fun _ _ _ _ => rfl, llHTTPRequest,
    fun _ _ _ _ => rfl, nofun⟩

theorem stubTable : ∀ p ∈ (Slemu.stubTable : List (Bytes × Builtin F)), Blind p.2 := by
  intro p hp
  simp only [Slemu.stubTable, List.mem_append, List.mem_map] at hp
  rcases hp with (⟨fn, -, rfl⟩ | ⟨fn, -, rfl⟩) | hp
  · exact fun _ _ _ _ => rfl
  · exact fun _ _ _ _ => rfl
  · revert p
    simp only [List.forall_mem_cons]
    exact ⟨fun _ _ _ _ => rfl, fun _ _ _ _ => rfl, fun _ _ _ _ => rfl, fun _ _ _ _ => rfl, nofun⟩

/-- A builtin of the tables, or one of the library. -/
theorem lookup_cases {lib : Lib F} {name : Bytes} {f : Builtin F}
    (h : builtinsLookup lib name = some f) :
    Blind f ∨ ∃ g, lib.lookup name = some g ∧ f = Lib.builtin g := by
  unfold builtinsLookup at h
  split at h
  · rename_i g hg
    obtain rfl : g = f := Option.some.inj h
    obtain ⟨l₁, l₂, hl, -⟩ := List.lookup_eq_some_iff.mp hg
    have hmem : (name, g) ∈
        (Slemu.effectTable ++ Slemu.stubTable : List (Bytes × Builtin F)) := by
      rw [hl]
      exact List.mem_append_right l₁ List.mem_cons_self
    exact Or.inl ((List.mem_append.mp hmem).elim (effectTable _) (stubTable _))
  · obtain ⟨g, hg, rfl⟩ := Option.map_eq_some_iff.mp h
    exact Or.inr ⟨g, hg, rfl⟩

end Blind

/-- Builtins leave the frames and the counter alone. -/
theorem control_of_lookup {lib : Lib F} {name : Bytes} {f : Builtin F}
    (h : builtinsLookup lib name = some f) (w : World F) (s : ℕ) (a : List (SValue F)) :
    (f w s a).2.control = w.control := by
  rcases Blind.lookup_cases h with hf | ⟨g, -, rfl⟩
  · exact hf.keeps w s a
  · rfl

end Slemu
