import Slemu.SchedulerSteps

/-! The two ways of looking up a name: `resolve_name` of the debugger goes by the text and along
the chain of frames, `vm_eval` by the place in the string pool and in the running frame only. -/

namespace Slemu
variable {F : Type}

/-! ### The debugger -/

/-- The last local of a frame with that name. -/
def Frame.named (p : Program) (name : Bytes) (f : Frame F) : Option (SValue F) :=
  (f.locs.find? fun b => p.str b.nameIdx = name).map LocalBinding.val

/-- The first global with that name. -/
def Script.globalNamed (t : Script F) (name : Bytes) : Option (SValue F) :=
  (t.prog.globals.findIdx? fun g => t.prog.str g.nameIdx = name).map fun i =>
    t.globals.getD i .void

variable [CDouble F]

/-- A built-in constant that is not void. -/
def constNamed (name : Bytes) : Option (SValue F) :=
  match builtinsConst name with
  | .void => none
  | c => some c

/-- `resolve_name`, with the frames from the given one on to its parents. -/
def resolveName (t : Option (Script F)) (frames : List (Frame F)) (name : Bytes) :
    Option (SValue F) :=
  (t.bind fun t => (frames.findSome? (Frame.named t.prog name)).or (t.globalNamed name)).or
    (constNamed name)

/-! ### Where they agree -/

/-- A local of the running frame, a global or a constant has the name at this place of the pool. -/
def World.HasName (w : World F) (s : ℕ) (idx : Int32) : Prop :=
  (w.findCell s idx).isSome ∨
    (constNamed ((w.script s).prog.str idx) : Option (SValue F)).isSome

instance (w : World F) (s : ℕ) (idx : Int32) : Decidable (w.HasName s idx) :=
  inferInstanceAs (Decidable (_ ∨ _))

/-- What the debugger prints for a name is what the interpreter reads, and it knows the names that
the interpreter knows. -/
structure NamesAgree (w : World F) (s : ℕ) (idx : Int32) : Prop where
  value (v : SValue F) :
    resolveName (some (w.script s)) w.frames ((w.script s).prog.str idx) = some v →
      v = w.identVal s idx
  missing : resolveName (some (w.script s)) w.frames ((w.script s).prog.str idx) = none ↔
    ¬ w.HasName s idx

/-- The local of that name in the nearest frame that called the running one. -/
def World.callerVal (w : World F) (s : ℕ) (name : Bytes) : Option (SValue F) :=
  w.frames.tail.findSome? (Frame.named (w.script s).prog name)

/-- The running frame has a local of that name. -/
def World.HasLocal (w : World F) (idx : Int32) : Prop :=
  ∃ f ∈ w.frame, ∃ b ∈ f.locs, b.nameIdx = idx

/-- In a pool without duplicates a name stands at one place only. -/
theorem str_inj {p : Program} (hp : p.strings.Nodup) {i j : Int32} (hi : p.str i ≠ [])
    (h : p.str j = p.str i) : j = i := by
  have hplace (k : Int32) (hk : p.str k ≠ []) : ¬ k.toInt < 0 ∧
      ∃ hl : k.toInt.toNat < p.strings.length, p.strings[k.toInt.toNat] = p.str k := by
    rw [Program.str] at hk
    split at hk
    · exact absurd rfl hk
    · next hneg =>
      refine ⟨hneg, ?_⟩
      have hl : k.toInt.toNat < p.strings.length := by
        by_contra hge
        exact hk (by rw [List.getD_eq_default _ _ (not_lt.mp hge)])
      exact ⟨hl, by rw [Program.str, if_neg hneg, List.getD_eq_getElem _ _ hl]⟩
  obtain ⟨hi0, hil, hie⟩ := hplace i hi
  obtain ⟨hj0, hjl, hje⟩ := hplace j (h ▸ hi)
  have hnat : j.toInt.toNat = i.toInt.toNat := by
    apply (List.Nodup.getElem_inj_iff hp).mp
    rw [hie, hje, h]
  apply Int32.toInt_inj.mp
  omega

section
variable {w : World F} {s : ℕ} {idx : Int32} (hp : (w.script s).prog.strings.Nodup)
  (hidx : (w.script s).prog.str idx ≠ [])
include hp hidx

theorem named_eq (f : Frame F) : f.named (w.script s).prog ((w.script s).prog.str idx) =
    (f.locs.find? fun b => b.nameIdx = idx).map LocalBinding.val := by
  have hfun : (fun b : LocalBinding F =>
      decide ((w.script s).prog.str b.nameIdx = (w.script s).prog.str idx)) =
        fun b => decide (b.nameIdx = idx) := by
    funext b
    rw [decide_eq_decide]
    exact ⟨str_inj hp hidx, fun h => by rw [h]⟩
  rw [Frame.named, hfun]

theorem globalNamed_eq : (w.script s).globalNamed ((w.script s).prog.str idx) =
    ((w.script s).prog.globals.findIdx? fun g => g.nameIdx = idx).map fun i =>
      (w.script s).globals.getD i .void := by
  have hfun : (fun g : GlobalVar =>
      decide ((w.script s).prog.str g.nameIdx = (w.script s).prog.str idx)) =
        fun g => decide (g.nameIdx = idx) := by
    funext g
    rw [decide_eq_decide]
    exact ⟨str_inj hp hidx, fun h => by rw [h]⟩
  rw [Script.globalNamed, hfun]

/-- The debugger looks into the running frame, then into its callers. -/
theorem resolveName_eq : resolveName (some (w.script s)) w.frames ((w.script s).prog.str idx) =
    (((w.frame.bind fun f => (f.locs.find? fun b => b.nameIdx = idx).map LocalBinding.val).or
      (w.callerVal s ((w.script s).prog.str idx))).or
        (((w.script s).prog.globals.findIdx? fun g => g.nameIdx = idx).map fun i =>
          (w.script s).globals.getD i .void)).or (constNamed ((w.script s).prog.str idx)) := by
  rw [resolveName, Option.bind_some, globalNamed_eq hp hidx, World.callerVal, World.frame]
  cases w.frames with
  | nil => rfl
  | cons f fs =>
    rw [List.findSome?_cons, named_eq hp hidx, List.head?_cons, Option.bind_some, List.tail_cons]
    cases (f.locs.find? fun b => b.nameIdx = idx).map LocalBinding.val with
    | none => rfl
    | some v => rfl

end

omit [CDouble F] in
/-- The place of the last local of that name, and its value. -/
theorem hasLocal_iff (w : World F) (idx : Int32) : w.HasLocal idx ↔
    ∃ k, (w.frame.bind fun f => f.locs.findIdx? fun b => b.nameIdx = idx) = some k := by
  cases hf : w.frame with
  | none => simp [World.HasLocal, hf]
  | some f =>
    rw [Option.bind_some, ← Option.isSome_iff_exists, List.findIdx?_isSome]
    simp [World.HasLocal, hf]

omit [CDouble F] in
theorem local_eq (w : World F) (idx : Int32) :
    (w.frame.bind fun f => (f.locs.find? fun b => b.nameIdx = idx).map LocalBinding.val) =
      (w.frame.bind fun f => f.locs.findIdx? fun b => b.nameIdx = idx).bind fun k =>
        (w.frame.bind fun f => f.locs[k]?).map LocalBinding.val := by
  cases w.frame with
  | none => rfl
  | some f =>
    simp only [Option.bind_some, List.find?_eq_bind_findIdx?_getElem?]
    cases f.locs.findIdx? fun b => b.nameIdx = idx with
    | none => rfl
    | some k => rfl

/-- The constants that the debugger knows. -/
theorem constNamed_or (name : Bytes) :
    ((constNamed name : Option (SValue F)) = none ∧ (builtinsConst name : SValue F) = .void) ∨
      constNamed name = some (builtinsConst name : SValue F) := by
  rw [constNamed]
  cases (builtinsConst name : SValue F) with
  | void => exact Or.inl ⟨rfl, rfl⟩
  | _ => exact Or.inr rfl

/-- Without a local in the running frame, the interpreter goes on to the globals and constants. -/
theorem names_of_no_local {w : World F} {s : ℕ} {idx : Int32} (hl : ¬ w.HasLocal idx) :
    (w.HasName s idx ↔ ((((w.script s).prog.globals.findIdx? fun g => g.nameIdx = idx).map fun i =>
        (w.script s).globals.getD i .void).or
          (constNamed ((w.script s).prog.str idx))).isSome) ∧
      ∀ v, (((w.script s).prog.globals.findIdx? fun g => g.nameIdx = idx).map fun i =>
        (w.script s).globals.getD i .void).or (constNamed ((w.script s).prog.str idx)) = some v →
          v = w.identVal s idx := by
  have hnone : (w.frame.bind fun f => f.locs.findIdx? fun b => b.nameIdx = idx) = none := by
    by_contra hne
    exact hl ((hasLocal_iff w idx).mpr (Option.ne_none_iff_exists'.mp hne))
  have hcell : w.findCell s idx =
      ((w.script s).prog.globals.findIdx? fun g => g.nameIdx = idx).map .glob := by
    rw [World.findCell, hnone]
  rw [World.HasName, World.identVal, hcell]
  cases (w.script s).prog.globals.findIdx? fun g => g.nameIdx = idx with
  | some i =>
    refine ⟨by simp, ?_⟩
    intro v hv
    exact (Option.some.inj hv).symm
  | none =>
    refine ⟨by simp, ?_⟩
    intro v hv
    rcases constNamed_or (F := F) ((w.script s).prog.str idx) with ⟨hc, -⟩ | hc
    · rw [hc] at hv
      cases hv
    · rw [hc] at hv
      exact (Option.some.inj hv).symm

/-- Debugger and interpreter agree on a name of the pool exactly if the running frame has a local of
that name, or none of the frames that called it has one, or the nearest such local happens to have
the value of the global or constant of that name. -/
theorem names_agree_iff (w : World F) (s : ℕ) (idx : Int32)
    (hp : (w.script s).prog.strings.Nodup) (hidx : (w.script s).prog.str idx ≠ []) :
    NamesAgree w s idx ↔ w.HasLocal idx ∨ w.callerVal s ((w.script s).prog.str idx) = none ∨
      w.HasName s idx ∧
        w.callerVal s ((w.script s).prog.str idx) = some (w.identVal s idx) := by
  have hres := resolveName_eq hp hidx
  rw [local_eq] at hres
  by_cases hl : w.HasLocal idx
  · -- both find the same local
    refine iff_of_true ?_ (Or.inl hl)
    obtain ⟨k, hk⟩ := (hasLocal_iff w idx).mp hl
    have hcell : w.findCell s idx = some (.loc k) := by rw [World.findCell, hk]
    obtain ⟨v, hv⟩ : ∃ v, (w.frame.bind fun f => f.locs[k]?).map LocalBinding.val = some v := by
      obtain ⟨f, hf, hfk⟩ := Option.bind_eq_some_iff.mp hk
      obtain ⟨hlt, -⟩ := List.findIdx?_eq_some_iff_getElem.mp hfk
      exact ⟨f.locs[k].val, by rw [hf, Option.bind_some, List.getElem?_eq_getElem hlt]; rfl⟩
    rw [hk, Option.bind_some, hv, Option.some_or, Option.some_or, Option.some_or] at hres
    constructor
    · intro v' hv'
      rw [hres] at hv'
      rw [World.identVal, hcell, ← Option.some.inj hv']
      change v = ((w.frame.bind fun f => f.locs[k]?).map LocalBinding.val).getD .void
      rw [hv, Option.getD_some]
    · rw [hres, World.HasName, hcell]
      simp
  · have hnone : (w.frame.bind fun f => f.locs.findIdx? fun b => b.nameIdx = idx) = none := by
      by_contra hne
      exact hl ((hasLocal_iff w idx).mpr (Option.ne_none_iff_exists'.mp hne))
    rw [hnone, Option.bind_none, Option.none_or, Option.or_assoc] at hres
    obtain ⟨hname, hval⟩ := names_of_no_local (s := s) hl
    cases hc : w.callerVal s ((w.script s).prog.str idx) with
    | none =>
      rw [hc, Option.none_or] at hres
      refine iff_of_true ⟨fun v hv => hval v (hres ▸ hv), ?_⟩ (Or.inr (Or.inl rfl))
      rw [hres, hname, Option.not_isSome_iff_eq_none]
    | some v =>
      rw [hc, Option.some_or] at hres
      constructor
      · intro h
        have hhas : w.HasName s idx := by
          by_contra hno
          have hz := h.missing.mpr hno
          rw [hres] at hz
          cases hz
        exact Or.inr (Or.inr ⟨hhas, congrArg some (h.value v hres)⟩)
      · rintro (h | h | ⟨hhas, h⟩)
        · exact absurd h hl
        · cases h
        · obtain rfl := Option.some.inj h
          refine ⟨fun v hv => ?_, ?_⟩
          · rw [hres] at hv
            exact (Option.some.inj hv).symm
          · rw [hres]
            exact iff_of_false (by simp) (not_not.mpr hhas)

/-- A handler with a local `x` that calls a function. -/
def callingProgram : Program :=
  { strings := [lit "default", lit "state_entry", lit "f", lit "x"], globals := [],
    funcs := [⟨2, 1, 0, 0, [], .block 1 [.empty 2]⟩],
    states := [⟨0, 3, 1, [⟨1, 4, [], .block 4 [.decl 5 SV.integer 3 (.intLit SV.integer 0 5),
      .expr 6 (.call SV.void 0 2 [])]⟩]⟩], flags := 0 }

/-- What is noted while the handler runs, newest first: the statement in the function comes third,
the call fifth. -/
def callingLog : List (Mark ℚ × World ℚ) :=
  ((regionOf [callingProgram] []).after noLib 30 5).machine.log

theorem names_agree_in_handler : NamesAgree (callingLog.get ⟨4, by decide +kernel⟩).2 0 3 := by
  refine (names_agree_iff _ 0 3 (by decide +kernel) (by decide +kernel)).mpr (Or.inl ?_)
  have hl : ((callingLog.get ⟨4, by decide +kernel⟩).2.frame.any fun f =>
      f.locs.any fun b => b.nameIdx = 3) = true := by decide +kernel
  obtain ⟨f, hf, hb⟩ := (Option.any_eq_true _ _).mp hl
  obtain ⟨b, hm, hn⟩ := List.any_eq_true.mp hb
  exact ⟨f, hf, b, hm, of_decide_eq_true hn⟩

/-- In the function there is no variable `x`, but the debugger prints that of the handler. -/
theorem print_finds_caller : Conf.IsRun noLib ((regionOf [callingProgram] []).after noLib 30) 5 ∧
    ∃ x ∈ callingLog, x.1.isExec ∧ ¬ NamesAgree x.2 0 3 := by
  refine ⟨Conf.isRun_after (start_regionOf _ _) (by decide +kernel),
    callingLog.get ⟨2, by decide +kernel⟩, List.get_mem _ _, by decide +kernel, fun h => ?_⟩
  have hprint : (resolveName (some ((callingLog.get ⟨2, by decide +kernel⟩).2.script 0))
      (callingLog.get ⟨2, by decide +kernel⟩).2.frames
      (((callingLog.get ⟨2, by decide +kernel⟩).2.script 0).prog.str 3)).isSome := by
    decide +kernel
  have hno : ¬ (callingLog.get ⟨2, by decide +kernel⟩).2.HasName 0 3 := by decide +kernel
  rw [h.missing.mpr hno] at hprint
  cases hprint

end Slemu
