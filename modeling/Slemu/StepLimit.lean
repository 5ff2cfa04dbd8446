import Slemu.Frames
import Slemu.StateChange

/-! The limit of `--steps`, which the loop of `region_run` looks at before each round of the scripts
only. -/

namespace Slemu
variable {F : Type}

/-! ### What counts steps -/

namespace World
variable (w : World F) (p : Bytes)

theorem control_pushTouches (s : ℕ) (names : List Bytes) :
    (w.pushTouches s names).control = w.control := by
  induction names generalizing w with
  | nil => rfl
  | cons name names ih => exact ih _

theorem control_cmdListen : (w.cmdListen p).control = w.control := control_pushAll _ _ _ _

theorem control_cmdToAll (word event : Bytes) :
    (cmdToAll word event w p).control = w.control := control_pushAll _ _ _ _

theorem control_cmdHttpIn : (w.cmdHttpIn p).control = w.control := by
  unfold cmdHttpIn
  dsimp only
  split <;> rfl

theorem control_cmdDetach : w.cmdDetach.control = w.control := by
  unfold cmdDetach
  split <;> rfl

theorem control_payFrom (src : ℕ) (who : Bytes) (n : ℤ) :
    (w.payFrom src who n).control = w.control := by
  unfold payFrom
  dsimp only
  split
  · rfl
  · split <;> split <;> rfl

theorem control_cmdMoneyFrom : (w.cmdMoneyFrom p).control = w.control := by
  unfold cmdMoneyFrom
  dsimp only
  split
  · rfl
  · split
    · rfl
    · exact control_payFrom _ _ _ _

theorem control_cmdAssertBalance : (w.cmdAssertBalance p).control = w.control := by
  have hs (c : Prop) [Decidable c] (a b : Bytes) : (if c then
      w.assertion (lit "balance") false 128 a else
      w.assertion (lit "balance") true 128 b).control = w.control := by
    split <;> rfl
  unfold cmdAssertBalance
  dsimp only
  split
  · exact hs _ _ _
  · rfl

variable [CDouble F]

theorem control_cmdTouch : (w.cmdTouch p).control = w.control := by
  unfold cmdTouch
  dsimp only
  split
  · rfl
  · exact control_pushTouches _ _ _

theorem control_cmdTouchFace : (w.cmdTouchFace p).control = w.control := by
  unfold cmdTouchFace
  dsimp only
  split
  · rfl
  · exact control_pushTouches _ _ _

theorem control_cmdTouchAs : (w.cmdTouchAs p).control = w.control := by
  unfold cmdTouchAs
  dsimp only
  split
  · exact control_pushTouches _ _ _
  · rfl

theorem control_answerDialog (d : OpenDialog) (who text : Bytes) :
    (w.answerDialog d who text).control = w.control := by
  unfold answerDialog
  split
  · rfl
  · have h := w.withControl_pushTimes w.control
    simp only [withControl_control] at h
    rw [h, control_withControl]

theorem control_cmdReply (word field : Bytes) : (cmdReply word field w p).control = w.control := by
  unfold cmdReply
  dsimp only
  split
  · exact control_answerDialog _ _ _ _
  · rfl

theorem control_cmdAttach : (w.cmdAttach p).control = w.control := by
  unfold cmdAttach
  dsimp only
  split
  · rfl
  · split <;> rfl

end World

variable [CDouble F]

/-- The limit stays, and the counter does not fall below it. -/
structure Counts (w w' : World F) : Prop where
  limit : w'.maxSteps = w.maxSteps
  count : w'.nSteps < w'.maxSteps → w.nSteps ≤ w'.nSteps

omit [CDouble F] in
theorem Counts.of_control {w w' : World F} (h : w'.control = w.control) : Counts w w' := by
  simp only [World.control, Control.mk.injEq] at h
  exact ⟨h.2.1, fun _ => h.2.2.ge⟩

/-- A command leaves the frames and the counter alone, or it is `EXIT`. -/
theorem control_commandTable :
    ∀ q ∈ (World.commandTable : List (Bytes × (World F → Bytes → World F))),
      ∀ w p, (q.2 w p).control = w.control ∨ q.2 w p = w.cmdExit := by
  have hkeep {f : World F → Bytes → World F} (h : ∀ w p, (f w p).control = w.control) :
      ∀ w p, (f w p).control = w.control ∨ f w p = w.cmdExit := fun w p => Or.inl (h w p)
  simp only [World.commandTable, List.forall_mem_cons]
  exact ⟨hkeep fun _ _ => rfl, hkeep fun _ _ => rfl, hkeep fun _ _ => rfl,
    fun w _ => Or.inr trivial, hkeep fun w p => w.control_cmdTouch p,
    hkeep fun w p => w.control_cmdTouchFace p, hkeep fun w p => w.control_cmdTouchAs p,
    hkeep World.control_cmdListen, hkeep fun _ _ => rfl,
    hkeep fun w p => w.control_cmdReply p _ _, hkeep fun w p => w.control_cmdReply p _ _,
    hkeep World.control_cmdMoneyFrom, hkeep World.control_cmdHttpIn,
    hkeep fun w p => w.control_cmdAttach p, hkeep fun w _ => w.control_cmdDetach,
    hkeep fun w p => w.control_cmdToAll p _ _, hkeep fun w p => w.control_cmdToAll p _ _,
    hkeep World.control_cmdAssertBalance, hkeep fun _ _ => rfl, hkeep fun _ _ => rfl,
    hkeep fun _ _ => rfl, fun _ hq => absurd hq List.not_mem_nil⟩

theorem control_runCommand (w : World F) (line : Bytes) :
    (w.runCommand line).control = w.control ∨ w.runCommand line = w.cmdExit := by
  unfold World.runCommand
  dsimp only
  split
  · exact Or.inl rfl
  · split
    · rename_i f hf
      obtain ⟨l₁, l₂, hl, -⟩ := List.lookup_eq_some_iff.mp hf
      have hmem : (_, f) ∈ World.commandTable := hl ▸ List.mem_append_right l₁ List.mem_cons_self
      exact control_commandTable _ hmem w _
    · exact Or.inl rfl

/-- Commands leave the frames alone. -/
theorem frames_commandsPump (w : World F) : w.commandsPump.2.frames = w.frames := by
  unfold World.commandsPump
  split
  · rfl
  · rename_i line hl
    rcases control_runCommand { w with nextCommand := w.nextCommand+1 } line with h | h
    · exact congrArg Control.frames h
    · change (World.runCommand _ line).frames = w.frames
      rw [h]
      rfl

/-- `EXIT` sets the counter past the limit, which is no less than before unless it was past it
already. -/
theorem Counts.runCommand (w : World F) (line : Bytes) : Counts w (w.runCommand line) := by
  rcases control_runCommand w line with h | h
  · exact .of_control h
  · rw [h]
    refine ⟨rfl, fun hlt => ?_⟩
    simp only [World.cmdExit] at hlt
    omega

theorem Counts.commandsPump (w : World F) : Counts w w.commandsPump.2 := by
  unfold World.commandsPump
  split
  · exact .of_control rfl
  · rename_i line hl
    have h := runCommand { w with nextCommand := w.nextCommand+1 } line
    exact ⟨h.limit, h.count⟩

omit [CDouble F] in
theorem Counts.countStep {w w' : World F} (h : Counts w w') : Counts w w'.countStep := by
  refine ⟨h.limit, fun hlt => ?_⟩
  have hstep : w'.countStep.nSteps = w'.nSteps+1 := rfl
  have hlimit : w'.countStep.maxSteps = w'.maxSteps := rfl
  have := h.count (by omega)
  omega

theorem Counts.pump {next last p : Phase} {m m' : Machine F}
    (h : pump next last m = (.ok p, m')) : Counts m.world m'.world := by
  obtain ⟨b, m1, h1, h2⟩ := Run.of_bind_ok h
  have h0 : Counts m.world m1.world := by
    cases h1
    exact commandsPump m.world
  cases b with
  | true =>
    cases h2
    exact h0.countStep
  | false =>
    cases h2
    exact h0

/-! ### Scripts count no steps -/

/-- The limit and the counter stay. -/
def SameSteps (w w' : World F) : Prop := w'.maxSteps = w.maxSteps ∧ w'.nSteps = w.nSteps

omit [CDouble F] in
instance : IsPreorder (World F) SameSteps where
  refl _ := ⟨rfl, rfl⟩
  trans _ _ _ h h' := ⟨h'.1.trans h.1, h'.2.trans h.2⟩

namespace SameSteps

omit [CDouble F] in
theorem of_control {w w' : World F} (h : w'.control = w.control) : SameSteps w w' := by
  simp only [World.control, Control.mk.injEq] at h
  exact h.2

omit [CDouble F] in
theorem counts {w w' : World F} (h : SameSteps w w') : Counts w w' := ⟨h.1, fun _ => h.2.ge⟩

omit [CDouble F] in
theorem setCell (w : World F) (s : ℕ) (c : Cell) (v : SValue F) :
    SameSteps w (w.setCell s c v) := by
  cases c <;> exact ⟨rfl, rfl⟩

theorem closed (s : ℕ) : Closed s (fun {α} (m _ : VM F α) => Respects SameSteps m) where
  pure a := .pure a
  fail e := .fail e
  bind hm hf := .bind hm hf
  get _ := .get _
  mark k _ := .mark k
  setCell c v := .set fun w => setCell w s c v
  flags _ := .set fun _ => ⟨rfl, rfl⟩
  define _ _ _ := .set fun _ => ⟨rfl, rfl⟩
  enter := .set fun _ => ⟨rfl, rfl⟩
  leave := .set fun _ => ⟨rfl, rfl⟩

theorem handles (lib : Lib F) (s : ℕ) :
    Handles lib s (fun {α} (m _ : VM F α) => Respects SameSteps m) where
  toClosed := closed s
  func hr fd args := (closed s).runUserFunc hr (fun _ => .set fun _ => ⟨rfl, rfl⟩)
    (.set fun _ => ⟨rfl, rfl⟩) fd args
  builtin hr name args := by
    refine (closed s).callBuiltin hr.toEvals (.set fun _ => ⟨rfl, rfl⟩) (fun st => .set fun _ => ⟨rfl, rfl⟩)
      (.set fun _ => ⟨rfl, rfl⟩) (fun name f args hf => ?_) name args
    exact .call fun w => of_control (control_of_lookup hf w s args)
  stmt {r r'} hr st hst := by
    refine .bind (.mark _) fun _ => ?_
    cases hc : st.isStateChg with
    | false => exact hst hc
    | true =>
      cases st with
      | stateChg line idx => exact (closed s).stateChg r r line idx fun i => .set fun w => ⟨rfl, rfl⟩
      | _ => cases hc

theorem vmDispatch (lib : Lib F) (s n : ℕ) (ev : EventDecl) (args : List (SValue F)) :
    Respects SameSteps (vmDispatch lib s n ev args) :=
  .bind (.set fun _ => ⟨rfl, rfl⟩) fun _ =>
    .bind (((handles lib s).interp n).exec _) fun _ => .set fun _ => ⟨rfl, rfl⟩

theorem dispatchEvent (lib : Lib F) (s n : ℕ) (ev : Event F) :
    Respects SameSteps (dispatchEvent lib s n ev) := by
  refine .bind (.get _) fun o => ?_
  split
  · exact .pure ()
  · exact .bind (.set fun _ => ⟨rfl, rfl⟩) fun _ => vmDispatch lib s n _ _

theorem exitState (lib : Lib F) (n i : ℕ) (old : Option ℕ) :
    Respects SameSteps (exitState lib n i old) := by
  refine .bind (.get _) fun p => ?_
  split
  · exact .pure ()
  · exact vmDispatch lib i n _ []

theorem initGlobals (lib : Lib F) (s n : ℕ) (gs : List (GlobalVar × ℕ)) :
    Respects SameSteps (initGlobals (interp lib s n) s gs) := by
  induction gs with
  | nil => exact .pure ()
  | cons gi gs ih =>
    obtain ⟨g, i⟩ := gi
    exact .bind ((closed s).initGlobal ((handles lib s).interp n).toEvals i g _) fun _ => ih

theorem initScript (lib : Lib F) (s n : ℕ) : Respects SameSteps (initScript lib s n) := by
  refine .bind (.get _) fun p => .bind (initGlobals lib s n _) fun _ => ?_
  exact .bind (.set fun _ => ⟨rfl, rfl⟩) fun _ => .set fun _ => ⟨rfl, rfl⟩

theorem limitReached : Respects SameSteps (limitReached : VM F Bool) := by
  refine .bind (.get _) fun _ => .ite (.pure true) (.bind (.get _) fun _ => .ite ?_ (.pure false))
  exact .bind (.call fun _ => ⟨rfl, rfl⟩) fun _ => .read _

omit [CDouble F] in
theorem startClock : Respects SameSteps (startClock : VM F Unit) :=
  .bind (.call fun _ => ⟨rfl, rfl⟩) fun _ => Run.Keeps.update fun _ => ⟨rfl, rfl⟩

theorem fireTimer (w : World F) : SameSteps w w.fireTimer.2 := by
  unfold World.fireTimer
  split <;> exact ⟨rfl, rfl⟩

omit [CDouble F] in
theorem volumeLoadEconomy (w : World F) : SameSteps w w.volumeLoadEconomy := by
  unfold World.volumeLoadEconomy
  split <;> exact ⟨rfl, rfl⟩

end SameSteps

/-! ### Runs -/

namespace Conf

/-- The next step takes an event off the queue of a script and dispatches it. -/
def takes (c : Conf F) : Bool :=
  match c.phase with
  | .visit i _ => decide (i < c.world.scripts.length) && !(c.script i).evq.isEmpty
  | _ => false

/-- How many of the first `n` steps of a run do. -/
def dispatched (c : ℕ → Conf F) (n : ℕ) : ℕ := (List.range n).countP fun k => (c k).takes

theorem dispatched_succ (c : ℕ → Conf F) (n : ℕ) :
    dispatched c (n+1) = dispatched c n+(if (c n).takes then 1 else 0) := by
  rw [dispatched, List.range_succ, List.countP_append, List.countP_singleton]
  rfl

/-- What the visit of a script counts. -/
theorem visitScript_counts {lib : Lib F} {fuel i : ℕ} {b : Bool} {m m' : Machine F} {p : Phase}
    (h : visitScript lib fuel i b m = (.ok p, m')) :
    if i < m.world.scripts.length ∧ (m.world.script i).evq ≠ [] then
      m'.world.maxSteps = m.world.maxSteps ∧ m'.world.nSteps = m.world.nSteps+1
    else m' = m := by
  have h1 := VM.of_get_bind h
  by_cases hi : i < m.world.scripts.length
  · rw [if_pos (decide_eq_true hi)] at h1
    have h2 := VM.of_get_bind h1
    cases hq : (m.world.script i).evq with
    | nil =>
      rw [hq] at h2
      cases h2
      rw [if_neg (by simp)]
    | cons ev evs =>
      rw [hq] at h2
      obtain ⟨u, m2, h3, h4⟩ := Run.of_bind_ok (VM.of_set_bind h2)
      cases h4
      obtain ⟨hl, hn⟩ := (SameSteps.dispatchEvent lib i fuel ev).of_ok h3
      rw [if_pos ⟨hi, List.cons_ne_nil ev evs⟩]
      exact ⟨hl, congrArg (·+1) hn⟩
  · rw [if_neg (by simpa using hi)] at h1
    cases h1
    rw [if_neg (by simp [hi])]

/-- A step that dispatches is counted; the others leave the limit, and do not lower the counter
to less than the limit. -/
theorem Step.counts {lib : Lib F} {c c' : Conf F} (h : Step lib c c') :
    (c.takes = true → c'.world.maxSteps = c.world.maxSteps ∧
      c'.world.nSteps = c.world.nSteps+1) ∧
    (c.takes = false → Counts c.world c'.world) := by
  obtain ⟨hd, fuel, h⟩ := h
  obtain ⟨phase, m⟩ := c
  obtain ⟨phase', m'⟩ := c'
  dsimp only [Conf.world] at h ⊢
  have hsame {α : Type} {r : VM F α} {a a' : Machine F} {x : α} (hr : Respects SameSteps r)
      (hx : r a = (.ok x, a')) : Counts a.world a'.world := (hr.of_ok hx).counts
  have hrefl (w : World F) : Counts w w := .of_control rfl
  cases phase with
  | visit i b =>
    have hv := visitScript_counts h
    have ht : (⟨.visit i b, m⟩ : Conf F).takes = true ↔
        i < m.world.scripts.length ∧ (m.world.script i).evq ≠ [] := by
      rw [takes, Bool.and_eq_true, decide_eq_true_eq, Bool.not_eq_true', List.isEmpty_eq_false_iff]
      rfl
    constructor
    · intro htrue
      rwa [if_pos (ht.mp htrue)] at hv
    · intro hfalse
      rw [if_neg fun hc => by rw [ht.mpr hc] at hfalse; cases hfalse] at hv
      rw [hv]
      exact hrefl m.world
  | load =>
    cases h
    exact ⟨nofun, fun _ => (SameSteps.volumeLoadEconomy m.world).counts⟩
  | init i =>
    refine ⟨nofun, fun _ => ?_⟩
    have h1 := VM.of_get_bind h
    by_cases hi : i < m.world.scripts.length
    · rw [if_pos (decide_eq_true hi)] at h1
      obtain ⟨u, m1, h2, h3⟩ := Run.of_bind_ok h1
      cases h3
      exact hsame (SameSteps.initScript lib i fuel) h2
    · rw [if_neg (by simpa using hi)] at h1
      obtain ⟨u, m1, h2, h3⟩ := Run.of_bind_ok h1
      cases h3
      exact hsame SameSteps.startClock h2
  | top =>
    refine ⟨nofun, fun _ => ?_⟩
    obtain ⟨b, m1, h1, h2⟩ := Run.of_bind_ok h
    have hl := SameSteps.limitReached.of_ok h1
    cases b with
    | true =>
      cases h2
      exact hl.counts
    | false =>
      cases h2
      exact (trans_of SameSteps hl (SameSteps.fireTimer m1.world)).counts
  | settle i =>
    refine ⟨nofun, fun _ => ?_⟩
    have h1 := VM.of_get_bind h
    cases hp : (m.world.script i).pendingState with
    | none =>
      rw [hp] at h1
      cases h1
      exact hrefl m.world
    | some new =>
      rw [hp] at h1
      cases h1
      exact .of_control rfl
  | exit i old new =>
    obtain ⟨u, m1, h1, h2⟩ := Run.of_bind_ok h
    cases h2
    exact ⟨nofun, fun _ => hsame (SameSteps.exitState lib fuel i old) h1⟩
  | entry i new =>
    cases h
    exact ⟨nofun, fun _ => .of_control rfl⟩
  | idle => exact ⟨nofun, fun _ => Counts.pump h⟩
  | drain => exact ⟨nofun, fun _ => Counts.pump h⟩
  | save =>
    cases h
    exact ⟨nofun, fun _ => .of_control rfl⟩
  | done => exact absurd rfl hd

/-- The events dispatched so far are counted, unless the limit is reached. -/
structure Counted (c : ℕ → Conf F) (n : ℕ) : Prop where
  limit : (c n).world.maxSteps = (c 0).world.maxSteps
  count : (c n).world.nSteps < (c n).world.maxSteps → (dispatched c n : ℤ) ≤ (c n).world.nSteps

theorem IsRun.counted {lib : Lib F} {c : ℕ → Conf F} {n : ℕ} (h : IsRun lib c n)
    (h0 : (c 0).world.nSteps = 0) : ∀ k ≤ n, Counted c k := by
  intro k
  induction k with
  | zero => exact fun _ => ⟨rfl, fun _ => h0.ge⟩
  | succ k ih =>
    intro hk
    obtain ⟨hl, hc⟩ := ih (Nat.le_of_succ_le hk)
    have hstep := (h.step k hk).counts
    have hd := dispatched_succ c k
    cases ht : (c k).takes with
    | true =>
      obtain ⟨hlimit, hcount⟩ := hstep.1 ht
      rw [ht, if_pos rfl] at hd
      refine ⟨hlimit.trans hl, fun hlt => ?_⟩
      have := hc (by omega)
      omega
    | false =>
      obtain ⟨hlimit, hcount⟩ := hstep.2 ht
      simp only [ht, Bool.false_eq_true, if_false] at hd
      refine ⟨hlimit.trans hl, fun hlt => ?_⟩
      have hle := hcount hlt
      have := hc (by omega)
      omega

end Conf

/-- A region with `--steps N` and a `state_entry` handler in each script. -/
def limitedRegion (N : ℤ) (scripts : ℕ) : Conf ℚ :=
  let c := regionOf (List.replicate scripts (handlersProgram [(1, [])])) []
  ⟨c.phase, { c.machine with world := { c.machine.world with maxSteps := N } }⟩

theorem start_limitedRegion (N : ℤ) (scripts : ℕ) : Conf.Start (limitedRegion N scripts) := by
  have h := start_regionOf (List.replicate scripts (handlersProgram [(1, [])])) []
  exact ⟨h.phase, h.virtualNow, h.virtualOffset, h.advances, h.nextCommand, h.frames, h.log,
    h.scripts⟩

end Slemu
