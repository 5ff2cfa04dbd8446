import Slemu.Quiescence

/-! What `EXIT` in a commands file stops: the step counter is looked at by the main loop only, and
the loop behind it takes the lines that are left. -/

namespace Slemu
variable {F : Type} [CDouble F]

/-- A line that `commands_pump` takes for `EXIT`. -/
def isExit (line : Bytes) : Bool := (nextTok line).1 = some (lit "EXIT")

theorem runCommand_exit {line : Bytes} (h : isExit line) (w : World F) :
    w.runCommand line = w.cmdExit := by
  have hexit : (World.commandTable : List (Bytes × (World F → Bytes → World F))).lookup
      (lit "EXIT") = some fun w _ => w.cmdExit := by
    have hwait : (lit "EXIT" == lit "WAIT") = false := by decide +kernel
    have hecho : (lit "EXIT" == lit "ECHO") = false := by decide +kernel
    have hsnap : (lit "EXIT" == lit "SNAPSHOT") = false := by decide +kernel
    rw [World.commandTable, List.lookup_cons, hwait, List.lookup_cons, hecho, List.lookup_cons,
      hsnap, List.lookup_cons, beq_self_eq_true]
  have hcmd : (nextTok line).1 = some (lit "EXIT") := of_decide_eq_true h
  rw [World.runCommand]
  simp only [hcmd, hexit]

/-- No line follows an `EXIT`. -/
def ExitLast (lines : List Bytes) : Prop :=
  ∀ j line, lines[j]? = some line → isExit line → j+1 = lines.length

/-! ### A cycle after which nothing is due -/

/-- The queues of the first `j` scripts are empty, and the search for a due timer finds none. -/
structure NothingUpTo (j : ℕ) (w : World F) : Prop where
  queues : ∀ i < j, (w.script i).evq = []
  timer : w.dueTimer.2 = none

/-- What a cycle without progress has seen so far, however the sum `virtual_offset + 1.0` is
rounded. -/
def NothingSoFar (p : Phase) (w : World F) : Prop :=
  (∀ j, p = .visit j false → NothingUpTo j w) ∧ (p = .idle → ∀ j, NothingUpTo j w)

theorem NothingUpTo.skip {w : World F} {i : ℕ} (h : NothingUpTo i w) (hq : (w.script i).evq = []) :
    NothingUpTo (i+1) w := by
  refine ⟨?_, h.timer⟩
  intro k hk
  rcases Nat.lt_succ_iff_lt_or_eq.mp hk with hk | rfl
  · exact h.queues k hk
  · exact hq

theorem NothingUpTo.around {w : World F} {i : ℕ} (h : NothingUpTo i w) (hi : w.scripts.length ≤ i)
    (j : ℕ) : NothingUpTo j w := by
  refine ⟨?_, h.timer⟩
  intro k _
  rcases Nat.lt_or_ge k i with hk | hk
  · exact h.queues k hk
  · rw [script_of_length_le w k (hi.trans hk)]
    rfl

theorem nothingUpTo_fireTimer {w : World F} {d : F} (h : w.dueTimer = (d, none)) :
    NothingUpTo 0 { w with virtualNow := w.virtualOffset } :=
  ⟨fun i hi => absurd hi (Nat.not_lt_zero i), congrArg Prod.snd h⟩

theorem NothingSoFar.step {p p' : Phase} {w w' : World F} (hn : NothingSoFar p w)
    (h : Moves p w p' w') : NothingSoFar p' w' := by
  constructor
  · rintro j rfl
    generalize hv : Phase.visit j false = q at h
    cases h with
    | @head _ u h =>
      rcases hd : u.dueTimer with ⟨d, _ | i⟩
      · rw [fireTimer_none hd] at hv ⊢
        cases hv
        exact nothingUpTo_fireTimer hd
      · rw [fireTimer_some hd] at hv
        cases hv
    | skip hi he =>
      cases hv
      exact (hn.1 _ rfl).skip he
    | _ => cases hv
  · rintro rfl
    generalize hv : Phase.idle = q at h
    cases h with
    | quiet hi => exact (hn.1 _ rfl).around hi
    | _ => cases hv

/-! ### After `EXIT` -/

/-- No line is left, and the main loop is over or has nothing to do. -/
structure Over (p : Phase) (w : World F) : Prop where
  spent : w.commandLines.length ≤ w.nextCommand
  phase : p ∈ [.drain, .save, .done] ∨
    (p ∈ [.top, .idle] ∨ ∃ j, p = .visit j false) ∧ ∀ j, NothingUpTo j w

theorem nothingUpTo_of_scripts {w u : World F} {j : ℕ} (hs : u.scripts = w.scripts)
    (ho : u.virtualOffset = w.virtualOffset) (h : NothingUpTo j w) : NothingUpTo j u := by
  have hd : u.dueTimer = w.dueTimer := by rw [World.dueTimer, World.dueTimer, hs, ho]
  refine ⟨?_, by rw [hd, h.timer]⟩
  intro i hi
  rw [script_of_scripts hs i]
  exact h.queues i hi

theorem nothingUpTo_of_core {w u : World F} {j : ℕ} (h : u.core = w.core) (hn : NothingUpTo j w) :
    NothingUpTo j u :=
  nothingUpTo_of_scripts (congrArg (fun c => c.1) h) (congrArg (fun c => c.2.1.2.1) h) hn

theorem Over.step {p p' : Phase} {w w' : World F} (ho : Over p w) (h : Moves p w p' w') :
    Over p' w' := by
  obtain ⟨hspent, hp⟩ := ho
  have hnot (hl : Pumped w w') : False := by
    have hlt := hl.1
    omega
  cases h with
  | @head _ u h =>
    obtain ⟨-, hn⟩ := hp.resolve_left (by simp)
    have hu := fun j => nothingUpTo_of_core h (hn j)
    have hd : u.dueTimer = (u.dueTimer.1, none) := Prod.ext rfl (hu 0).timer
    rw [fireTimer_none hd]
    refine ⟨?_, Or.inr ⟨Or.inr ⟨0, rfl⟩, ?_⟩⟩
    · rw [← (lines_of_core h).1, ← (lines_of_core h).2] at hspent
      exact hspent
    · intro j
      exact nothingUpTo_of_scripts (w := u) rfl rfl (hu j)
  | limit h =>
    refine ⟨?_, Or.inl (by simp)⟩
    rw [(lines_of_core h).1, (lines_of_core h).2]
    exact hspent
  | quiet hi => exact ⟨hspent, Or.inr ⟨Or.inl (by simp), (hp.resolve_left (by simp)).2⟩⟩
  | @skip _ i b hi he =>
    obtain ⟨hv, hn⟩ := hp.resolve_left (by simp)
    obtain ⟨j, hj⟩ := hv.resolve_left (by simp)
    cases hj
    exact ⟨hspent, Or.inr ⟨Or.inr ⟨i+1, rfl⟩, hn⟩⟩
  | @ignore _ _ i b ev evs hi hq hh h =>
    have hz := ((hp.resolve_left (by simp)).2 (i+1)).queues i (Nat.lt_succ_self i)
    rw [hq] at hz
    cases hz
  | @dispatch _ _ i b ev evs hi hq hh h =>
    have hz := ((hp.resolve_left (by simp)).2 (i+1)).queues i (Nat.lt_succ_self i)
    rw [hq] at hz
    cases hz
  | around => simp at hp
  | command h => exact absurd h hnot
  | settleDown => exact ⟨hspent, Or.inl (by simp)⟩
  | drain h => exact absurd h hnot
  | drained => exact ⟨hspent, Or.inl (by simp)⟩
  | save h =>
    refine ⟨?_, Or.inl (by simp)⟩
    rw [(lines_of_core h).1, (lines_of_core h).2]
    exact hspent
  | load => simp at hp
  | init => simp at hp
  | start => simp at hp
  | settled => simp at hp
  | change => simp at hp
  | exit => simp at hp
  | entry => simp at hp

theorem Over.not_takes {p : Phase} {w : World F} (h : Over p w) (i : ℕ) (ev : Event F) :
    ¬ Takes p w i ev := by
  rintro ⟨⟨b, rfl⟩, -, hq⟩
  obtain ⟨-, hn⟩ := h.phase.resolve_left (by simp)
  rw [(hn (i+1)).queues i (Nat.lt_succ_self i)] at hq
  cases hq

theorem Over.not_pumped {p : Phase} {w : World F} (h : Over p w) : linePumped p w = none := by
  rw [linePumped, List.getElem?_eq_none h.spent]
  split <;> rfl

namespace Conf

/-- Once an `EXIT` has been carried out, no event comes off a queue and no line is taken. -/
def StopsAtExit (c : ℕ → Conf F) (n : ℕ) : Prop :=
  ∀ k < n, ∀ line, linePumped (c k).phase (c k).world = some line → isExit line →
    ∀ m, k < m → m < n → linePumped (c m).phase (c m).world = none ∧
      ∀ i ev, ¬ Takes (c m).phase (c m).world i ev

variable {lib : Lib F} {c : ℕ → Conf F} {n : ℕ}

theorem IsRun.nothingSoFar (h : IsRun lib c n) {k : ℕ} (hk : k ≤ n) :
    NothingSoFar (c k).phase (c k).world := by
  refine h.invariant (R := NothingSoFar) ?_ (fun p w p' w' hn hm => hn.step hm) k hk
  rw [h.start.phase]
  exact ⟨by simp, by simp⟩

omit [CDouble F] in
theorem linePumped_some {p : Phase} {w : World F} {line : Bytes}
    (h : linePumped p w = some line) :
    (p = .idle ∨ p = .drain) ∧ w.commandLines[w.nextCommand]? = some line := by
  rw [linePumped] at h
  split at h
  · exact ⟨‹_›, h⟩
  · cases h

/-- The last line is an `EXIT`, and with it the run is over. -/
theorem IsRun.over_of_exit (h : IsRun lib c n) {k : ℕ} (hk : k < n) {line : Bytes}
    (hl : linePumped (c k).phase (c k).world = some line) (he : isExit line)
    (hlast : ExitLast (c 0).world.commandLines) : Over (c (k+1)).phase (c (k+1)).world := by
  obtain ⟨hp, hget⟩ := linePumped_some hl
  have hlines := (h.lines hk.le).1
  have hnext : (c k).world.nextCommand+1 = (c k).world.commandLines.length := by
    rw [hlines] at hget ⊢
    exact hlast _ line hget he
  have hw := (h.step k hk).carriesOut hl
  rw [runCommand_exit he] at hw
  have hm := h.moves hk
  have hs := h.nothingSoFar hk.le
  rw [hw] at hm ⊢
  refine ⟨hnext.ge, ?_⟩
  rcases hp with hp | hp
  · -- `EXIT` changes neither the queues nor the timers that the cycle has found empty
    have hn : ∀ j, NothingUpTo j (c k).world := hs.2 hp
    rw [hp] at hm
    generalize hq : (c (k+1)).phase = q at hm ⊢
    generalize hu : (World.cmdExit _).countStep = u at hm ⊢
    have hscripts : u.scripts = (c k).world.scripts := by rw [← hu]; rfl
    have hoff : u.virtualOffset = (c k).world.virtualOffset := by rw [← hu]; rfl
    cases hm with
    | command _ =>
      exact Or.inr ⟨Or.inl (by simp), fun j => nothingUpTo_of_scripts hscripts hoff (hn j)⟩
    | settleDown _ => exact Or.inl (by simp)
  · rw [hp] at hm
    generalize hq : (c (k+1)).phase = q at hm ⊢
    generalize hu : (World.cmdExit _).countStep = u at hm
    cases hm with
    | drain _ => exact Or.inl (by simp)
    | drained _ => exact Or.inl (by simp)

theorem IsRun.over (h : IsRun lib c n) {k : ℕ} (ho : Over (c k).phase (c k).world) (d : ℕ)
    (hd : k+d ≤ n) : Over (c (k+d)).phase (c (k+d)).world := by
  induction d with
  | zero => exact ho
  | succ d ih =>
    have hlt : k+d < n := by omega
    exact (ih hlt.le).step (h.moves hlt)

/-- A line that has been passed was taken at some step. -/
theorem IsRun.pumped_at (h : IsRun lib c n) {k j : ℕ} (hk : k ≤ n)
    (hj : j < (c k).world.nextCommand) : ∃ m < k, (c m).world.nextCommand = j ∧
      (linePumped (c m).phase (c m).world).isSome := by
  induction k with
  | zero =>
    rw [h.start.nextCommand] at hj
    exact absurd hj (Nat.not_lt_zero j)
  | succ k ih =>
    have hlt : k < n := hk
    by_cases hlow : j < (c k).world.nextCommand
    · obtain ⟨m, hm, hp⟩ := ih hlt.le hlow
      exact ⟨m, by omega, hp⟩
    · have hstep := (h.moves hlt).lines.2
      cases hp : linePumped (c k).phase (c k).world with
      | none =>
        rw [hp, Option.toList_none, List.length_nil, Nat.add_zero] at hstep
        rw [hstep] at hj
        exact absurd hj hlow
      | some line =>
        rw [hp, Option.toList_some, List.length_singleton] at hstep
        exact ⟨k, by omega, by omega, by rw [hp]; rfl⟩

theorem IsRun.nextCommand_le (h : IsRun lib c n) {k m : ℕ} (hkm : k ≤ m) (hm : m ≤ n) :
    (c k).world.nextCommand ≤ (c m).world.nextCommand := by
  induction m with
  | zero =>
    obtain rfl : k = 0 := by omega
    exact le_rfl
  | succ m ih =>
    rcases Nat.lt_or_ge m k with hlt | hge
    · obtain rfl : k = m+1 := by omega
      exact le_rfl
    · have hstep := (h.moves hm).lines.2
      have hle := ih hge (by omega)
      omega

end Conf

/-- `EXIT` stops a run if it is the last line, whatever the limits; and a run that comes to its
end after an `EXIT` has taken every line behind it. -/
theorem exit_stops (lib : Lib F) (c : ℕ → Conf F) (n : ℕ) (h : Conf.IsRun lib c n) :
    (ExitLast (c 0).world.commandLines → Conf.StopsAtExit c n) ∧
      ((c n).phase = .done → Conf.StopsAtExit c n → ExitLast (c 0).world.commandLines) := by
  constructor
  · intro hlast k hk line hl he m hkm hm
    obtain ⟨d, rfl⟩ := Nat.exists_eq_add_of_lt hkm
    have ho := h.over (h.over_of_exit hk hl he hlast) d (by omega)
    have hidx : k+1+d = k+d+1 := by omega
    rw [hidx] at ho
    exact ⟨ho.not_pumped, ho.not_takes⟩
  · intro hdone hstop j line hj he
    by_contra hne
    have hlt : j < (c 0).world.commandLines.length := (List.getElem?_eq_some_iff.mp hj).1
    have hall := h.linesSpent le_rfl (Or.inr hdone)
    rw [(h.lines le_rfl).1] at hall
    -- both the `EXIT` and the line behind it have been taken
    obtain ⟨k, hk, hkj, hkp⟩ := h.pumped_at (j := j) le_rfl (by omega)
    obtain ⟨m, hm, hmj, hmp⟩ := h.pumped_at (j := j+1) le_rfl (by omega)
    have hkm : k < m := by
      by_contra hle
      have hmono := h.nextCommand_le (not_lt.mp hle) hk.le
      omega
    obtain ⟨l, hl⟩ := Option.isSome_iff_exists.mp hkp
    have hget := (Conf.linePumped_some hl).2
    rw [(h.lines hk.le).1, hkj, hj] at hget
    obtain rfl : line = l := Option.some.inj hget
    have hnone := (hstop k hk line hl he m hkm hm).1
    rw [hnone] at hmp
    cases hmp

/-- A program that ticks every second, and what follows an `EXIT`. -/
def exitRun (lines : List Bytes) : ℕ → Conf ℚ := (regionOf [tickProgram 1] lines).after noLib 30

/-- With `EXIT` as its last line. -/
theorem exit_stops_last : Conf.StopsAtExit (exitRun [lit "WAIT 2", lit "EXIT"]) 26 := by
  refine (exit_stops noLib _ 26 (Conf.isRun_after (start_regionOf _ _) (by decide +kernel))).1 ?_
  have hall : ∀ j < 2, ∀ line ∈ [lit "WAIT 2", lit "EXIT"][j]?, isExit line → j+1 = 2 := by
    decide +kernel
  intro j line hj
  exact hall j (List.getElem?_eq_some_iff.mp hj).1 line hj

/-- With a line behind `EXIT`, which the loop after the main loop takes. -/
theorem exit_goes_on : ∃ c : ℕ → Conf ℚ, Conf.IsRun noLib c 15 ∧ ¬ Conf.StopsAtExit c 15 := by
  refine ⟨exitRun [lit "EXIT", lit "ECHO on"],
    Conf.isRun_after (start_regionOf _ _) (by decide +kernel), fun h => ?_⟩
  have hexit : linePumped (exitRun [lit "EXIT", lit "ECHO on"] 10).phase
      (exitRun [lit "EXIT", lit "ECHO on"] 10).world = some (lit "EXIT") := by decide +kernel
  have hecho : linePumped (exitRun [lit "EXIT", lit "ECHO on"] 12).phase
      (exitRun [lit "EXIT", lit "ECHO on"] 12).world = some (lit "ECHO on") := by decide +kernel
  have hnone := (h 10 (by omega) _ hexit (by decide +kernel) 12 (by omega) (by omega)).1
  rw [hecho] at hnone
  cases hnone

end Slemu
