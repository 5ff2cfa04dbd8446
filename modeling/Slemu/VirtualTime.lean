import Slemu.History

/-! The virtual time shown to scripts, over whole runs. -/

namespace Slemu
open CDouble (le lt zero one add)
variable {F : Type} [CDouble F]

/-! ### What moves the time shown -/

theorem Moves.now {p p' : Phase} {w w' : World F} (h : Moves p w p' w') (hp : p ≠ .top) :
    w'.virtualNow = w.virtualNow := by
  have hclock {u u' : World F} (hc : u'.clock = u.clock) : u'.virtualNow = u.virtualNow :=
    congrArg Prod.fst hc
  have hcore {u u' : World F} (hc : u'.core = u.core) : u'.virtualNow = u.virtualNow :=
    congrArg (fun c => c.2.1.1) hc
  have htold {u u' : World F} (ht : Pumped u u') : u'.virtualNow = u.virtualNow := by
    obtain ⟨-, ht⟩ := ht
    cases ht with
    | grown h => exact congrArg Prod.fst h.clock
    | wait f h => exact congrArg (fun c => c.2.1.1) h
  cases h with
  | load h => exact hclock h.clock
  | init _ h => exact h.elsewhere.now
  | start _ h => exact hcore h
  | head => exact absurd rfl hp
  | limit => exact absurd rfl hp
  | around => rfl
  | quiet => rfl
  | skip => rfl
  | ignore _ _ _ h => exact congrArg (fun c => c.2.1.1) h
  | dispatch _ _ _ h => exact h.elsewhere.now
  | settled => rfl
  | change => rfl
  | exit h => exact h.elsewhere.now
  | entry => rfl
  | command h => exact htold h
  | settleDown => rfl
  | drain h => exact htold h
  | drained => rfl
  | save h => exact hcore h

/-- The head of the loop sets the time to the due time of the timer it fires, or to the offset. -/
theorem Moves.now_head {p' : Phase} {w w' : World F} (h : Moves .top w p' w')
    (hp : p' ≠ .drain) :
    (∃ d i, w.dueTimer = (d, some i) ∧ w'.virtualNow = d) ∨
      (∃ d, w.dueTimer = (d, none)) ∧ w'.virtualNow = w.virtualOffset := by
  cases h with
  | limit => exact absurd rfl hp
  | @head _ u h =>
    have hu : u.dueTimer = w.dueTimer := dueTimer_of_core h
    rcases hd : u.dueTimer with ⟨d, _ | i⟩
    · rw [fireTimer_none hd]
      refine .inr ⟨⟨d, hu ▸ hd⟩, ?_⟩
      exact congrArg (fun c => c.2.1.2.1) h
    · rw [fireTimer_some hd]
      exact .inl ⟨d, i, hu ▸ hd, rfl⟩

/-! ### No timer is due in the past -/

section
variable [CDouble.Ordered F]
open CDouble.Ordered

/-- A timer that is not armed, or due at `now` or later. -/
def Track.OnTime (now : F) (t : Track F) : Prop := lt zero t.interval → le now t.due

/-- Code that runs at `now` leaves no timer due before. -/
theorem Extends.onTime {now : F} {t t' : Script F} (h : Extends now t t')
    (hz : le zero now) (ht : t.track.OnTime now) : t'.track.OnTime now := by
  obtain ⟨ds, -, hp, ht'⟩ := h
  rw [ht']
  clear ht'
  generalize t.track = r at ht
  induction ds generalizing r with
  | nil => exact ht
  | cons d ds ih =>
    refine ih (fun e he => hp e (List.mem_cons_of_mem _ he)) _ ?_
    have hd := hp d List.mem_cons_self
    cases d with
    | push ev due =>
      obtain ⟨rfl, -⟩ := hd
      exact ht
    | pop => exact ht
    | flush why =>
      cases why
      · exact ht
      · intro hlt
        rw [Track.apply, lt_self] at hlt
        cases hlt
      · exact ht
    | setTimer f a =>
      obtain rfl : a = now := hd
      intro hlt
      change lt zero f at hlt
      rw [Track.apply]
      simp only [hlt, if_true]
      exact le_plus hz hlt

/-- The timer found is the earliest of those that are due. -/
theorem foldl_timerRound_least (el : F) (ts : List (Script F × ℕ)) (b : F × Option ℕ)
    (hb : le b.1 b.1) :
    le (ts.foldl (World.timerRound el) b).1 b.1 ∧ ∀ t ∈ ts, t.1.dueBy el →
      le (ts.foldl (World.timerRound el) b).1 t.1.timerDue := by
  induction ts generalizing b with
  | nil => exact ⟨hb, nofun⟩
  | cons t ts ih =>
    rw [List.foldl_cons]
    by_cases hc : t.1.dueBy el && lt t.1.timerDue b.1
    · have hr : World.timerRound el b t = (t.1.timerDue, some t.2) := if_pos hc
      have hlt : le t.1.timerDue b.1 := lt_le (Bool.and_eq_true_iff.mp hc).2
      rw [hr]
      obtain ⟨hle, hts⟩ := ih (t.1.timerDue, some t.2) (num_left hlt)
      refine ⟨trans_le hle hlt, fun u hu hd => ?_⟩
      rcases List.mem_cons.mp hu with rfl | hu
      · exact hle
      · exact hts u hu hd
    · have hr : World.timerRound el b t = b := if_neg hc
      rw [hr]
      obtain ⟨hle, hts⟩ := ih b hb
      refine ⟨hle, fun u hu hd => ?_⟩
      rcases List.mem_cons.mp hu with rfl | hu
      · rw [hd, Bool.true_and, Bool.not_eq_true] at hc
        have hn : le u.1.timerDue u.1.timerDue := num_left (Bool.and_eq_true_iff.mp hd).2
        exact trans_le hle (total_lt hn hb hc)
      · exact hts u hu hd

theorem dueTimer_least {w : World F} {d : F} {i : ℕ} (h : w.dueTimer = (d, some i))
    (hz : le zero w.virtualOffset) {j : ℕ} (hj : j < w.scripts.length)
    (hd : (w.script j).dueBy w.virtualOffset) : le d (w.script j).timerDue := by
  have hb : le (add w.virtualOffset one) (add w.virtualOffset one) :=
    num_right (le_plus hz zero_lt)
  have hl := (foldl_timerRound_least w.virtualOffset w.scripts.zipIdx
    (add w.virtualOffset one, none) hb).2
  have hw : w.script j = w.scripts[j] := by rw [World.script, List.getD_eq_getElem _ _ hj]
  have hmem : (w.scripts[j], j) ∈ w.scripts.zipIdx :=
    List.mem_zipIdx_iff_getElem?.mpr (List.getElem?_eq_getElem hj)
  rw [hw] at hd ⊢
  have hle := hl _ hmem hd
  rwa [← World.dueTimer, h] at hle

/-- Time is not negative, and no armed timer is due in the past. -/
structure OnTime (w : World F) : Prop where
  zero_le : le zero w.virtualNow
  due : ∀ i, (w.script i).track.OnTime w.virtualNow

/-- A timer that is armed but not due yet. -/
theorem le_due_of_not_dueBy {t : Script F} {el : F} (hel : le el el)
    (ht : le t.timerDue t.timerDue) (ha : lt zero t.timerInterval) (hd : t.dueBy el = false) :
    le el t.timerDue := by
  rw [Script.dueBy, ha, Bool.true_and] at hd
  exact total_le ht hel hd

omit [CDouble.Ordered F] in
theorem OnTime.fire {w : World F} {d : F} {i : ℕ} (h : OnTime w)
    (hd : w.dueTimer = (d, some i)) : le w.virtualNow d := by
  obtain ⟨hi, hdue, rfl⟩ := dueTimer_some hd
  exact h.due i (Bool.and_eq_true_iff.mp hdue).1

theorem OnTime.fired {w : World F} {d : F} {i : ℕ} (h : OnTime w)
    (hle : le w.virtualNow w.virtualOffset) (hd : w.dueTimer = (d, some i)) :
    OnTime ({ w with virtualNow := d }.modScript i (Script.fire d)) := by
  have hnow := h.fire hd
  obtain ⟨hi, hdue, hid⟩ := dueTimer_some hd
  have hdel : le d w.virtualOffset := hid ▸ (Bool.and_eq_true_iff.mp hdue).2
  have hj (j : ℕ) : (w.script j).track.OnTime d := by
    intro ha
    have hjn : le w.virtualNow (w.script j).timerDue := h.due j ha
    by_cases hl : j < w.scripts.length
    · cases hb : (w.script j).dueBy w.virtualOffset with
      | true => exact dueTimer_least hd (trans_le h.zero_le hle) hl hb
      | false => exact trans_le hdel (le_due_of_not_dueBy (num_right hle) (num_right hjn) ha hb)
    · rw [script_of_length_le _ _ (not_lt.mp hl)] at ha
      exact absurd ha (by rw [Bool.not_eq_true]; exact lt_self _)
  refine ⟨trans_le h.zero_le hnow, fun j => ?_⟩
  rw [script_modScript]
  split
  · rename_i hji
    obtain ⟨rfl, -⟩ := hji
    intro ha
    have hdj : le d (w.script j).timerDue := hj j ha
    exact trans_le hdj (le_plus (trans_le (trans_le h.zero_le hnow) hdj) ha)
  · exact hj j

theorem OnTime.quiet {w : World F} {d : F} (h : OnTime w)
    (hle : le w.virtualNow w.virtualOffset) (hd : w.dueTimer = (d, none)) :
    OnTime { w with virtualNow := w.virtualOffset } := by
  have hz := trans_le h.zero_le hle
  refine ⟨hz, fun j ha => ?_⟩
  have hjn : le w.virtualNow (w.script j).timerDue := h.due j ha
  change le w.virtualOffset (w.script j).timerDue
  by_cases hl : j < w.scripts.length
  · cases hb : (w.script j).dueBy w.virtualOffset with
    | true =>
      have hone : le w.virtualOffset (add w.virtualOffset one) := le_plus hz zero_lt
      exact trans_le hone (total_lt (num_right hjn) (num_right hone) (dueTimer_none hd j hl hb))
    | false => exact le_due_of_not_dueBy (num_right hle) (num_right hjn) ha hb
  · change lt zero (w.script j).timerInterval at ha
    rw [script_of_length_le _ _ (not_lt.mp hl)] at ha
    exact absurd ha (by rw [Bool.not_eq_true]; exact lt_self _)

/-- The condition at the head of the loop, unless the loop is left there. -/
def HeadOnTime (p : Phase) (w : World F) (p' : Phase) : Prop :=
  p = .top → p' ≠ .drain → le w.virtualNow w.virtualOffset

omit [CDouble.Ordered F] in
theorem OnTime.of_core {w w' : World F} (h : OnTime w) (hc : w'.core = w.core) : OnTime w' := by
  have hn : w'.virtualNow = w.virtualNow := congrArg (fun c => c.2.1.1) hc
  refine ⟨hn ▸ h.zero_le, fun i => ?_⟩
  rw [script_of_core hc, hn]
  exact h.due i

theorem OnTime.step {p p' : Phase} {w w' : World F} (ho : OnTime w) (h : Moves p w p' w')
    (hh : HeadOnTime p w p') : OnTime w' ∧ le w.virtualNow w'.virtualNow := by
  by_cases hp : p = .top
  · subst hp
    cases h with
    | limit h =>
      have hn : w'.virtualNow = w.virtualNow := congrArg (fun c => c.2.1.1) h
      exact ⟨ho.of_core h, by rw [hn]; exact num_right ho.zero_le⟩
    | @head _ u h =>
      have hle := hh rfl nofun
      have hn : u.virtualNow = w.virtualNow := congrArg (fun c => c.2.1.1) h
      have hf : u.virtualOffset = w.virtualOffset := congrArg (fun c => c.2.1.2.1) h
      have hu := ho.of_core h
      rw [← hn, ← hf] at hle
      rw [← hn]
      rcases hd : u.dueTimer with ⟨d, _ | i⟩
      · rw [fireTimer_none hd]
        exact ⟨hu.quiet hle hd, hle⟩
      · rw [fireTimer_some hd]
        exact ⟨hu.fired hle hd, hu.fire hd⟩
  · have hn := h.now hp
    rw [hn]
    refine ⟨⟨hn ▸ ho.zero_le, fun i => ?_⟩, num_right ho.zero_le⟩
    rw [hn]
    cases h.happens i with
    | taken ev _ he => exact he.onTime ho.zero_le (ho.due i)
    | fired d h => exact absurd h hp
    | plain _ he => exact he.onTime ho.zero_le (ho.due i)

namespace Conf
variable {lib : Lib F} {c : ℕ → Conf F} {n : ℕ}

theorem Start.onTime {c : Conf F} (h : Start c) : OnTime c.world := by
  have hz : le (zero : F) zero := num_left (lt_le zero_lt)
  refine ⟨by rw [h.virtualNow]; exact hz, fun i => ?_⟩
  have hi : (c.world.script i).timerInterval = zero := by
    rcases h.script i with hu | hd
    · exact hu.timerInterval
    · exact congrArg Script.timerInterval hd
  intro ha
  change lt zero (c.world.script i).timerInterval at ha
  rw [hi, lt_self] at ha
  cases ha

theorem IsRun.onTime (h : IsRun lib c n)
    (hh : ∀ k < n, HeadOnTime (c k).phase (c k).world (c (k+1)).phase) (k : ℕ) (hk : k ≤ n) :
    OnTime (c k).world := by
  induction k with
  | zero => exact h.start.onTime
  | succ k ih => exact ((ih (Nat.le_of_succ_le hk)).step (h.moves hk) (hh k hk)).1

/-- `virtual_now` never decreases. -/
def TimeForward (c : ℕ → Conf F) (n : ℕ) : Prop :=
  ∀ k < n, le (c k).world.virtualNow (c (k+1)).world.virtualNow

end Conf

/-- `virtual_now` runs backwards in a run exactly if it is past `virtual_offset` at a head of the
loop that goes on. -/
theorem time_forward_iff (lib : Lib F) (c : ℕ → Conf F) (n : ℕ) (h : Conf.IsRun lib c n) :
    Conf.TimeForward c n ↔
      ∀ k < n, (c k).phase = .top → (c (k+1)).phase ≠ .drain →
        le (c k).world.virtualNow (c k).world.virtualOffset := by
  constructor
  · intro hm k hk hp hp'
    have hstep := h.moves hk
    rw [hp] at hstep
    rcases hstep.now_head hp' with ⟨d, i, hd, hn⟩ | ⟨-, hn⟩
    · obtain ⟨-, hdue, rfl⟩ := dueTimer_some hd
      exact trans_le (hn ▸ hm k hk) (Bool.and_eq_true_iff.mp hdue).2
    · exact hn ▸ hm k hk
  · intro hh k hk
    exact ((h.onTime hh k hk.le).step (h.moves hk) (hh k hk)).2

end

/-- A script that sleeps two seconds when it starts. -/
theorem time_forward_sleeping : Conf.TimeForward
    ((regionOf [handlersProgram [(1, [callInts 5 [2]])]] [lit "WAIT 1"]).after noLib 30) 13 :=
  (time_forward_iff noLib _ 13 (Conf.isRun_after (start_regionOf _ _) (by decide +kernel))).mpr
    (by decide +kernel)

/-- `WAIT` with a negative number takes the time back from 5 to 2. -/
theorem negativeWait_backwards : ∃ c : ℕ → Conf ℚ, Conf.IsRun noLib c 10 ∧
    (c 0).world.commandLines = commandsLoad (lit "WAIT 5\nWAIT -3\n") ∧
    ¬ Conf.TimeForward c 10 := by
  refine ⟨(regionOf [] (commandsLoad (lit "WAIT 5\nWAIT -3\n"))).after noLib 30,
    Conf.isRun_after (start_regionOf _ _) (by decide +kernel), rfl, fun h => ?_⟩
  exact absurd (h 8 (by omega)) (by decide +kernel)

end Slemu
