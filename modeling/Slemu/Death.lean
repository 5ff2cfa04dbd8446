import Slemu.StateChange

/-! What `llDie` leaves of a script: it drops the queue and the timer, and nothing else. -/

namespace Slemu
variable {F : Type} [CDouble F]

/-- Nothing is left to do: no event in the queue that the state handles, no change of state
pending, no timer armed that the state handles. -/
structure AtRest (t : Script F) : Prop where
  queue : ∀ ev ∈ t.evq, t.handler ev.name = none
  pending : t.pendingState = none
  timer : CDouble.lt CDouble.zero t.timerInterval = false ∨ t.handler (lit "timer") = none

namespace Conf

/-- The next step runs a handler of script `i`. -/
def RunsHandler (c : Conf F) (i : ℕ) : Prop :=
  (∃ ev, c.Dispatches i ev) ∨ ∃ old new, c.phase = .exit i old new ∧
    (old.bind fun st => (c.script i).prog.handler st (lit "state_exit")) ≠ none

/-- In step `k` a handler of script `i` calls `llDie`. -/
def DiesAt (c : ℕ → Conf F) (k i : ℕ) : Prop :=
  ((∃ b, (c k).phase = .visit i b) ∨ ∃ old new, (c k).phase = .exit i old new) ∧
    .flush .die ∈ newDeeds (c k).world (c (k+1)).world i

/-- No handler of a script runs once a handler of it that called `llDie` has finished. -/
def DieFinal (c : ℕ → Conf F) (n : ℕ) : Prop :=
  ∀ k < n, ∀ i, DiesAt c k i → ∀ m, k < m → m < n → ¬ (c m).RunsHandler i

end Conf

/-! ### A script at rest stays at rest -/

theorem Moves.settle_of_exit {p : Phase} {w w' : World F} {i new : ℕ} {old : Option ℕ}
    (h : Moves p w (.exit i old new) w') : p = .settle i := by
  cases h
  rfl

omit [CDouble F] in
theorem handler_of_grown {t t' : Script F} (h : Grown t t') : t'.handler = t.handler :=
  h.lengthened.handler

/-- A script that got events which its state does not handle. -/
theorem AtRest.lengthened {t t' : Script F} (h : AtRest t) (hl : Lengthened t t')
    (hq : ∀ ev ∈ t'.evq, ev ∈ t.evq ∨ t.handler ev.name = none) : AtRest t' := by
  refine ⟨fun ev hev => ?_, hl.pendingState.trans h.pending, ?_⟩
  · rw [hl.handler]
    exact (hq ev hev).elim (h.queue ev) id
  · rw [hl.timerInterval, hl.handler]
    exact h.timer

theorem AtRest.sent {w w' : World F} {i : ℕ} (h : AtRest (w.script i))
    (hg : Grown (w.script i) (w'.script i))
    (hs : ∀ ev, Sends w w' i ev → (w.script i).handler ev.name = none) :
    AtRest (w'.script i) := by
  obtain ⟨evs, -, hq, hh⟩ := hg.queue
  refine h.lengthened hg.lengthened fun ev hev => ?_
  rw [hq] at hev
  refine (List.mem_append.mp hev).imp_right fun hm => hs ev ?_
  rw [Sends, newDeeds_eq hh]
  exact List.mem_map_of_mem hm

/-- Script `i` is at rest, and its turn is not one that runs code without an event. -/
structure Dead (i : ℕ) (p : Phase) (w : World F) : Prop where
  started : p.Started
  exit : ∀ o s, p ≠ .exit i o s
  rest : AtRest (w.script i)

theorem Dead.other {p p' : Phase} {w w' : World F} {i : ℕ} (h : Moves p w p' w')
    (hd : Dead i p w) (hi : p.turn ≠ some i)
    (hs : ∀ ev, Sends w w' i ev → (w.script i).handler ev.name = none) : Dead i p' w' := by
  have hl := h.other hi
  obtain ⟨evs, hq, hh⟩ := hl.queue
  obtain ⟨ds, hh', hds⟩ := (h.happens i).deeds
  obtain rfl := List.append_cancel_left (hh.symm.trans hh')
  refine ⟨h.started hd.started, (h.not_exit hi).1, hd.rest.lengthened hl fun ev hev => ?_⟩
  rw [hq] at hev
  refine (List.mem_append.mp hev).imp_right fun hm => ?_
  obtain ⟨⟨e, due⟩, he, rfl⟩ := List.mem_map.mp hm
  cases due with
  | none =>
    refine hs e ?_
    rw [Sends, newDeeds_eq hh]
    exact List.mem_map_of_mem he
  | some d =>
    rcases hds with hds | ⟨d', hone, -, hdue⟩
    · rcases hds _ (List.mem_map_of_mem he) with hp | hp
      · cases hp.1
      · cases hp
    · -- the timer was fired: it is armed, and not handled
      have hmem := List.mem_map_of_mem (f := fun e : Event F × Option F => Deed.push e.1 e.2) he
      rw [hone, List.mem_singleton] at hmem
      cases hmem
      have harm := (Bool.and_eq_true_iff.mp (dueTimer_some hdue).2.1).1
      exact hd.rest.timer.resolve_left (by rw [harm]; nofun)

theorem Dead.turn {p p' : Phase} {w w' : World F} {i : ℕ} (h : Moves p w p' w')
    (hd : Dead i p w) (hi : p.turn = some i)
    (hs : ∀ ev, Sends w w' i ev → (w.script i).handler ev.name = none) : Dead i p' w' := by
  have hst := h.started hd.started
  have hstay {q : Phase} (hq : q.Started) (he : ∀ o s, q ≠ .exit i o s) : Dead i q w :=
    ⟨hq, he, hd.rest⟩
  cases h <;> cases hi
  case init => exact absurd rfl (hd.started.2 i)
  case start => exact absurd rfl (hd.started.2 i)
  case around => exact hstay hst (by simp)
  case quiet => exact hstay hst (by simp)
  case skip => exact hstay hst (by simp)
  case ignore b ev evs hl hq hh hc =>
    refine ⟨hst, (by simp), ?_⟩
    rw [script_of_core hc, World.dequeue, World.modScript_script _ _ _ hl]
    exact ⟨fun e he => hd.rest.queue e (List.mem_of_mem_tail he), hd.rest.pending, hd.rest.timer⟩
  case dispatch b ev evs hl hq hh hacts =>
    exact absurd (hd.rest.queue ev (by rw [hq]; exact List.mem_cons_self)) hh
  case settled => exact hstay hst (by simp)
  case change new hp => exact absurd (hd.rest.pending.symm.trans hp) (by simp)
  case exit => exact absurd rfl (hd.exit _ _)
  case entry =>
    have hg := (AllGrown.pushEvent w i (by decide : lit "state_entry" ≠ lit "timer") []).script i
    exact ⟨hst, (by simp), hd.rest.sent hg hs⟩

theorem Dead.step {p p' : Phase} {w w' : World F} {i : ℕ} (h : Moves p w p' w')
    (hd : Dead i p w) (hs : ∀ ev, Sends w w' i ev → (w.script i).handler ev.name = none) :
    Dead i p' w' := by
  by_cases hi : p.turn = some i
  · exact hd.turn h hi hs
  · exact hd.other h hi hs

namespace Conf

theorem runsHandler_of_dead {c : Conf F} {i : ℕ} (h : Dead i c.phase c.world) :
    ¬ c.RunsHandler i := by
  rintro (⟨ev, ⟨-, -, hq⟩, hh⟩ | ⟨old, new, hp, -⟩)
  · exact hh (h.rest.queue ev (List.mem_of_mem_head? hq))
  · exact h.exit old new hp

/-- The step after which a script is at rest. -/
theorem DiesAt.dead {c : ℕ → Conf F} {k i : ℕ}
    (hm : Moves (c k).phase (c k).world (c (k+1)).phase (c (k+1)).world) (h : DiesAt c k i)
    (hr : AtRest ((c (k+1)).script i)) : Dead i (c (k+1)).phase (c (k+1)).world := by
  have hs : (c k).phase.Started := by
    rcases h.1 with ⟨b, hb⟩ | ⟨old, new, hp⟩
    · rw [hb]
      exact ⟨nofun, nofun⟩
    · rw [hp]
      exact ⟨nofun, nofun⟩
  refine ⟨hm.started hs, fun o s he => ?_, hr⟩
  rw [he] at hm
  have hp := hm.settle_of_exit
  rcases h.1 with ⟨b, hb⟩ | ⟨old, new, hb⟩ <;> rw [hp] at hb <;> cases hb

end Conf

section
omit [CDouble F]

def Deed.isDie : Deed F → Bool
  | .flush .die => true
  | _ => false

theorem die_mem_iff (ds : List (Deed F)) : .flush .die ∈ ds ↔ ds.any Deed.isDie := by
  rw [List.any_eq_true]
  refine ⟨fun h => ⟨_, h, rfl⟩, ?_⟩
  rintro ⟨d, hd, hdie⟩
  cases d with
  | flush why =>
    cases why with
    | die => exact hd
    | stateChange => cases hdie
    | reset => cases hdie
  | push ev due => cases hdie
  | pop => cases hdie
  | setTimer f a => cases hdie

end

theorem newDeeds_lt_length {w w' : World F} {i : ℕ} (h : newDeeds w w' i ≠ []) :
    i < w'.scripts.length := by
  by_contra hi
  rw [newDeeds, script_of_length_le w' i (not_lt.mp hi)] at h
  exact h List.drop_nil

/-- Arms a timer and dies, and would answer the timer and messages. -/
def dyingProgram (more : List Stmt) : Program :=
  handlersProgram [(1, callInts 4 [1] :: callInts 6 [] :: more), (2, []), (3, [])]

def dyingRun (more : List Stmt) : ℕ → Conf ℚ :=
  (regionOf [dyingProgram more] [lit "WAIT 5"]).after noLib 30

end Slemu
