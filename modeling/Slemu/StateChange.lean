import Slemu.History

/-! The order of `state_exit`, `state_entry` and the other handlers when a script goes from one
state to another. -/

namespace Slemu
variable {F : Type} [CDouble F]

/-! ### Runs of `region_run` -/

namespace Conf

/-- The next step runs the handler of script `i` for the event `ev`. -/
def Dispatches (c : Conf F) (i : ℕ) (ev : Event F) : Prop :=
  Takes c.phase c.world i ev ∧ (c.script i).handler ev.name ≠ none

/-- A dispatch, by the name of the event. -/
theorem dispatches_of_name (c : Conf F) (i : ℕ) (name : Bytes) (hp : ∃ b, c.phase = .visit i b)
    (hi : i < c.world.scripts.length) (hq : (c.script i).evq.head?.map Event.name = some name)
    (hh : ((c.script i).handler name).isSome) :
    ∃ ev, c.Dispatches i ev ∧ ev.name = name ∧ (c.script i).evq.head? = some ev := by
  obtain ⟨ev, he, rfl⟩ := Option.map_eq_some_iff.mp hq
  exact ⟨ev, ⟨⟨hp, hi, he⟩, Option.isSome_iff_ne_none.mp hh⟩, rfl, he⟩

/-- The next step takes script `i` from state `old` to state `new`. -/
def Changes (c : Conf F) (i : ℕ) (old : Option ℕ) (new : ℕ) : Prop :=
  c.phase = .settle i ∧ (c.script i).curState = old ∧ (c.script i).pendingState = some new

/-- The next step takes a `state_entry` off the queue of script `i`. -/
def Enters (c : Conf F) (i : ℕ) : Prop :=
  ∃ ev, Takes c.phase c.world i ev ∧ ev.name = lit "state_entry"

/-- The change of state that step `k` of a run makes comes right after the handler that asked for
it; `state_exit` is next and not run again, and no other handler of the script is dispatched
before `state_entry` of the new state. -/
structure Ordered (c : ℕ → Conf F) (n k i : ℕ) (old : Option ℕ) (new : ℕ) : Prop where
  requested : ∃ j ev, k = j+1 ∧ (c j).Dispatches i ev ∧ ((c j).script i).pendingState = none
  exits : (c (k+1)).phase = .exit i old new
  once : ∀ m, k < m → m ≤ n → (∀ j, k < j → j < m → ¬ (c j).Enters i) →
    ∀ o s, (c m).phase = .exit i o s → m = k+1
  entry : ∀ m, k < m → m ≤ n → (∀ j, k < j → j < m → ¬ (c j).Enters i) →
    ∀ ev, (c m).Dispatches i ev →
      ev.name = lit "state_entry" ∧ ((c m).script i).curState = some new

/-- Every change of state in a run is ordered. -/
def OrdersChanges (c : ℕ → Conf F) (n : ℕ) : Prop :=
  ∀ k < n, ∀ i old new, (c k).Changes i old new → Ordered c n k i old new

/-- When `state_entry` is about to be queued, the script is in its new state, has asked for no
further one, and nothing is in its queue that this state handles. The initialisers of a script
ask for no state. -/
structure Clean (c : Conf F) : Prop where
  init : ∀ i, c.phase = .init (i+1) → (c.script i).pendingState = none
  curState : ∀ i new, c.phase = .entry i new → (c.script i).curState = some new
  pendingState : ∀ i new, c.phase = .entry i new → (c.script i).pendingState = none
  queue : ∀ i new, c.phase = .entry i new → ∀ ev ∈ (c.script i).evq,
    ev.name = lit "state_entry" ∨ (c.script i).handler ev.name = none

end Conf

/-! ### Pending changes -/

/-- Where a change of state of the script whose turn it was can be pending. -/
theorem Moves.pending_turn {p p' : Phase} {w w' : World F} {i : ℕ} (h : Moves p w p' w')
    (hi : p.turn = some i) (hp : (w.script i).pendingState ≠ none → p = .settle i)
    (hp' : (w'.script i).pendingState ≠ none) :
    p' = .settle i ∨ p' = .init (i+1) ∨ ∃ new, p' = .entry i new := by
  cases h <;> cases hi
  case init => exact .inr (.inl rfl)
  case start => exact absurd (hp fun h => hp' (by rwa [script_of_core ‹_›])) (by simp)
  case around => exact absurd (hp hp') (by simp)
  case quiet => exact absurd (hp hp') (by simp)
  case skip => exact absurd (hp hp') (by simp)
  case ignore => exact .inl rfl
  case dispatch => exact .inl rfl
  case settled hs => exact absurd hs hp'
  case change new hs =>
    rw [World.switchState, script_modScript] at hp'
    split at hp'
    · exact absurd rfl hp'
    · rename_i hi
      have hd := script_of_length_le w i (not_lt.mp fun h => hi ⟨rfl, h⟩)
      exact absurd (congrArg Script.pendingState hd) hp'
  case exit => exact .inr (.inr ⟨_, rfl⟩)
  case entry =>
    have hg := (AllGrown.pushEvent w i (by decide : lit "state_entry" ≠ lit "timer") []).script i
    exact absurd (hp fun h => hp' (hg.pendingState.trans h)) (by simp)

namespace Conf

/-- A change is pending only when it is about to be made. -/
def Settled (c : Conf F) : Prop :=
  ∀ i, (c.script i).pendingState ≠ none → c.phase = .settle i

/-- No change of state is pending after the initialisers of a script, nor after a `state_exit`. -/
structure AsksNothing (c : Conf F) : Prop where
  init : ∀ i, c.phase = .init (i+1) → (c.script i).pendingState = none
  exit : ∀ i new, c.phase = .entry i new → (c.script i).pendingState = none

theorem Clean.asksNothing {c : Conf F} (h : c.Clean) : c.AsksNothing := ⟨h.init, h.pendingState⟩

theorem Settled.step {c c' : Conf F} (h : Moves c.phase c.world c'.phase c'.world)
    (hs : c.Settled) (hc : c'.AsksNothing) : c'.Settled := by
  intro i hne
  by_cases hi : c.phase.turn = some i
  · rcases h.pending_turn hi (hs i) hne with hp | hp | ⟨new, hp⟩
    · exact hp
    · exact absurd (hc.init i hp) hne
    · exact absurd (hc.exit i new hp) hne
  · have hl := h.other hi
    have hp := hs i fun h => hne (hl.pendingState.trans h)
    rw [hp] at hi
    exact absurd rfl hi

theorem IsRun.settled {lib : Lib F} {c : ℕ → Conf F} {n : ℕ} (h : IsRun lib c n)
    (hc : ∀ k ≤ n, (c k).AsksNothing) : ∀ k ≤ n, (c k).Settled := by
  intro k
  induction k with
  | zero =>
    intro hk i hne
    by_cases hi : i < (c 0).world.scripts.length
    · have hmem : (c 0).script i ∈ (c 0).world.scripts := by
        simp only [Conf.script, World.script, List.getD_eq_getElem _ _ hi, List.getElem_mem]
      exact absurd (h.start.scripts _ hmem).pendingState hne
    · have hd := script_of_length_le _ i (not_lt.mp hi)
      exact absurd (congrArg Script.pendingState hd) hne
  | succ k ih =>
    intro hk
    exact (ih (Nat.le_of_succ_le hk)).step (h.moves hk) (hc (k+1) hk)

end Conf

/-! ### From the change to `state_entry` -/

/-- Past the initialisation of the scripts. -/
def Phase.Started (p : Phase) : Prop := p ≠ .load ∧ ∀ j, p ≠ .init j

theorem Moves.started {p p' : Phase} {w w' : World F} (h : Moves p w p' w') (hs : p.Started) :
    p'.Started := by
  unfold Phase.Started at *
  cases h <;> simp_all

/-- Another script's turn does not end in the change of script `i`. -/
theorem Moves.not_exit {p p' : Phase} {w w' : World F} {i : ℕ} (h : Moves p w p' w')
    (hi : p.turn ≠ some i) : (∀ o s, p' ≠ .exit i o s) ∧ ∀ s, p' ≠ .entry i s := by
  cases h <;> simp_all [Phase.turn]

/-- Nothing in the queue of a script before the next `state_entry` has a handler. -/
def QueueClean (t : Script F) : Prop :=
  ∃ us evs, t.evq = us ++ ⟨lit "state_entry", []⟩ :: evs ∧
    ∀ ev ∈ us, ev.name = lit "state_entry" ∨ t.handler ev.name = none

omit [CDouble F] in
theorem QueueClean.lengthened {t t' : Script F} (h : QueueClean t) (hl : Lengthened t t') :
    QueueClean t' := by
  obtain ⟨us, evs, hq, hu⟩ := h
  obtain ⟨evs', hq', -⟩ := hl.queue
  refine ⟨us, evs ++ evs'.map Prod.fst, ?_, fun ev hev => ?_⟩
  · rw [hq', hq, List.append_assoc, List.cons_append]
  · rw [hl.handler]
    exact hu ev hev

omit [CDouble F] in
/-- The first event is `state_entry`, or it has no handler and comes off. -/
theorem QueueClean.pop {t : Script F} {ev : Event F} {evs : List (Event F)} (h : QueueClean t)
    (hq : t.evq = ev :: evs) :
    ev.name = lit "state_entry" ∨ t.handler ev.name = none ∧ QueueClean t.pop := by
  obtain ⟨us, rest, hu, hc⟩ := h
  cases us with
  | nil =>
    rw [hq, List.nil_append, List.cons.injEq] at hu
    exact .inl (by rw [hu.1])
  | cons u us =>
    rw [hq, List.cons_append, List.cons.injEq] at hu
    obtain ⟨rfl, hevs⟩ := hu
    refine (hc ev List.mem_cons_self).imp_right fun hh => ⟨hh, us, rest, ?_, fun v hv => ?_⟩
    · simp only [Script.pop, hq, List.tail_cons, hevs]
    · exact hc v (List.mem_cons_of_mem _ hv)

/-- The script `i` is in state `new` and waits for its `state_entry`. -/
structure Awaits (i new : ℕ) (p : Phase) (w : World F) : Prop where
  started : p.Started
  exit : ∀ o s, p ≠ .exit i o s
  entry : ∀ s, p ≠ .entry i s
  curState : (w.script i).curState = some new
  pendingState : (w.script i).pendingState = none
  queue : QueueClean (w.script i)

theorem Awaits.turn {p p' : Phase} {w w' : World F} {i new : ℕ} (h : Moves p w p' w')
    (hi : p.turn = some i) (ha : Awaits i new p w)
    (hn : ∀ ev, Takes p w i ev → ev.name ≠ lit "state_entry") : Awaits i new p' w' := by
  have hs := h.started ha.started
  have hstay {q : Phase} (hq : q.Started) (he : ∀ o s, q ≠ .exit i o s)
      (hy : ∀ s, q ≠ .entry i s) : Awaits i new q w :=
    ⟨hq, he, hy, ha.curState, ha.pendingState, ha.queue⟩
  cases h <;> cases hi
  case init => exact absurd rfl (ha.started.2 i)
  case start => exact absurd rfl (ha.started.2 i)
  case around => exact hstay hs (by simp) (by simp)
  case quiet => exact hstay hs (by simp) (by simp)
  case skip => exact hstay hs (by simp) (by simp)
  case ignore b ev evs hl hq hh hc =>
    have ht : Takes (.visit i b) w i ev := ⟨⟨b, rfl⟩, hl, by rw [hq, List.head?_cons]⟩
    have hp := (ha.queue.pop hq).resolve_left (hn ev ht)
    have hw : w'.script i = (w.script i).pop := by
      rw [script_of_core hc, World.dequeue, World.modScript_script _ _ _ hl]
    refine ⟨hs, (by simp), (by simp), ?_, ?_, ?_⟩ <;> rw [hw]
    · exact ha.curState
    · exact ha.pendingState
    · exact hp.2
  case dispatch b ev evs hl hq hh hacts =>
    have ht : Takes (.visit i b) w i ev := ⟨⟨b, rfl⟩, hl, by rw [hq, List.head?_cons]⟩
    exact absurd ((ha.queue.pop hq).resolve_left (hn ev ht)).1 hh
  case settled => exact hstay hs (by simp) (by simp)
  case change hc => exact absurd (ha.pendingState.symm.trans hc) (by simp)
  case exit => exact absurd rfl (ha.exit _ _)
  case entry => exact absurd rfl (ha.entry _)

theorem Awaits.step {p p' : Phase} {w w' : World F} {i new : ℕ} (h : Moves p w p' w')
    (ha : Awaits i new p w) (hn : ∀ ev, Takes p w i ev → ev.name ≠ lit "state_entry") :
    Awaits i new p' w' := by
  by_cases hi : p.turn = some i
  · exact ha.turn h hi hn
  · have hl := h.other hi
    exact ⟨h.started ha.started, (h.not_exit hi).1, (h.not_exit hi).2,
      hl.curState.trans ha.curState, hl.pendingState.trans ha.pendingState,
      ha.queue.lengthened hl⟩

/-- Once `state_entry` is queued behind nothing that is handled, the script waits for it. -/
theorem Conf.Clean.awaits {c c' : Conf F} {i new : ℕ} (h : c.Clean)
    (hm : Moves c.phase c.world c'.phase c'.world) (hp : c.phase = .entry i new) :
    Awaits i new c'.phase c'.world := by
  obtain ⟨phase, m⟩ := c
  obtain ⟨phase', m'⟩ := c'
  obtain rfl : phase = .entry i new := hp
  have hc : (m.world.script i).curState = some new := h.curState i new rfl
  have hi : i < m.world.scripts.length := by
    by_contra hi
    rw [script_of_length_le _ _ (not_lt.mp hi)] at hc
    cases hc
  dsimp only [Conf.world] at hm ⊢
  obtain ⟨rfl, hw⟩ : phase' = .visit (i+1) true ∧
      m'.world = m.world.pushEvent i (lit "state_entry") [] := by
    generalize m'.world = w' at hm ⊢
    cases hm
    exact ⟨rfl, rfl⟩
  have hs : m'.world.script i = (m.world.script i).push ⟨lit "state_entry", []⟩ none := by
    rw [hw, World.pushEvent, World.pushDue, World.modScript_script _ _ _ hi]
  refine ⟨⟨(by simp), (by simp)⟩, (by simp), (by simp), ?_, ?_, ?_⟩ <;> rw [hs]
  · exact hc
  · exact h.pendingState i new rfl
  · exact ⟨(m.world.script i).evq, [], rfl, h.queue i new rfl⟩

namespace Conf

section
variable {lib : Lib F} {c : ℕ → Conf F} {n k i new : ℕ} {old : Option ℕ}

/-- The phases that follow a change of state. -/
theorem Changes.phases (hr : IsRun lib c n) (h : (c k).Changes i old new) :
    (k < n → (c (k+1)).phase = .exit i old new) ∧ (k+1 < n → (c (k+2)).phase = .entry i new) := by
  have h1 (hk : k < n) : (c (k+1)).phase = .exit i old new := by
    have hm := hr.moves hk
    obtain ⟨hp, rfl, hs⟩ := h
    rw [hp] at hm
    generalize hq : (c (k+1)).phase = q at hm ⊢
    generalize hw : (c (k+1)).world = w at hm
    cases hm with
    | settled hn => exact absurd (hn.symm.trans hs) nofun
    | change hn =>
      rw [Conf.script, hn] at hs
      cases hs
      rfl
  refine ⟨h1, fun hk => ?_⟩
  have hm := hr.moves hk
  rw [h1 (Nat.lt_of_succ_lt hk)] at hm
  generalize hq : (c (k+2)).phase = q at hm ⊢
  cases hm
  rfl

/-- From the moment `state_entry` is queued until it comes off, the script waits for it. -/
theorem Changes.awaits (hr : IsRun lib c n) (hc : ∀ k ≤ n, (c k).Clean)
    (h : (c k).Changes i old new) (m : ℕ) (hm : k+3+m ≤ n)
    (hn : ∀ j, k < j → j < k+3+m → ¬ (c j).Enters i) :
    Awaits i new (c (k+3+m)).phase (c (k+3+m)).world := by
  induction m with
  | zero =>
    have hk : k+2 < n := hm
    exact (hc (k+2) hk.le).awaits (hr.moves hk) ((h.phases hr).2 (by omega))
  | succ m ih =>
    have hlt : k+3+m < n := by omega
    have ha := ih hlt.le fun j hj hjm => hn j hj (by omega)
    refine ha.step (hr.moves hlt) fun ev hev hname => ?_
    exact hn (k+3+m) (by omega) (by omega) ⟨ev, hev, hname⟩

/-- What the script does while its `state_entry` has not come off the queue. -/
theorem Changes.window (hr : IsRun lib c n) (hc : ∀ k ≤ n, (c k).Clean)
    (h : (c k).Changes i old new) (m : ℕ) (hk : k < m) (hm : m ≤ n)
    (hn : ∀ j, k < j → j < m → ¬ (c j).Enters i) :
    m = k+1 ∧ (c m).phase = .exit i old new ∨ m = k+2 ∧ (c m).phase = .entry i new ∨
      Awaits i new (c m).phase (c m).world := by
  have hp := h.phases hr
  rcases Nat.lt_or_ge m (k+3) with hlt | hge
  · rcases (by omega : m = k+1 ∨ m = k+2) with rfl | rfl
    · exact .inl ⟨rfl, hp.1 hm⟩
    · exact .inr (.inl ⟨rfl, hp.2 hm⟩)
  · obtain ⟨d, rfl⟩ := Nat.exists_eq_add_of_le hge
    exact .inr (.inr (h.awaits hr hc d hm hn))

/-- A pending change of state comes from the handler that ran last. -/
theorem Changes.requested (hr : IsRun lib c n) (hc : ∀ k ≤ n, (c k).Clean) (hk : k < n)
    (h : (c k).Changes i old new) :
    ∃ j ev, k = j+1 ∧ (c j).Dispatches i ev ∧ ((c j).script i).pendingState = none := by
  obtain ⟨hp, -, hs⟩ := h
  cases k with
  | zero =>
    rw [hr.start.phase] at hp
    cases hp
  | succ j =>
    have hm := hr.moves (Nat.lt_of_succ_lt hk)
    have hset := hr.settled (fun k hk => (hc k hk).asksNothing) j (by omega)
    have hnone (hph : (c j).phase ≠ .settle i) : ((c j).script i).pendingState = none := by
      by_contra hne
      exact hph (hset i hne)
    rw [hp] at hm
    rw [Conf.script] at hs
    generalize hq : (c j).phase = q at hm
    generalize hw : (c (j+1)).world = w' at hm hs
    cases hm with
    | ignore hi hevq hh hcore =>
      rw [script_of_core hcore, World.dequeue, World.modScript_script _ _ _ hi] at hs
      have hz := hnone (by rw [hq]; simp)
      exact absurd (hz.symm.trans hs) (by simp)
    | @dispatch _ _ _ b ev evs hi hevq hh hacts =>
      have ht : Takes (c j).phase (c j).world i ev :=
        ⟨⟨b, hq⟩, hi, by rw [hevq, List.head?_cons]⟩
      exact ⟨j, ev, rfl, ⟨ht, hh⟩, hnone (by rw [hq]; simp)⟩

end

/-- `Clean` as a computation. -/
def isClean (c : Conf F) : Bool :=
  match c.phase with
  | .init (i+1) => (c.script i).pendingState.isNone
  | .entry i new => (c.script i).curState = some new && (c.script i).pendingState.isNone &&
      (c.script i).evq.all fun ev =>
        ev.name = lit "state_entry" || ((c.script i).handler ev.name).isNone
  | _ => true

theorem clean_of_isClean {c : Conf F} (h : c.isClean) : c.Clean := by
  unfold isClean at h
  refine ⟨fun i hp => ?_, fun i new hp => ?_, fun i new hp => ?_, fun i new hp => ?_⟩ <;>
    simp only [hp, Bool.and_eq_true, decide_eq_true_eq, Option.isNone_iff_eq_none,
      List.all_eq_true, Bool.or_eq_true] at h
  · exact h
  · exact h.1.1
  · exact h.1.2
  · exact h.2

end Conf

/-! ### A `state_exit` that sends a message -/

/-- Goes over to state `busy` at once, with `farewell` in `state_exit`. -/
def busyProgram (farewell : List Stmt) : Program :=
  { strings := [lit "default", lit "state_entry", lit "busy", lit "state_exit",
      lit "llMessageLinked", [], lit "link_message"],
    globals := [], funcs := [],
    states := [
      ⟨0, 1, 1, [⟨1, 2, [], .block 2 [.stateChg 3 2]⟩, ⟨3, 4, [], .block 4 farewell⟩]⟩,
      ⟨2, 5, 0, [⟨1, 6, [], .block 6 []⟩, ⟨6, 7, [], .block 7 []⟩]⟩],
    flags := 0 }

/-- `llMessageLinked(LINK_THIS, 0, "", "")` -/
def messageSelf : Stmt :=
  .expr 4 (.call SV.void 0 4 [.intLit SV.integer 0 (-4), .intLit SV.integer 0 0,
    .stringLit SV.string 0 5, .stringLit SV.string 0 5])

/-- A run of a program that sends itself a message in `state_exit`. -/
def chattyRun : ℕ → Conf ℚ := (regionOf [busyProgram [messageSelf]] []).after noLib 30

theorem chattyRun_steps : Conf.IsRun noLib chattyRun 11 :=
  Conf.isRun_after (start_regionOf _ _) (by decide +kernel)

end Slemu
