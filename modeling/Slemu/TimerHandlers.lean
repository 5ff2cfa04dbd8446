import Slemu.Timers
import Slemu.StateChange

/-! When the handlers for `timer` run: at the due time of their timer, unless other events come
first, and not after the timer was cancelled, unless an event is still waiting. -/

namespace Slemu
variable {F : Type} [CDouble F]

/-! ### The events that wait, with their due times -/

section
omit [CDouble F]

/-- The events in a queue by its history, those of the scheduler with their due time. -/
def waitsIn (ds : List (Deed F)) : List (Event F × Option F) :=
  (LinkedQueue.tally (ds.filterMap Deed.queueOp)).waiting.map Prod.fst

def Script.waits (t : Script F) : List (Event F × Option F) := waitsIn t.history

theorem waitsIn_push (ds : List (Deed F)) (evs : List (Event F × Option F)) :
    waitsIn (ds ++ evs.map fun e => .push e.1 e.2) = waitsIn ds ++ evs := by
  induction evs using List.reverseRecOn with
  | nil => rw [List.map_nil, List.append_nil, List.append_nil]
  | append_singleton evs e ih =>
    rw [List.map_append, ← List.append_assoc, List.map_singleton, waitsIn, tally_snoc_some _ rfl,
      LinkedQueue.Tally.apply, List.map_append, ← waitsIn, ih, List.append_assoc]
    rfl

end

theorem Accounted.evq_eq {t : Script F} (h : Accounted t) : t.evq = t.waits.map Prod.fst := by
  rw [h.fifo.queue, Script.waits, waitsIn, List.map_map]
  rfl

/-- A step that is not the turn of a script, and fires no timer, adds events without a due time. -/
theorem Moves.waits_other {p p' : Phase} {w w' : World F} {i : ℕ} (h : Moves p w p' w')
    (hi : p.turn ≠ some i) (hp : p ≠ .top) :
    ∃ evs : List (Event F), (∀ ev ∈ evs, ev.name ≠ lit "timer") ∧
      (w'.script i).evq = (w.script i).evq ++ evs ∧
      (w'.script i).history = (w.script i).history ++ evs.map fun ev => .push ev none := by
  obtain ⟨evs, hq, hh⟩ := (h.other hi).queue
  obtain ⟨ds, hh', hds⟩ := (h.happens i).deeds
  obtain rfl := List.append_cancel_left (hh.symm.trans hh')
  have hplain : ∀ e ∈ evs, e.2 = none ∧ e.1.name ≠ lit "timer" := by
    intro e he
    rcases hds with hds | ⟨d, -, ht, -⟩
    · exact (hds _ (List.mem_map_of_mem he)).elim id nofun
    · exact absurd ht hp
  refine ⟨evs.map Prod.fst, fun ev hev => ?_, hq, ?_⟩
  · obtain ⟨e, he, rfl⟩ := List.mem_map.mp hev
    exact (hplain e he).2
  · rw [hh, List.map_map]
    refine congrArg _ (List.map_congr_left fun e he => ?_)
    rw [(hplain e he).1]
    rfl

/-! ### At the due time -/

/-- The time that the head of the loop sets. -/
def World.nextNow (w : World F) : F :=
  match w.dueTimer with
  | (d, some _) => d
  | (_, none) => w.virtualOffset

/-- A script whose first event is a `timer` event that its state handles, left over from an earlier
cycle, finds the due time of that event again as the time of this cycle. -/
def OnSchedule (w : World F) : Prop :=
  ∀ i ev d, (w.script i).waits.head? = some (ev, some d) →
    (w.script i).handler ev.name ≠ none → w.nextNow = d

namespace Conf

/-- The next step runs the handler of script `i` for an event that the scheduler queued when it
fired the due time `d`. -/
def RunsTimer (c : Conf F) (i : ℕ) (ev : Event F) (d : F) : Prop :=
  c.Dispatches i ev ∧ (c.script i).waits.head? = some (ev, some d)

/-- Every such handler runs at `d`, and what it arms is measured from `d`. -/
def TimersOnTime (c : ℕ → Conf F) (n : ℕ) : Prop :=
  ∀ k < n, ∀ i ev d, (c k).RunsTimer i ev d →
    (c k).world.virtualNow = d ∧ (c (k+1)).world.virtualNow = d ∧
    ∀ ds p a, ((c (k+1)).script i).history = ((c k).script i).history ++ ds →
      .setTimer p a ∈ ds → a = d

end Conf

/-- Within a cycle of the loop. -/
def Phase.inCycle : Phase → Bool
  | .load | .init _ | .top => false
  | _ => true

/-- The scripts whose visit is still to come in this cycle. -/
def FrontOnTime (p : Phase) (w : World F) : Prop :=
  p.inCycle → ∀ i, p.past i = false → ∀ ev d, (w.script i).waits.head? = some (ev, some d) →
    (w.script i).handler ev.name ≠ none → w.virtualNow = d

theorem FrontOnTime.head {w : World F} (ho : OnSchedule w) (p' : Phase) :
    FrontOnTime p' w.fireTimer.2 := by
  intro _ i _ ev d hf hh
  have hl := fireTimer_lengthened w i
  rw [hl.handler] at hh
  rcases hd : w.dueTimer with ⟨e, _ | j⟩
  · rw [fireTimer_none hd] at hf ⊢
    have hn := ho i ev d hf hh
    rwa [World.nextNow, hd] at hn
  · have hn : w.nextNow = e := by rw [World.nextNow, hd]
    rw [fireTimer_some hd] at hf ⊢
    change e = d
    rw [script_modScript] at hf
    split at hf
    · -- the timer of this script was fired: its event comes last
      have hw : (Script.fire e (w.script i)).waits =
          (w.script i).waits ++ [(⟨lit "timer", []⟩, some e)] :=
        waitsIn_push (w.script i).history [(⟨lit "timer", []⟩, some e)]
      change (Script.fire e (w.script i)).waits.head? = _ at hf
      rw [hw] at hf
      cases hws : (w.script i).waits with
      | nil =>
        rw [hws] at hf
        cases hf
        rfl
      | cons x xs =>
        rw [hws] at hf
        rw [← hn]
        refine ho i ev d ?_ hh
        rw [hws]
        exact hf
    · rw [← hn]
      exact ho i ev d hf hh

theorem FrontOnTime.step {p p' : Phase} {w w' : World F} (hf : FrontOnTime p w)
    (h : Moves p w p' w') (ho : p = .top → p' ≠ .drain → OnSchedule w) : FrontOnTime p' w' := by
  by_cases hp : p = .top
  · subst hp
    cases h with
    | limit => exact fun _ i hi => absurd hi (by simp [Phase.past])
    | @head _ u h =>
      have hs : OnSchedule u := by
        intro i ev d
        have hn : u.nextNow = w.nextNow := by
          rw [World.nextNow, World.nextNow, dueTimer_of_core h]
          have hoff : u.virtualOffset = w.virtualOffset := congrArg (fun c => c.2.1.2.1) h
          rw [hoff]
        rw [script_of_core h, hn]
        exact ho rfl (by simp) i ev d
      exact .head hs _
  · intro hc i hi ev d hfr hh
    have hpast : p.past i = false := by
      by_contra hpi
      have hpi : p.past i := by simpa using hpi
      have htop : p' ≠ .top := by rintro rfl; cases hc
      rw [h.past htop hpi] at hi
      cases hi
    have hin : p.inCycle := by
      cases h <;> simp_all [Phase.inCycle]
    have hturn : p.turn ≠ some i := by
      intro ht
      cases h <;> simp_all [Phase.turn, Phase.past, Phase.inCycle]
    obtain ⟨evs, -, -, hhist⟩ := h.waits_other hturn hp
    have hw : (w'.script i).waits = (w.script i).waits ++ evs.map fun ev => (ev, none) := by
      have hpush := waitsIn_push (w.script i).history (evs.map fun ev => (ev, none))
      rw [List.map_map] at hpush
      rw [Script.waits, hhist]
      exact hpush
    rw [h.now hp]
    rw [(h.other hturn).handler] at hh
    refine hf hin i hpast ev d ?_ hh
    rw [hw] at hfr
    cases hws : (w.script i).waits with
    | cons x xs => rwa [hws] at hfr
    | nil =>
      rw [hws, List.nil_append, List.head?_map, Option.map_eq_some_iff] at hfr
      obtain ⟨e, -, he⟩ := hfr
      cases he

/-- `OnSchedule` as a computation. -/
def World.isOnSchedule (w : World ℚ) : Bool :=
  (List.range w.scripts.length).all fun i =>
    match (w.script i).waits.head? with
    | some (ev, some d) => ((w.script i).handler ev.name).isNone || w.nextNow = d
    | _ => true

theorem onSchedule_of_isOnSchedule {w : World ℚ} (h : w.isOnSchedule) : OnSchedule w := by
  intro i ev d hf hh
  by_cases hi : i < w.scripts.length
  · have hw := List.all_eq_true.mp h i (List.mem_range.mpr hi)
    simp only [hf, Bool.or_eq_true, Option.isNone_iff_eq_none, decide_eq_true_eq] at hw
    exact hw.resolve_left hh
  · rw [script_of_length_le _ _ (not_lt.mp hi)] at hf
    cases hf

/-- A timer of one second that is two seconds behind. -/
def sleepyProgram (more onTimer : List Stmt) : Program :=
  handlersProgram [(1, callInts 4 [1] :: callInts 5 [2] :: more), (2, onTimer), (3, [])]

/-- A run in which the script also sends itself a message. -/
def backlogRun (onTimer : List Stmt) : ℕ → Conf ℚ :=
  (regionOf [sleepyProgram [callInts 7 [-4]] onTimer] []).after noLib 30

section
omit [CDouble F]

/-- The calls of `llSetTimerEvent` so far, with their time. -/
def Script.timerSets (t : Script F) : List (F × F) := t.history.filterMap Deed.timerSet

/-- No `timer` event that the state handles is in the queue. -/
def Quieted (t : Script F) : Prop := ∀ ev ∈ t.evq, ev.name = lit "timer" → t.handler ev.name = none

/-- A script that went on: with new events behind those it had, or with a flushed queue. -/
structure Requeued (t t' : Script F) : Prop where
  prog : t'.prog = t.prog
  queue : ∃ evs : List (Event F), (∀ ev ∈ evs, ev.name ≠ lit "timer") ∧
    (t'.curState = t.curState ∧ t'.evq = t.evq ++ evs ∨ t'.evq = evs)

namespace Requeued
variable {t u v : Script F}

theorem of_grown (h : Grown t u) : Requeued t u := by
  obtain ⟨evs, hn, hq, -⟩ := h.queue
  exact ⟨h.prog, evs, hn, .inl ⟨h.curState, hq⟩⟩

theorem trans (h : Requeued t u) (h' : Requeued u v) : Requeued t v := by
  obtain ⟨evs, hn, hq⟩ := h.queue
  obtain ⟨evs', hn', hq'⟩ := h'.queue
  have hboth : ∀ ev ∈ evs ++ evs', ev.name ≠ lit "timer" := fun ev hev =>
    (List.mem_append.mp hev).elim (hn ev) (hn' ev)
  refine ⟨h'.prog.trans h.prog, ?_⟩
  rcases hq' with ⟨hc', hq'⟩ | hq'
  · rcases hq with ⟨hc, hq⟩ | hq
    · exact ⟨_, hboth, .inl ⟨hc'.trans hc, by rw [hq', hq, List.append_assoc]⟩⟩
    · exact ⟨_, hboth, .inr (by rw [hq', hq])⟩
  · exact ⟨evs', hn', .inr hq'⟩

/-- Only the queue and what no handler depends on has changed. -/
theorem same (hp : u.prog = t.prog) (hc : u.curState = t.curState) (hq : u.evq = t.evq) :
    Requeued t u := ⟨hp, [], nofun, .inl ⟨hc, hq.trans (List.append_nil _).symm⟩⟩

theorem flushed (hp : u.prog = t.prog) (hq : u.evq = []) : Requeued t u :=
  ⟨hp, [], nofun, .inr hq⟩

theorem quieted (h : Requeued t u) (hq : Quieted t) : Quieted u := by
  obtain ⟨evs, hn, ⟨hc, he⟩ | he⟩ := h.queue
  · have hh : u.handler = t.handler := by
      unfold Script.handler
      rw [h.prog, hc]
    intro ev hev hname
    rw [he] at hev
    rw [hh]
    exact (List.mem_append.mp hev).elim (fun hm => hq ev hm hname)
      fun hm => absurd hname (hn ev hm)
  · intro ev hev hname
    rw [he] at hev
    exact absurd hname (hn ev hev)

end Requeued

theorem Quieted.pop {t : Script F} (h : Quieted t) : Quieted t.pop :=
  fun ev hev => h ev (List.mem_of_mem_tail hev)

end

/-- The last call of `llSetTimerEvent` was one with an interval that is not positive. -/
def Script.Cancelled (t : Script F) : Prop :=
  ∃ x ∈ t.timerSets.getLast?, CDouble.lt CDouble.zero x.1 = false

theorem Act.requeued {s : ℕ} {w w' : World F} (h : Act s w w') (i : ℕ) :
    Requeued (w.script i) (w'.script i) := by
  have hown {f : Script F → Script F} (hf : ∀ t, Requeued t (f t)) :
      Requeued (w.script i) ((w.modScript s f).script i) := by
    rw [script_modScript]
    split
    · exact hf _
    · exact .of_grown (Grown.refl _)
  cases h with
  | grown h => exact .of_grown (h.script i)
  | sleep f => exact .of_grown (Grown.refl _)
  | setTimer f => exact hown fun _ => .same rfl rfl rfl
  | die => exact hown fun _ => .flushed rfl rfl
  | globals g => exact hown fun _ => .same rfl rfl rfl
  | pending j => exact hown fun _ => .same rfl rfl rfl
  | reset st => exact hown fun _ => .flushed rfl rfl

theorem Acts.requeued {s : ℕ} {w w' : World F} (h : Acts s w w') (i : ℕ) :
    Requeued (w.script i) (w'.script i) := by
  induction h with
  | refl => exact .of_grown (Grown.refl _)
  | tail _ hvw ih => exact ih.trans (hvw.requeued i)

/-- The interval is what the last call of `llSetTimerEvent` made it, or zero. -/
theorem interval_trackOf (ds : List (Deed F)) : (trackOf ds).interval = CDouble.zero ∨
    ∃ x ∈ (ds.filterMap Deed.timerSet).getLast?, x.1 = (trackOf ds).interval := by
  induction ds using List.reverseRecOn with
  | nil => exact .inl rfl
  | append_singleton ds d ih =>
    rw [trackOf_snoc, List.filterMap_append]
    have hstay (hs : d.timerSet = none) (hi : ((trackOf ds).apply d).interval =
        (trackOf ds).interval) : ((trackOf ds).apply d).interval = CDouble.zero ∨
        ∃ x ∈ (ds.filterMap Deed.timerSet ++ [d].filterMap Deed.timerSet).getLast?,
          x.1 = ((trackOf ds).apply d).interval := by
      rw [hi, List.filterMap_cons_none hs, List.filterMap_nil, List.append_nil]
      exact ih
    cases d with
    | push ev due => cases due <;> exact hstay rfl rfl
    | pop => exact hstay rfl rfl
    | flush why =>
      cases why with
      | stateChange => exact hstay rfl rfl
      | die => exact .inl rfl
      | reset => exact hstay rfl rfl
    | setTimer f a =>
      have hs : [Deed.setTimer f a].filterMap Deed.timerSet = [(f, a)] := rfl
      rw [hs, List.getLast?_append]
      exact .inr ⟨(f, a), rfl, rfl⟩

/-- A cancelled timer is not armed. -/
theorem Script.Cancelled.interval [CDouble.Ordered F] {t : Script F} (h : t.Cancelled) (ha : Accounted t) :
    CDouble.lt CDouble.zero t.timerInterval = false := by
  obtain ⟨x, hx, hlt⟩ := h
  have hi : t.timerInterval = (trackOf t.history).interval := congrArg Track.interval ha
  rcases interval_trackOf t.history with hz | ⟨y, hy, he⟩
  · rw [hi, hz]
    exact CDouble.Ordered.lt_self _
  · obtain rfl : y = x := Option.some.inj (hy.symm.trans hx)
    rw [hi, ← he]
    exact hlt

/-- No `timer` event before the loop. -/
def NoTimersYet (p : Phase) (w : World F) : Prop :=
  p = .load ∨ (∃ j, p = .init j) → ∀ i, ∀ ev ∈ (w.script i).evq, ev.name ≠ lit "timer"

omit [CDouble F] in
theorem Requeued.no_timers {t t' : Script F} (h : Requeued t t')
    (hn : ∀ ev ∈ t.evq, ev.name ≠ lit "timer") : ∀ ev ∈ t'.evq, ev.name ≠ lit "timer" := by
  obtain ⟨evs, he, ⟨-, hq⟩ | hq⟩ := h.queue
  · intro ev hev
    rw [hq] at hev
    exact (List.mem_append.mp hev).elim (hn ev) (he ev)
  · rw [hq]
    exact he

theorem startUp_no_timers (w : World F) (j i : ℕ)
    (hn : ∀ ev ∈ (w.script i).evq, ev.name ≠ lit "timer") :
    ∀ ev ∈ ((w.startUp j).script i).evq, ev.name ≠ lit "timer" := by
  have hs : ∀ ev ∈ ((w.modScript j fun t => { t with
      curState := startState t.prog t.curState }).script i).evq, ev.name ≠ lit "timer" := by
    rw [script_modScript]
    split <;> exact hn
  have hg := (AllGrown.pushEvent (w.modScript j fun t => { t with
    curState := startState t.prog t.curState }) j
      (by decide : lit "state_entry" ≠ lit "timer") []).script i
  exact (Requeued.of_grown hg).no_timers hs

theorem NoTimersYet.step {p p' : Phase} {w w' : World F} (hn : NoTimersYet p w)
    (h : Moves p w p' w') : NoTimersYet p' w' := by
  have hno {q : Phase} {u : World F} (hl : q ≠ .load) (hi : ∀ j, q ≠ .init j) :
      NoTimersYet q u :=
    fun hq => (hq.elim hl fun ⟨j, hj⟩ => hi j hj).elim
  cases h with
  | load h => exact fun _ i => (Requeued.of_grown (h.script i)).no_timers (hn (.inl rfl) i)
  | @init _ u j hj h =>
    exact fun _ i => startUp_no_timers u j i ((h.requeued i).no_timers (hn (.inr ⟨j, rfl⟩) i))
  | start => exact hno nofun nofun
  | head => exact hno nofun nofun
  | limit => exact hno nofun nofun
  | around => exact hno nofun nofun
  | quiet => exact hno nofun nofun
  | skip => exact hno nofun nofun
  | ignore => exact hno nofun nofun
  | dispatch => exact hno nofun nofun
  | settled => exact hno nofun nofun
  | change => exact hno nofun nofun
  | exit => exact hno nofun nofun
  | entry => exact hno nofun nofun
  | command => exact hno nofun nofun
  | settleDown => exact hno nofun nofun
  | drain => exact hno nofun nofun
  | drained => exact hno nofun nofun
  | save => exact hno nofun nofun

/-- Nothing is left of a cancelled timer, or a change of state is about to flush the queue. -/
def Stilled (p : Phase) (w : World F) (i : ℕ) : Prop :=
  Quieted (w.script i) ∨ p = .settle i ∧ (w.script i).pendingState ≠ none

/-- The step calls `llSetTimerEvent` for script `i`, the last time to cancel the timer. -/
def CancelsNow (w w' : World F) (i : ℕ) : Prop :=
  (w'.script i).timerSets ≠ (w.script i).timerSets ∧ (w'.script i).Cancelled

/-- The turn of a script whose timer was cancelled before. -/
theorem Stilled.turn {p p' : Phase} {w w' : World F} {i : ℕ} (h : Moves p w p' w')
    (hi : p.turn = some i) (hn : NoTimersYet p w) (hs : Stilled p w i) :
    Quieted (w'.script i) ∨ p' = .settle i ∧ (w'.script i).pendingState ≠ none := by
  have hq (hne : p ≠ .settle i) : Quieted (w.script i) :=
    hs.resolve_right fun h => hne h.1
  cases h <;> cases hi
  case init u hl h =>
    have hno := startUp_no_timers u i i ((h.requeued i).no_timers (hn (.inr ⟨i, rfl⟩) i))
    exact .inl fun ev hev hname => absurd hname (hno ev hev)
  case start hc hl =>
    rw [script_of_core hc]
    exact .inl (hq (by simp))
  case around => exact .inl (hq (by simp))
  case quiet => exact .inl (hq (by simp))
  case skip => exact .inl (hq (by simp))
  case ignore b ev evs hl hevq hh hc =>
    rw [script_of_core hc, World.dequeue, World.modScript_script _ _ _ hl]
    exact .inl (hq (by simp)).pop
  case dispatch b ev evs hl hevq hh hacts =>
    have hr := hacts.requeued i
    rw [World.dequeue, World.modScript_script _ _ _ hl] at hr
    exact .inl (hr.quieted (hq (by simp)).pop)
  case settled hp => exact .inl (hs.resolve_right fun h => h.2 hp)
  case change new hp =>
    refine .inl fun ev hev => ?_
    rw [World.switchState, World.modScript_script _ _ _
      (lt_length_of_pending (by rw [hp]; simp))] at hev
    cases hev
  case exit hacts => exact .inl ((hacts.requeued i).quieted (hq (by simp)))
  case entry =>
    have hg := (AllGrown.pushEvent w i (by decide : lit "state_entry" ≠ lit "timer") []).script i
    exact .inl ((Requeued.of_grown hg).quieted (hq (by simp)))

theorem Stilled.step [CDouble.Ordered F] {p p' : Phase} {w w' : World F} {i : ℕ} (h : Moves p w p' w')
    (hn : NoTimersYet p w) (ha : Accounted (w.script i))
    (hs : (w.script i).Cancelled → Stilled p w i) (hc : CancelsNow w w' i → Stilled p' w' i)
    (hcan : (w'.script i).Cancelled) : Stilled p' w' i := by
  by_cases hsets : (w'.script i).timerSets = (w.script i).timerSets
  · have hcan' : (w.script i).Cancelled := by
      unfold Script.Cancelled at hcan ⊢
      rwa [hsets] at hcan
    by_cases hi : p.turn = some i
    · exact (hs hcan').turn h hi hn
    · have hq : Quieted (w.script i) := (hs hcan').resolve_right fun hp => hi (by rw [hp.1]; rfl)
      by_cases hp : p = .top
      · rcases h.happens i with ⟨ev, ht, -⟩ | ⟨d, -, hd, -, -⟩ | ⟨-, he⟩
        · obtain ⟨b, hb⟩ := ht.1
          rw [hp] at hb
          cases hb
        · -- a timer that fires is armed
          obtain ⟨-, hdue, -⟩ := dueTimer_some hd
          have harm := (Bool.and_eq_true_iff.mp hdue).1
          rw [hcan'.interval ha] at harm
          cases harm
        · obtain ⟨evs, hqe, hhe⟩ := (h.other hi).queue
          obtain ⟨ds, hh, hplain, -⟩ := he
          obtain rfl := List.append_cancel_left (hhe.symm.trans hh)
          refine .inl fun ev hev hname => ?_
          rw [hqe] at hev
          rw [(h.other hi).handler]
          rcases List.mem_append.mp hev with hev | hev
          · exact hq ev hev hname
          · obtain ⟨e, he, rfl⟩ := List.mem_map.mp hev
            exact absurd hname (hplain _ (List.mem_map_of_mem he)).2
      · obtain ⟨evs, hnt, hqe, -⟩ := h.waits_other hi hp
        have hl := h.other hi
        exact .inl (Requeued.quieted ⟨hl.prog, evs, hnt, .inl ⟨hl.curState, hqe⟩⟩ hq)
  · exact hc ⟨hsets, hcan⟩

namespace Conf

/-- No `timer` handler of a script is dispatched while its timer is cancelled. -/
def SilentWhenCancelled (c : ℕ → Conf F) (n : ℕ) : Prop :=
  ∀ k < n, ∀ i ev, (c k).Dispatches i ev → ev.name = lit "timer" → ¬ ((c k).script i).Cancelled

end Conf

theorem Script.Cancelled.lt_length {w : World F} {i : ℕ} (h : (w.script i).Cancelled) :
    i < w.scripts.length := by
  by_contra hi
  obtain ⟨x, hx, -⟩ := h
  rw [script_of_length_le w i (not_lt.mp hi)] at hx
  cases hx

/-- The timer handler cancels the timer, with no other `timer` event waiting. -/
def cancelRun : ℕ → Conf ℚ := (regionOf [sleepyProgram [] [callInts 4 [0]]] []).after noLib 30

end Slemu
