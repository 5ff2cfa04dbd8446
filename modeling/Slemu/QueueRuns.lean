import Slemu.History

/-! The event queues of the scripts over whole runs: first in, first out, nothing lost, nothing
twice. -/

namespace Slemu
variable {F : Type} [CDouble F]
open LinkedQueue

/-- The operation on the queue that a deed is. -/
def Deed.queueOp : Deed F → Option (QueueOp (Event F × Option F) Flush)
  | .push ev due => some (.push (ev, due))
  | .pop => some .pop
  | .flush why => some (.flush why)
  | .setTimer .. => none

/-- The operations on the queue of a script so far. -/
def Script.queueOps (t : Script F) : List (QueueOp (Event F × Option F) Flush) :=
  t.history.filterMap Deed.queueOp

/-- Where the events pushed to a script are. -/
def Script.tally (t : Script F) : Tally (Event F × Option F) Flush := LinkedQueue.tally t.queueOps

/-- The queue of a script is sound: the events in it are those pushed and neither taken nor
dropped, the pointers `evq_head` and `evq_tail` describe it, and events are taken in the order in
which they were pushed, each at most once. -/
structure Fifo (t : Script F) : Prop where
  queue : t.evq = t.tally.waiting.map fun x => x.1.1
  pointers : (replay t.queueOps).Holds t.tally.waiting
  ends : (replay t.queueOps).tail = none ↔ (replay t.queueOps).head = none
  order : t.tally.taken.Sublist (pushed t.queueOps).zipIdx
  places : (t.tally.taken ++ t.tally.dropped.map Prod.fst ++ t.tally.waiting).Perm
    (pushed t.queueOps).zipIdx

/-- The queues over a run: they are sound throughout; a step takes an event from a queue exactly
when it is the turn of that script, and then the first one; a cycle of the loop takes at most one
event from a queue; what happened stays so. -/
structure QueuesRun (c : ℕ → Conf F) (n : ℕ) : Prop where
  fifo : ∀ k ≤ n, ∀ i, Fifo ((c k).script i)
  takes : ∀ k < n, ∀ i ev, Takes (c k).phase (c k).world i ev →
    ∃ x, ((c k).script i).tally.waiting.head? = some x ∧ x.1.1 = ev ∧
      ((c (k+1)).script i).tally.taken = ((c k).script i).tally.taken ++ [x]
  leaves : ∀ k < n, ∀ i, (∀ ev, ¬ Takes (c k).phase (c k).world i ev) →
    ((c (k+1)).script i).tally.taken = ((c k).script i).tally.taken
  cycle : ∀ i j k, j ≤ k → k ≤ n → (∀ m, j < m → m ≤ k → (c m).phase ≠ .top) →
    ((c k).script i).tally.taken.length ≤ ((c j).script i).tally.taken.length+1
  history : ∀ j k, j ≤ k → k ≤ n → ∀ i, ((c j).script i).history <+: ((c k).script i).history

omit [CDouble F] in
/-- One more deed that is an operation on the queue. -/
theorem tally_snoc_some (ds : List (Deed F)) {d : Deed F} {op : QueueOp (Event F × Option F) Flush}
    (h : d.queueOp = some op) : LinkedQueue.tally ((ds ++ [d]).filterMap Deed.queueOp) =
      (LinkedQueue.tally (ds.filterMap Deed.queueOp)).apply op := by
  rw [List.filterMap_append, List.filterMap_cons_some h, List.filterMap_nil, tally_snoc]

omit [CDouble F] in
/-- One more deed that is none. -/
theorem tally_snoc_none (ds : List (Deed F)) {d : Deed F} (h : d.queueOp = none) :
    LinkedQueue.tally ((ds ++ [d]).filterMap Deed.queueOp) =
      LinkedQueue.tally (ds.filterMap Deed.queueOp) := by
  rw [List.filterMap_append, List.filterMap_cons_none h, List.filterMap_nil, List.append_nil]

/-- The list that the interpreter keeps is the content of the queue. -/
theorem evq_foldl (ds : List (Deed F)) :
    (ds.foldl Track.apply ⟨[], CDouble.zero, CDouble.zero⟩).evq =
      (LinkedQueue.tally (ds.filterMap Deed.queueOp)).waiting.map fun x => x.1.1 := by
  induction ds using List.reverseRecOn with
  | nil => rfl
  | append_singleton ds d ih =>
    rw [List.foldl_append, List.foldl_cons, List.foldl_nil]
    cases d with
    | push ev due =>
      rw [tally_snoc_some ds rfl]
      cases due <;> simp only [Track.apply, ih, Tally.apply, List.map_append, List.map_cons,
        List.map_nil]
    | pop =>
      rw [tally_snoc_some ds rfl]
      simp only [Track.apply, ih, Tally.apply, List.map_tail]
    | flush why =>
      rw [tally_snoc_some ds rfl]
      cases why <;> rfl
    | setTimer f now =>
      rw [tally_snoc_none ds rfl, ← ih]
      rfl

theorem Accounted.fifo {t : Script F} (h : Accounted t) : Fifo t where
  queue := (congrArg Track.evq h).trans (evq_foldl t.history)
  pointers := replay_holds _
  ends := (replay_holds t.queueOps).tail_eq_none_iff
  order := taken_sublist _
  places := tally_perm _

/-- Running code takes nothing from a queue. -/
theorem taken_of_extends {now : F} {t t' : Script F} (h : Extends now t t') :
    t'.tally.taken = t.tally.taken := by
  obtain ⟨ds, hh, hp, -⟩ := h
  rw [Script.tally, Script.tally, Script.queueOps, Script.queueOps, hh]
  clear hh
  induction ds using List.reverseRecOn with
  | nil => rw [List.append_nil]
  | append_singleton ds d ih =>
    have hd := hp d (List.mem_append_right _ List.mem_cons_self)
    rw [← ih fun e he => hp e (List.mem_append_left _ he), ← List.append_assoc]
    cases d with
    | push ev due => rw [tally_snoc_some _ rfl]; rfl
    | pop => exact hd.elim
    | flush why => rw [tally_snoc_some _ rfl]; rfl
    | setTimer f now => rw [tally_snoc_none _ rfl]

omit [CDouble F] in
theorem tally_pop (t : Script F) : t.pop.tally = t.tally.apply .pop :=
  tally_snoc_some t.history rfl

theorem tally_fire (t : Script F) (d : F) :
    (t.fire d).tally = t.tally.apply (.push (⟨lit "timer", []⟩, some d)) :=
  tally_snoc_some t.history rfl

theorem Happens.taken_eq {p : Phase} {w : World F} {i : ℕ} {t' : Script F}
    (h : Happens p w i t') (hn : ∀ ev, ¬ Takes p w i ev) :
    t'.tally.taken = (w.script i).tally.taken := by
  cases h with
  | taken ev ht _ => exact absurd ht (hn ev)
  | fired d _ _ _ he => rw [he, tally_fire]; rfl
  | plain _ he => exact taken_of_extends he

theorem Happens.taken_snoc {p : Phase} {w : World F} {i : ℕ} {t' : Script F} {ev : Event F}
    (h : Happens p w i t') (ha : Accounted (w.script i)) (ht : Takes p w i ev) :
    ∃ x, (w.script i).tally.waiting.head? = some x ∧ x.1.1 = ev ∧
      t'.tally.taken = (w.script i).tally.taken ++ [x] := by
  have hq := ht.2.2
  rw [ha.fifo.queue, List.head?_map, Option.map_eq_some_iff] at hq
  obtain ⟨x, hx, rfl⟩ := hq
  refine ⟨x, hx, rfl, ?_⟩
  cases h with
  | taken ev' _ he =>
    rw [taken_of_extends he, tally_pop, Tally.apply, hx]
    rfl
  | fired d hp _ _ _ =>
    obtain ⟨⟨b, hb⟩, -⟩ := ht
    rw [hp] at hb
    cases hb
  | plain hn _ => exact absurd ht (hn _)

theorem Happens.history {p : Phase} {w : World F} {i : ℕ} {t' : Script F}
    (h : Happens p w i t') : (w.script i).history <+: t'.history := by
  cases h with
  | taken ev _ he =>
    obtain ⟨ds, hh, -⟩ := he
    rw [hh]
    exact (List.prefix_append _ _).trans (List.prefix_append _ _)
  | fired d _ _ _ he => exact he ▸ List.prefix_append _ _
  | plain _ he =>
    obtain ⟨ds, hh, -⟩ := he
    exact hh ▸ List.prefix_append _ _

/-! ### Cycles -/

/-- The visit to script `i` in this cycle is over. -/
def Phase.past (i : ℕ) : Phase → Bool
  | .visit j _ => i < j
  | .settle j | .exit j _ _ | .entry j _ => i ≤ j
  | .idle | .drain | .save | .done => true
  | .load | .init _ | .top => false

theorem Moves.past {p p' : Phase} {w w' : World F} {i : ℕ} (h : Moves p w p' w')
    (ht : p' ≠ .top) (hp : p.past i) : p'.past i := by
  cases h <;> simp_all [Phase.past] <;> omega

/-- A visit that takes an event is over after it. -/
theorem Takes.past {p p' : Phase} {w w' : World F} {i : ℕ} {ev : Event F}
    (ht : Takes p w i ev) (h : Moves p w p' w') : ¬ p.past i ∧ p'.past i := by
  obtain ⟨⟨b, rfl⟩, hi, hq⟩ := ht
  refine ⟨by simp [Phase.past], ?_⟩
  cases h with
  | around hj => exact absurd hi (not_lt.mpr hj)
  | quiet hj => exact absurd hi (not_lt.mpr hj)
  | skip _ he => rw [he] at hq; cases hq
  | ignore => simp [Phase.past]
  | dispatch => simp [Phase.past]

namespace Conf
variable {lib : Lib F} {c : ℕ → Conf F} {n : ℕ}

/-- One cycle: nothing is taken before the visit is over, and one event at most by then. -/
theorem IsRun.cycle (h : IsRun lib c n) (i j d : ℕ) (hn : j+d ≤ n)
    (hc : ∀ m, j < m → m ≤ j+d → (c m).phase ≠ .top) :
    (¬ (c (j+d)).phase.past i →
      ((c (j+d)).script i).tally.taken = ((c j).script i).tally.taken) ∧
    ((c (j+d)).script i).tally.taken.length ≤ ((c j).script i).tally.taken.length+1 := by
  induction d with
  | zero => exact ⟨fun _ => rfl, Nat.le_succ _⟩
  | succ d ih =>
    have hlt : j+d < n := by omega
    have ih := ih hlt.le fun m hj hm => hc m hj (by omega)
    have hm := h.moves hlt
    have hh := h.happens hlt i
    have htop := hc (j+(d+1)) (by omega) le_rfl
    by_cases ht : ∃ ev, Takes (c (j+d)).phase (c (j+d)).world i ev
    · obtain ⟨ev, ht⟩ := ht
      obtain ⟨hp, hp'⟩ := ht.past hm
      obtain ⟨x, -, -, hx⟩ := hh.taken_snoc (h.accounted hlt.le i) ht
      refine ⟨fun hnp => absurd hp' hnp, ?_⟩
      have he : ((c (j+d)).world.script i).tally.taken = ((c j).script i).tally.taken := ih.1 hp
      change ((c (j+d+1)).script i).tally.taken.length ≤ _
      rw [hx, he, List.length_append, List.length_singleton]
    · have he := hh.taken_eq fun ev hev => ht ⟨ev, hev⟩
      refine ⟨fun hnp => he.trans (ih.1 fun hp => hnp (hm.past htop hp)), ?_⟩
      change ((c (j+d+1)).script i).tally.taken.length ≤ _
      rw [he]
      exact ih.2

theorem IsRun.history (h : IsRun lib c n) (i j d : ℕ) (hn : j+d ≤ n) :
    ((c j).script i).history <+: ((c (j+d)).script i).history := by
  induction d with
  | zero => exact List.prefix_rfl
  | succ d ih =>
    have hlt : j+d < n := by omega
    exact (ih hlt.le).trans (h.happens hlt i).history

end Conf

/-- The event queues of a region are first in, first out, over every run. -/
theorem queues_fifo (lib : Lib F) (c : ℕ → Conf F) (n : ℕ) (h : Conf.IsRun lib c n) :
    QueuesRun c n where
  fifo k hk i := (h.accounted hk i).fifo
  takes k hk i ev ht := (h.happens hk i).taken_snoc (h.accounted hk.le i) ht
  leaves k hk i hn := (h.happens hk i).taken_eq hn
  cycle i j k hjk hk hc := by
    obtain ⟨d, rfl⟩ := Nat.exists_eq_add_of_le hjk
    exact (h.cycle i j d hk hc).2
  history j k hjk hk i := by
    obtain ⟨d, rfl⟩ := Nat.exists_eq_add_of_le hjk
    exact h.history i j d hk

/-- A script that sends itself two messages, and throws the second one away. -/
theorem queues_fifo_dying : QueuesRun ((regionOf [handlersProgram
    [(1, [callInts 7 [-4], callInts 7 [-4]]), (3, [callInts 6 []])]] []).after noLib 30) 14 :=
  queues_fifo noLib _ 14 (Conf.isRun_after (start_regionOf _ _) (by decide +kernel))

end Slemu
