import Mathlib

/-! A queue as a chain of nodes with pointers to its first and its last node, and what a history
of operations leaves in it. -/

/-- The nodes made so far, each with the address of the next one; the address of a node is its
place in the list. `head` and `tail` are `none` for a null pointer. -/
structure LinkedQueue (α : Type) where
  nodes : List (α × Option ℕ)
  head : Option ℕ
  tail : Option ℕ

/-- The operations on a queue. An operation that empties it says why. -/
inductive QueueOp (α ρ : Type)
  | push (x : α)
  | pop
  | flush (why : ρ)

namespace LinkedQueue
variable {α ρ : Type}

def empty : LinkedQueue α := ⟨[], none, none⟩

/-- A new node behind the last one. -/
def push (q : LinkedQueue α) (x : α) : LinkedQueue α :=
  match q.tail with
  | some t => ⟨(q.nodes.modify t fun n => (n.1, some q.nodes.length)) ++ [(x, none)],
      q.head, some q.nodes.length⟩
  | none => ⟨q.nodes ++ [(x, none)], some q.nodes.length, some q.nodes.length⟩

/-- The address in the node after `a`. -/
def next (q : LinkedQueue α) (a : ℕ) : Option ℕ := q.nodes[a]?.bind Prod.snd

/-- Unlinks the first node; `tail` is null again once the chain is at its end. -/
def pop (q : LinkedQueue α) : LinkedQueue α :=
  match q.head with
  | none => q
  | some a => { q with
      head := q.next a,
      tail := if (q.next a).isNone then none else q.tail }

/-- Unlinks all nodes. -/
def flush (q : LinkedQueue α) : LinkedQueue α := { q with head := none, tail := none }

def apply (q : LinkedQueue α) : QueueOp α ρ → LinkedQueue α
  | .push x => q.push x
  | .pop => q.pop
  | .flush _ => q.flush

/-- The queue after a history of operations. -/
def replay (ops : List (QueueOp α ρ)) : LinkedQueue α := ops.foldl apply empty

/-- The items and addresses met on the way from a pointer to the null pointer. -/
inductive Chain (nodes : List (α × Option ℕ)) : Option ℕ → List (α × ℕ) → Prop
  | nil : Chain nodes none []
  | cons {x : α} {a : ℕ} {next : Option ℕ} {xs : List (α × ℕ)} :
    nodes[a]? = some (x, next) → Chain nodes next xs → Chain nodes (some a) ((x, a) :: xs)

/-- The chain from `head` has the items `xs`, oldest first, and `tail` is its last node. -/
structure Holds (q : LinkedQueue α) (xs : List (α × ℕ)) : Prop where
  chain : Chain q.nodes q.head xs
  tail : q.tail = xs.getLast?.map Prod.snd
  ordered : (xs.map Prod.snd).Pairwise (· < ·)

theorem Chain.bound {nodes : List (α × Option ℕ)} {p : Option ℕ} {xs : List (α × ℕ)}
    (h : Chain nodes p xs) : ∀ x ∈ xs, x.2 < nodes.length := by
  induction h with
  | nil => nofun
  | cons ha _ ih =>
    intro x hx
    rcases List.mem_cons.mp hx with rfl | hx
    · exact (List.getElem?_eq_some_iff.mp ha).1
    · exact ih x hx

/-- Nodes that are not in the chain do not matter to it. -/
theorem Chain.congr {nodes nodes' : List (α × Option ℕ)} {p : Option ℕ} {xs : List (α × ℕ)}
    (h : Chain nodes p xs) (hn : ∀ x ∈ xs, nodes'[x.2]? = nodes[x.2]?) : Chain nodes' p xs := by
  induction h with
  | nil => exact .nil
  | cons ha _ ih =>
    have hx := hn _ List.mem_cons_self
    exact .cons (hx.trans ha) (ih fun x hx => hn x (List.mem_cons_of_mem _ hx))

/-- A node appended to the list of nodes and linked behind the last one extends the chain. -/
theorem Chain.snoc {nodes : List (α × Option ℕ)} {p : Option ℕ} {xs : List (α × ℕ)} {y : α × ℕ}
    (h : Chain nodes p (xs ++ [y])) (ho : ((xs ++ [y]).map Prod.snd).Pairwise (· < ·)) (x : α) :
    Chain ((nodes.modify y.2 fun n => (n.1, some nodes.length)) ++ [(x, none)]) p
      (xs ++ [y] ++ [(x, nodes.length)]) := by
  have hy : y.2 < nodes.length := h.bound y (List.mem_append_right _ List.mem_cons_self)
  have hlen : (nodes.modify y.2 fun n => (n.1, some nodes.length)).length = nodes.length :=
    List.length_modify ..
  have hnew : Chain ((nodes.modify y.2 fun n => (n.1, some nodes.length)) ++ [(x, none)])
      (some nodes.length) [(x, nodes.length)] := by
    refine .cons ?_ .nil
    rw [List.getElem?_append_right hlen.le, hlen, Nat.sub_self, List.getElem?_cons_zero]
  induction xs generalizing p with
  | nil =>
    cases h with
    | cons ha hc =>
      refine .cons ?_ hnew
      rw [List.getElem?_append_left (by rwa [hlen]), List.getElem?_modify_eq, ha]
      rfl
  | cons z xs ih =>
    cases h with
    | @cons zx za next _ ha hc =>
      simp only [List.cons_append, List.map_cons, List.pairwise_cons] at ho
      have hlt : za < y.2 := ho.1 y.2 (List.mem_map_of_mem (List.mem_append_right _ List.mem_cons_self))
      refine .cons ?_ (ih hc ho.2)
      rw [List.getElem?_append_left (by omega), List.getElem?_modify_ne _ _ hlt.ne', ha]

/-- One pointer is null exactly when the other is. -/
theorem Holds.tail_eq_none_iff {q : LinkedQueue α} {xs : List (α × ℕ)} (h : q.Holds xs) :
    q.tail = none ↔ q.head = none := by
  rw [h.tail, Option.map_eq_none_iff, List.getLast?_eq_none_iff]
  obtain ⟨nodes, head, tail⟩ := q
  cases h.chain with
  | nil => exact ⟨fun _ => rfl, fun _ => rfl⟩
  | cons => exact ⟨nofun, nofun⟩

theorem Holds.empty : (empty : LinkedQueue α).Holds [] := ⟨.nil, rfl, .nil⟩

theorem Holds.flush {q : LinkedQueue α} {xs : List (α × ℕ)} (_ : q.Holds xs) :
    q.flush.Holds [] := ⟨.nil, rfl, .nil⟩

theorem Holds.pop {q : LinkedQueue α} {xs : List (α × ℕ)} (h : q.Holds xs) :
    q.pop.Holds xs.tail := by
  obtain ⟨nodes, head, tail⟩ := q
  obtain ⟨hc, ht, ho⟩ := h
  dsimp only at hc ht
  cases hc with
  | nil => exact ⟨.nil, ht, .nil⟩
  | @cons x a next xs ha hc =>
    have hn : (⟨nodes, some a, tail⟩ : LinkedQueue α).next a = next := by
      simp only [LinkedQueue.next, ha, Option.bind_some]
    simp only [LinkedQueue.pop, hn]
    cases hc with
    | nil => exact ⟨.nil, rfl, .nil⟩
    | cons hb hc =>
      refine ⟨.cons hb hc, ht.trans ?_, (List.pairwise_cons.mp ho).2⟩
      rw [List.getLast?_cons_cons, List.tail_cons]

theorem Holds.push {q : LinkedQueue α} {xs : List (α × ℕ)} (h : q.Holds xs) (x : α) :
    (q.push x).Holds (xs ++ [(x, q.nodes.length)]) := by
  obtain ⟨nodes, head, tail⟩ := q
  obtain ⟨hc, ht, ho⟩ := h
  dsimp only at hc ht ⊢
  have ho' : ((xs ++ [(x, nodes.length)]).map Prod.snd).Pairwise (· < ·) := by
    rw [List.map_append, List.pairwise_append]
    refine ⟨ho, List.pairwise_singleton _ _, fun a ha b hb => ?_⟩
    obtain ⟨y, hy, rfl⟩ := List.mem_map.mp ha
    obtain rfl := List.mem_singleton.mp hb
    exact hc.bound y hy
  rcases List.eq_nil_or_concat' xs with rfl | ⟨ys, y, rfl⟩
  · obtain rfl : tail = none := ht
    cases hc
    refine ⟨.cons ?_ .nil, rfl, ho'⟩
    change (nodes ++ [(x, none)])[nodes.length]? = some (x, none)
    rw [List.getElem?_append_right le_rfl, Nat.sub_self, List.getElem?_cons_zero]
  · obtain rfl : tail = some y.2 := by
      rw [ht, List.getLast?_append_of_ne_nil _ (List.cons_ne_nil y []), List.getLast?_singleton]
      rfl
    refine ⟨hc.snoc ho x, ?_, ho'⟩
    rw [List.getLast?_append_of_ne_nil _ (List.cons_ne_nil _ _), List.getLast?_singleton]
    rfl

/-! ### Histories -/

/-- The items pushed, in order. -/
def pushed (ops : List (QueueOp α ρ)) : List α :=
  ops.filterMap fun
    | .push x => some x
    | _ => none

/-- Where the pushed items are, each with its number: in the queue, taken from its front, or
dropped. -/
structure Tally (α ρ : Type) where
  made : ℕ
  waiting : List (α × ℕ)
  taken : List (α × ℕ)
  dropped : List ((α × ℕ) × ρ)

def Tally.apply (t : Tally α ρ) : QueueOp α ρ → Tally α ρ
  | .push x => { t with made := t.made+1, waiting := t.waiting ++ [(x, t.made)] }
  | .pop => { t with waiting := t.waiting.tail, taken := t.taken ++ t.waiting.head?.toList }
  | .flush why => { t with
      waiting := [], dropped := t.dropped ++ t.waiting.map fun x => (x, why) }

def tally (ops : List (QueueOp α ρ)) : Tally α ρ := ops.foldl Tally.apply ⟨0, [], [], []⟩

theorem tally_snoc (ops : List (QueueOp α ρ)) (op : QueueOp α ρ) :
    tally (ops ++ [op]) = (tally ops).apply op := by
  rw [tally, List.foldl_append, List.foldl_cons, List.foldl_nil, ← tally]

theorem replay_snoc (ops : List (QueueOp α ρ)) (op : QueueOp α ρ) :
    replay (ops ++ [op]) = (replay ops).apply op := by
  rw [replay, List.foldl_append, List.foldl_cons, List.foldl_nil, ← replay]

theorem pushed_snoc (ops : List (QueueOp α ρ)) (op : QueueOp α ρ) :
    pushed (ops ++ [op]) = pushed ops ++ pushed [op] := by
  rw [pushed, List.filterMap_append, ← pushed, ← pushed]

theorem length_nodes_apply (q : LinkedQueue α) (op : QueueOp α ρ) :
    (q.apply op).nodes.length = q.nodes.length+(pushed [op]).length := by
  cases op with
  | push x =>
    rw [apply, LinkedQueue.push]
    cases q.tail <;> simp [pushed]
  | pop =>
    rw [apply, LinkedQueue.pop]
    cases q.head <;> rfl
  | flush why => rfl

/-- Each operation gives as many nodes as items were pushed. -/
theorem length_nodes_replay (ops : List (QueueOp α ρ)) :
    (replay ops).nodes.length = (pushed ops).length := by
  induction ops using List.reverseRecOn with
  | nil => rfl
  | append_singleton ops op ih =>
    rw [replay_snoc, length_nodes_apply, ih, pushed_snoc, List.length_append]

theorem made_eq (ops : List (QueueOp α ρ)) : (tally ops).made = (pushed ops).length := by
  induction ops using List.reverseRecOn with
  | nil => rfl
  | append_singleton ops op ih =>
    rw [tally_snoc, pushed_snoc, List.length_append, ← ih]
    cases op <;> rfl

/-- The pointers always describe the items that wait. -/
theorem replay_holds (ops : List (QueueOp α ρ)) : (replay ops).Holds (tally ops).waiting := by
  induction ops using List.reverseRecOn with
  | nil => exact Holds.empty
  | append_singleton ops op ih =>
    rw [replay_snoc, tally_snoc]
    cases op with
    | push x =>
      have hp := ih.push x
      rwa [length_nodes_replay, ← made_eq] at hp
    | pop => exact ih.pop
    | flush why => exact ih.flush

/-- The items taken, and then those waiting, come in the order of their pushes. -/
theorem taken_waiting_sublist (ops : List (QueueOp α ρ)) :
    ((tally ops).taken ++ (tally ops).waiting).Sublist (pushed ops).zipIdx := by
  induction ops using List.reverseRecOn with
  | nil => exact List.Sublist.slnil
  | append_singleton ops op ih =>
    rw [tally_snoc, pushed_snoc, List.zipIdx_append, Nat.zero_add]
    cases op with
    | push x =>
      simp only [Tally.apply, made_eq, ← List.append_assoc]
      exact ih.append (List.Sublist.refl _)
    | pop =>
      have hs : (tally ops).taken ++ (tally ops).waiting.head?.toList ++ (tally ops).waiting.tail =
          (tally ops).taken ++ (tally ops).waiting := by
        rw [List.append_assoc]
        cases (tally ops).waiting <;> rfl
      simp only [Tally.apply, hs]
      simpa [pushed] using ih
    | flush why =>
      simp only [Tally.apply, List.append_nil]
      simpa [pushed] using (List.sublist_append_left _ _).trans ih

/-- Items are taken in the order of their pushes, each at most once. -/
theorem taken_sublist (ops : List (QueueOp α ρ)) :
    (tally ops).taken.Sublist (pushed ops).zipIdx :=
  (List.sublist_append_left _ _).trans (taken_waiting_sublist ops)

/-- Every pushed item is in exactly one place. -/
theorem tally_perm (ops : List (QueueOp α ρ)) :
    ((tally ops).taken ++ (tally ops).dropped.map Prod.fst ++ (tally ops).waiting).Perm
      (pushed ops).zipIdx := by
  induction ops using List.reverseRecOn with
  | nil => exact List.Perm.nil
  | append_singleton ops op ih =>
    rw [tally_snoc, pushed_snoc, List.zipIdx_append, Nat.zero_add]
    cases op with
    | push x =>
      simp only [Tally.apply, made_eq, ← List.append_assoc]
      exact ih.append (List.Perm.refl _)
    | pop =>
      have hs : ((tally ops).taken ++ (tally ops).waiting.head?.toList ++
          (tally ops).dropped.map Prod.fst ++ (tally ops).waiting.tail).Perm
          ((tally ops).taken ++ (tally ops).dropped.map Prod.fst ++ (tally ops).waiting) := by
        cases (tally ops).waiting with
        | nil => simp
        | cons x xs =>
          simp only [List.head?_cons, Option.toList_some, List.tail_cons, List.append_assoc]
          have hm : (x :: ((tally ops).dropped.map Prod.fst ++ xs)).Perm
              ((tally ops).dropped.map Prod.fst ++ x :: xs) := List.perm_middle.symm
          exact List.Perm.append_left _ hm
      simpa [Tally.apply, pushed] using hs.trans ih
    | flush why =>
      simp only [Tally.apply, List.map_append, List.map_map, List.append_nil]
      simpa [pushed, Function.comp_def, ← List.append_assoc] using ih

/-- What is taken stays taken. -/
theorem taken_prefix (ops ops' : List (QueueOp α ρ)) :
    (tally ops).taken <+: (tally (ops ++ ops')).taken := by
  induction ops' using List.reverseRecOn with
  | nil => rw [List.append_nil]
  | append_singleton ops' op ih =>
    rw [← List.append_assoc, tally_snoc]
    cases op with
    | push x => exact ih
    | pop => exact ih.trans (List.prefix_append _ _)
    | flush why => exact ih

/-- The number of pushes never falls. -/
theorem made_le (ops ops' : List (QueueOp α ρ)) : (tally ops).made ≤ (tally (ops ++ ops')).made := by
  rw [made_eq, made_eq, pushed, pushed, List.filterMap_append, List.length_append]
  omega

/-- What waits has been pushed. -/
theorem waiting_lt_made (ops : List (QueueOp α ρ)) :
    ∀ x ∈ (tally ops).waiting, x.2 < (tally ops).made := by
  have hord := (replay_holds ops).chain.bound
  rwa [length_nodes_replay, ← made_eq] at hord

/-- What waits after some operations has waited before, or these operations have pushed it. -/
theorem mem_waiting_append (ops ops' : List (QueueOp α ρ)) {x : α × ℕ}
    (h : x ∈ (tally (ops ++ ops')).waiting) :
    x ∈ (tally ops).waiting ∨ ((tally ops).made ≤ x.2 ∧ .push x.1 ∈ ops') := by
  induction ops' using List.reverseRecOn with
  | nil =>
    rw [List.append_nil] at h
    exact .inl h
  | append_singleton ops' op ih =>
    have hkeep (hx : x ∈ (tally (ops ++ ops')).waiting) : x ∈ (tally ops).waiting ∨
        ((tally ops).made ≤ x.2 ∧ .push x.1 ∈ ops' ++ [op]) :=
      (ih hx).imp_right fun hp => ⟨hp.1, List.mem_append_left _ hp.2⟩
    rw [← List.append_assoc, tally_snoc] at h
    cases op with
    | push y =>
      rcases List.mem_append.mp h with hx | hx
      · exact hkeep hx
      · -- it is the one pushed last
        rw [List.mem_singleton.mp hx]
        exact .inr ⟨made_le ops ops', List.mem_append_right _ (List.mem_singleton_self _)⟩
    | pop => exact hkeep (List.mem_of_mem_tail h)
    | flush why => exact absurd h List.not_mem_nil

end LinkedQueue
