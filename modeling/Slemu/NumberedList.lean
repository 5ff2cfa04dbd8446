import Mathlib.Data.List.Basic
import Mathlib.Data.List.Pairwise
import Mathlib.Logic.Function.Basic
import Mathlib.Algebra.Order.Ring.Int
import Mathlib.Tactic.Common

/-! Lists of entries that are numbered as they come, newest first, as finite maps. -/

namespace NumberedList
variable {β : Type}

/-- The numbers go down, and the next one is above them all. -/
structure Below (next : ℤ) (l : List (ℤ × β)) : Prop where
  order : l.Pairwise fun x y => y.1 < x.1
  lt : ∀ x ∈ l, x.1 < next

/-- The entry with a number. -/
def view (l : List (ℤ × β)) (id : ℤ) : Option β := (l.find? fun x => x.1 = id).map Prod.snd

/-- Takes out the entry with a number. -/
def remove (id : ℤ) (l : List (ℤ × β)) : List (ℤ × β) := l.eraseP fun x => x.1 = id

variable {next : ℤ} {l : List (ℤ × β)}

theorem Below.nil (next : ℤ) : Below next ([] : List (ℤ × β)) :=
  ⟨List.Pairwise.nil, fun _ h => by cases h⟩

theorem Below.cons (h : Below next l) (b : β) : Below (next+1) ((next, b) :: l) := by
  refine ⟨List.pairwise_cons.mpr ⟨h.lt, h.order⟩, fun x hx => ?_⟩
  rcases List.mem_cons.mp hx with rfl | hx
  · exact Int.lt_succ next
  · exact (h.lt x hx).trans (Int.lt_succ next)

theorem Below.remove (h : Below next l) (id : ℤ) : Below next (remove id l) :=
  ⟨h.order.sublist List.eraseP_sublist, fun x hx => h.lt x (List.mem_of_mem_eraseP hx)⟩

theorem Below.tail {x : ℤ × β} (h : Below next (x :: l)) : Below next l :=
  ⟨(List.pairwise_cons.mp h.order).2, fun y hy => h.lt y (List.mem_cons_of_mem x hy)⟩

theorem view_cons (x : ℤ × β) (l : List (ℤ × β)) :
    view (x :: l) = Function.update (view l) x.1 (some x.2) := by
  funext id
  unfold view
  by_cases h : x.1 = id
  · subst h
    rw [Function.update_self, List.find?_cons_of_pos (by simp), Option.map_some]
  · rw [Function.update_of_ne (Ne.symm h), List.find?_cons_of_neg (by simpa using h)]

/-- What is above all numbers is not there. -/
theorem Below.view_none (h : Below next l) {id : ℤ} (hid : next ≤ id) : view l id = none := by
  have hfind : (l.find? fun x => decide (x.1 = id)) = none := by
    refine List.find?_eq_none.mpr fun x hx => ?_
    have hlt := h.lt x hx
    simp only [decide_eq_true_eq]
    omega
  rw [view, hfind]
  rfl

theorem Below.view_remove (h : Below next l) (id : ℤ) :
    view (NumberedList.remove id l) = Function.update (view l) id none := by
  induction l with
  | nil =>
    funext j
    by_cases hj : j = id
    · rw [hj, Function.update_self]
      rfl
    · rw [Function.update_of_ne hj]
      rfl
  | cons x l ih =>
    by_cases hx : x.1 = id
    · -- the numbers behind are smaller
      subst hx
      have hrest : Below x.1 l := ⟨h.tail.order, fun y hy => (List.pairwise_cons.mp h.order).1 y hy⟩
      rw [NumberedList.remove, List.eraseP_cons_of_pos (by simp), view_cons,
        Function.update_idem]
      funext j
      by_cases hj : j = x.1
      · rw [hj, Function.update_self, hrest.view_none le_rfl]
      · rw [Function.update_of_ne hj]
    · have hrem : NumberedList.remove id (x :: l) = x :: NumberedList.remove id l :=
        List.eraseP_cons_of_neg (by simpa using hx)
      rw [hrem, view_cons, view_cons, ih h.tail, Function.update_comm hx]

/-- The same of a list with more in its entries than a number and a value. -/
theorem Below.eraseP {α : Type} {entry : α → ℤ × β} {l : List α} (h : Below next (l.map entry))
    (id : ℤ) :
    Below next ((l.eraseP fun x => (entry x).1 = id).map entry) ∧
      view ((l.eraseP fun x => (entry x).1 = id).map entry) =
        Function.update (view (l.map entry)) id none := by
  have hmap : (l.eraseP fun x => (entry x).1 = id).map entry =
      NumberedList.remove id (l.map entry) := by
    rw [NumberedList.remove, List.eraseP_map]
    rfl
  rw [hmap]
  exact ⟨h.remove id, h.view_remove id⟩

theorem Below.exists_view (h : Below next l) (b : β) :
    (∃ id, view l id = some b) ↔ ∃ x ∈ l, x.2 = b := by
  induction l with
  | nil => simp [view]
  | cons x l ih =>
    have hrest : Below x.1 l := ⟨h.tail.order, fun y hy => (List.pairwise_cons.mp h.order).1 y hy⟩
    rw [view_cons, List.exists_mem_cons_iff, ← ih h.tail]
    constructor
    · rintro ⟨id, hid⟩
      by_cases hx : id = x.1
      · rw [hx, Function.update_self] at hid
        exact .inl (Option.some.inj hid)
      · rw [Function.update_of_ne hx] at hid
        exact .inr ⟨id, hid⟩
    · rintro (rfl | ⟨id, hid⟩)
      · exact ⟨x.1, Function.update_self ..⟩
      · refine ⟨id, ?_⟩
        have hne : id ≠ x.1 := by
          rintro rfl
          rw [hrest.view_none le_rfl] at hid
          cases hid
        rw [Function.update_of_ne hne, hid]

end NumberedList
