import Mathlib

/-! Sorting by exchange: each place in turn is compared with all places behind it, and the two
elements change places if they stand in the wrong order. -/

namespace ExchangeSort
open scoped List
variable {α β : Type} (gt : α → α → Bool)

/-- The element that one pass leaves in front, and the elements behind it. -/
def pass (x : α) : List α → α × List α
  | [] => (x, [])
  | y :: ys =>
    if gt x y then ((pass y ys).1, x :: (pass y ys).2) else ((pass x ys).1, y :: (pass x ys).2)

theorem pass_length (x : α) (l : List α) : (pass gt x l).2.length = l.length := by
  induction l generalizing x with
  | nil => rfl
  | cons y ys ih =>
    rw [pass]
    split_ifs
    · rw [List.length_cons, ih, List.length_cons]
    · rw [List.length_cons, ih, List.length_cons]

/-- A pass over each place in turn. -/
def sort : List α → List α
  | [] => []
  | x :: xs => (pass gt x xs).1 :: sort (pass gt x xs).2
termination_by l => l.length
decreasing_by
  rw [pass_length, List.length_cons]
  exact Nat.lt_succ_self _

theorem pass_perm (x : α) (l : List α) :
    ((pass gt x l).1 :: (pass gt x l).2).Perm (x :: l) := by
  induction l generalizing x with
  | nil => exact List.Perm.refl _
  | cons y ys ih =>
    rw [pass]
    split_ifs
    · calc (pass gt y ys).1 :: x :: (pass gt y ys).2
        _ ~ x :: (pass gt y ys).1 :: (pass gt y ys).2 := List.Perm.swap _ _ _
        _ ~ x :: y :: ys := (ih y).cons x
    · calc (pass gt x ys).1 :: y :: (pass gt x ys).2
        _ ~ y :: (pass gt x ys).1 :: (pass gt x ys).2 := List.Perm.swap _ _ _
        _ ~ y :: x :: ys := (ih x).cons y
        _ ~ x :: y :: ys := List.Perm.swap _ _ _

theorem sort_perm (l : List α) : (sort gt l).Perm l := by
  induction h : l.length generalizing l with
  | zero =>
    rw [List.length_eq_zero_iff.mp h, sort]
  | succ n ih =>
    obtain ⟨x, xs, rfl⟩ := List.exists_cons_of_length_eq_add_one h
    rw [sort]
    have hlen : (pass gt x xs).2.length = n := by
      rw [pass_length]
      exact Nat.succ.inj h
    exact ((ih _ hlen).cons _).trans (pass_perm gt x xs)

variable [LinearOrder β] {gt} {f : α → β}

/-- What stands in front after a pass comes first of all elements. -/
theorem pass_le {x : α} {l : List α} (h : ∀ a ∈ x :: l, ∀ b ∈ x :: l, gt a b ↔ f b < f a) :
    ∀ a ∈ x :: l, f (pass gt x l).1 ≤ f a := by
  induction l generalizing x with
  | nil =>
    intro a ha
    rw [List.mem_singleton.mp ha]
    exact le_rfl
  | cons y ys ih =>
    have hxy := h x List.mem_cons_self y (List.mem_cons_of_mem x List.mem_cons_self)
    rw [pass]
    split_ifs with hgt
    · have hle := ih (x := y) fun a ha b hb =>
        h a (List.mem_cons_of_mem x ha) b (List.mem_cons_of_mem x hb)
      intro a ha
      rcases List.mem_cons.mp ha with rfl | ha
      · exact (hle y List.mem_cons_self).trans (hxy.mp hgt).le
      · exact hle a ha
    · have hsub {a : α} (ha : a ∈ x :: ys) : a ∈ x :: y :: ys := by
        rcases List.mem_cons.mp ha with rfl | ha
        · exact List.mem_cons_self
        · exact List.mem_cons_of_mem x (List.mem_cons_of_mem y ha)
      have hle := ih (x := x) fun a ha b hb => h a (hsub ha) b (hsub hb)
      intro a ha
      rcases List.mem_cons.mp ha with rfl | ha
      · exact hle a List.mem_cons_self
      rcases List.mem_cons.mp ha with rfl | ha
      · exact (hle x List.mem_cons_self).trans (not_lt.mp fun hlt => hgt (hxy.mpr hlt))
      · exact hle a (List.mem_cons_of_mem x ha)

/-- The result is in order, if on the elements of the list the comparison is that of a linear order
of their keys. -/
theorem sort_pairwise {l : List α} (h : ∀ a ∈ l, ∀ b ∈ l, gt a b ↔ f b < f a) :
    (sort gt l).Pairwise fun a b => f a ≤ f b := by
  induction hn : l.length generalizing l with
  | zero =>
    rw [List.length_eq_zero_iff.mp hn, sort]
    exact List.Pairwise.nil
  | succ n ih =>
    obtain ⟨x, xs, rfl⟩ := List.exists_cons_of_length_eq_add_one hn
    have hlen : (pass gt x xs).2.length = n := by
      rw [pass_length]
      exact Nat.succ.inj hn
    have hmem {a : α} (ha : a ∈ (pass gt x xs).2) : a ∈ x :: xs :=
      (pass_perm gt x xs).mem_iff.mp (List.mem_cons_of_mem _ ha)
    rw [sort, List.pairwise_cons]
    refine ⟨fun a ha => ?_, ih (fun a ha b hb => h a (hmem ha) b (hmem hb)) hlen⟩
    exact pass_le h a (hmem ((sort_perm gt _).mem_iff.mp ha))

end ExchangeSort
