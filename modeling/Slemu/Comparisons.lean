import Slemu.Operators

/-! The comparison operators of `eval_binary`, and whether they belong to one order. -/

namespace Slemu
variable {F : Type} [CDouble F]
open CDouble

/-- The laws of the comparisons of doubles, NaN included. Integers convert to numbers. -/
class CDouble.Compares (F : Type) [CDouble F] : Prop where
  num_ofInt (i : ℤ) : CDouble.le (ofInt i : F) (ofInt i)
  trans_le {a b c : F} : CDouble.le a b → CDouble.le b c → CDouble.le a c
  total_le {a b : F} : CDouble.le a a → CDouble.le b b → CDouble.le a b ∨ CDouble.le b a
  eq_iff {a b : F} : CDouble.eq a b ↔ CDouble.le a b ∧ CDouble.le b a
  lt_iff {a b : F} : CDouble.lt a b ↔ CDouble.le a b ∧ ¬ CDouble.le b a

/-- Two integers, two strings or keys, or two lists. -/
inductive SameClass : SValue F → SValue F → Prop
  | int (i j : ℤ) : SameClass (.int i) (.int j)
  | chars {a b : SValue F} (ha : a.chars.isSome) (hb : b.chars.isSome) : SameClass a b
  | list (a b : List (SValue F)) : SameClass (.list a) (.list b)

/-- The comparison gives 1. -/
def Holds (op : UInt8) (a b : SValue F) : Prop := evalBinary op a b = some (.int 1)

/-- The comparisons of two values are those of one order. -/
structure OneOrder (a b : SValue F) : Prop where
  one : Holds Op.lt a b ∧ ¬ Holds Op.eq a b ∧ ¬ Holds Op.gt a b ∨
    ¬ Holds Op.lt a b ∧ Holds Op.eq a b ∧ ¬ Holds Op.gt a b ∨
    ¬ Holds Op.lt a b ∧ ¬ Holds Op.eq a b ∧ Holds Op.gt a b
  le : Holds Op.le a b ↔ Holds Op.lt a b ∨ Holds Op.eq a b
  ge : Holds Op.ge a b ↔ Holds Op.gt a b ∨ Holds Op.eq a b
  ne : Holds Op.neq a b ↔ ¬ Holds Op.eq a b

/-- Two lists, or two integers that stay apart as doubles. -/
inductive Separated : SValue F → SValue F → Prop
  | int {i j : ℤ} (h : CDouble.eq (ofInt i : F) (ofInt j) → i = j) : Separated (.int i) (.int j)
  | list (a b : List (SValue F)) : Separated (.list a) (.list b)

/-! ### The operators one by one -/

omit [CDouble F] in
theorem holds_ofBool (b : Bool) : (some (SValue.ofBool b) : Option (SValue F)) = some (.int 1) ↔ b := by
  cases b
  · exact iff_of_false (by simp [SValue.ofBool]) (by simp)
  · exact iff_of_true rfl rfl

theorem holds_lt (a b : SValue F) : Holds Op.lt a b ↔ evalLess a b := holds_ofBool _

theorem holds_gt (a b : SValue F) : Holds Op.gt a b ↔ evalLess b a := holds_ofBool _

theorem holds_le (a b : SValue F) : Holds Op.le a b ↔ evalLessEq a b := holds_ofBool _

theorem holds_ge (a b : SValue F) : Holds Op.ge a b ↔ evalLessEq b a := holds_ofBool _

theorem holds_eq (a b : SValue F) : Holds Op.eq a b ↔ svEqual a b := holds_ofBool _

theorem holds_ne (a b : SValue F) : Holds Op.neq a b ↔ ¬ Holds Op.eq a b := by
  rw [holds_eq, Bool.not_eq_true, ← Bool.not_eq_true']
  exact holds_ofBool _

theorem evalLess_chars {a b : SValue F} {s t : Bytes} (ha : a.chars = some s)
    (hb : b.chars = some t) : evalLess a b = decide (s < t) ∧ evalLessEq a b = false ∧
      svEqual a b = decide (s = t) := by
  cases a with
  | string s' =>
    cases b with
    | string t' =>
      cases ha
      cases hb
      exact ⟨rfl, rfl, rfl⟩
    | key t' =>
      cases ha
      cases hb
      exact ⟨rfl, rfl, rfl⟩
    | _ => cases hb
  | key s' =>
    cases b with
    | string t' =>
      cases ha
      cases hb
      exact ⟨rfl, rfl, rfl⟩
    | key t' =>
      cases ha
      cases hb
      exact ⟨rfl, rfl, rfl⟩
    | _ => cases hb
  | _ => cases ha

/-- Two strings: `<=` and `>=` hold of none. -/
theorem not_oneOrder_chars {a b : SValue F} (ha : a.chars.isSome) (hb : b.chars.isSome) :
    ¬ OneOrder a b := by
  obtain ⟨s, ha⟩ := Option.isSome_iff_exists.mp ha
  obtain ⟨t, hb⟩ := Option.isSome_iff_exists.mp hb
  intro h
  obtain ⟨-, hle, heq⟩ := evalLess_chars ha hb
  obtain ⟨hgt, hge, -⟩ := evalLess_chars hb ha
  have hnot : ¬ (Holds Op.lt a b ∨ Holds Op.eq a b) := by
    rw [← h.le, holds_le, hle]
    exact Bool.false_ne_true
  have hnot' : ¬ Holds Op.gt a b := by
    intro hg
    have hle := h.ge.mpr (Or.inl hg)
    rw [holds_ge, hge] at hle
    cases hle
  rcases h.one with ⟨hlt, -⟩ | ⟨-, he, -⟩ | ⟨-, -, hg⟩
  · exact hnot (Or.inl hlt)
  · exact hnot (Or.inr he)
  · exact hnot' hg

theorem oneOrder_list (a b : List (SValue F)) : OneOrder (.list a : SValue F) (.list b) := by
  have hlt (a b : List (SValue F)) : evalLess (.list a) (.list b) = decide (a.length < b.length) := rfl
  have hle (a b : List (SValue F)) : evalLessEq (.list a) (.list b) = decide (a.length ≤ b.length) :=
    rfl
  have heq : svEqual (.list a : SValue F) (.list b) = decide (a.length = b.length) := rfl
  refine ⟨?_, ?_, ?_, holds_ne _ _⟩
  · rw [holds_lt, holds_gt, holds_eq, hlt, hlt, heq, decide_eq_true_iff, decide_eq_true_iff,
      decide_eq_true_iff]
    omega
  · rw [holds_lt, holds_le, holds_eq, hlt, hle, heq, decide_eq_true_iff, decide_eq_true_iff,
      decide_eq_true_iff]
    omega
  · rw [holds_gt, holds_ge, holds_eq, hlt, hle, heq, decide_eq_true_iff, decide_eq_true_iff,
      decide_eq_true_iff]
    omega

instance compares_rat : Compares ℚ where
  num_ofInt _ := decide_eq_true le_rfl
  trans_le h h' := decide_eq_true ((of_decide_eq_true h).trans (of_decide_eq_true h'))
  total_le {a b} _ _ := (le_total a b).imp decide_eq_true decide_eq_true
  eq_iff {a b} := by
    have h : a = b ↔ a ≤ b ∧ b ≤ a := le_antisymm_iff
    exact (decide_eq_true_iff.trans h).trans (and_congr decide_eq_true_iff.symm decide_eq_true_iff.symm)
  lt_iff {a b} := by
    have h : a < b ↔ a ≤ b ∧ ¬ b ≤ a := lt_iff_le_not_ge
    exact (decide_eq_true_iff.trans h).trans
      (and_congr decide_eq_true_iff.symm (not_congr decide_eq_true_iff.symm))

section
variable [Compares F]

/-- Two integers are compared as doubles, but for equality. -/
theorem oneOrder_int_iff (i j : ℤ) :
    OneOrder (.int i : SValue F) (.int j) ↔ (CDouble.eq (ofInt i : F) (ofInt j) → i = j) := by
  have hlt (i j : ℤ) : evalLess (.int i : SValue F) (.int j) = lt (ofInt i : F) (ofInt j) := rfl
  have hle (i j : ℤ) : evalLessEq (.int i : SValue F) (.int j) = le (ofInt i : F) (ofInt j) := rfl
  have heq : svEqual (.int i : SValue F) (.int j) = decide (i = j) := rfl
  have htotal := Compares.total_le (Compares.num_ofInt (F := F) i) (Compares.num_ofInt j)
  have hself : i = j → CDouble.le (ofInt i : F) (ofInt j) ∧ CDouble.le (ofInt j : F) (ofInt i) := by
    rintro rfl
    exact ⟨Compares.num_ofInt i, Compares.num_ofInt i⟩
  constructor
  · intro h hdbl
    -- equal doubles leave neither `<` nor `>`, so the integers must be equal
    obtain ⟨hij, hji⟩ := Compares.eq_iff.mp hdbl
    have hno : ¬ Holds Op.lt (.int i : SValue F) (.int j) := by
      rw [holds_lt, hlt, Compares.lt_iff]
      exact fun h => h.2 hji
    have hno' : ¬ Holds Op.gt (.int i : SValue F) (.int j) := by
      rw [holds_gt, hlt, Compares.lt_iff]
      exact fun h => h.2 hij
    have he : Holds Op.eq (.int i : SValue F) (.int j) := by
      rcases h.one with ⟨hl, -⟩ | ⟨-, he, -⟩ | ⟨-, -, hg⟩
      · exact absurd hl hno
      · exact he
      · exact absurd hg hno'
    rw [holds_eq, heq] at he
    exact of_decide_eq_true he
  · intro h
    have h : CDouble.le (ofInt i : F) (ofInt j) ∧ CDouble.le (ofInt j : F) (ofInt i) → i = j :=
      fun hd => h (Compares.eq_iff.mpr hd)
    refine ⟨?_, ?_, ?_, holds_ne _ _⟩
    · rw [holds_lt, holds_gt, holds_eq, hlt, hlt, heq, decide_eq_true_iff, Compares.lt_iff,
        Compares.lt_iff]
      tauto
    · rw [holds_lt, holds_le, holds_eq, hlt, hle, heq, decide_eq_true_iff, Compares.lt_iff]
      tauto
    · rw [holds_gt, holds_ge, holds_eq, hlt, hle, heq, decide_eq_true_iff, Compares.lt_iff]
      tauto

/-- `<` is transitive in each class. -/
theorem less_trans {a b c : SValue F} (hab : SameClass a b) (hbc : SameClass b c)
    (h : Holds Op.lt a b) (h' : Holds Op.lt b c) : Holds Op.lt a c := by
  rw [holds_lt] at h h' ⊢
  cases hab with
  | int i j =>
    cases hbc with
    | int j k =>
      have hij := Compares.lt_iff.mp (show lt (ofInt i : F) (ofInt j) from h)
      have hjk := Compares.lt_iff.mp (show lt (ofInt j : F) (ofInt k) from h')
      refine Compares.lt_iff.mpr ⟨Compares.trans_le hij.1 hjk.1, fun hki => ?_⟩
      exact hjk.2 (Compares.trans_le hki hij.1)
    | chars hb => cases hb
  | chars ha hb =>
    obtain ⟨s, ha⟩ := Option.isSome_iff_exists.mp ha
    obtain ⟨t, hb⟩ := Option.isSome_iff_exists.mp hb
    cases hbc with
    | chars _ hc =>
      obtain ⟨u, hc⟩ := Option.isSome_iff_exists.mp hc
      rw [(evalLess_chars ha hb).1, decide_eq_true_iff] at h
      rw [(evalLess_chars hb hc).1, decide_eq_true_iff] at h'
      rw [(evalLess_chars ha hc).1, decide_eq_true_iff]
      exact List.lt_trans h h'
    | _ => cases hb
  | list as bs =>
    cases hbc with
    | list bs cs =>
      have h : as.length < bs.length := of_decide_eq_true h
      have h' : bs.length < cs.length := of_decide_eq_true h'
      exact decide_eq_true (h.trans h')
    | chars hb => cases hb

/-- The comparisons of two values of a class are those of one order exactly if the values are
lists, or integers that stay apart as doubles; and `<` is transitive in each class. -/
theorem comparisons_one_order (a b : SValue F) (hab : SameClass a b) :
    (OneOrder a b ↔ Separated a b) ∧
      ∀ c, SameClass b c → Holds Op.lt a b → Holds Op.lt b c → Holds Op.lt a c := by
  refine ⟨?_, fun c hbc h h' => less_trans hab hbc h h'⟩
  cases hab with
  | int i j =>
    refine (oneOrder_int_iff i j).trans ⟨.int, fun h => ?_⟩
    cases h with
    | int h => exact h
  | list as bs => exact iff_of_true (oneOrder_list as bs) (.list as bs)
  | chars ha hb =>
    refine iff_of_false (not_oneOrder_chars ha hb) fun h => ?_
    cases h with
    | int => cases ha
    | list => cases ha

theorem comparisons_one_order_ints :
    SameClass (.int 1 : SValue ℚ) (.int 2) ∧
      (OneOrder (.int 1 : SValue ℚ) (.int 2) ↔ Separated (.int 1 : SValue ℚ) (.int 2)) ∧
      ∀ c, SameClass (.int 2 : SValue ℚ) c → Holds Op.lt (.int 1 : SValue ℚ) (.int 2) →
        Holds Op.lt (.int 2 : SValue ℚ) c → Holds Op.lt (.int 1 : SValue ℚ) c :=
  ⟨.int 1 2, comparisons_one_order _ _ (.int 1 2)⟩

/-- Neither `"a" <= "b"` nor `"a" >= "a"` holds. -/
theorem strings_out_of_order : SameClass (.string (lit "a") : SValue ℚ) (.string (lit "b")) ∧
    ¬ OneOrder (.string (lit "a") : SValue ℚ) (.string (lit "b")) :=
  ⟨.chars rfl rfl, not_oneOrder_chars rfl rfl⟩

end

end Slemu
