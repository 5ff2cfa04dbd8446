import Slemu.Operators

/-! The integer operators: when C defines what they compute. -/

namespace Slemu
variable {F : Type} [CDouble F]

/-- A value that fits in a `long long`. -/
def InLLong (i : ℤ) : Prop := llongMin ≤ i ∧ i ≤ llongMax

instance (i : ℤ) : Decidable (InLLong i) := inferInstanceAs (Decidable (_ ∧ _))

/-- `bi_llAbs` on an integer. -/
def llAbs (i : ℤ) : Option (SValue F) := if i < 0 then SValue.ofArith (-i) else some (.int i)

/-- The integer operators. The two forms of `++` and `--` change a cell in the same way. -/
inductive IntOp
  | plus | minus | star | slash | percent | and | or | xor | shl | shr
  | plusAssign | minusAssign | starAssign | slashAssign | percentAssign
  | neg | tilde | inc | dec | abs
  deriving DecidableEq

/-- What an operator computes; those with one operand leave the second aside. -/
def IntOp.run (o : IntOp) (i j : ℤ) : Option (SValue F) :=
  match o with
  | .plus => evalBinary Op.plus (.int i) (.int j)
  | .minus => evalBinary Op.minus (.int i) (.int j)
  | .star => evalBinary Op.star (.int i) (.int j)
  | .slash => evalBinary Op.slash (.int i) (.int j)
  | .percent => evalBinary Op.percent (.int i) (.int j)
  | .and => evalBinary Op.and (.int i) (.int j)
  | .or => evalBinary Op.or (.int i) (.int j)
  | .xor => evalBinary Op.xor (.int i) (.int j)
  | .shl => evalBinary Op.shl (.int i) (.int j)
  | .shr => evalBinary Op.shr (.int i) (.int j)
  | .plusAssign => evalBinary (compoundOp Op.plusAssign) (.int i) (.int j)
  | .minusAssign => evalBinary (compoundOp Op.minusAssign) (.int i) (.int j)
  | .starAssign => evalBinary (compoundOp Op.starAssign) (.int i) (.int j)
  | .slashAssign => evalBinary (compoundOp Op.slashAssign) (.int i) (.int j)
  | .percentAssign => evalBinary (compoundOp Op.percentAssign) (.int i) (.int j)
  | .neg => evalUnary Op.minus (.int i)
  | .tilde => evalUnary Op.tilde (.int i)
  | .inc => bump Op.inc (.int i)
  | .dec => bump Op.dec (.int i)
  | .abs => llAbs i

/-- The exact result fits, and a quotient is not that of the least integer by -1. -/
def IntOp.Fits (o : IntOp) (i j : ℤ) : Prop :=
  match o with
  | .plus | .plusAssign => InLLong (i+j)
  | .minus | .minusAssign => InLLong (i-j)
  | .star | .starAssign => InLLong (i*j)
  | .slash | .slashAssign | .percent | .percentAssign => ¬ (i = llongMin ∧ j = -1)
  | .neg | .abs => i ≠ llongMin
  | .inc => i ≠ llongMax
  | .dec => i ≠ llongMin
  | .and | .or | .xor | .shl | .shr | .tilde => True

omit [CDouble F] in
theorem ofArith_ne_none (i : ℤ) : (SValue.ofArith i : Option (SValue F)) ≠ none ↔ InLLong i := by
  unfold SValue.ofArith InLLong
  split_ifs with h
  · exact iff_of_true (by simp) h
  · exact iff_of_false (by simp) h

/-- A quotient fits, unless it is that of the least integer by -1. -/
theorem inLLong_tdiv {i j : ℤ} (hi : InLLong i) (hj : j ≠ 0) :
    InLLong (i.tdiv j) ↔ ¬ (i = llongMin ∧ j = -1) := by
  have hmin : llongMin = -9223372036854775808 := rfl
  have hmax : llongMax = 9223372036854775807 := rfl
  unfold InLLong at hi ⊢
  rw [hmin, hmax] at hi ⊢
  constructor
  · rintro h ⟨rfl, rfl⟩
    exact absurd h (by decide)
  · intro h
    have habs : (i.tdiv j).natAbs = i.natAbs/j.natAbs := Int.natAbs_tdiv i j
    have hle : i.natAbs/j.natAbs ≤ i.natAbs := Nat.div_le_self _ _
    by_cases hone : j.natAbs = 1
    · rcases Int.natAbs_eq_iff.mp hone with hj1 | hj1
      · have h1 : j = 1 := hj1
        rw [h1, Int.tdiv_one]
        exact hi
      · have h1 : j = -1 := hj1
        have hneg : i.tdiv j = -i := by rw [h1, Int.tdiv_neg, Int.tdiv_one]
        rw [hneg]
        omega
    · have hhalf : i.natAbs/j.natAbs ≤ i.natAbs/2 := Nat.div_le_div_left (by omega) (by omega)
      omega

theorem evalBinary_plus (i j : ℤ) :
    (evalBinary Op.plus (.int i) (.int j) : Option (SValue F)) = SValue.ofArith (i+j) := rfl

theorem evalBinary_minus (i j : ℤ) :
    (evalBinary Op.minus (.int i) (.int j) : Option (SValue F)) = SValue.ofArith (i-j) := rfl

theorem evalBinary_star (i j : ℤ) :
    (evalBinary Op.star (.int i) (.int j) : Option (SValue F)) = SValue.ofArith (i*j) := rfl

theorem evalBinary_slash {i j : ℤ} (hj : j ≠ 0) :
    (evalBinary Op.slash (.int i) (.int j) : Option (SValue F)) = SValue.ofArith (i.tdiv j) := by
  have h : (evalBinary Op.slash (.int i) (.int j) : Option (SValue F)) =
      if (decide (j ≠ 0)) = true then SValue.ofArith (i.tdiv j)
      else if CDouble.eq (CDouble.ofInt j : F) CDouble.zero then some (.float CDouble.zero)
      else some (.float (CDouble.div (CDouble.ofInt i) (CDouble.ofInt j))) := rfl
  rw [h, if_pos (decide_eq_true hj)]

theorem evalBinary_slash_zero (i : ℤ) :
    (evalBinary Op.slash (.int i) (.int 0) : Option (SValue F)) ≠ none := by
  have h : (evalBinary Op.slash (.int i) (.int 0) : Option (SValue F)) =
      if CDouble.eq (CDouble.ofInt 0 : F) CDouble.zero then some (.float CDouble.zero)
      else some (.float (CDouble.div (CDouble.ofInt i) (CDouble.ofInt 0))) := rfl
  rw [h]
  split <;> exact Option.some_ne_none _

theorem evalBinary_percent (i j : ℤ) :
    (evalBinary Op.percent (.int i) (.int j) : Option (SValue F)) = if j = 0 then some (.int 0)
      else if (SValue.ofArith (i.tdiv j) : Option (SValue F)).isNone then none
      else some (.int (i.tmod j)) := rfl

theorem slash_ne_none {i : ℤ} (hi : InLLong i) (j : ℤ) :
    (evalBinary Op.slash (.int i) (.int j) : Option (SValue F)) ≠ none ↔
      ¬ (i = llongMin ∧ j = -1) := by
  by_cases hj : j = 0
  · subst hj
    exact iff_of_true (evalBinary_slash_zero i) (by omega)
  · rw [evalBinary_slash hj, ofArith_ne_none, inLLong_tdiv hi hj]

/-- A remainder is defined where the quotient is, and for a zero divisor. -/
theorem percent_ne_none {i : ℤ} (hi : InLLong i) (j : ℤ) :
    (evalBinary Op.percent (.int i) (.int j) : Option (SValue F)) ≠ none ↔
      ¬ (i = llongMin ∧ j = -1) := by
  rw [evalBinary_percent]
  by_cases hj : j = 0
  · rw [if_pos hj]
    exact iff_of_true (Option.some_ne_none _) (by omega)
  · have hdef := ofArith_ne_none (F := F) (i.tdiv j)
    rw [inLLong_tdiv hi hj] at hdef
    rw [if_neg hj, ← hdef]
    cases SValue.ofArith (i.tdiv j) with
    | none => exact iff_of_false (fun h => h rfl) fun h => h rfl
    | some v => exact iff_of_true (Option.some_ne_none _) (Option.some_ne_none v)

omit [CDouble F] in
theorem neg_ne_none {i : ℤ} (hi : InLLong i) :
    (SValue.ofArith (-i) : Option (SValue F)) ≠ none ↔ i ≠ llongMin := by
  have hmin : llongMin = -9223372036854775808 := rfl
  have hmax : llongMax = 9223372036854775807 := rfl
  rw [ofArith_ne_none]
  unfold InLLong at hi ⊢
  omega

/-- On operands that fit in a `long long`, an integer operator computes a result that C defines
exactly if that result fits, and a quotient is not that of the least integer by -1. -/
theorem intOps_defined_iff (o : IntOp) (i j : ℤ) (hi : InLLong i) :
    (o.run i j : Option (SValue F)) ≠ none ↔ o.Fits i j := by
  have hmin : llongMin = -9223372036854775808 := rfl
  have hmax : llongMax = 9223372036854775807 := rfl
  cases o with
  | plus => exact ofArith_ne_none (i+j)
  | plusAssign => exact ofArith_ne_none (i+j)
  | minus => exact ofArith_ne_none (i-j)
  | minusAssign => exact ofArith_ne_none (i-j)
  | star => exact ofArith_ne_none (i*j)
  | starAssign => exact ofArith_ne_none (i*j)
  | slash => exact slash_ne_none hi j
  | slashAssign => exact slash_ne_none hi j
  | percent => exact percent_ne_none hi j
  | percentAssign => exact percent_ne_none hi j
  | neg => exact neg_ne_none hi
  | abs =>
    change (if i < 0 then SValue.ofArith (-i) else some (.int i) : Option (SValue F)) ≠ none ↔
      i ≠ llongMin
    split_ifs with hneg
    · exact neg_ne_none hi
    · exact iff_of_true (Option.some_ne_none _) (by omega)
  | inc =>
    refine (ofArith_ne_none (i+1)).trans ?_
    change InLLong (i+1) ↔ i ≠ llongMax
    unfold InLLong at hi ⊢
    omega
  | dec =>
    refine (ofArith_ne_none (i+(-1))).trans ?_
    change InLLong (i+(-1)) ↔ i ≠ llongMin
    unfold InLLong at hi ⊢
    omega
  | _ => exact iff_of_true (Option.some_ne_none _) trivial

theorem intOps_defined_seven : InLLong 7 ∧
    ((IntOp.slash.run 7 (-1) : Option (SValue ℚ)) ≠ none ↔ IntOp.slash.Fits 7 (-1)) :=
  ⟨by decide, intOps_defined_iff .slash 7 (-1) (by decide)⟩

/-- The quotient of the least integer by -1 is not defined. -/
theorem slash_traps : InLLong llongMin ∧ InLLong (-1) ∧
    (IntOp.slash.run llongMin (-1) : Option (SValue ℚ)) = none :=
  ⟨by decide, by decide, rfl⟩

end Slemu
