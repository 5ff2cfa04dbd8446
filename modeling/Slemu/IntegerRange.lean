import Slemu.IntegerOps
import Slemu.StateRequests
import Slemu.StepLimit

/-! LSL integers have 32 bits, the interpreter has `long long`: when the two agree. -/

namespace Slemu
variable {F : Type} [CDouble F]

/-! ### One operator -/

/-- An integer of LSL. -/
def In32 (i : ℤ) : Prop := -2^31 ≤ i ∧ i < 2^31

instance (i : ℤ) : Decidable (In32 i) := inferInstanceAs (Decidable (_ ∧ _))

/-- An integer in 32 bits, in two's complement. -/
def int32 (i : ℤ) : ℤ := (BitVec.ofInt 32 i).toInt

theorem eq_int32_iff (i : ℤ) : i = int32 i ↔ In32 i := by
  rw [int32, BitVec.toInt_ofInt, In32]
  have hlo : -2^31 ≤ i.bmod (2^32) := by
    have h := Int.le_bmod (x := i) (m := 2^32) (by decide)
    omega
  have hhi : i.bmod (2^32) < 2^31 := by
    have h := Int.bmod_lt (x := i) (m := 2^32) (by decide)
    omega
  constructor
  · intro h
    rw [h]
    exact ⟨hlo, hhi⟩
  · rintro ⟨h1, h2⟩
    exact (Int.bmod_eq_of_le_mul_two (by push_cast; omega) (by push_cast; omega)).symm

/-- The result of an operator on integers of any size. A shift takes the last five bits of its
second operand; a remainder by 0 is 0. -/
def IntOp.exact (o : IntOp) (i j : ℤ) : ℤ :=
  match o with
  | .plus | .plusAssign => i+j
  | .minus | .minusAssign => i-j
  | .star | .starAssign => i*j
  | .slash | .slashAssign => i.tdiv j
  | .percent | .percentAssign => if j = 0 then 0 else i.tmod j
  | .and => Int.land i j
  | .or => Int.lor i j
  | .xor => Int.xor i j
  | .shl => i*2^(j%32).toNat
  | .shr => i/2^(j%32).toNat
  | .neg => -i
  | .tilde => -i-1
  | .inc => i+1
  | .dec => i-1
  | .abs => |i|

theorem In32.inLLong {i : ℤ} (h : In32 i) : InLLong i := by
  have hmin : llongMin = -9223372036854775808 := rfl
  have hmax : llongMax = 9223372036854775807 := rfl
  unfold In32 at h
  unfold InLLong
  omega

/-- The product of two integers of LSL fits in a `long long`. -/
theorem In32.mul {i j : ℤ} (hi : In32 i) (hj : In32 j) : InLLong (i*j) := by
  have hmin : llongMin = -9223372036854775808 := rfl
  have hmax : llongMax = 9223372036854775807 := rfl
  have hle : |i*j| ≤ 2^31*2^31 := by
    rw [abs_mul]
    exact mul_le_mul (abs_le.mpr ⟨hi.1, hi.2.le⟩) (abs_le.mpr ⟨hj.1, hj.2.le⟩) (abs_nonneg j)
      (by decide)
  have h := abs_le.mp hle
  unfold InLLong
  omega

/-- A shift of an integer of LSL to the left fits in a `long long`. -/
theorem In32.shl {i : ℤ} (hi : In32 i) (j : ℤ) : InLLong (i*2^(j%32).toNat) := by
  have hmin : llongMin = -9223372036854775808 := rfl
  have hmax : llongMax = 9223372036854775807 := rfl
  have hpow : (2:ℤ)^(j%32).toNat ≤ 2^31 := pow_le_pow_right₀ (by decide) (by omega)
  have hpos : (0:ℤ) ≤ 2^(j%32).toNat := by positivity
  have hle : |i*2^(j%32).toNat| ≤ 2^31*2^31 := by
    rw [abs_mul, abs_of_nonneg hpos]
    exact mul_le_mul (abs_le.mpr ⟨hi.1, hi.2.le⟩) hpow hpos (by decide)
  have h := abs_le.mp hle
  unfold InLLong
  omega

theorem toLLong_of_inLLong {i : ℤ} (h : InLLong i) : toLLong i = i := by
  have hmin : llongMin = -9223372036854775808 := rfl
  have hmax : llongMax = 9223372036854775807 := rfl
  unfold InLLong at h
  unfold toLLong
  omega

omit [CDouble F] in
theorem ofArith_of_inLLong {i : ℤ} (h : InLLong i) :
    (SValue.ofArith i : Option (SValue F)) = some (.int i) := if_pos h

/-- On integers of LSL, an operator that gives an integer gives its exact result. -/
theorem IntOp.run_eq (o : IntOp) {i j k : ℤ} (hi : In32 i) (hj : In32 j)
    (h : o.run i j = some (.int k : SValue F)) : k = o.exact i j := by
  have harith {e : ℤ} (h : (SValue.ofArith e : Option (SValue F)) = some (.int k)) : k = e := by
    unfold SValue.ofArith at h
    split at h
    · cases h
      rfl
    · cases h
  have hslash (h : (evalBinary Op.slash (.int i) (.int j) : Option (SValue F)) = some (.int k)) :
      k = i.tdiv j := by
    by_cases hj : j = 0
    · subst hj
      change (if CDouble.eq (CDouble.ofInt 0 : F) CDouble.zero then some (.float CDouble.zero)
        else some (.float (CDouble.div (CDouble.ofInt i) (CDouble.ofInt 0))) :
          Option (SValue F)) = some (.int k) at h
      split at h <;> cases h
    · rw [evalBinary_slash hj] at h
      exact harith h
  have hpercent (h : (evalBinary Op.percent (.int i) (.int j) : Option (SValue F)) =
      some (.int k)) : k = if j = 0 then 0 else i.tmod j := by
    rw [evalBinary_percent] at h
    split_ifs at h ⊢ with hz hn
    · cases h
      rfl
    · cases h
      rfl
  cases o with
  | plus => exact harith h
  | minus => exact harith h
  | star => exact harith h
  | slash => exact hslash h
  | percent => exact hpercent h
  | and => cases h; rfl
  | or => cases h; rfl
  | xor => cases h; rfl
  | shl =>
    cases h
    exact toLLong_of_inLLong (hi.shl j)
  | shr => cases h; rfl
  | plusAssign => exact harith h
  | minusAssign => exact harith h
  | starAssign => exact harith h
  | slashAssign => exact hslash h
  | percentAssign => exact hpercent h
  | neg => exact harith h
  | tilde => cases h; rfl
  | inc => exact harith h
  | dec => exact harith h
  | abs =>
    change (if i < 0 then SValue.ofArith (-i) else some (.int i) : Option (SValue F)) = _ at h
    split at h
    · rename_i hneg
      rw [harith h]
      exact (abs_of_neg hneg).symm
    · rename_i hpos
      cases h
      exact (abs_of_nonneg (not_lt.mp hpos)).symm

/-- On integers of LSL, an operator gives its exact result, unless it divides by 0. -/
theorem IntOp.run_some (o : IntOp) {i j : ℤ} (hi : In32 i) (hj : In32 j) :
    o.run i j = some (.int (o.exact i j) : SValue F) ∨ o.exact i j = 0 := by
  have hi' := hi.inLLong
  have hmin : llongMin = -9223372036854775808 := rfl
  have hmax : llongMax = 9223372036854775807 := rfl
  have hnear {e : ℤ} (h1 : -2^33 ≤ e) (h2 : e ≤ 2^33) :
      (SValue.ofArith e : Option (SValue F)) = some (.int e) := by
    refine ofArith_of_inLLong ?_
    unfold InLLong
    omega
  unfold In32 at hi hj
  have htdiv (hz : j ≠ 0) : InLLong (i.tdiv j) := (inLLong_tdiv hi' hz).mpr (by omega)
  have hslash : (evalBinary Op.slash (.int i) (.int j) : Option (SValue F)) =
      some (.int (i.tdiv j)) ∨ i.tdiv j = 0 := by
    by_cases hz : j = 0
    · subst hz
      exact Or.inr (Int.tdiv_zero i)
    · rw [evalBinary_slash hz]
      exact Or.inl (ofArith_of_inLLong (htdiv hz))
  have hpercent : (evalBinary Op.percent (.int i) (.int j) : Option (SValue F)) =
      some (.int (if j = 0 then 0 else i.tmod j)) := by
    rw [evalBinary_percent]
    split_ifs with hz hn
    · rfl
    · rw [ofArith_of_inLLong (htdiv hz)] at hn
      cases hn
    · rfl
  cases o with
  | plus => exact Or.inl (hnear (e := i+j) (by omega) (by omega))
  | minus => exact Or.inl (hnear (e := i-j) (by omega) (by omega))
  | star => exact Or.inl (ofArith_of_inLLong (In32.mul hi hj))
  | slash => exact hslash
  | percent => exact Or.inl hpercent
  | and => exact Or.inl rfl
  | or => exact Or.inl rfl
  | xor => exact Or.inl rfl
  | shl =>
    refine Or.inl ?_
    change some (SValue.int (toLLong (i*2^(j%32).toNat))) = some (.int (i*2^(j%32).toNat))
    rw [toLLong_of_inLLong (In32.shl hi j)]
  | shr => exact Or.inl rfl
  | plusAssign => exact Or.inl (hnear (e := i+j) (by omega) (by omega))
  | minusAssign => exact Or.inl (hnear (e := i-j) (by omega) (by omega))
  | starAssign => exact Or.inl (ofArith_of_inLLong (In32.mul hi hj))
  | slashAssign => exact hslash
  | percentAssign => exact Or.inl hpercent
  | neg => exact Or.inl (hnear (by omega) (by omega))
  | tilde => exact Or.inl rfl
  | inc => exact Or.inl (hnear (e := i+1) (by omega) (by omega))
  | dec => exact Or.inl (hnear (e := i-1) (by omega) (by omega))
  | abs =>
    refine Or.inl ?_
    change (if i < 0 then SValue.ofArith (-i) else some (.int i) : Option (SValue F)) =
      some (.int |i|)
    split
    · rename_i hneg
      rw [abs_of_neg hneg]
      exact hnear (by omega) (by omega)
    · rename_i hpos
      rw [abs_of_nonneg (not_lt.mp hpos)]

/-- On integers of LSL, an operator gives what LSL has for it exactly if the exact result is an
integer of LSL. -/
theorem IntOp.run_int32_iff (o : IntOp) {i j : ℤ} (hi : In32 i) (hj : In32 j) :
    (∀ k, o.run i j = some (.int k : SValue F) → k = int32 (o.exact i j)) ↔ In32 (o.exact i j) := by
  constructor
  · intro h
    rcases o.run_some (F := F) hi hj with hrun | hzero
    · exact (eq_int32_iff _).mp (h _ hrun)
    · rw [hzero]
      decide
  · intro h k hk
    rw [o.run_eq hi hj hk]
    exact (eq_int32_iff _).mpr h

/-! ### Values -/

mutual
/-- Every integer in the value is one of LSL. -/
def SValue.narrow : SValue F → Bool
  | .int i => decide (In32 i)
  | .list vs => SValue.narrowAll vs
  | _ => true

def SValue.narrowAll : List (SValue F) → Bool
  | [] => true
  | v :: vs => v.narrow && SValue.narrowAll vs
end

omit [CDouble F] in
theorem SValue.narrowAll_iff {vs : List (SValue F)} :
    SValue.narrowAll vs = true ↔ ∀ v ∈ vs, v.narrow := by
  induction vs with
  | nil => simp [SValue.narrowAll]
  | cons v vs ih => simp [SValue.narrowAll, ih]

omit [CDouble F] in
theorem narrow_int {i : ℤ} : (SValue.int i : SValue F).narrow = true ↔ In32 i := by
  simp [SValue.narrow]

omit [CDouble F] in
theorem narrow_ofBool (b : Bool) : (SValue.ofBool b : SValue F).narrow := by
  cases b <;> rfl

theorem narrow_coerce {v : SValue F} (h : v.narrow) (t : UInt8) : (coerce v t).narrow := by
  unfold coerce
  split
  · exact h
  · cases v with
    | int i =>
      dsimp only
      split
      · rfl
      · exact h
    | string s =>
      dsimp only
      split <;> rfl
    | key s =>
      dsimp only
      split <;> rfl
    | _ => exact h

theorem narrow_svZero (t : UInt8) : (svZero t : SValue F).narrow := by
  unfold svZero
  split_ifs <;> rfl

/-- The named constants are integers of LSL. -/
theorem narrow_builtinsConst (name : Bytes) : (builtinsConst name : SValue F).narrow := by
  have hall : (constTable : List (Bytes × SValue F)).all fun p => p.2.narrow := rfl
  unfold builtinsConst
  cases h : (constTable : List (Bytes × SValue F)).lookup name with
  | none => rfl
  | some v =>
    obtain ⟨l₁, l₂, hl, -⟩ := List.lookup_eq_some_iff.mp h
    have hmem : (name, v) ∈ (constTable : List (Bytes × SValue F)) := by
      rw [hl]
      exact List.mem_append_right _ List.mem_cons_self
    exact List.all_eq_true.mp hall _ hmem

/-! ### What is noted of the operators -/

/-- The operator on two integers that an operator code stands for. -/
def intOp (op : UInt8) : Option IntOp :=
  if op = Op.plus then some .plus
  else if op = Op.minus then some .minus
  else if op = Op.star then some .star
  else if op = Op.slash then some .slash
  else if op = Op.percent then some .percent
  else if op = Op.and then some .and
  else if op = Op.or then some .or
  else if op = Op.xor then some .xor
  else if op = Op.shl then some .shl
  else if op = Op.shr then some .shr
  else none

/-- The exact result of an operator fits in 32 bits. -/
def IntOp.fits (o : IntOp) (i j : ℤ) : Bool := decide (In32 (o.exact i j))

/-- What an expression has done to come to its value fits in 32 bits: a literal and a conversion,
and the results of `-`, `++` and `--`. In front, the operand is what the value was made of; behind,
it is the value. -/
def Expr.inRange : Expr → SValue F → Bool
  | .intLit _ _ n, _ => decide (In32 n.toInt)
  | .cast _ _ _ _, v => v.narrow
  | .unary _ _ op _, .int k =>
    if op = Op.minus then IntOp.neg.fits (-k) 0
    else if op = Op.inc then IntOp.inc.fits (k-1) 0
    else if op = Op.dec then IntOp.dec.fits (k+1) 0
    else true
  | .postfix_ _ _ op _, .int k => if op = Op.inc then IntOp.inc.fits k 0 else IntOp.dec.fits k 0
  | _, _ => true

/-- The operators that take whole numbers, also of floats. -/
def IntOp.bitwise : IntOp → Bool
  | .and | .or | .xor | .shl | .shr => true
  | _ => false

/-- What is noted fits in 32 bits: the exact result of an operator on its operands, and integers
that are not the results of operators. -/
def Mark.fits : Mark F → Bool
  | .operands op l r => (intOp op).all fun o =>
    (anyFloat l r && !o.bitwise) || o.fits (longOf l r l) (longOf l r r)
  | .builtin _ _ v => v.narrow
  | .value _ e v => e.inRange v
  | _ => true

/-- What the arithmetic operators give on numbers. -/
theorem arith_cases {l r v : SValue F} {onFloat : F → F → F} {onInt : ℤ → ℤ → ℤ}
    (h : arith l r onFloat onInt = some v) : (∃ x, v = .float x) ∨ v = .void ∨
      anyFloat l r = false ∧ v = .int (onInt (longOf l r l) (longOf l r r)) := by
  unfold arith at h
  split at h
  · rename_i hnum
    split at h
    · cases h
      exact Or.inl ⟨_, rfl⟩
    · rename_i hany
      unfold SValue.ofArith at h
      split at h
      · cases h
        refine Or.inr (Or.inr ⟨Bool.eq_false_iff.mpr hany, ?_⟩)
        rw [longOf, longOf, if_pos hnum, if_pos hnum]
      · cases h
  · cases h
    exact Or.inr (Or.inl rfl)

/-- The arithmetic operators, where the exact result fits. -/
theorem narrow_arith {l r v : SValue F} {onFloat : F → F → F} {onInt : ℤ → ℤ → ℤ}
    (hfits : anyFloat l r = false → In32 (onInt (longOf l r l) (longOf l r r)))
    (h : arith l r onFloat onInt = some v) : v.narrow := by
  rcases arith_cases h with ⟨x, rfl⟩ | rfl | ⟨hany, rfl⟩
  · rfl
  · rfl
  · exact narrow_int.mpr (hfits hany)

theorem narrow_evalPlus {l r v : SValue F} (hl : l.narrow) (hr : r.narrow)
    (hfits : anyFloat l r = false → In32 (longOf l r l+longOf l r r))
    (h : evalPlus l r = some v) : v.narrow := by
  unfold evalPlus at h
  split at h
  case h_7 a b =>
    cases h
    rw [SValue.narrow, SValue.narrowAll_iff] at hl hr ⊢
    intro v hv
    exact (List.mem_append.mp hv).elim (hl v) (hr v)
  case h_8 a b _ =>
    cases h
    rw [SValue.narrow, SValue.narrowAll_iff] at hl ⊢
    intro v hv
    rcases List.mem_append.mp hv with hv | hv
    · exact hl v hv
    · rw [List.mem_singleton.mp hv]
      exact hr
  case h_9 a b _ =>
    cases h
    rw [SValue.narrow, SValue.narrowAll_iff] at hr ⊢
    intro v hv
    rcases List.mem_cons.mp hv with rfl | hv
    · exact hl
    · exact hr v hv
  case h_10 => exact narrow_arith hfits h
  all_goals
    cases h
    rfl

theorem narrow_evalMinus {l r v : SValue F}
    (hfits : anyFloat l r = false → In32 (longOf l r l-longOf l r r))
    (h : evalMinus l r = some v) : v.narrow := by
  unfold evalMinus at h
  split at h
  case h_3 => exact narrow_arith hfits h
  all_goals
    cases h
    rfl

theorem narrow_evalStar {l r v : SValue F}
    (hfits : anyFloat l r = false → In32 (longOf l r l*longOf l r r))
    (h : evalStar l r = some v) : v.narrow := by
  unfold evalStar at h
  split at h
  case h_6 => exact narrow_arith hfits h
  case h_4 => split at h <;> cases h <;> rfl
  case h_5 => split at h <;> cases h <;> rfl
  all_goals
    cases h
    rfl

theorem narrow_evalSlash {l r v : SValue F}
    (hfits : anyFloat l r = false → In32 ((longOf l r l).tdiv (longOf l r r)))
    (h : evalSlash l r = some v) : v.narrow := by
  unfold evalSlash at h
  split at h
  · split_ifs at h <;> cases h <;> rfl
  · split_ifs at h with hnum hint hzero
    · unfold SValue.ofArith at h
      split at h
      · cases h
        rw [Bool.and_eq_true] at hint
        have hf := hfits (by simpa using hint.1)
        rw [longOf, longOf, if_pos hnum, if_pos hnum] at hf
        exact narrow_int.mpr hf
      · cases h
    all_goals
      cases h
      rfl

theorem narrow_evalPercent {l r v : SValue F}
    (hfits : ∀ i j, l = .int i → r = .int j → In32 (if j = 0 then 0 else i.tmod j))
    (h : evalPercent l r = some v) : v.narrow := by
  unfold evalPercent at h
  split at h
  · cases h
    rfl
  · rename_i i j
    have hf := hfits i j rfl rfl
    split_ifs at h hf
    · cases h
      rfl
    · cases h
      exact narrow_int.mpr hf
  · cases h
    rfl

/-- The binary operators on values of LSL. -/
theorem narrow_evalBinary {op : UInt8} {l r v : SValue F} (hl : l.narrow) (hr : r.narrow)
    (hfits : (Mark.operands op l r).fits) (h : evalBinary op l r = some v) : v.narrow := by
  have hex (o : IntOp) (ho : intOp op = some o) :
      (anyFloat l r && !o.bitwise) = true ∨ In32 (o.exact (longOf l r l) (longOf l r r)) := by
    rw [Mark.fits, ho, Option.all_some, Bool.or_eq_true] at hfits
    exact hfits.imp_right of_decide_eq_true
  have harith (o : IntOp) (ho : intOp op = some o) (hany : anyFloat l r = false) :
      In32 (o.exact (longOf l r l) (longOf l r r)) := by
    refine (hex o ho).resolve_left fun hf => ?_
    rw [hany] at hf
    cases hf
  have hbits (o : IntOp) (ho : intOp op = some o) (hb : o.bitwise = true) :
      In32 (o.exact (longOf l r l) (longOf l r r)) := by
    refine (hex o ho).resolve_left fun hf => ?_
    rw [hb, Bool.and_eq_true] at hf
    cases hf.2
  by_cases h1 : op = Op.plus
  · subst h1
    exact narrow_evalPlus hl hr (harith .plus rfl) h
  by_cases h2 : op = Op.minus
  · subst h2
    exact narrow_evalMinus (harith .minus rfl) h
  by_cases h3 : op = Op.star
  · subst h3
    exact narrow_evalStar (harith .star rfl) h
  by_cases h4 : op = Op.slash
  · subst h4
    exact narrow_evalSlash (harith .slash rfl) h
  by_cases h5 : op = Op.percent
  · subst h5
    refine narrow_evalPercent (fun i j hi hj => ?_) h
    subst hi hj
    exact harith .percent rfl rfl
  by_cases h6 : op = Op.and
  · subst h6
    cases h
    exact narrow_int.mpr (hbits .and rfl rfl)
  by_cases h7 : op = Op.or
  · subst h7
    cases h
    exact narrow_int.mpr (hbits .or rfl rfl)
  by_cases h8 : op = Op.xor
  · subst h8
    cases h
    exact narrow_int.mpr (hbits .xor rfl rfl)
  by_cases h9 : op = Op.shl
  · subst h9
    cases h
    have hin := hbits .shl rfl rfl
    refine narrow_int.mpr ?_
    rw [toLLong_of_inLLong (by exact hin.inLLong)]
    exact hin
  by_cases h10 : op = Op.shr
  · subst h10
    cases h
    exact narrow_int.mpr (hbits .shr rfl rfl)
  -- the other operators compare
  unfold evalBinary at h
  dsimp only at h
  rw [if_neg h1, if_neg h2, if_neg h3, if_neg h4, if_neg h5, if_neg h6, if_neg h7, if_neg h8,
    if_neg h9, if_neg h10] at h
  iterate 8
    split at h
    · cases h
      exact narrow_ofBool _
  cases h
  rfl

/-- The unary operators but `-` on values of LSL, and `-` where the result fits. -/
theorem narrow_evalUnary {op : UInt8} {v v' : SValue F} (hv : v.narrow)
    (h : evalUnary op v = some v') :
    v'.narrow ∨ op = Op.minus ∧ ∃ k, v' = .int k ∧ (In32 k → v'.narrow) := by
  unfold evalUnary at h
  split_ifs at h with h1 h2 h3
  · cases v with
    | int i =>
      dsimp only at h
      unfold SValue.ofArith at h
      split at h
      · cases h
        exact Or.inr ⟨h1, _, rfl, narrow_int.mpr⟩
      · cases h
    | _ =>
      cases h
      first
        | exact Or.inl rfl
        | exact Or.inl hv
  · cases h
    exact Or.inl (narrow_ofBool _)
  · cases v with
    | int i =>
      cases h
      have hi := narrow_int.mp hv
      refine Or.inl (narrow_int.mpr ?_)
      unfold In32 at hi ⊢
      omega
    | _ =>
      cases h
      exact Or.inl rfl
  · cases h
    exact Or.inl hv

end Slemu
