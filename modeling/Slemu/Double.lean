import Slemu.Bytes

/-! C `double` as the sources use it. The development is generic in the type of the
floating values: nothing but the operations below is assumed of them. -/

namespace Slemu

/-- The `double` operations of the interpreter. No law is required of them. -/
class CDouble (F : Type) where
  /-- `(double)i` -/
  ofInt : ℤ → F
  /-- `(long long)f` -/
  toInt : F → ℤ
  /-- The double with these 64 bits. -/
  ofBits : UInt64 → F
  /-- The decimal constant `m·10^-k`. -/
  dec : ℤ → ℕ → F
  neg : F → F
  add : F → F → F
  sub : F → F → F
  mul : F → F → F
  div : F → F → F
  eq : F → F → Bool
  lt : F → F → Bool
  le : F → F → Bool
  /-- `%.<p>f` -/
  fmt : ℕ → F → Bytes
  /-- `strtod`: the value and the unread rest, or `none` when no conversion is made. -/
  scan : Bytes → Option (F × Bytes)

namespace CDouble
variable {F : Type} [CDouble F]

def zero : F := ofInt 0
def one : F := ofInt 1

/-- `strtod(s, NULL)` -/
def strtod (s : Bytes) : F := ((scan s).map Prod.fst).getD zero

end CDouble

/-- The laws of `double` that the statements about time need. A value is a number, that is, not
NaN, when `le a a` holds. -/
class CDouble.Ordered (F : Type) [CDouble F] : Prop where
  trans_le {a b c : F} : CDouble.le a b → CDouble.le b c → CDouble.le a c
  num_left {a b : F} : CDouble.le a b → CDouble.le a a
  num_right {a b : F} : CDouble.le a b → CDouble.le b b
  total_le {a b : F} : CDouble.le a a → CDouble.le b b → CDouble.le a b = false →
    CDouble.le b a
  total_lt {a b : F} : CDouble.le a a → CDouble.le b b → CDouble.lt a b = false →
    CDouble.le b a
  lt_le {a b : F} : CDouble.lt a b → CDouble.le a b
  lt_self (a : F) : CDouble.lt a a = false
  zero_lt : CDouble.lt (CDouble.zero : F) CDouble.one
  le_plus {a f : F} : CDouble.le CDouble.zero a → CDouble.lt CDouble.zero f →
    CDouble.le a (CDouble.add a f)

/-! ### Exact rationals, an instance that computes -/

/-- Rounds a non-negative rational to the nearest natural number, ties to even. -/
def ratRound (q : ℚ) : ℕ :=
  let n := q.num.natAbs/q.den
  let r := 2*(q.num.natAbs%q.den)
  if r < q.den then n
  else if r = q.den then (if n%2 = 0 then n else n+1)
  else n+1

/-- Fixed-point decimal notation with `p` digits after the point. -/
def ratFmt (p : ℕ) (q : ℚ) : Bytes :=
  let n := ratRound (|q| * 10^p)
  let frac := (Nat.toDigits 10 (n%10^p)).map fun c => c.toNat.toUInt8
  let body := decBytes (n/10^p : ℕ) ++
    (if p = 0 then [] else 46 :: (List.replicate (p-frac.length) 48 ++ frac))
  if q < 0 then 45 :: body else body

/-- The finite double with the given bits, as an exact rational. -/
def ratOfBits (b : UInt64) : ℚ :=
  let n := b.toNat
  let e : ℕ := n/2^52%2^11
  let m : ℕ := n%2^52
  let a : ℚ := if e = 0 then (m:ℚ)/2^1074 else ((2^52+m : ℕ):ℚ)*2^e/2^1075
  if n/2^63 = 1 then -a else a

/-- Digits of a decimal number in front of the unread rest. -/
def ratDigits (s : Bytes) : Bytes × Bytes := (s.takeWhile isDigit, s.dropWhile isDigit)

/-- Decimal notation of `strtod`, without an exponent. -/
def ratScan (s : Bytes) : Option (ℚ × Bytes) :=
  let (neg, s) := scanSign (s.dropWhile isSpace)
  let (whole, s) := ratDigits s
  let (frac, s) := match s with
    | 46 :: t => ratDigits t
    | _ => ([], s)
  if whole = [] ∧ frac = [] then none
  else
    let n := (whole ++ frac).foldl (fun n c => n*10+digitVal c) 0
    let q : ℚ := (n:ℚ)/10^frac.length
    some (if neg then -q else q, s)

instance : CDouble ℚ where
  ofInt i := i
  toInt q := if q < 0 then -((-q).floor) else q.floor
  ofBits := ratOfBits
  dec m k := (m:ℚ)/10^k
  neg q := -q
  add a b := a+b
  sub a b := a-b
  mul a b := a*b
  div a b := a/b
  eq a b := decide (a = b)
  lt a b := decide (a < b)
  le a b := decide (a ≤ b)
  fmt := ratFmt
  scan := ratScan

namespace CDouble

@[simp] theorem rat_zero : (zero : ℚ) = 0 := Int.cast_zero
@[simp] theorem rat_one : (one : ℚ) = 1 := Int.cast_one
@[simp] theorem rat_add (a b : ℚ) : add a b = a+b := rfl
@[simp] theorem rat_lt (a b : ℚ) : lt a b = decide (a < b) := rfl
@[simp] theorem rat_le (a b : ℚ) : le a b = decide (a ≤ b) := rfl

instance : Ordered ℚ where
  trans_le h h' := by simp only [rat_le, decide_eq_true_eq] at *; exact h.trans h'
  num_left _ := by simp
  num_right _ := by simp
  total_le _ _ h := by
    simp only [rat_le, decide_eq_true_eq, decide_eq_false_iff_not] at *
    exact (not_le.mp h).le
  total_lt _ _ h := by
    simp only [rat_lt, rat_le, decide_eq_true_eq, decide_eq_false_iff_not] at *
    exact not_lt.mp h
  lt_le h := by simp only [rat_lt, rat_le, decide_eq_true_eq] at *; exact h.le
  lt_self _ := by simp
  zero_lt := by simp
  le_plus _ h := by
    simp only [rat_lt, rat_le, rat_zero, rat_add, decide_eq_true_eq] at *
    exact le_add_of_nonneg_right h.le

end CDouble

/-! ### Binary floating point -/

/-- `q·2^e` -/
def scale2 (q : ℚ) (e : ℤ) : ℚ := if 0 ≤ e then q*2^e.toNat else q/2^(-e).toNat

/-- Rounds to 53 significant bits, to the nearest and on ties to even. -/
def round53 (q : ℚ) : ℚ :=
  -- the quotient of numerator and denominator lies between `2^(l-1)` and `2^(l+1)`
  let l : ℤ := (Nat.log2 q.num.natAbs : ℤ)-Nat.log2 q.den
  let e := if 2^52 ≤ scale2 |q| (52-l) then l-52 else l-53
  let a := scale2 (ratRound (scale2 |q| (-e))) e
  if q < 0 then -a else a

/-- A `double` that is a normal number or zero. Results of any size are kept, so overflow and
underflow are left out. -/
structure Sig53 where
  val : ℚ
  deriving DecidableEq

namespace Sig53

/-- The double nearest to a rational. -/
def nearest (q : ℚ) : Sig53 := ⟨round53 q⟩

instance : CDouble Sig53 where
  ofInt i := nearest i
  toInt a := CDouble.toInt a.val
  ofBits b := ⟨ratOfBits b⟩
  dec m k := nearest (CDouble.dec m k)
  neg a := ⟨-a.val⟩
  add a b := nearest (a.val+b.val)
  sub a b := nearest (a.val-b.val)
  mul a b := nearest (a.val*b.val)
  div a b := nearest (a.val/b.val)
  eq a b := decide (a.val = b.val)
  lt a b := decide (a.val < b.val)
  le a b := decide (a.val ≤ b.val)
  fmt p a := ratFmt p a.val
  scan s := (ratScan s).map fun r => (nearest r.1, r.2)

end Sig53

example : round53 (2^53+1) = 2^53 := by decide +kernel
example : round53 (1/3) = 6004799503160661/2^54 := by decide +kernel
example : ratFmt 3 (-7/2) = lit "-3.500" := by decide +kernel
example : (ratScan (lit " 1.25s")).map Prod.fst = some (5/4) := by decide +kernel

end Slemu
