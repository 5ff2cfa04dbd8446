import Slemu.Value

/-! The binary and unary operators (`eval_binary` and `E_UNARY` of vm.c). Where C leaves a result
undefined, such as a signed overflow, there is none. -/

namespace Slemu

/-! Operator codes (`TokKind`), bytes of the bytecode. -/
namespace Op
def assign : UInt8 := 36
def plusAssign : UInt8 := 37
def minusAssign : UInt8 := 38
def starAssign : UInt8 := 39
def slashAssign : UInt8 := 40
def percentAssign : UInt8 := 41
def plus : UInt8 := 42
def minus : UInt8 := 43
def star : UInt8 := 44
def slash : UInt8 := 45
def percent : UInt8 := 46
def and : UInt8 := 47
def or : UInt8 := 48
def xor : UInt8 := 49
def tilde : UInt8 := 50
def land : UInt8 := 51
def lor : UInt8 := 52
def not : UInt8 := 53
def eq : UInt8 := 54
def neq : UInt8 := 55
def le : UInt8 := 56
def ge : UInt8 := 57
def lt : UInt8 := 58
def gt : UInt8 := 59
def shl : UInt8 := 60
def shr : UInt8 := 61
def inc : UInt8 := 62
def dec : UInt8 := 63
end Op

/-- A conversion to `long long`: the value modulo `2^64`, taken in the signed range. -/
def toLLong (i : ℤ) : ℤ := (i+2^63)%2^64-2^63

variable {F : Type} [CDouble F]
open CDouble

namespace SValue

/-- The result of signed arithmetic, if a `long long` can hold it. -/
def ofArith (i : ℤ) : Option (SValue F) :=
  if llongMin ≤ i ∧ i ≤ llongMax then some (.int i) else none

def ofBool (b : Bool) : SValue F := .int (if b then 1 else 0)

def isNum : SValue F → Bool
  | .int _ | .float _ => true
  | _ => false

/-- `(double)` of a number. -/
def toDouble : SValue F → F
  | .int i => ofInt i
  | .float f => f
  | _ => zero

/-- `(long long)` of a number. -/
def toLong : SValue F → ℤ
  | .int i => i
  | .float f => toInt f
  | _ => 0

/-- The characters of a string or key. -/
def chars : SValue F → Option Bytes
  | .string s | .key s => some s
  | _ => none

end SValue

/-- `any_float`, for two numbers. -/
def anyFloat (l r : SValue F) : Bool := l.tag = SV.float || r.tag = SV.float

/-- `li` and `ri`: 0 unless both operands are numbers. -/
def longOf (l r v : SValue F) : ℤ := if l.isNum && r.isNum then v.toLong else 0

/-- The case of two numbers in an arithmetic operator. -/
def arith (l r : SValue F) (onFloat : F → F → F) (onInt : ℤ → ℤ → ℤ) : Option (SValue F) :=
  if l.isNum && r.isNum then
    if anyFloat l r then some (.float (onFloat l.toDouble r.toDouble))
    else SValue.ofArith (onInt l.toLong r.toLong)
  else some .void

def evalPlus (l r : SValue F) : Option (SValue F) :=
  match l, r with
  | .string a, .string b | .string a, .key b | .key a, .string b | .key a, .key b =>
    some (.string (a ++ b))
  | .vec x y z, .vec x' y' z' => some (.vec (add x x') (add y y') (add z z'))
  | .rot x y z s, .rot x' y' z' s' => some (.rot (add x x') (add y y') (add z z') (add s s'))
  | .list a, .list b => some (.list (a ++ b))
  | .list a, v => some (.list (a ++ [v]))
  | v, .list b => some (.list (v :: b))
  | l, r => arith l r add (·+·)

def evalMinus (l r : SValue F) : Option (SValue F) :=
  match l, r with
  | .vec x y z, .vec x' y' z' => some (.vec (sub x x') (sub y y') (sub z z'))
  | .rot x y z s, .rot x' y' z' s' => some (.rot (sub x x') (sub y y') (sub z z') (sub s s'))
  | l, r => arith l r sub (·-·)

/-- A vector times a rotation is scaled by `s` only, as the source has it. -/
def evalStar (l r : SValue F) : Option (SValue F) :=
  match l, r with
  | .vec x y z, .vec x' y' z' => some (.float (add (add (mul x x') (mul y y')) (mul z z')))
  | .vec x y z, .rot _ _ _ s => some (.vec (mul x s) (mul y s) (mul z s))
  | .rot ax ay az aw, .rot bx bY bz bw => some (.rot
      (sub (add (add (mul aw bx) (mul ax bw)) (mul ay bz)) (mul az bY))
      (add (add (sub (mul aw bY) (mul ax bz)) (mul ay bw)) (mul az bx))
      (add (sub (add (mul aw bz) (mul ax bY)) (mul ay bx)) (mul az bw))
      (sub (sub (sub (mul aw bw) (mul ax bx)) (mul ay bY)) (mul az bz)))
  | .vec x y z, r =>
    if r.isNum then
      some (.vec (mul x r.toDouble) (mul y r.toDouble) (mul z r.toDouble))
    else some .void
  | l, .vec x y z =>
    if l.isNum then
      some (.vec (mul x l.toDouble) (mul y l.toDouble) (mul z l.toDouble))
    else some .void
  | l, r => arith l r mul (·*·)

/-- Two integers with a zero divisor give a float. -/
def evalSlash (l r : SValue F) : Option (SValue F) :=
  match l, r with
  | .vec x y z, r =>
    if r.isNum then
      if eq r.toDouble zero then some (.vec zero zero zero)
      else some (.vec (div x r.toDouble) (div y r.toDouble) (div z r.toDouble))
    else some .void
  | l, r =>
    if l.isNum && r.isNum then
      if !anyFloat l r && r.toLong ≠ 0 then SValue.ofArith (l.toLong.tdiv r.toLong)
      else if eq r.toDouble zero then some (.float zero)
      else some (.float (div l.toDouble r.toDouble))
    else some .void

def evalPercent (l r : SValue F) : Option (SValue F) :=
  match l, r with
  | .vec x y z, .vec x' y' z' => some (.vec
      (sub (mul y z') (mul z y')) (sub (mul z x') (mul x z')) (sub (mul x y') (mul y x')))
  | .int i, .int j =>
    if j = 0 then some (.int 0)
    else if (SValue.ofArith (i.tdiv j) : Option (SValue F)).isNone then none
    else some (.int (i.tmod j))
  | _, _ => some (.int 0)

/-- `<` and `>`. -/
def evalLess (l r : SValue F) : Bool :=
  match l, r with
  | .list a, .list b => a.length < b.length
  | .string a, .string b | .string a, .key b | .key a, .string b | .key a, .key b => a < b
  | l, r => l.isNum && r.isNum && lt l.toDouble r.toDouble

/-- `<=` and `>=`, which know no strings. -/
def evalLessEq (l r : SValue F) : Bool :=
  match l, r with
  | .list a, .list b => a.length ≤ b.length
  | l, r => l.isNum && r.isNum && le l.toDouble r.toDouble

/-- `eval_binary` -/
def evalBinary (op : UInt8) (l r : SValue F) : Option (SValue F) :=
  let li := longOf l r l
  let ri := longOf l r r
  if op = Op.plus then evalPlus l r
  else if op = Op.minus then evalMinus l r
  else if op = Op.star then evalStar l r
  else if op = Op.slash then evalSlash l r
  else if op = Op.percent then evalPercent l r
  else if op = Op.and then some (.int (Int.land li ri))
  else if op = Op.or then some (.int (Int.lor li ri))
  else if op = Op.xor then some (.int (Int.xor li ri))
  else if op = Op.shl then some (.int (toLLong (li*2^(ri%32).toNat)))
  else if op = Op.shr then some (.int (li/2^(ri%32).toNat))
  else if op = Op.land then some (.ofBool (svTruthy l && svTruthy r))
  else if op = Op.lor then some (.ofBool (svTruthy l || svTruthy r))
  else if op = Op.eq then some (.ofBool (svEqual l r))
  else if op = Op.neq then some (.ofBool !svEqual l r)
  else if op = Op.lt then some (.ofBool (evalLess l r))
  else if op = Op.gt then some (.ofBool (evalLess r l))
  else if op = Op.le then some (.ofBool (evalLessEq l r))
  else if op = Op.ge then some (.ofBool (evalLessEq r l))
  else some .void

/-- The `switch` of `E_UNARY` on the value of the operand. -/
def evalUnary (op : UInt8) (v : SValue F) : Option (SValue F) :=
  if op = Op.minus then match v with
    | .int i => SValue.ofArith (-i)
    | .float f => some (.float (neg f))
    | .vec x y z => some (.vec (neg x) (neg y) (neg z))
    | .rot x y z s => some (.rot (neg x) (neg y) (neg z) (neg s))
    | v => some v
  else if op = Op.not then some (.ofBool !svTruthy v)
  else if op = Op.tilde then match v with
    | .int i => some (.int (-i-1))
    | _ => some (.int (-1))
  else some v

/-- What `++` and `--` add. -/
def stepOf (op : UInt8) : ℤ := if op = Op.inc then 1 else -1

/-- `++` and `--` on the contents of a cell. -/
def bump (op : UInt8) (v : SValue F) : Option (SValue F) :=
  match v with
  | .int i => SValue.ofArith (i+stepOf op)
  | .float f => some (.float (add f (ofInt (stepOf op))))
  | v => some v

/-- The operator of a compound assignment. -/
def compoundOp (op : UInt8) : UInt8 :=
  if op = Op.plusAssign then Op.plus
  else if op = Op.minusAssign then Op.minus
  else if op = Op.starAssign then Op.star
  else if op = Op.slashAssign then Op.slash
  else if op = Op.percentAssign then Op.percent
  else Op.plus

/-! Components of a vector or rotation, by the letter of a member expression. -/
namespace SValue

/-- `E_MEMBER` on the value of its base. A vector has `s` 0. -/
def component (c : UInt8) : SValue F → F
  | .vec x y z => if c = 120 then x else if c = 121 then y else if c = 122 then z else zero
  | .rot x y z s =>
    if c = 120 then x else if c = 121 then y else if c = 122 then z
    else if c = 115 then s else zero
  | _ => zero

/-- The component that `++`, `--` and compound assignments take, `z` for any other letter. -/
def axis (c : UInt8) (x y z : F) : F := if c = 120 then x else if c = 121 then y else z

/-- A store into a component. Other letters store nothing. -/
def setComponent (c : UInt8) (f : F) : SValue F → SValue F
  | .vec x y z =>
    if c = 120 then .vec f y z else if c = 121 then .vec x f z
    else if c = 122 then .vec x y f else .vec x y z
  | .rot x y z s =>
    if c = 120 then .rot f y z s else if c = 121 then .rot x f z s
    else if c = 122 then .rot x y f s else if c = 115 then .rot x y z f else .rot x y z s
  | v => v

/-- `*p += 1` or `*p -= 1` through the pointer that `++` and `--` form. -/
def bumpAxis (op c : UInt8) (x y z : F) : F × SValue F :=
  let f := add (axis c x y z) (ofInt (stepOf op))
  (f, if c = 120 then .vec f y z else if c = 121 then .vec x f z else .vec x y f)

/-- `v.u.f` after a coercion to float. The void value is all zero bits, and `u.v.x` shares its
place with `u.f`; a pointer there has no value as a double. -/
def floatField : SValue F → Option F
  | .float f => some f
  | .void => some zero
  | .vec x _ _ => some x
  | .rot x _ _ _ => some x
  | _ => none

end SValue

end Slemu
