import Slemu.Double

/-! LSL runtime values: value.c and the conversions of vm.c. -/

namespace Slemu

/-! Type tags (`SVType`). Bytecode carries them as bytes, so they stay bytes here. -/
namespace SV
def void : UInt8 := 0
def integer : UInt8 := 1
def float : UInt8 := 2
def string : UInt8 := 3
def key : UInt8 := 4
def vector : UInt8 := 5
def rotation : UInt8 := 6
def list : UInt8 := 7
end SV

/-- `SValue`: a tagged union, here with one constructor for each tag the interpreter builds. -/
inductive SValue (F : Type)
  | void
  | int (i : ℤ)
  | float (f : F)
  | string (s : Bytes)
  | key (s : Bytes)
  | vec (x y z : F)
  | rot (x y z s : F)
  | list (items : List (SValue F))
  deriving Inhabited

variable {F : Type}

namespace SValue

/-- The `type` field. -/
def tag : SValue F → UInt8
  | void => SV.void
  | int _ => SV.integer
  | float _ => SV.float
  | string _ => SV.string
  | key _ => SV.key
  | vec .. => SV.vector
  | rot .. => SV.rotation
  | list _ => SV.list

/-- `sv_key(NULL)` -/
def nullKey : SValue F := key Slemu.nullKey

end SValue

variable [CDouble F]
open CDouble

/-- The zero value of a declared type, as `init_script` and the declaration statement
store it; other type codes get a void value. -/
def svZero (t : UInt8) : SValue F :=
  if t = SV.integer then .int 0
  else if t = SV.float then .float zero
  else if t = SV.string then .string []
  else if t = SV.key then .nullKey
  else if t = SV.vector then .vec zero zero zero
  else if t = SV.rotation then .rot zero zero zero one
  else if t = SV.list then .list []
  else .void

/-- `sv_truthy` -/
def svTruthy : SValue F → Bool
  | .int i => i ≠ 0
  | .float f => !eq f zero
  | .string s => s ≠ []
  | .key s => s ≠ nullKey
  | .vec x y z => !(eq x zero && eq y zero && eq z zero)
  | .rot x y z s => !(eq x zero && eq y zero && eq z zero && eq s one)
  | .list l => l ≠ []
  | .void => false

/-- `sv_equal`; two lists compare by length. -/
def svEqual : SValue F → SValue F → Bool
  | .int a, .int b => a = b
  | .float a, .float b => eq a b
  | .int a, .float b => eq (ofInt a) b
  | .float a, .int b => eq a (ofInt b)
  | .string a, .string b | .string a, .key b | .key a, .string b | .key a, .key b => a = b
  | .vec x y z, .vec x' y' z' => eq x x' && eq y y' && eq z z'
  | .rot x y z s, .rot x' y' z' s' => eq x x' && eq y y' && eq z z' && eq s s'
  | .list a, .list b => a.length = b.length
  | _, _ => false

/-- The components of a vector or rotation between angle brackets, at five decimals. -/
def bracketed (fs : List F) : Bytes :=
  lit "<" ++ (lit ", ").intercalate (fs.map (fmt 5)) ++ lit ">"

mutual
/-- `sv_to_string` -/
def svToString : SValue F → Bytes
  | .int i => decBytes i
  | .float f => fmt 6 f
  | .string s => s
  | .key s => s
  | .vec x y z => bracketed [x, y, z]
  | .rot x y z s => bracketed [x, y, z, s]
  | .list items => svConcat items
  | .void => []

/-- A list prints as its elements with no separator. -/
def svConcat : List (SValue F) → Bytes
  | [] => []
  | v :: vs => svToString v ++ svConcat vs
end

/-- `coerce`: integer to float and string to or from key; anything else is left as it is. -/
def coerce (v : SValue F) (target : UInt8) : SValue F :=
  if target = SV.void ∨ target = v.tag then v
  else match v with
    | .int i => if target = SV.float then .float (ofInt i) else v
    | .string s => if target = SV.key then .key s else v
    | .key s => if target = SV.string then .string s else v
    | _ => v

/-- The components read by `sscanf(s, " < %lf , %lf , ...")` before the first mismatch. -/
def scanComps : ℕ → Bytes → List F
  | 0, _ => []
  | n+1, s => match scan s with
    | none => []
    | some (f, s) => f :: match s.dropWhile isSpace with
      | 44 :: t => scanComps n t
      | _ => []

def scanVec (n : ℕ) (s : Bytes) : List F :=
  match s.dropWhile isSpace with
  | 60 :: t => scanComps n t
  | _ => []

/-- `do_cast` -/
def doCast (v : SValue F) (target : UInt8) : SValue F :=
  if v.tag = target then v
  else if target = SV.integer then match v with
    | .float f => .int (toInt f)
    | .int i => .int i
    | .string s | .key s => .int (strtoll 0 s)
    | _ => .int 0
  else if target = SV.float then match v with
    | .int i => .float (ofInt i)
    | .float f => .float f
    | .string s | .key s => .float (strtod s)
    | _ => .float zero
  else if target = SV.string then .string (svToString v)
  else if target = SV.key then match v with
    | .string s => .key s
    | _ => .nullKey
  else if target = SV.vector then match v with
    | .vec x y z => .vec x y z
    | .string s =>
      let c := scanVec 3 s
      .vec (c.getD 0 zero) (c.getD 1 zero) (c.getD 2 zero)
    | _ => .vec zero zero zero
  else if target = SV.rotation then match v with
    | .rot x y z s => .rot x y z s
    | .string s =>
      let c := scanVec 4 s
      .rot (c.getD 0 zero) (c.getD 1 zero) (c.getD 2 zero) (c.getD 3 one)
    | _ => .rot zero zero zero one
  else if target = SV.list then match v with
    | .list l => .list l
    | _ => .list [v]
  else v

/-! Arguments of the builtins, read with defaults (`ai`, `af` and `as` of builtins.c). -/

/-- `ai` -/
def argInt (a : List (SValue F)) (i : ℕ) : ℤ :=
  match a[i]? with
  | some (.int n) => n
  | some (.float f) => toInt f
  | some (.string s) | some (.key s) => strtoll 0 s
  | _ => 0

/-- `af` -/
def argFloat (a : List (SValue F)) (i : ℕ) : F :=
  match a[i]? with
  | some (.float f) => f
  | some (.int n) => ofInt n
  | some (.string s) | some (.key s) => strtod s
  | _ => zero

/-- `as` -/
def argStr (a : List (SValue F)) (i : ℕ) : Bytes :=
  match a[i]? with
  | some (.string s) | some (.key s) => s
  | _ => []

end Slemu
