import Slemu.Bytes

/-! The program tree that the loader builds (slemu.h). An `Expr` or `Stmt` is a pointer of the
source: `null` is `NULL`. Integer fields keep the width they have in C. -/

namespace Slemu

/-- `Expr *`. Each node carries its static type and the `is_lvalue` byte. -/
inductive Expr
  | null
  | intLit (type lv : UInt8) (v : Int64)
  | floatLit (type lv : UInt8) (bits : UInt64)
  | stringLit (type lv : UInt8) (strIdx : Int32)
  | ident (type lv : UInt8) (identIdx : Int32)
  | vectorLit (type lv : UInt8) (x y z : Expr)
  | rotLit (type lv : UInt8) (x y z w : Expr)
  | listLit (type lv : UInt8) (items : List Expr)
  | call (type lv : UInt8) (nameIdx : Int32) (args : List Expr)
  | member (type lv : UInt8) (base : Expr) (member : UInt8)
  | cast (type lv : UInt8) (target : UInt8) (inner : Expr)
  | unary (type lv : UInt8) (op : UInt8) (inner : Expr)
  | postfix_ (type lv : UInt8) (op : UInt8) (inner : Expr)
  | binary (type lv : UInt8) (op : UInt8) (l r : Expr)
  | assign (type lv : UInt8) (op : UInt8) (l r : Expr)
  deriving Inhabited

/-- `Stmt *`. Each node carries its source line, 0 if unknown. -/
inductive Stmt
  | null
  | expr (line : Int32) (e : Expr)
  | decl (line : Int32) (t : UInt8) (nameIdx : Int32) (init : Expr)
  | block (line : Int32) (stmts : List Stmt)
  | if_ (line : Int32) (cond : Expr) (then_ else_ : Stmt)
  | while_ (line : Int32) (cond : Expr) (body : Stmt)
  | do_ (line : Int32) (body : Stmt) (cond : Expr)
  | for_ (line : Int32) (init : List Expr) (cond : Expr) (post : List Expr) (body : Stmt)
  | ret (line : Int32) (hasValue : UInt8) (e : Expr)
  | jump (line : Int32) (nameIdx : Int32)
  | label (line : Int32) (nameIdx : Int32)
  | stateChg (line : Int32) (nameIdx : Int32)
  | empty (line : Int32)
  deriving Inhabited

def Expr.isNull : Expr → Bool
  | .null => true
  | _ => false

def Stmt.isNull : Stmt → Bool
  | .null => true
  | _ => false

structure Param where
  type : UInt8
  nameIdx : Int32

structure GlobalVar where
  type : UInt8
  nameIdx : Int32
  /-- may be `NULL` -/
  init : Expr

structure FuncDecl where
  nameIdx : Int32
  line : Int32
  ret : UInt8
  hasReturnType : UInt8
  params : List Param
  body : Stmt

structure EventDecl where
  nameIdx : Int32
  line : Int32
  params : List Param
  body : Stmt

structure StateDecl where
  nameIdx : Int32
  line : Int32
  isDefault : UInt8
  events : List EventDecl

/-- `Program`, without the source path. The counts are the lengths of the lists. -/
structure Program where
  strings : List Bytes
  globals : List GlobalVar
  funcs : List FuncDecl
  states : List StateDecl
  flags : Int32
  deriving Inhabited

/-- `prog_str`: the pool string, or the empty string for a bogus index. -/
def Program.str (p : Program) (idx : Int32) : Bytes :=
  if idx.toInt < 0 then [] else p.strings.getD idx.toInt.toNat []

end Slemu
