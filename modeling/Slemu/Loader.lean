import Slemu.Syntax
import Slemu.RunLogic

/-! The loader of `.lslbc` files (loader.c). -/

namespace Slemu

/-- `Rdr`, with the static `g_format_version`. A local that a failed read leaves unassigned
holds whatever `junk` says. The tags read so far are kept for the statements below only. -/
structure Rdr where
  src : Bytes
  off : ℕ
  err : Bool
  version : UInt32
  junk : ℕ → UInt64
  draws : ℕ
  exprTags : List UInt8
  stmtTags : List UInt8

abbrev Rd (α : Type) := Run Rdr α

/-! ### Memory -/

/-- The bytes `xmalloc` hands out. -/
def xmalloc (n : ℕ) : ℕ := max n 1

/-- The bytes `xcalloc` hands out. -/
def xcalloc (n size : ℕ) : ℕ := max n 1*max size 1

/-- A store of `len` bytes at offset `start` of a block of `alloc` bytes. -/
def store (alloc start len : ℕ) : Rd Unit :=
  if start+len ≤ alloc then pure () else Run.fail .fault

/-- `r->src[i]` -/
def srcAt (i : ℕ) : Rd UInt8 := ⟨fun r =>
  match r.src[i]? with
  | some b => (.ok b, r)
  | none => (.error .fault, r)⟩

/-- The bytes `r->src[i]`, ..., `r->src[i+n-1]`. -/
def srcRange (i : ℕ) : ℕ → Rd Bytes
  | 0 => pure []
  | n+1 => do
    let b ← srcAt i
    let bs ← srcRange (i+1) n
    pure (b :: bs)

/-! ### Primitive reads -/

def setErr : Rd Unit := Run.update fun r => { r with err := true }

/-- `n` bytes of the source, or `none` with `err` set when fewer are left. -/
def rTake (n : ℕ) : Rd (Option Bytes) := do
  let r ← Run.read id
  if r.off+n > r.src.length then
    setErr
    pure none
  else
    let bs ← srcRange r.off n
    Run.update fun r => { r with off := r.off+n }
    pure (some bs)

/-- A little-endian number. -/
def leNat : Bytes → ℕ
  | [] => 0
  | b :: bs => b.toNat+256*leNat bs

/-- `r_u8` -/
def rU8 : Rd (Option UInt8) := do
  let bs ← rTake 1
  pure (bs.map fun b => (leNat b).toUInt8)

/-- `r_u32` -/
def rU32 : Rd (Option UInt32) := do
  let bs ← rTake 4
  pure (bs.map fun b => (leNat b).toUInt32)

/-- `r_bytes`, into a block of `alloc` bytes. -/
def rBytes (alloc n : ℕ) : Rd (Option Bytes) := do
  match ← rTake n with
  | none => pure none
  | some bs => do
    store alloc 0 n
    pure (some bs)

/-- The value of a local that was never assigned. -/
def unassigned : Rd ℕ :=
  ⟨fun r => (.ok (r.junk r.draws).toNat, { r with draws := r.draws+1 })⟩

/-- A local of `n` bytes that is read with the outcome ignored. -/
def rLocal (n : ℕ) : Rd ℕ := do
  match ← rTake n with
  | some bs => pure (leNat bs)
  | none => unassigned

/-- `uint8_t x; r_u8(r, &x);` -/
def u8 : Rd UInt8 := do pure (← rLocal 1).toUInt8

/-- `uint32_t x; r_u32(r, &x);` -/
def u32 : Rd UInt32 := do pure (← rLocal 4).toUInt32

/-- `int64_t x; r_i64(r, &x);` -/
def i64 : Rd Int64 := do pure (← rLocal 8).toUInt64.toInt64

/-- `double x; r_f64(r, &x);`, as the bits of the double. -/
def f64 : Rd UInt64 := do pure (← rLocal 8).toUInt64

/-- `(int)x` of a `uint32_t`. -/
def i32 : Rd Int32 := do pure (← u32).toInt32

/-- `xcalloc(n, size)` and the loop that fills the array, one element a round. -/
def fillFrom {α : Type} (alloc size : ℕ) (elem : Rd α) (i : ℕ) : ℕ → Rd (List α)
  | 0 => pure []
  | n+1 => do
    store alloc (i*size) size
    let a ← elem
    let as ← fillFrom alloc size elem (i+1) n
    pure (a :: as)

def fill {α : Type} (n size : ℕ) (elem : Rd α) : Rd (List α) :=
  fillFrom (xcalloc n size) size elem 0 n

/-- `flag ? read : NULL` -/
def onFlag {α : Type} (flag : UInt8) (elem : Rd α) (null : α) : Rd α :=
  if flag ≠ 0 then elem else pure null

/-! ### Expressions and statements -/

def noteExprTag (tag : UInt8) : Rd Unit :=
  Run.update fun r => { r with exprTags := tag :: r.exprTags }

def noteStmtTag (tag : UInt8) : Rd Unit :=
  Run.update fun r => { r with stmtTags := tag :: r.stmtTags }

/-- The `switch` of `read_expr`. An expression with an unknown tag never leaves the loader. -/
def readExprNode (readExpr : Rd Expr) (tag type lv : UInt8) : Rd Expr :=
  match tag.toNat with
  | 0 => do pure (.intLit type lv (← i64))
  | 1 => do pure (.floatLit type lv (← f64))
  | 2 => do pure (.stringLit type lv (← i32))
  | 3 => do pure (.ident type lv (← i32))
  | 4 => do
    let x ← readExpr
    let y ← readExpr
    let z ← readExpr
    pure (.vectorLit type lv x y z)
  | 5 => do
    let x ← readExpr
    let y ← readExpr
    let z ← readExpr
    let w ← readExpr
    pure (.rotLit type lv x y z w)
  | 6 => do
    let n ← u32
    let items ← fill n.toNat 8 readExpr
    pure (.listLit type lv items)
  | 7 => do
    let name ← i32
    let na ← u32
    let args ← fill na.toNat 8 readExpr
    pure (.call type lv name args)
  | 8 => do
    let base ← readExpr
    let m ← u8
    pure (.member type lv base m)
  | 9 => do
    let t ← u8
    let inner ← readExpr
    pure (.cast type lv t inner)
  | 10 => do
    let op ← u8
    let inner ← readExpr
    pure (.unary type lv op inner)
  | 11 => do
    let op ← u8
    let inner ← readExpr
    pure (.postfix_ type lv op inner)
  | 12 => do
    let op ← u8
    let l ← readExpr
    let r ← readExpr
    pure (.binary type lv op l r)
  | 13 => do
    let op ← u8
    let l ← readExpr
    let r ← readExpr
    pure (.assign type lv op l r)
  | _ => do
    setErr
    pure .null

/-- `read_expr` after its tag: the static type, `is_lvalue` and the node. -/
def readExprRest (readExpr : Rd Expr) (tag : UInt8) : Rd Expr :=
  if tag = 0xFF then pure .null
  else do
    match ← rU8 with
    | none => do setErr; pure .null
    | some type =>
      match ← rU8 with
      | none => do setErr; pure .null
      | some lv => readExprNode readExpr tag type lv

def readExprTagged (readExpr : Rd Expr) (tag : UInt8) : Rd Expr := do
  noteExprTag tag
  readExprRest readExpr tag

/-- A node that starts with a tag, `null` at the end of the source. -/
def tagged {α : Type} (null : α) (node : UInt8 → Rd α) : Rd α := do
  match ← rU8 with
  | none => pure null
  | some tag => node tag

/-- `read_expr`. Every nested call reads a tag first, so the fuel is never used up before the
source is. -/
def readExpr : ℕ → Rd Expr
  | 0 => Run.fail .fuel
  | n+1 => tagged .null (readExprTagged (readExpr n))

/-- A line word, in version 2 only. -/
def lineWord : Rd Int32 := do
  if (← Run.read Rdr.version) ≥ 2 then i32 else pure 0

/-- The `switch` of `read_stmt`. -/
def readStmtNode (readExpr : Rd Expr) (readStmt : Rd Stmt) (tag : UInt8) (line : Int32) :
    Rd Stmt :=
  match tag.toNat with
  | 0 => do pure (.expr line (← readExpr))
  | 1 => do
    let t ← u8
    let idx ← i32
    let hi ← u8
    let init ← onFlag hi readExpr .null
    pure (.decl line t idx init)
  | 2 => do
    let n ← u32
    let stmts ← fill n.toNat 8 readStmt
    pure (.block line stmts)
  | 3 => do
    let cond ← readExpr
    let then_ ← readStmt
    let he ← u8
    let else_ ← onFlag he readStmt .null
    pure (.if_ line cond then_ else_)
  | 4 => do
    let cond ← readExpr
    let body ← readStmt
    pure (.while_ line cond body)
  | 5 => do
    let body ← readStmt
    let cond ← readExpr
    pure (.do_ line body cond)
  | 6 => do
    let ni ← u8
    let init ← fill ni.toNat 8 readExpr
    let hc ← u8
    let cond ← onFlag hc readExpr .null
    let np ← u8
    let post ← fill np.toNat 8 readExpr
    let body ← readStmt
    pure (.for_ line init cond post body)
  | 7 => do
    let hv ← u8
    let e ← onFlag hv readExpr .null
    pure (.ret line hv e)
  | 8 => do pure (.jump line (← i32))
  | 9 => do pure (.label line (← i32))
  | 10 => do pure (.stateChg line (← i32))
  | 11 => pure (.empty line)
  | _ => do
    setErr
    pure .null

/-- `read_stmt` after its tag. -/
def readStmtRest (readExpr : Rd Expr) (readStmt : Rd Stmt) (tag : UInt8) : Rd Stmt :=
  if tag = 0xFF then pure .null
  else do
    let line ← lineWord
    readStmtNode readExpr readStmt tag line

def readStmtTagged (readExpr : Rd Expr) (readStmt : Rd Stmt) (tag : UInt8) : Rd Stmt := do
  noteStmtTag tag
  readStmtRest readExpr readStmt tag

/-- `read_stmt` -/
def readStmt : ℕ → Rd Stmt
  | 0 => Run.fail .fuel
  | n+1 => tagged .null (readStmtTagged (readExpr n) (readStmt n))

/-! ### Programs -/

/-- `if (l) r_bytes(&r, p->strings[i], l)` -/
def readChars (alloc : ℕ) (l : UInt32) : Rd (Option Bytes) :=
  if l ≠ 0 then rBytes alloc l.toNat else pure none

/-- One string of the pool. The size of the block is computed in 32 bits, the index of the
terminator is not. -/
def readString : Rd Bytes := do
  let l ← u32
  let s ← readChars (xmalloc (l+1).toNat) l
  store (xmalloc (l+1).toNat) l.toNat 1
  pure (cstr (s.getD []))

def readGlobal (fuel : ℕ) : Rd GlobalVar := do
  let t ← u8
  let idx ← i32
  let hi ← u8
  let init ← onFlag hi (readExpr fuel) .null
  pure ⟨t, idx, init⟩

def readParam : Rd Param := do
  let pt ← u8
  let pn ← i32
  pure ⟨pt, pn⟩

def readFunc (fuel : ℕ) : Rd FuncDecl := do
  let name ← i32
  let line ← lineWord
  let ret ← u8
  let hr ← u8
  let np ← u8
  let params ← fill np.toNat 8 readParam
  let body ← readStmt fuel
  pure ⟨name, line, ret, hr, params, body⟩

def readEvent (fuel : ℕ) : Rd EventDecl := do
  let name ← i32
  let line ← lineWord
  let np ← u8
  let params ← fill np.toNat 8 readParam
  let body ← readStmt fuel
  pure ⟨name, line, params, body⟩

def readState (fuel : ℕ) : Rd StateDecl := do
  let name ← i32
  let line ← lineWord
  let isd ← u8
  let ne ← u32
  let events ← fill ne.toNat 32 (readEvent fuel)
  pure ⟨name, line, isd, events⟩

/-- `n` and the array of `n` elements that follows it. -/
def readTable {α : Type} (size : ℕ) (elem : Rd α) : Rd (List α) := do
  let n ← u32
  fill n.toNat size elem

/-- What follows the string pool. -/
def readDecls (fuel : ℕ) (strings : List Bytes) (flags : Int32) : Rd Program := do
  let globals ← readTable 16 (readGlobal fuel)
  let funcs ← readTable 40 (readFunc fuel)
  let states ← readTable 24 (readState fuel)
  pure ⟨strings, globals, funcs, states, flags⟩

/-- What follows the header. -/
def readProgram (fuel : ℕ) (flags : Int32) : Rd Program := do
  let strings ← readTable 8 readString
  readDecls fuel strings flags

/-- `SLBC\0` -/
def magicBytes : Bytes := [83, 76, 66, 67, 0]

/-- The version and the flags, if the version is one that the loader knows. -/
def readVersion : Rd (Option Int32) := do
  match ← rU32 with
  | none => pure none
  | some ver =>
    match ← rU32 with
    | none => pure none
    | some flags => do
      Run.update fun r => { r with version := ver }
      if ver.toInt32 < 1 ∨ ver.toInt32 > 2 then pure none else pure (some flags.toInt32)

/-- The header: the flags of a file that the loader reads on in. -/
def readHeader : Rd (Option Int32) := do
  match ← rBytes 5 5 with
  | none => pure none
  | some magic => if magic ≠ magicBytes then pure none else readVersion

/-- `program_load` on the contents of the file: `none` is the result 0. -/
def load : Rd (Option Program) := do
  match ← readHeader with
  | none => pure none
  | some flags =>
    let fuel ← Run.read fun r => r.src.length+1
    let p ← readProgram fuel flags
    if ← Run.read Rdr.err then pure none else pure (some p)

def openRdr (src : Bytes) (junk : ℕ → UInt64) : Rdr :=
  ⟨src, 0, false, 1, junk, 0, [], []⟩

def programLoad (src : Bytes) (junk : ℕ → UInt64) : Except Stop (Option Program) :=
  (load (openRdr src junk)).1

/-- The reader as `program_load` leaves it. -/
def loadedRdr (src : Bytes) (junk : ℕ → UInt64) : Rdr := (load (openRdr src junk)).2

end Slemu
