import Slemu.Operators
import Slemu.Builtins
import Slemu.RunLogic

/-! The tree-walking interpreter (vm.c). Recursion takes fuel here; a run that the fuel cuts short
says nothing. -/

namespace Slemu
variable {F : Type}

/-! ### Frames and cells -/

/-- A new frame with its parameters bound. -/
def Frame.new (locs : List (LocalBinding F)) : Frame F :=
  ⟨locs, 0, false, .void, false, 0⟩

/-- A storage cell: a binding of the current frame, counted from the last, or a global. -/
inductive Cell
  | loc (k : ℕ)
  | glob (i : ℕ)

/-- `Lval`: no storage, a cell, or a component of a cell. -/
inductive Lval
  | none
  | cell (c : Cell)
  | member (base : Cell) (axis : UInt8)

namespace World

/-- `g_frame` -/
def frame (w : World F) : Option (Frame F) := w.frames.head?

def modFrame (w : World F) (f : Frame F → Frame F) : World F :=
  { w with frames := w.frames.modifyHead f }

/-- `frame_push` of a frame with its parameters bound. -/
def framePush (w : World F) (locs : List (LocalBinding F)) : World F :=
  { w with frames := Frame.new locs :: w.frames }

/-- `frame_pop` -/
def framePop (w : World F) : World F := { w with frames := w.frames.tail }

/-- `frame_define` -/
def frameDefine (w : World F) (nameIdx : Int32) (v : SValue F) (t : UInt8) : World F :=
  w.modFrame fun f => { f with locs := ⟨nameIdx, v, f.scopeDepth, t⟩ :: f.locs }

/-- `frame_enter` -/
def frameEnter (w : World F) : World F :=
  w.modFrame fun f => { f with scopeDepth := f.scopeDepth+1 }

/-- `frame_leave` -/
def frameLeave (w : World F) : World F :=
  w.modFrame fun f => { f with
    scopeDepth := f.scopeDepth-1,
    locs := f.locs.dropWhile fun b => f.scopeDepth-1 < b.scopeDepth }

/-- `g_frame && g_frame->returning` -/
def returning (w : World F) : Bool := w.frame.any Frame.returning

/-- `g_frame && g_frame->jumping` -/
def jumping (w : World F) : Bool := w.frame.any Frame.jumping

variable [CDouble F]

/-- `s->pending_state >= 0` -/
def changing (w : World F) (s : ℕ) : Bool := (w.script s).pendingState.isSome

/-- What an identifier is bound to: the last binding of the frame, then the first global. -/
def findCell (w : World F) (s : ℕ) (idx : Int32) : Option Cell :=
  match w.frame.bind fun f => f.locs.findIdx? fun b => b.nameIdx = idx with
  | some k => some (.loc k)
  | none => ((w.script s).prog.globals.findIdx? fun g => g.nameIdx = idx).map .glob

def cellVal (w : World F) (s : ℕ) : Cell → SValue F
  | .loc k => ((w.frame.bind fun f => f.locs[k]?).map LocalBinding.val).getD .void
  | .glob i => (w.script s).globals.getD i .void

def setCell (w : World F) (s : ℕ) (c : Cell) (v : SValue F) : World F :=
  match c with
  | .loc k => w.modFrame fun f => { f with locs := f.locs.modify k fun b => { b with val := v } }
  | .glob i => w.modScript s fun t => { t with globals := t.globals.set i v }

/-- `resolve_lvalue` -/
def resolveLvalue (w : World F) (s : ℕ) : Expr → Lval
  | .ident _ _ idx => match w.findCell s idx with
    | some c => .cell c
    | none => .none
  | .member _ _ base m => match w.resolveLvalue s base with
    | .cell c => .member c m
    | _ => .none
  | _ => .none

/-- The current value that a compound assignment starts from. -/
def lvalueVal (w : World F) (s : ℕ) : Lval → SValue F
  | .cell c => w.cellVal s c
  | .member c axis => match w.cellVal s c with
    | .vec x y z => .float (SValue.axis axis x y z)
    | _ => .void
  | .none => .void

/-- `E_IDENT` -/
def identVal (w : World F) (s : ℕ) (idx : Int32) : SValue F :=
  match w.findCell s idx with
  | some c => w.cellVal s c
  | none => builtinsConst ((w.script s).prog.str idx)

end World

/-! ### The machine -/

/-- What the interpreter does, noted for the statements below only. -/
inductive Mark (F : Type)
  | exec (s : ℕ) (st : Stmt)
  | value (s : ℕ) (e : Expr) (v : SValue F)
  | operands (op : UInt8) (l r : SValue F)
  | builtin (s : ℕ) (name : Bytes) (v : SValue F)
  | returned (s : ℕ) (fd : FuncDecl) (returning : Bool) (v : SValue F)

/-- The world with `t_start` of `region_run`, and the marks made so far, each with the world of
its moment, newest first. -/
structure Machine (F : Type) where
  world : World F
  tStart : F
  log : List (Mark F × World F)

abbrev VM (F α : Type) := Run (Machine F) α

namespace VM
variable {α : Type}

def get (f : World F → α) : VM F α := Run.read fun m => f m.world

def set (f : World F → World F) : VM F Unit :=
  Run.update fun m => { m with world := f m.world }

def call (f : World F → α × World F) : VM F α :=
  Run.act fun m => ((f m.world).1, { m with world := (f m.world).2 })

def mark (k : Mark F) : VM F Unit :=
  Run.update fun m => { m with log := (k, m.world) :: m.log }

/-- A result that C may leave undefined. -/
def defined : Option α → VM F α
  | some a => pure a
  | none => Run.fail .fault

end VM

/-- The recursive calls of the interpreter, for one script. `block all rest` runs the statements
`rest` of a block that has the statements `all`. -/
structure Interp (F : Type) where
  eval : Expr → VM F (SValue F)
  exec : Stmt → VM F Unit
  block : List Stmt → List Stmt → VM F Unit

/-! ### Expressions -/

def evalAll (eval : Expr → VM F (SValue F)) : List Expr → VM F (List (SValue F))
  | [] => pure []
  | e :: es => do
    let v ← eval e
    let vs ← evalAll eval es
    pure (v :: vs)

variable [CDouble F]

/-- A pool string as a value of the static type of its literal. No other type fits a string. -/
def stringValue (type : UInt8) (str : Bytes) : Option (SValue F) :=
  if type = SV.string then some (.string str)
  else if type = SV.key then some (.key str)
  else if type = SV.void then some .void
  else none

/-- `x.u.f` of a component coerced to float. -/
def compOf (v : SValue F) : Option F := (coerce v SV.float).floatField

def vecOf (x y z : SValue F) : Option (SValue F) := do
  pure (.vec (← compOf x) (← compOf y) (← compOf z))

def rotOf (x y z w : SValue F) : Option (SValue F) := do
  pure (.rot (← compOf x) (← compOf y) (← compOf z) (← compOf w))

/-- A call of `eval_binary`. -/
def binary (op : UInt8) (l r : SValue F) : VM F (SValue F) := do
  VM.mark (.operands op l r)
  VM.defined (evalBinary op l r)

/-- `++` and `--` in front. A component of anything but a vector is written through `NULL`. -/
def evalPrefix (s : ℕ) (op : UInt8) (inner : Expr) : VM F (SValue F) := do
  match ← VM.get fun w => w.resolveLvalue s inner with
  | .none => pure (.int 0)
  | .member c axis =>
    match ← VM.get fun w => w.cellVal s c with
    | .vec x y z => do
      let (f, v) := SValue.bumpAxis op axis x y z
      VM.set fun w => w.setCell s c v
      pure (.float f)
    | _ => Run.fail .fault
  | .cell c => do
    let v ← VM.defined (bump op (← VM.get fun w => w.cellVal s c))
    VM.set fun w => w.setCell s c v
    pure v

/-- `++` and `--` behind. A component is left as it is. -/
def evalPostfix (s : ℕ) (op : UInt8) (inner : Expr) : VM F (SValue F) := do
  match ← VM.get fun w => w.resolveLvalue s inner with
  | .cell c => do
    let old ← VM.get fun w => w.cellVal s c
    let v ← VM.defined (bump op old)
    VM.set fun w => w.setCell s c v
    pure old
  | _ => pure (.int 0)

/-- The conversion of an assigned value to the type that its cell holds now. -/
def storeVal (old rhs : SValue F) : SValue F :=
  coerce rhs (if old.tag = SV.void ∧ rhs.tag ≠ SV.void then rhs.tag else old.tag)

/-- The number that an assigned value gives a component. -/
def storeComp (rhs : SValue F) : F :=
  match coerce rhs SV.float with
  | .float f => f
  | .int i => CDouble.ofInt i
  | _ => CDouble.zero

/-- The store of `E_ASSIGN`, once the value is known. -/
def assignTo (s : ℕ) (lv : Lval) (rhs : SValue F) : VM F (SValue F) := do
  match lv with
  | .none => pure rhs
  | .cell c => do
    let old ← VM.get fun w => w.cellVal s c
    VM.set fun w => w.setCell s c (storeVal old rhs)
    pure (storeVal old rhs)
  | .member c axis => do
    let base ← VM.get fun w => w.cellVal s c
    if base.tag = SV.vector ∨ base.tag = SV.rotation then
      VM.set fun w => w.setCell s c (base.setComponent axis (storeComp rhs))
      pure (coerce rhs SV.float)
    else pure rhs

/-- `E_ASSIGN`. The cell is found before the right side is evaluated. -/
def evalAssign (r : Interp F) (s : ℕ) (op : UInt8) (l e : Expr) : VM F (SValue F) := do
  let lv ← VM.get fun w => w.resolveLvalue s l
  let rhs ← r.eval e
  if op = Op.assign then assignTo s lv rhs
  else do
    let cur ← VM.get fun w => w.lvalueVal s lv
    let v ← binary (compoundOp op) cur rhs
    assignTo s lv v

/-- `&&` and `||`, which evaluate the right side only if `go` says so of the left. -/
def evalShort (r : Interp F) (go : Bool → Bool) (l e : Expr) : VM F (SValue F) := do
  let a ← r.eval l
  if go (svTruthy a) then do
    let b ← r.eval e
    pure (.ofBool (svTruthy b))
  else pure (.ofBool (svTruthy a))

/-- The parameters of a call, evaluated from left to right; arguments without a parameter are not
evaluated. -/
def bindParams (eval : Expr → VM F (SValue F)) :
    List Param → List Expr → List (LocalBinding F) → VM F (List (LocalBinding F))
  | p :: ps, e :: es, locs => do
    let v ← eval e
    bindParams eval ps es (⟨p.nameIdx, coerce v p.type, 0, p.type⟩ :: locs)
  | _, _, locs => pure locs

/-- `run_user_func` -/
def runUserFunc (r : Interp F) (s : ℕ) (fd : FuncDecl) (args : List Expr) :
    VM F (SValue F) := do
  let locs ← bindParams r.eval fd.params args []
  VM.set fun w => w.framePush locs
  r.exec fd.body
  let v ← VM.get fun w => (w.frame.map Frame.retVal).getD .void
  let returning ← VM.get World.returning
  VM.set World.framePop
  VM.mark (.returned s fd returning v)
  pure v

/-- One global of a script gets the value of its initialiser; without one it gets `zero`, if that
is given. -/
def initGlobal (r : Interp F) (s i : ℕ) (g : GlobalVar) (zero : Option (SValue F)) :
    VM F Unit :=
  if g.init.isNull then match zero with
    | some v => VM.set fun w => w.setCell s (.glob i) v
    | none => pure ()
  else do
    let v ← r.eval g.init
    VM.set fun w => w.setCell s (.glob i) v

/-- The second loop of `bi_llResetScript`. -/
def resetGlobals (r : Interp F) (s : ℕ) : List (GlobalVar × ℕ) → VM F Unit
  | [] => pure ()
  | (g, i) :: gs => do
    initGlobal r s i g none
    resetGlobals r s gs

/-- The first default state. -/
def Program.defaultState (p : Program) : Option ℕ :=
  p.states.findIdx? fun st => st.isDefault ≠ 0

/-- `bi_llResetScript` -/
def llResetScript (r : Interp F) (s : ℕ) : VM F (SValue F) := do
  VM.set fun w => w.modScript s fun t => { t with globals := t.globals.map fun _ => .void }
  let p ← VM.get fun w => (w.script s).prog
  resetGlobals r s p.globals.zipIdx
  VM.set fun w => w.modScript s fun t => { t.flush .reset with
    curState := match p.defaultState with
      | some i => some i
      | none => t.curState }
  VM.set fun w => w.pushEvent s (lit "state_entry") []
  pure .void

/-- The builtin of a name on its arguments; a stub for an unknown one. -/
def callBuiltin (lib : Lib F) (r : Interp F) (s : ℕ) (name : Bytes) (args : List (SValue F)) :
    VM F (SValue F) :=
  if name = lit "llResetScript" then llResetScript r s
  else match builtinsLookup lib name with
    | some f => VM.call fun w => f w s args
    | none => pure .void

/-- `eval_call` -/
def evalCall (lib : Lib F) (r : Interp F) (s : ℕ) (nameIdx : Int32) (args : List Expr) :
    VM F (SValue F) := do
  let p ← VM.get fun w => (w.script s).prog
  match p.funcs.find? fun fd => fd.nameIdx = nameIdx with
  | some fd => runUserFunc r s fd args
  | none => do
    let vs ← evalAll r.eval args
    let v ← callBuiltin lib r s (p.str nameIdx) vs
    VM.mark (.builtin s (p.str nameIdx) v)
    pure v

/-- The `switch` of `vm_eval`. -/
def evalNode (lib : Lib F) (r : Interp F) (s : ℕ) : Expr → VM F (SValue F)
  | .null => pure .void
  | .intLit _ _ n => pure (.int n.toInt)
  | .floatLit _ _ bits => pure (.float (CDouble.ofBits bits))
  | .stringLit type _ idx => do
    VM.defined (stringValue type (← VM.get fun w => (w.script s).prog.str idx))
  | .ident _ _ idx => VM.get fun w => w.identVal s idx
  | .vectorLit _ _ x y z => do
    let x ← r.eval x
    let y ← r.eval y
    let z ← r.eval z
    VM.defined (vecOf x y z)
  | .rotLit _ _ x y z w => do
    let x ← r.eval x
    let y ← r.eval y
    let z ← r.eval z
    let w ← r.eval w
    VM.defined (rotOf x y z w)
  | .listLit _ _ items => do
    let vs ← evalAll r.eval items
    pure (.list vs)
  | .call _ _ name args => evalCall lib r s name args
  | .member _ _ base m => do
    let b ← r.eval base
    pure (.float (b.component m))
  | .cast _ _ target inner => do
    let v ← r.eval inner
    pure (doCast v target)
  | .unary _ _ op inner =>
    if op = Op.inc ∨ op = Op.dec then evalPrefix s op inner
    else do
      let v ← r.eval inner
      VM.defined (evalUnary op v)
  | .postfix_ _ _ op inner => evalPostfix s op inner
  | .binary _ _ op l e =>
    if op = Op.land then evalShort r id l e
    else if op = Op.lor then evalShort r not l e
    else do
      let a ← r.eval l
      let b ← r.eval e
      binary op a b
  | .assign _ _ op l e => evalAssign r s op l e

/-! ### Statements -/

/-- The bound of the loops. -/
def safety : ℕ := 1000000

/-- The tests after the body of a loop. -/
def leavesLoop (s : ℕ) : VM F Bool :=
  VM.get fun w => w.returning || w.jumping || w.changing s

/-- `S_WHILE`, with the rounds that `safety` leaves. -/
def whileLoop (r : Interp F) (s : ℕ) (cond : Expr) (body : Stmt) : ℕ → VM F Unit
  | 0 => pure ()
  | n+1 => do
    let c ← r.eval cond
    if svTruthy c then do
      r.exec body
      if ← leavesLoop s then pure () else whileLoop r s cond body n
    else pure ()

/-- `S_DO` -/
def doLoop (r : Interp F) (s : ℕ) (body : Stmt) (cond : Expr) : ℕ → VM F Unit
  | 0 => pure ()
  | n+1 => do
    r.exec body
    if ← leavesLoop s then pure ()
    else do
      let c ← r.eval cond
      if svTruthy c then doLoop r s body cond n else pure ()

/-- The test of a `for`, true if there is none. -/
def forTest (r : Interp F) (cond : Expr) : VM F Bool :=
  if cond.isNull then pure true
  else do
    let c ← r.eval cond
    pure (svTruthy c)

/-- The loop of `S_FOR`. -/
def forLoop (r : Interp F) (s : ℕ) (cond : Expr) (post : List Expr) (body : Stmt) :
    ℕ → VM F Unit
  | 0 => pure ()
  | n+1 => do
    if ← forTest r cond then do
      r.exec body
      if ← leavesLoop s then pure ()
      else do
        let _ ← evalAll r.eval post
        forLoop r s cond post body n
    else pure ()

/-- The value of a declared variable, the zero of its type if the initialiser gives none. -/
def declVal (t : UInt8) (v : SValue F) : SValue F :=
  if v.tag = SV.void then svZero t else coerce v t

/-- `find_label_in` -/
def findLabelIn (stmts : List Stmt) (nameIdx : Int32) : Option ℕ :=
  stmts.findIdx? fun st => match st with
    | .label _ idx => idx = nameIdx
    | _ => false

/-- What the loop of `S_BLOCK` does after a statement. A jump to a label of the block goes on
behind the label. -/
def blockNext (r : Interp F) (s : ℕ) (all rest : List Stmt) : VM F Unit := do
  if ← VM.get World.returning then pure ()
  else if ← VM.get fun w => w.changing s then pure ()
  else if ← VM.get World.jumping then do
    let idx ← VM.get fun w => (w.frame.map Frame.jumpNameIdx).getD 0
    match findLabelIn all idx with
    | some k => do
      VM.set fun w => w.modFrame fun f => { f with jumping := false }
      r.block all (all.drop (k+1))
    | none => pure ()
  else r.block all rest

def blockFrom (r : Interp F) (s : ℕ) (all : List Stmt) : List Stmt → VM F Unit
  | [] => pure ()
  | st :: rest => do
    r.exec st
    blockNext r s all rest

/-- The state that a `state` statement asks for. -/
def Program.stateNamed (p : Program) (want : Bytes) : Option ℕ :=
  p.states.findIdx? fun st => p.str st.nameIdx = want

/-- The `switch` of `vm_exec`. -/
def execNode (r : Interp F) (s : ℕ) : Stmt → VM F Unit
  | .null => pure ()
  | .empty _ => pure ()
  | .expr _ e => do
    let _ ← r.eval e
    pure ()
  | .decl _ t idx init => do
    let v ← r.eval init
    VM.set fun w => w.frameDefine idx (declVal t v) t
  | .block _ stmts => do
    VM.set World.frameEnter
    r.block stmts stmts
    VM.set World.frameLeave
  | .if_ _ cond then_ else_ => do
    let c ← r.eval cond
    if svTruthy c then r.exec then_ else r.exec else_
  | .while_ _ cond body => whileLoop r s cond body safety
  | .do_ _ body cond => doLoop r s body cond safety
  | .for_ _ init cond post body => do
    VM.set World.frameEnter
    let _ ← evalAll r.eval init
    forLoop r s cond post body safety
    VM.set World.frameLeave
  | .ret _ hasValue e => do
    if ← VM.get fun w => w.frame.isSome && hasValue ≠ 0 then do
      let v ← r.eval e
      VM.set fun w => w.modFrame fun f => { f with retVal := v, returning := true }
    else VM.set fun w => w.modFrame fun f => { f with returning := true }
  | .jump _ idx =>
    VM.set fun w => w.modFrame fun f => { f with jumping := true, jumpNameIdx := idx }
  | .label _ _ => pure ()
  | .stateChg _ idx => do
    let p ← VM.get fun w => (w.script s).prog
    match p.stateNamed (p.str idx) with
    | some i => VM.set fun w => w.modScript s fun t => { t with pendingState := some i }
    | none => pure ()

/-- The guard in front of the `switch` of `vm_exec`. -/
def execStmt (r : Interp F) (s : ℕ) (st : Stmt) : VM F Unit := do
  if ← VM.get fun w => w.returning || w.jumping then pure ()
  else do
    VM.mark (.exec s st)
    execNode r s st

def evalExpr (lib : Lib F) (r : Interp F) (s : ℕ) (e : Expr) : VM F (SValue F) := do
  let v ← evalNode lib r s e
  VM.mark (.value s e v)
  pure v

/-- `vm_eval` and `vm_exec` for a script. -/
def interp (lib : Lib F) (s : ℕ) : ℕ → Interp F
  | 0 => ⟨fun _ => Run.fail .fuel, fun _ => Run.fail .fuel, fun _ _ => Run.fail .fuel⟩
  | n+1 => ⟨evalExpr lib (interp lib s n) s, execStmt (interp lib s n) s,
      blockFrom (interp lib s n) s⟩

/-- The parameters of a handler, from the arguments of the event. -/
def bindArgs (params : List Param) (args : List (SValue F)) : List (LocalBinding F) :=
  ((params.zip args).map fun (p, v) => ⟨p.nameIdx, coerce v p.type, 0, p.type⟩).reverse

/-- `vm_dispatch` -/
def vmDispatch (lib : Lib F) (s fuel : ℕ) (ev : EventDecl) (args : List (SValue F)) :
    VM F Unit := do
  VM.set fun w => w.framePush (bindArgs ev.params args)
  (interp lib s fuel).exec ev.body
  VM.set World.framePop

end Slemu
