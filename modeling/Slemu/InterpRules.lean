import Slemu.Vm

/-! Rules for the interpreter: whatever relation between programs goes through sequences and
through the small steps of the interpreter holds between two interpreters whose recursive calls are
in that relation. -/

namespace Slemu
variable {F : Type} [CDouble F]

/-- The mark at the beginning of a statement. -/
def Mark.isExec : Mark F → Bool
  | .exec _ _ => true
  | _ => false

/-! ### What the interpreter looks at -/

/-- A look at the running frame and at the script only. -/
def Local (s : ℕ) {α : Type} (f : World F → α) : Prop :=
  ∀ w w' : World F, w'.frame = w.frame → w'.script s = w.script s → f w' = f w

namespace Local
variable {s : ℕ}

theorem prog : Local s fun w : World F => (w.script s).prog := fun _ _ _ hs => by simp only [hs]

theorem str (idx : Int32) : Local s fun w : World F => (w.script s).prog.str idx :=
  fun _ _ _ hs => by simp only [hs]

theorem returning : Local s (World.returning : World F → Bool) :=
  fun _ _ hf _ => by simp only [World.returning, hf]

theorem jumping : Local s (World.jumping : World F → Bool) :=
  fun _ _ hf _ => by simp only [World.jumping, hf]

theorem changing : Local s fun w : World F => w.changing s :=
  fun _ _ _ hs => by simp only [World.changing, hs]

theorem unwinding : Local s fun w : World F => w.returning || w.jumping :=
  fun _ _ hf _ => by simp only [World.returning, World.jumping, hf]

theorem leaving : Local s fun w : World F => w.returning || w.jumping || w.changing s :=
  fun _ _ hf hs => by simp only [World.returning, World.jumping, World.changing, hf, hs]

theorem retVal : Local s fun w : World F => (w.frame.map Frame.retVal).getD .void :=
  fun _ _ hf _ => by simp only [hf]

theorem jumpNameIdx : Local s fun w : World F => (w.frame.map Frame.jumpNameIdx).getD 0 :=
  fun _ _ hf _ => by simp only [hf]

theorem hasFrame (b : Bool) : Local s fun w : World F => w.frame.isSome && b :=
  fun _ _ hf _ => by simp only [hf]

theorem findCell (idx : Int32) : Local s fun w : World F => w.findCell s idx :=
  fun _ _ hf hs => by simp only [World.findCell, hf, hs]

theorem cellVal (c : Cell) : Local s fun w : World F => w.cellVal s c := by
  intro w w' hf hs
  cases c with
  | loc k => simp only [World.cellVal, hf]
  | glob i => simp only [World.cellVal, hs]

theorem lvalueVal (lv : Lval) : Local s fun w : World F => w.lvalueVal s lv := by
  intro w w' hf hs
  cases lv with
  | none => rfl
  | cell c => exact cellVal c w w' hf hs
  | member c axis => simp only [World.lvalueVal, cellVal c w w' hf hs]

theorem identVal (idx : Int32) : Local s fun w : World F => w.identVal s idx := by
  intro w w' hf hs
  simp only [World.identVal, findCell idx w w' hf hs, hs]
  cases w.findCell s idx with
  | none => rfl
  | some c => exact cellVal c w w' hf hs

theorem resolveLvalue : ∀ e : Expr, Local s fun w : World F => w.resolveLvalue s e
  | .ident _ _ idx => fun w w' hf hs => by
    simp only [World.resolveLvalue, findCell idx w w' hf hs]
  | .member _ _ base _ => fun w w' hf hs => by
    simp only [World.resolveLvalue, resolveLvalue base w w' hf hs]
  | .null | .intLit .. | .floatLit .. | .stringLit .. | .vectorLit .. | .rotLit .. | .listLit ..
  | .call .. | .cast .. | .unary .. | .postfix_ .. | .binary .. | .assign .. => fun _ _ _ _ => rfl

end Local

/-! ### Calls -/

/-- A call of a function with its parameters bound. -/
def callFunc (r : Interp F) (s : ℕ) (fd : FuncDecl) (locs : List (LocalBinding F)) :
    VM F (SValue F) := do
  VM.set fun w => w.framePush locs
  r.exec fd.body
  let v ← VM.get fun w => (w.frame.map Frame.retVal).getD .void
  let returning ← VM.get World.returning
  VM.set World.framePop
  VM.mark (.returned s fd returning v)
  pure v

theorem bindParams_eq (eval : Expr → VM F (SValue F)) (ps : List Param) (es : List Expr)
    (locs : List (LocalBinding F)) : bindParams eval ps es locs =
      evalAll eval (es.take ps.length) >>= fun vs => pure (bindArgs ps vs ++ locs) := by
  induction ps generalizing es locs with
  | nil => rfl
  | cons p ps ih =>
    cases es with
    | nil => rfl
    | cons e es =>
      simp only [bindParams, List.length_cons, List.take_succ_cons, evalAll, bind_assoc, pure_bind,
        ih]
      refine bind_congr fun v => bind_congr fun vs => ?_
      simp [bindArgs]

/-- A call evaluates as many arguments as there are parameters, from left to right, and then calls
the function on their values. -/
theorem runUserFunc_eq (r : Interp F) (s : ℕ) (fd : FuncDecl) (args : List Expr) :
    runUserFunc r s fd args = evalAll r.eval (args.take fd.params.length) >>= fun vs =>
      callFunc r s fd (bindArgs fd.params vs) := by
  have h : runUserFunc r s fd args = bindParams r.eval fd.params args [] >>= callFunc r s fd := rfl
  rw [h, bindParams_eq, bind_assoc]
  simp only [List.append_nil, pure_bind]

/-! ### Rules -/

/-- A relation between programs. -/
abbrev ProgRel (F : Type) := ∀ {α : Type}, VM F α → VM F α → Prop

/-- The bindings of a frame and its scope depth. -/
def Frame.scope (f : Frame F) : List (LocalBinding F) × ℤ := (f.locs, f.scopeDepth)

/-- The rules for sequences and for the steps that do not call the interpreter again and leave the
scopes alone. -/
structure Steps (s : ℕ) (P : ProgRel F) : Prop where
  pure {α : Type} (a : α) : P (pure a : VM F α) (pure a)
  fail {α : Type} (e : Stop) : P (Run.fail e : VM F α) (Run.fail e)
  bind {α β : Type} {m n : VM F α} {f g : α → VM F β} :
    P m n → (∀ a, P (f a) (g a)) → P (m >>= f) (n >>= g)
  get {α : Type} {f : World F → α} : Local s f → P (VM.get f) (VM.get f)
  mark (k : Mark F) : k.isExec = false → P (VM.mark k) (VM.mark k)
  setCell (c : Cell) (v : SValue F) :
    P (VM.set fun w => w.setCell s c v) (VM.set fun w => w.setCell s c v)
  flags {f : Frame F → Frame F} : (∀ fr, (f fr).scope = fr.scope) →
    P (VM.set fun w => w.modFrame f) (VM.set fun w => w.modFrame f)

/-- The same, with the steps that enter and leave scopes and declare variables. -/
structure Closed (s : ℕ) (P : ProgRel F) : Prop extends Steps s P where
  define (idx : Int32) (v : SValue F) (t : UInt8) :
    P (VM.set fun w => w.frameDefine idx v t) (VM.set fun w => w.frameDefine idx v t)
  enter : P (VM.set World.frameEnter) (VM.set World.frameEnter)
  leave : P (VM.set World.frameLeave) (VM.set World.frameLeave)

/-- Recursive calls of `vm_eval` in that relation. -/
structure Interp.Evals (P : ProgRel F) (r r' : Interp F) : Prop where
  eval (e : Expr) : P (r.eval e) (r'.eval e)

/-- Recursive calls in that relation. -/
structure Interp.Related (P : ProgRel F) (r r' : Interp F) : Prop extends r.Evals P r' where
  exec (st : Stmt) : P (r.exec st) (r'.exec st)
  block (all rest : List Stmt) : P (r.block all rest) (r'.block all rest)

/-- `state` statements ask for a change of state. -/
def Stmt.isStateChg : Stmt → Bool
  | .stateChg _ _ => true
  | _ => false

/-- The rules for all of the interpreter: the steps in which a frame is pushed, a builtin runs or a
statement begins have rules of their own. -/
structure Handles (lib : Lib F) (s : ℕ) (P : ProgRel F) : Prop extends Closed s P where
  func {r r' : Interp F} : r.Related P r' → ∀ fd args,
    P (runUserFunc r s fd args) (runUserFunc r' s fd args)
  builtin {r r' : Interp F} : r.Related P r' → ∀ name args,
    P (callBuiltin lib r s name args) (callBuiltin lib r' s name args)
  stmt {r r' : Interp F} : r.Related P r' → ∀ st,
    (st.isStateChg = false → P (execNode r s st) (execNode r' s st)) →
    P (VM.mark (.exec s st) >>= fun _ => execNode r s st)
      (VM.mark (.exec s st) >>= fun _ => execNode r' s st)

namespace Steps
variable {s : ℕ} {P : ProgRel F} {r r' : Interp F} {α : Type}

theorem defined (h : Steps s P) (o : Option α) : P (VM.defined o : VM F α) (VM.defined o) := by
  cases o with
  | none => exact h.fail .fault
  | some a => exact h.pure a

theorem ite (_ : Steps s P) {c : Prop} [Decidable c] {m m' n n' : VM F α} (hm : P m n)
    (hm' : P m' n') : P (if c then m else m') (if c then n else n') := by
  split
  · exact hm
  · exact hm'

theorem evalAll (h : Steps s P) {f g : Expr → VM F (SValue F)} (hf : ∀ e, P (f e) (g e))
    (es : List Expr) : P (evalAll f es) (evalAll g es) := by
  induction es with
  | nil => exact h.pure []
  | cons e es ih => exact h.bind (hf e) fun v => h.bind ih fun vs => h.pure (v :: vs)

theorem binary (h : Steps s P) (op : UInt8) (a b : SValue F) :
    P (binary op a b) (binary op a b) :=
  h.bind (h.mark _ rfl) fun _ => h.defined _

theorem evalPrefix (h : Steps s P) (op : UInt8) (inner : Expr) :
    P (evalPrefix s op inner : VM F _) (evalPrefix s op inner) := by
  refine h.bind (h.get (.resolveLvalue inner)) fun lv => ?_
  cases lv with
  | none => exact h.pure _
  | member c axis =>
    refine h.bind (h.get (.cellVal c)) fun v => ?_
    cases v with
    | vec x y z => exact h.bind (h.setCell _ _) fun _ => h.pure _
    | _ => exact h.fail .fault
  | cell c =>
    exact h.bind (h.get (.cellVal c)) fun _ => h.bind (h.defined _) fun _ =>
      h.bind (h.setCell _ _) fun _ => h.pure _

theorem evalPostfix (h : Steps s P) (op : UInt8) (inner : Expr) :
    P (evalPostfix s op inner : VM F _) (evalPostfix s op inner) := by
  refine h.bind (h.get (.resolveLvalue inner)) fun lv => ?_
  cases lv with
  | cell c =>
    exact h.bind (h.get (.cellVal c)) fun _ => h.bind (h.defined _) fun _ =>
      h.bind (h.setCell _ _) fun _ => h.pure _
  | _ => exact h.pure _

theorem assignTo (h : Steps s P) (lv : Lval) (rhs : SValue F) :
    P (assignTo s lv rhs) (assignTo s lv rhs) := by
  cases lv with
  | none => exact h.pure rhs
  | cell c => exact h.bind (h.get (.cellVal c)) fun _ => h.bind (h.setCell _ _) fun _ => h.pure _
  | member c axis =>
    exact h.bind (h.get (.cellVal c)) fun _ =>
      h.ite (h.bind (h.setCell _ _) fun _ => h.pure _) (h.pure _)

section
variable (h : Steps s P) (hr : r.Evals P r')
include h hr

theorem evalAssign (op : UInt8) (l e : Expr) :
    P (evalAssign r s op l e) (evalAssign r' s op l e) := by
  refine h.bind (h.get (.resolveLvalue l)) fun lv => h.bind (hr.eval e) fun rhs =>
    h.ite (h.assignTo _ _) ?_
  exact h.bind (h.get (.lvalueVal lv)) fun _ => h.bind (h.binary _ _ _) fun _ => h.assignTo _ _

theorem evalShort (go : Bool → Bool) (l e : Expr) :
    P (evalShort r go l e) (evalShort r' go l e) :=
  h.bind (hr.eval l) fun _ => h.ite (h.bind (hr.eval e) fun _ => h.pure _) (h.pure _)

theorem bindParams (ps : List Param) (es : List Expr) (locs : List (LocalBinding F)) :
    P (bindParams r.eval ps es locs) (bindParams r'.eval ps es locs) := by
  induction ps generalizing es locs with
  | nil => exact h.pure locs
  | cons p ps ih =>
    cases es with
    | nil => exact h.pure locs
    | cons e es => exact h.bind (hr.eval e) fun v => ih es _

theorem initGlobal (i : ℕ) (g : GlobalVar) (zero : Option (SValue F)) :
    P (initGlobal r s i g zero) (initGlobal r' s i g zero) := by
  refine h.ite ?_ (h.bind (hr.eval _) fun _ => h.setCell _ _)
  cases zero with
  | none => exact h.pure ()
  | some v => exact h.setCell _ v

theorem resetGlobals (gs : List (GlobalVar × ℕ)) :
    P (resetGlobals r s gs) (resetGlobals r' s gs) := by
  induction gs with
  | nil => exact h.pure ()
  | cons gi gs ih =>
    obtain ⟨g, i⟩ := gi
    exact h.bind (h.initGlobal hr i g none) fun _ => ih

/-- The `switch` of `vm_eval`, where calls are in the relation. -/
theorem evalNode {lib : Lib F}
    (hcall : ∀ name args, P (evalCall lib r s name args) (evalCall lib r' s name args))
    (e : Expr) : P (evalNode lib r s e) (evalNode lib r' s e) := by
  cases e with
  | null => exact h.pure _
  | intLit => exact h.pure _
  | floatLit => exact h.pure _
  | stringLit t lv idx => exact h.bind (h.get (.str idx)) fun _ => h.defined _
  | ident t lv idx => exact h.get (.identVal idx)
  | vectorLit t lv x y z =>
    exact h.bind (hr.eval x) fun _ => h.bind (hr.eval y) fun _ => h.bind (hr.eval z) fun _ => h.defined _
  | rotLit t lv x y z w =>
    exact h.bind (hr.eval x) fun _ => h.bind (hr.eval y) fun _ => h.bind (hr.eval z) fun _ =>
      h.bind (hr.eval w) fun _ => h.defined _
  | listLit t lv items => exact h.bind (h.evalAll hr.eval items) fun _ => h.pure _
  | call t lv name args => exact hcall name args
  | member t lv base m => exact h.bind (hr.eval base) fun _ => h.pure _
  | cast t lv target inner => exact h.bind (hr.eval inner) fun _ => h.pure _
  | unary t lv op inner =>
    exact h.ite (h.evalPrefix op inner) (h.bind (hr.eval inner) fun _ => h.defined _)
  | postfix_ t lv op inner => exact h.evalPostfix op inner
  | binary t lv op l e =>
    refine h.ite (h.evalShort hr _ l e) (h.ite (h.evalShort hr _ l e) ?_)
    exact h.bind (hr.eval l) fun _ => h.bind (hr.eval e) fun _ => h.binary op _ _
  | assign t lv op l e => exact h.evalAssign hr op l e

theorem forTest (cond : Expr) : P (forTest r cond) (forTest r' cond) :=
  h.ite (h.pure true) (h.bind (hr.eval cond) fun _ => h.pure _)

/-! The loops, with a body in the relation. -/

variable {body : Stmt} (hbody : P (r.exec body) (r'.exec body))
include hbody

theorem whileLoop (cond : Expr) (n : ℕ) :
    P (whileLoop r s cond body n) (whileLoop r' s cond body n) := by
  induction n with
  | zero => exact h.pure ()
  | succ n ih =>
    refine h.bind (hr.eval cond) fun _ => h.ite ?_ (h.pure ())
    exact h.bind hbody fun _ => h.bind (h.get .leaving) fun _ => h.ite (h.pure ()) ih

theorem doLoop (cond : Expr) (n : ℕ) :
    P (doLoop r s body cond n) (doLoop r' s body cond n) := by
  induction n with
  | zero => exact h.pure ()
  | succ n ih =>
    refine h.bind hbody fun _ => h.bind (h.get .leaving) fun _ => h.ite (h.pure ()) ?_
    exact h.bind (hr.eval cond) fun _ => h.ite ih (h.pure ())

theorem forLoop (cond : Expr) (post : List Expr) (n : ℕ) :
    P (forLoop r s cond post body n) (forLoop r' s cond post body n) := by
  induction n with
  | zero => exact h.pure ()
  | succ n ih =>
    refine h.bind (h.forTest hr cond) fun _ => h.ite ?_ (h.pure ())
    refine h.bind hbody fun _ => h.bind (h.get .leaving) fun _ => h.ite (h.pure ()) ?_
    exact h.bind (h.evalAll hr.eval post) fun _ => ih

end

/-- A `return`, which evaluates its value before it sets the flag. -/
theorem ret {q : Interp F} (h : Steps s P) (line : Int32) (hasValue : UInt8) {e : Expr}
    (he : P (r.eval e) (q.eval e)) :
    P (execNode r s (.ret line hasValue e)) (execNode q s (.ret line hasValue e)) :=
  h.bind (h.get (.hasFrame _)) fun _ => h.ite (h.bind he fun _ => h.flags fun _ => rfl)
    (h.flags fun _ => rfl)

/-- A `state` statement, where setting `pending_state` is allowed. -/
theorem stateChg (h : Steps s P) (r r' : Interp F) (line idx : Int32)
    (hp : ∀ i, P (VM.set fun w => w.modScript s fun t => { t with pendingState := some i })
      (VM.set fun w => w.modScript s fun t => { t with pendingState := some i })) :
    P (Slemu.execNode r s (.stateChg line idx)) (Slemu.execNode r' s (.stateChg line idx)) := by
  refine h.bind (h.get .prog) fun p => ?_
  split
  · exact hp _
  · exact h.pure ()

/-- A call of a builtin, where the parts of a reset and the builtins may run. -/
theorem callBuiltin (h : Steps s P) {lib : Lib F} (hr : r.Evals P r')
    (hvoid : P (VM.set fun w => w.modScript s fun t =>
        { t with globals := t.globals.map fun _ => .void })
      (VM.set fun w => w.modScript s fun t => { t with globals := t.globals.map fun _ => .void }))
    (hreset : ∀ st : Script F → Option ℕ,
      P (VM.set fun w => w.modScript s fun t => { t.flush .reset with curState := st t })
        (VM.set fun w => w.modScript s fun t => { t.flush .reset with curState := st t }))
    (hentry : P (VM.set fun w => w.pushEvent s (lit "state_entry") [])
      (VM.set fun w => w.pushEvent s (lit "state_entry") []))
    (hcall : ∀ name f args, builtinsLookup lib name = some f →
      P (VM.call fun w => f w s args) (VM.call fun w => f w s args))
    (name : Bytes) (args : List (SValue F)) :
    P (callBuiltin lib r s name args) (callBuiltin lib r' s name args) := by
  refine h.ite ?_ ?_
  · refine h.bind hvoid fun _ => h.bind (h.get .prog) fun p => ?_
    exact h.bind (h.resetGlobals hr _) fun _ => h.bind (hreset _) fun _ => h.bind hentry fun _ =>
      h.pure _
  · split
    · rename_i f hf
      exact hcall name f args hf
    · exact h.pure _

end Steps

namespace Closed
variable {s : ℕ} {P : ProgRel F} {r r' : Interp F} {α : Type}

theorem blockNext (h : Closed s P) (hr : r.Related P r') (all rest : List Stmt) :
    P (blockNext r s all rest) (blockNext r' s all rest) := by
  refine h.bind (h.get .returning) fun _ => h.ite (h.pure ()) (h.bind (h.get .changing) fun _ =>
    h.ite (h.pure ()) ?_)
  refine h.bind (h.get .jumping) fun _ =>
    h.ite (h.bind (h.get .jumpNameIdx) fun idx => ?_) (hr.block all rest)
  cases findLabelIn all idx with
  | none => exact h.pure ()
  | some k => exact h.bind (h.flags fun _ => rfl) fun _ => hr.block all _

theorem blockFrom (h : Closed s P) (hr : r.Related P r') (all rest : List Stmt) :
    P (blockFrom r s all rest) (blockFrom r' s all rest) := by
  cases rest with
  | nil => exact h.pure ()
  | cons st rest => exact h.bind (hr.exec st) fun _ => h.blockNext hr all rest

/-- All statements but `state`, which changes the script itself. -/
theorem execNode (h : Closed s P) (hr : r.Related P r') (st : Stmt)
    (hst : st.isStateChg = false) : P (execNode r s st) (execNode r' s st) := by
  cases st with
  | null => exact h.pure ()
  | empty => exact h.pure ()
  | expr line e => exact h.bind (hr.eval e) fun _ => h.pure ()
  | decl line t idx init => exact h.bind (hr.eval init) fun _ => h.define _ _ _
  | block line stmts =>
    exact h.bind h.enter fun _ => h.bind (hr.block stmts stmts) fun _ => h.leave
  | if_ line cond then_ else_ =>
    exact h.bind (hr.eval cond) fun _ => h.ite (hr.exec then_) (hr.exec else_)
  | while_ line cond body => exact h.whileLoop hr.toEvals (hr.exec body) cond safety
  | do_ line body cond => exact h.doLoop hr.toEvals (hr.exec body) cond safety
  | for_ line init cond post body =>
    exact h.bind h.enter fun _ => h.bind (h.evalAll hr.eval init) fun _ =>
      h.bind (h.forLoop hr.toEvals (hr.exec body) cond post safety) fun _ => h.leave
  | ret line hasValue e => exact h.ret line hasValue (hr.eval e)
  | jump line idx => exact h.flags fun _ => rfl
  | label => exact h.pure ()
  | stateChg line idx => cases hst

/-- A call of a user function, where frames may be pushed and popped at any time. -/
theorem runUserFunc (h : Closed s P) (hr : r.Related P r')
    (hpush : ∀ locs, P (VM.set fun w => w.framePush locs) (VM.set fun w => w.framePush locs))
    (hpop : P (VM.set World.framePop) (VM.set World.framePop)) (fd : FuncDecl)
    (args : List Expr) : P (runUserFunc r s fd args) (runUserFunc r' s fd args) := by
  refine h.bind (h.bindParams hr.toEvals _ _ _) fun locs => ?_
  refine h.bind (hpush locs) fun _ => h.bind (hr.exec _) fun _ => ?_
  refine h.bind (h.get .retVal) fun _ => h.bind (h.get .returning) fun _ => ?_
  exact h.bind hpop fun _ => h.bind (h.mark _ rfl) fun _ => h.pure _

end Closed

namespace Handles
variable {lib : Lib F} {s : ℕ} {P : ProgRel F} {r r' : Interp F}

theorem evalCall (h : Handles lib s P) (hr : r.Related P r') (name : Int32) (args : List Expr) :
    P (evalCall lib r s name args) (evalCall lib r' s name args) := by
  refine h.bind (h.get .prog) fun p => ?_
  split
  · exact h.func hr _ args
  · exact h.bind (h.evalAll hr.eval args) fun _ => h.bind (h.builtin hr _ _) fun _ =>
      h.bind (h.mark _ rfl) fun _ => h.pure _

theorem evalExpr (h : Handles lib s P) (hr : r.Related P r') (e : Expr) :
    P (evalExpr lib r s e) (evalExpr lib r' s e) :=
  h.bind (h.evalNode hr.toEvals (h.evalCall hr) e) fun _ => h.bind (h.mark _ rfl) fun _ => h.pure _

theorem execStmt (h : Handles lib s P) (hr : r.Related P r') (st : Stmt) :
    P (execStmt r s st) (execStmt r' s st) :=
  h.bind (h.get .unwinding) fun _ => h.ite (h.pure ()) (h.stmt hr st (h.execNode hr st))

/-- With the same fuel, the interpreter is related to itself. -/
theorem interp (h : Handles lib s P) (n : ℕ) :
    (interp lib s n).Related P (Slemu.interp lib s n) := by
  induction n with
  | zero => exact ⟨⟨fun _ => h.fail .fuel⟩, fun _ => h.fail .fuel, fun _ _ => h.fail .fuel⟩
  | succ n ih =>
    exact ⟨⟨fun e => h.evalExpr ih e⟩, fun st => h.execStmt ih st,
      fun all rest => h.blockFrom ih all rest⟩

end Handles

end Slemu
