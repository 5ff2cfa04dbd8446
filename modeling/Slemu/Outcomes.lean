import Slemu.Scopes

/-! The flags `returning` and `jumping` against a semantics in which a statement says how it ends:
a `return` leaves the function at once, and a `jump` leaves everything inside the innermost block
that has its label. -/

namespace Run
variable {σ α β : Type}

theorem bind_congr_left {m n : Run σ α} {x : σ} (h : m x = n x) (f : α → Run σ β) :
    (m >>= f) x = (n >>= f) x := by
  rcases bind_cases m f x with ⟨e, t, hm, hb⟩ | ⟨a, t, hm, hb⟩
  · rw [hb, bind_error (h.symm.trans hm)]
  · rw [hb, bind_ok (h.symm.trans hm)]

theorem bind_congr_right {m : Run σ α} {f g : α → Run σ β} {x : σ}
    (h : ∀ a y, m x = (.ok a, y) → f a y = g a y) : (m >>= f) x = (m >>= g) x := by
  rcases bind_cases m f x with ⟨e, t, hm, hb⟩ | ⟨a, t, hm, hb⟩
  · rw [hb, bind_error hm]
  · rw [hb, bind_ok hm, h a t hm]

end Run

namespace Slemu
variable {F : Type}

/-! ### The semantics without flags -/

/-- How a statement ends. -/
inductive Outcome (F : Type)
  | normal
  | ret (v : Option (SValue F))
  | jump (idx : Int32)

namespace Outcome

/-- The value of a call that ends so. -/
def value : Outcome F → SValue F
  | .ret (some v) => v
  | _ => .void

def isRet : Outcome F → Bool
  | .ret _ => true
  | _ => false

/-- What comes after a statement, if that has not left. -/
def andThen (o : Outcome F) (k : VM F (Outcome F)) : VM F (Outcome F) :=
  match o with
  | .normal => k
  | o => pure o

end Outcome

/-- The recursive calls of that semantics, for one script. -/
structure Ref (F : Type) where
  eval : Expr → VM F (SValue F)
  exec : Stmt → VM F (Outcome F)
  block : List Stmt → List Stmt → VM F (Outcome F)

/-- Its expressions, for parts of the interpreter that execute no statement. -/
def Ref.evals (R : Ref F) : Interp F :=
  ⟨R.eval, fun _ => Run.fail .fault, fun _ _ => Run.fail .fault⟩

theorem VM.get_bind_apply {α β : Type} (f : World F → α) (k : α → VM F β) (x : Machine F) :
    (VM.get f >>= k) x = k (f x.world) x := rfl

theorem VM.set_bind_apply {β : Type} (f : World F → World F) (k : Unit → VM F β) (x : Machine F) :
    (VM.set f >>= k) x = k () { x with world := f x.world } := rfl

variable [CDouble F]

/-- Runs a body on a frame of its own. -/
def inFrame {α : Type} (locs : List (LocalBinding F)) (body : VM F α) : VM F α := do
  VM.set fun w => w.framePush locs
  let o ← body
  VM.set World.framePop
  pure o

/-- A call has the value of the `return` that ends it. -/
def refFunc (R : Ref F) (s : ℕ) (fd : FuncDecl) (args : List Expr) : VM F (SValue F) := do
  let locs ← bindParams R.eval fd.params args []
  let o ← inFrame locs (R.exec fd.body)
  VM.mark (.returned s fd o.isRet o.value)
  pure o.value

def refCall (lib : Lib F) (R : Ref F) (s : ℕ) (nameIdx : Int32) (args : List Expr) :
    VM F (SValue F) := do
  let p ← VM.get fun w => (w.script s).prog
  match p.funcs.find? fun fd => fd.nameIdx = nameIdx with
  | some fd => refFunc R s fd args
  | none => do
    let vs ← evalAll R.eval args
    let v ← callBuiltin lib R.evals s (p.str nameIdx) vs
    VM.mark (.builtin s (p.str nameIdx) v)
    pure v

/-- A call. -/
def Expr.isCall : Expr → Bool
  | .call _ _ _ _ => true
  | _ => false

/-- Only calls get from an expression to statements. -/
def refNode (lib : Lib F) (R : Ref F) (s : ℕ) : Expr → VM F (SValue F)
  | .call _ _ name args => refCall lib R s name args
  | e => evalNode lib R.evals s e

def refWhile (R : Ref F) (s : ℕ) (cond : Expr) (body : Stmt) : ℕ → VM F (Outcome F)
  | 0 => pure .normal
  | n+1 => do
    let c ← R.eval cond
    if svTruthy c then do
      let o ← R.exec body
      o.andThen do
        if ← VM.get fun w => w.changing s then pure .normal else refWhile R s cond body n
    else pure .normal

def refDo (R : Ref F) (s : ℕ) (body : Stmt) (cond : Expr) : ℕ → VM F (Outcome F)
  | 0 => pure .normal
  | n+1 => do
    let o ← R.exec body
    o.andThen do
      if ← VM.get fun w => w.changing s then pure .normal
      else do
        let c ← R.eval cond
        if svTruthy c then refDo R s body cond n else pure .normal

def refFor (R : Ref F) (s : ℕ) (cond : Expr) (post : List Expr) (body : Stmt) :
    ℕ → VM F (Outcome F)
  | 0 => pure .normal
  | n+1 => do
    if ← forTest R.evals cond then do
      let o ← R.exec body
      o.andThen do
        if ← VM.get fun w => w.changing s then pure .normal
        else do
          let _ ← evalAll R.eval post
          refFor R s cond post body n
    else pure .normal

/-- A block goes on behind the label if that is one of its own. The frame keeps the label last
jumped to, which nothing here looks at. -/
def refNext (R : Ref F) (s : ℕ) (all rest : List Stmt) (o : Outcome F) : VM F (Outcome F) := do
  if ← VM.get fun w => w.changing s then pure o
  else match o with
    | .normal => R.block all rest
    | .ret v => pure (.ret v)
    | .jump idx => match findLabelIn all idx with
      | some k => do
        VM.set fun w => w.modFrame fun f => { f with jumpNameIdx := idx }
        R.block all (all.drop (k+1))
      | none => pure (.jump idx)

def refBlock (R : Ref F) (s : ℕ) (all : List Stmt) : List Stmt → VM F (Outcome F)
  | [] => pure .normal
  | st :: rest => do
    let o ← R.exec st
    refNext R s all rest o

def refStmt (R : Ref F) (s : ℕ) : Stmt → VM F (Outcome F)
  | .null => pure .normal
  | .empty _ => pure .normal
  | .expr _ e => do
    let _ ← R.eval e
    pure .normal
  | .decl _ t idx init => do
    let v ← R.eval init
    VM.set fun w => w.frameDefine idx (declVal t v) t
    pure .normal
  | .block _ stmts => do
    VM.set World.frameEnter
    let o ← R.block stmts stmts
    VM.set World.frameLeave
    pure o
  | .if_ _ cond then_ else_ => do
    let c ← R.eval cond
    if svTruthy c then R.exec then_ else R.exec else_
  | .while_ _ cond body => refWhile R s cond body safety
  | .do_ _ body cond => refDo R s body cond safety
  | .for_ _ init cond post body => do
    VM.set World.frameEnter
    let _ ← evalAll R.eval init
    let o ← refFor R s cond post body safety
    VM.set World.frameLeave
    pure o
  | .ret _ hasValue e =>
    if hasValue ≠ 0 then do
      let v ← R.eval e
      pure (.ret (some v))
    else pure (.ret none)
  | .jump _ idx => pure (.jump idx)
  | .label _ _ => pure .normal
  | .stateChg _ idx => do
    let p ← VM.get fun w => (w.script s).prog
    match p.stateNamed (p.str idx) with
    | some i => do
      VM.set fun w => w.modScript s fun t => { t with pendingState := some i }
      pure .normal
    | none => pure .normal

/-- The semantics without flags, for a script. -/
def ref (lib : Lib F) (s : ℕ) : ℕ → Ref F
  | 0 => ⟨fun _ => Run.fail .fuel, fun _ => Run.fail .fuel, fun _ _ => Run.fail .fuel⟩
  | n+1 =>
    { eval := fun e => do
        let v ← refNode lib (ref lib s n) s e
        VM.mark (.value s e v)
        pure v
      exec := fun st => do
        VM.mark (.exec s st)
        refStmt (ref lib s n) s st
      block := refBlock (ref lib s n) s }

/-- The handling of an event. -/
def refDispatch (lib : Lib F) (s fuel : ℕ) (ev : EventDecl) (args : List (SValue F)) :
    VM F Unit := do
  let _ ← inFrame (bindArgs ev.params args) ((ref lib s fuel).exec ev.body)
  pure ()

/-- What comes after a statement, from a machine. -/
theorem refNext_apply (R : Ref F) (s : ℕ) (all rest : List Stmt) (o : Outcome F) (x : Machine F) :
    refNext R s all rest o x =
      if x.world.changing s then (pure o : VM F (Outcome F)) x
      else match o with
        | .normal => R.block all rest x
        | .ret v => (pure (.ret v) : VM F (Outcome F)) x
        | .jump idx => match findLabelIn all idx with
          | some k => R.block all (all.drop (k+1))
              { x with world := x.world.modFrame fun f => { f with jumpNameIdx := idx } }
          | none => (pure (.jump idx) : VM F (Outcome F)) x := by
  unfold refNext
  rw [VM.get_bind_apply]
  split
  · rfl
  · cases o with
    | normal => rfl
    | ret v => rfl
    | jump idx =>
      dsimp only
      cases findLabelIn all idx <;> rfl

/-! ### Rules for the semantics -/

/-- The flags of a frame, and the value it is to return. -/
def Frame.exits (f : Frame F) : Bool × Bool × SValue F := (f.returning, f.jumping, f.retVal)

/-- A predicate of programs. -/
abbrev ProgPred (F : Type) := ∀ {α : Type}, VM F α → Prop

/-- A predicate that goes through sequences and through the steps of the semantics, none of which
sets a flag. -/
structure Unflagged (P : ProgPred F) : Prop where
  pure {α : Type} (a : α) : P (pure a : VM F α)
  fault {α : Type} : P (Run.fail .fault : VM F α)
  bind {α β : Type} {m : VM F α} {f : α → VM F β} : P m → (∀ a, P (f a)) → P (m >>= f)
  get {α : Type} (f : World F → α) : P (VM.get f)
  mark (k : Mark F) : P (VM.mark k)
  script (s : ℕ) {f : Script F → Script F} : (∀ t, (f t).prog = t.prog) →
    P (VM.set fun w => w.modScript s f)
  frame {f : Frame F → Frame F} : (∀ fr, (f fr).exits = fr.exits) → P (VM.set fun w => w.modFrame f)
  call {α : Type} (locs : List (LocalBinding F)) {m : VM F α} : P m → P (inFrame locs m)

/-- The same, with the builtins that a script can call and the end of the fuel. -/
structure UnflaggedBy (lib : Lib F) (s : ℕ) (P : ProgPred F) : Prop extends Unflagged P where
  fuel {α : Type} : P (Run.fail .fuel : VM F α)
  builtin {name : Bytes} {f : Builtin F} (args : List (SValue F)) :
    builtinsLookup lib name = some f → P (VM.call fun w => f w s args)

/-- The predicate holds of the recursive calls. -/
structure Ref.All (P : ProgPred F) (R : Ref F) : Prop where
  eval (e : Expr) : P (R.eval e)
  exec (st : Stmt) : P (R.exec st)
  block (all rest : List Stmt) : P (R.block all rest)

namespace Unflagged
variable {lib : Lib F} {s : ℕ} {P : ProgPred F} {α : Type}

omit [CDouble F] in
theorem defined (h : Unflagged P) (o : Option α) : P (VM.defined o : VM F α) := by
  cases o with
  | none => exact h.fault
  | some a => exact h.pure a

omit [CDouble F] in
theorem ite (_ : Unflagged P) {c : Prop} [Decidable c] {m m' : VM F α} (hm : P m)
    (hm' : P m') : P (if c then m else m') := by
  split
  · exact hm
  · exact hm'

omit [CDouble F] in
theorem setCell (h : Unflagged P) (c : Cell) (v : SValue F) :
    P (VM.set fun w : World F => w.setCell s c v) := by
  cases c with
  | loc k => exact h.frame fun _ => rfl
  | glob i => exact h.script _ fun _ => rfl

omit [CDouble F] in
theorem evalAll (h : Unflagged P) {f : Expr → VM F (SValue F)} (hf : ∀ e, P (f e))
    (es : List Expr) : P (evalAll f es) := by
  induction es with
  | nil => exact h.pure []
  | cons e es ih => exact h.bind (hf e) fun v => h.bind ih fun vs => h.pure (v :: vs)

theorem bindParams (h : Unflagged P) {f : Expr → VM F (SValue F)} (hf : ∀ e, P (f e))
    (ps : List Param) (es : List Expr) (locs : List (LocalBinding F)) :
    P (bindParams f ps es locs) := by
  rw [bindParams_eq]
  exact h.bind (h.evalAll hf _) fun vs => h.pure _

theorem binary (h : Unflagged P) (op : UInt8) (a b : SValue F) : P (binary op a b) :=
  h.bind (h.mark _) fun _ => h.defined _

theorem evalPrefix (h : Unflagged P) (op : UInt8) (inner : Expr) :
    P (evalPrefix s op inner : VM F _) := by
  refine h.bind (h.get _) fun lv => ?_
  cases lv with
  | none => exact h.pure _
  | member c axis =>
    refine h.bind (h.get _) fun v => ?_
    cases v with
    | vec x y z => exact h.bind (h.setCell _ _) fun _ => h.pure _
    | _ => exact h.fault
  | cell c =>
    exact h.bind (h.get _) fun _ => h.bind (h.defined _) fun _ => h.bind (h.setCell _ _) fun _ =>
      h.pure _

theorem evalPostfix (h : Unflagged P) (op : UInt8) (inner : Expr) :
    P (evalPostfix s op inner : VM F _) := by
  refine h.bind (h.get _) fun lv => ?_
  cases lv with
  | cell c =>
    exact h.bind (h.get _) fun _ => h.bind (h.defined _) fun _ => h.bind (h.setCell _ _) fun _ =>
      h.pure _
  | _ => exact h.pure _

theorem assignTo (h : Unflagged P) (lv : Lval) (rhs : SValue F) : P (assignTo s lv rhs) := by
  cases lv with
  | none => exact h.pure rhs
  | cell c => exact h.bind (h.get _) fun _ => h.bind (h.setCell _ _) fun _ => h.pure _
  | member c axis =>
    exact h.bind (h.get _) fun _ => h.ite (h.bind (h.setCell _ _) fun _ => h.pure _) (h.pure _)

section
variable {r : Interp F} (h : Unflagged P) (hr : ∀ e, P (r.eval e))
include h hr

theorem evalShort (go : Bool → Bool) (l e : Expr) : P (evalShort r go l e) :=
  h.bind (hr l) fun _ => h.ite (h.bind (hr e) fun _ => h.pure _) (h.pure _)

theorem forTest (cond : Expr) : P (forTest r cond) :=
  h.ite (h.pure true) (h.bind (hr cond) fun _ => h.pure _)

/-- The `switch` of `vm_eval`, but for calls. -/
theorem evalNode {e : Expr} (hcall : e.isCall = false) : P (evalNode lib r s e) := by
  cases e with
  | null => exact h.pure _
  | intLit => exact h.pure _
  | floatLit => exact h.pure _
  | stringLit => exact h.bind (h.get _) fun _ => h.defined _
  | ident t lv idx => exact h.get fun w => w.identVal s idx
  | vectorLit t lv x y z =>
    exact h.bind (hr x) fun _ => h.bind (hr y) fun _ => h.bind (hr z) fun _ => h.defined _
  | rotLit t lv x y z w =>
    refine h.bind (hr x) fun _ => h.bind (hr y) fun _ => h.bind (hr z) fun _ => ?_
    exact h.bind (hr w) fun _ => h.defined _
  | listLit t lv items => exact h.bind (h.evalAll hr items) fun _ => h.pure _
  | call t lv name args => cases hcall
  | member t lv base m => exact h.bind (hr base) fun _ => h.pure _
  | cast t lv target inner => exact h.bind (hr inner) fun _ => h.pure _
  | unary t lv op inner =>
    exact h.ite (h.evalPrefix op inner) (h.bind (hr inner) fun _ => h.defined _)
  | postfix_ t lv op inner => exact h.evalPostfix op inner
  | binary t lv op l e =>
    refine h.ite (h.evalShort hr _ l e) (h.ite (h.evalShort hr _ l e) ?_)
    exact h.bind (hr l) fun _ => h.bind (hr e) fun _ => h.binary op _ _
  | assign t lv op l e =>
    refine h.bind (h.get _) fun lv => h.bind (hr e) fun rhs => h.ite (h.assignTo _ _) ?_
    exact h.bind (h.get _) fun _ => h.bind (h.binary _ _ _) fun _ => h.assignTo _ _

omit [CDouble F] in
theorem initGlobal (i : ℕ) (g : GlobalVar) (zero : Option (SValue F)) :
    P (initGlobal r s i g zero) := by
  refine h.ite ?_ (h.bind (hr _) fun _ => h.setCell _ _)
  cases zero with
  | none => exact h.pure ()
  | some v => exact h.setCell _ v

end

omit [CDouble F] in
theorem andThen (h : Unflagged P) (o : Outcome F) {k : VM F (Outcome F)} (hk : P k) :
    P (o.andThen k) := by
  cases o with
  | normal => exact hk
  | ret v => exact h.pure _
  | jump idx => exact h.pure _

section
variable {R : Ref F} (h : Unflagged P) (hR : R.All P)
include h hR

theorem refFunc (fd : FuncDecl) (args : List Expr) : P (refFunc R s fd args) := by
  refine h.bind (h.bindParams hR.eval _ _ _) fun locs => ?_
  refine h.bind (h.call locs (hR.exec _)) fun o => ?_
  exact h.bind (h.mark _) fun _ => h.pure _

theorem refWhile (cond : Expr) (body : Stmt) (n : ℕ) : P (refWhile R s cond body n) := by
  induction n with
  | zero => exact h.pure _
  | succ n ih =>
    refine h.bind (hR.eval cond) fun c => h.ite (h.bind (hR.exec body) fun o => ?_) (h.pure _)
    exact h.andThen o (h.bind (h.get _) fun _ => h.ite (h.pure _) ih)

theorem refDo (body : Stmt) (cond : Expr) (n : ℕ) : P (refDo R s body cond n) := by
  induction n with
  | zero => exact h.pure _
  | succ n ih =>
    refine h.bind (hR.exec body) fun o => h.andThen o (h.bind (h.get _) fun _ => ?_)
    exact h.ite (h.pure _) (h.bind (hR.eval cond) fun _ => h.ite ih (h.pure _))

theorem refFor (cond : Expr) (post : List Expr) (body : Stmt) (n : ℕ) :
    P (refFor R s cond post body n) := by
  induction n with
  | zero => exact h.pure _
  | succ n ih =>
    refine h.bind (h.forTest (r := R.evals) hR.eval cond) fun c => ?_
    refine h.ite (h.bind (hR.exec body) fun o => h.andThen o (h.bind (h.get _) fun _ => ?_))
      (h.pure _)
    exact h.ite (h.pure _) (h.bind (h.evalAll hR.eval post) fun _ => ih)

theorem refNext (all rest : List Stmt) (o : Outcome F) : P (refNext R s all rest o) := by
  refine h.bind (h.get _) fun b => h.ite (h.pure o) ?_
  cases o with
  | normal => exact hR.block all rest
  | ret v => exact h.pure _
  | jump idx =>
    dsimp only
    cases findLabelIn all idx with
    | none => exact h.pure _
    | some k => exact h.bind (h.frame fun _ => rfl) fun _ => hR.block all _

theorem refStmt (st : Stmt) : P (refStmt R s st) := by
  cases st with
  | null => exact h.pure _
  | empty => exact h.pure _
  | expr line e => exact h.bind (hR.eval e) fun _ => h.pure _
  | decl line t idx init =>
    exact h.bind (hR.eval init) fun _ => h.bind (h.frame fun _ => rfl) fun _ => h.pure _
  | block line stmts =>
    refine h.bind (h.frame fun _ => rfl) fun _ => h.bind (hR.block _ _) fun o => ?_
    exact h.bind (h.frame fun _ => rfl) fun _ => h.pure o
  | if_ line cond then_ else_ =>
    exact h.bind (hR.eval cond) fun _ => h.ite (hR.exec then_) (hR.exec else_)
  | while_ line cond body => exact h.refWhile hR cond body safety
  | do_ line body cond => exact h.refDo hR body cond safety
  | for_ line init cond post body =>
    refine h.bind (h.frame fun _ => rfl) fun _ => h.bind (h.evalAll hR.eval init) fun _ => ?_
    refine h.bind (h.refFor hR cond post body safety) fun o => ?_
    exact h.bind (h.frame fun _ => rfl) fun _ => h.pure o
  | ret line hasValue e => exact h.ite (h.bind (hR.eval e) fun _ => h.pure _) (h.pure _)
  | jump => exact h.pure _
  | label => exact h.pure _
  | stateChg line idx =>
    refine h.bind (h.get _) fun p => ?_
    cases p.stateNamed (p.str idx) with
    | none => exact h.pure _
    | some i => exact h.bind (h.script _ fun _ => rfl) fun _ => h.pure _

end

end Unflagged

namespace UnflaggedBy
variable {lib : Lib F} {s : ℕ} {P : ProgPred F} (h : UnflaggedBy lib s P)
include h

theorem callBuiltin {r : Interp F} (hr : ∀ e, P (r.eval e)) (name : Bytes)
    (args : List (SValue F)) :
    P (callBuiltin lib r s name args) := by
  have hreset (gs : List (GlobalVar × ℕ)) : P (resetGlobals r s gs) := by
    induction gs with
    | nil => exact h.pure ()
    | cons gi gs ih => exact h.bind (h.toUnflagged.initGlobal hr _ _ none) fun _ => ih
  refine h.ite ?_ ?_
  · refine h.bind (h.script _ fun _ => rfl) fun _ => h.bind (h.get _) fun _ => ?_
    refine h.bind (hreset _) fun _ => h.bind (h.script _ fun _ => rfl) fun _ => ?_
    exact h.bind (h.script _ fun _ => rfl) fun _ => h.pure _
  · cases hf : builtinsLookup lib name with
    | none => exact h.pure _
    | some f => exact h.builtin args hf

section
variable {R : Ref F} (hR : R.All P)
include hR

theorem refCall (name : Int32) (args : List Expr) : P (refCall lib R s name args) := by
  refine h.bind (h.get _) fun p => ?_
  cases p.funcs.find? fun fd => decide (fd.nameIdx = name) with
  | some fd => exact h.refFunc hR fd args
  | none =>
    refine h.bind (h.evalAll hR.eval args) fun vs => ?_
    refine h.bind (h.callBuiltin (r := R.evals) hR.eval _ vs) fun v => ?_
    exact h.bind (h.mark _) fun _ => h.pure v

theorem refNode (e : Expr) : P (refNode lib R s e) := by
  have hnode (hc : e.isCall = false) : P (evalNode lib R.evals s e) :=
    h.toUnflagged.evalNode (r := R.evals) hR.eval hc
  cases e with
  | call t lv name args => exact h.refCall hR name args
  | _ => exact hnode rfl

end

theorem ref (n : ℕ) : (ref lib s n).All P := by
  induction n with
  | zero => exact ⟨fun _ => h.fuel, fun _ => h.fuel, fun _ _ => h.fuel⟩
  | succ n ih =>
    refine ⟨fun e => ?_, fun st => ?_, fun all rest => ?_⟩
    · exact h.bind (h.refNode ih e) fun v => h.bind (h.mark _) fun _ => h.pure v
    · exact h.bind (h.mark _) fun _ => h.refStmt ih st
    · cases rest with
      | nil => exact h.pure _
      | cons st rest => exact h.bind (ih.exec st) fun o => h.refNext ih all rest o

end UnflaggedBy

end Slemu
