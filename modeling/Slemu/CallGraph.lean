import Slemu.Vm

/-! What the code of a program calls, and where its jumps can go. -/

namespace Slemu

/-! ### Calls and jumps in the text -/

mutual
/-- The names called in an expression. -/
def Expr.calls : Expr → List Int32
  | .vectorLit _ _ x y z => x.calls ++ y.calls ++ z.calls
  | .rotLit _ _ x y z w => x.calls ++ y.calls ++ z.calls ++ w.calls
  | .listLit _ _ items => Expr.callsAll items
  | .call _ _ name args => name :: Expr.callsAll args
  | .member _ _ base _ => base.calls
  | .cast _ _ _ inner => inner.calls
  | .unary _ _ _ inner => inner.calls
  | .postfix_ _ _ _ inner => inner.calls
  | .binary _ _ _ l r => l.calls ++ r.calls
  | .assign _ _ _ l r => l.calls ++ r.calls
  | _ => []

def Expr.callsAll : List Expr → List Int32
  | [] => []
  | e :: es => e.calls ++ Expr.callsAll es
end

mutual
def Stmt.calls : Stmt → List Int32
  | .expr _ e => e.calls
  | .decl _ _ _ init => init.calls
  | .block _ stmts => Stmt.callsAll stmts
  | .if_ _ cond then_ else_ => cond.calls ++ then_.calls ++ else_.calls
  | .while_ _ cond body => cond.calls ++ body.calls
  | .do_ _ body cond => body.calls ++ cond.calls
  | .for_ _ init cond post body =>
    Expr.callsAll init ++ cond.calls ++ Expr.callsAll post ++ body.calls
  | .ret _ _ e => e.calls
  | _ => []

def Stmt.callsAll : List Stmt → List Int32
  | [] => []
  | st :: sts => st.calls ++ Stmt.callsAll sts
end

mutual
/-- The labels that the `jump` statements in a statement name. -/
def Stmt.jumps : Stmt → List Int32
  | .block _ stmts => Stmt.jumpsAll stmts
  | .if_ _ _ then_ else_ => then_.jumps ++ else_.jumps
  | .while_ _ _ body => body.jumps
  | .do_ _ body _ => body.jumps
  | .for_ _ _ _ _ body => body.jumps
  | .jump _ idx => [idx]
  | _ => []

def Stmt.jumpsAll : List Stmt → List Int32
  | [] => []
  | st :: sts => st.jumps ++ Stmt.jumpsAll sts
end

mutual
/-- The blocks in a statement. -/
def Stmt.blocks : Stmt → List (List Stmt)
  | .block _ stmts => stmts :: Stmt.blocksAll stmts
  | .if_ _ _ then_ else_ => then_.blocks ++ else_.blocks
  | .while_ _ _ body => body.blocks
  | .do_ _ body _ => body.blocks
  | .for_ _ _ _ _ body => body.blocks
  | _ => []

def Stmt.blocksAll : List Stmt → List (List Stmt)
  | [] => []
  | st :: sts => st.blocks ++ Stmt.blocksAll sts
end

theorem Expr.mem_callsAll {es : List Expr} {name : Int32} :
    name ∈ Expr.callsAll es ↔ ∃ e ∈ es, name ∈ e.calls := by
  induction es with
  | nil => simp [callsAll]
  | cons e es ih => simp [callsAll, ih]

theorem Stmt.mem_callsAll {sts : List Stmt} {name : Int32} :
    name ∈ Stmt.callsAll sts ↔ ∃ st ∈ sts, name ∈ st.calls := by
  induction sts with
  | nil => simp [callsAll]
  | cons st sts ih => simp [callsAll, ih]

theorem Stmt.mem_jumpsAll {sts : List Stmt} {idx : Int32} :
    idx ∈ Stmt.jumpsAll sts ↔ ∃ st ∈ sts, idx ∈ st.jumps := by
  induction sts with
  | nil => simp [jumpsAll]
  | cons st sts ih => simp [jumpsAll, ih]

theorem Stmt.mem_blocksAll {sts : List Stmt} {all : List Stmt} :
    all ∈ Stmt.blocksAll sts ↔ ∃ st ∈ sts, all ∈ st.blocks := by
  induction sts with
  | nil => simp [blocksAll]
  | cons st sts ih => simp [blocksAll, ih]

/-- The expressions that are evaluated on the way to the value of an expression. -/
def Expr.children : Expr → List Expr
  | .vectorLit _ _ x y z => [x, y, z]
  | .rotLit _ _ x y z w => [x, y, z, w]
  | .listLit _ _ items => items
  | .call _ _ _ args => args
  | .member _ _ base _ => [base]
  | .cast _ _ _ inner => [inner]
  | .unary _ _ _ inner => [inner]
  | .binary _ _ _ l r => [l, r]
  | .assign _ _ _ _ r => [r]
  | _ => []

theorem Expr.sizeOf_child {e e' : Expr} (h : e' ∈ e.children) : sizeOf e' < sizeOf e := by
  cases e with
  | listLit t lv items =>
    have hl := List.sizeOf_lt_of_mem (show e' ∈ items from h)
    simp only [listLit.sizeOf_spec]
    omega
  | call t lv name args =>
    have hl := List.sizeOf_lt_of_mem (show e' ∈ args from h)
    simp only [call.sizeOf_spec]
    omega
  | vectorLit t lv x y z =>
    simp only [children, List.mem_cons, List.not_mem_nil, or_false] at h
    rcases h with rfl | rfl | rfl <;> simp only [vectorLit.sizeOf_spec] <;> omega
  | rotLit t lv x y z w =>
    simp only [children, List.mem_cons, List.not_mem_nil, or_false] at h
    rcases h with rfl | rfl | rfl | rfl <;> simp only [rotLit.sizeOf_spec] <;> omega
  | binary t lv op l r =>
    simp only [children, List.mem_cons, List.not_mem_nil, or_false] at h
    rcases h with rfl | rfl <;> simp only [binary.sizeOf_spec] <;> omega
  | member t lv base m =>
    obtain rfl := List.mem_singleton.mp h
    simp only [member.sizeOf_spec]
    omega
  | cast t lv target inner =>
    obtain rfl := List.mem_singleton.mp h
    simp only [cast.sizeOf_spec]
    omega
  | unary t lv op inner =>
    obtain rfl := List.mem_singleton.mp h
    simp only [unary.sizeOf_spec]
    omega
  | assign t lv op l r =>
    obtain rfl := List.mem_singleton.mp h
    simp only [assign.sizeOf_spec]
    omega
  | _ => cases h

/-- Induction over an expression. -/
theorem Expr.induct {P : Expr → Prop} (ih : ∀ e, (∀ e' ∈ e.children, P e') → P e) (e : Expr) :
    P e := by
  induction hn : sizeOf e using Nat.strong_induction_on generalizing e with
  | _ n hlt =>
    subst hn
    exact ih e fun e' he' => hlt _ (sizeOf_child he') e' rfl

theorem Expr.calls_child {e e' : Expr} (h : e' ∈ e.children) {name : Int32} (hn : name ∈ e'.calls) :
    name ∈ e.calls := by
  cases e with
  | listLit t lv items => exact mem_callsAll.mpr ⟨e', h, hn⟩
  | call t lv name args => exact List.mem_cons_of_mem _ (mem_callsAll.mpr ⟨e', h, hn⟩)
  | null => cases h
  | intLit => cases h
  | floatLit => cases h
  | stringLit => cases h
  | ident => cases h
  | postfix_ => cases h
  | _ =>
    simp only [children, List.mem_cons, List.not_mem_nil, or_false] at h
    rcases h with rfl | rfl | rfl | rfl <;> simp [calls, hn]

/-- The statements directly inside a statement. -/
def Stmt.children : Stmt → List Stmt
  | .block _ stmts => stmts
  | .if_ _ _ then_ else_ => [then_, else_]
  | .while_ _ _ body => [body]
  | .do_ _ body _ => [body]
  | .for_ _ _ _ _ body => [body]
  | _ => []

/-- The expressions directly inside a statement. -/
def Stmt.exprs : Stmt → List Expr
  | .expr _ e => [e]
  | .decl _ _ _ init => [init]
  | .if_ _ cond _ _ => [cond]
  | .while_ _ cond _ => [cond]
  | .do_ _ _ cond => [cond]
  | .for_ _ init cond post _ => init ++ cond :: post
  | .ret _ _ e => [e]
  | _ => []

theorem Stmt.sizeOf_child {st st' : Stmt} (h : st' ∈ st.children) : sizeOf st' < sizeOf st := by
  cases st with
  | block line stmts =>
    have hl := List.sizeOf_lt_of_mem (show st' ∈ stmts from h)
    simp only [block.sizeOf_spec]
    omega
  | if_ line cond then_ else_ =>
    simp only [children, List.mem_cons, List.not_mem_nil, or_false] at h
    rcases h with rfl | rfl <;> simp only [if_.sizeOf_spec] <;> omega
  | while_ line cond body =>
    obtain rfl := List.mem_singleton.mp h
    simp only [while_.sizeOf_spec]
    omega
  | do_ line body cond =>
    obtain rfl := List.mem_singleton.mp h
    simp only [do_.sizeOf_spec]
    omega
  | for_ line init cond post body =>
    obtain rfl := List.mem_singleton.mp h
    simp only [for_.sizeOf_spec]
    omega
  | _ => cases h

/-- Induction over a statement. -/
theorem Stmt.induct {P : Stmt → Prop} (ih : ∀ st, (∀ st' ∈ st.children, P st') → P st)
    (st : Stmt) : P st := by
  induction hn : sizeOf st using Nat.strong_induction_on generalizing st with
  | _ n hlt =>
    subst hn
    exact ih st fun st' hst' => hlt _ (sizeOf_child hst') st' rfl

theorem Stmt.calls_child {st st' : Stmt} (h : st' ∈ st.children) {name : Int32}
    (hn : name ∈ st'.calls) : name ∈ st.calls := by
  cases st with
  | block line stmts => exact mem_callsAll.mpr ⟨st', h, hn⟩
  | if_ line cond then_ else_ =>
    simp only [children, List.mem_cons, List.not_mem_nil, or_false] at h
    rcases h with rfl | rfl <;> simp [calls, hn]
  | while_ line cond body => simp_all [children, calls]
  | do_ line body cond => simp_all [children, calls]
  | for_ line init cond post body => simp_all [children, calls]
  | _ => cases h

theorem Stmt.calls_expr {st : Stmt} {e : Expr} (h : e ∈ st.exprs) {name : Int32}
    (hn : name ∈ e.calls) : name ∈ st.calls := by
  cases st with
  | for_ line init cond post body =>
    rcases List.mem_append.mp h with h | h
    · simp [calls, Expr.mem_callsAll.mpr ⟨e, h, hn⟩]
    · rcases List.mem_cons.mp h with rfl | h
      · simp [calls, hn]
      · simp [calls, Expr.mem_callsAll.mpr ⟨e, h, hn⟩]
  | expr => simp_all [exprs, calls]
  | decl => simp_all [exprs, calls]
  | if_ => simp_all [exprs, calls]
  | while_ => simp_all [exprs, calls]
  | do_ => simp_all [exprs, calls]
  | ret => simp_all [exprs, calls]
  | _ => cases h

theorem Stmt.jumps_child {st st' : Stmt} (h : st' ∈ st.children) {idx : Int32}
    (hn : idx ∈ st'.jumps) : idx ∈ st.jumps := by
  cases st with
  | block line stmts => exact mem_jumpsAll.mpr ⟨st', h, hn⟩
  | if_ line cond then_ else_ =>
    simp only [children, List.mem_cons, List.not_mem_nil, or_false] at h
    rcases h with rfl | rfl <;> simp [jumps, hn]
  | while_ => simp_all [children, jumps]
  | do_ => simp_all [children, jumps]
  | for_ => simp_all [children, jumps]
  | _ => cases h

theorem Stmt.blocks_child {st st' : Stmt} (h : st' ∈ st.children) {all : List Stmt}
    (hn : all ∈ st'.blocks) : all ∈ st.blocks := by
  cases st with
  | block line stmts => exact List.mem_cons_of_mem _ (mem_blocksAll.mpr ⟨st', h, hn⟩)
  | if_ line cond then_ else_ =>
    simp only [children, List.mem_cons, List.not_mem_nil, or_false] at h
    rcases h with rfl | rfl <;> simp [blocks, hn]
  | while_ => simp_all [children, blocks]
  | do_ => simp_all [children, blocks]
  | for_ => simp_all [children, blocks]
  | _ => cases h

/-! ### The call graph -/

/-- The names called by what a name stands for: the body of a function, or the initialisers of
all globals for `llResetScript`. -/
def Program.callees (p : Program) (name : Int32) : List Int32 :=
  match p.funcs.find? fun fd => fd.nameIdx = name with
  | some fd => fd.body.calls
  | none =>
    if p.str name = lit "llResetScript" then p.globals.flatMap fun g => g.init.calls else []

def Program.Calls (p : Program) (name name' : Int32) : Prop := name' ∈ p.callees name

/-- No function calls itself, not even through others, and no initialiser of a global resets the
script, not even through functions. -/
def Program.NoCycles (p : Program) : Prop := ∀ name, ¬ Relation.TransGen p.Calls name name

instance finiteInt32 : Finite Int32 :=
  Finite.of_injective (fun i : Int32 => i.toBitVec.toFin) fun _ _ h =>
    Int32.toBitVec_inj.mp (BitVec.toFin_inj.mp h)

/-- Induction over the calls of a program without cycles. -/
theorem Program.NoCycles.induct {p : Program} (h : p.NoCycles) {P : Int32 → Prop}
    (ih : ∀ name, (∀ name', p.Calls name name' → P name') → P name) (name : Int32) : P name := by
  have htrans : IsTrans Int32 (fun b a => Relation.TransGen p.Calls a b) :=
    ⟨fun _ _ _ hab hbc => hbc.trans hab⟩
  have hirrefl : Std.Irrefl (fun b a : Int32 => Relation.TransGen p.Calls a b) := ⟨h⟩
  have hwf := Finite.wellFounded_of_trans_of_irrefl fun b a => Relation.TransGen p.Calls a b
  induction name using hwf.induction with
  | h name hname => exact ih name fun name' hc => hname name' (.single hc)

/-! ### Jumps that go back -/

/-- In this block, a jump to the label goes back: it is in a statement at the label or behind. -/
def loopsBack (all : List Stmt) (idx : Int32) : Bool :=
  match findLabelIn all idx with
  | some k => (all.drop k).any fun st => idx ∈ st.jumps
  | none => false

/-- The bodies of all functions and handlers. -/
def Program.bodies (p : Program) : List Stmt :=
  p.funcs.map FuncDecl.body ++ p.states.flatMap fun sd => sd.events.map EventDecl.body

/-- In some block of the program, a jump to the label goes back. -/
def Program.jumpsBack (p : Program) (idx : Int32) : Bool :=
  p.bodies.any fun st => st.blocks.any fun all => loopsBack all idx

end Slemu
