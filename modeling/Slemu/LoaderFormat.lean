import Slemu.LoaderBounds

/-! The SLBC format: what a program looks like as bytes, in versions 1 and 2, and that the
loader reads it back. -/

namespace Slemu

/-! ### Numbers -/

/-- A number in `w` little-endian bytes. -/
def leBytes : ℕ → ℕ → Bytes
  | 0, _ => []
  | w+1, n => (n%256).toUInt8 :: leBytes w (n/256)

@[simp] theorem length_leBytes (w n : ℕ) : (leBytes w n).length = w := by
  induction w generalizing n with
  | zero => rfl
  | succ w ih => simp only [leBytes, List.length_cons, ih]

theorem leNat_leBytes (w n : ℕ) (h : n < 256^w) : leNat (leBytes w n) = n := by
  induction w generalizing n with
  | zero =>
    have : n = 0 := by simpa using h
    rw [this]
    rfl
  | succ w ih =>
    have hq : n/256 < 256^w := by
      rw [Nat.div_lt_iff_lt_mul (by norm_num), ← pow_succ]
      exact h
    have hb : (n%256).toUInt8.toNat = n%256 := by
      simp only [Nat.toUInt8_eq, UInt8.toNat_ofNat']
      omega
    simp only [leBytes, leNat, hb, ih (n/256) hq]
    omega

def encU32 (x : UInt32) : Bytes := leBytes 4 x.toNat
def encI32 (x : Int32) : Bytes := encU32 x.toUInt32
def encU64 (x : UInt64) : Bytes := leBytes 8 x.toNat
def encCount (n : ℕ) : Bytes := encU32 n.toUInt32

/-- A line word, which version 1 does not have. -/
def encLine (v : UInt32) (line : Int32) : Bytes := if v ≥ 2 then encI32 line else []

/-! ### Trees -/

/-- A flag, and what it announces. -/
def encOpt (absent : Bool) (bytes : Bytes) : Bytes :=
  (if absent then 0 else 1) :: if absent then [] else bytes

mutual
/-- The fields of a node stand in the order in which `read_expr` takes them. -/
def encExpr : Expr → Bytes
  | .null => [0xFF]
  | .intLit t lv n => 0 :: t :: lv :: encU64 n.toUInt64
  | .floatLit t lv bits => 1 :: t :: lv :: encU64 bits
  | .stringLit t lv idx => 2 :: t :: lv :: encI32 idx
  | .ident t lv idx => 3 :: t :: lv :: encI32 idx
  | .vectorLit t lv x y z => 4 :: t :: lv :: (encExpr x ++ (encExpr y ++ encExpr z))
  | .rotLit t lv x y z w =>
    5 :: t :: lv :: (encExpr x ++ (encExpr y ++ (encExpr z ++ encExpr w)))
  | .listLit t lv items => 6 :: t :: lv :: (encCount items.length ++ encExprs items)
  | .call t lv name args =>
    7 :: t :: lv :: (encI32 name ++ (encCount args.length ++ encExprs args))
  | .member t lv base m => 8 :: t :: lv :: (encExpr base ++ [m])
  | .cast t lv target inner => 9 :: t :: lv :: target :: encExpr inner
  | .unary t lv op inner => 10 :: t :: lv :: op :: encExpr inner
  | .postfix_ t lv op inner => 11 :: t :: lv :: op :: encExpr inner
  | .binary t lv op l r => 12 :: t :: lv :: op :: (encExpr l ++ encExpr r)
  | .assign t lv op l r => 13 :: t :: lv :: op :: (encExpr l ++ encExpr r)

def encExprs : List Expr → Bytes
  | [] => []
  | e :: es => encExpr e ++ encExprs es
end

mutual
def encStmt (v : UInt32) : Stmt → Bytes
  | .null => [0xFF]
  | .expr line e => 0 :: (encLine v line ++ encExpr e)
  | .decl line t idx init =>
    1 :: (encLine v line ++ t :: (encI32 idx ++ encOpt init.isNull (encExpr init)))
  | .block line stmts =>
    2 :: (encLine v line ++ (encCount stmts.length ++ encStmts v stmts))
  | .if_ line cond then_ else_ =>
    3 :: (encLine v line ++ (encExpr cond ++ (encStmt v then_ ++
      encOpt else_.isNull (encStmt v else_))))
  | .while_ line cond body => 4 :: (encLine v line ++ (encExpr cond ++ encStmt v body))
  | .do_ line body cond => 5 :: (encLine v line ++ (encStmt v body ++ encExpr cond))
  | .for_ line init cond post body =>
    6 :: (encLine v line ++ (init.length.toUInt8 :: (encExprs init ++
      (encOpt cond.isNull (encExpr cond) ++
        (post.length.toUInt8 :: (encExprs post ++ encStmt v body))))))
  | .ret line hv e => 7 :: (encLine v line ++ hv :: (if hv ≠ 0 then encExpr e else []))
  | .jump line idx => 8 :: (encLine v line ++ encI32 idx)
  | .label line idx => 9 :: (encLine v line ++ encI32 idx)
  | .stateChg line idx => 10 :: (encLine v line ++ encI32 idx)
  | .empty line => 11 :: encLine v line

def encStmts (v : UInt32) : List Stmt → Bytes
  | [] => []
  | s :: ss => encStmt v s ++ encStmts v ss
end

def encParam (p : Param) : Bytes := p.type :: encI32 p.nameIdx

def encString (s : Bytes) : Bytes := encCount s.length ++ s

def encGlobal (g : GlobalVar) : Bytes :=
  g.type :: (encI32 g.nameIdx ++ encOpt g.init.isNull (encExpr g.init))

def encFunc (v : UInt32) (f : FuncDecl) : Bytes :=
  encI32 f.nameIdx ++ (encLine v f.line ++ (f.ret :: f.hasReturnType ::
    f.params.length.toUInt8 :: (f.params.flatMap encParam ++ encStmt v f.body)))

def encEvent (v : UInt32) (e : EventDecl) : Bytes :=
  encI32 e.nameIdx ++ (encLine v e.line ++ (e.params.length.toUInt8 ::
    (e.params.flatMap encParam ++ encStmt v e.body)))

def encState (v : UInt32) (s : StateDecl) : Bytes :=
  encI32 s.nameIdx ++ (encLine v s.line ++ (s.isDefault ::
    (encCount s.events.length ++ s.events.flatMap (encEvent v))))

/-- A table: the number of its elements, and the elements. -/
def encTable {α : Type} (enc : α → Bytes) (xs : List α) : Bytes :=
  encCount xs.length ++ xs.flatMap enc

/-- `enc_v(P)` -/
def encProgram (v : UInt32) (p : Program) : Bytes :=
  magicBytes ++ (encU32 v ++ (encI32 p.flags ++ (encTable encString p.strings ++
    (encTable encGlobal p.globals ++ (encTable (encFunc v) p.funcs ++
      encTable (encState v) p.states)))))

/-! ### Programs that fit the format -/

/-- A count that fits a non-negative `int`. -/
def fitsInt (n : ℕ) : Bool := n < 2^31

/-- A count that fits a byte. -/
def fitsByte (n : ℕ) : Bool := n < 2^8

mutual
def Expr.fits : Expr → Bool
  | .vectorLit _ _ x y z => x.fits && y.fits && z.fits
  | .rotLit _ _ x y z w => x.fits && y.fits && z.fits && w.fits
  | .listLit _ _ items => fitsInt items.length && exprsFit items
  | .call _ _ _ args => fitsInt args.length && exprsFit args
  | .member _ _ base _ => base.fits
  | .cast _ _ _ inner => inner.fits
  | .unary _ _ _ inner => inner.fits
  | .postfix_ _ _ _ inner => inner.fits
  | .binary _ _ _ l r => l.fits && r.fits
  | .assign _ _ _ l r => l.fits && r.fits
  | _ => true

def exprsFit : List Expr → Bool
  | [] => true
  | e :: es => e.fits && exprsFit es
end

mutual
/-- A `return` without value has no expression either. -/
def Stmt.fits : Stmt → Bool
  | .expr _ e => e.fits
  | .decl _ _ _ init => init.fits
  | .block _ stmts => fitsInt stmts.length && stmtsFit stmts
  | .if_ _ cond then_ else_ => cond.fits && then_.fits && else_.fits
  | .while_ _ cond body => cond.fits && body.fits
  | .do_ _ body cond => body.fits && cond.fits
  | .for_ _ init cond post body =>
    fitsByte init.length && exprsFit init && cond.fits && fitsByte post.length &&
      exprsFit post && body.fits
  | .ret _ hv e => e.fits && (hv ≠ 0 || e.isNull)
  | _ => true

def stmtsFit : List Stmt → Bool
  | [] => true
  | s :: ss => s.fits && stmtsFit ss
end

def FuncDecl.fits (f : FuncDecl) : Bool := fitsByte f.params.length && f.body.fits

def EventDecl.fits (e : EventDecl) : Bool := fitsByte e.params.length && e.body.fits

def StateDecl.fits (s : StateDecl) : Bool :=
  fitsInt s.events.length && s.events.all EventDecl.fits

/-- Every count of the program fits its field and a non-negative `int`, and no pool string
contains a NUL. -/
def Program.fits (p : Program) : Bool :=
  fitsInt p.strings.length && p.strings.all (fun s => fitsInt s.length && !s.contains 0) &&
    fitsInt p.globals.length && p.globals.all (fun g => g.init.fits) &&
    fitsInt p.funcs.length && p.funcs.all FuncDecl.fits &&
    fitsInt p.states.length && p.states.all StateDecl.fits

/-! ### Line numbers -/

mutual
def Stmt.mapLine (f : Int32 → Int32) : Stmt → Stmt
  | .null => .null
  | .expr line e => .expr (f line) e
  | .decl line t idx init => .decl (f line) t idx init
  | .block line stmts => .block (f line) (mapLines f stmts)
  | .if_ line cond then_ else_ => .if_ (f line) cond (then_.mapLine f) (else_.mapLine f)
  | .while_ line cond body => .while_ (f line) cond (body.mapLine f)
  | .do_ line body cond => .do_ (f line) (body.mapLine f) cond
  | .for_ line init cond post body => .for_ (f line) init cond post (body.mapLine f)
  | .ret line hv e => .ret (f line) hv e
  | .jump line idx => .jump (f line) idx
  | .label line idx => .label (f line) idx
  | .stateChg line idx => .stateChg (f line) idx
  | .empty line => .empty (f line)

def mapLines (f : Int32 → Int32) : List Stmt → List Stmt
  | [] => []
  | s :: ss => s.mapLine f :: mapLines f ss
end

def FuncDecl.mapLine (f : Int32 → Int32) (d : FuncDecl) : FuncDecl :=
  { d with line := f d.line, body := d.body.mapLine f }

def EventDecl.mapLine (f : Int32 → Int32) (d : EventDecl) : EventDecl :=
  { d with line := f d.line, body := d.body.mapLine f }

def StateDecl.mapLine (f : Int32 → Int32) (d : StateDecl) : StateDecl :=
  { d with line := f d.line, events := d.events.map (EventDecl.mapLine f) }

def Program.mapLine (f : Int32 → Int32) (p : Program) : Program :=
  { p with funcs := p.funcs.map (FuncDecl.mapLine f),
           states := p.states.map (StateDecl.mapLine f) }

/-! ### Reading back

`Yields v m bs a`: wherever the bytes `bs` come next in a source of version `v`, the reader `m`
takes exactly them, without a failed read, and gives `a`. -/

def Yields {α : Type} (v : UInt32) (m : Rd α) (bs : Bytes) (a : α) : Prop :=
  ∀ (r : Rdr) (pre t : Bytes), r.src = pre ++ bs ++ t → r.off = pre.length →
    r.version = v → r.err = false →
      ∃ r', m r = (.ok a, r') ∧ r'.src = r.src ∧ r'.off = (pre ++ bs).length ∧
        r'.version = v ∧ r'.err = false

namespace Yields
variable {α β : Type} {v : UInt32} {m : Rd α} {bs bs' : Bytes} {a : α} {b : β}

theorem pure (a : α) : Yields v (pure a) [] a := by
  intro r pre t hs ho hv he
  exact ⟨r, rfl, rfl, by simpa using ho, hv, he⟩

theorem bind {f : α → Rd β} (h : Yields v m bs a) (hf : Yields v (f a) bs' b) :
    Yields v (m >>= f) (bs ++ bs') b := by
  intro r pre t hs ho hv he
  obtain ⟨r1, h1, s1, o1, v1, e1⟩ := h r pre (bs' ++ t) (by simpa using hs) ho hv he
  obtain ⟨r2, h2, s2, o2, v2, e2⟩ := hf r1 (pre ++ bs) t (by simpa [s1] using hs) o1 v1 e1
  exact ⟨r2, by rw [Run.bind_ok h1, h2], s2.trans s1, by simpa using o2, v2, e2⟩

/-- The last field of a record. -/
theorem last {f : α → β} (h : Yields v m bs a) (hb : f a = b) :
    Yields v (m >>= fun x => Pure.pure (f x)) bs b := by
  subst hb
  have hp : Yields v (Pure.pure (f a) : Rd β) [] (f a) := Yields.pure (f a)
  simpa only [List.append_nil] using bind (f := fun x => Pure.pure (f x)) h hp

/-- A first field of one byte. -/
theorem cons {f : α → Rd β} {c : UInt8} (h : Yields v m [c] a) (hf : Yields v (f a) bs b) :
    Yields v (m >>= f) (c :: bs) b :=
  h.bind hf

/-! #### Primitive reads -/

theorem rTake (n : ℕ) (hn : bs.length = n) : Yields v (rTake n) bs (some bs) := by
  intro r pre t hs ho hv he
  have hlen : r.off+n ≤ r.src.length := by
    rw [hs, ho, List.length_append, List.length_append]
    omega
  have htake : (r.src.drop r.off).take n = bs := by
    rw [hs, ho, List.append_assoc, List.drop_left, ← hn, List.take_left]
  rw [rTake_ok n r hlen, htake]
  exact ⟨_, rfl, rfl, by simp [ho, hn], hv, he⟩

theorem rLocal (n : ℕ) (hn : bs.length = n) : Yields v (rLocal n) bs (leNat bs) := by
  intro r pre t hs ho hv he
  have hlen : r.off+n ≤ r.src.length := by
    rw [hs, ho, List.length_append, List.length_append]
    omega
  have htake : (r.src.drop r.off).take n = bs := by
    rw [hs, ho, List.append_assoc, List.drop_left, ← hn, List.take_left]
  rw [rLocal_ok n r hlen, htake]
  exact ⟨_, rfl, rfl, by simp [ho, hn], hv, he⟩

theorem rU8 (c : UInt8) : Yields v rU8 [c] (some c) := by
  have h : Yields v (Slemu.rTake 1) [c] (some [c]) := rTake 1 rfl
  exact h.last (congrArg some (leNat_singleton c))

theorem u8 (c : UInt8) : Yields v u8 [c] c := by
  have h : Yields v (Slemu.rLocal 1) [c] (leNat [c]) := rLocal 1 rfl
  exact h.last (leNat_singleton c)

theorem u32 (x : UInt32) : Yields v u32 (encU32 x) x := by
  have h : Yields v (Slemu.rLocal 4) (encU32 x) (leNat (encU32 x)) :=
    rLocal 4 (length_leBytes 4 x.toNat)
  refine h.last ?_
  rw [encU32, leNat_leBytes 4 x.toNat x.toNat_lt]
  exact UInt32.ofNat_toNat

theorem i32 (x : Int32) : Yields v i32 (encI32 x) x := (u32 x.toUInt32).last rfl

theorem word64 (x : UInt64) : Yields v (Slemu.rLocal 8) (encU64 x) x.toNat := by
  have h : Yields v (Slemu.rLocal 8) (encU64 x) (leNat (encU64 x)) :=
    rLocal 8 (length_leBytes 8 x.toNat)
  rwa [encU64, leNat_leBytes 8 x.toNat x.toNat_lt] at h

theorem f64 (x : UInt64) : Yields v f64 (encU64 x) x := (word64 x).last UInt64.ofNat_toNat

theorem i64 (x : Int64) : Yields v i64 (encU64 x.toUInt64) x :=
  (word64 x.toUInt64).last (congrArg UInt64.toInt64 UInt64.ofNat_toNat)

theorem store {alloc start len : ℕ} (h : start+len ≤ alloc) :
    Yields v (store alloc start len) [] () := by
  intro r pre t hs ho hv he
  exact ⟨r, store_ok alloc start len r h, rfl, by simpa using ho, hv, he⟩

theorem update {f : Rdr → Rdr} (hf : ∀ r, (f r).src = r.src ∧ (f r).off = r.off ∧
    (f r).version = r.version ∧ (f r).err = r.err) : Yields v (Run.update f) [] () := by
  intro r pre t hs ho hv he
  obtain ⟨h1, h2, h3, h4⟩ := hf r
  exact ⟨f r, rfl, h1, by simpa [h2] using ho, h3.trans hv, h4.trans he⟩

theorem lineWord (line : Int32) :
    Yields v lineWord (encLine v line) (if v ≥ 2 then line else 0) := by
  unfold Slemu.lineWord encLine
  have hver : Yields v (Run.read Rdr.version) [] v := by
    intro r pre t hs ho hv he
    exact ⟨r, by rw [Run.read_apply, hv], rfl, by simpa using ho, hv, he⟩
  rw [← List.nil_append (if v ≥ 2 then encI32 line else [])]
  refine hver.bind ?_
  split
  · exact i32 line
  · exact Yields.pure 0

theorem onFlag {null : α} {absent : Bool} (h : Yields v m bs a)
    (hn : absent = true → null = a) :
    Yields v (onFlag (if absent then 0 else 1) m null) (if absent then [] else bs) a := by
  cases absent with
  | true =>
    rw [← hn rfl]
    exact Yields.pure null
  | false => exact h

/-- A loop that fills an array reads the elements one after the other. -/
theorem fillFrom {γ : Type} {size count : ℕ} (enc : γ → Bytes) (val : γ → α) (xs : List γ)
    (h : ∀ x ∈ xs, Yields v m (enc x) (val x)) (i : ℕ) (hi : i+xs.length ≤ count) :
    Yields v (fillFrom (xcalloc count size) size m i xs.length) (xs.flatMap enc)
      (xs.map val) := by
  induction xs generalizing i with
  | nil => exact Yields.pure []
  | cons x xs ih =>
    rw [List.length_cons] at hi
    have hst : Yields v (Slemu.store (xcalloc count size) (i*size) size) [] () :=
      store (element_inside count size i (by omega))
    have hx := h x List.mem_cons_self
    have hxs := ih (fun y hy => h y (List.mem_cons_of_mem x hy)) (i+1) (by omega)
    exact hst.bind (hx.bind (hxs.last rfl))

theorem fill {γ : Type} {size : ℕ} (enc : γ → Bytes) (val : γ → α) (xs : List γ)
    (h : ∀ x ∈ xs, Yields v m (enc x) (val x)) :
    Yields v (fill xs.length size m) (xs.flatMap enc) (xs.map val) :=
  fillFrom enc val xs h 0 (Nat.zero_add _).le

end Yields

theorem toNat_count (n : ℕ) (h : fitsInt n = true) : n.toUInt32.toNat = n := by
  have : n < 2^31 := by simpa [fitsInt] using h
  simp only [Nat.toUInt32_eq, UInt32.toNat_ofNat']
  omega

theorem toNat_byteCount (n : ℕ) (h : fitsByte n = true) : n.toUInt8.toNat = n := by
  have : n < 2^8 := by simpa [fitsByte] using h
  simp only [Nat.toUInt8_eq, UInt8.toNat_ofNat']
  omega

theorem length_enc_le {γ : Type} (enc : γ → Bytes) {x : γ} {xs : List γ} (hx : x ∈ xs) :
    (enc x).length ≤ (xs.flatMap enc).length := by
  rw [List.length_flatMap]
  exact List.le_sum_of_mem (List.mem_map_of_mem hx)

/-! ### Expressions -/

theorem Yields.exprNode {v : UInt32} {n : ℕ} {tag : UInt8} (t lv : UInt8) {bs : Bytes}
    {e : Expr} (htag : tag ≠ 0xFF)
    (h : Yields v (readExprNode (readExpr n) tag t lv) bs e) :
    Yields v (readExpr (n+1)) (tag :: t :: lv :: bs) e := by
  have hrest : Yields v (readExprRest (readExpr n) tag) (t :: lv :: bs) e := by
    unfold readExprRest
    rw [if_neg htag]
    exact (rU8 t).cons ((rU8 lv).cons h)
  have hnote : Yields v (noteExprTag tag) [] () := update fun _ => ⟨rfl, rfl, rfl, rfl⟩
  exact (rU8 tag).cons (hnote.bind hrest)

theorem Yields.exprNull {v : UInt32} {n : ℕ} : Yields v (readExpr (n+1)) [0xFF] .null := by
  have hnote : Yields v (noteExprTag 0xFF) [] () := update fun _ => ⟨rfl, rfl, rfl, rfl⟩
  exact (rU8 0xFF).cons (hnote.bind (Yields.pure Expr.null))

theorem encExprs_eq (es : List Expr) : encExprs es = es.flatMap encExpr := by
  induction es with
  | nil => rfl
  | cons e es ih => rw [encExprs, ih, List.flatMap_cons]

/-- The array of arguments or list items. -/
theorem Yields.exprs {v : UInt32} {m : Rd Expr} {es : List Expr}
    (h : ∀ e ∈ es, Yields v m (encExpr e) e) :
    Yields v (Slemu.fill es.length 8 m) (encExprs es) es := by
  have hf : Yields v (Slemu.fill es.length 8 m) (es.flatMap encExpr) (es.map id) :=
    Yields.fill encExpr id es h
  rwa [List.map_id, ← encExprs_eq] at hf

theorem Yields.exprTable {v : UInt32} {m : Rd Expr} {es : List Expr}
    (hl : fitsInt es.length = true) (h : ∀ e ∈ es, Yields v m (encExpr e) e) :
    Yields v (Slemu.fill es.length.toUInt32.toNat 8 m) (encExprs es) es := by
  rw [toNat_count es.length hl]
  exact Yields.exprs h

/-! One lemma for each node with children. -/

namespace Yields
variable {v : UInt32} {m : Rd Expr} {t lv : UInt8} {x y z w : Expr} {bx bY bz bw : Bytes}

theorem vectorLit (hx : Yields v m bx x) (hy : Yields v m bY y) (hz : Yields v m bz z) :
    Yields v (readExprNode m 4 t lv) (bx ++ (bY ++ bz)) (.vectorLit t lv x y z) :=
  hx.bind (hy.bind (hz.last rfl))

theorem rotLit (hx : Yields v m bx x) (hy : Yields v m bY y) (hz : Yields v m bz z)
    (hw : Yields v m bw w) : Yields v (readExprNode m 5 t lv) (bx ++ (bY ++ (bz ++ bw)))
      (.rotLit t lv x y z w) :=
  hx.bind (hy.bind (hz.bind (hw.last rfl)))

theorem listLit {items : List Expr} (hl : fitsInt items.length = true)
    (h : ∀ e ∈ items, Yields v m (encExpr e) e) :
    Yields v (readExprNode m 6 t lv) (encCount items.length ++ encExprs items)
      (.listLit t lv items) :=
  (u32 items.length.toUInt32).bind ((exprTable hl h).last rfl)

theorem call {args : List Expr} (name : Int32) (hl : fitsInt args.length = true)
    (h : ∀ e ∈ args, Yields v m (encExpr e) e) :
    Yields v (readExprNode m 7 t lv)
      (encI32 name ++ (encCount args.length ++ encExprs args)) (.call t lv name args) :=
  (i32 name).bind ((u32 args.length.toUInt32).bind ((exprTable hl h).last rfl))

theorem member (c : UInt8) (hx : Yields v m bx x) :
    Yields v (readExprNode m 8 t lv) (bx ++ [c]) (.member t lv x c) :=
  hx.bind ((u8 c).last rfl)

theorem cast (c : UInt8) (hx : Yields v m bx x) :
    Yields v (readExprNode m 9 t lv) (c :: bx) (.cast t lv c x) :=
  (u8 c).cons (hx.last rfl)

theorem unary (c : UInt8) (hx : Yields v m bx x) :
    Yields v (readExprNode m 10 t lv) (c :: bx) (.unary t lv c x) :=
  (u8 c).cons (hx.last rfl)

theorem postfix_ (c : UInt8) (hx : Yields v m bx x) :
    Yields v (readExprNode m 11 t lv) (c :: bx) (.postfix_ t lv c x) :=
  (u8 c).cons (hx.last rfl)

theorem binary (c : UInt8) (hx : Yields v m bx x) (hy : Yields v m bY y) :
    Yields v (readExprNode m 12 t lv) (c :: (bx ++ bY)) (.binary t lv c x y) :=
  (u8 c).cons (hx.bind (hy.last rfl))

theorem assign (c : UInt8) (hx : Yields v m bx x) (hy : Yields v m bY y) :
    Yields v (readExprNode m 13 t lv) (c :: (bx ++ bY)) (.assign t lv c x y) :=
  (u8 c).cons (hx.bind (hy.last rfl))

end Yields

theorem length_encExpr_pos (e : Expr) : 0 < (encExpr e).length := by
  cases e <;> exact Nat.succ_pos _

theorem length_encExpr_le {e : Expr} {es : List Expr} (he : e ∈ es) :
    (encExpr e).length ≤ (encExprs es).length := by
  rw [encExprs_eq]
  exact length_enc_le encExpr he

theorem exprsFit_mem {es : List Expr} (h : exprsFit es = true) : ∀ e ∈ es, e.fits = true := by
  induction es with
  | nil => nofun
  | cons e es ih =>
    simp only [exprsFit, Bool.and_eq_true] at h
    exact List.forall_mem_cons.mpr ⟨h.1, ih h.2⟩

/-- By induction on the fuel: every node spends at least its tag on it. -/
theorem readExpr_yields (v : UInt32) (n : ℕ) : ∀ e : Expr, e.fits = true →
    (encExpr e).length ≤ n → Yields v (readExpr n) (encExpr e) e := by
  induction n with
  | zero =>
    intro e _ hn
    have hpos := length_encExpr_pos e
    omega
  | succ n ih =>
    intro e hf hn
    cases e with
    | null => exact Yields.exprNull
    | intLit t lv i => exact Yields.exprNode t lv (by decide) ((Yields.i64 i).last rfl)
    | floatLit t lv bits => exact Yields.exprNode t lv (by decide) ((Yields.f64 bits).last rfl)
    | stringLit t lv idx => exact Yields.exprNode t lv (by decide) ((Yields.i32 idx).last rfl)
    | ident t lv idx => exact Yields.exprNode t lv (by decide) ((Yields.i32 idx).last rfl)
    | vectorLit t lv x y z =>
      simp only [Expr.fits, Bool.and_eq_true] at hf
      simp only [encExpr, List.length_cons, List.length_append] at hn
      have hx := ih x hf.1.1 (by omega)
      have hy := ih y hf.1.2 (by omega)
      have hz := ih z hf.2 (by omega)
      exact Yields.exprNode t lv (by decide) (.vectorLit hx hy hz)
    | rotLit t lv x y z w =>
      simp only [Expr.fits, Bool.and_eq_true] at hf
      simp only [encExpr, List.length_cons, List.length_append] at hn
      have hx := ih x hf.1.1.1 (by omega)
      have hy := ih y hf.1.1.2 (by omega)
      have hz := ih z hf.1.2 (by omega)
      have hw := ih w hf.2 (by omega)
      exact Yields.exprNode t lv (by decide) (.rotLit hx hy hz hw)
    | listLit t lv items =>
      simp only [Expr.fits, Bool.and_eq_true] at hf
      simp only [encExpr, List.length_cons, List.length_append] at hn
      have hi : ∀ e ∈ items, Yields v (readExpr n) (encExpr e) e := by
        intro e he
        have hle := length_encExpr_le he
        exact ih e (exprsFit_mem hf.2 e he) (by omega)
      exact Yields.exprNode t lv (by decide) (.listLit hf.1 hi)
    | call t lv name args =>
      simp only [Expr.fits, Bool.and_eq_true] at hf
      simp only [encExpr, List.length_cons, List.length_append] at hn
      have ha : ∀ e ∈ args, Yields v (readExpr n) (encExpr e) e := by
        intro e he
        have hle := length_encExpr_le he
        exact ih e (exprsFit_mem hf.2 e he) (by omega)
      exact Yields.exprNode t lv (by decide) (.call name hf.1 ha)
    | member t lv base m =>
      simp only [encExpr, List.length_cons, List.length_append] at hn
      exact Yields.exprNode t lv (by decide) (.member m (ih base hf (by omega)))
    | cast t lv target inner =>
      simp only [encExpr, List.length_cons] at hn
      exact Yields.exprNode t lv (by decide) (.cast target (ih inner hf (by omega)))
    | unary t lv op inner =>
      simp only [encExpr, List.length_cons] at hn
      exact Yields.exprNode t lv (by decide) (.unary op (ih inner hf (by omega)))
    | postfix_ t lv op inner =>
      simp only [encExpr, List.length_cons] at hn
      exact Yields.exprNode t lv (by decide) (.postfix_ op (ih inner hf (by omega)))
    | binary t lv op l r =>
      simp only [Expr.fits, Bool.and_eq_true] at hf
      simp only [encExpr, List.length_cons, List.length_append] at hn
      have hl := ih l hf.1 (by omega)
      have hr := ih r hf.2 (by omega)
      exact Yields.exprNode t lv (by decide) (.binary op hl hr)
    | assign t lv op l r =>
      simp only [Expr.fits, Bool.and_eq_true] at hf
      simp only [encExpr, List.length_cons, List.length_append] at hn
      have hl := ih l hf.1 (by omega)
      have hr := ih r hf.2 (by omega)
      exact Yields.exprNode t lv (by decide) (.assign op hl hr)

/-! ### Statements -/

/-- The line that is left of a line number in version `v`. -/
def lineIn (v : UInt32) (line : Int32) : Int32 := if v ≥ 2 then line else 0

theorem Yields.stmtNode {v : UInt32} {n : ℕ} {tag : UInt8} (line : Int32) {bs : Bytes}
    {s : Stmt} (htag : tag ≠ 0xFF)
    (h : Yields v (readStmtNode (readExpr n) (readStmt n) tag (lineIn v line)) bs s) :
    Yields v (readStmt (n+1)) (tag :: (encLine v line ++ bs)) s := by
  have hrest : Yields v (readStmtRest (readExpr n) (readStmt n) tag)
      (encLine v line ++ bs) s := by
    unfold readStmtRest
    rw [if_neg htag]
    exact (Yields.lineWord line).bind h
  have hnote : Yields v (noteStmtTag tag) [] () := update fun _ => ⟨rfl, rfl, rfl, rfl⟩
  exact (rU8 tag).cons (hnote.bind hrest)

theorem Yields.stmtNull {v : UInt32} {n : ℕ} : Yields v (readStmt (n+1)) [0xFF] .null := by
  have hnote : Yields v (noteStmtTag 0xFF) [] () := update fun _ => ⟨rfl, rfl, rfl, rfl⟩
  exact (rU8 0xFF).cons (hnote.bind (Yields.pure Stmt.null))

theorem encStmts_eq (v : UInt32) (ss : List Stmt) :
    encStmts v ss = ss.flatMap (encStmt v) := by
  induction ss with
  | nil => rfl
  | cons s ss ih => rw [encStmts, ih, List.flatMap_cons]

theorem mapLines_eq (f : Int32 → Int32) (ss : List Stmt) :
    mapLines f ss = ss.map (Stmt.mapLine f) := by
  induction ss with
  | nil => rfl
  | cons s ss ih => rw [mapLines, ih, List.map_cons]

theorem Yields.stmtTable {v : UInt32} {m : Rd Stmt} {ss : List Stmt}
    (hl : fitsInt ss.length = true)
    (h : ∀ s ∈ ss, Yields v m (encStmt v s) (s.mapLine (lineIn v))) :
    Yields v (Slemu.fill ss.length.toUInt32.toNat 8 m) (encStmts v ss)
      (mapLines (lineIn v) ss) := by
  rw [toNat_count ss.length hl, encStmts_eq, mapLines_eq]
  exact Yields.fill (encStmt v) (Stmt.mapLine (lineIn v)) ss h

theorem Expr.eq_null {e : Expr} (h : e.isNull = true) : Expr.null = e := by
  cases e <;> first | rfl | cases h

theorem Stmt.eq_null {s : Stmt} (f : Int32 → Int32) (h : s.isNull = true) :
    Stmt.null = s.mapLine f := by
  cases s <;> first | rfl | cases h

theorem length_encStmt_pos (v : UInt32) (s : Stmt) : 0 < (encStmt v s).length := by
  cases s <;> exact Nat.succ_pos _

theorem length_encStmt_le {v : UInt32} {s : Stmt} {ss : List Stmt} (hs : s ∈ ss) :
    (encStmt v s).length ≤ (encStmts v ss).length := by
  rw [encStmts_eq]
  exact length_enc_le (encStmt v) hs

/-- What a flag announces absent would take one byte. -/
theorem length_le_encOpt {absent : Bool} {bytes : Bytes}
    (h : absent = true → bytes.length = 1) :
    bytes.length ≤ (encOpt absent bytes).length := by
  cases absent with
  | true =>
    rw [h rfl]
    exact Nat.succ_pos _
  | false => exact Nat.le_succ _

theorem length_encExpr_null {e : Expr} (h : e.isNull = true) : (encExpr e).length = 1 := by
  rw [← Expr.eq_null h]
  rfl

theorem length_encStmt_null {v : UInt32} {s : Stmt} (h : s.isNull = true) :
    (encStmt v s).length = 1 := by
  cases s <;> first | rfl | cases h

theorem stmtsFit_mem {ss : List Stmt} (h : stmtsFit ss = true) : ∀ s ∈ ss, s.fits = true := by
  induction ss with
  | nil => nofun
  | cons s ss ih =>
    simp only [stmtsFit, Bool.and_eq_true] at h
    exact List.forall_mem_cons.mpr ⟨h.1, ih h.2⟩

/-! Again one lemma for each node with children. -/

namespace Yields
variable {v : UInt32} {me : Rd Expr} {ms : Rd Stmt} {line : Int32}
variable {e cond : Expr} {body s : Stmt} {bc bs : Bytes}

theorem stmtDecl (t : UInt8) (idx : Int32) (h : Yields v me (encExpr e) e) :
    Yields v (readStmtNode me ms 1 line) (t :: (encI32 idx ++ encOpt e.isNull (encExpr e)))
      (.decl line t idx e) :=
  (u8 t).cons ((i32 idx).bind ((u8 _).cons ((onFlag h Expr.eq_null).last rfl)))

theorem block {ss : List Stmt} (hl : fitsInt ss.length = true)
    (h : ∀ s ∈ ss, Yields v ms (encStmt v s) (s.mapLine (lineIn v))) :
    Yields v (readStmtNode me ms 2 line) (encCount ss.length ++ encStmts v ss)
      (.block line (mapLines (lineIn v) ss)) :=
  (u32 ss.length.toUInt32).bind ((stmtTable hl h).last rfl)

theorem if_ (hc : Yields v me (encExpr cond) cond)
    (ht : Yields v ms (encStmt v body) (body.mapLine (lineIn v)))
    (he : Yields v ms (encStmt v s) (s.mapLine (lineIn v))) :
    Yields v (readStmtNode me ms 3 line)
      (encExpr cond ++ (encStmt v body ++ encOpt s.isNull (encStmt v s)))
      (.if_ line cond (body.mapLine (lineIn v)) (s.mapLine (lineIn v))) :=
  hc.bind (ht.bind ((u8 _).cons ((onFlag he (Stmt.eq_null (lineIn v))).last rfl)))

theorem while_ (hc : Yields v me bc cond) (hs : Yields v ms bs s) :
    Yields v (readStmtNode me ms 4 line) (bc ++ bs) (.while_ line cond s) :=
  hc.bind (hs.last rfl)

theorem do_ (hs : Yields v ms bs s) (hc : Yields v me bc cond) :
    Yields v (readStmtNode me ms 5 line) (bs ++ bc) (.do_ line s cond) :=
  hs.bind (hc.last rfl)

/-- The expressions of a `for` clause. -/
theorem clause {es : List Expr} (hl : fitsByte es.length = true)
    (h : ∀ e ∈ es, Yields v me (encExpr e) e) :
    Yields v (Slemu.fill es.length.toUInt8.toNat 8 me) (encExprs es) es := by
  rw [toNat_byteCount es.length hl]
  exact exprs h

theorem for_ {init post : List Expr} (hli : fitsByte init.length = true)
    (hi : ∀ e ∈ init, Yields v me (encExpr e) e) (hc : Yields v me (encExpr cond) cond)
    (hlp : fitsByte post.length = true) (hp : ∀ e ∈ post, Yields v me (encExpr e) e)
    (hs : Yields v ms bs s) :
    Yields v (readStmtNode me ms 6 line) (init.length.toUInt8 :: (encExprs init ++
      (encOpt cond.isNull (encExpr cond) ++ (post.length.toUInt8 :: (encExprs post ++ bs)))))
      (.for_ line init cond post s) :=
  (u8 _).cons ((clause hli hi).bind ((u8 _).cons ((onFlag hc Expr.eq_null).bind
    ((u8 _).cons ((clause hlp hp).bind (hs.last rfl))))))

/-- A `return` has an expression when its flag says so. -/
theorem ret {hv : UInt8} (h : Yields v me (encExpr e) e)
    (hn : (hv ≠ 0 || e.isNull) = true) :
    Yields v (readStmtNode me ms 7 line) (hv :: if hv ≠ 0 then encExpr e else [])
      (.ret line hv e) := by
  have he : Yields v (Slemu.onFlag hv me .null) (if hv ≠ 0 then encExpr e else []) e := by
    unfold Slemu.onFlag
    split
    · exact h
    · have hnull : Expr.null = e := Expr.eq_null (by simpa [*] using hn)
      rw [← hnull]
      exact Yields.pure Expr.null
  exact (u8 hv).cons (he.last rfl)

end Yields

theorem readStmt_yields (v : UInt32) (n : ℕ) : ∀ s : Stmt, s.fits = true →
    (encStmt v s).length ≤ n → Yields v (readStmt n) (encStmt v s) (s.mapLine (lineIn v)) := by
  induction n with
  | zero =>
    intro s _ hn
    have hpos := length_encStmt_pos v s
    omega
  | succ n ih =>
    intro s hf hn
    cases s with
    | null => exact Yields.stmtNull
    | expr line e =>
      simp only [encStmt, List.length_cons, List.length_append] at hn
      have he := readExpr_yields v n e hf (by omega)
      exact Yields.stmtNode line (by decide) (he.last rfl)
    | decl line t idx init =>
      simp only [encStmt, List.length_cons, List.length_append] at hn
      have hle := length_le_encOpt (@length_encExpr_null init)
      have hi := readExpr_yields v n init hf (by omega)
      exact Yields.stmtNode line (by decide) (.stmtDecl t idx hi)
    | block line stmts =>
      simp only [Stmt.fits, Bool.and_eq_true] at hf
      simp only [encStmt, List.length_cons, List.length_append] at hn
      have hs : ∀ s ∈ stmts, Yields v (readStmt n) (encStmt v s) (s.mapLine (lineIn v)) := by
        intro s hs
        have hle := length_encStmt_le (v := v) hs
        exact ih s (stmtsFit_mem hf.2 s hs) (by omega)
      exact Yields.stmtNode line (by decide) (.block hf.1 hs)
    | if_ line cond then_ else_ =>
      simp only [Stmt.fits, Bool.and_eq_true] at hf
      simp only [encStmt, List.length_cons, List.length_append] at hn
      have hle := length_le_encOpt (@length_encStmt_null v else_)
      have hc := readExpr_yields v n cond hf.1.1 (by omega)
      have ht := ih then_ hf.1.2 (by omega)
      have he := ih else_ hf.2 (by omega)
      exact Yields.stmtNode line (by decide) (.if_ hc ht he)
    | while_ line cond body =>
      simp only [Stmt.fits, Bool.and_eq_true] at hf
      simp only [encStmt, List.length_cons, List.length_append] at hn
      have hc := readExpr_yields v n cond hf.1 (by omega)
      have hb := ih body hf.2 (by omega)
      exact Yields.stmtNode line (by decide) (.while_ hc hb)
    | do_ line body cond =>
      simp only [Stmt.fits, Bool.and_eq_true] at hf
      simp only [encStmt, List.length_cons, List.length_append] at hn
      have hb := ih body hf.1 (by omega)
      have hc := readExpr_yields v n cond hf.2 (by omega)
      exact Yields.stmtNode line (by decide) (.do_ hb hc)
    | for_ line init cond post body =>
      simp only [Stmt.fits, Bool.and_eq_true] at hf
      obtain ⟨⟨⟨⟨⟨hli, hfi⟩, hfc⟩, hlp⟩, hfp⟩, hfb⟩ := hf
      simp only [encStmt, List.length_cons, List.length_append] at hn
      have hle := length_le_encOpt (@length_encExpr_null cond)
      have hi : ∀ e ∈ init, Yields v (readExpr n) (encExpr e) e := by
        intro e he
        have hle := length_encExpr_le he
        exact readExpr_yields v n e (exprsFit_mem hfi e he) (by omega)
      have hp : ∀ e ∈ post, Yields v (readExpr n) (encExpr e) e := by
        intro e he
        have hle := length_encExpr_le he
        exact readExpr_yields v n e (exprsFit_mem hfp e he) (by omega)
      have hc := readExpr_yields v n cond hfc (by omega)
      have hb := ih body hfb (by omega)
      exact Yields.stmtNode line (by decide) (.for_ hli hi hc hlp hp hb)
    | ret line hv e =>
      simp only [Stmt.fits, Bool.and_eq_true] at hf
      have hle : (encExpr e).length ≤ n := by
        simp only [encStmt, List.length_cons, List.length_append] at hn
        by_cases h0 : hv = 0
        · have hnull : e.isNull = true := by simpa [h0] using hf.2
          rw [length_encExpr_null hnull]
          omega
        · rw [if_pos h0] at hn
          omega
      have he := readExpr_yields v n e hf.1 hle
      exact Yields.stmtNode line (by decide) (.ret he hf.2)
    | jump line idx => exact Yields.stmtNode line (by decide) ((Yields.i32 idx).last rfl)
    | label line idx => exact Yields.stmtNode line (by decide) ((Yields.i32 idx).last rfl)
    | stateChg line idx => exact Yields.stmtNode line (by decide) ((Yields.i32 idx).last rfl)
    | empty line =>
      have h : Yields v (readStmt (n+1)) (11 :: (encLine v line ++ [])) (Stmt.empty (lineIn v line)) :=
        Yields.stmtNode line (by decide) (Yields.pure (Stmt.empty (lineIn v line)))
      rwa [List.append_nil] at h

/-! ### Programs -/

namespace Yields
variable {v : UInt32} {α γ : Type}

theorem table {m : Rd α} {size : ℕ} {enc : γ → Bytes} {val : γ → α} {xs : List γ}
    (hl : fitsInt xs.length = true) (h : ∀ x ∈ xs, Yields v m (enc x) (val x)) :
    Yields v (readTable size m) (encTable enc xs) (xs.map val) := by
  have hfill : Yields v (Slemu.fill xs.length.toUInt32.toNat size m) (xs.flatMap enc)
      (xs.map val) := by
    rw [toNat_count xs.length hl]
    exact fill enc val xs h
  exact (u32 xs.length.toUInt32).bind hfill

theorem rBytes {bs : Bytes} (alloc n : ℕ) (hn : bs.length = n) (ha : n ≤ alloc) :
    Yields v (rBytes alloc n) bs (some bs) := by
  have hst : Yields v (Slemu.store alloc 0 n) [] () := store (by omega)
  have hlast := hst.last (f := fun _ => some bs) rfl
  have h : Yields v (Slemu.rBytes alloc n) (bs ++ []) (some bs) := (rTake n hn).bind hlast
  rwa [List.append_nil] at h

/-- A string shorter than 2^31 does not make the size of its block wrap around. -/
theorem string (s : Bytes) (hl : fitsInt s.length = true) (h0 : (0 : UInt8) ∉ s) :
    Yields v readString (encString s) s := by
  have hlen : s.length < 2^31 := by simpa [fitsInt] using hl
  have hnat : s.length.toUInt32.toNat = s.length := toNat_count s.length hl
  have hsucc : (s.length.toUInt32+1).toNat = s.length+1 := by
    rw [UInt32.toNat_add, hnat]
    exact Nat.mod_eq_of_lt (show s.length+1 < 2^32 by omega)
  have hterm : Yields v (Slemu.store (xmalloc (s.length.toUInt32+1).toNat)
      s.length.toUInt32.toNat 1) [] () := by
    apply store
    rw [hsucc, hnat]
    exact le_max_left _ _
  have hchars : ∃ o : Option Bytes, o.getD [] = s ∧
      Yields v (readChars (xmalloc (s.length.toUInt32+1).toNat) s.length.toUInt32) s o := by
    unfold readChars
    by_cases hz : s.length.toUInt32 = 0
    · have hs : s = [] := by
        rw [← List.length_eq_zero_iff, ← hnat, hz]
        rfl
      rw [if_neg (not_not_intro hz)]
      exact ⟨none, hs.symm, hs ▸ Yields.pure none⟩
    · rw [if_pos hz]
      refine ⟨some s, rfl, rBytes _ _ hnat.symm ?_⟩
      rw [hsucc, hnat]
      exact (Nat.le_succ _).trans (le_max_left _ _)
  obtain ⟨o, ho, hchars⟩ := hchars
  have hcstr : cstr (o.getD []) = s := by rw [ho, cstr_of_nul_free s h0]
  have hrest := hterm.last (f := fun _ => cstr (o.getD [])) hcstr
  have h := hchars.bind (f := fun o => do
    Slemu.store (xmalloc (s.length.toUInt32+1).toNat) s.length.toUInt32.toNat 1
    Pure.pure (cstr (o.getD []))) hrest
  rw [List.append_nil] at h
  exact (u32 s.length.toUInt32).bind h

theorem global {n : ℕ} (g : GlobalVar) (hf : g.init.fits = true)
    (hn : (encGlobal g).length ≤ n) : Yields v (readGlobal n) (encGlobal g) g := by
  simp only [encGlobal, List.length_cons, List.length_append] at hn
  have hle := length_le_encOpt (@length_encExpr_null g.init)
  have hi := readExpr_yields v n g.init hf (by omega)
  exact (u8 g.type).cons ((i32 g.nameIdx).bind ((u8 _).cons
    ((onFlag hi Expr.eq_null).last rfl)))

theorem param (p : Param) : Yields v readParam (encParam p) p :=
  (u8 p.type).cons ((i32 p.nameIdx).last rfl)

theorem params {ps : List Param} (hl : fitsByte ps.length = true) :
    Yields v (Slemu.fill ps.length.toUInt8.toNat 8 readParam) (ps.flatMap encParam) ps := by
  have h : Yields v (Slemu.fill ps.length 8 readParam) (ps.flatMap encParam) (ps.map id) :=
    fill encParam id ps fun p _ => param p
  rwa [List.map_id, ← toNat_byteCount ps.length hl] at h

theorem func {n : ℕ} (f : FuncDecl) (hf : f.fits = true) (hn : (encFunc v f).length ≤ n) :
    Yields v (readFunc n) (encFunc v f) (f.mapLine (lineIn v)) := by
  simp only [FuncDecl.fits, Bool.and_eq_true] at hf
  simp only [encFunc, List.length_cons, List.length_append] at hn
  have hb := readStmt_yields v n f.body hf.2 (by omega)
  exact (i32 f.nameIdx).bind ((lineWord f.line).bind ((u8 f.ret).cons
    ((u8 f.hasReturnType).cons ((u8 _).cons ((params hf.1).bind (hb.last rfl))))))

theorem event {n : ℕ} (e : EventDecl) (hf : e.fits = true) (hn : (encEvent v e).length ≤ n) :
    Yields v (readEvent n) (encEvent v e) (e.mapLine (lineIn v)) := by
  simp only [EventDecl.fits, Bool.and_eq_true] at hf
  simp only [encEvent, List.length_cons, List.length_append] at hn
  have hb := readStmt_yields v n e.body hf.2 (by omega)
  exact (i32 e.nameIdx).bind ((lineWord e.line).bind ((u8 _).cons
    ((params hf.1).bind (hb.last rfl))))

end Yields

theorem Yields.state {v : UInt32} {n : ℕ} (s : StateDecl) (hf : s.fits = true)
    (hn : (encState v s).length ≤ n) :
    Yields v (readState n) (encState v s) (s.mapLine (lineIn v)) := by
  simp only [StateDecl.fits, Bool.and_eq_true] at hf
  simp only [encState, List.length_cons, List.length_append] at hn
  have he : ∀ e ∈ s.events,
      Yields v (readEvent n) (encEvent v e) (e.mapLine (lineIn v)) := by
    intro e he
    have hle := length_enc_le (encEvent v) he
    exact event e (List.all_eq_true.mp hf.2 e he) (by omega)
  have ht : Yields v (Slemu.fill s.events.length.toUInt32.toNat 32 (readEvent n))
      (s.events.flatMap (encEvent v)) (s.events.map (EventDecl.mapLine (lineIn v))) := by
    rw [toNat_count s.events.length hf.1]
    exact fill (encEvent v) (EventDecl.mapLine (lineIn v)) s.events he
  exact (i32 s.nameIdx).bind ((lineWord s.line).bind ((u8 s.isDefault).cons
    ((u32 s.events.length.toUInt32).bind (ht.last rfl))))

/-- What follows the header. -/
def encBody (v : UInt32) (p : Program) : Bytes :=
  encTable encString p.strings ++ (encTable encGlobal p.globals ++
    (encTable (encFunc v) p.funcs ++ encTable (encState v) p.states))

theorem length_enc_le_table {γ : Type} (enc : γ → Bytes) {x : γ} {xs : List γ} (hx : x ∈ xs) :
    (enc x).length ≤ (encTable enc xs).length := by
  rw [encTable, List.length_append]
  exact (length_enc_le enc hx).trans (Nat.le_add_left _ _)

theorem Yields.program {v : UInt32} {n : ℕ} (p : Program) (hf : p.fits = true)
    (hn : (encBody v p).length ≤ n) :
    Yields v (readProgram n p.flags) (encBody v p) (p.mapLine (lineIn v)) := by
  simp only [Program.fits, Bool.and_eq_true, List.all_eq_true] at hf
  obtain ⟨⟨⟨⟨⟨⟨⟨hls, hs⟩, hlg⟩, hg⟩, hlf⟩, hfn⟩, hlt⟩, ht⟩ := hf
  simp only [encBody, List.length_append] at hn
  have strings : Yields v (readTable 8 readString) (encTable encString p.strings) p.strings := by
    have h : ∀ x ∈ p.strings, Yields v readString (encString x) (id x) := by
      intro x hx
      have hfit := hs x hx
      simp only [Bool.not_eq_true', List.contains_eq_mem, decide_eq_false_iff_not] at hfit
      exact string x hfit.1 hfit.2
    simpa only [List.map_id] using table hls h
  have globals : Yields v (readTable 16 (readGlobal n)) (encTable encGlobal p.globals)
      p.globals := by
    have h : ∀ g ∈ p.globals, Yields v (readGlobal n) (encGlobal g) (id g) := by
      intro g hmem
      have hle := length_enc_le_table encGlobal hmem
      exact global g (hg g hmem) (by omega)
    simpa only [List.map_id] using table hlg h
  have funcs : ∀ f ∈ p.funcs,
      Yields v (readFunc n) (encFunc v f) (f.mapLine (lineIn v)) := by
    intro f hmem
    have hle := length_enc_le_table (encFunc v) hmem
    exact func f (hfn f hmem) (by omega)
  have states : ∀ s ∈ p.states,
      Yields v (readState n) (encState v s) (s.mapLine (lineIn v)) := by
    intro s hmem
    have hle := length_enc_le_table (encState v) hmem
    exact state s (ht s hmem) (by omega)
  exact strings.bind (globals.bind ((table hlf funcs).bind ((table hlt states).last rfl)))

theorem length_encU32 (x : UInt32) : (encU32 x).length = 4 := length_leBytes 4 x.toNat

theorem leNat_encU32 (x : UInt32) (t : Bytes) :
    (leNat ((encU32 x ++ t).take 4)).toUInt32 = x := by
  rw [List.take_left' (length_encU32 x), encU32, leNat_leBytes 4 x.toNat x.toNat_lt]
  exact UInt32.ofNat_toNat

theorem header_encProgram (v : UInt32) (p : Program) (t : Bytes) (hv : v = 1 ∨ v = 2) :
    headerOk (encProgram v p ++ t) = true ∧
      headerFlags (encProgram v p ++ t) = p.flags ∧
      ∀ junk, (afterHeader (encProgram v p ++ t) junk).version = v := by
  have hsrc : encProgram v p ++ t =
      magicBytes ++ (encU32 v ++ (encI32 p.flags ++ (encBody v p ++ t))) := by
    simp only [encProgram, encBody, List.append_assoc]
  have hlen : (magicBytes ++ encU32 v).length = 9 := by
    rw [List.length_append, length_encU32]
    rfl
  have hmagic : (encProgram v p ++ t).take 5 = magicBytes := by
    rw [hsrc]
    exact List.take_left' rfl
  have hver : (leNat (((encProgram v p ++ t).drop 5).take 4)).toUInt32 = v := by
    have hdrop : (encProgram v p ++ t).drop 5 =
        encU32 v ++ (encI32 p.flags ++ (encBody v p ++ t)) := by
      rw [hsrc]
      exact List.drop_left' rfl
    rw [hdrop, leNat_encU32]
  have hflags : (leNat (((encProgram v p ++ t).drop 9).take 4)).toUInt32 =
      p.flags.toUInt32 := by
    have hdrop : (encProgram v p ++ t).drop 9 = encI32 p.flags ++ (encBody v p ++ t) := by
      rw [hsrc, ← List.append_assoc]
      exact List.drop_left' hlen
    rw [hdrop, encI32, leNat_encU32]
  have h13 : 13 ≤ (encProgram v p ++ t).length := by
    rw [hsrc, ← List.append_assoc, List.length_append, hlen, List.length_append, encI32,
      length_encU32]
    omega
  refine ⟨?_, ?_, fun junk => hver⟩
  · simp only [headerOk, h13, hmagic, hver, decide_true, Bool.true_and, Bool.or_eq_true,
      decide_eq_true_eq]
    exact hv
  · unfold headerFlags
    rw [hflags]
    rfl

theorem programLoad_enc (v : UInt32) (p : Program) (t : Bytes) (junk : ℕ → UInt64)
    (hv : v = 1 ∨ v = 2) (hf : p.fits = true) :
    programLoad (encProgram v p ++ t) junk = .ok (some (p.mapLine (lineIn v))) := by
  obtain ⟨hok, hflags, hver⟩ := header_encProgram v p t hv
  have hsrc : encProgram v p ++ t =
      (magicBytes ++ encU32 v ++ encI32 p.flags) ++ encBody v p ++ t := by
    simp only [encProgram, encBody, List.append_assoc]
  have hlen : (encBody v p).length ≤ (encProgram v p ++ t).length+1 := by
    rw [hsrc, List.length_append, List.length_append]
    omega
  have hpre : (magicBytes ++ encU32 v ++ encI32 p.flags).length = 13 := by
    simp only [List.length_append, encI32, length_encU32]
    rfl
  obtain ⟨r', hr, -, -, -, he⟩ := Yields.program (v := v) p hf hlen
    (afterHeader (encProgram v p ++ t) junk) _ t hsrc hpre.symm (hver junk) rfl
  unfold programLoad
  rw [load_done _ junk hok _ r' (hflags ▸ hr), he]
  rfl

/-! ### Line numbers of version 2 -/

mutual
theorem Stmt.mapLine_id : ∀ s : Stmt, s.mapLine id = s
  | .block line stmts => by rw [Stmt.mapLine, mapLines_id stmts, id_eq]
  | .if_ line cond then_ else_ => by
    rw [Stmt.mapLine, then_.mapLine_id, else_.mapLine_id, id_eq]
  | .while_ line cond body => by rw [Stmt.mapLine, body.mapLine_id, id_eq]
  | .do_ line body cond => by rw [Stmt.mapLine, body.mapLine_id, id_eq]
  | .for_ line init cond post body => by rw [Stmt.mapLine, body.mapLine_id, id_eq]
  | .null | .expr .. | .decl .. | .ret .. | .jump .. | .label .. | .stateChg .. | .empty .. => rfl

theorem mapLines_id : ∀ ss : List Stmt, mapLines id ss = ss
  | [] => rfl
  | s :: ss => by rw [mapLines, s.mapLine_id, mapLines_id ss]
end

theorem Program.mapLine_id (p : Program) : p.mapLine id = p := by
  have hf : FuncDecl.mapLine id = id := by
    funext f
    simp only [FuncDecl.mapLine, Stmt.mapLine_id, id_eq]
  have he : EventDecl.mapLine id = id := by
    funext e
    simp only [EventDecl.mapLine, Stmt.mapLine_id, id_eq]
  have hs : StateDecl.mapLine id = id := by
    funext s
    simp only [StateDecl.mapLine, he, List.map_id, id_eq]
  simp only [Program.mapLine, hf, hs, List.map_id]

/-- The loader inverts the format, whatever follows the program. Version 1 has no lines. -/
theorem programLoad_encProgram (p : Program) (t : Bytes) (junk : ℕ → UInt64)
    (hf : p.fits = true) :
    programLoad (encProgram 2 p ++ t) junk = .ok (some p) ∧
      programLoad (encProgram 1 p ++ t) junk = .ok (some (p.mapLine fun _ => 0)) := by
  have h2 : lineIn 2 = id := rfl
  have h1 : lineIn 1 = fun _ => 0 := rfl
  constructor
  · rw [programLoad_enc 2 p t junk (Or.inr rfl) hf, h2, p.mapLine_id]
  · rw [programLoad_enc 1 p t junk (Or.inl rfl) hf, h1]

/-- A script with a global, a `touch_start` handler and an empty `default` state. -/
def sampleProgram : Program where
  strings := [lit "hits", lit "default", lit "touch_start"]
  globals := [⟨0, 0, .intLit 0 0 3⟩]
  funcs := []
  states := [⟨1, 2, 1, [⟨2, 3, [⟨0, 0⟩], .block 3 [.expr 4 (.postfix_ 0 0 62 (.ident 0 1 0)),
    .if_ 5 (.ident 0 1 0) (.stateChg 6 1) .null]⟩]⟩]
  flags := 0

theorem sampleProgram_reload :
    programLoad (encProgram 2 sampleProgram ++ [1, 2]) (fun _ => 0) =
        .ok (some sampleProgram) ∧
      programLoad (encProgram 1 sampleProgram ++ [1, 2]) (fun _ => 0) =
        .ok (some (sampleProgram.mapLine fun _ => 0)) :=
  programLoad_encProgram sampleProgram [1, 2] (fun _ => 0) (by decide)

end Slemu
