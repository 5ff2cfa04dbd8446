import Slemu.IntegerOps
import Slemu.CallIsolation

/-! Assignments, compound assignments, `++` and `--`: what they store and return, by the kind of
their lvalue. -/

namespace Slemu
variable {F : Type} [CDouble F]
open CDouble

/-- `x - 1.0` and `x + -1.0` are the same double. -/
class CDouble.SubOne (F : Type) [CDouble F] : Prop where
  sub_one (x : F) : sub x (ofInt 1) = add x (ofInt (-1))

instance : CDouble.SubOne ℚ where
  sub_one x := by
    change x - ((1:ℤ) : ℚ) = x + ((-1:ℤ) : ℚ)
    rw [Int.cast_neg, sub_eq_add_neg]

/-! ### What an update means -/

/-- `=` or a compound assignment, and `++` or `--` in front or behind. -/
inductive Update
  | assign (op : UInt8) (r : Expr)
  | front (op : UInt8)
  | behind (op : UInt8)

namespace Update

/-- The update of an lvalue as an expression. -/
def expr (t lv : UInt8) (l : Expr) : Update → Expr
  | assign op r => .assign t lv op l r
  | front op => .unary t lv op l
  | behind op => .postfix_ t lv op l

/-- The operators of assignments, and `++` and `--`. -/
def Proper : Update → Prop
  | assign op _ => op ∈ [Op.assign, Op.plusAssign, Op.minusAssign, Op.starAssign, Op.slashAssign,
      Op.percentAssign]
  | front op | behind op => op = Op.inc ∨ op = Op.dec

/-- The binary operator, none for `=`. -/
def binop : Update → Option UInt8
  | assign op _ => if op = Op.assign then none else some (compoundOp op)
  | front op | behind op => some (if op = Op.inc then Op.plus else Op.minus)

/-- The right side; `++` and `--` add and subtract 1. -/
def right (r : Interp F) : Update → VM F (SValue F)
  | assign _ e => r.eval e
  | front _ | behind _ => pure (.int 1)

/-- The value of the right side, or of the binary operation on the old value and the right side. -/
def value (u : Update) (old rhs : SValue F) : Option (SValue F) :=
  match u.binop with
  | none => some rhs
  | some op => evalBinary op old rhs

/-- `++` and `--` behind return the old value, all others the new one. -/
def returns (u : Update) (old new : SValue F) : SValue F :=
  match u with
  | behind _ => old
  | _ => new

/-- The types of a variable and a right side for which an operator is there. -/
def opTyped (op t u : UInt8) : Bool :=
  let num (t : UInt8) : Bool := t = SV.integer || t = SV.float
  if op = Op.percent then t = SV.integer && u = SV.integer || t = SV.vector && u = SV.vector
  else t = SV.integer && u = SV.integer || t = SV.float && num u ||
    if op = Op.plus then
      t = SV.string && u = SV.string || t = SV.list || t = SV.vector && u = SV.vector ||
        t = SV.rotation && u = SV.rotation
    else if op = Op.minus then
      t = SV.vector && u = SV.vector || t = SV.rotation && u = SV.rotation
    else t = SV.vector && (num u || u = SV.rotation) || t = SV.rotation && u = SV.rotation

/-- An update with a right side of type `u` fits a variable or component of type `t`. -/
def Typed (up : Update) (t u : UInt8) : Prop :=
  match up with
  | assign op _ =>
    if op = Op.assign then t = u ∨ t = SV.float ∧ u = SV.integer ∨
      t = SV.string ∧ u = SV.key ∨ t = SV.key ∧ u = SV.string
    else opTyped (compoundOp op) t u
  | front _ | behind _ => t = SV.integer ∨ t = SV.float

end Update

/-- A variable that holds a value, or one of the components of a vector or rotation in a variable,
with the value. -/
inductive Lval.Has (w : World F) (s : ℕ) : Lval → SValue F → Prop
  | cell {c : Cell} : (w.cellVal s c).tag ≠ SV.void → Has w s (.cell c) (w.cellVal s c)
  | vec {c : Cell} {x y z : F} {m : UInt8} : w.cellVal s c = .vec x y z →
    m ∈ ([120, 121, 122] : List UInt8) →
    Has w s (.member c m) (.float ((SValue.vec x y z).component m))
  | rot {c : Cell} {x y z t : F} {m : UInt8} : w.cellVal s c = .rot x y z t →
    m ∈ ([120, 121, 122, 115] : List UInt8) →
    Has w s (.member c m) (.float ((SValue.rot x y z t).component m))

/-- One variable has a new value, and nothing else has changed. -/
structure Stored (s : ℕ) (c : Cell) (v : SValue F) (w w' : World F) : Prop where
  world : w' = w.setCell s c v
  cell : w'.cellVal s c = v
  others : ∀ d, d ≠ c → w'.cellVal s d = w.cellVal s d

/-- The lvalue has a new value; of a component, the other components of its variable are the same. -/
inductive Lval.Gets (s : ℕ) : Lval → SValue F → World F → World F → Prop
  | cell {c : Cell} {v : SValue F} {w w' : World F} : Stored s c v w w' → Gets s (.cell c) v w w'
  | member {c : Cell} {m : UInt8} {f : F} {b : SValue F} {w w' : World F} :
    b.tag = (w.cellVal s c).tag → b.component m = f →
    (∀ m', m' ≠ m → b.component m' = (w.cellVal s c).component m') → Stored s c b w w' →
    Gets s (.member c m) (.float f) w w'

/-- The update of the lvalue `l` from the machine `m`, with a right side that gave `rhs` and left the
machine `m1`, where the lvalue had the value `old`: it comes to its end, stores the value of its
operation in the type of the lvalue, changes nothing else, and returns what it should. -/
def Update.Meets (lib : Lib F) (s fuel : ℕ) (u : Update) (t lv : UInt8) (l : Expr)
    (m m1 : Machine F) (old rhs : SValue F) : Prop :=
  ∃ v m2, u.value old rhs = some v ∧
    (interp lib s (fuel+1)).eval (u.expr t lv l) m =
      (.ok (u.returns old (coerce v old.tag)), m2) ∧
    (m.world.resolveLvalue s l).Gets s (coerce v old.tag) m1.world m2.world

/-- The paths of the evaluator that know their lvalue: any update of a variable, `=` on a component,
and all but `++` and `--` behind on a component of a vector. -/
def Update.Knows (u : Update) (w : World F) (s : ℕ) : Lval → Prop
  | .none => False
  | .cell _ => True
  | .member c _ => match u with
    | .assign op _ => op = Op.assign ∨ (w.cellVal s c).tag = SV.vector
    | .front _ => (w.cellVal s c).tag = SV.vector
    | .behind _ => False

/-- Two integers have a result that fits in a `long long`. -/
def Update.Fits (u : Update) : SValue F → SValue F → Prop
  | .int i, .int j => match u.binop with
    | none => True
    | some op =>
      if op = Op.plus then InLLong (i+j) else if op = Op.minus then InLLong (i-j)
      else if op = Op.star then InLLong (i*j) else ¬ (i = llongMin ∧ j = -1)
  | _, _ => True

/-! ### Cells -/

omit [CDouble F] in
theorem frame_modFrame (w : World F) (f : Frame F → Frame F) :
    (w.modFrame f).frame = w.frame.map f := by
  unfold World.frame World.modFrame
  cases w.frames <;> rfl

/-- A variable with a value is there to be stored into. -/
theorem Stored.setCell {w : World F} {s : ℕ} {c : Cell} (h : (w.cellVal s c).tag ≠ SV.void)
    (v : SValue F) : Stored s c v w (w.setCell s c v) := by
  refine ⟨rfl, ?_, fun d hd => ?_⟩
  · cases c with
    | loc k =>
      cases hf : w.frame with
      | none => exact absurd (by simp only [World.cellVal, hf]; rfl) h
      | some f =>
        cases hk : f.locs[k]? with
        | none => exact absurd (by simp only [World.cellVal, hf, Option.bind_some, hk]; rfl) h
        | some b =>
          simp only [World.setCell, World.cellVal, frame_modFrame, hf, Option.map_some,
            Option.bind_some, List.getElem?_modify_eq, hk, Option.map_eq_map, Option.getD_some]
    | glob i =>
      by_cases hs : s < w.scripts.length
      · by_cases hi : i < (w.script s).globals.length
        · simp only [World.setCell, World.cellVal, World.modScript_script w s _ hs]
          rw [List.getD_eq_getElem?_getD, List.getElem?_set_self hi, Option.getD_some]
        · refine absurd ?_ h
          rw [World.cellVal, List.getD_eq_getElem?_getD, List.getElem?_eq_none (not_lt.mp hi)]
          rfl
      · refine absurd ?_ h
        rw [World.cellVal, script_of_length_le w s (not_lt.mp hs)]
        rfl
  · cases c with
    | loc k =>
      cases d with
      | glob i => rfl
      | loc j =>
        have hjk : k ≠ j := fun h => hd (by rw [h])
        simp only [World.setCell, World.cellVal, frame_modFrame]
        cases w.frame with
        | none => rfl
        | some f => simp only [Option.map_some, Option.bind_some, List.getElem?_modify_ne _ _ hjk]
    | glob i =>
      cases d with
      | loc j => rfl
      | glob j =>
        have hij : i ≠ j := fun h => hd (by rw [h])
        simp only [World.setCell, World.cellVal, script_modScript]
        split
        · rw [List.getD_eq_getElem?_getD, List.getD_eq_getElem?_getD, List.getElem?_set_ne hij]
        · rfl

/-! ### The operations -/

/-- Of the arithmetic operators, only those on two integers can leave their result undefined. -/
theorem evalBinary_ne_none {op : UInt8} {l r : SValue F}
    (hop : op ∈ [Op.plus, Op.minus, Op.star, Op.slash, Op.percent])
    (h : ∀ i j, ¬ (l = .int i ∧ r = .int j)) : evalBinary op l r ≠ none := by
  have hite (c : Prop) [Decidable c] (a b : SValue F) : (if c then some a else some b) ≠ none := by
    split <;> exact Option.some_ne_none _
  simp only [List.mem_cons, List.not_mem_nil, or_false] at hop
  rcases hop with rfl | rfl | rfl | rfl | rfl
  · cases l <;> cases r <;> first
      | exact Option.some_ne_none _
      | exact absurd ⟨rfl, rfl⟩ (h _ _)
  · cases l <;> cases r <;> first
      | exact Option.some_ne_none _
      | exact absurd ⟨rfl, rfl⟩ (h _ _)
  · cases l <;> cases r <;> first
      | exact Option.some_ne_none _
      | exact absurd ⟨rfl, rfl⟩ (h _ _)
  · cases l <;> cases r <;> first
      | exact Option.some_ne_none _
      | exact hite _ _ _
      | exact absurd ⟨rfl, rfl⟩ (h _ _)
  · cases l <;> cases r <;> first
      | exact Option.some_ne_none _
      | exact absurd ⟨rfl, rfl⟩ (h _ _)

/-- The operators of the table on a float and a number give a float. -/
theorem evalBinary_float {op : UInt8} (hop : op ∈ [Op.plus, Op.minus, Op.star, Op.slash]) (f : F)
    {r : SValue F} (hr : r.tag = SV.integer ∨ r.tag = SV.float) :
    ∃ g, evalBinary op (.float f) r = some (.float g) := by
  have hite (c : Prop) [Decidable c] (a b : F) :
      ∃ g, (if c then some (SValue.float a) else some (.float b)) = some (.float g) := by
    split
    · exact ⟨a, rfl⟩
    · exact ⟨b, rfl⟩
  simp only [List.mem_cons, List.not_mem_nil, or_false] at hop
  cases r with
  | int i =>
    rcases hop with rfl | rfl | rfl | rfl
    · exact ⟨_, rfl⟩
    · exact ⟨_, rfl⟩
    · exact ⟨_, rfl⟩
    · exact hite _ _ _
  | float g =>
    rcases hop with rfl | rfl | rfl | rfl
    · exact ⟨_, rfl⟩
    · exact ⟨_, rfl⟩
    · exact ⟨_, rfl⟩
    · exact hite _ _ _
  | _ => rcases hr with h | h <;> cases h

/-- The operators of the table on nothing and a number give nothing. -/
theorem evalBinary_void {op : UInt8} (hop : op ∈ [Op.plus, Op.minus, Op.star, Op.slash])
    {r : SValue F} (hr : r.tag = SV.integer ∨ r.tag = SV.float) :
    evalBinary op .void r = some .void := by
  simp only [List.mem_cons, List.not_mem_nil, or_false] at hop
  cases r with
  | int i => rcases hop with rfl | rfl | rfl | rfl <;> rfl
  | float f => rcases hop with rfl | rfl | rfl | rfl <;> rfl
  | _ => rcases hr with h | h <;> cases h

namespace Update

theorem binop_mem {u : Update} (hu : u.Proper) {op : UInt8} (h : u.binop = some op) :
    op ∈ [Op.plus, Op.minus, Op.star, Op.slash, Op.percent] := by
  cases u with
  | assign o e =>
    simp only [Proper, List.mem_cons, List.not_mem_nil, or_false] at hu
    rcases hu with rfl | rfl | rfl | rfl | rfl | rfl
    · cases h
    all_goals
      cases h
      decide
  | front o =>
    rcases hu with rfl | rfl
    all_goals
      cases h
      decide
  | behind o =>
    rcases hu with rfl | rfl
    all_goals
      cases h
      decide

/-- The operation is defined exactly if its result fits. -/
theorem value_ne_none_iff {u : Update} (hu : u.Proper) {old rhs : SValue F}
    (hold : ∀ i, old = .int i → InLLong i) : u.value old rhs ≠ none ↔ u.Fits old rhs := by
  by_cases hint : ∃ i j, old = .int i ∧ rhs = .int j
  · obtain ⟨i, j, rfl, rfl⟩ := hint
    have hi := hold i rfl
    cases hb : u.binop with
    | none => exact iff_of_true (by simp [value, hb]) (by simp [Fits, hb])
    | some op =>
      have hop := binop_mem hu hb
      simp only [value, Fits, hb]
      simp only [List.mem_cons, List.not_mem_nil, or_false] at hop
      rcases hop with rfl | rfl | rfl | rfl | rfl
      · exact ofArith_ne_none (i+j)
      · exact ofArith_ne_none (i-j)
      · exact ofArith_ne_none (i*j)
      · exact slash_ne_none hi j
      · exact percent_ne_none hi j
  · have hno : ∀ i j, ¬ (old = .int i ∧ rhs = .int j) := fun i j h => hint ⟨i, j, h⟩
    have hfits : u.Fits old rhs := by
      unfold Fits
      split
      · exact absurd ⟨rfl, rfl⟩ (hno _ _)
      · trivial
    refine iff_of_true ?_ hfits
    cases hb : u.binop with
    | none => simp [value, hb]
    | some op =>
      simp only [value, hb]
      exact evalBinary_ne_none (binop_mem hu hb) hno

end Update

/-! ### Components -/

/-- The components of a vector, and the store into one of them. -/
theorem component_vec {m : UInt8} (hm : m ∈ ([120, 121, 122] : List UInt8)) (x y z f : F) :
    (SValue.vec x y z).component m = SValue.axis m x y z ∧
      ((SValue.vec x y z).setComponent m f).tag = SV.vector ∧
      ((SValue.vec x y z).setComponent m f).component m = f ∧
      ∀ m', m' ≠ m → ((SValue.vec x y z).setComponent m f).component m' =
        (SValue.vec x y z).component m' := by
  simp only [List.mem_cons, List.not_mem_nil, or_false] at hm
  rcases hm with rfl | rfl | rfl
  · exact ⟨rfl, rfl, rfl, fun m' hm' => by simp [SValue.component, SValue.setComponent, hm']⟩
  · exact ⟨rfl, rfl, rfl, fun m' hm' => by simp [SValue.component, SValue.setComponent, hm']⟩
  · exact ⟨rfl, rfl, rfl, fun m' hm' => by simp [SValue.component, SValue.setComponent, hm']⟩

theorem component_rot {m : UInt8} (hm : m ∈ ([120, 121, 122, 115] : List UInt8)) (x y z t f : F) :
    ((SValue.rot x y z t).setComponent m f).tag = SV.rotation ∧
      ((SValue.rot x y z t).setComponent m f).component m = f ∧
      ∀ m', m' ≠ m → ((SValue.rot x y z t).setComponent m f).component m' =
        (SValue.rot x y z t).component m' := by
  simp only [List.mem_cons, List.not_mem_nil, or_false] at hm
  rcases hm with rfl | rfl | rfl | rfl
  · exact ⟨rfl, rfl, fun m' hm' => by simp [SValue.component, SValue.setComponent, hm']⟩
  · exact ⟨rfl, rfl, fun m' hm' => by simp [SValue.component, SValue.setComponent, hm']⟩
  · exact ⟨rfl, rfl, fun m' hm' => by simp [SValue.component, SValue.setComponent, hm']⟩
  · exact ⟨rfl, rfl, fun m' hm' => by simp [SValue.component, SValue.setComponent, hm']⟩

/-- `++` and `--` form the pointer that an assignment to the component writes through. -/
theorem bumpAxis_eq {m : UInt8} (hm : m ∈ ([120, 121, 122] : List UInt8)) (op : UInt8) (x y z : F) :
    SValue.bumpAxis op m x y z = (add ((SValue.vec x y z).component m) (ofInt (stepOf op)),
      (SValue.vec x y z).setComponent m
        (add ((SValue.vec x y z).component m) (ofInt (stepOf op)))) := by
  simp only [List.mem_cons, List.not_mem_nil, or_false] at hm
  rcases hm with rfl | rfl | rfl <;> rfl

/-! ### What the evaluator does -/

/-- The store of an assignment into a component. -/
theorem assignTo_member {s : ℕ} {c : Cell} {axis : UInt8} {m : Machine F} {base v : SValue F} {f : F}
    (hc : m.world.cellVal s c = base) (hb : base.tag = SV.vector ∨ base.tag = SV.rotation)
    (hf : coerce v SV.float = .float f) (htag : (base.setComponent axis f).tag = base.tag)
    (hself : (base.setComponent axis f).component axis = f)
    (hothers : ∀ m', m' ≠ axis → (base.setComponent axis f).component m' = base.component m') :
    ∃ m', assignTo s (.member c axis) v m = (.ok (.float f), m') ∧
      (Lval.member c axis).Gets s (.float f) m.world m'.world := by
  subst hc
  have hstore : storeComp v = f := by rw [storeComp, hf]
  refine ⟨{ m with world := m.world.setCell s c ((m.world.cellVal s c).setComponent axis f) }, ?_, ?_⟩
  · have h : assignTo s (.member c axis) v m =
        (if (m.world.cellVal s c).tag = SV.vector ∨ (m.world.cellVal s c).tag = SV.rotation then
          VM.set (fun w => w.setCell s c ((m.world.cellVal s c).setComponent axis (storeComp v))) >>=
            fun _ => pure (coerce v SV.float)
        else pure v : VM F (SValue F)) m := rfl
    rw [h, if_pos hb, hstore, hf]
    rfl
  · refine .member htag hself hothers (.setCell (fun hv => ?_) _)
    rw [hv] at hb
    rcases hb with h | h <;> cases h

/-- The store of an assignment. -/
theorem assignTo_gets {s : ℕ} {lv : Lval} {m : Machine F} {old v : SValue F}
    (hold : lv.Has m.world s old)
    (hnum : ∀ c axis, lv = .member c axis → (coerce v SV.float).tag = SV.float) :
    ∃ m', assignTo s lv v m = (.ok (coerce v old.tag), m') ∧
      lv.Gets s (coerce v old.tag) m.world m'.world := by
  have hfloat (h : (coerce v SV.float).tag = SV.float) : ∃ f, coerce v SV.float = .float f := by
    cases hcv : coerce v SV.float with
    | float f => exact ⟨f, rfl⟩
    | _ => rw [hcv] at h; cases h
  cases hold with
  | @cell c htag =>
    have hv : storeVal (m.world.cellVal s c) v = coerce v (m.world.cellVal s c).tag := by
      rw [storeVal, if_neg fun h => htag h.1]
    refine ⟨{ m with world := m.world.setCell s c (storeVal (m.world.cellVal s c) v) }, ?_, ?_⟩
    · rw [← hv]
      rfl
    · rw [← hv]
      exact .cell (.setCell htag _)
  | @vec c x y z axis hc haxis =>
    obtain ⟨f, hf⟩ := hfloat (hnum c axis rfl)
    obtain ⟨-, htag, hself, hothers⟩ := component_vec haxis x y z f
    have h := assignTo_member hc (Or.inl rfl) hf htag hself hothers
    rwa [← hf] at h
  | @rot c x y z t axis hc haxis =>
    obtain ⟨f, hf⟩ := hfloat (hnum c axis rfl)
    obtain ⟨htag, hself, hothers⟩ := component_rot haxis x y z t f
    have h := assignTo_member hc (Or.inr rfl) hf htag hself hothers
    rwa [← hf] at h

/-- What the `switch` of `vm_eval` gives, `vm_eval` gives, with one mark more. -/
theorem eval_of_node {lib : Lib F} {s n : ℕ} {e : Expr} {m k : Machine F} {v : SValue F}
    (h : evalNode lib (interp lib s n) s e m = (.ok v, k)) :
    (interp lib s (n+1)).eval e m =
      (.ok v, { k with log := (.value s e v, k.world) :: k.log }) := by
  change (evalNode lib (interp lib s n) s e >>= fun v => VM.mark (.value s e v) >>= fun _ => pure v) m
    = _
  rw [Run.bind_ok h]
  rfl

theorem node_of_eval {lib : Lib F} {s n : ℕ} {e : Expr} {m m' : Machine F} {v : SValue F}
    (h : (interp lib s (n+1)).eval e m = (.ok v, m')) :
    ∃ m'', evalNode lib (interp lib s n) s e m = (.ok v, m'') ∧ m'.world = m''.world := by
  obtain ⟨v', m'', h1, h2⟩ := Run.of_bind_ok h
  cases h2
  exact ⟨m'', h1, rfl⟩

/-- An assignment, once its right side is evaluated. -/
theorem evalAssign_run {r : Interp F} {s : ℕ} {op : UInt8} {l e : Expr} {m m1 : Machine F}
    {rhs : SValue F} (h : r.eval e m = (.ok rhs, m1)) : evalAssign r s op l e m =
      (if op = Op.assign then assignTo s (m.world.resolveLvalue s l) rhs
      else VM.get (fun w => w.lvalueVal s (m.world.resolveLvalue s l)) >>= fun cur =>
        binary (compoundOp op) cur rhs >>= assignTo s (m.world.resolveLvalue s l)) m1 := by
  have hget : evalAssign r s op l e m = (r.eval e >>= fun rhs =>
      if op = Op.assign then assignTo s (m.world.resolveLvalue s l) rhs
      else VM.get (fun w => w.lvalueVal s (m.world.resolveLvalue s l)) >>= fun cur =>
        binary (compoundOp op) cur rhs >>= assignTo s (m.world.resolveLvalue s l)) m := rfl
  rw [hget, Run.bind_ok h]

theorem coerce_self (v : SValue F) : coerce v v.tag = v := by
  unfold coerce
  rw [if_pos (Or.inr rfl)]

/-- `++` and `--` on an integer or a float are the binary operations with 1. -/
theorem bump_eq [CDouble.SubOne F] {op : UInt8} (hop : op = Op.inc ∨ op = Op.dec) {old : SValue F}
    (ht : old.tag = SV.integer ∨ old.tag = SV.float) :
    bump op old = evalBinary (if op = Op.inc then Op.plus else Op.minus) old (.int 1) ∧
      ∀ v, bump op old = some v → v.tag = old.tag := by
  cases old with
  | int i =>
    have harith (k : ℤ) (v : SValue F) (h : SValue.ofArith k = some v) : v.tag = SV.integer := by
      unfold SValue.ofArith at h
      split at h
      · cases h
        rfl
      · cases h
    rcases hop with rfl | rfl
    · exact ⟨rfl, harith _⟩
    · exact ⟨rfl, harith _⟩
  | float f =>
    rcases hop with rfl | rfl
    · exact ⟨rfl, fun v h => by cases h; rfl⟩
    · refine ⟨?_, fun v h => by cases h; rfl⟩
      change (some (.float (add f (ofInt (-1)))) : Option (SValue F)) =
        some (.float (sub f (ofInt 1)))
      rw [CDouble.SubOne.sub_one]
  | _ => rcases ht with h | h <;> cases h

namespace Update
variable {lib : Lib F} {s fuel : ℕ} {t b : UInt8} {l : Expr} {m m1 : Machine F}
  {old rhs v : SValue F}

/-- What the evaluator reads before a compound assignment. -/
theorem lvalueVal_eq {w : World F} {lv : Lval} (h : lv.Has w s old)
    (hk : ∀ c axis, lv = .member c axis → (w.cellVal s c).tag = SV.vector) :
    w.lvalueVal s lv = old := by
  cases h with
  | cell => rfl
  | @vec c x y z axis hc haxis =>
    simp only [World.lvalueVal, hc, (component_vec haxis x y z zero).1]
  | @rot c x y z t axis hc haxis =>
    have h := hk c axis rfl
    rw [hc] at h
    cases h

/-- A number converts to float. -/
theorem coerce_float {v : SValue F} (h : v.tag = SV.integer ∨ v.tag = SV.float) :
    (coerce v SV.float).tag = SV.float := by
  cases v with
  | int i => rfl
  | float f => rfl
  | _ => rcases h with h | h <;> cases h

/-- The operators that a float has, and their right sides. -/
theorem opTyped_float {op t : UInt8} (hop : op ∈ [Op.plus, Op.minus, Op.star, Op.slash, Op.percent])
    (ht : opTyped op SV.float t) :
    op ∈ [Op.plus, Op.minus, Op.star, Op.slash] ∧ (t = SV.integer ∨ t = SV.float) := by
  have hne : op ≠ Op.percent := by
    rintro rfl
    simp [opTyped, SV.float, SV.integer, SV.vector] at ht
  refine ⟨?_, ?_⟩
  · simp only [List.mem_cons, List.not_mem_nil, or_false] at hop ⊢
    tauto
  · have hnum : (decide (t = SV.integer) || decide (t = SV.float)) = true := by
      simpa [opTyped, hne, SV.float, SV.integer, SV.vector, SV.string, SV.list, SV.rotation] using ht
    simpa using hnum

/-- The result of an operation on a component is a number. -/
theorem value_num {op : UInt8} {e : Expr} {f : F} (hu : (assign op e).Proper)
    (ht : (assign op e).Typed SV.float rhs.tag) (hv : (assign op e).value (.float f) rhs = some v) :
    v.tag = SV.integer ∨ v.tag = SV.float := by
  by_cases hop : op = Op.assign
  · subst hop
    cases hv
    rcases ht with h | h | h | h
    · exact Or.inr h.symm
    · exact Or.inl h.2
    · exact absurd h.1 (by decide)
    · exact absurd h.1 (by decide)
  · have hcop : (assign op e).binop = some (compoundOp op) := if_neg hop
    have htab : opTyped (compoundOp op) SV.float rhs.tag := by
      rwa [Typed, if_neg hop] at ht
    obtain ⟨hfour, hnum⟩ := opTyped_float (binop_mem hu hcop) htab
    simp only [value, hcop] at hv
    obtain ⟨g, hg⟩ := evalBinary_float hfour f hnum
    rw [hg] at hv
    cases hv
    exact Or.inr rfl

/-- A component is a float. -/
theorem of_member {w : World F} {c : Cell} {axis : UInt8} (h : (Lval.member c axis).Has w s old) :
    ∃ f, old = .float f := by
  cases h with
  | vec => exact ⟨_, rfl⟩
  | rot => exact ⟨_, rfl⟩

/-- An assignment that knows its lvalue and whose result fits. -/
theorem meets_assign {op : UInt8} {e : Expr} (hu : (assign op e).Proper)
    (hright : (interp lib s fuel).eval e m = (.ok rhs, m1))
    (hold : (m.world.resolveLvalue s l).Has m1.world s old)
    (ht : (assign op e).Typed old.tag rhs.tag)
    (hk : (assign op e).Knows m1.world s (m.world.resolveLvalue s l))
    (hv : (assign op e).value old rhs = some v) :
    (assign op e).Meets lib s fuel t b l m m1 old rhs := by
  have hnum : ∀ c axis, m.world.resolveLvalue s l = .member c axis →
      (coerce v SV.float).tag = SV.float := by
    intro c axis hlv
    rw [hlv] at hold
    obtain ⟨f, rfl⟩ := of_member hold
    exact coerce_float (value_num hu ht hv)
  by_cases hop : op = Op.assign
  · subst hop
    cases hv
    obtain ⟨m2, h2, hgets⟩ := assignTo_gets hold hnum
    refine ⟨rhs, _, rfl, eval_of_node (k := m2) ?_, hgets⟩
    change evalAssign (interp lib s fuel) s Op.assign l e m = _
    rw [evalAssign_run hright, if_pos rfl, h2]
    rfl
  · have hcur : m1.world.lvalueVal s (m.world.resolveLvalue s l) = old := by
      refine lvalueVal_eq hold fun c axis hlv => ?_
      rw [hlv] at hk
      exact hk.resolve_left hop
    have hbin : (assign op e).binop = some (compoundOp op) := if_neg hop
    have hval : evalBinary (compoundOp op) old rhs = some v := by
      simpa only [value, hbin] using hv
    -- the operation leaves a mark in the log, the world is still that of `m1`
    obtain ⟨m2, h2, hgets⟩ := assignTo_gets
      (m := { m1 with log := (.operands (compoundOp op) old rhs, m1.world) :: m1.log }) hold hnum
    refine ⟨v, _, hv, eval_of_node (k := m2) ?_, hgets⟩
    change evalAssign (interp lib s fuel) s op l e m = _
    rw [evalAssign_run hright, if_neg hop]
    change (binary (compoundOp op) (m1.world.lvalueVal s (m.world.resolveLvalue s l)) rhs >>=
      assignTo s (m.world.resolveLvalue s l)) m1 = _
    rw [hcur]
    have hb : binary (compoundOp op) old rhs m1 =
        (.ok v, { m1 with log := (.operands (compoundOp op) old rhs, m1.world) :: m1.log }) := by
      change (VM.defined (evalBinary (compoundOp op) old rhs)) _ = _
      rw [hval]
      rfl
    rw [Run.bind_ok hb, h2]
    rfl

/-- `++` and `--` of a variable, in front and behind. -/
theorem bump_cell [CDouble.SubOne F] {op : UInt8} {c : Cell} (hop : op = Op.inc ∨ op = Op.dec)
    (hlv : m.world.resolveLvalue s l = .cell c)
    (hold : (m.world.resolveLvalue s l).Has m.world s old)
    (ht : old.tag = SV.integer ∨ old.tag = SV.float)
    (hv : evalBinary (if op = Op.inc then Op.plus else Op.minus) old (.int 1) = some v) :
    coerce v old.tag = v ∧ (m.world.resolveLvalue s l).Gets s v m.world (m.world.setCell s c v) ∧
      evalPrefix s op l m = (.ok v, { m with world := m.world.setCell s c v }) ∧
      evalPostfix s op l m = (.ok old, { m with world := m.world.setCell s c v }) := by
  obtain ⟨hbump, htag⟩ := bump_eq hop ht
  rw [← hbump] at hv
  have hget : (VM.get fun w => w.resolveLvalue s l) m = (.ok (.cell c), m) := by
    rw [← hlv]
    rfl
  rw [hlv] at hold ⊢
  cases hold with
  | cell hcell =>
    refine ⟨?_, .cell (.setCell hcell v), ?_, ?_⟩
    · rw [← htag v hv, coerce_self]
    · unfold evalPrefix
      rw [Run.bind_ok hget]
      change (VM.defined (bump op (m.world.cellVal s c)) >>= fun v =>
        VM.set (fun w => w.setCell s c v) >>= fun _ => pure v) m = _
      rw [hv]
      rfl
    · unfold evalPostfix
      rw [Run.bind_ok hget]
      change (VM.defined (bump op (m.world.cellVal s c)) >>= fun v =>
        VM.set (fun w => w.setCell s c v) >>= fun _ => pure (m.world.cellVal s c)) m = _
      rw [hv]
      rfl

/-- `++` and `--` in front of a component of a vector. -/
theorem bump_axis [CDouble.SubOne F] {op : UInt8} {c : Cell} {axis : UInt8}
    (hop : op = Op.inc ∨ op = Op.dec) (hlv : m.world.resolveLvalue s l = .member c axis)
    (hold : (m.world.resolveLvalue s l).Has m.world s old)
    (hvec : (m.world.cellVal s c).tag = SV.vector)
    (hv : evalBinary (if op = Op.inc then Op.plus else Op.minus) old (.int 1) = some v) :
    ∃ m2, coerce v old.tag = v ∧ (m.world.resolveLvalue s l).Gets s v m.world m2.world ∧
      evalPrefix s op l m = (.ok v, m2) := by
  have hget : (VM.get fun w => w.resolveLvalue s l) m = (.ok (.member c axis), m) := by
    rw [← hlv]
    rfl
  rw [hlv] at hold ⊢
  cases hold with
  | @vec _ x y z _ hc haxis =>
    have hfloat : (SValue.float ((SValue.vec x y z).component axis)).tag = SV.integer ∨
        (SValue.float ((SValue.vec x y z).component axis)).tag = SV.float := Or.inr rfl
    obtain ⟨hbump, -⟩ := bump_eq hop hfloat
    rw [← hbump] at hv
    cases hv
    obtain ⟨-, htag, hself, hothers⟩ := component_vec haxis x y z
      (add ((SValue.vec x y z).component axis) (ofInt (stepOf op)))
    refine ⟨{ m with world := m.world.setCell s c (SValue.bumpAxis op axis x y z).2 }, rfl, ?_, ?_⟩
    · rw [bumpAxis_eq haxis]
      refine .member ?_ hself ?_ (.setCell (fun h => ?_) _)
      · rw [hc]
        exact htag
      · rw [hc]
        exact hothers
      · rw [hc] at h
        cases h
    · unfold evalPrefix
      rw [Run.bind_ok hget]
      have hbase : (VM.get fun w => w.cellVal s c) m = (.ok (.vec x y z), m) := by
        rw [← hc]
        rfl
      change ((VM.get fun w => w.cellVal s c) >>= _) m = _
      rw [Run.bind_ok hbase]
      change (Except.ok (SValue.float (SValue.bumpAxis op axis x y z).1), _) = _
      rw [bumpAxis_eq haxis]
  | @rot _ x y z t _ hc haxis =>
    rw [hc] at hvec
    cases hvec

/-- `++` and `--` behind leave a component as it is, and return 0. -/
theorem evalPostfix_member {op : UInt8} {c : Cell} {axis : UInt8}
    (hlv : m.world.resolveLvalue s l = .member c axis) :
    evalPostfix s op l m = (.ok (.int 0), m) := by
  have hget : (VM.get fun w => w.resolveLvalue s l) m = (.ok (.member c axis), m) := by
    rw [← hlv]
    rfl
  unfold evalPostfix
  rw [Run.bind_ok hget]
  rfl

/-- `++` and `--` in front write a component of a rotation through `NULL`. -/
theorem evalPrefix_rot {op : UInt8} {c : Cell} {axis : UInt8} {x y z w : F}
    (hlv : m.world.resolveLvalue s l = .member c axis)
    (hc : m.world.cellVal s c = .rot x y z w) :
    evalPrefix s op l m = (.error .fault, m) := by
  have hget : (VM.get fun w => w.resolveLvalue s l) m = (.ok (.member c axis), m) := by
    rw [← hlv]
    rfl
  have hbase : (VM.get fun w => w.cellVal s c) m = (.ok (.rot x y z w), m) := by
    rw [← hc]
    rfl
  unfold evalPrefix
  rw [Run.bind_ok hget]
  change ((VM.get fun w => w.cellVal s c) >>= _) m = _
  rw [Run.bind_ok hbase]
  rfl

/-- A compound assignment starts from nothing on a component of a rotation, and returns nothing. -/
theorem compound_rot {op : UInt8} {e : Expr} {c : Cell} {axis : UInt8} {x y z w : F}
    (hu : (assign op e).Proper) (hop : op ≠ Op.assign)
    (hright : (interp lib s fuel).eval e m = (.ok rhs, m1))
    (hlv : m.world.resolveLvalue s l = .member c axis)
    (hc : m1.world.cellVal s c = .rot x y z w)
    (ht : (assign op e).Typed SV.float rhs.tag) :
    ∃ m2, evalAssign (interp lib s fuel) s op l e m = (.ok .void, m2) := by
  have htab : opTyped (compoundOp op) SV.float rhs.tag := by
    rwa [Typed, if_neg hop] at ht
  have hbin : (assign op e).binop = some (compoundOp op) := if_neg hop
  obtain ⟨hfour, hnum⟩ := opTyped_float (binop_mem hu hbin) htab
  rw [evalAssign_run hright, if_neg hop, hlv]
  have hcur : m1.world.lvalueVal s (.member c axis) = .void := by
    simp only [World.lvalueVal, hc]
  change ∃ m2, (binary (compoundOp op) (m1.world.lvalueVal s (.member c axis)) rhs >>=
    assignTo s (.member c axis)) m1 = _
  rw [hcur]
  have hb : binary (compoundOp op) .void rhs m1 =
      (.ok .void, { m1 with log := (.operands (compoundOp op) .void rhs, m1.world) :: m1.log }) := by
    change (VM.defined (evalBinary (compoundOp op) .void rhs)) _ = _
    rw [evalBinary_void hfour hnum]
    rfl
  rw [Run.bind_ok hb]
  unfold assignTo
  have hbase : (VM.get fun w => w.cellVal s c)
      { m1 with log := (.operands (compoundOp op) .void rhs, m1.world) :: m1.log } =
      (.ok (.rot x y z w),
        { m1 with log := (.operands (compoundOp op) .void rhs, m1.world) :: m1.log }) := by
    rw [← hc]
    rfl
  change ∃ m2, ((VM.get fun w => w.cellVal s c) >>= _) _ = _
  rw [Run.bind_ok hbase]
  exact ⟨_, rfl⟩

/-- `vm_eval` on `++` and `--` in front. -/
theorem evalNode_front (r : Interp F) {op : UInt8} (hop : op = Op.inc ∨ op = Op.dec) :
    evalNode lib r s (.unary t b op l) = evalPrefix s op l := by
  change (if op = Op.inc ∨ op = Op.dec then evalPrefix s op l else _) = _
  exact if_pos hop

/-- `++` and `--` in front that know their lvalue and whose result fits. -/
theorem meets_front [CDouble.SubOne F] {op : UInt8} (hop : op = Op.inc ∨ op = Op.dec)
    (hold : (m.world.resolveLvalue s l).Has m.world s old)
    (ht : old.tag = SV.integer ∨ old.tag = SV.float)
    (hk : (front op).Knows m.world s (m.world.resolveLvalue s l))
    (hv : evalBinary (if op = Op.inc then Op.plus else Op.minus) old (.int 1) = some v) :
    (front op).Meets lib s fuel t b l m m old (.int 1) := by
  have hgoal : ∃ m2, coerce v old.tag = v ∧
      (m.world.resolveLvalue s l).Gets s v m.world m2.world ∧
      evalPrefix s op l m = (.ok v, m2) := by
    cases hlv : m.world.resolveLvalue s l with
    | none =>
      rw [hlv] at hk
      exact hk.elim
    | cell c =>
      obtain ⟨hself, hgets, hpre, -⟩ := bump_cell hop hlv hold ht hv
      rw [hlv] at hgets
      exact ⟨_, hself, hgets, hpre⟩
    | member c axis =>
      rw [hlv] at hk
      obtain ⟨m2, hself, hgets, hpre⟩ := bump_axis hop hlv hold hk hv
      rw [hlv] at hgets
      exact ⟨m2, hself, hgets, hpre⟩
  obtain ⟨m2, hself, hgets, hpre⟩ := hgoal
  refine ⟨v, { m2 with log := (.value s (.unary t b op l) v, m2.world) :: m2.log }, hv, ?_, ?_⟩
  · rw [hself]
    apply eval_of_node
    change evalNode lib (interp lib s fuel) s (.unary t b op l) m = _
    rw [evalNode_front _ hop]
    exact hpre
  · rw [hself]
    exact hgets

/-- `++` and `--` behind a variable whose result fits. -/
theorem meets_behind [CDouble.SubOne F] {op : UInt8} (hop : op = Op.inc ∨ op = Op.dec)
    (hold : (m.world.resolveLvalue s l).Has m.world s old)
    (ht : old.tag = SV.integer ∨ old.tag = SV.float)
    (hk : (behind op).Knows m.world s (m.world.resolveLvalue s l))
    (hv : evalBinary (if op = Op.inc then Op.plus else Op.minus) old (.int 1) = some v) :
    (behind op).Meets lib s fuel t b l m m old (.int 1) := by
  cases hlv : m.world.resolveLvalue s l with
  | none =>
    rw [hlv] at hk
    exact hk.elim
  | cell c =>
    obtain ⟨hself, hgets, -, hpost⟩ := bump_cell hop hlv hold ht hv
    refine ⟨v, { m with
      world := m.world.setCell s c v
      log := (.value s (.postfix_ t b op l) old, m.world.setCell s c v) :: m.log }, hv, ?_, ?_⟩
    · exact eval_of_node (k := { m with world := m.world.setCell s c v }) hpost
    · rw [hself]
      exact hgets
  | member c axis =>
    rw [hlv] at hk
    exact hk.elim

end Update

/-! ### When an update does what it should -/

/-- A well-typed update of a variable or a component, with a right side that has a value, does what
it should exactly if the evaluator knows its lvalue and its result fits. -/
theorem lvalue_updates_iff [CDouble.SubOne F] (lib : Lib F) {s fuel : ℕ} {u : Update}
    (hu : u.Proper) (t b : UInt8) (l : Expr) {m m1 : Machine F} {old rhs : SValue F}
    (hright : u.right (interp lib s fuel) m = (.ok rhs, m1))
    (hold : (m.world.resolveLvalue s l).Has m1.world s old)
    (hrange : ∀ i, old = .int i → InLLong i) (htyped : u.Typed old.tag rhs.tag) :
    u.Meets lib s fuel t b l m m1 old rhs ↔
      u.Knows m1.world s (m.world.resolveLvalue s l) ∧ u.Fits old rhs := by
  constructor
  · rintro ⟨v, m2, hv, heval, -⟩
    refine ⟨?_, (Update.value_ne_none_iff hu hrange).mp fun h => by rw [hv] at h; cases h⟩
    obtain ⟨m3, hnode, -⟩ := node_of_eval heval
    cases hlv : m.world.resolveLvalue s l with
    | none =>
      rw [hlv] at hold
      cases hold
    | cell c => trivial
    | member c axis =>
      rw [hlv] at hold
      obtain ⟨f, hf⟩ := Update.of_member hold
      cases u with
      | assign op e =>
        by_cases hop : op = Op.assign
        · exact Or.inl hop
        cases hold with
        | vec hc => exact Or.inr (by rw [hc]; rfl)
        | rot hc haxis =>
          -- it returns nothing, and the new value is a float
          have hnum := Update.value_num hu htyped hv
          obtain ⟨m4, hvoid⟩ := Update.compound_rot hu hop hright hlv hc htyped
          change evalAssign (interp lib s fuel) s op l e m = _ at hnode
          rw [hvoid] at hnode
          have htag := Update.coerce_float hnum
          have heq : SValue.void = coerce v SV.float :=
            Except.ok.inj (congrArg Prod.fst hnode)
          rw [← heq] at htag
          cases htag
      | front op =>
        cases hold with
        | vec hc => exact (congrArg SValue.tag hc).trans rfl
        | rot hc haxis =>
          cases hright
          change evalNode lib (interp lib s fuel) s (Expr.unary t b op l) m = _ at hnode
          rw [Update.evalNode_front _ hu, Update.evalPrefix_rot hlv hc] at hnode
          cases hnode
      | behind op =>
        change evalPostfix s op l m = _ at hnode
        rw [Update.evalPostfix_member hlv, hf] at hnode
        cases hnode
  · rintro ⟨hk, hfits⟩
    obtain ⟨v, hv⟩ := Option.ne_none_iff_exists'.mp ((Update.value_ne_none_iff hu hrange).mpr hfits)
    cases u with
    | assign op e => exact Update.meets_assign hu hright hold htyped hk hv
    | front op =>
      cases hright
      exact Update.meets_front hu hold htyped hk hv
    | behind op =>
      cases hright
      exact Update.meets_behind hu hold htyped hk hv

/-- A handler with a vector `v` adds 1 to `v.x`. -/
theorem lvalue_updates_axis :
    let m := callerWith [⟨7, .vec 1 2 3, 0, SV.vector⟩]
    (Update.assign Op.plusAssign (.intLit SV.integer 0 1)).Meets noLib 0 1 SV.float 1
      (.member SV.float 1 (.ident SV.vector 1 7) 120) m
      { m with log := (.value 0 (.intLit SV.integer 0 1) (.int 1), m.world) :: m.log }
      (.float 1) (.int 1) := by
  intro m
  have hold : (Lval.member (.loc 0) 120).Has m.world 0 (.float 1) :=
    Lval.Has.vec (x := 1) (y := 2) (z := 3) rfl (by decide)
  have htyped : (Update.assign Op.plusAssign (.intLit SV.integer 0 1)).Typed SV.float SV.integer :=
    rfl
  exact (lvalue_updates_iff noLib (by simp [Update.Proper]) SV.float 1 _ rfl hold
    (fun i h => by cases h) htyped).mpr ⟨Or.inr rfl, trivial⟩

/-- A handler with a rotation `r` adds 1 to `r.s`: the component becomes 0, and the assignment
returns nothing. -/
theorem lvalue_updates_fail :
    let m := callerWith [⟨7, .rot 1 2 3 4, 0, SV.rotation⟩]
    let u : Update := .assign Op.plusAssign (.intLit SV.integer 0 1)
    let l : Expr := .member SV.float 1 (.ident SV.rotation 1 7) 115
    let m1 : Machine ℚ :=
      { m with log := (.value 0 (.intLit SV.integer 0 1) (.int 1), m.world) :: m.log }
    let e := (interp noLib 0 2).eval (u.expr SV.float 1 l) m
    u.Proper ∧ u.Typed SV.float SV.integer ∧ u.right (interp noLib 0 1) m = (.ok (.int 1), m1) ∧
      (m.world.resolveLvalue 0 l).Has m1.world 0 (.float 4) ∧
      e.1 = .ok .void ∧ e.2.world.cellVal 0 (.loc 0) = .rot 1 2 3 0 ∧
      ¬ u.Meets noLib 0 1 SV.float 1 l m m1 (.float 4) (.int 1) := by
  intro m u l m1 e
  have hvoid : e.1 = .ok .void := rfl
  refine ⟨by simp [u, Update.Proper], rfl, rfl,
    Lval.Has.rot (x := 1) (y := 2) (z := 3) (t := 4) rfl (by decide), hvoid, rfl, ?_⟩
  rintro ⟨v, m2, hv, heval, -⟩
  have hfive : u.value (.float 4) (.int 1) = some (SValue.float (add (4:ℚ) (ofInt 1))) := rfl
  rw [hfive] at hv
  cases hv
  have hres : e.1 = .ok (.float (add (4:ℚ) (ofInt 1))) := congrArg Prod.fst heval
  rw [hvoid] at hres
  cases hres

end Slemu
