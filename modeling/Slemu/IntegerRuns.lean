import Slemu.IntegerRange

/-! Runs in which every integer operator has a result of 32 bits: so have all variables. -/

namespace Slemu
variable {F : Type} [CDouble F]

/-! ### What holds at every moment -/

/-- Every integer in a variable is one of LSL, and so is every integer that a function returns. -/
structure World.Narrow (w : World F) : Prop where
  globals (i : ℕ) : ∀ v ∈ (w.script i).globals, v.narrow
  frames : ∀ f ∈ w.frames, f.retVal.narrow ∧ ∀ b ∈ f.locs, b.val.narrow

omit [CDouble F] in
/-- Every integer that is noted, as an operand or as a value, is one of LSL. -/
def Mark.narrow : Mark F → Bool
  | .exec _ _ => true
  | .value _ _ v => v.narrow
  | .operands _ l r => l.narrow && r.narrow
  | .builtin _ _ v => v.narrow
  | .returned _ _ _ v => v.narrow

/-- Every integer in a variable is one of LSL, now and at every mark made so far, and so is every
integer that is noted there. -/
structure Machine.Narrow (m : Machine F) : Prop where
  now : m.world.Narrow
  marks : ∀ x ∈ m.log, x.2.Narrow ∧ x.1.narrow

omit [CDouble F] in
/-- Everything noted so far fits in 32 bits. -/
def Machine.Fits (m : Machine F) : Prop := ∀ x ∈ m.log, x.1.fits

namespace World.Narrow
variable {w w' : World F} {s : ℕ}

theorem of_same (h : w.Narrow) (hg : ∀ i, (w'.script i).globals = (w.script i).globals)
    (hf : w'.frames = w.frames) : w'.Narrow :=
  ⟨fun i v hv => h.globals i v (hg i ▸ hv), fun f hmem => h.frames f (hf ▸ hmem)⟩

theorem frame (h : w.Narrow) {f : Frame F} (hf : w.frame = some f) :
    f.retVal.narrow ∧ ∀ b ∈ f.locs, b.val.narrow := h.frames f (List.mem_of_mem_head? hf)

theorem cellVal (h : w.Narrow) (c : Cell) : (w.cellVal s c).narrow := by
  cases c with
  | loc k =>
    unfold World.cellVal
    cases hf : w.frame with
    | none => rfl
    | some f =>
      cases hk : f.locs[k]? with
      | none => simp only [Option.bind_some, hk]; rfl
      | some b =>
        simp only [Option.bind_some, hk, Option.map_some, Option.getD_some]
        exact (h.frame hf).2 b (List.mem_of_getElem? hk)
  | glob i =>
    change ((w.script s).globals.getD i .void).narrow
    rw [List.getD_eq_getElem?_getD]
    cases hv : (w.script s).globals[i]? with
    | none => rfl
    | some v => exact h.globals s v (List.mem_of_getElem? hv)

theorem lvalueVal (h : w.Narrow) (lv : Lval) : (w.lvalueVal s lv).narrow := by
  cases lv with
  | none => rfl
  | cell c => exact h.cellVal c
  | member c axis =>
    simp only [World.lvalueVal]
    cases w.cellVal s c <;> rfl

theorem identVal (h : w.Narrow) (idx : Int32) : (w.identVal s idx).narrow := by
  unfold World.identVal
  cases w.findCell s idx with
  | none => exact narrow_builtinsConst _
  | some c => exact h.cellVal c

theorem modFrame (h : w.Narrow) {f : Frame F → Frame F}
    (hf : ∀ fr : Frame F, fr.retVal.narrow ∧ (∀ b ∈ fr.locs, b.val.narrow) →
      (f fr).retVal.narrow ∧ ∀ b ∈ (f fr).locs, b.val.narrow) : (w.modFrame f).Narrow := by
  refine ⟨h.globals, fun fr hfr => ?_⟩
  cases hw : w.frames with
  | nil =>
    simp only [World.modFrame, hw, List.modifyHead_nil] at hfr
    cases hfr
  | cons g gs =>
    have hall := h.frames
    rw [hw] at hall
    simp only [World.modFrame, hw, List.modifyHead_cons] at hfr
    rcases List.mem_cons.mp hfr with rfl | hfr
    · exact hf g (hall g List.mem_cons_self)
    · exact hall fr (List.mem_cons_of_mem g hfr)

/-- Other globals for script `s`. -/
theorem modGlobals (h : w.Narrow) {f : Script F → Script F}
    (hf : ∀ t : Script F, (∀ v ∈ t.globals, v.narrow) → ∀ v ∈ (f t).globals, v.narrow) :
    (w.modScript s f).Narrow := by
  refine ⟨fun i => ?_, h.frames⟩
  rw [script_modScript]
  split
  · exact hf _ (h.globals i)
  · exact h.globals i

theorem setCell (h : w.Narrow) (c : Cell) {v : SValue F} (hv : v.narrow) :
    (w.setCell s c v).Narrow := by
  cases c with
  | loc k =>
    refine h.modFrame fun fr hfr => ⟨hfr.1, fun b hb => ?_⟩
    obtain ⟨j, hj⟩ := List.getElem?_of_mem hb
    rw [List.getElem?_modify] at hj
    cases hb' : fr.locs[j]? with
    | none =>
      rw [hb'] at hj
      cases hj
    | some b' =>
      rw [hb', Option.map_eq_map, Option.map_some] at hj
      have hold := hfr.2 b' (List.mem_of_getElem? hb')
      split_ifs at hj with hjk
      · cases hj
        exact hv
      · cases hj
        exact hold
  | glob i =>
    refine h.modGlobals fun t ht v' hv' => ?_
    rcases List.mem_or_eq_of_mem_set hv' with hv' | rfl
    · exact ht v' hv'
    · exact hv

theorem framePush (h : w.Narrow) {locs : List (LocalBinding F)}
    (hl : ∀ b ∈ locs, b.val.narrow) : (w.framePush locs).Narrow := by
  refine ⟨h.globals, fun f hf => ?_⟩
  rcases List.mem_cons.mp hf with rfl | hf
  · exact ⟨rfl, hl⟩
  · exact h.frames f hf

theorem framePop (h : w.Narrow) : w.framePop.Narrow :=
  ⟨h.globals, fun f hf => h.frames f (List.mem_of_mem_tail hf)⟩

theorem frameDefine (h : w.Narrow) (idx : Int32) {v : SValue F} (hv : v.narrow) (t : UInt8) :
    (w.frameDefine idx v t).Narrow := by
  refine h.modFrame fun fr hfr => ⟨hfr.1, fun b hb => ?_⟩
  rcases List.mem_cons.mp hb with rfl | hb
  · exact hv
  · exact hfr.2 b hb

theorem frameEnter (h : w.Narrow) : w.frameEnter.Narrow := h.modFrame fun _ hfr => hfr

theorem frameLeave (h : w.Narrow) : w.frameLeave.Narrow := by
  refine h.modFrame fun fr hfr => ⟨hfr.1, fun b hb => hfr.2 b ?_⟩
  exact (List.dropWhile_sublist _).subset hb

end World.Narrow

theorem globals_modScript (w : World F) (s : ℕ) (f : Script F → Script F)
    (hf : ∀ t, (f t).globals = t.globals) (i : ℕ) :
    ((w.modScript s f).script i).globals = (w.script i).globals := by
  rw [script_modScript]
  split
  · exact hf _
  · rfl

theorem BuiltinAct.globals_eq {s : ℕ} {w w' : World F} (h : BuiltinAct s w w') (i : ℕ) :
    (w'.script i).globals = (w.script i).globals := by
  cases h with
  | grown h => exact (h.script i).globals
  | sleep f => rfl
  | setTimer f => exact globals_modScript w s _ (by intro t; rfl) i
  | die => exact globals_modScript w s _ (by intro t; rfl) i

/-- Vectors and rotations have no integers in them. -/
theorem narrow_vecOf {x y z v : SValue F} (h : vecOf x y z = some v) : v.narrow := by
  unfold vecOf at h
  simp only [Option.bind_eq_bind, Option.bind_eq_some_iff, Option.pure_def, Option.some.injEq] at h
  obtain ⟨_, -, _, -, _, -, rfl⟩ := h
  rfl

theorem narrow_rotOf {x y z w v : SValue F} (h : rotOf x y z w = some v) : v.narrow := by
  unfold rotOf at h
  simp only [Option.bind_eq_bind, Option.bind_eq_some_iff, Option.pure_def, Option.some.injEq] at h
  obtain ⟨_, -, _, -, _, -, _, -, rfl⟩ := h
  rfl

theorem narrow_bumpAxis (op axis : UInt8) (x y z : F) : (SValue.bumpAxis op axis x y z).2.narrow := by
  unfold SValue.bumpAxis
  dsimp only
  split_ifs <;> rfl

/-- What `++` and `--` make of a value. -/
theorem narrow_bump {op : UInt8} {old v : SValue F} (h : bump op old = some v) (hold : old.narrow) :
    v.narrow ∨ ∃ i, old = .int i ∧ v = .int (i+stepOf op) := by
  unfold bump at h
  split at h
  · unfold SValue.ofArith at h
    split at h
    · cases h
      exact Or.inr ⟨_, rfl, rfl⟩
    · cases h
  · cases h
    exact Or.inl rfl
  · cases h
    exact Or.inl hold

/-! ### Rules -/

/-- The program only adds to the log. If the assumption `H` holds, all integers are of LSL before
it and everything noted fits, then so are they afterwards, and the value has the property `Q`. -/
structure Gives {α : Type} (H : Prop) (Q : α → Prop) (x : VM F α) : Prop where
  grows (m : Machine F) : m.log <:+ (x m).2.log
  keeps : H → ∀ m : Machine F, (m.Fits → m.Narrow) → (x m).2.Fits →
    (x m).2.Narrow ∧ ∀ a, (x m).1 = .ok a → Q a

namespace Gives
variable {α β : Type} {H H' : Prop} {Q Q' : α → Prop} {s : ℕ}

theorem weaken {x : VM F α} (h : Gives H Q x) (hH : H' → H) (hQ : ∀ a, Q a → Q' a) :
    Gives H' Q' x := by
  refine ⟨h.grows, fun hh m hm hfits => ?_⟩
  obtain ⟨hn, hq⟩ := h.keeps (hH hh) m hm hfits
  exact ⟨hn, fun a ha => hQ a (hq a ha)⟩

/-- Under a stronger assumption. -/
theorem under {x : VM F α} (h : Gives H Q x) (hH : H' → H) : Gives H' Q x :=
  h.weaken hH fun _ => id

/-- Whatever the value is. -/
theorem any {x : VM F α} (h : Gives H Q x) : Gives H (fun _ => True) x :=
  h.weaken id fun _ _ => trivial

theorem pure {a : α} (h : H → Q a) : Gives H Q (Pure.pure a : VM F α) :=
  ⟨fun m => List.suffix_refl m.log, fun hh m hm hfits =>
    ⟨hm hfits, fun b hb => by cases hb; exact h hh⟩⟩

theorem fail (e : Stop) : Gives H Q (Run.fail e : VM F α) :=
  ⟨fun m => List.suffix_refl m.log, fun _ m hm hfits => ⟨hm hfits, fun b hb => by cases hb⟩⟩

theorem bind {R : β → Prop} {x : VM F α} {f : α → VM F β} (hx : Gives H Q x)
    (hf : ∀ a, Gives (H ∧ Q a) R (f a)) : Gives H R (x >>= f) := by
  constructor
  · intro m
    have h := hx.grows m
    rcases Run.bind_cases x f m with ⟨e, t, hm, hr⟩ | ⟨a, t, hm, hr⟩
    · rw [hr]
      rwa [hm] at h
    · rw [hr]
      rw [hm] at h
      exact h.trans ((hf a).grows t)
  · intro hh m hm hfits
    have h := hx.keeps hh m hm
    rcases Run.bind_cases x f m with ⟨e, t, hxm, hr⟩ | ⟨a, t, hxm, hr⟩
    · rw [hr] at hfits ⊢
      rw [hxm] at h
      exact ⟨(h hfits).1, fun b hb => by cases hb⟩
    · rw [hr] at hfits ⊢
      rw [hxm] at h
      -- what fits at the end fitted in the middle
      have hmid : t.Fits := fun y hy => hfits y (((hf a).grows t).subset hy)
      obtain ⟨hn, hq⟩ := h hmid
      exact (hf a).keeps ⟨hh, hq a rfl⟩ t (fun _ => hn) hfits

theorem ite {c : Prop} [Decidable c] {x y : VM F α} (hx : Gives H Q x) (hy : Gives H Q y) :
    Gives H Q (if c then x else y) := by
  split
  · exact hx
  · exact hy

theorem get {f : World F → α} (h : H → ∀ w, w.Narrow → Q (f w)) : Gives H Q (VM.get f) :=
  ⟨fun m => List.suffix_refl m.log, fun hh m hm hfits => ⟨hm hfits, fun b hb => by
    cases hb
    exact h hh m.world (hm hfits).now⟩⟩

/-- A look at the world. -/
theorem look (f : World F → α) : Gives H (fun _ => True) (VM.get f) :=
  get fun _ _ _ => trivial

theorem set {f : World F → World F} (h : H → ∀ w, w.Narrow → (f w).Narrow) :
    Gives H (fun _ => True) (VM.set f) :=
  ⟨fun m => List.suffix_refl m.log, fun hh m hm hfits =>
    ⟨⟨h hh m.world (hm hfits).now, (hm hfits).marks⟩, fun _ _ => trivial⟩⟩

theorem call {f : World F → α × World F} (h : ∀ w, w.Narrow → (f w).2.Narrow) :
    Gives H (fun _ => True) (VM.call f) :=
  ⟨fun m => List.suffix_refl m.log, fun _ m hm hfits =>
    ⟨⟨h m.world (hm hfits).now, (hm hfits).marks⟩, fun _ _ => trivial⟩⟩

theorem mark {k : Mark F} (hk : H → k.fits → k.narrow) :
    Gives H (fun _ => k.fits) (VM.mark k) := by
  refine ⟨fun m => List.suffix_cons _ m.log, fun hh m hm hfits => ?_⟩
  have hn := hm fun x hx => hfits x (List.mem_cons_of_mem _ hx)
  have hkf : k.fits := hfits (k, m.world) List.mem_cons_self
  refine ⟨⟨hn.now, fun x hx => ?_⟩, fun _ _ => hkf⟩
  rcases List.mem_cons.mp hx with rfl | hx
  · exact ⟨hn.now, hk hh hkf⟩
  · exact hn.marks x hx

theorem defined {o : Option α} (h : H → ∀ a, o = some a → Q a) :
    Gives H Q (VM.defined o : VM F α) := by
  cases o with
  | none => exact fail .fault
  | some a => exact pure fun hh => h hh a rfl

/-- A change of a script that leaves its globals alone. -/
theorem modScript (i : ℕ) {f : Script F → Script F} (hf : ∀ t, (f t).globals = t.globals) :
    Gives H (fun _ => True) (VM.set fun w => w.modScript i f) :=
  set fun _ w hw => hw.modGlobals fun t ht => by rwa [hf]

/-- A change of the flags of the running frame. -/
theorem flags {f : Frame F → Frame F} (hf : ∀ fr, (f fr).retVal = fr.retVal ∧ (f fr).locs = fr.locs) :
    Gives H (fun _ => True) (VM.set fun w => w.modFrame f) :=
  set fun _ w hw => hw.modFrame fun fr hfr => by
    rw [(hf fr).1, (hf fr).2]
    exact hfr

theorem pushEvent (i : ℕ) (name : Bytes) (args : List (SValue F)) :
    Gives H (fun _ => True) (VM.set fun w => w.pushEvent i name args) :=
  modScript i fun _ => rfl

theorem reset (st : Script F → Option ℕ) : Gives H (fun _ => True)
    (VM.set fun w => w.modScript s fun t => { t.flush .reset with curState := st t }) :=
  modScript s fun _ => rfl

theorem evalAll {eval : Expr → VM F (SValue F)} (h : ∀ e, Gives H (fun v => v.narrow) (eval e))
    (es : List Expr) : Gives H (fun vs => ∀ v ∈ vs, v.narrow) (evalAll eval es) := by
  induction es with
  | nil => exact pure fun _ v hv => by cases hv
  | cons e es ih =>
    refine (h e).bind fun v => (ih.under And.left).bind fun vs => pure fun hh v' hv' => ?_
    obtain ⟨⟨-, hv⟩, hvs⟩ := hh
    rcases List.mem_cons.mp hv' with rfl | hv'
    · exact hv
    · exact hvs v' hv'

/-! ### Expressions -/

theorem binary (op : UInt8) (l r : SValue F) (hl : H → l.narrow) (hr : H → r.narrow) :
    Gives H (fun v => v.narrow) (binary op l r) := by
  have hmark : Gives H (fun _ => (Mark.operands op l r).fits) (VM.mark (.operands op l r)) :=
    mark fun hh _ => by rw [Mark.narrow, hl hh, hr hh, Bool.and_self]
  refine hmark.bind fun _ => defined fun hh v hv => ?_
  exact narrow_evalBinary (hl hh.1) (hr hh.1) hh.2 hv

theorem assignTo (lv : Lval) {rhs : SValue F} (h : H → rhs.narrow) :
    Gives H (fun v => v.narrow) (assignTo s lv rhs) := by
  cases lv with
  | none => exact pure h
  | cell c =>
    have hstore (old : SValue F) (hh : H) : (storeVal old rhs).narrow := narrow_coerce (h hh) _
    refine (look _).bind fun old => ?_
    refine (set fun hh w hw => hw.setCell c (hstore old hh.1)).bind fun _ => ?_
    exact pure fun hh => hstore old hh.1.1
  | member c axis =>
    refine (get (Q := fun v => v.narrow) fun _ w hw => hw.cellVal c).bind fun base => ite ?_ ?_
    · refine (set fun hh w hw => hw.setCell c ?_).bind fun _ => pure fun hh =>
        narrow_coerce (h hh.1.1) _
      have hb := hh.2
      unfold SValue.setComponent
      split
      · split_ifs <;> rfl
      · split_ifs <;> rfl
      · exact hb
    · exact pure fun hh => h hh.1

section
variable {r : Interp F} {lib : Lib F} (hr : ∀ e, Gives True (fun v => v.narrow) (r.eval e))
include hr

/-- A recursive call of `vm_eval`. -/
theorem eval (e : Expr) : Gives H (fun v => v.narrow) (r.eval e) := (hr e).under fun _ => trivial

theorem evalAssign (op : UInt8) (l e : Expr) :
    Gives H (fun v => v.narrow) (evalAssign r s op l e) := by
  refine (look _).bind fun lv => (eval hr e).bind fun rhs => ite ?_ ?_
  · exact assignTo lv fun hh => hh.2
  · refine (get (Q := fun v => v.narrow) fun _ w hw => hw.lvalueVal lv).bind fun cur => ?_
    refine (binary _ cur rhs (fun hh => hh.2) fun hh => hh.1.2).bind fun v => ?_
    exact assignTo lv fun hh => hh.2

theorem evalShort (go : Bool → Bool) (l e : Expr) :
    Gives H (fun v => v.narrow) (evalShort r go l e) := by
  refine (eval hr l).bind fun a => ite ?_ (pure fun _ => narrow_ofBool _)
  exact (eval hr e).bind fun b => pure fun _ => narrow_ofBool _

omit hr in
/-- A call of a function on the values of its parameters. -/
theorem callFunc (hexec : ∀ st, Gives True (fun _ => True) (r.exec st)) (fd : FuncDecl)
    {locs : List (LocalBinding F)} (hl : H → ∀ b ∈ locs, b.val.narrow) :
    Gives H (fun v => v.narrow) (callFunc r s fd locs) := by
  refine (set fun hh w hw => hw.framePush (hl hh)).bind fun _ => ?_
  refine ((hexec fd.body).under fun _ => trivial).bind fun _ => ?_
  refine (get (Q := fun v => v.narrow) fun _ w hw => ?_).bind fun v => ?_
  · cases hf : w.frame with
    | none => rfl
    | some f => exact (hw.frame hf).1
  · refine (look _).bind fun b => (set fun _ w hw => hw.framePop).bind fun _ => ?_
    exact (mark fun hh _ => hh.1.1.2).bind fun _ => pure fun hh => hh.1.1.1.2

theorem initGlobal (i : ℕ) (g : GlobalVar) {zero : Option (SValue F)}
    (hz : ∀ v, zero = some v → v.narrow) :
    Gives H (fun _ => True) (initGlobal r s i g zero) := by
  refine ite ?_ ((eval hr g.init).bind fun v => set fun hh w hw => hw.setCell _ hh.2)
  cases zero with
  | none => exact pure fun _ => trivial
  | some v => exact set fun _ w hw => hw.setCell _ (hz v rfl)

theorem resetGlobals (gs : List (GlobalVar × ℕ)) :
    Gives H (fun _ => True) (resetGlobals r s gs) := by
  induction gs generalizing H with
  | nil => exact pure fun _ => trivial
  | cons gi gs ih =>
    obtain ⟨g, i⟩ := gi
    exact (initGlobal hr i g fun v hv => by cases hv).bind fun _ => ih

theorem callBuiltin (name : Bytes) (args : List (SValue F)) :
    Gives H (fun _ => True) (callBuiltin lib r s name args) := by
  have hvoid : Gives H (fun _ => True) (VM.set fun w : World F => w.modScript s fun t =>
      { t with globals := t.globals.map fun _ => .void }) :=
    set fun _ w hw => hw.modGlobals fun t ht v hv => by
      obtain ⟨_, -, rfl⟩ := List.mem_map.mp hv
      rfl
  refine ite ?_ ?_
  · refine hvoid.bind fun _ => ?_
    refine (look _).bind fun p => (resetGlobals hr _).bind fun _ => ?_
    exact (reset _).bind fun _ => (pushEvent s _ _).bind fun _ => pure fun _ => trivial
  · split
    · rename_i f hf
      refine call fun w hw => hw.of_same (fun i => ?_)
        (congrArg Control.frames (control_of_lookup hf w s args))
      exact (BuiltinAct.of_lookup hf w s args).globals_eq i
    · exact pure fun _ => trivial

theorem evalCall (hexec : ∀ st, Gives True (fun _ => True) (r.exec st)) (name : Int32)
    (args : List Expr) : Gives H (fun v => v.narrow) (evalCall lib r s name args) := by
  refine (look _).bind fun p => ?_
  split
  · rename_i fd hfd
    rw [runUserFunc_eq]
    refine (evalAll (eval hr) _).bind fun vs => callFunc hexec fd fun hh b hb => ?_
    obtain ⟨q, hq, rfl⟩ := List.mem_map.mp (List.mem_reverse.mp hb)
    exact narrow_coerce (hh.2 _ (List.of_mem_zip hq).2) _
  · refine (evalAll (eval hr) args).bind fun vs => (callBuiltin hr _ vs).bind fun v => ?_
    have hmark {H : Prop} : Gives H (fun _ => v.narrow) (VM.mark (.builtin s (p.str name) v)) :=
      mark (k := .builtin s (p.str name) v) fun _ hk => hk
    exact hmark.bind fun _ => pure fun hh => hh.2

omit hr in
/-- A value that is one of LSL if what is noted of it fits. -/
theorem noted {x : VM F (SValue F)} {e : Expr}
    (hx : Gives H (fun v => e.inRange v → v.narrow) x) :
    Gives H (fun v => v.narrow) (x >>= fun v => VM.mark (.value s e v) >>= fun _ => Pure.pure v) :=
  hx.bind fun _ => (mark fun hh hk => hh.2 hk).bind fun _ => pure fun hh => hh.1.2 hh.2

/-- The `switch` of `vm_eval` but for `++` and `--`. -/
theorem evalNode (hexec : ∀ st, Gives True (fun _ => True) (r.exec st)) (e : Expr)
    (hpre : ∀ t lv op inner, e = .unary t lv op inner → ¬ (op = Op.inc ∨ op = Op.dec))
    (hpost : ∀ t lv op inner, e ≠ .postfix_ t lv op inner) :
    Gives H (fun v => e.inRange v → v.narrow) (evalNode lib r s e) := by
  have hfloats {x : VM F (SValue F)} (h : Gives H (fun v => v.narrow) x) :
      Gives H (fun v => e.inRange v → v.narrow) x := h.weaken id fun v hv _ => hv
  cases e with
  | null => exact pure fun _ _ => rfl
  | intLit t lv n => exact pure fun _ hf => narrow_int.mpr (of_decide_eq_true hf)
  | floatLit t lv bits => exact pure fun _ _ => rfl
  | stringLit t lv idx =>
    refine (look _).bind fun str => defined fun _ v hv _ => ?_
    unfold stringValue at hv
    split_ifs at hv <;> cases hv <;> rfl
  | ident t lv idx =>
    have hval : Gives H (fun v => v.narrow) (VM.get fun w => w.identVal s idx) :=
      get (Q := fun v : SValue F => v.narrow) fun _ w hw => hw.identVal idx
    exact hfloats hval
  | vectorLit t lv x y z =>
    refine (eval hr x).bind fun a => (eval hr y).bind fun b => (eval hr z).bind fun c => ?_
    exact defined fun _ v hv _ => narrow_vecOf hv
  | rotLit t lv x y z w =>
    refine (eval hr x).bind fun a => (eval hr y).bind fun b => (eval hr z).bind fun c => ?_
    exact (eval hr w).bind fun d => defined fun _ v hv _ => narrow_rotOf hv
  | listLit t lv items =>
    refine (evalAll (eval hr) items).bind fun vs => pure fun hh _ => ?_
    rw [SValue.narrow, SValue.narrowAll_iff]
    exact hh.2
  | call t lv name args => exact hfloats (evalCall hr hexec name args)
  | member t lv base m => exact (eval hr base).bind fun b => pure fun _ _ => rfl
  | cast t lv target inner => exact (eval hr inner).bind fun v => pure fun _ hf => hf
  | unary t lv op inner =>
    have hop := hpre t lv op inner rfl
    change Gives H _ (if op = Op.inc ∨ op = Op.dec then evalPrefix s op inner
      else r.eval inner >>= fun v => VM.defined (evalUnary op v))
    rw [if_neg hop]
    refine (eval hr inner).bind fun v => defined fun hh v' hv' hf => ?_
    rcases narrow_evalUnary hh.2 hv' with hn | ⟨rfl, k, rfl, hk⟩
    · exact hn
    · refine hk ?_
      have hfit : In32 (-(-k)) := of_decide_eq_true hf
      rwa [neg_neg] at hfit
  | postfix_ t lv op inner => exact absurd rfl (hpost t lv op inner)
  | binary t lv op l e =>
    refine hfloats (ite (evalShort hr _ l e) (ite (evalShort hr _ l e) ?_))
    refine (eval hr l).bind fun a => (eval hr e).bind fun b => ?_
    exact binary op a b (fun hh => hh.1.2) fun hh => hh.2
  | assign t lv op l e => exact hfloats (evalAssign hr op l e)

omit hr in
/-- A store that is right if the note that comes with it fits. -/
theorem storeNoted {f : World F → World F} {e : Expr} {v : SValue F}
    (hv : H → (Mark.value s e v).fits → v.narrow)
    (hf : H → (Mark.value s e v).fits → ∀ w, w.Narrow → (f w).Narrow) :
    Gives H (fun v => v.narrow) (VM.set f >>= fun _ => VM.mark (.value s e v) >>= fun _ =>
      (Pure.pure v : VM F (SValue F))) := by
  refine ⟨fun m => List.suffix_cons (Mark.value s e v, f m.world) m.log, fun hh m hm hfits => ?_⟩
  have hk : (Mark.value s e v).fits := hfits (.value s e v, f m.world) List.mem_cons_self
  have hn := hm fun x hx => hfits x (List.mem_cons_of_mem _ hx)
  have hnow := hf hh hk m.world hn.now
  refine ⟨⟨hnow, fun x hx => ?_⟩, fun a ha => ?_⟩
  · rcases List.mem_cons.mp hx with rfl | hx
    · exact ⟨hnow, hv hh hk⟩
    · exact hn.marks x hx
  · cases ha
    exact hv hh hk

omit hr in
/-- `++` and `--` in front, with the note of their value. -/
theorem evalPrefix (t lv op : UInt8) (inner : Expr) (hop : op = Op.inc ∨ op = Op.dec) :
    Gives H (fun v => v.narrow) (evalPrefix s op inner >>= fun v =>
      VM.mark (.value s (.unary t lv op inner) v) >>= fun _ => Pure.pure v : VM F (SValue F)) := by
  unfold Slemu.evalPrefix
  rw [bind_assoc]
  refine (look _).bind fun l => ?_
  cases l with
  | none => exact noted (pure fun _ _ => narrow_int.mpr (by decide))
  | member c axis =>
    refine noted ((look _).bind fun b => ?_)
    cases b with
    | vec x y z =>
      exact (set fun _ w hw => hw.setCell c (narrow_bumpAxis op axis x y z)).bind fun _ =>
        pure fun _ _ => rfl
    | _ => exact fail .fault
  | cell c =>
    dsimp only
    simp only [bind_assoc, pure_bind]
    refine (get (Q := fun v => v.narrow) fun _ w hw => hw.cellVal c).bind fun old => ?_
    refine (defined (Q := fun v => bump op old = some v) fun _ v hv => hv).bind fun v => ?_
    have hv (hh : ((H ∧ True) ∧ old.narrow = true) ∧ bump op old = some v)
        (hk : (Mark.value s (.unary t lv op inner) v).fits) : v.narrow := by
      rcases narrow_bump hh.2 hh.1.2 with hn | ⟨i, -, rfl⟩
      · exact hn
      · refine narrow_int.mpr ?_
        rcases hop with rfl | rfl
        · have hfit : In32 (i+1-1+1) := of_decide_eq_true hk
          rwa [Int.sub_add_cancel] at hfit
        · have hfit : In32 (i+(-1)+1-1) := of_decide_eq_true hk
          rwa [Int.add_sub_cancel] at hfit
    exact storeNoted hv fun hh hk w hw => hw.setCell c (hv hh hk)

omit hr in
/-- `++` and `--` behind, with the note of their value. -/
theorem evalPostfix (t lv op : UInt8) (inner : Expr) :
    Gives H (fun v => v.narrow) (evalPostfix s op inner >>= fun v =>
      VM.mark (.value s (.postfix_ t lv op inner) v) >>= fun _ => Pure.pure v :
        VM F (SValue F)) := by
  unfold Slemu.evalPostfix
  rw [bind_assoc]
  refine (look _).bind fun l => ?_
  cases l with
  | none => exact noted (pure fun _ _ => narrow_int.mpr (by decide))
  | member c axis => exact noted (pure fun _ _ => narrow_int.mpr (by decide))
  | cell c =>
    dsimp only
    simp only [bind_assoc, pure_bind]
    refine (get (Q := fun v => v.narrow) fun _ w hw => hw.cellVal c).bind fun old => ?_
    refine (defined (Q := fun v => bump op old = some v) fun _ v hv => hv).bind fun v => ?_
    refine storeNoted (fun hh _ => hh.1.2) fun hh hk w hw => hw.setCell c ?_
    rcases narrow_bump hh.2 hh.1.2 with hn | ⟨i, rfl, rfl⟩
    · exact hn
    · refine narrow_int.mpr ?_
      change (if op = Op.inc then IntOp.inc.fits i 0 else IntOp.dec.fits i 0) = true at hk
      unfold stepOf
      split_ifs at hk ⊢ with hinc
      · exact of_decide_eq_true hk
      · exact of_decide_eq_true hk

/-- `vm_eval` -/
theorem evalExpr (hexec : ∀ st, Gives True (fun _ => True) (r.exec st)) (e : Expr) :
    Gives H (fun v => v.narrow) (evalExpr lib r s e) := by
  by_cases hpre : ∃ t lv op inner, e = .unary t lv op inner ∧ (op = Op.inc ∨ op = Op.dec)
  · obtain ⟨t, lv, op, inner, rfl, hop⟩ := hpre
    have h : Slemu.evalNode lib r s (.unary t lv op inner) = Slemu.evalPrefix s op inner := if_pos hop
    unfold Slemu.evalExpr
    rw [h]
    exact evalPrefix t lv op inner hop
  by_cases hpost : ∃ t lv op inner, e = .postfix_ t lv op inner
  · obtain ⟨t, lv, op, inner, rfl⟩ := hpost
    exact evalPostfix t lv op inner
  · exact noted (evalNode hr hexec e
      (fun t lv op inner he hop => hpre ⟨t, lv, op, inner, he, hop⟩)
      fun t lv op inner he => hpost ⟨t, lv, op, inner, he⟩)

/-! ### Statements -/

theorem forTest (cond : Expr) : Gives H (fun _ => True) (forTest r cond) :=
  ite (pure fun _ => trivial) ((eval hr cond).bind fun _ => pure fun _ => trivial)

section
variable {body : Stmt} (hbody : Gives True (fun _ => True) (r.exec body))
include hbody

theorem whileLoop (cond : Expr) (n : ℕ) :
    Gives H (fun _ => True) (whileLoop r s cond body n) := by
  induction n generalizing H with
  | zero => exact pure fun _ => trivial
  | succ n ih =>
    refine (eval hr cond).bind fun _ => ite ?_ (pure fun _ => trivial)
    refine (hbody.under fun _ => trivial).bind fun _ => (look _).bind fun _ => ?_
    exact ite (pure fun _ => trivial) ih

theorem doLoop (cond : Expr) (n : ℕ) : Gives H (fun _ => True) (doLoop r s body cond n) := by
  induction n generalizing H with
  | zero => exact pure fun _ => trivial
  | succ n ih =>
    refine (hbody.under fun _ => trivial).bind fun _ => (look _).bind fun _ => ?_
    refine ite (pure fun _ => trivial) ((eval hr cond).bind fun _ => ?_)
    exact ite ih (pure fun _ => trivial)

theorem forLoop (cond : Expr) (post : List Expr) (n : ℕ) :
    Gives H (fun _ => True) (forLoop r s cond post body n) := by
  induction n generalizing H with
  | zero => exact pure fun _ => trivial
  | succ n ih =>
    refine (forTest hr cond).bind fun _ => ite ?_ (pure fun _ => trivial)
    refine (hbody.under fun _ => trivial).bind fun _ => (look _).bind fun _ => ?_
    refine ite (pure fun _ => trivial) ((evalAll (eval hr) post).bind fun _ => ?_)
    exact ih

end

section
variable (hexec : ∀ st, Gives True (fun _ => True) (r.exec st))
  (hblock : ∀ all rest, Gives True (fun _ => True) (r.block all rest))

omit hr in
include hblock in
theorem blockNext (all rest : List Stmt) : Gives H (fun _ => True) (blockNext r s all rest) := by
  refine (look _).bind fun _ => ite (pure fun _ => trivial) ((look _).bind fun _ =>
    ite (pure fun _ => trivial) ((look _).bind fun _ => ite ((look _).bind fun idx => ?_) ?_))
  · split
    · have hflag : Gives ((((H ∧ True) ∧ True) ∧ True) ∧ True) (fun _ => True)
          (VM.set fun w : World F => w.modFrame fun f => { f with jumping := false }) :=
        flags fun _ => ⟨rfl, rfl⟩
      exact hflag.bind fun _ => (hblock all _).under fun _ => trivial
    · exact pure fun _ => trivial
  · exact (hblock all rest).under fun _ => trivial

omit hr in
include hexec hblock in
theorem blockFrom (all rest : List Stmt) : Gives H (fun _ => True) (blockFrom r s all rest) := by
  cases rest with
  | nil => exact pure fun _ => trivial
  | cons st rest =>
    exact ((hexec st).under fun _ => trivial).bind fun _ => blockNext hblock all rest

include hexec hblock

/-- The `switch` of `vm_exec`. -/
theorem execNode (st : Stmt) : Gives H (fun _ => True) (execNode r s st) := by
  have hex {H : Prop} (st : Stmt) : Gives H (fun _ => True) (r.exec st) :=
    (hexec st).under fun _ => trivial
  cases st with
  | null => exact pure fun _ => trivial
  | empty => exact pure fun _ => trivial
  | label => exact pure fun _ => trivial
  | expr line e => exact (eval hr e).bind fun _ => pure fun _ => trivial
  | decl line t idx init =>
    refine (eval hr init).bind fun v => set fun hh w hw => hw.frameDefine idx ?_ t
    unfold declVal
    split
    · exact narrow_svZero t
    · exact narrow_coerce hh.2 t
  | block line stmts =>
    refine (set fun _ w hw => hw.frameEnter).bind fun _ => ?_
    exact ((hblock stmts stmts).under fun _ => trivial).bind fun _ => set fun _ w hw => hw.frameLeave
  | if_ line cond then_ else_ => exact (eval hr cond).bind fun _ => ite (hex then_) (hex else_)
  | while_ line cond body => exact whileLoop hr (hexec body) cond safety
  | do_ line body cond => exact doLoop hr (hexec body) cond safety
  | for_ line init cond post body =>
    refine (set fun _ w hw => hw.frameEnter).bind fun _ => (evalAll (eval hr) init).bind fun _ => ?_
    exact (forLoop hr (hexec body) cond post safety).bind fun _ => set fun _ w hw => hw.frameLeave
  | ret line hasValue e =>
    refine (look _).bind fun _ => ite ((eval hr e).bind fun v => set fun hh w hw => ?_)
      (flags fun _ => ⟨rfl, rfl⟩)
    exact hw.modFrame fun fr hfr => ⟨hh.2, hfr.2⟩
  | jump line idx => exact flags fun _ => ⟨rfl, rfl⟩
  | stateChg line idx =>
    refine (look _).bind fun p => ?_
    split
    · exact modScript s fun _ => rfl
    · exact pure fun _ => trivial

theorem execStmt (st : Stmt) : Gives H (fun _ => True) (execStmt r s st) :=
  (look _).bind fun _ => ite (pure fun _ => trivial) ((mark fun _ _ => rfl).bind fun _ =>
    execNode hr hexec hblock st)

end

end

end Gives

/-- Recursive calls of the interpreter keep all integers in the range of LSL. -/
structure Interp.Gives (r : Interp F) : Prop where
  eval (e : Expr) : Slemu.Gives True (fun v => v.narrow) (r.eval e)
  exec (st : Stmt) : Slemu.Gives True (fun _ => True) (r.exec st)
  block (all rest : List Stmt) : Slemu.Gives True (fun _ => True) (r.block all rest)

theorem interp_yields (lib : Lib F) (s n : ℕ) : (interp lib s n).Gives := by
  induction n with
  | zero => exact ⟨fun _ => .fail .fuel, fun _ => .fail .fuel, fun _ _ => .fail .fuel⟩
  | succ n ih =>
    exact ⟨fun e => .evalExpr ih.eval ih.exec e, fun st => .execStmt ih.eval ih.exec ih.block st,
      fun all rest => .blockFrom ih.exec ih.block all rest⟩

/-! ### Runs -/

namespace Gives
variable {lib : Lib F} {s : ℕ} {H : Prop}

theorem vmDispatch (n : ℕ) (ev : EventDecl) {args : List (SValue F)}
    (hargs : H → ∀ v ∈ args, v.narrow) : Gives H (fun _ => True) (vmDispatch lib s n ev args) := by
  refine (set fun hh w hw => hw.framePush fun b hb => ?_).bind fun _ => ?_
  · obtain ⟨q, hq, rfl⟩ := List.mem_map.mp (List.mem_reverse.mp hb)
    exact narrow_coerce (hargs hh _ (List.of_mem_zip hq).2) _
  · refine (((interp_yields lib s n).exec ev.body).under fun _ => trivial).bind fun _ => ?_
    exact set fun _ w hw => hw.framePop

theorem initGlobals (n : ℕ) (gs : List (GlobalVar × ℕ)) :
    Gives H (fun _ => True) (initGlobals (interp lib s n) s gs) := by
  induction gs generalizing H with
  | nil => exact pure fun _ => trivial
  | cons gi gs ih =>
    obtain ⟨g, i⟩ := gi
    refine (initGlobal (interp_yields lib s n).eval i g fun v hv => ?_).bind fun _ => ih
    cases hv
    exact narrow_svZero _

/-- A change of the world that leaves all variables alone. -/
theorem keep {f : World F → World F} (hg : ∀ w i, ((f w).script i).globals = (w.script i).globals)
    (hf : ∀ w, (f w).frames = w.frames) : Gives H (fun _ => True) (VM.set f) :=
  set fun _ w hw => hw.of_same (hg w) (hf w)

theorem dispatchEvent (n : ℕ) (ev : Event F) (hargs : H → ∀ v ∈ ev.args, v.narrow) :
    Gives H (fun _ => True) (dispatchEvent lib s n ev) := by
  refine (look _).bind fun o => ?_
  split
  · exact pure fun _ => trivial
  · have hemit : Gives (H ∧ True) (fun _ => True) (VM.set fun w : World F =>
        w.emit (.eventDispatch (w.script s).name ev.name ev.args.length)) :=
      keep (fun _ _ => rfl) fun _ => rfl
    exact hemit.bind fun _ => vmDispatch n _ fun hh => hargs hh.1.1

theorem read {α : Type} (f : Machine F → α) : Gives H (fun _ => True) (Run.read f) :=
  ⟨fun m => List.suffix_refl m.log, fun _ _ hm hfits => ⟨hm hfits, fun _ _ => trivial⟩⟩

theorem callSame {α : Type} {f : World F → α × World F}
    (hg : ∀ w i, ((f w).2.script i).globals = (w.script i).globals)
    (hf : ∀ w, (f w).2.frames = w.frames) : Gives H (fun _ => True) (VM.call f) :=
  call fun w hw => hw.of_same (hg w) (hf w)

theorem loopHead : Gives H (fun _ => True) (loopHead : VM F Phase) := by
  have hnow {H : Prop} : Gives H (fun _ => True) (VM.call (World.nowSeconds : World F → _)) :=
    callSame (fun _ _ => rfl) fun _ => rfl
  have hfire {H : Prop} : Gives H (fun _ => True) (VM.call (World.fireTimer : World F → _)) := by
    refine callSame (fun w i => ?_) fun w => ?_
    · unfold World.fireTimer
      split
      · exact (globals_modScript _ _ _ (by intro t; rfl) i).trans
          (globals_modScript _ _ _ (by intro t; rfl) i)
      · rfl
    · unfold World.fireTimer
      split <;> rfl
  have htime : Gives H (fun _ => True) (limitReached : VM F Bool) := by
    refine (look _).bind fun _ => ite (pure fun _ => trivial) ((look _).bind fun _ => ite ?_ ?_)
    · exact hnow.bind fun now => read _
    · exact pure fun _ => trivial
  refine htime.bind fun _ => ite (pure fun _ => trivial) (hfire.bind fun _ => ?_)
  exact pure fun _ => trivial

theorem globals_commandsPump (w : World F) (i : ℕ) :
    (w.commandsPump.2.script i).globals = (w.script i).globals := by
  unfold World.commandsPump
  split
  · rfl
  · rename_i line hl
    cases Told.runCommand { w with nextCommand := w.nextCommand+1 } line with
    | grown h => exact (h.script i).globals
    | wait f h =>
      have hs := congrArg (fun c => c.1) h
      exact congrArg Script.globals (script_of_scripts hs i)

theorem pump (next last : Phase) : Gives H (fun _ => True) (pump next last : VM F Phase) := by
  have hcmd : Gives H (fun _ => True) (VM.call (World.commandsPump : World F → _)) :=
    callSame globals_commandsPump frames_commandsPump
  have hcount : Gives (H ∧ True) (fun _ => True) (VM.set (World.countStep : World F → _)) :=
    keep (fun _ _ => rfl) fun _ => rfl
  exact hcmd.bind fun _ => ite (hcount.bind fun _ => pure fun _ => trivial)
    (pure fun _ => trivial)

/-- The visit of a script whose next event, if any, has integers of LSL. -/
theorem visit (n i : ℕ) (ev : Event F) (hargs : ∀ v ∈ ev.args, v.narrow) :
    Gives True (fun _ => True) (VM.set (fun w => w.dequeue i) >>= fun _ =>
      Slemu.dispatchEvent lib i n ev >>= fun _ => VM.set World.countStep >>= fun _ =>
        (Pure.pure (Phase.settle i) : VM F Phase)) := by
  have hcount {H : Prop} : Gives H (fun _ => True) (VM.set (World.countStep : World F → _)) :=
    keep (fun _ _ => rfl) fun _ => rfl
  have hdequeue : Gives True (fun _ => True) (VM.set fun w : World F => w.dequeue i) :=
    modScript i fun _ => rfl
  refine hdequeue.bind fun _ => ?_
  refine (dispatchEvent n ev fun _ => hargs).bind fun _ => hcount.bind fun _ => ?_
  exact pure fun _ => trivial

/-- The steps of the loop but for the visit of a script. -/
theorem regionStep (n : ℕ) (p : Phase) (hp : ∀ i b, p ≠ .visit i b) :
    Gives True (fun _ => True) (regionStep lib n p) := by
  cases p with
  | load =>
    have hload : Gives True (fun _ => True) (VM.set (World.volumeLoadEconomy : World F → _)) := by
      refine keep (fun w i => ?_) fun w => ?_
      · unfold World.volumeLoadEconomy
        split <;> rfl
      · unfold World.volumeLoadEconomy
        split <;> rfl
    exact hload.bind fun _ => pure fun _ => trivial
  | init i =>
    refine (look _).bind fun _ => ite (Gives.bind (Q := fun _ => True) ?_ fun _ =>
      pure fun _ => trivial) (Gives.bind (Q := fun _ => True) ?_ fun _ => pure fun _ => trivial)
    · have hstart {H : Prop} : Gives H (fun _ => True) (VM.set fun w : World F =>
          w.modScript i fun t => { t with curState := startState t.prog t.curState }) :=
        modScript i fun _ => rfl
      refine (look _).bind fun p => (initGlobals n _).bind fun _ => ?_
      exact hstart.bind fun _ => pushEvent i _ _
    · have hnow {H : Prop} : Gives H (fun _ => True) (VM.call (World.nowSeconds : World F → _)) :=
        callSame (fun _ _ => rfl) fun _ => rfl
      refine hnow.bind fun now => ⟨fun m => List.suffix_refl m.log, fun _ m hm hfits => ?_⟩
      exact ⟨⟨(hm hfits).now, (hm hfits).marks⟩, fun _ _ => trivial⟩
  | top => exact loopHead
  | visit i b => exact absurd rfl (hp i b)
  | settle i =>
    refine (look _).bind fun t => ?_
    split
    · exact pure fun _ => trivial
    · rename_i new _
      have hswitch {H : Prop} : Gives H (fun _ => True) (VM.set fun w : World F =>
          w.switchState i new) := modScript i fun _ => rfl
      exact hswitch.bind fun _ => pure fun _ => trivial
  | exit i old new =>
    refine Gives.bind (Q := fun _ => True) ((look _).bind fun p => ?_) fun _ => pure fun _ => trivial
    split
    · exact pure fun _ => trivial
    · exact vmDispatch n _ fun _ v hv => by cases hv
  | entry i new => exact (pushEvent i _ _).bind fun _ => pure fun _ => trivial
  | idle => exact pump _ _
  | drain => exact pump _ _
  | save =>
    have hsave : Gives True (fun _ => True) (VM.set (World.volumeSaveEconomy : World F → _)) :=
      keep (fun _ _ => rfl) fun _ => rfl
    exact hsave.bind fun _ => pure fun _ => trivial
  | done => exact pure fun _ => trivial

end Gives

namespace Conf

/-- The event that a script is about to take has integers of LSL. -/
def TakesNarrow (c : Conf F) : Prop :=
  ∀ i b, c.phase = .visit i b → ∀ ev, (c.script i).evq.head? = some ev → ∀ v ∈ ev.args, v.narrow

/-- One step of the loop, finished or not. -/
theorem TakesNarrow.step {c : Conf F} (hc : c.TakesNarrow) (lib : Lib F) (n : ℕ) :
    c.machine.log <:+ (regionStep lib n c.phase c.machine).2.log ∧
      ((c.machine.Fits → c.machine.Narrow) → (regionStep lib n c.phase c.machine).2.Fits →
        (regionStep lib n c.phase c.machine).2.Narrow) := by
  have hof {x : VM F Phase} (h : Gives True (fun _ => True) x) :
      c.machine.log <:+ (x c.machine).2.log ∧ ((c.machine.Fits → c.machine.Narrow) →
        (x c.machine).2.Fits → (x c.machine).2.Narrow) :=
    ⟨h.grows _, fun hm hfits => (h.keeps trivial _ hm hfits).1⟩
  by_cases hv : ∃ i b, c.phase = .visit i b
  · obtain ⟨i, b, hp⟩ := hv
    rw [hp]
    have hlen : (VM.get fun w => decide (i < w.scripts.length) : VM F Bool) c.machine =
        (.ok (decide (i < c.world.scripts.length)), c.machine) := rfl
    have hevq : (VM.get fun w => (w.script i).evq : VM F (List (Event F))) c.machine =
        (.ok (c.script i).evq, c.machine) := rfl
    change c.machine.log <:+ (visitScript lib n i b c.machine).2.log ∧
      (_ → (visitScript lib n i b c.machine).2.Fits → (visitScript lib n i b c.machine).2.Narrow)
    unfold visitScript
    rw [Run.bind_ok hlen]
    split
    · rw [Run.bind_ok hevq]
      cases hq : (c.script i).evq with
      | nil => exact hof (.pure fun _ => trivial)
      | cons ev evs => exact hof (Gives.visit n i ev (hc i b hp ev (by rw [hq]; rfl)))
    · exact hof (.pure fun _ => trivial)
  · exact hof (Gives.regionStep n c.phase fun i b hp => hv ⟨i, b, hp⟩)

/-- A run begins with no integers but in its programs. -/
theorem Start.narrow {c : Conf F} (h : Start c) : c.machine.Narrow := by
  constructor
  · refine ⟨fun i v hv => ?_, fun f hf => ?_⟩
    · by_cases hi : i < c.world.scripts.length
      · have hmem : c.script i ∈ c.world.scripts := by
          simp only [Conf.script, World.script, List.getD_eq_getElem _ _ hi, List.getElem_mem]
        have hv' : v ∈ (c.script i).globals := hv
        rw [(h.scripts _ hmem).globals] at hv'
        obtain ⟨_, -, rfl⟩ := List.mem_map.mp hv'
        rfl
      · have hd := script_of_length_le c.world i (not_lt.mp hi)
        have hv' : v ∈ (c.world.script i).globals := hv
        rw [hd] at hv'
        cases hv'
    · have hf' : f ∈ c.world.frames := hf
      rw [h.frames] at hf'
      cases hf'
  · intro x hx
    rw [h.log] at hx
    cases hx

end Conf

/-- An operator on integers of LSL gives its result in 32 bits exactly if that is its exact result.
In a run in which the exact results of all operators fit in 32 bits, and so do the literals,
conversions, results of builtins and arguments of events, every integer in a variable, operand or
value does so at every moment, also in the middle of a step. -/
theorem ints_stay_32bit (lib : Lib F) :
    (∀ (o : IntOp) (i j : ℤ), In32 i → In32 j →
      ((∀ k, o.run i j = some (.int k : SValue F) → k = int32 (o.exact i j)) ↔
        In32 (o.exact i j))) ∧
    ∀ (c : ℕ → Conf F) (n fuel : ℕ), Conf.IsRun lib c n → (∀ k ≤ n, (c k).TakesNarrow) →
      (regionStep lib fuel (c n).phase (c n).machine).2.Fits →
        (∀ k ≤ n, (c k).machine.Narrow) ∧
          (regionStep lib fuel (c n).phase (c n).machine).2.Narrow := by
  refine ⟨fun o i j hi hj => o.run_int32_iff hi hj, fun c n fuel h htakes hfits => ?_⟩
  have hkeep : ∀ k ≤ n, (c k).machine.Fits → (c k).machine.Narrow := by
    intro k
    induction k with
    | zero => exact fun _ _ => h.start.narrow
    | succ k ih =>
      intro hk
      obtain ⟨-, f, hstep⟩ := h.step k hk
      have hs := ((htakes k (Nat.le_of_succ_le hk)).step lib f).2 (ih (Nat.le_of_succ_le hk))
      rwa [hstep] at hs
  -- the log only grows, so what fits at the end fitted all along
  have hgrow : ∀ j, ∀ k ≤ n, k+j = n → (c k).machine.log <:+ (c n).machine.log := by
    intro j
    induction j with
    | zero =>
      rintro k - rfl
      exact List.suffix_refl _
    | succ j ih =>
      intro k hk hkj
      obtain ⟨-, f, hstep⟩ := h.step k (by omega)
      have hs := ((htakes k hk).step lib f).1
      rw [hstep] at hs
      exact hs.trans (ih (k+1) (by omega) (by omega))
  have hlast := (htakes n le_rfl).step lib fuel
  have hfitsn : (c n).machine.Fits := fun x hx => hfits x (hlast.1.subset hx)
  refine ⟨fun k hk => hkeep k hk fun x hx => ?_, hlast.2 (hkeep n le_rfl) hfits⟩
  exact hfitsn x ((hgrow (n-k) k hk (by omega)).subset hx)

theorem Conf.TakesNarrow.of_all {c : Conf F} (h : (c.world.scripts.all fun t => t.evq.all fun ev =>
    ev.args.all SValue.narrow) = true) : c.TakesNarrow := by
  intro i b _ ev hev v hv
  have hi : i < c.world.scripts.length := by
    by_contra hi
    have hd : c.script i = default := script_of_length_le c.world i (not_lt.mp hi)
    rw [hd] at hev
    cases hev
  have hmem : c.script i ∈ c.world.scripts := by
    simp only [Conf.script, World.script, List.getD_eq_getElem _ _ hi, List.getElem_mem]
  have ht := List.all_eq_true.mp (List.all_eq_true.mp h _ hmem) ev (List.mem_of_mem_head? hev)
  exact List.all_eq_true.mp ht v hv

/-- A program with a global `x` and the handler `state_entry() { x = a; ++x; }`. -/
def countProgram (a : Int64) : Program :=
  { handlersProgram [(1, [.expr 3 (.assign SV.integer 0 Op.assign (.ident SV.integer 1 6)
      (.intLit SV.integer 0 a)), .expr 4 (.unary SV.integer 0 Op.inc (.ident SV.integer 1 6))])] with
    globals := [⟨SV.integer, 6, .null⟩] }

/-- From 7 on, the variable stays in range. -/
theorem ints_stay_32bit_seven :
    let c := (regionOf [countProgram 7] []).after noLib 30
    (∀ k ≤ 5, (c k).machine.Narrow) ∧ ((c 5).script 0).globals.map SValue.toLong = [8] := by
  intro c
  have hrun : Conf.IsRun noLib c 5 := Conf.isRun_after (start_regionOf _ _) (by decide +kernel)
  have htakes : ∀ k < 6, ((c k).world.scripts.all fun t => t.evq.all fun ev =>
      ev.args.all SValue.narrow) = true := by decide +kernel
  have hfits : (regionStep noLib 0 (c 5).phase (c 5).machine).2.log.all fun x => x.1.fits := by
    decide +kernel
  refine ⟨((ints_stay_32bit noLib).2 c 5 0 hrun (fun k hk => .of_all (htakes k (by omega))) ?_).1,
    by decide +kernel⟩
  exact fun x hx => List.all_eq_true.mp hfits x hx

/-- From `2147483647` on, it does not. -/
theorem int_leaves_32bit :
    let c := (regionOf [countProgram 2147483647] []).after noLib 30
    Conf.IsRun noLib c 5 ∧ ((c 5).script 0).globals.map SValue.toLong = [2147483648] ∧
      ¬ In32 2147483648 ∧ int32 2147483648 = -2147483648 := by
  intro c
  exact ⟨Conf.isRun_after (start_regionOf _ _) (by decide +kernel), by decide +kernel, by decide,
    by decide⟩

end Slemu
