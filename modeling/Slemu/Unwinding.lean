import Slemu.Outcomes
import Slemu.Scopes

/-! The flags `returning` and `jumping` of a frame say what the outcome of a statement says. -/

namespace Slemu
variable {F : Type} [CDouble F]

/-! ### The flags are left alone -/

def World.exits (w : World F) : List (Bool × Bool × SValue F) := w.frames.map Frame.exits

/-- There is a running frame, and no flag of it is set. -/
def World.Going (w : World F) : Prop := w.exits.head? = some (false, false, .void)

/-- Whenever the program comes to its end, no flag of any frame is other than it was. -/
def Flagless {α : Type} (m : VM F α) : Prop :=
  ∀ x a y, m x = (.ok a, y) → y.world.exits = x.world.exits

namespace Flagless
variable {α β : Type}

omit [CDouble F] in
theorem pure (a : α) : Flagless (pure a : VM F α) := by
  intro x b y h
  cases h
  rfl

omit [CDouble F] in
theorem bind {m : VM F α} {f : α → VM F β} (hm : Flagless m) (hf : ∀ a, Flagless (f a)) :
    Flagless (m >>= f) := by
  intro x b z h
  obtain ⟨a, y, h1, h2⟩ := Run.of_bind_ok h
  exact (hf a y b z h2).trans (hm x a y h1)

end Flagless

omit [CDouble F] in
theorem World.exits_modFrame (w : World F) {f : Frame F → Frame F}
    (hf : ∀ fr, (f fr).exits = fr.exits) : (w.modFrame f).exits = w.exits := by
  unfold exits modFrame
  cases w.frames with
  | nil => rfl
  | cons fr frs => exact congrArg (· :: frs.map Frame.exits) (hf fr)

omit [CDouble F] in
theorem World.exits_framePop (w : World F) : w.framePop.exits = w.exits.tail := by
  unfold exits framePop
  rw [List.map_tail]

omit [CDouble F] in
theorem flagless_unflagged : Unflagged (F := F) (fun {α} (m : VM F α) => Flagless m) where
  pure a := .pure a
  fault := by
    intro α x b y h
    cases h
  bind hm hf := hm.bind hf
  get f := by
    intro x b y h
    cases h
    rfl
  mark k := by
    intro x b y h
    cases h
    rfl
  script s f hf := by
    intro x b y h
    cases h
    rfl
  frame hf := by
    intro x b y h
    cases h
    exact x.world.exits_modFrame hf
  call locs m hm := by
    intro x a z h
    obtain ⟨o, y, hy, hz⟩ := Run.of_bind_ok (VM.of_set_bind h)
    -- what runs on the new frame leaves those below as they are
    have hx := hm _ o y hy
    cases hz
    calc y.world.framePop.exits
        = y.world.exits.tail := World.exits_framePop _
      _ = (x.world.framePush locs).exits.tail := congrArg List.tail hx
      _ = x.world.exits := rfl

theorem flagless_ref (lib : Lib F) (s n : ℕ) :
    (ref lib s n).All (fun {α} (m : VM F α) => Flagless m) := by
  have h : UnflaggedBy lib s (fun {α} (m : VM F α) => Flagless m) :=
    { toUnflagged := flagless_unflagged
      fuel := by
        intro α x b y h
        cases h
      builtin := by
        intro name f args hf x b y h
        cases h
        have hframes := congrArg Control.frames (control_of_lookup hf x.world s args)
        exact congrArg (List.map Frame.exits) hframes }
  exact h.ref n

/-! ### Steps on a machine that is going -/

/-- What the end of a statement does to the flags of its frame. -/
def Outcome.flag : Outcome F → Frame F → Frame F
  | .normal, f => f
  | .ret (some v), f => { f with retVal := v, returning := true }
  | .ret none, f => { f with returning := true }
  | .jump idx, f => { f with jumping := true, jumpNameIdx := idx }

/-- Sets the flags as a statement does that ends so. -/
def unwind (o : Outcome F) : VM F Unit := VM.set fun w => w.modFrame o.flag

namespace World

omit [CDouble F] in
theorem frame_modFrame (w : World F) (g : Frame F → Frame F) :
    (w.modFrame g).frame = w.frame.map g := by
  unfold frame modFrame
  cases w.frames <;> rfl

omit [CDouble F] in
theorem modFrame_modFrame (w : World F) (g h : Frame F → Frame F) :
    (w.modFrame g).modFrame h = w.modFrame (h ∘ g) := by
  unfold modFrame
  dsimp only
  rw [List.modifyHead_modifyHead]

omit [CDouble F] in
theorem modFrame_id (w : World F) : w.modFrame (fun f => f) = w := by
  unfold modFrame
  rw [show w.frames.modifyHead (fun f => f) = w.frames by cases w.frames <;> rfl]

omit [CDouble F] in
/-- Changes that agree on the running frame. -/
theorem modFrame_congr {w : World F} {f : Frame F} (hf : w.frame = some f)
    {g h : Frame F → Frame F} (hgh : g f = h f) : w.modFrame g = w.modFrame h := by
  unfold frame at hf
  unfold modFrame
  cases hw : w.frames with
  | nil =>
    rw [hw] at hf
    cases hf
  | cons fr frs =>
    rw [hw] at hf
    obtain rfl := Option.some.inj hf
    rw [List.modifyHead_cons, List.modifyHead_cons, hgh]

omit [CDouble F] in
theorem framePop_modFrame (w : World F) (g : Frame F → Frame F) :
    (w.modFrame g).framePop = w.framePop := by
  unfold framePop modFrame
  cases w.frames <;> rfl

omit [CDouble F] in
theorem Going.frame {w : World F} (h : w.Going) :
    ∃ f, w.frame = some f ∧ f.returning = false ∧ f.jumping = false ∧ f.retVal = .void := by
  unfold Going exits at h
  rw [List.head?_map] at h
  obtain ⟨f, hf, he⟩ := Option.map_eq_some_iff.mp h
  obtain ⟨h1, h23⟩ := Prod.mk.inj he
  obtain ⟨h2, h3⟩ := Prod.mk.inj h23
  exact ⟨f, hf, h1, h2, h3⟩

omit [CDouble F] in
theorem Going.returning {w : World F} (h : w.Going) : w.returning = false := by
  obtain ⟨f, hf, hr, -⟩ := h.frame
  unfold World.returning
  rw [hf, Option.any_some, hr]

omit [CDouble F] in
theorem Going.jumping {w : World F} (h : w.Going) : w.jumping = false := by
  obtain ⟨f, hf, -, hj, -⟩ := h.frame
  unfold World.jumping
  rw [hf, Option.any_some, hj]

omit [CDouble F] in
theorem going_framePush (w : World F) (locs : List (LocalBinding F)) : (w.framePush locs).Going :=
  rfl

end World

section
variable {α : Type}

omit [CDouble F] in
/-- A program that leaves the flags alone goes on from a machine that is going to one that is. -/
theorem Flagless.going {m : VM F α} (h : Flagless m) {x y : Machine F} {a : α} (hx : x.world.Going)
    (hm : m x = (.ok a, y)) : y.world.Going := by
  unfold World.Going at hx ⊢
  rw [h x a y hm, hx]

end

/-- On a machine that is going, `m` does what `r` does and sets the flags for its outcome. -/
def Unwinds (m : VM F Unit) (r : VM F (Outcome F)) : Prop :=
  ∀ x : Machine F, x.world.Going → m x = (r >>= unwind) x

namespace Unwinds
variable {α : Type} {s : ℕ} {m k : VM F Unit} {r k' : VM F (Outcome F)}

omit [CDouble F] in
theorem unwind (o : Outcome F) : Unwinds (unwind o) (pure o) := fun _ _ => rfl

omit [CDouble F] in
theorem normal : Unwinds (pure () : VM F Unit) (pure .normal) := by
  intro x _
  have h : (Slemu.unwind .normal) x = (.ok (), { x with world := x.world.modFrame fun f => f }) :=
    rfl
  rw [World.modFrame_id] at h
  exact h.symm

omit [CDouble F] in
theorem fail (e : Stop) : Unwinds (Run.fail e : VM F Unit) (Run.fail e) := fun _ _ => rfl

omit [CDouble F] in
/-- What comes first is the same on both sides. -/
theorem after {l : VM F α} {m : α → VM F Unit} {r : α → VM F (Outcome F)} (hl : Flagless l)
    (h : ∀ a, Unwinds (m a) (r a)) : Unwinds (l >>= m) (l >>= r) := by
  intro x hx
  calc (l >>= m) x
      = (l >>= fun a => r a >>= Slemu.unwind) x :=
        Run.bind_congr_right fun a y hy => h a y (hl.going hx hy)
    _ = (l >>= r >>= Slemu.unwind) x := by rw [bind_assoc]

omit [CDouble F] in
theorem ite {c : Prop} [Decidable c] (h : Unwinds m r) (h' : Unwinds k k') :
    Unwinds (if c then m else k) (if c then r else k') := by
  split
  · exact h
  · exact h'

omit [CDouble F] in
/-- What comes after a statement looks at the flags on one side and at the outcome on the
other. -/
theorem seq {k' : Outcome F → VM F (Outcome F)} (h : Unwinds m r) (hr : Flagless r)
    (hk : ∀ o y, y.world.Going →
      (Slemu.unwind o >>= fun _ => k) y = (k' o >>= Slemu.unwind) y) :
    Unwinds (m >>= fun _ => k) (r >>= k') := by
  intro x hx
  calc (m >>= fun _ => k) x
      = (r >>= Slemu.unwind >>= fun _ => k) x := Run.bind_congr_left (h x hx) _
    _ = (r >>= fun o => Slemu.unwind o >>= fun _ => k) x := by rw [bind_assoc]
    _ = (r >>= fun o => k' o >>= Slemu.unwind) x :=
        Run.bind_congr_right fun o y hy => hk o y (hr.going hx hy)
    _ = (r >>= k' >>= Slemu.unwind) x := by rw [bind_assoc]

omit [CDouble F] in
/-- A flag is set after a statement that has left. -/
theorem unwinding {o : Outcome F} (ho : o ≠ .normal) {w : World F} (hw : w.Going) :
    ((w.modFrame o.flag).returning || (w.modFrame o.flag).jumping) = true := by
  obtain ⟨f, hf, -⟩ := hw.frame
  unfold World.returning World.jumping
  rw [World.frame_modFrame, hf]
  cases o with
  | normal => exact absurd rfl ho
  | ret v => cases v <;> rfl
  | jump idx => exact Bool.or_true _

omit [CDouble F] in
/-- What comes after a statement and does nothing once a flag is set. -/
theorem andThen (h : Unwinds m r) (hr : Flagless r) (hk : Unwinds k k')
    (hp : ∀ x : Machine F, (x.world.returning || x.world.jumping) = true → k x = (.ok (), x)) :
    Unwinds (m >>= fun _ => k) (r >>= fun o => o.andThen k') := by
  refine h.seq hr fun o y hy => ?_
  have hleft (ho : o ≠ .normal) : (Slemu.unwind o >>= fun _ => k) y = Slemu.unwind o y :=
    hp { y with world := y.world.modFrame o.flag } (unwinding ho hy)
  cases o with
  | normal =>
    have h1 : (Slemu.unwind .normal >>= fun _ => k) y =
        k { y with world := y.world.modFrame fun f => f } := rfl
    rw [h1, World.modFrame_id]
    exact hk y hy
  | ret v => exact hleft fun h => by cases h
  | jump idx => exact hleft fun h => by cases h

/-- The tests after the body of a loop. -/
theorem leaves (hk : Unwinds k k') :
    Unwinds (leavesLoop s >>= fun b => if b = true then pure () else k)
      (VM.get (fun w => w.changing s) >>= fun b => if b = true then pure .normal else k') := by
  intro x hx
  have hb : (x.world.returning || x.world.jumping || x.world.changing s) = x.world.changing s := by
    rw [hx.returning, hx.jumping]
    rfl
  have hx' : (leavesLoop s >>= fun b => if b = true then pure () else k) x =
      (if (x.world.returning || x.world.jumping || x.world.changing s) = true then pure ()
        else k : VM F Unit) x := rfl
  rw [hx', hb]
  exact ite normal hk x hx

theorem leaves_unwinding (x : Machine F) (hx : (x.world.returning || x.world.jumping) = true) :
    (leavesLoop s >>= fun b => if b = true then pure () else k) x = (.ok (), x) := by
  have hx' : (leavesLoop s >>= fun b => if b = true then pure () else k) x =
      (if (x.world.returning || x.world.jumping || x.world.changing s) = true then pure ()
        else k : VM F Unit) x := rfl
  rw [hx', hx]
  rfl

omit [CDouble F] in
/-- A step that leaves the flags alone. -/
theorem step {l : VM F Unit} (hl : Flagless l) : Unwinds l (l >>= fun _ => pure .normal) := by
  have h := after hl fun _ => normal
  rwa [show (l >>= fun _ => pure ()) = l from bind_pure_unit] at h

omit [CDouble F] in
/-- The flags are the same whether the scope is left before or after. -/
theorem inScope (h : Unwinds m r) (hr : Flagless r) :
    Unwinds (m >>= fun _ => VM.set World.frameLeave)
      (r >>= fun o => VM.set World.frameLeave >>= fun _ => pure o) := by
  refine h.seq hr fun o y hy => ?_
  have hcomm : (y.world.modFrame o.flag).frameLeave = y.world.frameLeave.modFrame o.flag := by
    unfold World.frameLeave
    rw [World.modFrame_modFrame, World.modFrame_modFrame]
    refine congrArg y.world.modFrame (funext fun f => ?_)
    cases o with
    | normal => rfl
    | ret v => cases v <;> rfl
    | jump idx => rfl
  exact congrArg (fun w => (Except.ok (), { y with world := w })) hcomm

end Unwinds

/-! ### The interpreter and the semantics -/

/-- The recursive calls agree. -/
structure Matches (r : Interp F) (R : Ref F) : Prop where
  eval : r.eval = R.eval
  flagless : R.All fun {α} (m : VM F α) => Flagless m
  exec (st : Stmt) : Unwinds (r.exec st) (R.exec st)
  block (all rest : List Stmt) : Unwinds (r.block all rest) (R.block all rest)

/-- But for calls, an expression uses no statement. -/
theorem evalNode_congr {lib : Lib F} {r r' : Interp F} {s : ℕ} (h : r.eval = r'.eval) {e : Expr}
    (hcall : e.isCall = false) : evalNode lib r s e = evalNode lib r' s e := by
  obtain ⟨ev, ex, bl⟩ := r
  obtain ⟨ev', ex', bl'⟩ := r'
  obtain rfl : ev = ev' := h
  cases e with
  | call t lv name args => cases hcall
  | _ => rfl

theorem callBuiltin_congr {lib : Lib F} {r r' : Interp F} {s : ℕ} (h : r.eval = r'.eval) :
    callBuiltin lib r s = callBuiltin lib r' s := by
  have hreset (gs : List (GlobalVar × ℕ)) : resetGlobals r s gs = resetGlobals r' s gs := by
    induction gs with
    | nil => rfl
    | cons gi gs ih =>
      obtain ⟨g, i⟩ := gi
      rw [resetGlobals, resetGlobals, ih, initGlobal, initGlobal, h]
  funext name args
  unfold callBuiltin llResetScript
  simp only [hreset]

/-! The ways through `blockNext`. -/

section
variable {r : Interp F} {s : ℕ} {all rest : List Stmt} {x : Machine F}

theorem blockNext_returning (hr : x.world.returning = true) :
    blockNext r s all rest x = (.ok (), x) := by
  rw [blockNext, VM.get_bind_apply, hr]
  rfl

theorem blockNext_changing (hc : x.world.changing s = true) :
    blockNext r s all rest x = (.ok (), x) := by
  rw [blockNext, VM.get_bind_apply]
  split
  · rfl
  · rw [VM.get_bind_apply, hc]
    rfl

theorem blockNext_going (hr : x.world.returning = false) (hc : ¬ x.world.changing s = true)
    (hj : x.world.jumping = false) : blockNext r s all rest x = r.block all rest x := by
  rw [blockNext, VM.get_bind_apply, hr, if_neg Bool.false_ne_true, VM.get_bind_apply, if_neg hc,
    VM.get_bind_apply, hj, if_neg Bool.false_ne_true]

/-- A jump to a label of the block goes on behind the label. -/
theorem blockNext_jumping {idx : Int32} (hr : x.world.returning = false)
    (hc : ¬ x.world.changing s = true) (hj : x.world.jumping = true)
    (hi : (x.world.frame.map Frame.jumpNameIdx).getD 0 = idx) :
    blockNext r s all rest x = match findLabelIn all idx with
      | some k => r.block all (all.drop (k+1))
          { x with world := x.world.modFrame fun f => { f with jumping := false } }
      | none => (.ok (), x) := by
  rw [blockNext, VM.get_bind_apply, hr, if_neg Bool.false_ne_true, VM.get_bind_apply, if_neg hc,
    VM.get_bind_apply, hj, if_pos rfl, VM.get_bind_apply, hi]
  cases findLabelIn all idx with
  | none => rfl
  | some k => rfl

end

omit [CDouble F] in
/-- At the end of a call, the flags and the outcome say the same. -/
theorem func_end {o : Outcome F} {y : Machine F} (hy : y.world.Going) (s : ℕ) (fd : FuncDecl) :
    (unwind o >>= fun _ => do
      let v ← VM.get fun w => (w.frame.map Frame.retVal).getD .void
      let returning ← VM.get World.returning
      VM.set World.framePop
      VM.mark (.returned s fd returning v)
      pure v : VM F (SValue F)) y =
    (do
      VM.set World.framePop
      VM.mark (.returned s fd o.isRet o.value)
      pure o.value : VM F (SValue F)) y := by
  obtain ⟨f, hf, hr, -, hv⟩ := hy.frame
  have hval : (((y.world.modFrame o.flag).frame.map Frame.retVal).getD .void) = o.value := by
    rw [World.frame_modFrame, hf]
    cases o with
    | normal => exact hv
    | jump idx => exact hv
    | ret v => cases v with
      | none => exact hv
      | some v => rfl
  have hret : (y.world.modFrame o.flag).returning = o.isRet := by
    unfold World.returning
    rw [World.frame_modFrame, hf]
    cases o with
    | normal => exact hr
    | jump idx => exact hr
    | ret v => cases v <;> rfl
  have hend (w : World F) (b : Bool) (v : SValue F) :
      (VM.set World.framePop >>= fun _ => VM.mark (.returned s fd b v) >>= fun _ => pure v :
        VM F (SValue F)) { y with world := w } =
      (.ok v, { y with world := w.framePop, log := (.returned s fd b v, w.framePop) :: y.log }) :=
    rfl
  calc _ = (VM.set World.framePop >>= fun _ =>
          VM.mark (.returned s fd (y.world.modFrame o.flag).returning
            (((y.world.modFrame o.flag).frame.map Frame.retVal).getD .void)) >>= fun _ =>
          pure (((y.world.modFrame o.flag).frame.map Frame.retVal).getD .void) :
          VM F (SValue F)) { y with world := y.world.modFrame o.flag } := rfl
    _ = _ := by
      rw [hval, hret, hend, World.framePop_modFrame]
      rfl

namespace Matches
variable {lib : Lib F} {r : Interp F} {R : Ref F} {s : ℕ} (h : Matches r R)
include h

theorem func (fd : FuncDecl) (args : List Expr) :
    runUserFunc r s fd args = refFunc R s fd args := by
  unfold runUserFunc refFunc
  rw [h.eval]
  refine bind_congr fun locs => ?_
  apply Run.ext
  intro x
  have hx := World.going_framePush x.world locs
  have hb := h.exec fd.body { x with world := x.world.framePush locs } hx
  have hbody := h.flagless.exec fd.body
  unfold inFrame
  rw [bind_assoc, VM.set_bind_apply, VM.set_bind_apply, bind_assoc, Run.bind_congr_left hb,
    bind_assoc]
  refine Run.bind_congr_right fun o y hy => ?_
  have hy := hbody.going (x := { x with world := x.world.framePush locs }) hx hy
  exact (func_end hy s fd).trans rfl

theorem call (name : Int32) (args : List Expr) :
    evalCall lib r s name args = refCall lib R s name args := by
  unfold evalCall refCall
  refine bind_congr fun p => ?_
  cases p.funcs.find? fun fd => decide (fd.nameIdx = name) with
  | some fd => exact h.func fd args
  | none =>
    have he : r.eval = R.evals.eval := h.eval
    dsimp only
    rw [callBuiltin_congr he, h.eval]

/-! #### Expressions -/

theorem node (e : Expr) : evalNode lib r s e = refNode lib R s e := by
  have he : r.eval = R.evals.eval := h.eval
  cases e with
  | call t lv name args => exact h.call name args
  | _ => exact evalNode_congr he rfl

/-! #### Statements -/

theorem while_ (cond : Expr) (body : Stmt) (n : ℕ) :
    Unwinds (whileLoop r s cond body n) (refWhile R s cond body n) := by
  induction n with
  | zero => exact .normal
  | succ n ih =>
    rw [whileLoop, refWhile, h.eval]
    refine .after (h.flagless.eval cond) fun c => .ite ?_ .normal
    exact (h.exec body).andThen (h.flagless.exec body) ih.leaves Unwinds.leaves_unwinding

theorem do_ (body : Stmt) (cond : Expr) (n : ℕ) :
    Unwinds (doLoop r s body cond n) (refDo R s body cond n) := by
  induction n with
  | zero => exact .normal
  | succ n ih =>
    rw [doLoop, refDo, h.eval]
    have hnext := Unwinds.after (h.flagless.eval cond) fun c =>
      .ite (c := svTruthy c = true) ih .normal
    exact (h.exec body).andThen (h.flagless.exec body) hnext.leaves Unwinds.leaves_unwinding

theorem test (cond : Expr) : forTest r cond = forTest R.evals cond := by
  unfold forTest
  rw [h.eval]
  rfl

theorem for_ (cond : Expr) (post : List Expr) (body : Stmt) (n : ℕ) :
    Unwinds (forLoop r s cond post body n) (refFor R s cond post body n) := by
  induction n with
  | zero => exact .normal
  | succ n ih =>
    rw [forLoop, refFor, h.test, h.eval]
    have htest := flagless_unflagged.forTest (r := R.evals) h.flagless.eval cond
    refine .after htest fun c => .ite ?_ .normal
    have hnext := Unwinds.after (flagless_unflagged.evalAll h.flagless.eval post) fun _ => ih
    exact (h.exec body).andThen (h.flagless.exec body) hnext.leaves Unwinds.leaves_unwinding

/-- A block that finds a label of its own takes the flag back. -/
theorem next (all rest : List Stmt) (o : Outcome F) {y : Machine F} (hy : y.world.Going) :
    blockNext r s all rest { y with world := y.world.modFrame o.flag } =
      (refNext R s all rest o >>= unwind) y := by
  obtain ⟨f, hf, hr, hj, -⟩ := hy.frame
  have hflag : (y.world.modFrame o.flag).frame = some (o.flag f) := by
    rw [World.frame_modFrame, hf, Option.map_some]
  unfold refNext
  rw [bind_assoc, VM.get_bind_apply]
  by_cases hc : y.world.changing s = true
  · -- the script changes its state: the rest of the block is left out, whatever the outcome
    rw [if_pos hc]
    exact blockNext_changing hc
  · rw [if_neg hc]
    cases o with
    | normal =>
      have hid : y.world.modFrame (Outcome.flag .normal) = y.world := World.modFrame_id _
      rw [hid]
      exact (blockNext_going hy.returning hc hy.jumping).trans (h.block all rest y hy)
    | ret v =>
      refine blockNext_returning ?_
      unfold World.returning
      rw [hflag]
      cases v <;> rfl
    | jump idx =>
      have hret : (y.world.modFrame (Outcome.flag (.jump idx))).returning = false := by
        unfold World.returning
        rw [hflag]
        exact hr
      have hjump : (y.world.modFrame (Outcome.flag (.jump idx))).jumping = true := by
        unfold World.jumping
        rw [hflag]
        rfl
      have hidx : ((y.world.modFrame (Outcome.flag (.jump idx))).frame.map
          Frame.jumpNameIdx).getD 0 = idx := by
        rw [hflag]
        rfl
      refine (blockNext_jumping
        (x := { y with world := y.world.modFrame (Outcome.flag (.jump idx)) })
        hret hc hjump hidx).trans ?_
      dsimp only
      cases findLabelIn all idx with
      | none => rfl
      | some k =>
        have hworld : (y.world.modFrame (Outcome.flag (.jump idx))).modFrame
              (fun f => { f with jumping := false }) =
            y.world.modFrame fun f => { f with jumpNameIdx := idx } := by
          rw [World.modFrame_modFrame]
          refine World.modFrame_congr hf ?_
          change ({ f with jumping := false, jumpNameIdx := idx } : Frame F) =
            { f with jumpNameIdx := idx }
          rw [← hj]
        have hgo : (y.world.modFrame fun f => { f with jumpNameIdx := idx }).Going :=
          (congrArg List.head? (y.world.exits_modFrame (f := fun f => { f with jumpNameIdx := idx })
            fun _ => rfl)).trans hy
        have hb := h.block all (all.drop (k+1))
          { y with world := y.world.modFrame fun f => { f with jumpNameIdx := idx } } hgo
        refine Eq.trans ?_ hb
        exact congrArg (fun w => r.block all (all.drop (k+1)) { y with world := w }) hworld

theorem blockFrom (all rest : List Stmt) :
    Unwinds (blockFrom r s all rest) (refBlock R s all rest) := by
  cases rest with
  | nil => exact .normal
  | cons st rest =>
    exact (h.exec st).seq (h.flagless.exec st) fun o y hy => h.next all rest o hy

/-- The `switch` of `vm_exec`. -/
theorem stmt (st : Stmt) : Unwinds (execNode r s st) (refStmt R s st) := by
  cases st with
  | null => exact .normal
  | empty => exact .normal
  | expr line e =>
    rw [execNode, refStmt, h.eval]
    exact .after (h.flagless.eval e) fun _ => .normal
  | decl line t idx init =>
    rw [execNode, refStmt, h.eval]
    exact .after (h.flagless.eval init) fun v => .step (flagless_unflagged.frame fun _ => rfl)
  | block line stmts =>
    refine .after (flagless_unflagged.frame fun _ => rfl) fun _ => ?_
    exact (h.block stmts stmts).inScope (h.flagless.block _ _)
  | if_ line cond then_ else_ =>
    rw [execNode, refStmt, h.eval]
    exact .after (h.flagless.eval cond) fun c => .ite (h.exec then_) (h.exec else_)
  | while_ line cond body => exact h.while_ cond body safety
  | do_ line body cond => exact h.do_ body cond safety
  | for_ line init cond post body =>
    rw [execNode, refStmt, h.eval]
    refine .after (flagless_unflagged.frame fun _ => rfl) fun _ => ?_
    refine .after (flagless_unflagged.evalAll h.flagless.eval init) fun _ => ?_
    exact (h.for_ cond post body safety).inScope
      (flagless_unflagged.refFor h.flagless cond post body safety)
  | ret line hasValue e =>
    have hret := Unwinds.ite (c := hasValue ≠ 0)
      (.after (h.flagless.eval e) fun v => .unwind (.ret (some v))) (.unwind (.ret none))
    intro x hx
    obtain ⟨f, hf, -⟩ := hx.frame
    refine Eq.trans ?_ (hret x hx)
    have hx' : execNode r s (.ret line hasValue e) x =
        (if (x.world.frame.isSome && decide (hasValue ≠ 0)) = true then
          r.eval e >>= fun v => unwind (.ret (some v))
        else unwind (.ret none) : VM F Unit) x := rfl
    rw [hx', hf, h.eval]
    simp only [Option.isSome_some, Bool.true_and, decide_eq_true_eq]
  | jump line idx => exact .unwind (.jump idx)
  | label => exact .normal
  | stateChg line idx =>
    refine .after (flagless_unflagged.get _) fun p => ?_
    cases p.stateNamed (p.str idx) with
    | none => exact .normal
    | some i => exact .step (flagless_unflagged.script _ fun _ => rfl)

theorem execStmt (st : Stmt) :
    Unwinds (execStmt r s st) (VM.mark (.exec s st) >>= fun _ => refStmt R s st) := by
  have hst := Unwinds.after (flagless_unflagged.mark (.exec s st)) fun _ => h.stmt (s := s) st
  intro x hx
  have hx' : Slemu.execStmt r s st x =
      (if (x.world.returning || x.world.jumping) = true then pure ()
        else VM.mark (.exec s st) >>= fun _ => execNode r s st : VM F Unit) x := rfl
  rw [hx', hx.returning, hx.jumping]
  exact hst x hx

end Matches

/-- With any fuel, the interpreter and the semantics agree. -/
theorem interp_matches (lib : Lib F) (s n : ℕ) : Matches (interp lib s n) (ref lib s n) := by
  induction n with
  | zero => exact ⟨rfl, flagless_ref lib s 0, fun _ => .fail .fuel, fun _ _ => .fail .fuel⟩
  | succ n ih =>
    have heval : (interp lib s (n+1)).eval = (ref lib s (n+1)).eval := by
      funext e
      exact congrArg (· >>= _) (ih.node e)
    exact ⟨heval, flagless_ref lib s (n+1), fun st => ih.execStmt st,
      fun all rest => ih.blockFrom all rest⟩

/-- The handling of any event, with all its calls of functions, is what the semantics without flags
says, whatever the program and the machine. -/
theorem vmDispatch_eq_refDispatch (lib : Lib F) (s fuel : ℕ) (ev : EventDecl)
    (args : List (SValue F)) : vmDispatch lib s fuel ev args = refDispatch lib s fuel ev args := by
  apply Run.ext
  intro x
  have h := interp_matches lib s fuel
  have hx := World.going_framePush x.world (bindArgs ev.params args)
  have hb := h.exec ev.body { x with world := x.world.framePush (bindArgs ev.params args) } hx
  calc vmDispatch lib s fuel ev args x
      = ((interp lib s fuel).exec ev.body >>= fun _ => VM.set World.framePop)
          { x with world := x.world.framePush (bindArgs ev.params args) } := rfl
    _ = ((ref lib s fuel).exec ev.body >>= unwind >>= fun _ => VM.set World.framePop)
          { x with world := x.world.framePush (bindArgs ev.params args) } :=
        Run.bind_congr_left hb _
    _ = ((ref lib s fuel).exec ev.body >>= fun _ => VM.set World.framePop)
          { x with world := x.world.framePush (bindArgs ev.params args) } := by
        rw [bind_assoc]
        refine Run.bind_congr_right fun o y _ => ?_
        -- the flags go with the frame
        have hpop := World.framePop_modFrame y.world o.flag
        exact congrArg (fun w => (Except.ok (), { y with world := w })) hpop
    _ = refDispatch lib s fuel ev args x := by
        unfold refDispatch inFrame
        rw [bind_assoc, bind_assoc]
        rfl

/-- Every handler and every call of a function do what a semantics without flags says, in which a
`return` leaves the function at once, and a `jump` leaves everything inside the innermost block with
its label and goes on behind it. -/
theorem flags_are_outcomes (lib : Lib F) (s fuel : ℕ) :
    (∀ ev args, vmDispatch lib s fuel ev args = refDispatch lib s fuel ev args) ∧
      ∀ fd args, runUserFunc (interp lib s fuel) s fd args = refFunc (ref lib s fuel) s fd args :=
  ⟨vmDispatch_eq_refDispatch lib s fuel, fun fd args => (interp_matches lib s fuel).func fd args⟩

end Slemu
