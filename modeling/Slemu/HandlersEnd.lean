import Slemu.CallGraph
import Slemu.Effects
import Slemu.RunFuel
import Slemu.Unwinding

/-! Handlers come to an end, unless they jump back again and again. -/

namespace Slemu
variable {F : Type} [CDouble F]

/-- The beginning of a jump of script `s` to a label that is jumped back to. -/
def Mark.isBackJump (p : Program) (s : ℕ) : Mark F → Bool
  | .exec i (.jump _ idx) => i = s && p.jumpsBack idx
  | _ => false

/-- How many of them there have been. -/
def Machine.backJumps (p : Program) (s : ℕ) (m : Machine F) : ℕ :=
  m.log.countP fun x => x.1.isBackJump p s

/-- The script has the program `p`, and there have been more than `B` jumps back. -/
def Overrun (p : Program) (s B : ℕ) (m : Machine F) : Prop :=
  (m.world.script s).prog = p ∧ B < m.backJumps p s

/-- What is left of a run: the script has the program `p`, and no jump back is undone. -/
structure Onwards (p : Program) (s : ℕ) (m m' : Machine F) : Prop where
  prog : (m'.world.script s).prog = p
  back : m.backJumps p s ≤ m'.backJumps p s

namespace Onwards
variable {p : Program} {s B : ℕ} {l m m' : Machine F}

theorem refl (h : (m.world.script s).prog = p) : Onwards p s m m := ⟨h, le_rfl⟩

theorem trans (h : Onwards p s l m) (h' : Onwards p s m m') : Onwards p s l m' :=
  ⟨h'.prog, h.back.trans h'.back⟩

theorem overrun (h : Onwards p s m m') (hm : Overrun p s B m) : Overrun p s B m' :=
  ⟨h.prog, hm.2.trans_le h.back⟩

theorem mark (h : (m.world.script s).prog = p) (k : Mark F) :
    Onwards p s m { m with log := (k, m.world) :: m.log } := by
  refine ⟨h, ?_⟩
  rw [Machine.backJumps, Machine.backJumps, List.countP_cons]
  exact Nat.le_add_right _ _

end Onwards

/-! ### Parts of a handler that come to an end -/

/-- With enough fuel, a part of a handler comes to an end, unless there are too many jumps back. -/
structure Finishes (p : Program) (s B : ℕ) {α : Type} (f : ℕ → VM F α) : Prop where
  stable (n : ℕ) : Run.Stable (Overrun p s B) (f n)
  ends (m : Machine F) : (m.world.script s).prog = p →
    Run.Ends (Overrun p s B) f (fun _ m' => Onwards p s m m') m

namespace Finishes
variable {p : Program} {s B : ℕ} {α β : Type}

/-- What takes no fuel and always ends. -/
theorem of_ok {m : VM F α} (h : ∀ x, (x.world.script s).prog = p →
    ∃ a y, m x = (.ok a, y) ∧ Onwards p s x y) : Finishes p s B fun _ => m := by
  refine ⟨fun _ x hx => ?_, fun x hx => ?_⟩
  · obtain ⟨a, y, hm, hy⟩ := h x hx.1
    rw [hm]
    exact hy.overrun hx
  · obtain ⟨a, y, hm, hy⟩ := h x hx
    exact .const hm hy

theorem bind {f : ℕ → VM F α} {g : ℕ → α → VM F β} (hf : Finishes p s B f)
    (hg : ∀ a, Finishes p s B fun n => g n a) : Finishes p s B fun n => f n >>= g n := by
  refine ⟨fun n => ?_, fun m hm => ?_⟩
  · exact Run.Keeps.bind (fun _ _ _ h h' hx => h' (h hx)) (hf.stable n) fun a => (hg a).stable n
  · refine (hf.ends m hm).bind (fun n a => (hg a).stable n) fun a t ht => ?_
    exact ((hg a).ends t ht.prog).mono fun _ _ h => ht.trans h

theorem set {f : World F → World F} (hf : ∀ w, ((f w).script s).prog = (w.script s).prog) :
    Finishes p s B fun _ => VM.set f :=
  of_ok fun x hx => ⟨(), { x with world := f x.world }, rfl, (hf x.world).trans hx, le_rfl⟩

/-- The steps of the semantics, but for the recursive calls. -/
theorem unflagged : Unflagged (F := F) (fun {α} (m : VM F α) => Finishes p s B fun _ => m) where
  pure a := of_ok fun x hx => ⟨a, x, rfl, .refl hx⟩
  fault := ⟨fun _ _ hx => hx, fun _ _ => .fault⟩
  bind hm hf := hm.bind hf
  get f := of_ok fun x hx => ⟨f x.world, x, rfl, .refl hx⟩
  mark k := of_ok fun x hx => ⟨(), _, rfl, .mark hx k⟩
  script i f hf := by
    refine set fun w => ?_
    rw [script_modScript]
    split
    · exact (hf _).trans (by rename_i h; rw [h.1])
    · rfl
  frame _ := set fun _ => rfl
  call locs m hm := by
    refine bind (set fun _ => rfl) fun _ => bind hm fun _ => bind (set fun _ => rfl) fun _ => ?_
    exact of_ok fun x hx => ⟨_, x, rfl, .refl hx⟩

theorem pure (a : α) : Finishes p s B fun _ => (pure a : VM F α) := unflagged.pure a

theorem ite {c : Prop} [Decidable c] {f g : ℕ → VM F α} (hf : Finishes p s B f)
    (hg : Finishes p s B g) : Finishes p s B fun n => if c then f n else g n := by
  split
  · exact hf
  · exact hg

/-- The program that is read is `p`. -/
theorem prog {g : ℕ → Program → VM F α} (h : Finishes p s B fun n => g n p) :
    Finishes p s B fun n => VM.get (fun w => (w.script s).prog) >>= g n := by
  refine ⟨fun n x hx => ?_, fun m hm => ?_⟩
  · rw [VM.get_bind_apply, hx.1]
    exact h.stable n x hx
  · refine Run.Ends.congr (fun n => ?_) (h.ends m hm)
    rw [VM.get_bind_apply, hm]

theorem evalAll {r : ℕ → Expr → VM F (SValue F)} {es : List Expr}
    (h : ∀ e ∈ es, Finishes p s B fun n => r n e) : Finishes p s B fun n => evalAll (r n) es := by
  induction es with
  | nil => exact pure []
  | cons e es ih =>
    refine bind (h e List.mem_cons_self) fun v => ?_
    exact bind (ih fun e' he' => h e' (List.mem_cons_of_mem e he')) fun vs => pure (v :: vs)

section
variable {r : ℕ → Interp F}

theorem evalShort (go : Bool → Bool) {l e : Expr} (hl : Finishes p s B fun n => (r n).eval l)
    (he : Finishes p s B fun n => (r n).eval e) : Finishes p s B fun n => evalShort (r n) go l e :=
  bind hl fun _ => ite (bind he fun _ => pure _) (pure _)

theorem forTest {cond : Expr} (h : Finishes p s B fun n => (r n).eval cond) :
    Finishes p s B fun n => forTest (r n) cond :=
  ite (pure true) (bind h fun _ => pure _)

/-- An expression is evaluated if those in it are, and if it is no call. -/
theorem evalNode {lib : Lib F} {e : Expr}
    (h : ∀ e' ∈ e.children, Finishes p s B fun n => (r n).eval e') (hcall : e.isCall = false) :
    Finishes p s B fun n => evalNode lib (r n) s e := by
  cases e with
  | null => exact pure _
  | intLit => exact pure _
  | floatLit => exact pure _
  | stringLit => exact bind (unflagged.get _) fun _ => unflagged.defined _
  | ident t lv idx => exact unflagged.get fun w => w.identVal s idx
  | vectorLit t lv x y z =>
    refine bind (h x (by simp [Expr.children])) fun _ => ?_
    refine bind (h y (by simp [Expr.children])) fun _ => ?_
    exact bind (h z (by simp [Expr.children])) fun _ => unflagged.defined _
  | rotLit t lv x y z w =>
    refine bind (h x (by simp [Expr.children])) fun _ => ?_
    refine bind (h y (by simp [Expr.children])) fun _ => ?_
    refine bind (h z (by simp [Expr.children])) fun _ => ?_
    exact bind (h w (by simp [Expr.children])) fun _ => unflagged.defined _
  | listLit t lv items => exact bind (evalAll h) fun _ => pure _
  | call t lv name args => cases hcall
  | member t lv base m => exact bind (h base List.mem_cons_self) fun _ => pure _
  | cast t lv target inner => exact bind (h inner List.mem_cons_self) fun _ => pure _
  | unary t lv op inner =>
    refine ite (unflagged.evalPrefix op inner) ?_
    exact bind (h inner List.mem_cons_self) fun _ => unflagged.defined _
  | postfix_ t lv op inner => exact unflagged.evalPostfix op inner
  | binary t lv op l e =>
    have hl := h l List.mem_cons_self
    have he := h e (by simp [Expr.children])
    refine ite (evalShort _ hl he) (ite (evalShort _ hl he) ?_)
    exact bind hl fun _ => bind he fun _ => unflagged.binary op _ _
  | assign t lv op l e =>
    refine bind (unflagged.get _) fun lv => bind (h e List.mem_cons_self) fun rhs => ?_
    refine ite (unflagged.assignTo _ _) (bind (unflagged.get _) fun _ => ?_)
    exact bind (unflagged.binary _ _ _) fun _ => unflagged.assignTo _ _

theorem initGlobal {i : ℕ} {g : GlobalVar} (h : Finishes p s B fun n => (r n).eval g.init) :
    Finishes p s B fun n => initGlobal (r n) s i g none :=
  ite (pure ()) (bind h fun _ => unflagged.setCell _ _)

theorem resetGlobals {gs : List (GlobalVar × ℕ)}
    (h : ∀ gi ∈ gs, Finishes p s B fun n => (r n).eval gi.1.init) :
    Finishes p s B fun n => resetGlobals (r n) s gs := by
  induction gs with
  | nil => exact pure ()
  | cons gi gs ih =>
    refine bind (initGlobal (h gi List.mem_cons_self)) fun _ => ?_
    exact ih fun gj hgj => h gj (List.mem_cons_of_mem gi hgj)

/-- A builtin comes to an end; a reset does if the initialisers of the globals do. -/
theorem callBuiltin {lib : Lib F} {name : Bytes} (args : List (SValue F))
    (h : name = lit "llResetScript" → ∀ g ∈ p.globals, Finishes p s B fun n => (r n).eval g.init) :
    Finishes p s B fun n => callBuiltin lib (r n) s name args := by
  by_cases hn : name = lit "llResetScript"
  · have hreset : Finishes p s B fun n => llResetScript (r n) s := by
      refine bind (unflagged.script s fun _ => rfl) fun _ => prog ?_
      refine bind (resetGlobals fun gi hgi => h hn gi.1 ?_) fun _ => ?_
      · exact (List.of_mem_zip (List.zipIdx_eq_zip_range' ▸ hgi)).1
      · refine bind (unflagged.script s fun _ => rfl) fun _ => ?_
        exact bind (unflagged.script s fun _ => rfl) fun _ => pure _
    simpa only [Slemu.callBuiltin, if_pos hn] using hreset
  · simp only [Slemu.callBuiltin, if_neg hn]
    cases hf : builtinsLookup lib name with
    | none => exact pure _
    | some f =>
      refine of_ok fun x hx => ⟨(f x.world s args).1, _, rfl, ?_⟩
      exact ⟨((Act.of_lookup hf x.world s args).elsewhere.prog).trans hx, le_rfl⟩

end

end Finishes

/-! ### Statements -/

/-- What a statement has done that may jump to the labels `J`: a jump to a label that is jumped back
to has been counted. -/
structure Arrived (p : Program) (s : ℕ) (J : Int32 → Prop) (m : Machine F) (o : Outcome F)
    (m' : Machine F) : Prop where
  onwards : Onwards p s m m'
  label (idx : Int32) : o = .jump idx → J idx
  count (idx : Int32) : o = .jump idx → p.jumpsBack idx → m.backJumps p s < m'.backJumps p s

theorem Onwards.arrived {p : Program} {s : ℕ} {J : Int32 → Prop} {l m m' : Machine F}
    {o : Outcome F} (h : Onwards p s l m) (h' : Arrived p s J m o m') : Arrived p s J l o m' :=
  ⟨h.trans h'.onwards, h'.label, fun idx hi hb => h.back.trans_lt (h'.count idx hi hb)⟩

theorem Arrived.mono {p : Program} {s : ℕ} {J J' : Int32 → Prop} {m m' : Machine F} {o : Outcome F}
    (h : Arrived p s J m o m') (hJ : ∀ idx, J idx → J' idx) : Arrived p s J' m o m' :=
  ⟨h.onwards, fun idx hi => hJ idx (h.label idx hi), h.count⟩

theorem Arrived.stay {p : Program} {s : ℕ} {J : Int32 → Prop} {m : Machine F} {o : Outcome F}
    (hm : (m.world.script s).prog = p) (ho : ∀ idx, o ≠ .jump idx) : Arrived p s J m o m :=
  ⟨.refl hm, fun idx hi => absurd hi (ho idx), fun idx hi => absurd hi (ho idx)⟩

/-- With enough fuel, a statement that may jump to the labels `J` comes to an end, unless there are
too many jumps back. -/
structure Arrives (p : Program) (s B : ℕ) (J : Int32 → Prop) (f : ℕ → VM F (Outcome F)) : Prop where
  stable (n : ℕ) : Run.Stable (Overrun p s B) (f n)
  ends (m : Machine F) : (m.world.script s).prog = p →
    Run.Ends (Overrun p s B) f (Arrived p s J m) m

namespace Arrives
variable {p : Program} {s B : ℕ} {J J' : Int32 → Prop} {α : Type}

theorem mono {f : ℕ → VM F (Outcome F)} (h : Arrives p s B J f) (hJ : ∀ idx, J idx → J' idx) :
    Arrives p s B J' f :=
  ⟨h.stable, fun m hm => (h.ends m hm).mono fun _ _ ho => ho.mono hJ⟩

theorem finishes {f : ℕ → VM F (Outcome F)} (h : Arrives p s B J f) : Finishes p s B f :=
  ⟨h.stable, fun m hm => (h.ends m hm).mono fun _ _ ho => ho.onwards⟩

theorem after {f : ℕ → VM F α} {g : ℕ → α → VM F (Outcome F)} (hf : Finishes p s B f)
    (hg : ∀ a, Arrives p s B J fun n => g n a) : Arrives p s B J fun n => f n >>= g n := by
  refine ⟨fun n => ?_, fun m hm => ?_⟩
  · exact Run.Keeps.bind (fun _ _ _ h h' hx => h' (h hx)) (hf.stable n) fun a => (hg a).stable n
  · refine (hf.ends m hm).bind (fun n a => (hg a).stable n) fun a t ht => ?_
    exact ((hg a).ends t ht.prog).mono fun _ _ ho => ht.arrived ho

theorem stay {o : Outcome F} (ho : ∀ idx, o ≠ .jump idx) : Arrives p s B J fun _ => pure o :=
  ⟨fun _ _ hx => hx, fun _ hm => .const rfl (.stay hm ho)⟩

theorem normal : Arrives p s B J fun _ => (pure .normal : VM F (Outcome F)) :=
  stay fun _ h => by cases h

theorem ret (v : Option (SValue F)) : Arrives p s B J fun _ => pure (.ret v) :=
  stay fun _ h => by cases h

theorem ite {c : Prop} [Decidable c] {f g : ℕ → VM F (Outcome F)} (hf : Arrives p s B J f)
    (hg : Arrives p s B J g) : Arrives p s B J fun n => if c then f n else g n := by
  split
  · exact hf
  · exact hg

theorem andThen {f k : ℕ → VM F (Outcome F)} (hf : Arrives p s B J f) (hk : Arrives p s B J k) :
    Arrives p s B J fun n => f n >>= fun o => o.andThen (k n) := by
  have hst (n : ℕ) (o : Outcome F) : Run.Stable (Overrun p s B) (o.andThen (k n)) := by
    cases o with
    | normal => exact hk.stable n
    | ret v => exact fun _ hx => hx
    | jump idx => exact fun _ hx => hx
  refine ⟨fun n => ?_, fun m hm => ?_⟩
  · exact Run.Keeps.bind (fun _ _ _ h h' hx => h' (h hx)) (hf.stable n) (hst n)
  · refine (hf.ends m hm).bind hst fun o t ht => ?_
    cases o with
    | normal =>
      exact (hk.ends t ht.onwards.prog).mono fun _ _ ho => ht.onwards.arrived ho
    | ret v => exact .const rfl ht
    | jump idx => exact .const rfl ht

theorem inScope {f : ℕ → VM F (Outcome F)} (h : Arrives p s B J f) :
    Arrives p s B J fun n => f n >>= fun o => VM.set World.frameLeave >>= fun _ => pure o := by
  refine ⟨fun n => ?_, fun m hm => ?_⟩
  · exact Run.Keeps.bind (fun _ _ _ h h' hx => h' (h hx)) (h.stable n) fun _ _ hx => hx
  · refine (h.ends m hm).bind (fun _ _ _ hx => hx) fun o t ht => ?_
    exact .const rfl ⟨⟨ht.onwards.prog, ht.onwards.back⟩, ht.label, ht.count⟩

/-- A statement that jumps is counted if its label is jumped back to. -/
theorem jump (line idx : Int32) : Arrives p s B (· = idx) fun _ =>
    (VM.mark (.exec s (.jump line idx)) >>= fun _ => pure (.jump idx) : VM F (Outcome F)) := by
  refine ⟨fun _ x hx => (Onwards.mark hx.1 _).overrun hx, fun m hm => ?_⟩
  refine .const rfl ⟨.mark hm _, fun i hi => (Outcome.jump.inj hi).symm, fun i hi hb => ?_⟩
  obtain rfl := Outcome.jump.inj hi
  have hmark : Mark.isBackJump (F := F) p s (.exec s (.jump line idx)) = true := by
    simp [Mark.isBackJump, hb]
  have hcount := List.countP_cons_of_pos (p := fun x : Mark F × World F => x.1.isBackJump p s)
    (a := (.exec s (.jump line idx), m.world)) (l := m.log) hmark
  exact (Nat.lt_succ_self _).trans_eq hcount.symm

section
variable {R : ℕ → Ref F} {cond : Expr} {body : Stmt}
  (hbody : Arrives p s B J fun n => (R n).exec body)
include hbody

theorem refWhile (hc : Finishes p s B fun n => (R n).eval cond) (k : ℕ) :
    Arrives p s B J fun n => refWhile (R n) s cond body k := by
  induction k with
  | zero => exact normal
  | succ k ih =>
    refine after hc fun c => ite (hbody.andThen ?_) normal
    exact after (Finishes.unflagged.get _) fun _ => ite normal ih

theorem refDo (hc : Finishes p s B fun n => (R n).eval cond) (k : ℕ) :
    Arrives p s B J fun n => refDo (R n) s body cond k := by
  induction k with
  | zero => exact normal
  | succ k ih =>
    refine hbody.andThen (after (Finishes.unflagged.get _) fun _ => ite normal ?_)
    exact after hc fun _ => ite ih normal

theorem refFor {post : List Expr} (hc : Finishes p s B fun n => (R n).eval cond)
    (hp : ∀ e ∈ post, Finishes p s B fun n => (R n).eval e) (k : ℕ) :
    Arrives p s B J fun n => refFor (R n) s cond post body k := by
  induction k with
  | zero => exact normal
  | succ k ih =>
    refine after (Finishes.forTest (r := fun n => (R n).evals) hc) fun c => ?_
    refine ite (hbody.andThen (after (Finishes.unflagged.get _) fun _ => ite normal ?_)) normal
    exact after (Finishes.evalAll hp) fun _ => ih

end

/-! #### Blocks -/

/-- A jump that does not go back goes forward. -/
theorem lt_of_not_loopsBack {all : List Stmt} {idx : Int32} {i k : ℕ} {st : Stmt}
    (hi : all[i]? = some st) (hj : idx ∈ st.jumps) (hk : findLabelIn all idx = some k)
    (h : loopsBack all idx = false) : i < k := by
  by_contra hle
  have hmem : st ∈ all.drop k := by
    refine List.mem_of_getElem? (i := i-k) ?_
    rw [List.getElem?_drop, Nat.add_sub_cancel' (Nat.le_of_not_lt hle), hi]
  have hany : ((all.drop k).any fun st => idx ∈ st.jumps) = true :=
    List.any_eq_true.mpr ⟨st, hmem, decide_eq_true hj⟩
  rw [loopsBack, hk] at h
  exact Bool.false_ne_true (h.symm.trans hany)

/-- What is left of a block from `i` on. -/
theorem drop_eq_cons {all rest : List Stmt} {st : Stmt} {i : ℕ} (h : all.drop i = st :: rest) :
    all[i]? = some st ∧ rest = all.drop (i+1) := by
  constructor
  · rw [← Nat.add_zero i, ← List.getElem?_drop, h]
    rfl
  · rw [← List.drop_drop, h]
    rfl

/-- The statements of a block, from any of them on. The induction goes down with the jumps back that
are left, and between two of them with the statements that are left. -/
theorem block {lib : Lib F} {all : List Stmt} (hall : ∀ idx, loopsBack all idx → p.jumpsBack idx)
    (h : ∀ st ∈ all, Arrives p s B (· ∈ st.jumps) fun n => (ref lib s n).exec st) (i : ℕ) :
    Arrives p s B (· ∈ Stmt.jumpsAll all) fun n => (ref lib s n).block all (all.drop i) := by
  have hnext {n : ℕ}
      (hblock : ∀ i, Run.Stable (Overrun p s B) ((ref lib s n).block all (all.drop i))) (i : ℕ)
      (o : Outcome F) :
      Run.Stable (Overrun p s B) (refNext (ref lib s n) s all (all.drop i) o) := by
    refine Run.Keeps.bind (fun _ _ _ h h' hx => h' (h hx)) (fun _ hx => hx) fun b => ?_
    split
    · exact fun _ hx => hx
    · cases o with
      | normal => exact hblock i
      | ret v => exact fun _ hx => hx
      | jump idx =>
        dsimp only
        cases findLabelIn all idx with
        | none => exact fun _ hx => hx
        | some k =>
          exact Run.Keeps.bind (fun _ _ _ h h' hx => h' (h hx)) (fun _ hx => hx) fun _ =>
            hblock (k+1)
  have hstable (n : ℕ) :
      ∀ i, Run.Stable (Overrun p s B) ((ref lib s n).block all (all.drop i)) := by
    induction n with
    | zero => exact fun _ _ hx => hx
    | succ n ih =>
      intro i
      change Run.Stable _ (refBlock (ref lib s n) s all (all.drop i))
      cases hd : all.drop i with
      | nil => exact fun _ hx => hx
      | cons st rest =>
        obtain ⟨hi, rfl⟩ := drop_eq_cons hd
        exact Run.Keeps.bind (fun _ _ _ h h' hx => h' (h hx))
          ((h st (List.mem_of_getElem? hi)).stable n) (hnext ih (i+1))
  have hends (μ : ℕ) : ∀ i (m : Machine F), (m.world.script s).prog = p →
      (B+1-m.backJumps p s)*(all.length+1)+(all.length-i) < μ →
      Run.Ends (Overrun p s B) (fun n => (ref lib s n).block all (all.drop i))
        (Arrived p s (· ∈ Stmt.jumpsAll all) m) m := by
    induction μ with
    | zero => exact fun i m _ hμ => absurd hμ (Nat.not_lt_zero _)
    | succ μ ih =>
      intro i m hm hμ
      by_cases hB : B < m.backJumps p s
      · exact .of_stable (fun n => hstable n i) ⟨hm, hB⟩
      · refine .succ ?_
        change Run.Ends _ (fun n => refBlock (ref lib s n) s all (all.drop i)) _ m
        cases hd : all.drop i with
        | nil => exact .const rfl (.stay hm fun _ h => by cases h)
        | cons st rest =>
          obtain ⟨hi, rfl⟩ := drop_eq_cons hd
          have hmem := List.mem_of_getElem? hi
          have hlt : i < all.length := (List.getElem?_eq_some_iff.mp hi).1
          refine ((h st hmem).ends m hm).bind (fun n o => hnext (hstable n) (i+1) o) ?_
          intro o t ht
          -- the measure where the block goes on
          have hrounds : (B+1-t.backJumps p s)*(all.length+1) ≤
              (B+1-m.backJumps p s)*(all.length+1) :=
            Nat.mul_le_mul_right _ (Nat.sub_le_sub_left ht.onwards.back _)
          have ho : Arrived p s (· ∈ Stmt.jumpsAll all) m o t :=
            ht.mono fun idx hi => Stmt.mem_jumpsAll.mpr ⟨st, hmem, hi⟩
          by_cases hc : t.world.changing s = true
          · refine Run.Ends.congr (fun n => ?_) (Run.Ends.const (m := pure o) rfl ho)
            rw [refNext_apply, if_pos hc]
          · cases o with
            | normal =>
              refine Run.Ends.congr (fun n => ?_)
                ((ih (i+1) t ht.onwards.prog (by omega)).mono fun _ _ ho => ht.onwards.arrived ho)
              rw [refNext_apply, if_neg hc]
            | ret v =>
              refine Run.Ends.congr (fun n => ?_) (Run.Ends.const (m := pure (.ret v)) rfl ho)
              rw [refNext_apply, if_neg hc]
            | jump idx =>
              cases hk : findLabelIn all idx with
              | none =>
                refine Run.Ends.congr (fun n => ?_)
                  (Run.Ends.const (m := pure (.jump idx)) rfl ho)
                rw [refNext_apply, if_neg hc]
                simp only [hk]
              | some k =>
                have hback : (B+1-t.backJumps p s)*(all.length+1)+(all.length-(k+1)) < μ := by
                  cases hloop : loopsBack all idx with
                  | false =>
                    have hik := lt_of_not_loopsBack hi (ht.label idx rfl) hk hloop
                    omega
                  | true =>
                    have hcount := ht.count idx rfl (hall idx hloop)
                    have hless := Nat.mul_le_mul_right (all.length+1)
                      (show B+1-t.backJumps p s+1 ≤ B+1-m.backJumps p s by omega)
                    rw [Nat.add_mul, Nat.one_mul] at hless
                    omega
                have hgo := ih (k+1)
                  { t with world := t.world.modFrame fun f => { f with jumpNameIdx := idx } }
                  ht.onwards.prog hback
                refine Run.Ends.congr (fun n => ?_) (hgo.mono fun _ _ ho => ht.onwards.arrived
                  ⟨⟨ho.onwards.prog, ho.onwards.back⟩, ho.label, ho.count⟩)
                rw [refNext_apply, if_neg hc]
                simp only [hk]
  exact ⟨fun n => hstable n i, fun m hm => hends _ i m hm (Nat.lt_succ_self _)⟩

end Arrives

/-! ### Calls -/

/-- Calls of a name come to an end if the arguments do. -/
def Callable (lib : Lib F) (p : Program) (s B : ℕ) (name : Int32) : Prop :=
  ∀ args : List Expr, (∀ e ∈ args, Finishes p s B fun n => (ref lib s n).eval e) →
    Finishes p s B fun n => refCall lib (ref lib s n) s name args

section
variable {lib : Lib F} {p : Program} {s B : ℕ}

theorem Finishes.eval {e : Expr} (hcall : ∀ name ∈ e.calls, Callable lib p s B name) :
    Finishes p s B fun n => (ref lib s n).eval e := by
  induction e using Expr.induct with
  | ih e ih =>
    have hsub (e' : Expr) (he' : e' ∈ e.children) : Finishes p s B fun n => (ref lib s n).eval e' :=
      ih e' he' fun name hname => hcall name (Expr.calls_child he' hname)
    have hplain (hc : e.isCall = false) :
        Finishes p s B fun n => Slemu.evalNode lib (ref lib s n).evals s e :=
      Finishes.evalNode (r := fun n => (ref lib s n).evals) hsub hc
    have hnode : Finishes p s B fun n => refNode lib (ref lib s n) s e := by
      cases e with
      | call t lv name args => exact hcall name List.mem_cons_self args hsub
      | _ => exact hplain rfl
    have hmark := hnode.bind fun v => (unflagged.mark (.value s e v)).bind fun _ => Finishes.pure v
    refine ⟨fun n => ?_, fun m hm => .succ (hmark.ends m hm)⟩
    cases n with
    | zero => exact fun _ hx => hx
    | succ n => exact hmark.stable n

/-- A statement comes to an end if the functions it calls do. -/
theorem Arrives.exec {st : Stmt} (hcall : ∀ name ∈ st.calls, Callable lib p s B name)
    (hblocks : ∀ all ∈ st.blocks, ∀ idx, loopsBack all idx → p.jumpsBack idx) :
    Arrives p s B (· ∈ st.jumps) fun n => (ref lib s n).exec st := by
  induction st using Stmt.induct with
  | ih st ih =>
    have hsub (st' : Stmt) (h' : st' ∈ st.children) :
        Arrives p s B (· ∈ st'.jumps) fun n => (ref lib s n).exec st' :=
      ih st' h' (fun name hname => hcall name (Stmt.calls_child h' hname))
        fun all hall => hblocks all (Stmt.blocks_child h' hall)
    have hchild (st' : Stmt) (h' : st' ∈ st.children) :
        Arrives p s B (· ∈ st.jumps) fun n => (ref lib s n).exec st' :=
      (hsub st' h').mono fun _ hi => Stmt.jumps_child h' hi
    have heval (e : Expr) (he : e ∈ st.exprs) : Finishes p s B fun n => (ref lib s n).eval e :=
      .eval fun name hname => hcall name (Stmt.calls_expr he hname)
    have hmark := (Finishes.unflagged (F := F) (p := p) (s := s) (B := B)).mark (.exec s st)
    have hnode : Arrives p s B (· ∈ st.jumps) fun n =>
        VM.mark (.exec s st) >>= fun _ => refStmt (ref lib s n) s st := by
      cases st with
      | null => exact .after hmark fun _ => .normal
      | empty => exact .after hmark fun _ => .normal
      | label => exact .after hmark fun _ => .normal
      | expr line e =>
        exact .after hmark fun _ => .after (heval e List.mem_cons_self) fun _ => .normal
      | decl line t idx init =>
        refine .after hmark fun _ => .after (heval init List.mem_cons_self) fun v => ?_
        exact .after (Finishes.unflagged.frame fun _ => rfl) fun _ => .normal
      | block line stmts =>
        have hb := Arrives.block (hblocks stmts List.mem_cons_self) hsub 0
        refine .after hmark fun _ => .after (Finishes.unflagged.frame fun _ => rfl) fun _ => ?_
        exact Arrives.inScope hb
      | if_ line cond then_ else_ =>
        refine .after hmark fun _ => .after (heval cond List.mem_cons_self) fun c => ?_
        exact .ite (hchild then_ (by simp [Stmt.children])) (hchild else_ (by simp [Stmt.children]))
      | while_ line cond body =>
        refine .after hmark fun _ => ?_
        exact .refWhile (hchild body List.mem_cons_self) (heval cond List.mem_cons_self) safety
      | do_ line body cond =>
        refine .after hmark fun _ => ?_
        exact .refDo (hchild body List.mem_cons_self) (heval cond List.mem_cons_self) safety
      | for_ line init cond post body =>
        have hbody := hchild body List.mem_cons_self
        have hpost (e : Expr) (he : e ∈ post) : Finishes p s B fun n => (ref lib s n).eval e :=
          heval e (by simp [Stmt.exprs, he])
        have hloop := hbody.refFor (heval cond (by simp [Stmt.exprs])) hpost safety
        refine .after hmark fun _ => .after (Finishes.unflagged.frame fun _ => rfl) fun _ => ?_
        refine .after (Finishes.evalAll fun e he => heval e (by simp [Stmt.exprs, he])) fun _ => ?_
        exact hloop.inScope
      | ret line hasValue e =>
        refine .after hmark fun _ => .ite ?_ (.ret none)
        exact .after (heval e List.mem_cons_self) fun v => .ret (some v)
      | jump line idx => exact (Arrives.jump line idx).mono fun i hi => by simp [Stmt.jumps, hi]
      | stateChg line idx =>
        refine .after hmark fun _ => .after (Finishes.unflagged.get _) fun p' => ?_
        cases p'.stateNamed (p'.str idx) with
        | none => exact .normal
        | some i => exact .after (Finishes.unflagged.script s fun _ => rfl) fun _ => .normal
    refine ⟨fun n => ?_, fun m hm => .succ (hnode.ends m hm)⟩
    cases n with
    | zero => exact fun _ hx => hx
    | succ n => exact hnode.stable n

/-- Whatever body it is of. -/
theorem Arrives.body {st : Stmt} (hst : st ∈ p.bodies)
    (hcall : ∀ name ∈ st.calls, Callable lib p s B name) :
    Arrives p s B (· ∈ st.jumps) fun n => (ref lib s n).exec st := by
  refine .exec hcall fun all hall idx hi => ?_
  exact List.any_eq_true.mpr ⟨st, hst, List.any_eq_true.mpr ⟨all, hall, hi⟩⟩

theorem Arrives.inFrame {J : Int32 → Prop} {f : ℕ → VM F (Outcome F)} (h : Arrives p s B J f)
    (locs : List (LocalBinding F)) : Finishes p s B fun n => inFrame locs (f n) := by
  refine (Finishes.set (f := fun w => w.framePush locs) fun _ => rfl).bind fun _ => ?_
  refine h.finishes.bind fun o => (Finishes.set (f := World.framePop) fun _ => rfl).bind fun _ => ?_
  exact .pure o

/-- Without cycles, all calls come to an end. -/
theorem Program.NoCycles.callable (hp : p.NoCycles) (name : Int32) : Callable lib p s B name := by
  induction name using hp.induct with
  | ih name ih =>
    intro args hargs
    refine Finishes.prog ?_
    cases hf : p.funcs.find? fun fd => decide (fd.nameIdx = name) with
    | some fd =>
      have hcalls (name' : Int32) (h : name' ∈ fd.body.calls) : p.Calls name name' := by
        unfold Program.Calls Program.callees
        rw [hf]
        exact h
      have hmem : fd.body ∈ p.bodies :=
        List.mem_append_left _ (List.mem_map_of_mem (List.mem_of_find?_eq_some hf))
      have hbody := Arrives.body hmem fun name' h => ih name' (hcalls name' h)
      have hparams : Finishes p s B fun n => bindParams (ref lib s n).eval fd.params args [] := by
        simp only [bindParams_eq]
        have htake : Finishes p s B fun n =>
            evalAll (ref lib s n).eval (args.take fd.params.length) :=
          .evalAll fun e he => hargs e (List.mem_of_mem_take he)
        exact htake.bind fun vs => .pure _
      refine hparams.bind fun locs => (hbody.inFrame locs).bind fun o => ?_
      exact (Finishes.unflagged.mark _).bind fun _ => .pure _
    | none =>
      refine (Finishes.evalAll hargs).bind fun vs => ?_
      refine (Finishes.callBuiltin vs fun hn g hg => ?_).bind fun v => ?_
      · refine .eval fun name' h => ih name' ?_
        unfold Program.Calls Program.callees
        rw [hf]
        simp only [if_pos hn]
        exact List.mem_flatMap.mpr ⟨g, hg, h⟩
      · exact (Finishes.unflagged.mark _).bind fun _ => .pure v

/-- With enough fuel, the handling of an event comes to an end, unless there are too many jumps
back. -/
theorem Program.NoCycles.refDispatch (hp : p.NoCycles) {ev : EventDecl} (hev : ev.body ∈ p.bodies)
    (args : List (SValue F)) : Finishes p s B fun n => refDispatch lib s n ev args :=
  ((Arrives.body hev fun name _ => hp.callable name).inFrame _).bind fun _ => .pure ()

end

/-- A handler that calls a function and jumps back to before the call, forever. -/
def loopEvent : EventDecl := ⟨1, 2, [], .block 2 [.label 3 10, callInts 9 [], .jump 4 10]⟩

def loopProgram : Program :=
  { strings := poolNames ++ [lit "tick", lit "again"], globals := []
    funcs := [⟨9, 1, SV.void, 0, [], .block 1 [callInts 4 [1]]⟩]
    states := [⟨0, 1, 1, [loopEvent]⟩], flags := 0 }

theorem loopProgram_noCycles : loopProgram.NoCycles := by
  have hcalls {a b : Int32} (h : loopProgram.Calls a b) : a = 9 ∧ b = 4 := by
    by_cases ha : 9 = a
    · subst ha
      exact ⟨rfl, List.mem_singleton.mp h⟩
    · -- the other names are those of builtins
      have hfind : loopProgram.funcs.find? (fun fd => decide (fd.nameIdx = a)) = none := by
        simp [loopProgram, ha]
      unfold Program.Calls Program.callees at h
      rw [hfind] at h
      have h' : b ∈ if loopProgram.str a = lit "llResetScript" then [] else ([] : List Int32) := h
      rw [ite_self] at h'
      cases h'
  intro name h
  obtain ⟨b, hfirst, -⟩ := Relation.TransGen.head'_iff.mp h
  obtain ⟨c, -, hlast⟩ := Relation.TransGen.tail'_iff.mp h
  have h9 := (hcalls hfirst).1
  rw [(hcalls hlast).2] at h9
  exact absurd h9 (by decide)

end Slemu
