import Slemu.CallIsolation
import Slemu.RunFuel
import Slemu.StepLimit

/-! Scopes and frames: expressions and statements leave the running frame with the bindings they
found, and the bindings of a frame lie in the order of their scopes. -/

namespace Slemu
variable {F : Type}

/-! ### Declarations in blocks -/

mutual
/-- A statement that is no declaration, with declarations as direct members of blocks only. -/
def Stmt.tidy : Stmt → Bool
  | .decl .. => false
  | .block _ stmts => Stmt.tidyAll stmts
  | .if_ _ _ then_ else_ => then_.tidy && else_.tidy
  | .while_ _ _ body => body.tidy
  | .do_ _ body _ => body.tidy
  | .for_ _ _ _ _ body => body.tidy
  | _ => true

/-- The members of a block: declarations and tidy statements. -/
def Stmt.tidyAll : List Stmt → Bool
  | [] => true
  | .decl .. :: sts => Stmt.tidyAll sts
  | st :: sts => st.tidy && Stmt.tidyAll sts
end

/-- The declarations of the program occur as direct members of blocks only. -/
def Program.Tidy (p : Program) : Prop :=
  (∀ fd ∈ p.funcs, fd.body.tidy) ∧ ∀ st ∈ p.states, ∀ ev ∈ st.events, ev.body.tidy

/-- A declaration statement. -/
def Stmt.isDecl : Stmt → Bool
  | .decl .. => true
  | _ => false

theorem Stmt.tidyAll_iff {sts : List Stmt} :
    Stmt.tidyAll sts ↔ ∀ st ∈ sts, st.isDecl ∨ st.tidy := by
  induction sts with
  | nil => simp [tidyAll]
  | cons st sts ih => cases st <;> simp [tidyAll, isDecl, tidy, ih]

/-! ### The order of the bindings -/

/-- The names and the depths of the bindings, from the last on. -/
def Frame.names (f : Frame F) : List (Int32 × ℤ) := f.locs.map fun b => (b.nameIdx, b.scopeDepth)

/-- From the last binding on, the depths go down, from the depth of the frame. -/
structure Frame.Ordered (f : Frame F) : Prop where
  depth : ∀ b ∈ f.locs, b.scopeDepth ≤ f.scopeDepth
  sorted : f.locs.Pairwise fun b c => c.scopeDepth ≤ b.scopeDepth

namespace Frame.Ordered

theorem new {locs : List (LocalBinding F)} (h : ∀ b ∈ locs, b.scopeDepth = 0) :
    (Frame.new locs).Ordered :=
  ⟨fun b hb => (h b hb).le, List.pairwise_of_forall_mem_list fun b hb c hc => by
    rw [h b hb, h c hc]⟩

theorem define {f : Frame F} (h : f.Ordered) (idx : Int32) (v : SValue F) (t : UInt8) :
    Frame.Ordered { f with locs := ⟨idx, v, f.scopeDepth, t⟩ :: f.locs } := by
  constructor
  · intro b hb
    rcases List.mem_cons.mp hb with rfl | hb
    · exact le_rfl
    · exact h.depth b hb
  · exact List.pairwise_cons.mpr ⟨h.depth, h.sorted⟩

theorem enter {f : Frame F} (h : f.Ordered) :
    Frame.Ordered { f with scopeDepth := f.scopeDepth+1 } :=
  ⟨fun b hb => (h.depth b hb).trans (by simp), h.sorted⟩

/-- The bindings that are left are those of the scopes that are left. -/
theorem leave {f : Frame F} (h : f.Ordered) : Frame.Ordered { f with
    scopeDepth := f.scopeDepth-1,
    locs := f.locs.dropWhile fun b => f.scopeDepth-1 < b.scopeDepth } := by
  have hs := h.sorted.sublist (List.dropWhile_sublist fun b => f.scopeDepth-1 < b.scopeDepth)
  refine ⟨fun b hb => ?_, hs⟩
  dsimp only at hb ⊢
  cases hl : f.locs.dropWhile fun b => decide (f.scopeDepth-1 < b.scopeDepth) with
  | nil =>
    rw [hl] at hb
    cases hb
  | cons c cs =>
    have hc : c.scopeDepth ≤ f.scopeDepth-1 := by
      have hhead := List.head_dropWhile_not (fun b : LocalBinding F =>
        decide (f.scopeDepth-1 < b.scopeDepth)) (by rw [hl]; exact List.cons_ne_nil c cs)
      simp only [hl, List.head_cons, decide_eq_false_iff_not, not_lt] at hhead
      exact hhead
    rw [hl] at hb hs
    rcases List.mem_cons.mp hb with rfl | hb
    · exact hc
    · exact ((List.pairwise_cons.mp hs).1 b hb).trans hc

/-- The order is a matter of the names and depths; bindings of the current scope may be added. -/
theorem of_names {f g : Frame F} (h : f.Ordered) {ns : List (Int32 × ℤ)}
    (hns : ∀ x ∈ ns, x.2 = f.scopeDepth) (hn : g.names = ns ++ f.names)
    (hd : g.scopeDepth = f.scopeDepth) : g.Ordered := by
  have hdepths : g.locs.map LocalBinding.scopeDepth =
      ns.map Prod.snd ++ f.locs.map LocalBinding.scopeDepth := by
    have h := congrArg (List.map Prod.snd) hn
    rw [Frame.names, Frame.names, List.map_append, List.map_map, List.map_map] at h
    exact h
  have hmem (z : ℤ) (hz : z ∈ ns.map Prod.snd ++ f.locs.map LocalBinding.scopeDepth) :
      z ≤ f.scopeDepth := by
    rcases List.mem_append.mp hz with hz | hz
    · obtain ⟨x, hx, rfl⟩ := List.mem_map.mp hz
      exact (hns x hx).le
    · obtain ⟨c, hc, rfl⟩ := List.mem_map.mp hz
      exact h.depth c hc
  constructor
  · intro b hb
    rw [hd]
    exact hmem _ (hdepths ▸ List.mem_map_of_mem hb)
  · have hold : (f.locs.map LocalBinding.scopeDepth).Pairwise fun a b => b ≤ a :=
      List.pairwise_map.mpr h.sorted
    have hnew : (ns.map Prod.snd).Pairwise fun a b => b ≤ a := by
      refine List.pairwise_map.mpr (List.pairwise_of_forall_mem_list fun x hx y hy => ?_)
      rw [hns x hx, hns y hy]
    have hall : (ns.map Prod.snd ++ f.locs.map LocalBinding.scopeDepth).Pairwise
        fun a b => b ≤ a := by
      refine List.pairwise_append.mpr ⟨hnew, hold, fun a ha b hb => ?_⟩
      obtain ⟨x, hx, rfl⟩ := List.mem_map.mp ha
      rw [hns x hx]
      exact hmem b (List.mem_append_right _ hb)
    rw [← hdepths] at hall
    exact List.pairwise_map.mp hall

theorem of_sameNames {f g : Frame F} (h : f.Ordered) (hn : g.names = f.names)
    (hd : g.scopeDepth = f.scopeDepth) : g.Ordered := by
  have hnone : ∀ x ∈ ([] : List (Int32 × ℤ)), x.2 = f.scopeDepth := by
    intro x hx
    cases hx
  exact h.of_names hnone hn hd

end Frame.Ordered

/-! ### What a statement does to the running frame -/

/-- The running frame, if any, is ordered. -/
def World.Neat (w : World F) : Prop := ∀ f, w.frame = some f → f.Ordered

/-- The frames below are the same, and the running frame has the depth and the bindings it had; if
`more`, it may have got bindings of its current scope on top. -/
structure Leaves (more : Bool) (w w' : World F) : Prop where
  below : w'.frames.tail = w.frames.tail
  depth : w'.frame.map Frame.scopeDepth = w.frame.map Frame.scopeDepth
  names : ∃ ns : List (Int32 × ℤ), (more = false → ns = []) ∧
    (∀ f, w.frame = some f → ∀ x ∈ ns, x.2 = f.scopeDepth) ∧
    w'.frame.map Frame.names = w.frame.map fun f => ns ++ f.names

namespace Leaves
variable {more : Bool} {u v w : World F}

theorem noBindings (w : World F) :
    ∀ f, w.frame = some f → ∀ x ∈ ([] : List (Int32 × ℤ)), x.2 = f.scopeDepth := by
  intro f hf x hx
  cases hx

theorem of_frames (h : w.frames = v.frames) : Leaves more v w := by
  refine ⟨by rw [h], by rw [World.frame, World.frame, h], [], fun _ => rfl, noBindings v, ?_⟩
  rw [World.frame, World.frame, h]
  rfl

theorem refl (w : World F) : Leaves more w w := of_frames rfl

/-- A frame after it, and the same frame before. -/
theorem frame_before (h : Leaves more v w) {g : Frame F} (hg : w.frame = some g) :
    ∃ f, v.frame = some f ∧ g.scopeDepth = f.scopeDepth := by
  have hd := h.depth
  rw [hg] at hd
  cases hf : v.frame with
  | none =>
    rw [hf] at hd
    cases hd
  | some f =>
    rw [hf] at hd
    exact ⟨f, rfl, Option.some.inj hd⟩

theorem neat (h : Leaves more v w) (hv : v.Neat) : w.Neat := by
  intro g hg
  obtain ⟨f, hf, hd⟩ := h.frame_before hg
  obtain ⟨ns, -, hns, hn⟩ := h.names
  rw [hg, hf] at hn
  exact (hv f hf).of_names (hns f hf) (Option.some.inj hn) hd

theorem trans (h : Leaves more u v) (h' : Leaves more v w) : Leaves more u w := by
  obtain ⟨ns, hmore, hns, hn⟩ := h.names
  obtain ⟨ns', hmore', hns', hn'⟩ := h'.names
  refine ⟨h'.below.trans h.below, h'.depth.trans h.depth, ns' ++ ns, fun hm => ?_, ?_, ?_⟩
  · rw [hmore hm, hmore' hm]
    rfl
  · intro f hf x hx
    rcases List.mem_append.mp hx with hx | hx
    · have hd := h.depth
      rw [hf] at hd
      obtain ⟨g, hg, hgd⟩ := Option.map_eq_some_iff.mp hd
      rw [← hgd]
      exact hns' g hg x hx
    · exact hns f hf x hx
  · cases hf : u.frame with
    | none =>
      rw [hf] at hn
      have hv : v.frame = none := by simpa using hn
      rw [hv] at hn'
      exact hn'
    | some f =>
      rw [hf] at hn
      obtain ⟨g, hg, hgn⟩ := Option.map_eq_some_iff.mp hn
      rw [hg] at hn'
      rw [hn', Option.map_some, Option.map_some, hgn, List.append_assoc]

theorem mono (h : Leaves false u v) : Leaves more u v := by
  obtain ⟨ns, hmore, hns, hn⟩ := h.names
  obtain rfl := hmore rfl
  exact ⟨h.below, h.depth, [], fun _ => rfl, noBindings u, hn⟩

/-- A change of the running frame. -/
theorem modFrame {f : Frame F → Frame F} (hd : ∀ fr, (f fr).scopeDepth = fr.scopeDepth)
    (hn : ∀ fr, (f fr).names = fr.names) (w : World F) : Leaves more w (w.modFrame f) := by
  cases hfr : w.frames with
  | nil => exact of_frames (by simp only [World.modFrame, hfr, List.modifyHead_nil])
  | cons fr frs =>
    have hw : w.frame = some fr := by rw [World.frame, hfr]; rfl
    have hw' : (w.modFrame f).frame = some (f fr) := by
      rw [World.frame, World.modFrame, hfr]
      rfl
    refine ⟨?_, ?_, [], fun _ => rfl, noBindings w, ?_⟩
    · simp only [World.modFrame, hfr, List.modifyHead_cons, List.tail_cons]
    · rw [hw, hw', Option.map_some, Option.map_some, hd]
    · rw [hw, hw', Option.map_some, Option.map_some, hn]
      rfl

theorem frameDefine (w : World F) (idx : Int32) (v : SValue F) (t : UInt8) :
    Leaves true w (w.frameDefine idx v t) := by
  cases hfr : w.frames with
  | nil => exact of_frames (by simp only [World.frameDefine, World.modFrame, hfr, List.modifyHead_nil])
  | cons fr frs =>
    have hw : w.frame = some fr := by rw [World.frame, hfr]; rfl
    have hw' : (w.frameDefine idx v t).frame =
        some { fr with locs := ⟨idx, v, fr.scopeDepth, t⟩ :: fr.locs } := by
      rw [World.frame, World.frameDefine, World.modFrame, hfr]
      rfl
    refine ⟨?_, ?_, [(idx, fr.scopeDepth)], fun h => Bool.noConfusion h, ?_, ?_⟩
    · simp only [World.frameDefine, World.modFrame, hfr, List.modifyHead_cons, List.tail_cons]
    · rw [hw, hw']
      rfl
    · intro f hf x hx
      obtain rfl := Option.some.inj (hw.symm.trans hf)
      rw [List.mem_singleton.mp hx]
    · rw [hw, hw']
      rfl

/-- What happens in a scope of its own leaves nothing behind. -/
theorem inScope (hu : u.Neat) (h : Leaves true u.frameEnter v) : Leaves false u v.frameLeave := by
  cases hfr : u.frames with
  | nil =>
    have henter : u.frameEnter.frame = none := by
      simp only [World.frame, World.frameEnter, World.modFrame, hfr, List.modifyHead_nil,
        List.head?_nil]
    have hv : v.frame = none := by simpa [henter] using h.depth
    have hvs : v.frames = [] := List.head?_eq_none_iff.mp hv
    exact of_frames (by simp only [World.frameLeave, World.modFrame, hvs, hfr, List.modifyHead_nil])
  | cons f fs =>
    have hf : u.frame = some f := by rw [World.frame, hfr]; rfl
    have henter : u.frameEnter.frame = some { f with scopeDepth := f.scopeDepth+1 } := by
      rw [World.frame, World.frameEnter, World.modFrame, hfr]
      rfl
    obtain ⟨ns, -, hns, hn⟩ := h.names
    have hd := h.depth
    rw [henter] at hd hn
    have hdepth := hns _ henter
    cases hvs : v.frames with
    | nil =>
      rw [World.frame, hvs] at hd
      cases hd
    | cons g gs =>
      have hg : v.frame = some g := by rw [World.frame, hvs]; rfl
      rw [hg] at hd hn
      have hgd : g.scopeDepth = f.scopeDepth+1 := Option.some.inj hd
      have hgn : g.names = ns ++ f.names := Option.some.inj hn
      have hleave : v.frameLeave.frame = some { g with
          scopeDepth := g.scopeDepth-1,
          locs := g.locs.dropWhile fun b => g.scopeDepth-1 < b.scopeDepth } := by
        rw [World.frame, World.frameLeave, World.modFrame, hvs]
        rfl
      -- the new bindings are deeper than the scope that is left, the old ones are not
      have hdrop : (ns ++ f.names).dropWhile (fun x => decide (f.scopeDepth < x.2)) = f.names := by
        rw [List.dropWhile_append_of_pos fun x hx => by
          rw [hdepth x hx]
          exact decide_eq_true (lt_add_one f.scopeDepth)]
        cases hnames : f.locs with
        | nil => rw [Frame.names, hnames]; rfl
        | cons b bs =>
          have hb := (hu f hf).depth b (by rw [hnames]; exact List.mem_cons_self)
          rw [Frame.names, hnames, List.map_cons]
          exact List.dropWhile_cons_of_neg (by simpa using hb)
      refine ⟨?_, ?_, [], fun _ => rfl, noBindings u, ?_⟩
      · have hb := h.below
        rw [hvs, World.frameEnter, World.modFrame, hfr] at hb
        simp only [World.frameLeave, World.modFrame, hvs, hfr, List.modifyHead_cons,
          List.tail_cons] at hb ⊢
        exact hb
      · rw [hleave, hf, Option.map_some, Option.map_some]
        exact congrArg some (by simp only [hgd, add_sub_cancel_right])
      · rw [hleave, hf, Option.map_some, Option.map_some]
        refine congrArg some ?_
        calc Frame.names { g with
                scopeDepth := g.scopeDepth-1,
                locs := g.locs.dropWhile fun b => g.scopeDepth-1 < b.scopeDepth }
            = g.names.dropWhile (fun x => decide (f.scopeDepth < x.2)) := by
              simp only [Frame.names, List.dropWhile_map, hgd, add_sub_cancel_right]
              rfl
          _ = [] ++ f.names := by rw [hgn, hdrop, List.nil_append]

end Leaves

variable [CDouble F]

/-- Parameters are bound at depth 0. -/
theorem bindArgs_depth (ps : List Param) (vs : List (SValue F)) :
    ∀ b ∈ bindArgs ps vs, b.scopeDepth = 0 := by
  intro b hb
  obtain ⟨q, -, rfl⟩ := List.mem_map.mp (List.mem_reverse.mp hb)
  rfl

/-- Whenever the program comes to its end on a script with the program `p`, with an ordered frame,
the frames are as they were. -/
def Balances (p : Program) (s : ℕ) (more : Bool) {α : Type} (m : VM F α) : Prop :=
  ∀ a x b, (a.world.script s).prog = p → a.world.Neat → m a = (.ok x, b) →
    (b.world.script s).prog = p ∧ Leaves more a.world b.world

namespace Balances
variable {p : Program} {s : ℕ} {more : Bool} {α β : Type}

theorem pure (x : α) : Balances p s more (pure x : VM F α) := by
  intro a y b hp hn h
  cases h
  exact ⟨hp, .refl a.world⟩

theorem fail (e : Stop) : Balances p s more (Run.fail e : VM F α) := by
  intro a x b hp hn h
  cases h

theorem bind {m : VM F α} {f : α → VM F β} (hm : Balances p s more m)
    (hf : ∀ x, Balances p s more (f x)) : Balances p s more (m >>= f) := by
  intro a y c hp hn h
  obtain ⟨x, b, h1, h2⟩ := Run.of_bind_ok h
  obtain ⟨hpb, hab⟩ := hm a x b hp hn h1
  obtain ⟨hpc, hbc⟩ := hf x b y c hpb (hab.neat hn) h2
  exact ⟨hpc, hab.trans hbc⟩

theorem mono {m : VM F α} (hm : Balances p s false m) : Balances p s more m := by
  intro a x b hp hn h
  obtain ⟨hpb, hab⟩ := hm a x b hp hn h
  exact ⟨hpb, hab.mono⟩

theorem get (f : World F → α) : Balances p s more (VM.get f) := by
  intro a x b hp hn h
  cases h
  exact ⟨hp, .refl a.world⟩

theorem mark (k : Mark F) : Balances p s more (VM.mark k) := by
  intro a x b hp hn h
  cases h
  exact ⟨hp, .refl a.world⟩

theorem set {f : World F → World F} (hp : ∀ w, ((f w).script s).prog = (w.script s).prog)
    (hf : ∀ w, Leaves more w (f w)) : Balances p s more (VM.set f) := by
  intro a x b ha hn h
  cases h
  exact ⟨(hp a.world).trans ha, hf a.world⟩

theorem modScript {f : Script F → Script F} (hf : ∀ t, (f t).prog = t.prog) :
    Balances p s more (VM.set fun w : World F => w.modScript s f) := by
  refine set (fun w => ?_) fun w => .of_frames rfl
  rw [script_modScript]
  split
  · exact hf _
  · rfl

theorem steps : Steps s (fun {α} (m _ : VM F α) => Balances p s more m) where
  pure := pure
  fail := fail
  bind := bind
  get _ := get _
  mark k _ := mark k
  setCell c v := by
    cases c with
    | glob i => exact modScript fun _ => rfl
    | loc k =>
      refine set (fun _ => rfl) (Leaves.modFrame (fun _ => rfl) fun fr => ?_)
      rw [Frame.names, Frame.names]
      refine map_modify_same ?_ k fr.locs
      exact fun _ => rfl
  flags hf := by
    refine set (fun _ => rfl) (Leaves.modFrame (fun fr => ?_) fun fr => ?_)
    · exact congrArg Prod.snd (hf fr)
    · exact congrArg (fun sc => sc.1.map fun b => (b.nameIdx, b.scopeDepth)) (hf fr)

theorem ite {c : Prop} [Decidable c] {m m' : VM F α} (h : Balances p s more m)
    (h' : Balances p s more m') : Balances p s more (if c then m else m') := by
  split
  · exact h
  · exact h'

theorem evalAll {f : Expr → VM F (SValue F)} (hf : ∀ e, Balances p s more (f e))
    (es : List Expr) : Balances p s more (evalAll f es) := steps.evalAll (g := f) hf es

/-- What is done in a scope of its own. -/
theorem inScope {m : VM F Unit} (hm : Balances p s true m) : Balances p s false
    (VM.set World.frameEnter >>= fun _ => m >>= fun _ => VM.set World.frameLeave) := by
  intro a x d hp hn h
  obtain ⟨u, c, h1, h2⟩ := Run.of_bind_ok (VM.of_set_bind h)
  have hne : a.world.frameEnter.Neat := by
    intro g hg
    cases hfr : a.world.frames with
    | nil =>
      rw [World.frame, World.frameEnter, World.modFrame, hfr] at hg
      cases hg
    | cons f fs =>
      rw [World.frame, World.frameEnter, World.modFrame, hfr] at hg
      cases hg
      exact (hn f (by rw [World.frame, hfr]; rfl)).enter
  obtain ⟨hpc, hac⟩ := hm { a with world := a.world.frameEnter } u c hp hne h1
  cases h2
  exact ⟨hpc, .inScope hn hac⟩

/-- A call: the function runs in a frame of its own. -/
theorem callFunc {r : Interp F} {fd : FuncDecl} (hb : Balances p s false (r.exec fd.body))
    {locs : List (LocalBinding F)} (hl : ∀ b ∈ locs, b.scopeDepth = 0) :
    Balances p s false (callFunc r s fd locs) := by
  intro a x d hp hn h
  obtain ⟨u, c, h1, h2⟩ := Run.of_bind_ok (VM.of_set_bind h)
  have hne : (a.world.framePush locs).Neat := by
    intro g hg
    cases hg
    exact .new hl
  obtain ⟨hpc, hac⟩ := hb { a with world := a.world.framePush locs } u c hp hne h1
  cases h2
  exact ⟨hpc, .of_frames hac.below⟩

theorem call {f : World F → α × World F}
    (hp : ∀ w, ((f w).2.script s).prog = (w.script s).prog)
    (hf : ∀ w, (f w).2.frames = w.frames) : Balances p s more (VM.call f) := by
  intro a x b ha hn h
  cases h
  exact ⟨(hp a.world).trans ha, .of_frames (hf a.world)⟩

theorem callBuiltin {lib : Lib F} {r : Interp F}
    (hr : r.Evals (fun {α} (m _ : VM F α) => Balances p s more m) r) (name : Bytes)
    (args : List (SValue F)) : Balances p s more (callBuiltin lib r s name args) := by
  refine steps.callBuiltin hr (modScript fun _ => rfl) (fun st => modScript fun _ => rfl)
    (modScript fun _ => rfl) (fun name f args hf => ?_) name args
  refine call (fun w => (Act.of_lookup hf w s args).elsewhere.prog) fun w => ?_
  exact congrArg Control.frames (control_of_lookup hf w s args)

/-- A call by name, where the bodies of the functions keep the balance. -/
theorem evalCall {lib : Lib F} {r : Interp F}
    (hr : r.Evals (fun {α} (m _ : VM F α) => Balances p s false m) r)
    (hb : ∀ fd ∈ p.funcs, Balances p s false (r.exec fd.body)) (name : Int32) (args : List Expr) :
    Balances p s false (evalCall lib r s name args) := by
  intro a x b hp hn h
  have h := VM.of_get_bind h
  rw [hp] at h
  cases hfd : p.funcs.find? fun fd => fd.nameIdx = name with
  | some fd =>
    rw [hfd] at h
    have hcall : Balances p s false (runUserFunc r s fd args) := by
      rw [runUserFunc_eq]
      exact bind (evalAll hr.eval _) fun vs =>
        callFunc (hb fd (List.mem_of_find?_eq_some hfd)) (bindArgs_depth fd.params vs)
    exact hcall a x b hp hn h
  | none =>
    rw [hfd] at h
    have hcall : Balances p s false (Slemu.evalAll r.eval args >>= fun vs => do
        let v ← Slemu.callBuiltin lib r s (p.str name) vs
        VM.mark (.builtin s (p.str name) v)
        Pure.pure v) :=
      bind (evalAll hr.eval args) fun vs => bind (callBuiltin hr _ vs) fun v =>
        bind (mark _) fun _ => pure v
    exact hcall a x b hp hn h

end Balances

/-- Recursive calls that keep the balance. -/
structure Interp.Balanced (p : Program) (s : ℕ) (r : Interp F) : Prop where
  eval (e : Expr) : Balances p s false (r.eval e)
  exec (st : Stmt) : st.tidy → Balances p s false (r.exec st)
  decl (st : Stmt) : st.isDecl → Balances p s true (r.exec st)
  block (all rest : List Stmt) : Stmt.tidyAll all → Stmt.tidyAll rest →
    Balances p s true (r.block all rest)

namespace Interp.Balanced
variable {p : Program} {s : ℕ} {r : Interp F}

theorem evals (h : r.Balanced p s) : r.Evals (fun {α} (m _ : VM F α) => Balances p s false m) r :=
  ⟨h.eval⟩

theorem execNode (h : r.Balanced p s) {st : Stmt} (hst : st.tidy) :
    Balances p s false (execNode r s st) := by
  have hs : Steps s (fun {α} (m _ : VM F α) => Balances p s false m) := Balances.steps
  cases st with
  | null => exact .pure ()
  | empty => exact .pure ()
  | label => exact .pure ()
  | expr line e => exact .bind (h.eval e) fun _ => .pure ()
  | decl => cases hst
  | block line stmts => exact .inScope (h.block stmts stmts hst hst)
  | if_ line cond then_ else_ =>
    simp only [Stmt.tidy, Bool.and_eq_true] at hst
    exact .bind (h.eval cond) fun _ => .ite (h.exec then_ hst.1) (h.exec else_ hst.2)
  | while_ line cond body => exact hs.whileLoop h.evals (h.exec body hst) cond safety
  | do_ line body cond => exact hs.doLoop h.evals (h.exec body hst) cond safety
  | for_ line init cond post body =>
    have hloop : Balances p s true (evalAll r.eval init >>= fun _ =>
        forLoop r s cond post body safety) :=
      .mono (.bind (.evalAll h.eval init) fun _ =>
        hs.forLoop h.evals (h.exec body hst) cond post safety)
    have hin := Balances.inScope hloop
    rwa [bind_assoc] at hin
  | ret line hasValue e =>
    exact .bind (.get _) fun _ =>
      .ite (.bind (h.eval e) fun _ => hs.flags fun _ => rfl) (hs.flags fun _ => rfl)
  | jump line idx => exact hs.flags fun _ => rfl
  | stateChg line idx => exact hs.stateChg r r line idx fun i => .modScript fun _ => rfl

theorem execStmt (h : r.Balanced p s) {st : Stmt} (hst : st.tidy) :
    Balances p s false (execStmt r s st) :=
  .bind (.get _) fun _ => .ite (.pure ()) (.bind (.mark _) fun _ => h.execNode hst)

theorem execDecl (h : r.Balanced p s) {st : Stmt} (hst : st.isDecl) :
    Balances p s true (Slemu.execStmt r s st) := by
  cases st with
  | decl line t idx init =>
    refine .bind (.get _) fun _ => .ite (.pure ()) (.bind (.mark _) fun _ => ?_)
    refine .bind (h.eval init).mono fun v => .set (fun _ => rfl) fun w => ?_
    exact .frameDefine w idx (declVal t v) t
  | _ => cases hst

theorem blockFrom (h : r.Balanced p s) {all rest : List Stmt} (hall : Stmt.tidyAll all)
    (hrest : Stmt.tidyAll rest) : Balances p s true (blockFrom r s all rest) := by
  have hs : Steps s (fun {α} (m _ : VM F α) => Balances p s true m) := Balances.steps
  cases rest with
  | nil => exact .pure ()
  | cons st rest =>
    have hmem := Stmt.tidyAll_iff.mp hrest
    have hst : Balances p s true (r.exec st) := by
      rcases hmem st List.mem_cons_self with hd | ht
      · exact h.decl st hd
      · exact (h.exec st ht).mono
    have htail : Stmt.tidyAll rest :=
      Stmt.tidyAll_iff.mpr fun x hx => hmem x (List.mem_cons_of_mem st hx)
    refine .bind hst fun _ => .bind (.get _) fun _ => .ite (.pure ()) ?_
    refine .bind (.get _) fun _ => .ite (.pure ()) (.bind (.get _) fun _ => .ite ?_ ?_)
    · refine .bind (.get _) fun idx => ?_
      -- a jump goes on behind a label of the block, with members of the same block
      cases findLabelIn all idx with
      | none => exact .pure ()
      | some k =>
        refine .bind (hs.flags fun _ => rfl) fun _ => h.block all _ hall ?_
        exact Stmt.tidyAll_iff.mpr fun x hx =>
          Stmt.tidyAll_iff.mp hall x (List.mem_of_mem_drop hx)
    · exact h.block all rest hall htail

end Interp.Balanced

theorem interp_balanced (lib : Lib F) {p : Program} (hp : p.Tidy) (s n : ℕ) :
    (interp lib s n).Balanced p s := by
  induction n with
  | zero =>
    exact ⟨fun _ => .fail .fuel, fun _ _ => .fail .fuel, fun _ _ => .fail .fuel,
      fun _ _ _ _ => .fail .fuel⟩
  | succ n ih =>
    refine ⟨fun e => ?_, fun st hst => ih.execStmt hst, fun st hst => ih.execDecl hst,
      fun all rest hall hrest => ih.blockFrom hall hrest⟩
    refine .bind (Balances.steps.evalNode ih.evals ?_ e) fun v => .bind (.mark _) fun _ => .pure v
    exact Balances.evalCall ih.evals fun fd hfd => ih.exec fd.body (hp.1 fd hfd)

/-! ### The order at every moment -/

/-- The frames are ordered, now and at every mark made so far. -/
structure Machine.InOrder (m : Machine F) : Prop where
  now : ∀ f ∈ m.world.frames, f.Ordered
  marks : ∀ x ∈ m.log, ∀ f ∈ x.2.frames, f.Ordered

/-- Whatever the program does, the frames stay ordered. -/
abbrev StaysInOrder {α : Type} (m : VM F α) : Prop := Run.Stable Machine.InOrder m

namespace StaysInOrder
variable {α β : Type}

omit [CDouble F]

theorem pure (a : α) : StaysInOrder (pure a : VM F α) := fun _ h => h

theorem fail (e : Stop) : StaysInOrder (Run.fail e : VM F α) := fun _ h => h

theorem bind {m : VM F α} {f : α → VM F β} (hm : StaysInOrder m) (hf : ∀ a, StaysInOrder (f a)) :
    StaysInOrder (m >>= f) := Run.Keeps.bind (fun _ _ _ h h' hx => h' (h hx)) hm hf

theorem get (f : World F → α) : StaysInOrder (VM.get f) := fun _ h => h

theorem read (f : Machine F → α) : StaysInOrder (Run.read f) := fun _ h => h

theorem mark (k : Mark F) : StaysInOrder (VM.mark k) := by
  intro m h
  refine ⟨h.now, fun x hx => ?_⟩
  rcases List.mem_cons.mp hx with rfl | hx
  · exact h.now
  · exact h.marks x hx

theorem set {f : World F → World F}
    (hf : ∀ w, (∀ fr ∈ w.frames, fr.Ordered) → ∀ fr ∈ (f w).frames, fr.Ordered) :
    StaysInOrder (VM.set f) := fun m h => ⟨hf m.world h.now, h.marks⟩

theorem keep {f : World F → World F} (hf : ∀ w, (f w).frames = w.frames) :
    StaysInOrder (VM.set f) := set fun w h => by rwa [hf]

theorem call {f : World F → α × World F} (hf : ∀ w, (f w).2.frames = w.frames) :
    StaysInOrder (VM.call f) := by
  intro m h
  refine ⟨fun fr hfr => h.now fr ?_, h.marks⟩
  have hw : (f m.world).2.frames = m.world.frames := hf m.world
  exact hw ▸ hfr

theorem modFrame {f : Frame F → Frame F} (hf : ∀ fr, fr.Ordered → (f fr).Ordered) :
    StaysInOrder (VM.set fun w => w.modFrame f) := by
  refine set fun w h fr hfr => ?_
  cases hw : w.frames with
  | nil =>
    simp only [World.modFrame, hw, List.modifyHead_nil] at hfr
    cases hfr
  | cons g gs =>
    rw [hw] at h
    simp only [World.modFrame, hw, List.modifyHead_cons] at hfr
    rcases List.mem_cons.mp hfr with rfl | hfr
    · exact hf g (h g List.mem_cons_self)
    · exact h fr (List.mem_cons_of_mem g hfr)

theorem ite {c : Prop} [Decidable c] {m m' : VM F α} (h : StaysInOrder m) (h' : StaysInOrder m') :
    StaysInOrder (if c then m else m') := by
  split
  · exact h
  · exact h'

/-- A frame is pushed for what follows, and popped after it. -/
theorem inFrame {m : VM F α} (hm : StaysInOrder m) {locs : List (LocalBinding F)}
    (hl : ∀ b ∈ locs, b.scopeDepth = 0) {f : α → VM F β} (hf : ∀ a, StaysInOrder (f a)) :
    StaysInOrder (VM.set (fun w => w.framePush locs) >>= fun _ => m >>= f) := by
  refine bind (set fun w h fr hfr => ?_) fun _ => bind hm hf
  rcases List.mem_cons.mp hfr with rfl | hfr
  · exact .new hl
  · exact h fr hfr

theorem framePop : StaysInOrder (VM.set (World.framePop : World F → World F)) :=
  set fun _ h fr hfr => h fr (List.mem_of_mem_tail hfr)

variable [CDouble F] {lib : Lib F} {s : ℕ}

theorem closed (s : ℕ) : Closed s (fun {α} (m _ : VM F α) => StaysInOrder m) where
  pure := pure
  fail := fail
  bind := bind
  get _ := get _
  mark k _ := mark k
  setCell c v := by
    cases c with
    | glob i => exact keep fun _ => rfl
    | loc k =>
      refine modFrame fun fr h => h.of_sameNames ?_ rfl
      rw [Frame.names, Frame.names]
      refine map_modify_same ?_ k fr.locs
      exact fun _ => rfl
  flags {f} hf := by
    refine modFrame fun fr h => h.of_sameNames ?_ (congrArg Prod.snd (hf fr))
    exact congrArg (fun sc => sc.1.map fun b => (b.nameIdx, b.scopeDepth)) (hf fr)
  define idx v t := modFrame fun _ h => h.define idx v t
  enter := modFrame fun _ h => h.enter
  leave := modFrame fun _ h => h.leave

theorem handles (lib : Lib F) (s : ℕ) :
    Handles lib s (fun {α} (m _ : VM F α) => StaysInOrder m) where
  toClosed := closed s
  func {r r'} hr fd args := by
    rw [runUserFunc_eq]
    have hargs : StaysInOrder (evalAll r.eval (args.take fd.params.length)) :=
      (closed s).evalAll (g := r.eval) hr.eval _
    refine bind hargs fun vs => ?_
    refine inFrame (hr.exec fd.body) (bindArgs_depth fd.params vs) fun _ => ?_
    exact bind (get _) fun _ => bind (get _) fun _ => bind framePop fun _ => bind (mark _) fun _ =>
      pure _
  builtin hr name args := by
    refine (closed s).callBuiltin hr.toEvals (keep fun _ => rfl) (fun st => keep fun _ => rfl)
      (keep fun _ => rfl) (fun name f args hf => ?_) name args
    exact call fun w => congrArg Control.frames (control_of_lookup hf w s args)
  stmt {r r'} hr st hst := by
    refine bind (mark _) fun _ => ?_
    cases hc : st.isStateChg with
    | false => exact hst hc
    | true =>
      cases st with
      | stateChg line idx => exact (closed s).stateChg r r' line idx fun i => keep fun _ => rfl
      | _ => cases hc

theorem vmDispatch (lib : Lib F) (s n : ℕ) (ev : EventDecl) (args : List (SValue F)) :
    StaysInOrder (vmDispatch lib s n ev args) :=
  inFrame (((handles lib s).interp n).exec ev.body) (bindArgs_depth ev.params args) fun _ => framePop

theorem dispatchEvent (lib : Lib F) (s n : ℕ) (ev : Event F) :
    StaysInOrder (dispatchEvent lib s n ev) := by
  refine bind (get _) fun o => ?_
  split
  · exact pure ()
  · exact bind (keep fun _ => rfl) fun _ => vmDispatch lib s n _ _

theorem initGlobals (lib : Lib F) (s n : ℕ) (gs : List (GlobalVar × ℕ)) :
    StaysInOrder (initGlobals (interp lib s n) s gs) := by
  induction gs with
  | nil => exact pure ()
  | cons gi gs ih =>
    obtain ⟨g, i⟩ := gi
    exact bind ((closed s).initGlobal ((handles lib s).interp n).toEvals i g _) fun _ => ih

theorem loopHead : StaysInOrder (loopHead : VM F Phase) := by
  have htime : StaysInOrder (limitReached : VM F Bool) :=
    bind (get _) fun _ => ite (pure true) (bind (get _) fun _ =>
      ite (bind (call fun _ => rfl) fun _ => read _) (pure false))
  refine bind htime fun _ => ite (pure _) (bind (call fun w => ?_) fun _ => pure _)
  unfold World.fireTimer
  split <;> rfl

theorem pump (next last : Phase) : StaysInOrder (pump next last : VM F Phase) :=
  bind (call frames_commandsPump) fun _ => ite (bind (keep fun _ => rfl) fun _ => pure _) (pure _)

/-- One step of the loop. -/
theorem regionStep (lib : Lib F) (n : ℕ) (p : Phase) : StaysInOrder (regionStep lib n p) := by
  cases p with
  | load =>
    refine bind (keep fun w => ?_) fun _ => pure _
    unfold World.volumeLoadEconomy
    split <;> rfl
  | init i =>
    refine bind (get _) fun _ => ite (bind ?_ fun _ => pure _) (bind ?_ fun _ => pure _)
    · refine bind (get _) fun p => bind (initGlobals lib i n _) fun _ => ?_
      exact bind (keep fun _ => rfl) fun _ => keep fun _ => rfl
    · exact bind (call fun _ => rfl) fun _ => fun _ h => ⟨h.now, h.marks⟩
  | top => exact loopHead
  | visit i b =>
    refine bind (get _) fun _ => ite (bind (get _) fun evq => ?_) (pure _)
    cases evq with
    | nil => exact pure _
    | cons ev evs =>
      exact bind (keep fun _ => rfl) fun _ => bind (dispatchEvent lib i n ev) fun _ =>
        bind (keep fun _ => rfl) fun _ => pure _
  | settle i =>
    refine bind (get _) fun t => ?_
    split
    · exact pure _
    · exact bind (keep fun _ => rfl) fun _ => pure _
  | exit i old new =>
    refine bind (bind (get _) fun p => ?_) fun _ => pure _
    split
    · exact pure ()
    · exact vmDispatch lib i n _ []
  | entry i new => exact bind (keep fun _ => rfl) fun _ => pure _
  | idle => exact pump _ _
  | drain => exact pump _ _
  | save => exact bind (keep fun _ => rfl) fun _ => pure _
  | done => exact pure _

end StaysInOrder

/-- At every moment of a run, the frames are ordered. -/
theorem Conf.IsRun.inOrder {lib : Lib F} {c : ℕ → Conf F} {n : ℕ} (h : IsRun lib c n) :
    ∀ k ≤ n, (c k).machine.InOrder := by
  intro k
  induction k with
  | zero =>
    intro _
    constructor
    · rw [show (c 0).machine.world.frames = [] from h.start.frames]
      intro f hf
      cases hf
    · rw [h.start.log]
      intro x hx
      cases hx
  | succ k ih =>
    intro hk
    obtain ⟨-, fuel, hstep⟩ := h.step k hk
    have hs := StaysInOrder.regionStep lib fuel (c k).phase (c k).machine (ih (Nat.le_of_succ_le hk))
    rwa [hstep] at hs

/-- The frames below are the same, and the running frame has the same depth and the same bindings,
by name and depth. -/
structure SameScopes (w w' : World F) : Prop where
  below : w'.frames.tail = w.frames.tail
  depth : w'.frame.map Frame.scopeDepth = w.frame.map Frame.scopeDepth
  names : w'.frame.map Frame.names = w.frame.map Frame.names

omit [CDouble F] in
theorem Leaves.sameScopes {w w' : World F} (h : Leaves false w w') : SameScopes w w' := by
  obtain ⟨ns, hmore, -, hn⟩ := h.names
  obtain rfl := hmore rfl
  exact ⟨h.below, h.depth, hn⟩

/-- At every moment of a run, also in the middle of a step, the bindings of every frame lie in the
order of their depths. With declarations in blocks only, the evaluation of an expression and the
execution of a statement that is no declaration, however they end, leave the scopes as they were. -/
theorem scopes_balance (lib : Lib F) :
    (∀ (c : ℕ → Conf F) (n : ℕ), Conf.IsRun lib c n → ∀ k ≤ n, (c k).machine.InOrder ∧
      ∀ fuel, (regionStep lib fuel (c k).phase (c k).machine).2.InOrder) ∧
    ∀ (p : Program) (s fuel : ℕ) (m m' : Machine F), p.Tidy → (m.world.script s).prog = p →
      m.InOrder →
      (∀ e v, (interp lib s fuel).eval e m = (.ok v, m') → SameScopes m.world m'.world) ∧
      ∀ st : Stmt, st.tidy → (interp lib s fuel).exec st m = (.ok (), m') →
        SameScopes m.world m'.world := by
  constructor
  · intro c n h k hk
    have hin := h.inOrder k hk
    exact ⟨hin, fun fuel => StaysInOrder.regionStep lib fuel _ _ hin⟩
  · intro p s fuel m m' hp hm hin
    have hb := interp_balanced lib hp s fuel
    have hn : m.world.Neat := fun f hf => hin.now f (List.mem_of_mem_head? hf)
    constructor
    · intro e v h
      exact (hb.eval e m v m' hm hn h).2.sameScopes
    · intro st hst h
      exact (hb.exec st hst m () m' hm hn h).2.sameScopes

omit [CDouble F] in
/-- A handler that has just been entered. -/
theorem Machine.InOrder.new {m : Machine F} {locs : List (LocalBinding F)}
    (hf : m.world.frames = [Frame.new locs]) (hl : m.log = [])
    (h : ∀ b ∈ locs, b.scopeDepth = 0) : m.InOrder := by
  constructor
  · intro f hmem
    rw [hf] at hmem
    rw [List.mem_singleton.mp hmem]
    exact .new h
  · intro x hx
    rw [hl] at hx
    cases hx

/-- The body of a function, run in a handler with a local. -/
theorem scopes_balance_store :
    SameScopes (callerWith [⟨7, .int 3, 0, SV.integer⟩]).world
      ((interp noLib 0 10).exec storeFunc.body (callerWith [⟨7, .int 3, 0, SV.integer⟩])).2.world :=
  ((scopes_balance noLib).2 callerProgram 0 10 _ _ ⟨by decide, by decide⟩ rfl
    (.new rfl rfl (by decide))).2 storeFunc.body (by decide) rfl

end Slemu
