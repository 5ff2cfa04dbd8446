import Slemu.Frames
import Slemu.SchedulerSteps

/-! A running function sees its own frame only: two calls from different callers, in the same
world otherwise, have the same effects and the same value, and leave the frames of the callers
alone. -/

namespace Slemu
variable {F : Type}

/-- Other frames below the running functions. -/
def World.withFrames (w : World F) (fs : List (Frame F)) : World F := { w with frames := fs }

/-- Two machines that run the same `k` functions, over the frames `below` in one and `below'` in
the other, in worlds that are the same otherwise. -/
def Beside (below below' : List (Frame F)) (k : ℕ) (m m' : Machine F) : Prop :=
  ∃ top, top.length = k ∧ m.world.frames = top ++ below ∧
    m'.world = m.world.withFrames (top ++ below')

namespace Beside
variable {below below' : List (Frame F)} {k : ℕ} {m m' : Machine F}

theorem world_eq (h : Beside below below' k m m') :
    m'.world = m.world.withFrames m'.world.frames := by
  obtain ⟨top, -, -, hw⟩ := h
  rw [hw]
  rfl

theorem frame (h : Beside below below' (k+1) m m') : m'.world.frame = m.world.frame := by
  obtain ⟨top, hk, hf, hw⟩ := h
  cases top with
  | nil => cases hk
  | cons f fs =>
    rw [World.frame, World.frame, hw, hf]
    rfl

theorem script [CDouble F] (h : Beside below below' k m m') (s : ℕ) :
    m'.world.script s = m.world.script s := by
  rw [h.world_eq]
  rfl

/-- A change of anything but the frames, which does not look at them. -/
theorem set {f : World F → World F} (h : Beside below below' k m m')
    (hf : ∀ w fs, f (w.withFrames fs) = (f w).withFrames fs) :
    Beside below below' k { m with world := f m.world } { m' with world := f m'.world } := by
  obtain ⟨top, hk, htop, hw⟩ := h
  refine ⟨top, hk, ?_, ?_⟩
  · have hself := hf m.world m.world.frames
    have hsame : m.world.withFrames m.world.frames = m.world := rfl
    rw [hsame] at hself
    rw [← htop, hself]
    rfl
  · rw [hw, hf]

theorem modFrame (h : Beside below below' (k+1) m m') (f : Frame F → Frame F) :
    Beside below below' (k+1) { m with world := m.world.modFrame f }
      { m' with world := m'.world.modFrame f } := by
  obtain ⟨top, hk, htop, hw⟩ := h
  cases top with
  | nil => cases hk
  | cons fr frs =>
    refine ⟨f fr :: frs, hk, ?_, ?_⟩
    · simp only [World.modFrame, htop, List.cons_append, List.modifyHead_cons]
    · rw [hw]
      rfl

theorem framePush (h : Beside below below' k m m') (locs : List (LocalBinding F)) :
    Beside below below' (k+1) { m with world := m.world.framePush locs }
      { m' with world := m'.world.framePush locs } := by
  obtain ⟨top, hk, htop, hw⟩ := h
  refine ⟨Frame.new locs :: top, congrArg (·+1) hk, congrArg _ htop, ?_⟩
  rw [hw]
  rfl

theorem framePop (h : Beside below below' (k+1) m m') :
    Beside below below' k { m with world := m.world.framePop }
      { m' with world := m'.world.framePop } := by
  obtain ⟨top, hk, htop, hw⟩ := h
  cases top with
  | nil => cases hk
  | cons fr frs =>
    refine ⟨frs, Nat.succ.inj hk, congrArg List.tail htop, ?_⟩
    rw [hw]
    rfl

end Beside

/-- From `k` running functions, both programs come to the same end; with the same value if they
come to their ends, at `k'` running functions. -/
def Tied (below below' : List (Frame F)) (k k' : ℕ) {α : Type} (m n : VM F α) : Prop :=
  ∀ a b, Beside below below' k a b → (m a).1 = (n b).1 ∧
    ∀ x, (m a).1 = .ok x → Beside below below' k' (m a).2 (n b).2

/-- The same in any running function, which goes on running. -/
def Twin (below below' : List (Frame F)) {α : Type} (m n : VM F α) : Prop :=
  ∀ k, Tied below below' (k+1) (k+1) m n

namespace Tied
variable {below below' : List (Frame F)} {k k' k'' : ℕ} {α β : Type}

theorem pure (a : α) : Tied below below' k k (pure a : VM F α) (pure a) :=
  fun _ _ h => ⟨rfl, fun _ _ => h⟩

theorem fail (e : Stop) : Tied below below' k k' (Run.fail e : VM F α) (Run.fail e) :=
  fun _ _ _ => ⟨rfl, nofun⟩

theorem bind {m n : VM F α} {f g : α → VM F β} (hm : Tied below below' k k' m n)
    (hf : ∀ a, Tied below below' k' k'' (f a) (g a)) :
    Tied below below' k k'' (m >>= f) (n >>= g) := by
  intro a b h
  obtain ⟨hr, hs⟩ := hm a b h
  rcases Run.bind_cases m f a with ⟨e, t, he, hb⟩ | ⟨x, t, hx, hb⟩
  · have hn : (n b).1 = .error e := by rw [← hr, he]
    have hnb : (n >>= g) b = (.error e, (n b).2) := Run.bind_error (Prod.ext hn rfl) g
    rw [hb, hnb]
    exact ⟨rfl, nofun⟩
  · have hn : (n b).1 = .ok x := by rw [← hr, hx]
    have hnb : (n >>= g) b = g x (n b).2 := Run.bind_ok (Prod.ext hn rfl) g
    have ht := hs x (by rw [hx])
    rw [hx] at ht
    rw [hb, hnb]
    exact hf x t (n b).2 ht

theorem set {f : World F → World F} (hf : ∀ w fs, f (w.withFrames fs) = (f w).withFrames fs) :
    Tied below below' k k (VM.set f) (VM.set f) := fun _ _ h => ⟨rfl, fun _ _ => h.set hf⟩

theorem call {f : World F → α × World F}
    (hf : ∀ w fs, f (w.withFrames fs) = ((f w).1, (f w).2.withFrames fs)) :
    Tied below below' k k (VM.call f) (VM.call f) := by
  intro a b h
  have hfb : (f b.world).1 = (f a.world).1 := by rw [h.world_eq, hf]
  refine ⟨congrArg Except.ok hfb.symm, fun _ _ => ?_⟩
  exact h.set (f := fun w => (f w).2) fun w fs => congrArg Prod.snd (hf w fs)

theorem modFrame (f : Frame F → Frame F) : Tied below below' (k+1) (k+1)
    (VM.set fun w => w.modFrame f) (VM.set fun w => w.modFrame f) :=
  fun _ _ h => ⟨rfl, fun _ _ => h.modFrame f⟩

theorem framePush (locs : List (LocalBinding F)) : Tied below below' k (k+1)
    (VM.set fun w => w.framePush locs) (VM.set fun w => w.framePush locs) :=
  fun _ _ h => ⟨rfl, fun _ _ => h.framePush locs⟩

theorem framePop : Tied below below' (k+1) k (VM.set World.framePop) (VM.set World.framePop) :=
  fun _ _ h => ⟨rfl, fun _ _ => h.framePop⟩

theorem mark (x : Mark F) : Tied below below' k k (VM.mark x) (VM.mark x) :=
  fun _ _ h => ⟨rfl, fun _ _ => h⟩

variable [CDouble F]

theorem get {s : ℕ} {f : World F → α} (hf : Local s f) :
    Tied below below' (k+1) (k+1) (VM.get f) (VM.get f) := by
  intro a b h
  have hfb : f b.world = f a.world := hf a.world b.world h.frame (h.script s)
  exact ⟨congrArg Except.ok hfb.symm, fun _ _ => h⟩

end Tied

/-! ### The interpreter -/

variable [CDouble F]

/-- The functions of the library do not look at the frames. -/
def Lib.Blind (lib : Lib F) : Prop :=
  ∀ name g, lib.lookup name = some g → ∀ w fs s a, g (w.withFrames fs) s a = g w s a

namespace Twin
variable {below below' : List (Frame F)} {s : ℕ}

theorem closed (s : ℕ) : Closed s (fun {α} (m n : VM F α) => Twin below below' m n) where
  pure a _ := .pure a
  fail e _ := .fail e
  bind hm hf k := .bind (hm k) fun a => hf a k
  get hf _ := .get hf
  mark x _ _ := .mark x
  setCell c v k := by
    cases c with
    | loc i => exact .modFrame _
    | glob i => exact .set fun _ _ => rfl
  flags _ _ := .modFrame _
  define _ _ _ _ := .modFrame _
  enter _ := .modFrame _
  leave _ := .modFrame _

theorem builtin {lib : Lib F} (hlib : lib.Blind) {name : Bytes} {f : Builtin F}
    (h : builtinsLookup lib name = some f) (w : World F) (fs : List (Frame F)) (s : ℕ)
    (a : List (SValue F)) : f (w.withFrames fs) s a = ((f w s a).1, (f w s a).2.withFrames fs) := by
  rcases Slemu.Blind.lookup_cases h with hf | ⟨g, hg, rfl⟩
  · have hw := hf w ⟨fs, w.maxSteps, w.nSteps⟩ s a
    have hk := hf.keeps w s a
    simp only [World.control, Control.mk.injEq] at hk
    have hc : (f w s a).2.withControl ⟨fs, w.maxSteps, w.nSteps⟩ = (f w s a).2.withFrames fs := by
      rw [← hk.2.1, ← hk.2.2]
      rfl
    rw [← hc]
    exact hw
  · rw [Lib.builtin, Lib.builtin, hlib name g hg w fs s a]
    rfl

end Twin

theorem Tied.callFunc {below below' : List (Frame F)} {k : ℕ} {r r' : Interp F}
    (hr : r.Related (fun {α} (m n : VM F α) => Twin below below' m n) r') (s : ℕ) (fd : FuncDecl)
    (locs : List (LocalBinding F)) :
    Tied below below' k k (callFunc r s fd locs) (callFunc r' s fd locs) := by
  refine (Tied.framePush locs).bind fun _ => (hr.exec fd.body k).bind fun _ => ?_
  refine (Tied.get (s := s) .retVal).bind fun v => (Tied.get (s := s) .returning).bind fun b => ?_
  exact Tied.framePop.bind fun _ => (Tied.mark _).bind fun _ => .pure v

theorem Twin.handles {lib : Lib F} (hlib : lib.Blind) (below below' : List (Frame F)) (s : ℕ) :
    Handles lib s (fun {α} (m n : VM F α) => Twin below below' m n) where
  toClosed := Twin.closed s
  func hr fd args k := ((Twin.closed s).bindParams hr.toEvals fd.params args [] k).bind fun locs =>
    Tied.callFunc hr s fd locs
  builtin hr name args := by
    refine (Twin.closed s).callBuiltin hr.toEvals ?_ (fun st => ?_) ?_ (fun name f args hf => ?_) name args
    · exact fun k => .set fun _ _ => rfl
    · exact fun k => .set fun _ _ => rfl
    · exact fun k => .set fun _ _ => rfl
    · exact fun k => .call fun w fs => Twin.builtin hlib hf w fs s args
  stmt {r r'} hr st hst := by
    refine (Twin.closed s).bind (fun k => .mark _) fun _ => ?_
    cases hc : st.isStateChg with
    | false => exact hst hc
    | true =>
      cases st with
      | stateChg line idx => exact (Twin.closed s).stateChg r r' line idx fun i k => .set fun _ _ => rfl
      | _ => cases hc

/-- Whoever calls a user function on given values, with whatever frames: the call comes to the same
end, with the same value and the same world but for the frames, and leaves every frame of its
callers as it was. -/
theorem calls_isolated {lib : Lib F} (hlib : lib.Blind) (s n : ℕ) (fd : FuncDecl)
    (vs : List (SValue F)) (m m' : Machine F)
    (hm : m'.world = m.world.withFrames m'.world.frames) :
    let call := callFunc (interp lib s n) s fd (bindArgs fd.params vs)
    (call m).1 = (call m').1 ∧ ∀ v, (call m).1 = .ok v →
      (call m).2.world.frames = m.world.frames ∧
      (call m').2.world = (call m).2.world.withFrames m'.world.frames := by
  intro call
  have hr := (Twin.handles hlib m.world.frames m'.world.frames s).interp n
  have h0 : Beside m.world.frames m'.world.frames 0 m m' := ⟨[], rfl, rfl, hm⟩
  obtain ⟨he, hb⟩ := Tied.callFunc hr s fd (bindArgs fd.params vs) m m' h0
  refine ⟨he, fun v hv => ?_⟩
  obtain ⟨top, hk, hf, hw⟩ := hb v hv
  obtain rfl := List.eq_nil_of_length_eq_zero hk
  exact ⟨hf, hw⟩

/-- `integer f(integer a) { x = a; return a; }` -/
def storeFunc : FuncDecl :=
  ⟨5, 1, SV.integer, 1, [⟨SV.integer, 7⟩], .block 2
    [.expr 3 (.assign SV.integer 0 Op.assign (.ident SV.integer 1 6) (.ident SV.integer 1 7)),
     .ret 4 1 (.ident SV.integer 1 7)]⟩

/-- A program with a global `x` and this function. -/
def callerProgram : Program :=
  { handlersProgram [] with globals := [⟨SV.integer, 6, .null⟩], funcs := [storeFunc] }

/-- A script with this program, in a handler with these locals. -/
def callerWith (locs : List (LocalBinding ℚ)) : Machine ℚ :=
  let m := (regionOf [callerProgram] []).machine
  { m with world := m.world.withFrames [Frame.new locs] }

/-- A caller with no locals, and one with a local of the name of the parameter. -/
theorem calls_isolated_store :
    let call := callFunc (interp noLib 0 10) 0 storeFunc (bindArgs storeFunc.params [.int 7])
    let m := callerWith []
    let m' := callerWith [⟨7, .int 3, 0, SV.integer⟩]
    (call m).1 = .ok (.int 7) ∧ (call m).2.world.frames = m.world.frames ∧
      (call m').2.world = (call m).2.world.withFrames m'.world.frames := by
  intro call m m'
  have h := @calls_isolated ℚ _ noLib (fun _ _ h => by cases h) 0 10 storeFunc [.int 7] m m' rfl
  have hv : (call m).1 = .ok (.int 7) := rfl
  exact ⟨hv, h.2 (.int 7) hv⟩

end Slemu
