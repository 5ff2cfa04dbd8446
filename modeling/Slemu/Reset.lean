import Slemu.RunPairs
import Slemu.SchedulerSteps

/-! What `llResetScript` and `init_script` have in common: when a reset script is like one that has
just been loaded. -/

namespace Slemu
variable {F : Type} [CDouble F]

/-! ### Constant initialisers -/

/-- An expression of literals, operators, and names that `ok` admits. -/
inductive Constant (ok : Int32 → Prop) : Expr → Prop
  | intLit {t lv : UInt8} {v : Int64} : Constant ok (.intLit t lv v)
  | floatLit {t lv : UInt8} {bits : UInt64} : Constant ok (.floatLit t lv bits)
  | stringLit {t lv : UInt8} {idx : Int32} : Constant ok (.stringLit t lv idx)
  | ident {t lv : UInt8} {idx : Int32} : ok idx → Constant ok (.ident t lv idx)
  | vectorLit {t lv : UInt8} {x y z : Expr} :
    Constant ok x → Constant ok y → Constant ok z → Constant ok (.vectorLit t lv x y z)
  | rotLit {t lv : UInt8} {x y z w : Expr} : Constant ok x → Constant ok y → Constant ok z →
    Constant ok w → Constant ok (.rotLit t lv x y z w)
  | listLit {t lv : UInt8} {items : List Expr} :
    (∀ e ∈ items, Constant ok e) → Constant ok (.listLit t lv items)
  | member {t lv m : UInt8} {base : Expr} : Constant ok base → Constant ok (.member t lv base m)
  | cast {t lv target : UInt8} {inner : Expr} :
    Constant ok inner → Constant ok (.cast t lv target inner)
  | unary {t lv op : UInt8} {inner : Expr} :
    ¬ (op = Op.inc ∨ op = Op.dec) → Constant ok inner → Constant ok (.unary t lv op inner)
  | binary {t lv op : UInt8} {l r : Expr} :
    Constant ok l → Constant ok r → Constant ok (.binary t lv op l r)

/-- No local of the running function or handler has this name. -/
def World.Unbound (w : World F) (idx : Int32) : Prop :=
  (w.frame.bind fun f => f.locs.findIdx? fun b => b.nameIdx = idx) = none

/-- Two scripts of one program, where names that `ok` admits have the same value. -/
structure Alike (ok : Int32 → Prop) (s t : ℕ) (w u : World F) : Prop where
  prog : (w.script s).prog = (u.script t).prog
  ident (idx : Int32) : ok idx → w.identVal s idx = u.identVal t idx

variable {ok : Int32 → Prop} {s t : ℕ} {w u : World F}

theorem Alike.refl (ok : Int32 → Prop) (s : ℕ) (w : World F) : Alike ok s s w w :=
  ⟨rfl, fun _ _ => rfl⟩

/-- A name that no local hides is the name of a global or of a constant. -/
theorem Alike.of_globals (hp : (w.script s).prog = (u.script t).prog)
    (hg : (w.script s).globals = (u.script t).globals) (hw : ∀ idx, ok idx → w.Unbound idx)
    (hu : ∀ idx, ok idx → u.Unbound idx) : Alike ok s t w u := by
  refine ⟨hp, ?_⟩
  intro idx hok
  have hl : w.findCell s idx =
      ((w.script s).prog.globals.findIdx? fun g => g.nameIdx = idx).map .glob := by
    rw [World.findCell, hw idx hok]
  have hr : u.findCell t idx =
      ((u.script t).prog.globals.findIdx? fun g => g.nameIdx = idx).map .glob := by
    rw [World.findCell, hu idx hok]
  rw [World.identVal, World.identVal, hl, hr, hp]
  cases ((u.script t).prog.globals.findIdx? fun g => g.nameIdx = idx) with
  | none => rfl
  | some i => simp only [Option.map_some, World.cellVal, hg]

/-- Two machines in these worlds, whatever marks they have made. -/
def At (w u : World F) (m n : Machine F) : Prop := m.world = w ∧ n.world = u

omit [CDouble F] in
theorem agree_defined (o : Option (SValue F)) :
    Run.Agree (At w u) (VM.defined o : VM F (SValue F)) (VM.defined o) := by
  cases o with
  | none => exact .fail_left _ _
  | some v => exact .pure v

omit [CDouble F] in
theorem agree_get {α : Type} {f g : World F → α} (h : f w = g u) :
    Run.Agree (At w u) (VM.get f) (VM.get g) :=
  Run.Agree.read fun m n hm => by rw [hm.1, hm.2, h]

omit [CDouble F] in
/-- Marks do not change the world. -/
theorem agree_mark (k l : Mark F) : Run.Agree (At w u) (VM.mark k) (VM.mark l) :=
  Run.Agree.update fun _ _ h => h

theorem agree_binary (op : UInt8) (l r : SValue F) :
    Run.Agree (At w u) (binary op l r) (binary op l r) :=
  (agree_mark _ _).bind fun _ => agree_defined _

omit [CDouble F] in
theorem agree_evalAll {f g : Expr → VM F (SValue F)} {es : List Expr}
    (h : ∀ e ∈ es, Run.Agree (At w u) (f e) (g e)) :
    Run.Agree (At w u) (evalAll f es) (evalAll g es) := by
  induction es with
  | nil => exact .pure []
  | cons e es ih =>
    refine (h e List.mem_cons_self).bind fun v => ?_
    exact (ih fun e' he => h e' (List.mem_cons_of_mem e he)).bind fun vs => .pure (v :: vs)

theorem agree_evalShort {r r' : Interp F} (go : Bool → Bool) {l e : Expr}
    (hl : Run.Agree (At w u) (r.eval l) (r'.eval l))
    (he : Run.Agree (At w u) (r.eval e) (r'.eval e)) :
    Run.Agree (At w u) (evalShort r go l e) (evalShort r' go l e) :=
  hl.bind fun a => .ite (he.bind fun b => .pure (SValue.ofBool (svTruthy b)))
    (.pure (SValue.ofBool (svTruthy a)))

/-- What the `switch` of `vm_eval` does alike, `vm_eval` does alike. -/
theorem agree_eval {lib : Lib F} {e : Expr}
    (h : ∀ n k, Run.Agree (At w u) (evalNode lib (interp lib s n) s e)
      (evalNode lib (interp lib t k) t e)) (n k : ℕ) :
    Run.Agree (At w u) ((interp lib s n).eval e) ((interp lib t k).eval e) := by
  cases n with
  | zero => exact .fail_left _ _
  | succ n =>
    cases k with
    | zero => exact .fail_right _ _
    | succ k => exact (h n k).bind fun v => (agree_mark _ _).bind fun _ => .pure v

/-- A constant has the same value for both scripts, and its evaluation changes nothing. -/
theorem Constant.agree (lib : Lib F) (hw : Alike ok s t w u) {e : Expr} (h : Constant ok e)
    (n k : ℕ) : Run.Agree (At w u) ((interp lib s n).eval e) ((interp lib t k).eval e) := by
  induction h generalizing n k with
  | intLit => exact agree_eval (fun _ _ => .pure _) n k
  | floatLit => exact agree_eval (fun _ _ => .pure _) n k
  | @stringLit ty lv idx =>
    apply agree_eval
    intro n k
    have hstr : (w.script s).prog.str idx = (u.script t).prog.str idx := by rw [hw.prog]
    exact (agree_get hstr).bind fun str => agree_defined _
  | @ident ty lv idx hok =>
    apply agree_eval
    intro n k
    have hv := agree_get (f := fun v : World F => v.identVal s idx)
      (g := fun v => v.identVal t idx) (hw.ident idx hok)
    exact hv
  | vectorLit _ _ _ hx hy hz =>
    apply agree_eval
    intro n k
    exact (hx n k).bind fun x => (hy n k).bind fun y => (hz n k).bind fun z => agree_defined _
  | rotLit _ _ _ _ hx hy hz hw =>
    apply agree_eval
    intro n k
    exact (hx n k).bind fun x => (hy n k).bind fun y => (hz n k).bind fun z =>
      (hw n k).bind fun w => agree_defined _
  | listLit _ hitems =>
    apply agree_eval
    intro n k
    exact (agree_evalAll fun e he => hitems e he n k).bind fun vs => .pure (SValue.list vs)
  | member _ hb =>
    apply agree_eval
    intro n k
    exact (hb n k).bind fun b => .pure _
  | cast _ hi =>
    apply agree_eval
    intro n k
    exact (hi n k).bind fun v => .pure _
  | unary hop _ hi =>
    apply agree_eval
    intro n k
    rw [evalNode, evalNode, if_neg hop, if_neg hop]
    exact (hi n k).bind fun v => agree_defined _
  | binary _ _ hl hr =>
    apply agree_eval
    intro n k
    exact .ite (agree_evalShort id (hl n k) (hr n k)) (.ite (agree_evalShort not (hl n k) (hr n k))
      ((hl n k).bind fun a => (hr n k).bind fun b => agree_binary _ a b))

theorem Constant.keeps {lib : Lib F} {e : Expr} (h : Constant ok e) {n : ℕ} {m m' : Machine F}
    {v : SValue F} (he : (interp lib s n).eval e m = (.ok v, m')) : m'.world = m.world :=
  (h.agree lib (.refl ok s m.world) n n m m v v m' m' ⟨rfl, rfl⟩ he he).2.1

/-! ### The globals, one after the other -/

/-- The loop over the globals, with what one gets that has no initialiser. -/
def globalsLoop (r : Interp F) (s : ℕ) (zero : GlobalVar → Option (SValue F)) :
    List (GlobalVar × ℕ) → VM F Unit
  | [] => pure ()
  | (g, i) :: gs => do
    initGlobal r s i g (zero g)
    globalsLoop r s zero gs

omit [CDouble F] in
theorem resetGlobals_eq (r : Interp F) (s : ℕ) (gs : List (GlobalVar × ℕ)) :
    resetGlobals r s gs = globalsLoop r s (fun _ => none) gs := by
  induction gs with
  | nil => rfl
  | cons gi gs ih => rw [resetGlobals, globalsLoop, ih]

theorem initGlobals_eq (r : Interp F) (s : ℕ) (gs : List (GlobalVar × ℕ)) :
    initGlobals r s gs = globalsLoop r s (fun g => some (svZero g.type)) gs := by
  induction gs with
  | nil => rfl
  | cons gi gs ih => rw [initGlobals, globalsLoop, ih]

/-- Nothing but globals of script `s` has changed, as far as the start of a script goes. -/
structure OnlyGlobals (s : ℕ) (w u : World F) : Prop where
  count : u.scripts.length = w.scripts.length
  frames : u.frames = w.frames
  prog : (u.script s).prog = (w.script s).prog
  curState : (u.script s).curState = (w.script s).curState
  evq : (u.script s).evq = (w.script s).evq
  cells : (u.script s).globals.length = (w.script s).globals.length

theorem OnlyGlobals.refl (s : ℕ) (w : World F) : OnlyGlobals s w w := ⟨rfl, rfl, rfl, rfl, rfl, rfl⟩

theorem OnlyGlobals.trans {v : World F} (h : OnlyGlobals s w u) (h' : OnlyGlobals s u v) :
    OnlyGlobals s w v :=
  ⟨h'.count.trans h.count, h'.frames.trans h.frames, h'.prog.trans h.prog,
    h'.curState.trans h.curState, h'.evq.trans h.evq, h'.cells.trans h.cells⟩

theorem globals_setCell (hs : s < w.scripts.length) (i : ℕ) (v : SValue F) :
    ((w.setCell s (.glob i) v).script s).globals = (w.script s).globals.set i v := by
  rw [World.setCell, World.modScript_script w s _ hs]

theorem OnlyGlobals.setCell (hs : s < w.scripts.length) (i : ℕ) (v : SValue F) :
    OnlyGlobals s w (w.setCell s (.glob i) v) := by
  have h := World.modScript_script w s (fun t => { t with globals := t.globals.set i v }) hs
  refine ⟨World.modScript_length w s _, rfl, ?_, ?_, ?_, ?_⟩
  · rw [World.setCell, h]
  · rw [World.setCell, h]
  · rw [World.setCell, h]
  · rw [World.setCell, h, List.length_set]

/-- A global stays as it is, or its cell gets a value; without an initialiser, the given one. -/
theorem initGlobal_world {lib : Lib F} {n i : ℕ} {g : GlobalVar} {z : Option (SValue F)}
    {m m' : Machine F} (hc : ¬ g.init.isNull → Constant ok g.init)
    (h : initGlobal (interp lib s n) s i g z m = (.ok (), m')) :
    (g.init.isNull ∧ z = none ∧ m'.world = m.world) ∨
      ∃ v, (g.init.isNull → z = some v) ∧ m'.world = m.world.setCell s (.glob i) v := by
  by_cases hg : g.init.isNull
  · rw [initGlobal.eq_def, if_pos hg] at h
    cases z with
    | none =>
      cases h
      exact Or.inl ⟨hg, rfl, rfl⟩
    | some v =>
      cases h
      exact Or.inr ⟨v, fun _ => rfl, rfl⟩
  · rw [initGlobal.eq_def, if_neg hg] at h
    obtain ⟨v, m1, he, hset⟩ := Run.of_bind_ok h
    cases hset
    refine Or.inr ⟨v, fun h => absurd h hg, ?_⟩
    change m1.world.setCell s (.glob i) v = _
    rw [(hc hg).keeps he]

section Loop
variable {lib : Lib F} {n : ℕ} {z : GlobalVar → Option (SValue F)} {gs : List GlobalVar}
  {i : ℕ} {m m' : Machine F}

theorem globalsLoop_only (hc : ∀ g ∈ gs, ¬ g.init.isNull → Constant ok g.init)
    (hs : s < m.world.scripts.length)
    (h : globalsLoop (interp lib s n) s z (gs.zipIdx i) m = (.ok (), m')) :
    OnlyGlobals s m.world m'.world := by
  induction gs generalizing i m with
  | nil =>
    cases h
    exact .refl s _
  | cons g gs ih =>
    obtain ⟨_, m1, h1, h2⟩ := Run.of_bind_ok h
    have hstep : OnlyGlobals s m.world m1.world := by
      rcases initGlobal_world (hc g List.mem_cons_self) h1 with ⟨-, -, hw⟩ | ⟨v, -, hw⟩
      · rw [hw]
        exact .refl s m.world
      · rw [hw]
        exact .setCell hs i v
    have hrest := ih (fun g' hg' => hc g' (List.mem_cons_of_mem g hg'))
      (hstep.count.symm ▸ hs) h2
    exact hstep.trans hrest

/-- The cells in front of the loop stay as they are. -/
theorem globalsLoop_before (hc : ∀ g ∈ gs, ¬ g.init.isNull → Constant ok g.init)
    (hs : s < m.world.scripts.length)
    (h : globalsLoop (interp lib s n) s z (gs.zipIdx i) m = (.ok (), m')) {j : ℕ} (hj : j < i) :
    (m'.world.script s).globals[j]? = (m.world.script s).globals[j]? := by
  induction gs generalizing i m with
  | nil =>
    cases h
    rfl
  | cons g gs ih =>
    obtain ⟨_, m1, h1, h2⟩ := Run.of_bind_ok h
    have hc' := fun g' hg' => hc g' (List.mem_cons_of_mem g hg')
    rcases initGlobal_world (hc g List.mem_cons_self) h1 with ⟨-, -, hw⟩ | ⟨v, -, hw⟩
    · rw [ih hc' (hw ▸ hs) h2 (by omega), hw]
    · have hcount := (OnlyGlobals.setCell hs i v).count
      rw [← hw] at hcount
      calc (m'.world.script s).globals[j]?
          = (m1.world.script s).globals[j]? := ih hc' (hcount.symm ▸ hs) h2 (by omega)
        _ = ((m.world.script s).globals.set i v)[j]? := by rw [hw, globals_setCell hs]
        _ = (m.world.script s).globals[j]? := List.getElem?_set_ne (by omega)

/-- A global without initialiser ends up with the given value, or with the one it had. -/
theorem globalsLoop_null (hc : ∀ g ∈ gs, ¬ g.init.isNull → Constant ok g.init)
    (hs : s < m.world.scripts.length)
    (h : globalsLoop (interp lib s n) s z (gs.zipIdx i) m = (.ok (), m')) {k : ℕ} {g : GlobalVar}
    (hk : gs[k]? = some g) (hg : g.init.isNull) :
    (m'.world.script s).globals[i+k]? =
      (m.world.script s).globals[i+k]?.map fun old => (z g).getD old := by
  induction gs generalizing i k m with
  | nil => cases hk
  | cons g0 gs ih =>
    obtain ⟨_, m1, h1, h2⟩ := Run.of_bind_ok h
    have hc' := fun g' hg' => hc g' (List.mem_cons_of_mem g0 hg')
    have hw1 := initGlobal_world (hc g0 List.mem_cons_self) h1
    have hs1 : s < m1.world.scripts.length := by
      rcases hw1 with ⟨-, -, hw⟩ | ⟨v, -, hw⟩
      · rw [hw]
        exact hs
      · rw [hw, (OnlyGlobals.setCell hs i v).count]
        exact hs
    cases k with
    | zero =>
      obtain rfl : g0 = g := Option.some.inj hk
      -- the rest of the loop leaves this cell alone
      rw [Nat.add_zero, globalsLoop_before hc' hs1 h2 (by omega)]
      rcases hw1 with ⟨-, hz, hw⟩ | ⟨v, hz, hw⟩
      · simp only [hw, hz, Option.getD_none, Option.map_id']
      · rw [hw, globals_setCell hs, hz hg, List.getElem?_set_self']
        rfl
    | succ k =>
      have hi : i+(k+1) = i+1+k := by omega
      rw [hi, ih hc' hs1 h2 hk]
      rcases hw1 with ⟨-, -, hw⟩ | ⟨v, -, hw⟩
      · rw [hw]
      · rw [hw, globals_setCell hs, List.getElem?_set_ne (by omega)]

end Loop

/-! ### Reset and start -/

/-- Two scripts that start alike: the globals, the state and the queue. -/
structure SameStart (a b : Script F) : Prop where
  globals : a.globals = b.globals
  curState : a.curState = b.curState
  evq : a.evq = b.evq

/-- Every global without an initialiser has a type with no zero value, and there is a default state
or the script is in the state it started in. -/
def Script.ResetsFresh (t : Script F) : Prop :=
  (∀ g ∈ t.prog.globals, g.init.isNull → (svZero g.type : SValue F) = .void) ∧
    (t.prog.defaultState.isSome ∨ t.curState = startState t.prog none)

/-- The two loops from global `i` on, when both scripts have the same globals so far and void ones
from there on. -/
structure Level (ok : Int32 → Prop) (s t i : ℕ) (w u : World F) : Prop where
  inLeft : s < w.scripts.length
  inRight : t < u.scripts.length
  prog : (w.script s).prog = (u.script t).prog
  globals : (w.script s).globals = (u.script t).globals
  unboundLeft (idx : Int32) : ok idx → w.Unbound idx
  unboundRight (idx : Int32) : ok idx → u.Unbound idx
  blank (j : ℕ) (v : SValue F) : i ≤ j → (u.script t).globals[j]? = some v → v = .void

namespace Level
variable {i : ℕ}

theorem alike (h : Level ok s t i w u) : Alike ok s t w u :=
  .of_globals h.prog h.globals h.unboundLeft h.unboundRight

/-- The next global of both scripts gets a value. -/
theorem set (h : Level ok s t i w u) (v : SValue F) :
    Level ok s t (i+1) (w.setCell s (.glob i) v) (u.setCell t (.glob i) v) := by
  have hl := OnlyGlobals.setCell h.inLeft i v
  have hr := OnlyGlobals.setCell h.inRight i v
  refine ⟨hl.count.symm ▸ h.inLeft, hr.count.symm ▸ h.inRight, ?_, ?_, h.unboundLeft,
    h.unboundRight, ?_⟩
  · rw [hl.prog, hr.prog, h.prog]
  · rw [globals_setCell h.inLeft, globals_setCell h.inRight, h.globals]
  · intro j x hj hx
    rw [globals_setCell h.inRight, List.getElem?_set_ne (by omega)] at hx
    exact h.blank j x (by omega) hx

/-- The next global of the started script is set to void, which it was. -/
theorem blankRight (h : Level ok s t i w u) :
    Level ok s t (i+1) w (u.setCell t (.glob i) .void) := by
  have hr := OnlyGlobals.setCell h.inRight i (.void : SValue F)
  have hset : (u.script t).globals.set i .void = (u.script t).globals := by
    apply List.ext_getElem?
    intro j
    rw [List.getElem?_set]
    split
    · next hij =>
      subst hij
      rcases hv : (u.script t).globals[i]? with _ | v
      · rw [if_neg (by simpa using hv)]
      · rw [if_pos (List.getElem?_eq_some_iff.mp hv).1, h.blank i v le_rfl hv]
    · rfl
  refine ⟨h.inLeft, hr.count.symm ▸ h.inRight, ?_, ?_, h.unboundLeft, h.unboundRight, ?_⟩
  · rw [hr.prog, h.prog]
  · rw [globals_setCell h.inRight, hset, h.globals]
  · intro j x hj hx
    rw [globals_setCell h.inRight, hset] at hx
    exact h.blank j x (by omega) hx

end Level

/-- Both loops give the globals the same values, if those without initialiser have no zero value. -/
theorem globalsLoop_alike {lib : Lib F} {n k i : ℕ} {gs : List GlobalVar} {m m' p p' : Machine F}
    (hc : ∀ g ∈ gs, ¬ g.init.isNull → Constant ok g.init)
    (hz : ∀ g ∈ gs, g.init.isNull → (svZero g.type : SValue F) = .void)
    (hl : Level ok s t i m.world p.world)
    (hm : globalsLoop (interp lib s n) s (fun _ => none) (gs.zipIdx i) m = (.ok (), m'))
    (hp : globalsLoop (interp lib t k) t (fun g => some (svZero g.type)) (gs.zipIdx i) p =
      (.ok (), p')) : (m'.world.script s).globals = (p'.world.script t).globals := by
  induction gs generalizing i m p with
  | nil =>
    cases hm
    cases hp
    exact hl.globals
  | cons g gs ih =>
    obtain ⟨_, m1, hm1, hm2⟩ := Run.of_bind_ok hm
    obtain ⟨_, p1, hp1, hp2⟩ := Run.of_bind_ok hp
    refine ih (fun g' hg' => hc g' (List.mem_cons_of_mem g hg'))
      (fun g' hg' => hz g' (List.mem_cons_of_mem g hg')) ?_ hm2 hp2
    by_cases hg : g.init.isNull
    · rw [initGlobal.eq_def, if_pos hg] at hm1 hp1
      cases hm1
      cases hp1
      change Level ok s t (i+1) m.world (p.world.setCell t (.glob i) (svZero g.type))
      rw [hz g List.mem_cons_self hg]
      exact hl.blankRight
    · rw [initGlobal.eq_def, if_neg hg] at hm1 hp1
      obtain ⟨v, m2, hv, hset⟩ := Run.of_bind_ok hm1
      obtain ⟨v', p2, hv', hset'⟩ := Run.of_bind_ok hp1
      cases hset
      cases hset'
      -- the initialiser has the same value for both, in worlds that it leaves as they are
      obtain ⟨rfl, hw, hu⟩ := (hc g List.mem_cons_self hg).agree lib hl.alike n k m p v v' m2 p2
        ⟨rfl, rfl⟩ hv hv'
      change Level ok s t (i+1) (m2.world.setCell s (.glob i) v) (p2.world.setCell t (.glob i) v)
      rw [hw, hu]
      exact hl.set v

/-- The world with the globals of a script void, as a reset starts. -/
def World.voidGlobals (w : World F) (s : ℕ) : World F :=
  w.modScript s fun t => { t with globals := t.globals.map fun _ => .void }

/-- The script at the end of a reset or a start, from the script that the loop left. -/
theorem script_entered (hs : s < w.scripts.length) (f : Script F → Script F) :
    ((w.modScript s f).pushEvent s (lit "state_entry") []).script s =
      (f (w.script s)).push ⟨lit "state_entry", []⟩ none := by
  have hs' : s < (w.modScript s f).scripts.length := by
    rw [World.modScript_length]
    exact hs
  rw [World.pushEvent, World.pushDue, World.modScript_script _ s _ hs',
    World.modScript_script w s f hs]

/-- What a reset leaves: the globals of its loop, the first default state and one event. -/
theorem llResetScript_ok {lib : Lib F} {n : ℕ} {m m' : Machine F} {v : SValue F}
    (hs : s < m.world.scripts.length)
    (hc : ∀ g ∈ (m.world.script s).prog.globals, ¬ g.init.isNull → Constant ok g.init)
    (h : llResetScript (interp lib s n) s m = (.ok v, m')) :
    ∃ m1, globalsLoop (interp lib s n) s (fun _ => none) (m.world.script s).prog.globals.zipIdx
        { m with world := m.world.voidGlobals s } = (.ok (), m1) ∧
      (m'.world.script s).globals = (m1.world.script s).globals ∧
      (m'.world.script s).curState = (match (m.world.script s).prog.defaultState with
        | some i => some i
        | none => (m.world.script s).curState) ∧
      (m'.world.script s).evq = [⟨lit "state_entry", []⟩] := by
  have hvoid := World.modScript_script m.world s
    (fun t => { t with globals := t.globals.map fun _ => .void }) hs
  have hp : ((m.world.voidGlobals s).script s).prog = (m.world.script s).prog := by
    rw [World.voidGlobals, hvoid]
  have hcur : ((m.world.voidGlobals s).script s).curState = (m.world.script s).curState := by
    rw [World.voidGlobals, hvoid]
  have hs' : s < (m.world.voidGlobals s).scripts.length := by
    rw [World.voidGlobals, World.modScript_length]
    exact hs
  obtain ⟨_, ma, ha, h⟩ := Run.of_bind_ok h
  cases ha
  obtain ⟨p, mb, hb, h⟩ := Run.of_bind_ok h
  cases hb
  obtain ⟨_, m1, hloop, h⟩ := Run.of_bind_ok h
  cases h
  rw [resetGlobals_eq] at hloop
  change globalsLoop _ s _ ((m.world.voidGlobals s).script s).prog.globals.zipIdx _ = _ at hloop
  rw [hp] at hloop
  have honly := globalsLoop_only hc (m := { m with world := m.world.voidGlobals s }) hs' hloop
  have hentered := script_entered (honly.count.symm ▸ hs') fun t => { t.flush .reset with
    curState := match ((m.world.voidGlobals s).script s).prog.defaultState with
      | some i => some i
      | none => t.curState }
  refine ⟨m1, hloop, ?_, ?_, ?_⟩
  · have hg := congrArg Script.globals hentered
    exact hg
  · have hst := congrArg Script.curState hentered
    refine hst.trans ?_
    change (match ((m.world.voidGlobals s).script s).prog.defaultState with
      | some i => some i
      | none => (m1.world.script s).curState) = _
    rw [hp, honly.curState, hcur]
  · have hq := congrArg Script.evq hentered
    exact hq

/-- What the start of a script leaves. -/
theorem initScript_ok {lib : Lib F} {n : ℕ} {m m' : Machine F}
    (hs : s < m.world.scripts.length)
    (hc : ∀ g ∈ (m.world.script s).prog.globals, ¬ g.init.isNull → Constant ok g.init)
    (hfresh : Conf.Unstarted (m.world.script s))
    (h : initScript lib s n m = (.ok (), m')) :
    ∃ m1, globalsLoop (interp lib s n) s (fun g => some (svZero g.type))
        (m.world.script s).prog.globals.zipIdx m = (.ok (), m1) ∧
      (m'.world.script s).globals = (m1.world.script s).globals ∧
      (m'.world.script s).curState = startState (m.world.script s).prog none ∧
      (m'.world.script s).evq = [⟨lit "state_entry", []⟩] := by
  obtain ⟨p, mb, hb, h⟩ := Run.of_bind_ok h
  cases hb
  obtain ⟨_, m1, hloop, h⟩ := Run.of_bind_ok h
  cases h
  rw [initGlobals_eq] at hloop
  have honly := globalsLoop_only hc hs hloop
  have hentered := script_entered (honly.count.symm ▸ hs) fun t : Script F => { t with
    curState := startState t.prog t.curState }
  refine ⟨m1, hloop, ?_, ?_, ?_⟩
  · have hg := congrArg Script.globals hentered
    exact hg
  · have hst := congrArg Script.curState hentered
    refine hst.trans ?_
    change startState (m1.world.script s).prog (m1.world.script s).curState = _
    rw [honly.prog, honly.curState, hfresh.curState]
  · have hq := congrArg Script.evq hentered
    refine hq.trans ?_
    change (m1.world.script s).evq ++ [_] = _
    rw [honly.evq, hfresh.evq, List.nil_append]

/-- A script that is reset is like a loaded copy of its program that has just been started, exactly
if no global without initialiser has a zero value and the reset finds the state that the copy
starts in. Initialisers are constants here, and no local hides a name in them. -/
theorem reset_fresh_iff (lib : Lib F) (s t n k : ℕ) (m m' p p' : Machine F) (v : SValue F)
    (hs : s < m.world.scripts.length)
    (hcells : (m.world.script s).globals.length = (m.world.script s).prog.globals.length)
    (hconst : ∀ g ∈ (m.world.script s).prog.globals, ¬ g.init.isNull →
      Constant m.world.Unbound g.init)
    (hreset : llResetScript (interp lib s n) s m = (.ok v, m'))
    (ht : t < p.world.scripts.length) (hframes : p.world.frames = [])
    (hfresh : Conf.Unstarted (p.world.script t))
    (hcopy : (p.world.script t).prog = (m.world.script s).prog)
    (hinit : initScript lib t k p = (.ok (), p')) :
    SameStart (m'.world.script s) (p'.world.script t) ↔ (m.world.script s).ResetsFresh := by
  have hvoid := World.modScript_script m.world s
    (fun t => { t with globals := t.globals.map fun _ => .void }) hs
  have hs' : s < (m.world.voidGlobals s).scripts.length := by
    rw [World.voidGlobals, World.modScript_length]
    exact hs
  obtain ⟨m1, hm1, hmg, hmc, hmq⟩ := llResetScript_ok hs hconst hreset
  obtain ⟨p1, hp1, hpg, hpc, hpq⟩ := initScript_ok ht (hcopy ▸ hconst) hfresh hinit
  rw [hcopy] at hp1 hpc
  have hblank : ((m.world.voidGlobals s).script s).globals =
      (m.world.script s).prog.globals.map fun _ => .void := by
    rw [World.voidGlobals, hvoid, List.map_const', List.map_const', hcells]
  have hstate : (m'.world.script s).curState = (p'.world.script t).curState ↔
      ((m.world.script s).prog.defaultState.isSome ∨
        (m.world.script s).curState = startState (m.world.script s).prog none) := by
    rw [hmc, hpc]
    rcases hd : (m.world.script s).prog.defaultState with _ | i
    · simp
    · simp [startState, hd]
  constructor
  · intro h
    refine ⟨?_, hstate.mp h.curState⟩
    intro g hg hnull
    obtain ⟨j, hj⟩ := List.mem_iff_getElem?.mp hg
    -- the cell of this global, void after the reset and zero after the start
    have hl := globalsLoop_null hconst (m := { m with world := m.world.voidGlobals s }) hs' hm1
      hj hnull
    have hr := globalsLoop_null hconst ht hp1 hj hnull
    have heq : (m1.world.script s).globals = (p1.world.script t).globals := by
      rw [← hmg, ← hpg, h.globals]
    rw [heq, hr, hblank, hfresh.globals, hcopy, Nat.zero_add, List.getElem?_map, hj] at hl
    exact Option.some.inj hl
  · intro h
    refine ⟨?_, hstate.mpr h.2, hmq.trans hpq.symm⟩
    rw [hmg, hpg]
    refine globalsLoop_alike hconst h.1 (m := { m with world := m.world.voidGlobals s }) ?_ hm1 hp1
    refine ⟨hs', ht, ?_, ?_, ?_, ?_, ?_⟩
    · rw [World.voidGlobals, hvoid, hcopy]
    · rw [hblank, hfresh.globals, hcopy]
    · exact fun idx hidx => hidx
    · intro idx _
      rw [World.Unbound, World.frame, hframes]
      rfl
    · intro j x _ hx
      rw [hfresh.globals, List.getElem?_map] at hx
      obtain ⟨-, -, rfl⟩ := Option.map_eq_some_iff.mp hx
      rfl

/-- A program with one integer and a handler that resets it. -/
def resetProgram (init : Expr) : Program :=
  { strings := [lit "default", lit "state_entry", lit "llResetScript", lit "x"],
    globals := [⟨SV.integer, 3, init⟩], funcs := [],
    states := [⟨0, 1, 1, [⟨1, 2, [], .block 2 [callInts 2 []]⟩]⟩], flags := 0 }

def resetRun (init : Expr) (k : ℕ) : Conf ℚ := (regionOf [resetProgram init] []).after noLib 9 k

/-- The script while its handler runs. -/
def resetWhileRunning (init : Expr) : Machine ℚ :=
  { (resetRun init 3).machine with world := (resetRun init 3).world.framePush [] }

theorem reset_fresh_five :
    SameStart ((llResetScript (interp noLib 0 9) 0
        (resetWhileRunning (.intLit SV.integer 0 5))).2.world.script 0)
      ((initScript noLib 0 9 (resetRun (.intLit SV.integer 0 5) 0).machine).2.world.script 0) := by
  refine (reset_fresh_iff noLib 0 0 9 9 (resetWhileRunning (.intLit SV.integer 0 5)) _
    (resetRun (.intLit SV.integer 0 5) 0).machine _ .void (by decide +kernel) (by decide +kernel)
    ?_ (Prod.ext rfl rfl) (by decide +kernel) rfl ?_ rfl (Prod.ext rfl rfl)).mpr ⟨?_, ?_⟩
  · intro g hg _
    obtain rfl := List.mem_singleton.mp hg
    exact .intLit
  · exact ⟨rfl, rfl, rfl, rfl, rfl, rfl, rfl⟩
  · intro g hg hnull
    obtain rfl := List.mem_singleton.mp hg
    exact absurd hnull (by decide)
  · exact Or.inl (by decide +kernel)

/-- The return of a builtin. -/
def Mark.isBuiltin (s : ℕ) (name : Bytes) : Mark F → Bool
  | .builtin i b _ => i = s && b = name
  | _ => false

/-- The moment when the reset returns to the handler. -/
def afterReset : Mark ℚ × World ℚ := (resetRun .null 5).machine.log.get ⟨1, by decide +kernel⟩

/-- An integer without initialiser is void after a reset and 0 after a start. -/
theorem reset_leaves_void : Conf.IsRun noLib (resetRun .null) 5 ∧
    ∃ x ∈ (resetRun .null 5).machine.log, x.1.isBuiltin 0 (lit "llResetScript") ∧
      ¬ SameStart (x.2.script 0) ((resetRun .null 2).script 0) := by
  refine ⟨Conf.isRun_after (start_regionOf _ _) (by decide +kernel), ?_⟩
  refine ⟨afterReset, List.get_mem _ _, by decide +kernel, ?_⟩
  intro h
  have htags : (afterReset.2.script 0).globals.map SValue.tag ≠
      ((resetRun .null 2).script 0).globals.map SValue.tag := by decide +kernel
  exact htags (congrArg (List.map SValue.tag) h.globals)

end Slemu
