import Slemu.StateRequests
import Slemu.Frames

/-! What still runs in a handler after a `state` statement has taken effect. -/

namespace Slemu
variable {F : Type} [CDouble F]

/-! ### Statements after a change of state -/

/-- Each note and the notes before it are in the relation `Q`. -/
def NotedAs (Q : Mark F × World F → Notes F → Prop) : Notes F → Prop
  | [] => True
  | x :: older => Q x older ∧ NotedAs Q older

/-- A `state` statement of script `s` begins, and names one of its states. -/
def Turns (s : ℕ) (x : Mark F × World F) : Prop :=
  ∃ line idx, x.1 = .exec s (.stateChg line idx) ∧
    (x.2.script s).prog.stateNamed ((x.2.script s).prog.str idx) ≠ none

/-- A `state` statement of script `s` has taken effect. -/
def Turned (s : ℕ) (notes : Notes F) : Prop := ∃ x ∈ notes, Turns s x

/-- No statement of script `s` begins after a `state` statement has taken effect. -/
def NothingAfter (s : ℕ) : Notes F → Prop :=
  NotedAs fun x older => ∀ st, x.1 = .exec s st → st ≠ .null → ¬ Turned s older

/-- The branches of an `if`, and the body of a loop. -/
def Stmt.controlled : Stmt → List Stmt
  | .if_ _ _ then_ else_ => [then_, else_]
  | .while_ _ _ body | .do_ _ body _ | .for_ _ _ _ _ body => [body]
  | _ => []

/-- A statement that is not begun by the loop of a block, which tests `pending_state`: a branch of
an `if` or the body of a loop, or the body of a function of the program `p`. -/
def Untested (p : Program) (s : ℕ) (st : Stmt) (older : Notes F) : Prop :=
  (∃ y ∈ older, ∃ q, y.1 = .exec s q ∧ st ∈ q.controlled) ∨ ∃ fd ∈ p.funcs, st = fd.body

/-- When a branch of an `if`, the body of a loop or the body of a function begins, no `state`
statement has taken effect. -/
def EntersBefore (p : Program) (s : ℕ) : Notes F → Prop :=
  NotedAs fun x older => ∀ st, x.1 = .exec s st → st ≠ .null → Untested p s st older →
    ¬ Turned s older

theorem EntersBefore.of_nothingAfter {p : Program} {s : ℕ} {notes : Notes F}
    (h : NothingAfter s notes) : EntersBefore p s notes := by
  induction notes with
  | nil => trivial
  | cons x older ih => exact ⟨fun st hx hne _ => h.1 st hx hne, ih h.2⟩

/-! ### What holds while a handler runs -/

/-- The machine `m` in a handler of script `s`, which has the program `p`, that began with the notes
`base`: a change that has been made is pending, the statements `begun` have begun, and nothing has
begun after a change unless a branch or body did. -/
structure Watched (p : Program) (s : ℕ) (base : Notes F) (begun : List Stmt) (m : Machine F) :
    Prop where
  prog : (m.world.script s).prog = p
  noted : ∃ notes, m.log = notes ++ base ∧ (Turned s notes → m.world.changing s) ∧
    (∀ q ∈ begun, ∃ y ∈ notes, y.1 = .exec s q) ∧ (EntersBefore p s notes → NothingAfter s notes)

/-- No change has been made yet, unless a branch or body began after one. -/
def BeforeChange (p : Program) (s : ℕ) (base : Notes F) (m : Machine F) : Prop :=
  ∀ notes, m.log = notes ++ base → EntersBefore p s notes → ¬ Turned s notes

/-- A branch or body of one of the statements `begun`, or the body of a function. -/
def Stmt.Inside (p : Program) (begun : List Stmt) (st : Stmt) : Prop :=
  (∃ q ∈ begun, st ∈ q.controlled) ∨ ∃ fd ∈ p.funcs, st = fd.body

namespace Watched
variable {p : Program} {s : ℕ} {base : Notes F} {begun inner : List Stmt} {m m' : Machine F}

theorem calm (h : Watched p s base begun m) (hc : m.world.changing s = false) :
    BeforeChange p s base m := by
  intro notes hl _ ht
  obtain ⟨notes', hl', hturn, -, -⟩ := h.noted
  obtain rfl : notes = notes' := List.append_cancel_right (hl.symm.trans hl')
  rw [hturn ht] at hc
  cases hc

theorem fewer (h : Watched p s base begun m) (hsub : ∀ q ∈ inner, q ∈ begun) :
    Watched p s base inner m := by
  obtain ⟨notes, hl, hturn, hopen, hsilent⟩ := h.noted
  exact ⟨h.prog, notes, hl, hturn, fun q hq => hopen q (hsub q hq), hsilent⟩

/-- A step that notes nothing and keeps a pending change. -/
theorem step (h : Watched p s base begun m) (hl : m'.log = m.log)
    (hp : (m'.world.script s).prog = (m.world.script s).prog)
    (hc : m.world.changing s → m'.world.changing s) : Watched p s base begun m' := by
  obtain ⟨notes, hl', hturn, hopen, hsilent⟩ := h.noted
  exact ⟨hp.trans h.prog, notes, hl.trans hl', fun ht => hc (hturn ht), hopen, hsilent⟩

/-- A note. A statement may begin before a change, or as a branch or body. -/
theorem note {k : Mark F} (h : Watched p s base begun m) (hl : m'.log = (k, m.world) :: m.log)
    (hp : (m'.world.script s).prog = (m.world.script s).prog)
    (hc : m.world.changing s → m'.world.changing s)
    (hturns : Turns s (k, m.world) → m'.world.changing s)
    (hbegin : ∀ st, k = .exec s st → st ≠ .null → BeforeChange p s base m ∨ st.Inside p begun)
    (hinner : ∀ q ∈ inner, q ∈ begun ∨ k = .exec s q) : Watched p s base inner m' := by
  obtain ⟨notes, hl', hturn, hopen, hsilent⟩ := h.noted
  refine ⟨hp.trans h.prog, (k, m.world) :: notes, by rw [hl, hl', List.cons_append], ?_, ?_, ?_⟩
  · rintro ⟨x, hx, ht⟩
    rcases List.mem_cons.mp hx with rfl | hx
    · exact hturns ht
    · exact hc (hturn ⟨x, hx, ht⟩)
  · intro q hq
    rcases hinner q hq with hq | rfl
    · obtain ⟨y, hy, hyq⟩ := hopen q hq
      exact ⟨y, List.mem_cons_of_mem _ hy, hyq⟩
    · exact ⟨_, List.mem_cons_self, rfl⟩
  · intro hent
    refine ⟨fun st hk hne => ?_, hsilent hent.2⟩
    rcases hbegin st hk hne with hcalm | hin
    · exact hcalm notes hl' hent.2
    · refine hent.1 st hk hne ?_
      -- a branch or body of a statement that has begun
      rcases hin with ⟨q, hq, hst⟩ | hfd
      · obtain ⟨y, hy, hyq⟩ := hopen q hq
        exact Or.inl ⟨y, hy, q, hyq, hst⟩
      · exact Or.inr hfd

end Watched

/-! ### The interpreter -/

/-- The program keeps what holds while a handler runs. -/
abbrev Watches (p : Program) (s : ℕ) (base : Notes F) (begun : List Stmt) {α : Type} (m : VM F α) :
    Prop :=
  Run.Keeps (fun t t' => Watched p s base begun t → Watched p s base begun t') m

namespace Watches
variable {p : Program} {s : ℕ} {base : Notes F} {begun : List Stmt} {α : Type}

theorem pure (a : α) : Watches p s base begun (Pure.pure a : VM F α) := fun _ h => h

theorem bind {β : Type} {m : VM F α} {f : α → VM F β} (hm : Watches p s base begun m)
    (hf : ∀ a, Watches p s base begun (f a)) : Watches p s base begun (m >>= f) :=
  Run.Keeps.bind (fun _ _ _ h h' hw => h' (h hw)) hm hf

theorem get (f : World F → α) : Watches p s base begun (VM.get f) := fun _ h => h

/-- A change of the world that leaves the program and a pending change alone. -/
theorem set {f : World F → World F}
    (hp : ∀ w, ((f w).script s).prog = (w.script s).prog)
    (hc : ∀ w, ((f w).script s).pendingState = (w.script s).pendingState) :
    Watches p s base begun (VM.set f) :=
  .update fun m h => h.step rfl (hp m.world) fun hch => by
    rw [World.changing] at hch ⊢
    change ((f m.world).script s).pendingState.isSome = true
    rwa [hc]

theorem modScript {f : Script F → Script F} (hp : ∀ t, (f t).prog = t.prog)
    (hc : ∀ t, (f t).pendingState = t.pendingState) :
    Watches p s base begun (VM.set fun w => w.modScript s f) := by
  refine set (fun w => ?_) fun w => ?_
  · rw [script_modScript]
    split
    · exact hp _
    · rfl
  · rw [script_modScript]
    split
    · exact hc _
    · rfl

theorem call {f : World F → α × World F}
    (hp : ∀ w, ((f w).2.script s).prog = (w.script s).prog)
    (hc : ∀ w, ((f w).2.script s).pendingState = (w.script s).pendingState) :
    Watches p s base begun (VM.call f) :=
  .act fun m h => h.step rfl (hp m.world) fun hch => by
    rw [World.changing] at hch ⊢
    change ((f m.world).2.script s).pendingState.isSome = true
    rwa [hc]

/-- Any note but the beginning of a statement. -/
theorem mark (k : Mark F) (hk : k.isExec = false) : Watches p s base begun (VM.mark k) := by
  refine .update fun m h => h.note (k := k) rfl rfl id ?_ ?_ fun q hq => Or.inl hq
  · rintro ⟨line, idx, rfl, -⟩
    cases hk
  · rintro st rfl
    cases hk

theorem steps (p : Program) (s : ℕ) (base : Notes F) (begun : List Stmt) :
    Steps s (fun {α} (m _ : VM F α) => Watches p s base begun m) where
  pure a := pure a
  fail _ := fun _ h => h
  bind hm hf := bind hm hf
  get _ := get _
  mark k hk := mark k hk
  setCell c v := by
    cases c with
    | loc k => exact set (fun _ => rfl) fun _ => rfl
    | glob i => exact modScript (fun _ => rfl) fun _ => rfl
  flags _ := set (fun _ => rfl) fun _ => rfl

theorem evalAll {eval : Expr → VM F (SValue F)} (h : ∀ e, Watches p s base begun (eval e))
    (es : List Expr) : Watches p s base begun (evalAll eval es) :=
  (steps p s base begun).evalAll (g := eval) h es

end Watches

/-- Recursive calls keep what holds while a handler runs; a statement may begin before a change, or
as a branch or body. -/
structure Interp.Watches (p : Program) (s : ℕ) (base : Notes F) (r : Interp F) : Prop where
  eval (begun : List Stmt) (e : Expr) : Slemu.Watches p s base begun (r.eval e)
  exec (begun : List Stmt) (st : Stmt) (m : Machine F) : Watched p s base begun m →
    BeforeChange p s base m ∨ st.Inside p begun ∨ st = .null → Watched p s base begun (r.exec st m).2
  block (begun : List Stmt) (all rest : List Stmt) (m : Machine F) : Watched p s base begun m →
    BeforeChange p s base m → Watched p s base begun (r.block all rest m).2

namespace Interp.Watches
variable {p : Program} {s : ℕ} {base : Notes F} {begun : List Stmt} {r : Interp F} {lib : Lib F}

theorem evals (hr : r.Watches p s base) (begun : List Stmt) :
    r.Evals (fun {α} (m _ : VM F α) => Slemu.Watches p s base begun m) r := ⟨hr.eval begun⟩

/-- A call of a function of the program. -/
theorem runUserFunc (hr : r.Watches p s base) {fd : FuncDecl} (hfd : fd ∈ p.funcs)
    (args : List Expr) : Slemu.Watches p s base begun (runUserFunc r s fd args) := by
  rw [runUserFunc_eq]
  refine .bind (.evalAll (hr.eval begun) _) fun vs => ?_
  refine .bind (.set (fun _ => rfl) fun _ => rfl) fun _ => .bind (fun m h => ?_) fun _ => ?_
  · exact hr.exec begun fd.body m h (.inr (.inl (.inr ⟨fd, hfd, rfl⟩)))
  · refine .bind (.get _) fun _ => .bind (.get _) fun _ => ?_
    exact .bind (.set (fun _ => rfl) fun _ => rfl) fun _ => .bind (.mark _ rfl) fun _ => .pure _

theorem callBuiltin (hr : r.Watches p s base) (name : Bytes) (args : List (SValue F)) :
    Slemu.Watches p s base begun (callBuiltin lib r s name args) := by
  refine (Watches.steps p s base begun).callBuiltin (hr.evals begun)
    (.modScript (fun _ => rfl) fun _ => rfl) (fun _ => .modScript (fun _ => rfl) fun _ => rfl)
    (.modScript (fun _ => rfl) fun _ => rfl) (fun name f args hf => ?_) name args
  exact .call (fun w => (Act.of_lookup hf w s args).elsewhere.prog) fun w =>
    (BuiltinAct.of_lookup hf w s args).pendingState s

theorem evalCall (hr : r.Watches p s base) (name : Int32) (args : List Expr) :
    Slemu.Watches p s base begun (evalCall lib r s name args) := by
  intro m h
  -- the program that the call looks its function up in is `p`
  have hget : (VM.get fun w => (w.script s).prog) m = (.ok p, m) := by
    rw [← h.prog]
    rfl
  rw [Slemu.evalCall, Run.bind_ok hget]
  split
  · rename_i fd hfind
    exact hr.runUserFunc (List.mem_of_find?_eq_some hfind) args m h
  · refine Watches.bind (.evalAll (hr.eval begun) args) (fun vs => ?_) m h
    exact .bind (hr.callBuiltin _ vs) fun _ => .bind (.mark _ rfl) fun _ => .pure _

theorem evalExpr (hr : r.Watches p s base) (e : Expr) :
    Slemu.Watches p s base begun (evalExpr lib r s e) := by
  have hcall (name : Int32) (args : List Expr) :
      Slemu.Watches p s base begun (Slemu.evalCall lib r s name args) := hr.evalCall name args
  exact .bind ((Watches.steps p s base begun).evalNode (hr.evals begun) hcall e)
    fun _ => .bind (.mark _ rfl) fun _ => .pure _

/-- All statements but blocks and `state`, once they have begun. -/
theorem execNode (hr : r.Watches p s base) {st : Stmt} (hst : st.isStateChg = false)
    (hblock : ∀ line stmts, st ≠ .block line stmts) :
    Slemu.Watches p s base (st :: begun) (execNode r s st) := by
  have hs := Watches.steps p s base (st :: begun)
  have hev := hr.evals (st :: begun)
  have hin (b : Stmt) (hb : b ∈ st.controlled) :
      Slemu.Watches p s base (st :: begun) (r.exec b) :=
    fun m h => hr.exec _ b m h (.inr (.inl (.inl ⟨st, List.mem_cons_self, hb⟩)))
  cases st with
  | null => exact .pure ()
  | empty => exact .pure ()
  | label => exact .pure ()
  | expr line e => exact .bind (hr.eval _ e) fun _ => .pure ()
  | decl line t idx init =>
    exact .bind (hr.eval _ init) fun _ => .set (fun _ => rfl) fun _ => rfl
  | block line stmts => exact absurd rfl (hblock line stmts)
  | if_ line cond then_ else_ =>
    refine .bind (hr.eval _ cond) fun c => ?_
    split
    · exact hin then_ List.mem_cons_self
    · exact hin else_ (List.mem_cons_of_mem _ List.mem_cons_self)
  | while_ line cond body => exact hs.whileLoop hev (hin body List.mem_cons_self) cond safety
  | do_ line body cond => exact hs.doLoop hev (hin body List.mem_cons_self) cond safety
  | for_ line init cond post body =>
    refine .bind (.set (fun _ => rfl) fun _ => rfl) fun _ => ?_
    refine .bind (.evalAll (hr.eval _) init) fun _ => ?_
    refine .bind (hs.forLoop hev (hin body List.mem_cons_self) cond post safety) fun _ => ?_
    exact .set (fun _ => rfl) fun _ => rfl
  | ret line hasValue e => exact hs.ret (q := r) line hasValue (hr.eval _ e)
  | jump line idx => exact hs.flags fun _ => rfl
  | stateChg line idx => cases hst

end Interp.Watches

namespace Watched
variable {p : Program} {s : ℕ} {base : Notes F} {begun : List Stmt} {m : Machine F} {st : Stmt}

/-- When a statement begins that is no `state` statement, no change has been made unless a branch
or body began after one. -/
theorem calm_note (h : Watched p s base begun m) (hst : st.isStateChg = false) (hne : st ≠ .null)
    (hbegin : BeforeChange p s base m ∨ st.Inside p begun) :
    BeforeChange p s base { m with log := (.exec s st, m.world) :: m.log } := by
  intro notes hl hent ht
  obtain ⟨older, hl', -, hopen, -⟩ := h.noted
  have hnotes : notes = (.exec s st, m.world) :: older := by
    refine (List.append_left_inj base).mp ?_
    rw [← hl, hl', List.cons_append]
  subst hnotes
  have hold : ¬ Turned s older := by
    rcases hbegin with hcalm | ⟨q, hq, hst⟩ | hfd
    · exact hcalm older hl' hent.2
    · obtain ⟨y, hy, hyq⟩ := hopen q hq
      exact hent.1 st rfl hne (.inl ⟨y, hy, q, hyq, hst⟩)
    · exact hent.1 st rfl hne (.inr hfd)
  obtain ⟨x, hx, hturn⟩ := ht
  rcases List.mem_cons.mp hx with rfl | hx
  · obtain ⟨line, idx, heq, -⟩ := hturn
    cases heq
    cases hst
  · exact hold ⟨x, hx, hturn⟩

/-- A `state` statement: if it names a state, the change is pending from then on. -/
theorem stateChg (h : Watched p s base begun m) (r : Interp F) (line idx : Int32)
    (hbegin : BeforeChange p s base m ∨ (Stmt.stateChg line idx).Inside p begun) :
    Watched p s base begun ((VM.mark (.exec s (.stateChg line idx)) >>= fun _ =>
      execNode r s (.stateChg line idx)) m).2 := by
  have hrun : (VM.mark (.exec s (.stateChg line idx)) >>= fun _ =>
      execNode r s (.stateChg line idx)) m = execNode r s (.stateChg line idx)
        { m with log := (.exec s (.stateChg line idx), m.world) :: m.log } := rfl
  rw [hrun, execNode]
  have hget : (VM.get (fun w => (w.script s).prog) : VM F Program)
      { m with log := (.exec s (.stateChg line idx), m.world) :: m.log } =
      (.ok (m.world.script s).prog,
        { m with log := (.exec s (.stateChg line idx), m.world) :: m.log }) := rfl
  rw [Run.bind_ok hget]
  have hbegin' : ∀ st, Mark.exec (F := F) s (.stateChg line idx) = .exec s st → st ≠ .null →
      BeforeChange p s base m ∨ st.Inside p begun := by
    intro st heq _
    cases heq
    exact hbegin
  cases hname : (m.world.script s).prog.stateNamed ((m.world.script s).prog.str idx) with
  | none =>
    refine h.note rfl rfl id ?_ hbegin' fun q hq => .inl hq
    rintro ⟨line', idx', heq, hnamed⟩
    cases heq
    exact absurd hname hnamed
  | some i =>
    -- a script with a state is one of the scripts of the region
    have hs : s < m.world.scripts.length := by
      by_contra hs
      rw [script_of_length_le _ _ (not_lt.mp hs)] at hname
      cases hname
    have hset : (m.world.modScript s fun t => { t with pendingState := some i }).script s =
        { m.world.script s with pendingState := some i } := m.world.modScript_script s _ hs
    have hchanging : (m.world.modScript s fun t =>
        { t with pendingState := some i }).changing s = true := by
      rw [World.changing, hset]
      rfl
    have hprog : ((m.world.modScript s fun t => { t with pendingState := some i }).script s).prog =
        (m.world.script s).prog := by rw [hset]
    exact h.note rfl hprog (fun _ => hchanging) (fun _ => hchanging) hbegin' fun q hq => .inl hq

end Watched

namespace Interp.Watches
variable {p : Program} {s : ℕ} {base : Notes F} {begun : List Stmt} {r : Interp F} {lib : Lib F}
  {m : Machine F}

theorem execStmt (hr : r.Watches p s base) (st : Stmt) (h : Watched p s base begun m)
    (hbegin : BeforeChange p s base m ∨ st.Inside p begun ∨ st = .null) :
    Watched p s base begun (execStmt r s st m).2 := by
  by_cases hun : (m.world.returning || m.world.jumping) = true
  · have hrun : Slemu.execStmt r s st m = (if (m.world.returning || m.world.jumping) = true then pure ()
        else VM.mark (.exec s st) >>= fun _ => Slemu.execNode r s st : VM F Unit) m := rfl
    rw [hrun, if_pos hun]
    exact h
  · have hrun : Slemu.execStmt r s st m = (if (m.world.returning || m.world.jumping) = true then pure ()
        else VM.mark (.exec s st) >>= fun _ => Slemu.execNode r s st : VM F Unit) m := rfl
    rw [hrun, if_neg hun]
    by_cases hnull : st = .null
    · subst hnull
      refine h.note (k := .exec s .null) rfl rfl id ?_ (fun st heq hne => ?_) fun q hq => .inl hq
      · rintro ⟨line, idx, heq, -⟩
        cases heq
      · cases heq
        exact absurd rfl hne
    replace hbegin : BeforeChange p s base m ∨ st.Inside p begun :=
      hbegin.imp_right fun hb => hb.resolve_right hnull
    cases hst : st.isStateChg with
    | true =>
      cases st with
      | stateChg line idx => exact h.stateChg r line idx hbegin
      | _ => cases hst
    | false =>
      have hcalm := h.calm_note hst hnull hbegin
      have hnext : Watched p s base (st :: begun)
          { m with log := (.exec s st, m.world) :: m.log } := by
        refine h.note (k := .exec s st) rfl rfl id ?_ ?_ ?_
        · rintro ⟨line, idx, heq, -⟩
          cases heq
          cases hst
        · rintro st' heq -
          cases heq
          exact hbegin
        · intro q hq
          rcases List.mem_cons.mp hq with rfl | hq
          · exact .inr rfl
          · exact .inl hq
      refine Watched.fewer ?_ fun q (hq : q ∈ begun) => List.mem_cons_of_mem st hq
      by_cases hblock : ∃ line stmts, st = .block line stmts
      · obtain ⟨line, stmts, rfl⟩ := hblock
        -- entering the scope changes neither the notes nor the script
        have henter := hr.block (.block line stmts :: begun) stmts stmts
          { m with
            world := m.world.frameEnter
            log := (.exec s (.block line stmts), m.world) :: m.log } (hnext.step rfl rfl id) hcalm
        have hrun : (VM.mark (.exec s (.block line stmts)) >>= fun _ =>
            Slemu.execNode r s (.block line stmts)) m = (r.block stmts stmts >>= fun _ =>
              VM.set World.frameLeave) { m with
                world := m.world.frameEnter
                log := (.exec s (.block line stmts), m.world) :: m.log } := rfl
        rw [hrun]
        exact Run.bind_after henter fun _ t ht => ht.step rfl rfl id
      · exact hr.execNode hst (fun line stmts heq => hblock ⟨line, stmts, heq⟩) _ hnext

theorem blockFrom (hr : r.Watches p s base) (all rest : List Stmt) (h : Watched p s base begun m)
    (hcalm : BeforeChange p s base m) : Watched p s base begun (blockFrom r s all rest m).2 := by
  cases rest with
  | nil => exact h
  | cons st rest =>
    refine Run.bind_after (hr.exec begun st m h (.inl hcalm)) fun _ t ht => ?_
    unfold blockNext
    have hreturning : (VM.get World.returning : VM F Bool) t = (.ok t.world.returning, t) := rfl
    have hchanging : (VM.get fun w => w.changing s : VM F Bool) t =
      (.ok (t.world.changing s), t) := rfl
    have hjumping : (VM.get World.jumping : VM F Bool) t = (.ok t.world.jumping, t) := rfl
    rw [Run.bind_ok hreturning]
    split
    · exact ht
    rw [Run.bind_ok hchanging]
    split
    · exact ht
    rename_i hc
    -- the block goes on only if no change is pending
    have hcalm' := ht.calm (Bool.eq_false_iff.mpr hc)
    rw [Run.bind_ok hjumping]
    split
    · have hidx : (VM.get fun w => (w.frame.map Frame.jumpNameIdx).getD 0 : VM F Int32) t =
        (.ok ((t.world.frame.map Frame.jumpNameIdx).getD 0), t) := rfl
      rw [Run.bind_ok hidx]
      split
      · exact hr.block begun all _ _ (ht.step rfl rfl id) hcalm'
      · exact ht
    · exact hr.block begun all rest t ht hcalm'

end Interp.Watches

theorem interp_watches (lib : Lib F) (p : Program) (s : ℕ) (base : Notes F) (n : ℕ) :
    (interp lib s n).Watches p s base := by
  induction n with
  | zero => exact ⟨fun _ _ _ h => h, fun _ _ _ h _ => h, fun _ _ _ _ h _ => h⟩
  | succ n ih =>
    exact ⟨fun _ e => ih.evalExpr e, fun _ st _ h hbegin => ih.execStmt st h hbegin,
      fun _ all rest _ h hcalm => ih.blockFrom all rest h hcalm⟩

/-! ### Handlers -/

/-- No statement of a handler or of the functions it calls begins after a `state` statement has
taken effect, exactly if no branch of an `if`, body of a loop or body of a function does. -/
theorem nothing_after_state_iff (lib : Lib F) (s fuel : ℕ) (ev : EventDecl)
    (args : List (SValue F)) (m : Machine F) :
    ∃ notes, (vmDispatch lib s fuel ev args m).2.log = notes ++ m.log ∧
      (NothingAfter s notes ↔ EntersBefore (m.world.script s).prog s notes) := by
  have hstart : Watched (m.world.script s).prog s m.log []
      { m with world := m.world.framePush (bindArgs ev.params args) } := by
    refine ⟨rfl, [], rfl, ?_, ?_, fun _ => trivial⟩
    · rintro ⟨x, hx, -⟩
      cases hx
    · intro q hq
      cases hq
  have hcalm : BeforeChange (m.world.script s).prog s m.log
      { m with world := m.world.framePush (bindArgs ev.params args) } := by
    rintro notes hl - ⟨x, hx, -⟩
    obtain rfl : notes = [] := (List.append_left_inj m.log).mp hl.symm
    cases hx
  have hbody := (interp_watches lib (m.world.script s).prog s m.log fuel).exec [] ev.body _ hstart
    (.inl hcalm)
  have hend : Watched (m.world.script s).prog s m.log [] (vmDispatch lib s fuel ev args m).2 := by
    have hrun : vmDispatch lib s fuel ev args m = ((interp lib s fuel).exec ev.body >>= fun _ =>
      VM.set World.framePop) { m with world := m.world.framePush (bindArgs ev.params args) } := rfl
    rw [hrun]
    exact Run.bind_after hbody fun _ t ht => ht.step rfl rfl id
  obtain ⟨notes, hl, -, -, hsilent⟩ := hend.noted
  exact ⟨notes, hl, fun h => .of_nothingAfter h, hsilent⟩

/-- `integer f() { state default; return 1; }` -/
def changeFunc : FuncDecl :=
  ⟨5, 1, SV.integer, 1, [], .block 2 [.stateChg 3 0, .ret 4 1 (.intLit SV.integer 0 1)]⟩

/-- A program with a global `x` and this function. -/
def changeProgram : Program :=
  { handlersProgram [] with globals := [⟨SV.integer, 6, .null⟩], funcs := [changeFunc] }

/-- `state_entry() { if (f()) ; else x = 1; }` -/
def changeHandler : EventDecl :=
  ⟨1, 6, [], .block 6 [.if_ 7 (.call SV.integer 0 5 []) (.empty 7)
    (.expr 8 (.assign SV.integer 0 Op.assign (.ident SV.integer 1 6) (.intLit SV.integer 0 1)))]⟩

/-- The handler sets `x` after its function has changed the state. -/
theorem assignment_after_state :
    let m := (regionOf [changeProgram] []).machine
    let run := vmDispatch noLib 0 30 changeHandler [] m
    run.1 = .ok () ∧ run.2.world.cellVal 0 (.glob 0) = .int 1 ∧
      ∃ notes, run.2.log = notes ++ m.log ∧ ¬ NothingAfter 0 notes := by
  intro m run
  refine ⟨rfl, rfl, run.2.log, (List.append_nil _).symm, fun h => ?_⟩
  -- newest first: the values of 1, of the assignment and of the call, then the marks before them
  have hexpr := h.2.2.1
  refine hexpr _ rfl (fun h => by cases h) ⟨_, List.mem_cons_of_mem _ (List.mem_cons_of_mem _
    List.mem_cons_self), 3, 0, rfl, ?_⟩
  exact Option.some_ne_none 0

end Slemu
