import Slemu.Effects
import Slemu.InterpRules

/-! What running a script amounts to: a sequence of acts of that script, which leave the other
scripts alone but for events at the end of their queues. -/

namespace Slemu
variable {F : Type} [CDouble F]

/-- Acts of one script, one after the other. -/
abbrev Acts (s : ℕ) : World F → World F → Prop := Relation.ReflTransGen (Act s)

/-- Every script but `s` is as it was, but for appended events; `s` has its program, and neither
the time shown nor the commands have moved. -/
structure Elsewhere (s : ℕ) (w w' : World F) : Prop where
  count : w'.scripts.length = w.scripts.length
  prog : (w'.script s).prog = (w.script s).prog
  other (i : ℕ) (hi : i ≠ s) : Grown (w.script i) (w'.script i)
  now : w'.virtualNow = w.virtualNow
  lines : w'.commandLines = w.commandLines
  next : w'.nextCommand = w.nextCommand
  avatars : Entered w.avatars w'.avatars

namespace Elsewhere
variable {s : ℕ} {u v w : World F}

theorem refl (w : World F) : Elsewhere s w w :=
  ⟨rfl, rfl, fun _ _ => Grown.refl _, rfl, rfl, rfl, Entered.refl _⟩

theorem trans (h : Elsewhere s u v) (h' : Elsewhere s v w) : Elsewhere s u w :=
  ⟨h'.count.trans h.count, h'.prog.trans h.prog, fun i hi => (h.other i hi).trans (h'.other i hi),
    h'.now.trans h.now, h'.lines.trans h.lines, h'.next.trans h.next, h.avatars.trans h'.avatars⟩

theorem modScript (w : World F) (s : ℕ) {f : Script F → Script F}
    (hf : ∀ t, (f t).prog = t.prog) : Elsewhere s w (w.modScript s f) := by
  refine ⟨World.modScript_length w s f, ?_, fun i hi => ?_, rfl, rfl, rfl, Entered.refl _⟩
  · rw [script_modScript]
    split
    · exact hf _
    · rfl
  · rw [World.modScript_script_ne w s i f hi]
    exact Grown.refl _

end Elsewhere

theorem AllGrown.elsewhere {w w' : World F} (h : AllGrown w w') (s : ℕ) : Elsewhere s w w' := by
  have hc := h.clock
  simp only [World.clock, Prod.mk.injEq] at hc
  exact ⟨h.count, (h.script s).prog, fun i _ => h.script i, hc.1, hc.2.2.2.1, hc.2.2.2.2,
    h.avatars⟩

theorem Act.elsewhere {s : ℕ} {w w' : World F} (h : Act s w w') : Elsewhere s w w' := by
  cases h with
  | grown h => exact h.elsewhere s
  | sleep f => exact ⟨rfl, rfl, fun _ _ => Grown.refl _, rfl, rfl, rfl, Entered.refl _⟩
  | setTimer f => exact .modScript w s fun _ => rfl
  | die => exact .modScript w s fun _ => rfl
  | globals g => exact .modScript w s fun _ => rfl
  | pending i => exact .modScript w s fun _ => rfl
  | reset st => exact .modScript w s fun _ => rfl

/-- What holds of every act, and of one after the other, holds of a run of acts. -/
theorem Acts.induct {s : ℕ} {R : World F → World F → Prop} (hr : ∀ w, R w w)
    (ht : ∀ u v w, R u v → R v w → R u w) (ha : ∀ w w', Act s w w' → R w w') {w w' : World F}
    (h : Acts s w w') : R w w' := by
  induction h with
  | refl => exact hr w
  | tail _ hvw ih => exact ht _ _ _ ih (ha _ _ hvw)

theorem Acts.elsewhere {s : ℕ} {w w' : World F} (h : Acts s w w') : Elsewhere s w w' :=
  h.induct Elsewhere.refl (fun _ _ _ => Elsewhere.trans) fun _ _ => Act.elsewhere

theorem Acts.of_core {s : ℕ} {w w' : World F} (h : w'.core = w.core) : Acts s w w' :=
  .single (.grown (.of_core h))

theorem Acts.setCell {s : ℕ} (w : World F) (c : Cell) (v : SValue F) :
    Acts s w (w.setCell s c v) := by
  cases c with
  | loc k => exact of_core rfl
  | glob i => exact .single (.globals w fun g => g.set i v)

theorem Acts.pushEntry {s : ℕ} (w : World F) (i : ℕ) :
    Acts s w (w.pushEvent i (lit "state_entry") []) :=
  .single (.grown (AllGrown.pushEvent w i (by decide) []))

/-! ### The interpreter -/

/-- The program takes the world along `R` only, however it ends. -/
abbrev Respects {α : Type} (R : World F → World F → Prop) (m : VM F α) : Prop :=
  Run.Keeps (fun a b : Machine F => R a.world b.world) m

instance (s : ℕ) : IsPreorder (World F) (Acts s) where
  refl _ := .refl
  trans _ _ _ := .trans

instance : IsPreorder (World F) AllGrown where
  refl := AllGrown.refl
  trans _ _ _ := AllGrown.trans

namespace Respects
variable {R : World F → World F → Prop} [IsPreorder (World F) R] {s : ℕ} {α β : Type}

omit [CDouble F]

theorem pure (a : α) : Respects R (pure a : VM F α) :=
  Run.Keeps.pure (fun m => refl_of R m.world) a

theorem fail (e : Stop) : Respects R (Run.fail e : VM F α) :=
  Run.Keeps.fail (fun m => refl_of R m.world) e

theorem bind {m : VM F α} {f : α → VM F β} (hm : Respects R m) (hf : ∀ a, Respects R (f a)) :
    Respects R (m >>= f) :=
  Run.Keeps.bind (fun a b c (h : R a.world b.world) (h' : R b.world c.world) =>
    trans_of R h h') hm hf

theorem get (f : World F → α) : Respects R (VM.get f) :=
  Run.Keeps.read (fun m => refl_of R m.world) _

theorem read (f : Machine F → α) : Respects R (Run.read f) :=
  Run.Keeps.read (fun m => refl_of R m.world) _

omit [IsPreorder (World F) R] in
theorem set {f : World F → World F} (hf : ∀ w, R w (f w)) : Respects R (VM.set f) :=
  Run.Keeps.update fun m => hf m.world

omit [IsPreorder (World F) R] in
theorem call {f : World F → α × World F} (hf : ∀ w, R w (f w).2) : Respects R (VM.call f) :=
  Run.Keeps.act fun m => hf m.world

theorem mark (k : Mark F) : Respects R (VM.mark k) :=
  Run.Keeps.update fun m => refl_of R m.world

theorem defined (o : Option α) : Respects R (VM.defined o : VM F α) := by
  cases o with
  | none => exact fail .fault
  | some a => exact pure a

omit [IsPreorder (World F) R] in
theorem ite {c : Prop} [Decidable c] {m m' : VM F α} (h : Respects R m)
    (h' : Respects R m') : Respects R (if c then m else m') := by
  split
  · exact h
  · exact h'

end Respects

/-- A program that consists of acts of script `s`. -/
abbrev Keeping {α : Type} (s : ℕ) (m : VM F α) : Prop := Respects (Acts s) m

/-- Recursive calls that consist of acts of script `s`. -/
structure Interp.Keeping (s : ℕ) (r : Interp F) : Prop where
  eval (e : Expr) : Slemu.Keeping s (r.eval e)
  exec (st : Stmt) : Slemu.Keeping s (r.exec st)
  block (all rest : List Stmt) : Slemu.Keeping s (r.block all rest)

/-- Programs that consist of acts of script `s`, as a relation that looks at the first only. -/
theorem keeping_closed (s : ℕ) : Closed s (fun {α} (m _ : VM F α) => Keeping s m) where
  pure a := .pure a
  fail e := .fail e
  bind hm hf := .bind hm hf
  get _ := .get _
  mark k _ := .mark k
  setCell c v := .set fun w => Acts.setCell w c v
  flags _ := .set fun _ => Acts.of_core rfl
  define _ _ _ := .set fun _ => Acts.of_core rfl
  enter := .set fun _ => Acts.of_core rfl
  leave := .set fun _ => Acts.of_core rfl

theorem keeping_handles (lib : Lib F) (s : ℕ) :
    Handles lib s (fun {α} (m _ : VM F α) => Keeping s m) where
  toClosed := keeping_closed s
  func hr fd args := (keeping_closed s).runUserFunc hr (fun _ => .set fun _ => Acts.of_core rfl)
    (.set fun _ => Acts.of_core rfl) fd args
  builtin hr name args := by
    refine (keeping_closed s).callBuiltin hr.toEvals ?_ (fun st => ?_) ?_ (fun name f args hf => ?_)
      name args
    · exact .set fun w => .single (.globals w fun g => g.map fun _ => .void)
    · exact .set fun w => .single (.reset w st)
    · exact .set fun w => Acts.pushEntry w s
    · exact .call fun w => .single (Act.of_lookup hf w s args)
  stmt {r r'} hr st hst := by
    refine .bind (.mark _) fun _ => ?_
    cases hc : st.isStateChg with
    | false => exact hst hc
    | true =>
      cases st with
      | stateChg line idx =>
        exact (keeping_closed s).stateChg r r line idx fun i =>
          .set fun w => .single (.pending w i)
      | _ => cases hc

/-- Running a script is a sequence of its acts. -/
theorem interp_keeping (lib : Lib F) (s n : ℕ) : (interp lib s n).Keeping s :=
  have h := (keeping_handles lib s).interp n
  ⟨h.eval, h.exec, h.block⟩

theorem vmDispatch_keeping (lib : Lib F) (s n : ℕ) (ev : EventDecl) (args : List (SValue F)) :
    Keeping s (vmDispatch lib s n ev args) :=
  .bind (.set fun _ => Acts.of_core rfl) fun _ =>
    .bind ((interp_keeping lib s n).exec _) fun _ => .set fun _ => Acts.of_core rfl

theorem dispatchEvent_keeping (lib : Lib F) (s n : ℕ) (ev : Event F) :
    Keeping s (dispatchEvent lib s n ev) := by
  refine .bind (.get _) fun o => ?_
  split
  · exact .pure ()
  · exact .bind (.set fun _ => Acts.of_core rfl) fun _ => vmDispatch_keeping lib s n _ _

theorem initGlobals_keeping (lib : Lib F) (s n : ℕ) (gs : List (GlobalVar × ℕ)) :
    Keeping s (initGlobals (interp lib s n) s gs) := by
  induction gs with
  | nil => exact .pure ()
  | cons gi gs ih =>
    obtain ⟨g, i⟩ := gi
    exact .bind ((keeping_closed s).initGlobal ((keeping_handles lib s).interp n).toEvals i g _) fun _ => ih

end Slemu
