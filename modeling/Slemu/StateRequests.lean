import Slemu.Death

/-! A change of state that is pending while a handler runs was asked for by that handler. -/

namespace Slemu
variable {F : Type} [CDouble F]

/-- What has been noted since some moment, newest first. -/
abbrev Notes (F : Type) := List (Mark F × World F)

/-- Script `i` has begun a `state` statement. -/
def Asked (i : ℕ) (notes : Notes F) : Prop :=
  ∃ x ∈ notes, ∃ line idx, x.1 = .exec i (.stateChg line idx)

/-- At each noted moment, and at the end in world `w`, a change of state of script `i` is pending
only if a `state` statement of the script has begun before. -/
structure OwnChange (i : ℕ) (notes : Notes F) (w : World F) : Prop where
  last : (w.script i).pendingState ≠ none → Asked i notes
  noted (newer : Notes F) (x : Mark F × World F) (older : Notes F) : notes = newer ++ x :: older →
    (x.2.script i).pendingState ≠ none → Asked i (x :: older)

/-- From a moment when no change is pending, every change that is pending later was asked for in
between. -/
def AsksFirst (i : ℕ) (m m' : Machine F) : Prop :=
  ∃ notes, m'.log = notes ++ m.log ∧
    ((m.world.script i).pendingState = none → OwnChange i notes m'.world)

omit [CDouble F] in
theorem Asked.append {i : ℕ} {notes : Notes F} (h : Asked i notes) (newer : Notes F) :
    Asked i (newer ++ notes) := by
  obtain ⟨x, hx, hs⟩ := h
  exact ⟨x, List.mem_append_right newer hx, hs⟩

namespace AsksFirst
variable {i : ℕ} {m m' m'' : Machine F}

theorem refl (m : Machine F) : AsksFirst i m m :=
  ⟨[], rfl, fun h => ⟨fun hne => absurd h hne, by simp⟩⟩

theorem trans (h : AsksFirst i m m') (h' : AsksFirst i m' m'') : AsksFirst i m m'' := by
  obtain ⟨notes, hl, hown⟩ := h
  obtain ⟨notes', hl', hown'⟩ := h'
  refine ⟨notes' ++ notes, by rw [hl', hl, List.append_assoc], fun hnone => ?_⟩
  have hfirst := hown hnone
  -- what is pending after the first part was asked for there, and stays in the notes
  have hasked : (m'.world.script i).pendingState ≠ none → Asked i notes := hfirst.last
  constructor
  · intro hne
    by_cases hmid : (m'.world.script i).pendingState = none
    · obtain ⟨x, hx, hs⟩ := (hown' hmid).last hne
      exact ⟨x, List.mem_append_left notes hx, hs⟩
    · exact (hasked hmid).append notes'
  · intro newer x older heq hne
    rcases List.append_eq_append_iff.mp heq with ⟨ys, hnew, hnotes⟩ | ⟨ys, hnotes', hrest⟩
    · exact hfirst.noted ys x older hnotes hne
    · cases ys with
      | nil => exact hfirst.noted [] x older hrest.symm hne
      | cons y ys =>
        rw [List.cons_append, List.cons.injEq] at hrest
        obtain ⟨rfl, rfl⟩ := hrest
        by_cases hmid : (m'.world.script i).pendingState = none
        · obtain ⟨z, hz, hs⟩ := (hown' hmid).noted newer x ys hnotes' hne
          rw [← List.cons_append]
          exact ⟨z, List.mem_append_left notes hz, hs⟩
        · exact (hasked hmid).append (x :: ys)

/-- A step that notes nothing and leaves pending changes alone. -/
theorem of_pending (hl : m'.log = m.log)
    (hp : (m'.world.script i).pendingState = (m.world.script i).pendingState) :
    AsksFirst i m m' :=
  ⟨[], hl, fun h => ⟨fun hne => absurd (hp.trans h) hne, by simp⟩⟩

/-- A note on a moment when nothing is pending, or that a `state` statement begins. -/
theorem noted {k : Mark F} {w : World F} (hl : m'.log = (k, w) :: m.log)
    (hw : w = m.world)
    (hown : (m.world.script i).pendingState = none → (m'.world.script i).pendingState ≠ none →
      ∃ line idx, k = .exec i (.stateChg line idx)) : AsksFirst i m m' := by
  refine ⟨[(k, w)], hl, fun hnone => ⟨fun hne => ?_, ?_⟩⟩
  · exact ⟨(k, w), List.mem_singleton_self _, hown hnone hne⟩
  · intro newer x older heq hne
    have hx : x ∈ [(k, w)] := by
      rw [heq]
      exact List.mem_append_right newer List.mem_cons_self
    obtain rfl := List.mem_singleton.mp hx
    rw [hw] at hne
    exact absurd hnone hne

end AsksFirst

theorem BuiltinAct.pendingState {s : ℕ} {w w' : World F} (h : BuiltinAct s w w') (i : ℕ) :
    (w'.script i).pendingState = (w.script i).pendingState := by
  cases h with
  | grown h => exact (h.script i).pendingState
  | sleep f => rfl
  | setTimer f =>
    rw [script_modScript]
    split <;> rfl
  | die =>
    rw [script_modScript]
    split <;> rfl

/-- The program takes the machine along `AsksFirst i`. -/
abbrev Asks {α : Type} (i : ℕ) (m : VM F α) : Prop := Run.Keeps (AsksFirst i) m

namespace Asks
variable {i s : ℕ}

theorem bind {α β : Type} {m : VM F α} {f : α → VM F β} (hm : Asks i m) (hf : ∀ a, Asks i (f a)) :
    Asks i (m >>= f) :=
  Run.Keeps.bind (fun _ _ _ h h' => h.trans h') hm hf

/-- A change of the world that leaves pending changes alone. -/
theorem set {f : World F → World F}
    (hf : ∀ w, ((f w).script i).pendingState = (w.script i).pendingState) : Asks i (VM.set f) :=
  Run.Keeps.update fun m => .of_pending rfl (hf m.world)

theorem call {α : Type} {f : World F → α × World F}
    (hf : ∀ w, ((f w).2.script i).pendingState = (w.script i).pendingState) : Asks i (VM.call f) :=
  Run.Keeps.act fun m => .of_pending rfl (hf m.world)

theorem mark (k : Mark F) : Asks i (VM.mark k) := by
  refine Run.Keeps.update fun m => ?_
  exact AsksFirst.noted (k := k) (w := m.world) rfl rfl fun hnone hne => absurd hnone hne

theorem modScript {f : Script F → Script F} (hf : ∀ t, (f t).pendingState = t.pendingState) :
    Asks i (VM.set fun w => w.modScript s f) := by
  refine set fun w => ?_
  rw [script_modScript]
  split
  · exact hf _
  · rfl

theorem closed (i s : ℕ) : Closed s (fun {α} (m _ : VM F α) => Asks i m) where
  pure a := .pure AsksFirst.refl a
  fail e := .fail AsksFirst.refl e
  bind hm hf := bind hm hf
  get _ := .read AsksFirst.refl _
  mark k _ := mark k
  setCell c v := by
    cases c with
    | loc k => exact set fun _ => rfl
    | glob j => exact modScript fun _ => rfl
  flags _ := set fun _ => rfl
  define _ _ _ := set fun _ => rfl
  enter := set fun _ => rfl
  leave := set fun _ => rfl

theorem log_stateChg (r : Interp F) (line idx : Int32) (m : Machine F) :
    (execNode r s (.stateChg line idx) m).2.log = m.log := by
  have hget : (VM.get (fun w => (w.script s).prog) : VM F Program) m =
      (.ok (m.world.script s).prog, m) := rfl
  rw [execNode, Run.bind_ok hget]
  cases (m.world.script s).prog.stateNamed ((m.world.script s).prog.str idx) with
  | some j => rfl
  | none => rfl

/-- The beginning of a `state` statement and what it does, in one. -/
theorem stateChg (r : Interp F) (line idx : Int32) :
    Asks i (VM.mark (.exec s (.stateChg line idx)) >>= fun _ =>
      execNode r s (.stateChg line idx)) := by
  by_cases hi : i = s
  · subst hi
    intro m
    -- the note comes first, so whatever is pending afterwards has been asked for
    have hlog : ((VM.mark (.exec i (.stateChg line idx)) >>= fun _ =>
        execNode r i (.stateChg line idx)) m).2.log =
          (.exec i (.stateChg line idx), m.world) :: m.log :=
      log_stateChg r line idx { m with log := (.exec i (.stateChg line idx), m.world) :: m.log }
    exact AsksFirst.noted hlog rfl fun _ _ => ⟨line, idx, rfl⟩
  · refine bind (mark _) fun _ => (closed i s).stateChg r r line idx fun j => set fun w => ?_
    rw [World.modScript_script_ne _ _ _ _ hi]

theorem handles (lib : Lib F) (i s : ℕ) :
    Handles lib s (fun {α} (m _ : VM F α) => Asks i m) where
  toClosed := closed i s
  func hr fd args :=
    (closed i s).runUserFunc hr (fun _ => set fun _ => rfl) (set fun _ => rfl) fd args
  builtin hr name args := by
    refine (closed i s).callBuiltin hr.toEvals (modScript fun _ => rfl) (fun st => modScript fun _ => rfl)
      ?_ (fun name f args hf => ?_) name args
    · exact modScript fun _ => rfl
    · exact call fun w => (BuiltinAct.of_lookup hf w s args).pendingState i
  stmt {r r'} hr st hst := by
    cases hc : st.isStateChg with
    | false => exact bind (mark _) fun _ => hst hc
    | true =>
      cases st with
      | stateChg line idx => exact stateChg r line idx
      | _ => cases hc

theorem vmDispatch (lib : Lib F) (s n : ℕ) (ev : EventDecl) (args : List (SValue F)) :
    Asks i (vmDispatch lib s n ev args) := by
  refine bind (set fun _ => rfl) fun _ => bind ?_ fun _ => set fun _ => rfl
  exact ((handles lib i s).interp n).exec ev.body

theorem dispatchEvent (lib : Lib F) (s n : ℕ) (ev : Event F) :
    Asks i (dispatchEvent lib s n ev) := by
  refine bind (.read AsksFirst.refl _) fun o => ?_
  split
  · exact .pure AsksFirst.refl ()
  · exact bind (set fun _ => rfl) fun _ => vmDispatch lib s n _ _

end Asks

/-! ### Handlers in a run -/

namespace Conf

/-- No handler starts with a change of state pending, so every change that is pending while it runs
is one that it has asked for. -/
def NoInheritedChange (c : ℕ → Conf F) (n : ℕ) : Prop :=
  ∀ k < n, ∀ i, (c k).RunsHandler i → ((c k).script i).pendingState = none ∧
    ∃ notes, (c (k+1)).machine.log = notes ++ (c k).machine.log ∧
      OwnChange i notes (c (k+1)).world

theorem RunsHandler.phase {c : Conf F} {i : ℕ} (h : c.RunsHandler i) :
    (∃ b, c.phase = .visit i b) ∨ ∃ old new, c.phase = .exit i old new := by
  rcases h with ⟨ev, ⟨hv, -⟩, -⟩ | ⟨old, new, hp, -⟩
  · exact Or.inl hv
  · exact Or.inr ⟨old, new, hp⟩

/-- The step in which a handler runs. -/
theorem Step.asksFirst {lib : Lib F} {c c' : Conf F} {i : ℕ} (h : Step lib c c')
    (hr : c.RunsHandler i) : AsksFirst i c.machine c'.machine := by
  obtain ⟨-, fuel, h⟩ := h
  rcases hr.phase with ⟨b, hp⟩ | ⟨old, new, hp⟩
  · rw [hp] at h
    have hk : Asks i (visitScript lib fuel i b) := by
      refine Asks.bind (.read AsksFirst.refl _) fun _ => ?_
      split
      · refine Asks.bind (.read AsksFirst.refl _) fun q => ?_
        split
        · exact .pure AsksFirst.refl _
        · refine Asks.bind (Asks.modScript fun _ => rfl) fun _ => ?_
          exact Asks.bind (Asks.dispatchEvent lib i fuel _) fun _ =>
            Asks.bind (Asks.set fun _ => rfl) fun _ => .pure AsksFirst.refl _
      · exact .pure AsksFirst.refl _
    have hkm := hk c.machine
    rwa [show visitScript lib fuel i b c.machine = _ from h] at hkm
  · rw [hp] at h
    have hk : Asks i (regionStep lib fuel (.exit i old new)) := by
      refine Asks.bind ?_ fun _ => .pure AsksFirst.refl _
      refine Asks.bind (.read AsksFirst.refl _) fun p => ?_
      split
      · exact .pure AsksFirst.refl ()
      · exact Asks.vmDispatch lib i fuel _ _
    have hkm := hk c.machine
    rwa [h] at hkm

/-- In a run in which neither the initialisers of a script nor a `state_exit` leave a change of
state pending, no handler inherits one. -/
theorem noInheritedChange_of_asksNothing (lib : Lib F) (c : ℕ → Conf F) (n : ℕ) (h : IsRun lib c n)
    (hc : ∀ k ≤ n, (c k).AsksNothing) : NoInheritedChange c n := by
  intro k hk i hr
  have hnone : ((c k).script i).pendingState = none := by
    by_contra hne
    have hphase := h.settled hc k hk.le i hne
    rcases hr.phase with ⟨b, hp⟩ | ⟨old, new, hp⟩
    · rw [hphase] at hp
      cases hp
    · rw [hphase] at hp
      cases hp
  obtain ⟨notes, hlog, hown⟩ := (h.step k hk).asksFirst hr
  exact ⟨hnone, notes, hlog, hown hnone⟩

end Conf

/-- A program with an empty `state_exit`. -/
theorem quietExit_inherits_nothing :
    Conf.NoInheritedChange ((regionOf [busyProgram []] []).after noLib 30) 12 :=
  Conf.noInheritedChange_of_asksNothing noLib _ 12
    (Conf.isRun_after (start_regionOf _ _) (by decide +kernel)) fun k hk => by
      have h : ∀ k < 13, ((regionOf [busyProgram []] []).after noLib 30 k).isClean := by
        decide +kernel
      exact (Conf.clean_of_isClean (h k (by omega))).asksNothing

/-- A `state_exit` with a `state` statement: `state_entry` of the new state starts with a change
pending. -/
theorem askingExit_inherited : ∃ c : ℕ → Conf ℚ, Conf.IsRun noLib c 11 ∧
    ¬ Conf.NoInheritedChange c 11 := by
  refine ⟨(regionOf [busyProgram [.stateChg 4 2]] []).after noLib 30,
    Conf.isRun_after (start_regionOf _ _) (by decide +kernel), fun h => ?_⟩
  obtain ⟨ev, hd, -, -⟩ := ((regionOf [busyProgram [.stateChg 4 2]] []).after noLib 30
    10).dispatches_of_name 0 (lit "state_entry") ⟨false, by decide +kernel⟩ (by decide +kernel)
    (by decide +kernel) (by decide +kernel)
  have hnone := (h 10 (by omega) 0 (Or.inl ⟨ev, hd⟩)).1
  exact absurd hnone (by decide +kernel)

end Slemu
