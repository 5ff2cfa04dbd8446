import Slemu.Isolation

/-! What one step of the loop can do to the scripts, said once. -/

namespace Slemu
variable {F : Type} [CDouble F]

/-- One line of the commands file is taken and carried out. -/
def Pumped (w w' : World F) : Prop :=
  w.nextCommand < w.commandLines.length ∧ Told { w with nextCommand := w.nextCommand+1 } w'

/-- The end of `init_script`: the script is in its first state, and `state_entry` is queued. -/
def World.startUp (w : World F) (i : ℕ) : World F :=
  (w.modScript i fun t => { t with curState := startState t.prog t.curState }).pushEvent i
    (lit "state_entry") []

/-- The effect of a step, by the phase it starts in. `Acts i` stands for code of script `i` that
ran. -/
inductive Moves : Phase → World F → Phase → World F → Prop
  | load {w w' : World F} : AllGrown w w' → Moves .load w (.init 0) w'
  | init {w w' : World F} {i : ℕ} : i < w.scripts.length → Acts i w w' →
    Moves (.init i) w (.init (i+1)) (w'.startUp i)
  | start {w w' : World F} {i : ℕ} :
    w.scripts.length ≤ i → w'.core = w.core → Moves (.init i) w .top w'
  | head {w w' : World F} : w'.core = w.core → Moves .top w (.visit 0 w'.fireTimer.1) w'.fireTimer.2
  | limit {w w' : World F} : w'.core = w.core → Moves .top w .drain w'
  | around {w : World F} {i : ℕ} : w.scripts.length ≤ i → Moves (.visit i true) w .top w
  | quiet {w : World F} {i : ℕ} : w.scripts.length ≤ i → Moves (.visit i false) w .idle w
  | skip {w : World F} {i : ℕ} {b : Bool} : i < w.scripts.length → (w.script i).evq = [] →
    Moves (.visit i b) w (.visit (i+1) b) w
  | ignore {w w' : World F} {i : ℕ} {b : Bool} {ev : Event F} {evs : List (Event F)} :
    i < w.scripts.length → (w.script i).evq = ev :: evs → (w.script i).handler ev.name = none →
      w'.core = (w.dequeue i).core → Moves (.visit i b) w (.settle i) w'
  | dispatch {w w' : World F} {i : ℕ} {b : Bool} {ev : Event F} {evs : List (Event F)} :
    i < w.scripts.length → (w.script i).evq = ev :: evs → (w.script i).handler ev.name ≠ none →
      Acts i (w.dequeue i) w' → Moves (.visit i b) w (.settle i) w'
  | settled {w : World F} {i : ℕ} :
    (w.script i).pendingState = none → Moves (.settle i) w (.visit (i+1) true) w
  | change {w : World F} {i new : ℕ} : (w.script i).pendingState = some new →
    Moves (.settle i) w (.exit i (w.script i).curState new) (w.switchState i new)
  | exit {w w' : World F} {i new : ℕ} {old : Option ℕ} :
    Acts i w w' → Moves (.exit i old new) w (.entry i new) w'
  | entry {w : World F} {i new : ℕ} :
    Moves (.entry i new) w (.visit (i+1) true) (w.pushEvent i (lit "state_entry") [])
  | command {w w' : World F} : Pumped w w' → Moves .idle w .top w'
  | settleDown {w : World F} :
    w.commandLines.length ≤ w.nextCommand → Moves .idle w .drain w
  | drain {w w' : World F} : Pumped w w' → Moves .drain w .drain w'
  | drained {w : World F} :
    w.commandLines.length ≤ w.nextCommand → Moves .drain w .save w
  | save {w w' : World F} : w'.core = w.core → Moves .save w .done w'

/-- Nothing but the rest of the world has changed. -/
def SameCore (w w' : World F) : Prop := w'.core = w.core

omit [CDouble F] in
instance : IsPreorder (World F) SameCore where
  refl _ := rfl
  trans _ _ _ h h' := h'.trans h

namespace Respects

theorem limitReached : Respects SameCore (limitReached : VM F Bool) := by
  refine bind (get _) fun _ => ite (pure true) (bind (get _) fun _ => ite ?_ (pure false))
  exact bind (call fun _ => rfl) fun _ => read _

omit [CDouble F] in
theorem startClock : Respects SameCore (startClock : VM F Unit) :=
  bind (call fun _ => rfl) fun _ => Run.Keeps.update fun _ => rfl

theorem exitState (lib : Lib F) (n i : ℕ) (old : Option ℕ) :
    Keeping i (exitState lib n i old) := by
  refine bind (get _) fun p => ?_
  split
  · exact pure ()
  · exact vmDispatch_keeping lib i n _ []

end Respects

omit [CDouble F] in
/-- The result of a program that ended well, and how the world grew. -/
theorem Respects.of_ok {α : Type} {R : World F → World F → Prop} {m : VM F α}
    (h : Respects R m) {a a' : Machine F} {x : α} (hm : m a = (.ok x, a')) :
    R a.world a'.world := by
  have := h a
  rwa [hm] at this

omit [CDouble F] in
/-- A look at the world leaves the machine as it is. -/
theorem VM.of_get_bind {α β : Type} {f : World F → α} {g : α → VM F β} {m m' : Machine F} {b : β}
    (h : (VM.get f >>= g) m = (.ok b, m')) : g (f m.world) m = (.ok b, m') := h

omit [CDouble F] in
/-- A change of the world that is followed by something else. -/
theorem VM.of_set_bind {β : Type} {f : World F → World F} {g : Unit → VM F β}
    {m m' : Machine F} {b : β} (h : (VM.set f >>= g) m = (.ok b, m')) :
    g () { m with world := f m.world } = (.ok b, m') := h

/-- What a dispatch does, by the answer to the search for a handler. -/
theorem dispatchEvent_cases {lib : Lib F} {i n : ℕ} {ev : Event F} {m m' : Machine F}
    (h : dispatchEvent lib i n ev m = (.ok (), m')) :
    (m.world.script i).handler ev.name = none ∧ m' = m ∨
      (m.world.script i).handler ev.name ≠ none ∧ Acts i m.world m'.world := by
  have hk := (dispatchEvent_keeping lib i n ev).of_ok h
  cases hh : (m.world.script i).handler ev.name with
  | some ed => exact .inr ⟨Option.some_ne_none ed, hk⟩
  | none =>
    have h' := VM.of_get_bind h
    rw [hh] at h'
    cases h'
    exact .inl ⟨rfl, rfl⟩

theorem pump_moves {next last : Phase} {m m' : Machine F} {p : Phase}
    (h : pump next last m = (.ok p, m')) :
    p = next ∧ Pumped m.world m'.world ∨
      p = last ∧ m.world.commandLines.length ≤ m.world.nextCommand ∧ m'.world = m.world := by
  obtain ⟨b, m1, h1, h2⟩ := Run.of_bind_ok h
  cases hl : m.world.commandLines[m.world.nextCommand]? with
  | none =>
    have hc : m.world.commandsPump = (false, m.world) := by
      unfold World.commandsPump
      rw [hl]
    cases h1
    simp only [hc] at h2
    cases h2
    exact .inr ⟨rfl, List.getElem?_eq_none_iff.mp hl, rfl⟩
  | some line =>
    have hc : m.world.commandsPump =
        (true, { m.world with nextCommand := m.world.nextCommand+1 }.runCommand line) := by
      unfold World.commandsPump
      rw [hl]
    cases h1
    simp only [hc] at h2
    cases h2
    refine .inl ⟨rfl, (List.getElem?_eq_some_iff.mp hl).1, ?_⟩
    exact (Told.runCommand _ line).after rfl

theorem loopHead_moves {m m' : Machine F} {p : Phase} (h : loopHead m = (.ok p, m')) :
    Moves .top m.world p m'.world := by
  obtain ⟨b, m1, h1, h2⟩ := Run.of_bind_ok h
  have hc : m1.world.core = m.world.core := Respects.limitReached.of_ok h1
  cases b with
  | true =>
    cases h2
    exact .limit hc
  | false =>
    cases h2
    exact .head hc

theorem visitScript_moves {lib : Lib F} {n i : ℕ} {b : Bool} {m m' : Machine F} {p : Phase}
    (h : visitScript lib n i b m = (.ok p, m')) : Moves (.visit i b) m.world p m'.world := by
  have h1 := VM.of_get_bind h
  by_cases hi : i < m.world.scripts.length
  · rw [if_pos (decide_eq_true hi)] at h1
    have h2 := VM.of_get_bind h1
    cases hq : (m.world.script i).evq with
    | nil =>
      rw [hq] at h2
      cases h2
      exact .skip hi hq
    | cons ev evs =>
      rw [hq] at h2
      obtain ⟨u, m2, h3, h4⟩ := Run.of_bind_ok (VM.of_set_bind h2)
      cases h4
      have hh : ((m.world.dequeue i).script i).handler = (m.world.script i).handler := by
        rw [World.dequeue, World.modScript_script _ _ _ hi]
        rfl
      rcases dispatchEvent_cases h3 with ⟨ho, rfl⟩ | ⟨ho, hk⟩
      · exact .ignore hi hq (by rwa [← hh]) rfl
      · exact .dispatch hi hq (by rwa [← hh]) (hk.trans (Acts.of_core rfl))
  · rw [if_neg (by simpa using hi)] at h1
    cases h1
    cases b
    · exact .quiet (not_lt.mp hi)
    · exact .around (not_lt.mp hi)

theorem initScript_moves {lib : Lib F} {n i : ℕ} {m m' : Machine F}
    (hi : i < m.world.scripts.length) (h : initScript lib i n m = (.ok (), m')) :
    Moves (.init i) m.world (.init (i+1)) m'.world := by
  have h' := VM.of_get_bind h
  obtain ⟨u, m1, h1, h2⟩ := Run.of_bind_ok h'
  cases VM.of_set_bind h2
  exact .init hi ((initGlobals_keeping lib i n (m.world.script i).prog.globals.zipIdx).of_ok h1)

theorem settleScript_moves {i : ℕ} {m m' : Machine F} {p : Phase}
    (h : settleScript i m = (.ok p, m')) : Moves (.settle i) m.world p m'.world := by
  have h1 := VM.of_get_bind h
  cases hp : (m.world.script i).pendingState with
  | none =>
    rw [hp] at h1
    cases h1
    exact .settled hp
  | some new =>
    rw [hp] at h1
    cases h1
    exact .change hp

/-- Every step is one of the moves. -/
theorem Conf.Step.moves {lib : Lib F} {c c' : Conf F} (h : Step lib c c') :
    Moves c.phase c.world c'.phase c'.world := by
  obtain ⟨hd, fuel, h⟩ := h
  obtain ⟨phase, m⟩ := c
  obtain ⟨phase', m'⟩ := c'
  dsimp only [Conf.world] at h ⊢
  cases phase with
  | load =>
    cases h
    exact .load (AllGrown.volumeLoadEconomy _)
  | init i =>
    have h1 := VM.of_get_bind h
    by_cases hi : i < m.world.scripts.length
    · rw [if_pos (decide_eq_true hi)] at h1
      obtain ⟨u, m1, h2, h3⟩ := Run.of_bind_ok h1
      cases h3
      exact initScript_moves hi h2
    · rw [if_neg (by simpa using hi)] at h1
      obtain ⟨u, m1, h2, h3⟩ := Run.of_bind_ok h1
      cases h3
      exact .start (not_lt.mp hi) (Respects.startClock.of_ok h2)
  | top =>
    exact loopHead_moves h
  | visit i b => exact visitScript_moves h
  | settle i => exact settleScript_moves h
  | exit i old new =>
    obtain ⟨u, m1, h1, h2⟩ := Run.of_bind_ok h
    cases h2
    exact .exit ((Respects.exitState lib fuel i old).of_ok h1)
  | entry i new =>
    cases h
    exact .entry
  | idle =>
    rcases pump_moves h with ⟨rfl, hp⟩ | ⟨rfl, hl, hw⟩
    · exact .command hp
    · rw [hw]
      exact .settleDown hl
  | drain =>
    rcases pump_moves h with ⟨rfl, hp⟩ | ⟨rfl, hl, hw⟩
    · exact .drain hp
    · rw [hw]
      exact .drained hl
  | save =>
    cases h
    exact .save rfl
  | done => exact absurd rfl hd

/-! ### The scripts that a step is not about -/

/-- The next step takes the event `ev` off the queue of script `i`. -/
def Takes (p : Phase) (w : World F) (i : ℕ) (ev : Event F) : Prop :=
  (∃ b, p = .visit i b) ∧ i < w.scripts.length ∧ (w.script i).evq.head? = some ev

/-- The script whose turn it is. -/
def Phase.turn : Phase → Option ℕ
  | .init i => some i
  | .visit i _ => some i
  | .settle i => some i
  | .exit i _ _ => some i
  | .entry i _ => some i
  | _ => none

/-- A script as it was, but for events at the end of its queue. -/
structure Lengthened (t t' : Script F) : Prop where
  prog : t'.prog = t.prog
  curState : t'.curState = t.curState
  pendingState : t'.pendingState = t.pendingState
  globals : t'.globals = t.globals
  timerInterval : t'.timerInterval = t.timerInterval
  queue : ∃ evs : List (Event F × Option F), t'.evq = t.evq ++ evs.map Prod.fst ∧
    t'.history = t.history ++ evs.map fun e => .push e.1 e.2

omit [CDouble F] in
theorem Grown.lengthened {t t' : Script F} (h : Grown t t') : Lengthened t t' := by
  obtain ⟨evs, -, hq, hh⟩ := h.queue
  refine ⟨h.prog, h.curState, h.pendingState, h.globals, h.timerInterval,
    evs.map fun ev => (ev, none), ?_, ?_⟩
  · rw [hq, List.map_map]
    exact congrArg _ (List.map_id evs).symm
  · rw [hh, List.map_map]
    rfl

omit [CDouble F] in
theorem Lengthened.refl (t : Script F) : Lengthened t t := (Grown.refl t).lengthened

omit [CDouble F] in
theorem Lengthened.trans {t u v : Script F} (h : Lengthened t u) (h' : Lengthened u v) :
    Lengthened t v := by
  obtain ⟨evs, hq, hh⟩ := h.queue
  obtain ⟨evs', hq', hh'⟩ := h'.queue
  refine ⟨h'.prog.trans h.prog, h'.curState.trans h.curState,
    h'.pendingState.trans h.pendingState, h'.globals.trans h.globals,
    h'.timerInterval.trans h.timerInterval, evs ++ evs', ?_, ?_⟩
  · rw [hq', hq, List.append_assoc, List.map_append]
  · rw [hh', hh, List.append_assoc, List.map_append]

omit [CDouble F] in
/-- The handlers of a script that only got events. -/
theorem Lengthened.handler {t t' : Script F} (h : Lengthened t t') : t'.handler = t.handler := by
  unfold Script.handler
  rw [h.prog, h.curState]

theorem script_of_core {w w' : World F} (h : w'.core = w.core) (i : ℕ) :
    w'.script i = w.script i :=
  script_of_scripts (congrArg (fun c => c.1) h) i

theorem Told.script {w w' : World F} (h : Told w w') (i : ℕ) :
    Grown (w.script i) (w'.script i) := by
  cases h with
  | grown h => exact h.script i
  | wait f h =>
    rw [script_of_core h]
    exact Grown.refl _

/-- What the scheduler does to a script whose timer is due at `d`. -/
def Script.fire (d : F) (t : Script F) : Script F :=
  { t.push ⟨lit "timer", []⟩ (some d) with timerDue := CDouble.add t.timerDue t.timerInterval }

omit [CDouble F] in
theorem modScript_modScript (w : World F) (i : ℕ) (f g : Script F → Script F) :
    (w.modScript i f).modScript i g = w.modScript i fun t => g (f t) := by
  simp only [World.modScript, List.modify_modify_eq]
  rfl

theorem fireTimer_some {w : World F} {d : F} {i : ℕ} (h : w.dueTimer = (d, some i)) :
    w.fireTimer = (true, { w with virtualNow := d }.modScript i (Script.fire d)) := by
  simp only [World.fireTimer, h, World.pushDue, modScript_modScript]
  rfl

theorem fireTimer_none {w : World F} {d : F} (h : w.dueTimer = (d, none)) :
    w.fireTimer = (false, { w with virtualNow := w.virtualOffset }) := by
  simp only [World.fireTimer, h]

theorem fireTimer_lengthened (w : World F) (i : ℕ) :
    Lengthened (w.script i) (w.fireTimer.2.script i) := by
  rcases h : w.dueTimer with ⟨d, _ | j⟩
  · rw [fireTimer_none h]
    exact Lengthened.refl _
  · rw [fireTimer_some h, script_modScript]
    split
    · exact ⟨rfl, rfl, rfl, rfl, rfl, [(⟨lit "timer", []⟩, some d)], rfl, rfl⟩
    · exact Lengthened.refl _

theorem startUp_elsewhere (w : World F) (i : ℕ) : Elsewhere i w (w.startUp i) := by
  have hn : lit "state_entry" ≠ lit "timer" := by decide
  refine .trans ?_ ((AllGrown.pushEvent _ i hn []).elsewhere i)
  exact .modScript w i fun _ => rfl

/-- A step changes no other script but by events at the end of its queue. -/
theorem Moves.other {p p' : Phase} {w w' : World F} (h : Moves p w p' w') {i : ℕ}
    (hi : p.turn ≠ some i) : Lengthened (w.script i) (w'.script i) := by
  have hne {j : ℕ} (hj : some j ≠ some i) : i ≠ j := fun h => hj (h ▸ rfl)
  have hpush (u : World F) (j : ℕ) : Lengthened (u.script i)
      ((u.pushEvent j (lit "state_entry") []).script i) :=
    ((AllGrown.pushEvent u j (by decide) []).script i).lengthened
  have hsame {u u' : World F} (hc : u'.core = u.core) :
      Lengthened (u.script i) (u'.script i) := by
    rw [script_of_core hc]
    exact Lengthened.refl _
  cases h with
  | load h => exact (h.script i).lengthened
  | init hj h =>
    exact ((h.elsewhere.trans (startUp_elsewhere _ _)).other i (hne hi)).lengthened
  | start hj h => exact hsame h
  | @head w w₁ h =>
    have hf := fireTimer_lengthened w₁ i
    rwa [script_of_core h] at hf
  | limit h => exact hsame h
  | around hj => exact Lengthened.refl _
  | quiet hj => exact Lengthened.refl _
  | skip hj hq => exact Lengthened.refl _
  | @ignore w w' j b ev evs hj hq hh h =>
    rw [script_of_core h, World.dequeue, World.modScript_script_ne _ _ _ _ (hne hi)]
    exact Lengthened.refl _
  | @dispatch w w' j b ev evs hj hq hh h =>
    have ho := (h.elsewhere.other i (hne hi)).lengthened
    rwa [World.dequeue, World.modScript_script_ne _ _ _ _ (hne hi)] at ho
  | settled h => exact Lengthened.refl _
  | change h =>
    rw [World.switchState, World.modScript_script_ne _ _ _ _ (hne hi)]
    exact Lengthened.refl _
  | exit h => exact (h.elsewhere.other i (hne hi)).lengthened
  | entry => exact hpush _ _
  | command h => exact (h.2.script i).lengthened
  | settleDown h => exact Lengthened.refl _
  | drain h => exact (h.2.script i).lengthened
  | drained h => exact Lengthened.refl _
  | save h => exact hsame h

/-! ### Runs that are computed -/

namespace Conf

/-- `k` steps from a start, with a given fuel. -/
def after (lib : Lib F) (fuel : ℕ) (c : Conf F) : ℕ → Conf F
  | 0 => c
  | k+1 =>
    let r := regionStep lib fuel (c.after lib fuel k).phase (c.after lib fuel k).machine
    match r.1 with
    | .ok p => ⟨p, r.2⟩
    | .error _ => ⟨.done, r.2⟩

/-- Whether one more step comes to its end with the fuel. -/
def goesOn (lib : Lib F) (fuel : ℕ) (c : Conf F) : Bool :=
  c.phase ≠ .done && (regionStep lib fuel c.phase c.machine).1.toBool

theorem step_after {lib : Lib F} {fuel : ℕ} {c : Conf F} {k : ℕ}
    (h : (c.after lib fuel k).goesOn lib fuel) :
    Step lib (c.after lib fuel k) (c.after lib fuel (k+1)) := by
  simp only [goesOn, Bool.and_eq_true, decide_eq_true_eq] at h
  refine ⟨h.1, fuel, ?_⟩
  rw [after]
  rcases hr : regionStep lib fuel (c.after lib fuel k).phase (c.after lib fuel k).machine with
    ⟨e | p, m⟩
  · rw [hr] at h
    exact absurd h.2 (by simp [Except.toBool])
  · rfl

theorem isRun_after {lib : Lib F} {fuel n : ℕ} {c : Conf F} (hs : Start c)
    (h : (List.range n).all fun k => (c.after lib fuel k).goesOn lib fuel) :
    IsRun lib (c.after lib fuel) n := by
  refine ⟨hs, fun k hk => step_after ?_⟩
  exact List.all_eq_true.mp h k (List.mem_range.mpr hk)

end Conf

/-- No builtins but those of the tables. -/
def noLib : Lib ℚ := ⟨fun _ => none⟩

/-- `region_run` on these programs and these lines of a commands file. -/
def regionWith (F : Type) [CDouble F] (ps : List Program) (lines : List Bytes) : Conf F :=
  ⟨.load, ⟨ps.foldl (fun w p => w.regionLoadScript p [])
    { (regionInit default : World F) with commandLines := lines }, CDouble.zero, []⟩⟩

theorem Conf.Start.loadScript {w : World F} (hw : Start ⟨.load, ⟨w, CDouble.zero, []⟩⟩)
    (p : Program) (path : Bytes) :
    Start ⟨.load, ⟨w.regionLoadScript p path, CDouble.zero, []⟩⟩ := by
  refine ⟨rfl, hw.virtualNow, hw.virtualOffset, hw.advances, hw.nextCommand, hw.frames, rfl,
    fun t ht => ?_⟩
  rcases List.mem_append.mp ht with ht | ht
  · exact hw.scripts t ht
  · obtain rfl := List.mem_singleton.mp ht
    exact ⟨rfl, rfl, rfl, rfl, rfl, rfl, rfl⟩

theorem start_regionWith (ps : List Program) (lines : List Bytes) :
    Conf.Start (regionWith F ps lines) := by
  have h (w : World F) (hw : Conf.Start ⟨.load, ⟨w, CDouble.zero, []⟩⟩) :
      Conf.Start ⟨.load, ⟨ps.foldl (fun w p => w.regionLoadScript p []) w, CDouble.zero, []⟩⟩ := by
    induction ps generalizing w with
    | nil => exact hw
    | cons p ps ih => exact ih _ (hw.loadScript p [])
  exact h _ ⟨rfl, rfl, rfl, rfl, rfl, rfl, rfl, nofun⟩

/-- The same with times as exact rationals. -/
def regionOf (ps : List Program) (lines : List Bytes) : Conf ℚ := regionWith ℚ ps lines

theorem start_regionOf (ps : List Program) (lines : List Bytes) :
    Conf.Start (regionOf ps lines) := start_regionWith ps lines

/-- The names in the string pool of the programs below. -/
def poolNames : List Bytes :=
  [lit "default", lit "state_entry", lit "timer", lit "link_message", lit "llSetTimerEvent",
   lit "llSleep", lit "llDie", lit "llMessageLinked", []]

/-- A program of one state with these handlers, by the place of their names in the pool. -/
def handlersProgram (hs : List (Int32 × List Stmt)) : Program :=
  { strings := poolNames, globals := [], funcs := [],
    states := [⟨0, 1, 1, hs.map fun h => ⟨h.1, 2, [], .block 2 h.2⟩⟩], flags := 0 }

/-- A call of a builtin with whole numbers. -/
def callInts (name : Int32) (args : List Int64) : Stmt :=
  .expr 3 (.call SV.void 0 name (args.map (.intLit SV.integer 0)))

end Slemu
