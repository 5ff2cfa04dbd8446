import Slemu.QueueRuns

/-! The region is settled whenever the main loop takes a command, and the commands are taken in
the order of the file. -/

namespace Slemu
variable {F : Type} [CDouble F]

/-! ### Pending changes of state -/

/-- Where a change of state can be pending: right after the handler that asked for it, or with an
event in the queue that will have it made. -/
def PendingHeld (p : Phase) (w : World F) : Prop :=
  ∀ i, (w.script i).pendingState ≠ none →
    p = .settle i ∨ (∃ new, p = .entry i new) ∨ (w.script i).evq ≠ []

omit [CDouble F] in
theorem Lengthened.evq_ne_nil {t t' : Script F} (h : Lengthened t t') (hq : t.evq ≠ []) :
    t'.evq ≠ [] := by
  obtain ⟨evs, he, -⟩ := h.queue
  rw [he]
  exact List.append_ne_nil_of_left_ne_nil hq _

theorem evq_pushEvent_ne_nil (w : World F) (i : ℕ) (name : Bytes) (args : List (SValue F))
    (hi : i < w.scripts.length) : ((w.pushEvent i name args).script i).evq ≠ [] := by
  rw [World.pushEvent, World.pushDue, World.modScript_script _ _ _ hi]
  exact List.append_ne_nil_of_right_ne_nil _ (List.cons_ne_nil _ _)

theorem lt_length_of_pending {w : World F} {i : ℕ} (h : (w.script i).pendingState ≠ none) :
    i < w.scripts.length := by
  by_contra hi
  exact h (congrArg Script.pendingState (script_of_length_le w i (not_lt.mp hi)))

theorem PendingHeld.turn {p p' : Phase} {w w' : World F} {i : ℕ} (h : Moves p w p' w')
    (hi : p.turn = some i) (hp : PendingHeld p w) (hne : (w'.script i).pendingState ≠ none) :
    p' = .settle i ∨ (∃ new, p' = .entry i new) ∨ (w'.script i).evq ≠ [] := by
  have hstay (hw : w'.script i = w.script i) (hs : p ≠ .settle i) (he : ∀ new, p ≠ .entry i new) :
      (w'.script i).evq ≠ [] := by
    rw [hw] at hne ⊢
    exact ((hp i hne).resolve_left hs).resolve_left fun ⟨new, h⟩ => he new h
  cases h <;> cases hi
  case init u hl h =>
    refine .inr (.inr (evq_pushEvent_ne_nil _ i _ [] ?_))
    rwa [World.modScript_length, h.elsewhere.count]
  case start hc h => exact .inr (.inr (hstay (script_of_core hc i) nofun nofun))
  case around => exact .inr (.inr (hstay rfl nofun nofun))
  case quiet => exact .inr (.inr (hstay rfl nofun nofun))
  case skip => exact .inr (.inr (hstay rfl nofun nofun))
  case ignore => exact .inl rfl
  case dispatch => exact .inl rfl
  case settled h => exact absurd h hne
  case change new h =>
    have hl := lt_length_of_pending (h ▸ Option.some_ne_none new)
    rw [World.switchState, World.modScript_script _ _ _ hl] at hne
    exact absurd rfl hne
  case exit => exact .inr (.inl ⟨_, rfl⟩)
  case entry => exact .inr (.inr (evq_pushEvent_ne_nil w i _ [] (by
    simpa only [World.pushEvent, World.pushDue, World.modScript_length]
      using lt_length_of_pending hne)))

theorem PendingHeld.step {p p' : Phase} {w w' : World F} (h : Moves p w p' w')
    (hp : PendingHeld p w) : PendingHeld p' w' := by
  intro i hne
  by_cases hi : p.turn = some i
  · exact hp.turn h hi hne
  · have hl := h.other hi
    refine .inr (.inr (hl.evq_ne_nil ?_))
    rcases hp i (hl.pendingState ▸ hne) with rfl | ⟨new, rfl⟩ | hq
    · exact absurd rfl hi
    · exact absurd rfl hi
    · exact hq

/-! ### A cycle in which nothing happens -/

/-- Unless some timer is due before `virtual_offset + 1.0`, none is due by `virtual_offset`. -/
def DueInReach (w : World F) : Prop :=
  (∀ i < w.scripts.length, (w.script i).dueBy w.virtualOffset →
    CDouble.lt (w.script i).timerDue (CDouble.add w.virtualOffset CDouble.one) = false) →
  ∀ i < w.scripts.length, (w.script i).dueBy w.virtualOffset = false

/-- The time shown is the offset, no timer is due, and the queues of the first `j` scripts are
empty. -/
structure QuietUpTo (j : ℕ) (w : World F) : Prop where
  now : w.virtualNow = w.virtualOffset
  due : ∀ i < w.scripts.length, (w.script i).dueBy w.virtualOffset = false
  queues : ∀ i < j, (w.script i).evq = []

/-- What a cycle without progress has seen so far. -/
def QuietSoFar (p : Phase) (w : World F) : Prop :=
  (∀ j, p = .visit j false → QuietUpTo j w) ∧ (p = .idle → ∀ j, QuietUpTo j w)

theorem quietUpTo_fireTimer {w : World F} {d : F} (hd : w.dueTimer = (d, none))
    (hr : DueInReach w) : QuietUpTo 0 { w with virtualNow := w.virtualOffset } :=
  ⟨rfl, hr (dueTimer_none hd), nofun⟩

theorem dueInReach_of_core {w w' : World F} (h : w'.core = w.core) (hr : DueInReach w) :
    DueInReach w' := by
  have hs : w'.scripts = w.scripts := congrArg (fun c => c.1) h
  have ho : w'.virtualOffset = w.virtualOffset := congrArg (fun c => c.2.1.2.1) h
  unfold DueInReach World.script
  rw [hs, ho]
  exact hr

theorem QuietSoFar.step {p p' : Phase} {w w' : World F} (hr : p = .top → DueInReach w)
    (hq : QuietSoFar p w) (h : Moves p w p' w') : QuietSoFar p' w' := by
  have hnone {q : Phase} {u : World F} (hv : ∀ j, q ≠ .visit j false) (hi : q ≠ .idle) :
      QuietSoFar q u :=
    ⟨fun j hj => absurd hj (hv j), fun h => absurd h hi⟩
  cases h with
  | @head _ u h =>
    rcases hd : u.dueTimer with ⟨d, _ | i⟩
    · rw [fireTimer_none hd]
      have hz := quietUpTo_fireTimer hd (dueInReach_of_core h (hr rfl))
      refine ⟨fun j hj => ?_, nofun⟩
      cases hj
      exact hz
    · rw [fireTimer_some hd]
      exact hnone nofun nofun
  | @skip _ i b hi he =>
    refine ⟨fun j hj => ?_, nofun⟩
    cases hj
    have hz := hq.1 i rfl
    refine ⟨hz.now, hz.due, fun k hk => ?_⟩
    rcases Nat.lt_succ_iff_lt_or_eq.mp hk with hk | rfl
    · exact hz.queues k hk
    · exact he
  | @quiet _ i hi =>
    refine ⟨nofun, fun _ j => ?_⟩
    have hz := hq.1 i rfl
    refine ⟨hz.now, hz.due, fun k _ => ?_⟩
    rcases Nat.lt_or_ge k i with hk | hk
    · exact hz.queues k hk
    · rw [script_of_length_le w k (hi.trans hk)]
      rfl
  | load => exact hnone nofun nofun
  | init => exact hnone nofun nofun
  | start => exact hnone nofun nofun
  | limit => exact hnone nofun nofun
  | around => exact hnone nofun nofun
  | ignore => exact hnone nofun nofun
  | dispatch => exact hnone nofun nofun
  | settled => exact hnone nofun nofun
  | change => exact hnone nofun nofun
  | exit => exact hnone nofun nofun
  | entry => exact hnone nofun nofun
  | command => exact hnone nofun nofun
  | settleDown => exact hnone nofun nofun
  | drain => exact hnone nofun nofun
  | drained => exact hnone nofun nofun
  | save => exact hnone nofun nofun

/-- Nothing is left to do: every queue is empty, no change of state is pending, no timer is due,
and the time shown is the offset. -/
structure SettledWorld (w : World F) : Prop where
  queues : ∀ i, (w.script i).evq = []
  pending : ∀ i, (w.script i).pendingState = none
  due : ∀ i < w.scripts.length, (w.script i).dueBy w.virtualOffset = false
  now : w.virtualNow = w.virtualOffset

namespace Conf
variable {lib : Lib F} {c : ℕ → Conf F} {n : ℕ}

theorem IsRun.pendingHeld (h : IsRun lib c n) {k : ℕ} (hk : k ≤ n) :
    PendingHeld (c k).phase (c k).world := by
  refine h.invariant (R := PendingHeld) (fun i hne => ?_) (fun p w p' w' hp hm => hp.step hm) k hk
  rcases h.start.script i with hu | hd
  · exact absurd hu.pendingState hne
  · exact absurd (congrArg Script.pendingState hd) hne

theorem IsRun.settledWorld (h : IsRun lib c n)
    (hr : ∀ k < n, (c k).phase = .top → DueInReach (c k).world) {k : ℕ} (hk : k ≤ n)
    (hp : (c k).phase = .idle) : SettledWorld (c k).world := by
  have hq : QuietSoFar (c k).phase (c k).world := by
    refine h.invariant_of (R := QuietSoFar) (Q := fun p w => p = .top → DueInReach w) ?_ hr
      (fun p w p' w' hr hq hm => hq.step hr hm) k hk
    rw [h.start.phase]
    exact ⟨nofun, nofun⟩
  have hz := hq.2 hp
  have hqs (i : ℕ) : ((c k).world.script i).evq = [] := (hz (i+1)).queues i (Nat.lt_succ_self i)
  refine ⟨hqs, fun i => ?_, (hz 0).due, (hz 0).now⟩
  by_contra hne
  rcases h.pendingHeld hk i hne with he | ⟨new, he⟩ | he
  · rw [hp] at he
    cases he
  · rw [hp] at he
    cases he
  · exact he (hqs i)

end Conf

/-! ### The commands file -/

section
omit [CDouble F]

/-- A line of nothing but blanks. -/
def isBlank (s : Bytes) : Bool := s.all fun c => c == 13 || c == 32 || c == 9

/-- A line that starts with `#`, after blanks. -/
def isComment (s : Bytes) : Bool := (restOfLine s).head? = some 35

/-- A line without its trailing blanks. -/
def trimEnd (s : Bytes) : Bytes :=
  (s.reverse.dropWhile fun c => c == 13 || c == 32 || c == 9).reverse

/-- The lines of a commands file that are commands, in their order. -/
def fileCommands (text : Bytes) : List Bytes :=
  (((cstr text).splitOn 10).filter fun s => !isBlank s && !isComment s).map trimEnd

theorem trimEnd_eq_nil (s : Bytes) : trimEnd s = [] ↔ isBlank s := by
  simp only [trimEnd, List.reverse_eq_nil_iff, List.dropWhile_eq_nil_iff, List.mem_reverse,
    isBlank, List.all_eq_true]

theorem commandLine_eq (s : Bytes) :
    commandLine s = if !isBlank s && !isComment s then some (trimEnd s) else none := by
  have hb : trimEnd s ≠ [] ↔ isBlank s = false := by
    rw [ne_eq, trimEnd_eq_nil, Bool.not_eq_true]
  have hc : (restOfLine s).head? ≠ some 35 ↔ isComment s = false := by
    rw [isComment, decide_eq_false_iff_not]
  change (if trimEnd s ≠ [] ∧ (restOfLine s).head? ≠ some 35 then some (trimEnd s) else none) = _
  simp only [hb, hc, Bool.and_eq_true, Bool.not_eq_true']

theorem commandsFrom_eq (k : ℕ) (p : Bytes) (hk : p.length ≤ k) :
    commandsFrom k p = (p.splitOn 10).filterMap commandLine := by
  induction k generalizing p with
  | zero =>
    obtain rfl : p = [] := List.length_eq_zero_iff.mp (Nat.le_zero.mp hk)
    rfl
  | succ k ih =>
    cases p with
    | nil => rfl
    | cons c p =>
      rw [commandsFrom.eq_3 (c :: p) k (List.cons_ne_nil c p)]
      have hsplit := List.takeWhile_append_dropWhile (p := (· ≠ 10)) (l := c :: p)
      have hline : ∀ x ∈ (c :: p).takeWhile (· ≠ 10), (x == 10) = false := fun x hx => by
        simpa using List.mem_takeWhile_imp hx
      cases hd : (c :: p).dropWhile (· ≠ 10) with
      | nil =>
        rw [hd, List.append_nil] at hsplit
        rw [hsplit] at hline ⊢
        rw [List.splitOn_eq_splitOnP, List.splitOnP_eq_singleton hline, List.filterMap_cons]
        cases commandLine (c :: p) <;> rfl
      | cons x rest =>
        have hx : (x == 10) = true := by
          have := List.head?_dropWhile_not (· ≠ (10:UInt8)) (c :: p)
          rw [hd] at this
          simpa using this
        rw [hd] at hsplit
        have hlen : rest.length ≤ k := by
          have hl := congrArg List.length hsplit
          simp only [List.length_append, List.length_cons] at hl hk
          omega
        have hlines : (c :: p).splitOn 10 = (c :: p).takeWhile (· ≠ 10) :: rest.splitOn 10 := by
          have h := List.splitOnP_append_cons_of_forall_mem hline x hx rest
          rwa [hsplit] at h
        rw [hlines, List.filterMap_cons, ← ih rest hlen]
        cases commandLine ((c :: p).takeWhile (· ≠ 10)) <;> rfl

/-- The loader keeps the lines of the file that are commands. -/
theorem commandsLoad_eq (text : Bytes) : commandsLoad text = fileCommands text := by
  have hl : (cstr text).length ≤ text.length := (List.takeWhile_prefix _).length_le
  rw [commandsLoad, commandsFrom_eq _ _ hl, fileCommands]
  induction (cstr text).splitOn 10 with
  | nil => rfl
  | cons s lines ih =>
    rw [List.filterMap_cons, commandLine_eq, List.filter_cons, ih]
    cases !isBlank s && !isComment s <;> rfl

end

/-! ### Which commands are carried out -/

/-- The line of the commands file that the next step takes. -/
def linePumped (p : Phase) (w : World F) : Option Bytes :=
  if p = .idle ∨ p = .drain then w.commandLines[w.nextCommand]? else none

theorem Told.lines {w w' : World F} (h : Told w w') :
    w'.commandLines = w.commandLines ∧ w'.nextCommand = w.nextCommand := by
  have hc : w'.clock = (w.virtualNow, w'.virtualOffset, w'.advances, w.commandLines,
      w.nextCommand) := by
    cases h with
    | grown h =>
      have hc := h.clock
      simp only [World.clock, Prod.mk.injEq] at hc ⊢
      exact ⟨hc.1, trivial, trivial, hc.2.2.2⟩
    | wait f h =>
      have hc : w'.clock = (w.advance f).clock := congrArg (fun c => c.2.1) h
      simp only [World.clock, Prod.mk.injEq] at hc ⊢
      exact ⟨hc.1, trivial, trivial, hc.2.2.2⟩
  simp only [World.clock, Prod.mk.injEq] at hc
  exact hc.2.2.2

omit [CDouble F] in
theorem lines_of_core {w w' : World F} (h : w'.core = w.core) :
    w'.commandLines = w.commandLines ∧ w'.nextCommand = w.nextCommand :=
  ⟨congrArg (fun c => c.2.1.2.2.2.1) h, congrArg (fun c => c.2.1.2.2.2.2) h⟩

theorem fireTimer_lines (w : World F) :
    w.fireTimer.2.commandLines = w.commandLines ∧ w.fireTimer.2.nextCommand = w.nextCommand := by
  rcases h : w.dueTimer with ⟨d, _ | i⟩
  · rw [fireTimer_none h]
    exact ⟨rfl, rfl⟩
  · rw [fireTimer_some h]
    exact ⟨rfl, rfl⟩

/-- A step takes the next line exactly if it carries out a command. -/
theorem Moves.lines {p p' : Phase} {w w' : World F} (h : Moves p w p' w') :
    w'.commandLines = w.commandLines ∧
      w'.nextCommand = w.nextCommand+(linePumped p w).toList.length := by
  have hno {q : Phase} {u u' : World F} (hi : q ≠ .idle) (hd : q ≠ .drain)
      (hu : u'.commandLines = u.commandLines ∧ u'.nextCommand = u.nextCommand) :
      u'.commandLines = u.commandLines ∧
        u'.nextCommand = u.nextCommand+(linePumped q u).toList.length := by
    rw [linePumped, if_neg (not_or.mpr ⟨hi, hd⟩)]
    exact hu
  have hyes {q : Phase} {u u' : World F} (hq : q = .idle ∨ q = .drain) (hp : Pumped u u') :
      u'.commandLines = u.commandLines ∧
        u'.nextCommand = u.nextCommand+(linePumped q u).toList.length := by
    rw [linePumped, if_pos hq, List.getElem?_eq_getElem hp.1]
    exact hp.2.lines
  have hend {q : Phase} {u : World F} (hl : u.commandLines.length ≤ u.nextCommand) :
      (linePumped q u).toList.length = 0 := by
    rw [linePumped, List.getElem?_eq_none hl]
    split <;> rfl
  cases h with
  | command h => exact hyes (.inl rfl) h
  | drain h => exact hyes (.inr rfl) h
  | settleDown h => exact ⟨rfl, by rw [hend h]; rfl⟩
  | drained h => exact ⟨rfl, by rw [hend h]; rfl⟩
  | load h =>
    have hc := h.clock
    simp only [World.clock, Prod.mk.injEq] at hc
    exact hno (by simp) (by simp) hc.2.2.2
  | init _ h => exact hno (by simp) (by simp) ⟨h.elsewhere.lines, h.elsewhere.next⟩
  | start _ h => exact hno (by simp) (by simp) (lines_of_core h)
  | @head _ u h =>
    refine hno (by simp) (by simp) ?_
    rw [← (lines_of_core h).1, ← (lines_of_core h).2]
    exact fireTimer_lines u
  | limit h => exact hno (by simp) (by simp) (lines_of_core h)
  | around => exact hno (by simp) (by simp) ⟨rfl, rfl⟩
  | quiet => exact hno (by simp) (by simp) ⟨rfl, rfl⟩
  | skip => exact hno (by simp) (by simp) ⟨rfl, rfl⟩
  | ignore _ _ _ h =>
    have hl := lines_of_core h
    exact hno (by simp) (by simp) hl
  | dispatch _ _ _ h => exact hno (by simp) (by simp) ⟨h.elsewhere.lines, h.elsewhere.next⟩
  | settled => exact hno (by simp) (by simp) ⟨rfl, rfl⟩
  | change => exact hno (by simp) (by simp) ⟨rfl, rfl⟩
  | exit h => exact hno (by simp) (by simp) ⟨h.elsewhere.lines, h.elsewhere.next⟩
  | entry => exact hno (by simp) (by simp) ⟨rfl, rfl⟩
  | save h => exact hno (by simp) (by simp) (lines_of_core h)

/-- The loop after the main loop ends when no line is left. -/
def LinesSpent (p : Phase) (w : World F) : Prop :=
  p = .save ∨ p = .done → w.commandLines.length ≤ w.nextCommand

theorem LinesSpent.step {p p' : Phase} {w w' : World F} (hl : LinesSpent p w)
    (h : Moves p w p' w') : LinesSpent p' w' := by
  rintro (rfl | rfl)
  · cases h with
    | drained h => exact h
  · cases h with
    | save h =>
      rw [(lines_of_core h).1, (lines_of_core h).2]
      exact hl (.inl rfl)

theorem pump_commandLine {next last : Phase} {m m' : Machine F} {p : Phase} {line : Bytes}
    (hl : m.world.commandLines[m.world.nextCommand]? = some line)
    (h : pump next last m = (.ok p, m')) : m'.world =
      ({ m.world with nextCommand := m.world.nextCommand+1 }.runCommand line).countStep := by
  obtain ⟨b, m1, h1, h2⟩ := Run.of_bind_ok h
  have hc : m.world.commandsPump =
      (true, { m.world with nextCommand := m.world.nextCommand+1 }.runCommand line) := by
    unfold World.commandsPump
    rw [hl]
  cases h1
  simp only [hc] at h2
  cases h2
  rfl

namespace Conf

/-- The lines that the first `k` steps of a run take, in order. -/
def linesPumped (c : ℕ → Conf F) (k : ℕ) : List Bytes :=
  (List.range k).filterMap fun j => linePumped (c j).phase (c j).world

/-- The commands of a run: whenever the main loop is about to take one, the region is settled,
and every event pushed so far has been taken or dropped by a flush; what is carried out are the
commands of the file in its order, each once, and all of them if the run comes to its end. -/
structure CommandsSettled (c : ℕ → Conf F) (n : ℕ) (text : Bytes) : Prop where
  settled : ∀ k ≤ n, (c k).phase = .idle → SettledWorld (c k).world
  spent : ∀ k ≤ n, (c k).phase = .idle → ∀ i,
    (((c k).script i).tally.taken ++ ((c k).script i).tally.dropped.map Prod.fst).Perm
      (LinkedQueue.pushed ((c k).script i).queueOps).zipIdx
  carriesOut : ∀ k < n, ∀ line, linePumped (c k).phase (c k).world = some line →
    (c (k+1)).world = ({ (c k).world with
      nextCommand := (c k).world.nextCommand+1 }.runCommand line).countStep
  order : ∀ k ≤ n, linesPumped c k <+: fileCommands text
  all : ∀ k ≤ n, (c k).phase = .save ∨ (c k).phase = .done →
    linesPumped c k = fileCommands text

variable {lib : Lib F} {c : ℕ → Conf F} {n : ℕ}

theorem IsRun.lines (h : IsRun lib c n) {k : ℕ} (hk : k ≤ n) :
    (c k).world.commandLines = (c 0).world.commandLines ∧
      linesPumped c k = (c 0).world.commandLines.take (c k).world.nextCommand := by
  induction k with
  | zero => exact ⟨rfl, by rw [h.start.nextCommand, List.take_zero]; rfl⟩
  | succ k ih =>
    obtain ⟨hl, ho⟩ := ih (Nat.le_of_succ_le hk)
    have hm := (h.moves hk).lines
    refine ⟨hm.1.trans hl, ?_⟩
    have hs : linesPumped c (k+1) =
        linesPumped c k ++ (linePumped (c k).phase (c k).world).toList := by
      rw [linesPumped, List.range_succ, List.filterMap_append, ← linesPumped]
      rw [List.filterMap_cons, List.filterMap_nil]
      cases linePumped (c k).phase (c k).world <;> rfl
    rw [hs, ho, hm.2]
    cases hp : linePumped (c k).phase (c k).world with
    | none => exact List.append_nil _
    | some line =>
      have hget : (c 0).world.commandLines[(c k).world.nextCommand]? = some line := by
        rw [linePumped] at hp
        split at hp
        · rwa [hl] at hp
        · cases hp
      rw [Option.toList_some, List.length_singleton, List.take_add_one, hget]
      rfl

theorem IsRun.linesSpent (h : IsRun lib c n) {k : ℕ} (hk : k ≤ n) :
    LinesSpent (c k).phase (c k).world := by
  refine h.invariant (R := LinesSpent) ?_ (fun p w p' w' hl hm => hl.step hm) k hk
  rw [h.start.phase]
  rintro (hp | hp) <;> cases hp

theorem Step.carriesOut {c c' : Conf F} (h : Step lib c c') {line : Bytes}
    (hl : linePumped c.phase c.world = some line) : c'.world =
      ({ c.world with nextCommand := c.world.nextCommand+1 }.runCommand line).countStep := by
  obtain ⟨-, fuel, h⟩ := h
  rw [linePumped] at hl
  split at hl
  · rename_i hp
    rcases hp with hp | hp
    · rw [hp] at h
      exact pump_commandLine hl h
    · rw [hp] at h
      exact pump_commandLine hl h
  · cases hl

theorem IsRun.spent (h : IsRun lib c n) {k : ℕ} (hk : k ≤ n) (i : ℕ)
    (hq : ((c k).script i).evq = []) :
    (((c k).script i).tally.taken ++ ((c k).script i).tally.dropped.map Prod.fst).Perm
      (LinkedQueue.pushed ((c k).script i).queueOps).zipIdx := by
  have hf := (h.accounted hk i).fifo
  have hw : ((c k).script i).tally.waiting = [] := by
    rw [hf.queue, List.map_eq_nil_iff] at hq
    exact hq
  have hp := hf.places
  rwa [hw, List.append_nil] at hp

end Conf

/-- Commands meet a settled region, as long as no due timer is missed because adding `1.0` to the
offset does not get past its due time. -/
theorem commands_settled (lib : Lib F) (c : ℕ → Conf F) (n : ℕ) (text : Bytes)
    (h : Conf.IsRun lib c n) (hl : (c 0).world.commandLines = commandsLoad text)
    (hr : ∀ k < n, (c k).phase = .top → DueInReach (c k).world) :
    Conf.CommandsSettled c n text where
  settled k hk hp := h.settledWorld hr hk hp
  spent k hk hp i := h.spent hk i ((h.settledWorld hr hk hp).queues i)
  carriesOut k hk line hline := (h.step k hk).carriesOut hline
  order k hk := by
    rw [(h.lines hk).2, hl, commandsLoad_eq]
    exact List.take_prefix _ _
  all k hk hp := by
    have hs := h.linesSpent hk hp
    rw [(h.lines hk).1] at hs
    rw [(h.lines hk).2, List.take_of_length_le hs, hl, commandsLoad_eq]

/-- With exact times no timer is missed. -/
theorem dueInReach_rat (w : World ℚ) : DueInReach w := by
  intro h i hi
  by_contra hd
  rw [Bool.not_eq_false] at hd
  have hle : (w.script i).timerDue ≤ w.virtualOffset := by
    simpa using (Bool.and_eq_true_iff.mp hd).2
  have hlt := h i hi hd
  simp only [CDouble.rat_lt, CDouble.rat_add, CDouble.rat_one, decide_eq_false_iff_not] at hlt
  linarith

/-- A program that arms a timer when it starts. -/
def tickProgram (interval : Int64) : Program :=
  handlersProgram [(1, [callInts 4 [interval]]), (2, [])]

/-- A timer of one second, over three seconds. -/
theorem commands_settled_ticks : Conf.CommandsSettled
    ((regionOf [tickProgram 1] (commandsLoad (lit "# run\nWAIT 3\nSNAPSHOT"))).after noLib 30) 33
    (lit "# run\nWAIT 3\nSNAPSHOT") :=
  commands_settled noLib _ 33 _ (Conf.isRun_after (start_regionOf _ _) (by decide +kernel)) rfl
    fun _ _ _ => dueInReach_rat _

/-- A commands file that waits for so long that `virtual_offset + 1.0` is `virtual_offset`. -/
def longWait : Bytes := lit "WAIT 9007199254740992\nECHO late\n"

/-- `ECHO` is carried out while the timer is due. -/
theorem longWait_unsettled : ∃ c : ℕ → Conf Sig53, Conf.IsRun ⟨fun _ => none⟩ c 20 ∧
    (c 0).world.commandLines = commandsLoad longWait ∧ ¬ Conf.CommandsSettled c 20 longWait := by
  refine ⟨(regionWith Sig53 [tickProgram 9007199254740992] (commandsLoad longWait)).after
    ⟨fun _ => none⟩ 30, Conf.isRun_after (start_regionWith _ _) (by decide +kernel), rfl,
    fun h => ?_⟩
  have hd := (h.settled 14 (by omega) (by decide +kernel)).due 0 (by decide +kernel)
  exact absurd hd (by decide +kernel)

end Slemu
