import Slemu.NumberedList
import Slemu.Debugger
import Mathlib.Tactic.Common

/-! What the debugger is for: two finite maps, of lines and of kinds, and a mode say where the
program stops. The session of dbg.c is a session of this plan. -/

namespace Slemu
variable {F : Type}

/-! ### The plan -/

/-- Where to stop, by the numbers under which it was asked for. -/
structure StopPlan where
  mode : DbgMode
  script : Option ℕ
  lines : ℤ → Option ℤ
  kinds : ℤ → Option Bytes
  nextLine : ℤ
  nextKind : ℤ

/-- What the user learns from a line of the dialogue. -/
inductive PlanMsg
  | running
  | line (id line : ℤ)
  | lines (m : ℤ → Option ℤ)
  | kind (id : ℤ) (kind : Bytes)
  | kinds (m : ℤ → Option Bytes)
  | caught (kind : Bytes)
  | stopped (reason : Bytes) (script : Option Bytes) (line : ℤ)
  | shown

namespace StopPlan

def start : StopPlan := ⟨.paused, none, fun _ => none, fun _ => none, 1, 1⟩

/-- What a command changes, what it is answered, and whether the pause goes on. -/
def obey (a : StopPlan) : DbgCommand → (StopPlan × List PlanMsg) × Bool
  | .none => ((a, []), true)
  | .continue_ => (({ a with mode := .run }, [.running]), false)
  | .step => (({ a with mode := .stepStmt }, [.running]), false)
  | .quit => (({ a with mode := .dead }, []), false)
  | .break_ _ line =>
    (({ a with lines := Function.update a.lines a.nextLine (some line), nextLine := a.nextLine+1 },
      [.line a.nextLine line]), true)
  | .clear id =>
    let m := Function.update a.lines id none
    (({ a with lines := m }, [.lines m]), true)
  | .breakpoints => ((a, [.lines a.lines, .kinds a.kinds]), true)
  | .catch_ kind =>
    if kind = [] then ((a, []), true)
    else
      (({ a with kinds := Function.update a.kinds a.nextKind (some kind)
                 nextKind := a.nextKind+1 }, [.kind a.nextKind kind]), true)
  | .uncatch id =>
    let m := Function.update a.kinds id none
    (({ a with kinds := m }, [.kinds m]), true)
  | .print _ | .locals | .globals | .backtrace | .snapshot | .unknown => ((a, [.shown]), true)

/-- A pause reads commands until one resumes, or there is none left. -/
def pause (a : StopPlan) : List DbgCommand → (StopPlan × List PlanMsg) × List DbgCommand
  | [] => (({ a with mode := .run }, []), [])
  | c :: cs =>
    let r := a.obey c
    if r.2 then
      let p := r.1.1.pause cs
      ((p.1.1, r.1.2 ++ p.1.2), p.2)
    else (r.1, cs)

/-- A hook tells which script is at work. -/
def visit (a : StopPlan) : DbgHook → StopPlan
  | .handshake s => { a with script := some s }
  | .stmt s _ | .event s => if a.mode = .dead then a else { a with script := some s }
  | .catch_ .. => a

open Classical in
/-- Whether a hook stops the program, and why: at the start, at a statement when stepping or on a
line that is asked for, and where something of a kind that is asked for happens. -/
noncomputable def reason (a : StopPlan) : DbgHook → Option (List PlanMsg × Bytes × ℤ)
  | .handshake _ => some ([], lit "entry", 0)
  | .stmt _ line =>
    if a.mode = .dead ∨ line ≤ 0 then none
    else if a.mode = .stepStmt then some ([], lit "step", line)
    else if ∃ id, a.lines id = some line then some ([], lit "breakpoint", line)
    else none
  | .event _ => none
  | .catch_ kind _ =>
    if a.mode ≠ .dead ∧ ∃ id, a.kinds id = some kind then some ([.caught kind], lit "catch", 0)
    else none

variable [CDouble F]

/-- One hook: the program goes on, or stops for a pause. -/
noncomputable def turn (a : StopPlan) (w : World F) (h : DbgHook) (cs : List DbgCommand) :
    (StopPlan × List PlanMsg) × List DbgCommand :=
  let b := a.visit h
  match b.reason h with
  | none => ((b, []), cs)
  | some (first, why, line) =>
    let p := b.pause cs
    ((p.1.1, first ++ .stopped why (b.script.map fun s => (w.script s).name) line :: p.1.2), p.2)

/-- The dialogue over the hooks of a run. -/
noncomputable def session (a : StopPlan) (cs : List DbgCommand) :
    List (World F × DbgHook) → List PlanMsg
  | [] => []
  | (w, h) :: hs =>
    let r := a.turn w h cs
    r.1.2 ++ r.1.1.session r.2 hs

end StopPlan

/-! ### The debugger follows it -/

def DbgBreakpoint.entry (bp : DbgBreakpoint) : ℤ × ℤ := (bp.id, bp.line)

def DbgCatchpoint.entry (cp : DbgCatchpoint) : ℤ × Bytes := (cp.id, cp.kind)

/-- The lines of a list of breakpoints. -/
def lineMap (bps : List DbgBreakpoint) : ℤ → Option ℤ :=
  NumberedList.view (bps.map DbgBreakpoint.entry)

/-- The kinds of a list of catchpoints. -/
def kindMap (cps : List DbgCatchpoint) : ℤ → Option Bytes :=
  NumberedList.view (cps.map DbgCatchpoint.entry)

/-- What the user learns from an object. -/
def DbgMsg.meaning : DbgMsg F → Option PlanMsg
  | .running => some .running
  | .breakpoint bp => some (.line bp.id bp.line)
  | .stopped reason script line => some (.stopped reason script line)
  | .breakpoints bps => some (.lines (lineMap bps))
  | .catchpoint cp => some (.kind cp.id cp.kind)
  | .catchpoints cps => some (.kinds (kindMap cps))
  | .caught kind _ => some (.caught kind)
  | .value _ | .locals _ | .globals _ | .frames _ | .error _ | .snapshot _ => some .shown
  | .exit => none

/-- The dialogue so far. -/
def DbgState.told (d : DbgState F) : List PlanMsg := d.evtOut.filterMap DbgMsg.meaning

/-- All but the mode. -/
structure FollowsPlan (d : DbgState F) (a : StopPlan) : Prop where
  on : d.enabled = true
  script : d.curScript = a.script
  bps : NumberedList.Below d.nextBpId (d.bps.map DbgBreakpoint.entry)
  bpsOn : ∀ bp ∈ d.bps, bp.enabled = true
  lines : lineMap d.bps = a.lines
  nextLine : d.nextBpId = a.nextLine
  cps : NumberedList.Below d.nextCpId (d.cps.map DbgCatchpoint.entry)
  cpsOn : ∀ cp ∈ d.cps, cp.enabled = true
  kinds : kindMap d.cps = a.kinds
  nextKind : d.nextCpId = a.nextKind

theorem follows_init (input : Bytes) : FollowsPlan (dbgInit input : DbgState F) StopPlan.start where
  on := rfl
  script := rfl
  bps := NumberedList.Below.nil 1
  bpsOn := List.forall_mem_nil _
  lines := rfl
  nextLine := rfl
  cps := NumberedList.Below.nil 1
  cpsOn := List.forall_mem_nil _
  kinds := rfl
  nextKind := rfl

/-- What is written and read, and the mode, do not matter for it. -/
theorem FollowsPlan.congr {d d' : DbgState F} {a a' : StopPlan} (h : FollowsPlan d a)
    (hd : d' = { d with mode := d'.mode, cmdIn := d'.cmdIn, evtOut := d'.evtOut
                        curFrame := d'.curFrame })
    (ha : a' = { a with mode := a'.mode }) : FollowsPlan d' a' := by
  rw [hd, ha]
  exact ⟨h.on, h.script, h.bps, h.bpsOn, h.lines, h.nextLine, h.cps, h.cpsOn, h.kinds, h.nextKind⟩

/-- A hook that is heard moves both to its script. -/
theorem FollowsPlan.atScript {d : DbgState F} {a : StopPlan} (h : FollowsPlan d a) (s : ℕ)
    (frame : Option ℕ) :
    FollowsPlan { d with curScript := some s, curFrame := frame } { a with script := some s } :=
  ⟨h.on, rfl, h.bps, h.bpsOn, h.lines, h.nextLine, h.cps, h.cpsOn, h.kinds, h.nextKind⟩

/-- The guard of the hooks is open until the user quits. -/
theorem FollowsPlan.heard {d : DbgState F} {a : StopPlan} (h : FollowsPlan d a)
    (hmode : d.mode = a.mode) (hdead : a.mode ≠ .dead) :
    ¬ (¬ d.enabled = true ∨ d.mode = .dead) := by
  rintro (hoff | hd)
  · exact hoff h.on
  · exact hdead (hmode.symm.trans hd)

@[simp] theorem told_emit (d : DbgState F) (m : DbgMsg F) :
    (d.emit m).told = d.told ++ m.meaning.toList := by
  rw [DbgState.told, DbgState.told, DbgState.emit, List.filterMap_append]
  congr 1

/-! ### A command -/

variable [CDouble F] {d : DbgState F} {a : StopPlan}

/-- What `handle_command` and the plan make of one command. -/
structure Obeyed (d : DbgState F) (a : StopPlan) (r : (World F × DbgState F) × Bool)
    (p : (StopPlan × List PlanMsg) × Bool) : Prop where
  follows : FollowsPlan r.1.2 p.1.1
  told : r.1.2.told = d.told ++ p.1.2
  unread : r.1.2.cmdIn = d.cmdIn
  paused : r.2 = p.2
  mode : p.2 = false → r.1.2.mode = p.1.1.mode

omit [CDouble F] in
/-- An answer that changes nothing. -/
theorem FollowsPlan.answer (h : FollowsPlan d a) (w : World F) (m : DbgMsg F)
    (hm : m.meaning = some .shown) :
    Obeyed d a ((w, d.emit m), true) ((a, [.shown]), true) where
  follows := h.congr rfl rfl
  told := by rw [told_emit, hm]; rfl
  unread := rfl
  paused := rfl
  mode := fun h => by cases h

theorem obey_follows (h : FollowsPlan d a) (w : World F) (c : DbgCommand) :
    Obeyed d a (d.obey w c) (a.obey c) := by
  cases c with
  | none => exact ⟨h, (List.append_nil _).symm, rfl, rfl, fun h => by cases h⟩
  | continue_ =>
    exact ⟨h.congr rfl rfl, told_emit _ _, rfl, rfl, fun _ => rfl⟩
  | step =>
    exact ⟨h.congr rfl rfl, told_emit _ _, rfl, rfl, fun _ => rfl⟩
  | quit =>
    exact ⟨h.congr rfl rfl, (List.append_nil _).symm, rfl, rfl, fun _ => rfl⟩
  | break_ file line =>
    rw [DbgState.obey, StopPlan.obey]
    refine ⟨?_, ?_, rfl, rfl, fun h => by cases h⟩
    · exact ⟨h.on, h.script, h.bps.cons line, List.forall_mem_cons.mpr ⟨rfl, h.bpsOn⟩,
        by rw [← h.lines, ← h.nextLine]; exact NumberedList.view_cons (d.nextBpId, line) _,
        congrArg (· + 1) h.nextLine, h.cps, h.cpsOn, h.kinds, h.nextKind⟩
    · rw [told_emit, ← h.nextLine]
      rfl
  | clear id =>
    -- only the newest breakpoint of this id goes, and no other has it
    have hbelow := (h.bps.eraseP id).1
    have hmap : lineMap (d.bps.eraseP fun bp => bp.id = id) =
        Function.update (lineMap d.bps) id none := (h.bps.eraseP id).2
    rw [DbgState.obey, StopPlan.obey]
    refine ⟨?_, ?_, rfl, rfl, fun h => by cases h⟩
    · exact ⟨h.on, h.script, hbelow, fun bp hbp => h.bpsOn bp (List.mem_of_mem_eraseP hbp),
        by rw [← h.lines]; exact hmap, h.nextLine, h.cps, h.cpsOn, h.kinds, h.nextKind⟩
    · rw [told_emit, ← h.lines, ← hmap]
      rfl
  | breakpoints =>
    refine ⟨h.congr rfl rfl, ?_, rfl, rfl, fun h => by cases h⟩
    rw [DbgState.obey, told_emit, told_emit, StopPlan.obey, ← h.lines, ← h.kinds,
      List.append_assoc]
    rfl
  | catch_ kind =>
    by_cases hk : kind = []
    · rw [DbgState.obey, StopPlan.obey, if_pos hk, if_pos hk]
      exact ⟨h, (List.append_nil _).symm, rfl, rfl, fun h => by cases h⟩
    · rw [DbgState.obey, StopPlan.obey, if_neg hk, if_neg hk]
      refine ⟨?_, ?_, rfl, rfl, fun h => by cases h⟩
      · exact ⟨h.on, h.script, h.bps, h.bpsOn, h.lines, h.nextLine, h.cps.cons kind,
          List.forall_mem_cons.mpr ⟨rfl, h.cpsOn⟩,
          by rw [← h.kinds, ← h.nextKind]; exact NumberedList.view_cons (d.nextCpId, kind) _,
          congrArg (· + 1) h.nextKind⟩
      · rw [told_emit, ← h.nextKind]
        rfl
  | uncatch id =>
    have hbelow := (h.cps.eraseP id).1
    have hmap : kindMap (d.cps.eraseP fun cp => cp.id = id) =
        Function.update (kindMap d.cps) id none := (h.cps.eraseP id).2
    rw [DbgState.obey, StopPlan.obey]
    refine ⟨?_, ?_, rfl, rfl, fun h => by cases h⟩
    · exact ⟨h.on, h.script, h.bps, h.bpsOn, h.lines, h.nextLine, hbelow,
        fun cp hcp => h.cpsOn cp (List.mem_of_mem_eraseP hcp),
        by rw [← h.kinds]; exact hmap, h.nextKind⟩
    · rw [told_emit, ← h.kinds, ← hmap]
      rfl
  | print name =>
    rw [DbgState.obey, StopPlan.obey]
    cases resolveName (d.curScript.map w.script) (w.framesFrom d.curFrame) name with
    | some v => exact h.answer w _ rfl
    | none => exact h.answer w _ rfl
  | locals => exact h.answer w _ rfl
  | globals => exact h.answer w _ rfl
  | backtrace => exact h.answer w _ rfl
  | snapshot => exact h.answer w _ rfl
  | unknown => exact h.answer w _ rfl

/-! ### A pause -/

/-- What `pause_loop` and the plan make of the rest of the commands. -/
structure Paused (before : List PlanMsg) (d' : DbgState F)
    (p : (StopPlan × List PlanMsg) × List DbgCommand) : Prop where
  follows : FollowsPlan d' p.1.1
  told : d'.told = before ++ p.1.2
  mode : d'.mode = p.1.1.mode
  unread : d'.cmdIn.map dbgCommand = p.2

theorem pauseLoop_follows (h : FollowsPlan d a) (w : World F) (lines : List Bytes) :
    Paused d.told (pauseLoop w d lines).2 (a.pause (lines.map dbgCommand)) := by
  induction lines generalizing w d a with
  | nil => exact ⟨h.congr rfl rfl, (List.append_nil _).symm, rfl, rfl⟩
  | cons line rest ih =>
    have hread : FollowsPlan { d with cmdIn := rest } a := h.congr rfl rfl
    have hobey := obey_follows hread w (dbgCommand line)
    rw [pauseLoop, List.map_cons, StopPlan.pause]
    by_cases hk : (a.obey (dbgCommand line)).2 = true
    · -- the pause goes on
      rw [if_pos (hobey.paused.trans hk), if_pos hk]
      have hrest := ih hobey.follows
        (({ d with cmdIn := rest } : DbgState F).obey w (dbgCommand line)).1.1
      refine ⟨hrest.follows, ?_, hrest.mode, hrest.unread⟩
      rw [hrest.told, hobey.told, List.append_assoc]
      rfl
    · -- it is over: the mode is the one the command left, and the rest is not read
      have hk' := Bool.eq_false_of_not_eq_true hk
      have hd := hobey.paused.trans hk'
      rw [if_neg (by rw [hd]; exact Bool.false_ne_true), if_neg hk]
      refine ⟨hobey.follows, hobey.told, hobey.mode hk', ?_⟩
      rw [hobey.unread]

/-! ### A stop -/

theorem hitAt_cons (line : ℤ) (bp : DbgBreakpoint) (bps : List DbgBreakpoint) :
    hitAt line (bp :: bps) = if bp.enabled ∧ bp.line = line
      then some ({ bp with hitCount := bp.hitCount+1 } :: bps)
      else (hitAt line bps).map (bp :: ·) := rfl

/-- A breakpoint is hit where the map has the line. -/
theorem hitAt_isSome (line : ℤ) {bps : List DbgBreakpoint} (hon : ∀ bp ∈ bps, bp.enabled = true) :
    (hitAt line bps).isSome = true ↔ ∃ x ∈ bps.map DbgBreakpoint.entry, x.2 = line := by
  induction bps with
  | nil => simp [hitAt]
  | cons bp bps ih =>
    obtain ⟨hbp, hbps⟩ := List.forall_mem_cons.mp hon
    rw [hitAt_cons, List.map_cons, List.exists_mem_cons_iff, ← ih hbps]
    by_cases hl : bp.line = line
    · rw [if_pos ⟨hbp, hl⟩]
      exact ⟨fun _ => .inl hl, fun _ => rfl⟩
    · rw [if_neg (fun h => hl h.2), Option.isSome_map]
      exact ⟨.inr, fun h => h.resolve_left hl⟩

/-- A hit changes no entry. -/
theorem hitAt_entries {line : ℤ} {bps bps' : List DbgBreakpoint}
    (hon : ∀ bp ∈ bps, bp.enabled = true) (h : hitAt line bps = some bps') :
    bps'.map DbgBreakpoint.entry = bps.map DbgBreakpoint.entry ∧
      ∀ bp ∈ bps', bp.enabled = true := by
  induction bps generalizing bps' with
  | nil => cases h
  | cons bp bps ih =>
    obtain ⟨hbp, hbps⟩ := List.forall_mem_cons.mp hon
    rw [hitAt_cons] at h
    by_cases hl : bp.line = line
    · rw [if_pos ⟨hbp, hl⟩] at h
      obtain rfl := Option.some.inj h
      exact ⟨rfl, List.forall_mem_cons.mpr ⟨hbp, hbps⟩⟩
    · rw [if_neg (fun h => hl h.2)] at h
      obtain ⟨rest, hrest, rfl⟩ := Option.map_eq_some_iff.mp h
      obtain ⟨hmap, hon'⟩ := ih hbps hrest
      exact ⟨congrArg (bp.entry :: ·) hmap, List.forall_mem_cons.mpr ⟨hbp, hon'⟩⟩

theorem stop_follows (h : FollowsPlan d a) (w : World F) (reason : Bytes) (s : Option ℕ)
    (line : ℤ) :
    let p := a.pause (d.cmdIn.map dbgCommand)
    Paused d.told (d.stop w reason s line).2
      ((p.1.1, .stopped reason (s.map fun s => (w.script s).name) line :: p.1.2), p.2) := by
  intro p
  let d₀ := ({ d with mode := .paused } : DbgState F).emit
    (.stopped reason (s.map fun s => (w.script s).name) line)
  have h₀ : FollowsPlan d₀ a := h.congr rfl rfl
  have hp := pauseLoop_follows h₀ w d.cmdIn
  refine ⟨hp.follows, ?_, hp.mode, hp.unread⟩
  have htold : d₀.told = d.told ++ [.stopped reason (s.map fun s => (w.script s).name) line] :=
    told_emit _ _
  calc (d.stop w reason s line).2.told = d₀.told ++ p.1.2 := hp.told
    _ = _ := by rw [htold, List.append_assoc]; rfl

omit [CDouble F] in
/-- The debugger goes on without a word. -/
theorem FollowsPlan.goOn {d' : DbgState F} {b : StopPlan} (h : FollowsPlan d' b)
    (htold : d'.told = d.told) (hread : d'.cmdIn = d.cmdIn) (hmode : d'.mode = b.mode) :
    Paused d.told d' ((b, []), d.cmdIn.map dbgCommand) :=
  ⟨h, htold.trans (List.append_nil _).symm, hmode, congrArg _ hread⟩

theorem dbgCheckStmt_follows (h : FollowsPlan d a) (hmode : d.mode = a.mode) (w : World F) (s : ℕ)
    (line : ℤ) :
    Paused d.told (dbgCheckStmt w d s line).2
      (a.turn w (.stmt s line) (d.cmdIn.map dbgCommand)) := by
  rw [dbgCheckStmt, StopPlan.turn]
  by_cases hdead : a.mode = .dead
  · have hv : a.visit (.stmt s line) = a := if_pos hdead
    have hr : a.reason (.stmt s line) = none := if_pos (.inl hdead)
    rw [if_pos (.inr (hmode.trans hdead)), hv, hr]
    exact h.goOn rfl rfl hmode
  · have hv : a.visit (.stmt s line) = { a with script := some s } := if_neg hdead
    rw [if_neg (h.heard hmode hdead), hv]
    have h' := h.atScript s (some w.frames.length)
    -- a statement without a line stops nothing
    by_cases hline : 0 < line
    · have hpos : ¬ (a.mode = .dead ∨ line ≤ 0) := by
        rintro (hd | hle)
        · exact hdead hd
        · omega
      by_cases hstep : a.mode = .stepStmt
      · -- a step
        have hr : ({ a with script := some s } : StopPlan).reason (.stmt s line) =
            some ([], lit "step", line) := (if_neg hpos).trans (if_pos hstep)
        rw [hr]
        dsimp only
        rw [if_pos ⟨hmode.trans hstep, hline⟩]
        exact stop_follows h' w (lit "step") (some s) line
      · have hstep' : ¬ (d.mode = .stepStmt ∧ 0 < line) := fun hd => hstep (hmode.symm.trans hd.1)
        have hex : (∃ id, a.lines id = some line) ↔
            ∃ x ∈ d.bps.map DbgBreakpoint.entry, x.2 = line := by
          rw [← h.lines]
          exact h.bps.exists_view line
        have hhit := hitAt_isSome line h.bpsOn
        dsimp only
        rw [if_neg hstep', if_pos hline]
        cases hbps : hitAt line d.bps with
        | some bps =>
          rw [hbps] at hhit
          have hmem := hhit.mp rfl
          obtain ⟨hentry, hbpsOn⟩ := hitAt_entries h.bpsOn hbps
          have hr : ({ a with script := some s } : StopPlan).reason (.stmt s line) =
              some ([], lit "breakpoint", line) :=
            (if_neg hpos).trans ((if_neg hstep).trans (if_pos (hex.mpr hmem)))
          rw [hr]
          -- the hit is counted, which the plan does not see
          have h'' : FollowsPlan
              { d with curScript := some s, curFrame := some w.frames.length, bps := bps }
              { a with script := some s } :=
            ⟨h.on, rfl, by rw [hentry]; exact h.bps, hbpsOn,
              by rw [lineMap, hentry]; exact h.lines, h.nextLine, h.cps, h.cpsOn, h.kinds,
              h.nextKind⟩
          exact stop_follows h'' w (lit "breakpoint") (some s) line
        | none =>
          rw [hbps] at hhit
          have hr : ({ a with script := some s } : StopPlan).reason (.stmt s line) = none :=
            (if_neg hpos).trans ((if_neg hstep).trans (if_neg fun hid =>
              Bool.false_ne_true (hhit.mpr (hex.mp hid))))
          rw [hr]
          exact h'.goOn rfl rfl hmode
    · have hr : ({ a with script := some s } : StopPlan).reason (.stmt s line) = none :=
        if_pos (.inr (by omega))
      rw [hr]
      dsimp only
      rw [if_neg (fun hd => hline hd.2), if_neg hline]
      exact h'.goOn rfl rfl hmode

theorem dbgCheckCatch_follows (h : FollowsPlan d a) (hmode : d.mode = a.mode) (w : World F)
    (kind : Bytes) (detail : Option Bytes) :
    Paused d.told (dbgCheckCatch w d kind detail).2
      (a.turn w (.catch_ kind detail) (d.cmdIn.map dbgCommand)) := by
  have hv : a.visit (.catch_ kind detail) = a := rfl
  -- the list is searched by kind, the map by number
  have hex : (∃ id, a.kinds id = some kind) ↔
      (d.cps.any fun cp => cp.enabled && cp.kind = kind) = true := by
    rw [← h.kinds]
    refine (h.cps.exists_view kind).trans ?_
    rw [List.any_eq_true]
    constructor
    · rintro ⟨x, hx, hkind⟩
      obtain ⟨cp, hcp, rfl⟩ := List.mem_map.mp hx
      exact ⟨cp, hcp, by rw [h.cpsOn cp hcp, Bool.true_and]; exact decide_eq_true hkind⟩
    · rintro ⟨cp, hcp, hkind⟩
      rw [h.cpsOn cp hcp, Bool.true_and] at hkind
      exact ⟨cp.entry, List.mem_map_of_mem hcp, of_decide_eq_true hkind⟩
  rw [dbgCheckCatch, StopPlan.turn, hv]
  by_cases hdead : a.mode = .dead
  · have hr : a.reason (.catch_ kind detail) = none := if_neg fun hc => hc.1 hdead
    rw [if_pos (.inr (hmode.trans hdead)), hr]
    exact h.goOn rfl rfl hmode
  · rw [if_neg (h.heard hmode hdead)]
    by_cases hany : (d.cps.any fun cp => cp.enabled && cp.kind = kind) = true
    · have hr : a.reason (.catch_ kind detail) = some ([.caught kind], lit "catch", 0) :=
        if_pos ⟨hdead, hex.mpr hany⟩
      rw [if_pos hany, hr]
      -- what was caught is told before the stop
      have hcaught : FollowsPlan (d.emit (.caught kind detail)) a := h.congr rfl rfl
      have hstop := stop_follows hcaught w (lit "catch") d.curScript 0
      refine ⟨hstop.follows, ?_, hstop.mode, hstop.unread⟩
      have htold : (d.emit (.caught kind detail)).told = d.told ++ [.caught kind] := told_emit _ _
      rw [hstop.told, htold, h.script, List.append_assoc]
      rfl
    · have hr : a.reason (.catch_ kind detail) = none := if_neg fun hc => hany (hex.mp hc.2)
      rw [if_neg hany, hr]
      exact h.goOn rfl rfl hmode

theorem hook_follows (h : FollowsPlan d a) (hmode : d.mode = a.mode) (w : World F)
    (hook : DbgHook) :
    Paused d.told (hook.call w d).2 (a.turn w hook (d.cmdIn.map dbgCommand)) := by
  cases hook with
  | handshake s =>
    rw [DbgHook.call, dbgHandshakePause, if_neg (fun hoff => hoff h.on)]
    exact stop_follows (h.atScript s none) w (lit "entry") (some s) 0
  | stmt s line => exact dbgCheckStmt_follows h hmode w s line
  | event s =>
    rw [DbgHook.call, dbgCheckEvent]
    by_cases hdead : a.mode = .dead
    · have hv : a.visit (.event s) = a := if_pos hdead
      rw [if_pos (.inr (hmode.trans hdead)), StopPlan.turn, hv]
      exact h.goOn rfl rfl hmode
    · have hv : a.visit (.event s) = { a with script := some s } := if_neg hdead
      rw [if_neg (h.heard hmode hdead), StopPlan.turn, hv]
      exact (h.atScript s d.curFrame).goOn rfl rfl hmode
  | catch_ kind detail => exact dbgCheckCatch_follows h hmode w kind detail

theorem session_follows (h : FollowsPlan d a) (hmode : d.mode = a.mode)
    (hs : List (World F × DbgHook)) :
    (session d hs).told = d.told ++ a.session (d.cmdIn.map dbgCommand) hs := by
  induction hs generalizing d a with
  | nil => exact (List.append_nil _).symm
  | cons wh hs ih =>
    obtain ⟨w, hook⟩ := wh
    have hturn := hook_follows h hmode w hook
    have hrest := ih hturn.follows hturn.mode
    rw [session, hrest, hturn.told, hturn.unread, List.append_assoc]
    rfl

end Slemu
