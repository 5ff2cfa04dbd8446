import Slemu.Vm
import Slemu.Commands

/-! The event-dispatch loop (region.c), as a machine that takes one step of `region_run` after
the other. -/

namespace Slemu
variable {F : Type}

/-- Where `region_run` is. -/
inductive Phase
  | load
  /-- `init_script` of script `i` is next. -/
  | init (i : ℕ)
  /-- The head of the loop. -/
  | top
  /-- Script `i` may take an event from its queue. -/
  | visit (i : ℕ) (anyProgress : Bool)
  /-- An event of script `i` is done with. -/
  | settle (i : ℕ)
  /-- Script `i` has gone over to state `new`, and `state_exit` of `old` is next. -/
  | exit (i : ℕ) (old : Option ℕ) (new : ℕ)
  /-- `state_entry` of script `i` is to be queued. -/
  | entry (i : ℕ) (new : ℕ)
  /-- No script had an event. -/
  | idle
  /-- The commands after the loop. -/
  | drain
  | save
  | done
  deriving DecidableEq

namespace World
variable [CDouble F]

/-- `region_load_script`, for a program that was loaded. -/
def regionLoadScript (w : World F) (p : Program) (path : Bytes) : World F :=
  let (uuid, w) := w.genUuid
  { w with scripts := w.scripts ++ [{ (default : Script F) with
      prog := p, progPath := path, name := lit "Object", uuid := uuid,
      linkNum := w.scripts.length+1, globals := p.globals.map fun _ => .void }] }

/-- One round of the search for a due timer: the earliest so far, and its script. -/
def timerRound (el : F) (best : F × Option ℕ) (t : Script F × ℕ) : F × Option ℕ :=
  if CDouble.lt CDouble.zero t.1.timerInterval && CDouble.le t.1.timerDue el &&
      CDouble.lt t.1.timerDue best.1 then (t.1.timerDue, some t.2)
  else best

/-- The earliest timer that is due, if any. -/
def dueTimer (w : World F) : F × Option ℕ :=
  w.scripts.zipIdx.foldl (timerRound w.virtualOffset)
    (CDouble.add w.virtualOffset CDouble.one, none)

/-- Fires one due timer, or moves the virtual time on. -/
def fireTimer (w : World F) : Bool × World F :=
  match w.dueTimer with
  | (earliest, some i) =>
    let w := { w with virtualNow := earliest }
    let w := w.pushDue i (lit "timer") [] (some earliest)
    (true, w.modScript i fun t => { t with timerDue := CDouble.add t.timerDue t.timerInterval })
  | (_, none) => (false, { w with virtualNow := w.virtualOffset })

def countStep (w : World F) : World F := { w with nSteps := w.nSteps+1 }

/-- `max_steps`, 0 for no limit. -/
def outOfSteps (w : World F) : Bool := 0 < w.maxSteps && w.maxSteps ≤ w.nSteps

/-- The wall-clock limit, on a reading of the clock. -/
def outOfTime (w : World F) (tStart now : F) : Bool :=
  CDouble.lt w.wallTimeout (CDouble.sub now tStart)

/-- `now_seconds` -/
def nowSeconds (w : World F) : F × World F :=
  (w.env.nowSeconds w.draws, { w with draws := w.draws+1 })

/-- The next event of a queue. -/
def dequeue (w : World F) (i : ℕ) : World F :=
  w.modScript i Script.pop

/-- The switch to a new state, with the events of the old one dropped. -/
def switchState (w : World F) (i new : ℕ) : World F :=
  w.modScript i fun t => { t.flush .stateChange with
    curState := some new, pendingState := none }

end World

/-- The handler of a state for an event. -/
def Program.handler (p : Program) (st : ℕ) (name : Bytes) : Option EventDecl :=
  p.states[st]?.bind fun sd => sd.events.find? fun ev => p.str ev.nameIdx = name

/-- The handler that the current state of a script has for an event. -/
def Script.handler (t : Script F) (name : Bytes) : Option EventDecl :=
  t.curState.bind fun st => t.prog.handler st name

variable [CDouble F]

/-- The first loop of `init_script`. -/
def initGlobals (r : Interp F) (s : ℕ) : List (GlobalVar × ℕ) → VM F Unit
  | [] => pure ()
  | (g, i) :: gs => do
    initGlobal r s i g (some (svZero g.type))
    initGlobals r s gs

/-- The state that a script starts in. -/
def startState (p : Program) (cur : Option ℕ) : Option ℕ :=
  match p.defaultState with
  | some i => some i
  | none => if cur.isNone && p.states ≠ [] then some 0 else cur

/-- `init_script` -/
def initScript (lib : Lib F) (s fuel : ℕ) : VM F Unit := do
  let p ← VM.get fun w => (w.script s).prog
  initGlobals (interp lib s fuel) s p.globals.zipIdx
  VM.set fun w => w.modScript s fun t => { t with curState := startState t.prog t.curState }
  VM.set fun w => w.pushEvent s (lit "state_entry") []

/-- `dispatch_event` -/
def dispatchEvent (lib : Lib F) (s fuel : ℕ) (ev : Event F) : VM F Unit := do
  match ← VM.get fun w => (w.script s).handler ev.name with
  | none => pure ()
  | some ed => do
    VM.set fun w => w.emit (.eventDispatch (w.script s).name ev.name ev.args.length)
    vmDispatch lib s fuel ed ev.args

/-- The two limits at the head of the loop. -/
def limitReached : VM F Bool := do
  if ← VM.get World.outOfSteps then pure true
  else if ← VM.get fun w => CDouble.lt CDouble.zero w.wallTimeout then do
    let now ← VM.call World.nowSeconds
    Run.read fun m => m.world.outOfTime m.tStart now
  else pure false

/-- Notes `t_start`. -/
def startClock : VM F Unit := do
  let now ← VM.call World.nowSeconds
  Run.update fun m => { m with tStart := now }

/-- The head of the loop, with the search for a due timer. -/
def loopHead : VM F Phase := do
  if ← limitReached then pure .drain
  else do
    let anyProgress ← VM.call World.fireTimer
    pure (.visit 0 anyProgress)

/-- The visit of one script. -/
def visitScript (lib : Lib F) (fuel i : ℕ) (anyProgress : Bool) : VM F Phase := do
  if ← VM.get fun w => decide (i < w.scripts.length) then
    match ← VM.get fun w => (w.script i).evq with
    | [] => pure (.visit (i+1) anyProgress)
    | ev :: _ => do
      VM.set fun w => w.dequeue i
      dispatchEvent lib i fuel ev
      VM.set World.countStep
      pure (.settle i)
  else pure (if anyProgress then .top else .idle)

/-- Takes up a pending change of state. -/
def settleScript (i : ℕ) : VM F Phase := do
  let t ← VM.get fun w => w.script i
  match t.pendingState with
  | none => pure (.visit (i+1) true)
  | some new => do
    VM.set fun w => w.switchState i new
    pure (.exit i t.curState new)

/-- `state_exit` of the state that was left. -/
def exitState (lib : Lib F) (fuel i : ℕ) (old : Option ℕ) : VM F Unit := do
  let p ← VM.get fun w => (w.script i).prog
  match old.bind fun st => p.handler st (lit "state_exit") with
  | none => pure ()
  | some ex => vmDispatch lib i fuel ex []

/-- One command, counted as a step; where to go on from there if there was none left. -/
def pump (next last : Phase) : VM F Phase := do
  if ← VM.call World.commandsPump then do
    VM.set World.countStep
    pure next
  else pure last

/-- One step of `region_run`. -/
def regionStep (lib : Lib F) (fuel : ℕ) : Phase → VM F Phase
  | .load => do
    VM.set World.volumeLoadEconomy
    pure (.init 0)
  | .init i => do
    if ← VM.get fun w => decide (i < w.scripts.length) then do
      initScript lib i fuel
      pure (.init (i+1))
    else do
      startClock
      pure .top
  | .top => loopHead
  | .visit i anyProgress => visitScript lib fuel i anyProgress
  | .settle i => settleScript i
  | .exit i old new => do
    exitState lib fuel i old
    pure (.entry i new)
  | .entry i _ => do
    VM.set fun w => w.pushEvent i (lit "state_entry") []
    pure (.visit (i+1) true)
  | .idle => pump .top .drain
  | .drain => pump .drain .save
  | .save => do
    VM.set World.volumeSaveEconomy
    pure .done
  | .done => pure .done

/-- `region_run` at a moment between two steps. -/
structure Conf (F : Type) where
  phase : Phase
  machine : Machine F

namespace Conf

def world (c : Conf F) : World F := c.machine.world

def script (c : Conf F) (i : ℕ) : Script F := c.world.script i

/-- A step that comes to its end, with whatever fuel that takes. -/
def Step (lib : Lib F) (c c' : Conf F) : Prop :=
  c.phase ≠ .done ∧ ∃ fuel, regionStep lib fuel c.phase c.machine = (.ok c'.phase, c'.machine)

/-- A script as `region_load_script` leaves it. -/
structure Unstarted (t : Script F) : Prop where
  curState : t.curState = none
  pendingState : t.pendingState = none
  evq : t.evq = []
  history : t.history = []
  timerInterval : t.timerInterval = CDouble.zero
  timerDue : t.timerDue = CDouble.zero
  globals : t.globals = t.prog.globals.map fun _ => .void

/-- The start of `region_run` on a region of newly loaded scripts. -/
structure Start (c : Conf F) : Prop where
  phase : c.phase = .load
  virtualNow : c.world.virtualNow = CDouble.zero
  virtualOffset : c.world.virtualOffset = CDouble.zero
  advances : c.world.advances = []
  nextCommand : c.world.nextCommand = 0
  frames : c.world.frames = []
  log : c.machine.log = []
  scripts : ∀ t ∈ c.world.scripts, Unstarted t

/-- A run of `n` steps. -/
structure IsRun (lib : Lib F) (c : ℕ → Conf F) (n : ℕ) : Prop where
  start : Start (c 0)
  step : ∀ k < n, Step lib (c k) (c (k+1))

end Conf

end Slemu
