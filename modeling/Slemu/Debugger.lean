import Slemu.DebuggerNames
import Slemu.EventJson

/-! The debugger of dbg.c: where it stops, and what it answers. -/

namespace Slemu
variable {F : Type}

/-! ### State -/

/-- `DbgMode` -/
inductive DbgMode
  | run
  | stepStmt
  | paused
  | dead
  deriving DecidableEq

structure DbgBreakpoint where
  id : ℤ
  file : Option Bytes
  line : ℤ
  enabled : Bool
  hitCount : ℤ

structure DbgCatchpoint where
  id : ℤ
  kind : Bytes
  enabled : Bool

/-- A name, a type and a value. -/
abbrev Named := Bytes × Bytes × Bytes

/-- One object that is written. -/
inductive DbgMsg (F : Type)
  | running
  | breakpoint (bp : DbgBreakpoint)
  | stopped (reason : Bytes) (script : Option Bytes) (line : ℤ)
  | breakpoints (bps : List DbgBreakpoint)
  | catchpoint (cp : DbgCatchpoint)
  | catchpoints (cps : List DbgCatchpoint)
  | value (v : Named)
  | locals (items : List Named)
  | globals (items : List Named)
  | frames (depths : List ℤ)
  | caught (kind : Bytes) (detail : Option Bytes)
  | error (msg : Bytes)
  | snapshot (w : World F)
  | exit

/-- `DbgState`. A frame stands by the number of frames from it on; both lists are newest first. -/
structure DbgState (F : Type) where
  enabled : Bool
  mode : DbgMode
  nextBpId : ℤ
  nextCpId : ℤ
  bps : List DbgBreakpoint
  cps : List DbgCatchpoint
  /-- the lines that `fgets` will still return -/
  cmdIn : List Bytes
  /-- what has been written, oldest first -/
  evtOut : List (DbgMsg F)
  curFrame : Option ℕ
  curScript : Option ℕ

/-- `dbg_init`, on what standard input holds. -/
def dbgInit (input : Bytes) : DbgState F :=
  { enabled := true, mode := .paused, nextBpId := 1, nextCpId := 1, bps := [], cps := []
    cmdIn := fgetsLines 8191 input.length input, evtOut := [], curFrame := none
    curScript := none }

def DbgState.emit (d : DbgState F) (m : DbgMsg F) : DbgState F :=
  { d with evtOut := d.evtOut ++ [m] }

/-! ### Commands -/

/-- What follows the first occurrence of a pattern. -/
def afterPat (pat : Bytes) : Bytes → Option Bytes
  | [] => if pat = [] then some [] else none
  | c :: t => if pat.isPrefixOf (c :: t) then some ((c :: t).drop pat.length) else afterPat pat t

/-- The characters of a string up to its quote, as many as there is room for. -/
def jCopy : ℕ → Bytes → Bytes
  | n+1, c :: t =>
    if c = 34 then []
    else if c = 92 then
      match t with
      | d :: u => d :: jCopy n u
      | [] => [c]
    else c :: jCopy n t
  | _, _ => []

/-- `j_get_str`, into a buffer of `outlen` characters. -/
def jGetStr (line key : Bytes) (outlen : ℕ) : Option Bytes :=
  (afterPat (34 :: key ++ [34, 58, 34]) line).map (jCopy (outlen-1))

/-- `j_get_int` -/
def jGetInt (line key : Bytes) : Option ℤ :=
  (afterPat (34 :: key ++ [34, 58]) line).map fun t => strtoll 10 (t.dropWhile (· = 32))

/-- What a line asks for. -/
inductive DbgCommand
  | none
  | continue_
  | step
  | quit
  | break_ (file : Bytes) (line : ℤ)
  | clear (id : ℤ)
  | breakpoints
  | catch_ (kind : Bytes)
  | uncatch (id : ℤ)
  | print (name : Bytes)
  | locals
  | globals
  | backtrace
  | snapshot
  | unknown

/-- The `strcmp` chain of `handle_command`. -/
def dbgCommand (buf : Bytes) : DbgCommand :=
  let line := cstr buf
  let cmd := (jGetStr line (lit "cmd") 64).getD []
  let str (key : String) (outlen : ℕ) := (jGetStr line (lit key) outlen).getD []
  let int (key : String) := toCInt ((jGetInt line (lit key)).getD 0)
  if cmd = [] then .none
  else if cmd = lit "continue" ∨ cmd = lit "c" ∨ cmd = lit "run" then .continue_
  else if cmd = lit "step" ∨ cmd = lit "s" then .step
  else if cmd = lit "quit" ∨ cmd = lit "q" then .quit
  else if cmd = lit "break" ∨ cmd = lit "b" then .break_ (str "file" 256) (int "line")
  else if cmd = lit "clear" ∨ cmd = lit "delete" then .clear (int "id")
  else if cmd = lit "breakpoints" ∨ cmd = lit "info" then .breakpoints
  else if cmd = lit "catch" then .catch_ (str "kind" 64)
  else if cmd = lit "uncatch" then .uncatch (int "id")
  else if cmd = lit "print" ∨ cmd = lit "p" then .print (str "name" 128)
  else if cmd = lit "locals" then .locals
  else if cmd = lit "globals" then .globals
  else if cmd = lit "backtrace" ∨ cmd = lit "bt" then .backtrace
  else if cmd = lit "snapshot" then .snapshot
  else .unknown

/-- The frames from a frame on to its parents. -/
def World.framesFrom (w : World F) (frame : Option ℕ) : List (Frame F) :=
  w.frames.drop (w.frames.length-frame.getD 0)

/-- `sv_type_name` -/
def svTypeName (v : SValue F) : Bytes :=
  match v with
  | .void => lit "void"
  | .int _ => lit "integer"
  | .float _ => lit "float"
  | .string _ => lit "string"
  | .key _ => lit "key"
  | .vec .. => lit "vector"
  | .rot .. => lit "rotation"
  | .list _ => lit "list"

variable [CDouble F]

def namedValue (name : Bytes) (v : SValue F) : Named := (name, svTypeName v, svToString v)

/-- What `emit_locals` goes over. -/
def World.localsFrom (w : World F) (s : Option ℕ) (frame : Option ℕ) : List Named :=
  (w.framesFrom frame).flatMap fun f => f.locs.reverse.map fun b =>
    namedValue ((s.map fun s => (w.script s).prog.str b.nameIdx).getD []) b.val

/-- What `emit_globals` goes over. -/
def World.globalsOf (w : World F) (s : Option ℕ) : List Named :=
  match s with
  | some s => (w.script s).prog.globals.zipIdx.map fun g =>
      namedValue ((w.script s).prog.str g.1.nameIdx) ((w.script s).globals.getD g.2 .void)
  | none => []

/-- `handle_command`, once the line is read; it resumes or keeps paused. -/
def DbgState.obey (w : World F) (d : DbgState F) : DbgCommand → (World F × DbgState F) × Bool
  | .none => ((w, d), true)
  | .continue_ => ((w, { d with mode := .run }.emit .running), false)
  | .step => ((w, { d with mode := .stepStmt }.emit .running), false)
  | .quit => (({ w with nSteps := w.maxSteps+1 }, { d with mode := .dead }), false)
  | .break_ file line =>
    let bp := ⟨d.nextBpId, if file = [] then .none else some file, line, true, 0⟩
    ((w, { d with nextBpId := d.nextBpId+1, bps := bp :: d.bps }.emit (.breakpoint bp)), true)
  | .clear id =>
    let bps := d.bps.eraseP fun bp => bp.id = id
    ((w, { d with bps := bps }.emit (.breakpoints bps)), true)
  | .breakpoints => ((w, (d.emit (.breakpoints d.bps)).emit (.catchpoints d.cps)), true)
  | .catch_ kind =>
    if kind = [] then ((w, d), true)
    else
      let cp := ⟨d.nextCpId, kind, true⟩
      ((w, { d with nextCpId := d.nextCpId+1, cps := cp :: d.cps }.emit (.catchpoint cp)), true)
  | .uncatch id =>
    let cps := d.cps.eraseP fun cp => cp.id = id
    ((w, { d with cps := cps }.emit (.catchpoints cps)), true)
  | .print name =>
    match resolveName (d.curScript.map w.script) (w.framesFrom d.curFrame) name with
    | some v => ((w, d.emit (.value (namedValue name v))), true)
    | none => ((w, d.emit (.error (lit "no such variable"))), true)
  | .locals => ((w, d.emit (.locals (w.localsFrom d.curScript d.curFrame))), true)
  | .globals => ((w, d.emit (.globals (w.globalsOf d.curScript))), true)
  | .backtrace =>
    ((w, d.emit (.frames ((w.framesFrom d.curFrame).map Frame.scopeDepth))), true)
  | .snapshot => ((w, d.emit (.snapshot w)), true)
  | .unknown => ((w, d.emit (.error (lit "unknown command"))), true)

/-- `pause_loop`, on the lines that are left. -/
def pauseLoop (w : World F) (d : DbgState F) : List Bytes → World F × DbgState F
  | [] => (w, { d with cmdIn := [], mode := .run })
  | line :: rest =>
    let r := { d with cmdIn := rest }.obey w (dbgCommand line)
    if r.2 then pauseLoop r.1.1 r.1.2 rest else r.1

/-! ### Hooks -/

/-- `emit_stopped` and the loop after it. -/
def DbgState.stop (w : World F) (d : DbgState F) (reason : Bytes) (s : Option ℕ) (line : ℤ) :
    World F × DbgState F :=
  pauseLoop w ({ d with mode := .paused }.emit
    (.stopped reason (s.map fun s => (w.script s).name) line)) d.cmdIn

/-- The first enabled breakpoint on a line has been hit once more. -/
def hitAt (line : ℤ) : List DbgBreakpoint → Option (List DbgBreakpoint)
  | [] => none
  | bp :: bps =>
    if bp.enabled ∧ bp.line = line then some ({ bp with hitCount := bp.hitCount+1 } :: bps)
    else (hitAt line bps).map (bp :: ·)

/-- `dbg_check_stmt`, with the frames as the world has them. -/
def dbgCheckStmt (w : World F) (d : DbgState F) (s : ℕ) (line : ℤ) : World F × DbgState F :=
  if ¬ d.enabled ∨ d.mode = .dead then (w, d)
  else
    let d := { d with curScript := some s, curFrame := some w.frames.length }
    if d.mode = .stepStmt ∧ 0 < line then d.stop w (lit "step") (some s) line
    else if 0 < line then
      match hitAt line d.bps with
      | some bps => { d with bps := bps }.stop w (lit "breakpoint") (some s) line
      | none => (w, d)
    else (w, d)

/-- `dbg_check_event` -/
def dbgCheckEvent (w : World F) (d : DbgState F) (s : ℕ) : World F × DbgState F :=
  if ¬ d.enabled ∨ d.mode = .dead then (w, d) else (w, { d with curScript := some s })

/-- `dbg_check_catch` -/
def dbgCheckCatch (w : World F) (d : DbgState F) (kind : Bytes) (detail : Option Bytes) :
    World F × DbgState F :=
  if ¬ d.enabled ∨ d.mode = .dead then (w, d)
  else if d.cps.any fun cp => cp.enabled && cp.kind = kind then
    (d.emit (.caught kind detail)).stop w (lit "catch") d.curScript 0
  else (w, d)

/-- `dbg_handshake_pause` -/
def dbgHandshakePause (w : World F) (d : DbgState F) (s : ℕ) : World F × DbgState F :=
  if ¬ d.enabled then (w, d)
  else { d with curScript := some s, curFrame := none }.stop w (lit "entry") (some s) 0

/-- `dbg_notify_exit` -/
def dbgNotifyExit (d : DbgState F) : DbgState F := if d.enabled then d.emit .exit else d

/-- A call of the debugger from the region, the interpreter or an emitter. -/
inductive DbgHook
  | handshake (s : ℕ)
  | stmt (s : ℕ) (line : ℤ)
  | event (s : ℕ)
  | catch_ (kind : Bytes) (detail : Option Bytes)

def DbgHook.call (w : World F) (d : DbgState F) : DbgHook → World F × DbgState F
  | .handshake s => dbgHandshakePause w d s
  | .stmt s line => dbgCheckStmt w d s line
  | .event s => dbgCheckEvent w d s
  | .catch_ kind detail => dbgCheckCatch w d kind detail

/-- The calls of a session, each from the world of its moment. -/
def session (d : DbgState F) : List (World F × DbgHook) → DbgState F
  | [] => d
  | (w, h) :: hs => session (h.call w d).2 hs

end Slemu
