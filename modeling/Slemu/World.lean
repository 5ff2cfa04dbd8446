import Slemu.Value
import Slemu.Syntax

/-! The state of the emulator: scripts, avatars, the event queues, the volume and what the
process keeps in static variables (slemu.h, region.c, util.c). -/

namespace Slemu
variable (F : Type)

/-- A single event waiting to be dispatched. -/
structure Event where
  name : Bytes
  args : List (SValue F)
  deriving Inhabited

/-- What empties a queue. -/
inductive Flush
  | stateChange
  | die
  | reset
  deriving DecidableEq

/-- What happens to the queue and the timer of a script, noted for the statements below only. The
`timer` event of the scheduler comes with its due time. -/
inductive Deed
  | push (ev : Event F) (due : Option F)
  | pop
  | flush (why : Flush)
  | setTimer (interval now : F)

structure ListenEntry where
  handle : ℤ
  channel : ℤ
  nameFilter : Bytes
  idFilter : Bytes
  msgFilter : Bytes
  active : Bool

/-- One slot of `detected[]`, with the fields that builtins read. -/
structure Detected where
  key : Bytes
  name : Bytes
  owner : Bytes
  pos : SValue F
  linkNumber : ℤ
  type : ℤ

/-- Per-script interpreter state. `none` stands for the -1 of `cur_state` and `pending_state`;
the queue is the chain from `evq_head`. -/
structure Script where
  prog : Program
  progPath : Bytes
  linkNum : ℤ
  name : Bytes
  desc : Bytes
  uuid : Bytes
  curState : Option ℕ
  pendingState : Option ℕ
  globals : List (SValue F)
  evq : List (Event F)
  /-- oldest first; nothing the interpreter does depends on it -/
  history : List (Deed F)
  timerInterval : F
  timerDue : F
  /-- newest first, as `llListen` links them -/
  listens : List ListenEntry
  perms : ℤ
  permsKey : Option Bytes
  detected : List (Detected F)
  hudText : Option Bytes

structure Avatar where
  uuid : Bytes
  name : Bytes
  balance : ℤ
  attachedObject : Option Bytes
  deriving DecidableEq, Inhabited

structure OpenDialog where
  scriptUuid : Bytes
  toAvatar : Bytes
  message : Bytes
  buttons : List Bytes
  channel : ℤ
  isTextbox : Bool

structure InboundUrl where
  url : Bytes
  /-- position of the target in the script table -/
  target : ℕ
  reqKey : Bytes

structure HttpFixtureEntry where
  matchUrl : Option Bytes
  status : ℤ
  body : Option Bytes

/-- The project volume: `economy.txt`, if present, and the files of `lsd/` by name. -/
structure Volume where
  economy : Option Bytes
  lsd : AList fun _ : Bytes => Bytes

/-- What one call of an `evt_*` emitter reports. -/
inductive Evt
  | chat (kind : Bytes) (ch : ℤ) (src srcUuid msg : Bytes)
  | chatTo (src srcUuid dst : Bytes) (ch : ℤ) (msg : Bytes)
  | dialog (src srcUuid dst msg : Bytes) (buttons : List Bytes) (ch : ℤ) (isTextbox : Bool)
  | loadUrl (src dst label url : Bytes)
  | hudText (src text : Bytes) (r g b alpha : F)
  | money (src dst : Bytes) (amt ok : ℤ)
  | permissionRequest (src who : Bytes) (mask : ℤ)
  | linkMsg (src : Bytes) (srcLink target num : ℤ) (str id : Bytes)
  | httpOut (src url method : Bytes) (status : ℤ) (bodyLen : ℕ)
  | eventDispatch (src event : Bytes) (nArgs : ℕ)
  | info (msg : Bytes)
  | assertion (what : Bytes) (passed : Bool) (detail : Bytes)
  | lsdSet (src key value : Bytes)
  | primSet (src fn : Bytes)
  | agentDataRequest (src who kind : Bytes)
  | rez (src inventory : Bytes)
  | setPos (src : Bytes) (x y z : F)
  | setRot (src : Bytes) (x y z s : F)
  | snapshot

/-- Answers of the world outside the process, by number of the question. -/
structure Env where
  rand : ℕ → ℕ
  nowSeconds : ℕ → F
  unixTime : ℕ → ℤ
  timestamp : ℕ → Bytes
  date : ℕ → Bytes
  wallclock : ℕ → F
  /-- status and body of a request made with curl -/
  curl : ℕ → ℤ × Bytes
  /-- the order in which `readdir` returns the entries of a directory -/
  readdir : List Bytes → List Bytes
  readdir_perm : ∀ names, (readdir names).Perm names

structure LocalBinding where
  nameIdx : Int32
  val : SValue F
  scopeDepth : ℤ
  /-- the declared type; the interpreter does not keep it and nothing below reads it -/
  declType : UInt8

/-- A running function or handler, with its bindings from the last declared on. -/
structure Frame where
  locs : List (LocalBinding F)
  scopeDepth : ℤ
  returning : Bool
  retVal : SValue F
  jumping : Bool
  jumpNameIdx : Int32

/-- The region together with the static variables of the process. -/
structure World where
  scripts : List (Script F)
  virtualNow : F
  virtualOffset : F
  /-- what `virtual_offset` was moved by, oldest first; noted for the statements below only -/
  advances : List F
  volume : Option Volume
  avatars : List Avatar
  httpReal : Bool
  httpFix : List HttpFixtureEntry
  /-- newest first -/
  inbound : List InboundUrl
  /-- newest first -/
  dialogs : List OpenDialog
  trace : Bool
  jsonEvents : Bool
  maxSteps : ℤ
  nSteps : ℤ
  wallTimeout : F
  commandLines : List Bytes
  nextCommand : ℕ
  /-- `SLEMU_OWNER` -/
  envOwner : Option Bytes
  /-- `g_frame` and its parents -/
  frames : List (Frame F)
  /-- `next_handle` of `bi_llListen` -/
  nextHandle : ℤ
  /-- `uuid_counter` -/
  uuidCounter : ℕ
  /-- `g_chat_log`: kind, channel and message, newest first -/
  chatLog : List (Bytes × ℤ × Bytes)
  /-- emitted events with their time stamp, oldest first -/
  out : List (F × Evt F)
  env : Env F
  /-- questions put to `env` so far -/
  draws : ℕ

variable {F} [CDouble F]

instance : Inhabited (Script F) :=
  ⟨{ prog := default, progPath := [], linkNum := 0, name := [], desc := [], uuid := [],
     curState := none, pendingState := none, globals := [], evq := [],
     history := [], timerInterval := CDouble.zero, timerDue := CDouble.zero, listens := [], perms := 0,
     permsKey := none, detected := [], hudText := none }⟩

/-- An outside world where nothing happens. -/
instance : Inhabited (Env F) :=
  ⟨{ rand := fun _ => 0, nowSeconds := fun _ => CDouble.zero, unixTime := fun _ => 0,
     timestamp := fun _ => [], date := fun _ => [], wallclock := fun _ => CDouble.zero,
     curl := fun _ => (0, []), readdir := fun names => names,
     readdir_perm := fun names => List.Perm.refl names }⟩

/-- `region_init`, with the static variables as the process starts. -/
def regionInit (env : Env F) : World F :=
  { scripts := [], virtualNow := CDouble.zero, virtualOffset := CDouble.zero, advances := [], volume := none,
    avatars := [], httpReal := false, httpFix := [], inbound := [], dialogs := [],
    trace := false, jsonEvents := false, maxSteps := 100000, nSteps := 0,
    wallTimeout := CDouble.ofInt 60, commandLines := [], nextCommand := 0, envOwner := none,
    frames := [], nextHandle := 1, uuidCounter := 1, chatLog := [], out := [], env := env,
    draws := 0 }

namespace Script

omit [CDouble F]

/-- An event at the end of the queue. -/
def push (t : Script F) (ev : Event F) (due : Option F) : Script F :=
  { t with evq := t.evq ++ [ev], history := t.history ++ [.push ev due] }

/-- The first event off the queue. -/
def pop (t : Script F) : Script F :=
  { t with evq := t.evq.tail, history := t.history ++ [.pop] }

/-- Drops the queue. -/
def flush (t : Script F) (why : Flush) : Script F :=
  { t with evq := [], history := t.history ++ [.flush why] }

end Script

namespace World

def script (w : World F) (s : ℕ) : Script F := w.scripts.getD s default

def modScript (w : World F) (s : ℕ) (f : Script F → Script F) : World F :=
  { w with scripts := w.scripts.modify s f }

omit [CDouble F] in
@[simp] theorem modScript_length (w : World F) (s : ℕ) (f : Script F → Script F) :
    (w.modScript s f).scripts.length = w.scripts.length := by
  simp only [modScript, List.length_modify]

theorem modScript_script (w : World F) (s : ℕ) (f : Script F → Script F)
    (hs : s < w.scripts.length) : (w.modScript s f).script s = f (w.script s) := by
  simp only [script, modScript, List.getD_eq_getElem?_getD, List.getElem?_modify_eq,
    List.getElem?_eq_getElem hs, Option.map_eq_map, Option.map_some, Option.getD_some]

theorem modScript_script_ne (w : World F) (s i : ℕ) (f : Script F → Script F) (h : i ≠ s) :
    (w.modScript s f).script i = w.script i := by
  simp only [script, modScript, List.getD_eq_getElem?_getD]
  rw [List.getElem?_modify_ne f w.scripts (Ne.symm h)]

/-- `script_push_event`, with the due time if the scheduler fires a timer. -/
def pushDue (w : World F) (s : ℕ) (name : Bytes) (args : List (SValue F)) (due : Option F) :
    World F :=
  w.modScript s fun t => t.push ⟨name, args⟩ due

/-- `script_push_event` -/
def pushEvent (w : World F) (s : ℕ) (name : Bytes) (args : List (SValue F)) : World F :=
  w.pushDue s name args none

/-- `virtual_offset += f` -/
def advance (w : World F) (f : F) : World F :=
  { w with virtualOffset := CDouble.add w.virtualOffset f, advances := w.advances ++ [f] }

/-- Every `evt_*` emitter ends here. -/
def emit (w : World F) (e : Evt F) : World F :=
  { w with out := w.out ++ [(w.virtualNow, e)] }

/-- `chatlog_record` -/
def chatlogRecord (w : World F) (kind : Bytes) (ch : ℤ) (msg : Bytes) : World F :=
  { w with chatLog := (kind, ch, msg) :: w.chatLog }

/-- One call of `rand`. -/
def rand (w : World F) : ℕ × World F := (w.env.rand w.draws, { w with draws := w.draws+1 })

/-- `gen_uuid`: 8-4-4-4-12 hexadecimal digits from two masked random words, the counter and
a third random word. -/
def genUuid (w : World F) : Bytes × World F :=
  let (r1, w) := w.rand
  let a := (r1 ^^^ w.uuidCounter*2%2^64)%2^32
  let (r2, w) := w.rand
  let b := (r2 ^^^ w.uuidCounter*7%2^64)%2^32
  let n := w.uuidCounter
  let w := { w with uuidCounter := (n+1)%2^64 }
  let (r3, w) := w.rand
  (hexBytes 8 a ++ lit "-" ++ hexBytes 4 (b/2^16%2^16) ++ lit "-" ++ hexBytes 4 (b%2^16) ++
    lit "-" ++ hexBytes 4 (n/2^16%2^16) ++ lit "-" ++ hexBytes 8 (n%2^32) ++
    hexBytes 4 (r3%2^16), w)

/-- `owner_uuid`: the first avatar, or `SLEMU_OWNER`, or the built-in default. -/
def ownerUuid (w : World F) : Bytes :=
  match w.avatars with
  | a :: _ => a.uuid
  | [] => w.envOwner.getD (lit "11111111-1111-1111-1111-111111111111")

end World

end Slemu
