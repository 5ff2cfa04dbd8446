import Slemu.Loader
import Slemu.SchedulerSteps

/-! How main.c and config.c set the region up: the options of the command line, the files that
they name, and the scripts. -/

namespace Slemu
variable {F : Type} [CDouble F]

/-- What the process finds outside: the files, the volumes that `volume_open` finds or makes,
and the bytes of uninitialised memory. -/
structure Disk where
  readFile : Bytes → Option Bytes
  volumeOpen : Bytes → Option Volume
  junk : ℕ → UInt64

/-- `main` returns a code, or the loader of a script comes to no end. -/
inductive Exit
  | code (n : ℕ)
  | stop (s : Stop)
  deriving DecidableEq

/-! ### HTTP fixtures -/

/-- One line of `http_fixture_load`. The new entry is the head of the list, and `cur` says whether
it is still open. The text that `atoi` reads goes on after the line. -/
def fixtureLine (p : Bytes) (fs : List HttpFixtureEntry) (cur : Bool) :
    List HttpFixtureEntry × Bool :=
  let line := p.takeWhile (· ≠ 10)
  let line := if line.getLast? = some 13 then line.dropLast else line
  if line = [] then (fs, false)
  else
    let fs := if cur then fs else ⟨none, 200, none⟩ :: fs
    if (lit "URL_MATCH").isPrefixOf line then
      (fs.modifyHead fun e => { e with matchUrl := some (restOfLine (line.drop 9)) }, true)
    else if (lit "STATUS").isPrefixOf line then
      (fs.modifyHead fun e => { e with status := atoi (p.drop 6) }, true)
    else if (lit "BODY").isPrefixOf line then
      (fs.modifyHead fun e => { e with body := some (restOfLine (line.drop 4)) }, true)
    else (fs, true)

/-- The loop of `http_fixture_load`. Every round ends a line, so the length of the text bounds
the rounds. -/
def fixturesFrom : ℕ → Bytes → List HttpFixtureEntry → Bool → List HttpFixtureEntry
  | 0, _, fs, _ => fs
  | _, [], fs, _ => fs
  | k+1, p, fs, cur =>
    let (fs, cur) := fixtureLine p fs cur
    match p.dropWhile (· ≠ 10) with
    | [] => fs
    | _ :: rest => fixturesFrom k rest fs cur

/-- `http_fixture_load` on the text of the file. -/
def httpFixtureLoad (text : Bytes) : List HttpFixtureEntry :=
  fixturesFrom text.length (cstr text) [] false

/-! ### The config file -/

/-- The lines of a config file that hold a directive. `config_load` cuts and skips lines as
`commands_load` does. -/
def configLines (text : Bytes) : List Bytes := commandsFrom text.length (cstr text)

/-- The UUID of an `OWNER` line, from what follows the word. -/
def ownerUuidOf (p : Bytes) : Bytes := (nextTok p).1.getD nullKey

/-- The balance and name after a UUID, where 0 and `d` stand for what is missing. -/
def balanceAndName (d p : Bytes) : ℤ × Bytes :=
  let (bal, p) := nextTok p
  let nm := restOfLine p
  ((bal.map (strtoll 10)).getD 0, if nm = [] then d else nm)

namespace World

def configOwner (w : World F) (p : Bytes) : World F :=
  let (bal, nm) := balanceAndName (lit "Owner") (nextTok p).2
  (w.regionAddAvatar (ownerUuidOf p) bal (some nm)).2.regionSetOwner (ownerUuidOf p) (some nm)

def configAvatar (w : World F) (p : Bytes) : World F :=
  match nextTok p with
  | (none, _) => w
  | (some uuid, p) =>
    let (bal, nm) := balanceAndName (lit "Avatar") p
    (w.regionAddAvatar uuid bal (some nm)).2

/-- One directive. `fx` says whether the newest fixture is still open. Groups and the name of the
region are left out. -/
def configLine (st : World F × Bool) (line : Bytes) : World F × Bool :=
  let (w, fx) := st
  let (word, p) := nextTok line
  if word = some (lit "OWNER") then (w.configOwner p, fx)
  else if word = some (lit "AVATAR") then (w.configAvatar p, fx)
  else if word = some (lit "FIXTURE_URL") then
    ({ w with httpFix := ⟨some (restOfLine p), 200, none⟩ :: w.httpFix }, true)
  else if word = some (lit "FIXTURE_STATUS") then
    if fx then
      ({ w with httpFix := w.httpFix.modifyHead fun e => { e with status := atoi (restOfLine p) } },
        fx)
    else st
  else if word = some (lit "FIXTURE_BODY") then
    if fx then
      ({ w with httpFix := w.httpFix.modifyHead fun e => { e with body := some (restOfLine p) } },
        fx)
    else st
  else if word = some (lit "FIXTURE_END") then (w, false)
  else st

/-- `config_load` on the text of the file. -/
def configLoad (w : World F) (text : Bytes) : World F :=
  ((configLines text).foldl configLine (w, false)).1

end World

/-! ### The command line -/

/-- The local variables of `main`. -/
structure Settings (F : Type) where
  region : World F
  volumePath : Bytes
  fixture : Option Bytes
  configPath : Option Bytes
  commandsPath : Option Bytes
  ownerUuid : Option Bytes
  ownerName : Option Bytes
  ownerBalance : ℤ
  objectName : Bytes

def Settings.default (env : Env F) : Settings F :=
  { region := regionInit env, volumePath := lit "./slemu_volume", fixture := none,
    configPath := none, commandsPath := none, ownerUuid := none, ownerName := none,
    ownerBalance := 0, objectName := lit "Object" }

/-- The owner if there is no `--owner`. -/
def defaultOwner : Bytes := lit "11111111-1111-1111-1111-111111111111"

def beforeColon (v : Bytes) : Bytes := v.takeWhile (· ≠ 58)

/-- What follows the first colon, if there is one. -/
def afterColon (v : Bytes) : Option Bytes :=
  match v.dropWhile (· ≠ 58) with
  | [] => none
  | _ :: rest => some rest

/-- The options without a value. The debugger is left out. -/
def flagOption (a : Bytes) (s : Settings F) : Option (Settings F) :=
  if a = lit "--trace" then some { s with region := { s.region with trace := true } }
  else if a = lit "--no-http" then some { s with region := { s.region with httpReal := false } }
  else if a = lit "--http-real" then some { s with region := { s.region with httpReal := true } }
  else if a = lit "--json-events" ∨ a = lit "--debug" then
    some { s with region := { s.region with jsonEvents := true } }
  else none

/-- The options with a value; for anything else `main` returns 2. -/
def valueOption (a v : Bytes) (s : Settings F) : Except Exit (Settings F) :=
  if a = lit "--http-fixture" then .ok { s with fixture := some v }
  else if a = lit "--volume" then .ok { s with volumePath := v }
  else if a = lit "--owner" then
    .ok { s with ownerUuid := some (beforeColon v), ownerName := (afterColon v).or s.ownerName }
  else if a = lit "--owner-balance" then .ok { s with ownerBalance := strtoll 10 v }
  else if a = lit "--avatar" then
    match afterColon v with
    | none => .error (.code 2)
    | some rest => .ok { s with region := (s.region.regionAddAvatar (beforeColon v)
        (strtoll 10 (beforeColon rest)) (afterColon rest)).2 }
  else if a = lit "--steps" then
    .ok { s with region := { s.region with maxSteps := strtoll 10 v } }
  else if a = lit "--timeout" then
    .ok { s with region := { s.region with wallTimeout := CDouble.strtod v } }
  else if a = lit "--name" then .ok { s with objectName := v }
  else if a = lit "--config" then .ok { s with configPath := some v }
  else if a = lit "--commands" then .ok { s with commandsPath := some v }
  else .error (.code 2)

/-- The loop over the options, which ends at the scripts. -/
def readOptions : List Bytes → Settings F → Except Exit (Settings F × List Bytes)
  | [], s => .ok (s, [])
  | a :: args, s =>
    if a.head? ≠ some 45 then .ok (s, a :: args)
    else if a = lit "-h" ∨ a = lit "--help" ∨ a = lit "--version" then .error (.code 0)
    else if a = lit "--" then .ok (s, args)
    else match flagOption a s with
      | some s => readOptions args s
      | none =>
        match args with
        | [] => .error (.code 2)
        | v :: args =>
          match valueOption a v s with
          | .ok s => readOptions args s
          | .error e => .error e

/-! ### `main` -/

/-- `return 2` where something is missing. -/
def orExit {α : Type} : Option α → Except Exit α
  | some x => .ok x
  | none => .error (.code 2)

/-- The owner, as `main` enters it. -/
def registerOwner (s : Settings F) (w : World F) : World F :=
  let w := match s.ownerUuid with
    | some uuid => (w.regionAddAvatar uuid s.ownerBalance s.ownerName).2
    | none => (w.regionAddAvatar defaultOwner s.ownerBalance (some (lit "Test Owner"))).2
  w.regionSetOwner (s.ownerUuid.getD defaultOwner) (some (s.ownerName.getD (lit "Test Owner")))

/-- What a file that an option may name does to the region. -/
def withFile (disk : Disk) (path : Option Bytes) (w : World F) (f : Bytes → World F) :
    Except Exit (World F) :=
  match path with
  | none => .ok w
  | some path => (orExit (disk.readFile path)).map f

/-- `program_load` on a file. -/
def loadFile (disk : Disk) (path : Bytes) : Except Exit Program :=
  match disk.readFile path with
  | none => .error (.code 2)
  | some src =>
    match programLoad src disk.junk with
    | .ok p => orExit p
    | .error e => .error (.stop e)

/-- The loop over the scripts. -/
def loadScripts (disk : Disk) (name : Bytes) : List Bytes → World F → Except Exit (World F)
  | [], w => .ok w
  | path :: paths, w =>
    match loadFile disk path with
    | .error e => .error e
    | .ok p => loadScripts disk name paths ((w.regionLoadScript p path).modScript w.scripts.length
        fun t => { t with name := name })

/-- `main` up to `region_run`. -/
def setUp (disk : Disk) (env : Env F) (args : List Bytes) : Except Exit (World F) := do
  let (s, paths) ← readOptions args (Settings.default env)
  if paths = [] then .error (.code 2)
  let v ← orExit (disk.volumeOpen s.volumePath)
  let w := registerOwner s { s.region with volume := some v }
  let w ← withFile disk s.fixture w fun text => { w with httpFix := httpFixtureLoad text }
  let w ← withFile disk s.configPath w w.configLoad
  let w ← withFile disk s.commandsPath w fun text => { w with commandLines := commandsLoad text }
  loadScripts disk s.objectName paths w

end Slemu
