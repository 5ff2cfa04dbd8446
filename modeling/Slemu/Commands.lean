import Slemu.Builtins

/-! Player and world actions (commands.c): one line of the commands file after the other. -/

namespace Slemu
variable {F : Type}

/-- `%d` and `%lld` of an optional word, with the default of the source. -/
def atoiOr (d : ℤ) : Option Bytes → ℤ
  | some t => atoi t
  | none => d

/-- What glibc prints for `%s`. -/
def orNull (t : Option Bytes) : Bytes := t.getD (lit "(null)")

/-- `chatlog_alias` -/
def chatlogAlias (k : Bytes) : Bytes :=
  if k = lit "owner-say" ∨ k = lit "owner_say" then lit "owner"
  else if k = lit "region-say" ∨ k = lit "region_say" then lit "region"
  else if k = lit "region-say-to" ∨ k = lit "region-to" then lit "region-to"
  else if k = lit "instant-message" ∨ k = lit "instant_message" ∨ k = lit "im" then lit "im"
  else k

/-- `INT_MAX_SENTINEL`, any channel. -/
def anyChannel : ℤ := -2147483647

/-! ### The commands file -/

/-- A line of the file without its trailing blanks, if it is neither blank nor a comment. -/
def commandLine (s : Bytes) : Option Bytes :=
  let line := (s.reverse.dropWhile fun c => c == 13 || c == 32 || c == 9).reverse
  if line ≠ [] ∧ (restOfLine s).head? ≠ some 35 then some line else none

/-- The loop of `commands_load`. Every round ends a line, so the length of the text bounds the
rounds. -/
def commandsFrom : ℕ → Bytes → List Bytes
  | 0, _ => []
  | _, [] => []
  | k+1, p => (commandLine (p.takeWhile (· ≠ 10))).toList ++
    match p.dropWhile (· ≠ 10) with
    | [] => []
    | _ :: rest => commandsFrom k rest

/-- `commands_load`: the command lines of a file. -/
def commandsLoad (text : Bytes) : List Bytes := commandsFrom text.length (cstr text)

example : commandsLoad (lit "# setup\n WAIT 1 \r\n\n  # no\nECHO a b") =
    [lit " WAIT 1", lit "ECHO a b"] := by decide

namespace World

/-- `script_by_link` -/
def scriptByLink (w : World F) (link : ℤ) : Option ℕ :=
  w.scripts.findIdx? fun t => t.linkNum = link

/-- `chatlog_matches` -/
def chatlogMatches (w : World F) (kind : Option Bytes) (ch : ℤ) (substr : Bytes) : Bool :=
  let want := chatlogAlias (kind.getD [])
  w.chatLog.any fun (k, c, msg) =>
    (want = [] || k = want) && (ch = anyChannel || c = ch) && containsBytes msg substr

def info (w : World F) (msg : Bytes) : World F := w.emit (.info msg)

/-- `dialog_find` -/
def dialogFind (w : World F) (avatarUuid : Bytes) : Option OpenDialog :=
  w.dialogs.find? fun d => d.toAvatar = avatarUuid

/-- `dialog_close` -/
def dialogClose (w : World F) (avatarUuid : Bytes) : World F :=
  { w with dialogs := w.dialogs.filter fun d => d.toAvatar ≠ avatarUuid }

/-- `inbound_resolve` -/
def inboundResolve (w : World F) (url : Bytes) : Option ℕ :=
  match w.inbound.find? fun u => u.url = url with
  | some u => some u.target
  | none => (w.inbound.find? fun u => containsBytes url u.url).map InboundUrl.target

/-- The speaker of `LISTEN`: by UUID, by name, or the owner for `*`. -/
def speaker (w : World F) (who : Bytes) : Option Avatar :=
  match w.avatars.find? fun a => a.uuid = who with
  | some a => some a
  | none => match w.avatars.find? fun a => a.name = who with
    | some a => some a
    | none => if who = lit "*" then w.avatars.head? else none

variable [CDouble F]

/-! ### Time and output -/

def cmdWait (w : World F) (p : Bytes) : World F :=
  let s := match (nextTok p).1 with
    | some t => CDouble.strtod t
    | none => CDouble.zero
  (w.advance s).info
    (lit "wait " ++ CDouble.fmt 3 s ++ lit "s")

def cmdEcho (w : World F) (p : Bytes) : World F := w.info (restOfLine p)

def cmdSnapshot (w : World F) : World F := w.emit .snapshot

/-- `EXIT` only moves the step counter past the limit. -/
def cmdExit (w : World F) : World F := { w with nSteps := w.maxSteps+1 }

/-! ### Touches -/

/-- `push_detected` -/
def pushDetected (w : World F) (s : ℕ) (uuid name : Bytes) : World F :=
  w.modScript s fun t => { t with
    detected := [⟨uuid, name, uuid, .vec CDouble.zero CDouble.zero CDouble.zero, 0, 1⟩] }

/-- The events of a touch, one after the other. -/
def pushTouches (w : World F) (s : ℕ) (names : List Bytes) : World F :=
  names.foldl (fun w name => w.pushEvent s name [.int 1]) w

/-- The avatar of `TOUCH` and `TOUCH_FACE`: the first of the table. -/
def toucher (w : World F) : Bytes × Bytes :=
  match w.avatars with
  | a :: _ => (a.uuid, a.name)
  | [] => (lit "anon", lit "Avatar")

def cmdTouch (w : World F) (p : Bytes) : World F :=
  let link := atoiOr 1 (nextTok p).1
  match w.scriptByLink link with
  | none => w
  | some s =>
    let (avatar, name) := w.toucher
    let w := w.pushDetected s avatar name
    let w := w.pushTouches s [lit "touch_start", lit "touch", lit "touch_end"]
    w.info (lit "TOUCH link=" ++ decBytes link ++ lit " by " ++ name)

def cmdTouchFace (w : World F) (p : Bytes) : World F :=
  let (l, p) := nextTok p
  let link := atoiOr 1 l
  let face := atoiOr 0 (nextTok p).1
  match w.scriptByLink link with
  | none => w
  | some s =>
    let (avatar, name) := w.toucher
    let w := w.pushDetected s avatar name
    let w := w.pushTouches s [lit "touch_start", lit "touch_end"]
    w.info (lit "TOUCH link=" ++ decBytes link ++ lit " face=" ++ decBytes face)

def cmdTouchAs (w : World F) (p : Bytes) : World F :=
  let (l, p) := nextTok p
  let link := atoiOr 1 l
  match w.scriptByLink link, (nextTok p).1 with
  | some s, some who =>
    let name := match w.regionFindAvatar who with
      | some i => (w.avatars.getD i default).name
      | none => lit "Avatar"
    let w := w.pushDetected s who name
    let w := w.pushTouches s [lit "touch_start", lit "touch_end"]
    w.info (lit "TOUCH_AS link=" ++ decBytes link ++ lit " by " ++ who)
  | _, _ => w

/-! ### Speech -/

def cmdListen (w : World F) (p : Bytes) : World F :=
  let (cs, p) := nextTok p
  let (who, p) := nextTok p
  let ch := atoiOr 0 cs
  let msg := restOfLine p
  let (uuid, name) := match who.bind w.speaker with
    | some a => (a.uuid, a.name)
    | none => (nullKey, who.getD (lit "speaker"))
  (w.routeListen ch name uuid msg).info
    (lit "LISTEN ch=" ++ decBytes ch ++ lit " from=" ++ name ++ lit " msg=" ++ msg)

def cmdIm (w : World F) (p : Bytes) : World F :=
  let (src, p) := nextTok p
  w.info (lit "IM from=" ++ orNull src ++ lit " msg=" ++ restOfLine p)

/-- The answer to a dialog, to every active entry of its script on its channel. -/
def answerDialog (w : World F) (d : OpenDialog) (who text : Bytes) : World F :=
  match w.scripts.findIdx? fun t => t.uuid = d.scriptUuid with
  | none => w
  | some i =>
    let name := match w.regionFindAvatar who with
      | some k => (w.avatars.getD k default).name
      | none => lit "Avatar"
    w.pushTimes i (lit "listen") (listenArgs d.channel name who text)
      ((w.script i).listens.countP fun le => le.active && le.channel = d.channel)

/-- The common body of `DIALOG_REPLY` and `TEXTBOX_REPLY`. -/
def cmdReply (word field : Bytes) (w : World F) (p : Bytes) : World F :=
  let (who, p) := nextTok p
  let text := restOfLine p
  match who, who.bind w.dialogFind with
  | some who, some d =>
    let w := w.answerDialog d who text
    let w := w.info (word ++ lit " by=" ++ who ++ lit " " ++ field ++ lit "=" ++ text)
    w.dialogClose who
  | who, _ => w.info (word ++ lit ": no open dialog for " ++ who.getD (lit "?"))

def cmdDialogReply : World F → Bytes → World F :=
  cmdReply (lit "DIALOG_REPLY") (lit "button")

def cmdTextboxReply : World F → Bytes → World F :=
  cmdReply (lit "TEXTBOX_REPLY") (lit "txt")

/-! ### The world outside -/

def cmdHttpIn (w : World F) (p : Bytes) : World F :=
  let (url, p) := nextTok p
  let (method, p) := nextTok p
  let body := restOfLine p
  match w.inboundResolve (url.getD []) with
  | none => w.info (lit "HTTP_IN: no script listening on " ++ url.getD (lit "?"))
  | some t =>
    let (reqId, w) := w.genUuid
    let w := w.pushEvent t (lit "http_request")
      [.key reqId, .string (method.getD (lit "GET")), .string body]
    w.info (lit "HTTP_IN url=" ++ url.getD (lit "?") ++ lit " method=" ++
      method.getD (lit "GET") ++ lit " body=" ++ decBytes body.length ++ lit " bytes")

def cmdAttach (w : World F) (p : Bytes) : World F :=
  let (who, p) := nextTok p
  let point := atoiOr 1 (nextTok p).1
  if w.scripts = [] then w
  else
    let w := w.pushEvent 0 (lit "attach") [.key (who.getD nullKey)]
    let w := w.info (lit "ATTACH to=" ++ orNull who ++ lit " point=" ++ decBytes point)
    match who.bind w.regionFindAvatar with
    | none => w
    | some i => { w with avatars := w.avatars.modify i fun a =>
        { a with attachedObject := some (w.script 0).uuid } }

def cmdDetach (w : World F) : World F :=
  if w.scripts = [] then w
  else (w.pushEvent 0 (lit "attach") [.nullKey]).info (lit "DETACH")

/-- The common body of `ON_REZ` and `CHANGED`: one number to every script. -/
def cmdToAll (word event : Bytes) (w : World F) (p : Bytes) : World F :=
  let n := atoiOr 0 (nextTok p).1
  (w.pushAll event [.int n] fun _ _ => 1).info (word ++ lit " " ++ decBytes n)

def cmdOnRez : World F → Bytes → World F := cmdToAll (lit "ON_REZ") (lit "on_rez")
def cmdChanged : World F → Bytes → World F := cmdToAll (lit "CHANGED") (lit "changed")

/-! ### Assertions -/

/-- `evt_assertion` with a detail cut off at the size of its buffer. -/
def assertion (w : World F) (what : Bytes) (passed : Bool) (size : ℕ) (detail : Bytes) :
    World F :=
  w.emit (.assertion what passed (detail.take (size-1)))

def cmdAssertBalance (w : World F) (p : Bytes) : World F :=
  let (who, p) := nextTok p
  let want := match (nextTok p).1 with
    | some t => strtoll 10 t
    | none => 0
  match who, who.bind w.regionFindAvatar with
  | some who, some i =>
    if w.balanceAt i ≠ want then
      w.assertion (lit "balance") false 128 (who ++ lit " balance " ++
        decBytes (w.balanceAt i) ++ lit " != " ++ decBytes want)
    else
      w.assertion (lit "balance") true 128 (who ++ lit " balance == " ++ decBytes want)
  | who, _ => w.assertion (lit "balance") false 128 (who.getD (lit "?") ++ lit " not in region")

def cmdAssertHud (w : World F) (p : Bytes) : World F :=
  let (l, p) := nextTok p
  let link := atoiOr 1 l
  let want := restOfLine p
  let text := (w.scriptByLink link).bind fun s => (w.script s).hudText
  let ok := match text with
    | some t => containsBytes t want
    | none => false
  w.assertion (lit "hud") ok 256 (lit "link=" ++ decBytes link ++ lit " want=\"" ++ want ++
    lit "\" got=\"" ++ text.getD [] ++ lit "\"")

def cmdAssertSaid (w : World F) (p : Bytes) : World F :=
  let (kind, p) := nextTok p
  let (cs, p) := nextTok p
  let ch := atoiOr anyChannel cs
  let substr := restOfLine p
  w.assertion (lit "said") (w.chatlogMatches kind ch substr) 256
    (lit "kind=" ++ kind.getD (lit "*") ++ lit " ch=" ++ decBytes ch ++ lit " substr=\"" ++
      substr ++ lit "\"")

def cmdAssertDialogOpen (w : World F) (p : Bytes) : World F :=
  let who := (nextTok p).1
  w.emit (.assertion (lit "dialog_open") (who.bind w.dialogFind).isSome (who.getD (lit "?")))

/-! ### The pump -/

/-- The commands, on the rest of their line. -/
def commandTable : List (Bytes × (World F → Bytes → World F)) :=
  [(lit "WAIT", cmdWait), (lit "ECHO", cmdEcho), (lit "SNAPSHOT", fun w _ => w.cmdSnapshot),
   (lit "EXIT", fun w _ => w.cmdExit), (lit "TOUCH", cmdTouch),
   (lit "TOUCH_FACE", cmdTouchFace), (lit "TOUCH_AS", cmdTouchAs), (lit "LISTEN", cmdListen),
   (lit "IM", cmdIm), (lit "DIALOG_REPLY", cmdDialogReply),
   (lit "TEXTBOX_REPLY", cmdTextboxReply), (lit "MONEY_FROM", cmdMoneyFrom),
   (lit "HTTP_IN", cmdHttpIn), (lit "ATTACH", cmdAttach), (lit "DETACH", fun w _ => w.cmdDetach),
   (lit "ON_REZ", cmdOnRez), (lit "CHANGED", cmdChanged),
   (lit "ASSERT_BALANCE", cmdAssertBalance), (lit "ASSERT_HUD", cmdAssertHud),
   (lit "ASSERT_SAID", cmdAssertSaid), (lit "ASSERT_DIALOG_OPEN", cmdAssertDialogOpen)]

/-- One line of the commands file. -/
def runCommand (w : World F) (line : Bytes) : World F :=
  let (cmd, p) := nextTok line
  match cmd with
  | none => w
  | some cmd => match commandTable.lookup cmd with
    | some f => f w p
    | none => w.info (lit "unknown command: " ++ cmd)

/-- `commands_pump`: whether there was a line left. -/
def commandsPump (w : World F) : Bool × World F :=
  match w.commandLines[w.nextCommand]? with
  | none => (false, w)
  | some line => (true, { w with nextCommand := w.nextCommand+1 }.runCommand line)

end World

end Slemu
