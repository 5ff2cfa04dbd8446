import Slemu.Economy
import Slemu.LinksetData

/-! The builtins that do more than compute a value (builtins.c, http.c, dialog.c), and the
lookup of a builtin by its name. -/

namespace Slemu
variable {F : Type}

namespace Script
variable [CDouble F]

/-- What `bi_llSetTimerEvent` does to its script. -/
def setTimer (f now : F) (t : Script F) : Script F :=
  { t with
    timerInterval := f,
    timerDue := if CDouble.lt CDouble.zero f then CDouble.add now f else CDouble.zero,
    history := t.history ++ [.setTimer f now] }

/-- What `bi_llDie` does to its script. -/
def die (t : Script F) : Script F := { t.flush .die with timerInterval := CDouble.zero }

end Script

namespace World

/-! ### Delivery -/

/-- The filters of an entry against a message, an empty filter or `NULL_KEY` letting all pass. -/
def hears (le : ListenEntry) (channel : ℤ) (name id msg : Bytes) : Bool :=
  le.active && le.channel = channel &&
    (le.nameFilter = [] || le.nameFilter = name) &&
    (le.idFilter = [] || le.idFilter = nullKey || le.idFilter = id) &&
    (le.msgFilter = [] || le.msgFilter = msg)

/-- `n` times the same event. -/
def pushTimes (w : World F) (i : ℕ) (name : Bytes) (args : List (SValue F)) : ℕ → World F
  | 0 => w
  | n+1 => (w.pushEvent i name args).pushTimes i name args n

/-- The event `name` to each script, as many times as `times` says. -/
def pushAll (w : World F) (name : Bytes) (args : List (SValue F)) (times : ℕ → Script F → ℕ) :
    World F :=
  w.scripts.zipIdx.foldl (fun w' (t, i) => w'.pushTimes i name args (times i t)) w

def listenArgs (channel : ℤ) (name id msg : Bytes) : List (SValue F) :=
  [.int channel, .string name, .key id, .string msg]

/-- `route_listen`: one event for each entry that hears the message. -/
def routeListen (w : World F) (channel : ℤ) (name id msg : Bytes) : World F :=
  w.pushAll (lit "listen") (listenArgs channel name id msg)
    fun _ t => t.listens.countP fun le => hears le channel name id msg

variable [CDouble F]

/-! ### I/O -/

/-- The common body of `bi_llSay`, `bi_llWhisper`, `bi_llShout` and `bi_llRegionSay`. -/
def chat (kind : Bytes) (w : World F) (s : ℕ) (a : List (SValue F)) : SValue F × World F :=
  let ch := toCInt (argInt a 0)
  let msg := argStr a 1
  let t := w.script s
  let w := w.emit (.chat kind ch t.name t.uuid msg)
  let w := w.chatlogRecord kind ch msg
  (.void, w.routeListen ch t.name t.uuid msg)

def llSay : World F → ℕ → List (SValue F) → SValue F × World F := chat (lit "say")
def llWhisper : World F → ℕ → List (SValue F) → SValue F × World F := chat (lit "whisper")
def llShout : World F → ℕ → List (SValue F) → SValue F × World F := chat (lit "shout")
def llRegionSay : World F → ℕ → List (SValue F) → SValue F × World F := chat (lit "region")

def llOwnerSay (w : World F) (s : ℕ) (a : List (SValue F)) : SValue F × World F :=
  let msg := argStr a 0
  let t := w.script s
  (.void, (w.emit (.chat (lit "owner") 0 t.name t.uuid msg)).chatlogRecord (lit "owner") 0 msg)

/-- `bi_llRegionSayTo` looks at the channel of an entry only. -/
def llRegionSayTo (w : World F) (s : ℕ) (a : List (SValue F)) : SValue F × World F :=
  let id := argStr a 0
  let ch := toCInt (argInt a 1)
  let msg := argStr a 2
  let t := w.script s
  let w := w.emit (.chatTo t.name t.uuid id ch msg)
  let w := w.chatlogRecord (lit "region-to") ch msg
  (.void, w.pushAll (lit "listen") (listenArgs ch t.name t.uuid msg) fun _ u =>
    if u.uuid = id then u.listens.countP fun le => le.active && le.channel = ch else 0)

def llInstantMessage (w : World F) (s : ℕ) (a : List (SValue F)) : SValue F × World F :=
  let msg := argStr a 1
  let t := w.script s
  (.void, (w.emit (.chat (lit "im") (-1) t.name t.uuid msg)).chatlogRecord (lit "im") (-1) msg)

def llSetText (w : World F) (s : ℕ) (a : List (SValue F)) : SValue F × World F :=
  let txt := argStr a 0
  let (r, g, b) := match (a[1]? : Option (SValue F)) with
    | some (.vec x y z) => (x, y, z)
    | _ => (CDouble.one, CDouble.one, CDouble.one)
  let alpha := match (a[2]? : Option (SValue F)) with
    | some (.float f) => f
    | some (.int i) => CDouble.ofInt i
    | _ => CDouble.one
  let w := w.modScript s fun t => { t with hudText := some txt }
  (.void, w.emit (.hudText (w.script s).name txt r g b alpha))

/-- `evt_dialog`, then `dialog_open`. -/
def openDialog (w : World F) (s : ℕ) (to_ msg : Bytes) (buttons : List Bytes) (ch : ℤ)
    (isTextbox : Bool) : World F :=
  let t := w.script s
  let w := w.emit (.dialog t.name t.uuid to_ msg buttons ch isTextbox)
  { w with dialogs := ⟨t.uuid, to_, msg, buttons, ch, isTextbox⟩ :: w.dialogs }

def llDialog (w : World F) (s : ℕ) (a : List (SValue F)) : SValue F × World F :=
  let buttons := match (a[2]? : Option (SValue F)) with
    | some (.list items) => items.map svToString
    | _ => []
  (.void, w.openDialog s (argStr a 0) (argStr a 1) buttons (toCInt (argInt a 3)) false)

def llTextBox (w : World F) (s : ℕ) (a : List (SValue F)) : SValue F × World F :=
  (.void, w.openDialog s (argStr a 0) (argStr a 1) [] (toCInt (argInt a 2)) true)

def llLoadURL (w : World F) (s : ℕ) (a : List (SValue F)) : SValue F × World F :=
  (.void, w.emit (.loadUrl (w.script s).name (argStr a 0) (argStr a 1) (argStr a 2)))

/-! ### Time -/

def llSleep (w : World F) (_ : ℕ) (a : List (SValue F)) : SValue F × World F :=
  (.void, w.advance (argFloat a 0))

def llSetTimerEvent (w : World F) (s : ℕ) (a : List (SValue F)) : SValue F × World F :=
  (.void, w.modScript s (Script.setTimer (argFloat a 0) w.virtualNow))

/-! ### Object identity -/

def llSetObjectName (w : World F) (s : ℕ) (a : List (SValue F)) : SValue F × World F :=
  (.void, w.modScript s fun t => { t with name := argStr a 0 })

def llSetObjectDesc (w : World F) (s : ℕ) (a : List (SValue F)) : SValue F × World F :=
  (.void, w.modScript s fun t => { t with desc := argStr a 0 })

def llDie (w : World F) (s : ℕ) (_ : List (SValue F)) : SValue F × World F :=
  (.void, w.modScript s Script.die)

/-- The components that `bi_llSetPos` and `bi_llSetRot` print, 0 where the argument has none. -/
def coords : SValue F → F × F × F × F
  | .vec x y z => (x, y, z, CDouble.zero)
  | .rot x y z s => (x, y, z, s)
  | _ => (CDouble.zero, CDouble.zero, CDouble.zero, CDouble.zero)

def llSetPos (w : World F) (s : ℕ) (a : List (SValue F)) : SValue F × World F :=
  let (x, y, z, _) := coords (a.headD (.vec CDouble.zero CDouble.zero CDouble.zero))
  (.void, if w.jsonEvents then w.emit (.setPos (w.script s).name x y z) else w)

def llSetRot (w : World F) (s : ℕ) (a : List (SValue F)) : SValue F × World F :=
  let (x, y, z, r) :=
    coords (a.headD (.rot CDouble.zero CDouble.zero CDouble.zero CDouble.one))
  (.void, if w.jsonEvents then w.emit (.setRot (w.script s).name x y z r) else w)

/-! ### Listen / link -/

def llListen (w : World F) (s : ℕ) (a : List (SValue F)) : SValue F × World F :=
  let le : ListenEntry := ⟨w.nextHandle, toCInt (argInt a 0), argStr a 1, argStr a 2,
    argStr a 3, true⟩
  let w := { w with nextHandle := w.nextHandle+1 }
  (.int le.handle, w.modScript s fun t => { t with listens := le :: t.listens })

def llListenRemove (w : World F) (s : ℕ) (a : List (SValue F)) : SValue F × World F :=
  let h := toCInt (argInt a 0)
  (.void, w.modScript s fun t => { t with listens := t.listens.eraseP fun le => le.handle = h })

def llListenControl (w : World F) (s : ℕ) (a : List (SValue F)) : SValue F × World F :=
  let h := toCInt (argInt a 0)
  let on := toCInt (argInt a 1) ≠ 0
  (.void, w.modScript s fun t => { t with listens := t.listens.map fun le =>
    if le.handle = h then { le with active := on } else le })

/-- Whether `bi_llMessageLinked` of script `s` delivers to script `i`. -/
def linkDelivers (linknum : ℤ) (s i : ℕ) (target : ℤ) : Bool :=
  if linknum = -1 then true
  else if linknum = -2 then i ≠ s
  else if linknum = -3 then target ≥ 2
  else if linknum = -4 then i = s
  else linknum = target

def llMessageLinked (w : World F) (s : ℕ) (a : List (SValue F)) : SValue F × World F :=
  let linknum := toCInt (argInt a 0)
  let num := argInt a 1
  let str := argStr a 2
  let id := argStr a 3
  let t := w.script s
  let w := w.emit (.linkMsg t.name t.linkNum linknum num str id)
  (.void, w.pushAll (lit "link_message") [.int t.linkNum, .int num, .string str, .key id]
    fun i u => if linkDelivers linknum s i u.linkNum then 1 else 0)

/-! ### Permissions -/

def llRequestPermissions (w : World F) (s : ℕ) (a : List (SValue F)) : SValue F × World F :=
  let perms := toCInt (argInt a 1)
  let who := argStr a 0
  let w := w.modScript s fun t => { t with perms := perms, permsKey := some who }
  let w := w.emit (.permissionRequest (w.script s).name who perms)
  (.void, w.pushEvent s (lit "run_time_permissions") [.int perms])

/-! ### HTTP -/

/-- `http_fixture_match` -/
def httpFixtureMatch (w : World F) (url : Bytes) : Option HttpFixtureEntry :=
  w.httpFix.find? fun fx => match fx.matchUrl with
    | some m => containsBytes url m
    | none => false

/-- Status and body of the answer: of curl, of the first fixture that matches, or of none. -/
def httpAnswer (w : World F) (url : Bytes) : (ℤ × Bytes) × World F :=
  if w.httpReal then (w.env.curl w.draws, { w with draws := w.draws+1 })
  else match w.httpFixtureMatch url with
    | some fx => ((fx.status, fx.body.getD []), w)
    | none => ((0, lit "(no fixture match)"), w)

/-- `http_request` -/
def httpRequest (w : World F) (s : ℕ) (url : Bytes) : Bytes × World F :=
  let (id, w) := w.genUuid
  let ((status, body), w) := w.httpAnswer url
  let w := w.pushEvent s (lit "http_response")
    [.key id, .int status, .list [], .string body]
  (id, w.emit (.httpOut (w.script s).name url (lit "GET") status body.length))

def llHTTPRequest (w : World F) (s : ℕ) (a : List (SValue F)) : SValue F × World F :=
  let (id, w) := w.httpRequest s (argStr a 0)
  (.key id, w)

/-- `inbound_register` -/
def inboundRegister (w : World F) (s : ℕ) (reqKey : Bytes) : Bytes × World F :=
  let url := lit "http://slemu.local/" ++ (w.script s).uuid ++ lit "/" ++ reqKey
  (url, { w with inbound := ⟨url, s, reqKey⟩ :: w.inbound })

def llRequestURL (w : World F) (s : ℕ) (_ : List (SValue F)) : SValue F × World F :=
  let (id, w) := w.genUuid
  let (url, w) := w.inboundRegister s id
  (.key id, w.pushEvent s (lit "http_request")
    [.key id, .string (lit "URL_REQUEST_GRANTED"), .string url])

/-! ### Stubs that report themselves -/

def primSet (fn : Bytes) (r : SValue F) (w : World F) (s : ℕ) (_ : List (SValue F)) :
    SValue F × World F :=
  (r, w.emit (.primSet (w.script s).name fn))

def agentDataRequest (kind : Bytes) (r : SValue F) (w : World F) (s : ℕ)
    (a : List (SValue F)) : SValue F × World F :=
  (r, w.emit (.agentDataRequest (w.script s).name (argStr a 0) kind))

def rezObject (w : World F) (s : ℕ) (a : List (SValue F)) : SValue F × World F :=
  (.void, w.emit (.rez (w.script s).name (argStr a 0)))

end World

/-! ### The table -/

/-- The builtins that are functions of what they read, together with the number of questions
they put to the world outside. -/
structure Lib (F : Type) where
  lookup : Bytes → Option (World F → ℕ → List (SValue F) → SValue F × ℕ)

abbrev Builtin (F : Type) := World F → ℕ → List (SValue F) → SValue F × World F

variable [CDouble F]

def primSetNames : List Bytes :=
  [lit "llSetAlpha", lit "llSetColor", lit "llSetLinkAlpha", lit "llSetLinkColor",
   lit "llSetLinkPrimitiveParams", lit "llSetLinkPrimitiveParamsFast",
   lit "llSetLinkRenderMaterial", lit "llSetLinkTexture", lit "llSetLinkTextureAnim",
   lit "llSetPrimMediaParams", lit "llSetPrimitiveParams", lit "llSetTexture",
   lit "llSetTextureAnim"]

def agentDataNames : List Bytes :=
  [lit "llRequestAgentData", lit "llRequestAnimationData", lit "llRequestDisplayName",
   lit "llRequestInventoryData", lit "llRequestSimulatorData", lit "llRequestUsername"]

def stubTable : List (Bytes × Builtin F) :=
  (primSetNames.map fun fn => (fn, World.primSet fn .void)) ++
  (agentDataNames.map fun fn => (fn, World.agentDataRequest fn .nullKey)) ++
  [(lit "llSetLinkMedia", World.primSet (lit "llSetLinkMedia") (.int 0)),
   (lit "llRequestExperiencePermissions",
     World.agentDataRequest (lit "llRequestExperiencePermissions") .void),
   (lit "llRezAtRoot", World.rezObject), (lit "llRezObject", World.rezObject)]

/-- The builtins above, with those of the economy and of the linkset data. -/
def effectTable : List (Bytes × Builtin F) :=
  [(lit "llSay", World.llSay), (lit "llWhisper", World.llWhisper),
   (lit "llShout", World.llShout), (lit "llOwnerSay", World.llOwnerSay),
   (lit "llRegionSay", World.llRegionSay), (lit "llRegionSayTo", World.llRegionSayTo),
   (lit "llInstantMessage", World.llInstantMessage), (lit "llSetText", World.llSetText),
   (lit "llDialog", World.llDialog), (lit "llTextBox", World.llTextBox),
   (lit "llLoadURL", World.llLoadURL), (lit "llSleep", World.llSleep),
   (lit "llSetTimerEvent", World.llSetTimerEvent),
   (lit "llSetObjectName", World.llSetObjectName),
   (lit "llSetObjectDesc", World.llSetObjectDesc), (lit "llDie", World.llDie),
   (lit "llSetPos", World.llSetPos), (lit "llSetRot", World.llSetRot),
   (lit "llListen", World.llListen), (lit "llListenRemove", World.llListenRemove),
   (lit "llListenControl", World.llListenControl),
   (lit "llMessageLinked", World.llMessageLinked),
   (lit "llRequestPermissions", World.llRequestPermissions),
   (lit "llGiveMoney", World.llGiveMoney),
   (lit "llTransferLindenDollars", World.llTransferLindenDollars),
   (lit "llLinksetDataWrite", World.llLinksetDataWrite),
   (lit "llLinksetDataRead", fun w _ a => (w.llLinksetDataRead a, w)),
   (lit "llLinksetDataDelete", World.llLinksetDataDelete),
   (lit "llLinksetDataReset", fun w s _ => (.void, w.llLinksetDataReset s)),
   (lit "llLinksetDataCountKeys", fun w _ _ => (w.llLinksetDataCountKeys, w)),
   (lit "llLinksetDataListKeys", fun w _ _ => (w.llLinksetDataListKeys, w)),
   (lit "llHTTPRequest", World.llHTTPRequest), (lit "llRequestURL", World.llRequestURL)]

/-- A function of what it reads, as a builtin. -/
def Lib.builtin (f : World F → ℕ → List (SValue F) → SValue F × ℕ) : Builtin F :=
  fun w s a => ((f w s a).1, { w with draws := w.draws+(f w s a).2 })

/-- `builtins_lookup`, without `llResetScript`, which evaluates initialisers. -/
def builtinsLookup (lib : Lib F) (name : Bytes) : Option (Builtin F) :=
  match (effectTable ++ stubTable).lookup name with
  | some f => some f
  | none => (lib.lookup name).map Lib.builtin

/-! ### Constants -/

/-- The table of `builtins_const`. -/
def constTable : List (Bytes × SValue F) :=
  [(lit "TRUE", .int 1), (lit "FALSE", .int 0), (lit "NULL_KEY", .nullKey),
   (lit "EOF", .string [10, 10, 10]), (lit "PI", .float (CDouble.dec 314159265358979323846 20)),
   (lit "TWO_PI", .float (CDouble.dec 628318530717958647692 20)),
   (lit "PI_BY_TWO", .float (CDouble.dec 157079632679489661923 20)),
   (lit "DEG_TO_RAD", .float (CDouble.dec 1745329251994329577 20)),
   (lit "RAD_TO_DEG", .float (CDouble.dec 572957795130823208768 19)),
   (lit "SQRT2", .float (CDouble.dec 141421356237309504880 20)), (lit "PUBLIC_CHANNEL", .int 0),
   (lit "DEBUG_CHANNEL", .int 2147483647), (lit "HTTP_METHOD", .int 0),
   (lit "HTTP_MIMETYPE", .int 1), (lit "HTTP_BODY_MAXLENGTH", .int 2),
   (lit "HTTP_VERIFY_CERT", .int 3), (lit "HTTP_VERBOSE_THROTTLE", .int 4),
   (lit "HTTP_CUSTOM_HEADER", .int 5), (lit "HTTP_PRAGMA_NO_CACHE", .int 6),
   (lit "PERMISSION_DEBIT", .int 2), (lit "PERMISSION_TAKE_CONTROLS", .int 4),
   (lit "PERMISSION_TRIGGER_ANIMATION", .int 16), (lit "PERMISSION_ATTACH", .int 32),
   (lit "CHANGED_INVENTORY", .int 1), (lit "CHANGED_OWNER", .int 128),
   (lit "CHANGED_REGION", .int 256), (lit "CHANGED_REGION_START", .int 1024),
   (lit "STRING_TRIM", .int 3), (lit "STRING_TRIM_HEAD", .int 1),
   (lit "STRING_TRIM_TAIL", .int 2), (lit "JSON_OBJECT", .string [239, 191, 189]),
   (lit "JSON_ARRAY", .string [239, 191, 188]), (lit "JSON_STRING", .string [239, 191, 187]),
   (lit "JSON_NUMBER", .string [239, 191, 186]), (lit "JSON_TRUE", .string [239, 191, 185]),
   (lit "JSON_FALSE", .string [239, 191, 184]), (lit "JSON_NULL", .string [239, 191, 183]),
   (lit "JSON_INVALID", .string [239, 191, 182]), (lit "LINK_SET", .int (-1)),
   (lit "LINK_ROOT", .int 1), (lit "LINK_ALL_OTHERS", .int (-2)),
   (lit "LINK_ALL_CHILDREN", .int (-3)), (lit "LINK_THIS", .int (-4)),
   (lit "ALL_SIDES", .int (-1)), (lit "INVENTORY_NONE", .int (-1)),
   (lit "INVENTORY_TEXTURE", .int 0), (lit "INVENTORY_SOUND", .int 1),
   (lit "INVENTORY_OBJECT", .int 6), (lit "INVENTORY_NOTECARD", .int 7),
   (lit "INVENTORY_SCRIPT", .int 10), (lit "PAY_HIDE", .int (-1)),
   (lit "PAY_DEFAULT", .int (-2)), (lit "STATUS_OK", .int 0),
   (lit "STATUS_INTERNAL_ERROR", .int (-1)), (lit "LINKSETDATA_RESET", .int 0),
   (lit "LINKSETDATA_UPDATE", .int 1), (lit "LINKSETDATA_DELETE", .int 2)]

/-- `builtins_const`, void for any other name. -/
def builtinsConst (name : Bytes) : SValue F := ((constTable.lookup name).getD .void)

end Slemu
