import Slemu.Builtins
import Slemu.JsonWriter
import Slemu.Decimal

/-! The lines that the emitters of events.c, `snapshot_dump` of dialog.c and the two setters of
builtins.c write with `--json-events`, and which of them are JSON that says what was reported. -/

namespace Slemu
open Json (Str Out Val isPlain)
variable {F : Type} [CDouble F]

/-! ### The helpers of events.c -/

/-- One character in `j_emit_str`. -/
def jEmitChar (c : UInt8) : Bytes :=
  if c = 34 ∨ c = 92 then [92, c]
  else if c = 10 then lit "\\n"
  else if c = 13 then lit "\\r"
  else if c = 9 then lit "\\t"
  else if c < 32 then lit "\\u" ++ hexBytes 4 c.toNat
  else [c]

/-- `j_emit_str` -/
def jEmitStr (s : Bytes) : Bytes := lit "\"" ++ s.flatMap jEmitChar ++ lit "\""

/-- A member of an event, with the helper that writes it. -/
inductive Field (F : Type)
  | str (k v : Bytes)
  | int (k : Bytes) (v : ℤ)
  | dbl (k : Bytes) (v : F)
  | strs (k : Bytes) (l : List Bytes)

/-- `j_kv_str`, `j_kv_int`, `j_kv_dbl`, and the loop of `evt_dialog` over the buttons. -/
def Field.bytes : Field F → Bytes
  | .str k v => lit ",\"" ++ k ++ lit "\":" ++ jEmitStr v
  | .int k v => lit ",\"" ++ k ++ lit "\":" ++ decBytes v
  | .dbl k v => lit ",\"" ++ k ++ lit "\":" ++ CDouble.fmt 6 v
  | .strs k l => lit ",\"" ++ k ++ lit "\":[" ++ Json.items (l.map jEmitStr) ++ lit "]"

/-- `j_open` -/
def jOpen (now : F) (type : Bytes) : Bytes :=
  lit "\x7b\"t\":" ++ CDouble.fmt 3 now ++ lit ",\"type\":\"" ++ type ++ lit "\""

/-- What an emitter reports: the type of the event and its members. -/
structure Report (F : Type) where
  type : Bytes
  fields : List (Field F)

/-- The line for it, from `j_open` to `j_close`. -/
def Report.line (now : F) (r : Report F) : Bytes :=
  jOpen now r.type ++ (r.fields.flatMap Field.bytes ++ lit "\x7d\n")

/-! ### The emitters -/

def evtChat (kind : Bytes) (ch : ℤ) (src srcUuid msg : Bytes) : Report F :=
  ⟨lit "chat", [.str (lit "kind") kind, .int (lit "ch") ch, .str (lit "src") src,
    .str (lit "src_uuid") srcUuid, .str (lit "msg") msg]⟩

def evtChatTo (src srcUuid dst : Bytes) (ch : ℤ) (msg : Bytes) : Report F :=
  ⟨lit "chat", [.str (lit "kind") (lit "region-to"), .int (lit "ch") ch, .str (lit "src") src,
    .str (lit "src_uuid") srcUuid, .str (lit "to") dst, .str (lit "msg") msg]⟩

def evtDialog (src srcUuid dst msg : Bytes) (buttons : List Bytes) (ch : ℤ) (isTextbox : Bool) :
    Report F :=
  ⟨if isTextbox then lit "textbox" else lit "dialog",
    [.str (lit "src") src, .str (lit "src_uuid") srcUuid, .str (lit "to") dst,
      .int (lit "ch") ch, .str (lit "msg") msg] ++
    if isTextbox then [] else [.strs (lit "buttons") buttons]⟩

def evtLoadurl (src dst label url : Bytes) : Report F :=
  ⟨lit "loadurl", [.str (lit "src") src, .str (lit "to") dst, .str (lit "label") label,
    .str (lit "url") url]⟩

def evtHudText (src text : Bytes) (r g b alpha : F) : Report F :=
  ⟨lit "hud", [.str (lit "src") src, .str (lit "text") text, .dbl (lit "r") r, .dbl (lit "g") g,
    .dbl (lit "b") b, .dbl (lit "a") alpha]⟩

def evtMoney (src dst : Bytes) (amt ok : ℤ) : Report F :=
  ⟨lit "money", [.str (lit "from") src, .str (lit "to") dst, .int (lit "amount") amt,
    .int (lit "ok") ok]⟩

/-- The table of `perm_mask_str`: the number of the bit and its name. -/
def permNames : List (ℕ × Bytes) :=
  [(0, lit "PERMISSION_DEBIT_LEGACY"), (1, lit "PERMISSION_DEBIT"),
   (2, lit "PERMISSION_TAKE_CONTROLS"), (3, lit "PERMISSION_REMAP_CONTROLS"),
   (4, lit "PERMISSION_TRIGGER_ANIMATION"), (5, lit "PERMISSION_ATTACH"),
   (6, lit "PERMISSION_RELEASE_OWNERSHIP"), (7, lit "PERMISSION_CHANGE_LINKS"),
   (8, lit "PERMISSION_CHANGE_JOINTS"), (9, lit "PERMISSION_CHANGE_PERMISSIONS"),
   (10, lit "PERMISSION_TRACK_CAMERA"), (11, lit "PERMISSION_CONTROL_CAMERA")]

/-- The loop of `perm_mask_str`, with what is in the buffer so far. -/
def permMaskLoop (mask : ℤ) (cap : ℕ) (buf : Bytes) : List (ℕ × Bytes) → Bytes
  | [] => buf
  | (bit, name) :: l =>
    if hasBit mask bit then
      if buf.length+name.length+2 ≥ cap then buf
      else permMaskLoop mask cap (buf ++ (if buf = [] then [] else lit "|") ++ name) l
    else permMaskLoop mask cap buf l

/-- `perm_mask_str` with its buffer of 256 characters. -/
def permMaskStr (mask : ℤ) : Bytes :=
  let names := permMaskLoop mask 256 [] permNames
  if names = [] then decBytes mask else names

def evtPermissionRequest (src who : Bytes) (mask : ℤ) : Report F :=
  ⟨lit "permission-request", [.str (lit "src") src, .str (lit "who") who,
    .str (lit "mask") (permMaskStr mask), .int (lit "mask_bits") mask]⟩

def evtLinkMsg (src : Bytes) (srcLink target num : ℤ) (str id : Bytes) : Report F :=
  ⟨lit "link_message", [.str (lit "src") src, .int (lit "src_link") srcLink,
    .int (lit "target_link") target, .int (lit "num") num, .str (lit "str") str,
    .str (lit "id") id]⟩

def evtHttpOut (src url method : Bytes) (status : ℤ) (bodyLen : ℕ) : Report F :=
  ⟨lit "http_out", [.str (lit "src") src, .str (lit "url") url, .str (lit "method") method,
    .int (lit "status") status, .int (lit "body_len") bodyLen]⟩

def evtStateChange (src old new : Bytes) : Report F :=
  ⟨lit "state_change", [.str (lit "src") src, .str (lit "from") old, .str (lit "to") new]⟩

def evtEventDispatch (src event : Bytes) (nArgs : ℕ) : Report F :=
  ⟨lit "dispatch", [.str (lit "src") src, .str (lit "event") event, .int (lit "n_args") nArgs]⟩

def evtDie (src : Bytes) : Report F := ⟨lit "die", [.str (lit "src") src]⟩

def evtReset (src : Bytes) : Report F := ⟨lit "reset", [.str (lit "src") src]⟩

def evtInfo (msg : Bytes) : Report F := ⟨lit "info", [.str (lit "msg") msg]⟩

def evtLsdSet (src key value : Bytes) : Report F :=
  ⟨lit "lsd_set", [.str (lit "src") src, .str (lit "key") key, .str (lit "value") value]⟩

def evtPrimSet (src fn : Bytes) : Report F :=
  ⟨lit "prim-set", [.str (lit "src") src, .str (lit "fn") fn]⟩

def evtAgentDataRequest (src who kind : Bytes) : Report F :=
  ⟨lit "agent-data-request", [.str (lit "src") src, .str (lit "who") who,
    .str (lit "kind") kind]⟩

def evtRez (src inventory : Bytes) : Report F :=
  ⟨lit "rez", [.str (lit "src") src, .str (lit "inventory") inventory]⟩

def evtAssertion (what : Bytes) (passed : Bool) (detail : Bytes) : Report F :=
  ⟨lit "assertion", [.str (lit "what") what, .int (lit "passed") (if passed then 1 else 0),
    .str (lit "detail") detail]⟩

/-! ### Printed with formats of their own -/

/-- The line of `bi_llSetPos`. -/
def setPosLine (now : F) (src : Bytes) (x y z : F) : Bytes :=
  lit "\x7b\"t\":" ++ CDouble.fmt 3 now ++ lit ",\"type\":\"set-pos\",\"src\":\"" ++ src ++
    lit "\",\"x\":" ++ CDouble.fmt 6 x ++ lit ",\"y\":" ++ CDouble.fmt 6 y ++
    lit ",\"z\":" ++ CDouble.fmt 6 z ++ lit "\x7d\n"

/-- The line of `bi_llSetRot`. -/
def setRotLine (now : F) (src : Bytes) (x y z s : F) : Bytes :=
  lit "\x7b\"t\":" ++ CDouble.fmt 3 now ++ lit ",\"type\":\"set-rot\",\"src\":\"" ++ src ++
    lit "\",\"x\":" ++ CDouble.fmt 6 x ++ lit ",\"y\":" ++ CDouble.fmt 6 y ++
    lit ",\"z\":" ++ CDouble.fmt 6 z ++ lit ",\"s\":" ++ CDouble.fmt 6 s ++ lit "\x7d\n"

/-- A group of the region, as `snapshot_dump` reads it. -/
structure Group where
  uuid : Bytes
  name : Bytes
  nMembers : ℕ

def snapshotAvatar (a : Avatar) : Bytes :=
  lit "\x7b\"uuid\":\"" ++ a.uuid ++ lit "\",\"name\":\"" ++ a.name ++
    lit "\",\"balance\":" ++ decBytes a.balance ++ lit ",\"attached\":\"" ++
    a.attachedObject.getD [] ++ lit "\"\x7d"

def snapshotGroup (g : Group) : Bytes :=
  lit "\x7b\"uuid\":\"" ++ g.uuid ++ lit "\",\"name\":\"" ++ g.name ++
    lit "\",\"n_members\":" ++ decBytes g.nMembers ++ lit "\x7d"

def snapshotScript (t : Script F) : Bytes :=
  lit "\x7b\"name\":\"" ++ t.name ++ lit "\",\"uuid\":\"" ++ t.uuid ++
    lit "\",\"link\":" ++ decBytes t.linkNum ++ lit ",\"hud_text\":\"" ++
    t.hudText.getD [] ++ lit "\"\x7d"

def snapshotDialog (d : OpenDialog) : Bytes :=
  lit "\x7b\"src\":\"" ++ d.scriptUuid ++ lit "\",\"to\":\"" ++ d.toAvatar ++
    lit "\",\"ch\":" ++ decBytes d.channel ++ lit ",\"is_textbox\":" ++
    decBytes (if d.isTextbox then 1 else 0) ++ lit ",\"msg\":\"" ++ d.message ++
    lit "\",\"buttons\":[" ++ Json.items (d.buttons.map fun b => lit "\"" ++ b ++ lit "\"") ++
    lit "]\x7d"

/-- `snapshot_dump` -/
def snapshotLine (groups : List Group) (w : World F) : Bytes :=
  lit "\x7b\"t\":" ++ CDouble.fmt 3 w.virtualNow ++ lit ",\"type\":\"snapshot\",\"avatars\":[" ++
    Json.items (w.avatars.map snapshotAvatar) ++ lit "],\"groups\":[" ++
    Json.items (groups.map snapshotGroup) ++ lit "],\"scripts\":[" ++
    Json.items (w.scripts.map snapshotScript) ++ lit "],\"dialogs\":[" ++
    Json.items (w.dialogs.map snapshotDialog) ++ lit "]\x7d\n"

/-- Whatever can be emitted: an event of a run, or one of the three kinds that nothing in the
sources emits. -/
inductive Emission (F : Type)
  | evt (e : Evt F)
  | stateChange (src old new : Bytes)
  | die (src : Bytes)
  | reset (src : Bytes)

/-- The line written for it; `evt_info` formats into a buffer of 1024 characters. -/
def Emission.line (groups : List Group) (w : World F) : Emission F → Bytes
  | .evt e => match e with
    | .chat kind ch src srcUuid msg => (evtChat kind ch src srcUuid msg).line w.virtualNow
    | .chatTo src srcUuid dst ch msg => (evtChatTo src srcUuid dst ch msg).line w.virtualNow
    | .dialog src srcUuid dst msg buttons ch isTextbox =>
      (evtDialog src srcUuid dst msg buttons ch isTextbox).line w.virtualNow
    | .loadUrl src dst label url => (evtLoadurl src dst label url).line w.virtualNow
    | .hudText src text r g b alpha => (evtHudText src text r g b alpha).line w.virtualNow
    | .money src dst amt ok => (evtMoney src dst amt ok).line w.virtualNow
    | .permissionRequest src who mask => (evtPermissionRequest src who mask).line w.virtualNow
    | .linkMsg src srcLink target num str id =>
      (evtLinkMsg src srcLink target num str id).line w.virtualNow
    | .httpOut src url method status bodyLen =>
      (evtHttpOut src url method status bodyLen).line w.virtualNow
    | .eventDispatch src event nArgs => (evtEventDispatch src event nArgs).line w.virtualNow
    | .info msg => (evtInfo (msg.take 1023)).line w.virtualNow
    | .assertion what passed detail => (evtAssertion what passed detail).line w.virtualNow
    | .lsdSet src key value => (evtLsdSet src key value).line w.virtualNow
    | .primSet src fn => (evtPrimSet src fn).line w.virtualNow
    | .agentDataRequest src who kind => (evtAgentDataRequest src who kind).line w.virtualNow
    | .rez src inventory => (evtRez src inventory).line w.virtualNow
    | .setPos src x y z => setPosLine w.virtualNow src x y z
    | .setRot src x y z s => setRotLine w.virtualNow src x y z s
    | .snapshot => snapshotLine groups w
  | .stateChange src old new => (evtStateChange src old new).line w.virtualNow
  | .die src => (evtDie src).line w.virtualNow
  | .reset src => (evtReset src).line w.virtualNow

end Slemu
