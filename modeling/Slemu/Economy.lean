import Slemu.World
import Slemu.Ledger

/-! The avatar table and the L$ economy: region.c, volume.c (`economy.txt`), the money
builtins of builtins.c and `MONEY_FROM` of commands.c. -/

namespace Slemu

/-- `region_add_avatar` on the table: sets the balance of the first entry with this UUID, or
appends an entry. A name of `none` is the `NULL` that keeps a known name. -/
def addAvatar (uuid : Bytes) (balance : ℤ) (name : Option Bytes) :
    List Avatar → List Avatar × ℕ
  | [] => ([⟨uuid, name.getD [], balance, none⟩], 0)
  | a :: as =>
    if a.uuid = uuid then
      ({ a with balance := balance, name := name.getD a.name } :: as, 0)
    else
      let (as, i) := addAvatar uuid balance name as
      (a :: as, i+1)

/-- The search of `bi_llGiveMoney`, which runs over the whole table and keeps the last hit. -/
def lastAvatar (uuid : Bytes) : List Avatar → Option ℕ
  | [] => none
  | a :: as =>
    match lastAvatar uuid as with
    | some i => some (i+1)
    | none => if a.uuid = uuid then some 0 else none

/-- `avatars[i].balance += amt` -/
def creditAt (i : ℕ) (amt : ℤ) (as : List Avatar) : List Avatar :=
  as.modify i fun a => { a with balance := a.balance+amt }

/-- One `fgets` into a buffer of `n+1` bytes: the text read and the rest of the file. -/
def fgets : ℕ → Bytes → Bytes × Bytes
  | _, [] => ([], [])
  | 0, s => ([], s)
  | n+1, c :: s =>
    if c = 10 then ([c], s)
    else
      let (line, rest) := fgets n s
      (c :: line, rest)

/-- The lines of `while (fgets(line, sizeof line, f))`. Every round reads a byte, so the length
of the file bounds the rounds. -/
def fgetsLines (n : ℕ) : ℕ → Bytes → List Bytes
  | 0, _ => []
  | _, [] => []
  | k+1, s => (fgets n s).1 :: fgetsLines n k (fgets n s).2

/-- A line of `economy.txt`: UUID, balance and name, or `none` without a tab. -/
def economyLine (line : Bytes) : Option (Bytes × ℤ × Bytes) :=
  let line := cstr line
  match line.dropWhile (· ≠ 9) with
  | [] => none
  | _ :: rest =>
    let uuid := line.takeWhile (· ≠ 9)
    match rest.dropWhile (· ≠ 9) with
    | [] => some (uuid, strtoll 10 rest, [])
    | _ :: name => some (uuid, strtoll 10 (rest.takeWhile (· ≠ 9)), name.takeWhile (· ≠ 10))

/-- One round of `volume_load_economy`. The table holds no `NULL` name, so a known avatar
keeps its name. -/
def loadEconomyLine (as : List Avatar) (line : Bytes) : List Avatar :=
  match economyLine line with
  | none => as
  | some (uuid, bal, name) =>
    if as.any fun a => a.uuid = uuid then (addAvatar uuid bal none as).1
    else (addAvatar uuid bal (if name = [] then none else some name) as).1

/-- `volume_load_economy` on the table, from the text of the file. -/
def loadEconomy (text : Bytes) (as : List Avatar) : List Avatar :=
  (fgetsLines 511 text.length text).foldl loadEconomyLine as

/-- The text that `volume_save_economy` writes. -/
def economyText (as : List Avatar) : Bytes :=
  as.flatMap fun a => a.uuid ++ [9] ++ decBytes a.balance ++ [9] ++ a.name ++ [10]

/-- The words of a `MONEY_FROM` line: the payer, and the amount, 0 if there is none. -/
def moneyFromArgs (p : Bytes) : Option Bytes × ℤ :=
  let (who, p) := nextTok p
  let (amt, _) := nextTok p
  (who, match amt with
    | some t => strtoll 10 t
    | none => 0)

variable {F : Type}

namespace World

/-- `region_add_avatar` -/
def regionAddAvatar (w : World F) (uuid : Bytes) (balance : ℤ) (name : Option Bytes) :
    ℕ × World F :=
  let (as, i) := addAvatar uuid balance name w.avatars
  (i, { w with avatars := as })

/-- `if (i < 0) i = region_add_avatar(region, uuid, 0, NULL)` -/
def enterAvatar (w : World F) (i : Option ℕ) (uuid : Bytes) : ℕ × World F :=
  match i with
  | some i => (i, w)
  | none => w.regionAddAvatar uuid 0 none

/-- `region_find_avatar` -/
def regionFindAvatar (w : World F) (uuid : Bytes) : Option ℕ :=
  w.avatars.findIdx? fun a => a.uuid = uuid

/-- `region_set_owner`: the owner gets an entry without losing a balance already set. -/
def regionSetOwner (w : World F) (uuid : Bytes) (name : Option Bytes) : World F :=
  let w := match w.regionFindAvatar uuid with
    | some i => { w with avatars := w.avatars.modify i fun a =>
        if a.name = [] then { a with name := name.getD a.name } else a }
    | none => (w.regionAddAvatar uuid 0 name).2
  { w with envOwner := some uuid }

/-- `volume_load_economy` where `region_run` calls it, with a volume or without. -/
def volumeLoadEconomy (w : World F) : World F :=
  match w.volume.bind Volume.economy with
  | none => w
  | some text => { w with avatars := loadEconomy text w.avatars }

/-- `volume_save_economy` -/
def volumeSaveEconomy (w : World F) : World F :=
  { w with volume := w.volume.map fun v => { v with economy := some (economyText w.avatars) } }

/-- The `int` balance of an entry, for the guard of a payment. -/
def balanceAt (w : World F) (i : ℕ) : ℤ := (w.avatars.getD i default).balance

variable [CDouble F]

/-- `bi_llGiveMoney` -/
def llGiveMoney (w : World F) (s : ℕ) (a : List (SValue F)) : SValue F × World F :=
  let dest := argStr a 0
  let amt := argInt a 1
  if !hasBit (w.script s).perms 1 then (.int 0, w)
  else
    let o := w.ownerUuid
    let oi := lastAvatar o w.avatars
    let di := lastAvatar dest w.avatars
    let (di, w) := w.enterAvatar di dest
    let (oi, w) := w.enterAvatar oi o
    if w.balanceAt oi < amt then (.int 0, w)
    else
      let w := { w with avatars := creditAt di amt (creditAt oi (-amt) w.avatars) }
      (.int 1, w.emit (.money o dest amt 1))

/-- `bi_llTransferLindenDollars` -/
def llTransferLindenDollars (w : World F) (s : ℕ) (a : List (SValue F)) :
    SValue F × World F :=
  let (r, w) := w.llGiveMoney s a
  let ok : ℤ := match r with
    | .int i => toCInt i
    | _ => 0
  let (reqkey, w) := w.genUuid
  let w := w.pushEvent s (lit "transaction_result")
    [.key reqkey, .int ok, .string (if ok ≠ 0 then [] else lit "INSUFFICIENT_FUNDS")]
  (.key reqkey, w)

/-- The payment of `MONEY_FROM`, once the payer is found. It goes to the first avatar of the
table. -/
def payFrom (w : World F) (src : ℕ) (who : Bytes) (n : ℤ) : World F :=
  if w.balanceAt src < n then
    w.emit (.info (lit "MONEY_FROM: " ++ who ++ lit " insufficient balance L$" ++
      decBytes (w.balanceAt src) ++ lit "<L$" ++ decBytes n))
  else
    let w := { w with avatars := creditAt src (-n) w.avatars }
    let w := if w.avatars = [] then w else { w with avatars := creditAt 0 n w.avatars }
    let w := if w.scripts = [] then w else w.pushEvent 0 (lit "money") [.key who, .int n]
    w.emit (.money who ((w.avatars.head?.map Avatar.uuid).getD (lit "owner")) n 1)

/-- `MONEY_FROM` of `commands_pump`, on the rest of its line. -/
def cmdMoneyFrom (w : World F) (p : Bytes) : World F :=
  let (who, n) := moneyFromArgs p
  match who with
  | none => w
  | some who =>
    match w.regionFindAvatar who with
    | none => w
    | some src => w.payFrom src who n

end World

end Slemu
