import Slemu.History

/-! Which listen events the ways of speaking deliver, and whether the filters of the listener let
them pass. -/

namespace Slemu
variable {F : Type} [CDouble F]

/-- The filters of an entry let a message pass. -/
structure Admits (le : ListenEntry) (channel : ℤ) (name id msg : Bytes) : Prop where
  active : le.active
  channel : le.channel = channel
  name : le.nameFilter = [] ∨ le.nameFilter = name
  id : le.idFilter = [] ∨ le.idFilter = nullKey ∨ le.idFilter = id
  msg : le.msgFilter = [] ∨ le.msgFilter = msg

theorem hears_iff (le : ListenEntry) (channel : ℤ) (name id msg : Bytes) :
    World.hears le channel name id msg ↔ Admits le channel name id msg := by
  simp only [World.hears, Bool.and_eq_true, Bool.or_eq_true, decide_eq_true_eq]
  constructor
  · rintro ⟨⟨⟨⟨ha, hc⟩, hn⟩, hi⟩, hm⟩
    exact ⟨ha, hc, hn, or_assoc.mp hi, hm⟩
  · rintro ⟨ha, hc, hn, hi, hm⟩
    exact ⟨⟨⟨⟨ha, hc⟩, hn⟩, or_assoc.mpr hi⟩, hm⟩

/-! ### How often an event is pushed -/

theorem pushTimes_history (w : World F) (i j : ℕ) (name : Bytes) (args : List (SValue F)) (n : ℕ) :
    ((w.pushTimes i name args n).script j).history = (w.script j).history ++
      if j = i ∧ i < w.scripts.length then List.replicate n (.push ⟨name, args⟩ none) else [] := by
  induction n generalizing w with
  | zero =>
    rw [World.pushTimes, List.replicate_zero, ite_self, List.append_nil]
  | succ n ih =>
    rw [World.pushTimes, ih, World.pushEvent, World.pushDue, World.modScript_length,
      script_modScript]
    split
    · rw [Script.push, List.append_assoc, List.singleton_append, ← List.replicate_succ]
    · rfl

omit [CDouble F] in
theorem pushTimes_length (w : World F) (i : ℕ) (name : Bytes) (args : List (SValue F)) (n : ℕ) :
    (w.pushTimes i name args n).scripts.length = w.scripts.length := by
  induction n generalizing w with
  | zero => rfl
  | succ n ih => rw [World.pushTimes, ih, World.pushEvent, World.pushDue, World.modScript_length]

/-- Script `j` gets the events that are meant for place `j` of the table. -/
theorem foldl_pushTimes_history (ts : List (Script F)) (k : ℕ) (w : World F) (name : Bytes)
    (args : List (SValue F)) (times : ℕ → Script F → ℕ) (hk : k+ts.length ≤ w.scripts.length)
    (j : ℕ) :
    (((ts.zipIdx k).foldl (fun w' (t, i) => w'.pushTimes i name args (times i t)) w).script
      j).history = (w.script j).history ++ if k ≤ j ∧ j < k+ts.length then
        List.replicate (times j (ts.getD (j-k) default)) (.push ⟨name, args⟩ none) else [] := by
  induction ts generalizing k w with
  | nil =>
    rw [List.zipIdx_nil, List.foldl_nil, List.length_nil, if_neg (by omega), List.append_nil]
  | cons t ts ih =>
    rw [List.length_cons] at hk
    rw [List.zipIdx_cons, List.foldl_cons, ih (k+1) _ (by rw [pushTimes_length]; omega),
      pushTimes_history, List.append_assoc, List.length_cons]
    congr 1
    rcases Nat.lt_trichotomy j k with h | rfl | h
    · rw [if_neg (by omega), if_neg (by omega), if_neg (by omega), List.append_nil]
    · rw [if_pos ⟨rfl, by omega⟩, if_neg (by omega), if_pos ⟨le_rfl, by omega⟩, List.append_nil,
        Nat.sub_self, List.getD_cons_zero]
    · obtain ⟨m, rfl⟩ := Nat.exists_eq_add_of_lt h
      have hd : k+m+1-k = (k+m+1-(k+1))+1 := by omega
      rw [if_neg (by omega), List.nil_append, hd, List.getD_cons_succ]
      by_cases hm : k+m+1 < k+1+ts.length
      · rw [if_pos ⟨by omega, hm⟩, if_pos ⟨by omega, by omega⟩]
      · rw [if_neg (by omega), if_neg (by omega)]

theorem pushAll_history (w : World F) (name : Bytes) (args : List (SValue F))
    (times : ℕ → Script F → ℕ) (j : ℕ) :
    ((w.pushAll name args times).script j).history = (w.script j).history ++
      if j < w.scripts.length then
        List.replicate (times j (w.script j)) (.push ⟨name, args⟩ none) else [] := by
  rw [World.pushAll, foldl_pushTimes_history w.scripts 0 w name args times (by omega) j]
  simp only [Nat.zero_le, true_and, Nat.zero_add, Nat.sub_zero]
  rfl

omit [CDouble F] in
theorem push_mem_replicate {ev e : Event F} {n : ℕ} :
    .push ev none ∈ List.replicate n (Deed.push e none) ↔ ev = e ∧ 0 < n := by
  rw [List.mem_replicate, Deed.push.injEq, and_iff_left rfl, Nat.pos_iff_ne_zero, and_comm]

theorem sends_pushAll {w u : World F} (hu : u.core = w.core) (name : Bytes)
    (args : List (SValue F)) (times : ℕ → Script F → ℕ) (i : ℕ) (ev : Event F) :
    Sends w (u.pushAll name args times) i ev ↔
      i < w.scripts.length ∧ ev = ⟨name, args⟩ ∧ 0 < times i (w.script i) := by
  have hs : u.scripts = w.scripts := congrArg (fun c => c.1) hu
  have hh := pushAll_history u name args times i
  rw [script_of_core hu, hs] at hh
  rw [Sends, newDeeds_eq hh]
  split
  · rename_i hi
    rw [push_mem_replicate]
    exact ⟨fun h => ⟨hi, h⟩, fun h => h.2⟩
  · rename_i hi
    exact ⟨nofun, fun h => absurd h.1 hi⟩

theorem sends_pushTimes (w : World F) (j : ℕ) (name : Bytes) (args : List (SValue F)) (n : ℕ)
    (i : ℕ) (ev : Event F) : Sends w (w.pushTimes j name args n) i ev ↔
      (i = j ∧ j < w.scripts.length) ∧ ev = ⟨name, args⟩ ∧ 0 < n := by
  rw [Sends, newDeeds_eq (pushTimes_history w j i name args n)]
  split
  · rename_i hi
    rw [push_mem_replicate]
    exact ⟨fun h => ⟨hi, h⟩, fun h => h.2⟩
  · rename_i hi
    exact ⟨nofun, fun h => absurd h.1 hi⟩

theorem sends_of_core {w u u' : World F} (h : u'.core = u.core) (i : ℕ) (ev : Event F) :
    Sends w u' i ev ↔ Sends w u i ev := by
  rw [Sends, Sends, newDeeds, newDeeds, script_of_core h]

theorem not_sends_of_core {w u : World F} (h : u.core = w.core) (i : ℕ) (ev : Event F) :
    ¬ Sends w u i ev := by
  rw [Sends, newDeeds, script_of_core h, List.drop_length]
  exact List.not_mem_nil

/-! ### The ways of speaking -/

/-- A call of a builtin by script `s`, or a command with the rest of its line. -/
inductive Delivery (F : Type)
  /-- `llSay`, `llWhisper`, `llShout` and `llRegionSay` -/
  | say (kind : Bytes) (s : ℕ) (a : List (SValue F))
  | regionSayTo (s : ℕ) (a : List (SValue F))
  | listen (p : Bytes)
  | dialogReply (p : Bytes)
  | textboxReply (p : Bytes)

namespace Delivery

def run (w : World F) : Delivery F → World F
  | say kind s a => (World.chat kind w s a).2
  | regionSayTo s a => (w.llRegionSayTo s a).2
  | listen p => w.cmdListen p
  | dialogReply p => w.cmdDialogReply p
  | textboxReply p => w.cmdTextboxReply p

end Delivery

/-- A listen event that one of the entries of the script lets pass. -/
def Heard (t : Script F) (ev : Event F) : Prop :=
  ∃ channel name id msg, ev = ⟨lit "listen", World.listenArgs channel name id msg⟩ ∧
    ∃ le ∈ t.listens, Admits le channel name id msg

/-- Every event that is pushed is one that its script hears. -/
def Delivery.RespectsFilters (d : Delivery F) (w : World F) : Prop :=
  ∀ i ev, Sends w (d.run w) i ev → Heard (w.script i) ev

/-- If a script listens on the channel at all, one of its entries lets the message pass. -/
def EntryAdmits (t : Script F) (channel : ℤ) (name id msg : Bytes) : Prop :=
  (∃ le ∈ t.listens, le.active ∧ le.channel = channel) →
    ∃ le ∈ t.listens, Admits le channel name id msg

/-- The name that a reply comes from. -/
def World.replyName (w : World F) (who : Bytes) : Bytes :=
  match w.regionFindAvatar who with
  | some k => (w.avatars.getD k default).name
  | none => lit "Avatar"

/-- The script of the dialog that is answered lets the answer pass, if it listens. -/
def ReplyAdmitted (w : World F) (p : Bytes) : Prop :=
  ∀ who d i, (nextTok p).1 = some who → w.dialogFind who = some d →
    w.scripts.findIdx? (fun t => t.uuid = d.scriptUuid) = some i →
    EntryAdmits (w.script i) d.channel (w.replyName who) who (restOfLine (nextTok p).2)

/-- The scripts that `llRegionSayTo` or a reply addresses let the message pass, if they listen. -/
def Delivery.Admitted (w : World F) : Delivery F → Prop
  | .say .. => True
  | .listen _ => True
  | .regionSayTo s a => ∀ i < w.scripts.length, (w.script i).uuid = argStr a 0 →
    EntryAdmits (w.script i) (toCInt (argInt a 1)) (w.script s).name (w.script s).uuid (argStr a 2)
  | .dialogReply p => ReplyAdmitted w p
  | .textboxReply p => ReplyAdmitted w p

omit [CDouble F] in
theorem listenArgs_inj {c c' : ℤ} {n n' i i' m m' : Bytes}
    (h : (⟨lit "listen", World.listenArgs c n i m⟩ : Event F) = ⟨lit "listen", World.listenArgs c' n' i' m'⟩) :
    c = c' ∧ n = n' ∧ i = i' ∧ m = m' := by
  simpa [World.listenArgs] using h

omit [CDouble F] in
/-- Events that are pushed for entries that hear the message. -/
theorem heard_of_countP {t : Script F} {channel : ℤ} {name id msg : Bytes}
    (h : 0 < t.listens.countP fun le => World.hears le channel name id msg) :
    ∃ le ∈ t.listens, Admits le channel name id msg := by
  obtain ⟨le, hle, hh⟩ := List.countP_pos_iff.mp h
  exact ⟨le, hle, (hears_iff le channel name id msg).mp hh⟩

omit [CDouble F] in
theorem active_countP {t : Script F} {channel : ℤ} :
    (0 < t.listens.countP fun le => le.active && le.channel = channel) ↔
      ∃ le ∈ t.listens, le.active ∧ le.channel = channel := by
  simp only [List.countP_pos_iff, Bool.and_eq_true, decide_eq_true_eq]

theorem routeListen_respects {w u : World F} (hu : u.core = w.core) (channel : ℤ)
    (name id msg : Bytes) (i : ℕ) (ev : Event F)
    (hs : Sends w (u.routeListen channel name id msg) i ev) : Heard (w.script i) ev := by
  obtain ⟨-, he, hn⟩ := (sends_pushAll hu _ _ _ i ev).mp hs
  exact ⟨channel, name, id, msg, he, heard_of_countP hn⟩

theorem llRegionSayTo_respects_iff (w : World F) (s : ℕ) (a : List (SValue F)) :
    (Delivery.regionSayTo s a).RespectsFilters w ↔ (Delivery.regionSayTo s a).Admitted w := by
  have hsends (i : ℕ) (ev : Event F) : Sends w (w.llRegionSayTo s a).2 i ev ↔
      i < w.scripts.length ∧ ev = ⟨lit "listen", World.listenArgs (toCInt (argInt a 1))
        (w.script s).name (w.script s).uuid (argStr a 2)⟩ ∧
      (w.script i).uuid = argStr a 0 ∧
        ∃ le ∈ (w.script i).listens, le.active ∧ le.channel = toCInt (argInt a 1) := by
    have hu : ((w.emit (.chatTo (w.script s).name (w.script s).uuid (argStr a 0)
        (toCInt (argInt a 1)) (argStr a 2))).chatlogRecord (lit "region-to")
        (toCInt (argInt a 1)) (argStr a 2)).core = w.core := rfl
    rw [← active_countP, World.llRegionSayTo, sends_pushAll hu]
    split
    · rename_i hid
      rw [and_iff_right hid]
    · rename_i hid
      rw [iff_false_intro hid, false_and, iff_false_intro (lt_irrefl 0)]
  constructor
  · intro h i hi hu hact
    obtain ⟨c, n, id, m, he, hle⟩ := h i _ ((hsends i _).mpr ⟨hi, rfl, hu, hact⟩)
    obtain ⟨rfl, rfl, rfl, rfl⟩ := listenArgs_inj he
    exact hle
  · intro h i ev hs
    obtain ⟨hi, he, hu, hact⟩ := (hsends i ev).mp hs
    exact ⟨_, _, _, _, he, h i hi hu hact⟩

theorem sends_answerDialog (w : World F) (d : OpenDialog) (who text : Bytes) (i : ℕ)
    (ev : Event F) : Sends w (w.answerDialog d who text) i ev ↔
      w.scripts.findIdx? (fun t => t.uuid = d.scriptUuid) = some i ∧
      ev = ⟨lit "listen", World.listenArgs d.channel (w.replyName who) who text⟩ ∧
      ∃ le ∈ (w.script i).listens, le.active ∧ le.channel = d.channel := by
  unfold World.answerDialog
  cases hj : w.scripts.findIdx? fun t => t.uuid = d.scriptUuid with
  | none => exact iff_of_false (not_sends_of_core rfl i ev) (fun h => nomatch h.1)
  | some j =>
    have hl : j < w.scripts.length := (List.findIdx?_eq_some_iff_getElem.mp hj).1
    refine (sends_pushTimes w j _ _ _ i ev).trans ?_
    rw [active_countP]
    constructor
    · rintro ⟨⟨rfl, -⟩, he, hact⟩
      exact ⟨rfl, he, hact⟩
    · rintro ⟨hij, he, hact⟩
      cases hij
      exact ⟨⟨rfl, hl⟩, he, hact⟩

theorem cmdReply_respects_iff (w : World F) (word field p : Bytes) :
    (∀ i ev, Sends w (World.cmdReply word field w p) i ev → Heard (w.script i) ev) ↔
      ReplyAdmitted w p := by
  have hsends (i : ℕ) (ev : Event F) : Sends w (World.cmdReply word field w p) i ev ↔
      ∃ who d, (nextTok p).1 = some who ∧ w.dialogFind who = some d ∧
        w.scripts.findIdx? (fun t => t.uuid = d.scriptUuid) = some i ∧
        ev = ⟨lit "listen", World.listenArgs d.channel (w.replyName who) who
          (restOfLine (nextTok p).2)⟩ ∧
        ∃ le ∈ (w.script i).listens, le.active ∧ le.channel = d.channel := by
    unfold World.cmdReply
    dsimp only
    cases hw : (nextTok p).1 with
    | none => exact iff_of_false (not_sends_of_core rfl i ev) (fun ⟨_, _, h, _⟩ => nomatch h)
    | some who =>
      cases hd : w.dialogFind who with
      | none =>
        have hb : (some who).bind w.dialogFind = none := hd
        rw [hb]
        refine iff_of_false (not_sends_of_core rfl i ev) ?_
        rintro ⟨who', d, h, hd', -⟩
        cases h
        exact nomatch hd.symm.trans hd'
      | some d =>
        have hb : (some who).bind w.dialogFind = some d := hd
        rw [hb]
        refine (sends_of_core rfl i ev).trans ((sends_answerDialog w d who _ i ev).trans ?_)
        constructor
        · exact fun h => ⟨who, d, rfl, hd, h⟩
        · rintro ⟨who', d', h, hd', hrest⟩
          cases h
          cases hd.symm.trans hd'
          exact hrest
  constructor
  · intro h who d i hw hd hi hact
    obtain ⟨c, n, id, m, he, hle⟩ := h i _ ((hsends i _).mpr ⟨who, d, hw, hd, hi, rfl, hact⟩)
    obtain ⟨rfl, rfl, rfl, rfl⟩ := listenArgs_inj he
    exact hle
  · intro h i ev hs
    obtain ⟨who, d, hw, hd, hi, he, hact⟩ := (hsends i ev).mp hs
    exact ⟨_, _, _, _, he, h who d i hw hd hi hact⟩

/-- A delivery respects the filters exactly if they let the message pass, or it is one that looks
at them. -/
theorem delivery_respects_iff (d : Delivery F) (w : World F) :
    d.RespectsFilters w ↔ d.Admitted w := by
  cases d with
  | say kind s a =>
    refine iff_of_true (fun i ev hs => ?_) trivial
    have hu : ((w.emit (.chat kind (toCInt (argInt a 0)) (w.script s).name (w.script s).uuid
        (argStr a 1))).chatlogRecord kind (toCInt (argInt a 0)) (argStr a 1)).core = w.core := rfl
    exact routeListen_respects hu _ _ _ _ i ev hs
  | regionSayTo s a => exact llRegionSayTo_respects_iff w s a
  | listen p =>
    refine iff_of_true (fun i ev hs => ?_) trivial
    exact routeListen_respects rfl _ _ _ _ i ev hs
  | dialogReply p => exact cmdReply_respects_iff w _ _ p
  | textboxReply p => exact cmdReply_respects_iff w _ _ p

/-! ### A script that filters by name -/

/-- Listens on channel 5 to what is called `Bob`. -/
def bobProgram : Program :=
  { handlersProgram [(1, [.expr 3 (.call SV.void 0 9 [.intLit SV.integer 0 5,
      .stringLit SV.string 0 10, .stringLit SV.string 0 8, .stringLit SV.string 0 8])])] with
    strings := poolNames ++ [lit "llListen", lit "Bob"] }

def bobRun : ℕ → Conf ℚ := (regionOf [bobProgram] []).after noLib 30

/-- The object is not called `Bob`, and hears itself. -/
theorem regionSayTo_passes_filter : ∃ c : ℕ → Conf ℚ, Conf.IsRun noLib c 6 ∧
    ∃ d : Delivery ℚ, ¬ d.RespectsFilters (c 6).world := by
  refine ⟨bobRun, Conf.isRun_after (start_regionOf _ _) (by decide +kernel),
    .regionSayTo 0 [.key ((bobRun 6).script 0).uuid, .int 5, .string (lit "hi")], fun h => ?_⟩
  have ha := (llRegionSayTo_respects_iff _ _ _).mp h 0 (by decide +kernel) (by decide +kernel)
  obtain ⟨le, hle, hadm⟩ := ha (active_countP.mp (by decide +kernel))
  have hnone : ((bobRun 6).script 0).listens.all fun le => !World.hears le 5
      ((bobRun 6).script 0).name ((bobRun 6).script 0).uuid (lit "hi") := by decide +kernel
  have hno := List.all_eq_true.mp hnone le hle
  rw [Bool.not_eq_true'] at hno
  exact Bool.false_ne_true (hno.symm.trans ((hears_iff le _ _ _ _).mpr hadm))

end Slemu
