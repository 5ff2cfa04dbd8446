import Slemu.Scheduler
import Slemu.Money

/-! What a builtin or a command can do to the scripts, the clock and the avatar table, said once
for all of them. -/

namespace Slemu
variable {F : Type}

/-- A script as it was, but for events appended to its queue, no `timer` among them, and for
settings that no dispatch looks at. -/
structure Grown (t t' : Script F) : Prop where
  prog : t'.prog = t.prog
  curState : t'.curState = t.curState
  pendingState : t'.pendingState = t.pendingState
  globals : t'.globals = t.globals
  timerInterval : t'.timerInterval = t.timerInterval
  timerDue : t'.timerDue = t.timerDue
  queue : ∃ evs : List (Event F), (∀ ev ∈ evs, ev.name ≠ lit "timer") ∧
    t'.evq = t.evq ++ evs ∧ t'.history = t.history ++ evs.map fun ev => .push ev none

/-- Every avatar keeps its place in the table, and no UUID gets a second entry. -/
structure Entered (as bs : List Avatar) : Prop where
  places : uuids as <+: uuids bs
  nodup : (uuids as).Nodup → (uuids bs).Nodup

/-- The part of a script that dispatching looks at. -/
def Script.core (t : Script F) :
    Program × Option ℕ × Option ℕ × List (SValue F) × F × F × List (Event F) × List (Deed F) :=
  (t.prog, t.curState, t.pendingState, t.globals, t.timerInterval, t.timerDue, t.evq, t.history)

namespace World

/-- What the clock shows, what moved it, and how far the commands have come. -/
def clock (w : World F) : F × F × List F × List Bytes × ℕ :=
  (w.virtualNow, w.virtualOffset, w.advances, w.commandLines, w.nextCommand)

/-- The part of the world that the statements about `region_run` look at. -/
def core (w : World F) : List (Script F) × (F × F × List F × List Bytes × ℕ) × List Avatar :=
  (w.scripts, w.clock, w.avatars)

end World

theorem Grown.of_core {t t' : Script F} (h : t'.core = t.core) : Grown t t' := by
  simp only [Script.core, Prod.mk.injEq] at h
  obtain ⟨hp, hc, hs, hg, hi, hd, hq, hh⟩ := h
  exact ⟨hp, hc, hs, hg, hi, hd, [], nofun, hq.trans (List.append_nil _).symm,
    hh.trans (List.append_nil _).symm⟩

theorem Grown.refl (t : Script F) : Grown t t := of_core rfl

theorem Grown.trans {t u v : Script F} (h : Grown t u) (h' : Grown u v) : Grown t v where
  prog := h'.prog.trans h.prog
  curState := h'.curState.trans h.curState
  pendingState := h'.pendingState.trans h.pendingState
  globals := h'.globals.trans h.globals
  timerInterval := h'.timerInterval.trans h.timerInterval
  timerDue := h'.timerDue.trans h.timerDue
  queue := by
    obtain ⟨evs, hn, hq, hh⟩ := h.queue
    obtain ⟨evs', hn', hq', hh'⟩ := h'.queue
    refine ⟨evs ++ evs', fun ev hev => ?_, by rw [hq', hq, List.append_assoc], ?_⟩
    · exact (List.mem_append.mp hev).elim (hn ev) (hn' ev)
    rw [hh', hh, List.append_assoc, List.map_append]

theorem Entered.refl (as : List Avatar) : Entered as as := ⟨List.prefix_rfl, id⟩

theorem Entered.trans {as bs cs : List Avatar} (h : Entered as bs) (h' : Entered bs cs) :
    Entered as cs :=
  ⟨h.places.trans h'.places, fun hn => h'.nodup (h.nodup hn)⟩

theorem Entered.of_uuids {as bs : List Avatar} (h : uuids bs = uuids as) : Entered as bs :=
  ⟨h ▸ List.prefix_rfl, fun hn => h ▸ hn⟩

theorem Entered.addAvatar (u : Bytes) (b : ℤ) (nm : Option Bytes) (as : List Avatar) :
    Entered as (addAvatar u b nm as).1 := by
  refine ⟨?_, nodup_addAvatar u b nm as⟩
  rw [uuids_addAvatar]
  split
  · exact List.prefix_rfl
  · exact List.prefix_append _ _

theorem Entered.loadEconomy (text : Bytes) (as : List Avatar) :
    Entered as (loadEconomy text as) := by
  unfold Slemu.loadEconomy
  induction fgetsLines 511 text.length text generalizing as with
  | nil => exact refl as
  | cons line lines ih =>
    refine trans ?_ (ih _)
    unfold loadEconomyLine
    cases economyLine line with
    | none => exact refl as
    | some r =>
      simp only
      split <;> exact addAvatar _ _ _ as

variable [CDouble F]

/-- Every script is as it was, but for appended events, and the clock stands still. -/
structure AllGrown (w w' : World F) : Prop where
  count : w'.scripts.length = w.scripts.length
  script (i : ℕ) : Grown (w.script i) (w'.script i)
  clock : w'.clock = w.clock
  avatars : Entered w.avatars w'.avatars

theorem script_of_scripts {w w' : World F} (h : w'.scripts = w.scripts) (i : ℕ) :
    w'.script i = w.script i := by
  rw [World.script, h, World.script]

theorem script_of_length_le (w : World F) (i : ℕ) (h : w.scripts.length ≤ i) :
    w.script i = default := by
  rw [World.script, List.getD_eq_default _ _ h]

theorem script_modScript (w : World F) (s i : ℕ) (f : Script F → Script F) :
    (w.modScript s f).script i = if i = s ∧ s < w.scripts.length then f (w.script i)
      else w.script i := by
  by_cases hi : i = s
  · subst hi
    by_cases hs : i < w.scripts.length
    · rw [if_pos ⟨rfl, hs⟩, World.modScript_script w i f hs]
    · have hm : (w.modScript i f).scripts = w.scripts := by
        simp only [World.modScript]
        exact List.modify_eq_self (not_lt.mp hs)
      rw [if_neg (fun h => hs h.2), script_of_scripts hm]
  · rw [if_neg (fun h => hi h.1), World.modScript_script_ne w s i f hi]

namespace AllGrown
variable {u v w : World F}

theorem of_parts (hs : v.scripts = w.scripts) (hc : v.clock = w.clock)
    (ha : Entered w.avatars v.avatars) : AllGrown w v :=
  ⟨by rw [hs], fun i => by rw [script_of_scripts hs]; exact Grown.refl _, hc, ha⟩

theorem of_core (h : v.core = w.core) : AllGrown w v := by
  have ha : v.avatars = w.avatars := congrArg (fun c => c.2.2) h
  refine of_parts (congrArg (fun c => c.1) h) (congrArg (fun c => c.2.1) h) ?_
  rw [ha]
  exact Entered.refl _

theorem refl (w : World F) : AllGrown w w := of_core rfl

theorem trans (h : AllGrown u v) (h' : AllGrown v w) : AllGrown u w :=
  ⟨h'.count.trans h.count, fun i => (h.script i).trans (h'.script i), h'.clock.trans h.clock,
    h.avatars.trans h'.avatars⟩

/-- What comes after a change of the rest of the world. -/
theorem after (h : AllGrown v w) (hu : v.core = u.core) : AllGrown u w := (of_core hu).trans h

theorem modScript (w : World F) (s : ℕ) {f : Script F → Script F} (hf : ∀ t, Grown t (f t)) :
    AllGrown w (w.modScript s f) := by
  refine ⟨World.modScript_length w s f, fun i => ?_, rfl, Entered.refl _⟩
  rw [script_modScript]
  split
  · exact hf _
  · exact Grown.refl _

/-- A change of settings that no dispatch looks at. -/
theorem settings (w : World F) (s : ℕ) {f : Script F → Script F}
    (hf : ∀ t, (f t).core = t.core) : AllGrown w (w.modScript s f) :=
  modScript w s fun t => .of_core (hf t)

theorem pushEvent (w : World F) (i : ℕ) {name : Bytes} (hn : name ≠ lit "timer")
    (args : List (SValue F)) : AllGrown w (w.pushEvent i name args) :=
  modScript w i fun _ => ⟨rfl, rfl, rfl, rfl, rfl, rfl, [⟨name, args⟩],
    fun _ hev => List.mem_singleton.mp hev ▸ hn, rfl, rfl⟩

theorem pushTimes (w : World F) (i : ℕ) {name : Bytes} (hn : name ≠ lit "timer")
    (args : List (SValue F)) (n : ℕ) : AllGrown w (w.pushTimes i name args n) := by
  induction n generalizing w with
  | zero => exact refl w
  | succ n ih => exact (pushEvent w i hn args).trans (ih _)

theorem foldl {α : Type} {f : World F → α → World F} (hf : ∀ w a, AllGrown w (f w a))
    (as : List α) (w : World F) : AllGrown w (as.foldl f w) := by
  induction as generalizing w with
  | nil => exact refl w
  | cons a as ih => exact (hf w a).trans (ih _)

theorem pushAll (w : World F) {name : Bytes} (hn : name ≠ lit "timer") (args : List (SValue F))
    (times : ℕ → Script F → ℕ) : AllGrown w (w.pushAll name args times) :=
  foldl (fun _ _ => pushTimes _ _ hn args _) _ w

theorem routeListen (w : World F) (channel : ℤ) (name id msg : Bytes) :
    AllGrown w (w.routeListen channel name id msg) :=
  pushAll w (by decide) _ _

end AllGrown

/-! ### Builtins -/

/-- The ways in which code of script `s` changes the scripts, the clock or the avatars. -/
inductive Act (s : ℕ) : World F → World F → Prop
  | grown {w w' : World F} : AllGrown w w' → Act s w w'
  | sleep (w : World F) (f : F) : Act s w (w.advance f)
  | setTimer (w : World F) (f : F) : Act s w (w.modScript s (Script.setTimer f w.virtualNow))
  | die (w : World F) : Act s w (w.modScript s Script.die)
  | globals (w : World F) (g : List (SValue F) → List (SValue F)) :
    Act s w (w.modScript s fun t => { t with globals := g t.globals })
  | pending (w : World F) (i : ℕ) :
    Act s w (w.modScript s fun t => { t with pendingState := some i })
  | reset (w : World F) (st : Script F → Option ℕ) :
    Act s w (w.modScript s fun t => { t.flush .reset with curState := st t })

/-- The acts among these that one call of a builtin makes. -/
inductive BuiltinAct (s : ℕ) : World F → World F → Prop
  | grown {w w' : World F} : AllGrown w w' → BuiltinAct s w w'
  | sleep (w : World F) (f : F) : BuiltinAct s w (w.advance f)
  | setTimer (w : World F) (f : F) :
    BuiltinAct s w (w.modScript s (Script.setTimer f w.virtualNow))
  | die (w : World F) : BuiltinAct s w (w.modScript s Script.die)

theorem BuiltinAct.act {s : ℕ} {w w' : World F} (h : BuiltinAct s w w') : Act s w w' := by
  cases h with
  | grown h => exact .grown h
  | sleep f => exact .sleep w f
  | setTimer f => exact .setTimer w f
  | die => exact .die w

/-- A builtin that leaves the queues alone but for appended events, and the clock. -/
def Plain (f : Builtin F) : Prop := ∀ w s a, AllGrown w (f w s a).2

theorem entered_enterAvatar (w : World F) (i : Option ℕ) (uuid : Bytes) :
    AllGrown w (w.enterAvatar i uuid).2 := by
  cases i with
  | some i => exact AllGrown.refl w
  | none => exact AllGrown.of_parts rfl rfl (Entered.addAvatar uuid 0 none w.avatars)

namespace Plain

/-- A builtin that only touches the rest of the world. -/
theorem of_core {f : Builtin F} (h : ∀ w s a, (f w s a).2.core = w.core) : Plain f :=
  fun w s a => AllGrown.of_core (h w s a)

theorem chat (kind : Bytes) : Plain (World.chat kind : Builtin F) := by
  intro w s a
  unfold World.chat
  dsimp only
  refine (AllGrown.routeListen _ _ _ _ _).after ?_
  rfl

theorem llRegionSayTo : Plain (World.llRegionSayTo : Builtin F) := by
  intro w s a
  unfold World.llRegionSayTo
  dsimp only
  refine (AllGrown.pushAll _ (by decide) _ _).after ?_
  rfl

theorem llMessageLinked : Plain (World.llMessageLinked : Builtin F) := by
  intro w s a
  unfold World.llMessageLinked
  dsimp only
  refine (AllGrown.pushAll _ (by decide) _ _).after ?_
  rfl

theorem llGiveMoney : Plain (World.llGiveMoney : Builtin F) := by
  intro w s a
  unfold World.llGiveMoney
  dsimp only
  split
  · exact AllGrown.refl w
  · have he (i j : Option ℕ) (u v : Bytes) :
        AllGrown w ((w.enterAvatar i u).2.enterAvatar j v).2 :=
      (entered_enterAvatar _ _ _).trans (entered_enterAvatar _ _ _)
    split
    · exact he _ _ _ _
    · refine (he _ _ _ _).trans (AllGrown.of_parts rfl rfl (Entered.of_uuids ?_))
      simp only [World.emit, uuids_creditAt]

theorem llTransferLindenDollars : Plain (World.llTransferLindenDollars : Builtin F) := by
  intro w s a
  have hg : AllGrown w (w.llGiveMoney s a).2.genUuid.2 :=
    (llGiveMoney w s a).trans (AllGrown.of_core rfl)
  exact hg.trans (AllGrown.pushEvent _ _ (by decide) _)

theorem llLinksetDataWrite : Plain (World.llLinksetDataWrite : Builtin F) := by
  intro w s a
  unfold World.llLinksetDataWrite
  split
  · exact AllGrown.refl w
  · exact AllGrown.of_core rfl

theorem llLinksetDataDelete : Plain (World.llLinksetDataDelete : Builtin F) := by
  intro w s a
  unfold World.llLinksetDataDelete
  split
  · exact AllGrown.refl w
  · exact AllGrown.of_core rfl

theorem llLinksetDataReset : Plain fun (w : World F) s _ => (.void, w.llLinksetDataReset s) := by
  intro w s _
  have hk (w : World F) (k : Bytes) : AllGrown w (World.resetKey s w k) := AllGrown.of_core rfl
  exact AllGrown.foldl hk _ w

theorem llSetPos : Plain (World.llSetPos : Builtin F) := by
  intro w s a
  unfold World.llSetPos
  dsimp only
  split <;> exact AllGrown.of_core rfl

theorem llSetRot : Plain (World.llSetRot : Builtin F) := by
  intro w s a
  unfold World.llSetRot
  dsimp only
  split <;> exact AllGrown.of_core rfl

theorem llListen : Plain (World.llListen : Builtin F) := by
  intro w s a
  unfold World.llListen
  dsimp only
  refine (AllGrown.settings _ s fun _ => ?_).after ?_ <;> rfl

theorem llSetText : Plain (World.llSetText : Builtin F) := by
  intro w s a
  have hm : AllGrown w (w.modScript s fun t => { t with hudText := some (argStr a 0) }) :=
    AllGrown.settings w s fun _ => rfl
  exact hm.trans (AllGrown.of_core rfl)

theorem llRequestPermissions : Plain (World.llRequestPermissions : Builtin F) := by
  intro w s a
  have hm : AllGrown w (w.modScript s fun t =>
      { t with perms := toCInt (argInt a 1), permsKey := some (argStr a 0) }) :=
    AllGrown.settings w s fun _ => rfl
  unfold World.llRequestPermissions
  dsimp only
  refine hm.trans ((AllGrown.pushEvent _ _ (by decide) _).after ?_)
  rfl

omit [CDouble F] in
theorem core_httpAnswer (w : World F) (url : Bytes) : (w.httpAnswer url).2.core = w.core := by
  unfold World.httpAnswer
  split
  · rfl
  · split <;> rfl

theorem llHTTPRequest : Plain (World.llHTTPRequest : Builtin F) := by
  intro w s a
  have ha : AllGrown w (w.genUuid.2.httpAnswer (argStr a 0)).2 :=
    AllGrown.of_core (core_httpAnswer _ _)
  exact (ha.trans (AllGrown.pushEvent _ _ (by decide) _)).trans (AllGrown.of_core rfl)

theorem llRequestURL : Plain (World.llRequestURL : Builtin F) := by
  intro w s a
  have hr : AllGrown w (w.genUuid.2.inboundRegister s w.genUuid.1).2 := AllGrown.of_core rfl
  exact hr.trans (AllGrown.pushEvent _ _ (by decide) _)

/-- A plain builtin is an act of its script. -/
theorem act {f : Builtin F} (h : Plain f) (w : World F) (s : ℕ) (a : List (SValue F)) :
    BuiltinAct s w (f w s a).2 :=
  .grown (h w s a)

end Plain

namespace BuiltinAct

theorem effectTable : ∀ p ∈ (Slemu.effectTable : List (Bytes × Builtin F)),
    ∀ w s a, BuiltinAct s w (p.2 w s a).2 := by
  simp only [Slemu.effectTable, List.forall_mem_cons]
  have hsay (kind : Bytes) : ∀ w s a, BuiltinAct s w (World.chat kind w s a : SValue F × World F).2 :=
    (Plain.chat kind).act
  have hcore {f : Builtin F} (h : ∀ w s a, (f w s a).2.core = w.core) :
      ∀ w s a, BuiltinAct s w (f w s a).2 := (Plain.of_core h).act
  have hown {f : World F → ℕ → List (SValue F) → Script F → Script F}
      (hf : ∀ w s a t, (f w s a t).core = t.core)
      (w : World F) (s : ℕ) (a : List (SValue F)) : BuiltinAct s w (w.modScript s (f w s a)) :=
    .grown (AllGrown.settings w s (hf w s a))
  exact ⟨hsay _, hsay _, hsay _, hcore fun _ _ _ => rfl, hsay _, Plain.llRegionSayTo.act,
    hcore fun _ _ _ => rfl, Plain.llSetText.act, hcore fun _ _ _ => rfl,
    hcore fun _ _ _ => rfl, hcore fun _ _ _ => rfl, fun w s a => .sleep w _,
    fun w s a => .setTimer w _, hown fun _ _ _ _ => rfl, hown fun _ _ _ _ => rfl,
    fun w s a => .die w, Plain.llSetPos.act, Plain.llSetRot.act,
    Plain.llListen.act, hown fun _ _ _ _ => rfl,
    hown fun _ _ _ _ => rfl, Plain.llMessageLinked.act, Plain.llRequestPermissions.act,
    Plain.llGiveMoney.act, Plain.llTransferLindenDollars.act, Plain.llLinksetDataWrite.act,
    fun w _ _ => .grown (.refl w), Plain.llLinksetDataDelete.act, Plain.llLinksetDataReset.act,
    fun w _ _ => .grown (.refl w), fun w _ _ => .grown (.refl w), Plain.llHTTPRequest.act,
    Plain.llRequestURL.act, nofun⟩

theorem stubTable : ∀ p ∈ (Slemu.stubTable : List (Bytes × Builtin F)), Plain p.2 := by
  intro p hp
  simp only [Slemu.stubTable, List.mem_append, List.mem_map] at hp
  rcases hp with (⟨fn, -, rfl⟩ | ⟨fn, -, rfl⟩) | hp
  · exact .of_core fun _ _ _ => rfl
  · exact .of_core fun _ _ _ => rfl
  · revert p
    simp only [List.forall_mem_cons]
    exact ⟨.of_core fun _ _ _ => rfl, .of_core fun _ _ _ => rfl, .of_core fun _ _ _ => rfl,
      .of_core fun _ _ _ => rfl, nofun⟩

/-- Every builtin is an act of the script that calls it. -/
theorem of_lookup {lib : Lib F} {name : Bytes} {f : Builtin F}
    (h : builtinsLookup lib name = some f) (w : World F) (s : ℕ) (a : List (SValue F)) :
    BuiltinAct s w (f w s a).2 := by
  unfold builtinsLookup at h
  split at h
  · rename_i g hg
    obtain rfl : g = f := Option.some.inj h
    have hmem : ∃ k, (k, g) ∈ (Slemu.effectTable ++ Slemu.stubTable : List (Bytes × Builtin F)) := by
      obtain ⟨l₁, l₂, hl, -⟩ := List.lookup_eq_some_iff.mp hg
      exact ⟨name, by rw [hl]; simp⟩
    obtain ⟨k, hk⟩ := hmem
    rcases List.mem_append.mp hk with hk | hk
    · exact effectTable _ hk w s a
    · exact (stubTable _ hk).act w s a
  · obtain ⟨g, -, rfl⟩ := Option.map_eq_some_iff.mp h
    exact .grown (AllGrown.of_core rfl)

end BuiltinAct

theorem Act.of_lookup {lib : Lib F} {name : Bytes} {f : Builtin F}
    (h : builtinsLookup lib name = some f) (w : World F) (s : ℕ) (a : List (SValue F)) :
    Act s w (f w s a).2 :=
  (BuiltinAct.of_lookup h w s a).act

/-! ### Commands -/

namespace AllGrown
variable (w : World F) (p : Bytes)

theorem info (msg : Bytes) : AllGrown w (w.info msg) := of_core rfl

theorem pushDetected (s : ℕ) (uuid name : Bytes) : AllGrown w (w.pushDetected s uuid name) :=
  settings w s fun _ => rfl

theorem pushTouches (s : ℕ) (names : List Bytes) (hn : ∀ name ∈ names, name ≠ lit "timer") :
    AllGrown w (w.pushTouches s names) := by
  induction names generalizing w with
  | nil => exact refl w
  | cons name names ih =>
    have hp := pushEvent w s (hn name List.mem_cons_self) [.int 1]
    exact hp.trans (ih _ fun n h => hn n (List.mem_cons_of_mem _ h))

/-- The common end of the touch commands. -/
theorem touched (s : ℕ) (uuid name msg : Bytes) (names : List Bytes)
    (hn : ∀ name ∈ names, name ≠ lit "timer") :
    AllGrown w (((w.pushDetected s uuid name).pushTouches s names).info msg) :=
  ((pushDetected w s uuid name).trans (pushTouches _ s names hn)).trans (info _ msg)

theorem cmdTouch : AllGrown w (w.cmdTouch p) := by
  unfold World.cmdTouch
  dsimp only
  split
  · exact refl w
  · exact touched w _ _ _ _ _ (by decide)

theorem cmdTouchFace : AllGrown w (w.cmdTouchFace p) := by
  unfold World.cmdTouchFace
  dsimp only
  split
  · exact refl w
  · exact touched w _ _ _ _ _ (by decide)

theorem cmdTouchAs : AllGrown w (w.cmdTouchAs p) := by
  unfold World.cmdTouchAs
  dsimp only
  split
  · exact touched w _ _ _ _ _ (by decide)
  · exact refl w

theorem cmdListen : AllGrown w (w.cmdListen p) :=
  (routeListen w _ _ _ _).trans (info _ _)

theorem answerDialog (d : OpenDialog) (who text : Bytes) :
    AllGrown w (w.answerDialog d who text) := by
  unfold World.answerDialog
  split
  · exact refl w
  · exact pushTimes w _ (by decide) _ _

theorem cmdReply (word field : Bytes) : AllGrown w (World.cmdReply word field w p) := by
  unfold World.cmdReply
  dsimp only
  split
  · rename_i who d _ _
    exact (answerDialog w d who _).trans (of_core rfl)
  · exact info w _

theorem payFrom (src : ℕ) (who : Bytes) (n : ℤ) : AllGrown w (w.payFrom src who n) := by
  unfold World.payFrom
  split
  · exact of_core rfl
  · have h1 : AllGrown w { w with avatars := creditAt src (-n) w.avatars } :=
      of_parts rfl rfl (Entered.of_uuids (uuids_creditAt src (-n) w.avatars))
    have h2 (u : World F) : AllGrown u
        (if u.avatars = [] then u else { u with avatars := creditAt 0 n u.avatars }) := by
      split
      · exact refl u
      · exact of_parts rfl rfl (Entered.of_uuids (uuids_creditAt 0 n u.avatars))
    have h3 (u : World F) : AllGrown u
        (if u.scripts = [] then u else u.pushEvent 0 (lit "money") [.key who, .int n]) := by
      split
      · exact refl u
      · exact pushEvent u _ (by decide) _
    exact (h1.trans ((h2 _).trans (h3 _))).trans (of_core rfl)

theorem cmdMoneyFrom : AllGrown w (w.cmdMoneyFrom p) := by
  unfold World.cmdMoneyFrom
  dsimp only
  split
  · exact refl w
  · split
    · exact refl w
    · exact payFrom w _ _ _

theorem cmdHttpIn : AllGrown w (w.cmdHttpIn p) := by
  unfold World.cmdHttpIn
  dsimp only
  split
  · exact info w _
  · have hg : AllGrown w w.genUuid.2 := of_core rfl
    exact (hg.trans (pushEvent _ _ (by decide) _)).trans (info _ _)

theorem cmdAttach : AllGrown w (w.cmdAttach p) := by
  unfold World.cmdAttach
  dsimp only
  split
  · exact refl w
  · split
    · exact (pushEvent w _ (by decide) _).trans (info _ _)
    · refine (pushEvent w _ (by decide) _).trans (of_parts rfl rfl (Entered.of_uuids ?_))
      exact uuids_modify _ (fun a => { a with attachedObject := some _ }) (fun _ => rfl) _

theorem cmdDetach : AllGrown w w.cmdDetach := by
  unfold World.cmdDetach
  split
  · exact refl w
  · exact (pushEvent w _ (by decide) _).trans (info _ _)

theorem cmdToAll (word : Bytes) {event : Bytes} (hn : event ≠ lit "timer") :
    AllGrown w (World.cmdToAll word event w p) :=
  (pushAll w hn _ _).trans (info _ _)

theorem cmdAssertBalance : AllGrown w (w.cmdAssertBalance p) := by
  have hs (c : Prop) [Decidable c] (a b : Bytes) : AllGrown w (if c then
      w.assertion (lit "balance") false 128 a else w.assertion (lit "balance") true 128 b) := by
    split <;> exact of_core rfl
  unfold World.cmdAssertBalance
  dsimp only
  split
  · exact hs _ _ _
  · exact of_core rfl

theorem volumeLoadEconomy : AllGrown w w.volumeLoadEconomy := by
  unfold World.volumeLoadEconomy
  split
  · exact refl w
  · exact of_parts rfl rfl (Entered.loadEconomy _ _)

end AllGrown

/-- What one line of the commands file does: `WAIT` moves the clock, nothing else does. -/
inductive Told : World F → World F → Prop
  | grown {w w' : World F} : AllGrown w w' → Told w w'
  | wait {w w' : World F} (f : F) : w'.core = (w.advance f).core → Told w w'

namespace Told

theorem commandTable : ∀ q ∈ (World.commandTable : List (Bytes × (World F → Bytes → World F))),
    ∀ w p, Told w (q.2 w p) := by
  simp only [World.commandTable, List.forall_mem_cons]
  have hcore {f : World F → Bytes → World F} (h : ∀ w p, (f w p).core = w.core) :
      ∀ w p, Told w (f w p) := fun w p => .grown (.of_core (h w p))
  exact ⟨fun w _ => .wait _ rfl, hcore fun _ _ => rfl, hcore fun _ _ => rfl,
    hcore fun _ _ => rfl, fun w p => .grown (.cmdTouch w p),
    fun w p => .grown (.cmdTouchFace w p), fun w p => .grown (.cmdTouchAs w p),
    fun w p => .grown (.cmdListen w p), hcore fun _ _ => rfl,
    fun w p => .grown (.cmdReply w p _ _), fun w p => .grown (.cmdReply w p _ _),
    fun w p => .grown (.cmdMoneyFrom w p), fun w p => .grown (.cmdHttpIn w p),
    fun w p => .grown (.cmdAttach w p), fun w _ => .grown (.cmdDetach w),
    fun w p => .grown (.cmdToAll w p _ (by decide)), fun w p => .grown (.cmdToAll w p _ (by decide)),
    fun w p => .grown (.cmdAssertBalance w p), hcore fun _ _ => rfl,
    hcore fun _ _ => rfl, hcore fun _ _ => rfl, nofun⟩

theorem runCommand (w : World F) (p : Bytes) : Told w (w.runCommand p) := by
  unfold World.runCommand
  dsimp only
  split
  · exact .grown (.refl w)
  · split
    · rename_i f hf
      obtain ⟨l₁, l₂, hl, -⟩ := List.lookup_eq_some_iff.mp hf
      have hmem : (_, f) ∈ World.commandTable := hl ▸ List.mem_append_right l₁ List.mem_cons_self
      exact commandTable _ hmem w _
    · exact .grown (.info w _)

theorem after {u v w : World F} (h : Told u v) (hw : w.core = v.core) : Told u w := by
  cases h with
  | grown h => exact .grown (h.trans (.of_core hw))
  | wait f h => exact .wait f (hw.trans h)

end Told

end Slemu
