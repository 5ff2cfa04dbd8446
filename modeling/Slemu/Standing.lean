import Slemu.Quiescence

/-! What only few operations change: the listen entries and their counter, the URLs handed out, what
was detected, and the touches that were ever queued. -/

namespace Slemu
variable {F : Type}

/-- The events of a touch. -/
def touchNames : List Bytes := [lit "touch_start", lit "touch", lit "touch_end"]

local instance lawfulBEqName : LawfulBEq Bytes := inferInstance

/-- A touch that is queued. -/
def Deed.isTouch : Deed F → Bool
  | .push ev _ => ev.name ∈ touchNames
  | _ => false

/-- The part of a script that only few operations change. -/
def Script.standing (t : Script F) : Bytes × List ListenEntry × List (Detected F) × List (Deed F) :=
  (t.uuid, t.listens, t.detected, t.history.filter Deed.isTouch)

/-- Anything but a touch that is queued may be noted. -/
theorem standing_note {t t' : Script F} {d : Deed F} (hd : d.isTouch = false)
    (hu : t'.uuid = t.uuid) (hl : t'.listens = t.listens) (ht : t'.detected = t.detected)
    (hh : t'.history = t.history ++ [d]) : t'.standing = t.standing := by
  have hf : [d].filter Deed.isTouch = [] := by rw [List.filter_singleton, hd]; rfl
  unfold Script.standing
  rw [hu, hl, ht, hh, List.filter_append, hf, List.append_nil]

theorem standing_pop (t : Script F) : t.pop.standing = t.standing :=
  standing_note (d := .pop) rfl rfl rfl rfl rfl

theorem standing_flush (t : Script F) (why : Flush) : (t.flush why).standing = t.standing :=
  standing_note (d := .flush why) rfl rfl rfl rfl rfl

/-- The part of the world that only few operations change. -/
def World.standing (w : World F) :
    List (Bytes × List ListenEntry × List (Detected F) × List (Deed F)) × ℤ × List InboundUrl :=
  (w.scripts.map Script.standing, w.nextHandle, w.inbound)

variable [CDouble F]

/-- Nothing of that part is changed. -/
def Stands (w w' : World F) : Prop := w'.standing = w.standing

namespace Stands
variable {u v w : World F}

omit [CDouble F] in
theorem refl (w : World F) : Stands w w := rfl

omit [CDouble F] in
theorem trans (h : Stands u v) (h' : Stands v w) : Stands u w := Eq.trans h' h

omit [CDouble F] in
theorem after (h : Stands v w) (hu : v.standing = u.standing) : Stands u w := trans hu h

omit [CDouble F] in
theorem of_parts (hs : v.scripts = w.scripts) (hn : v.nextHandle = w.nextHandle)
    (hi : v.inbound = w.inbound) : Stands w v := by
  unfold Stands World.standing
  rw [hs, hn, hi]

omit [CDouble F] in
theorem count (h : Stands v w) : w.scripts.length = v.scripts.length := by
  have hs := congrArg (fun x => x.1.length) h
  simpa only [World.standing, List.length_map] using hs

theorem script (h : Stands v w) (i : ℕ) : (w.script i).standing = (v.script i).standing := by
  have hs : w.scripts.map Script.standing = v.scripts.map Script.standing := congrArg Prod.fst h
  have hi (u : World F) : (u.script i).standing =
      (u.scripts.map Script.standing).getD i (default : Script F).standing := by
    unfold World.script
    rw [List.getD_eq_getElem?_getD, List.getD_eq_getElem?_getD, List.getElem?_map]
    cases u.scripts[i]? <;> rfl
  rw [hi w, hi v, hs]

omit [CDouble F] in
theorem nextHandle (h : Stands v w) : w.nextHandle = v.nextHandle :=
  congrArg (fun x => x.2.1) h

omit [CDouble F] in
theorem inbound (h : Stands v w) : w.inbound = v.inbound := congrArg (fun x => x.2.2) h

omit [CDouble F] in
theorem modScript (w : World F) (s : ℕ) {f : Script F → Script F}
    (hf : ∀ t, (f t).standing = t.standing) : Stands w (w.modScript s f) := by
  have hm := map_modify_same hf s w.scripts
  exact congrArg (fun x => (x, w.nextHandle, w.inbound)) hm

omit [CDouble F] in
theorem pushDue (w : World F) (i : ℕ) {name : Bytes} (hn : name ∉ touchNames)
    (args : List (SValue F)) (due : Option F) : Stands w (w.pushDue i name args due) := by
  apply modScript
  intro t
  exact standing_note (d := .push ⟨name, args⟩ due) (decide_eq_false hn) rfl rfl rfl rfl

omit [CDouble F] in
theorem pushEvent (w : World F) (i : ℕ) {name : Bytes} (hn : name ∉ touchNames)
    (args : List (SValue F)) : Stands w (w.pushEvent i name args) :=
  pushDue w i hn args none

omit [CDouble F] in
theorem pushTimes (w : World F) (i : ℕ) {name : Bytes} (hn : name ∉ touchNames)
    (args : List (SValue F)) (n : ℕ) : Stands w (w.pushTimes i name args n) := by
  induction n generalizing w with
  | zero => exact refl w
  | succ n ih => exact (pushEvent w i hn args).trans (ih _)

omit [CDouble F] in
theorem foldl {α : Type} {f : World F → α → World F} (hf : ∀ w a, Stands w (f w a))
    (as : List α) (w : World F) : Stands w (as.foldl f w) := by
  induction as generalizing w with
  | nil => exact refl w
  | cons a as ih => exact (hf w a).trans (ih _)

omit [CDouble F] in
theorem pushAll (w : World F) {name : Bytes} (hn : name ∉ touchNames) (args : List (SValue F))
    (times : ℕ → Script F → ℕ) : Stands w (w.pushAll name args times) :=
  foldl (fun _ _ => pushTimes _ _ hn args _) _ w

omit [CDouble F] in
theorem routeListen (w : World F) (channel : ℤ) (name id msg : Bytes) :
    Stands w (w.routeListen channel name id msg) :=
  pushAll w (by decide) _ _

omit [CDouble F] in
theorem enterAvatar (w : World F) (i : Option ℕ) (uuid : Bytes) :
    Stands w (w.enterAvatar i uuid).2 := by
  cases i <;> rfl

end Stands

/-! ### Builtins -/

/-- What code of script `s` does to that part. -/
inductive Handling (s : ℕ) : World F → World F → Prop
  | steady {w w' : World F} : Stands w w' → Handling s w w'
  | listen (w : World F) (a : List (SValue F)) : Handling s w (w.llListen s a).2
  | remove (w : World F) (a : List (SValue F)) : Handling s w (w.llListenRemove s a).2
  | control (w : World F) (a : List (SValue F)) : Handling s w (w.llListenControl s a).2
  | request (w : World F) (a : List (SValue F)) : Handling s w (w.llRequestURL s a).2

namespace Handling

theorem chat (kind : Bytes) (w : World F) (s : ℕ) (a : List (SValue F)) :
    Stands w (World.chat kind w s a).2 := by
  unfold World.chat
  dsimp only
  refine (Stands.routeListen _ _ _ _ _).after ?_
  rfl

theorem llRegionSayTo (w : World F) (s : ℕ) (a : List (SValue F)) :
    Stands w (w.llRegionSayTo s a).2 := by
  unfold World.llRegionSayTo
  dsimp only
  refine (Stands.pushAll _ (by decide) _ _).after ?_
  rfl

theorem llMessageLinked (w : World F) (s : ℕ) (a : List (SValue F)) :
    Stands w (w.llMessageLinked s a).2 := by
  unfold World.llMessageLinked
  dsimp only
  refine (Stands.pushAll _ (by decide) _ _).after ?_
  rfl

theorem llGiveMoney (w : World F) (s : ℕ) (a : List (SValue F)) :
    Stands w (w.llGiveMoney s a).2 := by
  unfold World.llGiveMoney
  dsimp only
  split
  · exact Stands.refl w
  · have he (i j : Option ℕ) (u v : Bytes) :
        Stands w ((w.enterAvatar i u).2.enterAvatar j v).2 :=
      (Stands.enterAvatar _ _ _).trans (Stands.enterAvatar _ _ _)
    split
    · exact he _ _ _ _
    · exact (he _ _ _ _).trans rfl

theorem llTransferLindenDollars (w : World F) (s : ℕ) (a : List (SValue F)) :
    Stands w (w.llTransferLindenDollars s a).2 := by
  have hg : Stands w (w.llGiveMoney s a).2.genUuid.2 := (llGiveMoney w s a).trans rfl
  exact hg.trans (Stands.pushEvent _ _ (by decide) _)

theorem llLinksetData (w : World F) (s : ℕ) (a : List (SValue F)) :
    Stands w (w.llLinksetDataWrite s a).2 ∧ Stands w (w.llLinksetDataDelete s a).2 ∧
      Stands w (w.llLinksetDataReset s) := by
  have hk (w : World F) (k : Bytes) : Stands w (World.resetKey s w k) := rfl
  refine ⟨?_, ?_, Stands.foldl hk _ w⟩
  · unfold World.llLinksetDataWrite
    split <;> rfl
  · unfold World.llLinksetDataDelete
    split <;> rfl

theorem setCoords (w : World F) (s : ℕ) (a : List (SValue F)) :
    Stands w (w.llSetPos s a).2 ∧ Stands w (w.llSetRot s a).2 := by
  constructor
  · unfold World.llSetPos
    dsimp only
    split <;> rfl
  · unfold World.llSetRot
    dsimp only
    split <;> rfl

theorem llSetText (w : World F) (s : ℕ) (a : List (SValue F)) : Stands w (w.llSetText s a).2 := by
  have hm : Stands w (w.modScript s fun t => { t with hudText := some (argStr a 0) }) :=
    Stands.modScript w s fun _ => rfl
  exact hm.trans rfl

theorem llRequestPermissions (w : World F) (s : ℕ) (a : List (SValue F)) :
    Stands w (w.llRequestPermissions s a).2 := by
  have hm : Stands w (w.modScript s fun t =>
      { t with perms := toCInt (argInt a 1), permsKey := some (argStr a 0) }) :=
    Stands.modScript w s fun _ => rfl
  unfold World.llRequestPermissions
  dsimp only
  refine hm.trans ((Stands.pushEvent _ _ (by decide) _).after ?_)
  rfl

theorem llHTTPRequest (w : World F) (s : ℕ) (a : List (SValue F)) :
    Stands w (w.llHTTPRequest s a).2 := by
  have ha : Stands w (w.genUuid.2.httpAnswer (argStr a 0)).2 := by
    unfold World.httpAnswer
    split
    · rfl
    · split <;> rfl
  exact (ha.trans (Stands.pushEvent _ _ (by decide) _)).trans rfl

theorem effectTable : ∀ p ∈ (Slemu.effectTable : List (Bytes × Builtin F)),
    ∀ w s a, Handling s w (p.2 w s a).2 := by
  simp only [Slemu.effectTable, List.forall_mem_cons]
  have hs {f : World F → ℕ → List (SValue F) → World F} (h : ∀ w s a, Stands w (f w s a)) :
      ∀ w s a, Handling s w (f w s a) := fun w s a => .steady (h w s a)
  have hown {f : World F → ℕ → List (SValue F) → Script F → Script F}
      (hf : ∀ w s a t, (f w s a t).standing = t.standing) :
      ∀ w s a, Handling s w (w.modScript s (f w s a)) :=
    hs fun w s a => Stands.modScript w s (hf w s a)
  have hkeep : ∀ (w : World F) (s : ℕ) (_ : List (SValue F)), Handling s w w :=
    fun w _ _ => .steady (.refl w)
  exact ⟨hs (chat _), hs (chat _), hs (chat _), hs fun _ _ _ => rfl, hs (chat _),
    hs llRegionSayTo, hs fun _ _ _ => rfl, hs llSetText, hs fun _ _ _ => rfl,
    hs fun _ _ _ => rfl, hs fun _ _ _ => rfl, hs fun _ _ _ => rfl,
    hown fun w _ a t => standing_note (d := .setTimer (argFloat a 0) w.virtualNow) rfl rfl rfl rfl rfl,
    hown fun _ _ _ _ => rfl, hown fun _ _ _ _ => rfl, hown fun _ _ _ t => standing_flush t .die,
    hs fun w s a => (setCoords w s a).1, hs fun w s a => (setCoords w s a).2,
    fun w s a => .listen w a, fun w s a => .remove w a, fun w s a => .control w a,
    hs llMessageLinked, hs llRequestPermissions, hs llGiveMoney, hs llTransferLindenDollars,
    hs fun w s a => (llLinksetData w s a).1, hkeep,
    hs fun w s a => (llLinksetData w s a).2.1, hs fun w s a => (llLinksetData w s a).2.2,
    hkeep, hkeep, hs llHTTPRequest, fun w s a => .request w a, List.forall_mem_nil _⟩

theorem stubTable : ∀ p ∈ (Slemu.stubTable : List (Bytes × Builtin F)),
    ∀ w s a, Stands w (p.2 w s a).2 := by
  intro p hp
  simp only [Slemu.stubTable, List.mem_append, List.mem_map] at hp
  rcases hp with (⟨fn, -, rfl⟩ | ⟨fn, -, rfl⟩) | hp
  · exact fun _ _ _ => rfl
  · exact fun _ _ _ => rfl
  · revert p
    simp only [List.forall_mem_cons]
    exact ⟨fun _ _ _ => rfl, fun _ _ _ => rfl, fun _ _ _ => rfl, fun _ _ _ => rfl,
      List.forall_mem_nil _⟩

theorem of_lookup {lib : Lib F} {name : Bytes} {f : Builtin F}
    (h : builtinsLookup lib name = some f) (w : World F) (s : ℕ) (a : List (SValue F)) :
    Handling s w (f w s a).2 := by
  unfold builtinsLookup at h
  split at h
  · rename_i g hg
    obtain rfl : g = f := Option.some.inj h
    obtain ⟨l₁, l₂, hl, -⟩ := List.lookup_eq_some_iff.mp hg
    have hmem : (name, g) ∈ (Slemu.effectTable ++ Slemu.stubTable : List (Bytes × Builtin F)) := by
      rw [hl]
      exact List.mem_append_right l₁ List.mem_cons_self
    rcases List.mem_append.mp hmem with hk | hk
    · exact effectTable _ hk w s a
    · exact .steady (stubTable _ hk w s a)
  · obtain ⟨g, -, rfl⟩ := Option.map_eq_some_iff.mp h
    exact .steady rfl

theorem count {s : ℕ} {v v' : World F} (h : Handling s v v') :
    v'.scripts.length = v.scripts.length := by
  cases h with
  | steady h => exact h.count
  | listen a => exact World.modScript_length _ s _
  | remove a => exact World.modScript_length _ s _
  | control a => exact World.modScript_length _ s _
  | request a => exact World.modScript_length _ s _

end Handling

/-! ### The interpreter -/

abbrev Handlings (s : ℕ) : World F → World F → Prop := Relation.ReflTransGen (Handling s)

/-- The world is handled so, and so it was at every moment noted on the way. -/
structure Noted (s : ℕ) (a b : Machine F) : Prop where
  world : Handlings s a.world b.world
  log : ∃ new, b.log = new ++ a.log ∧ ∀ q ∈ new, Handlings s a.world q.2

namespace Noted
variable {s : ℕ} {a b c : Machine F}

theorem refl (a : Machine F) : Noted s a a := ⟨.refl, [], rfl, by simp⟩

theorem trans (h : Noted s a b) (h' : Noted s b c) : Noted s a c := by
  obtain ⟨new, hl, hn⟩ := h.log
  obtain ⟨new', hl', hn'⟩ := h'.log
  refine ⟨h.world.trans h'.world, new' ++ new, by rw [hl', hl, List.append_assoc], ?_⟩
  intro q hq
  rcases List.mem_append.mp hq with hq | hq
  · exact h.world.trans (hn' q hq)
  · exact hn q hq

end Noted

/-- The program takes the machine along `Noted`, however it ends. -/
abbrev Noting {α : Type} (s : ℕ) (m : VM F α) : Prop := Run.Keeps (Noted s) m

namespace Noting
variable {s : ℕ} {α β : Type}

theorem bind {m : VM F α} {f : α → VM F β} (hm : Noting s m) (hf : ∀ a, Noting s (f a)) :
    Noting s (m >>= f) :=
  Run.Keeps.bind (fun a b c (h : Noted s a b) (h' : Noted s b c) => h.trans h') hm hf

theorem pure (a : α) : Noting s (pure a : VM F α) := Run.Keeps.pure Noted.refl a

theorem get (f : World F → α) : Noting s (VM.get f) := Run.Keeps.read Noted.refl _

theorem read (f : Machine F → α) : Noting s (Run.read f) := Run.Keeps.read Noted.refl f

theorem call {f : World F → α × World F} (hf : ∀ w, Handling s w (f w).2) :
    Noting s (VM.call f) :=
  Run.Keeps.act fun m => ⟨.single (hf m.world), [], rfl, by simp⟩

theorem set {f : World F → World F} (hf : ∀ w, Handling s w (f w)) : Noting s (VM.set f) :=
  Run.Keeps.update fun m => ⟨.single (hf m.world), [], rfl, by simp⟩

theorem mark (k : Mark F) : Noting s (VM.mark k) :=
  Run.Keeps.update fun m =>
    ⟨.refl, [(k, m.world)], rfl, fun q hq => by rw [List.mem_singleton.mp hq]⟩

theorem steady {f : World F → World F} (hf : ∀ w, Stands w (f w)) : Noting s (VM.set f) :=
  set fun w => .steady (hf w)

end Noting

theorem noting_closed (s : ℕ) : Closed s (fun {α} (m _ : VM F α) => Noting s m) where
  pure a := .pure a
  fail e := Run.Keeps.fail Noted.refl e
  bind hm hf := .bind hm hf
  get _ := .get _
  mark k _ := .mark k
  setCell c v := .steady fun w => by
    cases c with
    | loc k => rfl
    | glob i => exact Stands.modScript w s fun _ => rfl
  flags _ := .steady fun _ => rfl
  define _ _ _ := .steady fun _ => rfl
  enter := .steady fun _ => rfl
  leave := .steady fun _ => rfl

theorem noting_handles (lib : Lib F) (s : ℕ) :
    Handles lib s (fun {α} (m _ : VM F α) => Noting s m) where
  toClosed := noting_closed s
  func hr fd args := (noting_closed s).runUserFunc hr (fun _ => .steady fun _ => rfl)
    (.steady fun _ => rfl) fd args
  builtin hr name args := by
    refine (noting_closed s).callBuiltin hr.toEvals ?_ (fun st => ?_) ?_ (fun name f args hf => ?_)
      name args
    · exact .steady fun w => Stands.modScript w s fun _ => rfl
    · exact .steady fun w => Stands.modScript w s fun t => standing_flush t .reset
    · exact .steady fun w => Stands.pushEvent w s (by decide) []
    · exact .call fun w => Handling.of_lookup hf w s args
  stmt {r r'} hr st hst := by
    refine .bind (.mark _) fun _ => ?_
    cases hc : st.isStateChg with
    | false => exact hst hc
    | true =>
      cases st with
      | stateChg line idx =>
        exact (noting_closed s).stateChg r r line idx fun i =>
          .steady fun w => Stands.modScript w s fun _ => rfl
      | _ => cases hc

theorem vmDispatch_noting (lib : Lib F) (s n : ℕ) (ev : EventDecl) (args : List (SValue F)) :
    Noting s (vmDispatch lib s n ev args) :=
  .bind (.steady fun _ => rfl) fun _ =>
    .bind (((noting_handles lib s).interp n).exec _) fun _ => .steady fun _ => rfl

theorem dispatchEvent_noting (lib : Lib F) (s n : ℕ) (ev : Event F) :
    Noting s (dispatchEvent lib s n ev) := by
  refine .bind (.get _) fun o => ?_
  split
  · exact .pure ()
  · exact .bind (.steady fun _ => rfl) fun _ => vmDispatch_noting lib s n _ _

theorem initScript_noting (lib : Lib F) (s n : ℕ) : Noting s (initScript lib s n) := by
  have hglobals (gs : List (GlobalVar × ℕ)) : Noting s (initGlobals (interp lib s n) s gs) := by
    induction gs with
    | nil => exact .pure ()
    | cons gi gs ih =>
      obtain ⟨g, i⟩ := gi
      exact .bind ((noting_closed s).initGlobal ((noting_handles lib s).interp n).toEvals i g _)
        fun _ => ih
  exact .bind (.get _) fun p => .bind (hglobals _) fun _ =>
    .bind (.steady fun w => Stands.modScript w s fun _ => rfl) fun _ =>
      .steady fun w => Stands.pushEvent w s (by decide) []

/-! ### Commands -/

namespace Stands
variable (w : World F) (p : Bytes)

omit [CDouble F] in
theorem cmdListen : Stands w (w.cmdListen p) := (routeListen w _ _ _ _).trans rfl

theorem answerDialog (d : OpenDialog) (who text : Bytes) :
    Stands w (w.answerDialog d who text) := by
  unfold World.answerDialog
  split
  · exact refl w
  · exact pushTimes w _ (by decide) _ _

theorem cmdReply (word field : Bytes) : Stands w (World.cmdReply word field w p) := by
  unfold World.cmdReply
  dsimp only
  split
  · rename_i who d _ _
    exact (answerDialog w d who _).trans rfl
  · rfl

omit [CDouble F] in
theorem payFrom (src : ℕ) (who : Bytes) (n : ℤ) : Stands w (w.payFrom src who n) := by
  have hpay (u : World F) : Stands u
      (if u.avatars = [] then u else { u with avatars := creditAt 0 n u.avatars }) := by
    split <;> rfl
  have hpush (u : World F) : Stands u
      (if u.scripts = [] then u else u.pushEvent 0 (lit "money") [.key who, .int n]) := by
    split
    · exact refl u
    · exact pushEvent u _ (by decide) _
  unfold World.payFrom
  split
  · rfl
  · exact ((hpay { w with avatars := creditAt src (-n) w.avatars }).trans (hpush _)).trans rfl

omit [CDouble F] in
theorem cmdMoneyFrom : Stands w (w.cmdMoneyFrom p) := by
  unfold World.cmdMoneyFrom
  dsimp only
  split
  · exact refl w
  · split
    · exact refl w
    · exact payFrom w _ _ _

omit [CDouble F] in
theorem cmdHttpIn : Stands w (w.cmdHttpIn p) := by
  unfold World.cmdHttpIn
  dsimp only
  split
  · rfl
  · exact (pushEvent _ _ (by decide) _).after rfl

theorem cmdAttach : Stands w (w.cmdAttach p) := by
  unfold World.cmdAttach
  dsimp only
  split
  · exact refl w
  · split <;> exact (pushEvent w _ (by decide) _).trans rfl

omit [CDouble F] in
theorem cmdDetach : Stands w w.cmdDetach := by
  unfold World.cmdDetach
  split
  · exact refl w
  · exact (pushEvent w _ (by decide) _).trans rfl

omit [CDouble F] in
theorem cmdToAll (word : Bytes) {event : Bytes} (hn : event ∉ touchNames) :
    Stands w (World.cmdToAll word event w p) :=
  (pushAll w hn _ _).trans rfl

omit [CDouble F] in
theorem cmdAssertBalance : Stands w (w.cmdAssertBalance p) := by
  have hs (c : Prop) [Decidable c] (a b : Bytes) : Stands w (if c then
      w.assertion (lit "balance") false 128 a else w.assertion (lit "balance") true 128 b) := by
    split <;> rfl
  unfold World.cmdAssertBalance
  dsimp only
  split
  · exact hs _ _ _
  · rfl

end Stands

def touchCommands : List Bytes := [lit "TOUCH", lit "TOUCH_FACE", lit "TOUCH_AS"]

theorem commandTable_steady :
    ∀ q ∈ (World.commandTable : List (Bytes × (World F → Bytes → World F))),
      ∀ w p, q.1 ∈ touchCommands ∨ Stands w (q.2 w p) := by
  have hs (k : Bytes) {f : World F → Bytes → World F} (h : ∀ w p, Stands w (f w p)) :
      ∀ w p, k ∈ touchCommands ∨ Stands w (f w p) := fun w p => .inr (h w p)
  have ht {k : Bytes} (hk : k ∈ touchCommands) (f : World F → Bytes → World F) :
      ∀ w p, k ∈ touchCommands ∨ Stands w (f w p) := fun _ _ => .inl hk
  simp only [World.commandTable, List.forall_mem_cons]
  exact ⟨hs _ fun _ _ => rfl, hs _ fun _ _ => rfl, hs _ fun _ _ => rfl, hs _ fun _ _ => rfl,
    ht (by decide) _, ht (by decide) _, ht (by decide) _, hs _ Stands.cmdListen,
    hs _ fun _ _ => rfl, hs _ fun w p => Stands.cmdReply w p _ _,
    hs _ fun w p => Stands.cmdReply w p _ _, hs _ Stands.cmdMoneyFrom, hs _ Stands.cmdHttpIn,
    hs _ Stands.cmdAttach, hs _ fun w _ => Stands.cmdDetach w,
    hs _ fun w p => Stands.cmdToAll w p _ (by decide),
    hs _ fun w p => Stands.cmdToAll w p _ (by decide), hs _ Stands.cmdAssertBalance,
    hs _ fun _ _ => rfl, hs _ fun _ _ => rfl, hs _ fun _ _ => rfl, by simp⟩

/-- Any other command leaves that part alone. -/
theorem runCommand_steady {line : Bytes} (h : ∀ cmd ∈ (nextTok line).1, cmd ∉ touchCommands)
    (w : World F) : Stands w (w.runCommand line) := by
  unfold World.runCommand
  dsimp only
  split
  · exact Stands.refl w
  · rename_i cmd hc
    split
    · rename_i f hf
      obtain ⟨l₁, l₂, hl, -⟩ := List.lookup_eq_some_iff.mp hf
      have hmem : (cmd, f) ∈ World.commandTable := hl ▸ List.mem_append_right l₁ List.mem_cons_self
      exact (commandTable_steady _ hmem w _).resolve_left (h cmd hc)
    · rfl

/-- A touch: the script, the avatar's key and name, and the events. -/
structure Touch where
  script : ℕ
  key : Bytes
  name : Bytes
  events : List Bytes

namespace World

/-- The touch that a command line comes to, if any: which script its link names, which avatar it
resolves. -/
def touchOf (w : World F) (line : Bytes) : Option Touch :=
  let (cmd, p) := nextTok line
  let script := w.scriptByLink (atoiOr 1 (nextTok p).1)
  if cmd = some (lit "TOUCH") then
    script.map fun s => ⟨s, w.toucher.1, w.toucher.2, touchNames⟩
  else if cmd = some (lit "TOUCH_FACE") then
    script.map fun s => ⟨s, w.toucher.1, w.toucher.2, [lit "touch_start", lit "touch_end"]⟩
  else if cmd = some (lit "TOUCH_AS") then
    script.bind fun s => (nextTok (nextTok p).2).1.map fun who =>
      ⟨s, who, ((w.regionFindAvatar who).map fun i => (w.avatars.getD i default).name).getD
        (lit "Avatar"), [lit "touch_start", lit "touch_end"]⟩
  else none

/-- What a touch does. -/
def touch (w : World F) (t : Touch) : World F :=
  (w.pushDetected t.script t.key t.name).pushTouches t.script t.events

end World

theorem runCommand_known {line cmd p : Bytes} {f : World F → Bytes → World F}
    (hc : nextTok line = (some cmd, p)) (hf : World.commandTable.lookup cmd = some f)
    (w : World F) : w.runCommand line = f w p := by
  unfold World.runCommand
  rw [hc]
  dsimp only
  rw [hf]

/-- What a command does, given the touch it comes to. -/
def Touches (w w' : World F) : Option Touch → Prop
  | none => Stands w w'
  | some t => Stands (w.touch t) w'

theorem cmdTouch_touches (w : World F) (p : Bytes) : Touches w (w.cmdTouch p)
    ((w.scriptByLink (atoiOr 1 (nextTok p).1)).map fun s =>
      ⟨s, w.toucher.1, w.toucher.2, touchNames⟩) := by
  unfold World.cmdTouch
  dsimp only
  split
  · rename_i h
    rw [h]
    exact Stands.refl w
  · rename_i s h
    rw [h]
    exact Stands.of_parts rfl rfl rfl

theorem cmdTouchFace_touches (w : World F) (p : Bytes) : Touches w (w.cmdTouchFace p)
    ((w.scriptByLink (atoiOr 1 (nextTok p).1)).map fun s =>
      ⟨s, w.toucher.1, w.toucher.2, [lit "touch_start", lit "touch_end"]⟩) := by
  unfold World.cmdTouchFace
  dsimp only
  split
  · rename_i h
    rw [h]
    exact Stands.refl w
  · rename_i s h
    rw [h]
    exact Stands.of_parts rfl rfl rfl

theorem cmdTouchAs_touches (w : World F) (p : Bytes) : Touches w (w.cmdTouchAs p)
    ((w.scriptByLink (atoiOr 1 (nextTok p).1)).bind fun s =>
      (nextTok (nextTok p).2).1.map fun who =>
        ⟨s, who, ((w.regionFindAvatar who).map fun i => (w.avatars.getD i default).name).getD
          (lit "Avatar"), [lit "touch_start", lit "touch_end"]⟩) := by
  unfold World.cmdTouchAs
  dsimp only
  cases hs : w.scriptByLink (atoiOr 1 (nextTok p).1) with
  | none => exact Stands.refl w
  | some s =>
    cases hw : (nextTok (nextTok p).2).1 with
    | none => exact Stands.refl w
    | some who =>
      simp only [Option.bind_some, Option.map_some]
      cases w.regionFindAvatar who with
      | none => exact Stands.of_parts rfl rfl rfl
      | some i => exact Stands.of_parts rfl rfl rfl

/-- A command comes to its touch, and else leaves that part alone. -/
theorem runCommand_touches (w : World F) (line : Bytes) :
    Touches w (w.runCommand line) (w.touchOf line) := by
  obtain ⟨cmd, p, hc⟩ : ∃ cmd p, nextTok line = (cmd, p) := ⟨_, _, rfl⟩
  by_cases h1 : cmd = some (lit "TOUCH")
  · rw [h1] at hc
    have hof : w.touchOf line = (w.scriptByLink (atoiOr 1 (nextTok p).1)).map fun s =>
        ⟨s, w.toucher.1, w.toucher.2, touchNames⟩ := by
      unfold World.touchOf
      rw [hc]
      rfl
    rw [hof, runCommand_known hc (f := World.cmdTouch) (by rfl)]
    exact cmdTouch_touches w p
  by_cases h2 : cmd = some (lit "TOUCH_FACE")
  · rw [h2] at hc
    have hof : w.touchOf line = (w.scriptByLink (atoiOr 1 (nextTok p).1)).map fun s =>
        ⟨s, w.toucher.1, w.toucher.2, [lit "touch_start", lit "touch_end"]⟩ := by
      unfold World.touchOf
      rw [hc]
      rfl
    rw [hof, runCommand_known hc (f := World.cmdTouchFace) (by rfl)]
    exact cmdTouchFace_touches w p
  by_cases h3 : cmd = some (lit "TOUCH_AS")
  · rw [h3] at hc
    have hof : w.touchOf line = (w.scriptByLink (atoiOr 1 (nextTok p).1)).bind fun s =>
        (nextTok (nextTok p).2).1.map fun who =>
          ⟨s, who, ((w.regionFindAvatar who).map fun i => (w.avatars.getD i default).name).getD
            (lit "Avatar"), [lit "touch_start", lit "touch_end"]⟩ := by
      unfold World.touchOf
      rw [hc]
      rfl
    rw [hof, runCommand_known hc (f := World.cmdTouchAs) (by rfl)]
    exact cmdTouchAs_touches w p
  · have hof : w.touchOf line = none := by
      unfold World.touchOf
      rw [hc]
      dsimp only
      rw [if_neg h1, if_neg h2, if_neg h3]
    rw [hof]
    refine runCommand_steady ?_ w
    intro c hcm
    rw [hc] at hcm
    have hcc : cmd = some c := hcm
    simp only [touchCommands, List.mem_cons, List.not_mem_nil, or_false, not_or]
    refine ⟨?_, ?_, ?_⟩
    · rintro rfl
      exact h1 hcc
    · rintro rfl
      exact h2 hcc
    · rintro rfl
      exact h3 hcc

/-! ### One step -/

omit [CDouble F] in
instance : IsPreorder (World F) Stands where
  refl := Stands.refl
  trans _ _ _ := Stands.trans

namespace Stands

theorem fireTimer (w : World F) : Stands w w.fireTimer.2 := by
  cases hd : w.dueTimer with
  | mk d o =>
    cases o with
    | none =>
      rw [fireTimer_none hd]
      rfl
    | some i =>
      rw [fireTimer_some hd]
      have hn : Stands w { w with virtualNow := d } := rfl
      exact hn.trans (modScript _ i fun t =>
        standing_note (d := .push ⟨lit "timer", []⟩ (some d)) rfl rfl rfl rfl rfl)

omit [CDouble F] in
theorem volumeLoadEconomy (w : World F) : Stands w w.volumeLoadEconomy := by
  unfold World.volumeLoadEconomy
  split <;> rfl

theorem limitReached : Respects Stands (limitReached : VM F Bool) := by
  refine .bind (.get _) fun _ => .ite (.pure true) (.bind (.get _) fun _ => .ite ?_ (.pure false))
  exact .bind (.call fun _ => rfl) fun _ => .read _

omit [CDouble F] in
theorem startClock : Respects Stands (startClock : VM F Unit) :=
  .bind (.call fun _ => rfl) fun _ => Run.Keeps.update fun _ => rfl

end Stands

theorem loopHead_steady : Respects Stands (loopHead : VM F Phase) :=
  .bind Stands.limitReached fun _ => .ite (.pure _) (.bind (.call Stands.fireTimer) fun _ => .pure _)

theorem visitScript_noting (lib : Lib F) (n i : ℕ) (b : Bool) :
    Noting i (visitScript lib n i b) := by
  refine .bind (.get _) fun c => ?_
  split
  · refine .bind (.get _) fun q => ?_
    split
    · exact .pure _
    · exact .bind (.steady fun w => Stands.modScript w i fun t => standing_pop t) fun _ =>
        .bind (dispatchEvent_noting lib i n _) fun _ => .bind (.steady fun _ => rfl) fun _ => .pure _
  · exact .pure _

theorem exitState_noting (lib : Lib F) (n i : ℕ) (old : Option ℕ) :
    Noting i (exitState lib n i old) := by
  refine .bind (.get _) fun p => ?_
  split
  · exact .pure ()
  · exact vmDispatch_noting lib i n _ []

theorem Noting.of_ok {α : Type} {s : ℕ} {m : VM F α} (h : Noting s m) {a a' : Machine F} {x : α}
    (hm : m a = (.ok x, a')) : Noted s a a' := by
  have ha := h a
  rwa [hm] at ha

/-- A script that is not there has no `state_exit`. -/
theorem exitState_absent {lib : Lib F} {n i : ℕ} {old : Option ℕ} {m m' : Machine F}
    (hi : m.world.scripts.length ≤ i) (h : exitState lib n i old m = (.ok (), m')) : m' = m := by
  have hp : (m.world.script i).prog = default := by rw [script_of_length_le _ _ hi]; rfl
  have ho : (old.bind fun st => (default : Program).handler st (lit "state_exit")) = none := by
    cases old <;> rfl
  have h1 := VM.of_get_bind h
  rw [hp, ho] at h1
  cases h1
  rfl

theorem pump_none {next last : Phase} {m m' : Machine F} {p : Phase}
    (hl : m.world.commandLines[m.world.nextCommand]? = none)
    (h : pump next last m = (.ok p, m')) : Stands m.world m'.world := by
  rcases pump_moves h with ⟨-, hp⟩ | ⟨-, -, hw⟩
  · exact absurd hp.1 (not_lt.mpr (List.getElem?_eq_none_iff.mp hl))
  · rw [hw]
    exact Stands.refl _

/-- What a step does to what stands: nothing, unless code of a script runs or a command is
taken. -/
theorem Conf.Step.standing {lib : Lib F} {c c' : Conf F} (h : Step lib c c') :
    Stands c.world c'.world ∨
      (∃ i < c.world.scripts.length, Noted i c.machine c'.machine) ∨
      ∃ line, linePumped c.phase c.world = some line := by
  obtain ⟨hd, fuel, h⟩ := h
  obtain ⟨phase, m⟩ := c
  obtain ⟨phase', m'⟩ := c'
  dsimp only [Conf.world] at h ⊢
  cases phase with
  | load =>
    cases h
    exact .inl (Stands.volumeLoadEconomy _)
  | init i =>
    have h1 := VM.of_get_bind h
    by_cases hi : i < m.world.scripts.length
    · rw [if_pos (decide_eq_true hi)] at h1
      obtain ⟨u, m1, h2, h3⟩ := Run.of_bind_ok h1
      cases h3
      exact .inr (.inl ⟨i, hi, (initScript_noting lib i fuel).of_ok h2⟩)
    · rw [if_neg (by simpa using hi)] at h1
      obtain ⟨u, m1, h2, h3⟩ := Run.of_bind_ok h1
      cases h3
      exact .inl (Stands.startClock.of_ok h2)
  | top => exact .inl (loopHead_steady.of_ok h)
  | visit i b =>
    by_cases hi : i < m.world.scripts.length
    · exact .inr (.inl ⟨i, hi, (visitScript_noting lib fuel i b).of_ok h⟩)
    · have h1 := VM.of_get_bind h
      rw [if_neg (by simpa using hi)] at h1
      cases h1
      exact .inl (.refl _)
  | settle i =>
    have h1 := VM.of_get_bind h
    cases hp : (m.world.script i).pendingState with
    | none =>
      rw [hp] at h1
      cases h1
      exact .inl (.refl _)
    | some new =>
      rw [hp] at h1
      cases h1
      exact .inl (Stands.modScript _ i fun t => standing_flush t .stateChange)
  | exit i old new =>
    obtain ⟨u, m1, h1, h2⟩ := Run.of_bind_ok h
    cases h2
    by_cases hi : i < m.world.scripts.length
    · exact .inr (.inl ⟨i, hi, (exitState_noting lib fuel i old).of_ok h1⟩)
    · rw [exitState_absent (not_lt.mp hi) h1]
      exact .inl (.refl _)
  | entry i new =>
    cases h
    exact .inl (Stands.pushEvent _ i (by decide) [])
  | idle =>
    cases hl : m.world.commandLines[m.world.nextCommand]? with
    | none => exact .inl (pump_none hl h)
    | some line => exact .inr (.inr ⟨line, (if_pos (.inl rfl)).trans hl⟩)
  | drain =>
    cases hl : m.world.commandLines[m.world.nextCommand]? with
    | none => exact .inl (pump_none hl h)
    | some line => exact .inr (.inr ⟨line, (if_pos (.inr rfl)).trans hl⟩)
  | save =>
    cases h
    exact .inl rfl
  | done => exact absurd rfl hd

end Slemu
