import Slemu.Standing

/-! Touches: whom the handler of a touch detects, and whom the command resolved that queued it. -/

namespace Slemu
variable {F : Type} [CDouble F]

namespace World

/-- What the argument of a detection builtin points at. -/
def detectedAt (w : World F) (s : ℕ) (a : List (SValue F)) : Option (Detected F) :=
  let i := toCInt (argInt a 0)
  if i < 0 then none else (w.script s).detected[i.toNat]?

def llDetectedKey (w : World F) (s : ℕ) (a : List (SValue F)) : SValue F :=
  match w.detectedAt s a with
  | some d => .key d.key
  | none => .nullKey

def llDetectedName (w : World F) (s : ℕ) (a : List (SValue F)) : SValue F :=
  match w.detectedAt s a with
  | some d => .string d.name
  | none => .string []

end World

/-- A library with these two in it. -/
def Lib.withDetected (lib : Lib F) : Lib F where
  lookup name :=
    if name = lit "llDetectedKey" then some fun w s a => (w.llDetectedKey s a, 0)
    else if name = lit "llDetectedName" then some fun w s a => (w.llDetectedName s a, 0)
    else lib.lookup name

/-- Script `i` is told of this toucher. -/
structure Tells (w : World F) (i : ℕ) (t : Touch) : Prop where
  key : w.llDetectedKey i [.int 0] = .key t.key
  name : w.llDetectedName i [.int 0] = .string t.name

namespace Conf

/-- The command taken on the way from `c` to `c'` comes to touch `t` of script `i`, and the event of
this number was put into the queue on that way. -/
structure Enqueues (c c' : Conf F) (i number : ℕ) (t : Touch) : Prop where
  command : ∃ line, linePumped c.phase c.world = some line ∧ c.world.touchOf line = some t
  script : t.script = i
  notBefore : (c.script i).tally.made ≤ number
  notAfter : number < (c'.script i).tally.made

/-- At any moment of a step, script `i` is told of this toucher. -/
structure Sees (c c' : Conf F) (i : ℕ) (t : Touch) : Prop where
  before : Tells c.world i t
  during : ∃ new, c'.machine.log = new ++ c.machine.log ∧ ∀ q ∈ new, Tells q.2 i t
  after : Tells c'.world i t

/-- Whenever a touch is taken from a queue, a command before has put it there, and its handler is
told throughout of the avatar that this command resolved. -/
def TouchersSeen (c : ℕ → Conf F) (n : ℕ) : Prop :=
  ∀ k < n, ∀ i ev, Takes (c k).phase (c k).world i ev → ev.name ∈ touchNames →
    ∃ x j t, ((c k).script i).tally.waiting.head? = some x ∧ x.1.1 = ev ∧ j < k ∧
      Enqueues (c j) (c (j+1)) i x.2 t ∧ Sees (c k) (c (k+1)) i t

end Conf

/-! ### What code leaves alone -/

/-- What a script detects, and the touches that were ever queued for it. -/
def Script.touches (t : Script F) : List (Detected F) × List (Deed F) :=
  (t.detected, t.history.filter Deed.isTouch)

/-- No script detects anything else, and no touch is queued. -/
def SameTouches (w w' : World F) : Prop :=
  ∀ i, (w'.script i).touches = (w.script i).touches

namespace SameTouches
variable {u v w : World F}

theorem trans (h : SameTouches u v) (h' : SameTouches v w) : SameTouches u w :=
  fun i => (h' i).trans (h i)

theorem of_steady (h : Stands v w) : SameTouches v w :=
  fun i => congrArg (fun x => x.2.2) (h.script i)

theorem modScript (w : World F) (s : ℕ) {f : Script F → Script F}
    (hf : ∀ t, (f t).touches = t.touches) : SameTouches w (w.modScript s f) := by
  intro i
  rw [script_modScript]
  split
  · exact hf _
  · rfl

end SameTouches

theorem Handling.sameTouches {s : ℕ} {v v' : World F} (h : Handling s v v') :
    SameTouches v v' := by
  cases h with
  | steady h => exact .of_steady h
  | listen a =>
    have hn : SameTouches v { v with nextHandle := v.nextHandle+1 } := fun _ => rfl
    exact hn.trans (.modScript _ s fun _ => rfl)
  | remove a => exact .modScript v s fun _ => rfl
  | control a => exact .modScript v s fun _ => rfl
  | request a =>
    have hr : SameTouches v (v.genUuid.2.inboundRegister s v.genUuid.1).2 := fun _ => rfl
    exact hr.trans (.of_steady (Stands.pushEvent _ s (by decide) _))

theorem Handlings.sameTouches {s : ℕ} {v v' : World F} (h : Handlings s v v') :
    SameTouches v v' := by
  induction h with
  | refl => exact fun _ => rfl
  | tail _ h ih => exact ih.trans h.sameTouches

/-! ### What a touch does -/

theorem pushTouches_script_ne (w : World F) {s i : ℕ} (hi : i ≠ s) (names : List Bytes) :
    (w.pushTouches s names).script i = w.script i := by
  induction names generalizing w with
  | nil => rfl
  | cons name names ih =>
    exact (ih (w.pushEvent s name [.int 1])).trans (World.modScript_script_ne w s i _ hi)

theorem pushTouches_detected (w : World F) (s i : ℕ) (names : List Bytes) :
    ((w.pushTouches s names).script i).detected = (w.script i).detected := by
  induction names generalizing w with
  | nil => rfl
  | cons name names ih =>
    have hpush : ((w.pushEvent s name [.int 1]).script i).detected = (w.script i).detected := by
      rw [World.pushEvent, World.pushDue, script_modScript]
      split <;> rfl
    exact (ih (w.pushEvent s name [.int 1])).trans hpush

theorem touch_script_ne (w : World F) (t : Touch) {i : ℕ} (hi : i ≠ t.script) :
    (w.touch t).script i = w.script i :=
  (pushTouches_script_ne _ hi _).trans (World.modScript_script_ne w t.script i _ hi)

/-- After a touch its script is told of the toucher. -/
theorem touch_detected (w : World F) (t : Touch) (ht : t.script < w.scripts.length) :
    ((w.touch t).script t.script).detected =
      [⟨t.key, t.name, t.key, .vec CDouble.zero CDouble.zero CDouble.zero, 0, 1⟩] := by
  rw [World.touch, pushTouches_detected, World.pushDetected, World.modScript_script _ _ _ ht]

omit [CDouble F] in
theorem touchOf_lt {w : World F} {line : Bytes} {t : Touch} (h : w.touchOf line = some t) :
    t.script < w.scripts.length := by
  have hlink {k : ℤ} {s : ℕ} (hs : w.scriptByLink k = some s) : s < w.scripts.length :=
    (List.findIdx?_eq_some_iff_getElem.mp hs).1
  have hmap {k : ℤ} {f : ℕ → Touch} (hf : ∀ s, (f s).script = s)
      (hs : (w.scriptByLink k).map f = some t) : t.script < w.scripts.length := by
    obtain ⟨s, hsome, rfl⟩ := Option.map_eq_some_iff.mp hs
    rw [hf]
    exact hlink hsome
  unfold World.touchOf at h
  dsimp only at h
  split at h
  · exact hmap (fun _ => rfl) h
  · split at h
    · exact hmap (fun _ => rfl) h
    · split at h
      · obtain ⟨s, hs, ht⟩ := Option.bind_eq_some_iff.mp h
        obtain ⟨who, -, rfl⟩ := Option.map_eq_some_iff.mp ht
        exact hlink hs
      · cases h

theorem tells_of_detected {w : World F} {t : Touch} {i : ℕ} {d : Detected F}
    (h : (w.script i).detected = [d]) (hk : d.key = t.key) (hn : d.name = t.name) :
    Tells w i t := by
  have hat : w.detectedAt i [.int 0] = some d := by
    have h0 : argInt ([.int 0] : List (SValue F)) 0 = 0 := rfl
    unfold World.detectedAt
    dsimp only
    rw [h0, if_neg (by decide), h]
    rfl
  constructor
  · unfold World.llDetectedKey
    rw [hat, ← hk]
  · unfold World.llDetectedName
    rw [hat, ← hn]

/-! ### The queues -/

/-- A cycle without progress finds every queue empty. -/
def FoundEmpty (p : Phase) (w : World F) : Prop :=
  (∀ j, p = .visit j false → ∀ i < j, (w.script i).evq = []) ∧
    (p = .idle → ∀ i, (w.script i).evq = [])

theorem FoundEmpty.step {p p' : Phase} {w w' : World F} (hf : FoundEmpty p w)
    (h : Moves p w p' w') : FoundEmpty p' w' := by
  have hother {q : Phase} {v : World F} (hv : ∀ j, q ≠ .visit j false) (hi : q ≠ .idle) :
      FoundEmpty q v := ⟨fun j hj => absurd hj (hv j), fun hq => absurd hq hi⟩
  cases h with
  | head _ =>
    refine ⟨fun j hj i hi => ?_, fun hq => absurd hq (by simp)⟩
    simp only [Phase.visit.injEq] at hj
    omega
  | @skip _ k b hk hq =>
    refine ⟨fun j hj i hi => ?_, fun hq => absurd hq (by simp)⟩
    simp only [Phase.visit.injEq] at hj
    obtain ⟨rfl, rfl⟩ := hj
    rcases Nat.lt_succ_iff_lt_or_eq.mp hi with hlt | rfl
    · exact hf.1 k rfl i hlt
    · exact hq
  | @quiet _ k hk =>
    refine ⟨fun j hj => absurd hj (by simp), fun _ i => ?_⟩
    by_cases hi : i < w.scripts.length
    · exact hf.1 k rfl i (by omega)
    · rw [script_of_length_le _ _ (not_lt.mp hi)]
      rfl
  | _ => exact hother (by simp) (by simp)

/-- The loop is over. -/
def Phase.Over (p : Phase) : Prop := p = .drain ∨ p = .save ∨ p = .done

theorem Phase.Over.step {p p' : Phase} {w w' : World F} (hp : p.Over) (h : Moves p w p' w') :
    p'.Over := by
  rcases hp with rfl | rfl | rfl
  · cases h with
    | drain => exact .inl rfl
    | drained => exact .inr (.inl rfl)
  · cases h
    exact .inr (.inr rfl)
  · cases h

omit [CDouble F] in
theorem queueOps_append {t t' : Script F} {ds : List (Deed F)}
    (h : t'.history = t.history ++ ds) : t'.queueOps = t.queueOps ++ ds.filterMap Deed.queueOp := by
  rw [Script.queueOps, h, List.filterMap_append, ← Script.queueOps]

omit [CDouble F] in
/-- Without a new touch, a touch that waits has waited before. -/
theorem waited_before {t t' : Script F} (hh : t.history <+: t'.history)
    (ht : t'.touches = t.touches) {x : (Event F × Option F) × ℕ} (hx : x ∈ t'.tally.waiting)
    (hn : x.1.1.name ∈ touchNames) : x ∈ t.tally.waiting := by
  obtain ⟨ds, hds⟩ := hh
  rw [Script.tally, queueOps_append hds.symm] at hx
  rcases LinkedQueue.mem_waiting_append _ _ hx with hw | ⟨-, hp⟩
  · exact hw
  · have hnone : ds.filter Deed.isTouch = [] := by
      have hf : t'.history.filter Deed.isTouch = t.history.filter Deed.isTouch := congrArg Prod.snd ht
      rw [← hds, List.filter_append] at hf
      exact List.append_right_eq_self.mp hf
    obtain ⟨d, hd, hq⟩ := List.mem_filterMap.mp hp
    have htouch : d.isTouch = true := by
      cases d with
      | push ev due =>
        have hx : (ev, due) = x.1 := QueueOp.push.inj (Option.some.inj hq)
        rw [← hx] at hn
        exact decide_eq_true hn
      | pop => cases hq
      | flush why => cases hq
      | setTimer f now => cases hq
    exact absurd (List.mem_filter.mpr ⟨hd, htouch⟩) (by rw [hnone]; exact List.not_mem_nil)

/-! ### Runs -/

namespace Conf
variable {lib : Lib F} {c : ℕ → Conf F} {n : ℕ}

/-- A touch that waits in a queue comes from a command, and its script is told of that toucher. -/
def TouchesOwned (c : ℕ → Conf F) (k : ℕ) : Prop :=
  ¬ (c k).phase.Over → ∀ i, ∀ x ∈ ((c k).script i).tally.waiting, x.1.1.name ∈ touchNames →
    ∃ j < k, ∃ t d, Enqueues (c j) (c (j+1)) i x.2 t ∧
      ((c k).script i).detected = [d] ∧ d.key = t.key ∧ d.name = t.name

/-- What a step does to the touches: nothing, unless a command is taken. -/
theorem Step.sameTouches {c c' : Conf F} (h : Step lib c c') :
    SameTouches c.world c'.world ∨ ∃ line, linePumped c.phase c.world = some line := by
  rcases h.standing with hs | ⟨i, -, hn⟩ | hl
  · exact .inl (.of_steady hs)
  · exact .inl hn.world.sameTouches
  · exact .inr hl

theorem IsRun.queuesEmpty (h : IsRun lib c n) {k : ℕ} (hk : k ≤ n) (hp : (c k).phase = .idle)
    (i : ℕ) : ((c k).script i).tally.waiting = [] := by
  have hf := h.invariant (R := FoundEmpty) ?_ (fun p w p' w' hf hm => hf.step hm) k hk
  · have hq := (h.accounted hk i).fifo.queue
    rw [show ((c k).script i).evq = [] from hf.2 hp i] at hq
    exact List.map_eq_nil_iff.mp hq.symm
  · rw [h.start.phase]
    exact ⟨fun j hj => absurd hj (by simp), fun hp => absurd hp (by simp)⟩

theorem IsRun.touchesOwned (h : IsRun lib c n) {k : ℕ} (hk : k ≤ n) : TouchesOwned c k := by
  induction k with
  | zero =>
    intro _ i x hx
    have h0 : ((c 0).script i).history = [] := by
      rcases h.start.script i with hu | hd
      · exact hu.history
      · rw [hd]
        rfl
    rw [Script.tally, Script.queueOps, h0] at hx
    exact absurd hx List.not_mem_nil
  | succ k ih =>
    intro hover i x hx hn
    have hlt : k < n := by omega
    have hstep := h.step k hlt
    have hgoing : ¬ (c k).phase.Over := fun ho => hover (ho.step hstep.moves)
    have hhist := (h.happens hlt i).history
    -- a touch that has waited before is still the script's own
    have hsame (ht : ((c (k+1)).script i).touches = ((c k).script i).touches) :
        ∃ j < k+1, ∃ t d, Enqueues (c j) (c (j+1)) i x.2 t ∧
          ((c (k+1)).script i).detected = [d] ∧ d.key = t.key ∧ d.name = t.name := by
      obtain ⟨j, hj, t, d, he, hd, hkn⟩ := ih hlt.le hgoing i x (waited_before hhist ht hx hn) hn
      exact ⟨j, by omega, t, d, he, (congrArg Prod.fst ht).trans hd, hkn⟩
    rcases hstep.sameTouches with hs | ⟨line, hl⟩
    · exact hsame (hs i)
    · have htouches := runCommand_touches
        { (c k).world with nextCommand := (c k).world.nextCommand+1 } line
      have hof : World.touchOf { (c k).world with nextCommand := (c k).world.nextCommand+1 } line =
          (c k).world.touchOf line := rfl
      have hcarried (i : ℕ) : (c (k+1)).script i = (World.runCommand
          { (c k).world with nextCommand := (c k).world.nextCommand+1 } line).script i := by
        unfold Conf.script
        rw [hstep.carriesOut hl]
        rfl
      rw [hof] at htouches
      cases ht : (c k).world.touchOf line with
      | none =>
        rw [ht] at htouches
        refine hsame ?_
        rw [hcarried i]
        exact SameTouches.of_steady htouches i
      | some t =>
        rw [ht] at htouches
        have hparts := SameTouches.of_steady htouches i
        rw [← hcarried i] at hparts
        by_cases hi : i = t.script
        · subst hi
          -- commands are taken when the queues are empty, so the touch is of this command
          have hidle : (c k).phase = .idle := by
            unfold linePumped at hl
            split at hl
            · rename_i hp
              exact hp.resolve_right fun hd => hgoing (.inl hd)
            · cases hl
          have hempty := h.queuesEmpty hlt.le hidle t.script
          have hnew : ((c k).script t.script).tally.made ≤ x.2 := by
            obtain ⟨ds, hds⟩ := hhist
            rw [Script.tally, queueOps_append hds.symm] at hx
            rcases LinkedQueue.mem_waiting_append _ _ hx with hw | ⟨hmade, -⟩
            · have hw' : x ∈ ((c k).script t.script).tally.waiting := hw
              rw [hempty] at hw'
              exact absurd hw' List.not_mem_nil
            · exact hmade
          have hdet := (congrArg Prod.fst hparts).trans
            (touch_detected { (c k).world with nextCommand := (c k).world.nextCommand+1 } t
              (touchOf_lt ht))
          refine ⟨k, by omega, t, _, ⟨⟨line, hl, ht⟩, rfl, hnew, ?_⟩, hdet, rfl, rfl⟩
          exact LinkedQueue.waiting_lt_made _ x hx
        · refine hsame (hparts.trans ?_)
          rw [touch_script_ne _ t hi]
          rfl

/-- Taking an event is the doing of its script. -/
theorem Step.noted {c c' : Conf F} (h : Step lib c c') {i : ℕ} {ev : Event F}
    (ht : Takes c.phase c.world i ev) : Noted i c.machine c'.machine := by
  obtain ⟨-, fuel, h⟩ := h
  obtain ⟨⟨b, hb⟩, -⟩ := ht
  rw [hb] at h
  exact (visitScript_noting lib fuel i b).of_ok h

/-- What script `i` detects when it takes an event is what it detects throughout. -/
theorem Step.sees {c c' : Conf F} (h : Step lib c c') {i : ℕ} {ev : Event F}
    (ht : Takes c.phase c.world i ev) {t : Touch} {d : Detected F}
    (hd : (c.script i).detected = [d]) (hkey : d.key = t.key) (hname : d.name = t.name) :
    Sees c c' i t := by
  have hkeep {v : World F} (hv : Handlings i c.world v) : Tells v i t :=
    tells_of_detected ((congrArg Prod.fst (hv.sameTouches i)).trans hd) hkey hname
  have hn := h.noted ht
  obtain ⟨new, hl, hnew⟩ := hn.log
  exact ⟨hkeep .refl, ⟨new, hl, fun q hq => hkeep (hnew q hq)⟩, hkeep hn.world⟩

end Conf

/-- Touch handlers see their own toucher, over every run. -/
theorem touchers_seen (lib : Lib F) (c : ℕ → Conf F) (n : ℕ) (h : Conf.IsRun lib c n) :
    Conf.TouchersSeen c n := by
  intro k hk i ev ht hev
  obtain ⟨x, hx, hxe, -⟩ := (h.happens hk i).taken_snoc (h.accounted hk.le i) ht
  have hgoing : ¬ (c k).phase.Over := by
    obtain ⟨⟨b, hb⟩, -⟩ := ht
    rw [hb]
    rintro (hp | hp | hp) <;> cases hp
  have hmem : x ∈ ((c k).script i).tally.waiting := List.mem_of_head? hx
  obtain ⟨j, hj, t, d, he, hd, hkey, hname⟩ :=
    h.touchesOwned hk.le hgoing i x hmem (hxe ▸ hev)
  exact ⟨x, j, t, hx, hxe, hj, he, (h.step k hk).sees ht hd hkey hname⟩

/-- A script that can be touched. -/
def touchProgram : Program :=
  { handlersProgram [(1, []), (9, [])] with strings := poolNames ++ [lit "touch_start"] }

/-- Two touches of it, by two avatars. -/
theorem touchers_seen_two : Conf.TouchersSeen ((regionOf [touchProgram]
    (commandsLoad (lit "TOUCH 1\nTOUCH_AS 1 bob"))).after ⟨fun _ => none⟩ 30) 24 :=
  touchers_seen _ _ 24 (Conf.isRun_after (start_regionOf _ _) (by decide +kernel))

end Slemu
