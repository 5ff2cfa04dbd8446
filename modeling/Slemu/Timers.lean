import Slemu.VirtualTime
import Slemu.Quiescence

/-! Timers over whole runs: each due time is fired once, in order, and by the time a command is
taken all that are due have been. -/

namespace Slemu
variable {F : Type} [CDouble F]

/-! ### What a history says about timers -/

section
omit [CDouble F]

/-- The due time for which the scheduler pushed a `timer` event. -/
def Deed.firedAt : Deed F → Option F
  | .push _ due => due
  | _ => none

/-- The due times fired in a history, in order. -/
def firedIn (ds : List (Deed F)) : List F := ds.filterMap Deed.firedAt

/-- Neither a call of `llSetTimerEvent` nor one of `llDie`. -/
def Deed.LeavesTimer : Deed F → Prop
  | .setTimer .. => False
  | .flush .die => False
  | _ => True

theorem firedIn_snoc (ds : List (Deed F)) (d : Deed F) :
    firedIn (ds ++ [d]) = firedIn ds ++ d.firedAt.toList := by
  rw [firedIn, List.filterMap_append, ← firedIn, List.filterMap_cons, List.filterMap_nil]
  cases d.firedAt <;> rfl

theorem firedIn_of_none {ds es : List (Deed F)} (h : ∀ d ∈ es, d.firedAt = none) :
    firedIn (ds ++ es) = firedIn ds := by
  rw [firedIn, List.filterMap_append, List.filterMap_eq_nil_iff.mpr h, List.append_nil, firedIn]

end

/-- Queue and timer after these deeds. -/
def trackOf (ds : List (Deed F)) : Track F :=
  ds.foldl Track.apply ⟨[], CDouble.zero, CDouble.zero⟩

theorem trackOf_snoc (ds : List (Deed F)) (d : Deed F) :
    trackOf (ds ++ [d]) = (trackOf ds).apply d := by
  rw [trackOf, List.foldl_append, List.foldl_cons, List.foldl_nil, trackOf]

/-- Timers fire at their due time. -/
def Timed (ds : List (Deed F)) : Prop :=
  ∀ pre ev d post, ds = pre ++ .push ev (some d) :: post → d = (trackOf pre).due

theorem Timed.left {ds es : List (Deed F)} (h : Timed (ds ++ es)) : Timed ds := by
  rintro pre ev d post rfl
  exact h pre ev d (post ++ es) (List.append_assoc _ _ _)

theorem Timed.append {ds es : List (Deed F)} (h : Timed ds) (he : ∀ e ∈ es, e.firedAt = none) :
    Timed (ds ++ es) := by
  intro pre ev d post hs
  have hno : ∀ as, es ≠ as ++ .push ev (some d) :: post := by
    rintro as rfl
    have hn := he _ (List.mem_append_right as List.mem_cons_self)
    cases hn
  rcases List.append_eq_append_iff.mp hs with ⟨as, -, hes⟩ | ⟨cs, hds, hcs⟩
  · exact absurd hes (hno as)
  · cases cs with
    | nil => exact absurd hcs.symm (hno [])
    | cons x cs =>
      rw [List.cons_append, List.cons.injEq] at hcs
      obtain ⟨rfl, rfl⟩ := hcs
      exact h pre ev d cs hds

theorem Timed.fire {ds : List (Deed F)} (h : Timed ds) (ev : Event F) :
    Timed (ds ++ [.push ev (some (trackOf ds).due)]) := by
  intro pre ev' d post hs
  rcases List.eq_nil_or_concat post with rfl | ⟨post, x, rfl⟩
  · obtain ⟨rfl, he⟩ := List.append_inj' hs rfl
    cases he
    rfl
  · rw [List.concat_eq_append, ← List.cons_append, ← List.append_assoc] at hs
    exact h pre ev' d post (List.append_inj' hs rfl).1

/-- What the history says about a timer that was armed with `p` at `a`: since then its due times
were fired one after the other. -/
theorem Timed.armed {pre post : List (Deed ℚ)} {p a : ℚ} (hp : 0 < p)
    (h : Timed (pre ++ .setTimer p a :: post)) (hl : ∀ d ∈ post, d.LeavesTimer) :
    (trackOf (pre ++ .setTimer p a :: post)).interval = p ∧
      (trackOf (pre ++ .setTimer p a :: post)).due = a+((firedIn post).length+1)*p ∧
      firedIn post = (List.range (firedIn post).length).map fun j : ℕ => a+(j+1)*p := by
  induction post using List.reverseRecOn with
  | nil =>
    rw [trackOf_snoc, Track.apply]
    refine ⟨rfl, ?_, rfl⟩
    simp only [CDouble.rat_lt, CDouble.rat_zero, CDouble.rat_add, decide_eq_true_eq, hp, if_true,
      firedIn, List.filterMap_nil, List.length_nil, Nat.cast_zero, zero_add, one_mul]
  | append_singleton post d ih =>
    rw [← List.cons_append, ← List.append_assoc] at h ⊢
    obtain ⟨hi, hd, hf⟩ := ih h.left fun e he => hl e (List.mem_append_left _ he)
    have hd' := hl d (List.mem_append_right _ List.mem_cons_self)
    rw [trackOf_snoc, firedIn_snoc]
    set r := trackOf (pre ++ .setTimer p a :: post)
    have hstay (h0 : d.firedAt = none) (hri : (r.apply d).interval = r.interval)
        (hrd : (r.apply d).due = r.due) : (r.apply d).interval = p ∧
        (r.apply d).due = a+((firedIn post ++ d.firedAt.toList).length+1)*p ∧
        firedIn post ++ d.firedAt.toList = (List.range (firedIn post ++
          d.firedAt.toList).length).map fun j : ℕ => a+(j+1)*p := by
      rw [h0, Option.toList_none, List.append_nil, hri, hrd]
      exact ⟨hi, hd, hf⟩
    -- only a fired timer moves the due time on
    cases d with
    | push ev due =>
      cases due with
      | none => exact hstay rfl rfl rfl
      | some e =>
        have he : e = a+((firedIn post).length+1)*p := (h _ ev e [] rfl).trans hd
        have hlen : (firedIn post ++ [e]).length = (firedIn post).length+1 := List.length_append
        change r.interval = p ∧ r.due+r.interval = _ ∧ firedIn post ++ [e] = _
        rw [hd, hi, Deed.firedAt, Option.toList_some, hlen, List.range_succ, List.map_append, ← hf,
          List.map_singleton, ← he]
        refine ⟨rfl, ?_, rfl⟩
        rw [he]
        push_cast
        ring
    | pop => exact hstay rfl rfl rfl
    | flush why =>
      cases why with
      | stateChange => exact hstay rfl rfl rfl
      | die => exact hd'.elim
      | reset => exact hstay rfl rfl rfl
    | setTimer f b => exact hd'.elim

/-! ### What moves the offset -/

/-- The offset has moved by the amounts noted. -/
def Advanced (w w' : World F) : Prop :=
  ∃ fs, w'.advances = w.advances ++ fs ∧ w'.virtualOffset = fs.foldl CDouble.add w.virtualOffset

namespace Advanced
variable {u v w : World F}

theorem of_clock (h : v.clock = u.clock) : Advanced u v := by
  simp only [World.clock, Prod.mk.injEq] at h
  exact ⟨[], h.2.2.1.trans (List.append_nil _).symm, h.2.1⟩

theorem of_core (h : v.core = u.core) : Advanced u v := of_clock (congrArg (fun c => c.2.1) h)

theorem refl (w : World F) : Advanced w w := of_clock rfl

theorem trans (h : Advanced u v) (h' : Advanced v w) : Advanced u w := by
  obtain ⟨fs, ha, ho⟩ := h
  obtain ⟨fs', ha', ho'⟩ := h'
  refine ⟨fs ++ fs', by rw [ha', ha, List.append_assoc], ?_⟩
  rw [ho', ho, List.foldl_append]

theorem advance (w : World F) (f : F) : Advanced w (w.advance f) := ⟨[f], rfl, rfl⟩

end Advanced

theorem Act.advanced {s : ℕ} {w w' : World F} (h : Act s w w') : Advanced w w' := by
  cases h with
  | grown h => exact .of_clock h.clock
  | sleep f => exact .advance w f
  | setTimer f => exact .of_clock rfl
  | die => exact .of_clock rfl
  | globals g => exact .of_clock rfl
  | pending i => exact .of_clock rfl
  | reset st => exact .of_clock rfl

theorem Acts.advanced {s : ℕ} {w w' : World F} (h : Acts s w w') : Advanced w w' :=
  h.induct Advanced.refl (fun _ _ _ => Advanced.trans) fun _ _ => Act.advanced

theorem Pumped.advanced {w w' : World F} (h : Pumped w w') : Advanced w w' := by
  obtain ⟨-, h⟩ := h
  have hn : Advanced w { w with nextCommand := w.nextCommand+1 } :=
    ⟨[], (List.append_nil _).symm, rfl⟩
  cases h with
  | grown h => exact hn.trans (.of_clock h.clock)
  | wait f h => exact hn.trans ((Advanced.advance _ f).trans (.of_core h))

theorem Advanced.fireTimer (w : World F) : Advanced w w.fireTimer.2 := by
  rcases h : w.dueTimer with ⟨d, _ | i⟩
  · rw [fireTimer_none h]
    exact ⟨[], (List.append_nil _).symm, rfl⟩
  · rw [fireTimer_some h]
    exact ⟨[], (List.append_nil _).symm, rfl⟩

theorem Moves.advanced {p p' : Phase} {w w' : World F} (h : Moves p w p' w') :
    Advanced w w' := by
  cases h with
  | load h => exact .of_clock h.clock
  | init _ h => exact h.advanced
  | start _ h => exact .of_core h
  | head h => exact (Advanced.of_core h).trans (.fireTimer _)
  | limit h => exact .of_core h
  | around => exact .refl _
  | quiet => exact .refl _
  | skip => exact .refl _
  | @ignore _ _ i _ _ _ _ _ _ h =>
    have hd : Advanced w (w.dequeue i) := .of_clock rfl
    exact hd.trans (.of_core h)
  | dispatch _ _ _ h => exact h.advanced
  | settled => exact .refl _
  | change => exact .of_clock rfl
  | exit h => exact h.advanced
  | entry => exact .of_clock rfl
  | command h => exact h.advanced
  | settleDown => exact .refl _
  | drain h => exact h.advanced
  | drained => exact .refl _
  | save h => exact .of_core h

/-- Amounts that are not negative do not move the offset back. -/
theorem Advanced.le {w w' : World ℚ} (h : Advanced w w') (hf : ∀ f ∈ w'.advances, 0 ≤ f) :
    w.virtualOffset ≤ w'.virtualOffset := by
  obtain ⟨fs, ha, ho⟩ := h
  have hfs : ∀ f ∈ fs, 0 ≤ f := fun f hm => hf f (ha ▸ List.mem_append_right _ hm)
  rw [ho]
  clear ha ho
  induction fs generalizing w with
  | nil => exact le_rfl
  | cons f fs ih =>
    have hle : w.virtualOffset ≤ w.virtualOffset+f :=
      le_add_of_nonneg_right (hfs f List.mem_cons_self)
    exact hle.trans (ih (w := { w with virtualOffset := w.virtualOffset+f })
      fun g hg => hfs g (List.mem_cons_of_mem _ hg))

/-! ### What a step fires -/

omit [CDouble F] in
theorem firedAt_of_plain {d : Deed F} {now : F} (h : d.Plain now ∨ d = .pop) :
    d.firedAt = none := by
  rcases h with h | rfl
  · cases d with
    | push ev due => exact h.1
    | pop => rfl
    | flush why => rfl
    | setTimer f a => rfl
  · rfl

theorem Timed.happens {p : Phase} {w : World F} {i : ℕ} {t' : Script F}
    (ht : Timed (w.script i).history) (ha : Accounted (w.script i)) (h : Happens p w i t') :
    Timed t'.history := by
  obtain ⟨ds, hh, hd | ⟨d, rfl, -, hd⟩⟩ := h.deeds
  · rw [hh]
    exact ht.append fun e he => firedAt_of_plain (hd e he)
  · have hdue : d = (trackOf (w.script i).history).due := by
      rw [trackOf, ← ha]
      exact (dueTimer_some hd).2.2.symm
    rw [hh, hdue]
    exact ht.fire _

theorem Happens.fires {p : Phase} {w : World F} {i : ℕ} {t' : Script F} (h : Happens p w i t') :
    firedIn t'.history = firedIn (w.script i).history ∨
      ∃ d, p = .top ∧ w.dueTimer = (d, some i) ∧
        firedIn t'.history = firedIn (w.script i).history ++ [d] := by
  obtain ⟨ds, hh, hd | ⟨d, rfl, hp, hd⟩⟩ := h.deeds
  · rw [hh]
    exact .inl (firedIn_of_none fun e he => firedAt_of_plain (hd e he))
  · refine .inr ⟨d, hp, hd, ?_⟩
    rw [hh, firedIn_snoc]
    rfl

namespace Conf

/-- What holds of every deed when it is noted, and stays true, holds of all of them. -/
theorem IsRun.forall_deeds {lib : Lib F} {c : ℕ → Conf F} {n : ℕ} (h : IsRun lib c n)
    {P : World F → Deed F → Prop}
    (hold : ∀ k < n, ∀ d, P (c k).world d → P (c (k+1)).world d)
    (hplain : ∀ k < n, ∀ d, d.Plain (c k).world.virtualNow ∨ d = .pop → P (c (k+1)).world d)
    (hfire : ∀ k < n, ∀ i d, (c k).phase = .top → (c k).world.dueTimer = (d, some i) →
      P (c (k+1)).world (.push ⟨lit "timer", []⟩ (some d)))
    {k : ℕ} (hk : k ≤ n) (i : ℕ) : ∀ d ∈ ((c k).script i).history, P (c k).world d := by
  induction k with
  | zero =>
    have h0 : ((c 0).script i).history = [] := by
      rcases h.start.script i with hu | hd
      · exact hu.history
      · exact congrArg Script.history hd
    rw [h0]
    exact nofun
  | succ k ih =>
    intro d hd
    obtain ⟨ds, hh, hds⟩ := (h.happens hk i).deeds
    change ((c (k+1)).script i).history = ((c k).script i).history ++ ds at hh
    rw [hh] at hd
    rcases List.mem_append.mp hd with hd | hd
    · exact hold k hk d (ih (Nat.le_of_succ_le hk) d hd)
    · rcases hds with hds | ⟨e, rfl, hp, he⟩
      · exact hplain k hk d (hds d hd)
      · rw [List.mem_singleton.mp hd]
        exact hfire k hk i e hp he

end Conf

/-! ### Runs with exact times -/

/-- The step fires the timer of script `i` for due time `d`. -/
def Conf.Fires (c : ℕ → Conf F) (k i : ℕ) (d : F) : Prop :=
  firedIn ((c (k+1)).script i).history = firedIn ((c k).script i).history ++ [d]

/-- The timer of a script was armed with interval `p` at time `a`, and `post` is what happened to
the script since, with no call of `llSetTimerEvent` or `llDie` in it. -/
structure ArmedSince (t : Script F) (p a : F) (post : List (Deed F)) : Prop where
  since : ∃ pre, t.history = pre ++ .setTimer p a :: post
  leaves : ∀ d ∈ post, d.LeavesTimer

/-- The timers of a run. -/
structure ExactTicks (c : ℕ → Conf ℚ) (n : ℕ) : Prop where
  /-- `timer` events come from the scheduler only, each with its due time -/
  tagged : ∀ k ≤ n, ∀ i ev due, .push ev due ∈ ((c k).script i).history →
    (due.isSome ↔ ev.name = lit "timer")
  /-- timers are armed at `virtual_now` -/
  armed : ∀ k < n, ∀ i ds p a, ((c (k+1)).script i).history = ((c k).script i).history ++ ds →
    .setTimer p a ∈ ds → a = (c k).world.virtualNow
  /-- a step fires a timer once at most, and not before it is due -/
  pushes : ∀ k < n, ∀ i, firedIn ((c (k+1)).script i).history =
      firedIn ((c k).script i).history ∨
    ∃ d, Conf.Fires c k i d ∧ (c k).phase = .top ∧ d ≤ (c k).world.virtualOffset
  ticks : ∀ k ≤ n, ∀ i p a post, ArmedSince ((c k).script i) p a post → 0 < p →
    firedIn post = (List.range (firedIn post).length).map fun j : ℕ => a+(j+1)*p
  settled : ∀ k ≤ n, (c k).phase = .idle → ∀ i p a post, ArmedSince ((c k).script i) p a post →
    0 < p → ((firedIn post).length : ℤ) = ⌊((c k).world.virtualOffset-a)/p⌋
  ordered : ∀ j k, j ≤ k → k < n → ∀ i i' d e, Conf.Fires c j i d → Conf.Fires c k i' e → d ≤ e

/-- The times in a deed are not after `T`. -/
def Deed.By (T : ℚ) : Deed ℚ → Prop
  | .push _ due => ∀ d ∈ due, d ≤ T
  | .setTimer _ a => a ≤ T
  | _ => True

theorem Deed.By.mono {S T : ℚ} (h : S ≤ T) {d : Deed ℚ} (hd : d.By S) : d.By T := by
  cases d with
  | push ev due => exact fun e he => (hd e he).trans h
  | pop => trivial
  | flush why => trivial
  | setTimer f a => exact le_trans hd h

/-- `timer` events have their due time noted, others have none. -/
def Deed.Tagged : Deed F → Prop
  | .push ev due => due.isSome ↔ ev.name = lit "timer"
  | _ => True

omit [CDouble F] in
theorem tagged_of_plain {d : Deed F} {now : F} (h : d.Plain now ∨ d = .pop) : d.Tagged := by
  rcases h with h | rfl
  · cases d with
    | push ev due =>
      obtain ⟨rfl, hn⟩ := h
      exact ⟨nofun, fun he => absurd he hn⟩
    | pop => trivial
    | flush why => trivial
    | setTimer f a => trivial
  · trivial

namespace Conf

theorem IsRun.tagged {lib : Lib F} {c : ℕ → Conf F} {n : ℕ} (h : IsRun lib c n) {k : ℕ}
    (hk : k ≤ n) (i : ℕ) : ∀ d ∈ ((c k).script i).history, d.Tagged :=
  h.forall_deeds (P := fun _ d => d.Tagged) (fun _ _ _ hd => hd)
    (fun _ _ _ hd => tagged_of_plain hd) (fun _ _ _ _ _ _ => ⟨fun _ => rfl, fun _ => rfl⟩) hk i

theorem IsRun.timed {lib : Lib F} {c : ℕ → Conf F} {n : ℕ} (h : IsRun lib c n) {k : ℕ}
    (hk : k ≤ n) (i : ℕ) : Timed ((c k).script i).history := by
  induction k with
  | zero =>
    have h0 : ((c 0).script i).history = [] := by
      rcases h.start.script i with hu | hd
      · exact hu.history
      · exact congrArg Script.history hd
    rw [h0]
    intro pre ev d post hs
    exact absurd hs.symm (List.append_ne_nil_of_right_ne_nil _ (List.cons_ne_nil _ _))
  | succ k ih =>
    exact (ih (Nat.le_of_succ_le hk)).happens (h.accounted (Nat.le_of_succ_le hk) i)
      (h.happens hk i)

theorem IsRun.fires {lib : Lib F} {c : ℕ → Conf F} {n : ℕ} (h : IsRun lib c n) {k : ℕ}
    (hk : k < n) {i : ℕ} {d : F} (hf : Fires c k i d) :
    (c k).phase = .top ∧ (c k).world.dueTimer = (d, some i) := by
  rcases (h.happens hk i).fires with hs | ⟨e, hp, hd, hs⟩
  · have hl := congrArg List.length (hf.symm.trans hs)
    rw [List.length_append, List.length_singleton] at hl
    exact absurd hl (Nat.succ_ne_self _)
  · have he : [d] = [e] := List.append_cancel_left (hf.symm.trans hs)
    cases he
    exact ⟨hp, hd⟩

/-- Timers are armed at the time shown. -/
theorem IsRun.armed {lib : Lib F} {c : ℕ → Conf F} {n : ℕ} (h : IsRun lib c n) {k : ℕ}
    (hk : k < n) {i : ℕ} {ds : List (Deed F)} {p a : F}
    (hh : ((c (k+1)).script i).history = ((c k).script i).history ++ ds)
    (hmem : .setTimer p a ∈ ds) : a = (c k).world.virtualNow := by
  obtain ⟨ds', hh', hds⟩ := (h.happens hk i).deeds
  obtain rfl : ds = ds' := List.append_cancel_left (hh.symm.trans hh')
  rcases hds with hds | ⟨e, rfl, -, -⟩
  · exact (hds _ hmem).elim id nofun
  · cases List.mem_singleton.mp hmem

/-- A loop that is left at its head fires nothing. -/
theorem IsRun.fires_goesOn {lib : Lib F} {c : ℕ → Conf F} {n : ℕ} (h : IsRun lib c n) {k : ℕ}
    (hk : k < n) {i : ℕ} {d : F} (hf : Fires c k i d) : (c (k+1)).phase ≠ .drain := by
  intro hp'
  have hm := h.moves hk
  rw [(h.fires hk hf).1, hp'] at hm
  have hs : (c (k+1)).script i = (c k).script i := by
    unfold Conf.script
    generalize (c (k+1)).world = w' at hm ⊢
    cases hm with
    | limit hc => exact script_of_core hc i
  have hl := congrArg List.length hf
  rw [hs, List.length_append, List.length_singleton] at hl
  exact absurd hl.symm (Nat.succ_ne_self _)

section
variable {lib : Lib ℚ} {c : ℕ → Conf ℚ} {n : ℕ}

theorem IsRun.advances (h : IsRun lib c n) {j k : ℕ} (hjk : j ≤ k) (hk : k ≤ n) :
    (c j).world.advances <+: (c k).world.advances := by
  induction k, hjk using Nat.le_induction with
  | base => exact List.prefix_rfl
  | succ k hjk ih =>
    obtain ⟨fs, ha, -⟩ := (h.moves hk).advanced
    exact (ih (Nat.le_of_succ_le hk)).trans (ha ▸ List.prefix_append _ _)

variable (h : IsRun lib c n) (ha : ∀ f ∈ (c n).world.advances, 0 ≤ f)
include h ha

theorem IsRun.offset_mono {k : ℕ} (hk : k < n) :
    (c k).world.virtualOffset ≤ (c (k+1)).world.virtualOffset :=
  (h.moves hk).advanced.le fun f hf => ha f ((h.advances hk le_rfl).subset hf)

theorem IsRun.now_le_offset {k : ℕ} (hk : k ≤ n) :
    (c k).world.virtualNow ≤ (c k).world.virtualOffset := by
  induction k with
  | zero => rw [h.start.virtualNow, h.start.virtualOffset]
  | succ k ih =>
    have ih := ih (Nat.le_of_succ_le hk)
    have hm := h.offset_mono ha hk
    have hs := h.moves hk
    by_cases hp : (c k).phase = .top
    · by_cases hp' : (c (k+1)).phase = .drain
      · generalize (c k).phase = p at *
        generalize (c (k+1)).phase = p' at *
        generalize (c (k+1)).world = w' at *
        subst hp hp'
        cases hs with
        | limit hc =>
          have hn : w'.virtualNow = (c k).world.virtualNow := congrArg (fun c => c.2.1.1) hc
          rw [hn]
          exact ih.trans hm
      · rw [hp] at hs
        rcases hs.now_head hp' with ⟨d, i, hd, hn⟩ | ⟨-, hn⟩
        · obtain ⟨-, hdue, rfl⟩ := dueTimer_some hd
          rw [hn]
          have hle := (Bool.and_eq_true_iff.mp hdue).2
          simp only [CDouble.rat_le, decide_eq_true_eq] at hle
          exact hle.trans hm
        · rw [hn]
          exact hm
    · rw [hs.now hp]
      exact ih.trans hm

theorem IsRun.headOnTime :
    ∀ k < n, HeadOnTime (c k).phase (c k).world (c (k+1)).phase := by
  intro k hk _ _
  simpa using h.now_le_offset ha hk.le

theorem IsRun.now_mono {j k : ℕ} (hjk : j ≤ k) (hk : k ≤ n) :
    (c j).world.virtualNow ≤ (c k).world.virtualNow := by
  induction k, hjk using Nat.le_induction with
  | base => exact le_rfl
  | succ k hjk ih =>
    have hs := (time_forward_iff lib c n h).mpr (h.headOnTime ha) k hk
    simp only [CDouble.rat_le, decide_eq_true_eq] at hs
    exact (ih (Nat.le_of_succ_le hk)).trans hs

theorem IsRun.deeds_by {k : ℕ} (hk : k ≤ n) (i : ℕ) :
    ∀ d ∈ ((c k).script i).history, d.By (c k).world.virtualOffset := by
  refine h.forall_deeds (P := fun w d => d.By w.virtualOffset)
    (fun k hk d hd => hd.mono (h.offset_mono ha hk)) (fun k hk d hd => ?_)
    (fun k hk i d hp hd => ?_) hk i
  · rcases hd with hd | rfl
    · cases d with
      | push ev due =>
        obtain ⟨rfl, -⟩ := hd
        exact nofun
      | pop => trivial
      | flush why => trivial
      | setTimer f a =>
        obtain rfl : a = _ := hd
        exact (h.now_le_offset ha hk.le).trans (h.offset_mono ha hk)
    · trivial
  · obtain ⟨-, hdue, rfl⟩ := dueTimer_some hd
    have hle := (Bool.and_eq_true_iff.mp hdue).2
    simp only [CDouble.rat_le, decide_eq_true_eq] at hle
    intro e he
    cases he
    exact hle.trans (h.offset_mono ha hk)

/-- When nothing is due, all due times up to the offset have been fired. -/
theorem IsRun.count_settled {k : ℕ} (hk : k ≤ n) (hp : (c k).phase = .idle) {i : ℕ} {p a : ℚ}
    {post : List (Deed ℚ)} (hs : ArmedSince ((c k).script i) p a post) (h0 : 0 < p) :
    ((firedIn post).length : ℤ) = ⌊((c k).world.virtualOffset-a)/p⌋ := by
  obtain ⟨⟨pre, hh⟩, hl⟩ := hs
  have ht := h.timed hk i
  have hacc := h.accounted hk i
  have hby := h.deeds_by ha hk i
  rw [hh] at ht hby
  rw [Accounted, ← trackOf, hh] at hacc
  obtain ⟨hi, hd, hf⟩ := ht.armed h0 hl
  rw [← hacc] at hi hd
  have hlen : i < (c k).world.scripts.length := by
    by_contra hi
    have hd : (c k).script i = default := script_of_length_le _ _ (not_lt.mp hi)
    rw [hd] at hh
    exact List.append_ne_nil_of_right_ne_nil _ (List.cons_ne_nil _ _) hh.symm
  have hnot := (h.settledWorld (fun _ _ _ => dueInReach_rat _) hk hp).due i hlen
  have hdue : ((c k).world.script i).timerDue = a+((firedIn post).length+1)*p := hd
  have hint : ((c k).world.script i).timerInterval = p := hi
  rw [Script.dueBy, hdue, hint] at hnot
  simp only [CDouble.rat_lt, CDouble.rat_le, CDouble.rat_zero, h0, decide_true, Bool.true_and,
    decide_eq_false_iff_not, not_le] at hnot
  have hlast : a+(firedIn post).length*p ≤ (c k).world.virtualOffset := by
    rcases Nat.eq_zero_or_pos (firedIn post).length with hz | hpos
    · rw [hz, Nat.cast_zero, zero_mul, add_zero]
      exact hby (.setTimer p a) (List.mem_append_right _ List.mem_cons_self)
    · obtain ⟨m, hm⟩ := Nat.exists_eq_succ_of_ne_zero hpos.ne'
      have hmem : a+((m:ℚ)+1)*p ∈ firedIn post := by
        rw [hf, hm]
        exact List.mem_map.mpr ⟨m, List.mem_range.mpr (Nat.lt_succ_self m), rfl⟩
      obtain ⟨d, hdm, hdf⟩ := List.mem_filterMap.mp hmem
      have hdby := hby d (List.mem_append_right _ (List.mem_cons_of_mem _ hdm))
      rw [hm, Nat.cast_succ]
      cases d with
      | push ev due => exact hdby _ hdf
      | pop => cases hdf
      | flush why => cases hdf
      | setTimer f b => cases hdf
  symm
  rw [Int.floor_eq_iff, le_div_iff₀ h0, div_lt_iff₀ h0, Int.cast_natCast]
  constructor <;> linarith

theorem IsRun.fires_ordered {j k : ℕ} (hjk : j ≤ k) (hk : k < n) {i i' : ℕ} {d e : ℚ}
    (hd : Fires c j i d) (he : Fires c k i' e) : d ≤ e := by
  obtain ⟨hp, hdj⟩ := h.fires (hjk.trans_lt hk) hd
  obtain ⟨-, hek⟩ := h.fires hk he
  rcases hjk.eq_or_lt with rfl | hlt
  · rw [hdj] at hek
    exact (congrArg Prod.fst hek).le
  · -- the time is `d` after step `j`, and no timer is due in the past
    have hstep := h.moves (hlt.trans hk)
    have hnext := h.fires_goesOn (hlt.trans hk) hd
    rw [hp] at hstep
    have hnow : (c (j+1)).world.virtualNow = d := by
      rcases hstep.now_head hnext with ⟨d', i'', hd', hn⟩ | ⟨⟨d', hd'⟩, -⟩
      · rw [hdj] at hd'
        cases hd'
        exact hn
      · rw [hdj] at hd'
        cases hd'
    have hle := (h.onTime (h.headOnTime ha) k hk.le).fire hek
    simp only [CDouble.rat_le, decide_eq_true_eq] at hle
    exact (hnow ▸ h.now_mono ha hlt hk.le).trans hle

end

end Conf

/-- Timers tick exactly, in a run without negative waits and sleeps. -/
theorem exact_ticks (lib : Lib ℚ) (c : ℕ → Conf ℚ) (n : ℕ) (h : Conf.IsRun lib c n)
    (ha : ∀ f ∈ (c n).world.advances, 0 ≤ f) : ExactTicks c n where
  tagged k hk i ev due hd := h.tagged hk i _ hd
  armed k hk i ds p a hh hmem := h.armed hk hh hmem
  pushes k hk i := by
    rcases (h.happens hk i).fires with hs | ⟨d, hp, hd, hs⟩
    · exact .inl hs
    · refine .inr ⟨d, hs, hp, ?_⟩
      obtain ⟨-, hdue, rfl⟩ := dueTimer_some hd
      simpa using (Bool.and_eq_true_iff.mp hdue).2
  ticks k hk i p a post hs hp := by
    obtain ⟨⟨pre, hh⟩, hl⟩ := hs
    exact (Timed.armed hp (hh ▸ h.timed hk i) hl).2.2
  settled k hk hp i p a post hs h0 := h.count_settled ha hk hp hs h0
  ordered j k hjk hk i i' d e hd he := h.fires_ordered ha hjk hk hd he

/-- A timer of one second, over three and a half. -/
theorem exact_ticks_three : ExactTicks
    ((regionOf [tickProgram 1] [lit "WAIT 2", lit "WAIT 1.5"]).after noLib 30) 33 :=
  exact_ticks noLib _ 33 (Conf.isRun_after (start_regionOf _ _) (by decide +kernel))
    (by decide +kernel)

/-- Interval and time of a call of `llSetTimerEvent`. -/
def Deed.timerSet : Deed F → Option (F × F)
  | .setTimer p a => some (p, a)
  | _ => none

omit [CDouble F] in
theorem armedSince_last {t : Script F} {p a : F}
    (h : t.history.getLast?.bind Deed.timerSet = some (p, a)) : ArmedSince t p a [] := by
  obtain ⟨d, hd, hs⟩ := Option.bind_eq_some_iff.mp h
  refine ⟨⟨t.history.dropLast, ?_⟩, nofun⟩
  cases d with
  | setTimer f b =>
    cases hs
    exact (List.dropLast_append_getLast? _ hd).symm
  | push ev due => cases hs
  | pop => cases hs
  | flush why => cases hs

/-- The commands after `EXIT` are taken without a look at the timers. -/
theorem exit_leaves_timers : ∃ c : ℕ → Conf ℚ, Conf.IsRun noLib c 15 ∧
    (∀ f ∈ (c 15).world.advances, 0 ≤ f) ∧
    ¬ ∀ k ≤ 15, (linePumped (c k).phase (c k).world).isSome → ∀ i p a post,
      ArmedSince ((c k).script i) p a post → 0 < p →
        ((firedIn post).length : ℤ) = ⌊((c k).world.virtualOffset-a)/p⌋ := by
  refine ⟨(regionOf [tickProgram 1] [lit "EXIT", lit "WAIT 10", lit "ECHO"]).after noLib 30,
    Conf.isRun_after (start_regionOf _ _) (by decide +kernel), by decide +kernel, fun h => ?_⟩
  have hn := h 13 (by omega) (by decide +kernel) 0 1 0 []
    (armedSince_last (by decide +kernel)) one_pos
  exact absurd hn (by decide +kernel)

end Slemu
