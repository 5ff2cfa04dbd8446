import Slemu.SchedulerSteps
import Slemu.LinkedQueue

/-! What a step adds to the history of a script, and that the history accounts for the queue and
the timer. -/

namespace Slemu
variable {F : Type} [CDouble F]

/-- The part of a script that its history accounts for. -/
structure Track (F : Type) where
  evq : List (Event F)
  interval : F
  due : F

def Script.track (t : Script F) : Track F := ⟨t.evq, t.timerInterval, t.timerDue⟩

/-- What a deed does to queue and timer. -/
def Track.apply (t : Track F) : Deed F → Track F
  | .push ev none => { t with evq := t.evq ++ [ev] }
  | .push ev (some _) => { t with evq := t.evq ++ [ev], due := CDouble.add t.due t.interval }
  | .pop => { t with evq := t.evq.tail }
  | .flush .die => { t with evq := [], interval := CDouble.zero }
  | .flush _ => { t with evq := [] }
  | .setTimer f now => { t with
      interval := f,
      due := if CDouble.lt CDouble.zero f then CDouble.add now f else CDouble.zero }

/-- The deeds of code that runs while `virtual_now` is `now`: nothing is taken off the queue, and
no timer fires. -/
def Deed.Plain (now : F) : Deed F → Prop
  | .push ev due => due = none ∧ ev.name ≠ lit "timer"
  | .pop => False
  | .flush _ => True
  | .setTimer _ at_ => at_ = now

/-- The history has grown by deeds of that kind, which account for the change. -/
def Extends (now : F) (t t' : Script F) : Prop :=
  ∃ ds, t'.history = t.history ++ ds ∧ (∀ d ∈ ds, d.Plain now) ∧
    t'.track = ds.foldl Track.apply t.track

namespace Extends
variable {now : F} {t u v : Script F}

theorem refl (now : F) (t : Script F) : Extends now t t :=
  ⟨[], (List.append_nil _).symm, nofun, rfl⟩

theorem trans (h : Extends now t u) (h' : Extends now u v) : Extends now t v := by
  obtain ⟨ds, hh, hp, ht⟩ := h
  obtain ⟨ds', hh', hp', ht'⟩ := h'
  refine ⟨ds ++ ds', by rw [hh', hh, List.append_assoc], fun d hd => ?_, ?_⟩
  · exact (List.mem_append.mp hd).elim (hp d) (hp' d)
  · rw [ht', ht, List.foldl_append]

theorem of_same (hh : u.history = t.history) (ht : u.track = t.track) : Extends now t u :=
  ⟨[], hh.trans (List.append_nil _).symm, nofun, ht⟩

/-- One deed. -/
theorem single {d : Deed F} (hd : d.Plain now) (hh : u.history = t.history ++ [d])
    (ht : u.track = t.track.apply d) : Extends now t u :=
  ⟨[d], hh, fun e he => by rwa [List.mem_singleton.mp he], ht⟩

theorem foldl_push (evs : List (Event F)) (t : Track F) :
    (evs.map fun ev => Deed.push ev none).foldl Track.apply t =
      { t with evq := t.evq ++ evs } := by
  induction evs generalizing t with
  | nil => rw [List.map_nil, List.foldl_nil, List.append_nil]
  | cons ev evs ih =>
    rw [List.map_cons, List.foldl_cons, ih, Track.apply, List.append_assoc, List.singleton_append]

theorem of_grown (now : F) (h : Grown t u) : Extends now t u := by
  obtain ⟨evs, hn, hq, hh⟩ := h.queue
  refine ⟨_, hh, fun d hd => ?_, ?_⟩
  · obtain ⟨ev, hev, rfl⟩ := List.mem_map.mp hd
    exact ⟨rfl, hn ev hev⟩
  · rw [foldl_push, Script.track, hq, h.timerInterval, h.timerDue]
    rfl

end Extends

/-- A change of the own script, for a look at any script. -/
theorem extends_modScript (w : World F) (s i : ℕ) {f : Script F → Script F} {now : F}
    (hf : ∀ t, Extends now t (f t)) : Extends now (w.script i) ((w.modScript s f).script i) := by
  rw [script_modScript]
  split
  · exact hf _
  · exact Extends.refl _ _

theorem Act.extends {s : ℕ} {w w' : World F} (h : Act s w w') (i : ℕ) :
    Extends w.virtualNow (w.script i) (w'.script i) := by
  cases h with
  | grown h => exact .of_grown _ (h.script i)
  | sleep f => exact .refl _ _
  | setTimer f =>
    have hd : (Deed.setTimer f w.virtualNow).Plain w.virtualNow := rfl
    exact extends_modScript w s i fun t => .single hd rfl rfl
  | die => exact extends_modScript w s i fun t => .single (d := .flush .die) trivial rfl rfl
  | globals g => exact extends_modScript w s i fun t => .of_same rfl rfl
  | pending j => exact extends_modScript w s i fun t => .of_same rfl rfl
  | reset st =>
    exact extends_modScript w s i fun t => .single (d := .flush .reset) trivial rfl rfl

theorem Acts.extends {s : ℕ} {w w' : World F} (h : Acts s w w') (i : ℕ) :
    Extends w.virtualNow (w.script i) (w'.script i) := by
  induction h with
  | refl => exact .refl _ _
  | @tail u v huv hv ih =>
    have hn : u.virtualNow = w.virtualNow := (Acts.elsewhere huv).now
    exact ih.trans (hn ▸ hv.extends i)

/-- The three things that can happen to a script in one step. -/
inductive Happens (p : Phase) (w : World F) (i : ℕ) (t' : Script F) : Prop
  | taken (ev : Event F) : Takes p w i ev → Extends w.virtualNow (w.script i).pop t' →
    Happens p w i t'
  | fired (d : F) : p = .top → w.dueTimer = (d, some i) → i < w.scripts.length →
    t' = (w.script i).fire d → Happens p w i t'
  | plain : (∀ ev, ¬ Takes p w i ev) → Extends w.virtualNow (w.script i) t' → Happens p w i t'

/-! ### The search for a due timer -/

/-- The due times that `region_run` picks from. -/
def Script.dueBy (t : Script F) (el : F) : Bool :=
  CDouble.lt CDouble.zero t.timerInterval && CDouble.le t.timerDue el

/-- The script found is one whose timer is due. -/
theorem foldl_timerRound_mem (el : F) (ts : List (Script F × ℕ)) (b : F × Option ℕ) :
    ts.foldl (World.timerRound el) b = b ∨
      ∃ t ∈ ts, t.1.dueBy el ∧ ts.foldl (World.timerRound el) b = (t.1.timerDue, some t.2) := by
  induction ts generalizing b with
  | nil => exact .inl rfl
  | cons t ts ih =>
    rw [List.foldl_cons]
    by_cases hc : t.1.dueBy el && CDouble.lt t.1.timerDue b.1
    · have hr : World.timerRound el b t = (t.1.timerDue, some t.2) := if_pos hc
      rw [hr]
      rcases ih (t.1.timerDue, some t.2) with h | ⟨u, hu, h⟩
      · exact .inr ⟨t, List.mem_cons_self, (Bool.and_eq_true_iff.mp hc).1, h⟩
      · exact .inr ⟨u, List.mem_cons_of_mem _ hu, h⟩
    · have hr : World.timerRound el b t = b := if_neg hc
      rw [hr]
      exact (ih b).imp_right fun ⟨u, hu, h⟩ => ⟨u, List.mem_cons_of_mem _ hu, h⟩

theorem dueTimer_some {w : World F} {d : F} {i : ℕ} (h : w.dueTimer = (d, some i)) :
    i < w.scripts.length ∧ (w.script i).dueBy w.virtualOffset ∧ (w.script i).timerDue = d := by
  rcases foldl_timerRound_mem w.virtualOffset w.scripts.zipIdx
    (CDouble.add w.virtualOffset CDouble.one, none) with he | ⟨⟨t, j⟩, ht, hd, he⟩
  · rw [World.dueTimer, he] at h
    cases h
  · rw [World.dueTimer, he] at h
    obtain ⟨rfl, rfl⟩ : t.timerDue = d ∧ j = i := by
      simpa only [Prod.mk.injEq, Option.some.injEq] using h
    obtain ⟨hi, ht⟩ := List.mem_zipIdx' ht
    have hw : w.script j = t := by
      rw [World.script, List.getD_eq_getElem _ _ hi, ht]
    rw [hw]
    exact ⟨hi, hd, rfl⟩

/-- A search that found nothing met no timer due before its bound. -/
theorem foldl_timerRound_none (el : F) (ts : List (Script F × ℕ)) (b : F × Option ℕ)
    (h : (ts.foldl (World.timerRound el) b).2 = none) :
    b.2 = none ∧ ∀ t ∈ ts, t.1.dueBy el → CDouble.lt t.1.timerDue b.1 = false := by
  induction ts generalizing b with
  | nil => exact ⟨h, nofun⟩
  | cons t ts ih =>
    rw [List.foldl_cons] at h
    by_cases hc : t.1.dueBy el && CDouble.lt t.1.timerDue b.1
    · have hr : World.timerRound el b t = (t.1.timerDue, some t.2) := if_pos hc
      rw [hr] at h
      exact absurd (ih _ h).1 nofun
    · have hr : World.timerRound el b t = b := if_neg hc
      rw [hr] at h
      refine ⟨(ih b h).1, fun u hu hd => ?_⟩
      rcases List.mem_cons.mp hu with rfl | hu
      · rw [hd, Bool.true_and, Bool.not_eq_true] at hc
        exact hc
      · exact (ih b h).2 u hu hd

/-- When no timer fires, none is due before `virtual_offset + 1`. -/
theorem dueTimer_none {w : World F} {d : F} (h : w.dueTimer = (d, none)) (i : ℕ)
    (hi : i < w.scripts.length) (hd : (w.script i).dueBy w.virtualOffset) :
    CDouble.lt (w.script i).timerDue (CDouble.add w.virtualOffset CDouble.one) = false := by
  have hn := foldl_timerRound_none w.virtualOffset w.scripts.zipIdx
    (CDouble.add w.virtualOffset CDouble.one, none) (congrArg Prod.snd h)
  have hw : w.script i = w.scripts[i] := by rw [World.script, List.getD_eq_getElem _ _ hi]
  have hmem : (w.scripts[i], i) ∈ w.scripts.zipIdx :=
    List.mem_zipIdx_iff_getElem?.mpr (List.getElem?_eq_getElem hi)
  rw [hw] at hd ⊢
  exact hn.2 _ hmem hd

theorem dueTimer_of_core {w w' : World F} (h : w'.core = w.core) : w'.dueTimer = w.dueTimer := by
  have hs : w'.scripts = w.scripts := congrArg (fun c => c.1) h
  have ho : w'.virtualOffset = w.virtualOffset := congrArg (fun c => c.2.1.2.1) h
  rw [World.dueTimer, World.dueTimer, hs, ho]

/-! ### One step -/

theorem Told.extends {w w' : World F} (h : Told w w') (now : F) (i : ℕ) :
    Extends now (w.script i) (w'.script i) :=
  .of_grown _ (h.script i)

/-- A step in which no event comes off and no timer fires, for any script. -/
theorem Happens.of_phase {p : Phase} {w : World F} {i : ℕ} {t' : Script F}
    (hp : ∀ b, p ≠ .visit i b) (h : Extends w.virtualNow (w.script i) t') : Happens p w i t' :=
  .plain (fun _ ht => ht.1.elim hp) h

theorem Moves.happens {p p' : Phase} {w w' : World F} (h : Moves p w p' w') (i : ℕ) :
    Happens p w i (w'.script i) := by
  have hsame {u : World F} (hp : ∀ b, p ≠ .visit i b) (hc : u.core = w.core) :
      Happens p w i (u.script i) :=
    .of_phase hp (by rw [script_of_core hc]; exact .refl _ _)
  have hpush {u : World F} (hp : ∀ b, p ≠ .visit i b) (j : ℕ)
      (hu : Extends w.virtualNow (w.script i) (u.script i)) :
      Happens p w i ((u.pushEvent j (lit "state_entry") []).script i) :=
    .of_phase hp (hu.trans (.of_grown _ ((AllGrown.pushEvent u j (by decide) []).script i)))
  cases h with
  | load h => exact .of_phase (by simp) (.of_grown _ (h.script i))
  | @init _ u j hj h =>
    have hs : Extends w.virtualNow (u.script i) ((u.modScript j fun t =>
        { t with curState := startState t.prog t.curState }).script i) :=
      extends_modScript u j i fun t => .of_same rfl rfl
    exact hpush (by simp) j ((h.extends i).trans hs)
  | start hj h => exact hsame (by simp) h
  | @head _ u h =>
    rcases hd : u.dueTimer with ⟨d, _ | j⟩
    · rw [fireTimer_none hd]
      exact .of_phase (by simp) (.of_same (by rw [← script_of_core h]; rfl)
        (by rw [← script_of_core h]; rfl))
    · rw [fireTimer_some hd, script_modScript]
      have hd' : w.dueTimer = (d, some j) := (dueTimer_of_core h).symm.trans hd
      split
      · rename_i hi
        obtain ⟨rfl, hl⟩ := hi
        refine .fired d rfl hd' (dueTimer_some hd').1 ?_
        rw [← script_of_core h]
        rfl
      · exact .of_phase (by simp) (.of_same (by rw [← script_of_core h]; rfl)
          (by rw [← script_of_core h]; rfl))
  | limit h => exact hsame (by simp) h
  | around hj =>
    refine .plain (fun ev ht => ?_) (.refl _ _)
    obtain ⟨⟨b, hb⟩, hi, -⟩ := ht
    cases hb
    exact absurd hi (not_lt.mpr hj)
  | quiet hj =>
    refine .plain (fun ev ht => ?_) (.refl _ _)
    obtain ⟨⟨b, hb⟩, hi, -⟩ := ht
    cases hb
    exact absurd hi (not_lt.mpr hj)
  | skip hj hq =>
    refine .plain (fun ev ht => ?_) (.refl _ _)
    obtain ⟨⟨b, hb⟩, hi, hv⟩ := ht
    cases hb
    rw [hq] at hv
    cases hv
  | @ignore _ _ j b ev evs hj hq hh h =>
    by_cases hij : i = j
    · subst hij
      refine .taken ev ⟨⟨b, rfl⟩, hj, by rw [hq, List.head?_cons]⟩ ?_
      rw [script_of_core h, World.dequeue, World.modScript_script _ _ _ hj]
      exact .refl _ _
    · refine .of_phase (fun b' hb => hij (Phase.visit.inj hb).1.symm) ?_
      rw [script_of_core h, World.dequeue, World.modScript_script_ne _ _ _ _ hij]
      exact .refl _ _
  | @dispatch _ _ j b ev evs hj hq hh h =>
    have he := h.extends i
    by_cases hij : i = j
    · subst hij
      refine .taken ev ⟨⟨b, rfl⟩, hj, by rw [hq, List.head?_cons]⟩ ?_
      rwa [World.dequeue, World.modScript_script _ _ _ hj] at he
    · refine .of_phase (fun b' hb => hij (Phase.visit.inj hb).1.symm) ?_
      rwa [World.dequeue, World.modScript_script_ne _ _ _ _ hij] at he
  | settled h => exact hsame (by simp) rfl
  | @change _ j new h =>
    refine .of_phase (by simp) ?_
    exact extends_modScript w j i fun t => .single (d := .flush .stateChange) trivial rfl rfl
  | exit h => exact .of_phase (by simp) (h.extends i)
  | entry => exact hpush (by simp) _ (.refl _ _)
  | command h => exact .of_phase (by simp) (h.2.extends _ i)
  | settleDown h => exact hsame (by simp) rfl
  | drain h => exact .of_phase (by simp) (h.2.extends _ i)
  | drained h => exact hsame (by simp) rfl
  | save h => exact hsame (by simp) h

/-- The deeds that one step adds. -/
theorem Happens.deeds {p : Phase} {w : World F} {i : ℕ} {t' : Script F}
    (h : Happens p w i t') : ∃ ds, t'.history = (w.script i).history ++ ds ∧
      ((∀ d ∈ ds, d.Plain w.virtualNow ∨ d = .pop) ∨
        ∃ d, ds = [.push ⟨lit "timer", []⟩ (some d)] ∧ p = .top ∧ w.dueTimer = (d, some i)) := by
  cases h with
  | taken ev _ he =>
    obtain ⟨ds, hh, hp, -⟩ := he
    refine ⟨.pop :: ds, ?_, .inl fun d hd => ?_⟩
    · rw [hh, Script.pop, List.append_assoc, List.singleton_append]
    · exact (List.mem_cons.mp hd).elim .inr fun hd => .inl (hp d hd)
  | fired d hp hd _ he => exact ⟨_, he ▸ rfl, .inr ⟨d, rfl, hp, hd⟩⟩
  | plain _ he =>
    obtain ⟨ds, hh, hp, -⟩ := he
    exact ⟨ds, hh, .inl fun d hd => .inl (hp d hd)⟩

/-- What has happened to script `i` on the way to `w'`. -/
def newDeeds (w w' : World F) (i : ℕ) : List (Deed F) :=
  (w'.script i).history.drop (w.script i).history.length

/-- An event was queued for script `i`, other than by firing its timer. -/
def Sends (w w' : World F) (i : ℕ) (ev : Event F) : Prop := .push ev none ∈ newDeeds w w' i

theorem newDeeds_eq {w w' : World F} {i : ℕ} {ds : List (Deed F)}
    (h : (w'.script i).history = (w.script i).history ++ ds) : newDeeds w w' i = ds := by
  rw [newDeeds, h, List.drop_left]

/-! ### Whole runs -/

/-- Queue and timer are what the history says. -/
def Accounted (t : Script F) : Prop :=
  t.track = t.history.foldl Track.apply ⟨[], CDouble.zero, CDouble.zero⟩

theorem Accounted.extends {now : F} {t t' : Script F} (h : Accounted t)
    (he : Extends now t t') : Accounted t' := by
  obtain ⟨ds, hh, -, ht⟩ := he
  rw [Accounted, ht, hh, h, List.foldl_append]

theorem Accounted.pop {t : Script F} (h : Accounted t) : Accounted t.pop := by
  have ht : t.pop.track = t.track.apply .pop := rfl
  rw [Accounted, ht, h, Script.pop, List.foldl_append, List.foldl_cons, List.foldl_nil]

theorem Accounted.fire {t : Script F} (h : Accounted t) (d : F) : Accounted (t.fire d) := by
  have ht : (t.fire d).track = t.track.apply (.push ⟨lit "timer", []⟩ (some d)) := rfl
  have hh : (t.fire d).history = t.history ++ [.push ⟨lit "timer", []⟩ (some d)] := rfl
  rw [Accounted, ht, hh, h, List.foldl_append, List.foldl_cons, List.foldl_nil]

theorem Accounted.happens {p : Phase} {w : World F} {i : ℕ} {t' : Script F}
    (h : Accounted (w.script i)) (ht : Happens p w i t') : Accounted t' := by
  cases ht with
  | taken ev _ he => exact h.pop.extends he
  | fired d _ _ _ he => exact he ▸ h.fire d
  | plain _ he => exact h.extends he

namespace Conf

theorem Start.script {c : Conf F} (h : Start c) (i : ℕ) :
    Unstarted (c.script i) ∨ c.script i = default := by
  by_cases hi : i < c.world.scripts.length
  · refine .inl (h.scripts _ ?_)
    simp only [Conf.script, World.script, List.getD_eq_getElem _ _ hi, List.getElem_mem]
  · exact .inr (script_of_length_le _ i (not_lt.mp hi))

variable {lib : Lib F} {c : ℕ → Conf F} {n : ℕ}

theorem IsRun.moves (h : IsRun lib c n) {k : ℕ} (hk : k < n) :
    Moves (c k).phase (c k).world (c (k+1)).phase (c (k+1)).world :=
  (h.step k hk).moves

theorem IsRun.happens (h : IsRun lib c n) {k : ℕ} (hk : k < n) (i : ℕ) :
    Happens (c k).phase (c k).world i ((c (k+1)).script i) :=
  (h.moves hk).happens i

/-- What holds at the start and is kept by every move from a state where `Q` holds, holds
throughout a run whose states all meet `Q`. -/
theorem IsRun.invariant_of (h : IsRun lib c n) {Q R : Phase → World F → Prop}
    (h0 : R (c 0).phase (c 0).world) (hq : ∀ k < n, Q (c k).phase (c k).world)
    (hs : ∀ p w p' w', Q p w → R p w → Moves p w p' w' → R p' w') :
    ∀ k ≤ n, R (c k).phase (c k).world := by
  intro k
  induction k with
  | zero => exact fun _ => h0
  | succ k ih =>
    exact fun hk => hs _ _ _ _ (hq k hk) (ih (Nat.le_of_succ_le hk)) (h.moves hk)

/-- What holds at the start and is kept by every move holds throughout a run. -/
theorem IsRun.invariant (h : IsRun lib c n) {R : Phase → World F → Prop}
    (h0 : R (c 0).phase (c 0).world)
    (hs : ∀ p w p' w', R p w → Moves p w p' w' → R p' w') :
    ∀ k ≤ n, R (c k).phase (c k).world :=
  h.invariant_of (Q := fun _ _ => True) h0 (fun _ _ => trivial) fun p w p' w' _ => hs p w p' w'

theorem IsRun.accounted (h : IsRun lib c n) {k : ℕ} (hk : k ≤ n) (i : ℕ) :
    Accounted ((c k).script i) := by
  refine h.invariant (R := fun _ w => Accounted (w.script i)) ?_ ?_ k hk
  · rcases h.start.script i with hu | hd
    · change Accounted ((c 0).script i)
      rw [Accounted, Script.track, hu.evq, hu.history, hu.timerInterval, hu.timerDue,
        List.foldl_nil]
    · change Accounted ((c 0).script i)
      rw [hd]
      rfl
  · exact fun p w p' w' ha hm => ha.happens (hm.happens i)

end Conf

end Slemu
