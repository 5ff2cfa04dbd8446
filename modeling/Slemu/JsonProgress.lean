import Slemu.JsonBounds

/-! Which loops of the JSON functions make progress on any text, and when those of
`json_find_value` do not. -/

namespace Slemu
namespace JsonAt
open Relation
variable {F : Type}

/-- What is left of the text. -/
def left (s : Bytes) (p : ℤ) : ℕ := (s.length-p).toNat

theorem left_pos (s t : Bytes) : left s (pos s t) = t.length := by
  unfold left pos
  omega

/-- The loop that a step of a path runs, if it runs one, makes progress. -/
def StepProgresses (s : Bytes) (q : ℤ) : SValue F → Prop
  | .string k => read s q = .ok 123 → Loop.Progresses (left s) (keyTurn s k) (q+1)
  | .int want =>
    read s q = .ok 91 → Loop.Progresses (fun x => left s x.1) (idxTurn s want) (q+1, 0)
  | _ => True

/-- All the loops of a call of `json_find_value` make progress. -/
def FindProgresses (s : Bytes) : List (SValue F) → ℤ → Prop
  | [], _ => True
  | step :: path, p => ∀ q, skipWs s p = .ok q → StepProgresses s q step ∧
    ∀ fuel v, findStep s fuel step q = .ok (some v) → FindProgresses s path v

/-- The scan of the setters for a key makes progress. -/
def PutProgresses (s k : Bytes) : Prop :=
  ∀ q e, skipWs s 0 = .ok q → read s q = .ok 123 → close s 123 125 q = .ok (true, e) →
    Loop.Progresses (left s) (scanTurn s e k) (q+1)

/-- The loop of `bi_llJson2List` makes progress. -/
def ListProgresses (s : Bytes) : Prop :=
  ∀ q c, skipWs s 0 = .ok q → read s q = .ok c → c = 91 ∨ c = 123 →
    Loop.Progresses (fun x => left s x.1) (listTurn s (c = 123)) (q+1, [])

/-- A turn over the elements starts at a closing brace, and not for the element that is wanted. -/
inductive Stalls : SValue F → Bytes → Prop
  | intro {want i : ℤ} {json t u : Bytes} : jsonSkipWs json = 91 :: t →
    ElemsTo want (t, 0) (u, i) → i ≠ want → u.head? = some 125 → Stalls (.int want) json

/-- A step that does not get on: it goes round at a closing brace, or a key has no length. -/
def Stuck (step : SValue F) (json : Bytes) : Prop := KeyCut step json ∨ Stalls step json

/-! ### Members -/

theorem KeyNext.lt {k t u : Bytes} (h : KeyNext k t u) : u.length < t.length := by
  obtain ⟨-, m, hm, -, -, rfl⟩ := h
  exact jsonNext_lt (k := m.1) hm

theorem keyTurn_progresses {s t : Bytes} (h0 : 0 ∉ s) (h : Inside s t) (k : Bytes) :
    Loop.Progresses (left s) (keyTurn s k) (pos s t) ↔
      ¬ ∃ u, KeysTo k t u ∧ CutOff (jsonSkipWs u) := by
  constructor
  · rintro hp ⟨u, hu, hc⟩
    have hin := h.of_suffix hu.suffix
    have hturn := keyTurn_end h0 hin.1 hin.2 hc k
    rcases hp _ ((keys_comes h0 h k _).mpr ⟨u, hu, rfl⟩) with ⟨a, ha⟩ | ⟨z, hz, -⟩
    · rw [hturn] at ha
      cases ha
    · have hz' : keyTurn s k (pos s u) = .ok (.inl z) := hz
      rw [hturn] at hz'
      cases hz'
  · intro hn y hy
    obtain ⟨u, hu, rfl⟩ := (keys_comes h0 h k y).mp hy
    have hin := h.of_suffix hu.suffix
    have hturn := keyTurn_pos h0 hin.1 hin.2 (fun hc => hn ⟨u, hu, hc⟩) k
    cases hs : keyStep s k u with
    | inr a => exact .inl ⟨a, by rw [hturn, hs]⟩
    | inl z =>
      obtain ⟨u', hu', rfl⟩ := keyStep_inl.mp hs
      refine .inr ⟨_, (keyTurn_next h0 hin k _).mpr ⟨u', hu', rfl⟩, ?_⟩
      rw [left_pos, left_pos]
      exact hu'.lt

/-! ### Elements -/

/-- A turn over the elements takes something off the text, unless it starts at a bracket. -/
theorem elem_lt {u : Bytes} (hne : u ≠ []) (h125 : u.head? ≠ some 125)
    (h93 : (jsonSkipWs u).head? ≠ some 93) :
    (jsonComma (jsonSkipWs (jsonWalk (jsonSkipWs u)))).length < u.length := by
  cases u with
  | nil => exact absurd rfl hne
  | cons c t =>
    by_cases hw : Json.isWs c
    · -- a blank is gone in any case
      have hs : jsonSkipWs (c :: t) = jsonSkipWs t := List.dropWhile_cons_of_pos hw
      rw [hs]
      exact Nat.lt_succ_of_le (jsonListNext_le t)
    · have hw' : Json.isWs c = false := by simpa using hw
      rw [jsonSkipWs_cons t hw'] at h93
      have hlt : (jsonListEntry false (c :: t)).2.length < (c :: t).length :=
        jsonListEntry_lt hw' (fun h => h125 (congrArg some h)) (fun h => h93 (congrArg some h))
      exact hlt

/-- At a closing brace nothing is taken off. -/
theorem brace_stays (t : Bytes) :
    jsonSkipWs (125 :: t) = 125 :: t ∧ jsonWalk (125 :: t) = 125 :: t := by
  have hs : jsonSkipWs (125 :: t) = 125 :: t := jsonSkipWs_cons t rfl
  refine ⟨hs, ?_⟩
  rw [jsonWalk, hs]
  exact List.dropWhile_cons_of_neg (by decide)

theorem idxStep_brace (s t : Bytes) {want i : ℤ} (hi : i ≠ want) :
    idxStep s want (125 :: t) i = .inl (pos s (125 :: t), i+1) := by
  obtain ⟨hs, hw⟩ := brace_stays t
  unfold idxStep
  rw [hs, hw, hs, if_neg (by simp), if_neg hi, if_neg (by simp)]
  rfl

theorem idxTurn_progresses {s t : Bytes} (h0 : 0 ∉ s) (h : t <:+ s) (want : ℤ) :
    Loop.Progresses (fun x => left s x.1) (idxTurn s want) (pos s t, 0) ↔
      ¬ ∃ u i, ElemsTo want (t, 0) (u, i) ∧ i ≠ want ∧ u.head? = some 125 := by
  constructor
  · rintro hp ⟨u, i, hu, hi, hb⟩
    obtain ⟨v, rfl⟩ : ∃ v, u = 125 :: v := by
      cases u with
      | nil => cases hb
      | cons c v => exact ⟨v, by rw [Option.some.inj hb]⟩
    have hturn := idxTurn_pos h0 (hu.suffix.trans h) want i
    rw [idxStep_brace s v hi] at hturn
    rcases hp _ ((elems_comes h0 h want _).mpr ⟨_, hu, rfl⟩) with ⟨a, ha⟩ | ⟨z, hz, hlt⟩
    · rw [hturn] at ha
      cases ha
    · have hz' : idxTurn s want (pos s (125 :: v), i) = .ok (.inl z) := hz
      rw [hturn] at hz'
      cases hz'
      exact absurd hlt (lt_irrefl _)
  · intro hn y hy
    obtain ⟨⟨u, i⟩, hu, rfl⟩ := (elems_comes h0 h want y).mp hy
    have hsuf := hu.suffix.trans h
    have hturn := idxTurn_pos h0 hsuf want i
    cases hs : idxStep s want u i with
    | inr a => exact .inl ⟨a, by rw [hturn, hs]⟩
    | inl z =>
      obtain ⟨x, hx, rfl⟩ := idxStep_inl.mp hs
      refine .inr ⟨_, by unfold Loop.Turn; rw [hturn, hs], ?_⟩
      obtain ⟨hne, hi, h93, -, rfl⟩ := hx
      dsimp only
      rw [left_pos, left_pos]
      exact elem_lt hne (fun hb => hn ⟨u, i, hu, hi, hb⟩) h93

/-! ### Paths -/

theorem stepProgresses_iff {s json : Bytes} (h0 : 0 ∉ s) (hj : json <:+ s) (step : SValue F) :
    StepProgresses s (pos s (jsonSkipWs json)) step ↔ ¬ Stuck step json := by
  have hs := (jsonSkipWs_suffix json).trans hj
  have hread := read_pos hs
  have hcons {c : UInt8} (hc : c ≠ 0) (h : read s (pos s (jsonSkipWs json)) = .ok c) :
      ∃ t, jsonSkipWs json = c :: t := by
    rw [hread, Except.ok.injEq, headD_eq_iff hc] at h
    exact List.head?_eq_some_iff.mp h
  have hfirst {c : UInt8} {t : Bytes} (h : jsonSkipWs json = c :: t) :
      read s (pos s (jsonSkipWs json)) = .ok c ∧ pos s (jsonSkipWs json)+1 = pos s t := by
    rw [hread, h]
    exact ⟨rfl, pos_cons s c t⟩
  cases step with
  | string k =>
    constructor
    · rintro hp (hc | hc)
      · cases hc with
        | @intro _ _ t u ht hu hc =>
          have hprog := hp (hfirst ht).1
          rw [(hfirst ht).2] at hprog
          exact (keyTurn_progresses h0 (bracket_inside hj ht) k).mp hprog ⟨u, hu, hc⟩
      · cases hc
    · intro hn h123
      obtain ⟨t, ht⟩ := hcons (by decide) h123
      rw [(hfirst ht).2]
      refine (keyTurn_progresses h0 (bracket_inside hj ht) k).mpr ?_
      rintro ⟨u, hu, hc⟩
      exact hn (.inl (.intro ht hu hc))
  | int want =>
    constructor
    · rintro hp (hc | hc)
      · cases hc
      · cases hc with
        | @intro _ i _ t u ht hu hi hb =>
          have hprog := hp (hfirst ht).1
          rw [(hfirst ht).2] at hprog
          exact (idxTurn_progresses h0 (bracket_inside hj ht).1 want).mp hprog ⟨u, i, hu, hi, hb⟩
    · intro hn h91
      obtain ⟨t, ht⟩ := hcons (by decide) h91
      rw [(hfirst ht).2]
      refine (idxTurn_progresses h0 (bracket_inside hj ht).1 want).mpr ?_
      rintro ⟨u, i, hu, hi, hb⟩
      exact hn (.inr (.intro ht hu hi hb))
  | _ =>
    refine iff_of_true trivial ?_
    rintro (hc | hc) <;> cases hc

theorem findProgresses_iff {s json : Bytes} (h0 : 0 ∉ s) (hj : json <:+ s)
    (path : List (SValue F)) :
    FindProgresses s path (pos s json) ↔ ¬ OnPath Stuck path json := by
  induction path generalizing json with
  | nil => exact iff_of_true trivial nofun
  | cons step path ih =>
    have hskip := skipWs_pos hj
    constructor
    · intro hp hon
      obtain ⟨hstep, hrest⟩ := hp _ hskip
      cases hon with
      | here hb => exact (stepProgresses_iff h0 hj step).mp hstep hb
      | down hv hb =>
        obtain ⟨n, hn⟩ := findStep_of_stepTo h0 hj hv
        exact (ih (hv.suffix.trans hj)).mp (hrest n _ (hn n le_rfl)) hb
    · intro hn q hq
      rw [hskip, Except.ok.injEq] at hq
      subst hq
      refine ⟨(stepProgresses_iff h0 hj step).mpr fun hb => hn (.here hb), ?_⟩
      intro fuel v hv
      obtain ⟨v, hto, rfl⟩ := findStep_some h0 hj hv
      exact (ih (hto.suffix.trans hj)).mpr fun hb => hn (.down hto hb)

theorem left_lt {s t : Bytes} (h : Inside s t) {fuel : ℕ} (hf : s.length < fuel) :
    left s (pos s t) < fuel := by
  rw [left_pos]
  have hl := h.1.length_le
  omega

/-- With a turn for every character and one more, a step that makes progress ends. -/
theorem findStep_ends {s json : Bytes} (h0 : 0 ∉ s) (hj : json <:+ s) {step : SValue F}
    (h : ¬ Stuck step json) {fuel : ℕ} (hf : s.length < fuel) :
    ∃ r, findAt s json fuel step = .ok r := by
  rcases findStep_cases hj step with ⟨k, t, rfl, ht⟩ | ⟨want, t, rfl, ht⟩ | hn
  · have hin := bracket_inside hj ht
    rw [findStep_key hj ht]
    refine Loop.Progresses.ends ((keyTurn_progresses h0 hin k).mpr ?_) (left_lt hin hf)
    rintro ⟨u, hu, hc⟩
    exact h (.inl (.intro ht hu hc))
  · have hin := bracket_inside hj ht
    rw [findStep_idx hj ht]
    refine Loop.Progresses.ends ((idxTurn_progresses h0 hin.1 want).mpr ?_) (left_lt hin hf)
    rintro ⟨u, i, hu, hi, hb⟩
    exact h (.inr (.intro ht hu hi hb))
  · exact ⟨none, hn fuel⟩

theorem findValue_ends {s json : Bytes} (h0 : 0 ∉ s) (hj : json <:+ s) {path : List (SValue F)}
    (h : ¬ OnPath Stuck path json) {fuel : ℕ} (hf : s.length < fuel) :
    ∃ r, findValue s fuel path (pos s json) = .ok r := by
  induction path generalizing json with
  | nil =>
    rw [findValue, skipWs_pos hj]
    exact ⟨_, rfl⟩
  | cons step path ih =>
    obtain ⟨o, ho⟩ := findStep_ends h0 hj (fun hb => h (.here hb)) hf
    rw [findValue_cons hj, ho, ok_bind]
    cases o with
    | none => exact ⟨_, rfl⟩
    | some q =>
      obtain ⟨v, hv, rfl⟩ := findStep_some h0 hj ho
      dsimp only
      split
      · exact ⟨_, rfl⟩
      · exact ih (hv.suffix.trans hj) fun hb => h (.down hv hb)

/-! ### Setters and lists -/

theorem scanTurn_progresses {s t e : Bytes} (h0 : 0 ∉ s) (h : Inside s t) (he : e ≠ [])
    (k : Bytes) : Loop.Progresses (left s) (scanTurn s (pos s e) k) (pos s t) := by
  intro y hy
  obtain ⟨u, hu, -, rfl⟩ := scan_comes h0 h he hy
  have hturn := scanTurn_pos h0 hu.1 hu.2 he k
  cases hs : scanStep s e k u with
  | inr a => exact .inl ⟨a, by rw [hturn, hs]⟩
  | inl z =>
    refine .inr ⟨z, by unfold Loop.Turn; rw [hturn, hs], ?_⟩
    unfold scanStep at hs
    split at hs
    · cases hs
    · split at hs
      · cases hs
      · rename_i m hm
        split at hs
        · cases hs
        · cases hs
          rw [left_pos, left_pos]
          exact jsonNext_lt (k := m.1) hm

/-- An entry of a list takes something off the text. -/
theorem ListNext.lt {isObj : Bool} {x y : Bytes × List Bytes} (h : ListNext isObj x y) :
    y.1.length < x.1.length := by
  obtain ⟨hne, h125, h93, -, rfl⟩ := h
  dsimp only
  have hs := jsonSkipWs_le x.1
  cases hj : jsonSkipWs x.1 with
  | nil =>
    have hnil := List.suffix_nil.mp (jsonListEntry_suffix isObj [])
    rw [hnil]
    exact List.length_pos_iff.mpr hne
  | cons c t =>
    rw [hj] at hs h125 h93
    have hlt : (jsonListEntry isObj (c :: t)).2.length < (c :: t).length :=
      jsonListEntry_lt (jsonSkipWs_head hj) (fun h => h125 (congrArg some h))
        (fun h => h93 (congrArg some h))
    omega

theorem listTurn_progresses {s t : Bytes} (h0 : 0 ∉ s) (h : Inside s t) (isObj : Bool) :
    Loop.Progresses (fun x => left s x.1) (listTurn s isObj) (pos s t, []) ↔
      ¬ (isObj ∧ ∃ x, ListTo true (t, []) x ∧ CutOff (jsonSkipWs x.1)) := by
  constructor
  · rintro hp ⟨rfl, x, hx, hc⟩
    have hin := h.of_suffix hx.suffix
    have hturn := listTurn_end h0 hin.1 hin.2 hc x.2
    rcases hp _ ((list_comes h0 h _).mpr ⟨x, hx, rfl⟩) with ⟨a, ha⟩ | ⟨z, hz, -⟩
    · rw [hturn] at ha
      cases ha
    · have hz' : listTurn s true (pos s x.1, x.2) = .ok (.inl z) := hz
      rw [hturn] at hz'
      cases hz'
  · intro hn y hy
    obtain ⟨x, hx, rfl⟩ := (list_comes h0 h y).mp hy
    have hin := h.of_suffix hx.suffix
    have hc : ¬ (isObj = true ∧ CutOff (jsonSkipWs x.1)) := by
      rintro ⟨rfl, hc⟩
      exact hn ⟨rfl, x, hx, hc⟩
    have hturn := listTurn_pos h0 hin.1 hin.2 hc x.2
    cases hs : listStep s isObj x.1 x.2 with
    | inr a => exact .inl ⟨a, by rw [hturn, hs]⟩
    | inl z =>
      have hz : Loop.Turn (listTurn s isObj) (pos s x.1, x.2) z := by
        unfold Loop.Turn
        rw [hturn, hs]
      obtain ⟨x', hx', rfl⟩ := (listTurn_next h0 hin z).mp hz
      refine .inr ⟨_, hz, ?_⟩
      dsimp only
      rw [left_pos, left_pos]
      exact hx'.lt

/-- An object and the brace that closes it. -/
theorem putProgresses {s : Bytes} (h0 : 0 ∉ s) (k : Bytes) : PutProgresses s k := by
  intro q e hq h123 hclose
  rw [pos_self s, skipWs_pos List.suffix_rfl, Except.ok.injEq] at hq
  subst hq
  have hs := jsonSkipWs_suffix s
  rw [read_pos hs, Except.ok.injEq, headD_eq_iff (by decide)] at h123
  obtain ⟨t, ht⟩ := List.head?_eq_some_iff.mp h123
  rw [ht] at hs hclose ⊢
  rw [close_pos h0 123 125 hs, Except.ok.injEq] at hclose
  cases hc : jsonClose 123 125 0 (123 :: t) with
  | none =>
    rw [hc] at hclose
    cases hclose
  | some u =>
    rw [hc] at hclose
    cases hclose
    obtain ⟨-, d, v, rfl⟩ := jsonClose_some hc
    rw [pos_cons]
    exact scanTurn_progresses h0 (.of_bracket hs) (by simp) k

/-- Both setters end, and with nothing wrong. -/
theorem put_ends {s : Bytes} (h0 : 0 ∉ s) (k new : Bytes) {fuel : ℕ} (hf : s.length < fuel) :
    ∃ r, put s fuel k new = .ok r := by
  rcases put_cases h0 k new with ⟨out, ho⟩ | ⟨body, e, hb, he, hne, hp⟩
  · exact ⟨out, ho fuel⟩
  · obtain ⟨r, hr⟩ := (scanTurn_progresses h0 hb hne k).ends (o := .endless) (left_lt hb hf)
    obtain ⟨out, ho⟩ := putInto_ok h0 hb he hne new hr
    exact ⟨out, by rw [hp, ho]⟩

theorem listProgresses_iff {s : Bytes} (h0 : 0 ∉ s) : ListProgresses s ↔ ¬ ListCut s := by
  have hs := jsonSkipWs_suffix s
  have hskip : skipWs s 0 = .ok (pos s (jsonSkipWs s)) := by
    rw [pos_self s]
    exact skipWs_pos List.suffix_rfl
  constructor
  · rintro hp ⟨t, x, ht, hx, hc⟩
    have hprog := hp _ 123 hskip (by rw [read_pos hs, ht]; rfl) (.inr rfl)
    rw [ht, pos_cons] at hprog
    exact (listTurn_progresses h0 (bracket_inside List.suffix_rfl ht) true).mp hprog
      ⟨rfl, x, hx, hc⟩
  · intro hn q c hq hc hb
    rw [hskip, Except.ok.injEq] at hq
    subst hq
    have hc0 : c ≠ 0 := by
      rcases hb with rfl | rfl <;> decide
    rw [read_pos hs, Except.ok.injEq, headD_eq_iff hc0] at hc
    obtain ⟨t, ht⟩ := List.head?_eq_some_iff.mp hc
    rw [ht, pos_cons]
    refine (listTurn_progresses h0 (bracket_inside List.suffix_rfl ht) _).mpr ?_
    rintro ⟨h123, x, hx, hcut⟩
    have hc123 : c = 123 := of_decide_eq_true h123
    subst hc123
    exact hn ⟨t, x, ht, hx, hcut⟩

theorem llJson2List_ends {s : Bytes} (h0 : 0 ∉ s) (h : ¬ ListCut s) {fuel : ℕ}
    (hf : s.length < fuel) : ∃ r, llJson2List fuel [.string (F := F) s] = .ok r := by
  rcases llJson2List_cases (F := F) s with ⟨c, t, -, ht, hrun⟩ | ⟨-, r, hr⟩
  · have hin := bracket_inside List.suffix_rfl ht
    have hp := (listTurn_progresses h0 hin (c = 123)).mpr (by
      rintro ⟨h123, x, hx, hcut⟩
      have hc123 : c = 123 := of_decide_eq_true h123
      subst hc123
      exact h ⟨t, x, ht, hx, hcut⟩)
    obtain ⟨l, hl⟩ := hp.ends (o := .endless) (left_lt hin hf)
    exact ⟨_, by rw [hrun, hl]; rfl⟩
  · exact ⟨r, hr fuel⟩

/-! ### Progress -/

/-- For every text and path: all turns of the loops of `json_find_value` return or take something
off the text, and it ends, exactly if it never gets stuck. The setters always get on, and
`llJson2List` unless a key has no length. A turn for every character and one more are enough. -/
theorem json_progress_iff {s : Bytes} (h0 : 0 ∉ s) (path : List (SValue F)) (k new : Bytes) :
    ((FindProgresses s path 0 ∧ ∀ fuel, s.length < fuel → ∃ r, findValue s fuel path 0 = .ok r) ↔
      ¬ OnPath Stuck path s) ∧
    (PutProgresses s k ∧ ∀ fuel, s.length < fuel → ∃ r, put s fuel k new = .ok r) ∧
    ((ListProgresses s ∧ ∀ fuel, s.length < fuel →
      ∃ r, llJson2List fuel [.string (F := F) s] = .ok r) ↔ ¬ ListCut s) := by
  have hfind := findProgresses_iff h0 List.suffix_rfl path
  refine ⟨?_, ⟨putProgresses h0 k, fun fuel hf => put_ends h0 k new hf⟩, ?_⟩
  · rw [pos_self s]
    constructor
    · exact fun h => hfind.mp h.1
    · exact fun h => ⟨hfind.mpr h, fun fuel hf => findValue_ends h0 List.suffix_rfl h hf⟩
  · constructor
    · exact fun h => (listProgresses_iff h0).mp h.1
    · exact fun h => ⟨(listProgresses_iff h0).mpr h, fun fuel hf => llJson2List_ends h0 h hf⟩

theorem json_progress_array :
    ((FindProgresses (lit "[1") [.int (F := ℚ) 0] 0 ∧ ∀ fuel, (lit "[1").length < fuel →
      ∃ r, findValue (lit "[1") fuel [.int (F := ℚ) 0] 0 = .ok r) ↔
        ¬ OnPath Stuck [.int (F := ℚ) 0] (lit "[1")) ∧
    (PutProgresses (lit "[1") (lit "a") ∧ ∀ fuel, (lit "[1").length < fuel →
      ∃ r, put (lit "[1") fuel (lit "a") (lit "2") = .ok r) ∧
    ((ListProgresses (lit "[1") ∧ ∀ fuel, (lit "[1").length < fuel →
      ∃ r, llJson2List fuel [.string (F := ℚ) (lit "[1")] = .ok r) ↔ ¬ ListCut (lit "[1")) :=
  json_progress_iff (by decide +kernel) [.int 0] (lit "a") (lit "2")

/-- At a closing brace in an array, `json_find_value` looks for the element before the first one
for ever. -/
theorem json_find_endless : ¬ FindProgresses (lit "[\x7d") [.int (F := ℚ) (-1)] 0 ∧
    ∀ fuel, findValue (lit "[\x7d") fuel [.int (F := ℚ) (-1)] 0 = .error .endless := by
  have h0 : 0 ∉ lit "[\x7d" := by decide +kernel
  have hskip : jsonSkipWs (lit "[\x7d") = 91 :: [125] := by decide +kernel
  constructor
  · rw [pos_self (lit "[\x7d"), findProgresses_iff h0 List.suffix_rfl]
    exact not_not.mpr (.here (.inr (.intro hskip .refl (by decide) rfl)))
  · intro fuel
    have hrun : ∀ n (i : ℤ), 0 ≤ i →
        Loop.run (idxTurn (lit "[\x7d") (-1)) .endless n (pos (lit "[\x7d") [125], i) =
          .error .endless := by
      intro n
      induction n with
      | zero => exact fun _ _ => rfl
      | succ n ih =>
        intro i hi
        have hturn : Loop.Turn (idxTurn (lit "[\x7d") (-1)) (pos (lit "[\x7d") [125], i)
            (pos (lit "[\x7d") [125], i+1) := by
          unfold Loop.Turn
          rw [idxTurn_pos h0 (by decide +kernel), idxStep_brace _ _ (by omega)]
        rw [Loop.run_turn hturn]
        exact ih (i+1) (by omega)
    have hfind := findValue_cons (s := lit "[\x7d") List.suffix_rfl fuel (.int (F := ℚ) (-1)) []
    rw [findStep_idx List.suffix_rfl hskip, hrun fuel 0 le_rfl] at hfind
    rw [pos_self (lit "[\x7d"), hfind]
    rfl

end JsonAt
end Slemu
