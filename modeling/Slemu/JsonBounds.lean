import Slemu.JsonPointers

/-! Where the JSON functions leave the text they are given: at a double quote that is its last
character, if that is where a key is looked for. -/

namespace Slemu
namespace JsonAt
open Relation
variable {F : Type}

/-! ### Turns -/

theorem headD_eq_iff {t : Bytes} {c : UInt8} (hc : c ≠ 0) : t.headD 0 = c ↔ t.head? = some c := by
  cases t with
  | nil => exact ⟨fun h => absurd h.symm hc, nofun⟩
  | cons d t => exact ⟨congrArg some, Option.some.inj⟩

theorem pos_skipWs {s t : Bytes} (hp : 0 < pos s t) : 0 < pos s (jsonSkipWs t) := by
  have hl := jsonSkipWs_le t
  unfold pos at hp ⊢
  omega

/-- What a turn over the members does, on the text behind the pointer. -/
def keyStep (s k t : Bytes) : ℤ ⊕ Option ℤ :=
  if t = [] then .inr none
  else match jsonMember (jsonSkipWs t) with
    | none => .inr none
    | some m =>
      if m.1 = k then .inr (some (pos s m.2))
      else if (jsonSkipWs (jsonWalk m.2)).head? = some 125 then .inr none
      else .inl (pos s (jsonComma (jsonSkipWs (jsonWalk m.2))))

theorem keyTurn_pos {s t : Bytes} (h0 : 0 ∉ s) (h : t <:+ s) (hp : 0 < pos s t)
    (hc : ¬ CutOff (jsonSkipWs t)) (k : Bytes) :
    keyTurn s k (pos s t) = .ok (keyStep s k t) := by
  have hu := (jsonSkipWs_suffix t).trans h
  unfold keyTurn keyStep
  rw [read_pos h, ok_bind]
  by_cases ht : t = []
  · rw [if_pos ht, ht, List.headD_nil, if_pos rfl]
    rfl
  · have hne : t.headD 0 ≠ 0 := by
      cases t with
      | nil => exact absurd rfl ht
      | cons c t => exact suffix_ne_zero h0 h
    rw [if_neg hne, if_neg ht, skipWs_pos h, ok_bind, member_pos h0 hu (pos_skipWs hp) hc, ok_bind]
    cases hm : jsonMember (jsonSkipWs t) with
    | none => rfl
    | some m =>
      have hv := (jsonMember_suffix hm).trans hu
      have hw := (jsonWalk_suffix m.2).trans hv
      have hs := (jsonSkipWs_suffix _).trans hw
      dsimp only [Option.map_some]
      rw [walk_pos h0 hv, ok_bind]
      by_cases hk : m.1 = k
      · rw [if_pos hk, if_pos hk]
        rfl
      · rw [if_neg hk, if_neg hk, skipWs_pos hw, ok_bind, read_pos hs, ok_bind]
        by_cases h125 : (jsonSkipWs (jsonWalk m.2)).head? = some 125
        · rw [if_pos h125, if_pos ((headD_eq_iff (by decide)).mpr h125)]
          rfl
        · rw [if_neg h125, if_neg (fun hn => h125 ((headD_eq_iff (by decide)).mp hn)),
            comma_pos hs]
          rfl

theorem keyTurn_end {s t : Bytes} (h0 : 0 ∉ s) (h : t <:+ s) (hp : 0 < pos s t)
    (hc : CutOff (jsonSkipWs t)) (k : Bytes) : keyTurn s k (pos s t) = .error .badCopy := by
  have hu := (jsonSkipWs_suffix t).trans h
  have hp' := pos_skipWs hp
  have hcut : jsonSkipWs t = [34] := hc
  have hne : t.headD 0 ≠ 0 := by
    cases t with
    | nil => exact absurd hcut (by decide)
    | cons c t => exact suffix_ne_zero h0 h
  unfold keyTurn
  rw [hcut] at hu hp'
  rw [read_pos h, ok_bind, if_neg hne, skipWs_pos h, ok_bind, hcut, member_end h0 hu hp']
  rfl

/-- What a turn over the elements does. -/
def idxStep (s : Bytes) (want : ℤ) (t : Bytes) (idx : ℤ) : (ℤ × ℤ) ⊕ Option ℤ :=
  if t = [] ∨ (jsonSkipWs t).head? = some 93 then .inr none
  else if idx = want then .inr (some (pos s (jsonSkipWs t)))
  else if (jsonSkipWs (jsonWalk (jsonSkipWs t))).head? = some 93 then .inr none
  else .inl (pos s (jsonComma (jsonSkipWs (jsonWalk (jsonSkipWs t)))), idx+1)

theorem idxTurn_pos {s t : Bytes} (h0 : 0 ∉ s) (h : t <:+ s) (want idx : ℤ) :
    idxTurn s want (pos s t, idx) = .ok (idxStep s want t idx) := by
  have hu := (jsonSkipWs_suffix t).trans h
  have hw := (jsonWalk_suffix (jsonSkipWs t)).trans hu
  have hs := (jsonSkipWs_suffix _).trans hw
  unfold idxTurn idxStep
  rw [read_pos h, ok_bind]
  by_cases ht : t = []
  · rw [if_pos (Or.inl ht), ht, List.headD_nil, if_pos rfl]
    rfl
  · have hne : t.headD 0 ≠ 0 := by
      cases t with
      | nil => exact absurd rfl ht
      | cons c t => exact suffix_ne_zero h0 h
    rw [if_neg hne, skipWs_pos h, ok_bind, read_pos hu, ok_bind]
    by_cases h93 : (jsonSkipWs t).head? = some 93
    · rw [if_pos (Or.inr h93), if_pos ((headD_eq_iff (by decide)).mpr h93)]
      rfl
    · rw [if_neg (not_or.mpr ⟨ht, h93⟩),
        if_neg (fun hn => h93 ((headD_eq_iff (by decide)).mp hn)), walk_pos h0 hu, ok_bind]
      by_cases hi : idx = want
      · rw [if_pos hi, if_pos hi]
        rfl
      · rw [if_neg hi, if_neg hi, skipWs_pos hw, ok_bind, read_pos hs, ok_bind]
        by_cases hb : (jsonSkipWs (jsonWalk (jsonSkipWs t))).head? = some 93
        · rw [if_pos hb, if_pos ((headD_eq_iff (by decide)).mpr hb)]
          rfl
        · rw [if_neg hb, if_neg (fun hn => hb ((headD_eq_iff (by decide)).mp hn)), comma_pos hs]
          rfl

/-- What a turn of the scan of the setters does. -/
def scanStep (s e k t : Bytes) : ℤ ⊕ Option (ℤ × ℤ) :=
  if t.length ≤ e.length ∨ (jsonSkipWs t).length ≤ e.length then .inr none
  else match jsonMember (jsonSkipWs t) with
    | none => .inr none
    | some m =>
      if m.1 = k then .inr (some (pos s m.2, pos s (jsonWalk m.2)))
      else .inl (pos s (jsonComma (jsonSkipWs (jsonWalk m.2))))

theorem pos_lt_iff {s t u : Bytes} : pos s t < pos s u ↔ u.length < t.length := by
  unfold pos
  omega

/-- Before the closing brace, a quote is never the last character. -/
theorem scanTurn_pos {s t e : Bytes} (h0 : 0 ∉ s) (h : t <:+ s) (hp : 0 < pos s t) (he : e ≠ [])
    (k : Bytes) : scanTurn s (pos s e) k (pos s t) = .ok (scanStep s e k t) := by
  have hu := (jsonSkipWs_suffix t).trans h
  unfold scanTurn scanStep
  by_cases ht : t.length ≤ e.length
  · rw [if_pos (Or.inl ht), if_neg (fun hn => by have := pos_lt_iff.mp hn; omega)]
    rfl
  · rw [if_pos (pos_lt_iff.mpr (not_le.mp ht)), skipWs_pos h, ok_bind]
    by_cases hl : (jsonSkipWs t).length ≤ e.length
    · rw [if_pos (Or.inr hl), if_pos (not_lt.mp fun hn => by have := pos_lt_iff.mp hn; omega)]
      rfl
    · have hc : ¬ CutOff (jsonSkipWs t) := by
        intro hn
        have hcut : jsonSkipWs t = [34] := hn
        have hpos := List.length_pos_iff.mpr he
        rw [hcut, List.length_singleton] at hl
        omega
      rw [if_neg (not_or.mpr ⟨ht, hl⟩), if_neg (not_le.mpr (pos_lt_iff.mpr (not_le.mp hl))),
        member_pos h0 hu (pos_skipWs hp) hc, ok_bind]
      cases hm : jsonMember (jsonSkipWs t) with
      | none => rfl
      | some m =>
        have hv := (jsonMember_suffix hm).trans hu
        have hw := (jsonWalk_suffix m.2).trans hv
        have hs := (jsonSkipWs_suffix _).trans hw
        dsimp only [Option.map_some]
        rw [walk_pos h0 hv, ok_bind]
        by_cases hk : m.1 = k
        · rw [if_pos hk, if_pos hk]
          rfl
        · rw [if_neg hk, if_neg hk, skipWs_pos hw, ok_bind, comma_pos hs]
          rfl

/-- What a turn of the loop of `bi_llJson2List` does. -/
def listStep (s : Bytes) (isObj : Bool) (t : Bytes) (acc : List Bytes) :
    (ℤ × List Bytes) ⊕ List Bytes :=
  if t = [] ∨ (jsonSkipWs t).head? = some 125 ∨ (jsonSkipWs t).head? = some 93 then .inr acc
  else .inl (pos s (jsonListEntry isObj (jsonSkipWs t)).2,
    acc ++ (jsonListEntry isObj (jsonSkipWs t)).1)

theorem jsonListKey_suffix (isObj : Bool) (t : Bytes) : (jsonListKey isObj t).2 <:+ t := by
  unfold jsonListKey
  split
  · rename_i u
    have hu := (jsonSkipWs_suffix (jsonStrEnd u)).trans
      ((jsonStrEnd_suffix u).trans (List.suffix_cons 34 u))
    dsimp only
    split
    · exact (List.tail_suffix _).trans hu
    · exact hu
  · exact List.suffix_rfl

theorem listKey_pos {s t : Bytes} (h0 : 0 ∉ s) (h : t <:+ s) (hp : 0 < pos s t) {isObj : Bool}
    (hc : ¬ (isObj ∧ CutOff t)) : listKey s isObj (pos s t) =
      .ok ((jsonListKey isObj t).1, pos s (jsonListKey isObj t).2) := by
  unfold listKey
  rw [read_pos h, ok_bind]
  by_cases hq : isObj = true ∧ t.headD 0 = 34
  · obtain ⟨rfl, hhead⟩ := hq
    obtain ⟨u, rfl⟩ : ∃ u, t = 34 :: u := by
      cases t with
      | nil => exact absurd hhead (by decide)
      | cons c t => exact ⟨t, congrArg (· :: t) hhead⟩
    have hu : u ≠ [] := by
      rintro rfl
      exact hc ⟨rfl, rfl⟩
    have hstr := (jsonStrEnd_suffix u).trans (tail_suffix h)
    have hv := (jsonSkipWs_suffix _).trans hstr
    rw [if_pos ⟨rfl, rfl⟩, keyOf_pos h0 h hp hu, ok_bind, skipWs_pos hstr, ok_bind, read_pos hv,
      ok_bind]
    have hk : jsonListKey true (34 :: u) = ([jsonKeyText u (jsonStrEnd u)],
        if (jsonSkipWs (jsonStrEnd u)).head? = some 58 then (jsonSkipWs (jsonStrEnd u)).tail
        else jsonSkipWs (jsonStrEnd u)) := rfl
    rw [hk]
    cases hj : jsonSkipWs (jsonStrEnd u) with
    | nil =>
      rw [if_neg (by decide), if_neg (by decide)]
      rfl
    | cons d v =>
      rw [hj] at hv
      by_cases h58 : d = 58
      · subst h58
        rw [if_pos (show (58 :: v).headD 0 = 58 from rfl), ptr_next hv, ok_bind,
          if_pos (show (58 :: v).head? = some 58 from rfl)]
        rfl
      · rw [if_neg (show (d :: v).headD 0 ≠ 58 from h58),
          if_neg (fun hn : (d :: v).head? = some 58 => h58 (Option.some.inj hn))]
        rfl
  · have hk : jsonListKey isObj t = ([], t) := by
      unfold jsonListKey
      split
      · exact absurd ⟨rfl, rfl⟩ hq
      · rfl
    rw [if_neg hq, hk]
    rfl

theorem listTurn_pos {s t : Bytes} (h0 : 0 ∉ s) (h : t <:+ s) (hp : 0 < pos s t) {isObj : Bool}
    (hc : ¬ (isObj ∧ CutOff (jsonSkipWs t))) (acc : List Bytes) :
    listTurn s isObj (pos s t, acc) = .ok (listStep s isObj t acc) := by
  have hu := (jsonSkipWs_suffix t).trans h
  unfold listTurn listStep
  rw [read_pos h, ok_bind]
  by_cases ht : t = []
  · rw [if_pos (Or.inl ht), ht, List.headD_nil, if_pos rfl]
    rfl
  · have hne : t.headD 0 ≠ 0 := by
      cases t with
      | nil => exact absurd rfl ht
      | cons c t => exact suffix_ne_zero h0 h
    have hhead (c : UInt8) (hc : c ≠ 0) := headD_eq_iff (t := jsonSkipWs t) hc
    rw [if_neg hne, skipWs_pos h, ok_bind, read_pos hu, ok_bind]
    by_cases hb : (jsonSkipWs t).head? = some 125 ∨ (jsonSkipWs t).head? = some 93
    · have hb' : (jsonSkipWs t).headD 0 = 125 ∨ (jsonSkipWs t).headD 0 = 93 :=
        hb.imp (hhead 125 (by decide)).mpr (hhead 93 (by decide)).mpr
      rw [if_pos (Or.inr hb), if_pos hb']
      rfl
    · have hb' : ¬ ((jsonSkipWs t).headD 0 = 125 ∨ (jsonSkipWs t).headD 0 = 93) :=
        fun hn => hb (hn.imp (hhead 125 (by decide)).mp (hhead 93 (by decide)).mp)
      have hk := (jsonListKey_suffix isObj (jsonSkipWs t)).trans hu
      have hv := (jsonSkipWs_suffix _).trans hk
      have hw := jsonWalk_suffix (jsonSkipWs (jsonListKey isObj (jsonSkipWs t)).2)
      have hs := (jsonSkipWs_suffix _).trans (hw.trans hv)
      rw [if_neg (not_or.mpr ⟨ht, hb⟩), if_neg hb', listKey_pos h0 hu (pos_skipWs hp) hc, ok_bind,
        skipWs_pos hk, ok_bind, walk_pos h0 hv, ok_bind, extractValue_pos hv hw, ok_bind,
        skipWs_pos (hw.trans hv), ok_bind, comma_pos hs]
      rfl

theorem listTurn_end {s t : Bytes} (h0 : 0 ∉ s) (h : t <:+ s) (hp : 0 < pos s t)
    (hc : CutOff (jsonSkipWs t)) (acc : List Bytes) :
    listTurn s true (pos s t, acc) = .error .badCopy := by
  have hu := (jsonSkipWs_suffix t).trans h
  have hp' := pos_skipWs hp
  have hcut : jsonSkipWs t = [34] := hc
  have hne : t.headD 0 ≠ 0 := by
    cases t with
    | nil => exact absurd hcut (by decide)
    | cons c t => exact suffix_ne_zero h0 h
  unfold listTurn listKey
  rw [hcut] at hu hp'
  rw [read_pos h, ok_bind, if_neg hne, skipWs_pos h, ok_bind, hcut, read_pos hu, ok_bind,
    if_neg (by decide), ok_bind, List.headD_cons, if_pos ⟨rfl, rfl⟩, keyOf_end h0 hu hp']
  rfl

/-! ### The way of a loop -/

/-- One member that is passed over on the way to a key. -/
def KeyNext (k t u : Bytes) : Prop :=
  t ≠ [] ∧ ∃ m, jsonMember (jsonSkipWs t) = some m ∧ m.1 ≠ k ∧
    (jsonSkipWs (jsonWalk m.2)).head? ≠ some 125 ∧ u = jsonComma (jsonSkipWs (jsonWalk m.2))

/-- One element that is passed over on the way to the one of an index, and the index it has. -/
def ElemNext (want : ℤ) (x y : Bytes × ℤ) : Prop :=
  x.1 ≠ [] ∧ x.2 ≠ want ∧ (jsonSkipWs x.1).head? ≠ some 93 ∧
    (jsonSkipWs (jsonWalk (jsonSkipWs x.1))).head? ≠ some 93 ∧
      y = (jsonComma (jsonSkipWs (jsonWalk (jsonSkipWs x.1))), x.2+1)

/-- One entry that is read into a list, and the list. -/
def ListNext (isObj : Bool) (x y : Bytes × List Bytes) : Prop :=
  x.1 ≠ [] ∧ (jsonSkipWs x.1).head? ≠ some 125 ∧ (jsonSkipWs x.1).head? ≠ some 93 ∧
    ¬ (isObj ∧ CutOff (jsonSkipWs x.1)) ∧
      y = ((jsonListEntry isObj (jsonSkipWs x.1)).2,
        x.2 ++ (jsonListEntry isObj (jsonSkipWs x.1)).1)

/-- Behind a member, its value and its comma. -/
theorem jsonMember_next {t : Bytes} {m : Bytes × Bytes} (hm : jsonMember (jsonSkipWs t) = some m) :
    jsonComma (jsonSkipWs (jsonWalk m.2)) <:+ t :=
  (jsonComma_suffix _).trans ((jsonSkipWs_suffix _).trans ((jsonWalk_suffix _).trans
    ((jsonMember_suffix hm).trans (jsonSkipWs_suffix t))))

theorem KeyNext.suffix {k t u : Bytes} (h : KeyNext k t u) : u <:+ t := by
  obtain ⟨-, m, hm, -, -, rfl⟩ := h
  exact jsonMember_next hm

theorem ElemNext.suffix {want : ℤ} {x y : Bytes × ℤ} (h : ElemNext want x y) : y.1 <:+ x.1 := by
  obtain ⟨-, -, -, -, rfl⟩ := h
  exact (jsonComma_suffix _).trans ((jsonSkipWs_suffix _).trans ((jsonWalk_suffix _).trans
    (jsonSkipWs_suffix x.1)))

theorem jsonListEntry_suffix (isObj : Bool) (t : Bytes) : (jsonListEntry isObj t).2 <:+ t :=
  (jsonComma_suffix _).trans ((jsonSkipWs_suffix _).trans ((jsonWalk_suffix _).trans
    ((jsonSkipWs_suffix _).trans (jsonListKey_suffix isObj t))))

theorem ListNext.suffix {isObj : Bool} {x y : Bytes × List Bytes} (h : ListNext isObj x y) :
    y.1 <:+ x.1 := by
  obtain ⟨-, -, -, -, rfl⟩ := h
  exact (jsonListEntry_suffix isObj _).trans (jsonSkipWs_suffix x.1)

abbrev KeysTo (k : Bytes) : Bytes → Bytes → Prop := ReflTransGen (KeyNext k)
abbrev ElemsTo (want : ℤ) : Bytes × ℤ → Bytes × ℤ → Prop := ReflTransGen (ElemNext want)
abbrev ListTo (isObj : Bool) : Bytes × List Bytes → Bytes × List Bytes → Prop :=
  ReflTransGen (ListNext isObj)

theorem KeysTo.suffix {k t u : Bytes} (h : KeysTo k t u) : u <:+ t := by
  induction h with
  | refl => exact List.suffix_rfl
  | tail _ hn ih => exact hn.suffix.trans ih

theorem ElemsTo.suffix {want : ℤ} {x y : Bytes × ℤ} (h : ElemsTo want x y) : y.1 <:+ x.1 := by
  induction h with
  | refl => exact List.suffix_rfl
  | tail _ hn ih => exact hn.suffix.trans ih

theorem ListTo.suffix {isObj : Bool} {x y : Bytes × List Bytes} (h : ListTo isObj x y) :
    y.1 <:+ x.1 := by
  induction h with
  | refl => exact List.suffix_rfl
  | tail _ hn ih => exact hn.suffix.trans ih

/-! ### Turns are the steps of the way -/

/-- A place inside a text, with something in front of it. -/
def Inside (s t : Bytes) : Prop := t <:+ s ∧ 0 < pos s t

theorem Inside.of_suffix {s t u : Bytes} (h : Inside s t) (hu : u <:+ t) : Inside s u := by
  refine ⟨hu.trans h.1, ?_⟩
  have hl := hu.length_le
  have hp := h.2
  unfold pos at hp ⊢
  omega

theorem Inside.of_bracket {s t : Bytes} {c : UInt8} (h : c :: t <:+ s) : Inside s t :=
  ⟨tail_suffix h, pos_pos h List.suffix_rfl⟩

theorem keyStep_inl {s k t : Bytes} {y : ℤ} :
    keyStep s k t = .inl y ↔ ∃ u, KeyNext k t u ∧ y = pos s u := by
  unfold keyStep KeyNext
  constructor
  · intro h
    split at h
    · cases h
    · rename_i ht
      split at h
      · cases h
      · rename_i m hm
        split at h
        · cases h
        · rename_i hk
          split at h
          · cases h
          · rename_i h125
            cases h
            exact ⟨_, ⟨ht, m, hm, hk, h125, rfl⟩, rfl⟩
  · rintro ⟨u, ⟨ht, m, hm, hk, h125, rfl⟩, rfl⟩
    rw [if_neg ht, hm]
    dsimp only
    rw [if_neg hk, if_neg h125]

theorem keyStep_some {s k t : Bytes} {q : ℤ} :
    keyStep s k t = .inr (some q) ↔ ∃ v, jsonMember (jsonSkipWs t) = some (k, v) ∧ q = pos s v := by
  unfold keyStep
  constructor
  · intro h
    split at h
    · cases h
    · split at h
      · cases h
      · rename_i m hm
        split at h
        · rename_i hk
          cases h
          exact ⟨m.2, by rw [hm, ← hk], rfl⟩
        · split at h <;> cases h
  · rintro ⟨v, hm, rfl⟩
    have ht : t ≠ [] := by
      rintro rfl
      cases hm
    rw [if_neg ht, hm]
    dsimp only
    rw [if_pos rfl]

theorem not_cutOff_of_member {t : Bytes} {m : Bytes × Bytes} (h : jsonMember t = some m) :
    ¬ CutOff t := by
  intro hc
  have hcut : t = [34] := hc
  rw [hcut] at h
  cases h

theorem keyTurn_next {s t : Bytes} (h0 : 0 ∉ s) (h : Inside s t) (k : Bytes) (y : ℤ) :
    Loop.Turn (keyTurn s k) (pos s t) y ↔ ∃ u, KeyNext k t u ∧ y = pos s u := by
  unfold Loop.Turn
  by_cases hc : CutOff (jsonSkipWs t)
  · rw [keyTurn_end h0 h.1 h.2 hc]
    constructor
    · intro hn
      cases hn
    · rintro ⟨u, ⟨-, m, hm, -⟩, -⟩
      exact absurd hc (not_cutOff_of_member hm)
  · rw [keyTurn_pos h0 h.1 h.2 hc, Except.ok.injEq]
    exact keyStep_inl

theorem keys_comes {s t : Bytes} (h0 : 0 ∉ s) (h : Inside s t) (k : Bytes) (y : ℤ) :
    Loop.Comes (keyTurn s k) (pos s t) y ↔ ∃ u, KeysTo k t u ∧ y = pos s u :=
  Loop.comes_iff (p := pos s) (I := Inside s) (fun _ _ hi hn => hi.of_suffix hn.suffix)
    (fun _ hi y => keyTurn_next h0 hi k y) h

theorem idxStep_inl {s t : Bytes} {want idx : ℤ} {y : ℤ × ℤ} :
    idxStep s want t idx = .inl y ↔
      ∃ x : Bytes × ℤ, ElemNext want (t, idx) x ∧ y = (pos s x.1, x.2) := by
  unfold idxStep ElemNext
  constructor
  · intro h
    split at h
    · cases h
    · rename_i ht
      split at h
      · cases h
      · rename_i hi
        split at h
        · cases h
        · rename_i hb
          cases h
          exact ⟨_, ⟨(not_or.mp ht).1, hi, (not_or.mp ht).2, hb, rfl⟩, rfl⟩
  · rintro ⟨x, ⟨ht, hi, h93, hb, rfl⟩, rfl⟩
    dsimp only at ht hi h93 hb
    rw [if_neg (not_or.mpr ⟨ht, h93⟩), if_neg hi, if_neg hb]

theorem idxStep_some {s t : Bytes} {want idx q : ℤ} :
    idxStep s want t idx = .inr (some q) ↔
      t ≠ [] ∧ (jsonSkipWs t).head? ≠ some 93 ∧ idx = want ∧ q = pos s (jsonSkipWs t) := by
  unfold idxStep
  constructor
  · intro h
    split at h
    · cases h
    · rename_i ht
      split at h
      · rename_i hi
        cases h
        exact ⟨(not_or.mp ht).1, (not_or.mp ht).2, hi, rfl⟩
      · split at h <;> cases h
  · rintro ⟨ht, h93, hi, rfl⟩
    rw [if_neg (not_or.mpr ⟨ht, h93⟩), if_pos hi]

theorem elems_comes {s t : Bytes} (h0 : 0 ∉ s) (h : t <:+ s) (want : ℤ) (y : ℤ × ℤ) :
    Loop.Comes (idxTurn s want) (pos s t, 0) y ↔
      ∃ x : Bytes × ℤ, ElemsTo want (t, 0) x ∧ y = (pos s x.1, x.2) := by
  refine Loop.comes_iff (p := fun x : Bytes × ℤ => (pos s x.1, x.2)) (I := fun x => x.1 <:+ s)
    (fun _ _ hi hn => hn.suffix.trans hi) ?_ (i := (t, 0)) h
  intro x hx y
  unfold Loop.Turn
  rw [idxTurn_pos h0 hx, Except.ok.injEq]
  exact idxStep_inl

theorem listTurn_next {s : Bytes} (h0 : 0 ∉ s) {isObj : Bool} {x : Bytes × List Bytes}
    (h : Inside s x.1) (y : ℤ × List Bytes) :
    Loop.Turn (listTurn s isObj) (pos s x.1, x.2) y ↔
      ∃ x', ListNext isObj x x' ∧ y = (pos s x'.1, x'.2) := by
  unfold Loop.Turn
  by_cases hc : isObj = true ∧ CutOff (jsonSkipWs x.1)
  · obtain ⟨rfl, hcut⟩ := hc
    rw [listTurn_end h0 h.1 h.2 hcut]
    constructor
    · intro hn
      cases hn
    · rintro ⟨x', ⟨-, -, -, hn, -⟩, -⟩
      exact absurd ⟨rfl, hcut⟩ hn
  · rw [listTurn_pos h0 h.1 h.2 hc, Except.ok.injEq]
    unfold listStep ListNext
    constructor
    · intro hn
      split at hn
      · cases hn
      · rename_i ht
        obtain ⟨ht, hb⟩ := not_or.mp ht
        cases hn
        exact ⟨_, ⟨ht, (not_or.mp hb).1, (not_or.mp hb).2, hc, rfl⟩, rfl⟩
    · rintro ⟨x', ⟨ht, h125, h93, -, rfl⟩, rfl⟩
      rw [if_neg (not_or.mpr ⟨ht, not_or.mpr ⟨h125, h93⟩⟩)]

theorem list_comes {s t : Bytes} (h0 : 0 ∉ s) (h : Inside s t) {isObj : Bool}
    (y : ℤ × List Bytes) : Loop.Comes (listTurn s isObj) (pos s t, []) y ↔
      ∃ x, ListTo isObj (t, []) x ∧ y = (pos s x.1, x.2) :=
  Loop.comes_iff (p := fun x : Bytes × List Bytes => (pos s x.1, x.2))
    (I := fun x => Inside s x.1) (fun _ _ hi hn => hi.of_suffix hn.suffix)
    (fun _ hi y => listTurn_next h0 hi y) (i := (t, [])) h

/-! ### Finding -/

/-- One step of a path, from a value to the one it leads to. -/
inductive StepTo : SValue F → Bytes → Bytes → Prop
  | key {k json t u v : Bytes} : jsonSkipWs json = 123 :: t → KeysTo k t u →
    jsonMember (jsonSkipWs u) = some (k, v) → StepTo (.string k) json v
  | idx {want : ℤ} {json t u : Bytes} : jsonSkipWs json = 91 :: t →
    ElemsTo want (t, 0) (u, want) → u ≠ [] → (jsonSkipWs u).head? ≠ some 93 →
      StepTo (.int want) json (jsonSkipWs u)

/-- The step looks for a key where only a double quote is left of the text. -/
inductive KeyCut : SValue F → Bytes → Prop
  | intro {k json t u : Bytes} : jsonSkipWs json = 123 :: t → KeysTo k t u →
    CutOff (jsonSkipWs u) → KeyCut (.string k) json

/-- Somewhere on the way down the path. -/
inductive OnPath (bad : SValue F → Bytes → Prop) : List (SValue F) → Bytes → Prop
  | here {step : SValue F} {path : List (SValue F)} {json : Bytes} :
    bad step json → OnPath bad (step :: path) json
  | down {step : SValue F} {path : List (SValue F)} {json v : Bytes} :
    StepTo step json v → OnPath bad path v → OnPath bad (step :: path) json

theorem StepTo.suffix {step : SValue F} {json v : Bytes} (h : StepTo step json v) : v <:+ json := by
  cases h with
  | key hj hk hm =>
    have hs := jsonSkipWs_suffix json
    rw [hj] at hs
    exact (jsonMember_suffix hm).trans ((jsonSkipWs_suffix _).trans
      (hk.suffix.trans (tail_suffix hs)))
  | idx hj hk =>
    have hs := jsonSkipWs_suffix json
    rw [hj] at hs
    exact (jsonSkipWs_suffix _).trans (hk.suffix.trans (tail_suffix hs))

/-- A step of the path from the value that a text starts with. -/
abbrev findAt (s json : Bytes) (fuel : ℕ) (step : SValue F) : Checked (Option ℤ) :=
  findStep s fuel step (pos s (jsonSkipWs json))

theorem findStep_key {s json t : Bytes} (hj : json <:+ s) (h : jsonSkipWs json = 123 :: t)
    (fuel : ℕ) (k : Bytes) : findAt s json fuel (.string (F := F) k) =
      Loop.run (keyTurn s k) .endless fuel (pos s t) := by
  have hs := (jsonSkipWs_suffix json).trans hj
  unfold findAt findStep
  rw [h] at hs ⊢
  rw [read_pos hs, ok_bind]
  dsimp only
  rw [if_pos (show (123 :: t).headD 0 = 123 from rfl), ptr_next hs]
  rfl

theorem findStep_idx {s json t : Bytes} (hj : json <:+ s) (h : jsonSkipWs json = 91 :: t)
    (fuel : ℕ) (want : ℤ) : findAt s json fuel (.int (F := F) want) =
      Loop.run (idxTurn s want) .endless fuel (pos s t, 0) := by
  have hs := (jsonSkipWs_suffix json).trans hj
  unfold findAt findStep
  rw [h] at hs ⊢
  rw [read_pos hs, ok_bind]
  dsimp only
  rw [if_pos (show (91 :: t).headD 0 = 91 from rfl), ptr_next hs]
  rfl

/-- A step that has a loop to run, or none. -/
theorem findStep_cases {s json : Bytes} (hj : json <:+ s) (step : SValue F) :
    (∃ k t, step = .string k ∧ jsonSkipWs json = 123 :: t) ∨
    (∃ want t, step = .int want ∧ jsonSkipWs json = 91 :: t) ∨
    ∀ fuel, findAt s json fuel step = .ok none := by
  have hs := (jsonSkipWs_suffix json).trans hj
  have hcons {c : UInt8} (hc : c ≠ 0) (h : (jsonSkipWs json).headD 0 = c) :
      ∃ t, jsonSkipWs json = c :: t := by
    cases ht : jsonSkipWs json with
    | nil =>
      rw [ht] at h
      exact absurd h.symm hc
    | cons d t =>
      rw [ht] at h
      exact ⟨t, congrArg (· :: t) h⟩
  unfold findAt findStep
  cases step with
  | string k =>
    by_cases hb : (jsonSkipWs json).headD 0 = 123
    · obtain ⟨t, ht⟩ := hcons (by decide) hb
      exact .inl ⟨k, t, rfl, ht⟩
    · refine .inr (.inr fun fuel => ?_)
      rw [read_pos hs, ok_bind]
      dsimp only
      rw [if_neg hb]
      rfl
  | int want =>
    by_cases hb : (jsonSkipWs json).headD 0 = 91
    · obtain ⟨t, ht⟩ := hcons (by decide) hb
      exact .inr (.inl ⟨want, t, rfl, ht⟩)
    · refine .inr (.inr fun fuel => ?_)
      rw [read_pos hs, ok_bind]
      dsimp only
      rw [if_neg hb]
      rfl
  | _ =>
    refine .inr (.inr fun fuel => ?_)
    rw [read_pos hs, ok_bind]
    rfl

theorem bracket_inside {s json t : Bytes} {c : UInt8} (hj : json <:+ s)
    (h : jsonSkipWs json = c :: t) : Inside s t :=
  .of_bracket (h ▸ (jsonSkipWs_suffix json).trans hj)

/-- A step fails only where it looks for a key at a last double quote. -/
theorem findStep_error {s json : Bytes} (h0 : 0 ∉ s) (hj : json <:+ s) {fuel : ℕ}
    {step : SValue F} {e : Fault} (h : findAt s json fuel step = .error e) :
    e = .endless ∨ KeyCut step json := by
  rcases findStep_cases hj step with ⟨k, t, rfl, ht⟩ | ⟨want, t, rfl, ht⟩ | hn
  · rw [findStep_key hj ht] at h
    have hin := bracket_inside hj ht
    rcases Loop.run_error h with rfl | ⟨y, hy, hf⟩
    · exact .inl rfl
    · obtain ⟨u, hu, rfl⟩ := (keys_comes h0 hin k y).mp hy
      have hin' := hin.of_suffix hu.suffix
      by_cases hc : CutOff (jsonSkipWs u)
      · exact .inr (.intro ht hu hc)
      · rw [keyTurn_pos h0 hin'.1 hin'.2 hc] at hf
        cases hf
  · rw [findStep_idx hj ht] at h
    have hin := bracket_inside hj ht
    rcases Loop.run_error h with rfl | ⟨y, hy, hf⟩
    · exact .inl rfl
    · obtain ⟨x, hx, rfl⟩ := (elems_comes h0 hin.1 want y).mp hy
      rw [idxTurn_pos h0 (hx.suffix.trans hin.1)] at hf
      cases hf
  · rw [hn] at h
    cases h

theorem findStep_some {s json : Bytes} (h0 : 0 ∉ s) (hj : json <:+ s) {fuel : ℕ}
    {step : SValue F} {q : ℤ} (h : findAt s json fuel step = .ok (some q)) :
    ∃ v, StepTo step json v ∧ q = pos s v := by
  rcases findStep_cases hj step with ⟨k, t, rfl, ht⟩ | ⟨want, t, rfl, ht⟩ | hn
  · rw [findStep_key hj ht] at h
    have hin := bracket_inside hj ht
    obtain ⟨y, hy, hr⟩ := Loop.run_ok h
    obtain ⟨u, hu, rfl⟩ := (keys_comes h0 hin k y).mp hy
    have hin' := hin.of_suffix hu.suffix
    by_cases hc : CutOff (jsonSkipWs u)
    · rw [keyTurn_end h0 hin'.1 hin'.2 hc] at hr
      cases hr
    · rw [keyTurn_pos h0 hin'.1 hin'.2 hc, Except.ok.injEq] at hr
      obtain ⟨v, hm, rfl⟩ := keyStep_some.mp hr
      exact ⟨v, .key ht hu hm, rfl⟩
  · rw [findStep_idx hj ht] at h
    have hin := bracket_inside hj ht
    obtain ⟨y, hy, hr⟩ := Loop.run_ok h
    obtain ⟨⟨u, i⟩, hx, rfl⟩ := (elems_comes h0 hin.1 want y).mp hy
    rw [idxTurn_pos h0 (hx.suffix.trans hin.1), Except.ok.injEq] at hr
    obtain ⟨hne, h93, rfl, rfl⟩ := idxStep_some.mp hr
    exact ⟨_, .idx ht hx hne h93, rfl⟩
  · rw [hn] at h
    cases h

/-- With enough turns, a loop that comes to where a turn does not go on does the same. -/
theorem run_enough {σ α : Type} {body : σ → Checked (σ ⊕ α)} {x y : σ} {r : Checked α}
    (h : Loop.Comes body x y) (hr : ∀ n, Loop.run body .endless (n+1) y = r) :
    ∃ n, ∀ m, n ≤ m → Loop.run body .endless m x = r := by
  obtain ⟨k, hk⟩ := Loop.run_of_comes (o := Fault.endless) h
  refine ⟨k+1, fun m hm => ?_⟩
  obtain ⟨j, rfl⟩ : ∃ j, m = k+(j+1) := ⟨m-k-1, by omega⟩
  rw [hk]
  exact hr j

theorem findStep_of_stepTo {s json v : Bytes} (h0 : 0 ∉ s) (hj : json <:+ s) {step : SValue F}
    (h : StepTo step json v) :
    ∃ n, ∀ m, n ≤ m → findAt s json m step = .ok (some (pos s v)) := by
  cases h with
  | @key k _ t u _ ht hu hm =>
    have hin := bracket_inside hj ht
    have hin' := hin.of_suffix hu.suffix
    simp only [findStep_key hj ht]
    refine run_enough ((keys_comes h0 hin k _).mpr ⟨u, hu, rfl⟩) fun n => Loop.run_return ?_
    rw [keyTurn_pos h0 hin'.1 hin'.2 (not_cutOff_of_member hm), Except.ok.injEq]
    exact keyStep_some.mpr ⟨v, hm, rfl⟩
  | @idx want _ t u ht hu hne h93 =>
    have hin := bracket_inside hj ht
    simp only [findStep_idx hj ht]
    refine run_enough ((elems_comes h0 hin.1 want _).mpr ⟨(u, want), hu, rfl⟩) fun n =>
      Loop.run_return ?_
    rw [idxTurn_pos h0 (hu.suffix.trans hin.1), Except.ok.injEq]
    exact idxStep_some.mpr ⟨hne, h93, rfl, rfl⟩

theorem findStep_of_cut {s json : Bytes} (h0 : 0 ∉ s) (hj : json <:+ s) {step : SValue F}
    (h : KeyCut step json) : ∃ n, ∀ m, n ≤ m → findAt s json m step = .error .badCopy := by
  cases h with
  | @intro k _ t u ht hu hc =>
    have hin := bracket_inside hj ht
    have hin' := hin.of_suffix hu.suffix
    simp only [findStep_key hj ht]
    exact run_enough ((keys_comes h0 hin k _).mpr ⟨u, hu, rfl⟩) fun n =>
      Loop.run_fail (keyTurn_end h0 hin'.1 hin'.2 hc k)

theorem findValue_cons {s json : Bytes} (hj : json <:+ s) (fuel : ℕ) (step : SValue F)
    (path : List (SValue F)) : findValue s fuel (step :: path) (pos s json) =
      findAt s json fuel step >>= fun o =>
        match o with
        | none => pure none
        | some v => if path.isEmpty then pure (some v) else findValue s fuel path v := by
  rw [findValue, skipWs_pos hj]
  rfl

theorem findValue_error {s json : Bytes} (h0 : 0 ∉ s) (hj : json <:+ s) {fuel : ℕ}
    {path : List (SValue F)} {e : Fault} (h : findValue s fuel path (pos s json) = .error e) :
    e = .endless ∨ OnPath KeyCut path json := by
  induction path generalizing json with
  | nil =>
    rw [findValue, skipWs_pos hj] at h
    cases h
  | cons step path ih =>
    rw [findValue_cons hj] at h
    cases hs : findAt s json fuel step with
    | error e' =>
      rw [hs] at h
      cases h
      exact (findStep_error h0 hj hs).imp_right .here
    | ok o =>
      rw [hs, ok_bind] at h
      cases o with
      | none => cases h
      | some q =>
        obtain ⟨v, hv, rfl⟩ := findStep_some h0 hj hs
        dsimp only at h
        split at h
        · cases h
        · exact (ih (hv.suffix.trans hj) h).imp_right (.down hv)

theorem findValue_some {s json : Bytes} (h0 : 0 ∉ s) (hj : json <:+ s) {fuel : ℕ}
    {path : List (SValue F)} {q : ℤ} (h : findValue s fuel path (pos s json) = .ok (some q)) :
    ∃ v, v <:+ s ∧ q = pos s v := by
  induction path generalizing json with
  | nil =>
    rw [findValue, skipWs_pos hj] at h
    cases h
    exact ⟨_, (jsonSkipWs_suffix json).trans hj, rfl⟩
  | cons step path ih =>
    rw [findValue_cons hj] at h
    cases hs : findAt s json fuel step with
    | error e' =>
      rw [hs] at h
      cases h
    | ok o =>
      rw [hs, ok_bind] at h
      cases o with
      | none => cases h
      | some q' =>
        obtain ⟨v, hv, rfl⟩ := findStep_some h0 hj hs
        dsimp only at h
        split at h
        · cases h
          exact ⟨v, hv.suffix.trans hj, rfl⟩
        · exact ih (hv.suffix.trans hj) h

theorem findValue_of_cut {s json : Bytes} (h0 : 0 ∉ s) (hj : json <:+ s)
    {path : List (SValue F)} (h : OnPath KeyCut path json) :
    ∃ n, ∀ m, n ≤ m → findValue s m path (pos s json) = .error .badCopy := by
  induction h with
  | here hc =>
    obtain ⟨n, hn⟩ := findStep_of_cut h0 hj hc
    refine ⟨n, fun m hm => ?_⟩
    rw [findValue_cons hj, hn m hm]
    rfl
  | @down step path json v hv hp ih =>
    obtain ⟨n, hn⟩ := findStep_of_stepTo h0 hj hv
    obtain ⟨n', hn'⟩ := ih (hv.suffix.trans hj)
    refine ⟨max n n', fun m hm => ?_⟩
    have hne : path.isEmpty = false := by
      cases hp <;> rfl
    rw [findValue_cons hj, hn m (le_trans (le_max_left _ _) hm), ok_bind]
    dsimp only
    rw [if_neg (by rw [hne]; decide)]
    exact hn' m (le_trans (le_max_right _ _) hm)

/-! ### Setting -/

/-- Nothing goes wrong, except that the turns may not be enough. -/
def Safe {α : Type} (r : Checked α) : Prop := ∀ e, r = .error e → e = .endless

theorem Safe.ok {α : Type} (a : α) : Safe (.ok a : Checked α) := nofun

theorem Safe.bind {α β : Type} {m : Checked α} {f : α → Checked β} (hm : Safe m)
    (hf : ∀ a, m = .ok a → Safe (f a)) : Safe (m >>= f) := by
  cases m with
  | error e =>
    intro e' h
    cases h
    exact hm e rfl
  | ok a => exact hf a rfl

theorem scan_comes {s t e : Bytes} (h0 : 0 ∉ s) (h : Inside s t) (he : e ≠ []) {k : Bytes} {y : ℤ}
    (hy : Loop.Comes (scanTurn s (pos s e) k) (pos s t) y) :
    ∃ u, Inside s u ∧ u <:+ t ∧ y = pos s u := by
  induction hy with
  | refl => exact ⟨t, h, List.suffix_rfl, rfl⟩
  | @tail _ z _ hz ih =>
    obtain ⟨u, hu, hut, rfl⟩ := ih
    have hz' : scanTurn s (pos s e) k (pos s u) = .ok (.inl z) := hz
    rw [scanTurn_pos h0 hu.1 hu.2 he, Except.ok.injEq] at hz'
    unfold scanStep at hz'
    split at hz'
    · cases hz'
    · split at hz'
      · cases hz'
      · rename_i m hm
        split at hz'
        · cases hz'
        · cases hz'
          have hs := jsonMember_next hm
          exact ⟨_, hu.of_suffix hs, hs.trans hut, rfl⟩

theorem empty_pos {s b e : Bytes} (h : b ++ e <:+ s) :
    scan s (emptyTurn s (pos s e)) (pos s (b ++ e)) = .ok (b.all Json.isWs) := by
  refine Loop.run_eq (p := fun b => pos s (b ++ e)) (f := fun b : Bytes => b.all Json.isWs)
    (μ := List.length) (I := fun b => b ++ e <:+ s) ?_ h
    (Nat.lt_succ_of_le ((List.length_append ▸ Nat.le_add_right _ _).trans h.length_le))
  intro b hb
  unfold Loop.Turn emptyTurn
  cases b with
  | nil =>
    refine .inl ?_
    rw [List.nil_append, if_neg (lt_irrefl _)]
    rfl
  | cons c b =>
    have hlt : pos s (c :: b ++ e) < pos s e := by
      rw [pos_append s (c :: b) e, List.length_cons]
      omega
    rw [if_pos hlt, read_pos hb, ok_bind, List.cons_append, List.headD_cons]
    by_cases hc : Json.isWs c
    · refine .inr ⟨b, tail_suffix hb, Nat.lt_succ_self _, ?_, ?_⟩
      · have hn : ptr s (pos s (c :: (b ++ e))+1) = .ok (pos s (b ++ e)) := ptr_next hb
        rw [if_pos hc, hn]
        rfl
      · rw [List.all_cons, hc, Bool.true_and]
    · refine .inl ?_
      have hc' : Json.isWs c = false := by simpa using hc
      rw [if_neg hc, List.all_cons, hc', Bool.false_and]
      rfl

/-- The characters in front of a place. -/
theorem copy_front {s t : Bytes} (h : t <:+ s) : copy s 0 (pos s t) = .ok (upTo s t) := by
  have hl := h.length_le
  unfold copy
  rw [if_pos ⟨pos_nonneg h, le_rfl, by unfold pos; omega⟩]
  have hn : (pos s t).toNat = s.length-t.length := by unfold pos; omega
  rw [hn]
  rfl

/-- What follows the scan of the setters always goes well. -/
theorem putInto_ok {s body e : Bytes} (h0 : 0 ∉ s) (hb : Inside s body) (he : e <:+ body)
    (hne : e ≠ []) {fuel : ℕ} {k : Bytes} (new : Bytes) {r : Option (ℤ × ℤ)}
    (hr : Loop.run (scanTurn s (pos s e) k) .endless fuel (pos s body) = .ok r) :
    ∃ out, putInto s fuel k new (pos s body) (pos s e) = .ok out := by
  unfold putInto
  rw [hr, ok_bind]
  cases r with
  | none =>
    obtain ⟨b, rfl⟩ := he
    have hs := (List.suffix_append b e).trans hb.1
    dsimp only
    rw [empty_pos hb.1, ok_bind, copy_front hs, ok_bind, copyRest_pos hs]
    exact ⟨_, rfl⟩
  | some v =>
    obtain ⟨y, hy, hret⟩ := Loop.run_ok hr
    obtain ⟨u, hu, -, rfl⟩ := scan_comes h0 hb hne hy
    rw [scanTurn_pos h0 hu.1 hu.2 hne, Except.ok.injEq] at hret
    unfold scanStep at hret
    split at hret
    · cases hret
    · split at hret
      · cases hret
      · rename_i m hm
        split at hret
        · cases hret
          have hv := (jsonMember_suffix hm).trans ((jsonSkipWs_suffix u).trans hu.1)
          dsimp only
          rw [copy_front hv, ok_bind, copyRest_pos ((jsonWalk_suffix _).trans hv)]
          exact ⟨_, rfl⟩
        · cases hret

/-- The closing brace of an object is behind its start. -/
theorem close_behind {op cl c : UInt8} {t e : Bytes} {depth : ℤ} (hd : depth ≠ 1)
    (h : jsonClose op cl depth (c :: t) = some e) : e <:+ t := by
  rw [jsonClose] at h
  split at h
  · exact (jsonClose_some h).1.trans (jsonStrEnd_suffix t)
  · split at h
    · exact (jsonClose_some h).1
    · split at h
      · split at h
        · omega
        · exact (jsonClose_some h).1
      · exact (jsonClose_some h).1

theorem pos_self (s : Bytes) : (0 : ℤ) = pos s s := by
  unfold pos
  omega

/-- A text that is no closed object stays as it is; else there are a body and a closing brace. -/
theorem put_cases {s : Bytes} (h0 : 0 ∉ s) (k new : Bytes) :
    (∃ out, ∀ fuel, put s fuel k new = .ok out) ∨
    ∃ body e, Inside s body ∧ e <:+ body ∧ e ≠ [] ∧
      ∀ fuel, put s fuel k new = putInto s fuel k new (pos s body) (pos s e) := by
  have hs := jsonSkipWs_suffix s
  have hput (fuel : ℕ) : put s fuel k new =
      if (jsonSkipWs s).headD 0 ≠ 123 then pure s
      else (ptr s (pos s (jsonSkipWs s)+1) >>= fun body =>
        close s 123 125 (pos s (jsonSkipWs s)) >>= fun stop =>
          if stop.1 then putInto s fuel k new body stop.2 else pure s) := by
    unfold put
    rw [pos_self s, skipWs_pos List.suffix_rfl, ok_bind, read_pos hs, ok_bind]
  by_cases h123 : (jsonSkipWs s).headD 0 = 123
  · obtain ⟨t, ht⟩ := List.head?_eq_some_iff.mp ((headD_eq_iff (by decide)).mp h123)
    simp only [hput, if_neg (not_not.mpr h123)]
    rw [ht] at hs ⊢
    simp only [ptr_next hs, ok_bind, close_pos h0 123 125 hs]
    unfold closed
    cases hc : jsonClose 123 125 0 (123 :: t) with
    | none => exact .inl ⟨s, fun _ => rfl⟩
    | some e =>
      obtain ⟨-, d, u, rfl⟩ := jsonClose_some hc
      exact .inr ⟨t, _, .of_bracket hs, close_behind (by decide) hc, by simp, fun _ => rfl⟩
  · exact .inl ⟨s, fun fuel => by rw [hput, if_pos h123]; rfl⟩

theorem put_safe {s : Bytes} (h0 : 0 ∉ s) (fuel : ℕ) (k new : Bytes) :
    Safe (put s fuel k new) := by
  rcases put_cases h0 k new with ⟨out, ho⟩ | ⟨body, e, hb, he, hne, hp⟩
  · rw [ho]
    exact .ok _
  · rw [hp]
    intro f hf
    cases hr : Loop.run (scanTurn s (pos s e) k) .endless fuel (pos s body) with
    | ok r =>
      obtain ⟨out, ho⟩ := putInto_ok h0 hb he hne new hr
      rw [ho] at hf
      cases hf
    | error f' =>
      rcases Loop.run_error hr with rfl | ⟨y, hy, hfail⟩
      · unfold putInto at hf
        rw [hr] at hf
        cases hf
        rfl
      · obtain ⟨u, hu, -, rfl⟩ := scan_comes h0 hb hne hy
        rw [scanTurn_pos h0 hu.1 hu.2 hne] at hfail
        cases hfail

/-! ### The builtins -/

/-- The loop of `bi_llJson2List` comes to a key where only a double quote is left. -/
def ListCut (json : Bytes) : Prop :=
  ∃ t x, jsonSkipWs json = 123 :: t ∧ ListTo true (t, []) x ∧ CutOff (jsonSkipWs x.1)

/-- With two keys for a path, `bi_llJsonSetValue` looks for the outer one first. -/
def SetCut (path : List (SValue F)) (json : Bytes) : Prop :=
  ∃ k1 k2, path = [.string k1, .string k2] ∧ KeyCut (.string (F := F) k1) json

theorem safe_findValue {s : Bytes} (h0 : 0 ∉ s) {path : List (SValue F)}
    (h : ¬ OnPath KeyCut path s) (fuel : ℕ) : Safe (findValue s fuel path 0) := by
  intro e he
  rw [pos_self s] at he
  exact (findValue_error h0 List.suffix_rfl he).resolve_right h

theorem argStr_string (s : Bytes) (a : List (SValue F)) : argStr (.string s :: a) 0 = s := rfl

theorem llJsonGetValue_safe_iff {s : Bytes} (h0 : 0 ∉ s) (path : List (SValue F)) :
    (∀ fuel, Safe (llJsonGetValue fuel [.string s, .list path])) ↔ ¬ OnPath KeyCut path s := by
  constructor
  · intro h hc
    obtain ⟨n, hn⟩ := findValue_of_cut h0 List.suffix_rfl hc
    have hf := hn n le_rfl
    rw [← pos_self s] at hf
    have hbad : llJsonGetValue n [.string s, .list path] = .error .badCopy := by
      change (findValue s n path 0 >>= _) = _
      rw [hf]
      rfl
    cases h n _ hbad
  · intro h fuel
    apply Safe.bind (safe_findValue h0 h fuel)
    intro o ho
    cases o with
    | none => exact .ok _
    | some q =>
      rw [pos_self s] at ho
      obtain ⟨v, hv, rfl⟩ := findValue_some h0 List.suffix_rfl ho
      have hw := jsonWalk_suffix v
      dsimp only
      rw [argStr_string, walk_pos h0 hv, ok_bind, extractValue_pos hv hw]
      exact .ok _

theorem llJsonValueType_safe_iff {s : Bytes} (h0 : 0 ∉ s) (path : List (SValue F)) :
    (∀ fuel, Safe (llJsonValueType fuel [.string s, .list path])) ↔ ¬ OnPath KeyCut path s := by
  constructor
  · intro h hc
    obtain ⟨n, hn⟩ := findValue_of_cut h0 List.suffix_rfl hc
    have hf := hn n le_rfl
    rw [← pos_self s] at hf
    have hbad : llJsonValueType n [.string s, .list path] = .error .badCopy := by
      change (findValue s n path 0 >>= _) = _
      rw [hf]
      rfl
    cases h n _ hbad
  · intro h fuel
    apply Safe.bind (safe_findValue h0 h fuel)
    intro o ho
    cases o with
    | none => exact .ok _
    | some q =>
      rw [pos_self s] at ho
      obtain ⟨v, hv, rfl⟩ := findValue_some h0 List.suffix_rfl ho
      dsimp only
      rw [argStr_string, skipWs_pos hv, ok_bind, read_pos ((jsonSkipWs_suffix v).trans hv)]
      exact .ok _

theorem onPath_singleton {bad : SValue F → Bytes → Prop} {step : SValue F} {json : Bytes} :
    OnPath bad [step] json ↔ bad step json := by
  constructor
  · intro h
    cases h with
    | here h => exact h
    | down _ h => cases h
  · exact .here

/-- The object under the outer key is a piece of the text, or the empty one. -/
theorem subObject_ok {s : Bytes} (h0 : 0 ∉ s) {fuel : ℕ} {k : Bytes} {sub : Bytes}
    (h : subObject (F := F) s fuel k = .ok sub) : 0 ∉ sub := by
  unfold subObject at h
  cases hf : findValue s fuel [SValue.string (F := F) k] 0 with
  | error e =>
    rw [hf] at h
    cases h
  | ok o =>
    rw [hf, ok_bind] at h
    cases o with
    | none =>
      cases h
      decide
    | some q =>
      rw [pos_self s] at hf
      obtain ⟨v, hv, rfl⟩ := findValue_some h0 List.suffix_rfl hf
      have hl := (jsonWalk_suffix v).length_le
      have hn : pos s (jsonWalk v)-pos s v = (v.length-(jsonWalk v).length : ℕ) := by
        unfold pos
        omega
      dsimp only at h
      rw [walk_pos h0 hv, ok_bind, hn, copy_pos hv (Nat.sub_le _ _)] at h
      cases h
      exact fun hm => h0 (hv.subset (List.take_subset _ _ hm))

theorem subObject_safe_iff {s : Bytes} (h0 : 0 ∉ s) (k : Bytes) :
    (∀ fuel, Safe (subObject (F := F) s fuel k)) ↔ ¬ KeyCut (.string (F := F) k) s := by
  constructor
  · intro h hc
    obtain ⟨n, hn⟩ := findValue_of_cut h0 List.suffix_rfl (.here hc : OnPath KeyCut [.string (F := F) k] s)
    have hf := hn n le_rfl
    rw [← pos_self s] at hf
    have hbad : subObject (F := F) s n k = .error .badCopy := by
      unfold subObject
      rw [hf]
      rfl
    cases h n _ hbad
  · intro h fuel
    apply Safe.bind (safe_findValue h0 (onPath_singleton.not.mpr h) fuel)
    intro o ho
    cases o with
    | none => exact .ok _
    | some q =>
      rw [pos_self s] at ho
      obtain ⟨v, hv, rfl⟩ := findValue_some h0 List.suffix_rfl ho
      have hl := (jsonWalk_suffix v).length_le
      have hn : pos s (jsonWalk v)-pos s v = (v.length-(jsonWalk v).length : ℕ) := by
        unfold pos
        omega
      dsimp only
      rw [walk_pos h0 hv, ok_bind, hn, copy_pos hv (Nat.sub_le _ _)]
      exact .ok _

theorem llJsonSetValue_safe_iff {s : Bytes} (h0 : 0 ∉ s) (path : List (SValue F)) (v : SValue F) :
    (∀ fuel, Safe (llJsonSetValue fuel [.string s, .list path, v])) ↔ ¬ SetCut path s := by
  by_cases h2 : ∃ k1 k2, path = [.string k1, .string k2]
  · obtain ⟨k1, k2, rfl⟩ := h2
    have hset : SetCut [.string (F := F) k1, .string k2] s ↔ KeyCut (.string (F := F) k1) s := by
      constructor
      · rintro ⟨k1', k2', he, hc⟩
        cases he
        exact hc
      · exact fun hc => ⟨k1, k2, rfl, hc⟩
    have hsub (fuel : ℕ) :
        llJsonSetValue fuel [.string s, .list [.string k1, .string k2], v] =
          (subObject (F := F) s fuel k1 >>= fun sub =>
            objSetTop sub fuel k2 (argStr [.string s, .list [.string k1, .string k2], v] 2) >>=
              fun new => put s fuel k1 new >>= fun out => pure (.string out)) := rfl
    rw [hset, ← subObject_safe_iff h0 k1]
    constructor
    · intro h fuel e he
      refine h fuel e ?_
      rw [hsub, he]
      rfl
    · intro h fuel
      rw [hsub]
      refine .bind (h fuel) fun sub hs => .bind (put_safe (subObject_ok h0 hs) fuel k2 _) ?_
      exact fun new _ => .bind (put_safe h0 fuel k1 new) fun _ _ => .ok _
  · have hn : ¬ SetCut path s := fun ⟨k1, k2, he, _⟩ => h2 ⟨k1, k2, he⟩
    refine iff_of_true ?_ hn
    intro fuel
    unfold llJsonSetValue
    split
    · rename_i he
      cases he
      exact .bind (put_safe h0 fuel _ _) fun _ _ => .ok _
    · rename_i he
      cases he
      exact absurd ⟨_, _, rfl⟩ h2
    · exact .ok _
    · exact .ok _

/-- What `bi_llJson2List` makes of the first character. -/
theorem llJson2List_cases (s : Bytes) :
    (∃ c t, (c = 91 ∨ c = 123) ∧ jsonSkipWs s = c :: t ∧
      ∀ fuel, llJson2List fuel [.string (F := F) s] =
        (Loop.run (listTurn s (c = 123)) .endless fuel (pos s t, []) >>= fun l =>
          pure (.list (l.map .string)))) ∨
    (∀ c t, jsonSkipWs s = c :: t → c ≠ 91 ∧ c ≠ 123) ∧
      ∃ r, ∀ fuel, llJson2List fuel [.string (F := F) s] = .ok r := by
  have hs := jsonSkipWs_suffix s
  have hhead (fuel : ℕ) : llJson2List fuel [.string (F := F) s] =
      if (jsonSkipWs s).headD 0 = 91 ∨ (jsonSkipWs s).headD 0 = 123 then
        (ptr s (pos s (jsonSkipWs s)+1) >>= fun p =>
          Loop.run (listTurn s ((jsonSkipWs s).headD 0 = 123)) .endless fuel (p, []) >>=
            fun l => pure (.list (l.map .string)))
      else (copyRest s (pos s (jsonSkipWs s)) >>= fun t => pure (.list [.string t])) := by
    unfold llJson2List
    rw [argStr_string, pos_self s, skipWs_pos List.suffix_rfl, ok_bind, read_pos hs, ok_bind]
  by_cases hb : (jsonSkipWs s).headD 0 = 91 ∨ (jsonSkipWs s).headD 0 = 123
  · obtain ⟨c, t, ht⟩ : ∃ c t, jsonSkipWs s = c :: t := by
      cases hj : jsonSkipWs s with
      | nil =>
        rw [hj] at hb
        exact absurd hb (by decide)
      | cons c t => exact ⟨c, t, rfl⟩
    rw [ht] at hs hb hhead
    refine .inl ⟨c, t, hb, ht, fun fuel => ?_⟩
    rw [hhead, if_pos hb, ptr_next hs]
    rfl
  · refine .inr ⟨?_, _, fun fuel => by rw [hhead, if_neg hb, copyRest_pos hs]; rfl⟩
    intro c t ht
    rw [ht] at hb
    exact not_or.mp hb

theorem llJson2List_safe_iff {s : Bytes} (h0 : 0 ∉ s) :
    (∀ fuel, Safe (llJson2List fuel [.string (F := F) s])) ↔ ¬ ListCut s := by
  rcases llJson2List_cases (F := F) s with ⟨c, t, hb, ht, hrun⟩ | ⟨hn, r, hr⟩
  · have hin := bracket_inside List.suffix_rfl ht
    simp only [hrun]
    constructor
    · rintro h ⟨t', x, ht', hx, hc⟩
      rw [ht] at ht'
      cases ht'
      have hin' := hin.of_suffix hx.suffix
      obtain ⟨n, hn⟩ := run_enough ((list_comes h0 hin _).mpr ⟨x, hx, rfl⟩) fun n =>
        Loop.run_fail (listTurn_end h0 hin'.1 hin'.2 hc x.2)
      refine absurd (h n .badCopy ?_) (by decide)
      have hr := hn n le_rfl
      change (Loop.run (listTurn s true) .endless n (pos s t, []) >>= _) = _
      rw [hr]
      rfl
    · intro h fuel
      refine .bind ?_ fun _ _ => .ok _
      intro e he
      rcases Loop.run_error he with rfl | ⟨y, hy, hf⟩
      · rfl
      · obtain ⟨x, hx, rfl⟩ := (list_comes h0 hin y).mp hy
        have hin' := hin.of_suffix hx.suffix
        refine absurd hf ?_
        by_cases hc : decide (c = 123) = true ∧ CutOff (jsonSkipWs x.1)
        · obtain ⟨h123, hcut⟩ := hc
          have hc123 : c = 123 := of_decide_eq_true h123
          subst hc123
          exact absurd ⟨t, x, ht, hx, hcut⟩ h
        · rw [listTurn_pos h0 hin'.1 hin'.2 hc]
          exact nofun
  · refine iff_of_true (fun fuel => by rw [hr]; exact .ok r) ?_
    rintro ⟨t, x, ht, -⟩
    exact (hn _ _ ht).2 rfl

/-- For every text, path and value: a call keeps its pointers within the text and its NUL, and its
copies within the text, exactly if it never looks for a key at a last double quote. -/
theorem json_pointers_iff {s : Bytes} (h0 : 0 ∉ s) (path : List (SValue F)) (v : SValue F) :
    ((∀ fuel, Safe (llJsonGetValue fuel [.string s, .list path])) ↔ ¬ OnPath KeyCut path s) ∧
    ((∀ fuel, Safe (llJsonValueType fuel [.string s, .list path])) ↔ ¬ OnPath KeyCut path s) ∧
    ((∀ fuel, Safe (llJsonSetValue fuel [.string s, .list path, v])) ↔ ¬ SetCut path s) ∧
    ((∀ fuel, Safe (llJson2List fuel [.string (F := F) s])) ↔ ¬ ListCut s) :=
  ⟨llJsonGetValue_safe_iff h0 path, llJsonValueType_safe_iff h0 path,
    llJsonSetValue_safe_iff h0 path v, llJson2List_safe_iff h0⟩

/-- An array has no keys to look for. -/
theorem json_pointers_array :
    ((∀ fuel, Safe (llJsonGetValue fuel [.string (lit "[1"), .list [.int (F := ℚ) 0]])) ↔
      ¬ OnPath KeyCut [.int (F := ℚ) 0] (lit "[1")) ∧
    ((∀ fuel, Safe (llJsonValueType fuel [.string (lit "[1"), .list [.int (F := ℚ) 0]])) ↔
      ¬ OnPath KeyCut [.int (F := ℚ) 0] (lit "[1")) ∧
    ((∀ fuel, Safe (llJsonSetValue fuel [.string (lit "[1"), .list [.int (F := ℚ) 0], .int 2])) ↔
      ¬ SetCut [.int (F := ℚ) 0] (lit "[1")) ∧
    ((∀ fuel, Safe (llJson2List fuel [.string (F := ℚ) (lit "[1")])) ↔ ¬ ListCut (lit "[1")) :=
  json_pointers_iff (by decide +kernel) [.int 0] (.int 2)

theorem not_safe {α : Type} {r : Checked α} (h : r = .error .badCopy) : ¬ Safe r := by
  intro hs
  cases hs .badCopy h

/-- An object cut off behind the quote of its first key: a key of -1 characters is copied. -/
theorem json_key_cut :
    ¬ Safe (llJsonGetValue 1 [.string (lit "\x7b\""), .list [.string (F := ℚ) (lit "a")]]) ∧
    ¬ Safe (llJsonValueType 1 [.string (lit "\x7b\""), .list [.string (F := ℚ) (lit "a")]]) ∧
    ¬ Safe (llJsonSetValue 1 [.string (lit "\x7b\""),
      .list [.string (F := ℚ) (lit "a"), .string (lit "b")], .int 1]) ∧
    ¬ Safe (llJson2List 1 [.string (F := ℚ) (lit "\x7b\"")]) :=
  ⟨not_safe rfl, not_safe rfl, not_safe rfl, not_safe rfl⟩

end JsonAt
end Slemu
