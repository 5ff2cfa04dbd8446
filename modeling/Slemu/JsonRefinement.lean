import Slemu.JsonProgress

/-! The JSON functions with pointers into a text, against those on the text behind the pointer: what
the first return, if they do, is what the second say. -/

namespace Slemu
namespace JsonAt
open Relation
variable {F : Type}

/-! ### The loops -/

theorem jsonSkipWs_jsonSkipWs (t : Bytes) : jsonSkipWs (jsonSkipWs t) = jsonSkipWs t :=
  List.dropWhile_idempotent _ t

theorem jsonMember_skipped {t k v : Bytes} (h : jsonMember t = some (k, v)) : jsonSkipWs v = v := by
  unfold jsonMember at h
  split at h
  · split at h
    · cases h
      exact jsonSkipWs_jsonSkipWs _
    · cases h
  · cases h

theorem jsonFindKey_next {k t u : Bytes} (h : KeyNext k t u) :
    jsonFindKey k t = jsonFindKey k u := by
  obtain ⟨-, m, hm, hk, h125, rfl⟩ := h
  rw [jsonFindKey]
  split
  · rename_i hn
    rw [hm] at hn
    cases hn
  · rename_i key v hv
    rw [hm] at hv
    cases hv
    rw [if_neg hk, if_neg h125]

theorem jsonFindKey_keysTo {k t u : Bytes} (h : KeysTo k t u) :
    jsonFindKey k t = jsonFindKey k u := by
  induction h with
  | refl => rfl
  | tail _ hn ih => exact ih.trans (jsonFindKey_next hn)

/-- The last turn over the members. -/
theorem keyStep_inr {s k t : Bytes} {r : Option ℤ} (h : keyStep s k t = .inr r) :
    r = (jsonFindKey k t).map (pos s) := by
  unfold keyStep at h
  rw [jsonFindKey]
  split at h
  · rename_i ht
    subst ht
    cases h
    rfl
  · split at h
    · rename_i hm
      cases h
      split
      · rfl
      · rename_i hv
        rw [hm] at hv
        cases hv
    · rename_i m hm
      split
      · rename_i hv
        rw [hm] at hv
        cases hv
      · rename_i key v hv
        rw [hm] at hv
        cases hv
        dsimp only at h
        split at h
        · rename_i hk
          cases h
          rw [if_pos hk]
          rfl
        · rename_i hk
          split at h
          · rename_i h125
            cases h
            rw [if_neg hk, if_pos h125]
            rfl
          · cases h

theorem keyLoop_refines {s t : Bytes} (h0 : 0 ∉ s) (h : Inside s t) {k : Bytes} {fuel : ℕ}
    {r : Option ℤ} (hr : Loop.run (keyTurn s k) .endless fuel (pos s t) = .ok r) :
    r = (jsonFindKey k t).map (pos s) := by
  obtain ⟨y, hy, hret⟩ := Loop.run_ok hr
  obtain ⟨u, hu, rfl⟩ := (keys_comes h0 h k y).mp hy
  have hin := h.of_suffix hu.suffix
  by_cases hc : CutOff (jsonSkipWs u)
  · rw [keyTurn_end h0 hin.1 hin.2 hc] at hret
    cases hret
  · rw [keyTurn_pos h0 hin.1 hin.2 hc, Except.ok.injEq] at hret
    rw [jsonFindKey_keysTo hu]
    exact keyStep_inr hret

/-- The element of an index, which may be negative. -/
def elemAt (i : ℤ) (t : Bytes) : Option Bytes := if i < 0 then none else jsonFindIdx i.toNat t

/-- Where the index to be found is not behind, an element that is passed over is one less. -/
theorem elemAt_next {want : ℤ} {x y : Bytes × ℤ} (h : ElemNext want x y) :
    elemAt (want-x.2) x.1 = elemAt (want-y.2) y.1 := by
  obtain ⟨t, i⟩ := x
  obtain ⟨ht, hi, h93, hb, rfl⟩ := h
  dsimp only at ht hi h93 hb ⊢
  unfold elemAt
  by_cases hlt : want-i < 0
  · rw [if_pos hlt, if_pos (by omega)]
  · obtain ⟨n, hn⟩ : ∃ n : ℕ, want-i = n+1 := ⟨(want-i-1).toNat, by omega⟩
    have hn' : want-(i+1) = n := by omega
    obtain ⟨c, u, rfl⟩ := List.exists_cons_of_ne_nil ht
    rw [hn, hn', if_neg (by omega), if_neg (by omega), Int.toNat_natCast,
      show ((n : ℤ)+1).toNat = n+1 by omega, jsonFindIdx]
    simp only [if_neg h93, if_neg hb]

theorem elemAt_elemsTo {want : ℤ} {x y : Bytes × ℤ} (h : ElemsTo want x y) :
    elemAt (want-x.2) x.1 = elemAt (want-y.2) y.1 := by
  induction h with
  | refl => rfl
  | tail _ hn ih => exact ih.trans (elemAt_next hn)

/-- The last turn over the elements. -/
theorem idxStep_inr {s t : Bytes} {want i : ℤ} {r : Option ℤ} (h : idxStep s want t i = .inr r) :
    r = (elemAt (want-i) t).map (pos s) := by
  have hnone {n : ℕ} (hn : t = [] ∨ (jsonSkipWs t).head? = some 93) : jsonFindIdx n t = none := by
    cases t with
    | nil => cases n <;> rfl
    | cons c u =>
      have h93 := hn.resolve_left (List.cons_ne_nil c u)
      cases n <;> rw [jsonFindIdx, if_pos h93]
  unfold idxStep at h
  unfold elemAt
  split at h
  · rename_i hn
    cases h
    rw [hnone hn, ite_self]
    rfl
  · rename_i hn
    obtain ⟨ht, h93⟩ := not_or.mp hn
    obtain ⟨c, u, rfl⟩ := List.exists_cons_of_ne_nil ht
    split at h
    · rename_i hi
      cases h
      subst hi
      rw [sub_self, if_neg (lt_irrefl _), Int.toNat_zero, jsonFindIdx]
      simp only [if_neg h93]
      rfl
    · rename_i hi
      split at h
      · rename_i hb
        cases h
        split
        · rfl
        · obtain ⟨n, hn⟩ : ∃ n : ℕ, (want-i).toNat = n+1 := ⟨(want-i).toNat-1, by omega⟩
          rw [hn, jsonFindIdx]
          simp only [if_neg h93, if_pos hb]
          rfl
      · cases h

theorem idxLoop_refines {s t : Bytes} (h0 : 0 ∉ s) (h : t <:+ s) {want : ℤ} {fuel : ℕ}
    {r : Option ℤ} (hr : Loop.run (idxTurn s want) .endless fuel (pos s t, 0) = .ok r) :
    r = (elemAt want t).map (pos s) := by
  obtain ⟨y, hy, hret⟩ := Loop.run_ok hr
  obtain ⟨x, hx, rfl⟩ := (elems_comes h0 h want y).mp hy
  rw [idxTurn_pos h0 (hx.suffix.trans h), Except.ok.injEq] at hret
  have hat := elemAt_elemsTo hx
  rw [sub_zero] at hat
  rw [hat]
  exact idxStep_inr hret

/-! ### Finding -/

theorem findStep_refines {step : SValue F} {s json : Bytes} (h0 : 0 ∉ s) (hj : json <:+ s)
    {fuel : ℕ} {r : Option ℤ} (h : findAt s json fuel step = .ok r) :
    r = (jsonFindStep step (jsonSkipWs json)).map (pos s) := by
  have hcases := findStep_cases hj step
  unfold jsonFindStep
  split
  · rename_i t k ht
    rw [findStep_key hj ht] at h
    exact keyLoop_refines h0 (bracket_inside hj ht) h
  · rename_i t i ht
    rw [findStep_idx hj ht] at h
    exact idxLoop_refines h0 (bracket_inside hj ht).1 h
  · rename_i hkey hidx
    rcases hcases with ⟨k, t, rfl, ht⟩ | ⟨want, t, rfl, ht⟩ | hn
    · exact (hkey t k ht rfl).elim
    · exact (hidx t want ht rfl).elim
    · rw [hn] at h
      cases h
      rfl

theorem jsonFindKey_some {k t v : Bytes} (h : jsonFindKey k t = some v) :
    v <:+ t ∧ jsonSkipWs v = v := by
  fun_induction jsonFindKey k t with
  | case1 t hm => cases h
  | case2 t v' hm =>
    cases h
    exact ⟨(jsonMember_suffix hm).trans (jsonSkipWs_suffix t), jsonMember_skipped hm⟩
  | case3 t key v' hm hk h125 => cases h
  | case4 t key v' hm hk h125 ih =>
    obtain ⟨hs, hv⟩ := ih h
    exact ⟨hs.trans (jsonMember_next hm), hv⟩

theorem jsonFindIdx_some {n : ℕ} {t v : Bytes} (h : jsonFindIdx n t = some v) :
    v <:+ t ∧ jsonSkipWs v = v := by
  fun_induction jsonFindIdx n t with
  | case1 n => cases h
  | case2 n c t v' h93 => cases h
  | case3 c t v' h93 =>
    rw [← Option.some.inj h]
    exact ⟨jsonSkipWs_suffix _, jsonSkipWs_jsonSkipWs _⟩
  | case4 c t v' h93 n hb => cases h
  | case5 c t v' h93 n hb ih =>
    obtain ⟨hs, hv⟩ := ih h
    exact ⟨hs.trans ((jsonComma_suffix _).trans ((jsonSkipWs_suffix _).trans
      ((jsonWalk_suffix _).trans (jsonSkipWs_suffix _)))), hv⟩

/-- What is found is a part of the text that starts with no whitespace. -/
theorem jsonFindStep_some {step : SValue F} {json v : Bytes}
    (h : jsonFindStep step (jsonSkipWs json) = some v) : v <:+ json ∧ jsonSkipWs v = v := by
  have hs := jsonSkipWs_suffix json
  unfold jsonFindStep at h
  split at h
  · rename_i t k ht
    obtain ⟨hv, hskip⟩ := jsonFindKey_some h
    rw [ht] at hs
    exact ⟨hv.trans (tail_suffix hs), hskip⟩
  · rename_i t i ht
    split at h
    · cases h
    · obtain ⟨hv, hskip⟩ := jsonFindIdx_some h
      rw [ht] at hs
      exact ⟨hv.trans (tail_suffix hs), hskip⟩
  · cases h

theorem findValue_refines {s json : Bytes} (h0 : 0 ∉ s) (hj : json <:+ s) {fuel : ℕ}
    {path : List (SValue F)} {r : Option ℤ} (h : findValue s fuel path (pos s json) = .ok r) :
    r = (jsonFindValue path json).map (pos s) := by
  induction path generalizing json with
  | nil =>
    rw [findValue, skipWs_pos hj] at h
    cases h
    rfl
  | cons step path ih =>
    rw [findValue_cons hj, bind_eq_ok] at h
    obtain ⟨o, hs, h⟩ := h
    have ho := findStep_refines h0 hj hs
    rw [jsonFindValue]
    cases hv : jsonFindStep step (jsonSkipWs json) with
    | none =>
      rw [hv] at ho
      subst ho
      cases h
      rfl
    | some v =>
      obtain ⟨hvj, hskip⟩ := jsonFindStep_some hv
      rw [hv] at ho
      subst ho
      dsimp only [Option.map_some, Option.bind_some] at h ⊢
      split at h
      · -- the path ends here, and the value is no longer skipped to
        rename_i hnil
        obtain rfl := List.isEmpty_iff.mp hnil
        cases h
        rw [jsonFindValue, hskip]
        rfl
      · exact ih (hvj.trans hj) h

/-! ### Setting -/

theorem jsonScanKey_step {e k t : Bytes} {m : Bytes × Bytes}
    (hl : ¬ (t.length ≤ e.length ∨ (jsonSkipWs t).length ≤ e.length))
    (hm : jsonMember (jsonSkipWs t) = some m) : jsonScanKey e k t =
      if m.1 = k then some (m.2, jsonWalk m.2)
      else jsonScanKey e k (jsonComma (jsonSkipWs (jsonWalk m.2))) := by
  rw [jsonScanKey, if_neg hl]
  split
  · rename_i hn
    rw [hm] at hn
    cases hn
  · rename_i hv
    rw [hm] at hv
    cases hv
    rfl

theorem scanLoop_refines {s t e : Bytes} (h0 : 0 ∉ s) (h : Inside s t) (he : e ≠ []) {k : Bytes}
    {fuel : ℕ} {r : Option (ℤ × ℤ)}
    (hr : Loop.run (scanTurn s (pos s e) k) .endless fuel (pos s t) = .ok r) :
    r = (jsonScanKey e k t).map fun v => (pos s v.1, pos s v.2) := by
  induction fuel generalizing t with
  | zero => cases hr
  | succ fuel ih =>
    rw [Loop.run, scanTurn_pos h0 h.1 h.2 he] at hr
    unfold scanStep at hr
    by_cases hl : t.length ≤ e.length ∨ (jsonSkipWs t).length ≤ e.length
    · rw [if_pos hl] at hr
      cases hr
      rw [jsonScanKey, if_pos hl]
      rfl
    · rw [if_neg hl] at hr
      cases hm : jsonMember (jsonSkipWs t) with
      | none =>
        rw [hm] at hr
        cases hr
        rw [jsonScanKey, if_neg hl]
        split
        · rfl
        · rename_i hv
          rw [hm] at hv
          cases hv
      | some m =>
        rw [hm] at hr
        dsimp only at hr
        rw [jsonScanKey_step hl hm]
        by_cases hk : m.1 = k
        · rw [if_pos hk] at hr ⊢
          cases hr
          rfl
        · rw [if_neg hk] at hr ⊢
          exact ih (h.of_suffix (jsonMember_next hm)) hr

/-- What is found by the scan of the setters is behind the start of the text. -/
theorem jsonScanKey_some {e k t : Bytes} {v : Bytes × Bytes} (h : jsonScanKey e k t = some v) :
    v.1 <:+ t ∧ v.2 <:+ v.1 := by
  fun_induction jsonScanKey e k t with
  | case1 t hl => cases h
  | case2 t hl hm => cases h
  | case3 t hl v' hm =>
    cases h
    exact ⟨(jsonMember_suffix hm).trans (jsonSkipWs_suffix t), jsonWalk_suffix v'⟩
  | case4 t hl key v' hm hk ih =>
    obtain ⟨h1, h2⟩ := ih h
    exact ⟨h1.trans (jsonMember_next hm), h2⟩

/-- Both setters, once the closing brace is found. -/
def putAt (json k new body stop : Bytes) : Bytes :=
  match jsonScanKey stop k body with
  | some (v, rest) => upTo json v ++ new ++ rest
  | none =>
    upTo json stop ++ (if (upTo body stop).all Json.isWs then [] else [44]) ++
      34 :: k ++ [34, 58] ++ new ++ stop

theorem putInto_refines {s body e : Bytes} (h0 : 0 ∉ s) (hb : Inside s body) (he : e <:+ body)
    (hne : e ≠ []) {fuel : ℕ} {k new out : Bytes}
    (h : putInto s fuel k new (pos s body) (pos s e) = .ok out) : out = putAt s k new body e := by
  unfold putInto at h
  obtain ⟨r, hr, h⟩ := bind_eq_ok.mp h
  have hscan := scanLoop_refines h0 hb hne hr
  unfold putAt
  cases hv : jsonScanKey e k body with
  | none =>
    -- a new member, before the closing brace
    rw [hv] at hscan
    subst hscan
    obtain ⟨b, rfl⟩ := he
    have hs := (List.suffix_append b e).trans hb.1
    dsimp only [Option.map_none] at h
    rw [empty_pos hb.1, ok_bind, copy_front hs, ok_bind, copyRest_pos hs] at h
    cases h
    rw [upTo_append]
  | some v =>
    obtain ⟨h1, h2⟩ := jsonScanKey_some hv
    rw [hv] at hscan
    subst hscan
    have hs := h1.trans hb.1
    dsimp only [Option.map_some] at h
    rw [copy_front hs, ok_bind, copyRest_pos (h2.trans hs)] at h
    cases h
    rfl

theorem put_refines {s : Bytes} (h0 : 0 ∉ s) {fuel : ℕ} {k new out : Bytes}
    (h : put s fuel k new = .ok out) : out = jsonPut s k new := by
  have hs := jsonSkipWs_suffix s
  unfold put at h
  rw [pos_self s, skipWs_pos List.suffix_rfl, ok_bind, read_pos hs, ok_bind] at h
  unfold jsonPut
  split
  · rename_i body hbody
    rw [hbody] at h hs
    rw [List.headD_cons, if_neg (by decide), ptr_next hs, ok_bind, close_pos h0 123 125 hs,
      ok_bind] at h
    unfold closed at h
    cases hc : jsonClose 123 125 0 (123 :: body) with
    | none =>
      rw [hc] at h
      cases h
      rfl
    | some e =>
      rw [hc] at h
      obtain ⟨-, d, u, rfl⟩ := jsonClose_some hc
      exact putInto_refines h0 (.of_bracket hs) (close_behind (by decide) hc) (by simp) h
  · rename_i hn
    have h123 : (jsonSkipWs s).headD 0 ≠ 123 := by
      intro hh
      obtain ⟨t, ht⟩ := List.head?_eq_some_iff.mp ((headD_eq_iff (by decide)).mp hh)
      exact hn t ht
    rw [if_pos h123] at h
    cases h
    rfl

/-! ### Lists -/

theorem jsonListFrom_nil (isObj : Bool) : jsonListFrom isObj [] = [] := by
  rw [jsonListFrom]
  rfl

theorem jsonListFrom_next {isObj : Bool} {x y : Bytes × List Bytes} (h : ListNext isObj x y) :
    x.2 ++ jsonListFrom isObj x.1 = y.2 ++ jsonListFrom isObj y.1 := by
  obtain ⟨t, acc⟩ := x
  obtain ⟨ht, h125, h93, -, rfl⟩ := h
  dsimp only at ht h125 h93 ⊢
  rw [List.append_assoc]
  refine congrArg (acc ++ ·) ?_
  rw [jsonListFrom]
  split
  · -- only whitespace is left
    rename_i hw
    rw [if_neg ht, hw]
    have hend : (jsonListEntry isObj []).2 = [] :=
      List.suffix_nil.mp (jsonListEntry_suffix isObj [])
    rw [hend, jsonListFrom_nil, List.append_nil]
  · rename_i c u hc
    have hne : ¬ (c = 125 ∨ c = 93) := by
      rintro (rfl | rfl)
      · exact h125 (by rw [hc]; rfl)
      · exact h93 (by rw [hc]; rfl)
    rw [dif_neg hne, hc]

theorem jsonListFrom_listTo {isObj : Bool} {x y : Bytes × List Bytes} (h : ListTo isObj x y) :
    x.2 ++ jsonListFrom isObj x.1 = y.2 ++ jsonListFrom isObj y.1 := by
  induction h with
  | refl => rfl
  | tail _ hn ih => exact ih.trans (jsonListFrom_next hn)

theorem jsonListFrom_stop (isObj : Bool) {t : Bytes} {c : UInt8} (hc : c = 125 ∨ c = 93)
    (h : (jsonSkipWs t).head? = some c) : jsonListFrom isObj t = [] := by
  obtain ⟨u, hu⟩ := List.head?_eq_some_iff.mp h
  rw [jsonListFrom]
  split
  · rename_i hn
    rw [hn] at hu
    cases hu
  · rename_i d v hd
    rw [hd] at hu
    cases hu
    exact dif_pos hc

theorem listLoop_refines {s t : Bytes} (h0 : 0 ∉ s) (h : Inside s t) {isObj : Bool} {fuel : ℕ}
    {l : List Bytes} (hr : Loop.run (listTurn s isObj) .endless fuel (pos s t, []) = .ok l) :
    l = jsonListFrom isObj t := by
  obtain ⟨y, hy, hret⟩ := Loop.run_ok hr
  obtain ⟨⟨u, acc⟩, hx, rfl⟩ := (list_comes h0 h y).mp hy
  have hin := h.of_suffix hx.suffix
  have hlist := jsonListFrom_listTo hx
  dsimp only at hlist hret hin
  rw [List.nil_append] at hlist
  by_cases hc : isObj = true ∧ CutOff (jsonSkipWs u)
  · obtain ⟨rfl, hcut⟩ := hc
    rw [listTurn_end h0 hin.1 hin.2 hcut] at hret
    cases hret
  · rw [listTurn_pos h0 hin.1 hin.2 hc, Except.ok.injEq] at hret
    unfold listStep at hret
    split at hret
    · rename_i hstop
      cases hret
      have hend : jsonListFrom isObj u = [] := by
        rcases hstop with rfl | h125 | h93
        · exact jsonListFrom_nil isObj
        · exact jsonListFrom_stop isObj (.inl rfl) h125
        · exact jsonListFrom_stop isObj (.inr rfl) h93
      rw [hlist, hend, List.append_nil]
    · cases hret

/-! ### The builtins -/

theorem jsonFindValue_suffix {path : List (SValue F)} {json v : Bytes}
    (h : jsonFindValue path json = some v) : v <:+ json := by
  induction path generalizing json with
  | nil =>
    cases h
    exact jsonSkipWs_suffix json
  | cons step path ih =>
    obtain ⟨u, hu, hv⟩ := Option.bind_eq_some_iff.mp h
    exact (ih hv).trans (jsonFindStep_some hu).1

/-- From the start of the text. -/
theorem findValue_start {s : Bytes} (h0 : 0 ∉ s) {fuel : ℕ} {path : List (SValue F)} {o : Option ℤ}
    (h : findValue s fuel path 0 = .ok o) : o = (jsonFindValue path s).map (pos s) := by
  rw [pos_self s] at h
  exact findValue_refines h0 List.suffix_rfl h

theorem llJsonGetValue_refines {a : List (SValue F)} (h0 : 0 ∉ argStr a 0) {fuel : ℕ} {r : SValue F}
    (h : llJsonGetValue fuel a = .ok r) : r = Slemu.llJsonGetValue a := by
  unfold llJsonGetValue at h
  split at h
  · rename_i x path rest
    unfold Slemu.llJsonGetValue
    dsimp only
    revert h h0
    generalize argStr (x :: .list path :: rest) 0 = s
    intro h0 h
    obtain ⟨o, hf, h⟩ := bind_eq_ok.mp h
    obtain rfl := findValue_start h0 hf
    cases hj : jsonFindValue path s with
    | none =>
      rw [hj] at h
      cases h
      rfl
    | some v =>
      rw [hj] at h
      have hs := jsonFindValue_suffix hj
      dsimp only [Option.map_some] at h ⊢
      rw [walk_pos h0 hs, ok_bind, extractValue_pos hs (jsonWalk_suffix v)] at h
      cases h
      rfl
  · rename_i hn
    cases h
    unfold Slemu.llJsonGetValue
    split
    · exact (hn _ _ _ rfl).elim
    · rfl

theorem jsonTypeOf_other {v t : Bytes} {c : UInt8} (hv : jsonSkipWs v = c :: t)
    (hc : c ∉ [123, 91, 34, 116, 102, 110]) : jsonTypeOf v = [239, 191, 186] := by
  unfold jsonTypeOf
  rw [hv]
  split
  case h_7 => rfl
  all_goals
    rename_i he
    cases he
    exact absurd (by decide) hc

/-- The type is told by the first character. -/
theorem jsonTypeOf_head (v : Bytes) : jsonTypeOf [(jsonSkipWs v).headD 0] = jsonTypeOf v := by
  cases hv : jsonSkipWs v with
  | nil =>
    unfold jsonTypeOf
    rw [hv]
    rfl
  | cons c t =>
    have hone : jsonSkipWs [c] = [c] := jsonSkipWs_cons [] (jsonSkipWs_head hv)
    rw [List.headD_cons]
    by_cases hc : c ∈ [123, 91, 34, 116, 102, 110]
    · unfold jsonTypeOf
      rw [hv, hone]
      simp only [List.mem_cons, List.not_mem_nil, or_false] at hc
      rcases hc with rfl | rfl | rfl | rfl | rfl | rfl <;> rfl
    · rw [jsonTypeOf_other hv hc, jsonTypeOf_other hone hc]

theorem llJsonValueType_refines {a : List (SValue F)} (h0 : 0 ∉ argStr a 0) {fuel : ℕ}
    {r : SValue F} (h : llJsonValueType fuel a = .ok r) : r = Slemu.llJsonValueType a := by
  unfold llJsonValueType at h
  split at h
  · rename_i x path rest
    unfold Slemu.llJsonValueType
    dsimp only
    revert h h0
    generalize argStr (x :: .list path :: rest) 0 = s
    intro h0 h
    obtain ⟨o, hf, h⟩ := bind_eq_ok.mp h
    obtain rfl := findValue_start h0 hf
    cases hj : jsonFindValue path s with
    | none =>
      rw [hj] at h
      cases h
      rfl
    | some v =>
      rw [hj] at h
      have hs := jsonFindValue_suffix hj
      dsimp only [Option.map_some] at h ⊢
      rw [skipWs_pos hs, ok_bind, read_pos ((jsonSkipWs_suffix v).trans hs)] at h
      cases h
      exact congrArg _ (jsonTypeOf_head v)
  · rename_i hn
    cases h
    unfold Slemu.llJsonValueType
    split
    · exact (hn _ _ _ rfl).elim
    · rfl

/-- The length of what is passed over. -/
theorem pos_sub_pos (s : Bytes) {t v : Bytes} (h : t <:+ v) :
    pos s t-pos s v = (v.length-t.length : ℕ) := by
  have hl := h.length_le
  unfold pos
  omega

theorem subObject_refines {s : Bytes} (h0 : 0 ∉ s) {fuel : ℕ} {k sub : Bytes}
    (h : subObject (F := F) s fuel k = .ok sub) :
    sub = ((jsonFindValue [SValue.string (F := F) k] s).map fun r => upTo r (jsonWalk r)).getD
      [123, 125] := by
  unfold subObject at h
  obtain ⟨o, hf, h⟩ := bind_eq_ok.mp h
  obtain rfl := findValue_start h0 hf
  cases hj : jsonFindValue [SValue.string (F := F) k] s with
  | none =>
    rw [hj] at h
    cases h
    rfl
  | some v =>
    rw [hj] at h
    have hs := jsonFindValue_suffix hj
    dsimp only [Option.map_some] at h ⊢
    rw [walk_pos h0 hs, ok_bind, pos_sub_pos s (jsonWalk_suffix v),
      copy_pos hs (Nat.sub_le _ _)] at h
    cases h
    rfl

theorem llJsonSetValue_refines {a : List (SValue F)} (h0 : 0 ∉ argStr a 0) {fuel : ℕ} {r : SValue F}
    (h : llJsonSetValue fuel a = .ok r) : r = Slemu.llJsonSetValue a := by
  unfold llJsonSetValue at h
  split at h
  · rename_i x k y rest
    unfold Slemu.llJsonSetValue
    dsimp only
    obtain ⟨out, hp, h⟩ := bind_eq_ok.mp h
    cases h
    exact congrArg _ (put_refines h0 hp)
  · rename_i x k1 k2 y rest
    unfold Slemu.llJsonSetValue
    dsimp only
    revert h h0
    generalize argStr (x :: .list [.string k1, .string k2] :: y :: rest) 0 = s
    intro h0 h
    obtain ⟨sub, hsub, h⟩ := bind_eq_ok.mp h
    obtain ⟨new, hnew, h⟩ := bind_eq_ok.mp h
    obtain ⟨out, hp, h⟩ := bind_eq_ok.mp h
    cases h
    have h1 := subObject_refines h0 hsub
    have h2 := put_refines (subObject_ok h0 hsub) hnew
    have h3 := put_refines h0 hp
    rw [h3, h2, h1]
    cases jsonFindValue [SValue.string (F := F) k1] s with
    | none => rfl
    | some v => rfl
  · rename_i hn1 hn2
    cases h
    unfold Slemu.llJsonSetValue
    split
    · rename_i he
      cases he
      exact (hn1 _ _ _ rfl).elim
    · rename_i he
      cases he
      exact (hn2 _ _ _ _ rfl).elim
    · rename_i he
      cases he
      rfl
    · rename_i he
      cases he
  · cases h
    rfl

theorem llJson2List_refines {a : List (SValue F)} (h0 : 0 ∉ argStr a 0) {fuel : ℕ} {r : SValue F}
    (h : llJson2List fuel a = .ok r) : r = Slemu.llJson2List a := by
  unfold llJson2List at h
  unfold Slemu.llJson2List
  revert h h0
  generalize argStr a 0 = s
  intro h0 h
  have hs := jsonSkipWs_suffix s
  rw [pos_self s, skipWs_pos List.suffix_rfl, ok_bind, read_pos hs, ok_bind] at h
  have hlist {c : UInt8} {u : Bytes} (hu : jsonSkipWs s = c :: u) (hc : c = 91 ∨ c = 123) :
      r = .list ((jsonListFrom (c = 123) u).map .string) := by
    rw [hu] at h hs
    rw [List.headD_cons, if_pos hc, ptr_next hs, ok_bind] at h
    obtain ⟨l, hl, h⟩ := bind_eq_ok.mp h
    cases h
    rw [listLoop_refines h0 (.of_bracket hs) hl]
  dsimp only
  split
  · rename_i u hu
    exact hlist hu (.inl rfl)
  · rename_i u hu
    exact hlist hu (.inr rfl)
  · rename_i h91 h123
    have hne : ¬ ((jsonSkipWs s).headD 0 = 91 ∨ (jsonSkipWs s).headD 0 = 123) := by
      rintro (hh | hh)
      · obtain ⟨t, ht⟩ := List.head?_eq_some_iff.mp ((headD_eq_iff (by decide)).mp hh)
        exact h91 t ht
      · obtain ⟨t, ht⟩ := List.head?_eq_some_iff.mp ((headD_eq_iff (by decide)).mp hh)
        exact h123 t ht
    rw [if_neg hne, copyRest_pos hs] at h
    cases h
    rfl

/-- What `f` returns with any number of turns is `r`; and if `good` holds, it returns with more than
`n` turns. -/
def Computes {α : Type} (good : Prop) (n : ℕ) (f : ℕ → Checked α) (r : α) : Prop :=
  (∀ fuel x, f fuel = .ok x → x = r) ∧ (good → ∀ fuel, n < fuel → f fuel = .ok r)

theorem Computes.of_returns {α : Type} {good : Prop} {n : ℕ} {f : ℕ → Checked α} {r : α}
    (h : ∀ fuel x, f fuel = .ok x → x = r) (hr : good → ∀ fuel, n < fuel → ∃ x, f fuel = .ok x) :
    Computes good n f r := by
  refine ⟨h, fun hg fuel hf => ?_⟩
  obtain ⟨x, hx⟩ := hr hg fuel hf
  rw [hx, h fuel x hx]

theorem llJsonGetValue_ends {s : Bytes} (h0 : 0 ∉ s) {path : List (SValue F)}
    (h : ¬ OnPath Stuck path s) {fuel : ℕ} (hf : s.length < fuel) :
    ∃ r, llJsonGetValue fuel [.string s, .list path] = .ok r := by
  obtain ⟨o, ho⟩ := findValue_ends h0 List.suffix_rfl h hf
  rw [← pos_self s] at ho
  have harg : argStr [SValue.string s, .list path] 0 = s := rfl
  change ∃ r, (findValue s fuel path 0 >>= _) = .ok r
  rw [ho, ok_bind]
  obtain rfl := findValue_start h0 ho
  cases hv : jsonFindValue path s with
  | none => exact ⟨_, rfl⟩
  | some v =>
    have hs := jsonFindValue_suffix hv
    dsimp only [Option.map_some]
    rw [harg, walk_pos h0 hs, ok_bind, extractValue_pos hs (jsonWalk_suffix v)]
    exact ⟨_, rfl⟩

theorem llJsonValueType_ends {s : Bytes} (h0 : 0 ∉ s) {path : List (SValue F)}
    (h : ¬ OnPath Stuck path s) {fuel : ℕ} (hf : s.length < fuel) :
    ∃ r, llJsonValueType fuel [.string s, .list path] = .ok r := by
  obtain ⟨o, ho⟩ := findValue_ends h0 List.suffix_rfl h hf
  rw [← pos_self s] at ho
  have harg : argStr [SValue.string s, .list path] 0 = s := rfl
  change ∃ r, (findValue s fuel path 0 >>= _) = .ok r
  rw [ho, ok_bind]
  obtain rfl := findValue_start h0 ho
  cases hv : jsonFindValue path s with
  | none => exact ⟨_, rfl⟩
  | some v =>
    have hs := jsonFindValue_suffix hv
    dsimp only [Option.map_some]
    rw [harg, skipWs_pos hs, ok_bind, read_pos ((jsonSkipWs_suffix v).trans hs)]
    exact ⟨_, rfl⟩

theorem subObject_ends {s : Bytes} (h0 : 0 ∉ s) {k : Bytes}
    (h : ¬ OnPath Stuck [SValue.string (F := F) k] s) {fuel : ℕ} (hf : s.length < fuel) :
    ∃ sub, subObject (F := F) s fuel k = .ok sub := by
  obtain ⟨o, ho⟩ := findValue_ends h0 List.suffix_rfl h hf
  rw [← pos_self s] at ho
  unfold subObject
  rw [ho, ok_bind]
  obtain rfl := findValue_start h0 ho
  cases hv : jsonFindValue [SValue.string (F := F) k] s with
  | none => exact ⟨_, rfl⟩
  | some v =>
    have hs := jsonFindValue_suffix hv
    dsimp only [Option.map_some]
    rw [walk_pos h0 hs, ok_bind, pos_sub_pos s (jsonWalk_suffix v), copy_pos hs (Nat.sub_le _ _)]
    exact ⟨_, rfl⟩

/-- The empty object may be longer than the text. -/
theorem subObject_length {s : Bytes} (h0 : 0 ∉ s) {fuel : ℕ} {k sub : Bytes}
    (h : subObject (F := F) s fuel k = .ok sub) : sub.length ≤ s.length+2 := by
  rw [subObject_refines h0 h]
  cases hv : jsonFindValue [SValue.string (F := F) k] s with
  | none => exact Nat.le_add_left _ _
  | some v =>
    have hl := (jsonFindValue_suffix hv).length_le
    exact (List.length_take_le' _ _).trans (hl.trans (Nat.le_add_right _ _))

/-- With a string for a step, only the loop over the members can get stuck. -/
theorem stuck_key {s k : Bytes} (h : OnPath Stuck [SValue.string (F := F) k] s) :
    KeyCut (.string (F := F) k) s := by
  rcases onPath_singleton.mp h with h | h
  · exact h
  · cases h

theorem llJsonSetValue_ends {s : Bytes} (h0 : 0 ∉ s) {path : List (SValue F)} (v : SValue F)
    (h : ¬ SetCut path s) {fuel : ℕ} (hf : s.length+2 < fuel) :
    ∃ r, llJsonSetValue fuel [.string s, .list path, v] = .ok r := by
  have hput {t : Bytes} (ht : 0 ∉ t) (hl : t.length ≤ s.length+2) (k new : Bytes) :
      ∃ out, put t fuel k new = .ok out := put_ends ht k new (hl.trans_lt hf)
  by_cases h2 : ∃ k1 k2, path = [.string k1, .string k2]
  · obtain ⟨k1, k2, rfl⟩ := h2
    have hcut : ¬ OnPath Stuck [SValue.string (F := F) k1] s :=
      fun hn => h ⟨k1, k2, rfl, stuck_key hn⟩
    obtain ⟨sub, hsub⟩ := subObject_ends h0 hcut (by omega : s.length < fuel)
    obtain ⟨new, hnew⟩ := hput (subObject_ok h0 hsub) (subObject_length h0 hsub) k2
      (jsonQuoted (argStr [.string s, .list [.string k1, .string k2], v] 2))
    obtain ⟨out, hout⟩ := hput h0 (Nat.le_add_right _ _) k1 new
    have hset : llJsonSetValue fuel [.string s, .list [.string k1, .string k2], v] =
        (subObject (F := F) s fuel k1 >>= fun sub =>
          objSetTop sub fuel k2 (argStr [.string s, .list [.string k1, .string k2], v] 2) >>=
            fun new => put s fuel k1 new >>= fun out => pure (.string out)) := rfl
    unfold objSetTop at hset
    rw [hset, hsub, ok_bind, hnew, ok_bind, hout]
    exact ⟨_, rfl⟩
  · by_cases h1 : ∃ k, path = [.string k]
    · obtain ⟨k, rfl⟩ := h1
      obtain ⟨out, hout⟩ := hput h0 (Nat.le_add_right _ _) k
        (jsonQuoted (argStr [.string s, .list [.string k], v] 2))
      have hset : llJsonSetValue fuel [.string s, .list [.string k], v] =
          (put s fuel k (jsonQuoted (argStr [.string s, .list [.string k], v] 2)) >>= fun out =>
            pure (.string out)) := rfl
      rw [hset, hout]
      exact ⟨_, rfl⟩
    · -- with any other path the text stays as it is
      unfold llJsonSetValue
      split
      · rename_i he
        cases he
        exact absurd ⟨_, rfl⟩ h1
      · rename_i he
        cases he
        exact absurd ⟨_, _, rfl⟩ h2
      · exact ⟨_, rfl⟩
      · exact ⟨_, rfl⟩

/-- For every text and path: what the functions with pointers return is what the functions on texts
say, and they do return, unless they get stuck. -/
theorem json_refines {s : Bytes} (h0 : 0 ∉ s) (path : List (SValue F)) (v : SValue F) :
    Computes (¬ OnPath Stuck path s) s.length (llJsonGetValue · [.string s, .list path])
      (Slemu.llJsonGetValue [.string s, .list path]) ∧
    Computes (¬ OnPath Stuck path s) s.length (llJsonValueType · [.string s, .list path])
      (Slemu.llJsonValueType [.string s, .list path]) ∧
    Computes (¬ SetCut path s) (s.length+2) (llJsonSetValue · [.string s, .list path, v])
      (Slemu.llJsonSetValue [.string s, .list path, v]) ∧
    Computes (¬ ListCut s) s.length (llJson2List · [.string (F := F) s])
      (Slemu.llJson2List [.string s]) := by
  refine ⟨.of_returns (fun fuel r h => ?_) fun h _ => llJsonGetValue_ends h0 h,
    .of_returns (fun fuel r h => ?_) fun h _ => llJsonValueType_ends h0 h,
    .of_returns (fun fuel r h => ?_) fun h _ => llJsonSetValue_ends h0 v h,
    .of_returns (fun fuel r h => ?_) fun h _ => llJson2List_ends h0 h⟩
  · exact llJsonGetValue_refines (a := [.string s, .list path]) h0 h
  · exact llJsonValueType_refines (a := [.string s, .list path]) h0 h
  · exact llJsonSetValue_refines (a := [.string s, .list path, v]) h0 h
  · exact llJson2List_refines (a := [.string s]) h0 h

/-- A member of an object cut off behind its value. -/
theorem json_refines_object :
    let s := lit "\x7b\"a\":[1"
    let path : List (SValue ℚ) := [.string (lit "a"), .int 0]
    Computes (¬ OnPath Stuck path s) s.length (llJsonGetValue · [.string s, .list path])
      (Slemu.llJsonGetValue [.string s, .list path]) ∧
    Computes (¬ OnPath Stuck path s) s.length (llJsonValueType · [.string s, .list path])
      (Slemu.llJsonValueType [.string s, .list path]) ∧
    Computes (¬ SetCut path s) (s.length+2) (llJsonSetValue · [.string s, .list path, .int 2])
      (Slemu.llJsonSetValue [.string s, .list path, .int 2]) ∧
    Computes (¬ ListCut s) s.length (llJson2List · [.string (F := ℚ) s])
      (Slemu.llJson2List [.string s]) :=
  json_refines (by decide +kernel) _ (.int 2)

end JsonAt
end Slemu
