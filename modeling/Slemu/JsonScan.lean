import Slemu.JsonBuiltins

/-! What the scanners of the JSON builtins do on the texts of documents. -/

namespace Slemu
open Json (Ws Str Key Doc)

/-! ### Strings -/

/-- No quote ends a string with these characters early, and no backslash at its end takes the
closing quote away. -/
def jsonWalkable : Bytes → Bool
  | c :: d :: t =>
    if c = 92 then jsonWalkable t else if c = 34 then false else jsonWalkable (d :: t)
  | [c] => c ≠ 92 && c ≠ 34
  | [] => true

theorem jsonStrEnd_suffix (p : Bytes) : jsonStrEnd p <:+ p := by
  fun_induction jsonStrEnd p with
  | case1 d t ih => exact ih.trans ((List.suffix_cons d t).trans (List.suffix_cons _ _))
  | case2 d t _ => exact List.suffix_cons _ _
  | case3 c d t _ _ ih => exact ih.trans (List.suffix_cons _ _)
  | case4 p _ => exact List.nil_suffix

theorem jsonStrEnd_quote (t : Bytes) : jsonStrEnd (34 :: t) = t := by
  cases t <;> rfl

theorem jsonStrEnd_escape (c : UInt8) (t : Bytes) : jsonStrEnd (92 :: c :: t) = jsonStrEnd t := by
  cases t <;> rfl

theorem jsonStrEnd_cons {c : UInt8} (t : Bytes) (h92 : c ≠ 92) (h34 : c ≠ 34) :
    jsonStrEnd (c :: t) = jsonStrEnd t := by
  cases t with
  | nil => rfl
  | cons d t => rw [jsonStrEnd, if_neg h92, if_neg h34]

theorem jsonWalkable_escape (c : UInt8) (t : Bytes) :
    jsonWalkable (92 :: c :: t) = jsonWalkable t := rfl

theorem jsonWalkable_cons {c : UInt8} (t : Bytes) (h92 : c ≠ 92) (h34 : c ≠ 34) :
    jsonWalkable (c :: t) = jsonWalkable t := by
  cases t with
  | nil => simp [jsonWalkable, h92, h34]
  | cons d t => rw [jsonWalkable, if_neg h92, if_neg h34]

theorem jsonStrEnd_append {u : Bytes} (hu : jsonWalkable u) (t : Bytes) :
    jsonStrEnd (u ++ t) = jsonStrEnd t := by
  fun_induction jsonWalkable u with
  | case1 d u ih =>
    rw [List.cons_append, List.cons_append, jsonStrEnd_escape]
    exact ih hu
  | case2 d u _ => cases hu
  | case3 c d t h92 h34 ih =>
    rw [List.cons_append, jsonStrEnd_cons _ h92 h34]
    exact ih hu
  | case4 c =>
    simp only [ne_eq, Bool.and_eq_true, decide_eq_true_eq] at hu
    exact jsonStrEnd_cons _ hu.1 hu.2
  | case5 => rfl

/-- The scan of a string stops behind its closing quote. -/
theorem jsonStrEnd_of_walkable {s : Bytes} (rest : Bytes) (h : jsonWalkable s) :
    jsonStrEnd (s ++ 34 :: rest) = rest := by
  rw [jsonStrEnd_append h]
  exact jsonStrEnd_quote rest

theorem jsonWalkable_append {s : Bytes} (t : Bytes) (h : jsonWalkable s) :
    jsonWalkable (s ++ t) = jsonWalkable t := by
  fun_induction jsonWalkable s with
  | case1 d s ih => exact ih h
  | case2 d s _ => cases h
  | case3 c d s h92 h34 ih =>
    rw [List.cons_append, jsonWalkable_cons _ h92 h34]
    exact ih h
  | case4 c =>
    simp only [ne_eq, Bool.and_eq_true, decide_eq_true_eq] at h
    exact jsonWalkable_cons t h.1 h.2
  | case5 => rfl

theorem jsonWalkable_chr (c : Json.Chr) : jsonWalkable c.raw := by
  cases c with
  | plain c h =>
    simp only [Json.isPlain, Bool.and_eq_true, bne_iff_ne] at h
    simp [Json.Chr.raw, jsonWalkable, h.1.2, h.2]
  | esc c h => rfl
  | hex a b c d h =>
    have hd (c : UInt8) (hc : Json.isHex c) : c ≠ 92 ∧ c ≠ 34 := by
      revert c
      decide +kernel
    rw [Json.Chr.raw, jsonWalkable_escape, jsonWalkable_cons _ (hd a h.1).1 (hd a h.1).2,
      jsonWalkable_cons _ (hd b h.2.1).1 (hd b h.2.1).2,
      jsonWalkable_cons _ (hd c h.2.2.1).1 (hd c h.2.2.1).2,
      jsonWalkable_cons _ (hd d h.2.2.2).1 (hd d h.2.2.2).2]
    rfl

theorem jsonWalkable_raw (s : Str) : jsonWalkable s.raw := by
  induction s with
  | nil => rfl
  | cons c s ih =>
    rw [Str.raw, List.flatMap_cons, jsonWalkable_append _ (jsonWalkable_chr c)]
    exact ih

theorem jsonStrEnd_raw (s : Str) (rest : Bytes) : jsonStrEnd (s.raw ++ 34 :: rest) = rest :=
  jsonStrEnd_of_walkable rest (jsonWalkable_raw s)

example : jsonStrEnd (lit "a\\\"b\" : 1") = lit " : 1" := by decide +kernel

theorem jsonKeyText_walkable {s : Bytes} (rest : Bytes) (h : jsonWalkable s) :
    jsonKeyText (s ++ 34 :: rest) (jsonStrEnd (s ++ 34 :: rest)) = s := by
  have hl : (s ++ 34 :: rest).length-rest.length-1 = s.length := by
    simp only [List.length_append, List.length_cons]
    omega
  rw [jsonStrEnd_of_walkable rest h, jsonKeyText, hl, List.take_left']
  rfl

/-! ### Whitespace -/

theorem jsonSkipWs_append {w : Bytes} (t : Bytes) (hw : ∀ c ∈ w, Json.isWs c) :
    jsonSkipWs (w ++ t) = jsonSkipWs t := List.dropWhile_append_of_pos hw

theorem jsonSkipWs_text (j : Json) (t : Bytes) : jsonSkipWs (j.text ++ t) = j.text ++ t := by
  obtain ⟨c, u, he, hc⟩ := j.text_eq_cons
  rw [he, List.cons_append]
  exact jsonSkipWs_cons _ (Json.not_ws_of_isOpening hc)

theorem upTo_append (a b : Bytes) : upTo (a ++ b) b = a := by
  rw [upTo, List.length_append, Nat.add_sub_cancel, List.take_left']
  rfl

/-! ### Brackets -/

/-- The two kinds of brackets. -/
def IsBrackets (op cl : UInt8) : Prop := (op = 123 ∧ cl = 125) ∨ (op = 91 ∧ cl = 93)

/-- Inside brackets of the kind counted, the scan for the closing one runs over these
characters and is where it was. -/
def Passes (op cl : UInt8) (b : Bytes) : Prop :=
  ∀ (d : ℤ) (rest : Bytes), 0 < d → jsonClose op cl d (b ++ rest) = jsonClose op cl d rest

namespace Passes
variable {op cl : UInt8}

theorem nil : Passes op cl [] := fun _ _ _ => rfl

theorem append {a b : Bytes} (ha : Passes op cl a) (hb : Passes op cl b) :
    Passes op cl (a ++ b) := by
  intro d rest hd
  rw [List.append_assoc, ha d _ hd, hb d rest hd]

theorem cons {c : UInt8} {b : Bytes} (hq : c ≠ 34) (ho : c ≠ op) (hc : c ≠ cl)
    (hb : Passes op cl b) : Passes op cl (c :: b) := by
  intro d rest hd
  rw [List.cons_append, jsonClose, if_neg hq, if_neg ho, if_neg hc]
  exact hb d rest hd

theorem of_forall {b : Bytes} (h : ∀ c ∈ b, c ≠ 34 ∧ c ≠ op ∧ c ≠ cl) : Passes op cl b := by
  induction b with
  | nil => exact nil
  | cons c b ih =>
    obtain ⟨hq, ho, hc⟩ := h c List.mem_cons_self
    exact cons hq ho hc (ih fun d hd => h d (List.mem_cons_of_mem c hd))

theorem ws (h : IsBrackets op cl) {w : Bytes} (hw : ∀ c ∈ w, Json.isWs c) : Passes op cl w := by
  have hd : ∀ c, Json.isWs c → c ≠ 34 ∧ c ≠ 123 ∧ c ≠ 125 ∧ c ≠ 91 ∧ c ≠ 93 := by decide +kernel
  apply of_forall
  intro c hc
  obtain ⟨hq, h1, h2, h3, h4⟩ := hd c (hw c hc)
  rcases h with ⟨rfl, rfl⟩ | ⟨rfl, rfl⟩
  · exact ⟨hq, h1, h2⟩
  · exact ⟨hq, h3, h4⟩

theorem quoted {s : Bytes} (hs : jsonWalkable s) : Passes op cl (34 :: s ++ [34]) := by
  intro d rest _
  rw [List.append_assoc, List.cons_append, jsonClose, if_pos rfl, List.singleton_append,
    jsonStrEnd_of_walkable rest hs]

/-- A pair of brackets around what the scan runs over. -/
theorem bracketed (h : IsBrackets op cl) {o c : UInt8} (hoc : IsBrackets o c) {b : Bytes}
    (hb : Passes op cl b) : Passes op cl (o :: b ++ [c]) := by
  by_cases he : o = op
  · -- the kind that is counted: one level down and up again
    have hc : c = cl := by
      rcases h with ⟨rfl, rfl⟩ | ⟨rfl, rfl⟩ <;> rcases hoc with ⟨rfl, rfl⟩ | ⟨rfl, rfl⟩ <;>
        simp at he ⊢
    subst he hc
    have ho : o ≠ 34 := by rcases h with ⟨rfl, -⟩ | ⟨rfl, -⟩ <;> decide
    have hc : c ≠ 34 ∧ c ≠ o := by rcases h with ⟨rfl, rfl⟩ | ⟨rfl, rfl⟩ <;> decide
    intro d rest hd
    have hd1 : ¬ d+1-1 = 0 := by omega
    rw [List.append_assoc, List.cons_append, jsonClose, if_neg ho, if_pos rfl,
      hb (d+1) _ (by omega), List.singleton_append, jsonClose, if_neg hc.1, if_neg hc.2, if_pos rfl,
      if_neg hd1, add_sub_cancel_right]
  · -- the other kind: two ordinary characters
    have hn : (o ≠ 34 ∧ o ≠ cl) ∧ c ≠ 34 ∧ c ≠ op ∧ c ≠ cl := by
      rcases h with ⟨rfl, rfl⟩ | ⟨rfl, rfl⟩ <;> rcases hoc with ⟨rfl, rfl⟩ | ⟨rfl, rfl⟩ <;>
        first | exact absurd rfl he | decide
    obtain ⟨⟨h1, h2⟩, h3, h4, h5⟩ := hn
    exact append (cons h1 he h2 hb) (cons h3 h4 h5 nil)

theorem comma (h : IsBrackets op cl) {b : Bytes} (hb : Passes op cl b) :
    Passes op cl (44 :: b) := by
  rcases h with ⟨rfl, rfl⟩ | ⟨rfl, rfl⟩ <;> exact cons (by decide) (by decide) (by decide) hb

theorem items (h : IsBrackets op cl) {l : List Bytes} (hl : ∀ b ∈ l, Passes op cl b) :
    Passes op cl (Json.items l) := by
  cases l with
  | nil => exact nil
  | cons a l =>
    refine append (hl a List.mem_cons_self) ?_
    have htail : ∀ b ∈ l, Passes op cl b := fun b hb => hl b (List.mem_cons_of_mem a hb)
    clear hl
    induction l with
    | nil => exact nil
    | cons b l ih =>
      rw [List.flatMap_cons]
      exact append (comma h (htail b List.mem_cons_self))
        (ih fun b hb => htail b (List.mem_cons_of_mem _ hb))

theorem key (h : IsBrackets op cl) (k : Key) : Passes op cl k.text := by
  have hcolon : Passes op cl (58 :: k.gap.bytes) := by
    rcases h with ⟨rfl, rfl⟩ | ⟨rfl, rfl⟩ <;>
      exact cons (by decide) (by decide) (by decide) (ws (by simp [IsBrackets]) k.gap.blank)
  exact append (append (append (ws h k.pre.blank) (quoted (jsonWalkable_raw _)))
    (ws h k.post.blank)) hcolon

theorem members (h : IsBrackets op cl) (w : Ws) {ms : List (Key × Json × Ws)}
    (hm : ∀ m ∈ ms, Passes op cl m.2.1.text) :
    Passes op cl (w.bytes ++ Json.items (Json.memberTexts ms)) := by
  refine append (ws h w.blank) (items h ?_)
  intro b hb
  rw [Json.memberTexts_eq_map] at hb
  obtain ⟨m, hmem, rfl⟩ := List.mem_map.mp hb
  exact append (append (key h m.1) (hm m hmem)) (ws h m.2.2.blank)

theorem elems (h : IsBrackets op cl) (w : Ws) {es : List (Ws × Json × Ws)}
    (he : ∀ e ∈ es, Passes op cl e.2.1.text) :
    Passes op cl (w.bytes ++ Json.items (Json.elemTexts es)) := by
  refine append (ws h w.blank) (items h ?_)
  intro b hb
  rw [Json.elemTexts_eq_map] at hb
  obtain ⟨e, hmem, rfl⟩ := List.mem_map.mp hb
  exact append (append (ws h e.1.blank) (he e hmem)) (ws h e.2.2.blank)

theorem scalar (h : IsBrackets op cl) {j : Json} (hj : j.IsScalar) : Passes op cl j.text := by
  have hd : ∀ c, Json.isSolid c → c ≠ 34 ∧ c ≠ 123 ∧ c ≠ 125 ∧ c ≠ 91 ∧ c ≠ 93 := by
    decide +kernel
  apply of_forall
  intro c hc
  obtain ⟨hq, h1, h2, h3, h4⟩ := hd c (Json.solid_of_isScalar hj c hc)
  rcases h with ⟨rfl, rfl⟩ | ⟨rfl, rfl⟩
  · exact ⟨hq, h1, h2⟩
  · exact ⟨hq, h3, h4⟩

theorem text (h : IsBrackets op cl) (j : Json) : Passes op cl j.text := by
  induction j using Json.induct with
  | hstr s => exact quoted (jsonWalkable_raw s)
  | hnum n => exact scalar h (j := .num n) trivial
  | htrue => exact scalar h (j := .litTrue) trivial
  | hfalse => exact scalar h (j := .litFalse) trivial
  | hnull => exact scalar h (j := .litNull) trivial
  | hobj w ms ih => exact bracketed h (.inl ⟨rfl, rfl⟩) (members h w ih)
  | harr w es ih => exact bracketed h (.inr ⟨rfl, rfl⟩) (elems h w ih)

end Passes

/-- From an opening bracket the scan finds the closing one. -/
theorem jsonClose_bracketed {op cl : UInt8} (h : IsBrackets op cl) {b : Bytes}
    (hb : Passes op cl b) (rest : Bytes) :
    jsonClose op cl 0 (op :: b ++ cl :: rest) = some (cl :: rest) := by
  have ho : op ≠ 34 := by rcases h with ⟨rfl, -⟩ | ⟨rfl, -⟩ <;> decide
  have hc : cl ≠ 34 ∧ cl ≠ op := by rcases h with ⟨rfl, rfl⟩ | ⟨rfl, rfl⟩ <;> decide
  rw [List.cons_append, jsonClose, if_neg ho, if_pos rfl, hb _ _ (by omega), jsonClose,
    if_neg hc.1, if_neg hc.2, if_pos rfl]
  rfl

/-! ### Values -/

/-- What can come after a value in a document: whitespace, and then a comma, a closing bracket
or the end. -/
def Follows (rest : Bytes) : Prop :=
  ∃ w t : Bytes, (∀ c ∈ w, Json.isWs c) ∧ rest = w ++ t ∧
    (t = [] ∨ ∃ c u, t = c :: u ∧ (c = 44 ∨ c = 125 ∨ c = 93))

theorem Follows.intro {w : Bytes} (hw : ∀ c ∈ w, Json.isWs c) {c : UInt8} (t : Bytes)
    (hc : c = 44 ∨ c = 125 ∨ c = 93) : Follows (w ++ c :: t) :=
  ⟨w, c :: t, hw, rfl, .inr ⟨c, t, rfl, hc⟩⟩

theorem Follows.ws {w : Bytes} (hw : ∀ c ∈ w, Json.isWs c) : Follows w :=
  ⟨w, [], hw, (List.append_nil w).symm, .inl rfl⟩

theorem jsonStop_of_closing {c : UInt8} (h : c = 44 ∨ c = 125 ∨ c = 93) : jsonStop c := by
  rcases h with rfl | rfl | rfl <;> rfl

/-- The scan of a number or a name leaves out the whitespace behind it up to a blank, a tab or
a line feed. -/
theorem Follows.cut {rest : Bytes} (h : Follows rest) :
    ∃ w, (∀ c ∈ w, Json.isWs c) ∧ rest = w ++ rest.dropWhile (fun c => !jsonStop c) ∧
      Follows (rest.dropWhile fun c => !jsonStop c) := by
  obtain ⟨w, t, hw, rfl, ht⟩ := h
  induction w with
  | nil =>
    have hcut : t.dropWhile (fun c => !jsonStop c) = t := by
      rcases ht with rfl | ⟨c, u, rfl, hc⟩
      · rfl
      · exact List.dropWhile_cons_of_neg (by simp [jsonStop_of_closing hc])
    simp only [List.nil_append, hcut]
    exact ⟨[], by simp, rfl, [], t, by simp, rfl, ht⟩
  | cons c w ih =>
    have hwt : ∀ c ∈ w, Json.isWs c := fun d hd => hw d (List.mem_cons_of_mem c hd)
    by_cases hc : jsonStop c
    · have hcut : (c :: w ++ t).dropWhile (fun c => !jsonStop c) = c :: w ++ t :=
        List.dropWhile_cons_of_neg (by simp [hc])
      rw [hcut]
      exact ⟨[], by simp, rfl, c :: w, t, hw, rfl, ht⟩
    · have hcut : (c :: w ++ t).dropWhile (fun c => !jsonStop c) =
          (w ++ t).dropWhile fun c => !jsonStop c :=
        List.dropWhile_cons_of_pos (by simp [hc])
      obtain ⟨w', hw', he, hf⟩ := ih hwt
      rw [hcut]
      refine ⟨c :: w', ?_, congrArg (c :: ·) he, hf⟩
      intro d hd
      rcases List.mem_cons.mp hd with rfl | hd
      · exact hw d List.mem_cons_self
      · exact hw' d hd

theorem jsonAfter_text {op cl : UInt8} (h : IsBrackets op cl) {b : Bytes} (hb : Passes op cl b)
    (rest : Bytes) : jsonAfter op cl (op :: b ++ cl :: rest) = rest := by
  rw [jsonAfter, jsonClose_bracketed h hb]
  rfl

theorem jsonWalk_scalar {j : Json} (hj : j.IsScalar) (rest : Bytes) :
    jsonWalk (j.text ++ rest) = rest.dropWhile fun c => !jsonStop c := by
  obtain ⟨c, t, he⟩ := List.exists_cons_of_ne_nil (Json.text_ne_of_isScalar hj)
  have hsolid := Json.solid_of_isScalar hj
  have hd : ∀ c, Json.isSolid c → c ≠ 34 ∧ c ≠ 123 ∧ c ≠ 91 ∧ jsonStop c = false := by
    decide +kernel
  have hc := hd c (hsolid c (he ▸ List.mem_cons_self))
  rw [jsonWalk, jsonSkipWs_text]
  have hall : (j.text ++ rest).dropWhile (fun c => !jsonStop c) =
      rest.dropWhile fun c => !jsonStop c := by
    apply List.dropWhile_append_of_pos
    intro d hm
    simp [(hd d (hsolid d hm)).2.2.2]
  rw [← hall, he, List.cons_append]
  split
  all_goals rename_i h'
  · exact absurd (List.cons.inj h').1 hc.1
  · exact absurd (List.cons.inj h').1 hc.2.1
  · exact absurd (List.cons.inj h').1 hc.2.2.1
  · rfl

theorem jsonWalk_quoted {s : Bytes} (hs : jsonWalkable s) (rest : Bytes) :
    jsonWalk (34 :: s ++ 34 :: rest) = rest := by
  rw [jsonWalk, List.cons_append, jsonSkipWs_cons _ rfl]
  exact jsonStrEnd_of_walkable rest hs

theorem jsonWalk_str (t : Str) (rest : Bytes) : jsonWalk ((Json.str t).text ++ rest) = rest := by
  have h := jsonWalk_quoted (jsonWalkable_raw t) rest
  simpa only [Json.text, Str.text, List.append_assoc, List.cons_append, List.nil_append] using h

theorem jsonWalk_obj (w : Ws) (ms : List (Key × Json × Ws)) (rest : Bytes) :
    jsonWalk ((Json.obj w ms).text ++ rest) = rest := by
  have hp := Passes.members (.inl ⟨rfl, rfl⟩) w fun m (_ : m ∈ ms) =>
    Passes.text (.inl ⟨rfl, rfl⟩) m.2.1
  have h := jsonAfter_text (.inl ⟨rfl, rfl⟩) hp rest
  rw [jsonWalk, jsonSkipWs_text]
  simpa only [Json.text, List.append_assoc, List.cons_append, List.nil_append] using h

theorem jsonWalk_arr (w : Ws) (es : List (Ws × Json × Ws)) (rest : Bytes) :
    jsonWalk ((Json.arr w es).text ++ rest) = rest := by
  have hp := Passes.elems (.inr ⟨rfl, rfl⟩) w fun e (_ : e ∈ es) =>
    Passes.text (.inr ⟨rfl, rfl⟩) e.2.1
  have h := jsonAfter_text (.inr ⟨rfl, rfl⟩) hp rest
  rw [jsonWalk, jsonSkipWs_text]
  simpa only [Json.text, List.append_assoc, List.cons_append, List.nil_append] using h

/-- `json_walk` runs over a value, and over some of the whitespace behind it. -/
theorem jsonWalk_text (j : Json) {rest : Bytes} (hr : Follows rest) :
    ∃ w, (∀ c ∈ w, Json.isWs c) ∧ rest = w ++ jsonWalk (j.text ++ rest) ∧
      Follows (jsonWalk (j.text ++ rest)) := by
  have hexact (h : jsonWalk (j.text ++ rest) = rest) :
      ∃ w, (∀ c ∈ w, Json.isWs c) ∧ rest = w ++ jsonWalk (j.text ++ rest) ∧
        Follows (jsonWalk (j.text ++ rest)) := by
    rw [h]
    exact ⟨[], by simp, rfl, hr⟩
  have hscalar (h : j.IsScalar) :
      ∃ w, (∀ c ∈ w, Json.isWs c) ∧ rest = w ++ jsonWalk (j.text ++ rest) ∧
        Follows (jsonWalk (j.text ++ rest)) := by
    rw [jsonWalk_scalar h]
    exact hr.cut
  cases j with
  | str s => exact hexact (jsonWalk_str s rest)
  | obj w ms => exact hexact (jsonWalk_obj w ms rest)
  | arr w es => exact hexact (jsonWalk_arr w es rest)
  | _ => exact hscalar trivial

example : jsonWalk (lit "[1, \"]\"] , 2") = lit " , 2" := by decide +kernel

theorem jsonSkipWs_walk (j : Json) {rest : Bytes} (hr : Follows rest) :
    jsonSkipWs (jsonWalk (j.text ++ rest)) = jsonSkipWs rest := by
  obtain ⟨w, hw, he, -⟩ := jsonWalk_text j hr
  conv_rhs => rw [he]
  exact (jsonSkipWs_append _ hw).symm

theorem jsonExtractValue_eq_strip {b w : Bytes} (hw : ∀ c ∈ w, Json.isWs c)
    (hf : ∃ c t, b = c :: t ∧ Json.isWs c = false)
    (hl : ∃ t c, b = t ++ [c] ∧ Json.isWs c = false) :
    jsonExtractValue (b ++ w) = jsonStrip b := by
  have hfirst : (b ++ w).dropWhile Json.isWs = b ++ w := by
    obtain ⟨c, t, rfl, hc⟩ := hf
    exact List.dropWhile_cons_of_neg (by simp [hc])
  have hlast : (b ++ w).rdropWhile Json.isWs = b := by
    have hwr : ∀ c ∈ w.reverse, Json.isWs c := fun c hc => hw c (List.mem_reverse.mp hc)
    obtain ⟨t, c, rfl, hc⟩ := hl
    rw [List.rdropWhile, List.reverse_append, List.dropWhile_append_of_pos hwr,
      List.reverse_append, List.reverse_singleton, List.singleton_append,
      List.dropWhile_cons_of_neg (by simp [hc]), List.reverse_cons, List.reverse_reverse]
  rw [jsonExtractValue, hfirst, hlast]

theorem jsonStrip_quoted (s : Bytes) : jsonStrip (34 :: s ++ [34]) = s := by
  rw [List.cons_append, jsonStrip, if_pos (by simp), List.dropLast_concat]

theorem jsonStrip_cons {c : UInt8} (t : Bytes) (hc : c ≠ 34) : jsonStrip (c :: t) = c :: t := by
  unfold jsonStrip
  split
  · rename_i h
    exact absurd (List.cons.inj h).1 hc
  · rfl

theorem jsonStrip_text (j : Json) : jsonStrip j.text = j.value := by
  have hscalar (h : j.IsScalar) : jsonStrip j.text = j.text := by
    have hd : ∀ c, Json.isSolid c → c ≠ 34 := by decide +kernel
    obtain ⟨c, t, he⟩ := List.exists_cons_of_ne_nil (Json.text_ne_of_isScalar h)
    have hc := hd c (Json.solid_of_isScalar h c (he ▸ List.mem_cons_self))
    rw [he]
    exact jsonStrip_cons t hc
  cases j with
  | str s => exact jsonStrip_quoted s.raw
  | obj w ms => exact jsonStrip_cons _ (by decide)
  | arr w es => exact jsonStrip_cons _ (by decide)
  | _ => exact hscalar trivial

/-- What the readers take from where a value starts. -/
theorem jsonExtractValue_text (j : Json) {rest : Bytes} (hr : Follows rest) :
    jsonExtractValue (upTo (j.text ++ rest) (jsonWalk (j.text ++ rest))) = j.value := by
  obtain ⟨w, hw, he, -⟩ := jsonWalk_text j hr
  have hup : upTo (j.text ++ rest) (jsonWalk (j.text ++ rest)) = j.text ++ w := by
    have h := upTo_append (j.text ++ w) (jsonWalk (j.text ++ rest))
    rwa [List.append_assoc, ← he] at h
  obtain ⟨c, t, hf, hc⟩ := j.text_eq_cons
  rw [hup, jsonExtractValue_eq_strip hw ⟨c, t, hf, Json.not_ws_of_isOpening hc⟩ j.text_eq_append,
    jsonStrip_text]

end Slemu
