import Slemu.JsonScan

/-! What `llJsonGetValue` and `llJsonValueType` find in a document. -/

namespace Slemu
open Json (Ws Str Key Doc Step memberText elemText)
variable {F : Type}

/-- A step of a path as a script passes it. -/
def stepArg : Step → SValue F
  | .key k => .string k
  | .idx i => .int i

/-- A search ended where a node starts, or with nothing where there is none. -/
def Finds (found : Option Bytes) : Option Json → Prop
  | some n => ∃ rest, Follows rest ∧ found = some (n.text ++ rest)
  | none => found = none

/-! ### Members -/

theorem jsonMember_text (k : Key) (t : Bytes) :
    jsonMember (jsonSkipWs (k.text ++ t)) = some (k.name.raw, jsonSkipWs t) := by
  have hk : k.text ++ t = k.pre.bytes ++ 34 :: (k.name.raw ++ 34 ::
      (k.post.bytes ++ 58 :: (k.gap.bytes ++ t))) := by
    simp only [Key.text, Str.text, List.append_assoc, List.cons_append, List.nil_append]
  have hpost : jsonSkipWs (k.post.bytes ++ 58 :: (k.gap.bytes ++ t)) = 58 :: (k.gap.bytes ++ t) := by
    rw [jsonSkipWs_append _ k.post.blank]
    exact jsonSkipWs_cons _ rfl
  have hkey := jsonKeyText_walkable (k.post.bytes ++ 58 :: (k.gap.bytes ++ t))
    (jsonWalkable_raw k.name)
  rw [jsonStrEnd_raw] at hkey
  rw [hk, jsonSkipWs_append _ k.pre.blank, jsonSkipWs_cons _ rfl]
  simp only [jsonMember, jsonStrEnd_raw, hpost, hkey, jsonSkipWs_append _ k.gap.blank]

theorem jsonFindKey_ws (k : Bytes) {w : Bytes} (hw : ∀ c ∈ w, Json.isWs c) (t : Bytes) :
    jsonFindKey k (w ++ t) = jsonFindKey k t := by
  rw [jsonFindKey, jsonFindKey, jsonSkipWs_append t hw]

theorem jsonFindKey_hit {k : Bytes} (key : Key) (hk : key.name.raw = k) (t : Bytes) :
    jsonFindKey k (key.text ++ t) = some (jsonSkipWs t) := by
  rw [jsonFindKey, jsonMember_text]
  simp only [if_pos hk]

/-- The scan of an object goes from one member to the next. -/
theorem jsonFindKey_skip {k : Bytes} (m : Key × Json × Ws) (hk : m.1.name.raw ≠ k) {c : UInt8}
    (hc : c = 44 ∨ c = 125 ∨ c = 93) (t : Bytes) :
    jsonFindKey k (memberText m ++ c :: t) =
      if c = 125 then none else jsonFindKey k (jsonComma (c :: t)) := by
  have hws : Json.isWs c = false := by rcases hc with rfl | rfl | rfl <;> rfl
  have hnext : jsonSkipWs (jsonWalk (m.2.1.text ++ (m.2.2.bytes ++ c :: t))) = c :: t := by
    rw [jsonSkipWs_walk _ (Follows.intro m.2.2.blank t hc), jsonSkipWs_append _ m.2.2.blank]
    exact jsonSkipWs_cons t hws
  rw [memberText, List.append_assoc, List.append_assoc, jsonFindKey, jsonMember_text]
  simp only [jsonSkipWs_text, if_neg hk, hnext, List.head?_cons, Option.some.injEq]

theorem jsonFindKey_skips {k : Bytes} {ms : List (Key × Json × Ws)}
    (h : ∀ m ∈ ms, m.1.name.raw ≠ k) (t : Bytes) :
    jsonFindKey k (ms.flatMap (fun m => memberText m ++ [44]) ++ t) = jsonFindKey k t := by
  induction ms with
  | nil => rfl
  | cons m ms ih =>
    have hm := h m List.mem_cons_self
    have ht := ih fun m' hm' => h m' (List.mem_cons_of_mem m hm')
    rw [List.flatMap_cons, List.append_assoc, List.append_assoc, List.singleton_append,
      jsonFindKey_skip m hm (.inl rfl), if_neg (by decide)]
    exact ht

theorem jsonFindKey_empty (k t : Bytes) : jsonFindKey k (125 :: t) = none := by
  rw [jsonFindKey, jsonSkipWs_cons t rfl]
  rfl

theorem jsonFindKey_none {k : Bytes} {ms : List (Key × Json × Ws)}
    (h : ∀ m ∈ ms, m.1.name.raw ≠ k) (t : Bytes) :
    jsonFindKey k (Json.items (Json.memberTexts ms) ++ 125 :: t) = none := by
  rw [Json.memberTexts_eq_map]
  rcases List.eq_nil_or_concat' ms with rfl | ⟨ms, m, rfl⟩
  · exact jsonFindKey_empty k t
  · have hm := h m (List.mem_append_right ms List.mem_cons_self)
    have hms : ∀ m ∈ ms, m.1.name.raw ≠ k := fun m hm => h m (List.mem_append_left _ hm)
    rw [List.map_append, List.map_singleton, Json.items_append, List.flatMap_map,
      List.append_assoc, jsonFindKey_skips hms, List.flatMap_nil, List.append_nil,
      jsonFindKey_skip m hm (.inr (.inl rfl)), if_pos rfl]

/-- A list of members up to the first one under a key. -/
theorem split_of_findKey {k : Bytes} {ms : List (Key × Json × Ws)} {v : Json}
    (h : Json.findKey k ms = some v) :
    ∃ ms₁ key w ms₂, ms = ms₁ ++ (key, v, w) :: ms₂ ∧ (∀ m ∈ ms₁, m.1.name.raw ≠ k) ∧
      key.name.raw = k := by
  obtain ⟨m, hm, rfl⟩ := Option.map_eq_some_iff.mp h
  obtain ⟨hk, ms₁, ms₂, rfl, hms⟩ := List.find?_eq_some_iff_append.mp hm
  refine ⟨ms₁, m.1, m.2.2, ms₂, rfl, ?_, by simpa using hk⟩
  intro m' hm'
  simpa using hms m' hm'

theorem findKey_eq_none {k : Bytes} {ms : List (Key × Json × Ws)}
    (h : Json.findKey k ms = none) : ∀ m ∈ ms, m.1.name.raw ≠ k := by
  intro m hm
  rw [Json.findKey, Option.map_eq_none_iff, List.find?_eq_none] at h
  simpa using h m hm

/-- What comes after a member of an object. -/
def memberRest (w : Ws) (ms : List (Key × Json × Ws)) (t : Bytes) : Bytes :=
  w.bytes ++ ((ms.flatMap fun m => 44 :: memberText m) ++ 125 :: t)

theorem follows_memberRest (w : Ws) (ms : List (Key × Json × Ws)) (t : Bytes) :
    Follows (memberRest w ms t) := by
  cases ms with
  | nil => exact Follows.intro w.blank t (.inr (.inl rfl))
  | cons m ms =>
    rw [memberRest, List.flatMap_cons, List.cons_append, List.cons_append]
    exact Follows.intro w.blank _ (.inl rfl)

theorem members_split (ms₁ : List (Key × Json × Ws)) (key : Key) (v : Json) (w : Ws)
    (ms₂ : List (Key × Json × Ws)) (t : Bytes) :
    Json.items (Json.memberTexts (ms₁ ++ (key, v, w) :: ms₂)) ++ 125 :: t =
      ms₁.flatMap (fun m => memberText m ++ [44]) ++
        (key.text ++ (v.text ++ memberRest w ms₂ t)) := by
  rw [Json.memberTexts_eq_map, List.map_append, List.map_cons, Json.items_append,
    List.flatMap_map, List.flatMap_map, memberText, memberRest]
  simp only [List.append_assoc]

theorem jsonFindKey_text (k : Bytes) (w : Ws) (ms : List (Key × Json × Ws)) (t : Bytes) :
    Finds (jsonFindKey k (w.bytes ++ (Json.items (Json.memberTexts ms) ++ 125 :: t)))
      (Json.findKey k ms) := by
  rw [jsonFindKey_ws k w.blank]
  cases h : Json.findKey k ms with
  | none => exact jsonFindKey_none (findKey_eq_none h) t
  | some v =>
    obtain ⟨ms₁, key, w', ms₂, rfl, hms, hk⟩ := split_of_findKey h
    refine ⟨memberRest w' ms₂ t, follows_memberRest w' ms₂ t, ?_⟩
    rw [members_split, jsonFindKey_skips hms, jsonFindKey_hit key hk, jsonSkipWs_text]

example : jsonFindKey (lit "b") (lit "\"a\" : [\"b\"], \"b\" : 2 \x7d") = some (lit "2 \x7d") := by
  decide +kernel

/-! ### Elements -/

theorem jsonFindIdx_ws (n : ℕ) {w : Bytes} (hw : ∀ c ∈ w, Json.isWs c) (c : UInt8) (t : Bytes) :
    jsonFindIdx n (w ++ c :: t) = jsonFindIdx n (c :: t) := by
  have hs := jsonSkipWs_append (c :: t) hw
  cases w with
  | nil => rfl
  | cons d w =>
    rw [List.cons_append] at hs ⊢
    cases n <;> simp only [jsonFindIdx, hs]

/-- The scan of an array goes from one element to the next. -/
theorem jsonFindIdx_elem (n : ℕ) (e : Ws × Json × Ws) {c : UInt8}
    (hc : c = 44 ∨ c = 125 ∨ c = 93) (t : Bytes) :
    jsonFindIdx n (elemText e ++ c :: t) = match n with
      | 0 => some (e.2.1.text ++ (e.2.2.bytes ++ c :: t))
      | n+1 => if c = 93 then none else jsonFindIdx n (jsonComma (c :: t)) := by
  have hws : Json.isWs c = false := by rcases hc with rfl | rfl | rfl <;> rfl
  have hnext : jsonSkipWs (jsonWalk (e.2.1.text ++ (e.2.2.bytes ++ c :: t))) = c :: t := by
    rw [jsonSkipWs_walk _ (Follows.intro e.2.2.blank t hc), jsonSkipWs_append _ e.2.2.blank]
    exact jsonSkipWs_cons t hws
  obtain ⟨d, u, he, hd⟩ := e.2.1.text_eq_cons
  have h93 : ¬ some d = some (93 : UInt8) := by
    rintro ⟨⟩
    exact absurd hd (by decide)
  have hskip := jsonSkipWs_text e.2.1 (e.2.2.bytes ++ c :: t)
  rw [elemText, List.append_assoc, List.append_assoc]
  simp only [he, List.cons_append] at hnext hskip ⊢
  rw [jsonFindIdx_ws n e.1.blank]
  cases n with
  | zero => simp only [jsonFindIdx, hskip, List.head?_cons, if_neg h93]
  | succ n =>
    simp only [jsonFindIdx, hskip, hnext, List.head?_cons, if_neg h93]
    simp only [Option.some.injEq]

/-- What comes after an element of an array. -/
def elemRest (w : Ws) (es : List (Ws × Json × Ws)) (t : Bytes) : Bytes :=
  w.bytes ++ ((es.flatMap fun e => 44 :: elemText e) ++ 93 :: t)

theorem follows_elemRest (w : Ws) (es : List (Ws × Json × Ws)) (t : Bytes) :
    Follows (elemRest w es t) := by
  cases es with
  | nil => exact Follows.intro w.blank t (.inr (.inr rfl))
  | cons e es =>
    rw [elemRest, List.flatMap_cons, List.cons_append, List.cons_append]
    exact Follows.intro w.blank _ (.inl rfl)

theorem jsonFindIdx_items (n : ℕ) (e : Ws × Json × Ws) (es : List (Ws × Json × Ws)) (t : Bytes) :
    Finds (jsonFindIdx n (elemText e ++ ((es.flatMap fun e => 44 :: elemText e) ++ 93 :: t)))
      ((e :: es)[n]?.map fun e => e.2.1) := by
  induction es generalizing n e with
  | nil =>
    rw [List.flatMap_nil, List.nil_append, jsonFindIdx_elem n e (.inr (.inr rfl))]
    cases n with
    | zero => exact ⟨elemRest e.2.2 [] t, follows_elemRest e.2.2 [] t, rfl⟩
    | succ n => rfl
  | cons e' es ih =>
    rw [List.flatMap_cons, List.cons_append, List.cons_append, List.append_assoc,
      jsonFindIdx_elem n e (.inl rfl)]
    cases n with
    | zero =>
      have h := follows_elemRest e.2.2 (e' :: es) t
      rw [elemRest, List.flatMap_cons, List.cons_append, List.cons_append, List.append_assoc] at h
      exact ⟨_, h, rfl⟩
    | succ n => exact ih n e'

theorem jsonFindIdx_text (n : ℕ) (w : Ws) (es : List (Ws × Json × Ws)) (t : Bytes) :
    Finds (jsonFindIdx n (w.bytes ++ (Json.items (Json.elemTexts es) ++ 93 :: t)))
      (es[n]?.map fun e => e.2.1) := by
  rw [Json.elemTexts_eq_map]
  cases es with
  | nil =>
    rw [List.map_nil, Json.items, List.nil_append, jsonFindIdx_ws n w.blank]
    cases n <;> rfl
  | cons e es =>
    have h := jsonFindIdx_items n e es t
    obtain ⟨d, u, he⟩ : ∃ d u, elemText e = d :: u := by
      apply List.exists_cons_of_ne_nil
      obtain ⟨d, u, he, -⟩ := e.2.1.text_eq_cons
      simp [elemText, he]
    rw [List.map_cons, Json.items, List.flatMap_map, List.append_assoc]
    simp only [he, List.cons_append] at h ⊢
    rwa [jsonFindIdx_ws n w.blank]

example : jsonFindIdx 1 (lit "[1], 2 ]") = some (lit "2 ]") := by decide +kernel

/-! ### Paths -/

theorem jsonFindStep_none {c : UInt8} (step : SValue F) (t : Bytes) (h123 : c ≠ 123)
    (h91 : c ≠ 91) : jsonFindStep step (c :: t) = none := by
  unfold jsonFindStep
  split
  · rename_i he
    exact absurd (List.cons.inj he).1 h123
  · rename_i he
    exact absurd (List.cons.inj he).1 h91
  · rfl

theorem Finds.bind {o : Option Bytes} {n : Option Json} (h : Finds o n) {f : Bytes → Option Bytes}
    {g : Json → Option Json}
    (hf : ∀ (j : Json) (rest : Bytes), Follows rest → Finds (f (j.text ++ rest)) (g j)) :
    Finds (o.bind f) (n.bind g) := by
  cases n with
  | none =>
    cases h
    rfl
  | some j =>
    obtain ⟨rest, hr, rfl⟩ := h
    exact hf j rest hr

theorem jsonFindStep_text (s : Step) (j : Json) (rest : Bytes) :
    Finds (jsonFindStep (stepArg (F := F) s) (j.text ++ rest)) (j.step s) := by
  have hscalar (h : j.IsScalar) : jsonFindStep (stepArg (F := F) s) (j.text ++ rest) = none := by
    have hd : ∀ c, Json.isSolid c → c ≠ 123 ∧ c ≠ 91 := by decide +kernel
    obtain ⟨c, t, he⟩ := List.exists_cons_of_ne_nil (Json.text_ne_of_isScalar h)
    have hc := hd c (Json.solid_of_isScalar h c (he ▸ List.mem_cons_self))
    rw [he, List.cons_append]
    exact jsonFindStep_none _ _ hc.1 hc.2
  cases j with
  | str t => exact jsonFindStep_none _ _ (by decide) (by decide)
  | obj w ms =>
    have ht : (Json.obj w ms).text ++ rest =
        123 :: (w.bytes ++ (Json.items (Json.memberTexts ms) ++ 125 :: rest)) := by
      simp only [Json.text, List.cons_append, List.append_assoc, List.nil_append]
    rw [ht]
    cases s with
    | key k => exact jsonFindKey_text k w ms rest
    | idx i => rfl
  | arr w es =>
    have ht : (Json.arr w es).text ++ rest =
        91 :: (w.bytes ++ (Json.items (Json.elemTexts es) ++ 93 :: rest)) := by
      simp only [Json.text, List.cons_append, List.append_assoc, List.nil_append]
    rw [ht]
    cases s with
    | key k => rfl
    | idx i =>
      have hi : ¬ (i : ℤ) < 0 := by omega
      have h := jsonFindIdx_text i w es rest
      simp only [stepArg, jsonFindStep, if_neg hi, Int.toNat_natCast]
      exact h
  | _ => exact hscalar trivial

/-- `json_find_value` follows a path through the text of a value as the lookup does through
the value: one step of the path at a time. -/
theorem jsonFindValue_text (p : List Step) (j : Json) (rest : Bytes) (hr : Follows rest) :
    Finds (jsonFindValue (p.map (stepArg (F := F))) (j.text ++ rest)) (j.lookup p) := by
  induction p generalizing j rest with
  | nil => exact ⟨rest, hr, congrArg some (jsonSkipWs_text j rest)⟩
  | cons s p ih =>
    rw [List.map_cons, jsonFindValue, jsonSkipWs_text]
    exact (jsonFindStep_text s j rest).bind ih

theorem jsonFindValue_doc (p : List Step) (d : Doc) :
    Finds (jsonFindValue (p.map (stepArg (F := F))) d.text) (d.root.lookup p) := by
  have hskip : jsonSkipWs d.text = d.root.text ++ d.post.bytes := by
    rw [Doc.text, List.append_assoc, jsonSkipWs_append _ d.pre.blank, jsonSkipWs_text]
  have h := jsonFindValue_text (F := F) p d.root d.post.bytes (Follows.ws d.post.blank)
  have he (q : List (SValue F)) :
      jsonFindValue q d.text = jsonFindValue q (d.root.text ++ d.post.bytes) := by
    cases q <;> simp only [jsonFindValue, hskip, jsonSkipWs_text]
  rwa [he]

/-! ### Kinds -/

theorem lookup_of_mem {α β : Type} [BEq α] [LawfulBEq α] {l : List (α × β)}
    (hl : (l.map Prod.fst).Nodup) {k : α} {v : β} (h : (k, v) ∈ l) : l.lookup k = some v := by
  induction l with
  | nil => cases h
  | cons e l ih =>
    rw [List.map_cons, List.nodup_cons] at hl
    rcases List.mem_cons.mp h with rfl | h
    · exact List.lookup_cons_self
    · have hne : (k == e.1) = false := by
        rw [beq_eq_false_iff_ne]
        rintro rfl
        exact hl.1 (List.mem_map.mpr ⟨(e.1, v), h, rfl⟩)
      rw [List.lookup_cons, hne]
      exact ih hl.2 h

variable [CDouble F]

theorem nodup_constTable : ((constTable : List (Bytes × SValue F)).map Prod.fst).Nodup := by
  have h : ((constTable : List (Bytes × SValue ℚ)).map Prod.fst).Nodup := by decide +kernel
  exact h

theorem builtinsConst_of_getElem? {name : Bytes} {v : SValue F} (i : ℕ)
    (h : constTable[i]? = some (name, v)) : builtinsConst name = v := by
  rw [builtinsConst, lookup_of_mem nodup_constTable (List.mem_of_getElem? h)]
  rfl

/-- The constant for the kind of a node. -/
def kindConst : Json → SValue F
  | .str _ => builtinsConst (lit "JSON_STRING")
  | .num _ => builtinsConst (lit "JSON_NUMBER")
  | .litTrue => builtinsConst (lit "JSON_TRUE")
  | .litFalse => builtinsConst (lit "JSON_FALSE")
  | .litNull => builtinsConst (lit "JSON_NULL")
  | .obj .. => builtinsConst (lit "JSON_OBJECT")
  | .arr .. => builtinsConst (lit "JSON_ARRAY")

theorem jsonInvalid_const : builtinsConst (lit "JSON_INVALID") = (.string jsonInvalid : SValue F) :=
  builtinsConst_of_getElem? 37 rfl

omit [CDouble F] in
theorem jsonTypeOf_other {c : UInt8} (t : Bytes) (hw : Json.isWs c = false)
    (h : c ∉ [123, 91, 34, 116, 102, 110]) : jsonTypeOf (c :: t) = [239, 191, 186] := by
  rw [jsonTypeOf, jsonSkipWs_cons t hw]
  split
  all_goals first | rfl | (rename_i he; rw [(List.cons.inj he).1] at h; simp at h)

theorem jsonTypeOf_text (j : Json) (rest : Bytes) :
    (.string (jsonTypeOf (j.text ++ rest)) : SValue F) = kindConst j := by
  cases j with
  | num n =>
    have hd : ∀ c, Json.isDigit c ∨ c = 45 →
        Json.isWs c = false ∧ c ∉ [123, 91, 34, 116, 102, 110] := by decide +kernel
    obtain ⟨c, t, he, hc⟩ := n.text_eq_cons
    have hc := hd c hc
    rw [Json.text, he, List.cons_append, jsonTypeOf_other _ hc.1 hc.2]
    exact (builtinsConst_of_getElem? 33 rfl).symm
  | str s => exact (builtinsConst_of_getElem? 32 rfl).symm
  | litTrue => exact (builtinsConst_of_getElem? 34 rfl).symm
  | litFalse => exact (builtinsConst_of_getElem? 35 rfl).symm
  | litNull => exact (builtinsConst_of_getElem? 36 rfl).symm
  | obj w ms => exact (builtinsConst_of_getElem? 30 rfl).symm
  | arr w es => exact (builtinsConst_of_getElem? 31 rfl).symm

/-! ### The readers -/

theorem llJsonGetValue_doc (d : Doc) (p : List Step) :
    llJsonGetValue [.string d.text, .list (p.map stepArg)] =
      match d.root.lookup p with
      | some n => (.string n.value : SValue F)
      | none => builtinsConst (lit "JSON_INVALID") := by
  have h := jsonFindValue_doc (F := F) p d
  rw [llJsonGetValue]
  cases hl : d.root.lookup p with
  | none =>
    rw [hl] at h
    simp only [argStr, List.getElem?_cons_zero, show jsonFindValue _ d.text = none from h]
    exact jsonInvalid_const.symm
  | some n =>
    rw [hl] at h
    obtain ⟨rest, hr, hf⟩ := h
    simp only [argStr, List.getElem?_cons_zero, hf, jsonExtractValue_text n hr]

theorem llJsonValueType_doc (d : Doc) (p : List Step) :
    llJsonValueType [.string d.text, .list (p.map stepArg)] =
      match d.root.lookup p with
      | some n => (kindConst n : SValue F)
      | none => builtinsConst (lit "JSON_INVALID") := by
  have h := jsonFindValue_doc (F := F) p d
  rw [llJsonValueType]
  cases hl : d.root.lookup p with
  | none =>
    rw [hl] at h
    simp only [argStr, List.getElem?_cons_zero, show jsonFindValue _ d.text = none from h]
    exact jsonInvalid_const.symm
  | some n =>
    rw [hl] at h
    obtain ⟨rest, hr, hf⟩ := h
    simp only [argStr, List.getElem?_cons_zero, hf, jsonTypeOf_text]

/-- On a document whose objects have distinct keys, the readers show the node the path leads
to and its kind, and `JSON_INVALID` where it leads to none. -/
theorem json_readers (d : Doc) (hd : d.root.Distinct) (p : List Step) :
    (∀ n, d.root.At p n →
      llJsonGetValue [.string d.text, .list (p.map stepArg)] = (.string n.value : SValue F) ∧
      llJsonValueType [.string d.text, .list (p.map stepArg)] = (kindConst n : SValue F)) ∧
    ((∀ n, ¬ d.root.At p n) →
      llJsonGetValue [.string d.text, .list (p.map stepArg)] =
        (builtinsConst (lit "JSON_INVALID") : SValue F) ∧
      llJsonValueType [.string d.text, .list (p.map stepArg)] =
        (builtinsConst (lit "JSON_INVALID") : SValue F)) := by
  rw [llJsonGetValue_doc, llJsonValueType_doc]
  constructor
  · intro n hn
    rw [(Json.at_iff_lookup hd).mp hn]
    exact ⟨rfl, rfl⟩
  · intro hn
    have hnone : d.root.lookup p = none := by
      apply Option.eq_none_iff_forall_ne_some.mpr
      intro n h
      exact hn n ((Json.at_iff_lookup hd).mpr h)
    rw [hnone]
    exact ⟨rfl, rfl⟩

/-- The number 42 under the key `balance`, with blanks between the tokens. -/
def balanceMember : Key × Json × Ws :=
  (⟨.none, .ofPlain (lit "balance") (by decide +kernel), .space, .space⟩,
    .num ⟨false, ⟨[52, 50], by simp, by decide +kernel⟩, by simp, none, none⟩, .space)

def balanceDoc : Doc := ⟨.none, .obj .space [balanceMember], .none⟩

theorem json_readers_balance :
    balanceDoc.text = lit "\x7b \"balance\" : 42 \x7d" ∧
    llJsonGetValue [.string balanceDoc.text, .list [.string (lit "balance")]] =
      (.string (lit "42") : SValue ℚ) ∧
    llJsonValueType [.string balanceDoc.text, .list [.string (lit "balance")]] =
      (builtinsConst (lit "JSON_NUMBER") : SValue ℚ) := by
  have hd : balanceDoc.root.Distinct := by
    refine .obj (by simp) ?_
    intro m hm
    rw [List.mem_singleton.mp hm]
    exact .num _
  have hat : balanceDoc.root.At [.key (lit "balance")] balanceMember.2.1 := by
    have h := @Json.At.key .space [balanceMember] balanceMember [] _ (List.mem_singleton.mpr rfl)
      (Json.At.here _)
    rwa [show balanceMember.1.name.raw = lit "balance" from
      Json.Str.raw_ofPlain (lit "balance") (by decide +kernel)] at h
  exact ⟨by decide +kernel, (json_readers balanceDoc hd [.key (lit "balance")]).1 _ hat⟩

end Slemu
