import Slemu.JsonLookup

/-! When a value set with `llJsonSetValue` comes back from `llJsonGetValue`. -/

namespace Slemu
open Json (Ws Str Key Doc Step memberText)
variable {F : Type}

/-! ### The scan for a key -/

theorem jsonScanKey_short {stop k scan : Bytes} (h : scan.length ≤ stop.length) :
    jsonScanKey stop k scan = none := by
  rw [jsonScanKey, if_pos (.inl h)]

theorem jsonScanKey_ws (stop k : Bytes) {w : Bytes} (hw : ∀ c ∈ w, Json.isWs c) (t : Bytes) :
    jsonScanKey stop k (w ++ t) = jsonScanKey stop k t := by
  have hs := jsonSkipWs_append t hw
  have ht := jsonSkipWs_le t
  by_cases hlt : (jsonSkipWs t).length ≤ stop.length
  · rw [jsonScanKey, jsonScanKey, hs, if_pos (.inr hlt), if_pos (.inr hlt)]
  · have h1 : ¬ (t.length ≤ stop.length ∨ (jsonSkipWs t).length ≤ stop.length) := by omega
    have h2 : ¬ ((w ++ t).length ≤ stop.length ∨ (jsonSkipWs t).length ≤ stop.length) := by
      rw [List.length_append]
      omega
    rw [jsonScanKey, jsonScanKey, hs, if_neg h1, if_neg h2]

theorem jsonSkipWs_key_length (k : Key) (t : Bytes) :
    t.length < (jsonSkipWs (k.text ++ t)).length := by
  have h := jsonMember_lt (jsonMember_text k t)
  have hk : k.text ++ t = k.pre.bytes ++ 34 :: (k.name.raw ++ 34 ::
      (k.post.bytes ++ 58 :: (k.gap.bytes ++ t))) := by
    simp only [Key.text, Str.text, List.append_assoc, List.cons_append, List.nil_append]
  rw [hk, jsonSkipWs_append _ k.pre.blank, jsonSkipWs_cons _ rfl]
  simp only [List.length_cons, List.length_append]
  omega

theorem jsonScanKey_hit {stop k : Bytes} (key : Key) (hk : key.name.raw = k) {t : Bytes}
    (ht : stop.length ≤ t.length) :
    jsonScanKey stop k (key.text ++ t) = some (jsonSkipWs t, jsonWalk (jsonSkipWs t)) := by
  have hlen := jsonSkipWs_key_length key t
  have hle := jsonSkipWs_le (key.text ++ t)
  have hlong : ¬ ((key.text ++ t).length ≤ stop.length ∨
      (jsonSkipWs (key.text ++ t)).length ≤ stop.length) := by omega
  rw [jsonScanKey, if_neg hlong, jsonMember_text]
  simp only [if_pos hk]

theorem jsonScanKey_skip {stop k : Bytes} (m : Key × Json × Ws) (hk : m.1.name.raw ≠ k)
    {c : UInt8} (hc : c = 44 ∨ c = 125 ∨ c = 93) {t : Bytes} (ht : stop.length ≤ (c :: t).length) :
    jsonScanKey stop k (memberText m ++ c :: t) = jsonScanKey stop k (jsonComma (c :: t)) := by
  have hws : Json.isWs c = false := by rcases hc with rfl | rfl | rfl <;> rfl
  have hnext : jsonSkipWs (jsonWalk (m.2.1.text ++ (m.2.2.bytes ++ c :: t))) = c :: t := by
    rw [jsonSkipWs_walk _ (Follows.intro m.2.2.blank t hc), jsonSkipWs_append _ m.2.2.blank]
    exact jsonSkipWs_cons t hws
  have hlen := jsonSkipWs_key_length m.1 (m.2.1.text ++ (m.2.2.bytes ++ c :: t))
  have hle := jsonSkipWs_le (m.1.text ++ (m.2.1.text ++ (m.2.2.bytes ++ c :: t)))
  have hlong : ¬ ((m.1.text ++ (m.2.1.text ++ (m.2.2.bytes ++ c :: t))).length ≤ stop.length ∨
      (jsonSkipWs (m.1.text ++ (m.2.1.text ++ (m.2.2.bytes ++ c :: t)))).length ≤
        stop.length) := by
    simp only [List.length_append] at hlen hle ⊢
    omega
  rw [memberText, List.append_assoc, List.append_assoc, jsonScanKey, if_neg hlong, jsonMember_text]
  simp only [jsonSkipWs_text, if_neg hk, hnext]

theorem jsonScanKey_skips {stop k : Bytes} {ms : List (Key × Json × Ws)}
    (h : ∀ m ∈ ms, m.1.name.raw ≠ k) {t : Bytes} (ht : stop.length ≤ t.length) :
    jsonScanKey stop k (ms.flatMap (fun m => memberText m ++ [44]) ++ t) =
      jsonScanKey stop k t := by
  induction ms with
  | nil => rfl
  | cons m ms ih =>
    have hm := h m List.mem_cons_self
    have htail := ih fun m' hm' => h m' (List.mem_cons_of_mem m hm')
    have hlen : stop.length ≤
        (44 :: (ms.flatMap (fun m => memberText m ++ [44]) ++ t)).length := by
      rw [List.length_cons, List.length_append]
      omega
    rw [List.flatMap_cons, List.append_assoc, List.append_assoc, List.singleton_append,
      jsonScanKey_skip m hm (.inl rfl) hlen]
    exact htail

theorem jsonScanKey_none {k : Bytes} {ms : List (Key × Json × Ws)}
    (h : ∀ m ∈ ms, m.1.name.raw ≠ k) (t : Bytes) :
    jsonScanKey (125 :: t) k (Json.items (Json.memberTexts ms) ++ 125 :: t) = none := by
  rw [Json.memberTexts_eq_map]
  rcases List.eq_nil_or_concat' ms with rfl | ⟨ms, m, rfl⟩
  · exact jsonScanKey_short le_rfl
  · have hm := h m (List.mem_append_right ms List.mem_cons_self)
    have hms : ∀ m ∈ ms, m.1.name.raw ≠ k := fun m hm => h m (List.mem_append_left _ hm)
    have hlen : (125 :: t).length ≤ (memberText m ++ 125 :: t).length := by
      rw [List.length_append]
      omega
    rw [List.map_append, List.map_singleton, Json.items_append, List.flatMap_map,
      List.append_assoc, List.flatMap_nil, List.append_nil, jsonScanKey_skips hms hlen,
      jsonScanKey_skip m hm (.inr (.inl rfl)) le_rfl]
    exact jsonScanKey_short le_rfl

/-! ### Where the setters write -/

/-- The text of a document with an object, up to the value of a member. -/
def slotHead (pre w : Ws) (ms : List (Key × Json × Ws)) (key : Key) : Bytes :=
  pre.bytes ++ 123 :: (w.bytes ++ (ms.flatMap (fun m => memberText m ++ [44]) ++ key.text))

theorem doc_split (pre w : Ws) (ms₁ : List (Key × Json × Ws)) (key : Key) (v : Json) (w' : Ws)
    (ms₂ : List (Key × Json × Ws)) (post : Ws) :
    (⟨pre, .obj w (ms₁ ++ (key, v, w') :: ms₂), post⟩ : Doc).text =
      slotHead pre w ms₁ key ++ (v.text ++ memberRest w' ms₂ post.bytes) := by
  have h := members_split ms₁ key v w' ms₂ post.bytes
  simp only [Doc.text, Json.text, slotHead, List.append_assoc, List.cons_append,
    List.nil_append] at h ⊢
  rw [h]

theorem jsonPut_doc (pre w : Ws) (ms : List (Key × Json × Ws)) (post : Ws) (k new : Bytes) :
    jsonPut (⟨pre, .obj w ms, post⟩ : Doc).text k new =
      match jsonScanKey (125 :: post.bytes) k
          (Json.items (Json.memberTexts ms) ++ 125 :: post.bytes) with
      | some (v, rest) => upTo (⟨pre, .obj w ms, post⟩ : Doc).text v ++ new ++ rest
      | none => pre.bytes ++ 123 :: (w.bytes ++ Json.items (Json.memberTexts ms)) ++
          (if (w.bytes ++ Json.items (Json.memberTexts ms)).all Json.isWs then [] else [44]) ++
          34 :: k ++ [34, 58] ++ new ++ 125 :: post.bytes := by
  have htext : (⟨pre, .obj w ms, post⟩ : Doc).text = pre.bytes ++ 123 ::
      (w.bytes ++ Json.items (Json.memberTexts ms) ++ 125 :: post.bytes) := by
    simp only [Doc.text, Json.text, List.append_assoc, List.cons_append, List.nil_append]
  have hskip : jsonSkipWs (⟨pre, .obj w ms, post⟩ : Doc).text = 123 ::
      (w.bytes ++ Json.items (Json.memberTexts ms) ++ 125 :: post.bytes) := by
    rw [htext, jsonSkipWs_append _ pre.blank, jsonSkipWs_cons _ rfl]
  have hclose := jsonClose_bracketed (.inl ⟨rfl, rfl⟩)
    (Passes.members (.inl ⟨rfl, rfl⟩) w fun m (_ : m ∈ ms) => Passes.text (.inl ⟨rfl, rfl⟩) m.2.1)
    post.bytes
  have hscan : jsonScanKey (125 :: post.bytes) k
      (w.bytes ++ Json.items (Json.memberTexts ms) ++ 125 :: post.bytes) =
      jsonScanKey (125 :: post.bytes) k
        (Json.items (Json.memberTexts ms) ++ 125 :: post.bytes) := by
    rw [List.append_assoc, jsonScanKey_ws _ _ w.blank]
  have hup : upTo (⟨pre, .obj w ms, post⟩ : Doc).text (125 :: post.bytes) =
      pre.bytes ++ 123 :: (w.bytes ++ Json.items (Json.memberTexts ms)) := by
    rw [htext, ← List.cons_append, ← List.append_assoc, upTo_append]
  rw [List.cons_append] at hclose
  rw [jsonPut, hskip]
  cases hk : jsonScanKey (125 :: post.bytes) k
    (Json.items (Json.memberTexts ms) ++ 125 :: post.bytes) with
  | none => simp only [hclose, hscan, hk, hup, upTo_append]
  | some x => simp only [hclose, hscan, hk]

/-- Whitespace in front of a text that starts with whitespace and then something else. -/
theorem ws_split {a w r t : Bytes} {c : UInt8} (ha : ∀ c ∈ a, Json.isWs c)
    (hc : Json.isWs c = false) (h : w ++ c :: t = a ++ r) : ∃ w', w = a ++ w' ∧ r = w' ++ c :: t := by
  rcases List.append_eq_append_iff.mp h with ⟨b, hb, hr⟩ | ⟨b, hb, hr⟩
  · cases b with
    | nil => exact ⟨[], by simpa using hb.symm, hr.symm⟩
    | cons d b =>
      have hd := ha d (hb ▸ List.mem_append_right w List.mem_cons_self)
      rw [(List.cons.inj hr).1] at hc
      rw [hc] at hd
      cases hd
  · exact ⟨b, hb, hr⟩

theorem memberRest_cut {w : Ws} {ms : List (Key × Json × Ws)} {t a r : Bytes}
    (ha : ∀ c ∈ a, Json.isWs c) (h : memberRest w ms t = a ++ r) :
    ∃ w' : Ws, r = memberRest w' ms t := by
  have hcut {c : UInt8} {u : Bytes} (hc : Json.isWs c = false)
      (hu : (ms.flatMap fun m => 44 :: memberText m) ++ 125 :: t = c :: u) :
      ∃ w' : Ws, r = memberRest w' ms t := by
    rw [memberRest, hu] at h
    obtain ⟨w', hw, hr⟩ := ws_split ha hc h
    refine ⟨⟨w', fun d hd => w.blank d (hw ▸ List.mem_append_right a hd)⟩, ?_⟩
    rw [memberRest, hu]
    exact hr
  cases ms with
  | nil => exact hcut rfl rfl
  | cons m ms => exact hcut rfl rfl

theorem findKey_split {ms₁ : List (Key × Json × Ws)} {key : Key} {k : Bytes}
    (hms : ∀ m ∈ ms₁, m.1.name.raw ≠ k) (hk : key.name.raw = k) (j : Json) (w : Ws)
    (ms₂ : List (Key × Json × Ws)) :
    Json.findKey k (ms₁ ++ (key, j, w) :: ms₂) = some j := by
  have hnone : ms₁.find? (fun m => decide (m.1.name.raw = k)) = none := by
    rw [List.find?_eq_none]
    intro m hm
    simpa using hms m hm
  rw [Json.findKey, List.find?_append, hnone, Option.none_or, List.find?_cons_of_pos (by simpa)]
  rfl

theorem findKey_other {key : Key} {k : Bytes} (hk : key.name.raw ≠ k)
    (ms₁ : List (Key × Json × Ws)) (j : Json) (w : Ws) (ms₂ : List (Key × Json × Ws)) :
    Json.findKey k (ms₁ ++ (key, j, w) :: ms₂) = Json.findKey k (ms₁ ++ ms₂) := by
  rw [Json.findKey, Json.findKey, List.find?_append, List.find?_append,
    List.find?_cons_of_neg (by simpa)]

/-- The setters write the value of a key between `head` and `tail`. Whatever is written there,
the readers find its beginning; a value there makes a document, in which only the key has
changed; and what was there before is what the readers find. -/
structure Slot (pre w : Ws) (ms : List (Key × Json × Ws)) (post : Ws) (k head tail : Bytes) :
    Prop where
  put : ∀ new, jsonPut (⟨pre, .obj w ms, post⟩ : Doc).text k new = head ++ (new ++ tail)
  find : ∀ t, ∃ u, jsonSkipWs (head ++ t) = 123 :: u ∧ jsonFindKey k u = some (jsonSkipWs t)
  tree : ∀ j : Json, ∃ ms', (⟨pre, .obj w ms', post⟩ : Doc).text = head ++ (j.text ++ tail) ∧
    Json.findKey k ms' = some j ∧ ∀ k' ≠ k, Json.findKey k' ms' = Json.findKey k' ms
  old : ∀ v, Json.findKey k ms = some v → ∃ rest, Follows rest ∧
    (⟨pre, .obj w ms, post⟩ : Doc).text = head ++ (v.text ++ rest) ∧
    tail = jsonWalk (v.text ++ rest)

theorem slotHead_find {pre w : Ws} {ms : List (Key × Json × Ws)} {key : Key} {k : Bytes}
    (hms : ∀ m ∈ ms, m.1.name.raw ≠ k) (hk : key.name.raw = k) (t : Bytes) :
    ∃ u, jsonSkipWs (slotHead pre w ms key ++ t) = 123 :: u ∧
      jsonFindKey k u = some (jsonSkipWs t) := by
  refine ⟨w.bytes ++ (ms.flatMap (fun m => memberText m ++ [44]) ++ key.text) ++ t, ?_, ?_⟩
  · rw [slotHead, List.append_assoc, jsonSkipWs_append _ pre.blank, List.cons_append,
      jsonSkipWs_cons _ rfl]
  · rw [List.append_assoc, jsonFindKey_ws k w.blank, List.append_assoc, jsonFindKey_skips hms,
      jsonFindKey_hit key hk]

theorem slot_of_member (pre w : Ws) {ms₁ : List (Key × Json × Ws)} {key : Key} {k : Bytes}
    (hms : ∀ m ∈ ms₁, m.1.name.raw ≠ k) (hk : key.name.raw = k) (v : Json) (w' : Ws)
    (ms₂ : List (Key × Json × Ws)) (post : Ws) :
    Slot pre w (ms₁ ++ (key, v, w') :: ms₂) post k (slotHead pre w ms₁ key)
      (jsonWalk (v.text ++ memberRest w' ms₂ post.bytes)) where
  put new := by
    have hlen : (125 :: post.bytes).length ≤
        (v.text ++ memberRest w' ms₂ post.bytes).length := by
      rw [memberRest, List.length_append, List.length_append, List.length_append]
      omega
    have hkey : (125 :: post.bytes).length ≤
        (key.text ++ (v.text ++ memberRest w' ms₂ post.bytes)).length := by
      rw [List.length_append]
      omega
    rw [jsonPut_doc, members_split, jsonScanKey_skips hms hkey, jsonScanKey_hit key hk hlen,
      jsonSkipWs_text, doc_split]
    simp only [upTo_append, List.append_assoc]
  find := slotHead_find hms hk
  tree j := by
    obtain ⟨a, ha, he, -⟩ := jsonWalk_text v (follows_memberRest w' ms₂ post.bytes)
    obtain ⟨w'', hw⟩ := memberRest_cut ha he
    refine ⟨ms₁ ++ (key, j, w'') :: ms₂, ?_, findKey_split hms hk j w'' ms₂, ?_⟩
    · rw [doc_split, hw]
    · intro k' hk'
      have hne : key.name.raw ≠ k' := by rwa [hk, ne_comm]
      rw [findKey_other hne, findKey_other hne]
  old v' hv' := by
    rw [findKey_split hms hk] at hv'
    cases hv'
    exact ⟨memberRest w' ms₂ post.bytes, follows_memberRest _ _ _, doc_split .., rfl⟩

theorem items_comma (ms : List (Key × Json × Ws)) :
    Json.items (Json.memberTexts ms) ++ (if ms = [] then [] else [44]) =
      ms.flatMap fun m => memberText m ++ [44] := by
  rw [Json.memberTexts_eq_map]
  rcases List.eq_nil_or_concat' ms with rfl | ⟨ms, m, rfl⟩
  · rfl
  · rw [List.map_append, List.map_singleton, Json.items_append, List.flatMap_map,
      List.flatMap_append, List.flatMap_singleton, if_neg (by simp)]
    simp only [List.flatMap_nil, List.append_nil, List.append_assoc]

/-- An object holds nothing but whitespace exactly if it has no members. -/
theorem all_ws_iff (w : Ws) (ms : List (Key × Json × Ws)) :
    (w.bytes ++ Json.items (Json.memberTexts ms)).all Json.isWs ↔ ms = [] := by
  rw [List.all_eq_true]
  constructor
  · intro h
    cases ms with
    | nil => rfl
    | cons m ms =>
      have hq : (34 : UInt8) ∈ w.bytes ++ Json.items (Json.memberTexts (m :: ms)) := by
        simp [Json.memberTexts_eq_map, Json.items, memberText, Key.text, Str.text]
      cases h 34 hq
  · rintro rfl
    simpa [Json.memberTexts, Json.items] using w.blank

theorem slot_of_absent (pre w : Ws) {ms : List (Key × Json × Ws)} {k : Bytes}
    (hms : ∀ m ∈ ms, m.1.name.raw ≠ k) (s : Str) (hk : s.raw = k) (post : Ws) :
    Slot pre w ms post k (slotHead pre w ms ⟨.none, s, .none, .none⟩) (125 :: post.bytes) where
  put new := by
    have hkey : (⟨.none, s, .none, .none⟩ : Key).text = 34 :: k ++ [34, 58] := by
      simp [Key.text, Str.text, Ws.none, hk]
    rw [jsonPut_doc, jsonScanKey_none hms]
    simp only [all_ws_iff, slotHead, hkey, ← items_comma]
    split <;> simp only [List.append_assoc, List.cons_append, List.nil_append]
  find := slotHead_find hms hk
  tree j := by
    refine ⟨ms ++ [(⟨.none, s, .none, .none⟩, j, .none)], doc_split .., findKey_split hms hk j _ _, ?_⟩
    intro k' hk'
    have hne : (⟨.none, s, .none, .none⟩ : Key).name.raw ≠ k' := by rwa [hk, ne_comm]
    rw [findKey_other hne, List.append_nil]
  old v hv := by
    obtain ⟨m, hm, he, -⟩ := Json.mem_of_findKey hv
    exact absurd he (hms m hm)

theorem exists_slot (pre w : Ws) (ms : List (Key × Json × Ws)) (post : Ws) (s : Str) :
    ∃ head tail, Slot pre w ms post s.raw head tail := by
  cases h : Json.findKey s.raw ms with
  | none => exact ⟨_, _, slot_of_absent pre w (findKey_eq_none h) s rfl post⟩
  | some v =>
    obtain ⟨ms₁, key, w', ms₂, rfl, hms, hk⟩ := split_of_findKey h
    exact ⟨_, _, slot_of_member pre w hms hk v w' ms₂ post⟩

/-! ### Set, then get -/

/-- A path of keys as a script passes it. -/
def keyPath (p : List Bytes) : List Step := p.map .key

/-- A value that is neither an object nor an array. -/
def IsLeaf : Json → Prop
  | .obj .. | .arr .. => False
  | _ => True

/-- A proper part of the path `p` leads to a value without parts, and `q` goes through it. -/
def PassesLeaf (d : Doc) (p q : List Step) : Prop :=
  ∃ r n, r <+: p ∧ r ≠ p ∧ r <+: q ∧ d.root.lookup r = some n ∧ IsLeaf n

/-- After setting `v` at the path `p` the value there is `v`, the text is a document, and the
values at paths apart from `p` are what they were. -/
def SetThenGet (F : Type) [CDouble F] (d : Doc) (p : List Bytes) (v : Bytes) : Prop :=
  ∃ r, llJsonSetValue [.string d.text, .list ((keyPath p).map stepArg), .string v] =
      (.string r : SValue F) ∧
    llJsonGetValue [.string r, .list ((keyPath p).map stepArg)] = (.string v : SValue F) ∧
    (∃ d' : Doc, d'.text = r) ∧
    ∀ q, ¬ q <+: keyPath p → ¬ keyPath p <+: q → ¬ PassesLeaf d (keyPath p) q →
      llJsonGetValue [.string r, .list (q.map stepArg)] =
        (llJsonGetValue [.string d.text, .list (q.map stepArg)] : SValue F)

/-- What a reader shows for a path. -/
def shown (d : Doc) (p : List Step) : Bytes :=
  match d.root.lookup p with
  | some n => n.value
  | none => jsonInvalid

/-- The setter writes at this path: it has one key, or two and the first leads to an object or
to nothing. -/
def Writes (root : Json) : List Bytes → Prop
  | [_] => True
  | [k, _] => ∀ n, root.step (.key k) = some n → ∃ w ms, n = .obj w ms
  | _ => False

theorem llJsonGetValue_shown [CDouble F] (d : Doc) (p : List Step) :
    llJsonGetValue [.string d.text, .list (p.map stepArg)] = (.string (shown d p) : SValue F) := by
  rw [llJsonGetValue_doc, shown]
  cases d.root.lookup p with
  | none => exact jsonInvalid_const
  | some n => rfl

theorem jsonQuoted_raw (s : Str) : jsonQuoted s.raw = (Json.str s).text := rfl

/-- A quoted text that is found in a document is a string of it. -/
theorem raw_of_found [CDouble F] {d : Doc} {p : List Step} {v t : Bytes}
    (hf : jsonFindValue (p.map (stepArg (F := F))) d.text = some (jsonQuoted v ++ t))
    (hg : llJsonGetValue [.string d.text, .list (p.map stepArg)] = (.string v : SValue F)) :
    ∃ s : Str, s.raw = v := by
  have h := jsonFindValue_doc (F := F) p d
  rw [llJsonGetValue_doc] at hg
  cases hl : d.root.lookup p with
  | none =>
    rw [hl, hf] at h
    cases h
  | some n =>
    rw [hl] at h hg
    obtain ⟨rest, -, he⟩ := h
    rw [hf] at he
    have he : jsonQuoted v ++ t = n.text ++ rest := Option.some.inj he
    have hv := SValue.string.inj hg
    have hscalar (hn : n.IsScalar) : ∃ s : Str, s.raw = v := by
      have hd : ∀ c, Json.isSolid c → c ≠ 34 := by decide +kernel
      obtain ⟨c, u, hc⟩ := List.exists_cons_of_ne_nil (Json.text_ne_of_isScalar hn)
      rw [hc] at he
      have hne := hd c (Json.solid_of_isScalar hn c (hc ▸ List.mem_cons_self))
      exact absurd (List.cons.inj he).1.symm hne
    cases n with
    | str s => exact ⟨s, hv⟩
    | obj w ms => exact absurd (List.cons.inj he).1 (by decide)
    | arr w es => exact absurd (List.cons.inj he).1 (by decide)
    | _ => exact hscalar trivial

theorem jsonFindValue_skip (path : List (SValue F)) (t : Bytes) :
    jsonFindValue path (jsonSkipWs t) = jsonFindValue path t := by
  have h : jsonSkipWs (jsonSkipWs t) = jsonSkipWs t := List.dropWhile_idempotent _ t
  cases path <;> simp only [jsonFindValue, h]

theorem Slot.findValue {pre w : Ws} {ms : List (Key × Json × Ws)} {post : Ws}
    {k head tail : Bytes} (h : Slot pre w ms post k head tail) (path : List (SValue F))
    (t : Bytes) : jsonFindValue (.string k :: path) (head ++ t) = jsonFindValue path t := by
  obtain ⟨u, hu, hk⟩ := h.find t
  rw [jsonFindValue, hu, jsonFindStep, hk, Option.bind_some, jsonFindValue_skip]

/-- The setter wrote `v` at the path `p`, and `r` is the result. -/
structure Sets (F : Type) [CDouble F] (d : Doc) (p : List Bytes) (v r : Bytes) : Prop where
  set : llJsonSetValue [.string d.text, .list ((keyPath p).map stepArg), .string v] =
    (.string r : SValue F)
  found : ∃ t, jsonFindValue ((keyPath p).map (stepArg (F := F))) r = some (jsonQuoted v ++ t)
  tree : ∀ s : Str, s.raw = v → ∃ d' : Doc, d'.text = r ∧
    d'.root.lookup (keyPath p) = some (.str s) ∧
    ∀ q, ¬ q <+: keyPath p → ¬ keyPath p <+: q → d'.root.lookup q = d.root.lookup q

theorem Sets.setThenGet_iff [CDouble F] {d : Doc} {p : List Bytes} {v r : Bytes}
    (h : Sets F d p v r) : SetThenGet F d p v ↔ ∃ s : Str, s.raw = v := by
  constructor
  · rintro ⟨r', hset, hget, ⟨d', rfl⟩, -⟩
    rw [h.set] at hset
    obtain rfl := SValue.string.inj hset
    obtain ⟨t, hf⟩ := h.found
    exact raw_of_found hf hget
  · rintro ⟨s, hs⟩
    obtain ⟨d', rfl, hl, hother⟩ := h.tree s hs
    refine ⟨d'.text, h.set, ?_, ⟨d', rfl⟩, ?_⟩
    · rw [llJsonGetValue_doc, hl]
      exact congrArg SValue.string hs
    · intro q h1 h2 _
      rw [llJsonGetValue_doc, llJsonGetValue_doc, hother q h1 h2]

/-- What a changed member leaves as it is: every path that does not start with its key. -/
theorem lookup_eq_of_ne {w : Ws} {ms ms' : List (Key × Json × Ws)} {k : Bytes}
    (h : ∀ k' ≠ k, Json.findKey k' ms' = Json.findKey k' ms) {s : Step} (hs : s ≠ .key k)
    (q : List Step) : (Json.obj w ms').lookup (s :: q) = (Json.obj w ms).lookup (s :: q) := by
  cases s with
  | key k' =>
    have hk : k' ≠ k := fun he => hs (congrArg Step.key he)
    exact congrArg (fun o : Option Json => o.bind (Json.lookup q)) (h k' hk)
  | idx i => rfl

theorem sets_one [CDouble F] (pre w : Ws) (ms : List (Key × Json × Ws)) (post : Ws) (s : Str)
    (v : Bytes) : ∃ r, Sets F ⟨pre, .obj w ms, post⟩ [s.raw] v r := by
  obtain ⟨head, tail, hslot⟩ := exists_slot pre w ms post s
  refine ⟨head ++ (jsonQuoted v ++ tail), ?_, ⟨tail, ?_⟩, ?_⟩
  · exact congrArg SValue.string (hslot.put (jsonQuoted v))
  · exact hslot.findValue [] (jsonQuoted v ++ tail)
  · rintro s' rfl
    obtain ⟨ms', ht, hk, hother⟩ := hslot.tree (.str s')
    refine ⟨_, ht, congrArg (fun o : Option Json => o.bind (Json.lookup [])) hk, ?_⟩
    intro q h1 h2
    cases q with
    | nil => exact absurd List.nil_prefix h1
    | cons s q =>
      refine lookup_eq_of_ne hother ?_ q
      rintro rfl
      exact h2 (List.cons_prefix_cons.mpr ⟨rfl, List.nil_prefix⟩)

/-- The object in which the second key of a path is set. -/
theorem exists_inner [CDouble F] {pre w : Ws} {ms : List (Key × Json × Ws)} {post : Ws}
    {k head tail : Bytes} (hslot : Slot pre w ms post k head tail)
    (hw : ∀ n, Json.findKey k ms = some n → ∃ w ms, n = .obj w ms) :
    ∃ w' ms', (match jsonFindValue [SValue.string (F := F) k]
          (⟨pre, .obj w ms, post⟩ : Doc).text with
        | some r => upTo r (jsonWalk r)
        | none => [123, 125]) = (⟨.none, .obj w' ms', .none⟩ : Doc).text ∧
      (Json.findKey k ms = some (.obj w' ms') ∨ Json.findKey k ms = none ∧ ms' = []) := by
  have hfind := jsonFindValue_doc (F := F) [.key k] ⟨pre, .obj w ms, post⟩
  cases h : Json.findKey k ms with
  | none =>
    have hl : (Json.obj w ms).lookup [.key k] = none :=
      congrArg (fun o : Option Json => o.bind (Json.lookup [])) h
    rw [hl] at hfind
    rw [show jsonFindValue [SValue.string (F := F) k] _ = none from hfind]
    exact ⟨.none, [], rfl, .inr ⟨rfl, rfl⟩⟩
  | some n =>
    obtain ⟨w', ms', rfl⟩ := hw n h
    obtain ⟨rest, -, htext, -⟩ := hslot.old _ h
    refine ⟨w', ms', ?_, .inl rfl⟩
    rw [htext, hslot.findValue, jsonFindValue, jsonSkipWs_text]
    simp only [jsonWalk_obj, upTo_append, Doc.text, Ws.none, List.nil_append, List.append_nil]

theorem sets_two [CDouble F] (pre w : Ws) (ms : List (Key × Json × Ws)) (post : Ws) (s₁ s₂ : Str)
    (v : Bytes) (hw : ∀ n, Json.findKey s₁.raw ms = some n → ∃ w ms, n = .obj w ms) :
    ∃ r, Sets F ⟨pre, .obj w ms, post⟩ [s₁.raw, s₂.raw] v r := by
  obtain ⟨head, tail, hslot⟩ := exists_slot pre w ms post s₁
  obtain ⟨w', ms', hsub, hold⟩ := exists_inner (F := F) hslot hw
  obtain ⟨head', tail', hinner⟩ := exists_slot .none w' ms' .none s₂
  refine ⟨head ++ ((head' ++ (jsonQuoted v ++ tail')) ++ tail), ?_, ⟨tail' ++ tail, ?_⟩, ?_⟩
  · have hput := hslot.put (head' ++ (jsonQuoted v ++ tail'))
    have hobj := hinner.put (jsonQuoted v)
    rw [← hsub] at hobj
    rw [← hput, ← hobj]
    rfl
  · have h := hslot.findValue (F := F) [.string s₂.raw] ((head' ++ (jsonQuoted v ++ tail')) ++ tail)
    refine h.trans ?_
    rw [List.append_assoc, hinner.findValue, List.append_assoc]
    rfl
  · rintro s' rfl
    obtain ⟨ms₂, ht₂, hk₂, hother₂⟩ := hinner.tree (.str s')
    obtain ⟨ms₁, ht₁, hk₁, hother₁⟩ := hslot.tree (.obj w' ms₂)
    have hnew (q : List Step) : (Json.obj w ms₁).lookup (.key s₁.raw :: q) =
        (Json.obj w' ms₂).lookup q :=
      congrArg (fun o : Option Json => o.bind (Json.lookup q)) hk₁
    refine ⟨⟨pre, .obj w ms₁, post⟩, ?_, ?_, ?_⟩
    · have hobj : (Json.obj w' ms₂).text = head' ++ ((Json.str s').text ++ tail') := by
        simpa only [Doc.text, Ws.none, List.nil_append, List.append_nil] using ht₂
      rw [ht₁, hobj]
      rfl
    · rw [keyPath, List.map_cons, hnew]
      exact congrArg (fun o : Option Json => o.bind (Json.lookup [])) hk₂
    · intro q h1 h2
      cases q with
      | nil => exact absurd List.nil_prefix h1
      | cons s q =>
        by_cases hs : s = .key s₁.raw
        · subst hs
          cases q with
          | nil => exact absurd (List.cons_prefix_cons.mpr ⟨rfl, List.nil_prefix⟩) h1
          | cons s q =>
            have hne : s ≠ .key s₂.raw := by
              rintro rfl
              exact h2 (List.cons_prefix_cons.mpr
                ⟨rfl, List.cons_prefix_cons.mpr ⟨rfl, List.nil_prefix⟩⟩)
            refine (hnew (s :: q)).trans ((lookup_eq_of_ne hother₂ hne q).trans ?_)
            rcases hold with h | ⟨h, rfl⟩
            · exact (congrArg (fun o : Option Json => o.bind (Json.lookup (s :: q))) h).symm
            · have hnone : (Json.obj w ms).lookup (.key s₁.raw :: s :: q) = none :=
                congrArg (fun o : Option Json => o.bind (Json.lookup (s :: q))) h
              refine Eq.trans ?_ hnone.symm
              cases s <;> rfl
        · exact lookup_eq_of_ne hother₁ hs q

/-- Where the first of two keys leads to a value that is no object, the setter changes
nothing. -/
theorem llJsonSetValue_leaf [CDouble F] {pre w : Ws} {ms : List (Key × Json × Ws)} {post : Ws}
    {k head tail : Bytes} (hslot : Slot pre w ms post k head tail) {n : Json}
    (hn : Json.findKey k ms = some n) (hobj : ¬ ∃ w ms, n = .obj w ms) (k₂ v : Bytes) :
    llJsonSetValue [.string (⟨pre, .obj w ms, post⟩ : Doc).text,
      .list [.string k, .string k₂], .string v] =
      (.string (⟨pre, .obj w ms, post⟩ : Doc).text : SValue F) := by
  obtain ⟨rest, hr, htext, htail⟩ := hslot.old n hn
  obtain ⟨a, ha, he, -⟩ := jsonWalk_text n hr
  rw [← htail] at he
  have hsub : (match jsonFindValue [SValue.string (F := F) k]
      (⟨pre, .obj w ms, post⟩ : Doc).text with
      | some r => upTo r (jsonWalk r)
      | none => [123, 125]) = n.text ++ a := by
    rw [htext, hslot.findValue, jsonFindValue, jsonSkipWs_text]
    have hup := upTo_append (n.text ++ a) tail
    rw [List.append_assoc, ← he] at hup
    simp only [← htail, hup]
  have hfirst : ∃ c t, n.text = c :: t ∧ c ≠ 123 := by
    have hscalar (h : n.IsScalar) : ∃ c t, n.text = c :: t ∧ c ≠ 123 := by
      have hd : ∀ c, Json.isSolid c → c ≠ 123 := by decide +kernel
      obtain ⟨c, t, hc⟩ := List.exists_cons_of_ne_nil (Json.text_ne_of_isScalar h)
      exact ⟨c, t, hc, hd c (Json.solid_of_isScalar h c (hc ▸ List.mem_cons_self))⟩
    cases n with
    | obj w' ms' => exact absurd ⟨w', ms', rfl⟩ hobj
    | str s => exact ⟨34, s.raw ++ [34], rfl, by decide⟩
    | arr w' es => exact ⟨91, _, rfl, by decide⟩
    | _ => exact hscalar trivial
  have hsame : jsonObjSetTop (n.text ++ a) k₂ v = n.text ++ a := by
    obtain ⟨c, t, hc, hne⟩ := hfirst
    have hskip := jsonSkipWs_text n a
    rw [hc, List.cons_append] at hskip ⊢
    rw [jsonObjSetTop, jsonPut, hskip]
    split
    · rename_i h
      exact absurd (List.cons.inj h).1 hne
    · rfl
  have hput := hslot.put (n.text ++ a)
  rw [List.append_assoc, ← he, ← htext] at hput
  calc llJsonSetValue [.string (⟨pre, .obj w ms, post⟩ : Doc).text,
        .list [.string k, .string k₂], .string v]
      = (.string (jsonPut (⟨pre, .obj w ms, post⟩ : Doc).text k
          (jsonObjSetTop (n.text ++ a) k₂ v)) : SValue F) := by rw [← hsub]; rfl
    _ = .string (⟨pre, .obj w ms, post⟩ : Doc).text := by rw [hsame, hput]

theorem setThenGet_unchanged [CDouble F] {d : Doc} {p : List Bytes} {v : Bytes}
    (h : llJsonSetValue [.string d.text, .list ((keyPath p).map stepArg), .string v] =
      (.string d.text : SValue F)) : SetThenGet F d p v ↔ shown d (keyPath p) = v := by
  constructor
  · rintro ⟨r, hset, hget, -⟩
    rw [h] at hset
    obtain rfl := SValue.string.inj hset
    rw [llJsonGetValue_shown] at hget
    exact SValue.string.inj hget
  · intro hv
    refine ⟨d.text, h, ?_, ⟨d, rfl⟩, fun q _ _ _ => rfl⟩
    rw [llJsonGetValue_shown, hv]

/-- Setting and getting works as it should exactly if the value can stand between quotes as it
is, where the setter writes, and elsewhere only if the value is there already. -/
theorem json_set_then_get [CDouble F] (d : Doc) (hd : ∃ w ms, d.root = .obj w ms)
    (p : List Bytes) (hp : p ≠ []) (hk : ∀ k ∈ p, ∀ c ∈ k, Json.isPlain c) (v : Bytes) :
    SetThenGet F d p v ↔
      (Writes d.root p ∧ ∃ s : Str, s.raw = v) ∨ (¬ Writes d.root p ∧ shown d (keyPath p) = v) := by
  obtain ⟨pre, root, post⟩ := d
  obtain ⟨w, ms, rfl⟩ := hd
  have hstr (k : Bytes) (h : k ∈ p) : ∃ s : Str, s.raw = k :=
    ⟨.ofPlain k (hk k h), Str.raw_ofPlain k (hk k h)⟩
  have hwrites {r : Bytes} (h : Sets F ⟨pre, .obj w ms, post⟩ p v r)
      (hw : Writes (.obj w ms) p) : SetThenGet F ⟨pre, .obj w ms, post⟩ p v ↔
        (Writes (.obj w ms) p ∧ ∃ s : Str, s.raw = v) ∨
        (¬ Writes (.obj w ms) p ∧ shown ⟨pre, .obj w ms, post⟩ (keyPath p) = v) := by
    rw [h.setThenGet_iff]
    simp only [hw, true_and, not_true_eq_false, false_and, or_false]
  have hleaves (h : llJsonSetValue [.string (⟨pre, .obj w ms, post⟩ : Doc).text,
        .list ((keyPath p).map stepArg), .string v] =
      (.string (⟨pre, .obj w ms, post⟩ : Doc).text : SValue F))
      (hw : ¬ Writes (.obj w ms) p) : SetThenGet F ⟨pre, .obj w ms, post⟩ p v ↔
        (Writes (.obj w ms) p ∧ ∃ s : Str, s.raw = v) ∨
        (¬ Writes (.obj w ms) p ∧ shown ⟨pre, .obj w ms, post⟩ (keyPath p) = v) := by
    rw [setThenGet_unchanged h]
    simp only [hw, false_and, not_false_eq_true, true_and, false_or]
  rcases p with _ | ⟨k₁, _ | ⟨k₂, _ | ⟨k₃, p⟩⟩⟩
  · exact absurd rfl hp
  · obtain ⟨s, rfl⟩ := hstr k₁ (by simp)
    obtain ⟨r, hr⟩ := sets_one (F := F) pre w ms post s v
    exact hwrites hr trivial
  · obtain ⟨s₁, rfl⟩ := hstr k₁ (by simp)
    obtain ⟨s₂, rfl⟩ := hstr k₂ (by simp)
    by_cases hw : Writes (.obj w ms) [s₁.raw, s₂.raw]
    · obtain ⟨r, hr⟩ := sets_two (F := F) pre w ms post s₁ s₂ v hw
      exact hwrites hr hw
    · obtain ⟨n, hn⟩ := not_forall.mp hw
      obtain ⟨hn, hobj⟩ := Classical.not_imp.mp hn
      obtain ⟨head, tail, hslot⟩ := exists_slot pre w ms post s₁
      exact hleaves (llJsonSetValue_leaf hslot hn hobj s₂.raw v) hw
  · exact hleaves rfl id

/-- `{}` -/
def emptyDoc : Doc := ⟨.none, .obj .none [], .none⟩

theorem json_set_then_get_one : SetThenGet ℚ emptyDoc [lit "k"] (lit "v") := by
  refine (json_set_then_get emptyDoc ⟨.none, [], rfl⟩ [lit "k"] (by simp) ?_ (lit "v")).mpr ?_
  · have hk : ∀ c ∈ lit "k", Json.isPlain c := by decide +kernel
    simpa using hk
  · exact .inl ⟨trivial, .ofPlain (lit "v") (by decide +kernel), Str.raw_ofPlain _ _⟩

/-- A quote as the value ends the string it is put into, and three keys are more than the setter
takes. -/
theorem json_set_quote :
    (∃ w ms, emptyDoc.root = .obj w ms) ∧ emptyDoc.root.Distinct ∧
    ¬ SetThenGet ℚ emptyDoc [lit "k"] (lit "\"") ∧
    ¬ SetThenGet ℚ emptyDoc [lit "a", lit "b", lit "c"] (lit "v") := by
  refine ⟨⟨.none, [], rfl⟩, .obj (by simp) (by simp), ?_, ?_⟩
  · rintro ⟨r, hset, hget, -⟩
    obtain rfl : jsonObjSetTop emptyDoc.text (lit "k") (lit "\"") = r := SValue.string.inj hset
    have hread := congrArg (fun x => argStr [x] 0) hget
    revert hread
    decide +kernel
  · rintro ⟨r, hset, hget, -⟩
    obtain rfl : emptyDoc.text = r := SValue.string.inj hset
    have hread := congrArg (fun x => argStr [x] 0) hget
    revert hread
    decide +kernel

end Slemu
