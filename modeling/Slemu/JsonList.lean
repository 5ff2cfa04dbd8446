import Slemu.JsonLookup
import Slemu.Decimal

/-! Which lists come back from `llJson2List` as `llList2Json` wrote them. -/

namespace Slemu
open Json (Ws Str Key Doc)
variable {F : Type}

/-! ### Strings that are not walkable -/

/-- A string that is not walkable ends early, at a quote, or late, because of a backslash at its
end. -/
theorem jsonWalkable_cases (s : Bytes) : jsonWalkable s ∨
    (∃ u u', s = u ++ 34 :: u' ∧ jsonWalkable u) ∨ (∃ u, s = u ++ [92] ∧ jsonWalkable u) := by
  have hcons {c : UInt8} (h92 : c ≠ 92) (h34 : c ≠ 34) {t : Bytes} (h : jsonWalkable t ∨
      (∃ u u', t = u ++ 34 :: u' ∧ jsonWalkable u) ∨ (∃ u, t = u ++ [92] ∧ jsonWalkable u)) :
      jsonWalkable (c :: t) ∨ (∃ u u', c :: t = u ++ 34 :: u' ∧ jsonWalkable u) ∨
        (∃ u, c :: t = u ++ [92] ∧ jsonWalkable u) := by
    rcases h with h | ⟨u, u', rfl, hu⟩ | ⟨u, rfl, hu⟩
    · exact .inl ((jsonWalkable_cons t h92 h34).trans h)
    · exact .inr (.inl ⟨c :: u, u', rfl, (jsonWalkable_cons u h92 h34).trans hu⟩)
    · exact .inr (.inr ⟨c :: u, rfl, (jsonWalkable_cons u h92 h34).trans hu⟩)
  fun_induction jsonWalkable s with
  | case1 d t ih =>
    rcases ih with h | ⟨u, u', rfl, hu⟩ | ⟨u, rfl, hu⟩
    · exact .inl h
    · exact .inr (.inl ⟨92 :: d :: u, u', rfl, hu⟩)
    · exact .inr (.inr ⟨92 :: d :: u, rfl, hu⟩)
  | case2 d t _ => exact .inr (.inl ⟨[], d :: t, rfl, rfl⟩)
  | case3 c d t h92 h34 ih =>
    have h := hcons h92 h34 ih
    rwa [jsonWalkable_cons _ h92 h34] at h
  | case4 c =>
    by_cases h92 : c = 92
    · subst h92
      exact .inr (.inr ⟨[], rfl, rfl⟩)
    · by_cases h34 : c = 34
      · subst h34
        exact .inr (.inl ⟨[], [], rfl, rfl⟩)
      · exact .inl (by simp [h92, h34])
  | case5 => exact .inl rfl

theorem length_rdropWhile (b v : Bytes) {c : UInt8} (hc : Json.isWs c = false) :
    b.length+1 ≤ ((b ++ c :: v).rdropWhile Json.isWs).length := by
  have hr : (b ++ c :: v).reverse = v.reverse ++ c :: b.reverse := by simp
  rw [List.rdropWhile, List.length_reverse, hr, List.dropWhile_append]
  split
  · rw [List.dropWhile_cons_of_neg (by simp [hc]), List.length_cons, List.length_reverse]
  · rw [List.length_append, List.length_cons, List.length_reverse]
    omega

theorem jsonStrip_length (b : Bytes) : b.length ≤ (jsonStrip b).length+2 := by
  unfold jsonStrip
  split
  · split
    · rw [List.length_dropLast, List.length_cons]
      omega
    · omega
  · omega

/-- Between quotes, a string is read back as it is only if it is walkable. -/
theorem walkable_of_extract {s t : Bytes} {c : UInt8} (hc : c = 44 ∨ c = 125 ∨ c = 93)
    (h : jsonExtractValue (upTo (jsonQuoted s ++ c :: t) (jsonWalk (jsonQuoted s ++ c :: t))) = s) :
    jsonWalkable s := by
  have hwalk : jsonWalk (jsonQuoted s ++ c :: t) = jsonStrEnd (s ++ 34 :: c :: t) := by
    rw [jsonWalk, jsonQuoted, List.append_assoc, List.cons_append, jsonSkipWs_cons _ rfl]
    rfl
  rw [hwalk] at h
  rcases jsonWalkable_cases s with hs | ⟨u, u', rfl, hu⟩ | ⟨u, rfl, hu⟩
  · exact hs
  · -- the string ends at its first quote, and is shorter
    have hend : jsonStrEnd (u ++ 34 :: u' ++ 34 :: c :: t) = u' ++ 34 :: c :: t := by
      rw [List.append_assoc, List.cons_append]
      exact jsonStrEnd_of_walkable _ hu
    have hup : jsonQuoted (u ++ 34 :: u') ++ c :: t =
        jsonQuoted u ++ (u' ++ 34 :: c :: t) := by
      simp only [jsonQuoted, List.append_assoc, List.cons_append, List.nil_append]
    have hu' : jsonExtractValue (jsonQuoted u) = u := by
      have he := jsonExtractValue_eq_strip (b := jsonQuoted u) (w := []) (by simp)
        ⟨34, u ++ [34], rfl, rfl⟩ ⟨34 :: u, 34, rfl, rfl⟩
      rw [List.append_nil] at he
      rw [he]
      exact jsonStrip_quoted u
    rw [hend, hup, upTo_append, hu'] at h
    have hl := congrArg List.length h
    simp only [List.length_append, List.length_cons] at hl
    omega
  · -- the closing quote is taken for an escaped one, and the string is longer
    obtain ⟨v, hv⟩ := jsonStrEnd_suffix t
    have hc34 : c ≠ 92 ∧ c ≠ 34 := by rcases hc with rfl | rfl | rfl <;> decide
    have hend : jsonStrEnd (u ++ [92] ++ 34 :: c :: t) = jsonStrEnd t := by
      rw [List.append_assoc, jsonStrEnd_append hu, List.singleton_append, jsonStrEnd_escape,
        jsonStrEnd_cons t hc34.1 hc34.2]
    have hup : jsonQuoted (u ++ [92]) ++ c :: t =
        (jsonQuoted (u ++ [92]) ++ c :: v) ++ jsonStrEnd t := by
      rw [List.append_assoc, List.cons_append, hv]
    rw [hend, hup, upTo_append] at h
    have hfirst : (jsonQuoted (u ++ [92]) ++ c :: v).dropWhile Json.isWs =
        jsonQuoted (u ++ [92]) ++ c :: v := rfl
    rw [jsonExtractValue, hfirst] at h
    have hl := congrArg List.length h
    have hws : Json.isWs c = false := by rcases hc with rfl | rfl | rfl <;> rfl
    have hlong := length_rdropWhile (jsonQuoted (u ++ [92])) v hws
    have hstrip := jsonStrip_length ((jsonQuoted (u ++ [92]) ++ c :: v).rdropWhile Json.isWs)
    simp only [jsonQuoted, List.length_append, List.length_cons, List.length_nil] at hlong hl hstrip
    omega

theorem walkable_of_keyText {s t : Bytes}
    (h : jsonKeyText (s ++ 34 :: 58 :: t) (jsonStrEnd (s ++ 34 :: 58 :: t)) = s) :
    jsonWalkable s := by
  have hl := congrArg List.length h
  rw [jsonKeyText, List.length_take] at hl
  rcases jsonWalkable_cases s with hs | ⟨u, u', rfl, hu⟩ | ⟨u, rfl, hu⟩
  · exact hs
  · have hend : jsonStrEnd (u ++ 34 :: u' ++ 34 :: 58 :: t) = u' ++ 34 :: 58 :: t := by
      rw [List.append_assoc, List.cons_append]
      exact jsonStrEnd_of_walkable _ hu
    rw [hend] at hl
    simp only [List.length_append, List.length_cons] at hl
    omega
  · have hend : jsonStrEnd (u ++ [92] ++ 34 :: 58 :: t) = jsonStrEnd t := by
      rw [List.append_assoc, jsonStrEnd_append hu, List.singleton_append, jsonStrEnd_escape,
        jsonStrEnd_cons t (by decide) (by decide)]
    have ht := jsonStrEnd_le t
    rw [hend] at hl
    simp only [List.length_append, List.length_cons, List.length_nil] at hl
    omega

/-! ### Entries -/

variable [CDouble F]

/-- A string or an integer. -/
def IsPlainValue : SValue F → Prop
  | .string _ | .int _ => True
  | _ => False

/-- Between quotes the value would not be cut short or run on. -/
def WalkableValue : SValue F → Prop
  | .string s => jsonWalkable s
  | _ => True

theorem jsonElem_string (s : Bytes) : jsonElem (.string s : SValue F) = jsonQuoted s := rfl

theorem jsonElem_int (i : ℤ) : jsonElem (.int i : SValue F) = (Json.num (decNum i)).text := by
  rw [Json.text, decNum_text]
  rfl

theorem jsonElem_eq_cons {v : SValue F} (hv : IsPlainValue v) :
    ∃ c t, jsonElem v = c :: t ∧ Json.isOpening c := by
  cases v with
  | string s => exact ⟨34, s ++ [34], rfl, rfl⟩
  | int i =>
    rw [jsonElem_int]
    exact Json.text_eq_cons _
  | _ => cases hv

theorem jsonSkipWs_elem {v : SValue F} (hv : IsPlainValue v) (t : Bytes) :
    jsonSkipWs (jsonElem v ++ t) = jsonElem v ++ t := by
  obtain ⟨c, u, he, hc⟩ := jsonElem_eq_cons hv
  rw [he, List.cons_append]
  exact jsonSkipWs_cons _ (Json.not_ws_of_isOpening hc)

/-- What `json_extract_value` makes of an element, behind which comes `t`. -/
def jsonRead (v : SValue F) (t : Bytes) : Bytes :=
  jsonExtractValue (upTo (jsonElem v ++ t) (jsonWalk (jsonElem v ++ t)))

theorem jsonWalk_elem {v : SValue F} (hv : IsPlainValue v) (hw : WalkableValue v) {c : UInt8}
    (hc : c = 44 ∨ c = 125 ∨ c = 93) (t : Bytes) : jsonWalk (jsonElem v ++ c :: t) = c :: t := by
  cases v with
  | string s =>
    have h := jsonWalk_quoted hw (c :: t)
    rwa [jsonElem_string, jsonQuoted, List.append_assoc]
  | int i =>
    rw [jsonElem_int, jsonWalk_scalar (j := .num (decNum i)) trivial]
    exact List.dropWhile_cons_of_neg (by simp [jsonStop_of_closing hc])
  | _ => cases hv

theorem jsonRead_iff {v : SValue F} (hv : IsPlainValue v) {c : UInt8}
    (hc : c = 44 ∨ c = 125 ∨ c = 93) (t : Bytes) :
    jsonRead v (c :: t) = svToString v ↔ WalkableValue v := by
  constructor
  · intro h
    cases v with
    | string s => exact walkable_of_extract hc h
    | _ => trivial
  · intro hw
    rw [jsonRead, jsonWalk_elem hv hw hc, upTo_append]
    cases v with
    | string s =>
      have h := jsonExtractValue_eq_strip (b := jsonQuoted s) (w := []) (by simp)
        ⟨34, s ++ [34], rfl, rfl⟩ ⟨34 :: s, 34, rfl, rfl⟩
      rw [List.append_nil] at h
      rw [jsonElem_string, h]
      exact jsonStrip_quoted s
    | int i =>
      have h := jsonExtractValue_text (.num (decNum i)) (Follows.ws (w := []) (by simp))
      rw [jsonWalk_scalar (j := .num (decNum i)) trivial, List.dropWhile_nil, upTo_append] at h
      rw [jsonElem_int]
      exact h.trans (decNum_text i)
    | _ => cases hv

theorem jsonSkipWs_closing {c : UInt8} (hc : c = 44 ∨ c = 125 ∨ c = 93) (t : Bytes) :
    jsonSkipWs (c :: t) = c :: t := by
  rcases hc with rfl | rfl | rfl <;> rfl

/-- One turn of the loop over the elements of an array gives back an element exactly if it is
walkable, and goes on behind it. -/
theorem jsonListFrom_elem {v : SValue F} (hv : IsPlainValue v) {c : UInt8}
    (hc : c = 44 ∨ c = 125 ∨ c = 93) (t : Bytes) (r : List Bytes) :
    jsonListFrom false (jsonElem v ++ c :: t) = svToString v :: r ↔
      WalkableValue v ∧ jsonListFrom false (jsonComma (c :: t)) = r := by
  obtain ⟨d, u, he, hd⟩ := jsonElem_eq_cons hv
  have hopen : ¬ (d = 125 ∨ d = 93) := by
    rintro (rfl | rfl) <;> exact absurd hd (by decide)
  have hstep : jsonListFrom false (jsonElem v ++ c :: t) = jsonRead v (c :: t) ::
      jsonListFrom false (jsonComma (jsonSkipWs (jsonWalk (jsonElem v ++ c :: t)))) := by
    have hskip := jsonSkipWs_elem hv (c :: t)
    rw [jsonRead]
    simp only [he, List.cons_append] at hskip ⊢
    rw [jsonListFrom, hskip]
    simp only [dif_neg hopen, jsonListEntry, jsonListKey, hskip, List.nil_append,
      List.singleton_append]
  rw [hstep, List.cons.injEq, jsonRead_iff hv hc]
  apply and_congr_right
  intro hw
  rw [jsonWalk_elem hv hw hc, jsonSkipWs_closing hc]

theorem jsonListFrom_key (u : Bytes) : jsonListFrom true (34 :: u) =
    jsonKeyText u (jsonStrEnd u) ::
      jsonExtractValue (upTo (jsonSkipWs (jsonListKey true (34 :: u)).2)
        (jsonWalk (jsonSkipWs (jsonListKey true (34 :: u)).2))) ::
      jsonListFrom true (jsonComma (jsonSkipWs
        (jsonWalk (jsonSkipWs (jsonListKey true (34 :: u)).2)))) := by
  rw [jsonListFrom, jsonSkipWs_cons _ rfl]
  rfl

/-- The same for a member of an object. -/
theorem jsonListFrom_member (k : Bytes) {v : SValue F} (hv : IsPlainValue v) {c : UInt8}
    (hc : c = 44 ∨ c = 125 ∨ c = 93) (t : Bytes) (r : List Bytes) :
    jsonListFrom true (jsonQuoted k ++ 58 :: (jsonElem v ++ c :: t)) = k :: svToString v :: r ↔
      jsonWalkable k ∧ WalkableValue v ∧ jsonListFrom true (jsonComma (c :: t)) = r := by
  have hq : jsonQuoted k ++ 58 :: (jsonElem v ++ c :: t) =
      34 :: (k ++ 34 :: 58 :: (jsonElem v ++ c :: t)) := by
    simp only [jsonQuoted, List.append_assoc, List.cons_append, List.nil_append]
  have hrest (hk : jsonWalkable k) :
      (jsonListKey true (34 :: (k ++ 34 :: 58 :: (jsonElem v ++ c :: t)))).2 =
        jsonElem v ++ c :: t := by
    simp only [jsonListKey, jsonStrEnd_of_walkable _ hk,
      jsonSkipWs_cons _ (show Json.isWs 58 = false from rfl), List.head?_cons, if_true,
      List.tail_cons]
  rw [hq, jsonListFrom_key, List.cons.injEq, List.cons.injEq]
  constructor
  · rintro ⟨hk, hx, hl⟩
    have hk := walkable_of_keyText hk
    rw [hrest hk, jsonSkipWs_elem hv] at hx hl
    have hw := (jsonRead_iff hv hc t).mp hx
    rw [jsonWalk_elem hv hw hc, jsonSkipWs_closing hc] at hl
    exact ⟨hk, hw, hl⟩
  · rintro ⟨hk, hw, hl⟩
    rw [hrest hk, jsonSkipWs_elem hv, jsonWalk_elem hv hw hc, jsonSkipWs_closing hc]
    have hkey := jsonKeyText_walkable (58 :: (jsonElem v ++ c :: t)) hk
    have hx := (jsonRead_iff hv hc t).mpr hw
    rw [jsonRead, jsonWalk_elem hv hw hc] at hx
    exact ⟨hkey, hx, hl⟩

/-! ### Lists -/

omit [CDouble F] in
theorem jsonListFrom_close (isObj : Bool) {c : UInt8} (hc : c = 125 ∨ c = 93) (t : Bytes) :
    jsonListFrom isObj (c :: t) = [] := by
  have hws : Json.isWs c = false := by rcases hc with rfl | rfl <;> rfl
  rw [jsonListFrom, jsonSkipWs_cons t hws]
  exact dif_pos hc

theorem jsonListFrom_elems (l : List (SValue F)) (hl : ∀ v ∈ l, IsPlainValue v) :
    jsonListFrom false (Json.items (l.map jsonElem) ++ [93]) = l.map svToString ↔
      ∀ v ∈ l, WalkableValue v := by
  cases l with
  | nil => simp [Json.items, jsonListFrom_close]
  | cons v l =>
    rw [List.map_cons, Json.items, List.flatMap_map, List.append_assoc]
    induction l generalizing v with
    | nil =>
      have hv := hl v List.mem_cons_self
      have hend : jsonListFrom false (jsonComma [93]) = [] :=
        jsonListFrom_close false (.inr rfl) []
      rw [List.flatMap_nil, List.nil_append, List.map_cons, List.map_nil,
        jsonListFrom_elem hv (.inr (.inr rfl)), hend]
      simp
    | cons v' l ih =>
      have hv := hl v List.mem_cons_self
      have htail := ih v' fun x hx => hl x (List.mem_cons_of_mem v hx)
      rw [List.flatMap_cons, List.cons_append, List.cons_append, List.append_assoc, List.map_cons,
        jsonListFrom_elem hv (.inl rfl), List.forall_mem_cons]
      exact and_congr_right fun _ => htail

/-- The list of a list of keys and values in turn. -/
def alternating (ps : List (Bytes × SValue F)) : List (SValue F) :=
  ps.flatMap fun p => [.string p.1, p.2]

theorem jsonMembers_alternating (ps : List (Bytes × SValue F)) :
    jsonMembers (alternating ps) = ps.map fun p => jsonQuoted p.1 ++ 58 :: jsonElem p.2 := by
  induction ps with
  | nil => rfl
  | cons p ps ih => exact congrArg (_ :: ·) ih

theorem jsonListFrom_members (ps : List (Bytes × SValue F)) (hp : ∀ p ∈ ps, IsPlainValue p.2) :
    jsonListFrom true (Json.items (jsonMembers (alternating ps)) ++ [125]) =
        (alternating ps).map svToString ↔
      ∀ p ∈ ps, jsonWalkable p.1 ∧ WalkableValue p.2 := by
  rw [jsonMembers_alternating]
  cases ps with
  | nil => simp [Json.items, alternating, jsonListFrom_close]
  | cons p ps =>
    rw [List.map_cons, Json.items, List.flatMap_map, List.append_assoc, List.append_assoc,
      List.cons_append]
    induction ps generalizing p with
    | nil =>
      have hv := hp p List.mem_cons_self
      have hend : jsonListFrom true (jsonComma [125]) = [] := jsonListFrom_close true (.inl rfl) []
      have h := jsonListFrom_member p.1 hv (.inr (.inl rfl)) [] []
      rw [hend, eq_self, and_true] at h
      rw [List.forall_mem_singleton]
      exact h
    | cons p' ps ih =>
      have hv := hp p List.mem_cons_self
      have htail := ih p' fun x hx => hp x (List.mem_cons_of_mem p hx)
      rw [List.flatMap_cons, List.cons_append, List.cons_append, List.append_assoc,
        List.append_assoc, List.forall_mem_cons, and_assoc]
      refine (jsonListFrom_member p.1 hv (.inl rfl) _ _).trans ?_
      exact and_congr_right fun _ => and_congr_right fun _ => htail

theorem containsBytes_object :
    containsBytes [239, 191, 188] [239, 191, 189] = false ∧
    containsBytes [239, 191, 189] [239, 191, 189] = true := by decide +kernel

theorem llList2Json_array (l : List (SValue F)) :
    llList2Json [builtinsConst (lit "JSON_ARRAY"), .list l] =
      .string (91 :: (Json.items (l.map jsonElem) ++ [93])) := by
  rw [builtinsConst_of_getElem? 31 rfl]
  simp only [llList2Json, argStr, List.getElem?_cons_zero, containsBytes_object.1]
  rfl

theorem llList2Json_object (l : List (SValue F)) :
    llList2Json [builtinsConst (lit "JSON_OBJECT"), .list l] =
      .string (123 :: (Json.items (jsonMembers l) ++ [125])) := by
  rw [builtinsConst_of_getElem? 30 rfl]
  simp only [llList2Json, argStr, List.getElem?_cons_zero, containsBytes_object.2]
  rfl

omit [CDouble F] in
theorem llJson2List_array (t : Bytes) :
    llJson2List [.string (91 :: t)] =
      (.list ((jsonListFrom false t).map .string) : SValue F) := rfl

omit [CDouble F] in
theorem llJson2List_object (t : Bytes) :
    llJson2List [.string (123 :: t)] =
      (.list ((jsonListFrom true t).map .string) : SValue F) := rfl

omit [CDouble F] in
theorem list_strings_inj {a b : List Bytes} :
    (.list (a.map .string) : SValue F) = .list (b.map .string) ↔ a = b := by
  rw [SValue.list.injEq]
  exact List.map_inj_right fun x y h => SValue.string.inj h

/-- A list of strings and integers comes back from its JSON array exactly if every string in it
is walkable: no quote in it without a backslash before it, and no backslash at its end that has
no partner. So does a list of keys and values from its JSON object. -/
theorem json_list_round_trip (l : List (SValue F)) (hl : ∀ v ∈ l, IsPlainValue v)
    (ps : List (Bytes × SValue F)) (hp : ∀ p ∈ ps, IsPlainValue p.2) :
    (llJson2List [llList2Json [builtinsConst (lit "JSON_ARRAY"), .list l]] =
        .list (l.map fun v => .string (svToString v)) ↔
      ∀ s, .string s ∈ l → jsonWalkable s) ∧
    (llJson2List [llList2Json [builtinsConst (lit "JSON_OBJECT"), .list (alternating ps)]] =
        .list ((alternating ps).map fun v => .string (svToString v)) ↔
      ∀ s, .string s ∈ alternating ps → jsonWalkable s) := by
  have hcomp (l : List (SValue F)) : (l.map fun v => (.string (svToString v) : SValue F)) =
      (l.map svToString).map .string := by rw [List.map_map]; rfl
  rw [llList2Json_array, llJson2List_array, llList2Json_object, llJson2List_object, hcomp, hcomp,
    list_strings_inj, list_strings_inj, jsonListFrom_elems l hl, jsonListFrom_members ps hp]
  constructor
  · constructor
    · exact fun h s hs => h _ hs
    · intro h v hv
      cases v with
      | string s => exact h s hv
      | _ => trivial
  · have hmem (v : SValue F) : v ∈ alternating ps ↔ ∃ p ∈ ps, v = .string p.1 ∨ v = p.2 := by
      simp [alternating]
    constructor
    · intro h s hs
      obtain ⟨p, hp, he | he⟩ := (hmem _).mp hs
      · rw [SValue.string.inj he]
        exact (h p hp).1
      · have hw := (h p hp).2
        rw [← he] at hw
        exact hw
    · intro h p hp
      refine ⟨h p.1 ((hmem _).mpr ⟨p, hp, .inl rfl⟩), ?_⟩
      obtain ⟨k, v⟩ := p
      cases v with
      | string s => exact h s ((hmem _).mpr ⟨_, hp, .inr rfl⟩)
      | _ => trivial

theorem json_list_round_trip_numbers :
    llJson2List [llList2Json [builtinsConst (lit "JSON_ARRAY"), .list [.int 10, .string (lit "[,")]]] =
      (.list [.string (lit "10"), .string (lit "[,")] : SValue ℚ) ∧
    llJson2List [llList2Json [builtinsConst (lit "JSON_OBJECT"),
        .list (alternating [(lit "k1", .int 1)])]] =
      (.list [.string (lit "k1"), .string (lit "1")] : SValue ℚ) := by
  have h := json_list_round_trip [.int 10, .string (lit "[,")] (by simp [IsPlainValue])
    [(lit "k1", (.int 1 : SValue ℚ))] (by simp [IsPlainValue])
  have hw : jsonWalkable (lit "[,") ∧ jsonWalkable (lit "k1") := by decide +kernel
  constructor
  · refine h.1.mpr ?_
    intro s hs
    have hs : s = lit "[," := by simpa using hs
    exact hs ▸ hw.1
  · refine h.2.mpr ?_
    intro s hs
    have hs : s = lit "k1" := by simpa [alternating] using hs
    exact hs ▸ hw.2

/-- `a"b` comes back as the two strings `a` and `b"`. -/
theorem json_list_quote_splits :
    llJson2List [llList2Json [builtinsConst (lit "JSON_ARRAY"), .list [.string (lit "a\"b")]]] =
      (.list [.string (lit "a"), .string (lit "b\"")] : SValue ℚ) ∧
    llJson2List [llList2Json [builtinsConst (lit "JSON_ARRAY"), .list [.string (lit "a\"b")]]] ≠
      (.list [.string (lit "a\"b")] : SValue ℚ) := by
  have hread : jsonListFrom false (Json.items [jsonQuoted (lit "a\"b")] ++ [93]) =
      [lit "a", lit "b\""] := by decide +kernel
  have h : llJson2List [llList2Json [builtinsConst (lit "JSON_ARRAY"),
      .list [.string (lit "a\"b")]]] =
      (.list ([lit "a", lit "b\""].map .string) : SValue ℚ) := by
    rw [llList2Json_array, llJson2List_array]
    exact list_strings_inj.mpr hread
  refine ⟨h, ?_⟩
  rw [h]
  intro he
  cases he

end Slemu
