import Slemu.Builtins
import Slemu.Json

/-! The JSON builtins of builtins.c. A pointer into a text is the part of the text from there
on, and the end of the text is the NUL that `*p` tests for. -/

namespace Slemu
variable {F : Type}

/-- The characters between two pointers into one text. -/
def upTo (start stop : Bytes) : Bytes := start.take (start.length-stop.length)

/-- `json_skip_ws` -/
def jsonSkipWs (p : Bytes) : Bytes := p.dropWhile Json.isWs

/-- `json_walk_str` behind its opening quote. -/
def jsonStrEnd : Bytes → Bytes
  | c :: d :: t => if c = 92 then jsonStrEnd t else if c = 34 then d :: t else jsonStrEnd (d :: t)
  | _ => []

theorem jsonStrEnd_le (p : Bytes) : (jsonStrEnd p).length ≤ p.length := by
  fun_induction jsonStrEnd p with
  | case1 d t ih => exact ih.trans (by simp only [List.length_cons]; omega)
  | case2 d t _ => exact Nat.le_succ _
  | case3 c d t _ _ ih => exact ih.trans (Nat.le_succ _)
  | case4 p _ => exact Nat.zero_le _

/-- The key between a quote and `key_end`, without the closing quote. A string that is not
closed has a negative length in the source if nothing follows its opening quote. -/
def jsonKeyText (t keyEnd : Bytes) : Bytes := t.take (t.length-keyEnd.length-1)

/-- The loop of `json_walk` and of the setters: from an opening bracket to the bracket that
closes it, over strings and with only one kind of bracket counted. -/
def jsonClose (op cl : UInt8) (depth : ℤ) : Bytes → Option Bytes
  | [] => none
  | c :: t =>
    if c = 34 then jsonClose op cl depth (jsonStrEnd t)
    else if c = op then jsonClose op cl (depth+1) t
    else if c = cl then
      if depth-1 = 0 then some (c :: t) else jsonClose op cl (depth-1) t
    else jsonClose op cl depth t
termination_by p => p.length
decreasing_by
  · exact Nat.lt_succ_of_le (jsonStrEnd_le t)
  all_goals exact Nat.lt_succ_self _

/-- Where the scan of a number or a name stops; a carriage return is not among these. -/
def jsonStop (c : UInt8) : Bool :=
  c == 44 || c == 125 || c == 93 || c == 32 || c == 9 || c == 10

/-- What follows the bracket that closes the one a text starts with, if there is one. -/
def jsonAfter (op cl : UInt8) (p : Bytes) : Bytes := ((jsonClose op cl 0 p).map List.tail).getD []

/-- `json_walk` -/
def jsonWalk (p : Bytes) : Bytes :=
  match jsonSkipWs p with
  | 34 :: t => jsonStrEnd t
  | 123 :: t => jsonAfter 123 125 (123 :: t)
  | 91 :: t => jsonAfter 91 93 (91 :: t)
  | t => t.dropWhile fun c => !jsonStop c

/-- The end of `json_extract_value`: the quotes come off. -/
def jsonStrip (b : Bytes) : Bytes :=
  match b with
  | 34 :: t => if t.getLast? = some 34 then t.dropLast else b
  | _ => b

/-- `json_extract_value`, on the characters from `start` to `end`. -/
def jsonExtractValue (b : Bytes) : Bytes :=
  jsonStrip ((b.dropWhile Json.isWs).rdropWhile Json.isWs)

theorem jsonSkipWs_le (p : Bytes) : (jsonSkipWs p).length ≤ p.length :=
  (List.dropWhile_suffix _).length_le

theorem jsonClose_le {op cl : UInt8} {depth : ℤ} {p e : Bytes}
    (h : jsonClose op cl depth p = some e) : e.length ≤ p.length := by
  fun_induction jsonClose op cl depth p with
  | case1 depth => cases h
  | case2 depth t ih => exact (ih h).trans ((jsonStrEnd_le t).trans (Nat.le_succ _))
  | case3 depth t _ ih => exact (ih h).trans (Nat.le_succ _)
  | case4 depth t _ _ _ =>
    cases h
    exact le_rfl
  | case5 depth t _ _ _ ih => exact (ih h).trans (Nat.le_succ _)
  | case6 depth c t _ _ _ ih => exact (ih h).trans (Nat.le_succ _)

theorem jsonAfter_lt (op cl : UInt8) (c : UInt8) (t : Bytes) :
    (jsonAfter op cl (c :: t)).length < (c :: t).length := by
  rw [jsonAfter]
  cases h : jsonClose op cl 0 (c :: t) with
  | none => exact Nat.succ_pos _
  | some e =>
    have he := jsonClose_le h
    simp only [Option.map_some, Option.getD_some, List.length_tail, List.length_cons] at he ⊢
    omega

theorem jsonWalk_le (p : Bytes) : (jsonWalk p).length ≤ p.length := by
  have hs := jsonSkipWs_le p
  rw [jsonWalk]
  split
  all_goals rename_i he
  · rw [he] at hs
    exact (jsonStrEnd_le _).trans ((Nat.le_succ _).trans hs)
  · rw [he] at hs
    exact (jsonAfter_lt _ _ _ _).le.trans hs
  · rw [he] at hs
    exact (jsonAfter_lt _ _ _ _).le.trans hs
  · exact (List.dropWhile_suffix _).length_le.trans hs

/-! ### Reading -/

/-- A member of an object up to its value: the key, and where the value starts. -/
def jsonMember (p : Bytes) : Option (Bytes × Bytes) :=
  match p with
  | 34 :: t =>
    match jsonSkipWs (jsonStrEnd t) with
    | 58 :: u => some (jsonKeyText t (jsonStrEnd t), jsonSkipWs u)
    | _ => none
  | _ => none

theorem jsonMember_lt {p k v : Bytes} (h : jsonMember p = some (k, v)) :
    v.length < p.length := by
  unfold jsonMember at h
  split at h
  · rename_i t
    have ht := (jsonSkipWs_le (jsonStrEnd t)).trans (jsonStrEnd_le t)
    split at h
    · rename_i u hu
      cases h
      have hv := jsonSkipWs_le u
      simp only [hu, List.length_cons] at ht ⊢
      omega
    · cases h
  · cases h

/-- Past a comma, if there is one. -/
def jsonComma (p : Bytes) : Bytes :=
  match p with
  | 44 :: r => r
  | r => r

theorem jsonComma_le (p : Bytes) : (jsonComma p).length ≤ p.length := by
  unfold jsonComma
  split
  · exact Nat.le_succ _
  · exact le_rfl

theorem jsonNext_lt {p k v : Bytes} (h : jsonMember (jsonSkipWs p) = some (k, v)) :
    (jsonComma (jsonSkipWs (jsonWalk v))).length < p.length :=
  calc (jsonComma (jsonSkipWs (jsonWalk v))).length
      ≤ (jsonSkipWs (jsonWalk v)).length := jsonComma_le _
    _ ≤ (jsonWalk v).length := jsonSkipWs_le _
    _ ≤ v.length := jsonWalk_le v
    _ < (jsonSkipWs p).length := jsonMember_lt h
    _ ≤ p.length := jsonSkipWs_le p

/-- The loop of `json_find_value` over the members of an object: where the value of a key
starts. -/
def jsonFindKey (k json : Bytes) : Option Bytes :=
  match _h : jsonMember (jsonSkipWs json) with
  | none => none
  | some (key, v) =>
    if key = k then some v
    else if (jsonSkipWs (jsonWalk v)).head? = some 125 then none
    else jsonFindKey k (jsonComma (jsonSkipWs (jsonWalk v)))
termination_by json.length
decreasing_by exact jsonNext_lt _h

/-- The loop of `json_find_value` over the elements of an array: where an element starts. -/
def jsonFindIdx : ℕ → Bytes → Option Bytes
  | _, [] => none
  | n, c :: t =>
    let v := jsonSkipWs (c :: t)
    if v.head? = some 93 then none
    else match n with
      | 0 => some v
      | n+1 =>
        if (jsonSkipWs (jsonWalk v)).head? = some 93 then none
        else jsonFindIdx n (jsonComma (jsonSkipWs (jsonWalk v)))

/-- One step of `json_find_value`, from where a value starts. A negative index is no element of
an array; on a text that is not a document the source may never get to its end. -/
def jsonFindStep (step : SValue F) (json : Bytes) : Option Bytes :=
  match json, step with
  | 123 :: t, .string k => jsonFindKey k t
  | 91 :: t, .int i => if i < 0 then none else jsonFindIdx i.toNat t
  | _, _ => none

/-- `json_find_value`. After the last step the source returns at once; skipping whitespace once
more changes nothing. -/
def jsonFindValue : List (SValue F) → Bytes → Option Bytes
  | [], json => some (jsonSkipWs json)
  | step :: path, json => (jsonFindStep step (jsonSkipWs json)).bind (jsonFindValue path)

def jsonInvalid : Bytes := [239, 191, 182]

/-- `bi_llJsonGetValue` -/
def llJsonGetValue : List (SValue F) → SValue F
  | a@(_ :: .list path :: _) =>
    match jsonFindValue path (argStr a 0) with
    | some r => .string (jsonExtractValue (upTo r (jsonWalk r)))
    | none => .string jsonInvalid
  | _ => .string []

/-- The sentinel `bi_llJsonValueType` returns for what it finds. -/
def jsonTypeOf (r : Bytes) : Bytes :=
  match jsonSkipWs r with
  | 123 :: _ => [239, 191, 189]
  | 91 :: _ => [239, 191, 188]
  | 34 :: _ => [239, 191, 187]
  | 116 :: _ => [239, 191, 185]
  | 102 :: _ => [239, 191, 184]
  | 110 :: _ => [239, 191, 183]
  | _ => [239, 191, 186]

/-- `bi_llJsonValueType` -/
def llJsonValueType : List (SValue F) → SValue F
  | a@(_ :: .list path :: _) =>
    match jsonFindValue path (argStr a 0) with
    | some r => .string (jsonTypeOf r)
    | none => .string jsonInvalid
  | _ => .string jsonInvalid

/-! ### Setting -/

/-- The scan of the setters for a key before the closing brace `stop`: the value under it, and
what follows the value. -/
def jsonScanKey (stop k scan : Bytes) : Option (Bytes × Bytes) :=
  if scan.length ≤ stop.length ∨ (jsonSkipWs scan).length ≤ stop.length then none
  else match _h : jsonMember (jsonSkipWs scan) with
  | none => none
  | some (key, v) =>
    if key = k then some (v, jsonWalk v)
    else jsonScanKey stop k (jsonComma (jsonSkipWs (jsonWalk v)))
termination_by scan.length
decreasing_by exact jsonNext_lt _h

/-- Both setters: the text `new` in place of the value under a key of an object, or a member
with it before the closing brace. A text that is no closed object stays as it is. -/
def jsonPut (json k new : Bytes) : Bytes :=
  match jsonSkipWs json with
  | 123 :: body =>
    match jsonClose 123 125 0 (123 :: body) with
    | none => json
    | some stop =>
      match jsonScanKey stop k body with
      | some (v, rest) => upTo json v ++ new ++ rest
      | none =>
        upTo json stop ++ (if (upTo body stop).all Json.isWs then [] else [44]) ++
          34 :: k ++ [34, 58] ++ new ++ stop
  | _ => json

/-- A text between quotes, with nothing in it escaped. -/
def jsonQuoted (v : Bytes) : Bytes := 34 :: v ++ [34]

/-- `json_obj_set_top` -/
def jsonObjSetTop (json key val : Bytes) : Bytes := jsonPut json key (jsonQuoted val)

/-- `bi_llJsonSetValue` -/
def llJsonSetValue : List (SValue F) → SValue F
  | a@(_ :: .list [.string k] :: _ :: _) =>
    .string (jsonObjSetTop (argStr a 0) k (argStr a 2))
  | a@(_ :: .list [.string k1, .string k2] :: _ :: _) =>
    let sub := match jsonFindValue [SValue.string (F := F) k1] (argStr a 0) with
      | some r => upTo r (jsonWalk r)
      | none => [123, 125]
    .string (jsonPut (argStr a 0) k1 (jsonObjSetTop sub k2 (argStr a 2)))
  | v :: _ => v
  | [] => .string []

/-! ### Lists -/

/-- Progress of `json_walk` where a value starts. -/
theorem jsonWalk_lt {c : UInt8} {t : Bytes} (hw : Json.isWs c = false) (hc : jsonStop c = false) :
    (jsonWalk (c :: t)).length < (c :: t).length := by
  have hs : jsonSkipWs (c :: t) = c :: t := List.dropWhile_cons_of_neg (by simp [hw])
  rw [jsonWalk, hs]
  split
  all_goals rename_i he
  · cases he
    exact Nat.lt_succ_of_le (jsonStrEnd_le t)
  · cases he
    exact jsonAfter_lt _ _ _ _
  · cases he
    exact jsonAfter_lt _ _ _ _
  · rw [List.dropWhile_cons_of_pos (by simp [hc])]
    exact Nat.lt_succ_of_le (List.dropWhile_suffix _).length_le

/-- The key a member of an object starts with, if it starts with one, and what follows it. -/
def jsonListKey (isObj : Bool) (t : Bytes) : List Bytes × Bytes :=
  match isObj, t with
  | true, 34 :: u =>
    let v := jsonSkipWs (jsonStrEnd u)
    ([jsonKeyText u (jsonStrEnd u)], if v.head? = some 58 then v.tail else v)
  | _, t => ([], t)

/-- What the loop of `bi_llJson2List` reads of one entry: what it appends to the list, and
where it goes on. -/
def jsonListEntry (isObj : Bool) (t : Bytes) : List Bytes × Bytes :=
  let (key, t) := jsonListKey isObj t
  let v := jsonSkipWs t
  (key ++ [jsonExtractValue (upTo v (jsonWalk v))], jsonComma (jsonSkipWs (jsonWalk v)))

theorem jsonListKey_le (isObj : Bool) (t : Bytes) : (jsonListKey isObj t).2.length ≤ t.length := by
  unfold jsonListKey
  split
  · rename_i u
    have hu := (jsonSkipWs_le (jsonStrEnd u)).trans (jsonStrEnd_le u)
    simp only [List.length_cons]
    split
    · rw [List.length_tail]
      omega
    · omega
  · exact le_rfl

theorem jsonSkipWs_head {p t : Bytes} {c : UInt8} (h : jsonSkipWs p = c :: t) :
    Json.isWs c = false := by
  have hc := List.head?_dropWhile_not Json.isWs p
  rw [show p.dropWhile Json.isWs = c :: t from h] at hc
  exact hc

theorem jsonSkipWs_cons {c : UInt8} (t : Bytes) (hc : Json.isWs c = false) :
    jsonSkipWs (c :: t) = c :: t := List.dropWhile_cons_of_neg (by simp [hc])

theorem jsonListNext_le (t : Bytes) :
    (jsonComma (jsonSkipWs (jsonWalk (jsonSkipWs t)))).length ≤ t.length :=
  calc (jsonComma (jsonSkipWs (jsonWalk (jsonSkipWs t)))).length
      ≤ (jsonSkipWs (jsonWalk (jsonSkipWs t))).length := jsonComma_le _
    _ ≤ (jsonWalk (jsonSkipWs t)).length := jsonSkipWs_le _
    _ ≤ (jsonSkipWs t).length := jsonWalk_le _
    _ ≤ t.length := jsonSkipWs_le t

theorem jsonListEntry_lt {isObj : Bool} {c : UInt8} {t : Bytes} (hw : Json.isWs c = false)
    (h125 : c ≠ 125) (h93 : c ≠ 93) : (jsonListEntry isObj (c :: t)).2.length < (c :: t).length := by
  by_cases hk : isObj = true ∧ c = 34
  · obtain ⟨rfl, rfl⟩ := hk
    have hlt : (jsonListKey true (34 :: t)).2.length < (34 :: t).length := by
      have hu := (jsonSkipWs_le (jsonStrEnd t)).trans (jsonStrEnd_le t)
      simp only [jsonListKey, List.length_cons]
      split
      · rw [List.length_tail]
        omega
      · omega
    exact (jsonListNext_le _).trans_lt hlt
  · have he : jsonListKey isObj (c :: t) = ([], c :: t) := by
      unfold jsonListKey
      split
      · rename_i he
        cases he
        exact absurd ⟨rfl, rfl⟩ hk
      · rfl
    simp only [jsonListEntry, he, jsonSkipWs_cons t hw]
    by_cases hs : jsonStop c
    · -- only a comma is left, and `json_walk` stays on it
      have hc : c = 44 := by
        have hd : ∀ c : UInt8, Json.isWs c = false → c ≠ 125 → c ≠ 93 → jsonStop c → c = 44 := by
          decide +kernel
        exact hd c hw h125 h93 hs
      subst hc
      exact Nat.lt_succ_self t.length
    · calc (jsonComma (jsonSkipWs (jsonWalk (c :: t)))).length
          ≤ (jsonSkipWs (jsonWalk (c :: t))).length := jsonComma_le _
        _ ≤ (jsonWalk (c :: t)).length := jsonSkipWs_le _
        _ < (c :: t).length := jsonWalk_lt hw (by simpa using hs)

/-- The loop of `bi_llJson2List`. -/
def jsonListFrom (isObj : Bool) (p : Bytes) : List Bytes :=
  match _h : jsonSkipWs p with
  | [] => if p = [] then [] else (jsonListEntry isObj []).1
  | c :: t =>
    if _hc : c = 125 ∨ c = 93 then []
    else
      (jsonListEntry isObj (c :: t)).1 ++ jsonListFrom isObj (jsonListEntry isObj (c :: t)).2
termination_by p.length
decreasing_by
  obtain ⟨h125, h93⟩ := not_or.mp _hc
  have hp := jsonSkipWs_le p
  rw [_h] at hp
  exact (jsonListEntry_lt (jsonSkipWs_head _h) h125 h93).trans_le hp

/-- `bi_llJson2List` -/
def llJson2List (a : List (SValue F)) : SValue F :=
  let t := jsonSkipWs (argStr a 0)
  match t with
  | 91 :: u => .list ((jsonListFrom false u).map .string)
  | 123 :: u => .list ((jsonListFrom true u).map .string)
  | _ => .list [.string t]

variable [CDouble F]

/-- An element as `bi_llList2Json` writes it: numbers bare, anything else between quotes. -/
def jsonElem (v : SValue F) : Bytes :=
  if v.tag = SV.integer ∨ v.tag = SV.float then svToString v else jsonQuoted (svToString v)

/-- The members of an object, from a list of keys and values in turn. -/
def jsonMembers : List (SValue F) → List Bytes
  | k :: v :: l => (jsonQuoted (svToString k) ++ 58 :: jsonElem v) :: jsonMembers l
  | _ => []

/-- `bi_llList2Json` -/
def llList2Json (a : List (SValue F)) : SValue F :=
  let isObj := containsBytes (argStr a 0) [239, 191, 189]
  let l := match a with
    | _ :: .list l :: _ => l
    | _ => []
  .string (if isObj then 123 :: Json.items (jsonMembers l) ++ [125]
    else 91 :: Json.items (l.map jsonElem) ++ [93])

/-- The JSON builtins in the table of builtins that are functions of what they read. -/
def jsonTable : List (Bytes × (List (SValue F) → SValue F)) :=
  [(lit "llJsonGetValue", llJsonGetValue), (lit "llJsonSetValue", llJsonSetValue),
   (lit "llJsonValueType", llJsonValueType), (lit "llJson2List", llJson2List),
   (lit "llList2Json", llList2Json)]

/-- A library with the JSON builtins in it. -/
def Lib.withJson (lib : Lib F) : Lib F where
  lookup name := match jsonTable.lookup name with
    | some f => some fun _ _ a => (f a, 0)
    | none => lib.lookup name

end Slemu
