import Mathlib

/-! JSON texts: documents as trees that keep the characters they are written with, the text of
a document, and the node a path leads to. Bytes from 128 on are ordinary characters of strings. -/

namespace Json

/-- Insignificant whitespace: blank, tab, line feed and carriage return. -/
def isWs (c : UInt8) : Bool := c == 32 || c == 9 || c == 10 || c == 13

def isDigit (c : UInt8) : Bool := 48 ≤ c && c ≤ 57

def isHex (c : UInt8) : Bool := isDigit c || (65 ≤ c && c ≤ 70) || (97 ≤ c && c ≤ 102)

/-- A character that stands for itself inside a string. -/
def isPlain (c : UInt8) : Bool := 32 ≤ c && c != 34 && c != 92

/-- The characters of the two-character escapes. -/
def isEscape (c : UInt8) : Bool :=
  c == 34 || c == 92 || c == 47 || c == 98 || c == 102 || c == 110 || c == 114 || c == 116

structure Ws where
  bytes : List UInt8
  blank : ∀ c ∈ bytes, isWs c

def Ws.none : Ws := ⟨[], by simp⟩

def Ws.space : Ws := ⟨[32], by simp [isWs]⟩

/-- One character of a string, as it is written. -/
inductive Chr
  | plain (c : UInt8) (h : isPlain c)
  | esc (c : UInt8) (h : isEscape c)
  | hex (a b c d : UInt8) (h : isHex a ∧ isHex b ∧ isHex c ∧ isHex d)

def Chr.raw : Chr → List UInt8
  | .plain c _ => [c]
  | .esc c _ => [92, c]
  | .hex a b c d _ => [92, 117, a, b, c, d]

/-- The characters between the quotes of a string. -/
abbrev Str := List Chr

def Str.raw (s : Str) : List UInt8 := s.flatMap Chr.raw

/-- Characters that stand for themselves, as a string. -/
def Str.ofPlain (b : List UInt8) (h : ∀ c ∈ b, isPlain c) : Str :=
  b.attach.map fun c => .plain c.1 (h c.1 c.2)

theorem Str.raw_ofPlain (b : List UInt8) (h : ∀ c ∈ b, isPlain c) : (ofPlain b h).raw = b := by
  rw [raw, ofPlain, List.flatMap_map]
  simp only [Chr.raw]
  rw [← List.map_eq_flatMap, List.attach_map_subtype_val]

structure Digits where
  bytes : List UInt8
  ne : bytes ≠ []
  digit : ∀ c ∈ bytes, isDigit c

/-- A number, with its exponent as the letter `E` or `e`, a sign and digits. -/
structure Num where
  neg : Bool
  int : Digits
  noLeadingZero : int.bytes.head? = some 48 → int.bytes = [48]
  frac : Option Digits
  exp : Option (Bool × Option Bool × Digits)

def Num.fracText (n : Num) : List UInt8 :=
  match n.frac with
  | none => []
  | some d => 46 :: d.bytes

def Num.expText (n : Num) : List UInt8 :=
  match n.exp with
  | none => []
  | some (upper, sign, d) => (if upper then 69 else 101) :: (match sign with
    | none => d.bytes
    | some neg => (if neg then 45 else 43) :: d.bytes)

def Num.text (n : Num) : List UInt8 :=
  (if n.neg then [45] else []) ++ n.int.bytes ++ n.fracText ++ n.expText

/-- The key of a member, with the whitespace around it and around the colon. -/
structure Key where
  pre : Ws
  name : Str
  post : Ws
  gap : Ws

end Json

/-- A value. The whitespace of an object or an array comes right after its opening bracket;
that of a member or an element, before and after its value. -/
inductive Json
  | str (s : Json.Str)
  | num (n : Json.Num)
  | litTrue
  | litFalse
  | litNull
  | obj (w : Json.Ws) (ms : List (Json.Key × Json × Json.Ws))
  | arr (w : Json.Ws) (es : List (Json.Ws × Json × Json.Ws))

namespace Json

/-- Items with a comma between any two. -/
def items : List (List UInt8) → List UInt8
  | [] => []
  | a :: l => a ++ l.flatMap fun b => 44 :: b

def Str.text (s : Str) : List UInt8 := 34 :: s.raw ++ [34]

def Key.text (k : Key) : List UInt8 :=
  k.pre.bytes ++ k.name.text ++ k.post.bytes ++ 58 :: k.gap.bytes

mutual
def text : Json → List UInt8
  | str s => s.text
  | num n => n.text
  | litTrue => [116, 114, 117, 101]
  | litFalse => [102, 97, 108, 115, 101]
  | litNull => [110, 117, 108, 108]
  | obj w ms => 123 :: w.bytes ++ items (memberTexts ms) ++ [125]
  | arr w es => 91 :: w.bytes ++ items (elemTexts es) ++ [93]

def memberTexts : List (Key × Json × Ws) → List (List UInt8)
  | [] => []
  | (k, v, w) :: ms => (k.text ++ text v ++ w.bytes) :: memberTexts ms

def elemTexts : List (Ws × Json × Ws) → List (List UInt8)
  | [] => []
  | (w, v, w') :: es => (w.bytes ++ text v ++ w'.bytes) :: elemTexts es
end

/-- A document: a value with whitespace around it. -/
structure Doc where
  pre : Ws
  root : Json
  post : Ws

def Doc.text (d : Doc) : List UInt8 := d.pre.bytes ++ d.root.text ++ d.post.bytes

/-- What a reader of values shows for a node: its text, for a string without the quotes. -/
def value : Json → List UInt8
  | str s => s.raw
  | j => j.text

/-! ### Paths -/

/-- One step down: to the member under a key, as the key is written, or to an element. -/
inductive Step
  | key (k : List UInt8)
  | idx (i : ℕ)
  deriving DecidableEq

/-- The first member under a key. -/
def findKey (k : List UInt8) (ms : List (Key × Json × Ws)) : Option Json :=
  (ms.find? fun m => m.1.name.raw = k).map fun m => m.2.1

def step : Json → Step → Option Json
  | obj _ ms, .key k => findKey k ms
  | arr _ es, .idx i => es[i]?.map fun e => e.2.1
  | _, _ => none

def lookup : List Step → Json → Option Json
  | [], j => some j
  | s :: p, j => (j.step s).bind (lookup p)

/-- The path leads from a value to a node below it. -/
inductive At : Json → List Step → Json → Prop
  | here (j : Json) : At j [] j
  | key {w : Ws} {ms : List (Key × Json × Ws)} {m : Key × Json × Ws} {p : List Step} {j : Json}
      (h : m ∈ ms) (hp : At m.2.1 p j) : At (obj w ms) (.key m.1.name.raw :: p) j
  | idx {w : Ws} {es : List (Ws × Json × Ws)} {i : ℕ} {e : Ws × Json × Ws} {p : List Step}
      {j : Json} (h : es[i]? = some e) (hp : At e.2.1 p j) : At (arr w es) (.idx i :: p) j

/-- No object in the value has two members under one key. -/
inductive Distinct : Json → Prop
  | str (s : Str) : Distinct (str s)
  | num (n : Num) : Distinct (num n)
  | litTrue : Distinct litTrue
  | litFalse : Distinct litFalse
  | litNull : Distinct litNull
  | obj {w : Ws} {ms : List (Key × Json × Ws)} (h : (ms.map fun m => m.1.name.raw).Nodup)
      (hm : ∀ m ∈ ms, Distinct m.2.1) : Distinct (obj w ms)
  | arr {w : Ws} {es : List (Ws × Json × Ws)} (he : ∀ e ∈ es, Distinct e.2.1) :
      Distinct (arr w es)

@[elab_as_elim]
theorem induct {P : Json → Prop} (hstr : ∀ s, P (str s)) (hnum : ∀ n, P (num n))
    (htrue : P litTrue) (hfalse : P litFalse) (hnull : P litNull)
    (hobj : ∀ w ms, (∀ m ∈ ms, P m.2.1) → P (obj w ms))
    (harr : ∀ w es, (∀ e ∈ es, P e.2.1) → P (arr w es)) : ∀ j, P j
  | str s => hstr s
  | num n => hnum n
  | litTrue => htrue
  | litFalse => hfalse
  | litNull => hnull
  | obj w ms => hobj w ms fun m _ => induct hstr hnum htrue hfalse hnull hobj harr m.2.1
  | arr w es => harr w es fun e _ => induct hstr hnum htrue hfalse hnull hobj harr e.2.1
termination_by j => sizeOf j
decreasing_by
  · have hl := List.sizeOf_lt_of_mem ‹m ∈ ms›
    obtain ⟨k, v, w'⟩ := m
    simp only [Prod.mk.sizeOf_spec] at hl
    simp only [obj.sizeOf_spec]
    omega
  · have hl := List.sizeOf_lt_of_mem ‹e ∈ es›
    obtain ⟨k, v, w'⟩ := e
    simp only [Prod.mk.sizeOf_spec] at hl
    simp only [arr.sizeOf_spec]
    omega

/-! ### Paths and distinct keys -/

theorem findKey_of_mem {ms : List (Key × Json × Ws)} (h : (ms.map fun m => m.1.name.raw).Nodup)
    {m : Key × Json × Ws} (hm : m ∈ ms) : findKey m.1.name.raw ms = some m.2.1 := by
  induction ms with
  | nil => cases hm
  | cons m' ms ih =>
    rw [List.map_cons, List.nodup_cons] at h
    rcases List.mem_cons.mp hm with rfl | hm
    · simp [findKey]
    · have hne : ¬ m'.1.name.raw = m.1.name.raw := by
        intro he
        exact h.1 (he ▸ List.mem_map.mpr ⟨m, hm, rfl⟩)
      have ih := ih h.2 hm
      rw [findKey] at ih ⊢
      rwa [List.find?_cons_of_neg (by simpa using hne)]

theorem mem_of_findKey {ms : List (Key × Json × Ws)} {k : List UInt8} {v : Json}
    (h : findKey k ms = some v) : ∃ m ∈ ms, m.1.name.raw = k ∧ m.2.1 = v := by
  rw [findKey, Option.map_eq_some_iff] at h
  obtain ⟨m, hm, rfl⟩ := h
  exact ⟨m, List.mem_of_find?_eq_some hm, by simpa using List.find?_some hm, rfl⟩

theorem at_of_lookup {p : List Step} {j n : Json} (h : lookup p j = some n) : At j p n := by
  induction p generalizing j with
  | nil =>
    cases h
    exact .here n
  | cons s p ih =>
    obtain ⟨v, hv, hp⟩ := Option.bind_eq_some_iff.mp h
    cases s with
    | key k =>
      cases j with
      | obj w ms =>
        obtain ⟨m, hm, rfl, rfl⟩ := mem_of_findKey hv
        exact .key hm (ih hp)
      | _ => cases hv
    | idx i =>
      cases j with
      | arr w es =>
        obtain ⟨e, he, rfl⟩ := Option.map_eq_some_iff.mp hv
        exact .idx he (ih hp)
      | _ => cases hv

theorem lookup_of_at {p : List Step} {j n : Json} (hd : Distinct j) (h : At j p n) :
    lookup p j = some n := by
  induction h with
  | here j => rfl
  | key hm _ ih =>
    cases hd with
    | obj hk hms =>
      have hf := findKey_of_mem hk hm
      simp only [lookup, step, hf, Option.bind_some]
      exact ih (hms _ hm)
  | idx he _ ih =>
    cases hd with
    | arr hes =>
      simp only [lookup, step, he, Option.map_some, Option.bind_some]
      exact ih (hes _ (List.mem_of_getElem? he))

/-- With distinct keys, the nodes a path leads to are the one that looking it up finds. -/
theorem at_iff_lookup {p : List Step} {j n : Json} (hd : Distinct j) :
    At j p n ↔ lookup p j = some n := ⟨lookup_of_at hd, at_of_lookup⟩

/-! ### The characters of texts -/

/-- A character that is neither whitespace nor part of the structure of a document. -/
def isSolid (c : UInt8) : Bool :=
  !isWs c && c != 34 && c != 44 && c != 58 && c != 91 && c != 93 && c != 123 && c != 125

/-- Numbers, `true`, `false` and `null`. -/
def IsScalar : Json → Prop
  | num _ | litTrue | litFalse | litNull => True
  | _ => False

example : isSolid 45 ∧ ¬ isSolid 44 ∧ ¬ isSolid 32 := by decide +kernel

theorem isSolid_of_isDigit {c : UInt8} (h : isDigit c) : isSolid c := by
  revert c
  decide +kernel

theorem Digits.solid (d : Digits) {c : UInt8} (h : c ∈ d.bytes) : isSolid c :=
  isSolid_of_isDigit (d.digit c h)

theorem Num.solid (n : Num) {c : UInt8} (h : c ∈ n.text) : isSolid c := by
  simp only [Num.text, Num.fracText, Num.expText, List.mem_append] at h
  rcases h with ((h | h) | h) | h
  · split at h
    · rw [List.mem_singleton.mp h]
      decide
    · cases h
  · exact n.int.solid h
  · split at h
    · cases h
    · rcases List.mem_cons.mp h with rfl | h
      · decide
      · exact Digits.solid _ h
  · split at h
    · cases h
    · rcases List.mem_cons.mp h with rfl | h
      · split <;> decide
      · split at h
        · exact Digits.solid _ h
        · rcases List.mem_cons.mp h with rfl | h
          · split <;> decide
          · exact Digits.solid _ h

theorem Num.text_ne (n : Num) : n.text ≠ [] := by
  simp [Num.text, n.int.ne]

theorem solid_of_isScalar {j : Json} (h : j.IsScalar) : ∀ c ∈ j.text, isSolid c := by
  cases j with
  | num n => exact fun c => n.solid
  | litTrue | litFalse | litNull => simp [text, isSolid, isWs]
  | _ => cases h

theorem text_ne_of_isScalar {j : Json} (h : j.IsScalar) : j.text ≠ [] := by
  cases j with
  | num n => exact n.text_ne
  | litTrue | litFalse | litNull => simp [text]
  | _ => cases h

theorem not_ws_of_isSolid {c : UInt8} (h : isSolid c) : isWs c = false := by
  revert c
  decide +kernel

/-- A character a value can start with. -/
def isOpening (c : UInt8) : Bool :=
  !isWs c && c != 44 && c != 58 && c != 93 && c != 125

theorem isOpening_of_isSolid {c : UInt8} (h : isSolid c) : isOpening c := by
  revert c
  decide +kernel

theorem not_ws_of_isOpening {c : UInt8} (h : isOpening c) : isWs c = false := by
  revert c
  decide +kernel

theorem text_eq_cons (j : Json) : ∃ c t, j.text = c :: t ∧ isOpening c := by
  have hscalar (h : j.IsScalar) : ∃ c t, j.text = c :: t ∧ isOpening c := by
    obtain ⟨c, t, he⟩ := List.exists_cons_of_ne_nil (text_ne_of_isScalar h)
    have hc := solid_of_isScalar h c (he ▸ List.mem_cons_self)
    exact ⟨c, t, he, isOpening_of_isSolid hc⟩
  cases j with
  | str s => exact ⟨34, _, rfl, by decide⟩
  | obj w ms => exact ⟨123, w.bytes ++ items (memberTexts ms) ++ [125], rfl, by decide⟩
  | arr w es => exact ⟨91, w.bytes ++ items (elemTexts es) ++ [93], rfl, by decide⟩
  | _ => exact hscalar trivial

/-- A text ends with a character that is not whitespace. -/
theorem text_eq_append (j : Json) : ∃ t c, j.text = t ++ [c] ∧ isWs c = false := by
  have hscalar (h : j.IsScalar) : ∃ t c, j.text = t ++ [c] ∧ isWs c = false := by
    obtain ⟨t, c, he⟩ := List.eq_nil_or_concat'  j.text |>.resolve_left (text_ne_of_isScalar h)
    have hc := solid_of_isScalar h c (he ▸ List.mem_append_right t List.mem_cons_self)
    exact ⟨t, c, he, not_ws_of_isSolid hc⟩
  cases j with
  | str s => exact ⟨34 :: s.raw, 34, rfl, by decide⟩
  | obj w ms => exact ⟨123 :: w.bytes ++ items (memberTexts ms), 125, rfl, by decide⟩
  | arr w es => exact ⟨91 :: w.bytes ++ items (elemTexts es), 93, rfl, by decide⟩
  | _ => exact hscalar trivial

def memberText (m : Key × Json × Ws) : List UInt8 := m.1.text ++ m.2.1.text ++ m.2.2.bytes

def elemText (e : Ws × Json × Ws) : List UInt8 := e.1.bytes ++ e.2.1.text ++ e.2.2.bytes

theorem memberTexts_eq_map (ms : List (Key × Json × Ws)) : memberTexts ms = ms.map memberText := by
  induction ms with
  | nil => rfl
  | cons m ms ih => rw [memberTexts, ih, List.map_cons, memberText]

theorem elemTexts_eq_map (es : List (Ws × Json × Ws)) : elemTexts es = es.map elemText := by
  induction es with
  | nil => rfl
  | cons e es ih => rw [elemTexts, ih, List.map_cons, elemText]

theorem items_append (l₁ : List (List UInt8)) (a : List UInt8) (l₂ : List (List UInt8)) :
    items (l₁ ++ a :: l₂) =
      l₁.flatMap (fun b => b ++ [44]) ++ (a ++ l₂.flatMap fun b => 44 :: b) := by
  induction l₁ with
  | nil => rfl
  | cons b l₁ ih =>
    have h : items (b :: (l₁ ++ a :: l₂)) = b ++ 44 :: items (l₁ ++ a :: l₂) := by
      cases l₁ with
      | nil => simp [items]
      | cons b' l₁ => simp [items]
    rw [List.cons_append, h, ih, List.flatMap_cons]
    simp only [List.append_assoc, List.cons_append, List.nil_append]

example : items [[49], [], [50]] = [49, 44, 44, 50] := by decide +kernel

/-- A number starts with a digit or a minus sign. -/
theorem Num.text_eq_cons (n : Num) : ∃ c t, n.text = c :: t ∧ (isDigit c ∨ c = 45) := by
  obtain ⟨c, t, he⟩ := List.exists_cons_of_ne_nil n.int.ne
  have hc := n.int.digit c (he ▸ List.mem_cons_self)
  by_cases hneg : n.neg
  · refine ⟨45, n.int.bytes ++ n.fracText ++ n.expText, ?_, .inr rfl⟩
    simp only [text, if_pos hneg, List.cons_append, List.nil_append]
  · refine ⟨c, t ++ n.fracText ++ n.expText, ?_, .inl hc⟩
    simp only [text, if_neg hneg, he, List.nil_append, List.cons_append]

end Json
