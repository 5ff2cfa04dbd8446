import Slemu.Json

/-! Writing JSON by hand: what a document means, and when a text put together from escaped and
from unescaped strings is a document with the meaning intended. -/

namespace Json

/-! ### What strings mean -/

/-- The character an escape of two characters stands for. -/
def unescape (c : UInt8) : UInt8 :=
  if c = 98 then 8 else if c = 102 then 12 else if c = 110 then 10 else if c = 114 then 13
  else if c = 116 then 9 else c

def hexVal (c : UInt8) : ℕ :=
  if c ≤ 57 then c.toNat-48 else if c ≤ 70 then c.toNat-55 else c.toNat-87

def hexUnit (a b c d : UInt8) : ℕ := ((hexVal a*16+hexVal b)*16+hexVal c)*16+hexVal d

/-- A code point in UTF-8. -/
def utf8 (n : ℕ) : List UInt8 :=
  if n < 128 then [n.toUInt8]
  else if n < 2048 then [(192+n/64).toUInt8, (128+n%64).toUInt8]
  else if n < 65536 then [(224+n/4096).toUInt8, (128+n/64%64).toUInt8, (128+n%64).toUInt8]
  else [(240+n/262144).toUInt8, (128+n/4096%64).toUInt8, (128+n/64%64).toUInt8,
    (128+n%64).toUInt8]

def isHigh (n : ℕ) : Bool := 55296 ≤ n && n < 56320

def isLow (n : ℕ) : Bool := 56320 ≤ n && n < 57344

/-- The bytes a string stands for. Two units that are the halves of a surrogate pair make one
code point. -/
def Str.decode : List Chr → List UInt8
  | [] => []
  | .plain c _ :: s => c :: Str.decode s
  | .esc c _ :: s => unescape c :: Str.decode s
  | .hex a b c d _ :: .hex a' b' c' d' h :: s =>
    if isHigh (hexUnit a b c d) && isLow (hexUnit a' b' c' d') then
      utf8 (65536+(hexUnit a b c d-55296)*1024+(hexUnit a' b' c' d'-56320)) ++ Str.decode s
    else utf8 (hexUnit a b c d) ++ Str.decode (.hex a' b' c' d' h :: s)
  | .hex a b c d _ :: s => utf8 (hexUnit a b c d) ++ Str.decode s

/-- A unit that is not the first half of a pair stands for itself. -/
theorem Str.decode_hex {a b c d : UInt8} (h : isHex a ∧ isHex b ∧ isHex c ∧ isHex d)
    (hu : isHigh (hexUnit a b c d) = false) (s : Str) :
    decode (.hex a b c d h :: s) = utf8 (hexUnit a b c d) ++ decode s := by
  cases s with
  | nil => rfl
  | cons x s =>
    cases x with
    | hex a' b' c' d' h' =>
      rw [decode, hu]
      rfl
    | _ => rfl

theorem length_utf8 (n : ℕ) : (utf8 n).length ≤ 4 := by
  unfold utf8
  split_ifs <;> simp

example : utf8 8364 = [226, 130, 172] := by decide +kernel

/-- Every escape is longer than what it stands for. -/
theorem Str.length_decode (s : Str) : (decode s).length ≤ (raw s).length ∧
    ((decode s).length = (raw s).length → ∀ c ∈ raw s, isPlain c) := by
  fun_induction Str.decode s with
  | case1 => exact ⟨le_rfl, by simp [raw]⟩
  | case2 c h s ih =>
    have hraw : raw (.plain c h :: s) = c :: raw s := rfl
    rw [hraw, List.length_cons, List.length_cons]
    refine ⟨by omega, fun hl => List.forall_mem_cons.mpr ⟨h, ih.2 (by omega)⟩⟩
  | case3 c h s ih =>
    have hraw : raw (.esc c h :: s) = 92 :: c :: raw s := rfl
    rw [hraw, List.length_cons, List.length_cons, List.length_cons]
    exact ⟨by omega, fun hl => by omega⟩
  | case4 a b c d h a' b' c' d' h' s _ ih =>
    have hraw : raw (.hex a b c d h :: .hex a' b' c' d' h' :: s) =
        92 :: 117 :: a :: b :: c :: d :: 92 :: 117 :: a' :: b' :: c' :: d' :: raw s := rfl
    have hu := length_utf8 (65536+(hexUnit a b c d-55296)*1024+(hexUnit a' b' c' d'-56320))
    rw [hraw, List.length_append]
    simp only [List.length_cons]
    exact ⟨by omega, fun hl => by omega⟩
  | case5 a b c d h a' b' c' d' h' s _ ih =>
    have hraw : raw (.hex a b c d h :: .hex a' b' c' d' h' :: s) =
        92 :: 117 :: a :: b :: c :: d :: raw (.hex a' b' c' d' h' :: s) := rfl
    have hu := length_utf8 (hexUnit a b c d)
    rw [hraw, List.length_append]
    simp only [List.length_cons]
    exact ⟨by omega, fun hl => by omega⟩
  | case6 a b c d h s _ ih =>
    have hraw : raw (.hex a b c d h :: s) = 92 :: 117 :: a :: b :: c :: d :: raw s := rfl
    have hu := length_utf8 (hexUnit a b c d)
    rw [hraw, List.length_append]
    simp only [List.length_cons]
    exact ⟨by omega, fun hl => by omega⟩

/-- The bytes that can come up in the escapes of a backslash, of the characters of its escapes,
and so on: backslash, `u` and the hexadecimal digits. -/
def inEscapes (c : UInt8) : Bool := c == 92 || c == 117 || isHex c

theorem utf8_head {n : ℕ} (hn : n < 1114112) {c : UInt8} {t r : List UInt8}
    (hc : inEscapes c) (h : utf8 n ++ t = c :: r) : utf8 n = [c] := by
  have hsmall : ∀ c, inEscapes c → c.toNat < 128 := by decide +kernel
  have hc := hsmall c hc
  unfold utf8 at h ⊢
  split_ifs at h ⊢ with h1 h2 h3
  · rw [(List.cons.inj h).1]
  · have hb := congrArg UInt8.toNat (List.cons.inj h).1
    rw [Nat.toUInt8, UInt8.toNat_ofNat', Nat.mod_eq_of_lt (by omega)] at hb
    omega
  · have hb := congrArg UInt8.toNat (List.cons.inj h).1
    rw [Nat.toUInt8, UInt8.toNat_ofNat', Nat.mod_eq_of_lt (by omega)] at hb
    omega
  · have hb := congrArg UInt8.toNat (List.cons.inj h).1
    rw [Nat.toUInt8, UInt8.toNat_ofNat', Nat.mod_eq_of_lt (by omega)] at hb
    omega

theorem hexUnit_lt {a b c d : UInt8} (h : isHex a ∧ isHex b ∧ isHex c ∧ isHex d) :
    hexUnit a b c d < 65536 := by
  have hv : ∀ c, isHex c → hexVal c < 16 := by decide +kernel
  have ha := hv a h.1
  have hb := hv b h.2.1
  have hc := hv c h.2.2.1
  have hd := hv d h.2.2.2
  unfold hexUnit
  omega

theorem hexUnit_lag {a b c d x : UInt8} {t q : List UInt8}
    (h : isHex a ∧ isHex b ∧ isHex c ∧ isHex d) (hx : inEscapes x)
    (hpre : utf8 (hexUnit a b c d) ++ t <+: x :: q) : t <+: q := by
  have hu := hexUnit_lt h
  obtain ⟨r, hr⟩ := id hpre
  rw [List.append_assoc] at hr
  rw [utf8_head (by omega) hx hr] at hpre
  exact (List.cons_prefix_cons.mp hpre).2

/-- A surrogate pair stands for bytes from 128 on. -/
theorem pair_not_prefix {m n : ℕ} {x : UInt8} {t q : List UInt8} (hx : inEscapes x)
    (hpair : (isHigh m && isLow n) = Bool.true) :
    ¬ utf8 (65536+(m-55296)*1024+(n-56320)) ++ t <+: x :: q := by
  rintro ⟨r, hr⟩
  simp only [isHigh, isLow, Bool.and_eq_true, decide_eq_true_eq] at hpair
  rw [List.append_assoc] at hr
  have hlen := congrArg List.length (utf8_head (by omega) hx hr)
  rw [utf8, if_neg (by omega), if_neg (by omega), if_neg (by omega)] at hlen
  simp at hlen

example : utf8 (65536+(55357-55296)*1024+(56832-56320)) = [240, 159, 152, 128] := by decide +kernel

theorem inEscapes_hex {a b c d : UInt8} (h : isHex a ∧ isHex b ∧ isHex c ∧ isHex d) :
    ∀ x ∈ [92, 117, a, b, c, d], inEscapes x := by
  have hd (c : UInt8) (h : isHex c) : inEscapes c := by simp [inEscapes, h]
  simp only [List.forall_mem_cons, List.not_mem_nil, IsEmpty.forall_iff, implies_true, and_true]
  exact ⟨by decide, by decide, hd a h.1, hd b h.2.1, hd c h.2.2.1, hd d h.2.2.2⟩

/-- What a string stands for never catches up with the string, once it has fallen behind by the
characters `p`: they are those of an escape, and what they are read from has the same
characters, so that there is no quote among them. -/
theorem Str.not_prefix_lag (s : Str) (p : List UInt8) (hp : ∀ c ∈ p, inEscapes c) (hne : p ≠ []) :
    ¬ decode s ++ [34] <+: p ++ raw s := by
  have hnext {p e : List UInt8} {x : UInt8} (hp : ∀ c ∈ x :: p, inEscapes c)
      (he : ∀ c ∈ e, inEscapes c) : ∀ c ∈ p ++ e, inEscapes c :=
    List.forall_mem_append.mpr ⟨fun c hc => hp c (List.mem_cons_of_mem x hc), he⟩
  fun_induction Str.decode s generalizing p with
  | case1 =>
    obtain ⟨x, p, rfl⟩ := List.exists_cons_of_ne_nil hne
    intro h
    have hx := hp x List.mem_cons_self
    rw [← (List.cons_prefix_cons.mp h).1] at hx
    exact absurd hx (by decide)
  | case2 c hc s ih =>
    obtain ⟨x, p, rfl⟩ := List.exists_cons_of_ne_nil hne
    intro h
    obtain ⟨hcx, ht⟩ := List.cons_prefix_cons.mp h
    have he : ∀ y ∈ [c], inEscapes y := by simpa [hcx] using hp x List.mem_cons_self
    refine ih (p ++ [c]) (hnext hp he) (by simp) ?_
    rw [List.append_assoc]
    exact ht
  | case3 c hc s ih =>
    obtain ⟨x, p, rfl⟩ := List.exists_cons_of_ne_nil hne
    intro h
    obtain ⟨hcx, ht⟩ := List.cons_prefix_cons.mp h
    have hback : ∀ c, isEscape c → inEscapes (unescape c) → ∀ y ∈ [92, c], inEscapes y := by
      decide +kernel
    have he := hback c hc (hcx ▸ hp x List.mem_cons_self)
    refine ih (p ++ [92, c]) (hnext hp he) (by simp) ?_
    rw [List.append_assoc]
    exact ht
  | case4 a b c d h a' b' c' d' h' s hpair ih =>
    obtain ⟨x, p, rfl⟩ := List.exists_cons_of_ne_nil hne
    rw [List.append_assoc]
    exact pair_not_prefix (hp x List.mem_cons_self) hpair
  | case5 a b c d h a' b' c' d' h' s _ ih =>
    obtain ⟨x, p, rfl⟩ := List.exists_cons_of_ne_nil hne
    rw [List.append_assoc]
    intro hpre
    have ht := hexUnit_lag h (hp x List.mem_cons_self) hpre
    refine ih (p ++ [92, 117, a, b, c, d]) (hnext hp (inEscapes_hex h)) (by simp) ?_
    rw [List.append_assoc]
    exact ht
  | case6 a b c d h s _ ih =>
    obtain ⟨x, p, rfl⟩ := List.exists_cons_of_ne_nil hne
    rw [List.append_assoc]
    intro hpre
    have ht := hexUnit_lag h (hp x List.mem_cons_self) hpre
    refine ih (p ++ [92, 117, a, b, c, d]) (hnext hp (inEscapes_hex h)) (by simp) ?_
    rw [List.append_assoc]
    exact ht

/-- The same from the start of a string. -/
theorem Str.not_prefix (s : Str) : ¬ decode s ++ [34] <+: raw s := by
  have hback : inEscapes 92 := by decide
  fun_induction Str.decode s with
  | case1 => exact fun h => absurd (List.prefix_nil.mp h) (by simp)
  | case2 c hc s ih => exact fun h => ih (List.cons_prefix_cons.mp h).2
  | case3 c hc s ih =>
    intro h
    obtain ⟨hu, ht⟩ := List.cons_prefix_cons.mp h
    have he : ∀ c, isEscape c → unescape c = 92 → ∀ x ∈ [c], inEscapes x := by decide +kernel
    exact not_prefix_lag s [c] (he c hc hu) (by simp) ht
  | case4 a b c d h a' b' c' d' h' s hpair ih =>
    rw [List.append_assoc]
    exact pair_not_prefix hback hpair
  | case5 a b c d h a' b' c' d' h' s _ ih =>
    rw [List.append_assoc]
    intro hpre
    exact not_prefix_lag (.hex a' b' c' d' h' :: s) [117, a, b, c, d]
      (fun x hx => inEscapes_hex h x (List.mem_cons_of_mem _ hx)) (by simp)
      (hexUnit_lag h hback hpre)
  | case6 a b c d h s _ ih =>
    rw [List.append_assoc]
    intro hpre
    exact not_prefix_lag s [117, a, b, c, d]
      (fun x hx => inEscapes_hex h x (List.mem_cons_of_mem _ hx)) (by simp)
      (hexUnit_lag h hback hpre)

/-- A text between quotes that is a string with the text itself as its meaning has no escape in
it, and ends where the string does. -/
theorem Str.raw_eq_of_decode {s : Str} {rest rest' : List UInt8}
    (h : raw s ++ 34 :: rest = decode s ++ 34 :: rest') :
    (∀ c ∈ decode s, isPlain c) ∧ rest = rest' := by
  have hl := s.length_decode
  by_cases he : (decode s).length = (raw s).length
  · obtain ⟨hraw, hrest⟩ := List.append_inj h he.symm
    rw [← hraw]
    exact ⟨hl.2 he, (List.cons.inj hrest).2⟩
  · -- the string would be longer than its meaning and start with it and a quote
    have hpre : decode s ++ [34] <+: raw s := by
      have h1 : decode s ++ [34] <+: raw s ++ 34 :: rest := by
        rw [h]
        exact ⟨rest', by simp⟩
      refine List.prefix_of_prefix_length_le h1 (List.prefix_append _ _) ?_
      rw [List.length_append, List.length_singleton]
      omega
    exact absurd hpre s.not_prefix

/-- Two strings that are written alike up to their closing quotes are the same. -/
theorem Str.eq_of_raw {s s' : Str} {rest rest' : List UInt8}
    (h : raw s ++ 34 :: rest = raw s' ++ 34 :: rest') : s = s' ∧ rest = rest' := by
  have hplain {c : UInt8} (h : isPlain c) : c ≠ 34 ∧ c ≠ 92 := by
    simp only [isPlain, Bool.and_eq_true, bne_iff_ne] at h
    exact ⟨h.1.2, h.2⟩
  have hend {c : Chr} {s : Str} {rest t : List UInt8} : ¬ raw (c :: s) ++ rest = 34 :: t := by
    intro h
    cases c with
    | plain c hc => exact (hplain hc).1 (List.cons.inj h).1
    | _ => exact absurd (List.cons.inj h).1 (by decide)
  have hu : ¬ isEscape 117 := by decide
  induction s generalizing s' with
  | nil =>
    cases s' with
    | nil => exact ⟨rfl, (List.cons.inj h).2⟩
    | cons c s' => exact absurd h.symm hend
  | cons c s ih =>
    cases s' with
    | nil => exact absurd h hend
    | cons c' s' =>
      cases c with
      | plain c hc =>
        cases c' with
        | plain c' hc' =>
          obtain ⟨hc, ht⟩ := List.cons.inj h
          subst hc
          obtain ⟨rfl, hr⟩ := ih ht
          exact ⟨rfl, hr⟩
        | _ => exact absurd (List.cons.inj h).1 (hplain hc).2
      | esc c hc =>
        cases c' with
        | plain c' hc' => exact absurd (List.cons.inj h).1.symm (hplain hc').2
        | esc c' hc' =>
          obtain ⟨hc, ht⟩ := List.cons.inj (List.cons.inj h).2
          subst hc
          obtain ⟨rfl, hr⟩ := ih ht
          exact ⟨rfl, hr⟩
        | hex a b d e h' =>
          have hc117 := (List.cons.inj (List.cons.inj h).2).1
          exact absurd (hc117 ▸ hc) hu
      | hex a b d e hx =>
        cases c' with
        | plain c' hc' => exact absurd (List.cons.inj h).1.symm (hplain hc').2
        | esc c' hc' =>
          have hc117 := (List.cons.inj (List.cons.inj h).2).1
          exact absurd (hc117 ▸ hc') hu
        | hex a' b' d' e' hx' =>
          obtain ⟨ha, h1⟩ := List.cons.inj (List.cons.inj (List.cons.inj h).2).2
          obtain ⟨hb, h2⟩ := List.cons.inj h1
          obtain ⟨hd, h3⟩ := List.cons.inj h2
          obtain ⟨he, ht⟩ := List.cons.inj h3
          subst ha hb hd he
          obtain ⟨rfl, hr⟩ := ih ht
          exact ⟨rfl, hr⟩

theorem Str.decode_ofPlain (b : List UInt8) (h : ∀ c ∈ b, isPlain c) :
    decode (ofPlain b h) = b := by
  induction b with
  | nil => rfl
  | cons c b ih =>
    have ih := ih fun d hd => h d (List.mem_cons_of_mem c hd)
    rw [ofPlain, List.attach_cons, List.map_cons, List.map_map, decode]
    exact congrArg (c :: ·) ih

/-- No control character is in a string as it is written. -/
theorem Str.not_mem_raw (s : Str) : (10 : UInt8) ∉ raw s := by
  intro hm
  obtain ⟨c, -, hm⟩ := List.mem_flatMap.mp hm
  cases c with
  | plain c hc =>
    rw [← List.mem_singleton.mp hm] at hc
    exact absurd hc (by decide)
  | esc c hc =>
    have hm : (10 : UInt8) = c := by simpa [Chr.raw] using hm
    rw [← hm] at hc
    exact absurd hc (by decide)
  | hex a b c d h =>
    have hx : ¬ isHex 10 := by decide
    have hm : 10 = a ∨ 10 = b ∨ 10 = c ∨ 10 = d := by simpa [Chr.raw] using hm
    rcases hm with rfl | rfl | rfl | rfl
    · exact hx h.1
    · exact hx h.2.1
    · exact hx h.2.2.1
    · exact hx h.2.2.2

/-! ### What documents mean -/

/-- A value without the way it is written. Numbers stay as they are. -/
inductive Val
  | str (b : List UInt8)
  | num (t : List UInt8)
  | bool (b : Bool)
  | null
  | obj (ms : List (List UInt8 × Val))
  | arr (es : List Val)

mutual
def decode : Json → Val
  | str s => .str (Str.decode s)
  | num n => .num n.text
  | litTrue => .bool true
  | litFalse => .bool false
  | litNull => .null
  | obj _ ms => .obj (decodeMembers ms)
  | arr _ es => .arr (decodeElems es)

def decodeMembers : List (Key × Json × Ws) → List (List UInt8 × Val)
  | [] => []
  | (k, v, _) :: ms => (Str.decode k.name, decode v) :: decodeMembers ms

def decodeElems : List (Ws × Json × Ws) → List Val
  | [] => []
  | (_, v, _) :: es => decode v :: decodeElems es
end

/-! ### Texts put together by hand -/

/-- A text without whitespace, put together by a program: strings that are escaped, with what
they should stand for, strings that are put between quotes as they are, numbers as they are
printed, and objects with keys as they are. -/
inductive Out
  | esc (s : Str) (meant : List UInt8)
  | raw (b : List UInt8)
  | num (t : List UInt8)
  | obj (ms : List (List UInt8 × Out))
  | arr (es : List Out)

namespace Out

mutual
def render : Out → List UInt8
  | esc s _ => s.text
  | raw b => 34 :: b ++ [34]
  | num t => t
  | obj ms => 123 :: items (renderMembers ms) ++ [125]
  | arr es => 91 :: items (renderElems es) ++ [93]

def renderMembers : List (List UInt8 × Out) → List (List UInt8)
  | [] => []
  | (k, o) :: ms => (34 :: k ++ 34 :: 58 :: render o) :: renderMembers ms

def renderElems : List Out → List (List UInt8)
  | [] => []
  | o :: es => render o :: renderElems es
end

mutual
/-- What the text should mean. -/
def meaning : Out → Val
  | esc _ b => .str b
  | raw b => .str b
  | num t => .num t
  | obj ms => .obj (memberMeanings ms)
  | arr es => .arr (elemMeanings es)

def memberMeanings : List (List UInt8 × Out) → List (List UInt8 × Val)
  | [] => []
  | (k, o) :: ms => (k, meaning o) :: memberMeanings ms

def elemMeanings : List Out → List Val
  | [] => []
  | o :: es => meaning o :: elemMeanings es
end

/-- Everything put in as it is can stand where it is put. -/
inductive Good : Out → Prop
  | esc {s : Str} {b : List UInt8} (h : Str.decode s = b) : Good (esc s b)
  | raw {b : List UInt8} (h : ∀ c ∈ b, isPlain c) : Good (raw b)
  | num (n : Num) : Good (num n.text)
  | obj {ms : List (List UInt8 × Out)} (hk : ∀ m ∈ ms, ∀ c ∈ m.1, isPlain c)
      (h : ∀ m ∈ ms, Good m.2) : Good (obj ms)
  | arr {es : List Out} (h : ∀ o ∈ es, Good o) : Good (arr es)

theorem good_esc {s : Str} {b : List UInt8} : Good (esc s b) ↔ Str.decode s = b :=
  ⟨by intro h; cases h; assumption, .esc⟩

theorem good_raw {b : List UInt8} : Good (raw b) ↔ ∀ c ∈ b, isPlain c :=
  ⟨by intro h; cases h; assumption, .raw⟩

theorem good_num {t : List UInt8} : Good (num t) ↔ ∃ n : Num, n.text = t :=
  ⟨by intro h; cases h with | num n => exact ⟨n, rfl⟩, by rintro ⟨n, rfl⟩; exact .num n⟩

theorem good_obj {ms : List (List UInt8 × Out)} :
    Good (obj ms) ↔ ∀ m ∈ ms, (∀ c ∈ m.1, isPlain c) ∧ Good m.2 := by
  constructor
  · intro h
    cases h with
    | obj hk h => exact fun m hm => ⟨hk m hm, h m hm⟩
  · intro h
    exact .obj (fun m hm => (h m hm).1) fun m hm => (h m hm).2

theorem good_arr {es : List Out} : Good (arr es) ↔ ∀ o ∈ es, Good o :=
  ⟨by intro h; cases h; assumption, .arr⟩

theorem renderMembers_eq (ms : List (List UInt8 × Out)) :
    renderMembers ms = ms.map fun m => 34 :: m.1 ++ 34 :: 58 :: m.2.render := by
  induction ms with
  | nil => rfl
  | cons m ms ih => rw [renderMembers, ih, List.map_cons]

theorem renderElems_eq (es : List Out) : renderElems es = es.map render := by
  induction es with
  | nil => rfl
  | cons e es ih => rw [renderElems, ih, List.map_cons]

theorem memberMeanings_eq (ms : List (List UInt8 × Out)) :
    memberMeanings ms = ms.map fun m => (m.1, m.2.meaning) := by
  induction ms with
  | nil => rfl
  | cons m ms ih => rw [memberMeanings, ih, List.map_cons]

theorem elemMeanings_eq (es : List Out) : elemMeanings es = es.map meaning := by
  induction es with
  | nil => rfl
  | cons e es ih => rw [elemMeanings, ih, List.map_cons]

@[elab_as_elim]
theorem induct {P : Out → Prop} (hesc : ∀ s b, P (esc s b)) (hraw : ∀ b, P (raw b))
    (hnum : ∀ t, P (num t)) (hobj : ∀ ms, (∀ m ∈ ms, P m.2) → P (obj ms))
    (harr : ∀ es, (∀ o ∈ es, P o) → P (arr es)) : ∀ o, P o
  | esc s b => hesc s b
  | raw b => hraw b
  | num t => hnum t
  | obj ms => hobj ms fun m _ => induct hesc hraw hnum hobj harr m.2
  | arr es => harr es fun o _ => induct hesc hraw hnum hobj harr o
termination_by o => sizeOf o
decreasing_by
  · have hl := List.sizeOf_lt_of_mem ‹m ∈ ms›
    obtain ⟨k, o⟩ := m
    simp only [Prod.mk.sizeOf_spec] at hl
    simp only [obj.sizeOf_spec]
    omega
  · have hl := List.sizeOf_lt_of_mem ‹o ∈ es›
    simp only [arr.sizeOf_spec]
    omega

/-! ### A text with the meaning intended -/

theorem ws_eq_nil {w a t : List UInt8} {c : UInt8} (hw : ∀ c ∈ w, isWs c) (hc : isWs c = false)
    (h : w ++ a = c :: t) : w = [] ∧ a = c :: t := by
  cases w with
  | nil => exact ⟨rfl, h⟩
  | cons d w =>
    have hd := hw d List.mem_cons_self
    rw [(List.cons.inj h).1, hc] at hd
    cases hd

theorem render_eq_cons {j : Json} {o : Out} (h : j.decode = o.meaning) :
    ∃ c t, o.render = c :: t ∧ isWs c = false := by
  cases o with
  | esc s b => exact ⟨34, _, rfl, rfl⟩
  | raw b => exact ⟨34, _, rfl, rfl⟩
  | num t =>
    cases j with
    | num n =>
      obtain ⟨c, u, he, hc⟩ := (Json.num n).text_eq_cons
      refine ⟨c, u, ?_, not_ws_of_isOpening hc⟩
      rw [← he]
      exact (Val.num.inj h).symm
    | _ => cases h
  | obj ms => exact ⟨123, _, rfl, rfl⟩
  | arr es => exact ⟨91, _, rfl, rfl⟩

/-- An item of a document beside one of a written text: if two texts start with them, after
whitespace in the document, the written one is good, and the texts go on alike. -/
structure Item where
  text : List UInt8
  post : Ws
  out : List UInt8
  good : Prop
  peel : ∀ (w : Ws) (x y : List UInt8), w.bytes ++ (text ++ x) = out ++ y → good ∧ x = y

theorem tails_peel (l : List Item) {cl : UInt8} (hcl : isWs cl = false) (w : Ws)
    (rest rest' : List UInt8)
    (h : w.bytes ++ ((l.flatMap fun i => 44 :: (i.text ++ i.post.bytes)) ++ cl :: rest) =
      (l.flatMap fun i => 44 :: i.out) ++ cl :: rest') :
    (∀ i ∈ l, i.good) ∧ rest = rest' := by
  induction l generalizing w with
  | nil =>
    obtain ⟨-, ht⟩ := ws_eq_nil w.blank hcl h
    exact ⟨by simp, (List.cons.inj ht).2⟩
  | cons i l ih =>
    rw [List.flatMap_cons, List.flatMap_cons, List.cons_append, List.cons_append, List.cons_append,
      List.cons_append] at h
    obtain ⟨-, ht⟩ := ws_eq_nil w.blank rfl h
    have ht := (List.cons.inj ht).2
    rw [List.append_assoc, List.append_assoc, List.append_assoc] at ht
    obtain ⟨hgood, ht⟩ := i.peel .none _ _ ht
    obtain ⟨htail, hrest⟩ := ih i.post ht
    exact ⟨List.forall_mem_cons.mpr ⟨hgood, htail⟩, hrest⟩

theorem items_peel (l : List Item) {cl : UInt8} (hcl : isWs cl = false) (w : Ws)
    (rest rest' : List UInt8)
    (h : w.bytes ++ (items (l.map fun i => i.text ++ i.post.bytes) ++ cl :: rest) =
      items (l.map Item.out) ++ cl :: rest') : (∀ i ∈ l, i.good) ∧ rest = rest' := by
  cases l with
  | nil => exact tails_peel [] hcl w rest rest' h
  | cons i l =>
    rw [List.map_cons, List.map_cons, items, items, List.flatMap_map, List.flatMap_map,
      List.append_assoc, List.append_assoc, List.append_assoc] at h
    obtain ⟨hgood, ht⟩ := i.peel w _ _ h
    obtain ⟨htail, hrest⟩ := tails_peel l hcl i.post rest rest' ht
    exact ⟨List.forall_mem_cons.mpr ⟨hgood, htail⟩, hrest⟩

/-- A document with the meaning intended shows that the text it starts with was good. -/
def Peels (o : Out) : Prop :=
  ∀ (j : Json) (x y : List UInt8), j.decode = o.meaning → j.text ++ x = o.render ++ y →
    o.Good ∧ x = y

theorem Peels.ws {o : Out} (ho : Peels o) {j : Json} (hj : j.decode = o.meaning) {w : List UInt8}
    (hw : ∀ c ∈ w, isWs c) {x y : List UInt8} (h : w ++ (j.text ++ x) = o.render ++ y) :
    o.Good ∧ x = y := by
  obtain ⟨c, t, he, hc⟩ := render_eq_cons hj
  have h' := h
  rw [he, List.cons_append] at h'
  obtain ⟨hw, -⟩ := ws_eq_nil hw hc h'
  rw [hw] at h
  exact ho j x y hj h

def elemItem (e : Ws × Json × Ws) {o : Out} (ho : Peels o) (hj : e.2.1.decode = o.meaning) :
    Item where
  text := e.1.bytes ++ e.2.1.text
  post := e.2.2
  out := o.render
  good := o.Good
  peel w x y h := by
    rw [List.append_assoc, ← List.append_assoc] at h
    exact ho.ws hj (List.forall_mem_append.mpr ⟨w.blank, e.1.blank⟩) h

def memberItem (m : Key × Json × Ws) (k : List UInt8) {o : Out} (ho : Peels o)
    (hk : Str.decode m.1.name = k) (hj : m.2.1.decode = o.meaning) : Item where
  text := m.1.text ++ m.2.1.text
  post := m.2.2
  out := 34 :: k ++ 34 :: 58 :: o.render
  good := (∀ c ∈ k, isPlain c) ∧ o.Good
  peel w x y h := by
    have hl : w.bytes ++ (m.1.text ++ m.2.1.text ++ x) = (w.bytes ++ m.1.pre.bytes) ++
        34 :: (m.1.name.raw ++ 34 :: (m.1.post.bytes ++ 58 ::
          (m.1.gap.bytes ++ (m.2.1.text ++ x)))) := by
      simp only [Key.text, Str.text, List.append_assoc, List.cons_append, List.nil_append]
    have hr : 34 :: k ++ 34 :: 58 :: o.render ++ y = 34 :: (k ++ 34 :: 58 :: (o.render ++ y)) := by
      simp only [List.append_assoc, List.cons_append]
    rw [hl, hr] at h
    obtain ⟨-, h1⟩ := ws_eq_nil (List.forall_mem_append.mpr ⟨w.blank, m.1.pre.blank⟩) rfl h
    have h1 := (List.cons.inj h1).2
    subst hk
    obtain ⟨hplain, h2⟩ := Str.raw_eq_of_decode h1
    obtain ⟨-, h3⟩ := ws_eq_nil m.1.post.blank rfl h2
    obtain ⟨hgood, hxy⟩ := ho.ws hj m.1.gap.blank (List.cons.inj h3).2
    exact ⟨⟨hplain, hgood⟩, hxy⟩

theorem exists_elemItems {os : List Out} (hos : ∀ o ∈ os, Peels o) {es : List (Ws × Json × Ws)}
    (h : decodeElems es = elemMeanings os) :
    ∃ l : List Item, (l.map fun i => i.text ++ i.post.bytes) = elemTexts es ∧
      l.map Item.out = renderElems os ∧ ((∀ i ∈ l, i.good) → ∀ o ∈ os, o.Good) := by
  induction os generalizing es with
  | nil =>
    cases es with
    | nil => exact ⟨[], rfl, rfl, by simp⟩
    | cons e es => cases h
  | cons o os ih =>
    cases es with
    | nil => cases h
    | cons e es =>
      obtain ⟨he, ht⟩ := List.cons.inj h
      obtain ⟨l, h1, h2, h3⟩ := ih (fun o ho => hos o (List.mem_cons_of_mem _ ho)) ht
      refine ⟨elemItem e (hos o List.mem_cons_self) he :: l, ?_, ?_, ?_⟩
      · rw [List.map_cons, h1]
        rfl
      · rw [List.map_cons, h2]
        rfl
      · intro hl
        obtain ⟨hi, hl⟩ := List.forall_mem_cons.mp hl
        exact List.forall_mem_cons.mpr ⟨hi, h3 hl⟩

theorem exists_memberItems {os : List (List UInt8 × Out)} (hos : ∀ m ∈ os, Peels m.2)
    {ms : List (Key × Json × Ws)} (h : decodeMembers ms = memberMeanings os) :
    ∃ l : List Item, (l.map fun i => i.text ++ i.post.bytes) = memberTexts ms ∧
      l.map Item.out = renderMembers os ∧
      ((∀ i ∈ l, i.good) → (∀ m ∈ os, ∀ c ∈ m.1, isPlain c) ∧ ∀ m ∈ os, m.2.Good) := by
  induction os generalizing ms with
  | nil =>
    cases ms with
    | nil => exact ⟨[], rfl, rfl, by simp⟩
    | cons m ms => cases h
  | cons o os ih =>
    cases ms with
    | nil => cases h
    | cons m ms =>
      obtain ⟨hm, ht⟩ := List.cons.inj h
      obtain ⟨hk, hj⟩ := Prod.mk.inj hm
      obtain ⟨l, h1, h2, h3⟩ := ih (fun o ho => hos o (List.mem_cons_of_mem _ ho)) ht
      refine ⟨memberItem m o.1 (hos o List.mem_cons_self) hk hj :: l, ?_, ?_, ?_⟩
      · rw [List.map_cons, h1]
        rfl
      · rw [List.map_cons, h2]
        rfl
      · intro hl
        obtain ⟨hi, hl⟩ := List.forall_mem_cons.mp hl
        obtain ⟨hk, hg⟩ := h3 hl
        exact ⟨List.forall_mem_cons.mpr ⟨hi.1, hk⟩, List.forall_mem_cons.mpr ⟨hi.2, hg⟩⟩

theorem peels (o : Out) : Peels o := by
  induction o using Out.induct with
  | hesc s b =>
    intro j x y hj h
    cases j with
    | str s' =>
      have hs : s'.raw ++ [34] ++ x = s.raw ++ [34] ++ y := (List.cons.inj h).2
      rw [List.append_assoc, List.append_assoc] at hs
      obtain ⟨rfl, hxy⟩ := Str.eq_of_raw hs
      exact ⟨.esc (Val.str.inj hj), hxy⟩
    | _ => cases hj
  | hraw b =>
    intro j x y hj h
    cases j with
    | str s' =>
      obtain rfl := Val.str.inj hj
      have hs : s'.raw ++ [34] ++ x = Str.decode s' ++ [34] ++ y := (List.cons.inj h).2
      rw [List.append_assoc, List.append_assoc] at hs
      obtain ⟨hplain, hxy⟩ := Str.raw_eq_of_decode hs
      exact ⟨.raw hplain, hxy⟩
    | _ => cases hj
  | hnum t =>
    intro j x y hj h
    cases j with
    | num n =>
      obtain rfl := Val.num.inj hj
      exact ⟨.num n, List.append_cancel_left h⟩
    | _ => cases hj
  | hobj os ih =>
    intro j x y hj h
    cases j with
    | obj w ms =>
      obtain ⟨l, h1, h2, h3⟩ := exists_memberItems ih (Val.obj.inj hj)
      have hitems : w.bytes ++ items (memberTexts ms) ++ [125] ++ x =
          items (renderMembers os) ++ [125] ++ y := (List.cons.inj h).2
      rw [← h1, ← h2, List.append_assoc, List.append_assoc, List.append_assoc] at hitems
      obtain ⟨hgood, hxy⟩ := items_peel l rfl w x y hitems
      obtain ⟨hk, hg⟩ := h3 hgood
      exact ⟨.obj hk hg, hxy⟩
    | _ => cases hj
  | harr os ih =>
    intro j x y hj h
    cases j with
    | arr w es =>
      obtain ⟨l, h1, h2, h3⟩ := exists_elemItems ih (Val.arr.inj hj)
      have hitems : w.bytes ++ items (elemTexts es) ++ [93] ++ x =
          items (renderElems os) ++ [93] ++ y := (List.cons.inj h).2
      rw [← h1, ← h2, List.append_assoc, List.append_assoc, List.append_assoc] at hitems
      obtain ⟨hgood, hxy⟩ := items_peel l rfl w x y hitems
      exact ⟨.arr (h3 hgood), hxy⟩
    | _ => cases hj

theorem exists_members {os : List (List UInt8 × Out)} (hk : ∀ m ∈ os, ∀ c ∈ m.1, isPlain c)
    (h : ∀ m ∈ os, ∃ j : Json, j.text = m.2.render ∧ j.decode = m.2.meaning) :
    ∃ ms, memberTexts ms = renderMembers os ∧ decodeMembers ms = memberMeanings os := by
  induction os with
  | nil => exact ⟨[], rfl, rfl⟩
  | cons o os ih =>
    obtain ⟨hk, hks⟩ := List.forall_mem_cons.mp hk
    obtain ⟨⟨j, ht, hd⟩, hs⟩ := List.forall_mem_cons.mp h
    obtain ⟨ms, hts, hds⟩ := ih hks hs
    have hkey : (⟨.none, .ofPlain o.1 hk, .none, .none⟩ : Key).text = 34 :: o.1 ++ [34, 58] := by
      simp [Key.text, Str.text, Ws.none, Str.raw_ofPlain]
    refine ⟨(⟨.none, .ofPlain o.1 hk, .none, .none⟩, j, .none) :: ms, ?_, ?_⟩
    · rw [memberTexts, hkey, ht, hts]
      simp [renderMembers, Ws.none]
    · rw [decodeMembers, hds, hd, Str.decode_ofPlain]
      rfl

theorem exists_elems {os : List Out}
    (h : ∀ o ∈ os, ∃ j : Json, j.text = o.render ∧ j.decode = o.meaning) :
    ∃ es, elemTexts es = renderElems os ∧ decodeElems es = elemMeanings os := by
  induction os with
  | nil => exact ⟨[], rfl, rfl⟩
  | cons o os ih =>
    obtain ⟨⟨j, ht, hd⟩, hs⟩ := List.forall_mem_cons.mp h
    obtain ⟨es, hts, hds⟩ := ih hs
    refine ⟨(.none, j, .none) :: es, ?_, ?_⟩
    · rw [elemTexts, ht, hts]
      simp [renderElems, Ws.none]
    · rw [decodeElems, hds, hd]
      rfl

theorem Good.exists_json {o : Out} (h : o.Good) :
    ∃ j : Json, j.text = o.render ∧ j.decode = o.meaning := by
  induction h with
  | @esc s b h => exact ⟨.str s, rfl, congrArg Val.str h⟩
  | @raw b h =>
    refine ⟨.str (.ofPlain b h), ?_, congrArg Val.str (Str.decode_ofPlain b h)⟩
    rw [text, Str.text, Str.raw_ofPlain]
    rfl
  | num n => exact ⟨.num n, rfl, rfl⟩
  | obj hk _ ih =>
    obtain ⟨ms, ht, hd⟩ := exists_members hk ih
    refine ⟨.obj .none ms, ?_, congrArg Val.obj hd⟩
    rw [text, ht]
    rfl
  | arr _ ih =>
    obtain ⟨es, ht, hd⟩ := exists_elems ih
    refine ⟨.arr .none es, ?_, congrArg Val.arr hd⟩
    rw [text, ht]
    rfl

/-- A text put together by hand is a document that means what it should exactly if all that is
put in as it is can stand there. -/
theorem exists_doc_iff (o : Out) :
    (∃ d : Doc, d.text = o.render ∧ d.root.decode = o.meaning) ↔ o.Good := by
  constructor
  · rintro ⟨d, ht, hd⟩
    have h : d.pre.bytes ++ (d.root.text ++ d.post.bytes) = o.render ++ [] := by
      rw [List.append_nil, ← ht, Doc.text, List.append_assoc]
    exact ((peels o).ws hd d.pre.blank h).1
  · intro h
    obtain ⟨j, ht, hd⟩ := h.exists_json
    refine ⟨⟨.none, j, .none⟩, ?_, hd⟩
    rw [Doc.text, ← ht]
    exact List.append_nil _

theorem mem_items {c : UInt8} {l : List (List UInt8)} (h : c ∈ items l) :
    c = 44 ∨ ∃ b ∈ l, c ∈ b := by
  cases l with
  | nil => cases h
  | cons a l =>
    rcases List.mem_append.mp h with h | h
    · exact .inr ⟨a, List.mem_cons_self, h⟩
    · obtain ⟨b, hb, h⟩ := List.mem_flatMap.mp h
      rcases List.mem_cons.mp h with h | h
      · exact .inl h
      · exact .inr ⟨b, List.mem_cons_of_mem a hb, h⟩

/-- There is no line break in such a document. -/
theorem Good.one_line {o : Out} (h : o.Good) : (10 : UInt8) ∉ o.render := by
  have hbreak : ¬ isPlain 10 := by decide
  have hquoted {b : List UInt8} (hb : ∀ c ∈ b, isPlain c) : (10 : UInt8) ∉ b := fun hm =>
    hbreak (hb 10 hm)
  induction h with
  | @esc s b h =>
    intro hm
    have hm : (10 : UInt8) ∈ s.raw := by simpa [render, Str.text] using hm
    exact Str.not_mem_raw s hm
  | raw h =>
    intro hm
    exact hquoted h (by simpa [render] using hm)
  | num n =>
    intro hm
    exact absurd (n.solid hm) (by decide)
  | @obj ms hk h ih =>
    intro hm
    have hm : (10 : UInt8) ∈ items (renderMembers ms) := by simpa [render] using hm
    rcases mem_items hm with hm | ⟨b, hb, hm⟩
    · cases hm
    · rw [renderMembers_eq] at hb
      obtain ⟨m, hmem, rfl⟩ := List.mem_map.mp hb
      have hm : (10 : UInt8) ∈ m.1 ∨ (10 : UInt8) ∈ m.2.render := by simpa using hm
      exact hm.elim (hquoted (hk m hmem)) (ih m hmem)
  | @arr es h ih =>
    intro hm
    have hm : (10 : UInt8) ∈ items (renderElems es) := by simpa [render] using hm
    rcases mem_items hm with hm | ⟨b, hb, hm⟩
    · cases hm
    · rw [renderElems_eq] at hb
      obtain ⟨o, ho, rfl⟩ := List.mem_map.mp hb
      exact ih o ho hm

end Out

end Json
