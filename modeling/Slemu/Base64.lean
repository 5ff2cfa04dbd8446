import Slemu.Value

/-! The Base64 builtins: strings in groups of three bytes and four digits, and integers as strings
of four bytes. -/

/-! ### The encoding of RFC 4648 -/

namespace Base64

/-- The characters for 0 to 63. -/
def alphabet : List UInt8 :=
  Slemu.lit "ABCDEFGHIJKLMNOPQRSTUVWXYZabcdefghijklmnopqrstuvwxyz0123456789+/"

/-- The bits of a byte, the highest first. -/
def byteBits (c : UInt8) : List Bool := [7, 6, 5, 4, 3, 2, 1, 0].map fun k => c.toNat.testBit k

/-- Six bits at a time, the last of them filled up with zeros. -/
def sextets : List Bool → List (List Bool)
  | [] => []
  | a :: b :: c :: d :: e :: f :: t => [a, b, c, d, e, f] :: sextets t
  | t => [t ++ List.replicate (6-t.length) false]

/-- The number that bits spell, the highest first. -/
def value (bs : List Bool) : ℕ := bs.foldl (fun n b => 2*n+b.toNat) 0

def digitsOf (s : List UInt8) : List UInt8 :=
  (sextets (s.flatMap byteBits)).map fun g => alphabet.getD (value g) 0

/-- The digits, and as much padding as makes their number a multiple of four. -/
def encode (s : List UInt8) : List UInt8 :=
  digitsOf s ++ List.replicate ((4-(digitsOf s).length%4)%4) 61

end Base64

namespace Slemu
variable {F : Type}

/-! ### The builtins -/

/-- `B64` -/
def b64Digits : Bytes :=
  lit "ABCDEFGHIJKLMNOPQRSTUVWXYZabcdefghijklmnopqrstuvwxyz0123456789+/"

/-- `b64v` -/
def b64v (c : UInt8) : ℤ :=
  match b64Digits.findIdx? (· = c) with
  | some i => i
  | none => if c = 61 then -1 else -2

/-- Three bytes in a word. -/
def b64Word (x y z : UInt8) : UInt32 :=
  x.toUInt32 <<< 16 ||| y.toUInt32 <<< 8 ||| z.toUInt32

def b64Char (v : UInt32) : UInt8 := b64Digits.getD (v &&& 63).toNat 0

/-- The loop of `bi_llStringToBase64`. -/
def b64Encode : Bytes → Bytes
  | x :: y :: z :: t =>
    let v := b64Word x y z
    b64Char (v >>> 18) :: b64Char (v >>> 12) :: b64Char (v >>> 6) :: b64Char v :: b64Encode t
  | [x, y] =>
    let v := b64Word x y 0
    [b64Char (v >>> 18), b64Char (v >>> 12), b64Char (v >>> 6), 61]
  | [x] =>
    let v := b64Word x 0 0
    [b64Char (v >>> 18), b64Char (v >>> 12), 61, 61]
  | [] => []

/-- `(char)((buf >> bits) & 0xFF)` -/
def b64Byte (buf : BitVec 32) (bits : ℕ) : UInt8 :=
  .ofBitVec ((buf.sshiftRight bits &&& 0xFF#32).setWidth 8)

/-- The loop of `bi_llBase64ToString`, with the `int` `buf` modulo `2^32`. -/
def b64Loop (buf : BitVec 32) (bits : ℕ) : Bytes → Bytes
  | [] => []
  | c :: t =>
    let v := b64v c
    if v < 0 then b64Loop buf bits t
    else
      let buf := buf <<< 6 ||| BitVec.ofInt 32 v
      let bits := bits+6
      if 8 ≤ bits then b64Byte buf (bits-8) :: b64Loop buf (bits-8) t
      else b64Loop buf bits t

/-- `bi_llStringToBase64` -/
def llStringToBase64 (a : List (SValue F)) : SValue F := .string (b64Encode (argStr a 0))

/-- `bi_llBase64ToString` -/
def llBase64ToString (a : List (SValue F)) : SValue F := .string (cstr (b64Loop 0 0 (argStr a 0)))

/-- The four bytes of `bi_llIntegerToBase64`, the highest first. -/
def intBytes (v : ℤ) : Bytes :=
  [(v/2^24%256).toNat.toUInt8, (v/2^16%256).toNat.toUInt8, (v/2^8%256).toNat.toUInt8,
   (v%256).toNat.toUInt8]

section
variable [CDouble F]

/-- `bi_llIntegerToBase64`; the bytes are passed on as a string. -/
def llIntegerToBase64 (a : List (SValue F)) : SValue F :=
  llStringToBase64 [(.string (cstr (intBytes (argInt a 0))) : SValue F)]

end

/-- `bi_llBase64ToInteger` -/
def llBase64ToInteger (a : List (SValue F)) : SValue F :=
  match llBase64ToString a with
  | .string (b0 :: b1 :: b2 :: b3 :: _) =>
    .int ((b0.toNat <<< 24 ||| b1.toNat <<< 16 ||| b2.toNat <<< 8 ||| b3.toNat : ℕ) : ℤ)
  | _ => .int 0

/-! ### Words and digits -/

theorem b64Word_toNat (x y z : UInt8) :
    (b64Word x y z).toNat = x.toNat*2^16+y.toNat*2^8+z.toNat := by
  have hx := x.toNat_lt
  have hy := y.toNat_lt
  have hz := z.toNat_lt
  have hlow : y.toNat*2^8+z.toNat = y.toNat <<< 8 ||| z.toNat := by
    rw [← Nat.shiftLeft_add_eq_or_of_lt hz, Nat.shiftLeft_eq]
  have hhigh : x.toNat*2^16+(y.toNat*2^8+z.toNat) =
      x.toNat <<< 16 ||| (y.toNat <<< 8 ||| z.toNat) := by
    rw [← hlow, ← Nat.shiftLeft_add_eq_or_of_lt (by omega), Nat.shiftLeft_eq]
  have h16 : x.toNat <<< 16 % 2^32 = x.toNat <<< 16 := by
    rw [Nat.shiftLeft_eq]
    omega
  have h8 : y.toNat <<< 8 % 2^32 = y.toNat <<< 8 := by
    rw [Nat.shiftLeft_eq]
    omega
  rw [Nat.add_assoc, hhigh, ← Nat.or_assoc, ← h16, ← h8]
  simp only [b64Word, UInt32.toNat_or, UInt32.toNat_shiftLeft, UInt8.toNat_toUInt32]
  rfl

/-- A digit shows six bits of the word. -/
theorem b64Char_shift (v : UInt32) {k : UInt32} (hk : k < 32) :
    b64Char (v >>> k) = b64Digits.getD (v.toNat/2^k.toNat%64) 0 := by
  have hmod : k.toNat%32 = k.toNat := Nat.mod_eq_of_lt (UInt32.lt_iff_toNat_lt.mp hk)
  have hand (n : ℕ) : n &&& 63 = n%64 := Nat.and_two_pow_sub_one_eq_mod n 6
  unfold b64Char
  rw [UInt32.toNat_and, UInt32.toNat_shiftRight, hmod, Nat.shiftRight_eq_div_pow]
  exact congrArg (fun n => b64Digits.getD n 0) (hand _)

theorem b64Char_word (v : UInt32) : b64Char v = b64Digits.getD (v.toNat%64) 0 := by
  have h := b64Char_shift v (k := 0) (by decide)
  rwa [UInt32.shiftRight_zero, UInt32.toNat_zero, pow_zero, Nat.div_one] at h

theorem b64v_digit : ∀ n < 64, b64v (b64Digits.getD n 0) = n := by
  decide +kernel

/-! ### The decoder -/

theorem b64Byte_toNat (buf : BitVec 32) {k : ℕ} (hk : k ≤ 24) :
    (b64Byte buf k).toNat = buf.toNat/2^k%256 := by
  have hbits : (buf.sshiftRight k &&& 0xFF#32).setWidth 8 = BitVec.ofNat 8 (buf.toNat/2^k) := by
    apply BitVec.eq_of_getLsbD_eq
    intro i hi
    have hmask : (0xFF#32).getLsbD i = true := by
      interval_cases i <;> rfl
    rw [BitVec.getLsbD_setWidth, BitVec.getLsbD_and, BitVec.getLsbD_sshiftRight, hmask,
      if_pos (by omega : k+i < 32), BitVec.getLsbD_ofNat, Nat.testBit_div_two_pow,
      BitVec.testBit_toNat, Nat.add_comm]
    have hi32 : i < 32 := by omega
    simp [hi, hi32]
  unfold b64Byte
  rw [hbits]
  exact BitVec.toNat_ofNat _ 8

/-- Six bits more, and the highest are lost. -/
theorem b64Next_toNat (buf : BitVec 32) {n : ℕ} (hn : n < 64) :
    (buf <<< 6 ||| BitVec.ofInt 32 n).toNat = (buf.toNat*64+n)%2^32 := by
  have hof : (BitVec.ofInt 32 (n : ℤ)).toNat = n := by
    rw [BitVec.ofInt_natCast, BitVec.toNat_ofNat]
    omega
  rw [BitVec.toNat_or, BitVec.toNat_shiftLeft, hof]
  have hlow : buf.toNat <<< 6 % 2^32 = (buf.toNat%2^26) <<< 6 := by
    rw [Nat.shiftLeft_eq, Nat.shiftLeft_eq]
    omega
  rw [hlow, ← Nat.shiftLeft_add_eq_or_of_lt (by omega), Nat.shiftLeft_eq]
  omega

theorem b64Loop_digit (buf : BitVec 32) (bits : ℕ) {n : ℕ} (hn : n < 64) (t : Bytes) :
    ∃ buf' : BitVec 32, buf'.toNat = (buf.toNat*64+n)%2^32 ∧
      b64Loop buf bits (b64Digits.getD n 0 :: t) =
        if 2 ≤ bits then b64Byte buf' (bits-2) :: b64Loop buf' (bits-2) t
        else b64Loop buf' (bits+6) t := by
  refine ⟨_, b64Next_toNat buf hn, ?_⟩
  rw [b64Loop]
  dsimp only
  rw [b64v_digit n hn, if_neg (by omega)]
  by_cases hb : 2 ≤ bits
  · rw [if_pos hb, if_pos (by omega), Nat.add_sub_add_right bits 6 2]
  · rw [if_neg hb, if_neg (by omega)]

theorem b64Loop_pad (buf : BitVec 32) (bits : ℕ) (t : Bytes) :
    b64Loop buf bits (61 :: t) = b64Loop buf bits t := by
  have hv : b64v 61 < 0 := by decide +kernel
  rw [b64Loop]
  dsimp only
  rw [if_pos hv]

/-! ### Groups -/

/-- Two digits after a byte boundary complete a byte, whatever has been read before. -/
theorem b64Loop_two (buf : BitVec 32) (v : UInt32) (t : Bytes) :
    ∃ b : BitVec 32, b.toNat%2^4 = v.toNat/2^12%2^4 ∧
      b64Loop buf 0 (b64Char (v >>> 18) :: b64Char (v >>> 12) :: t) =
        .ofNat (v.toNat/2^16) :: b64Loop b 4 t := by
  have hk : (18 : UInt32).toNat = 18 ∧ (12 : UInt32).toNat = 12 := ⟨rfl, rfl⟩
  rw [b64Char_shift v (by decide), b64Char_shift v (by decide)]
  obtain ⟨b1, h1, e1⟩ := b64Loop_digit buf 0 (Nat.mod_lt _ (by decide)) _
  rw [e1, if_neg (by decide)]
  obtain ⟨b2, h2, e2⟩ := b64Loop_digit b1 6 (Nat.mod_lt _ (by decide)) _
  rw [e2, if_pos (by decide)]
  rw [hk.1] at h1
  rw [hk.2] at h2
  have hbyte : b64Byte b2 4 = .ofNat (v.toNat/2^16) := by
    apply UInt8.toNat_inj.mp
    rw [b64Byte_toNat b2 (by decide), UInt8.toNat_ofNat']
    omega
  exact ⟨b2, by omega, by rw [← hbyte]⟩

/-- The third completes the next. -/
theorem b64Loop_third {b : BitVec 32} {v : UInt32} (h : b.toNat%2^4 = v.toNat/2^12%2^4)
    (t : Bytes) : ∃ b' : BitVec 32, b'.toNat%2^2 = v.toNat/2^6%2^2 ∧
      b64Loop b 4 (b64Char (v >>> 6) :: t) = .ofNat (v.toNat/2^8) :: b64Loop b' 2 t := by
  have hk : (6 : UInt32).toNat = 6 := rfl
  rw [b64Char_shift v (by decide)]
  obtain ⟨b', h', e⟩ := b64Loop_digit b 4 (Nat.mod_lt _ (by decide)) _
  rw [e, if_pos (by decide)]
  rw [hk] at h'
  have hbyte : b64Byte b' 2 = .ofNat (v.toNat/2^8) := by
    apply UInt8.toNat_inj.mp
    rw [b64Byte_toNat b' (by decide), UInt8.toNat_ofNat']
    omega
  exact ⟨b', by omega, by rw [← hbyte]⟩

/-- The fourth completes the last, and is at a byte boundary again. -/
theorem b64Loop_fourth {b : BitVec 32} {v : UInt32} (h : b.toNat%2^2 = v.toNat/2^6%2^2)
    (t : Bytes) : ∃ b' : BitVec 32,
      b64Loop b 2 (b64Char v :: t) = .ofNat v.toNat :: b64Loop b' 0 t := by
  rw [b64Char_word v]
  obtain ⟨b', h', e⟩ := b64Loop_digit b 2 (Nat.mod_lt _ (by decide)) _
  rw [e, if_pos (by decide)]
  have hbyte : b64Byte b' 0 = .ofNat v.toNat := by
    apply UInt8.toNat_inj.mp
    rw [b64Byte_toNat b' (by decide), UInt8.toNat_ofNat']
    omega
  exact ⟨b', by rw [← hbyte]⟩

/-- The bytes of a word. -/
theorem b64Word_bytes (x y z : UInt8) :
    .ofNat ((b64Word x y z).toNat/2^16) = x ∧ .ofNat ((b64Word x y z).toNat/2^8) = y ∧
      .ofNat (b64Word x y z).toNat = z := by
  have hx := x.toNat_lt
  have hy := y.toNat_lt
  have hz := z.toNat_lt
  rw [b64Word_toNat]
  refine ⟨?_, ?_, ?_⟩
  all_goals
    apply UInt8.toNat_inj.mp
    rw [UInt8.toNat_ofNat']
    omega

/-- What is encoded is read back, also after other characters. -/
theorem b64Loop_encode (s : Bytes) (buf : BitVec 32) : b64Loop buf 0 (b64Encode s) = s := by
  fun_induction b64Encode s generalizing buf with
  | case1 x y z t v ih =>
    obtain ⟨hx, hy, hz⟩ := b64Word_bytes x y z
    obtain ⟨b, hb, e⟩ := b64Loop_two buf v (b64Char (v >>> 6) :: b64Char v :: b64Encode t)
    obtain ⟨b', hb', e'⟩ := b64Loop_third hb (b64Char v :: b64Encode t)
    obtain ⟨b'', e''⟩ := b64Loop_fourth hb' (b64Encode t)
    rw [e, e', e'', ih b'', hx, hy, hz]
  | case2 x y v =>
    obtain ⟨hx, hy, -⟩ := b64Word_bytes x y 0
    obtain ⟨b, hb, e⟩ := b64Loop_two buf v [b64Char (v >>> 6), 61]
    obtain ⟨b', -, e'⟩ := b64Loop_third hb [61]
    rw [e, e', b64Loop_pad, hx, hy]
    rfl
  | case3 x v =>
    obtain ⟨hx, -, -⟩ := b64Word_bytes x 0 0
    obtain ⟨b, -, e⟩ := b64Loop_two buf v [61, 61]
    rw [e, b64Loop_pad, b64Loop_pad, hx]
    rfl
  | case4 => rfl

/-! ### The standard -/

open Base64 in
theorem value_append (a b : List Bool) : value (a ++ b) = value a*2^b.length+value b := by
  have hfrom (k : ℕ) : b.foldl (fun n b => 2*n+b.toNat) k = k*2^b.length+value b := by
    induction b using List.reverseRecOn with
    | nil => simp [value]
    | append_singleton b c ih =>
      rw [value, List.foldl_append, List.foldl_append, ih, ← value, List.length_append, pow_add]
      simp only [List.foldl_cons, List.foldl_nil, List.length_singleton, pow_one]
      ring
  rw [value, List.foldl_append, ← value, hfrom]

open Base64 in
/-- The parts of a byte that a digit can end or begin with. -/
theorem value_byteBits : ∀ c : UInt8,
    value ((byteBits c).take 6) = c.toNat/4 ∧ value ((byteBits c).drop 6) = c.toNat%4 ∧
    value ((byteBits c).take 4) = c.toNat/16 ∧ value ((byteBits c).drop 4) = c.toNat%16 ∧
    value ((byteBits c).take 2) = c.toNat/64 ∧ value ((byteBits c).drop 2) = c.toNat%64 := by
  decide +kernel

open Base64 in
/-- The digits of three bytes. -/
theorem sextets_three (x y z : UInt8) (t : List Bool) :
    sextets (byteBits x ++ (byteBits y ++ (byteBits z ++ t))) =
      (byteBits x).take 6 :: ((byteBits x).drop 6 ++ (byteBits y).take 4) ::
        ((byteBits y).drop 4 ++ (byteBits z).take 2) :: (byteBits z).drop 2 :: sextets t := rfl

open Base64 in
theorem sextets_two (x y : UInt8) :
    sextets (byteBits x ++ (byteBits y ++ [])) = [(byteBits x).take 6,
      (byteBits x).drop 6 ++ (byteBits y).take 4, (byteBits y).drop 4 ++ [false, false]] := rfl

open Base64 in
theorem sextets_one (x : UInt8) : sextets (byteBits x ++ []) =
    [(byteBits x).take 6, (byteBits x).drop 6 ++ [false, false, false, false]] := rfl

/-- The digits of a word, by its bytes. -/
theorem b64Chars (x y z : UInt8) :
    b64Char (b64Word x y z >>> 18) = Base64.alphabet.getD (x.toNat/4) 0 ∧
    b64Char (b64Word x y z >>> 12) = Base64.alphabet.getD (x.toNat%4*16+y.toNat/16) 0 ∧
    b64Char (b64Word x y z >>> 6) = Base64.alphabet.getD (y.toNat%16*4+z.toNat/64) 0 ∧
    b64Char (b64Word x y z) = Base64.alphabet.getD (z.toNat%64) 0 := by
  have hx := x.toNat_lt
  have hy := y.toNat_lt
  have hz := z.toNat_lt
  have hk : (18 : UInt32).toNat = 18 ∧ (12 : UInt32).toNat = 12 ∧ (6 : UInt32).toNat = 6 :=
    ⟨rfl, rfl, rfl⟩
  have hget {m n : ℕ} (h : m = n) : b64Digits.getD m 0 = Base64.alphabet.getD n 0 := by
    rw [h]
    rfl
  rw [b64Char_shift _ (by decide), b64Char_shift _ (by decide), b64Char_shift _ (by decide),
    b64Char_word, b64Word_toNat, hk.1, hk.2.1, hk.2.2]
  exact ⟨hget (by omega), hget (by omega), hget (by omega), hget (by omega)⟩

open Base64 in
theorem digitsOf_three (x y z : UInt8) (t : Bytes) :
    digitsOf (x :: y :: z :: t) = alphabet.getD (x.toNat/4) 0 ::
      alphabet.getD (x.toNat%4*16+y.toNat/16) 0 :: alphabet.getD (y.toNat%16*4+z.toNat/64) 0 ::
        alphabet.getD (z.toNat%64) 0 :: digitsOf t := by
  obtain ⟨hx6, hx2, -⟩ := value_byteBits x
  obtain ⟨-, -, hy4, hy4', -⟩ := value_byteBits y
  obtain ⟨-, -, -, -, hz2, hz6⟩ := value_byteBits z
  have h2 : value ((byteBits x).drop 6 ++ (byteBits y).take 4) = x.toNat%4*16+y.toNat/16 := by
    rw [value_append, hx2, hy4]
    rfl
  have h3 : value ((byteBits y).drop 4 ++ (byteBits z).take 2) = y.toNat%16*4+z.toNat/64 := by
    rw [value_append, hy4', hz2]
    rfl
  unfold digitsOf
  rw [List.flatMap_cons, List.flatMap_cons, List.flatMap_cons, sextets_three]
  simp only [List.map_cons, hx6, h2, h3, hz6]

open Base64 in
theorem digitsOf_two (x y : UInt8) :
    digitsOf [x, y] = [alphabet.getD (x.toNat/4) 0, alphabet.getD (x.toNat%4*16+y.toNat/16) 0,
      alphabet.getD (y.toNat%16*4) 0] := by
  obtain ⟨hx6, hx2, -⟩ := value_byteBits x
  obtain ⟨-, -, hy4, hy4', -⟩ := value_byteBits y
  have h2 : value ((byteBits x).drop 6 ++ (byteBits y).take 4) = x.toNat%4*16+y.toNat/16 := by
    rw [value_append, hx2, hy4]
    rfl
  have h3 : value ((byteBits y).drop 4 ++ [false, false]) = y.toNat%16*4 := by
    rw [value_append, hy4']
    rfl
  unfold digitsOf
  rw [List.flatMap_cons, List.flatMap_cons, List.flatMap_nil, sextets_two]
  simp only [List.map_cons, List.map_nil, hx6, h2, h3]

open Base64 in
theorem digitsOf_one (x : UInt8) :
    digitsOf [x] = [alphabet.getD (x.toNat/4) 0, alphabet.getD (x.toNat%4*16) 0] := by
  obtain ⟨hx6, hx2, -⟩ := value_byteBits x
  have h2 : value ((byteBits x).drop 6 ++ [false, false, false, false]) = x.toNat%4*16 := by
    rw [value_append, hx2]
    rfl
  unfold digitsOf
  rw [List.flatMap_cons, List.flatMap_nil, sextets_one]
  simp only [List.map_cons, List.map_nil, hx6, h2]

/-- The loop encodes as the standard has it. -/
theorem b64Encode_standard (s : Bytes) : b64Encode s = Base64.encode s := by
  fun_induction b64Encode s with
  | case1 x y z t v ih =>
    obtain ⟨h1, h2, h3, h4⟩ := b64Chars x y z
    -- four digits more need no other padding
    have hpad (n : ℕ) : (4-(n+1+1+1+1)%4)%4 = (4-n%4)%4 := by omega
    rw [h1, h2, h3, h4, ih, Base64.encode, Base64.encode, digitsOf_three]
    simp only [List.length_cons, hpad, List.cons_append]
  | case2 x y v =>
    obtain ⟨h1, h2, h3, -⟩ := b64Chars x y 0
    rw [h1, h2, h3, Base64.encode, digitsOf_two]
    rfl
  | case3 x v =>
    obtain ⟨h1, h2, -, -⟩ := b64Chars x 0 0
    rw [h1, h2, Base64.encode, digitsOf_one]
    rfl
  | case4 => rfl

/-- Strings come back from Base64, which is that of the standard. -/
theorem base64_round_trip (s : Bytes) (hs : (0 : UInt8) ∉ s) :
    llBase64ToString [llStringToBase64 ([.string s] : List (SValue F))] = .string s ∧
      llStringToBase64 ([.string s] : List (SValue F)) = .string (Base64.encode s) := by
  have hback : cstr (b64Loop 0 0 (b64Encode s)) = s := by
    rw [b64Loop_encode, cstr_of_nul_free s hs]
  exact ⟨congrArg SValue.string hback, congrArg SValue.string (b64Encode_standard s)⟩

theorem base64_round_trip_padded :
    llBase64ToString [llStringToBase64 ([.string (lit "Hi there")] : List (SValue ℚ))] =
        .string (lit "Hi there") ∧
      llStringToBase64 ([.string (lit "Hi there")] : List (SValue ℚ)) =
        .string (Base64.encode (lit "Hi there")) :=
  base64_round_trip (lit "Hi there") (by decide +kernel)

/-! ### Integers -/

/-- The integer comes back from Base64. -/
def IntRoundTrip (F : Type) [CDouble F] (n : ℤ) : Prop :=
  llBase64ToInteger [llIntegerToBase64 ([.int n] : List (SValue F))] = .int n

theorem nul_not_mem_cstr (b : Bytes) : (0 : UInt8) ∉ cstr b := by
  intro h
  have hne := List.mem_takeWhile_imp h
  simp at hne

theorem base64_string (s : Bytes) (hs : (0 : UInt8) ∉ s) :
    llBase64ToString [llStringToBase64 ([.string s] : List (SValue F))] = .string s := by
  have hback : cstr (b64Loop 0 0 (b64Encode s)) = s := by
    rw [b64Loop_encode, cstr_of_nul_free s hs]
  exact congrArg SValue.string hback

/-- What the four bytes are put together to. -/
theorem base64ToInteger_four {a : List (SValue F)} {b0 b1 b2 b3 : UInt8}
    (h : llBase64ToString a = .string [b0, b1, b2, b3]) : llBase64ToInteger a =
      .int (b0.toNat*2^24+b1.toNat*2^16+b2.toNat*2^8+b3.toNat) := by
  have h1 := b1.toNat_lt
  have h2 := b2.toNat_lt
  have h3 := b3.toNat_lt
  have hlow : b2.toNat <<< 8 ||| b3.toNat = b2.toNat*2^8+b3.toNat := by
    rw [← Nat.shiftLeft_add_eq_or_of_lt h3, Nat.shiftLeft_eq]
  have hmid : b1.toNat <<< 16 ||| (b2.toNat*2^8+b3.toNat) =
      b1.toNat*2^16+(b2.toNat*2^8+b3.toNat) := by
    rw [← Nat.shiftLeft_add_eq_or_of_lt (by omega), Nat.shiftLeft_eq]
  have hor : b0.toNat <<< 24 ||| b1.toNat <<< 16 ||| b2.toNat <<< 8 ||| b3.toNat =
      b0.toNat*2^24+(b1.toNat*2^16+(b2.toNat*2^8+b3.toNat)) := by
    rw [Nat.or_assoc, Nat.or_assoc, hlow, hmid, ← Nat.shiftLeft_add_eq_or_of_lt (by omega),
      Nat.shiftLeft_eq]
  unfold llBase64ToInteger
  rw [h]
  dsimp only
  rw [hor]
  apply congrArg SValue.int
  push_cast
  omega

theorem base64ToInteger_short {a : List (SValue F)} {s : Bytes}
    (h : llBase64ToString a = .string s) (hs : s.length < 4) : llBase64ToInteger a = .int 0 := by
  unfold llBase64ToInteger
  rw [h]
  split
  · rename_i he
    rw [SValue.string.inj he] at hs
    simp only [List.length_cons] at hs
    omega
  · rfl

theorem length_cstr_lt {b : Bytes} (h : (0 : UInt8) ∈ b) : (cstr b).length < b.length := by
  have hle := (List.takeWhile_prefix (l := b) (· ≠ 0)).length_le
  apply Nat.lt_of_le_of_ne hle
  intro heq
  have hself := (List.takeWhile_prefix (l := b) (· ≠ 0)).eq_of_length heq
  exact nul_not_mem_cstr b (by rw [cstr, hself]; exact h)

section
variable [CDouble F]

theorem base64_integer (n : ℤ) :
    llBase64ToString [llIntegerToBase64 ([.int n] : List (SValue F))] =
      .string (cstr (intBytes n)) :=
  base64_string _ (nul_not_mem_cstr _)

/-- With a zero byte the string is cut short, and 0 comes back. -/
theorem base64_integer_nul {n : ℤ} (h : (0 : UInt8) ∈ intBytes n) :
    llBase64ToInteger [llIntegerToBase64 ([.int n] : List (SValue F))] = .int 0 :=
  base64ToInteger_short (base64_integer n) (length_cstr_lt h)

/-- Else the four bytes come back, without a sign. -/
theorem base64_integer_nonzero {n : ℤ} (h : (0 : UInt8) ∉ intBytes n) :
    llBase64ToInteger [llIntegerToBase64 ([.int n] : List (SValue F))] = .int (n%2^32) := by
  have hb := base64_integer (F := F) n
  rw [cstr_of_nul_free _ h] at hb
  have hbyte (k : ℤ) : (((k%256).toNat.toUInt8.toNat : ℕ) : ℤ) = k%256 := by
    have hlt : (k%256).toNat < 256 := by omega
    rw [show (k%256).toNat.toUInt8.toNat = (k%256).toNat%256 from UInt8.toNat_ofNat',
      Nat.mod_eq_of_lt hlt]
    omega
  rw [base64ToInteger_four hb]
  congr 1
  rw [hbyte, hbyte, hbyte, hbyte]
  omega

/-- Integers come back if and only if they are 0, or positive without a zero byte. -/
theorem base64_integer_iff (n : ℤ) (hlo : -2^31 ≤ n) (hhi : n < 2^31) :
    IntRoundTrip F n ↔ n = 0 ∨ (0 < n ∧ (0 : UInt8) ∉ intBytes n) := by
  unfold IntRoundTrip
  by_cases h : (0 : UInt8) ∈ intBytes n
  · rw [base64_integer_nul h]
    constructor
    · intro he
      exact .inl (SValue.int.inj he).symm
    · rintro (rfl | ⟨-, hn⟩)
      · rfl
      · exact absurd h hn
  · rw [base64_integer_nonzero h]
    constructor
    · intro he
      have hmod := SValue.int.inj he
      exact .inr ⟨by
        rcases lt_trichotomy n 0 with hneg | rfl | hpos
        · omega
        · exact absurd (by decide) h
        · exact hpos, h⟩
    · rintro (rfl | ⟨hpos, -⟩)
      · rfl
      · congr 1
        omega

end

/-- The integer of the tests. -/
theorem base64_integer_test : IntRoundTrip ℚ 0x01020304 :=
  (base64_integer_iff 0x01020304 (by decide) (by decide)).mpr (.inr ⟨by decide, by decide⟩)

/-- 1 comes back as 0. -/
theorem base64_integer_one : ∃ n : ℤ, -2^31 ≤ n ∧ n < 2^31 ∧ ¬ IntRoundTrip ℚ n := by
  refine ⟨1, by decide, by decide, ?_⟩
  unfold IntRoundTrip
  rw [base64_integer_nul (by decide)]
  intro h
  exact absurd (SValue.int.inj h) (by decide)

end Slemu
