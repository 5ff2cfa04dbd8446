import Slemu.Md5

/-! SHA-1, with the digest of FIPS 180-1 and the one that builtins.c computes piece by piece, and
the keyed hash of RFC 2104. -/

/-! ### The digest of FIPS 180-1 -/

namespace Fips180
open BlockStream

/-- A word of bytes, the highest first. -/
def word (b : List UInt8) : UInt32 := .ofNat (Nat.ofDigits 256 (b.reverse.map UInt8.toNat))

/-- The lowest `k` bytes of a number, the highest first. -/
def bytes (k n : ℕ) : List UInt8 := ((List.range k).map fun i => .ofNat (n/256^i)).reverse

/-- `S^n(X)` -/
def S (n : ℕ) (x : UInt32) : UInt32 := ⟨x.toBitVec.rotateLeft n⟩

def f (t : ℕ) (b c d : UInt32) : UInt32 :=
  if t < 20 then b &&& c ||| ~~~b &&& d
  else if t < 40 then b ^^^ c ^^^ d
  else if t < 60 then b &&& c ||| b &&& d ||| c &&& d
  else b ^^^ c ^^^ d

def K (t : ℕ) : UInt32 :=
  if t < 20 then 0x5A827999 else if t < 40 then 0x6ED9EBA1 else if t < 60 then 0x8F1BBCDC
  else 0xCA62C1D6

/-- The words of a block, and those that follow from them. -/
def W (p : List UInt8) : ℕ → UInt32
  | t+16 => S 1 (W p (t+13) ^^^ W p (t+8) ^^^ W p (t+2) ^^^ W p t)
  | t => word ((p.drop (4*t)).take 4)

/-- `A` to `E` after step `t`. -/
def step (p : List UInt8) (q : Vector UInt32 5) (t : ℕ) : Vector UInt32 5 :=
  #v[S 5 q[0] + f t q[1] q[2] q[3] + q[4] + W p t + K t, q[0], S 30 q[1], q[2], q[3]]

def compress (q : Vector UInt32 5) (p : List UInt8) : Vector UInt32 5 :=
  q.zipWith (· + ·) ((List.range 80).foldl (step p) q)

def start : Vector UInt32 5 := #v[0x67452301, 0xEFCDAB89, 0x98BADCFE, 0x10325476, 0xC3D2E1F0]

/-- The message digest; the field of the padding is the message's length in bits. -/
def sha1 (m : List UInt8) : List UInt8 :=
  let q := (blocks 64 (padded 64 0x80 0 (bytes 8 (8*m.length)) m)).foldl compress start
  q.toList.flatMap fun x => bytes 4 x.toNat

end Fips180

/-! ### The keyed hash of RFC 2104 -/

namespace Rfc2104

/-- `H(K XOR opad, H(K XOR ipad, text))`, for blocks of `B` bytes; a longer key is hashed first,
and a shorter one filled up with zeros. -/
def hmac (H : List UInt8 → List UInt8) (B : ℕ) (key text : List UInt8) : List UInt8 :=
  let k := if B < key.length then H key else key
  let k := k ++ List.replicate (B-k.length) 0
  H (k.map (· ^^^ 0x5C) ++ H (k.map (· ^^^ 0x36) ++ text))

end Rfc2104

/-! ### `sha1_block` -/

namespace Slemu
open BlockStream

/-- `W[i]`, of the first sixteen -/
def sha1Word (p : Bytes) (i : ℕ) : UInt32 :=
  (p.getD (i*4) 0).toUInt32 <<< 24 ||| (p.getD (i*4+1) 0).toUInt32 <<< 16 |||
    (p.getD (i*4+2) 0).toUInt32 <<< 8 ||| (p.getD (i*4+3) 0).toUInt32

/-- `W` -/
def sha1Words (p : Bytes) : List UInt32 :=
  (List.range' 16 64).foldl (fun W i => W ++ [rotl32
    (W.getD (i-3) 0 ^^^ W.getD (i-8) 0 ^^^ W.getD (i-14) 0 ^^^ W.getD (i-16) 0) 1])
    ((List.range 16).map (sha1Word p))

structure Sha1Regs where
  a : UInt32
  b : UInt32
  cc : UInt32
  d : UInt32
  e : UInt32

/-- `f` and `k` of turn `i`. -/
def sha1Pick (r : Sha1Regs) (i : ℕ) : UInt32 × UInt32 :=
  if i < 20 then (r.b &&& r.cc ||| ~~~r.b &&& r.d, 0x5A827999)
  else if i < 40 then (r.b ^^^ r.cc ^^^ r.d, 0x6ED9EBA1)
  else if i < 60 then (r.b &&& r.cc ||| r.b &&& r.d ||| r.cc &&& r.d, 0x8F1BBCDC)
  else (r.b ^^^ r.cc ^^^ r.d, 0xCA62C1D6)

/-- A turn of the loop of `sha1_block`. -/
def sha1Turn (W : List UInt32) (r : Sha1Regs) (i : ℕ) : Sha1Regs :=
  let q := sha1Pick r i
  ⟨rotl32 r.a 5 + q.1 + r.e + q.2 + W.getD i 0, r.a, rotl32 r.b 30, r.cc, r.d⟩

/-- `sha1_block`, on the words `s`. -/
def sha1Block (s : Vector UInt32 5) (p : Bytes) : Vector UInt32 5 :=
  let r := (List.range 80).foldl (sha1Turn (sha1Words p)) ⟨s[0], s[1], s[2], s[3], s[4]⟩
  #v[s[0]+r.a, s[1]+r.b, s[2]+r.cc, s[3]+r.d, s[4]+r.e]

theorem sha1Word_eq {p : Bytes} {i : ℕ} (hi : i < 16) (h : 4*i+4 ≤ p.length) :
    sha1Word p i = Fips180.W p i := by
  have hw (a b c d : UInt8) : a.toUInt32 <<< 24 ||| b.toUInt32 <<< 16 ||| c.toUInt32 <<< 8 |||
      d.toUInt32 = Fips180.word [a, b, c, d] := by
    change _ = Rfc1321.word [d, c, b, a]
    rw [← or_bytes, UInt32.or_comm _ d.toUInt32, UInt32.or_comm _ (c.toUInt32 <<< 8),
      UInt32.or_comm (a.toUInt32 <<< 24), ← UInt32.or_assoc, ← UInt32.or_assoc]
  have hW : Fips180.W p i = Fips180.word ((p.drop (4*i)).take 4) := by
    rw [Fips180.W]
    omega
  unfold sha1Word
  rw [hw, hW, take_four h, Nat.mul_comm]

theorem getD_words (p : Bytes) {n k : ℕ} (hk : k < n) :
    ((List.range n).map (Fips180.W p)).getD k 0 = Fips180.W p k := by
  rw [List.getD_eq_getElem?_getD, List.getElem?_map, List.getElem?_range hk]
  rfl

/-- The words of the code are those of the standard. -/
theorem sha1Words_eq {p : Bytes} (hp : p.length = 64) :
    sha1Words p = (List.range 80).map (Fips180.W p) := by
  have hfirst : (List.range 16).map (sha1Word p) = (List.range 16).map (Fips180.W p) := by
    apply List.map_congr_left
    intro i hi
    have hi16 : i < 16 := List.mem_range.mp hi
    exact sha1Word_eq hi16 (by omega)
  have hloop (n : ℕ) : (List.range' 16 n).foldl (fun W i => W ++ [rotl32
      (W.getD (i-3) 0 ^^^ W.getD (i-8) 0 ^^^ W.getD (i-14) 0 ^^^ W.getD (i-16) 0) 1])
      ((List.range 16).map (Fips180.W p)) = (List.range (16+n)).map (Fips180.W p) := by
    induction n with
    | zero => rfl
    | succ n ih =>
      -- a new word is made of four that are there already
      have hW : Fips180.W p (16+n) = Fips180.S 1 (Fips180.W p (n+13) ^^^ Fips180.W p (n+8) ^^^
          Fips180.W p (n+2) ^^^ Fips180.W p n) := by
        rw [Nat.add_comm, Fips180.W]
      rw [List.range'_1_concat, List.foldl_append, ih, ← Nat.add_assoc, List.range_succ,
        List.map_append, List.map_singleton, hW]
      change _ ++ [rotl32 _ 1] = _
      rw [getD_words p (by omega), getD_words p (by omega), getD_words p (by omega),
        getD_words p (by omega), rotl32_eq _ (by decide) (by decide)]
      have h3 : 16+n-3 = n+13 := by omega
      have h8 : 16+n-8 = n+8 := by omega
      have h14 : 16+n-14 = n+2 := by omega
      rw [h3, h8, h14, Nat.add_sub_cancel_left]
      rfl
  unfold sha1Words
  rw [hfirst]
  exact hloop 64

theorem sha1Pick_eq (r : Sha1Regs) (i : ℕ) :
    sha1Pick r i = (Fips180.f i r.b r.cc r.d, Fips180.K i) := by
  unfold sha1Pick Fips180.f Fips180.K
  split_ifs
  all_goals rfl

def Sha1Regs.toVector (r : Sha1Regs) : Vector UInt32 5 := #v[r.a, r.b, r.cc, r.d, r.e]

/-- A turn of the code is a step of the standard. -/
theorem sha1Turn_eq {p : Bytes} {M : List UInt32} (r : Sha1Regs) {i : ℕ}
    (hM : M.getD i 0 = Fips180.W p i) :
    (sha1Turn M r i).toVector = Fips180.step p r.toVector i := by
  unfold sha1Turn
  rw [sha1Pick_eq, hM]
  dsimp only
  -- the code adds the word last
  rw [rotl32_eq _ (by decide) (by decide), rotl32_eq _ (by decide) (by decide),
    UInt32.add_assoc _ (Fips180.K i), UInt32.add_comm (Fips180.K i),
    ← UInt32.add_assoc _ _ (Fips180.K i)]
  rfl

theorem sha1Turns_eq {p : Bytes} {M : List UInt32} (r : Sha1Regs) (n : ℕ)
    (hM : ∀ i < n, M.getD i 0 = Fips180.W p i) :
    ((List.range n).foldl (sha1Turn M) r).toVector =
      (List.range n).foldl (Fips180.step p) r.toVector := by
  induction n with
  | zero => rfl
  | succ n ih =>
    rw [List.range_succ, List.foldl_append, List.foldl_append,
      ← ih fun i hi => hM i (Nat.lt_succ_of_lt hi)]
    exact sha1Turn_eq _ (hM n (Nat.lt_succ_self n))

theorem toVector_words (s : Vector UInt32 5) :
    (⟨s[0], s[1], s[2], s[3], s[4]⟩ : Sha1Regs).toVector = s := by
  apply Vector.ext
  intro j hj
  match j with
  | 0 | 1 | 2 | 3 | 4 => rfl

theorem Sha1Regs.add (s : Vector UInt32 5) (r : Sha1Regs) :
    #v[s[0]+r.a, s[1]+r.b, s[2]+r.cc, s[3]+r.d, s[4]+r.e] = s.zipWith (· + ·) r.toVector := by
  apply Vector.ext
  intro j hj
  rw [Vector.getElem_zipWith]
  match j with
  | 0 | 1 | 2 | 3 | 4 => rfl

/-- `sha1_block` is the compression of the standard. -/
theorem sha1Block_eq (s : Vector UInt32 5) {p : Bytes} (hp : p.length = 64) :
    sha1Block s p = Fips180.compress s p := by
  have hM : ∀ i < 80, (sha1Words p).getD i 0 = Fips180.W p i := by
    intro i hi
    rw [sha1Words_eq hp]
    exact getD_words p hi
  have hend := sha1Turns_eq ⟨s[0], s[1], s[2], s[3], s[4]⟩ 80 hM
  have hstart := congrArg (fun q => (List.range 80).foldl (Fips180.step p) q) (toVector_words s)
  exact (Sha1Regs.add s _).trans (congrArg _ (hend.trans hstart))

/-! ### The message in pieces -/

/-- `SHA1`; the stream has `s`, `buf` and `buf_used`. -/
structure Sha1 extends Stream 64 UInt8 (Vector UInt32 5) where
  bits : UInt64

/-- `sha1_init`; what is in the buffer stays. -/
def sha1Init (c : Sha1) : Sha1 :=
  { c with
    words := #v[0x67452301, 0xEFCDAB89, 0x98BADCFE, 0x10325476, 0xC3D2E1F0]
    bits := 0
    used := 0
    used_lt := by decide }

/-- `sha1_update` -/
def sha1Update (c : Sha1) (data : Bytes) : Sha1 where
  toStream := c.toStream.update sha1Block data
  bits := c.bits + .ofNat data.length * 8

/-- `sha1_final` -/
def sha1Final (c : Sha1) : Bytes :=
  let field := (List.range 8).reverse.map fun i => (c.bits >>> .ofNat (i*8)).toUInt8
  let s := c.toStream.finish sha1Block 0x80 0 field
  s.toList.flatMap fun x => (List.range 4).reverse.map fun j => (x >>> .ofNat (j*8)).toUInt8

theorem bytes32_reverse (x : UInt32) :
    ((List.range 4).reverse.map fun j => (x >>> .ofNat (j*8)).toUInt8) =
      Fips180.bytes 4 x.toNat := by
  rw [List.map_reverse, bytes32]
  rfl

theorem bytes64_reverse (x : UInt64) :
    ((List.range 8).reverse.map fun i => (x >>> .ofNat (i*8)).toUInt8) =
      Fips180.bytes 8 x.toNat := by
  rw [List.map_reverse, bytes64]
  rfl

/-- Eight bytes are of the number modulo `2^64`. -/
theorem bytes_mod (n : ℕ) : Fips180.bytes 8 (n%2^64) = Fips180.bytes 8 n := by
  unfold Fips180.bytes
  apply congrArg
  apply List.map_congr_left
  intro i hi
  obtain ⟨k, hk⟩ : ∃ k, 8 = i+(k+1) := ⟨7-i, by have := List.mem_range.mp hi; omega⟩
  have hpow : 2^64 = 256^i*256^(k+1) := by
    rw [← Nat.pow_add, ← hk]
    decide
  apply UInt8.toNat_inj.mp
  rw [UInt8.toNat_ofNat', UInt8.toNat_ofNat', hpow, Nat.mod_mul_right_div_self]
  exact Nat.mod_mod_of_dvd _ (Dvd.intro_left (256^k) rfl)

/-- A digest under way: the stream has taken the message in, and `bits` counts it. -/
structure Sha1.Took (c : Sha1) (m : Bytes) : Prop where
  stream : c.toStream.Took sha1Block Fips180.start m
  bits : c.bits.toNat = 8*m.length%2^64

theorem sha1Init_took (c : Sha1) : (sha1Init c).Took [] := ⟨took_nil rfl rfl, rfl⟩

theorem Sha1.Took.update {c : Sha1} {m : Bytes} (d : Bytes) (h : c.Took m) :
    (sha1Update c d).Took (m ++ d) := by
  refine ⟨took_update h.stream, ?_⟩
  change (c.bits + .ofNat d.length * 8).toNat = _
  rw [UInt64.toNat_add, UInt64.toNat_mul, UInt64.toNat_ofNat', h.bits, List.length_append]
  change (8*m.length%2^64+d.length%2^64*8%2^64)%2^64 = _
  omega

/-- The digest of what has been taken in. -/
theorem Sha1.Took.final {c : Sha1} {m : Bytes} (h : c.Took m) : sha1Final c = Fips180.sha1 m := by
  have hfield : (Fips180.bytes 8 (8*m.length)).length < 64 := by
    unfold Fips180.bytes
    rw [List.length_reverse, List.length_map, List.length_range]
    decide
  unfold sha1Final Fips180.sha1
  dsimp only
  rw [bytes64_reverse, h.bits, bytes_mod, finish_took hfield h.stream,
    foldl_blocks (fun x b hb => sha1Block_eq x hb)]
  simp only [bytes32_reverse]

/-- The message in pieces has the digest of the standard, wherever it is cut. -/
theorem sha1_pieces (c : Sha1) (ps : List Bytes) :
    sha1Final (ps.foldl sha1Update (sha1Init c)) = Fips180.sha1 ps.flatten :=
  (foldl_pieces (fun _ _ d hc => hc.update d) (sha1Init_took c)).final

end Slemu
