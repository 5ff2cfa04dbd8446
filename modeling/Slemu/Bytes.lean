import Mathlib

/-! Byte strings of the C sources and the library functions they go through. -/

namespace Slemu

/-- The bytes of a C string, without its terminating NUL. -/
abbrev Bytes := List UInt8

/-- The bytes of a string literal of the source. -/
def lit (s : String) : Bytes := s.toList.map fun c => c.toNat.toUInt8

/-- What `strlen` and the functions built on it see of a buffer: the part before the first NUL. -/
def cstr (b : Bytes) : Bytes := b.takeWhile (· ≠ 0)

theorem cstr_of_nul_free (b : Bytes) (h : (0 : UInt8) ∉ b) : cstr b = b := by
  unfold cstr
  apply List.takeWhile_eq_self_iff.mpr
  intro c hc
  simp only [ne_eq, decide_not, Bool.not_eq_true', decide_eq_false_iff_not]
  rintro rfl
  exact h hc

def isDigit (c : UInt8) : Bool := 48 ≤ c && c ≤ 57

/-- `isalnum` of `<ctype.h>` in the C locale. -/
def isAlnum (c : UInt8) : Bool :=
  isDigit c || (65 ≤ c && c ≤ 90) || (97 ≤ c && c ≤ 122)

/-- `isspace` of `<ctype.h>` in the C locale. -/
def isSpace (c : UInt8) : Bool := c == 32 || (9 ≤ c && c ≤ 13)

/-- The value of a digit in bases up to 36, and 36 for any other byte. -/
def digitVal (c : UInt8) : ℕ :=
  if isDigit c then c.toNat-48
  else if 97 ≤ c && c ≤ 122 then c.toNat-87
  else if 65 ≤ c && c ≤ 90 then c.toNat-55
  else 36

/-- `LLONG_MIN` and `LLONG_MAX`. -/
def llongMin : ℤ := -2^63
def llongMax : ℤ := 2^63-1

/-- An optional sign in front of a number. -/
def scanSign : Bytes → Bool × Bytes
  | 45 :: t => (true, t)
  | 43 :: t => (false, t)
  | s => (false, s)

/-- Base detection of `strtoll`: base 0 reads a `0x` prefix as hexadecimal and a
leading `0` as octal. -/
def scanBase (base : ℕ) (s : Bytes) : ℕ × Bytes :=
  match base, s with
  | 0, 48 :: x :: d :: t =>
    if (x == 120 || x == 88) && digitVal d < 16 then (16, d :: t) else (8, s)
  | 0, 48 :: _ => (8, s)
  | 0, _ => (10, s)
  | _, _ => (base, s)

/-- `strtoll(s, NULL, base)` for base 0 and base 10. -/
def strtoll (base : ℕ) (s : Bytes) : ℤ :=
  let (neg, s) := scanSign (s.dropWhile isSpace)
  let (base, s) := scanBase base s
  let n := (s.takeWhile fun c => digitVal c < base).foldl (fun n c => n*base+digitVal c) 0
  max llongMin (min llongMax (if neg then -(n : ℤ) else n))

/-- A conversion to the C type `int`: the value modulo `2^32`, taken in the signed range. -/
def toCInt (i : ℤ) : ℤ := (i+2^31)%2^32-2^31

theorem toCInt_eq {i : ℤ} (h : -2^31 ≤ i) (h' : i < 2^31) : toCInt i = i := by
  unfold toCInt
  omega

theorem toCInt_int32 (i : Int32) : toCInt i.toInt = i.toInt :=
  toCInt_eq i.le_toInt i.toInt_lt

/-- `atoi`, as glibc computes it: `strtol` cut down to an `int`. -/
def atoi (s : Bytes) : ℤ := toCInt (strtoll 10 s)

/-- Bit `k` of a two's complement integer. -/
def hasBit (i : ℤ) (k : ℕ) : Bool := i/2^k%2 == 1

/-- `%lld`. -/
def decBytes (i : ℤ) : Bytes :=
  let d := (Nat.toDigits 10 i.natAbs).map fun c => c.toNat.toUInt8
  if i < 0 then 45 :: d else d

/-- Lower-case hexadecimal digits, padded with zeros to a width. -/
def hexBytes (width n : ℕ) : Bytes :=
  let d := (Nat.toDigits 16 n).map fun c => c.toNat.toUInt8
  List.replicate (width-d.length) 48 ++ d

/-- `strstr(h, p) != NULL`. -/
def containsBytes (h p : Bytes) : Bool := h.tails.any fun t => p.isPrefixOf t

/-- `next_tok` of commands.c: skips blanks, returns the next word and what follows the
blank after it, or `none` at the end of the line. -/
def nextTok (p : Bytes) : Option Bytes × Bytes :=
  match p.dropWhile fun c => c == 32 || c == 9 with
  | [] => (none, [])
  | q => (some (q.takeWhile fun c => !(c == 32 || c == 9)),
      (q.dropWhile fun c => !(c == 32 || c == 9)).tail)

/-- `rest_of_line` of commands.c. -/
def restOfLine (p : Bytes) : Bytes := p.dropWhile fun c => c == 32 || c == 9

def nullKey : Bytes := lit "00000000-0000-0000-0000-000000000000"

end Slemu
