import Slemu.Value

/-! `bi_llEscapeURL` and `bi_llUnescapeURL`. -/

namespace Slemu
variable {F : Type}

/-- A digit of the escapes, `H` of the source. -/
def escapeDigit (n : UInt8) : UInt8 := (lit "0123456789ABCDEF").getD n.toNat 0

def escapeByte (c : UInt8) : Bytes :=
  if isAlnum c || c == 45 || c == 95 || c == 46 || c == 126 then [c]
  else [37, escapeDigit (c >>> 4), escapeDigit (c &&& 15)]

/-- `hexd`; `none` stands for -1. -/
def hexd (c : UInt8) : Option UInt8 :=
  if 48 ≤ c && c ≤ 57 then some (c-48)
  else if 97 ≤ c && c ≤ 102 then some (c-97+10)
  else if 65 ≤ c && c ≤ 70 then some (c-65+10)
  else none

/-- The loop of `bi_llUnescapeURL`: three characters are looked at where that many are left. -/
def unescapeLoop : Bytes → Bytes
  | 37 :: x :: y :: t =>
    match hexd x, hexd y with
    | some hi, some lo => (hi <<< 4 ||| lo) :: unescapeLoop t
    | _, _ => 37 :: unescapeLoop (x :: y :: t)
  | c :: t => c :: unescapeLoop t
  | [] => []

/-- `bi_llEscapeURL` -/
def llEscapeURL (a : List (SValue F)) : SValue F := .string ((argStr a 0).flatMap escapeByte)

/-- `bi_llUnescapeURL`; a NUL that was escaped ends the string. -/
def llUnescapeURL (a : List (SValue F)) : SValue F := .string (cstr (unescapeLoop (argStr a 0)))

/-- ASCII letters, digits, and `-`, `_`, `.`, `~`. -/
def unreserved : Bytes :=
  lit "ABCDEFGHIJKLMNOPQRSTUVWXYZabcdefghijklmnopqrstuvwxyz0123456789-_.~"

def upperHex : Bytes := lit "0123456789ABCDEF"

/-- Unreserved characters and triples of a percent sign and two upper-case hexadecimal digits. -/
inductive Escaped : Bytes → Prop
  | nil : Escaped []
  | plain {c : UInt8} {t : Bytes} : c ∈ unreserved → Escaped t → Escaped (c :: t)
  | triple {x y : UInt8} {t : Bytes} : x ∈ upperHex → y ∈ upperHex → Escaped t →
    Escaped (37 :: x :: y :: t)

/-! ### One byte -/

/-- A byte stands for itself, or for a triple that is read back as the byte. -/
theorem escapeByte_cases (c : UInt8) :
    (escapeByte c = [c] ∧ c ∈ unreserved ∧ c ≠ 37) ∨
      ∃ x ∈ upperHex, ∃ y ∈ upperHex, ∃ hi lo, escapeByte c = [37, x, y] ∧
        hexd x = some hi ∧ hexd y = some lo ∧ hi <<< 4 ||| lo = c := by
  by_cases h : isAlnum c || c == 45 || c == 95 || c == 46 || c == 126
  · refine .inl ⟨if_pos h, ?_⟩
    revert c
    decide +kernel
  · have hdigit : ∀ n < 16, escapeDigit n ∈ upperHex ∧ hexd (escapeDigit n) = some n := by
      decide +kernel
    have hnibbles : c >>> 4 < 16 ∧ c &&& 15 < 16 ∧ (c >>> 4) <<< 4 ||| (c &&& 15) = c := by
      clear h
      revert c
      decide +kernel
    obtain ⟨hhi, hlo, hc⟩ := hnibbles
    exact .inr ⟨_, (hdigit _ hhi).1, _, (hdigit _ hlo).1, _, _, if_neg h, (hdigit _ hhi).2,
      (hdigit _ hlo).2, hc⟩

/-- Only a percent sign makes the decoder look ahead. -/
theorem unescapeLoop_plain {c : UInt8} (hc : c ≠ 37) (t : Bytes) :
    unescapeLoop (c :: t) = c :: unescapeLoop t := by
  rw [unescapeLoop]
  intro x y t' hct
  exact absurd hct hc

theorem unescapeLoop_triple {x y hi lo : UInt8} (hx : hexd x = some hi) (hy : hexd y = some lo)
    (t : Bytes) : unescapeLoop (37 :: x :: y :: t) = (hi <<< 4 ||| lo) :: unescapeLoop t := by
  rw [unescapeLoop, hx, hy]

theorem unescapeLoop_escapeByte (c : UInt8) (t : Bytes) :
    unescapeLoop (escapeByte c ++ t) = c :: unescapeLoop t := by
  rcases escapeByte_cases c with ⟨he, -, hc⟩ | ⟨x, -, y, -, hi, lo, he, hx, hy, hc⟩
  · rw [he]
    exact unescapeLoop_plain hc t
  · rw [he, ← hc]
    exact unescapeLoop_triple hx hy t

/-! ### Strings -/

theorem unescapeLoop_escaped (s : Bytes) : unescapeLoop (s.flatMap escapeByte) = s := by
  induction s with
  | nil => rfl
  | cons c s ih => rw [List.flatMap_cons, unescapeLoop_escapeByte, ih]

theorem escaped_flatMap (s : Bytes) : Escaped (s.flatMap escapeByte) := by
  induction s with
  | nil => exact .nil
  | cons c s ih =>
    rw [List.flatMap_cons]
    rcases escapeByte_cases c with ⟨he, hc, -⟩ | ⟨x, hx, y, hy, hi, lo, he, -⟩
    · rw [he]
      exact .plain hc ih
    · rw [he]
      exact .triple hx hy ih

/-- An escaped string is read back, and has only characters that need no escape. -/
theorem url_round_trip (s : Bytes) (hs : (0 : UInt8) ∉ s) :
    llUnescapeURL [llEscapeURL ([.string s] : List (SValue F))] = .string s ∧
      ∃ e, llEscapeURL ([.string s] : List (SValue F)) = .string e ∧ Escaped e := by
  refine ⟨?_, s.flatMap escapeByte, rfl, escaped_flatMap s⟩
  have hback : cstr (unescapeLoop (s.flatMap escapeByte)) = s := by
    rw [unescapeLoop_escaped, cstr_of_nul_free s hs]
  exact congrArg SValue.string hback

/-- A percent sign at the end, in front of what looks like an escape. -/
theorem url_round_trip_percent :
    llUnescapeURL [llEscapeURL ([.string (lit "a%20b%")] : List (SValue ℚ))] =
        .string (lit "a%20b%") ∧
      ∃ e, llEscapeURL ([.string (lit "a%20b%")] : List (SValue ℚ)) = .string e ∧ Escaped e :=
  url_round_trip (lit "a%20b%") (by decide +kernel)

end Slemu
