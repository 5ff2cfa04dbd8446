import Slemu.Bytes
import Slemu.Json

/-! The decimal digits that `%d` and `%lld` print. -/

namespace Slemu

theorem digitChar_facts (c : Char) (h : c.isDigit) :
    isDigit c.toNat.toUInt8 ∧ digitVal c.toNat.toUInt8 = c.toNat-48 := by
  have hc : 48 ≤ c.toNat ∧ c.toNat ≤ 57 := by
    simpa [Char.isDigit, UInt32.le_iff_toNat_le] using h
  obtain ⟨n, hn⟩ : ∃ n, c.toNat = n := ⟨_, rfl⟩
  rw [hn] at hc ⊢
  obtain ⟨h1, h2⟩ := hc
  interval_cases n <;> exact ⟨rfl, rfl⟩

/-- The digits of a number. -/
def digits (n : ℕ) : Bytes := (Nat.toDigits 10 n).map fun c => c.toNat.toUInt8

theorem isDigit_digits (n : ℕ) (c : UInt8) (h : c ∈ digits n) : isDigit c := by
  obtain ⟨d, hd, rfl⟩ := List.mem_map.mp h
  exact (digitChar_facts d (Nat.isDigit_of_mem_toDigits (by omega) le_rfl hd)).1

theorem foldl_digits (n : ℕ) : (digits n).foldl (fun n c => n*10+digitVal c) 0 = n := by
  have h (cs : List Char) (hcs : ∀ c ∈ cs, c.isDigit) (k : ℕ) :
      (cs.map fun c => c.toNat.toUInt8).foldl (fun n c => n*10+digitVal c) k =
        Nat.ofDigitChars 10 cs k := by
    induction cs generalizing k with
    | nil => rfl
    | cons c cs ih =>
      rw [List.map_cons, List.foldl_cons, ih (fun d hd => hcs d (List.mem_cons_of_mem _ hd)),
        Nat.ofDigitChars_cons, (digitChar_facts c (hcs c List.mem_cons_self)).2, Nat.mul_comm]
      rfl
  rw [digits, h _ (fun c hc => Nat.isDigit_of_mem_toDigits (by omega) le_rfl hc),
    Nat.ofDigitChars_toDigits (by omega) le_rfl]

example : digits 9070 = [57, 48, 55, 48] := by decide +kernel

/-- A digit is no blank, no sign, and below 10. -/
theorem isDigit_facts (c : UInt8) (h : isDigit c) :
    isSpace c = false ∧ c ≠ 45 ∧ c ≠ 43 ∧ digitVal c < 10 := by
  have hc : 48 ≤ c.toNat ∧ c.toNat ≤ 57 := by
    simpa [isDigit, UInt8.le_iff_toNat_le] using h
  obtain ⟨n, hn⟩ : ∃ n, c.toNat = n := ⟨_, rfl⟩
  rw [hn] at hc
  obtain ⟨h1, h2⟩ := hc
  obtain rfl : c = UInt8.ofNat n := by rw [← hn, UInt8.ofNat_toNat]
  interval_cases n <;> decide

theorem digits_ne_nil (n : ℕ) : digits n ≠ [] := by
  simp [digits]

theorem digits_step (n : ℕ) (hn : 10 ≤ n) :
    digits n = digits (n/10) ++ [(Nat.digitChar (n%10)).toNat.toUInt8] := by
  have h := Nat.toDigits_append_toDigits (b := 10) (n := n/10) (d := n%10) (by omega) (by omega)
    (Nat.mod_lt n (by omega))
  rw [Nat.div_add_mod, Nat.toDigits_of_lt_base (Nat.mod_lt n (by omega))] at h
  rw [digits, ← h, List.map_append]
  rfl

/-- Only zero has a leading zero. -/
theorem digits_head (n : ℕ) (h : (digits n).head? = some 48) : digits n = [48] := by
  induction n using Nat.strong_induction_on with
  | _ n ih =>
    rcases Nat.lt_or_ge n 10 with hn | hn
    · have hd : ∀ n < 10, (digits n).head? = some 48 → digits n = [48] := by decide +kernel
      exact hd n hn h
    · rw [digits_step n hn, List.head?_append_of_ne_nil _ (digits_ne_nil _)] at h
      have hz := ih (n/10) (by omega) h
      have hv := foldl_digits (n/10)
      rw [hz] at hv
      have h0 : n/10 = 0 := hv.symm
      omega

theorem decBytes_eq (i : ℤ) :
    decBytes i = if i < 0 then 45 :: digits i.natAbs else digits i.natAbs := rfl

/-- An integer as `%lld` prints it. -/
def decNum (i : ℤ) : Json.Num where
  neg := i < 0
  int := ⟨digits i.natAbs, digits_ne_nil _, isDigit_digits _⟩
  noLeadingZero := digits_head _
  frac := none
  exp := none

theorem decNum_text (i : ℤ) : (decNum i).text = decBytes i := by
  rw [decBytes_eq, Json.Num.text]
  by_cases hi : i < 0
  · simp [decNum, Json.Num.fracText, Json.Num.expText, hi]
  · simp [decNum, Json.Num.fracText, Json.Num.expText, hi]

end Slemu
