import Mathlib

/-! Ledgers: finitely supported balances over any kind of account, and what payments
between accounts do to the total and to the sign of the balances. -/

namespace Ledger
variable {κ M : Type*}

section Group
variable [AddCommGroup M]

/-- Moves `m` from account `src` to account `dst`. -/
noncomputable def transfer (l : κ →₀ M) (src dst : κ) (m : M) : κ →₀ M :=
  l-Finsupp.single src m+Finsupp.single dst m

@[simp] theorem transfer_self (l : κ →₀ M) (a : κ) (m : M) : transfer l a a m = l := by
  simp only [transfer, sub_add_cancel]

theorem degree_transfer (l : κ →₀ M) (src dst : κ) (m : M) :
    (transfer l src dst m).degree = l.degree := by
  simp only [transfer, map_add, map_sub, Finsupp.degree_single, sub_add_cancel]

theorem transfer_src (l : κ →₀ M) (src dst : κ) (m : M) (h : src ≠ dst) :
    transfer l src dst m src = l src-m := by
  simp only [transfer, Finsupp.add_apply, Finsupp.sub_apply, Finsupp.single_eq_same,
    Finsupp.single_eq_of_ne h, add_zero]

theorem transfer_dst (l : κ →₀ M) (src dst : κ) (m : M) (h : src ≠ dst) :
    transfer l src dst m dst = l dst+m := by
  simp only [transfer, Finsupp.add_apply, Finsupp.sub_apply, Finsupp.single_eq_same,
    Finsupp.single_eq_of_ne h.symm, sub_zero]

theorem transfer_other (l : κ →₀ M) (src dst k : κ) (m : M) (hs : k ≠ src) (hd : k ≠ dst) :
    transfer l src dst m k = l k := by
  simp only [transfer, Finsupp.add_apply, Finsupp.sub_apply, Finsupp.single_eq_of_ne hs,
    Finsupp.single_eq_of_ne hd, sub_zero, add_zero]

end Group

section Order
variable [AddCommGroup M] [LinearOrder M] [IsOrderedAddMonoid M]

/-- No account is overdrawn. -/
def Solvent (l : κ →₀ M) : Prop := ∀ k, 0 ≤ l k

/-- A payment covered by the payer's balance keeps every account solvent, as long as it is
not a negative payment to somebody else. -/
theorem Solvent.transfer {l : κ →₀ M} (hl : Solvent l) (src dst : κ) (m : M)
    (hm : m ≤ l src) (hneg : 0 ≤ m ∨ src = dst) : Solvent (transfer l src dst m) := by
  intro k
  by_cases hsd : src = dst
  · rw [← hsd, transfer_self]
    exact hl k
  · have hm0 : 0 ≤ m := hneg.resolve_right hsd
    by_cases hks : k = src
    · rw [hks, transfer_src l src dst m hsd]
      exact sub_nonneg.mpr hm
    · by_cases hkd : k = dst
      · rw [hkd, transfer_dst l src dst m hsd]
        exact add_nonneg (hl dst) hm0
      · rw [transfer_other l src dst k m hks hkd]
        exact hl k

/-- The recipient is never worse off exactly when the payment is not a negative one to
somebody else. -/
theorem le_transfer_dst (l : κ →₀ M) (src dst : κ) (m : M) :
    l dst ≤ transfer l src dst m dst ↔ 0 ≤ m ∨ src = dst := by
  by_cases hsd : src = dst
  · simp only [hsd, transfer_self, le_refl, or_true]
  · rw [transfer_dst l src dst m hsd]
    simp only [hsd, or_false, le_add_iff_nonneg_right]

end Order

end Ledger
