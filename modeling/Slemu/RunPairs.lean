import Slemu.RunLogic

/-! Rules for two runs side by side, from states in a relation. -/

namespace Run
variable {σ τ α β : Type}

/-- If both programs come to their ends, they have the same result, and their states are in
relation `P` again. -/
def Agree (P : σ → τ → Prop) (m : Run σ α) (n : Run τ α) : Prop :=
  ∀ s t a b s' t', P s t → m s = (.ok a, s') → n t = (.ok b, t') → a = b ∧ P s' t'

namespace Agree
variable {P : σ → τ → Prop}

theorem pure (a : α) : Agree P (pure a : Run σ α) (pure a : Run τ α) := by
  intro s t b c s' t' hp hm hn
  cases hm
  cases hn
  exact ⟨rfl, hp⟩

theorem fail_left (e : Stop) (n : Run τ α) : Agree P (fail e : Run σ α) n := by
  intro s t b c s' t' hp hm hn
  cases hm

theorem fail_right (m : Run σ α) (e : Stop) : Agree P m (fail e : Run τ α) := by
  intro s t b c s' t' hp hm hn
  cases hn

theorem read {f : σ → α} {g : τ → α} (h : ∀ s t, P s t → f s = g t) :
    Agree P (read f) (read g) := by
  intro s t b c s' t' hp hm hn
  cases hm
  cases hn
  exact ⟨h s t hp, hp⟩

theorem update {f : σ → σ} {g : τ → τ} (h : ∀ s t, P s t → P (f s) (g t)) :
    Agree P (update f) (update g) := by
  intro s t b c s' t' hp hm hn
  cases hm
  cases hn
  exact ⟨rfl, h s t hp⟩

theorem bind {m : Run σ α} {n : Run τ α} {f : α → Run σ β} {g : α → Run τ β}
    (hm : Agree P m n) (hf : ∀ a, Agree P (f a) (g a)) : Agree P (m >>= f) (n >>= g) := by
  intro s t b c s' t' hp hs ht
  obtain ⟨a, u, hmu, hfu⟩ := of_bind_ok hs
  obtain ⟨a', v, hnv, hgv⟩ := of_bind_ok ht
  -- the first parts agree, so the second parts start from the same value
  obtain ⟨rfl, hp'⟩ := hm s t a a' u v hp hmu hnv
  exact hf a u v b c s' t' hp' hfu hgv

theorem ite {p : Prop} [Decidable p] {m m' : Run σ α} {n n' : Run τ α} (h : Agree P m n)
    (h' : Agree P m' n') : Agree P (if p then m else m') (if p then n else n') := by
  split
  · exact h
  · exact h'

end Agree

end Run
