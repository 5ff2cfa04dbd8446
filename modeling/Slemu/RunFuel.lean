import Slemu.RunLogic

/-! Programs that take fuel: more fuel changes nothing but an end for want of fuel, and rules for
programs that come to an end, or to a state with some property, if there is enough fuel. -/

namespace Run
variable {σ α β : Type}

/-! ### More fuel -/

/-- `n` does what `m` does, unless `m` ends for want of fuel. -/
def Approx (m n : Run σ α) : Prop := ∀ s, (m s).1 ≠ .error .fuel → n s = m s

namespace Approx

theorem refl (m : Run σ α) : Approx m m := fun _ _ => rfl

theorem trans {l m n : Run σ α} (h : Approx l m) (h' : Approx m n) : Approx l n := by
  intro s hs
  have hm := h s hs
  rw [← hm] at hs ⊢
  exact h' s hs

theorem fuel (n : Run σ α) : Approx (fail .fuel) n := fun _ hs => absurd rfl hs

theorem bind {m n : Run σ α} {f g : α → Run σ β} (hm : Approx m n)
    (hf : ∀ a, Approx (f a) (g a)) : Approx (m >>= f) (n >>= g) := by
  intro s hs
  rcases bind_cases m f s with ⟨e, t, he, hb⟩ | ⟨a, t, ha, hb⟩
  · rw [hb] at hs ⊢
    have hn : n s = (.error e, t) := by
      rw [hm s (by rw [he]; exact fun h => hs (by cases h; rfl)), he]
    exact bind_error hn g
  · rw [hb] at hs ⊢
    have hn : n s = (.ok a, t) := by
      rw [hm s (by rw [ha]; exact fun h => by cases h), ha]
    rw [bind_ok hn]
    exact hf a t hs

/-- Once there is enough fuel, nothing changes any more. -/
theorem of_le {f : ℕ → Run σ α} (h : ∀ n, Approx (f n) (f (n+1))) {N n : ℕ} (hn : N ≤ n) :
    Approx (f N) (f n) := by
  induction n, hn using Nat.le_induction with
  | base => exact refl _
  | succ n _ ih => exact ih.trans (h n)

end Approx

/-! ### Enough fuel -/

/-- The property is never lost. -/
def Stable (X : σ → Prop) (m : Run σ α) : Prop := Keeps (fun s t => X s → X t) m

/-- With enough fuel, the program comes to an end with `Q`, or to a fault, or to `X`. -/
def Ends (X : σ → Prop) (f : ℕ → Run σ α) (Q : α → σ → Prop) (s : σ) : Prop :=
  ∃ N, (∃ a t, Q a t ∧ ∀ n ≥ N, f n s = (.ok a, t)) ∨ (∀ n ≥ N, (f n s).1 = .error .fault) ∨
    ∀ n ≥ N, X (f n s).2

variable {X : σ → Prop}

namespace Ends
variable {f : ℕ → Run σ α} {g : ℕ → α → Run σ β} {Q Q' : α → σ → Prop} {R : β → σ → Prop} {s : σ}

theorem const {m : Run σ α} {a : α} {t : σ} (hm : m s = (.ok a, t)) (hq : Q a t) :
    Ends X (fun _ => m) Q s := ⟨0, Or.inl ⟨a, t, hq, fun _ _ => hm⟩⟩

theorem congr {f' : ℕ → Run σ α} {t : σ} (h : ∀ n, f n s = f' n t) (hf : Ends X f' Q t) :
    Ends X f Q s := by
  unfold Ends
  simp only [h]
  exact hf

theorem fault : Ends X (fun _ => fail .fault) Q s := ⟨0, Or.inr (Or.inl fun _ _ => rfl)⟩

theorem mono (h : Ends X f Q s) (hq : ∀ a t, Q a t → Q' a t) : Ends X f Q' s := by
  obtain ⟨N, ⟨a, t, ha, hf⟩ | hf⟩ := h
  · exact ⟨N, Or.inl ⟨a, t, hq a t ha, hf⟩⟩
  · exact ⟨N, Or.inr hf⟩

/-- One round of recursion costs one unit. -/
theorem succ (h : Ends X (fun n => f (n+1)) Q s) : Ends X f Q s := by
  have hpred {N n : ℕ} (hn : n ≥ N+1) : ∃ k, n = k+1 ∧ k ≥ N := ⟨n-1, by omega, by omega⟩
  obtain ⟨N, ⟨a, t, ha, hf⟩ | hf | hf⟩ := h
  · refine ⟨N+1, Or.inl ⟨a, t, ha, fun n hn => ?_⟩⟩
    obtain ⟨k, rfl, hk⟩ := hpred hn
    exact hf k hk
  · refine ⟨N+1, Or.inr (Or.inl fun n hn => ?_)⟩
    obtain ⟨k, rfl, hk⟩ := hpred hn
    exact hf k hk
  · refine ⟨N+1, Or.inr (Or.inr fun n hn => ?_)⟩
    obtain ⟨k, rfl, hk⟩ := hpred hn
    exact hf k hk

theorem of_stable (hf : ∀ n, Stable X (f n)) (hx : X s) : Ends X f Q s :=
  ⟨0, Or.inr (Or.inr fun n _ => hf n s hx)⟩

theorem bind (hf : Ends X f Q s) (hst : ∀ n a, Stable X (g n a))
    (hg : ∀ a t, Q a t → Ends X (fun n => g n a) R t) :
    Ends X (fun n => f n >>= g n) R s := by
  obtain ⟨N, ⟨a, t, ha, hf⟩ | hf | hf⟩ := hf
  · obtain ⟨N', hN'⟩ := hg a t ha
    have hb (n : ℕ) (hn : n ≥ max N N') : (f n >>= g n) s = g n a t :=
      bind_ok (hf n (le_of_max_le_left hn)) (g n)
    refine ⟨max N N', ?_⟩
    rcases hN' with ⟨b, u, hu, hg⟩ | hg | hg
    · refine Or.inl ⟨b, u, hu, fun n hn => ?_⟩
      rw [hb n hn]
      exact hg n (le_of_max_le_right hn)
    · refine Or.inr (Or.inl fun n hn => ?_)
      rw [hb n hn]
      exact hg n (le_of_max_le_right hn)
    · refine Or.inr (Or.inr fun n hn => ?_)
      rw [hb n hn]
      exact hg n (le_of_max_le_right hn)
  · refine ⟨N, Or.inr (Or.inl fun n hn => ?_)⟩
    have h := hf n hn
    rcases bind_cases (f n) (g n) s with ⟨e, t, he, hb⟩ | ⟨a, t, ha, hb⟩
    · rw [he] at h
      rw [hb]
      exact congrArg _ (Except.error.inj h)
    · rw [ha] at h
      cases h
  · refine ⟨N, Or.inr (Or.inr fun n hn => ?_)⟩
    have h := hf n hn
    rcases bind_cases (f n) (g n) s with ⟨e, t, he, hb⟩ | ⟨a, t, ha, hb⟩
    · rw [hb]
      rwa [he] at h
    · rw [hb]
      rw [ha] at h
      exact hst n a t h

/-- Without `X`, some amount of fuel is enough. -/
theorem exists_fuel (h : Ends X f Q s) (hx : ∀ n, ¬ X (f n s).2) :
    ∃ n, (f n s).1 ≠ .error .fuel := by
  obtain ⟨N, ⟨a, t, -, hf⟩ | hf | hf⟩ := h
  · refine ⟨N, ?_⟩
    rw [hf N le_rfl]
    exact fun h => by cases h
  · refine ⟨N, ?_⟩
    rw [hf N le_rfl]
    exact fun h => by cases h
  · exact absurd (hf N le_rfl) (hx N)

end Ends

end Run
