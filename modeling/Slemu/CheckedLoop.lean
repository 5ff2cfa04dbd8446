import Mathlib.Logic.Relation
import Mathlib.Order.Basic

/-! Loops whose body goes on, returns or fails, and what it takes for them to end. -/

namespace Loop
variable {σ α ε : Type}

/-- The body over and over, `n` times at most; `o` if it has not returned by then. -/
def run (body : σ → Except ε (σ ⊕ α)) (o : ε) : ℕ → σ → Except ε α
  | 0, _ => .error o
  | n+1, x =>
    match body x with
    | .error e => .error e
    | .ok (.inr a) => .ok a
    | .ok (.inl y) => run body o n y

/-- The body goes on from the one state to the other. -/
def Turn (body : σ → Except ε (σ ⊕ α)) (x y : σ) : Prop := body x = .ok (.inl y)

abbrev Comes (body : σ → Except ε (σ ⊕ α)) : σ → σ → Prop := Relation.ReflTransGen (Turn body)

/-- From this state on, every turn returns or makes the measure smaller. -/
def Progresses (μ : σ → ℕ) (body : σ → Except ε (σ ⊕ α)) (x : σ) : Prop :=
  ∀ y, Comes body x y → (∃ a, body y = .ok (.inr a)) ∨ ∃ z, Turn body y z ∧ μ z < μ y

variable {body : σ → Except ε (σ ⊕ α)} {o : ε} {x y : σ} {n : ℕ} {a : α} {e : ε}

theorem run_return (h : body x = .ok (.inr a)) : run body o (n+1) x = .ok a := by
  rw [run, h]

theorem run_turn (h : Turn body x y) : run body o (n+1) x = run body o n y := by
  have h' : body x = .ok (.inl y) := h
  rw [run, h']

theorem run_fail (h : body x = .error e) : run body o (n+1) x = .error e := by
  rw [run, h]

/-- The three ways a turn may go. -/
theorem turn_cases (body : σ → Except ε (σ ⊕ α)) (x : σ) :
    (∃ e, body x = .error e) ∨ (∃ a, body x = .ok (.inr a)) ∨ ∃ y, Turn body x y := by
  unfold Turn
  cases body x with
  | error e => exact .inl ⟨e, rfl⟩
  | ok r =>
    cases r with
    | inl y => exact .inr (.inr ⟨y, rfl⟩)
    | inr a => exact .inr (.inl ⟨a, rfl⟩)

/-- What a loop returns, one of its turns returned. -/
theorem run_ok (h : run body o n x = .ok a) : ∃ y, Comes body x y ∧ body y = .ok (.inr a) := by
  induction n generalizing x with
  | zero => cases h
  | succ n ih =>
    rcases turn_cases body x with ⟨e, he⟩ | ⟨b, hb⟩ | ⟨y, hy⟩
    · rw [run_fail he] at h
      cases h
    · rw [run_return hb] at h
      cases h
      exact ⟨x, .refl, hb⟩
    · rw [run_turn hy] at h
      obtain ⟨z, hz, hr⟩ := ih h
      exact ⟨z, .head hy hz, hr⟩

/-- A loop that fails has run out of turns, or one of its turns failed. -/
theorem run_error (h : run body o n x = .error e) :
    e = o ∨ ∃ y, Comes body x y ∧ body y = .error e := by
  induction n generalizing x with
  | zero =>
    cases h
    exact .inl rfl
  | succ n ih =>
    rcases turn_cases body x with ⟨e', he⟩ | ⟨b, hb⟩ | ⟨y, hy⟩
    · rw [run_fail he] at h
      cases h
      exact .inr ⟨x, .refl, he⟩
    · rw [run_return hb] at h
      cases h
    · rw [run_turn hy] at h
      rcases ih h with rfl | ⟨z, hz, hr⟩
      · exact .inl rfl
      · exact .inr ⟨z, .head hy hz, hr⟩

/-- With enough turns, a loop comes to what it comes to. -/
theorem run_of_comes (h : Comes body x y) :
    ∃ k, ∀ n, run body o (k+n) x = run body o n y := by
  induction h with
  | refl => exact ⟨0, fun n => by rw [Nat.zero_add]⟩
  | @tail y z _ hz ih =>
    obtain ⟨k, hk⟩ := ih
    refine ⟨k+1, fun n => ?_⟩
    rw [Nat.add_assoc, Nat.add_comm 1 n, hk, run_turn hz]

/-- More turns than it takes make no difference. -/
theorem run_more {m : ℕ} (hn : run body o n x ≠ .error o) (hm : n ≤ m) :
    run body o m x = run body o n x := by
  induction n generalizing x m with
  | zero => exact absurd rfl hn
  | succ n ih =>
    obtain ⟨m, rfl⟩ : ∃ k, m = k+1 := ⟨m-1, by omega⟩
    rcases turn_cases body x with ⟨e, he⟩ | ⟨b, hb⟩ | ⟨y, hy⟩
    · rw [run_fail he, run_fail he]
    · rw [run_return hb, run_return hb]
    · rw [run_turn hy] at hn
      rw [run_turn hy, run_turn hy]
      exact ih hn (by omega)

/-- A loop that makes progress ends, within as many turns as the measure says. -/
theorem Progresses.ends {μ : σ → ℕ} (h : Progresses μ body x) (hn : μ x < n) :
    ∃ a, run body o n x = .ok a := by
  induction n generalizing x with
  | zero => exact absurd hn (Nat.not_lt_zero _)
  | succ n ih =>
    rcases h x .refl with ⟨a, ha⟩ | ⟨y, hy, hlt⟩
    · exact ⟨a, run_return ha⟩
    · rw [run_turn hy]
      exact ih (fun z hz => h z (.head hy hz)) (by omega)

/-- A loop that always goes on never ends. -/
theorem run_endless (h : ∀ y, Comes body x y → ∃ z, Turn body y z) (n : ℕ) :
    run body o n x = .error o := by
  induction n generalizing x with
  | zero => rfl
  | succ n ih =>
    obtain ⟨y, hy⟩ := h x .refl
    rw [run_turn hy]
    exact ih fun z hz => h z (.head hy hz)

/-- A loop whose states stand for things of another kind, each turn for a step to a smaller one
with the same outcome. -/
theorem run_eq {ι : Type} {p : ι → σ} {f : ι → α} {μ : ι → ℕ} {I : ι → Prop}
    (h : ∀ i, I i → body (p i) = .ok (.inr (f i)) ∨
      ∃ j, I j ∧ μ j < μ i ∧ Turn body (p i) (p j) ∧ f j = f i)
    {i : ι} (hi : I i) (hn : μ i < n) : run body o n (p i) = .ok (f i) := by
  induction n generalizing i with
  | zero => exact absurd hn (Nat.not_lt_zero _)
  | succ n ih =>
    rcases h i hi with hr | ⟨j, hj, hlt, ht, hf⟩
    · exact run_return hr
    · rw [run_turn ht, ih hj (by omega), hf]

/-- If the turns are the steps of a relation, what a loop comes to is what the steps lead to. -/
theorem comes_iff {ι : Type} {p : ι → σ} {R : ι → ι → Prop} {I : ι → Prop}
    (hI : ∀ i j, I i → R i j → I j)
    (h : ∀ i, I i → ∀ y, Turn body (p i) y ↔ ∃ j, R i j ∧ y = p j) {i : ι} (hi : I i) :
    Comes body (p i) y ↔ ∃ j, Relation.ReflTransGen R i j ∧ y = p j := by
  have hinv {j : ι} (hj : Relation.ReflTransGen R i j) : I j := by
    induction hj with
    | refl => exact hi
    | tail _ hr ih => exact hI _ _ ih hr
  constructor
  · intro hc
    induction hc with
    | refl => exact ⟨i, .refl, rfl⟩
    | tail _ ht ih =>
      obtain ⟨j, hj, rfl⟩ := ih
      obtain ⟨k, hk, rfl⟩ := (h j (hinv hj) _).mp ht
      exact ⟨k, hj.tail hk, rfl⟩
  · rintro ⟨j, hj, rfl⟩
    induction hj with
    | refl => exact .refl
    | tail hb hr ih => exact ih.tail ((h _ (hinv hb) _).mpr ⟨_, hr, rfl⟩)

end Loop
