import Mathlib

/-! Programs with a state and early ends, and rules for what their runs keep. -/

/-- Ways a modelled program ends early: the fuel of the model is used up, or the program does
something that C leaves undefined. -/
inductive Stop
  | fuel
  | fault
  deriving DecidableEq

/-- A program on the state `σ`. The state survives an early end. -/
structure Run (σ α : Type) where
  exec : σ → Except Stop α × σ

namespace Run
variable {σ α β : Type}

instance : CoeFun (Run σ α) fun _ => σ → Except Stop α × σ := ⟨exec⟩

instance : Monad (Run σ) where
  pure a := ⟨fun s => (.ok a, s)⟩
  bind m f := ⟨fun s => match m s with
    | (.ok a, t) => f a t
    | (.error e, t) => (.error e, t)⟩

def fail (e : Stop) : Run σ α := ⟨fun s => (.error e, s)⟩
def read (f : σ → α) : Run σ α := ⟨fun s => (.ok (f s), s)⟩
def update (f : σ → σ) : Run σ Unit := ⟨fun s => (.ok (), f s)⟩
def act (f : σ → α × σ) : Run σ α := ⟨fun s => (.ok (f s).1, (f s).2)⟩

@[simp] theorem pure_apply (a : α) (s : σ) : (pure a : Run σ α) s = (.ok a, s) := rfl
@[simp] theorem fail_apply (e : Stop) (s : σ) : (fail e : Run σ α) s = (.error e, s) := rfl
@[simp] theorem read_apply (f : σ → α) (s : σ) : read f s = (.ok (f s), s) := rfl
@[simp] theorem update_apply (f : σ → σ) (s : σ) : update f s = (.ok (), f s) := rfl
@[simp] theorem act_apply (f : σ → α × σ) (s : σ) : act f s = (.ok (f s).1, (f s).2) := rfl

theorem bind_ok {m : Run σ α} {s t : σ} {a : α} (h : m s = (.ok a, t)) (f : α → Run σ β) :
    (m >>= f) s = f a t := by
  change (match m s with | (.ok a, t) => f a t | (.error e, t) => (.error e, t)) = f a t
  rw [h]

theorem bind_error {m : Run σ α} {s t : σ} {e : Stop} (h : m s = (.error e, t))
    (f : α → Run σ β) : (m >>= f) s = (.error e, t) := by
  change (match m s with | (.ok a, t) => f a t | (.error e, t) => (.error e, t)) = (.error e, t)
  rw [h]

/-- The two ways a sequence of programs can go. -/
theorem bind_cases (m : Run σ α) (f : α → Run σ β) (s : σ) :
    (∃ e t, m s = (.error e, t) ∧ (m >>= f) s = (.error e, t)) ∨
      ∃ a t, m s = (.ok a, t) ∧ (m >>= f) s = f a t := by
  rcases h : m s with ⟨e | a, t⟩
  · exact Or.inl ⟨e, t, rfl, bind_error h f⟩
  · exact Or.inr ⟨a, t, rfl, bind_ok h f⟩

theorem ext {m n : Run σ α} (h : ∀ s, m s = n s) : m = n := congrArg mk (funext h)

theorem bind_pure_id (m : Run σ α) : (m >>= fun a => pure (id a)) = m := by
  apply ext
  intro s
  rcases h : m s with ⟨e | a, t⟩
  · rw [bind_error h]
  · rw [bind_ok h]
    rfl

theorem bind_assoc {γ : Type} (m : Run σ α) (f : α → Run σ β) (g : β → Run σ γ) :
    m >>= f >>= g = m >>= fun a => f a >>= g := by
  apply ext
  intro s
  rcases h : m s with ⟨e | a, t⟩
  · rw [bind_error h, bind_error (bind_error h f)]
  · rw [bind_ok h]
    have hmf : (m >>= f) s = f a t := bind_ok h f
    rcases hf : f a t with ⟨e | b, u⟩
    · rw [bind_error hf, bind_error (hmf.trans hf)]
    · rw [bind_ok hf, bind_ok (hmf.trans hf)]

instance : LawfulMonad (Run σ) :=
  LawfulMonad.mk' (Run σ) bind_pure_id (fun _ _ => rfl) bind_assoc

/-- A sequence that came to its end went through its first part. -/
theorem of_bind_ok {m : Run σ α} {f : α → Run σ β} {s u : σ} {b : β}
    (h : (m >>= f) s = (.ok b, u)) : ∃ a t, m s = (.ok a, t) ∧ f a t = (.ok b, u) := by
  rcases bind_cases m f s with ⟨e, t, -, he⟩ | ⟨a, t, hm, hf⟩
  · rw [he] at h
    cases h
  · exact ⟨a, t, hm, hf ▸ h⟩

/-- What holds after the first part and is kept by the second holds at the end. -/
theorem bind_after {Q : σ → Prop} {m : Run σ α} {f : α → Run σ β} {s : σ} (hm : Q (m s).2)
    (hf : ∀ a t, Q t → Q (f a t).2) : Q ((m >>= f) s).2 := by
  rcases bind_cases m f s with ⟨e, t, hs, h⟩ | ⟨a, t, hs, h⟩
  · rw [h]
    rwa [hs] at hm
  · rw [h]
    rw [hs] at hm
    exact hf a t hm

/-! ### Relations between the states before and after -/

/-- Whatever the program does, early end or not, it goes from `s` to a state in relation `R`. -/
def Keeps (R : σ → σ → Prop) (m : Run σ α) : Prop := ∀ s, R s (m s).2

variable {R : σ → σ → Prop}

theorem Keeps.pure (hr : ∀ s, R s s) (a : α) : Keeps R (pure a : Run σ α) := hr

theorem Keeps.fail (hr : ∀ s, R s s) (e : Stop) : Keeps R (fail e : Run σ α) := hr

theorem Keeps.read (hr : ∀ s, R s s) (f : σ → α) : Keeps R (read f) := hr

theorem Keeps.update {f : σ → σ} (hf : ∀ s, R s (f s)) : Keeps R (update f) := hf

theorem Keeps.act {f : σ → α × σ} (hf : ∀ s, R s (f s).2) : Keeps R (act f) := hf

theorem Keeps.bind (ht : ∀ s t u, R s t → R t u → R s u) {m : Run σ α} {f : α → Run σ β}
    (hm : Keeps R m) (hf : ∀ a, Keeps R (f a)) : Keeps R (m >>= f) := by
  intro s
  rcases bind_cases m f s with ⟨e, t, hs, h⟩ | ⟨a, t, hs, h⟩
  · rw [h]
    simpa only [hs] using hm s
  · rw [h]
    have h1 : R s t := by simpa only [hs] using hm s
    exact ht s t _ h1 (hf a t)

end Run
