import Mathlib

/-! Maps kept under names: a map from keys to values that is stored in a map from names to
values, where several keys may share a name and only some names can be listed. -/

/-- How keys are named, and which key a listing shows for a name. -/
structure Naming (K N : Type*) where
  enc : K → N
  dec : N → Option K
  /-- the key shown for a name has that name -/
  enc_of_dec : ∀ k x, dec (enc k) = some x → enc x = enc k
  /-- a key is shown for one name only -/
  dec_inj : ∀ n n' x, dec n = some x → dec n' = some x → n = n'

namespace Naming
variable {K N V : Type*} (e : Naming K N)

/-- Another key has the same name. -/
def Shared (k : K) : Prop := ∃ k', k' ≠ k ∧ e.enc k' = e.enc k

/-- A listing shows the key under its own spelling. -/
def Own (k : K) : Prop := e.dec (e.enc k) = some k

/-- Reading through the names gives the values of the map, `d` for a missing one. -/
def ReadsAs (d : V) (f : N → Option V) (m : K → Option V) : Prop :=
  ∀ k, (f (e.enc k)).getD d = (m k).getD d

/-- Keys that share a name are missing from the map, or have the value of a missing key. -/
def SharedBlank (d : V) (m : K → Option V) : Prop := ∀ k, e.Shared k → (m k).getD d = d

/-- The listing shows exactly the keys of the map. -/
def ListsAs (f : N → Option V) (m : K → Option V) : Prop :=
  ∀ x, (∃ n, (f n).isSome ∧ e.dec n = some x) ↔ (m x).isSome

/-- Every name in use is the name of a key. -/
def Covers (f : N → Option V) : Prop := ∀ n, (f n).isSome → ∃ k, e.enc k = n

variable {e}

theorem Shared.symm_of {k k' : K} (hne : k' ≠ k) (he : e.enc k' = e.enc k) : e.Shared k' :=
  ⟨k, hne.symm, he.symm⟩

variable {d : V} {f : N → Option V} {m : K → Option V}

theorem ListsAs.own (h : e.ListsAs f m) (hc : e.Covers f) (k : K) (hk : (m k).isSome) :
    e.Own k := by
  obtain ⟨n, hn, hd⟩ := (h k).mpr hk
  obtain ⟨k', rfl⟩ := hc n hn
  unfold Own
  rw [e.enc_of_dec k' k hd, hd]

/-! ### Emptying the map

Emptying goes through the listing, so names that no key is shown for stay. -/

def clear (e : Naming K N) (f : N → Option V) (n : N) : Option V :=
  if (e.dec n).isSome then none else f n

theorem ReadsAs.clear_iff (h : e.ReadsAs d f m) :
    e.ReadsAs d (e.clear f) (fun _ => none) ↔
      ∀ k, e.dec (e.enc k) = none → (m k).getD d = d := by
  unfold ReadsAs clear
  apply forall_congr'
  intro k
  cases hd : e.dec (e.enc k) with
  | some x => simp
  | none => simp [h k]

theorem ListsAs.clear : e.ListsAs (e.clear f) (fun _ => none) := by
  intro x
  refine iff_of_false ?_ (by simp)
  rintro ⟨n, hn, hd⟩
  simp [Naming.clear, hd] at hn

theorem Covers.clear (hc : e.Covers f) : e.Covers (e.clear f) := by
  intro n hn
  apply hc n
  unfold Naming.clear at hn
  split at hn
  · cases hn
  · exact hn

/-! ### Single updates -/

variable [DecidableEq K]

theorem SharedBlank.update (hb : e.SharedBlank d m) (k : K) (v : Option V)
    (hv : e.Shared k → v.getD d = d) : e.SharedBlank d (Function.update m k v) := by
  intro k' hs
  by_cases hne : k' = k
  · rw [hne, Function.update_self]
    exact hv (hne ▸ hs)
  · rw [Function.update_of_ne hne]
    exact hb k' hs

variable [DecidableEq N]

omit [DecidableEq K] in
theorem Covers.update (hc : e.Covers f) (k : K) (v : Option V) :
    e.Covers (Function.update f (e.enc k) v) := by
  intro n hn
  by_cases he : n = e.enc k
  · exact ⟨k, he.symm⟩
  · rw [Function.update_of_ne he] at hn
    exact hc n hn

/-- Writing one key and one name: the reading stays right exactly when every other key of that
name already had the new value. -/
theorem ReadsAs.update_iff (h : e.ReadsAs d f m) (k : K) (v : Option V) :
    e.ReadsAs d (Function.update f (e.enc k) v) (Function.update m k v) ↔
      ∀ k', k' ≠ k → e.enc k' = e.enc k → (m k').getD d = v.getD d := by
  constructor
  · intro hu k' hne he
    have := hu k'
    rw [he, Function.update_self, Function.update_of_ne hne] at this
    exact this.symm
  · intro hk k'
    by_cases hne : k' = k
    · rw [hne, Function.update_self, Function.update_self]
    · rw [Function.update_of_ne hne]
      by_cases he : e.enc k' = e.enc k
      · rw [he, Function.update_self, hk k' hne he]
      · rw [Function.update_of_ne he, h k']

theorem ReadsAs.put_iff (h : e.ReadsAs d f m) (hb : e.SharedBlank d m) (k : K) (v : V) :
    e.ReadsAs d (Function.update f (e.enc k) (some v)) (Function.update m k (some v)) ↔
      (e.Shared k → v = d) := by
  rw [h.update_iff]
  constructor
  · rintro hk ⟨k', hne, he⟩
    have hk' : (m k').getD d = v := hk k' hne he
    rw [← hk', hb k' (Shared.symm_of hne he)]
  · intro hv k' hne he
    rw [hb k' (Shared.symm_of hne he), hv ⟨k', hne, he⟩, Option.getD_some]

theorem ReadsAs.del (h : e.ReadsAs d f m) (hb : e.SharedBlank d m) (k : K) :
    e.ReadsAs d (Function.update f (e.enc k) none) (Function.update m k none) := by
  rw [h.update_iff]
  intro k' hne he
  rw [hb k' (Shared.symm_of hne he), Option.getD_none]

/-- Writing a key keeps the listing right exactly when the listing can show the key. -/
theorem ListsAs.put_iff (h : e.ListsAs f m) (hc : e.Covers f) (k : K) (v : V) :
    e.ListsAs (Function.update f (e.enc k) (some v)) (Function.update m k (some v)) ↔
      e.Own k := by
  constructor
  · intro hl
    exact hl.own (hc.update k (some v)) k (by rw [Function.update_self]; rfl)
  · intro hk x
    by_cases hx : x = k
    · subst hx
      rw [Function.update_self]
      exact iff_of_true ⟨e.enc x, by rw [Function.update_self]; rfl, hk⟩ rfl
    · rw [Function.update_of_ne hx, ← h x]
      have hne (n : N) (hd : e.dec n = some x) : n ≠ e.enc k := by
        rintro rfl
        exact hx (Option.some.inj (hd.symm.trans hk))
      constructor
      · rintro ⟨n, hn, hd⟩
        rw [Function.update_of_ne (hne n hd)] at hn
        exact ⟨n, hn, hd⟩
      · rintro ⟨n, hn, hd⟩
        exact ⟨n, by rwa [Function.update_of_ne (hne n hd)], hd⟩

/-- Deleting a key keeps the listing right exactly when it takes no other key's entry away. -/
theorem ListsAs.del_iff (h : e.ListsAs f m) (hc : e.Covers f) (k : K) :
    e.ListsAs (Function.update f (e.enc k) none) (Function.update m k none) ↔
      ∀ x, e.dec (e.enc k) = some x → x = k ∨ f (e.enc k) = none := by
  constructor
  · intro hl x hd
    by_contra hcon
    rw [not_or] at hcon
    have hm : (m x).isSome := (h x).mp ⟨e.enc k, Option.isSome_iff_ne_none.mpr hcon.2, hd⟩
    rw [← Function.update_of_ne hcon.1 none m] at hm
    obtain ⟨n, hn, hd'⟩ := (hl x).mpr hm
    rw [e.dec_inj n _ x hd' hd, Function.update_self] at hn
    cases hn
  · intro hk x
    by_cases hx : x = k
    · subst hx
      rw [Function.update_self]
      refine iff_of_false ?_ (by simp)
      rintro ⟨n, hn, hd⟩
      by_cases he : n = e.enc x
      · rw [he, Function.update_self] at hn
        cases hn
      · rw [Function.update_of_ne he] at hn
        obtain ⟨k', rfl⟩ := hc n hn
        exact he (e.enc_of_dec k' x hd).symm
    · rw [Function.update_of_ne hx, ← h x]
      constructor
      · rintro ⟨n, hn, hd⟩
        by_cases he : n = e.enc k
        · rw [he, Function.update_self] at hn
          cases hn
        · rw [Function.update_of_ne he] at hn
          exact ⟨n, hn, hd⟩
      · rintro ⟨n, hn, hd⟩
        refine ⟨n, ?_, hd⟩
        by_cases he : n = e.enc k
        · subst he
          rw [(hk x hd).resolve_left hx] at hn
          cases hn
        · rwa [Function.update_of_ne he]

end Naming
