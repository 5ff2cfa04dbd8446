import Slemu.Loader

/-! What every part of the loader does to its reader: `err` is never cleared, no byte outside
the source is touched, the fuel lasts as long as the source, and a run without a failed read
is the same on a longer source. -/

namespace Slemu

/-! ### Primitive reads, in closed form -/

theorem srcRange_apply (n i : ℕ) (r : Rdr) (h : i+n ≤ r.src.length) :
    srcRange i n r = (.ok ((r.src.drop i).take n), r) := by
  induction n generalizing i with
  | zero => simp [srcRange]
  | succ n ih =>
    have hi : i < r.src.length := by omega
    have hat : srcAt i r = (.ok r.src[i], r) := by
      simp only [srcAt, List.getElem?_eq_getElem hi]
    unfold srcRange
    rw [Run.bind_ok hat, Run.bind_ok (ih (i+1) (by omega)), Run.pure_apply,
      List.drop_eq_getElem_cons hi, List.take_succ_cons]

theorem rTake_fail (n : ℕ) (r : Rdr) (h : r.src.length < r.off+n) :
    rTake n r = (.ok none, { r with err := true }) := by
  unfold rTake
  rw [Run.bind_ok (Run.read_apply id r)]
  simp only [id, gt_iff_lt, h, if_true]
  rfl

theorem rTake_ok (n : ℕ) (r : Rdr) (h : r.off+n ≤ r.src.length) :
    rTake n r = (.ok (some ((r.src.drop r.off).take n)), { r with off := r.off+n }) := by
  unfold rTake
  rw [Run.bind_ok (Run.read_apply id r)]
  simp only [id, gt_iff_lt, not_lt.mpr h, if_false]
  rw [Run.bind_ok (srcRange_apply n r.off r h)]
  rfl

theorem rLocal_fail (n : ℕ) (r : Rdr) (h : r.src.length < r.off+n) :
    rLocal n r = (.ok (r.junk r.draws).toNat, { r with err := true, draws := r.draws+1 }) := by
  unfold rLocal
  rw [Run.bind_ok (rTake_fail n r h)]
  rfl

theorem rLocal_ok (n : ℕ) (r : Rdr) (h : r.off+n ≤ r.src.length) :
    rLocal n r = (.ok (leNat ((r.src.drop r.off).take n)), { r with off := r.off+n }) := by
  unfold rLocal
  rw [Run.bind_ok (rTake_ok n r h)]
  rfl

theorem leNat_singleton (b : UInt8) : (leNat [b]).toUInt8 = b := by
  simp only [leNat, Nat.mul_zero, Nat.add_zero]
  exact UInt8.ofNat_toNat

theorem rU8_fail (r : Rdr) (h : r.src.length ≤ r.off) :
    rU8 r = (.ok none, { r with err := true }) := by
  unfold rU8
  rw [Run.bind_ok (rTake_fail 1 r (by omega))]
  rfl

theorem rU8_ok (r : Rdr) (h : r.off < r.src.length) :
    rU8 r = (.ok (some r.src[r.off]), { r with off := r.off+1 }) := by
  unfold rU8
  rw [Run.bind_ok (rTake_ok 1 r h), List.drop_eq_getElem_cons h]
  simp only [List.take_succ_cons, List.take_zero, Option.map_some, leNat_singleton,
    Run.pure_apply]

theorem rU32_fail (r : Rdr) (h : r.src.length < r.off+4) :
    rU32 r = (.ok none, { r with err := true }) := by
  unfold rU32
  rw [Run.bind_ok (rTake_fail 4 r h)]
  rfl

theorem rU32_ok (r : Rdr) (h : r.off+4 ≤ r.src.length) :
    rU32 r = (.ok (some (leNat ((r.src.drop r.off).take 4)).toUInt32),
      { r with off := r.off+4 }) := by
  unfold rU32
  rw [Run.bind_ok (rTake_ok 4 r h)]
  rfl

theorem tagged_fail {α : Type} (null : α) (f : UInt8 → Rd α) (r : Rdr)
    (h : r.src.length ≤ r.off) : tagged null f r = (.ok null, { r with err := true }) := by
  unfold tagged
  rw [Run.bind_ok (rU8_fail r h)]
  rfl

theorem tagged_ok {α : Type} (null : α) (f : UInt8 → Rd α) (r : Rdr)
    (h : r.off < r.src.length) :
    tagged null f r = f r.src[r.off] { r with off := r.off+1 } := by
  unfold tagged
  rw [Run.bind_ok (rU8_ok r h)]

theorem store_ok (alloc start len : ℕ) (r : Rdr) (h : start+len ≤ alloc) :
    store alloc start len r = (.ok (), r) := by
  unfold store
  rw [if_pos h]
  rfl

theorem store_fault (alloc start len : ℕ) (r : Rdr) (h : ¬ start+len ≤ alloc) :
    store alloc start len r = (.error .fault, r) := by
  unfold store
  rw [if_neg h]
  rfl

theorem rBytes_fail (alloc n : ℕ) (r : Rdr) (h : r.src.length < r.off+n) :
    rBytes alloc n r = (.ok none, { r with err := true }) := by
  unfold rBytes
  rw [Run.bind_ok (rTake_fail n r h)]
  rfl

theorem rBytes_ok (alloc n : ℕ) (r : Rdr) (h : r.off+n ≤ r.src.length) (hn : n ≤ alloc) :
    rBytes alloc n r =
      (.ok (some ((r.src.drop r.off).take n)), { r with off := r.off+n }) := by
  unfold rBytes
  rw [Run.bind_ok (rTake_ok n r h)]
  dsimp only
  rw [Run.bind_ok (store_ok alloc 0 n _ (by omega))]
  rfl

theorem rBytes_fault (alloc n : ℕ) (r : Rdr) (h : r.off+n ≤ r.src.length) (hn : alloc < n) :
    rBytes alloc n r = (.error .fault, { r with off := r.off+n }) := by
  unfold rBytes
  rw [Run.bind_ok (rTake_ok n r h)]
  dsimp only
  rw [Run.bind_error (store_fault alloc 0 n _ (by omega))]

/-! ### The shape of the loader -/

def GoodExprTag (t : UInt8) : Prop := t ≤ 13 ∨ t = 0xFF
def GoodStmtTag (t : UInt8) : Prop := t ≤ 11 ∨ t = 0xFF

/-- `m` is put together from the primitive reads, and `m'` is the same reader with at least as
much fuel. The fuel `n` covers a source with fewer than `n` bytes left. With `safe` every store
is inside its block. -/
inductive Steady (safe : Bool) : {α : Type} → ℕ → Rd α → Rd α → Prop
  | pure {α : Type} (n : ℕ) (a : α) : Steady safe n (pure a) (pure a)
  | take (n k : ℕ) : Steady safe n (rTake k) (rTake k)
  | word (n k : ℕ) : Steady safe n (rLocal k) (rLocal k)
  | error (n : ℕ) : Steady safe n setErr setErr
  | block (n alloc start len : ℕ) (h : safe = true → start+len ≤ alloc) :
      Steady safe n (store alloc start len) (store alloc start len)
  | version (n : ℕ) : Steady safe n (Run.read Rdr.version) (Run.read Rdr.version)
  | exprTag (n : ℕ) (t : UInt8) (h : GoodExprTag t) :
      Steady safe n (noteExprTag t) (noteExprTag t)
  | stmtTag (n : ℕ) (t : UInt8) (h : GoodStmtTag t) :
      Steady safe n (noteStmtTag t) (noteStmtTag t)
  | badExprTag {α : Type} {n : ℕ} {m m' : Rd α} (t : UInt8) (h : Steady safe n m m')
      (he : ∀ r, (m r).2.err = true) :
      Steady safe n (noteExprTag t >>= fun _ => m) (noteExprTag t >>= fun _ => m')
  | badStmtTag {α : Type} {n : ℕ} {m m' : Rd α} (t : UInt8) (h : Steady safe n m m')
      (he : ∀ r, (m r).2.err = true) :
      Steady safe n (noteStmtTag t >>= fun _ => m) (noteStmtTag t >>= fun _ => m')
  | fuel {α : Type} (m' : Rd α) : Steady safe 0 (Run.fail .fuel) m'
  | node {α : Type} {n : ℕ} (null : α) {f f' : UInt8 → Rd α}
      (h : ∀ t, Steady safe n (f t) (f' t)) :
      Steady safe (n+1) (tagged null f) (tagged null f')
  | bind {α β : Type} {n : ℕ} {m m' : Rd α} {f f' : α → Rd β} (h : Steady safe n m m')
      (hf : ∀ a, Steady safe n (f a) (f' a)) : Steady safe n (m >>= f) (m' >>= f')

/-! ### What it keeps -/

/-- A later state of a reader. -/
structure Later (r r' : Rdr) : Prop where
  src : r'.src = r.src
  version : r'.version = r.version
  off : r.off ≤ r'.off
  inside : r.off ≤ r.src.length → r'.off ≤ r'.src.length
  err : r.err = true → r'.err = true

theorem Later.refl (r : Rdr) : Later r r := ⟨rfl, rfl, le_refl _, id, id⟩

theorem Later.trans {r s t : Rdr} (h : Later r s) (h' : Later s t) : Later r t where
  src := h'.src.trans h.src
  version := h'.version.trans h.version
  off := h.off.trans h'.off
  inside hr := h'.inside (h.src ▸ h.inside hr)
  err hr := h'.err (h.err hr)

theorem later_rTake (k : ℕ) : Run.Keeps Later (rTake k) := by
  intro r
  by_cases h : r.off+k ≤ r.src.length
  · rw [rTake_ok k r h]
    exact ⟨rfl, rfl, Nat.le_add_right _ _, fun _ => h, id⟩
  · rw [rTake_fail k r (by omega)]
    exact ⟨rfl, rfl, le_refl _, id, fun _ => rfl⟩

theorem later_rLocal (k : ℕ) : Run.Keeps Later (rLocal k) := by
  intro r
  by_cases h : r.off+k ≤ r.src.length
  · rw [rLocal_ok k r h]
    exact ⟨rfl, rfl, Nat.le_add_right _ _, fun _ => h, id⟩
  · rw [rLocal_fail k r (by omega)]
    exact ⟨rfl, rfl, le_refl _, id, fun _ => rfl⟩

theorem later_store (alloc start len : ℕ) : Run.Keeps Later (store alloc start len) := by
  unfold store
  split
  · exact Run.Keeps.pure Later.refl ()
  · exact Run.Keeps.fail Later.refl _

theorem Later.noteExpr (t : UInt8) : Run.Keeps Later (noteExprTag t) :=
  Run.Keeps.update fun _ => ⟨rfl, rfl, le_refl _, id, id⟩

theorem Later.noteStmt (t : UInt8) : Run.Keeps Later (noteStmtTag t) :=
  Run.Keeps.update fun _ => ⟨rfl, rfl, le_refl _, id, id⟩

theorem Later.bind {α β : Type} {m : Rd α} {f : α → Rd β} (hm : Run.Keeps Later m)
    (hf : ∀ a, Run.Keeps Later (f a)) : Run.Keeps Later (m >>= f) :=
  Run.Keeps.bind (fun _ _ _ h h' => h.trans h') hm hf

theorem later_rU8 : Run.Keeps Later rU8 :=
  Later.bind (later_rTake 1) fun _ => Run.Keeps.pure Later.refl _

theorem Steady.later {safe : Bool} {α : Type} {n : ℕ} {m m' : Rd α}
    (h : Steady safe n m m') : Run.Keeps Later m := by
  induction h with
  | pure n a => exact Run.Keeps.pure Later.refl a
  | take n k => exact later_rTake k
  | word n k => exact later_rLocal k
  | error n => exact Run.Keeps.update fun _ => ⟨rfl, rfl, le_refl _, id, fun _ => rfl⟩
  | block n alloc start len h => exact later_store alloc start len
  | version n => exact Run.Keeps.read Later.refl _
  | exprTag n t h => exact Later.noteExpr t
  | stmtTag n t h => exact Later.noteStmt t
  | badExprTag t h he ih => exact Later.bind (Later.noteExpr t) fun _ => ih
  | badStmtTag t h he ih => exact Later.bind (Later.noteStmt t) fun _ => ih
  | fuel m' => exact Run.Keeps.fail Later.refl _
  | node null h ih =>
    refine Later.bind later_rU8 fun o => ?_
    cases o with
    | none => exact Run.Keeps.pure Later.refl null
    | some t => exact ih t
  | bind h hf ih ihf => exact Later.bind ih ihf

/-- The error flag at the end was not set at any point before. -/
theorem Steady.err_of_bind {safe : Bool} {α β : Type} {n : ℕ} {f f' : α → Rd β} {a : α}
    (hf : Steady safe n (f a) (f' a)) {t r' : Rdr} {o : Except Stop β}
    (h : f a t = (o, r')) (he : r'.err = false) : t.err = false := by
  have hl := hf.later t
  rw [h] at hl
  by_contra ht
  rw [hl.err (by simpa using ht)] at he
  cases he

/-- No undefined behaviour, as long as all stores are inside their blocks. -/
theorem Steady.no_fault {α : Type} {n : ℕ} {m m' : Rd α} (h : Steady true n m m') (r : Rdr) :
    (m r).1 ≠ .error .fault := by
  generalize hs : true = safe at h
  induction h generalizing r with
  | pure n a => simp
  | take n k =>
    by_cases h : r.off+k ≤ r.src.length
    · simp [rTake_ok k r h]
    · simp [rTake_fail k r (by omega)]
  | word n k =>
    by_cases h : r.off+k ≤ r.src.length
    · simp [rLocal_ok k r h]
    · simp [rLocal_fail k r (by omega)]
  | error n => simp [setErr]
  | block n alloc start len h => simp [store_ok alloc start len r (h hs.symm)]
  | version n => simp
  | exprTag n t h => simp [noteExprTag]
  | stmtTag n t h => simp [noteStmtTag]
  | badExprTag t h he ih => exact ih _
  | badStmtTag t h he ih => exact ih _
  | fuel m' => simp
  | @node α n null f f' h ih =>
    by_cases hr : r.off < r.src.length
    · rw [tagged_ok null f r hr]
      exact ih _ _
    · simp [tagged_fail null f r (by omega)]
  | @bind α β n m m' f f' h hf ih ihf =>
    rcases Run.bind_cases m f r with ⟨e, t, hm, hb⟩ | ⟨a, t, hm, hb⟩
    · rw [hb]
      simpa [hm] using ih r
    · rw [hb]
      exact ihf a t

/-- The fuel lasts. -/
theorem Steady.no_fuel {safe : Bool} {α : Type} {n : ℕ} {m m' : Rd α} (h : Steady safe n m m')
    (r : Rdr) (hoff : r.off ≤ r.src.length) (hn : r.src.length < n+r.off) :
    (m r).1 ≠ .error .fuel := by
  induction h generalizing r with
  | pure n a => simp
  | take n k =>
    by_cases h : r.off+k ≤ r.src.length
    · simp [rTake_ok k r h]
    · simp [rTake_fail k r (by omega)]
  | word n k =>
    by_cases h : r.off+k ≤ r.src.length
    · simp [rLocal_ok k r h]
    · simp [rLocal_fail k r (by omega)]
  | error n => simp [setErr]
  | block n alloc start len h =>
    unfold store
    split <;> simp
  | version n => simp
  | exprTag n t h => simp [noteExprTag]
  | stmtTag n t h => simp [noteStmtTag]
  | badExprTag t h he ih => exact ih _ hoff hn
  | badStmtTag t h he ih => exact ih _ hoff hn
  | fuel m' => omega
  | @node α n null f f' h ih =>
    by_cases hr : r.off < r.src.length
    · rw [tagged_ok null f r hr]
      -- the tag is a byte of the source that pays for one unit of fuel
      exact ih _ _ hr (by change r.src.length < n+(r.off+1); omega)
    · simp [tagged_fail null f r (by omega)]
  | @bind α β n m m' f f' h hf ih ihf =>
    rcases Run.bind_cases m f r with ⟨e, t, hm, hb⟩ | ⟨a, t, hm, hb⟩
    · rw [hb]
      simpa [hm] using ih r hoff hn
    · rw [hb]
      have hl : Later r t := by simpa only [hm] using h.later r
      have hsrc := congrArg List.length hl.src
      have hle := hl.off
      exact ihf a t (hl.inside hoff) (by omega)

/-- All tags read so far are tags of the format. -/
structure GoodTags (r : Rdr) : Prop where
  expr : ∀ t ∈ r.exprTags, GoodExprTag t
  stmt : ∀ t ∈ r.stmtTags, GoodStmtTag t

/-- Without a failed read every tag on the way was one of the format. -/
theorem Steady.tags {safe : Bool} {α : Type} {n : ℕ} {m m' : Rd α} (h : Steady safe n m m')
    (r r' : Rdr) (a : α) (hm : m r = (.ok a, r')) (he : r'.err = false) (hr : GoodTags r) :
    GoodTags r' := by
  induction h generalizing r r' with
  | pure n a => cases hm; exact hr
  | take n k =>
    by_cases h : r.off+k ≤ r.src.length
    · rw [rTake_ok k r h] at hm; cases hm; exact ⟨hr.expr, hr.stmt⟩
    · rw [rTake_fail k r (by omega)] at hm; cases hm; cases he
  | word n k =>
    by_cases h : r.off+k ≤ r.src.length
    · rw [rLocal_ok k r h] at hm; cases hm; exact ⟨hr.expr, hr.stmt⟩
    · rw [rLocal_fail k r (by omega)] at hm; cases hm; cases he
  | error n => cases hm; cases he
  | block n alloc start len h =>
    unfold store at hm
    split at hm
    · cases hm; exact hr
    · cases hm
  | version n => cases hm; exact hr
  | exprTag n t h =>
    cases hm
    refine ⟨?_, hr.stmt⟩
    intro t' ht
    rcases List.mem_cons.mp ht with rfl | ht
    · exact h
    · exact hr.expr t' ht
  | stmtTag n t h =>
    cases hm
    refine ⟨hr.expr, ?_⟩
    intro t' ht
    rcases List.mem_cons.mp ht with rfl | ht
    · exact h
    · exact hr.stmt t' ht
  | badExprTag t h hbad ih =>
    rename_i m _
    have hb := hbad { r with exprTags := t :: r.exprTags }
    change m { r with exprTags := t :: r.exprTags } = _ at hm
    rw [hm, he] at hb
    cases hb
  | badStmtTag t h hbad ih =>
    rename_i m _
    have hb := hbad { r with stmtTags := t :: r.stmtTags }
    change m { r with stmtTags := t :: r.stmtTags } = _ at hm
    rw [hm, he] at hb
    cases hb
  | fuel m' => cases hm
  | node null h ih =>
    by_cases hoff : r.off < r.src.length
    · rw [tagged_ok null _ r hoff] at hm
      exact ih _ _ _ a hm he ⟨hr.expr, hr.stmt⟩
    · rw [tagged_fail null _ r (by omega)] at hm; cases hm; cases he
  | bind h hf ih ihf =>
    obtain ⟨b, t, hb, hfb⟩ := Run.of_bind_ok hm
    have ht : t.err = false := err_of_bind (hf b) hfb he
    exact ihf b t r' a hfb he (ih r t b hb ht hr)

/-- The same reader over a source that goes on after this one. -/
structure Longer (r s : Rdr) : Prop where
  src : r.src <+: s.src
  off : s.off = r.off
  err : s.err = r.err
  version : s.version = r.version

theorem Longer.take {r s : Rdr} (h : Longer r s) (n : ℕ) (hn : r.off+n ≤ r.src.length) :
    s.off+n ≤ s.src.length ∧ (s.src.drop s.off).take n = (r.src.drop r.off).take n := by
  obtain ⟨t, ht⟩ := h.src
  rw [h.off, ← ht]
  constructor
  · rw [List.length_append]
    omega
  · rw [List.drop_append_of_le_length (by omega), List.take_append_of_le_length]
    rw [List.length_drop]
    omega

/-- A run without a failed read is the same on a longer source. -/
theorem Steady.follows {safe : Bool} {α : Type} {n : ℕ} {m m' : Rd α} (h : Steady safe n m m')
    (r r' s : Rdr) (a : α) (hm : m r = (.ok a, r')) (he : r'.err = false) (hs : Longer r s) :
    ∃ s', m' s = (.ok a, s') ∧ Longer r' s' := by
  induction h generalizing r r' s with
  | pure n a => cases hm; exact ⟨s, rfl, hs⟩
  | take n k =>
    by_cases h : r.off+k ≤ r.src.length
    · rw [rTake_ok k r h] at hm
      obtain ⟨hk, ht⟩ := hs.take k h
      cases hm
      rw [rTake_ok k s hk, ht]
      exact ⟨_, rfl, hs.src, congrArg (· + k) hs.off, hs.err, hs.version⟩
    · rw [rTake_fail k r (by omega)] at hm; cases hm; cases he
  | word n k =>
    by_cases h : r.off+k ≤ r.src.length
    · rw [rLocal_ok k r h] at hm
      obtain ⟨hk, ht⟩ := hs.take k h
      cases hm
      rw [rLocal_ok k s hk, ht]
      exact ⟨_, rfl, hs.src, congrArg (· + k) hs.off, hs.err, hs.version⟩
    · rw [rLocal_fail k r (by omega)] at hm; cases hm; cases he
  | error n => cases hm; cases he
  | block n alloc start len h =>
    unfold store at hm ⊢
    split at hm
    · rename_i hin
      rw [if_pos hin]
      cases hm
      exact ⟨s, rfl, hs⟩
    · cases hm
  | version n => cases hm; exact ⟨s, by rw [← hs.version]; rfl, hs⟩
  | exprTag n t h => cases hm; exact ⟨_, rfl, hs.src, hs.off, hs.err, hs.version⟩
  | stmtTag n t h => cases hm; exact ⟨_, rfl, hs.src, hs.off, hs.err, hs.version⟩
  | badExprTag t h hbad ih =>
    rename_i m _
    have hb := hbad { r with exprTags := t :: r.exprTags }
    change m { r with exprTags := t :: r.exprTags } = _ at hm
    rw [hm, he] at hb
    cases hb
  | badStmtTag t h hbad ih =>
    rename_i m _
    have hb := hbad { r with stmtTags := t :: r.stmtTags }
    change m { r with stmtTags := t :: r.stmtTags } = _ at hm
    rw [hm, he] at hb
    cases hb
  | fuel m' => cases hm
  | node null h ih =>
    by_cases hoff : r.off < r.src.length
    · rw [tagged_ok null _ r hoff] at hm
      obtain ⟨hk, ht⟩ := hs.take 1 hoff
      have hget : s.src[s.off] = r.src[r.off] := by
        rw [List.drop_eq_getElem_cons hk, List.drop_eq_getElem_cons hoff] at ht
        simp only [List.take_succ_cons, List.take_zero] at ht
        exact (List.cons.inj ht).1
      rw [tagged_ok null _ s hk, hget]
      exact ih _ _ _ _ a hm he ⟨hs.src, congrArg (· + 1) hs.off, hs.err, hs.version⟩
    · rw [tagged_fail null _ r (by omega)] at hm; cases hm; cases he
  | bind h hf ih ihf =>
    obtain ⟨b, t, hb, hfb⟩ := Run.of_bind_ok hm
    have ht : t.err = false := err_of_bind (hf b) hfb he
    obtain ⟨t', hb', htt⟩ := ih r t s b hb ht hs
    rw [Run.bind_ok hb']
    exact ihf b t r' t' a hfb he htt

end Slemu
