import Slemu.LoaderRuns

/-! Hostile and truncated files: where the loader stays in bounds, and what it rejects. -/

namespace Slemu

/-- An element of an array lies in the block that was allocated for the array. -/
theorem element_inside (count size i : ℕ) (h : i < count) :
    i*size+size ≤ xcalloc count size := by
  calc i*size+size = (i+1)*size := by ring
    _ ≤ max count 1*max size 1 := Nat.mul_le_mul (by omega) (le_max_left _ _)

namespace Steady
variable {safe : Bool} {α : Type} {n k : ℕ}

/-! ### Every reader is steady -/

theorem u8 : Steady safe n u8 u8 := .bind (.word n 1) fun _ => .pure n _
theorem u32 : Steady safe n u32 u32 := .bind (.word n 4) fun _ => .pure n _
theorem i64 : Steady safe n i64 i64 := .bind (.word n 8) fun _ => .pure n _
theorem f64 : Steady safe n f64 f64 := .bind (.word n 8) fun _ => .pure n _
theorem i32 : Steady safe n i32 i32 := .bind u32 fun _ => .pure n _
theorem rU8 : Steady safe n rU8 rU8 := .bind (.take n 1) fun _ => .pure n _

theorem onFlag {flag : UInt8} {m m' : Rd α} {null : α} (h : Steady safe n m m') :
    Steady safe n (onFlag flag m null) (onFlag flag m' null) := by
  unfold Slemu.onFlag
  split
  · exact h
  · exact .pure n null

theorem lineWord : Steady safe n lineWord lineWord := by
  refine .bind (.version n) fun v => ?_
  split
  · exact i32
  · exact .pure n 0

/-- The rounds of a loop fit an array of as many elements. -/
theorem fillFrom {size count i j : ℕ} {m m' : Rd α} (h : Steady safe n m m') (hi : i+j ≤ count) :
    Steady safe n (fillFrom (xcalloc count size) size m i j)
      (fillFrom (xcalloc count size) size m' i j) := by
  induction j generalizing i with
  | zero => exact .pure n []
  | succ j ih =>
    have hin : i*size+size ≤ xcalloc count size := element_inside count size i (by omega)
    refine .bind (.block n _ _ _ fun _ => hin) fun _ => ?_
    refine .bind h fun a => ?_
    exact .bind (ih (by omega)) fun as => .pure n _

theorem fill {size count : ℕ} {m m' : Rd α} (h : Steady safe n m m') :
    Steady safe n (fill count size m) (fill count size m') :=
  fillFrom h (Nat.zero_add count).le

theorem readTable {size : ℕ} {m m' : Rd α} (h : Steady safe n m m') :
    Steady safe n (readTable size m) (readTable size m') :=
  .bind u32 fun _ => fill h

theorem readExprNode {e e' : Rd Expr} (h : Steady safe n e e') (tag type lv : UInt8) :
    Steady safe n (readExprNode e tag type lv) (readExprNode e' tag type lv) := by
  unfold Slemu.readExprNode
  split
  · exact .bind i64 fun _ => .pure n _
  · exact .bind f64 fun _ => .pure n _
  · exact .bind i32 fun _ => .pure n _
  · exact .bind i32 fun _ => .pure n _
  · exact .bind h fun _ => .bind h fun _ => .bind h fun _ => .pure n _
  · exact .bind h fun _ => .bind h fun _ => .bind h fun _ => .bind h fun _ => .pure n _
  · exact .bind u32 fun _ => .bind (fill h) fun _ => .pure n _
  · exact .bind i32 fun _ => .bind u32 fun _ => .bind (fill h) fun _ => .pure n _
  · exact .bind h fun _ => .bind u8 fun _ => .pure n _
  · exact .bind u8 fun _ => .bind h fun _ => .pure n _
  · exact .bind u8 fun _ => .bind h fun _ => .pure n _
  · exact .bind u8 fun _ => .bind h fun _ => .pure n _
  · exact .bind u8 fun _ => .bind h fun _ => .bind h fun _ => .pure n _
  · exact .bind u8 fun _ => .bind h fun _ => .bind h fun _ => .pure n _
  · exact .bind (.error n) fun _ => .pure n _

theorem readExprRest {e e' : Rd Expr} (h : Steady safe n e e') (tag : UInt8) :
    Steady safe n (readExprRest e tag) (readExprRest e' tag) := by
  unfold Slemu.readExprRest
  split
  · exact .pure n _
  · refine .bind rU8 fun type => ?_
    rcases type with _ | type
    · exact .bind (.error n) fun _ => .pure n _
    · refine .bind rU8 fun lv => ?_
      rcases lv with _ | lv
      · exact .bind (.error n) fun _ => .pure n _
      · exact readExprNode h tag type lv

/-- A tag outside the format ends in `err`, whatever follows it. -/
theorem readExprRest_err {e : Rd Expr} (tag : UInt8) (h : ¬ GoodExprTag tag) (r : Rdr) :
    (Slemu.readExprRest e tag r).2.err = true := by
  obtain ⟨h13, hff⟩ := not_or.mp h
  have hnode (type lv : UInt8) (r : Rdr) :
      (Slemu.readExprNode e tag type lv r).2.err = true := by
    have ht : 13 < tag.toNat := by simpa [UInt8.le_iff_toNat_le] using h13
    unfold Slemu.readExprNode
    split <;> first | omega | rfl
  unfold Slemu.readExprRest
  rw [if_neg hff]
  by_cases hr : r.off < r.src.length
  · rw [Run.bind_ok (rU8_ok r hr)]
    by_cases hr' : r.off+1 < r.src.length
    · rw [Run.bind_ok (rU8_ok { r with off := r.off+1 } hr')]
      exact hnode _ _ _
    · rw [Run.bind_ok (rU8_fail { r with off := r.off+1 } (not_lt.mp hr'))]
      rfl
  · rw [Run.bind_ok (rU8_fail r (by omega))]
    rfl

theorem readExprTagged {e e' : Rd Expr} (h : Steady safe n e e') (tag : UInt8) :
    Steady safe n (readExprTagged e tag) (readExprTagged e' tag) := by
  by_cases ht : GoodExprTag tag
  · exact .bind (.exprTag n tag ht) fun _ => readExprRest h tag
  · exact .badExprTag tag (readExprRest h tag) (readExprRest_err tag ht)

theorem readExpr (h : n ≤ k) : Steady safe n (readExpr n) (readExpr k) := by
  induction n generalizing k with
  | zero => exact .fuel _
  | succ n ih =>
    obtain ⟨k, rfl⟩ : ∃ j, k = j+1 := ⟨k-1, by omega⟩
    have hk : n ≤ k := Nat.le_of_succ_le_succ h
    exact .node .null fun tag => readExprTagged (ih hk) tag

theorem readStmtNode {e e' : Rd Expr} {s s' : Rd Stmt} (h : Steady safe n e e')
    (hs : Steady safe n s s') (tag : UInt8) (line : Int32) :
    Steady safe n (readStmtNode e s tag line) (readStmtNode e' s' tag line) := by
  unfold Slemu.readStmtNode
  split
  · exact .bind h fun _ => .pure n _
  · exact .bind u8 fun _ => .bind i32 fun _ => .bind u8 fun _ => .bind (onFlag h) fun _ =>
      .pure n _
  · exact .bind u32 fun _ => .bind (fill hs) fun _ => .pure n _
  · exact .bind h fun _ => .bind hs fun _ => .bind u8 fun _ => .bind (onFlag hs) fun _ =>
      .pure n _
  · exact .bind h fun _ => .bind hs fun _ => .pure n _
  · exact .bind hs fun _ => .bind h fun _ => .pure n _
  · exact .bind u8 fun _ => .bind (fill h) fun _ => .bind u8 fun _ => .bind (onFlag h) fun _ =>
      .bind u8 fun _ => .bind (fill h) fun _ => .bind hs fun _ => .pure n _
  · exact .bind u8 fun _ => .bind (onFlag h) fun _ => .pure n _
  · exact .bind i32 fun _ => .pure n _
  · exact .bind i32 fun _ => .pure n _
  · exact .bind i32 fun _ => .pure n _
  · exact .pure n _
  · exact .bind (.error n) fun _ => .pure n _

theorem readStmtRest {e e' : Rd Expr} {s s' : Rd Stmt} (h : Steady safe n e e')
    (hs : Steady safe n s s') (tag : UInt8) :
    Steady safe n (readStmtRest e s tag) (readStmtRest e' s' tag) := by
  unfold Slemu.readStmtRest
  split
  · exact .pure n _
  · exact .bind lineWord fun line => readStmtNode h hs tag line

theorem lineWord_total (r : Rdr) : ∃ line r', Slemu.lineWord r = (.ok line, r') := by
  unfold Slemu.lineWord
  rw [Run.bind_ok (Run.read_apply Rdr.version r)]
  split
  · by_cases h : r.off+4 ≤ r.src.length
    · exact ⟨_, _, Run.bind_ok (Run.bind_ok (rLocal_ok 4 r h) _) _⟩
    · exact ⟨_, _, Run.bind_ok (Run.bind_ok (rLocal_fail 4 r (not_le.mp h)) _) _⟩
  · exact ⟨0, r, rfl⟩

theorem readStmtRest_err {e : Rd Expr} {s : Rd Stmt} (tag : UInt8) (h : ¬ GoodStmtTag tag)
    (r : Rdr) : (Slemu.readStmtRest e s tag r).2.err = true := by
  obtain ⟨h11, hff⟩ := not_or.mp h
  have ht : 11 < tag.toNat := by simpa [UInt8.le_iff_toNat_le] using h11
  unfold Slemu.readStmtRest
  rw [if_neg hff]
  obtain ⟨line, r', hl⟩ := lineWord_total r
  rw [Run.bind_ok hl]
  unfold Slemu.readStmtNode
  split <;> first | omega | rfl

theorem readStmtTagged {e e' : Rd Expr} {s s' : Rd Stmt} (h : Steady safe n e e')
    (hs : Steady safe n s s') (tag : UInt8) :
    Steady safe n (readStmtTagged e s tag) (readStmtTagged e' s' tag) := by
  by_cases ht : GoodStmtTag tag
  · exact .bind (.stmtTag n tag ht) fun _ => readStmtRest h hs tag
  · exact .badStmtTag tag (readStmtRest h hs tag) (readStmtRest_err tag ht)

theorem readStmt (h : n ≤ k) : Steady safe n (readStmt n) (readStmt k) := by
  induction n generalizing k with
  | zero => exact .fuel _
  | succ n ih =>
    obtain ⟨k, rfl⟩ : ∃ j, k = j+1 := ⟨k-1, by omega⟩
    have hk : n ≤ k := Nat.le_of_succ_le_succ h
    exact .node .null fun tag => readStmtTagged (readExpr hk) (ih hk) tag

theorem readParam : Steady safe n readParam readParam :=
  .bind u8 fun _ => .bind i32 fun _ => .pure n _

theorem readGlobal (h : n ≤ k) : Steady safe n (readGlobal n) (readGlobal k) :=
  .bind u8 fun _ => .bind i32 fun _ => .bind u8 fun _ => .bind (onFlag (readExpr h)) fun _ =>
    .pure n _

theorem readFunc (h : n ≤ k) : Steady safe n (readFunc n) (readFunc k) :=
  .bind i32 fun _ => .bind lineWord fun _ => .bind u8 fun _ => .bind u8 fun _ =>
    .bind u8 fun _ => .bind (fill readParam) fun _ => .bind (readStmt h) fun _ => .pure n _

theorem readEvent (h : n ≤ k) : Steady safe n (readEvent n) (readEvent k) :=
  .bind i32 fun _ => .bind lineWord fun _ => .bind u8 fun _ => .bind (fill readParam) fun _ =>
    .bind (readStmt h) fun _ => .pure n _

theorem readState (h : n ≤ k) : Steady safe n (readState n) (readState k) :=
  .bind i32 fun _ => .bind lineWord fun _ => .bind u8 fun _ => .bind u32 fun _ =>
    .bind (fill (readEvent h)) fun _ => .pure n _

theorem readDecls (h : n ≤ k) (strings : List Bytes) (flags : Int32) :
    Steady safe n (readDecls n strings flags) (readDecls k strings flags) :=
  .bind (readTable (readGlobal h)) fun _ => .bind (readTable (readFunc h)) fun _ =>
    .bind (readTable (readState h)) fun _ => .pure n _

/-- The string pool, where a store need not be inside its block. -/
theorem readChars (alloc : ℕ) (l : UInt32) :
    Steady false n (readChars alloc l) (readChars alloc l) := by
  unfold Slemu.readChars rBytes
  split
  · refine .bind (.take n _) fun bs => ?_
    rcases bs with _ | bs
    · exact .pure n none
    · exact .bind (.block n _ _ _ nofun) fun _ => .pure n _
  · exact .pure n none

theorem readString : Steady false n readString readString :=
  .bind u32 fun _ => .bind (readChars _ _) fun _ => .bind (.block n _ _ _ nofun) fun _ =>
    .pure n _

theorem readProgram (h : n ≤ k) (flags : Int32) :
    Steady false n (readProgram n flags) (readProgram k flags) :=
  .bind (readTable readString) fun strings => readDecls h strings flags

end Steady

/-! ### The header and the string pool, read off the source

Nothing but these decides whether the loader stays in bounds. -/

/-- The 32-bit word at an offset, or the junk of draw `d` if the source ends before it; then
the next offset and draw. -/
def wordAt (src : Bytes) (junk : ℕ → UInt64) (off d : ℕ) : UInt32 × ℕ × ℕ :=
  if off+4 ≤ src.length then ((leNat ((src.drop off).take 4)).toUInt32, off+4, d)
  else ((junk d).toNat.toUInt32, off, d+1)

/-- The lengths of `n` pool strings. A string that the source does not hold is not skipped. -/
def poolLengths (src : Bytes) (junk : ℕ → UInt64) : ℕ → ℕ → ℕ → List UInt32
  | 0, _, _ => []
  | n+1, off, d =>
    let (l, off, d) := wordAt src junk off d
    l :: poolLengths src junk n (if off+l.toNat ≤ src.length then off+l.toNat else off) d

/-- Magic bytes, version 1 or 2, and the flags. -/
def headerOk (src : Bytes) : Bool :=
  13 ≤ src.length && src.take 5 = magicBytes &&
    ((leNat ((src.drop 5).take 4)).toUInt32 = 1 || (leNat ((src.drop 5).take 4)).toUInt32 = 2)

/-- No string of the pool has the length `0xFFFFFFFF`, for which `l + 1` is 0. -/
def PoolFits (src : Bytes) (junk : ℕ → UInt64) : Prop :=
  headerOk src → ∀ l ∈ poolLengths src junk (wordAt src junk 13 0).1.toNat
    (wordAt src junk 13 0).2.1 (wordAt src junk 13 0).2.2, l ≠ 0xFFFFFFFF

/-! ### The pool loop takes these lengths -/

/-- `r'` differs from `r` in the error flag at most, apart from the new offset and draw. -/
structure Moved (r r' : Rdr) (off d : ℕ) : Prop where
  src : r'.src = r.src
  off : r'.off = off
  junk : r'.junk = r.junk
  draws : r'.draws = d
  exprTags : r'.exprTags = r.exprTags
  stmtTags : r'.stmtTags = r.stmtTags

theorem Moved.trans {r s t : Rdr} {off d off' d' : ℕ} (h : Moved r s off d)
    (h' : Moved s t off' d') : Moved r t off' d' :=
  ⟨h'.src.trans h.src, h'.off, h'.junk.trans h.junk, h'.draws, h'.exprTags.trans h.exprTags,
    h'.stmtTags.trans h.stmtTags⟩

theorem u32_moved (r : Rdr) :
    ∃ r', u32 r = (.ok (wordAt r.src r.junk r.off r.draws).1, r') ∧
      Moved r r' (wordAt r.src r.junk r.off r.draws).2.1
        (wordAt r.src r.junk r.off r.draws).2.2 := by
  unfold wordAt
  by_cases h : r.off+4 ≤ r.src.length
  · simp only [if_pos h]
    exact ⟨_, Run.bind_ok (rLocal_ok 4 r h) _, rfl, rfl, rfl, rfl, rfl, rfl⟩
  · simp only [if_neg h]
    exact ⟨_, Run.bind_ok (rLocal_fail 4 r (not_le.mp h)) _, rfl, rfl, rfl, rfl, rfl, rfl⟩

theorem readChars_moved (alloc : ℕ) (l : UInt32) (hl : l.toNat ≤ alloc) (r : Rdr)
    (hr : r.off ≤ r.src.length) :
    ∃ s r', readChars alloc l r = (.ok s, r') ∧
      Moved r r' (if r.off+l.toNat ≤ r.src.length then r.off+l.toNat else r.off) r.draws := by
  unfold readChars
  by_cases h0 : l = 0
  · simp only [h0, ne_eq, not_true, if_false]
    refine ⟨none, r, rfl, rfl, ?_, rfl, rfl, rfl, rfl⟩
    simp [hr]
  · simp only [ne_eq, h0, not_false_eq_true, if_true]
    by_cases h : r.off+l.toNat ≤ r.src.length
    · rw [if_pos h, rBytes_ok alloc l.toNat r h hl]
      exact ⟨_, _, rfl, rfl, rfl, rfl, rfl, rfl, rfl⟩
    · rw [if_neg h, rBytes_fail alloc l.toNat r (not_le.mp h)]
      exact ⟨_, _, rfl, rfl, rfl, rfl, rfl, rfl, rfl⟩

theorem wordAt_off (src : Bytes) (junk : ℕ → UInt64) (off d : ℕ) (h : off ≤ src.length) :
    (wordAt src junk off d).2.1 ≤ src.length := by
  unfold wordAt
  split
  · assumption
  · exact h

/-- A string of any other length stays inside its block. -/
theorem readString_moved (r : Rdr) (hr : r.off ≤ r.src.length) (l : UInt32) (off d : ℕ)
    (hw : wordAt r.src r.junk r.off r.draws = (l, off, d)) (hl : l ≠ 0xFFFFFFFF) :
    ∃ s r', readString r = (.ok s, r') ∧
      Moved r r' (if off+l.toNat ≤ r.src.length then off+l.toNat else off) d := by
  obtain ⟨r1, h1, m1⟩ := u32_moved r
  have ho := wordAt_off r.src r.junk r.off r.draws hr
  rw [hw] at h1 m1 ho
  dsimp only at h1 m1 ho
  have halloc : xmalloc (l+1).toNat = l.toNat+1 := by
    have hlt : l.toNat < 2^32 := l.toNat_lt
    have hne : l.toNat ≠ 2^32-1 := fun h => hl (UInt32.toNat_inj.mp h)
    have hs : (l+1).toNat = (l.toNat+1)%2^32 := UInt32.toNat_add l 1
    unfold xmalloc
    omega
  obtain ⟨s, r2, h2, m2⟩ := readChars_moved (l.toNat+1) l (Nat.le_succ _) r1
    (by rw [m1.src, m1.off]; exact ho)
  refine ⟨cstr (s.getD []), r2, ?_, ?_⟩
  · unfold readString
    rw [Run.bind_ok h1, halloc, Run.bind_ok h2, Run.bind_ok (store_ok _ _ _ r2 (le_refl _))]
    rfl
  · rw [m1.src, m1.off, m1.draws] at m2
    exact m1.trans m2

/-- A string of length `0xFFFFFFFF` gets a block of one byte. -/
theorem readString_fault (r : Rdr) (l : UInt32) (off d : ℕ)
    (hw : wordAt r.src r.junk r.off r.draws = (l, off, d)) (hl : l = 0xFFFFFFFF) :
    ∃ r', readString r = (.error .fault, r') ∧ r'.exprTags = r.exprTags ∧
      r'.stmtTags = r.stmtTags := by
  obtain ⟨r1, h1, m1⟩ := u32_moved r
  rw [hw] at h1 m1
  dsimp only at h1
  have halloc : xmalloc (l+1).toNat = 1 := by rw [hl]; rfl
  have hne : l ≠ 0 := by rw [hl]; decide
  have hbig : 1 < l.toNat := by rw [hl]; decide
  have hchars : readChars 1 l = rBytes 1 l.toNat := if_pos hne
  unfold readString
  rw [Run.bind_ok h1, halloc, hchars]
  by_cases h : r1.off+l.toNat ≤ r1.src.length
  · -- already the copy of the string goes outside
    rw [Run.bind_error (rBytes_fault 1 l.toNat r1 h hbig)]
    exact ⟨_, rfl, m1.exprTags, m1.stmtTags⟩
  · rw [Run.bind_ok (rBytes_fail 1 l.toNat r1 (not_le.mp h)),
      Run.bind_error (store_fault 1 l.toNat 1 _ (by omega))]
    exact ⟨_, rfl, m1.exprTags, m1.stmtTags⟩

/-! The loop over the pool goes wrong exactly at such a length. -/

theorem later_readString : Run.Keeps Later readString := (Steady.readString (n := 0)).later

theorem fillPool_ok (count i j : ℕ) (hi : i+j ≤ count) (r : Rdr) (hr : r.off ≤ r.src.length)
    (hl : ∀ l ∈ poolLengths r.src r.junk j r.off r.draws, l ≠ 0xFFFFFFFF) :
    ∃ ss r', fillFrom (xcalloc count 8) 8 readString i j r = (.ok ss, r') := by
  induction j generalizing i r with
  | zero => exact ⟨[], r, rfl⟩
  | succ j ih =>
    rcases hw : wordAt r.src r.junk r.off r.draws with ⟨l, off, d⟩
    simp only [poolLengths, hw, List.forall_mem_cons] at hl
    obtain ⟨s, r1, h1, m1⟩ := readString_moved r hr l off d hw hl.1
    have hl1 := later_readString r
    rw [h1] at hl1
    obtain ⟨ss, r2, h2⟩ := ih (i+1) (by omega) r1 (hl1.inside hr)
      (by rw [m1.src, m1.junk, m1.off, m1.draws]; exact hl.2)
    refine ⟨s :: ss, r2, ?_⟩
    unfold fillFrom
    rw [Run.bind_ok (store_ok _ _ _ r (element_inside count 8 i (by omega))), Run.bind_ok h1,
      Run.bind_ok h2]
    rfl

theorem fillPool_fault (count i j : ℕ) (hi : i+j ≤ count) (r : Rdr) (hr : r.off ≤ r.src.length)
    (hl : ∃ l ∈ poolLengths r.src r.junk j r.off r.draws, l = 0xFFFFFFFF) :
    ∃ r', fillFrom (xcalloc count 8) 8 readString i j r = (.error .fault, r') ∧
      r'.exprTags = r.exprTags ∧ r'.stmtTags = r.stmtTags := by
  induction j generalizing i r with
  | zero =>
    obtain ⟨l, hl, -⟩ := hl
    cases hl
  | succ j ih =>
    rcases hw : wordAt r.src r.junk r.off r.draws with ⟨l, off, d⟩
    simp only [poolLengths, hw] at hl
    unfold fillFrom
    rw [Run.bind_ok (store_ok _ _ _ r (element_inside count 8 i (by omega)))]
    by_cases hmax : l = 0xFFFFFFFF
    · obtain ⟨r1, h1, ht⟩ := readString_fault r l off d hw hmax
      rw [Run.bind_error h1]
      exact ⟨r1, rfl, ht⟩
    · obtain ⟨l', hmem, he⟩ := hl
      have hmem' := (List.mem_cons.mp hmem).resolve_left (he ▸ Ne.symm hmax)
      obtain ⟨s, r1, h1, m1⟩ := readString_moved r hr l off d hw hmax
      have hl1 := later_readString r
      rw [h1] at hl1
      obtain ⟨r2, h2, ht⟩ := ih (i+1) (by omega) r1 (hl1.inside hr)
        ⟨l', by rw [m1.src, m1.junk, m1.off, m1.draws]; exact hmem', he⟩
      rw [Run.bind_ok h1, Run.bind_error h2]
      exact ⟨r2, rfl, ht.1.trans m1.exprTags, ht.2.trans m1.stmtTags⟩

/-! ### The whole load -/

/-- What `load` does with a good header. -/
def afterHeader (src : Bytes) (junk : ℕ → UInt64) : Rdr :=
  { openRdr src junk with off := 13, version := (leNat ((src.drop 5).take 4)).toUInt32 }

def headerFlags (src : Bytes) : Int32 := (leNat ((src.drop 9).take 4)).toUInt32.toInt32

theorem version_range (v : UInt32) : (v.toInt32 < 1 ∨ v.toInt32 > 2) ↔ ¬ (v = 1 ∨ v = 2) := by
  have hv : v.toInt32.toInt =
      if 2*v.toNat < 2^32 then (v.toNat : ℤ) else (v.toNat : ℤ)-(2^32 : ℕ) :=
    BitVec.toInt_eq_toNat_cond v.toBitVec
  have h1 : (1 : Int32).toInt = 1 := rfl
  have h2 : (2 : Int32).toInt = 2 := rfl
  have hlt := v.toNat_lt
  have e1 : v = 1 ↔ v.toNat = 1 := UInt32.toNat_inj.symm
  have e2 : v = 2 ↔ v.toNat = 2 := UInt32.toNat_inj.symm
  rw [gt_iff_lt, Int32.lt_iff_toInt_lt, Int32.lt_iff_toInt_lt, h1, h2, hv, e1, e2]
  split <;> omega

/-- What the header leaves behind: `load` reads on exactly after a good one. -/
structure HeaderRead (src : Bytes) (junk : ℕ → UInt64) (ok : Bool)
    (m : Except Stop (Option Int32) × Rdr) : Prop where
  result : m.1 = .ok (if ok then some (headerFlags src) else none)
  rdr : ok → m.2 = afterHeader src junk
  tags : GoodTags m.2

theorem HeaderRead.of_none {src : Bytes} {junk : ℕ → UInt64} {r : Rdr} (he : r.exprTags = [])
    (hs : r.stmtTags = []) : HeaderRead src junk false (.ok none, r) :=
  ⟨rfl, nofun, by simp [he], by simp [hs]⟩

theorem readVersion_eq (src : Bytes) (junk : ℕ → UInt64) :
    HeaderRead src junk
      (13 ≤ src.length && ((leNat ((src.drop 5).take 4)).toUInt32 = 1 ||
        (leNat ((src.drop 5).take 4)).toUInt32 = 2))
      (readVersion ⟨src, 5, false, 1, junk, 0, [], []⟩) := by
  unfold readVersion
  by_cases h9 : 9 ≤ src.length
  · rw [Run.bind_ok (rU32_ok ⟨src, 5, false, 1, junk, 0, [], []⟩ h9)]
    dsimp only
    by_cases h13 : 13 ≤ src.length
    · rw [Run.bind_ok (rU32_ok ⟨src, 9, false, 1, junk, 0, [], []⟩ h13)]
      dsimp only
      rw [Run.bind_ok (Run.update_apply _ _)]
      by_cases hv : (leNat ((src.drop 5).take 4)).toUInt32 = 1 ∨
          (leNat ((src.drop 5).take 4)).toUInt32 = 2
      · rw [if_neg (fun h => (version_range _).mp h hv)]
        have hb : (decide (13 ≤ src.length) && (decide ((leNat ((src.drop 5).take 4)).toUInt32 = 1) ||
            decide ((leNat ((src.drop 5).take 4)).toUInt32 = 2))) = true := by
          simpa [h13] using hv
        rw [hb]
        exact ⟨rfl, fun _ => rfl, by simp, by simp⟩
      · rw [if_pos ((version_range _).mpr hv)]
        have hb : (decide (13 ≤ src.length) && (decide ((leNat ((src.drop 5).take 4)).toUInt32 = 1) ||
            decide ((leNat ((src.drop 5).take 4)).toUInt32 = 2))) = false := by
          simpa [h13] using hv
        rw [hb]
        exact .of_none rfl rfl
    · rw [Run.bind_ok (rU32_fail ⟨src, 9, false, 1, junk, 0, [], []⟩ (not_le.mp h13))]
      simp only [h13, decide_false, Bool.false_and]
      exact .of_none rfl rfl
  · have h13 : ¬ 13 ≤ src.length := by omega
    rw [Run.bind_ok (rU32_fail ⟨src, 5, false, 1, junk, 0, [], []⟩ (not_le.mp h9))]
    simp only [h13, decide_false, Bool.false_and]
    exact .of_none rfl rfl

theorem readHeader_eq (src : Bytes) (junk : ℕ → UInt64) :
    HeaderRead src junk (headerOk src) (readHeader (openRdr src junk)) := by
  unfold readHeader headerOk openRdr
  by_cases h5 : 5 ≤ src.length
  · rw [Run.bind_ok (rBytes_ok 5 5 ⟨src, 0, false, 1, junk, 0, [], []⟩ h5 (le_refl 5))]
    dsimp only
    rw [List.drop_zero]
    by_cases hmagic : src.take 5 = magicBytes
    · rw [if_neg (not_not_intro hmagic)]
      simpa only [hmagic, decide_true, Bool.and_true] using readVersion_eq src junk
    · rw [if_pos hmagic]
      simp only [hmagic, decide_false, Bool.and_false, Bool.false_and]
      exact .of_none rfl rfl
  · have h13 : ¬ 13 ≤ src.length := by omega
    rw [Run.bind_ok (rBytes_fail 5 5 ⟨src, 0, false, 1, junk, 0, [], []⟩ (not_le.mp h5))]
    simp only [h13, decide_false, Bool.false_and]
    exact .of_none rfl rfl

theorem headerOk_length (src : Bytes) (h : headerOk src = true) : 13 ≤ src.length := by
  simp only [headerOk, Bool.and_eq_true, decide_eq_true_eq] at h
  exact h.1.1

theorem load_bad_header (src : Bytes) (junk : ℕ → UInt64) (h : headerOk src = false) :
    ∃ r', load (openRdr src junk) = (.ok none, r') ∧ GoodTags r' := by
  have hh := readHeader_eq src junk
  rw [h] at hh
  rcases hr : readHeader (openRdr src junk) with ⟨o, r'⟩
  rw [hr] at hh
  obtain rfl : o = .ok none := hh.result
  unfold load
  rw [Run.bind_ok hr]
  exact ⟨r', rfl, hh.tags⟩

/-- After a good header, `load` is the reading of the program and the test of `err`. -/
theorem load_eq (src : Bytes) (junk : ℕ → UInt64) (h : headerOk src = true) :
    load (openRdr src junk) =
      (do let p ← readProgram (src.length+1) (headerFlags src)
          if ← Run.read Rdr.err then pure none else pure (some p) : Rd (Option Program))
        (afterHeader src junk) := by
  have hh := readHeader_eq src junk
  rw [h] at hh
  rcases hr : readHeader (openRdr src junk) with ⟨o, r'⟩
  rw [hr] at hh
  obtain rfl : o = .ok (some (headerFlags src)) := hh.result
  obtain rfl : r' = afterHeader src junk := hh.rdr rfl
  unfold load
  rw [Run.bind_ok hr]
  rfl

theorem load_error (src : Bytes) (junk : ℕ → UInt64) (h : headerOk src = true) (e : Stop)
    (r' : Rdr) (hp : readProgram (src.length+1) (headerFlags src) (afterHeader src junk) =
      (.error e, r')) : load (openRdr src junk) = (.error e, r') := by
  rw [load_eq src junk h]
  exact Run.bind_error hp _

theorem load_done (src : Bytes) (junk : ℕ → UInt64) (h : headerOk src = true) (p : Program)
    (r' : Rdr) (hp : readProgram (src.length+1) (headerFlags src) (afterHeader src junk) =
      (.ok p, r')) :
    load (openRdr src junk) = (.ok (if r'.err then none else some p), r') := by
  rw [load_eq src junk h, Run.bind_ok hp, Run.bind_ok (Run.read_apply _ _)]
  split <;> rfl

/-- The pool decides whether the program is read in bounds. -/
theorem readProgram_pool (src : Bytes) (junk : ℕ → UInt64) (h : headerOk src = true) :
    (PoolFits src junk ∧ ∀ r', readProgram (src.length+1) (headerFlags src)
        (afterHeader src junk) ≠ (.error .fault, r')) ∨
    (¬ PoolFits src junk ∧ ∃ r', readProgram (src.length+1) (headerFlags src)
        (afterHeader src junk) = (.error .fault, r') ∧ GoodTags r') := by
  have hoff : (afterHeader src junk).off ≤ (afterHeader src junk).src.length :=
    headerOk_length src h
  obtain ⟨r1, h1, m1⟩ := u32_moved (afterHeader src junk)
  have ho := wordAt_off (afterHeader src junk).src (afterHeader src junk).junk _
    (afterHeader src junk).draws hoff
  have hr1 : r1.off ≤ r1.src.length := by rwa [m1.off, m1.src]
  have hpool : poolLengths r1.src r1.junk (wordAt src junk 13 0).1.toNat r1.off r1.draws =
      poolLengths src junk (wordAt src junk 13 0).1.toNat (wordAt src junk 13 0).2.1
        (wordAt src junk 13 0).2.2 := by
    rw [m1.src, m1.junk, m1.off, m1.draws]
    rfl
  have hi : 0+(wordAt src junk 13 0).1.toNat ≤ (wordAt src junk 13 0).1.toNat := by omega
  unfold readProgram readTable fill
  by_cases hfits : PoolFits src junk
  · left
    refine ⟨hfits, ?_⟩
    obtain ⟨ss, r2, h2⟩ := fillPool_ok _ 0 _ hi r1 hr1 (by rw [hpool]; exact hfits h)
    rw [Run.bind_ok (Run.bind_ok h1 _ |>.trans h2)]
    intro r' hf
    have := Steady.no_fault (Steady.readDecls (le_refl (src.length+1)) ss (headerFlags src)) r2
    rw [hf] at this
    exact this rfl
  · right
    refine ⟨hfits, ?_⟩
    have hbad : ∃ l ∈ poolLengths r1.src r1.junk (wordAt src junk 13 0).1.toNat r1.off r1.draws,
        l = 0xFFFFFFFF := by
      rw [hpool]
      unfold PoolFits at hfits
      push Not at hfits
      exact hfits.2
    obtain ⟨r2, h2, ht⟩ := fillPool_fault _ 0 _ hi r1 hr1 hbad
    rw [Run.bind_error (Run.bind_ok h1 _ |>.trans h2)]
    refine ⟨r2, rfl, ?_, ?_⟩
    · rw [ht.1, m1.exprTags]
      exact nofun
    · rw [ht.2, m1.stmtTags]
      exact nofun

/-- The fuel of the model is enough for every file. -/
theorem load_no_fuel (src : Bytes) (junk : ℕ → UInt64) : programLoad src junk ≠ .error .fuel := by
  unfold programLoad
  cases h : headerOk src with
  | false =>
    obtain ⟨r', hl, -⟩ := load_bad_header src junk h
    rw [hl]
    nofun
  | true =>
    rcases hp : readProgram (src.length+1) (headerFlags src) (afterHeader src junk)
      with ⟨e | p, r'⟩
    · rw [load_error src junk h e r' hp]
      have := Steady.no_fuel (Steady.readProgram (le_refl (src.length+1)) (headerFlags src))
        (afterHeader src junk) (headerOk_length src h) (by
          change src.length < src.length+1+13
          omega)
      simpa [hp] using this
    · rw [load_done src junk h p r' hp]
      nofun

theorem load_fault_iff (src : Bytes) (junk : ℕ → UInt64) :
    programLoad src junk = .error .fault ↔ ¬ PoolFits src junk := by
  unfold programLoad
  cases h : headerOk src with
  | false =>
    obtain ⟨r', hl, -⟩ := load_bad_header src junk h
    rw [hl]
    exact iff_of_false nofun (not_not_intro fun hh => absurd hh (by simp [h]))
  | true =>
    rcases readProgram_pool src junk h with ⟨hfits, hnf⟩ | ⟨hfits, r', hf, -⟩
    · refine iff_of_false ?_ (not_not_intro hfits)
      rcases hp : readProgram (src.length+1) (headerFlags src) (afterHeader src junk)
        with ⟨e | p, r'⟩
      · rw [load_error src junk h e r' hp]
        rintro he
        exact hnf r' (by rw [hp, Except.error.inj he])
      · rw [load_done src junk h p r' hp]
        nofun
    · rw [load_error src junk h .fault r' hf]
      exact iff_of_true rfl hfits

/-- The loader stays in bounds exactly on the files without a pool string of length
`0xFFFFFFFF`. -/
theorem programLoad_in_bounds_iff (src : Bytes) (junk : ℕ → UInt64) :
    programLoad src junk ≠ .error .fault ↔ PoolFits src junk := by
  rw [ne_eq, load_fault_iff, not_not]

/-- One string, of length `0xFFFFFFFF`. -/
def hugeStringFile : Bytes :=
  magicBytes ++ [2, 0, 0, 0] ++ [0, 0, 0, 0] ++ [1, 0, 0, 0] ++ [255, 255, 255, 255]

theorem hugeString_out_of_bounds :
    programLoad hugeStringFile (fun _ => 0) = .error .fault := by
  rfl

/-! ### Rejection -/

theorem headerOk_take (src : Bytes) (m : ℕ) (h : headerOk (src.take m) = true) :
    headerOk src = true ∧ headerFlags (src.take m) = headerFlags src ∧
      ∀ junk junk', Longer (afterHeader (src.take m) junk) (afterHeader src junk') := by
  have hlen := headerOk_length _ h
  have hm : 13 ≤ m ∧ 13 ≤ src.length := by
    rw [List.length_take] at hlen
    omega
  have hword (i : ℕ) (hi : i+4 ≤ 13) : ((src.take m).drop i).take 4 = (src.drop i).take 4 := by
    rw [List.drop_take, List.take_take, min_eq_left (by omega)]
  have h5 : (src.take m).take 5 = src.take 5 := by
    rw [List.take_take, min_eq_left (by omega)]
  refine ⟨?_, ?_, ?_⟩
  · simp only [headerOk, hword 5 (by omega), h5, Bool.and_eq_true, decide_eq_true_eq] at h ⊢
    exact ⟨⟨hm.2, h.1.2⟩, h.2⟩
  · simp only [headerFlags, hword 9 (by omega)]
  · intro junk junk'
    exact ⟨List.take_prefix m src, rfl, rfl, by
      simp only [afterHeader, hword 5 (by omega)]⟩

/-- What an accepted file went through. -/
theorem load_accepted (src : Bytes) (junk : ℕ → UInt64) (p : Program)
    (h : programLoad src junk = .ok (some p)) :
    headerOk src = true ∧ readProgram (src.length+1) (headerFlags src) (afterHeader src junk) =
      (.ok p, loadedRdr src junk) ∧ (loadedRdr src junk).err = false := by
  unfold programLoad at h
  unfold loadedRdr
  cases hh : headerOk src with
  | false =>
    obtain ⟨r', hl, -⟩ := load_bad_header src junk hh
    rw [hl] at h
    cases h
  | true =>
    rcases hp : readProgram (src.length+1) (headerFlags src) (afterHeader src junk)
      with ⟨e | q, r'⟩
    · rw [load_error src junk hh e r' hp] at h
      cases h
    · rw [load_done src junk hh q r' hp] at h ⊢
      cases he : r'.err with
      | true =>
        simp only [he, if_true, Except.ok.injEq, reduceCtorEq] at h
      | false =>
        simp only [he, Bool.false_eq_true, if_false, Except.ok.injEq, Option.some.injEq] at h
        exact ⟨rfl, by rw [h], rfl⟩

/-- A file cut off before the last byte that was read is not accepted. -/
theorem truncated_not_accepted (src : Bytes) (junk junk' : ℕ → UInt64) (p p' : Program) (m : ℕ)
    (h : programLoad src junk = .ok (some p)) (hm : m < (loadedRdr src junk).off) :
    programLoad (src.take m) junk' ≠ .ok (some p') := by
  intro h'
  obtain ⟨hh, hp, he⟩ := load_accepted src junk p h
  obtain ⟨hh', hp', he'⟩ := load_accepted (src.take m) junk' p' h'
  obtain ⟨-, hf, hlong⟩ := headerOk_take src m hh'
  have hlen : (src.take m).length+1 ≤ src.length+1 := by
    rw [List.length_take]
    omega
  obtain ⟨s', hs, hl⟩ := (Steady.readProgram hlen (headerFlags (src.take m))).follows _ _ _ _
    hp' he' (hlong junk' junk)
  rw [hf, hp] at hs
  obtain rfl : loadedRdr src junk = s' := congrArg Prod.snd hs
  -- the cut-off run stayed inside what was left of the file
  have hlater := (Steady.readProgram (le_refl ((src.take m).length+1))
    (headerFlags (src.take m))).later (afterHeader (src.take m) junk')
  rw [hp'] at hlater
  have hin : (loadedRdr (src.take m) junk').off ≤ (loadedRdr (src.take m) junk').src.length :=
    hlater.inside (headerOk_length _ hh')
  have hsrc : (loadedRdr (src.take m) junk').src = src.take m := hlater.src
  have hoff := hl.off
  rw [hsrc, List.length_take] at hin
  omega

/-- A file whose parse meets a tag outside the format is rejected. -/
theorem badTags_rejected (src : Bytes) (junk : ℕ → UInt64)
    (h : ¬ GoodTags (loadedRdr src junk)) : programLoad src junk = .ok none := by
  unfold loadedRdr at h
  unfold programLoad
  cases hh : headerOk src with
  | false =>
    obtain ⟨r', hl, -⟩ := load_bad_header src junk hh
    rw [hl]
  | true =>
    rcases hp : readProgram (src.length+1) (headerFlags src) (afterHeader src junk)
      with ⟨e | p, r'⟩
    · rw [load_error src junk hh e r' hp] at h ⊢
      have hne : e ≠ .fuel := by
        have := load_no_fuel src junk
        rw [programLoad, load_error src junk hh e r' hp] at this
        exact fun he => this (by rw [he])
      cases e with
      | fuel => exact absurd rfl hne
      | fault =>
        -- only the pool faults, before any tag is read
        rcases readProgram_pool src junk hh with ⟨-, hnf⟩ | ⟨-, r'', hf, hg⟩
        · exact absurd hp (hnf r')
        · rw [hp] at hf
          obtain rfl : r' = r'' := congrArg Prod.snd hf
          exact absurd hg h
    · rw [load_done src junk hh p r' hp] at h ⊢
      cases he : r'.err with
      | true => rfl
      | false =>
        have hg : GoodTags (afterHeader src junk) := ⟨nofun, nofun⟩
        exact absurd ((Steady.readProgram (le_refl _) _).tags _ _ p hp he hg) h

/-- A truncated file gives 0 exactly when no string length taken from it is `0xFFFFFFFF`; a tag
outside the format always gives 0. -/
theorem programLoad_rejects_iff (src : Bytes) (junk : ℕ → UInt64) :
    (∀ p, programLoad src junk = .ok (some p) → ∀ m < (loadedRdr src junk).off, ∀ junk',
      (programLoad (src.take m) junk' = .ok none ↔ PoolFits (src.take m) junk')) ∧
    (¬ GoodTags (loadedRdr src junk) → programLoad src junk = .ok none) := by
  refine ⟨?_, badTags_rejected src junk⟩
  intro p h m hm junk'
  have hna := fun p' => truncated_not_accepted src junk junk' p p' m h hm
  have hnf := load_no_fuel (src.take m) junk'
  have hfault := load_fault_iff (src.take m) junk'
  rcases hl : programLoad (src.take m) junk' with (_ | _) | (_ | p')
  · exact absurd hl hnf
  · exact iff_of_false nofun (hfault.mp hl)
  · refine iff_of_true rfl (not_not.mp (mt hfault.mpr ?_))
    rw [hl]
    nofun
  · exact absurd hl (hna p')

/-- No strings, globals, functions or states. -/
def emptyFile : Bytes := magicBytes ++ [1, 0, 0, 0] ++ List.replicate 20 0

theorem emptyFile_truncated : programLoad (emptyFile.take 20) (fun _ => 0) = .ok none := by
  have hfits : PoolFits (emptyFile.take 20) (fun _ => 0) := by
    intro _ l hl
    change l ∈ ([] : List UInt32) at hl
    cases hl
  exact ((programLoad_rejects_iff emptyFile fun _ => 0).1 _ rfl 20 (by decide) _).mpr hfits

/-- Two strings, eight bytes `0xFF` and the empty one. -/
def ffStringFile : Bytes :=
  magicBytes ++ [2, 0, 0, 0] ++ [0, 0, 0, 0] ++ [2, 0, 0, 0] ++ [8, 0, 0, 0] ++
    List.replicate 8 255 ++ List.replicate 16 0

/-- Cut off inside the first string, its bytes are taken for the length of the second. -/
theorem ffString_truncated_faults :
    (∃ p, programLoad ffStringFile (fun _ => 0) = .ok (some p)) ∧
      25 < (loadedRdr ffStringFile fun _ => 0).off ∧
      programLoad (ffStringFile.take 25) (fun _ => 0) ≠ .ok none := by
  refine ⟨⟨_, rfl⟩, by decide, ?_⟩
  have h : programLoad (ffStringFile.take 25) (fun _ => 0) = .error .fault := rfl
  rw [h]
  nofun

end Slemu
