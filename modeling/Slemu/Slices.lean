import Slemu.Value

/-! The builtins that take parts of a string or of a list between two indices. -/

namespace Slemu
variable {F : Type} {α β : Type}

/-- An index that counts from the end when it is negative. -/
def fromEnd (i len : ℤ) : ℤ := if i < 0 then i+len else i

/-- `norm_idx` -/
def normIdx (i len : ℤ) : ℤ :=
  let i := if i < 0 then i+len else i
  let i := if i < 0 then 0 else i
  if len < i then len else i

/-- `len` elements from an offset on, if they are all there. -/
def readAt (st : List α) (off len : ℤ) : Option (List α) :=
  if 0 ≤ off ∧ 0 ≤ len ∧ off+len ≤ st.length then some ((st.drop off.toNat).take len.toNat) else none

/-- `bi_llGetSubString`, between its arguments and its value. -/
def getSub (st : List α) (i j : ℤ) : Option (List α) := do
  let l := toCInt st.length
  let i := normIdx (toCInt i) l
  let j := normIdx (toCInt j) l
  if j < i then
    let j := if j < 0 then 0 else j
    let la := l-i
    let lb := if l < j+1 then l else j+1
    let front ← readAt st i la
    let back ← readAt st 0 lb
    some (front ++ back)
  else
    let len := if l < i+(j-i+1) then l-i else j-i+1
    let len := if len < 0 then 0 else len
    readAt st i len

/-- `bi_llDeleteSubString`, between its arguments and its value. `out` has room for `len` bytes and
the NUL. -/
def deleteSub (st : List α) (i j : ℤ) : Option (List α) := do
  let l := toCInt st.length
  let i := normIdx (toCInt i) l
  let j := normIdx (toCInt j) l
  let i := if j < i then j else i
  let len := if l-(j-i+1) < 0 then 0 else l-(j-i+1)
  let front ← readAt st 0 i
  let back ← readAt st (j+1) (l-j-1)
  some ((front ++ back).take len.toNat)

/-- An element of a list, if it is there. -/
def itemAt (l : List α) (k : ℤ) : Option α := if k < 0 then none else l[k.toNat]?

/-- `for (k = lo; k < hi; k++)` over the elements of a list. -/
def itemsFrom (l : List α) (lo hi : ℤ) : Option (List α) :=
  (List.range (hi-lo).toNat).mapM fun k : ℕ => itemAt l (lo+k)

/-- The loop of `bi_llList2List`. -/
def sliceItems (l : List α) (i j : ℤ) : Option (List α) :=
  let ln : ℤ := l.length
  let i := if i < 0 then i+ln else i
  let j := if j < 0 then j+ln else j
  let i := if i < 0 then 0 else i
  let j := if ln-1 < j then ln-1 else j
  if i ≤ j then itemsFrom l i (j+1) else some []

/-- The loops of `bi_llListInsertList`. -/
def insertItems (l r : List α) (pos : ℤ) : Option (List α) := do
  let la : ℤ := l.length
  let pos := if pos < 0 then pos+la else pos
  let pos := if pos < 0 then 0 else pos
  let pos := if la < pos then la else pos
  let front ← itemsFrom l 0 pos
  let back ← itemsFrom l pos la
  some (front ++ r ++ back)

/-- The loops of `bi_llListReplaceList`. -/
def replaceItems (l r : List α) (st en : ℤ) : Option (List α) := do
  let la : ℤ := l.length
  let st := if st < 0 then st+la else st
  let en := if en < 0 then en+la else en
  let st := if st < 0 then 0 else st
  let en := if la-1 < en then la-1 else en
  let front ← itemsFrom l 0 st
  let back ← itemsFrom l (en+1) la
  some (front ++ r ++ back)

/-- The loop of `bi_llDeleteSubList`. -/
def deleteItems (l : List α) (st en : ℤ) : List α :=
  let la : ℤ := l.length
  let st := if st < 0 then st+la else st
  let en := if en < 0 then en+la else en
  (l.zipIdx.filter fun q => (q.2 : ℤ) < st || en < (q.2 : ℤ)).map Prod.fst

section
variable [CDouble F]

/-- `bi_llGetSubString` -/
def llGetSubString (a : List (SValue F)) : Option (SValue F) :=
  (getSub (argStr a 0) (argInt a 1) (argInt a 2)).map .string

/-- `bi_llDeleteSubString` -/
def llDeleteSubString (a : List (SValue F)) : Option (SValue F) :=
  (deleteSub (argStr a 0) (argInt a 1) (argInt a 2)).map .string

/-- `bi_llList2List` -/
def llList2List (a : List (SValue F)) : Option (SValue F) :=
  match a with
  | .list l :: _ => (sliceItems l (toCInt (argInt a 1)) (toCInt (argInt a 2))).map .list
  | _ => some (.list [])

/-- `bi_llListInsertList` -/
def llListInsertList (a : List (SValue F)) : Option (SValue F) :=
  match a with
  | .list l :: .list r :: _ => (insertItems l r (toCInt (argInt a 2))).map .list
  | v :: _ => some v
  | [] => none

/-- `bi_llListReplaceList` -/
def llListReplaceList (a : List (SValue F)) : Option (SValue F) :=
  match a with
  | .list l :: .list r :: _ :: _ :: _ =>
    (replaceItems l r (toCInt (argInt a 2)) (toCInt (argInt a 3))).map .list
  | v :: _ => some v
  | [] => none

/-- `bi_llDeleteSubList` -/
def llDeleteSubList (a : List (SValue F)) : Option (SValue F) :=
  match a with
  | .list l :: _ => some (.list (deleteItems l (toCInt (argInt a 1)) (toCInt (argInt a 2))))
  | _ => some (.list [])

end

/-! ### What is read and what is kept -/

theorem normIdx_eq {len : ℤ} (h : 0 ≤ len) (i : ℤ) :
    normIdx i len = max 0 (min len (fromEnd i len)) := by
  unfold normIdx fromEnd
  dsimp only
  split_ifs <;> omega

theorem readAt_eq {st : List α} {off len : ℤ} (ho : 0 ≤ off) (hl : 0 ≤ len)
    (h : off+len ≤ st.length) : readAt st off len = some ((st.drop off.toNat).take len.toNat) :=
  if_pos ⟨ho, hl, h⟩

theorem readAt_length {st b : List α} {off len : ℤ} (h : readAt st off len = some b) :
    0 ≤ off ∧ off+len ≤ st.length ∧ (b.length : ℤ) = len := by
  unfold readAt at h
  split_ifs at h with hin
  cases h
  refine ⟨hin.1, hin.2.2, ?_⟩
  rw [List.length_take, List.length_drop]
  omega

theorem mapM_of_some {f : β → Option α} {g : β → α} {xs : List β} (h : ∀ x ∈ xs, f x = some (g x)) :
    xs.mapM f = some (xs.map g) := by
  induction xs with
  | nil => rfl
  | cons x xs ih =>
    rw [List.mapM_cons, h x List.mem_cons_self, ih fun y hy => h y (List.mem_cons_of_mem x hy)]
    rfl

theorem mapM_eq_none {f : β → Option α} {xs : List β} {x : β} (hx : x ∈ xs) (h : f x = none) :
    xs.mapM f = none := by
  induction xs with
  | nil => cases hx
  | cons y xs ih =>
    rw [List.mapM_cons]
    rcases List.mem_cons.mp hx with rfl | hx
    · rw [h]
      rfl
    · rw [ih hx]
      cases f y <;> rfl

/-- A loop that stays inside the list. -/
theorem itemsFrom_eq {l : List α} {lo hi : ℤ} (h0 : 0 ≤ lo) (hl : hi ≤ l.length) :
    itemsFrom l lo hi = some ((l.drop lo.toNat).take (hi-lo).toNat) := by
  unfold itemsFrom
  rcases Nat.eq_zero_or_pos l.length with hnil | hpos
  · obtain rfl := List.length_eq_zero_iff.mp hnil
    have hn : (hi-lo).toNat = 0 := by
      rw [List.length_nil] at hl
      omega
    rw [hn]
    rfl
  · have hitem : ∀ k ∈ List.range (hi-lo).toNat,
        itemAt l (lo+k) = some (l.getD (lo.toNat+k) (l.get ⟨0, hpos⟩)) := by
      intro k hk
      rw [List.mem_range] at hk
      have hlt : lo.toNat+k < l.length := by omega
      have hnat : (lo+k).toNat = lo.toNat+k := by omega
      rw [itemAt, if_neg (by omega), hnat, List.getElem?_eq_getElem hlt,
        List.getD_eq_getElem _ _ hlt]
    rw [mapM_of_some hitem, Option.some.injEq]
    apply List.ext_getElem
    · rw [List.length_map, List.length_range, List.length_take, List.length_drop]
      omega
    · intro k h1 h2
      rw [List.length_map, List.length_range] at h1
      rw [List.getElem_map, List.getElem_range, List.getElem_take, List.getElem_drop,
        List.getD_eq_getElem _ _ (by omega)]

/-- A loop that leaves the list. -/
theorem itemsFrom_eq_none {l : List α} {lo hi : ℤ} (h : lo < hi) (hout : lo < 0 ∨ l.length < hi) :
    itemsFrom l lo hi = none := by
  have hmem {k : ℤ} (h0 : 0 ≤ k) (hk : k < hi-lo) : k.toNat ∈ List.range (hi-lo).toNat := by
    rw [List.mem_range]
    omega
  rcases hout with hout | hout
  · refine mapM_eq_none (hmem le_rfl (by omega)) ?_
    exact if_pos (by omega)
  · refine mapM_eq_none (hmem (k := hi-lo-1) (by omega) (by omega)) ?_
    rw [itemAt, ite_eq_left_iff]
    intro _
    exact List.getElem?_eq_none (by omega)

theorem itemsFrom_nil {lo hi : ℤ} (h : hi ≤ lo) (l : List α) : itemsFrom l lo hi = some [] := by
  have hn : (hi-lo).toNat = 0 := by omega
  rw [itemsFrom, hn]
  rfl

/-- Of a list in three parts the outer two are kept. -/
theorem filter_zipIdx_parts {x m y : List α} {p : ℕ → Bool} (hx : ∀ k < x.length, p k)
    (hm : ∀ k, x.length ≤ k → k < x.length+m.length → p k = false)
    (hy : ∀ k, x.length+m.length ≤ k → k < x.length+m.length+y.length → p k) :
    (((x ++ m ++ y).zipIdx.filter fun q => p q.2).map Prod.fst) = x ++ y := by
  have hfront : (x.zipIdx.filter fun q => p q.2) = x.zipIdx := by
    apply List.filter_eq_self.mpr
    rintro ⟨c, k⟩ hc
    have hk := List.mem_zipIdx hc
    exact hx k (by omega)
  have hmid : ((m.zipIdx x.length).filter fun q => p q.2) = [] := by
    apply List.filter_eq_nil_iff.mpr
    rintro ⟨c, k⟩ hc
    have hk := List.mem_zipIdx hc
    change ¬ p k = true
    rw [hm k (by omega) (by omega)]
    exact Bool.false_ne_true
  have hback : ((y.zipIdx (x.length+m.length)).filter fun q => p q.2) =
      y.zipIdx (x.length+m.length) := by
    apply List.filter_eq_self.mpr
    rintro ⟨c, k⟩ hc
    have hk := List.mem_zipIdx hc
    exact hy k (by omega) (by omega)
  rw [List.zipIdx_append, List.zipIdx_append, List.length_append, Nat.zero_add, Nat.zero_add,
    List.filter_append, List.filter_append, hfront, hmid, hback, List.append_nil, List.map_append,
    List.zipIdx_map_fst, List.zipIdx_map_fst]

/-! ### Lists -/

/-- Where a range begins in a list of `n` elements. -/
def rangeStart (n : ℕ) (i : ℤ) : ℕ := (max 0 (min (n : ℤ) (fromEnd i n))).toNat

/-- Where it has ended. -/
def rangeEnd (n : ℕ) (i j : ℤ) : ℕ := max (rangeStart n i) (min (n : ℤ) (fromEnd j n+1)).toNat

theorem rangeStart_le (n : ℕ) (i : ℤ) : rangeStart n i ≤ n := by
  unfold rangeStart
  omega

theorem rangeEnd_le (n : ℕ) (i j : ℤ) : rangeEnd n i j ≤ n := by
  unfold rangeEnd rangeStart
  omega

theorem le_rangeEnd (n : ℕ) (i j : ℤ) : rangeStart n i ≤ rangeEnd n i j := le_max_left _ _

theorem sliceItems_eq (l : List α) (i j : ℤ) : sliceItems l i j =
    some ((l.drop (rangeStart l.length i)).take (rangeEnd l.length i j-rangeStart l.length i)) := by
  unfold sliceItems
  dsimp only
  rw [← fromEnd, ← fromEnd]
  have hstart : (if fromEnd i l.length < 0 then 0 else fromEnd i l.length) =
      max 0 (fromEnd i l.length) := by split_ifs <;> omega
  have hend : (if (l.length : ℤ)-1 < fromEnd j l.length then (l.length : ℤ)-1
      else fromEnd j l.length) = min ((l.length : ℤ)-1) (fromEnd j l.length) := by split_ifs <;> omega
  rw [hstart, hend]
  split_ifs with h
  · rw [itemsFrom_eq (by omega) (by omega)]
    have hlo : (max 0 (fromEnd i l.length)).toNat = rangeStart l.length i := by
      unfold rangeStart
      omega
    have hlen : (min ((l.length : ℤ)-1) (fromEnd j l.length)+1-max 0 (fromEnd i l.length)).toNat =
        rangeEnd l.length i j-rangeStart l.length i := by
      unfold rangeEnd rangeStart
      omega
    rw [hlo, hlen]
  · have hlen : rangeEnd l.length i j-rangeStart l.length i = 0 := by
      unfold rangeEnd rangeStart
      omega
    rw [hlen, List.take_zero]

/-- The list, cut where the range begins and where it has ended. -/
theorem range_parts (l : List α) (i j : ℤ) : l = l.take (rangeStart l.length i) ++
    (l.drop (rangeStart l.length i)).take (rangeEnd l.length i j-rangeStart l.length i) ++
      l.drop (rangeEnd l.length i j) := by
  conv_lhs => rw [← List.take_append_drop (rangeStart l.length i) l,
    ← List.take_append_drop (rangeEnd l.length i j-rangeStart l.length i)
      (l.drop (rangeStart l.length i)), List.drop_drop,
    Nat.add_sub_cancel' (le_rangeEnd l.length i j)]
  rw [List.append_assoc]

theorem deleteItems_eq (l : List α) (i j : ℤ) : deleteItems l i j =
    l.take (rangeStart l.length i) ++ l.drop (rangeEnd l.length i j) := by
  have hstart := rangeStart_le l.length i
  have hend := rangeEnd_le l.length i j
  have hle := le_rangeEnd l.length i j
  unfold deleteItems
  dsimp only
  rw [← fromEnd, ← fromEnd]
  have hfront : (l.take (rangeStart l.length i)).length = rangeStart l.length i :=
    List.length_take_of_le hstart
  have hmid : ((l.drop (rangeStart l.length i)).take
      (rangeEnd l.length i j-rangeStart l.length i)).length =
        rangeEnd l.length i j-rangeStart l.length i := by
    rw [List.length_take, List.length_drop]
    omega
  have hback : (l.drop (rangeEnd l.length i j)).length = l.length-rangeEnd l.length i j :=
    List.length_drop
  have hfilter := filter_zipIdx_parts (x := l.take (rangeStart l.length i))
    (m := (l.drop (rangeStart l.length i)).take (rangeEnd l.length i j-rangeStart l.length i))
    (y := l.drop (rangeEnd l.length i j))
    (p := fun k => (k : ℤ) < fromEnd i l.length || fromEnd j l.length < (k : ℤ))
    (by
      rw [hfront]
      intro k hk
      unfold rangeStart at hk
      simp only [Bool.or_eq_true, decide_eq_true_eq]
      omega)
    (by
      rw [hfront, hmid]
      intro k h1 h2
      unfold rangeEnd rangeStart at h2
      unfold rangeStart at h1
      simp only [Bool.or_eq_false_iff, decide_eq_false_iff_not]
      omega)
    (by
      rw [hfront, hmid, hback]
      intro k h1 h2
      unfold rangeEnd rangeStart at h1 h2
      simp only [Bool.or_eq_true, decide_eq_true_eq]
      omega)
  rwa [← range_parts l i j] at hfilter

theorem insertItems_eq (l r : List α) (i : ℤ) : insertItems l r i =
    some (l.take (rangeStart l.length i) ++ r ++ l.drop (rangeStart l.length i)) := by
  unfold insertItems
  dsimp only
  rw [← fromEnd]
  have hpos : (if (l.length : ℤ) < (if fromEnd i l.length < 0 then 0 else fromEnd i l.length) then
      (l.length : ℤ) else (if fromEnd i l.length < 0 then 0 else fromEnd i l.length)) =
      rangeStart l.length i := by
    unfold rangeStart
    split_ifs <;> omega
  have hle := rangeStart_le l.length i
  rw [hpos, itemsFrom_eq le_rfl (by omega), itemsFrom_eq (by omega) le_rfl]
  have hback : l.drop (rangeStart l.length i) =
      (l.drop (rangeStart l.length i)).take ((l.length : ℤ)-rangeStart l.length i).toNat := by
    rw [List.take_of_length_le]
    rw [List.length_drop]
    omega
  rw [Int.sub_zero, Int.toNat_natCast, Int.toNat_zero, List.drop_zero, ← hback]
  rfl

/-- The loops stay inside the list exactly if the range begins in it, or at its end, and does not end
before it. -/
theorem replaceItems_eq (l r : List α) (i j : ℤ) : replaceItems l r i j =
    if fromEnd i l.length ≤ l.length ∧ 0 ≤ fromEnd j l.length+1 then
      some (l.take (rangeStart l.length i) ++ r ++
        l.drop (min (l.length : ℤ) (fromEnd j l.length+1)).toNat)
    else none := by
  unfold replaceItems
  dsimp only
  rw [← fromEnd, ← fromEnd]
  have hstart : (if fromEnd i l.length < 0 then 0 else fromEnd i l.length) =
      max 0 (fromEnd i l.length) := by split_ifs <;> omega
  have hend : (if (l.length : ℤ)-1 < fromEnd j l.length then (l.length : ℤ)-1
      else fromEnd j l.length)+1 = min (l.length : ℤ) (fromEnd j l.length+1) := by
    split_ifs <;> omega
  rw [hstart, hend]
  split_ifs with h
  · have hlo : (max 0 (fromEnd i l.length)-0).toNat = rangeStart l.length i := by
      unfold rangeStart
      omega
    rw [itemsFrom_eq le_rfl (by omega), itemsFrom_eq (by omega) le_rfl, hlo, Int.toNat_zero,
      List.drop_zero]
    have hback : l.drop (min (l.length : ℤ) (fromEnd j l.length+1)).toNat =
        (l.drop (min (l.length : ℤ) (fromEnd j l.length+1)).toNat).take
          ((l.length : ℤ)-min (l.length : ℤ) (fromEnd j l.length+1)).toNat := by
      rw [List.take_of_length_le]
      rw [List.length_drop]
      omega
    rw [← hback]
    rfl
  · by_cases hi : fromEnd i l.length ≤ l.length
    · -- the second loop begins in front of the list
      have hnone : itemsFrom l (min (l.length : ℤ) (fromEnd j l.length+1)) l.length = none :=
        itemsFrom_eq_none (by omega) (Or.inl (by omega))
      rw [hnone, itemsFrom_eq le_rfl (by omega)]
      rfl
    · have hnone : itemsFrom l 0 (max 0 (fromEnd i l.length)) = none :=
        itemsFrom_eq_none (by omega) (Or.inr (by omega))
      rw [hnone]
      rfl

section
variable [CDouble F]

/-- A slice of a list, and what a deletion leaves of it in front of the slice and behind it. -/
theorem slice_delete_partition (l : List (SValue F)) (i j : Int32) :
    ∃ x m y, l = x ++ m ++ y ∧
      llList2List [.list l, .int i.toInt, .int j.toInt] = some (.list m) ∧
      llDeleteSubList [.list l, .int i.toInt, .int j.toInt] = some (.list (x ++ y)) := by
  refine ⟨_, _, _, range_parts l i.toInt j.toInt, ?_, ?_⟩
  · change (sliceItems l (toCInt i.toInt) (toCInt j.toInt)).map SValue.list = _
    rw [toCInt_int32, toCInt_int32, sliceItems_eq]
    rfl
  · change some (SValue.list (deleteItems l (toCInt i.toInt) (toCInt j.toInt))) = _
    rw [toCInt_int32, toCInt_int32, deleteItems_eq]

/-- `llListReplaceList` reads no elements but those of the list, and does what a deletion and an
insertion at the beginning of the range do; so no element gets into the result twice. The count of a
list is an `int`, so the position can be given to `llListInsertList`. -/
structure ReplacesAsInsert (l r : List (SValue F)) (i j : Int32) : Prop where
  inserts : ∃ d x, llDeleteSubList [.list l, .int i.toInt, .int j.toInt] = some (.list d) ∧
    insertItems d r (rangeStart l.length i.toInt) = some x ∧
    (l.length < 2^31 →
      llListInsertList [.list d, .list r, .int (rangeStart l.length i.toInt)] = some (.list x)) ∧
    llListReplaceList [.list l, .list r, .int i.toInt, .int j.toInt] = some (.list x) ∧
    List.Subperm x (l ++ r)
  empty : llListReplaceList [.list l, .list [], .int i.toInt, .int j.toInt] =
    llDeleteSubList [.list l, .int i.toInt, .int j.toInt]

theorem llListReplaceList_eq (l r : List (SValue F)) (i j : Int32) :
    llListReplaceList [.list l, .list r, .int i.toInt, .int j.toInt] =
      (replaceItems l r i.toInt j.toInt).map .list := by
  change (replaceItems l r (toCInt i.toInt) (toCInt j.toInt)).map SValue.list = _
  rw [toCInt_int32, toCInt_int32]

theorem llDeleteSubList_eq (l : List (SValue F)) (i j : Int32) :
    llDeleteSubList [.list l, .int i.toInt, .int j.toInt] =
      some (.list (l.take (rangeStart l.length i.toInt) ++
        l.drop (rangeEnd l.length i.toInt j.toInt))) := by
  change some (SValue.list (deleteItems l (toCInt i.toInt) (toCInt j.toInt))) = _
  rw [toCInt_int32, toCInt_int32, deleteItems_eq]

theorem llListInsertList_eq (d r : List (SValue F)) (k : ℤ) :
    llListInsertList [.list d, .list r, .int k] = (insertItems d r (toCInt k)).map .list := rfl

/-- Inserting at the place where the deletion has cut the list. -/
theorem insertItems_cut (l r : List α) (i j : ℤ) :
    insertItems (l.take (rangeStart l.length i) ++ l.drop (rangeEnd l.length i j)) r
        (rangeStart l.length i) =
      some (l.take (rangeStart l.length i) ++ r ++ l.drop (rangeEnd l.length i j)) := by
  have hfront : (l.take (rangeStart l.length i)).length = rangeStart l.length i :=
    List.length_take_of_le (rangeStart_le l.length i)
  have hpos : rangeStart (l.take (rangeStart l.length i) ++ l.drop (rangeEnd l.length i j)).length
      (rangeStart l.length i) = rangeStart l.length i := by
    rw [List.length_append, hfront]
    generalize rangeStart l.length i = k
    unfold rangeStart fromEnd
    rw [if_neg (by omega)]
    omega
  rw [insertItems_eq, hpos, List.take_append_of_le_length hfront.ge, List.take_take, min_self,
    List.drop_append_of_le_length hfront.ge]
  have hnil : (l.take (rangeStart l.length i)).drop (rangeStart l.length i) = [] :=
    List.drop_eq_nil_of_le hfront.le
  rw [hnil, List.nil_append]

/-- `llListReplaceList` is deletion and insertion exactly if the range begins in the list or at its
end, and ends at most one element before it begins. -/
theorem replace_inserts_iff (l r : List (SValue F)) (i j : Int32) : ReplacesAsInsert l r i j ↔
    fromEnd i.toInt l.length ≤ l.length ∧ 0 ≤ fromEnd j.toInt l.length+1 ∧
      fromEnd i.toInt l.length ≤ fromEnd j.toInt l.length+1 := by
  constructor
  · rintro ⟨⟨d, x, hd, hins, -, hrep, -⟩, -⟩
    rw [llDeleteSubList_eq, Option.some.injEq, SValue.list.injEq] at hd
    subst hd
    rw [insertItems_cut] at hins
    cases hins
    rw [llListReplaceList_eq, replaceItems_eq] at hrep
    split_ifs at hrep with hin
    · refine ⟨hin.1, hin.2, ?_⟩
      rw [Option.map_some, Option.some.injEq, SValue.list.injEq] at hrep
      have hlen := congrArg List.length hrep
      simp only [List.length_append, List.length_drop] at hlen
      have hend := rangeEnd_le l.length i.toInt j.toInt
      unfold rangeEnd rangeStart at hlen hend
      omega
    · cases hrep
  · rintro ⟨hi, hj, hle⟩
    have hend : (min (l.length : ℤ) (fromEnd j.toInt l.length+1)).toNat =
        rangeEnd l.length i.toInt j.toInt := by
      unfold rangeEnd rangeStart
      omega
    have hrep (r : List (SValue F)) :
        llListReplaceList [.list l, .list r, .int i.toInt, .int j.toInt] =
          some (.list (l.take (rangeStart l.length i.toInt) ++ r ++
            l.drop (rangeEnd l.length i.toInt j.toInt))) := by
      rw [llListReplaceList_eq, replaceItems_eq, if_pos ⟨hi, hj⟩, hend]
      rfl
    refine ⟨⟨_, _, llDeleteSubList_eq l i j, insertItems_cut l r _ _, ?_, hrep r, ?_⟩, ?_⟩
    · intro hlen
      have hstart := rangeStart_le l.length i.toInt
      rw [llListInsertList_eq, toCInt_eq (by omega) (by omega), insertItems_cut]
      rfl
    · -- what is left of the list, with `r` in between
      have hsub : (l.take (rangeStart l.length i.toInt) ++
          l.drop (rangeEnd l.length i.toInt j.toInt)).Sublist l := by
        have hmid := List.nil_sublist ((l.drop (rangeStart l.length i.toInt)).take
          (rangeEnd l.length i.toInt j.toInt-rangeStart l.length i.toInt))
        have h := ((List.Sublist.refl (l.take (rangeStart l.length i.toInt))).append hmid).append
          (List.Sublist.refl (l.drop (rangeEnd l.length i.toInt j.toInt)))
        rwa [List.append_nil, ← range_parts] at h
      refine List.Subperm.trans (List.Perm.subperm ?_) (hsub.append (List.Sublist.refl r)).subperm
      rw [List.append_assoc, List.append_assoc]
      exact List.Perm.append_left _ List.perm_append_comm
    · rw [hrep, llDeleteSubList_eq, List.append_nil]

/-- A range that ends before it begins. -/
theorem replace_repeats : ¬ ∀ (l r : List (SValue ℚ)) (i j : Int32), ReplacesAsInsert l r i j := by
  intro h
  have hx := (h [.int 1, .int 2, .int 3] [] 2 0).empty
  rw [llListReplaceList_eq, llDeleteSubList_eq, replaceItems_eq] at hx
  cases hx

end

/-! ### Strings -/

theorem normIdx_le (i len : ℤ) : normIdx i len ≤ len := by
  unfold normIdx
  dsimp only
  split_ifs <;> omega

theorem normIdx_nonneg {len : ℤ} (h : 0 ≤ len) (i : ℤ) : 0 ≤ normIdx i len := by
  rw [normIdx_eq h]
  exact le_max_left _ _

theorem normIdx_int32 {n : ℕ} (i : Int32) : normIdx (toCInt i.toInt) n = rangeStart n i.toInt := by
  rw [toCInt_int32, normIdx_eq (Int.natCast_nonneg n)]
  unfold rangeStart
  omega

/-- The places from `i` to `j`, or from `i` to the end and from the beginning to `j`. -/
theorem getSub_eq {st : List α} (h : st.length < 2^31) (i j : Int32) :
    getSub st i.toInt j.toInt =
      some (if rangeStart st.length j.toInt < rangeStart st.length i.toInt then
        st.drop (rangeStart st.length i.toInt) ++ st.take (rangeStart st.length j.toInt+1)
      else (st.drop (rangeStart st.length i.toInt)).take
        (rangeStart st.length j.toInt+1-rangeStart st.length i.toInt)) := by
  unfold getSub
  dsimp only
  have hl : toCInt st.length = st.length := toCInt_eq (by omega) (by omega)
  rw [hl, normIdx_int32, normIdx_int32]
  have hi := rangeStart_le st.length i.toInt
  have hj := rangeStart_le st.length j.toInt
  generalize rangeStart st.length i.toInt = a at hi ⊢
  generalize rangeStart st.length j.toInt = b at hj ⊢
  by_cases hlt : b < a
  · have hb : (if (st.length : ℤ) < (if (b : ℤ) < 0 then 0 else (b : ℤ))+1 then (st.length : ℤ)
        else (if (b : ℤ) < 0 then 0 else (b : ℤ))+1) = b+1 := by split_ifs <;> omega
    have hfront : (st.drop a).take ((st.length : ℤ)-a).toNat = st.drop a := by
      apply List.take_of_length_le
      rw [List.length_drop]
      omega
    have hback : ((b : ℤ)+1).toNat = b+1 := by omega
    rw [if_pos (by omega), if_pos hlt, hb, readAt_eq (by omega) (by omega) (by omega),
      readAt_eq (by omega) (by omega) (by omega), Int.toNat_natCast, hfront, hback, Int.toNat_zero,
      List.drop_zero]
    rfl
  · rw [if_neg (by omega), if_neg hlt]
    rcases Nat.lt_or_ge b st.length with hbn | hbn
    · have hlen : ((b : ℤ)-a+1).toNat = b+1-a := by omega
      rw [if_neg (by omega), if_neg (by omega), readAt_eq (by omega) (by omega) (by omega),
        Int.toNat_natCast, hlen]
    · have hall : (st.drop a).take ((st.length : ℤ)-a).toNat = (st.drop a).take (b+1-a) := by
        rw [List.take_of_length_le, List.take_of_length_le]
        · rw [List.length_drop]
          omega
        · rw [List.length_drop]
          omega
      have hcount : (if (if (st.length : ℤ) < a+((b : ℤ)-a+1) then (st.length : ℤ)-a
          else (b : ℤ)-a+1) < 0 then 0 else if (st.length : ℤ) < a+((b : ℤ)-a+1) then
            (st.length : ℤ)-a else (b : ℤ)-a+1) = (st.length : ℤ)-a := by split_ifs <;> omega
      rw [hcount, readAt_eq (by omega) (by omega) (by omega), Int.toNat_natCast, hall]

/-- Everything in front of the range and everything behind its end; an end behind the last character
makes the count of the bytes behind it negative. -/
theorem deleteSub_eq {st : List α} (h : st.length < 2^31) (i j : Int32) :
    deleteSub st i.toInt j.toInt =
      if rangeStart st.length j.toInt < st.length then
        some (st.take (min (rangeStart st.length i.toInt) (rangeStart st.length j.toInt)) ++
          st.drop (rangeStart st.length j.toInt+1))
      else none := by
  unfold deleteSub
  dsimp only
  have hl : toCInt st.length = st.length := toCInt_eq (by omega) (by omega)
  rw [hl, normIdx_int32, normIdx_int32]
  have hi := rangeStart_le st.length i.toInt
  have hj := rangeStart_le st.length j.toInt
  generalize rangeStart st.length i.toInt = a at hi ⊢
  generalize rangeStart st.length j.toInt = b at hj ⊢
  have hmin : (if (b : ℤ) < a then (b : ℤ) else a) = (min a b : ℕ) := by split_ifs <;> omega
  rw [hmin, readAt_eq le_rfl (by omega) (by omega), Int.toNat_zero, List.drop_zero,
    Int.toNat_natCast]
  by_cases hb : b < st.length
  · rw [if_pos hb]
    have hlen : (if (st.length : ℤ)-(b-(min a b : ℕ)+1) < 0 then 0
        else (st.length : ℤ)-(b-(min a b : ℕ)+1)) = (st.length : ℤ)-(b-(min a b : ℕ)+1) := by
      split_ifs <;> omega
    have hback : (st.drop ((b : ℤ)+1).toNat).take ((st.length : ℤ)-b-1).toNat = st.drop (b+1) := by
      have hnat : ((b : ℤ)+1).toNat = b+1 := by omega
      rw [hnat]
      apply List.take_of_length_le
      rw [List.length_drop]
      omega
    rw [readAt_eq (by omega) (by omega) (by omega), hback]
    change some ((st.take (min a b) ++ st.drop (b+1)).take _) = _
    rw [hlen, List.take_of_length_le]
    rw [List.length_append, List.length_take, List.length_drop]
    omega
  · have hnone : readAt st ((b : ℤ)+1) ((st.length : ℤ)-b-1) = none := if_neg (by omega)
    rw [if_neg hb, hnone]
    rfl

theorem getSub_length {st g : List α} {i j : ℤ} (h : getSub st i j = some g) :
    0 ≤ toCInt st.length ∧ (g.length : ℤ) ≤ toCInt st.length := by
  unfold getSub at h
  dsimp only at h
  have hi := normIdx_le (toCInt i) (toCInt st.length)
  have hj (h0 : 0 ≤ toCInt st.length) := normIdx_nonneg h0 (toCInt j)
  generalize normIdx (toCInt i) (toCInt st.length) = a at h hi
  generalize normIdx (toCInt j) (toCInt st.length) = b at h hj
  generalize toCInt st.length = l at h hi hj ⊢
  by_cases hlt : b < a
  · rw [if_pos hlt] at h
    obtain ⟨x, hx, h⟩ := Option.bind_eq_some_iff.mp h
    obtain ⟨y, hy, h⟩ := Option.bind_eq_some_iff.mp h
    cases h
    obtain ⟨hx0, -, hxl⟩ := readAt_length hx
    obtain ⟨-, -, hyl⟩ := readAt_length hy
    have hb := hj (by omega)
    rw [List.length_append]
    split_ifs at hyl <;> omega
  · rw [if_neg hlt] at h
    obtain ⟨h0, -, hlen⟩ := readAt_length h
    split_ifs at hlen <;> omega

theorem deleteSub_length {st g : List α} {i j : ℤ} (h : deleteSub st i j = some g) :
    (g.length : ℤ) ≤ toCInt st.length := by
  unfold deleteSub at h
  dsimp only at h
  generalize normIdx (toCInt i) (toCInt st.length) = a at h
  generalize normIdx (toCInt j) (toCInt st.length) = b at h
  generalize toCInt st.length = l at h ⊢
  obtain ⟨x, hx, h⟩ := Option.bind_eq_some_iff.mp h
  obtain ⟨y, hy, h⟩ := Option.bind_eq_some_iff.mp h
  cases h
  obtain ⟨-, -, hxl⟩ := readAt_length hx
  obtain ⟨-, -, hyl⟩ := readAt_length hy
  rw [List.length_take, List.length_append]
  split_ifs at hxl <;> omega

theorem readAt_map (f : α → β) (st : List α) (off len : ℤ) :
    readAt (st.map f) off len = (readAt st off len).map (List.map f) := by
  unfold readAt
  rw [List.length_map]
  split_ifs
  · rw [Option.map_some, List.map_take, List.map_drop]
  · rfl

/-- The function goes by places only. -/
theorem getSub_map (f : α → β) (st : List α) (i j : ℤ) :
    getSub (st.map f) i j = (getSub st i j).map (List.map f) := by
  unfold getSub
  dsimp only
  rw [List.length_map]
  by_cases hlt : normIdx (toCInt j) (toCInt st.length) < normIdx (toCInt i) (toCInt st.length)
  · rw [if_pos hlt, if_pos hlt, readAt_map, readAt_map]
    cases readAt st (normIdx (toCInt i) (toCInt st.length)) _ with
    | none => rfl
    | some x =>
      cases readAt st 0 _ with
      | none => rfl
      | some y =>
        change some (x.map f ++ y.map f) = some ((x ++ y).map f)
        rw [List.map_append]
  · rw [if_neg hlt, if_neg hlt, readAt_map]

section
variable [CDouble F]

variable (F) in
/-- What `llGetSubString` and `llDeleteSubString` give for the same indices. `places` are the places
that `llGetSubString` takes. -/
structure Complementary (st : Bytes) (i j : Int32) (got gone : Bytes) (places : List ℕ) : Prop where
  get : llGetSubString [.string st, .int i.toInt, .int j.toInt] = some (.string got : SValue F)
  delete : llDeleteSubString [.string st, .int i.toInt, .int j.toInt] = some (.string gone : SValue F)
  takes : getSub (List.range st.length) i.toInt j.toInt = some places
  got_eq : got = places.map fun k => st.getD k 0
  length : got.length+gone.length = st.length
  gone_eq : gone = (st.zipIdx.filter fun q => q.2 ∉ places).map Prod.fst

/-- The places that are taken are those of one range, and the rest of the string is kept. -/
theorem complementary_of_range {st : Bytes} {i j : Int32} {a b : ℕ} {places : List ℕ}
    (hab : a ≤ b) (hb : b ≤ st.length) (hlen : places.length = b-a)
    (ht : getSub (List.range st.length) i.toInt j.toInt = some places)
    (hd : deleteSub st i.toInt j.toInt = some (st.take a ++ st.drop b))
    (hp : ∀ k < st.length, k ∈ places ↔ a ≤ k ∧ k < b) :
    Complementary F st i j (places.map fun k => st.getD k 0) (st.take a ++ st.drop b) places := by
  have hself : (List.range st.length).map (fun k => st.getD k 0) = st := by
    apply List.ext_getElem
    · rw [List.length_map, List.length_range]
    · intro k h1 h2
      rw [List.getElem_map, List.getElem_range, List.getD_eq_getElem _ _ h2]
  have hget : getSub st i.toInt j.toInt = some (places.map fun k => st.getD k 0) := by
    conv_lhs => rw [← hself]
    rw [getSub_map, ht]
    rfl
  refine ⟨?_, ?_, ht, rfl, ?_, ?_⟩
  · change (getSub st i.toInt j.toInt).map SValue.string = _
    rw [hget]
    rfl
  · change (deleteSub st i.toInt j.toInt).map SValue.string = _
    rw [hd]
    rfl
  · rw [List.length_map, List.length_append, List.length_take, List.length_drop, hlen]
    omega
  · have hparts : st = st.take a ++ (st.drop a).take (b-a) ++ st.drop b := by
      conv_lhs => rw [← List.take_append_drop a st, ← List.take_append_drop (b-a) (st.drop a),
        List.drop_drop, Nat.add_sub_cancel' hab]
      rw [List.append_assoc]
    have hfront : (st.take a).length = a := List.length_take_of_le (by omega)
    have hmid : ((st.drop a).take (b-a)).length = b-a := by
      rw [List.length_take, List.length_drop]
      omega
    have hfilter := filter_zipIdx_parts (x := st.take a) (m := (st.drop a).take (b-a))
      (y := st.drop b) (p := fun k => k ∉ places)
      (by
        rw [hfront]
        intro k hk
        have h := hp k (by omega)
        exact decide_eq_true (fun hmem => by have := h.mp hmem; omega))
      (by
        rw [hfront, hmid]
        intro k h1 h2
        have h := hp k (by omega)
        exact decide_eq_false (fun hmem => hmem (h.mpr (by omega))))
      (by
        rw [hfront, hmid, List.length_drop]
        intro k h1 h2
        have h := hp k (by omega)
        exact decide_eq_true (fun hmem => by have := h.mp hmem; omega))
    rw [← hparts] at hfilter
    exact hfilter.symm

variable (F) in
theorem not_complementary_of_long {st : Bytes} (h : 2^31 ≤ st.length) {i j : Int32}
    {got gone : Bytes} {places : List ℕ} : ¬ Complementary F st i j got gone places := by
  intro hc
  have hget := hc.get
  have hdel := hc.delete
  have hsum := hc.length
  obtain ⟨g, hg, heq⟩ := Option.map_eq_some_iff.mp hget
  cases heq
  obtain ⟨d, hd, heq⟩ := Option.map_eq_some_iff.mp hdel
  cases heq
  obtain ⟨h0, hgl⟩ := getSub_length hg
  have hdl := deleteSub_length hd
  change (0 : ℤ) ≤ toCInt st.length at h0
  change (got.length : ℤ) ≤ toCInt st.length at hgl
  change (gone.length : ℤ) ≤ toCInt st.length at hdl
  -- cut down to an `int`, the length has lost at least `2^32`
  unfold toCInt at h0 hgl hdl
  omega

/-- The two functions are complementary exactly if the string has fewer than `2^31` characters and
the range ends in it without ending before it begins, or begins at its end and ends with its first
character. -/
theorem substrings_complementary_iff (st : Bytes) (i j : Int32) :
    (∃ got gone places, Complementary F st i j got gone places) ↔
      st.length < 2^31 ∧ (rangeStart st.length i.toInt ≤ rangeStart st.length j.toInt ∧
          rangeStart st.length j.toInt < st.length ∨
        rangeStart st.length i.toInt = st.length ∧ rangeStart st.length j.toInt = 0 ∧
          0 < st.length) := by
  rcases Nat.lt_or_ge st.length (2^31) with hlen | hlen
  · rw [and_iff_right hlen]
    have hget := getSub_eq hlen i j
    have hdel := deleteSub_eq hlen i j
    have hplaces := getSub_eq
      (by rwa [List.length_range] : (List.range st.length).length < 2^31) i j
    rw [List.length_range] at hplaces
    have hi := rangeStart_le st.length i.toInt
    have hj := rangeStart_le st.length j.toInt
    generalize rangeStart st.length i.toInt = a at hget hdel hplaces hi ⊢
    generalize rangeStart st.length j.toInt = b at hget hdel hplaces hj ⊢
    constructor
    · rintro ⟨got, gone, places, hc⟩
      have hg := hc.get
      have hd := hc.delete
      have hsum := hc.length
      change (getSub st i.toInt j.toInt).map SValue.string = _ at hg
      change (deleteSub st i.toInt j.toInt).map SValue.string = _ at hd
      rw [hget, Option.map_some, Option.some.injEq, SValue.string.injEq] at hg
      rw [hdel] at hd
      by_cases hb : b < st.length
      · rw [if_pos hb, Option.map_some, Option.some.injEq, SValue.string.injEq] at hd
        by_cases hlt : b < a
        · -- the range that wraps takes more than one character, and only one is deleted
          rw [if_pos hlt] at hg
          subst hg
          subst hd
          simp only [List.length_append, List.length_take, List.length_drop] at hsum
          omega
        · exact Or.inl ⟨by omega, hb⟩
      · rw [if_neg hb] at hd
        cases hd
    · rintro (⟨hab, hb⟩ | ⟨ha, hb, hpos⟩)
      · rw [if_neg (by omega)] at hplaces
        rw [if_pos hb, min_eq_left hab] at hdel
        refine ⟨_, _, _, complementary_of_range (a := a) (b := b+1) (by omega) (by omega) ?_
          hplaces hdel ?_⟩
        · rw [List.length_take, List.length_drop, List.length_range]
          omega
        · intro k hk
          rw [List.range_eq_range', List.drop_range', List.take_range'_of_length_ge (by omega),
            List.mem_range'_1]
          omega
      · subst hb
        rw [if_pos (by omega), ha] at hplaces
        rw [if_pos hpos, Nat.min_zero] at hdel
        refine ⟨_, _, _, complementary_of_range (a := 0) (b := 1) (by omega) (by omega) ?_
          hplaces hdel ?_⟩
        · rw [List.length_append, List.length_drop, List.length_take, List.length_range]
          omega
        · intro k hk
          rw [List.range_eq_range', List.drop_range', List.take_range'_of_length_ge (by omega),
            List.mem_append, List.mem_range'_1, List.mem_range'_1]
          omega
  · refine iff_of_false ?_ (fun h => by omega)
    rintro ⟨got, gone, places, hc⟩
    exact not_complementary_of_long F hlen hc

/-- An end behind the last character. -/
theorem deleteSub_overruns : ¬ ∀ (st : Bytes) (i j : Int32),
    ∃ got gone places, Complementary ℚ st i j got gone places := by
  intro h
  obtain ⟨got, gone, places, hc⟩ := h (lit "abc") 1 3
  have hnone : deleteSub (lit "abc") (Int32.toInt 1) (Int32.toInt 3) = none := by decide +kernel
  have hd := hc.delete
  change (deleteSub (lit "abc") (Int32.toInt 1) (Int32.toInt 3)).map SValue.string = _ at hd
  rw [hnone] at hd
  cases hd

end

end Slemu
