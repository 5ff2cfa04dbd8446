import Slemu.ExchangeSort
import Slemu.Value

/-! `bi_llListSort`. -/

namespace Slemu
variable {F α : Type}

/-- The bytes of a text as `strcmp` compares them. -/
def byteOrder (s : Bytes) : List ℕ := s.map UInt8.toNat

section
variable [CDouble F]

/-- `swap` of `bi_llListSort`. -/
def sortSwap (asc : Bool) : SValue F → SValue F → Bool
  | .int i, .int j => if asc then j < i else i < j
  | .int i, .float g => if asc then CDouble.lt g (CDouble.ofInt i) else CDouble.lt (CDouble.ofInt i) g
  | .float f, .int j => if asc then CDouble.lt (CDouble.ofInt j) f else CDouble.lt f (CDouble.ofInt j)
  | .float f, .float g => if asc then CDouble.lt g f else CDouble.lt f g
  | .string s, .string t | .string s, .key t | .key s, .string t | .key s, .key t =>
    if asc then byteOrder t < byteOrder s else byteOrder s < byteOrder t
  | _, _ => false

end

/-- Two elements change places. -/
def swapItems (l : List α) (i j : ℕ) : List α :=
  match l[i]?, l[j]? with
  | some x, some y => (l.set i y).set j x
  | _, _ => l

/-- `m` elements from `i` on and from `j` on change places. -/
def swapRun (i j : ℕ) : ℕ → List α → List α
  | 0, l => l
  | m+1, l => swapRun (i+1) (j+1) m (swapItems l i j)

/-- `lo`, `lo+stride` and so on, as far as they are below `hi`. -/
def stridesTo (lo hi stride : ℕ) : List ℕ := List.range' lo ((hi-lo+stride-1)/stride) stride

section
variable [CDouble F]

/-- The body of the loops of `bi_llListSort`. -/
def sortStep (asc : Bool) (stride len i j : ℕ) (l : List (SValue F)) : List (SValue F) :=
  match l[i]?, l[j]? with
  | some a, some b =>
    if sortSwap asc a b then swapRun i j (min stride (min (len-i) (len-j))) l else l
  | _, _ => l

/-- The loops of `bi_llListSort`. -/
def sortItems (asc : Bool) (stride : ℕ) (l : List (SValue F)) : List (SValue F) :=
  (stridesTo 0 l.length stride).foldl (fun out i =>
    (stridesTo (i+stride) l.length stride).foldl
      (fun out j => sortStep asc stride l.length i j out) out) l

/-- `bi_llListSort` -/
def llListSort (a : List (SValue F)) : SValue F :=
  match a with
  | .list l :: _ =>
    let stride := toCInt (argInt a 1)
    let stride := if stride < 1 then 1 else stride
    .list (sortItems (toCInt (argInt a 2) ≠ 0) stride.toNat l)
  | _ => .list []

end

/-! ### Every element is kept -/

theorem swapItems_perm (l : List α) (i j : ℕ) : (swapItems l i j).Perm l := by
  unfold swapItems
  split
  · rename_i x y hx hy
    obtain ⟨hi, rfl⟩ := List.getElem?_eq_some_iff.mp hx
    obtain ⟨hj, rfl⟩ := List.getElem?_eq_some_iff.mp hy
    exact List.set_set_perm hi hj
  · exact List.Perm.refl l

theorem swapRun_perm (i j m : ℕ) (l : List α) : (swapRun i j m l).Perm l := by
  induction m generalizing i j l with
  | zero => exact List.Perm.refl l
  | succ m ih => exact (ih (i+1) (j+1) _).trans (swapItems_perm l i j)

theorem foldl_perm {γ : Type} {step : List α → γ → List α} (h : ∀ l c, (step l c).Perm l)
    (cs : List γ) (l : List α) : (cs.foldl step l).Perm l := by
  induction cs generalizing l with
  | nil => exact List.Perm.refl l
  | cons c cs ih => exact (ih (step l c)).trans (h l c)

section
variable [CDouble F]

theorem sortStep_perm (asc : Bool) (stride len i j : ℕ) (l : List (SValue F)) :
    (sortStep asc stride len i j l).Perm l := by
  unfold sortStep
  split
  · split_ifs
    · exact swapRun_perm i j _ l
    · exact List.Perm.refl l
  · exact List.Perm.refl l

theorem sortItems_perm (asc : Bool) (stride : ℕ) (l : List (SValue F)) :
    (sortItems asc stride l).Perm l :=
  foldl_perm (fun out i => foldl_perm (fun out j => sortStep_perm asc stride _ i j out) _ out) _ l

example : (sortItems true 2 [.int 3, .int 9, .int 1, .int 8] : List (SValue ℚ)).map svToString =
    [lit "1", lit "8", lit "3", lit "9"] := by decide +kernel

end

/-! ### Records -/

theorem swapItems_mid (p q z : List α) (x y : α) :
    swapItems (p ++ x :: (q ++ y :: z)) p.length (p.length+1+q.length) =
      p ++ y :: (q ++ x :: z) := by
  have hx : (p ++ x :: (q ++ y :: z))[p.length]? = some x := by
    rw [List.getElem?_append_right le_rfl, Nat.sub_self]
    rfl
  have hsub : p.length+1+q.length-p.length = q.length+1 := by omega
  have hy : (p ++ x :: (q ++ y :: z))[p.length+1+q.length]? = some y := by
    rw [List.getElem?_append_right (by omega), hsub, List.getElem?_cons_succ,
      List.getElem?_append_right le_rfl, Nat.sub_self]
    rfl
  unfold swapItems
  rw [hx, hy]
  change ((p ++ x :: (q ++ y :: z)).set p.length y).set (p.length+1+q.length) x = _
  rw [List.set_append_right _ _ le_rfl, Nat.sub_self, List.set_cons_zero,
    List.set_append_right _ _ (by omega), hsub, List.set_cons_succ, List.set_append_right _ _ le_rfl,
    Nat.sub_self, List.set_cons_zero]

/-- Two pieces of the same length change places. -/
theorem swapRun_mid (p q z : List α) {x y : List α} (h : x.length = y.length) :
    swapRun p.length (p.length+x.length+q.length) x.length (p ++ x ++ q ++ y ++ z) =
      p ++ y ++ q ++ x ++ z := by
  induction x generalizing p q y with
  | nil =>
    obtain rfl := List.length_eq_zero_iff.mp h.symm
    rfl
  | cons a x ih =>
    obtain ⟨b, y, rfl⟩ := List.exists_cons_of_length_eq_add_one h.symm
    have hlist : p ++ a :: x ++ q ++ b :: y ++ z = p ++ a :: ((x ++ q) ++ b :: (y ++ z)) := by simp
    have hidx : p.length+(a :: x).length+q.length = p.length+1+(x ++ q).length := by
      rw [List.length_cons, List.length_append]
      omega
    have hrest : p ++ b :: ((x ++ q) ++ a :: (y ++ z)) =
        (p ++ [b]) ++ x ++ (q ++ [a]) ++ y ++ z := by simp
    have hrun := ih (p ++ [b]) (q ++ [a]) (y := y) (by simpa using h)
    have hone : (p ++ [b]).length = p.length+1 := List.length_append
    have htwo : p.length+1+x.length+(q ++ [a]).length = p.length+1+(x ++ q).length+1 := by
      simp only [List.length_append, List.length_singleton]
      omega
    rw [hone, htwo] at hrun
    rw [hlist, hidx, List.length_cons, swapRun, swapItems_mid, hrest, hrun]
    simp

theorem stridesTo_eq {k : ℕ} (hk : 0 < k) (a n : ℕ) :
    stridesTo (a*k) ((a+n)*k) k = List.range' (a*k) n k := by
  have hsub : (a+n)*k-a*k+k-1 = (k-1)+n*k := by
    rw [Nat.add_mul]
    omega
  rw [stridesTo, hsub, Nat.add_mul_div_right _ _ hk, Nat.div_eq_of_lt (by omega), Nat.zero_add]

theorem length_records {k : ℕ} {recs : List (List α)} (h : ∀ r ∈ recs, r.length = k) :
    recs.flatten.length = recs.length*k := by
  induction recs with
  | nil => rw [List.flatten_nil, List.length_nil, List.length_nil, Nat.zero_mul]
  | cons r recs ih =>
    rw [List.flatten_cons, List.length_append, h r List.mem_cons_self,
      ih fun r' hr' => h r' (List.mem_cons_of_mem r hr'), List.length_cons, Nat.add_mul, Nat.one_mul,
      Nat.add_comm]

section
variable [CDouble F] {asc : Bool} {k : ℕ}

/-- Two records stand in the wrong order. -/
def recordGt (asc : Bool) (r r' : List (SValue F)) : Bool :=
  match r.head?, r'.head? with
  | some a, some b => sortSwap asc a b
  | _, _ => false

/-- One comparison exchanges two whole records, or leaves them where they are. -/
theorem sortStep_records (asc : Bool) (hk : 0 < k) (p q z : List (SValue F))
    {x y : List (SValue F)} (hx : x.length = k) (hy : y.length = k) :
    sortStep asc k (p ++ x ++ q ++ y ++ z).length p.length (p.length+k+q.length)
        (p ++ x ++ q ++ y ++ z) =
      if recordGt asc x y then p ++ y ++ q ++ x ++ z else p ++ x ++ q ++ y ++ z := by
  obtain ⟨a, x', rfl⟩ := List.exists_cons_of_length_pos (hx ▸ hk)
  obtain ⟨b, y', rfl⟩ := List.exists_cons_of_length_pos (hy ▸ hk)
  have ha : (p ++ a :: x' ++ q ++ b :: y' ++ z)[p.length]? = some a := by
    rw [List.append_assoc, List.append_assoc, List.append_assoc,
      List.getElem?_append_right le_rfl, Nat.sub_self]
    rfl
  have hb : (p ++ a :: x' ++ q ++ b :: y' ++ z)[p.length+k+q.length]? = some b := by
    have hfront : (p ++ a :: x' ++ q).length = p.length+k+q.length := by
      rw [List.length_append, List.length_append, hx]
    rw [List.append_assoc (p ++ a :: x' ++ q), ← hfront, List.getElem?_append_right le_rfl,
      Nat.sub_self]
    rfl
  have hcount : min k (min ((p ++ a :: x' ++ q ++ b :: y' ++ z).length-p.length)
      ((p ++ a :: x' ++ q ++ b :: y' ++ z).length-(p.length+k+q.length))) = k := by
    simp only [List.length_append, hx, hy]
    omega
  have hrun := swapRun_mid p q z (hx.trans hy.symm)
  rw [hx] at hrun
  unfold sortStep
  rw [ha, hb, hcount]
  change (if sortSwap asc a b then _ else _) = if sortSwap asc a b then _ else _
  rw [hrun]

/-- The inner loop makes one pass over the records behind the one at `pre.length`. -/
theorem inner_pass (asc : Bool) (hk : 0 < k) {pre seen ys : List (List (SValue F))}
    {x : List (SValue F)} (hpre : ∀ r ∈ pre, r.length = k) (hx : x.length = k) (hseen : ∀ r ∈ seen, r.length = k)
    (hys : ∀ r ∈ ys, r.length = k) :
    (List.range' ((pre.length+1+seen.length)*k) ys.length k).foldl
        (fun out j => sortStep asc k ((pre.length+1+seen.length+ys.length)*k) (pre.length*k) j out)
        (pre ++ x :: (seen ++ ys)).flatten =
      (pre ++ (ExchangeSort.pass (recordGt asc) x ys).1 ::
        (seen ++ (ExchangeSort.pass (recordGt asc) x ys).2)).flatten := by
  induction ys generalizing x seen with
  | nil => rfl
  | cons y ys ih =>
    have hy := hys y List.mem_cons_self
    have hys' : ∀ r ∈ ys, r.length = k := fun r hr => hys r (List.mem_cons_of_mem y hr)
    have hflat (u v : List (SValue F)) : (pre ++ u :: (seen ++ v :: ys)).flatten =
        pre.flatten ++ u ++ seen.flatten ++ v ++ ys.flatten := by simp
    have hlen : (pre.flatten ++ x ++ seen.flatten ++ y ++ ys.flatten).length =
        (pre.length+1+seen.length+(y :: ys).length)*k := by
      simp only [List.length_append, length_records hpre, length_records hseen,
        length_records hys', hx, hy, List.length_cons]
      ring
    have hstep := sortStep_records asc hk pre.flatten seen.flatten ys.flatten hx hy
    have hplace : pre.length*k+k+seen.length*k = (pre.length+1+seen.length)*k := by ring
    rw [hlen, length_records hpre, length_records hseen, hplace] at hstep
    have hrange : List.range' ((pre.length+1+seen.length)*k) (y :: ys).length k =
        (pre.length+1+seen.length)*k ::
          List.range' ((pre.length+1+seen.length)*k+k) ys.length k := List.range'_succ
    rw [hrange, List.foldl_cons, hflat, hstep, ExchangeSort.pass]
    -- the record that is compared next goes to those that have been seen
    have hnext {u v : List (SValue F)} (hu : u.length = k) (hv : v.length = k) :
        (List.range' ((pre.length+1+seen.length)*k+k) ys.length k).foldl (fun out j => sortStep asc k
            ((pre.length+1+seen.length+(y :: ys).length)*k) (pre.length*k) j out)
          (pre.flatten ++ u ++ seen.flatten ++ v ++ ys.flatten) =
        (pre ++ (ExchangeSort.pass (recordGt asc) u ys).1 ::
          (seen ++ v :: (ExchangeSort.pass (recordGt asc) u ys).2)).flatten := by
      have hseen' : ∀ r ∈ seen ++ [v], r.length = k := by
        intro r hr
        rcases List.mem_append.mp hr with hr | hr
        · exact hseen r hr
        · rw [List.mem_singleton.mp hr]
          exact hv
      have hrest := ih hu hseen' hys'
      have hone : (seen ++ [v]).length = seen.length+1 := List.length_append
      have hlo : (pre.length+1+(seen.length+1))*k = (pre.length+1+seen.length)*k+k := by ring
      have hhi : (pre.length+1+(seen.length+1)+ys.length)*k =
          (pre.length+1+seen.length+(y :: ys).length)*k := by
        rw [List.length_cons]
        ring
      have hl : (pre ++ u :: (seen ++ [v] ++ ys)).flatten =
          pre.flatten ++ u ++ seen.flatten ++ v ++ ys.flatten := by simp
      rw [hone, hhi, hlo, hl] at hrest
      rw [hrest, List.append_assoc, List.singleton_append]
    split_ifs
    · exact hnext hy hx
    · exact hnext hx hy

/-- The loops sort the records by exchange. -/
theorem sortItems_records (hk : 0 < k) {recs : List (List (SValue F))}
    (h : ∀ r ∈ recs, r.length = k) :
    sortItems asc k recs.flatten = (ExchangeSort.sort (recordGt asc) recs).flatten := by
  have hloop (n : ℕ) (pre xs : List (List (SValue F))) (hn : xs.length = n)
      (hpre : ∀ r ∈ pre, r.length = k) (hxs : ∀ r ∈ xs, r.length = k) :
      (List.range' (pre.length*k) n k).foldl (fun out i =>
          (stridesTo (i+k) ((pre.length+n)*k) k).foldl
            (fun out j => sortStep asc k ((pre.length+n)*k) i j out) out) (pre ++ xs).flatten =
        (pre ++ ExchangeSort.sort (recordGt asc) xs).flatten := by
    induction n generalizing pre xs with
    | zero =>
      rw [List.length_eq_zero_iff.mp hn, ExchangeSort.sort]
      rfl
    | succ n ih =>
      obtain ⟨x, xs, rfl⟩ := List.exists_cons_of_length_eq_add_one hn
      have hlen : xs.length = n := Nat.succ.inj hn
      have hx := hxs x List.mem_cons_self
      have hxs' : ∀ r ∈ xs, r.length = k := fun r hr => hxs r (List.mem_cons_of_mem x hr)
      have hinner := inner_pass asc hk hpre hx
        (fun r hr => absurd hr List.not_mem_nil :
          ∀ r ∈ ([] : List (List (SValue F))), r.length = k) hxs'
      rw [List.length_nil, Nat.add_zero, List.nil_append, List.nil_append, hlen] at hinner
      have hlo : pre.length*k+k = (pre.length+1)*k := by ring
      have hhi : (pre.length+(n+1))*k = (pre.length+1+n)*k := by ring
      rw [List.range'_succ, List.foldl_cons, hlo, hhi, stridesTo_eq hk, hinner,
        ExchangeSort.sort]
      have hpass := ExchangeSort.pass_perm (recordGt asc) x xs
      have hpass' : ∀ r ∈ (ExchangeSort.pass (recordGt asc) x xs).1 ::
          (ExchangeSort.pass (recordGt asc) x xs).2, r.length = k :=
        fun r hr => hxs r (hpass.mem_iff.mp hr)
      have hrest := ih (pre ++ [(ExchangeSort.pass (recordGt asc) x xs).1])
        (ExchangeSort.pass (recordGt asc) x xs).2
        ((ExchangeSort.pass_length _ x xs).trans hlen)
        (by
          intro r hr
          rcases List.mem_append.mp hr with hr | hr
          · exact hpre r hr
          · rw [List.mem_singleton.mp hr]
            exact hpass' _ List.mem_cons_self)
        (fun r hr => hpass' r (List.mem_cons_of_mem _ hr))
      rw [List.length_append, List.length_singleton, List.append_assoc, List.append_assoc,
        List.singleton_append, List.singleton_append] at hrest
      exact hrest
  have hall := hloop recs.length [] recs rfl (fun r hr => absurd hr List.not_mem_nil) h
  rw [List.length_nil, Nat.zero_add, Nat.zero_mul, List.nil_append, List.nil_append] at hall
  rw [sortItems, length_records h, ← hall]
  have hstrides := stridesTo_eq hk 0 recs.length
  rw [Nat.zero_mul, Nat.zero_add] at hstrides
  rw [hstrides]

omit [CDouble F] in
/-- The number of an integer. -/
def SValue.asInt : SValue F → Option ℤ
  | .int i => some i
  | _ => none

omit [CDouble F] in
/-- The text of a string or a key. -/
def SValue.asText : SValue F → Option Bytes
  | .string s | .key s => some s
  | _ => none

/-- The first elements of all records are integers, or all are strings or keys. -/
def FirstsAlike (recs : List (List (SValue F))) : Prop :=
  (∀ r ∈ recs, ∃ i, r.head? = some (.int i)) ∨
    ∀ r ∈ recs, ∃ s, r.head?.bind SValue.asText = some s

/-- The first elements of two records are both integers or both texts, and in order. -/
def InOrder (asc : Bool) (r r' : List (SValue F)) : Prop :=
  (∃ i j : ℤ, r.head? = some (.int i) ∧ r'.head? = some (.int j) ∧ if asc then i ≤ j else j ≤ i) ∨
    ∃ s t, r.head?.bind SValue.asText = some s ∧ r'.head?.bind SValue.asText = some t ∧
      if asc then byteOrder s ≤ byteOrder t else byteOrder t ≤ byteOrder s

/-- Sorted by exchange, the records are in the order that their keys have. -/
theorem sort_inOrder {β : Type} [LinearOrder β] {recs : List (List (SValue F))}
    (f : List (SValue F) → β)
    (hgt : ∀ r ∈ recs, ∀ r' ∈ recs, recordGt asc r r' ↔ if asc then f r' < f r else f r < f r')
    (hle : ∀ r ∈ recs, ∀ r' ∈ recs, (if asc then f r ≤ f r' else f r' ≤ f r) → InOrder asc r r') :
    (ExchangeSort.sort (recordGt asc) recs).Pairwise (InOrder asc) := by
  have hmem {r : List (SValue F)} (hr : r ∈ ExchangeSort.sort (recordGt asc) recs) : r ∈ recs :=
    (ExchangeSort.sort_perm _ recs).mem_iff.mp hr
  cases asc with
  | true =>
    refine (ExchangeSort.sort_pairwise hgt).imp_of_mem fun hr hr' h => ?_
    exact hle _ (hmem hr) _ (hmem hr') h
  | false =>
    -- downwards, the keys are compared the other way round
    have hsort := ExchangeSort.sort_pairwise (f := fun r => OrderDual.toDual (f r)) hgt
    refine hsort.imp_of_mem fun hr hr' h => ?_
    exact hle _ (hmem hr) _ (hmem hr') h

theorem sort_firstsAlike {recs : List (List (SValue F))} (h : FirstsAlike recs) :
    (ExchangeSort.sort (recordGt asc) recs).Pairwise (InOrder asc) := by
  rcases h with h | h
  · let key (r : List (SValue F)) : ℤ := (r.head?.bind SValue.asInt).getD 0
    have hkey {r : List (SValue F)} {i : ℤ} (hr : r.head? = some (.int i)) : key r = i := by
      simp only [key, hr, Option.bind_some, SValue.asInt, Option.getD_some]
    refine sort_inOrder key (fun r hr r' hr' => ?_) fun r hr r' hr' hle => ?_
    · obtain ⟨i, hi⟩ := h r hr
      obtain ⟨j, hj⟩ := h r' hr'
      rw [hkey hi, hkey hj, recordGt, hi, hj]
      change (if asc then decide (j < i) else decide (i < j)) = true ↔ _
      cases asc with
      | true => exact decide_eq_true_iff
      | false => exact decide_eq_true_iff
    · obtain ⟨i, hi⟩ := h r hr
      obtain ⟨j, hj⟩ := h r' hr'
      rw [hkey hi, hkey hj] at hle
      exact Or.inl ⟨i, j, hi, hj, hle⟩
  · let key (r : List (SValue F)) : List ℕ := byteOrder ((r.head?.bind SValue.asText).getD [])
    have hkey {r : List (SValue F)} {s : Bytes} (hr : r.head?.bind SValue.asText = some s) :
        key r = byteOrder s := by
      simp only [key, hr, Option.getD_some]
    have hswap {a b : SValue F} {s t : Bytes} (ha : a.asText = some s) (hb : b.asText = some t) :
        sortSwap asc a b =
          if asc then decide (byteOrder t < byteOrder s) else decide (byteOrder s < byteOrder t) := by
      cases a <;> cases ha <;> cases b <;> cases hb <;> rfl
    refine sort_inOrder key (fun r hr r' hr' => ?_) fun r hr r' hr' hle => ?_
    · obtain ⟨s, hs⟩ := h r hr
      obtain ⟨t, ht⟩ := h r' hr'
      obtain ⟨a, ha, has⟩ := Option.bind_eq_some_iff.mp hs
      obtain ⟨b, hb, hbt⟩ := Option.bind_eq_some_iff.mp ht
      rw [hkey hs, hkey ht, recordGt, ha, hb]
      change sortSwap asc a b = true ↔ _
      rw [hswap has hbt]
      cases asc with
      | true => exact decide_eq_true_iff
      | false => exact decide_eq_true_iff
    · obtain ⟨s, hs⟩ := h r hr
      obtain ⟨t, ht⟩ := h r' hr'
      rw [hkey hs, hkey ht] at hle
      exact Or.inr ⟨s, t, hs, ht, hle⟩

/-- The result is a permutation of the elements; and if the list is made of records of the stride's
length whose first elements are alike, it is made of the same records, with their first elements in
order. The count of a list is an `int`. -/
theorem llListSort_sorts (l : List (SValue F)) (stride asc : ℤ) : ∃ out,
    llListSort [.list l, .int stride, .int asc] = .list out ∧ out.Perm l ∧
      ∀ recs : List (List (SValue F)), l = recs.flatten → (l.length : ℤ) < 2^31 → 1 ≤ stride →
        (∀ r ∈ recs, (r.length : ℤ) = stride) → FirstsAlike recs →
        ∃ recs' : List (List (SValue F)), recs'.Perm recs ∧ out = recs'.flatten ∧
          recs'.Pairwise (InOrder (toCInt asc ≠ 0)) := by
  refine ⟨_, rfl, sortItems_perm _ _ l, ?_⟩
  rintro recs rfl hlen hs hr hfirst
  refine ⟨_, ExchangeSort.sort_perm (recordGt (toCInt asc ≠ 0)) recs, ?_, sort_firstsAlike hfirst⟩
  change sortItems (toCInt asc ≠ 0) (if toCInt stride < 1 then 1 else toCInt stride).toNat _ = _
  cases recs with
  | nil =>
    rw [ExchangeSort.sort]
    exact List.perm_nil.mp (sortItems_perm _ _ _)
  | cons r recs =>
    have hle : stride ≤ (r :: recs).flatten.length := by
      rw [← hr r List.mem_cons_self, List.flatten_cons, List.length_append]
      omega
    have hstride : toCInt stride = stride := by
      unfold toCInt
      omega
    rw [hstride, if_neg (by omega)]
    refine sortItems_records (by omega) fun r' hr' => ?_
    have h := hr r' hr'
    omega

/-- Three records of two elements, downwards. -/
theorem llListSort_sorts_pairs : ∃ recs' : List (List (SValue ℚ)),
    recs'.Perm [[.string (lit "b"), .int 1], [.key (lit "c"), .int 2], [.string (lit "a"), .int 3]] ∧
      llListSort [.list [.string (lit "b"), .int 1, .key (lit "c"), .int 2, .string (lit "a"), .int 3],
        .int 2, .int 0] = .list recs'.flatten ∧ recs'.Pairwise (InOrder false) := by
  obtain ⟨out, hout, -, hrec⟩ := llListSort_sorts
    ([.string (lit "b"), .int 1, .key (lit "c"), .int 2, .string (lit "a"), .int 3] : List (SValue ℚ))
    2 0
  obtain ⟨recs', hperm, hflat, hsorted⟩ := hrec
    [[.string (lit "b"), .int 1], [.key (lit "c"), .int 2], [.string (lit "a"), .int 3]] rfl
    (by decide) (by decide) (by simp) (Or.inr (by simp [SValue.asText]))
  exact ⟨recs', hperm, by rw [hout, hflat], hsorted⟩

end

end Slemu
