import Slemu.Decimal
import Slemu.Value

/-! Decimal strings read as integers: `do_cast`, `ai` and `list_at` go through `strtoll` with base 0,
which takes a leading zero for the mark of base 8. -/

namespace Slemu
variable {F : Type} [CDouble F]

/-! ### Lists -/

/-- What `list_at` gives where the list has no such element. -/
def listEmpty (want : UInt8) : SValue F :=
  if want = SV.integer then .int 0
  else if want = SV.float then .float CDouble.zero
  else if want = SV.string then .string []
  else if want = SV.key then .nullKey
  else if want = SV.vector then .vec CDouble.zero CDouble.zero CDouble.zero
  else if want = SV.rotation then .rot CDouble.zero CDouble.zero CDouble.zero CDouble.one
  else .void

/-- An element of another type than `list_at` wants. -/
def listCast (want : UInt8) (v : SValue F) : SValue F :=
  if v.tag = want then v
  else if want = SV.string then .string (svToString v)
  else if want = SV.integer then match v with
    | .int i => .int i
    | .float f => .int (CDouble.toInt f)
    | .string s | .key s => .int (strtoll 0 s)
    | _ => .int 0
  else if want = SV.float then match v with
    | .float f => .float f
    | .int i => .float (CDouble.ofInt i)
    | .string s => .float (CDouble.strtod s)
    | _ => .float CDouble.zero
  else if want = SV.key then .key (svToString v)
  else if want = SV.vector then .vec CDouble.zero CDouble.zero CDouble.zero
  else if want = SV.rotation then .rot CDouble.zero CDouble.zero CDouble.zero CDouble.one
  else v

/-- `list_at` -/
def listAt (a : List (SValue F)) (i : ℕ) (want : UInt8) : SValue F :=
  match a with
  | .list l :: _ =>
    let idx := toCInt (argInt a i)
    let idx := if idx < 0 then idx+l.length else idx
    match if idx < 0 then none else l[idx.toNat]? with
    | some v => listCast want v
    | none => listEmpty want
  | _ => listEmpty want

/-- `bi_llList2Integer` -/
def llList2Integer (a : List (SValue F)) : SValue F := listAt a 1 SV.integer

/-- The element at an index, counted from either end. -/
theorem listAt_item {l a : List (SValue F)} {i k : ℕ} {v : SValue F} (hv : l[k]? = some v)
    (hk : toCInt (argInt (.list l :: a) i) = k ∨ toCInt (argInt (.list l :: a) i) = k-l.length)
    (want : UInt8) : listAt (.list l :: a) i want = listCast want v := by
  obtain ⟨hlt, -⟩ := List.getElem?_eq_some_iff.mp hv
  unfold listAt
  generalize toCInt (argInt (.list l :: a) i) = idx at hk ⊢
  have hidx : (if idx < 0 then idx+l.length else idx) = k := by
    rcases hk with hk | hk
    · rw [if_neg (by omega), hk]
    · rw [if_pos (by omega), hk]
      omega
  have hneg : ¬ (k : ℤ) < 0 := by omega
  dsimp only
  rw [hidx, if_neg hneg]
  simp only [Int.toNat_natCast, hv]

/-! ### Decimal strings -/

/-- An optional minus sign and digits. -/
structure DecString where
  neg : Bool
  digits : Bytes
  ne : digits ≠ []
  digit : ∀ c ∈ digits, isDigit c

namespace DecString

def text (d : DecString) : Bytes := if d.neg then 45 :: d.digits else d.digits

/-- The number that digits spell. -/
def spelled (ds : Bytes) : ℕ := ds.foldl (fun n c => n*10+(c.toNat-48)) 0

def value (d : DecString) : ℤ := if d.neg then -(spelled d.digits : ℤ) else spelled d.digits

end DecString

/-- A string is read as this integer by the cast, as an element of a list, and as an argument. -/
structure ReadAs (F : Type) [CDouble F] (s : Bytes) (n : ℤ) : Prop where
  cast : doCast (.string s : SValue F) SV.integer = .int n
  list : ∀ (l : List (SValue F)) (i : ℤ) (k : ℕ), l[k]? = some (.string s) →
    toCInt i = k ∨ toCInt i = k-l.length → llList2Integer [.list l, .int i] = .int n
  argument : ∀ (a : List (SValue F)) (i : ℕ), a[i]? = some (.string s) → argInt a i = n

/-- All three come down to `strtoll`. -/
theorem readAs_iff (s : Bytes) (n : ℤ) : ReadAs F s n ↔ strtoll 0 s = n := by
  have harg (a : List (SValue F)) (i : ℕ) (ha : a[i]? = some (.string s)) :
      argInt a i = strtoll 0 s := by
    unfold argInt
    rw [ha]
  have htag : (.string s : SValue F).tag ≠ SV.integer := by
    change SV.string ≠ SV.integer
    decide
  have hstr : ¬ SV.integer = SV.string := by decide
  have hcast : doCast (.string s : SValue F) SV.integer = .int (strtoll 0 s) := by
    unfold doCast
    rw [if_neg htag, if_pos rfl]
  have hitem : listCast SV.integer (.string s : SValue F) = .int (strtoll 0 s) := by
    unfold listCast
    rw [if_neg htag, if_neg hstr, if_pos rfl]
  have hlist (l : List (SValue F)) (i : ℤ) (k : ℕ) (hl : l[k]? = some (.string s))
      (hk : toCInt i = k ∨ toCInt i = k-l.length) :
      llList2Integer [.list l, .int i] = .int (strtoll 0 s) := by
    have hint : argInt ([.list l, .int i] : List (SValue F)) 1 = i := by
      unfold argInt
      rw [List.getElem?_cons_succ, List.getElem?_cons_zero]
    rw [llList2Integer, listAt_item hl (by rwa [hint])]
    exact hitem
  constructor
  · intro h
    have h0 := h.argument [.string s] 0 (List.getElem?_cons_zero ..)
    rwa [harg _ 0 (List.getElem?_cons_zero ..)] at h0
  · rintro rfl
    exact ⟨hcast, hlist, harg⟩

/-! ### The base -/

theorem digitVal_of_isDigit {c : UInt8} (h : isDigit c) : digitVal c = c.toNat-48 := if_pos h

theorem scanBase_digits {ds : Bytes} (hd : ∀ c ∈ ds, isDigit c) :
    scanBase 0 ds = (if ds.head? = some 48 then 8 else 10, ds) := by
  have hx (x : UInt8) (h : isDigit x) : (x == 120 || x == 88) = false := by
    revert x
    decide +kernel
  cases ds with
  | nil => rfl
  | cons c t =>
    by_cases hc : c = 48
    · subst hc
      cases t with
      | nil => rfl
      | cons x t =>
        cases t with
        | nil => rfl
        | cons y t =>
          -- a digit after the zero is no `x`
          have hm : x ∈ 48 :: x :: y :: t := List.mem_cons_of_mem _ List.mem_cons_self
          have hbase : scanBase 0 (48 :: x :: y :: t) =
              if (x == 120 || x == 88) && digitVal y < 16 then (16, y :: t)
              else (8, 48 :: x :: y :: t) := rfl
          rw [hbase, hx x (hd x hm)]
          rfl
    · have hhead : (c :: t).head? ≠ some 48 := fun h => hc (Option.some.inj h)
      rw [if_neg hhead]
      unfold scanBase
      split
      · rename_i h
        exact absurd (List.cons.inj h).1 hc
      · rename_i h
        exact absurd (List.cons.inj h).1 hc
      · rfl
      · rename_i h _ _
        exact absurd rfl h

/-- What base 8 reads of digits: those before the first 8 or 9. -/
def octal (ds : Bytes) : ℕ :=
  (ds.takeWhile fun c => digitVal c < 8).foldl (fun n c => n*8+digitVal c) 0

theorem spelled_eq {ds : Bytes} (hd : ∀ c ∈ ds, isDigit c) :
    (ds.takeWhile fun c => digitVal c < 10).foldl (fun n c => n*10+digitVal c) 0 =
      DecString.spelled ds := by
  have hall : ∀ c ∈ ds, decide (digitVal c < 10) = true := fun c hc =>
    decide_eq_true (isDigit_facts c (hd c hc)).2.2.2
  rw [List.takeWhile_eq_self_iff.mpr hall, DecString.spelled]
  apply List.foldl_ext
  intro n c hc
  rw [digitVal_of_isDigit (hd c hc)]

/-- Read in base 8, digits never spell more, and they spell as much only below 8. -/
theorem octal_facts {ds : Bytes} (hd : ∀ c ∈ ds, isDigit c) :
    octal ds ≤ DecString.spelled ds ∧ (8 ≤ DecString.spelled ds → octal ds < DecString.spelled ds) ∧
      (DecString.spelled ds < 8 →
        octal ds = DecString.spelled ds ∧ ∀ c ∈ ds, digitVal c < 8) := by
  induction ds using List.reverseRecOn with
  | nil => exact ⟨le_rfl, fun h => absurd h (by decide), fun _ => ⟨rfl, by simp⟩⟩
  | append_singleton ds c ih =>
    obtain ⟨hle, hlt, heq⟩ := ih fun d h => hd d (List.mem_append_left _ h)
    have hc := digitVal_of_isDigit (hd c (List.mem_append_right _ (List.mem_singleton_self c)))
    have hspell : DecString.spelled (ds ++ [c]) = DecString.spelled ds*10+digitVal c := by
      rw [hc, DecString.spelled, List.foldl_append]
      rfl
    by_cases hall : ∀ d ∈ ds, digitVal d < 8
    · have hpos : ∀ d ∈ ds, decide (digitVal d < 8) = true := fun d h => decide_eq_true (hall d h)
      by_cases h8 : digitVal c < 8
      · have hoct : octal (ds ++ [c]) = octal ds*8+digitVal c := by
          rw [octal, octal, List.takeWhile_append_of_pos hpos, List.takeWhile_eq_self_iff.mpr hpos,
            List.takeWhile_cons_of_pos (by simpa using h8), List.foldl_append]
          rfl
        rw [hspell, hoct]
        refine ⟨by omega, by omega, fun h => ⟨by omega, ?_⟩⟩
        intro d hm
        rcases List.mem_append.mp hm with hm | hm
        · exact hall d hm
        · rw [List.mem_singleton.mp hm]
          exact h8
      · have hoct : octal (ds ++ [c]) = octal ds := by
          rw [octal, octal, List.takeWhile_append_of_pos hpos, List.takeWhile_eq_self_iff.mpr hpos,
            List.takeWhile_cons_of_neg (by simpa using h8), List.append_nil]
        rw [hspell, hoct]
        exact ⟨by omega, by omega, by omega⟩
    · -- an 8 or a 9 before has ended the number
      have hoct : octal (ds ++ [c]) = octal ds := by
        have hlen : (ds.takeWhile fun d => digitVal d < 8).length ≠ ds.length := by
          intro h
          have hself := (List.takeWhile_prefix (l := ds) fun d => decide (digitVal d < 8)).eq_of_length h
          apply hall
          intro d hm
          simpa using List.takeWhile_eq_self_iff.mp hself d hm
        rw [octal, List.takeWhile_append, if_neg hlen, ← octal]
      have h8 : 8 ≤ DecString.spelled ds := by
        by_contra h
        exact hall (heq (by omega)).2
      rw [hspell, hoct]
      exact ⟨by omega, by omega, by omega⟩

theorem dropWhile_space {d : DecString} : d.text.dropWhile isSpace = d.text := by
  obtain ⟨c, t, hd⟩ := List.exists_cons_of_ne_nil d.ne
  have hc := isDigit_facts c (d.digit c (hd ▸ List.mem_cons_self))
  unfold DecString.text
  split
  · exact List.dropWhile_cons_of_neg (by decide)
  · rw [hd, List.dropWhile_cons_of_neg (by rw [hc.1]; decide)]

theorem scanSign_text (d : DecString) : scanSign d.text = (d.neg, d.digits) := by
  obtain ⟨c, t, hd⟩ := List.exists_cons_of_ne_nil d.ne
  have hc := isDigit_facts c (d.digit c (hd ▸ List.mem_cons_self))
  unfold DecString.text
  cases d.neg with
  | true => rfl
  | false =>
    rw [if_neg Bool.false_ne_true, hd]
    unfold scanSign
    split
    · rename_i h
      exact absurd (List.cons.inj h).1 hc.2.1
    · rename_i h
      exact absurd (List.cons.inj h).1 hc.2.2.1
    · rfl

/-- What `strtoll` reads, before it is cut to the range of its type. -/
def readDigits (ds : Bytes) : ℕ := if ds.head? = some 48 then octal ds else DecString.spelled ds

theorem strtoll_text (d : DecString) : strtoll 0 d.text = max llongMin (min llongMax
    (if d.neg then -(readDigits d.digits : ℤ) else readDigits d.digits)) := by
  unfold strtoll readDigits
  rw [dropWhile_space, scanSign_text]
  dsimp only
  rw [scanBase_digits d.digit]
  by_cases h : d.digits.head? = some 48
  · simp only [if_pos h]
    rfl
  · simp only [if_neg h, spelled_eq d.digit]

/-- The digits are read at their value unless a leading zero takes more than one digit with it. -/
theorem readDigits_eq_iff (d : DecString) : readDigits d.digits = DecString.spelled d.digits ↔
    d.digits.head? ≠ some 48 ∨ DecString.spelled d.digits < 8 := by
  obtain ⟨-, hlt, heq⟩ := octal_facts d.digit
  unfold readDigits
  by_cases h : d.digits.head? = some 48
  · rw [if_pos h]
    constructor
    · intro ho
      exact .inr (by omega)
    · rintro (hn | h8)
      · exact absurd h hn
      · exact (heq h8).1
  · rw [if_neg h]
    exact iff_of_true rfl (.inl h)

theorem strtoll_eq_value_iff (d : DecString) (hlo : -2^31 ≤ d.value) (hhi : d.value < 2^31) :
    strtoll 0 d.text = d.value ↔ readDigits d.digits = DecString.spelled d.digits := by
  have hle : readDigits d.digits ≤ DecString.spelled d.digits := by
    obtain ⟨ho, -, -⟩ := octal_facts d.digit
    unfold readDigits
    split <;> omega
  have hmin : llongMin = -2^63 := rfl
  have hmax : llongMax = 2^63-1 := rfl
  rw [strtoll_text, hmin, hmax]
  unfold DecString.value at hlo hhi ⊢
  split
  · rename_i hneg
    rw [if_pos hneg] at hlo hhi
    omega
  · rename_i hneg
    rw [if_neg hneg] at hlo hhi
    omega

/-! ### The law -/

theorem readAs_value_iff (d : DecString) (hlo : -2^31 ≤ d.value) (hhi : d.value < 2^31) :
    ReadAs F d.text d.value ↔ d.digits.head? ≠ some 48 ∨ DecString.spelled d.digits < 8 :=
  (readAs_iff d.text d.value).trans
    ((strtoll_eq_value_iff d hlo hhi).trans (readDigits_eq_iff d))

/-- A number with a sign. -/
def DecString.ofNat (neg : Bool) (k : ℕ) : DecString :=
  ⟨neg, Slemu.digits k, digits_ne_nil k, isDigit_digits k⟩

/-- An integer as `%lld` prints it. -/
def DecString.ofInt (n : ℤ) : DecString := .ofNat (n < 0) n.natAbs

theorem DecString.ofInt_text (n : ℤ) : (DecString.ofInt n).text = decBytes n := by
  rw [decBytes_eq, DecString.text, DecString.ofInt, DecString.ofNat]
  by_cases hn : n < 0
  · rw [if_pos hn, if_pos (decide_eq_true hn)]
  · rw [if_neg hn, if_neg (by simpa using hn)]

theorem DecString.ofInt_value (n : ℤ) : (DecString.ofInt n).value = n := by
  have hspell : DecString.spelled (Slemu.digits n.natAbs) = n.natAbs := by
    rw [← spelled_eq (isDigit_digits n.natAbs), List.takeWhile_eq_self_iff.mpr fun c hc =>
      decide_eq_true (isDigit_facts c (isDigit_digits _ c hc)).2.2.2, foldl_digits]
  rw [DecString.value, DecString.ofInt, DecString.ofNat]
  dsimp only
  rw [hspell]
  by_cases hn : n < 0
  · rw [if_pos (decide_eq_true hn)]
    omega
  · rw [if_neg (by simpa using hn)]
    omega

/-- What is printed is read again. -/
theorem readAs_decBytes (n : ℤ) (hlo : -2^31 ≤ n) (hhi : n < 2^31) : ReadAs F (decBytes n) n := by
  have hv := DecString.ofInt_value n
  have h := (readAs_value_iff (F := F) (DecString.ofInt n) (hv.symm ▸ hlo) (hv.symm ▸ hhi)).mpr ?_
  · rwa [hv, DecString.ofInt_text] at h
  · by_cases hhead : (DecString.ofInt n).digits.head? = some 48
    · -- only zero has a leading zero
      refine .inr ?_
      have hone : (DecString.ofInt n).digits = [48] := digits_head _ hhead
      rw [hone]
      decide
    · exact .inl hhead

/-- A decimal string is read at its value if and only if it has no leading zero or its digits spell
less than 8; integers are always read as they were printed. -/
theorem decimal_strings_iff (d : DecString) (hlo : -2^31 ≤ d.value) (hhi : d.value < 2^31) :
    (ReadAs F d.text d.value ↔ d.digits.head? ≠ some 48 ∨ DecString.spelled d.digits < 8) ∧
      ∀ n : ℤ, -2^31 ≤ n → n < 2^31 →
        doCast (doCast (.int n : SValue F) SV.string) SV.integer = .int n := by
  refine ⟨readAs_value_iff d hlo hhi, fun n h1 h2 => ?_⟩
  have hstr : doCast (.int n : SValue F) SV.string = .string (decBytes n) := by
    have htag : (.int n : SValue F).tag ≠ SV.string := by
      change SV.integer ≠ SV.string
      decide
    have h3 : ¬ SV.string = SV.integer := by decide
    have h4 : ¬ SV.string = SV.float := by decide
    unfold doCast
    rw [if_neg htag, if_neg h3, if_neg h4, if_pos rfl, svToString]
  rw [hstr]
  exact (readAs_decBytes n h1 h2).cast

/-- The string `-00`. -/
def minusZero : DecString := ⟨true, [48, 48], by decide, by decide +kernel⟩

theorem decimal_strings_zero : (ReadAs ℚ minusZero.text minusZero.value ↔
      minusZero.digits.head? ≠ some 48 ∨ DecString.spelled minusZero.digits < 8) ∧
    ∀ n : ℤ, -2^31 ≤ n → n < 2^31 →
      doCast (doCast (.int n : SValue ℚ) SV.string) SV.integer = .int n :=
  decimal_strings_iff minusZero (by decide +kernel) (by decide +kernel)

/-- `010` is read as 8. -/
theorem decimal_strings_octal : ∃ d : DecString, -2^31 ≤ d.value ∧ d.value < 2^31 ∧
    ¬ ReadAs ℚ d.text d.value := by
  refine ⟨⟨false, [48, 49, 48], by decide, by decide +kernel⟩, by decide +kernel, by decide +kernel,
    ?_⟩
  rw [readAs_iff]
  decide +kernel

end Slemu
