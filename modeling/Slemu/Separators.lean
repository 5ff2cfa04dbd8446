import Slemu.Value

/-! Texts cut at a separator: `parse_string2list` and `bi_llDumpList2String`. -/

/-- The texts between the occurrences of a separator, each of them the first one behind the last. -/
inductive Leftmost {α : Type} (d : List α) : List α → List (List α) → Prop
  | last {s} (h : ¬ d <:+: s) : Leftmost d s [s]
  | more {t r ts} (first : ∀ u v, t ++ d ++ r = u ++ d ++ v → t.length ≤ u.length)
    (rest : Leftmost d r ts) : Leftmost d (t ++ d ++ r) (t :: ts)

namespace Leftmost
variable {α : Type} {d s : List α} {ts : List (List α)}

theorem ne_nil (h : Leftmost d s ts) : ts ≠ [] := by
  cases h with
  | last => exact List.cons_ne_nil _ _
  | more => exact List.cons_ne_nil _ _

/-- Nothing is lost. -/
theorem join (h : Leftmost d s ts) : d.intercalate ts = s := by
  induction h with
  | last => exact List.intercalate_singleton
  | @more t r ts first rest ih =>
    obtain ⟨u, us, rfl⟩ := List.exists_cons_of_ne_nil rest.ne_nil
    rw [List.intercalate_cons_cons, ih]

/-- No text has the separator in it. -/
theorem free (hd : d ≠ []) (h : Leftmost d s ts) : ∀ t ∈ ts, ¬ d <:+: t := by
  induction h with
  | last h =>
    intro t ht
    rw [List.mem_singleton.mp ht]
    exact h
  | @more t r ts first rest ih =>
    intro t' ht'
    rcases List.mem_cons.mp ht' with rfl | ht'
    · rintro ⟨u, v, huv⟩
      have hle := first u (v ++ d ++ r) (by rw [← huv]; simp only [List.append_assoc])
      have hlen := congrArg List.length huv
      have hpos := List.length_pos_of_ne_nil hd
      simp only [List.length_append] at hlen
      omega
    · exact ih t' ht'

end Leftmost

namespace Slemu
variable {F : Type}

/-- The text of a separator or spacer; others than strings do not count. -/
def SValue.sepText : SValue F → Option Bytes
  | .string s => some s
  | _ => none

/-- The first of the separators that the text goes on with; empty ones do not count. -/
def sepMatch (seps : List (SValue F)) (text : Bytes) : Option Bytes :=
  (seps.filterMap SValue.sepText).find? fun sp => sp ≠ [] && sp.isPrefixOf text

/-- `while (pos < lenS)` of `parse_string2list`: `tok` is the part from `start` to `pos`, `rest` what
follows. -/
def parseLoop (sep spc : List (SValue F)) (keepNulls : Bool) (tok : Bytes) :
    Bytes → List (SValue F)
  | [] => if tok ≠ [] || keepNulls then [.string tok] else []
  | c :: rest =>
    let out := if tok ≠ [] || keepNulls then [.string tok] else []
    match sepMatch sep (c :: rest), sepMatch spc (c :: rest) with
    -- a match has at least one byte
    | some m, _ => out ++ parseLoop sep spc keepNulls [] (rest.drop (m.length-1))
    | none, some m => out ++ .string m :: parseLoop sep spc keepNulls [] (rest.drop (m.length-1))
    | none, none => parseLoop sep spc keepNulls (tok ++ [c]) rest
termination_by rest => rest.length
decreasing_by
  all_goals
    simp only [List.length_drop, List.length_cons]
    omega

/-- The elements of an argument that is a list. -/
def argList (a : List (SValue F)) (i : ℕ) : List (SValue F) :=
  match a[i]? with
  | some (.list l) => l
  | _ => []

section
variable [CDouble F]

/-- `parse_string2list` -/
def parseString2list (a : List (SValue F)) (keepNulls : Bool) : SValue F :=
  if a = [] then .list [] else
    .list (parseLoop (argList a 1) (argList a 2) keepNulls [] (argStr a 0))

/-- `bi_llParseStringKeepNulls` -/
def llParseStringKeepNulls (a : List (SValue F)) : SValue F := parseString2list a true

/-- `bi_llParseString2List` -/
def llParseString2List (a : List (SValue F)) : SValue F := parseString2list a false

/-- `bi_llDumpList2String` -/
def llDumpList2String (a : List (SValue F)) : SValue F :=
  match a with
  | .list l :: _ => .string ((argStr a 1).intercalate (l.map svToString))
  | _ => .string []

/-! ### One separator -/

omit [CDouble F] in
theorem sepMatch_one {d : Bytes} (hd : d ≠ []) (text : Bytes) :
    sepMatch ([.string d] : List (SValue F)) text = if d <+: text then some d else none := by
  change [d].find? (fun sp => sp ≠ [] && sp.isPrefixOf text) = _
  rw [List.find?_singleton]
  by_cases h : d <+: text
  · rw [if_pos h, if_pos]
    rw [Bool.and_eq_true]
    exact ⟨decide_eq_true hd, List.isPrefixOf_iff_prefix.mpr h⟩
  · rw [if_neg h, if_neg]
    rw [Bool.and_eq_true, not_and]
    intro _ hp
    exact h (List.isPrefixOf_iff_prefix.mp hp)

omit [CDouble F] in
/-- Where no separator begins in front of the text that is left, the loop cuts the rest of the string
at the leftmost ones. -/
theorem parseLoop_leftmost {d : Bytes} (hd : d ≠ []) (n : ℕ) (tok rest : Bytes)
    (hn : rest.length ≤ n) (hfree : ∀ u v, tok ++ rest = u ++ d ++ v → tok.length ≤ u.length) :
    ∃ ts : List Bytes, parseLoop ([.string d] : List (SValue F)) [] true tok rest = ts.map .string ∧
      Leftmost d (tok ++ rest) ts := by
  have hpos := List.length_pos_of_ne_nil hd
  induction n generalizing tok rest with
  | zero =>
    obtain rfl := List.length_eq_zero_iff.mp (Nat.le_zero.mp hn)
    rw [parseLoop]
    refine ⟨[tok], ?_, ?_⟩
    · rw [Bool.or_true]
      rfl
    · rw [List.append_nil]
      refine .last ?_
      rintro ⟨u, v, huv⟩
      have hle := hfree u v (by rw [List.append_nil, huv])
      have hlen := congrArg List.length huv
      simp only [List.length_append] at hlen
      omega
  | succ n ih =>
    cases rest with
    | nil => exact ih tok [] (Nat.zero_le n) hfree
    | cons c rest =>
      rw [List.length_cons] at hn
      rw [parseLoop, sepMatch_one hd]
      by_cases hm : d <+: c :: rest
      · obtain ⟨r, hr⟩ := hm
        have hdrop : rest.drop (d.length-1) = r := by
          have h := congrArg (List.drop d.length) hr
          rw [List.drop_left] at h
          rw [h]
          cases hlen : d.length with
          | zero => omega
          | succ k => rfl
        have hlen : r.length ≤ n := by
          have h := congrArg List.length hr
          rw [List.length_append, List.length_cons] at h
          omega
        obtain ⟨ts, hts, hleft⟩ := ih [] r hlen fun u v _ => Nat.zero_le _
        rw [if_pos ⟨r, hr⟩]
        refine ⟨tok :: ts, ?_, ?_⟩
        · rw [Bool.or_true]
          change [SValue.string tok] ++ parseLoop _ [] true [] (rest.drop (d.length-1)) = _
          rw [hdrop, hts]
          rfl
        · rw [← hr, ← List.append_assoc] at hfree ⊢
          exact .more hfree hleft
      · rw [if_neg hm]
        have happ : tok ++ c :: rest = tok ++ [c] ++ rest := by simp
        rw [happ] at hfree ⊢
        refine ih (tok ++ [c]) rest (by omega) fun u v huv => ?_
        have hle := hfree u v huv
        rw [List.length_append, List.length_singleton]
        refine Nat.lt_of_le_of_ne hle fun heq => hm ?_
        -- the separator would begin at the character that was skipped
        have htail := congrArg (List.drop tok.length) huv
        rw [← happ, List.drop_left, heq, List.append_assoc, List.drop_left] at htail
        exact ⟨v, htail.symm⟩

/-- Cut at a separator, a string comes in the texts between its leftmost occurrences, and the texts
joined with it give the string again. -/
theorem split_join {d : Bytes} (hd : d ≠ []) (s : Bytes) : ∃ ts : List Bytes,
    llParseStringKeepNulls ([.string s, .list [.string d], .list []] : List (SValue F)) =
        .list (ts.map .string) ∧
      llDumpList2String ([.list (ts.map .string), .string d] : List (SValue F)) = .string s ∧
      (∀ t ∈ ts, ¬ d <:+: t) ∧ Leftmost d s ts := by
  obtain ⟨ts, hts, hleft⟩ := parseLoop_leftmost (F := F) hd s.length [] s le_rfl
    fun u v _ => Nat.zero_le _
  rw [List.nil_append] at hleft
  refine ⟨ts, ?_, ?_, hleft.free hd, hleft⟩
  · change SValue.list (parseLoop [SValue.string d] [] true [] s) = _
    rw [hts]
  · change SValue.string (d.intercalate ((ts.map SValue.string).map svToString)) = _
    have hself : (ts.map SValue.string).map (svToString (F := F)) = ts := by
      rw [List.map_map]
      have hid : svToString (F := F) ∘ SValue.string = id := by
        funext t
        change svToString (SValue.string t) = t
        rw [svToString]
      rw [hid, List.map_id]
    rw [hself, hleft.join]

/-- A separator that overlaps itself, and is at both ends. -/
theorem split_join_overlap : ∃ ts : List Bytes,
    llParseStringKeepNulls ([.string (lit "aaabaa"), .list [.string (lit "aa")], .list []] :
        List (SValue ℚ)) = .list (ts.map .string) ∧
      llDumpList2String ([.list (ts.map .string), .string (lit "aa")] : List (SValue ℚ)) =
        .string (lit "aaabaa") ∧
      (∀ t ∈ ts, ¬ lit "aa" <:+: t) ∧ Leftmost (lit "aa") (lit "aaabaa") ts :=
  split_join (by decide +kernel) (lit "aaabaa")

end

/-! ### Nulls -/

/-- The empty string. -/
def SValue.isNull : SValue F → Bool
  | .string s => s = []
  | _ => false

/-- A list without its empty strings. -/
def SValue.dropNulls : SValue F → SValue F
  | .list l => .list (l.filter fun v => !v.isNull)
  | v => v

theorem sepMatch_ne_nil {seps : List (SValue F)} {text m : Bytes} (h : sepMatch seps text = some m) :
    m ≠ [] := by
  have hp := List.find?_some h
  rw [Bool.and_eq_true, decide_eq_true_eq] at hp
  exact hp.1

/-- The text before a match or the end, with nulls kept and without. -/
theorem filter_token (tok : Bytes) (rest : List (SValue F)) :
    ((if tok ≠ [] || true then [SValue.string tok] else []) ++ rest).filter (fun v => !v.isNull) =
      (if tok ≠ [] || false then [SValue.string tok] else []) ++ rest.filter fun v => !v.isNull := by
  rw [List.filter_append]
  congr 1
  by_cases ht : tok = []
  · rw [ht]
    rfl
  · have hnull : (SValue.string tok : SValue F).isNull = false := decide_eq_false ht
    simp [ht, hnull]

/-- Both runs find the same matches; they differ in the texts between them that are empty. -/
theorem parseLoop_dropNulls (sep spc : List (SValue F)) (tok rest : Bytes) :
    parseLoop sep spc false tok rest =
      (parseLoop sep spc true tok rest).filter fun v => !v.isNull := by
  induction h : rest.length using Nat.strong_induction_on generalizing tok rest with
  | _ n ih =>
    cases rest with
    | nil =>
      have hend := filter_token (F := F) tok []
      rw [List.append_nil, List.filter_nil, List.append_nil] at hend
      rw [parseLoop, parseLoop, hend]
    | cons c rest =>
      have hlen (m : Bytes) : (rest.drop (m.length-1)).length < n := by
        rw [← h, List.length_drop, List.length_cons]
        omega
      rw [parseLoop, parseLoop]
      cases hsep : sepMatch sep (c :: rest) with
      | some m =>
        dsimp only
        rw [filter_token, ih _ (hlen m) [] _ rfl]
      | none =>
        cases hspc : sepMatch spc (c :: rest) with
        | some m =>
          -- a spacer is never empty
          have hm : (SValue.string m : SValue F).isNull = false :=
            decide_eq_false (sepMatch_ne_nil hspc)
          dsimp only
          rw [filter_token, List.filter_cons_of_pos (by rw [hm]; rfl), ih _ (hlen m) [] _ rfl]
        | none =>
          dsimp only
          exact ih _ (by rw [← h, List.length_cons]; omega) (tok ++ [c]) rest rfl

/-- The two parsers differ only in nulls. -/
theorem parsers_differ_in_nulls (s : Bytes) (seps spacers : List (SValue F)) :
    llParseString2List [.string s, .list seps, .list spacers] =
      (llParseStringKeepNulls [.string s, .list seps, .list spacers]).dropNulls := by
  have hloop := parseLoop_dropNulls seps spacers [] s
  exact congrArg SValue.list hloop

end Slemu
