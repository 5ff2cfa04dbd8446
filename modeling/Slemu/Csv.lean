import Slemu.Value

/-! `bi_llList2CSV` and `bi_llCSV2List`: the decoder trims every field but the last. -/

namespace Slemu
variable {F : Type}

/-- The loop of `bi_llCSV2List` from `p` on. -/
def csvLoop (p : Bytes) : List (SValue F) :=
  match _h : p.dropWhile (· ≠ 44) with
  | [] => [.string p]
  | _ :: r => .string ((p.takeWhile (· ≠ 44)).dropWhile (· = 32)) :: csvLoop r
termination_by p.length
decreasing_by
  have hlen := (List.dropWhile_suffix (l := p) (· ≠ 44)).length_le
  rw [_h, List.length_cons] at hlen
  exact hlen

section
variable [CDouble F]

/-- `bi_llList2CSV` -/
def llList2CSV (a : List (SValue F)) : SValue F :=
  match a with
  | .list l :: _ => .string ((lit ", ").intercalate (l.map svToString))
  | _ => .string []

/-- `bi_llCSV2List` -/
def llCSV2List (a : List (SValue F)) : SValue F := .list (csvLoop (argStr a 0))

end

/-- A string that a line of fields can hold: without a comma, and not beginning with a space. -/
structure IsField (s : Bytes) : Prop where
  noComma : (44 : UInt8) ∉ s
  noSpace : s.head? ≠ some 32

/-- The list of strings comes back from its CSV text. -/
def CsvRoundTrip (F : Type) [CDouble F] (l : List Bytes) : Prop :=
  llCSV2List [llList2CSV ([.list (l.map .string)] : List (SValue F))] = .list (l.map .string)

theorem span_comma {s : Bytes} (hs : (44 : UInt8) ∉ s) (r : Bytes) :
    (s ++ 44 :: r).takeWhile (· ≠ 44) = s ∧ (s ++ 44 :: r).dropWhile (· ≠ 44) = 44 :: r := by
  have hne : ∀ c ∈ s, decide (c ≠ 44) = true := by
    intro c hc
    apply decide_eq_true
    rintro rfl
    exact hs hc
  constructor
  · rw [List.takeWhile_append_of_pos hne, List.takeWhile_cons_of_neg (by simp), List.append_nil]
  · rw [List.dropWhile_append_of_pos hne, List.dropWhile_cons_of_neg (by simp)]

/-- A field before a comma loses the spaces in front of it. -/
theorem csvLoop_comma {s : Bytes} (hs : (44 : UInt8) ∉ s) (r : Bytes) :
    csvLoop (F := F) (s ++ 44 :: r) = .string (s.dropWhile (· = 32)) :: csvLoop r := by
  obtain ⟨htake, hdrop⟩ := span_comma hs r
  rw [csvLoop]
  split
  · rename_i h
    rw [hdrop] at h
    cases h
  · rename_i c r' h
    rw [hdrop] at h
    obtain ⟨-, rfl⟩ := List.cons.inj h
    rw [htake]

/-- The last field stays as it is. -/
theorem csvLoop_last {s : Bytes} (hs : (44 : UInt8) ∉ s) : csvLoop (F := F) s = [.string s] := by
  have hdrop : s.dropWhile (· ≠ 44) = [] := by
    apply List.dropWhile_eq_nil_iff.mpr
    intro c hc
    apply decide_eq_true
    rintro rfl
    exact hs hc
  rw [csvLoop]
  split
  · rfl
  · rename_i c r h
    rw [hdrop] at h
    cases h

theorem IsField.trim {s : Bytes} (h : IsField s) : s.dropWhile (· = 32) = s := by
  cases s with
  | nil => rfl
  | cons c t =>
    have hc : c ≠ 32 := fun hc => h.noSpace (congrArg some hc)
    exact List.dropWhile_cons_of_neg (by simpa using hc)

theorem IsField.spaced {s : Bytes} (h : IsField s) :
    (44 : UInt8) ∉ 32 :: s ∧ (32 :: s).dropWhile (· = 32) = s := by
  constructor
  · intro hm
    rcases List.mem_cons.mp hm with he | hm
    · exact absurd he (by decide)
    · exact h.noComma hm
  · rw [List.dropWhile_cons_of_pos (by simp), h.trim]

/-- After the first comma every field has a space in front of it, and the last one keeps it. -/
theorem csvLoop_spaced (l : List Bytes) (hne : l ≠ []) (hl : ∀ s ∈ l, IsField s) :
    csvLoop (F := F) (32 :: (lit ", ").intercalate l) =
      (l.dropLast ++ [32 :: l.getLast hne]).map .string := by
  induction l with
  | nil => exact absurd rfl hne
  | cons s l ih =>
    obtain ⟨hcomma, htrim⟩ := (hl s List.mem_cons_self).spaced
    cases l with
    | nil =>
      rw [List.intercalate_singleton, csvLoop_last hcomma]
      rfl
    | cons t l =>
      have hsplit : 32 :: (lit ", ").intercalate (s :: t :: l) =
          (32 :: s) ++ 44 :: 32 :: (lit ", ").intercalate (t :: l) := by
        rw [List.intercalate_cons_cons, List.append_assoc]
        rfl
      rw [hsplit, csvLoop_comma hcomma, htrim,
        ih (List.cons_ne_nil t l) fun u hu => hl u (List.mem_cons_of_mem s hu),
        List.getLast_cons (List.cons_ne_nil t l)]
      rfl

/-- What comes back of two fields or more. -/
theorem csvLoop_fields (s t : Bytes) (l : List Bytes) (hl : ∀ u ∈ s :: t :: l, IsField u) :
    csvLoop (F := F) ((lit ", ").intercalate (s :: t :: l)) =
      (s :: ((t :: l).dropLast ++ [32 :: (t :: l).getLast (List.cons_ne_nil t l)])).map .string := by
  have hs := hl s List.mem_cons_self
  have hsplit : (lit ", ").intercalate (s :: t :: l) =
      s ++ 44 :: 32 :: (lit ", ").intercalate (t :: l) := by
    rw [List.intercalate_cons_cons, List.append_assoc]
    rfl
  rw [hsplit, csvLoop_comma hs.noComma, hs.trim,
    csvLoop_spaced (t :: l) (List.cons_ne_nil t l) fun u hu => hl u (List.mem_cons_of_mem s hu)]
  rfl

theorem string_injective : Function.Injective (SValue.string : Bytes → SValue F) := by
  intro s t h
  exact SValue.string.inj h

section
variable [CDouble F]

theorem csv_text (l : List Bytes) : llList2CSV ([.list (l.map .string)] : List (SValue F)) =
    .string ((lit ", ").intercalate l) := by
  have hself : (l.map SValue.string).map (svToString (F := F)) = l := by
    rw [List.map_map]
    apply List.map_id''
    intro s
    rw [Function.comp_apply, svToString]
  change SValue.string _ = _
  rw [hself]

theorem csvRoundTrip_iff (l : List Bytes) :
    CsvRoundTrip F l ↔ csvLoop (F := F) ((lit ", ").intercalate l) = l.map .string := by
  unfold CsvRoundTrip
  rw [csv_text]
  exact ⟨SValue.list.inj, congrArg SValue.list⟩

theorem not_csvRoundTrip (s t : Bytes) (l : List Bytes) (hl : ∀ u ∈ s :: t :: l, IsField u) :
    ¬ CsvRoundTrip F (s :: t :: l) := by
  rw [csvRoundTrip_iff, csvLoop_fields s t l hl]
  intro h
  have hlist := List.map_injective_iff.mpr string_injective h
  have hlast := congrArg (fun l : List Bytes => l.getLast?) hlist
  have hne := List.cons_ne_nil t l
  rw [← List.cons_append, List.getLast?_append_of_ne_nil _ (List.cons_ne_nil _ _),
    List.getLast?_cons_of_ne_nil hne, List.getLast?_eq_some_getLast hne] at hlast
  have hlen := congrArg List.length (Option.some.inj hlast)
  rw [List.getLast_singleton, List.length_cons] at hlen
  omega

/-- A list of fields comes back if and only if it has one field: the last of more keeps the space
in front of it. -/
theorem csv_round_trip_iff (l : List Bytes) (hne : l ≠ []) (hl : ∀ s ∈ l, IsField s) :
    CsvRoundTrip F l ↔ l.length = 1 := by
  cases l with
  | nil => exact absurd rfl hne
  | cons s l =>
    cases l with
    | nil =>
      refine iff_of_true ?_ rfl
      rw [csvRoundTrip_iff, List.intercalate_singleton]
      exact csvLoop_last (hl s List.mem_cons_self).noComma
    | cons t l =>
      refine iff_of_false (not_csvRoundTrip s t l hl) ?_
      simp
end

theorem isField_ab : ∀ s ∈ [lit "a", lit "b"], IsField s := by
  intro s hs
  rcases List.mem_pair.mp hs with rfl | rfl
  · exact ⟨by decide, by decide⟩
  · exact ⟨by decide, by decide⟩

theorem csv_round_trip_one : CsvRoundTrip ℚ [lit "a"] :=
  (csv_round_trip_iff [lit "a"] (by decide)
    fun s hs => isField_ab s (List.mem_cons.mpr (.inl (List.mem_singleton.mp hs)))).mpr rfl

/-- `"a, b"` comes back as `a` and ` b`. -/
theorem csv_keeps_last_space : ∃ l : List Bytes, l ≠ [] ∧ (∀ s ∈ l, IsField s) ∧
    ¬ CsvRoundTrip ℚ l :=
  ⟨[lit "a", lit "b"], by decide, isField_ab, not_csvRoundTrip _ _ _ isField_ab⟩

end Slemu
