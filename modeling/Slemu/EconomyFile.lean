import Slemu.Money
import Slemu.Decimal

/-! Which lines `volume_save_economy` writes, as `volume_load_economy` reads them, and when an
economy comes back from its file. -/

namespace Slemu

/-! ### Lines of a text -/

theorem fgets_append (n : ℕ) (s : Bytes) : (fgets n s).1 ++ (fgets n s).2 = s := by
  induction s generalizing n with
  | nil => cases n <;> rfl
  | cons c s ih =>
    cases n with
    | zero => rfl
    | succ n =>
      rw [fgets]
      split
      · rfl
      · exact congrArg (c :: ·) (ih n)

theorem fgets_length (n : ℕ) (s : Bytes) (hs : s ≠ []) :
    (fgets (n+1) s).2.length < s.length := by
  have ha := congrArg List.length (fgets_append (n+1) s)
  rw [List.length_append] at ha
  have hp : 0 < (fgets (n+1) s).1.length := by
    cases s with
    | nil => exact absurd rfl hs
    | cons c s =>
      rw [fgets]
      split <;> exact Nat.zero_lt_succ _
  omega

/-- A piece holds a newline at its end only. -/
theorem fgets_newline (n : ℕ) (s x y : Bytes) (h : (fgets n s).1 = x ++ y) (hy : y ≠ []) :
    10 ∉ x := by
  induction s generalizing n x with
  | nil =>
    have hn : (fgets n []).1 = [] := by cases n <;> rfl
    rw [hn] at h
    exact absurd (List.append_eq_nil_iff.mp h.symm).2 hy
  | cons c s ih =>
    cases n with
    | zero => exact absurd (List.append_eq_nil_iff.mp h.symm).2 hy
    | succ n =>
      cases x with
      | nil => exact List.not_mem_nil
      | cons d x =>
        rw [fgets] at h
        split at h
        · obtain ⟨-, hxy⟩ := List.cons.inj h
          exact absurd (List.append_eq_nil_iff.mp hxy.symm).2 hy
        · rename_i hc
          obtain ⟨rfl, hxy⟩ := List.cons.inj h
          exact fun hm => (List.mem_cons.mp hm).elim (fun h => hc h.symm) (ih n x hxy)

/-- Text without a newline that fits the buffer is read with what follows it. -/
theorem fgets_prefix (n : ℕ) (x y : Bytes) (hx : 10 ∉ x) (hn : x.length ≤ n) :
    fgets n (x ++ y) = (x ++ (fgets (n-x.length) y).1, (fgets (n-x.length) y).2) := by
  induction x generalizing n with
  | nil => rfl
  | cons c x ih =>
    obtain ⟨m, rfl⟩ := Nat.exists_eq_add_of_lt (Nat.lt_of_lt_of_le (Nat.zero_lt_succ _) hn)
    obtain ⟨hc, hx⟩ := not_or.mp (fun h => hx (List.mem_cons.mpr h))
    rw [List.length_cons] at hn ⊢
    rw [Nat.zero_add, List.cons_append, fgets, if_neg (fun h => hc h.symm),
      ih m hx (by omega), Nat.add_sub_add_right]
    rfl

/-- Text without a newline that does not fit the buffer is cut. -/
theorem fgets_long (n : ℕ) (x y : Bytes) (hx : 10 ∉ x) (hn : n ≤ x.length) :
    fgets n (x ++ y) = (x.take n, x.drop n ++ y) := by
  induction x generalizing n with
  | nil =>
    obtain rfl : n = 0 := Nat.le_zero.mp hn
    cases y <;> rfl
  | cons c x ih =>
    cases n with
    | zero => rfl
    | succ n =>
      obtain ⟨hc, hx⟩ := not_or.mp (fun h => hx (List.mem_cons.mpr h))
      rw [List.cons_append, fgets, if_neg (fun h => hc h.symm),
        ih n hx (Nat.le_of_succ_le_succ hn)]
      rfl

/-- A text that is empty or ends with a newline. -/
def Ended (s : Bytes) : Prop := s = [] ∨ ∃ x, s = x ++ [10]

theorem Ended.of_append {x s : Bytes} (h : Ended (x ++ s)) : Ended s := by
  rcases h with h | ⟨y, h⟩
  · exact .inl (List.append_eq_nil_iff.mp h).2
  · rcases List.eq_nil_or_concat' s with rfl | ⟨t, c, rfl⟩
    · exact .inl rfl
    · rw [← List.append_assoc] at h
      obtain ⟨-, hc⟩ := List.append_inj' h rfl
      exact .inr ⟨t, by rw [hc]⟩

/-- A line does not go beyond the end of a text. -/
theorem fgets_ended (n : ℕ) (s t : Bytes) (hs : s ≠ []) (he : Ended s) :
    fgets n (s ++ t) = ((fgets n s).1, (fgets n s).2 ++ t) := by
  induction s generalizing n with
  | nil => exact absurd rfl hs
  | cons c s ih =>
    cases n with
    | zero => rfl
    | succ n =>
      rw [List.cons_append, fgets, fgets]
      split
      · rfl
      · rename_i hc
        have hne : s ≠ [] := by
          rintro rfl
          obtain ⟨x, hx⟩ := he.resolve_left (List.cons_ne_nil c [])
          have hx : [] ++ [c] = x ++ [10] := hx
          exact hc (List.cons.inj (List.append_inj' hx rfl).2).1
        rw [ih n hne (Ended.of_append (x := [c]) he)]

theorem fgetsLines_fuel (n k l : ℕ) (s : Bytes) (hk : s.length ≤ k) (hl : s.length ≤ l) :
    fgetsLines (n+1) k s = fgetsLines (n+1) l s := by
  induction k generalizing l s with
  | zero =>
    obtain rfl := List.length_eq_zero_iff.mp (Nat.le_zero.mp hk)
    cases l <;> rfl
  | succ k ih =>
    cases s with
    | nil => cases l <;> rfl
    | cons c s =>
      have hs := fgets_length n (c :: s) (List.cons_ne_nil c s)
      cases l with
      | zero => exact absurd hl (Nat.not_succ_le_zero _)
      | succ l =>
        rw [List.length_cons] at hk hl hs
        rw [fgetsLines, fgetsLines, ih l _ (by omega) (by omega)] <;> exact nofun

/-- The lines of the file, at most 511 bytes each. -/
def textLines (s : Bytes) : List Bytes := fgetsLines 511 s.length s

theorem textLines_of_ne_nil (s : Bytes) (hs : s ≠ []) :
    textLines s = (fgets 511 s).1 :: textLines (fgets 511 s).2 := by
  have hl : (fgets 511 s).2.length < s.length := fgets_length 510 s hs
  cases s with
  | nil => exact absurd rfl hs
  | cons c s =>
    rw [textLines, List.length_cons, fgetsLines, textLines]
    · rw [List.length_cons] at hl
      rw [fgetsLines_fuel 510 s.length _ _ (by omega) le_rfl]
    · exact nofun

theorem textLines_flatten (s : Bytes) : (textLines s).flatten = s := by
  by_cases hs : s = []
  · rw [hs]
    rfl
  · have hl := fgets_length 510 s hs
    rw [textLines_of_ne_nil s hs, List.flatten_cons, textLines_flatten (fgets 511 s).2,
      fgets_append]
termination_by s.length

theorem textLines_append (s t : Bytes) (he : Ended s) :
    textLines (s ++ t) = textLines s ++ textLines t := by
  by_cases hs : s = []
  · rw [hs]
    rfl
  · have hl := fgets_length 510 s hs
    have hr : Ended (fgets 511 s).2 := Ended.of_append ((fgets_append 511 s).symm ▸ he)
    rw [textLines_of_ne_nil s hs, textLines_of_ne_nil (s ++ t) (by simp [hs]),
      fgets_ended 511 s t hs he, textLines_append (fgets 511 s).2 t hr, List.cons_append]
termination_by s.length

theorem textLines_flatMap {α : Type} (f : α → Bytes) (hf : ∀ a, Ended (f a)) (as : List α) :
    textLines (as.flatMap f) = as.flatMap fun a => textLines (f a) := by
  induction as with
  | nil => rfl
  | cons a as ih =>
    rw [List.flatMap_cons, textLines_append _ _ (hf a), ih, List.flatMap_cons]

/-! ### Records -/

/-- A line from which the loader sets the balance of `u` to `b`. -/
def Says (line u : Bytes) (b : ℤ) : Prop :=
  ∃ rest, cstr line = u ++ 9 :: rest ∧ 9 ∉ u ∧ b = strtoll 10 (rest.takeWhile (· ≠ 9))

theorem takeWhile_tab (u rest : Bytes) (hu : 9 ∉ u) :
    (u ++ 9 :: rest).takeWhile (· ≠ 9) = u ∧ (u ++ 9 :: rest).dropWhile (· ≠ 9) = 9 :: rest := by
  have h : ∀ c ∈ u, decide (c ≠ 9) = true := fun c hc =>
    decide_eq_true fun hc' => hu (hc' ▸ hc)
  rw [List.takeWhile_append_of_pos h, List.dropWhile_append_of_pos h]
  exact ⟨List.append_nil u, rfl⟩

theorem says_iff (line u : Bytes) (b : ℤ) :
    Says line u b ↔ ∃ name, economyLine line = some (u, b, name) := by
  unfold economyLine
  constructor
  · rintro ⟨rest, hl, hu, rfl⟩
    obtain ⟨ht, hd⟩ := takeWhile_tab u rest hu
    simp only [hl, ht, hd]
    cases hr : rest.dropWhile (· ≠ 9) with
    | nil =>
      have hall := List.dropWhile_eq_nil_iff.mp hr
      rw [List.takeWhile_eq_self_iff.mpr hall]
      exact ⟨_, rfl⟩
    | cons c name => exact ⟨_, rfl⟩
  · rintro ⟨name, h⟩
    have hsplit := List.takeWhile_append_dropWhile (p := fun c : UInt8 => decide (c ≠ 9))
      (l := cstr line)
    have hno : (9 : UInt8) ∉ (cstr line).takeWhile (· ≠ 9) := fun hm => by
      simpa using List.mem_takeWhile_imp hm
    simp only at h
    cases hd : (cstr line).dropWhile (· ≠ 9) with
    | nil => rw [hd] at h; cases h
    | cons c rest =>
      have hc : c = 9 := by
        have hh := List.head?_dropWhile_not (fun c : UInt8 => decide (c ≠ 9)) (cstr line)
        rw [hd] at hh
        simpa using hh
      subst hc
      rw [hd] at h hsplit
      simp only at h
      cases hr : rest.dropWhile (· ≠ 9) with
      | nil =>
        have hall := List.dropWhile_eq_nil_iff.mp hr
        rw [hr] at h
        cases h
        exact ⟨rest, hsplit.symm, hno, by rw [List.takeWhile_eq_self_iff.mpr hall]⟩
      | cons d name' =>
        rw [hr] at h
        cases h
        exact ⟨rest, hsplit.symm, hno, rfl⟩

/-! ### Loading -/

/-- `region_find_avatar` on the table. -/
def findAvatar (u : Bytes) (as : List Avatar) : Option Avatar := as.find? fun a => a.uuid = u

theorem findAvatar_addAvatar (u v : Bytes) (b : ℤ) (nm : Option Bytes) (as : List Avatar) :
    findAvatar v (addAvatar u b nm as).1 = if v = u then
      some (((findAvatar u as).elim ⟨u, nm.getD [], b, none⟩ fun a =>
        { a with balance := b, name := nm.getD a.name }))
    else findAvatar v as := by
  induction as with
  | nil =>
    simp only [addAvatar, findAvatar, List.find?_cons, List.find?_nil, Option.elim_none]
    split <;> split <;> simp_all
  | cons a as ih =>
    simp only [findAvatar] at ih
    simp only [addAvatar]
    by_cases ha : a.uuid = u
    · rw [if_pos ha]
      subst ha
      by_cases hv : v = a.uuid
      · subst hv
        simp [findAvatar]
      · rw [if_neg hv, findAvatar, findAvatar, List.find?_cons_of_neg, List.find?_cons_of_neg]
        all_goals simpa using fun h => hv h.symm
    · rw [if_neg ha]
      simp only [findAvatar]
      rw [List.find?_cons_of_neg (a := a) (l := as) (p := fun a => decide (a.uuid = u)) (by simpa)]
      by_cases hv : a.uuid = v
      · rw [List.find?_cons_of_pos (by simpa), List.find?_cons_of_pos (by simpa),
          if_neg (fun h => ha (hv.trans h))]
      · rw [List.find?_cons_of_neg (by simpa), List.find?_cons_of_neg (by simpa), ih]

/-- A line that says nothing of `u` leaves its entry alone. -/
theorem findAvatar_silent {line u : Bytes} (h : ∀ b, ¬ Says line u b) (as : List Avatar) :
    findAvatar u (loadEconomyLine as line) = findAvatar u as := by
  unfold loadEconomyLine
  cases he : economyLine line with
  | none => rfl
  | some r =>
    obtain ⟨v, b, name⟩ := r
    have hu : u ≠ v := by
      rintro rfl
      exact h b ((says_iff line u b).mpr ⟨name, he⟩)
    simp only
    split <;> rw [findAvatar_addAvatar, if_neg hu]

theorem findAvatar_said {line u : Bytes} {b : ℤ} (h : Says line u b) (as : List Avatar) :
    (findAvatar u (loadEconomyLine as line)).map Avatar.balance = some b := by
  obtain ⟨name, he⟩ := (says_iff line u b).mp h
  simp only [loadEconomyLine, he]
  split <;>
  · rw [findAvatar_addAvatar, if_pos rfl]
    cases findAvatar u as <;> rfl

theorem findAvatar_silent_lines {u : Bytes} (lines : List Bytes)
    (h : ∀ line ∈ lines, ∀ b, ¬ Says line u b) (as : List Avatar) :
    findAvatar u (lines.foldl loadEconomyLine as) = findAvatar u as := by
  induction lines generalizing as with
  | nil => rfl
  | cons line lines ih =>
    rw [List.foldl_cons, ih (fun l hl => h l (List.mem_cons_of_mem _ hl)),
      findAvatar_silent (h line List.mem_cons_self)]

/-- The last of the lines about `u` says `b`. -/
def LastSays (lines : List Bytes) (u : Bytes) (b : ℤ) : Prop :=
  ∃ before line after, lines = before ++ line :: after ∧ Says line u b ∧
    ∀ l ∈ after, ∀ c, ¬ Says l u c

theorem findAvatar_lastSays {lines : List Bytes} {u : Bytes} {b : ℤ} (h : LastSays lines u b)
    (as : List Avatar) :
    (findAvatar u (lines.foldl loadEconomyLine as)).map Avatar.balance = some b := by
  obtain ⟨before, line, after, rfl, hs, ha⟩ := h
  rw [List.foldl_append, List.foldl_cons, findAvatar_silent_lines after ha, findAvatar_said hs]

theorem lastSays_or_silent (lines : List Bytes) (u : Bytes) :
    (∃ b, LastSays lines u b) ∨ ∀ line ∈ lines, ∀ b, ¬ Says line u b := by
  induction lines with
  | nil => exact .inr nofun
  | cons line lines ih =>
    rcases ih with ⟨b, before, l, after, rfl, h⟩ | hno
    · exact .inl ⟨b, line :: before, l, after, rfl, h⟩
    · by_cases hl : ∃ b, Says line u b
      · obtain ⟨b, hb⟩ := hl
        exact .inl ⟨b, [], line, lines, rfl, hb, hno⟩
      · refine .inr fun l hm b hs => ?_
        rcases List.mem_cons.mp hm with rfl | hm
        · exact hl ⟨b, hs⟩
        · exact hno l hm b hs

/-! ### Saving and loading -/

/-- The line that `volume_save_economy` writes for an avatar. -/
def Avatar.record (a : Avatar) : Bytes :=
  a.uuid ++ [9] ++ decBytes a.balance ++ [9] ++ a.name ++ [10]

/-- The lines that the loader reads for it. -/
def Avatar.lines (a : Avatar) : List Bytes := textLines a.record

theorem Avatar.ended_record (a : Avatar) : Ended a.record := .inr ⟨_, rfl⟩

theorem Avatar.record_ne_nil (a : Avatar) : a.record ≠ [] := by
  rw [Avatar.record]
  exact List.append_ne_nil_of_right_ne_nil _ (List.cons_ne_nil _ _)

theorem textLines_economyText (as : List Avatar) :
    textLines (economyText as) = as.flatMap Avatar.lines :=
  textLines_flatMap Avatar.record Avatar.ended_record as

/-- What a region with the avatars `bs` should hold after it has loaded the economy of `as`. -/
structure Restored (as bs cs : List Avatar) : Prop where
  saved : ∀ a ∈ as, (findAvatar a.uuid cs).map Avatar.balance = some a.balance
  others : ∀ u ∉ uuids as, findAvatar u cs = findAvatar u bs

/-- Every line speaks of a saved avatar, and the last one about an avatar says its balance. -/
structure Unambiguous (as : List Avatar) : Prop where
  saved : ∀ a ∈ as, ∀ line ∈ a.lines, ∀ u b, Says line u b → u ∈ uuids as
  last : ∀ a ∈ as, LastSays (as.flatMap Avatar.lines) a.uuid a.balance

theorem restored_iff_unambiguous (as : List Avatar) :
    (∀ bs, Restored as bs (loadEconomy (economyText as) bs)) ↔ Unambiguous as := by
  have hload (bs : List Avatar) : loadEconomy (economyText as) bs =
      (as.flatMap Avatar.lines).foldl loadEconomyLine bs := by
    rw [← textLines_economyText]
    rfl
  simp only [hload]
  constructor
  · intro h
    have hn := h []
    refine ⟨fun a ha line hl u b hs => ?_, fun a ha => ?_⟩
    · by_contra hu
      rcases lastSays_or_silent (as.flatMap Avatar.lines) u with ⟨c, hc⟩ | hno
      · have hb := findAvatar_lastSays hc []
        rw [hn.others u hu] at hb
        cases hb
      · exact hno line (List.mem_flatMap.mpr ⟨a, ha, hl⟩) b hs
    · have hb := hn.saved a ha
      rcases lastSays_or_silent (as.flatMap Avatar.lines) a.uuid with ⟨c, hc⟩ | hno
      · rw [findAvatar_lastSays hc] at hb
        exact Option.some.inj hb ▸ hc
      · rw [findAvatar_silent_lines _ hno] at hb
        cases hb
  · intro h bs
    refine ⟨fun a ha => findAvatar_lastSays (h.last a ha) bs, fun u hu => ?_⟩
    refine findAvatar_silent_lines _ (fun line hl b hs => ?_) bs
    obtain ⟨a, ha, hl⟩ := List.mem_flatMap.mp hl
    exact hu (h.saved a ha line hl u b hs)

/-! ### Records that fit -/

/-- Nothing in the UUID ends it early, and what the first `fgets` leaves of the record holds no
tab. -/
structure Avatar.Fits (a : Avatar) : Prop where
  tab : 9 ∉ a.uuid
  newline : 10 ∉ a.uuid
  spill : 9 ∉ (fgets 511 a.record).2

/-- What holds of every entry of the C table: strings without NUL, and a `long long`. -/
structure Avatar.InC (a : Avatar) : Prop where
  uuid : 0 ∉ a.uuid
  name : 0 ∉ a.name
  min : llongMin ≤ a.balance
  max : a.balance ≤ llongMax

/-- A later line of the record speaks of a saved avatar. -/
def Avatar.Echoes (as : List Avatar) (a : Avatar) : Prop :=
  ∃ line ∈ a.lines.tail, ∃ u ∈ uuids as, ∃ b, Says line u b

theorem strtoll_decBytes (i : ℤ) (h1 : llongMin ≤ i) (h2 : i ≤ llongMax) :
    strtoll 10 (decBytes i) = i := by
  have hread (n : ℕ) : ((digits n).takeWhile fun c => digitVal c < 10).foldl
      (fun n c => n*10+digitVal c) 0 = n := by
    rw [List.takeWhile_eq_self_iff.mpr (fun c hc => decide_eq_true
      (isDigit_facts c (isDigit_digits n c hc)).2.2.2), foldl_digits]
  have hrange (j : ℤ) (hj : j = i) : max llongMin (min llongMax j) = i := by
    rw [hj, min_eq_right h2, max_eq_right h1]
  have hdec : decBytes i = if i < 0 then 45 :: digits i.natAbs else digits i.natAbs := rfl
  rw [hdec]
  split
  · have hs : scanSign ((45 :: digits i.natAbs).dropWhile isSpace) = (true, digits i.natAbs) := rfl
    rw [strtoll, hs]
    simp only [scanBase]
    rw [hread, if_pos trivial]
    exact hrange _ (by omega)
  · have hs : scanSign ((digits i.natAbs).dropWhile isSpace) = (false, digits i.natAbs) := by
      cases hd : digits i.natAbs with
      | nil => rfl
      | cons c cs =>
        have hc := isDigit_facts c (isDigit_digits i.natAbs c (hd ▸ List.mem_cons_self))
        rw [List.dropWhile_cons_of_neg (by simp [hc.1])]
        unfold scanSign
        split
        · rename_i h
          exact absurd (List.cons.inj h).1 hc.2.1
        · rename_i h
          exact absurd (List.cons.inj h).1 hc.2.2.1
        · rfl
    rw [strtoll, hs]
    simp only [scanBase]
    rw [hread, if_neg (by decide)]
    exact hrange _ (by omega)

theorem decBytes_clean (i : ℤ) (c : UInt8) (h : c ∈ decBytes i) : c ≠ 0 ∧ c ≠ 9 ∧ c ≠ 10 := by
  have hd (h : c ∈ digits i.natAbs) : c ≠ 0 ∧ c ≠ 9 ∧ c ≠ 10 := by
    have hc := isDigit_digits _ c h
    refine ⟨?_, ?_, ?_⟩ <;>
    · rintro rfl
      cases hc
  have hdec : decBytes i = if i < 0 then 45 :: digits i.natAbs else digits i.natAbs := rfl
  rw [hdec] at h
  split at h
  · rcases List.mem_cons.mp h with rfl | h
    · exact ⟨by decide, by decide, by decide⟩
    · exact hd h
  · exact hd h

/-- The part of the record in front of the name. -/
def Avatar.header (a : Avatar) : Bytes := a.uuid ++ [9] ++ decBytes a.balance ++ [9]

theorem Avatar.record_eq (a : Avatar) : a.record = a.header ++ (a.name ++ [10]) := by
  simp only [Avatar.record, Avatar.header, List.append_assoc]

theorem Avatar.lines_eq (a : Avatar) :
    a.lines = (fgets 511 a.record).1 :: textLines (fgets 511 a.record).2 :=
  textLines_of_ne_nil _ a.record_ne_nil

theorem Says.inj {line u v : Bytes} {b c : ℤ} (h : Says line u b) (h' : Says line v c) :
    u = v ∧ b = c := by
  obtain ⟨n, hn⟩ := (says_iff line u b).mp h
  obtain ⟨m, hm⟩ := (says_iff line v c).mp h'
  cases hn.symm.trans hm
  exact ⟨rfl, rfl⟩

theorem Says.tab_mem {line u : Bytes} {b : ℤ} (h : Says line u b) : 9 ∈ line := by
  obtain ⟨rest, hl, -⟩ := h
  have hm : 9 ∈ cstr line := by
    rw [hl]
    exact List.mem_append_right _ List.mem_cons_self
  exact List.takeWhile_subset _ hm

theorem says_of_tab_mem {line : Bytes} (h0 : 0 ∉ line) (h9 : 9 ∈ line) : ∃ u b, Says line u b := by
  obtain ⟨u, rest, hl, hu⟩ := List.eq_append_cons_of_mem h9
  exact ⟨u, _, rest, by rw [cstr_of_nul_free line h0, hl], hu, rfl⟩

theorem mem_of_mem_textLines {s line : Bytes} {c : UInt8} (hl : line ∈ textLines s)
    (hc : c ∈ line) : c ∈ s := by
  rw [← textLines_flatten s]
  exact List.mem_flatten.mpr ⟨line, hl, hc⟩

namespace Avatar.InC
variable {a : Avatar}

theorem nul_header (h : a.InC) : 0 ∉ a.header := by
  simp only [Avatar.header, List.mem_append, List.mem_singleton, not_or]
  exact ⟨⟨⟨h.uuid, by decide⟩, fun hm => (decBytes_clean _ _ hm).1 rfl⟩, by decide⟩

theorem nul_record (h : a.InC) : 0 ∉ a.record := by
  rw [Avatar.record_eq]
  simp only [List.mem_append, List.mem_singleton, not_or]
  exact ⟨h.nul_header, h.name, by decide⟩

end Avatar.InC

namespace Avatar.Fits
variable {a : Avatar}

theorem newline_header (h : a.Fits) : 10 ∉ a.header := by
  simp only [Avatar.header, List.mem_append, List.mem_singleton, not_or]
  exact ⟨⟨⟨h.newline, by decide⟩, fun hm => (decBytes_clean _ _ hm).2.2 rfl⟩, by decide⟩

theorem header_le (h : a.Fits) : a.header.length ≤ 511 := by
  by_contra hlen
  have hx : 511 ≤ (a.uuid ++ [9] ++ decBytes a.balance).length := by
    rw [Avatar.header, List.length_append] at hlen
    exact Nat.le_of_lt_succ (not_le.mp hlen)
  refine h.spill ?_
  rw [Avatar.record_eq, fgets_long 511 _ _ h.newline_header (not_le.mp hlen).le, Avatar.header,
    List.drop_append_of_le_length hx]
  exact List.mem_append_left _ (List.mem_append_right _ List.mem_cons_self)

/-- The first line of the record says what is saved. -/
theorem first (h : a.Fits) (hc : a.InC) :
    Says (fgets 511 a.record).1 a.uuid a.balance := by
  rw [Avatar.record_eq, fgets_prefix 511 _ _ h.newline_header h.header_le]
  generalize (fgets (511-a.header.length) (a.name ++ [10])).1 = y
  have hcstr : cstr (a.header ++ y) = a.header ++ cstr y := List.takeWhile_append_of_pos
    fun c hm => decide_eq_true fun h0 => hc.nul_header (h0 ▸ hm)
  refine ⟨decBytes a.balance ++ 9 :: cstr y, ?_, h.tab, ?_⟩
  · rw [hcstr]
    simp only [Avatar.header, List.append_assoc, List.cons_append, List.nil_append]
  · rw [(takeWhile_tab _ _ fun hm => (decBytes_clean _ _ hm).2.1 rfl).1,
      strtoll_decBytes _ hc.min hc.max]

/-- The lines of the record speak of nobody else. -/
theorem says_own (h : a.Fits) (hc : a.InC) {line u : Bytes} {b : ℤ} (hl : line ∈ a.lines)
    (hs : Says line u b) : u = a.uuid := by
  rw [a.lines_eq] at hl
  rcases List.mem_cons.mp hl with rfl | hl
  · exact (hs.inj (h.first hc)).1
  · exact absurd (mem_of_mem_textLines hl hs.tab_mem) h.spill

end Avatar.Fits

/-- A table whose records all fit comes back. -/
theorem unambiguous_of_fits {as : List Avatar} (hn : (uuids as).Nodup)
    (hc : ∀ a ∈ as, a.InC) (hf : ∀ a ∈ as, a.Fits) : Unambiguous as := by
  refine ⟨fun a ha line hl u b hs => ?_, fun a ha => ?_⟩
  · rw [(hf a ha).says_own (hc a ha) hl hs]
    exact List.mem_map_of_mem ha
  · obtain ⟨pre, post, rfl⟩ := List.append_of_mem ha
    refine ⟨pre.flatMap Avatar.lines, _, textLines (fgets 511 a.record).2 ++
      post.flatMap Avatar.lines, ?_, (hf a ha).first (hc a ha), fun l hl b hs => ?_⟩
    · rw [List.flatMap_append, List.flatMap_cons, a.lines_eq, List.cons_append]
    · rcases List.mem_append.mp hl with hl | hl
      · exact (hf a ha).spill (mem_of_mem_textLines hl hs.tab_mem)
      · obtain ⟨a', ha', hl⟩ := List.mem_flatMap.mp hl
        have hm : a' ∈ pre ++ a :: post := List.mem_append_right _ (List.mem_cons_of_mem _ ha')
        have hu := (hf a' hm).says_own (hc a' hm) hl hs
        rw [uuids, List.map_append, List.map_cons] at hn
        refine (List.nodup_cons.mp (List.nodup_append.mp hn).2.1).1 ?_
        rw [hu]
        exact List.mem_map_of_mem ha'

theorem mem_textLines {s line : Bytes} (hl : line ∈ textLines s) :
    ∃ t, line = (fgets 511 t).1 := by
  by_cases hs : s = []
  · rw [hs] at hl
    cases hl
  · have hlen := fgets_length 510 s hs
    rw [textLines_of_ne_nil s hs] at hl
    rcases List.mem_cons.mp hl with h | hl
    · exact ⟨s, h⟩
    · exact mem_textLines hl
termination_by s.length

/-- Otherwise a record that does not fit speaks of a saved avatar where it should not. -/
theorem fits_or_echoes {as : List Avatar} (h : Unambiguous as) {a : Avatar} (ha : a ∈ as)
    (hc : a.InC) : a.Fits ∨ a.Echoes as := by
  obtain ⟨before, line, after, hl, ⟨rest, hline, htab, -⟩, -⟩ := h.last a ha
  have hnl : 10 ∉ a.uuid := by
    have hm : line ∈ as.flatMap Avatar.lines := by
      rw [hl]
      exact List.mem_append_right _ List.mem_cons_self
    obtain ⟨a', -, hm⟩ := List.mem_flatMap.mp hm
    obtain ⟨t, rfl⟩ := mem_textLines hm
    have hsplit := List.takeWhile_append_dropWhile (p := fun c : UInt8 => decide (c ≠ 0))
      (l := (fgets 511 t).1)
    rw [← cstr, hline, List.append_assoc] at hsplit
    exact fgets_newline 511 t _ _ hsplit.symm (List.cons_ne_nil _ _)
  by_cases hs : 9 ∈ (fgets 511 a.record).2
  · right
    rw [← textLines_flatten (fgets 511 a.record).2] at hs
    obtain ⟨l, hlm, h9⟩ := List.mem_flatten.mp hs
    have hmem : l ∈ a.lines := by
      rw [a.lines_eq]
      exact List.mem_cons_of_mem _ hlm
    obtain ⟨u, b, hsaid⟩ := says_of_tab_mem
      (fun h0 => hc.nul_record (mem_of_mem_textLines hmem h0)) h9
    refine ⟨l, ?_, u, h.saved a ha l hmem u b hsaid, b, hsaid⟩
    rw [a.lines_eq]
    exact hlm
  · exact .inl ⟨htab, hnl, hs⟩

/-! ### Restarts -/

/-- The economy of this region comes back, whatever region loads it. -/
def SurvivesRestart {F : Type} (w : World F) : Prop :=
  ∀ w' : World F, w'.volume = w.volumeSaveEconomy.volume →
    Restored w.avatars w'.avatars w'.volumeLoadEconomy.avatars

theorem volumeLoadEconomy_saved {F : Type} {w w' : World F} (hv : w.volume.isSome)
    (h : w'.volume = w.volumeSaveEconomy.volume) :
    w'.volumeLoadEconomy.avatars = loadEconomy (economyText w.avatars) w'.avatars := by
  obtain ⟨v, hv⟩ := Option.isSome_iff_exists.mp hv
  have he : w'.volume.bind Volume.economy = some (economyText w.avatars) := by
    rw [h, World.volumeSaveEconomy, hv]
    rfl
  rw [World.volumeLoadEconomy, he]

/-- The economy survives exactly if the lines of its file are unambiguous, which they are if every
record fits. A record that does not fit must speak of a saved avatar by chance. -/
theorem economy_survives_iff {F : Type} (w : World F) (hv : w.volume.isSome)
    (hn : (uuids w.avatars).Nodup) (hc : ∀ a ∈ w.avatars, a.InC) :
    (SurvivesRestart w ↔ Unambiguous w.avatars) ∧
      ((∀ a ∈ w.avatars, a.Fits) → Unambiguous w.avatars) ∧
      (Unambiguous w.avatars → ∀ a ∈ w.avatars, a.Fits ∨ a.Echoes w.avatars) := by
  refine ⟨?_, unambiguous_of_fits hn hc, fun h a ha => fits_or_echoes h ha (hc a ha)⟩
  rw [← restored_iff_unambiguous]
  constructor
  · intro h bs
    obtain ⟨w', hw', hb⟩ : ∃ w' : World F, w'.volume = w.volumeSaveEconomy.volume ∧
        w'.avatars = bs := ⟨{ w with avatars := bs, volume := w.volumeSaveEconomy.volume }, rfl, rfl⟩
    have hr := h w' hw'
    rwa [volumeLoadEconomy_saved hv hw', hb] at hr
  · intro h w' hw'
    rw [volumeLoadEconomy_saved hv hw']
    exact h w'.avatars

/-- The region of an owner with L$ 100, after a script has paid L$ 5 to somebody. -/
def paidRegion (dest : Bytes) : World ℚ :=
  (({ debitRegion with volume := some ⟨none, ∅⟩ }.regionAddAvatar (lit "owner") 100
    (some (lit "Test Owner"))).2.llGiveMoney 0 [.string dest, .int 5]).2

theorem economy_survives_friend : SurvivesRestart (paidRegion (lit "friend")) := by
  have ha : (paidRegion (lit "friend")).avatars =
      [⟨lit "owner", lit "Test Owner", 95, none⟩, ⟨lit "friend", [], 5, none⟩] := by
    decide +kernel
  have hall (P : Avatar → Prop) (h1 : P ⟨lit "owner", lit "Test Owner", 95, none⟩)
      (h2 : P ⟨lit "friend", [], 5, none⟩) : ∀ a ∈ (paidRegion (lit "friend")).avatars, P a := by
    rw [ha]
    exact List.forall_mem_cons.mpr ⟨h1, List.forall_mem_cons.mpr ⟨h2, nofun⟩⟩
  obtain ⟨hiff, hfits, -⟩ := economy_survives_iff (paidRegion (lit "friend")) rfl
    (by rw [ha]; decide) (hall _ ⟨by decide, by decide, by decide, by decide⟩
      ⟨by decide, by decide, by decide, by decide⟩)
  exact hiff.mpr (hfits (hall _ ⟨by decide, by decide, by decide +kernel⟩
    ⟨by decide, by decide, by decide +kernel⟩))

/-- A payee whose UUID holds a tab comes back under another one. -/
theorem tab_in_payee_lost : ¬ SurvivesRestart (paidRegion (lit "a\tb")) := by
  intro h
  have hr := h { paidRegion (lit "a\tb") with
    avatars := [], volume := (paidRegion (lit "a\tb")).volumeSaveEconomy.volume } rfl
  have ha : (⟨lit "a\tb", [], 5, none⟩ : Avatar) ∈ (paidRegion (lit "a\tb")).avatars := by
    decide +kernel
  exact absurd (hr.saved _ ha) (by decide +kernel)

end Slemu
