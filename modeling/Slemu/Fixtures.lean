import Slemu.Startup
import Slemu.EconomyFile
import Slemu.Quiescence

/-! The entries of a fixture file and of a config file, as they are written and as the loaders read
them, and which of them answers a request. -/

namespace Slemu
variable {F : Type} [CDouble F]

/-- A text that stands on one line of a file. -/
def OneLine (b : Bytes) : Prop := 10 ∉ b ∧ 0 ∉ b

instance (b : Bytes) : Decidable (OneLine b) := inferInstanceAs (Decidable (_ ∧ _))

abbrev LineText := { b : Bytes // OneLine b }

/-- An entry as its author writes it: the pattern, and what else the entry says. -/
structure Fixture where
  url : LineText
  status : Option Int32
  body : Option LineText

/-- The two files that hold entries. -/
inductive FixtureFormat
  | fixtureFile
  | config

/-- Lines one after the other, each with its newline. -/
def unlines (ls : List Bytes) : Bytes := ls.flatMap fun l => l ++ [10]

/-- The lines of an entry. -/
def Fixture.lines (e : Fixture) : FixtureFormat → List Bytes
  | .fixtureFile => [lit "URL_MATCH " ++ e.url.1] ++
      (e.status.map fun n => lit "STATUS " ++ decBytes n.toInt).toList ++
      (e.body.map fun b => lit "BODY " ++ b.1).toList ++ [[]]
  | .config => [lit "FIXTURE_URL " ++ e.url.1] ++
      (e.status.map fun n => lit "FIXTURE_STATUS " ++ decBytes n.toInt).toList ++
      (e.body.map fun b => lit "FIXTURE_BODY " ++ b.1).toList ++ [lit "FIXTURE_END"]

/-- The file with these entries. -/
def FixtureFormat.text (fmt : FixtureFormat) (es : List Fixture) : Bytes :=
  unlines (es.flatMap fun e => e.lines fmt)

/-- The region once the file with these entries is loaded. -/
def FixtureFormat.load (fmt : FixtureFormat) (es : List Fixture) (w : World F) : World F :=
  match fmt with
  | .fixtureFile => { w with httpFix := httpFixtureLoad (fmt.text es) }
  | .config => { w with httpFix := [] }.configLoad (fmt.text es)

/-- A line without a carriage return at its end. -/
def chomp (b : Bytes) : Bytes := if b.getLast? = some 13 then b.dropLast else b

/-- What the loaders leave of the text of a field: both drop the blanks in front, the one a single
carriage return at the end, the other all blanks there. -/
def FixtureFormat.read : FixtureFormat → Bytes → Bytes
  | .fixtureFile, b => restOfLine (chomp b)
  | .config, b => restOfLine (trimEnd b)

/-- The entry as it is loaded. -/
def Fixture.loaded (fmt : FixtureFormat) (e : Fixture) : HttpFixtureEntry :=
  ⟨some (fmt.read e.url.1), (e.status.map Int32.toInt).getD 200, e.body.map fun b => fmt.read b.1⟩

/-! ### Answers -/

/-- Status and body of an entry. -/
def Fixture.answer (e : Fixture) : ℤ × Bytes :=
  ((e.status.map Int32.toInt).getD 200, (e.body.map Subtype.val).getD [])

/-- The answer of the first entry whose pattern occurs in the URL. -/
def firstAnswer (es : List Fixture) (url : Bytes) : Option (ℤ × Bytes) :=
  (es.find? fun e => containsBytes url e.url.1).map Fixture.answer

/-- The answer of the last entry whose pattern, as it is read, occurs in the URL. -/
def lastAnswer (fmt : FixtureFormat) (es : List Fixture) (url : Bytes) : ℤ × Bytes :=
  match es.reverse.find? fun e => containsBytes url (fmt.read e.url.1) with
  | some e => ((e.loaded fmt).status, (e.loaded fmt).body.getD [])
  | none => (0, lit "(no fixture match)")

/-- Status and body are those wanted; where nothing is, the status is 0. -/
def Suits (given : ℤ × Bytes) : Option (ℤ × Bytes) → Prop
  | some p => given = p
  | none => given.1 = 0

instance (given : ℤ × Bytes) : (want : Option (ℤ × Bytes)) → Decidable (Suits given want)
  | some p => inferInstanceAs (Decidable (given = p))
  | none => inferInstanceAs (Decidable (given.1 = 0))

/-- The request of script `s` is answered by one `http_response`, whose key is the returned one and
whose status and body are as wanted; no other queue changes. -/
def AnsweredBy (w : World F) (s : ℕ) (a : List (SValue F)) (want : Option (ℤ × Bytes)) : Prop :=
  ∃ id given, (w.llHTTPRequest s a).1 = .key id ∧ Suits given want ∧
    ((w.llHTTPRequest s a).2.script s).evq = (w.script s).evq ++
      [⟨lit "http_response", [.key id, .int given.1, .list [], .string given.2]⟩] ∧
    ∀ i ≠ s, ((w.llHTTPRequest s a).2.script i).evq = (w.script i).evq

/-! ### Lines -/

omit [CDouble F] in
theorem unlines_append (ls ms : List Bytes) : unlines (ls ++ ms) = unlines ls ++ unlines ms :=
  List.flatMap_append

theorem unlines_cons (l : Bytes) (ls : List Bytes) : unlines (l :: ls) = l ++ 10 :: unlines ls := by
  simp only [unlines, List.flatMap_cons, List.append_assoc, List.cons_append, List.nil_append]

theorem OneLine.append {a b : Bytes} (ha : OneLine a) (hb : OneLine b) : OneLine (a ++ b) := by
  unfold OneLine
  rw [List.mem_append, List.mem_append, not_or, not_or]
  exact ⟨⟨ha.1, hb.1⟩, ha.2, hb.2⟩

theorem oneLine_decBytes (i : ℤ) : OneLine (decBytes i) :=
  ⟨fun h => (decBytes_clean i _ h).2.2 rfl, fun h => (decBytes_clean i _ h).1 rfl⟩

theorem Fixture.oneLine_lines (e : Fixture) (fmt : FixtureFormat) : ∀ l ∈ e.lines fmt, OneLine l := by
  have hkey {k b : Bytes} (hk : 10 ∉ k ∧ 0 ∉ k) (hb : OneLine b) : OneLine (k ++ b) :=
    OneLine.append hk hb
  intro l hl
  cases fmt <;> simp only [lines, List.mem_append, List.mem_singleton, Option.mem_toList,
    Option.map_eq_some_iff] at hl
  · rcases hl with ((rfl | ⟨n, -, rfl⟩) | ⟨b, -, rfl⟩) | rfl
    · exact hkey (by decide) e.url.2
    · exact hkey (by decide) (oneLine_decBytes _)
    · exact hkey (by decide) b.2
    · exact ⟨List.not_mem_nil, List.not_mem_nil⟩
  · rcases hl with ((rfl | ⟨n, -, rfl⟩) | ⟨b, -, rfl⟩) | rfl
    · exact hkey (by decide) e.url.2
    · exact hkey (by decide) (oneLine_decBytes _)
    · exact hkey (by decide) b.2
    · exact ⟨by decide, by decide⟩

theorem splitOn_unlines (ls : List Bytes) (h : ∀ l ∈ ls, 10 ∉ l) :
    (unlines ls).splitOn 10 = ls ++ [[]] := by
  induction ls with
  | nil => rfl
  | cons l ls ih =>
    have hl : ∀ x ∈ l, (x == 10) = false := by
      intro x hx
      apply beq_false_of_ne
      rintro rfl
      exact h l List.mem_cons_self hx
    have hs := List.splitOnP_append_cons_of_forall_mem hl 10 (by rfl) (unlines ls)
    rw [unlines_cons, List.splitOn_eq_splitOnP, hs, ← List.splitOn_eq_splitOnP,
      ih fun m hm => h m (List.mem_cons_of_mem l hm)]
    rfl

theorem takeWhile_line {l : Bytes} (h : 10 ∉ l) (rest : Bytes) :
    (l ++ 10 :: rest).takeWhile (· ≠ 10) = l ∧
      (l ++ 10 :: rest).dropWhile (· ≠ 10) = 10 :: rest := by
  have hl : ∀ c ∈ l, decide (c ≠ 10) = true := fun c hc =>
    decide_eq_true fun hc' => h (hc' ▸ hc)
  rw [List.takeWhile_append_of_pos hl, List.dropWhile_append_of_pos hl]
  exact ⟨List.append_nil l, rfl⟩

/-! ### Numbers -/

theorem decBytes_ne_nil (i : ℤ) : decBytes i ≠ [] := by
  have hdec : decBytes i = if i < 0 then 45 :: digits i.natAbs else digits i.natAbs := rfl
  rw [hdec]
  split
  · exact List.cons_ne_nil _ _
  · exact digits_ne_nil _

theorem decBytes_solid (i : ℤ) (c : UInt8) (h : c ∈ decBytes i) : isSpace c = false := by
  have hd (h : c ∈ digits i.natAbs) : isSpace c = false :=
    (isDigit_facts c (isDigit_digits _ c h)).1
  have hdec : decBytes i = if i < 0 then 45 :: digits i.natAbs else digits i.natAbs := rfl
  rw [hdec] at h
  split at h
  · rcases List.mem_cons.mp h with rfl | h
    · rfl
    · exact hd h
  · exact hd h

theorem decBytes_head (i : ℤ) : ∃ c cs, decBytes i = c :: cs ∧ isSpace c = false := by
  obtain ⟨c, cs, hd⟩ := List.exists_cons_of_ne_nil (decBytes_ne_nil i)
  exact ⟨c, cs, hd, decBytes_solid i c (hd ▸ List.mem_cons_self)⟩

theorem scanSign_append (c : UInt8) (cs t : Bytes) :
    scanSign (c :: cs ++ t) = ((scanSign (c :: cs)).1, (scanSign (c :: cs)).2 ++ t) := by
  rw [List.cons_append]
  by_cases h1 : c = 45
  · rw [h1]
    rfl
  by_cases h2 : c = 43
  · rw [h2]
    rfl
  have hs (x : Bytes) : scanSign (c :: x) = (false, c :: x) := by
    unfold scanSign
    split
    · rename_i h
      exact absurd (List.cons.inj h).1 h1
    · rename_i h
      exact absurd (List.cons.inj h).1 h2
    · rfl
  rw [hs, hs]
  rfl

/-- A number is read up to the end of its line. -/
theorem strtoll_line (i : ℤ) (rest : Bytes) :
    strtoll 10 (32 :: (decBytes i ++ 10 :: rest)) = strtoll 10 (decBytes i) := by
  obtain ⟨c, cs, hd, hc⟩ := decBytes_head i
  have h1 (x : Bytes) : (c :: x).dropWhile isSpace = c :: x :=
    List.dropWhile_cons_of_neg (by simp [hc])
  have h2 : (32 :: (c :: cs ++ 10 :: rest)).dropWhile isSpace = c :: cs ++ 10 :: rest := by
    rw [List.dropWhile_cons_of_pos (by rfl)]
    exact h1 _
  have h3 (x : Bytes) : (x ++ 10 :: rest).takeWhile (fun c => digitVal c < 10) =
      x.takeWhile fun c => digitVal c < 10 := by
    induction x with
    | nil => rfl
    | cons d x ih => simp only [List.cons_append, List.takeWhile_cons, ih]
  unfold strtoll
  rw [hd, h1, h2, scanSign_append]
  simp only [scanBase, h3]

theorem atoi_decBytes (n : Int32) : atoi (decBytes n.toInt) = n.toInt := by
  have h1 := n.le_toInt
  have h2 := n.toInt_lt
  unfold atoi
  rw [strtoll_decBytes _ (by unfold llongMin; omega) (by unfold llongMax; omega), toCInt_int32]

theorem atoi_line (n : Int32) (rest : Bytes) :
    atoi (32 :: (decBytes n.toInt ++ 10 :: rest)) = n.toInt := by
  unfold atoi
  rw [strtoll_line]
  exact atoi_decBytes n

/-! ### The fixture file -/

theorem chomp_append {x : Bytes} (hx : x.getLast? ≠ some 13) (b : Bytes) :
    chomp (x ++ b) = x ++ chomp b := by
  cases b with
  | nil =>
    unfold chomp
    rw [List.append_nil, if_neg hx, if_neg (by simp), List.append_nil]
  | cons c b =>
    have hne : c :: b ≠ [] := List.cons_ne_nil c b
    unfold chomp
    rw [List.getLast?_append_of_ne_nil x hne, List.dropLast_append_of_ne_nil hne]
    split <;> rfl

theorem restOfLine_blank (b : Bytes) : restOfLine (32 :: b) = restOfLine b := rfl

/-- What a line does once it is cut off. -/
theorem fixtureLine_eq {l : Bytes} (h : 10 ∉ l) (rest : Bytes) (fs : List HttpFixtureEntry)
    (cur : Bool) : fixtureLine (l ++ 10 :: rest) fs cur =
      let line := chomp l
      if line = [] then (fs, false)
      else
        let fs := if cur then fs else ⟨none, 200, none⟩ :: fs
        if (lit "URL_MATCH").isPrefixOf line then
          (fs.modifyHead fun e => { e with matchUrl := some (restOfLine (line.drop 9)) }, true)
        else if (lit "STATUS").isPrefixOf line then
          (fs.modifyHead fun e => { e with status := atoi ((l ++ 10 :: rest).drop 6) }, true)
        else if (lit "BODY").isPrefixOf line then
          (fs.modifyHead fun e => { e with body := some (restOfLine (line.drop 4)) }, true)
        else (fs, true) := by
  unfold fixtureLine
  rw [(takeWhile_line h rest).1]
  rfl

theorem fixtureLine_url {u : Bytes} (hn : 10 ∉ lit "URL_MATCH " ++ u) (rest : Bytes)
    (fs : List HttpFixtureEntry) :
    fixtureLine (lit "URL_MATCH " ++ u ++ 10 :: rest) fs false =
      (⟨some (restOfLine (chomp u)), 200, none⟩ :: fs, true) := by
  rw [fixtureLine_eq hn, chomp_append (by decide)]
  rfl

theorem fixtureLine_status {n : Int32} (hn : 10 ∉ lit "STATUS " ++ decBytes n.toInt) (rest : Bytes)
    (e : HttpFixtureEntry) (fs : List HttpFixtureEntry) :
    fixtureLine (lit "STATUS " ++ decBytes n.toInt ++ 10 :: rest) (e :: fs) true =
      ({ e with status := n.toInt } :: fs, true) := by
  have hv : (lit "STATUS " ++ decBytes n.toInt ++ 10 :: rest).drop 6 =
      32 :: (decBytes n.toInt ++ 10 :: rest) := by
    rw [List.append_assoc]
    rfl
  rw [fixtureLine_eq hn, chomp_append (by decide), hv, atoi_line]
  rfl

theorem fixtureLine_body {b : Bytes} (hn : 10 ∉ lit "BODY " ++ b) (rest : Bytes)
    (e : HttpFixtureEntry) (fs : List HttpFixtureEntry) :
    fixtureLine (lit "BODY " ++ b ++ 10 :: rest) (e :: fs) true =
      ({ e with body := some (restOfLine (chomp b)) } :: fs, true) := by
  rw [fixtureLine_eq hn, chomp_append (by decide)]
  rfl

theorem fixturesFrom_fuel {k k' : ℕ} {p : Bytes} (hk : p.length ≤ k) (hk' : p.length ≤ k')
    (fs : List HttpFixtureEntry) (cur : Bool) :
    fixturesFrom k p fs cur = fixturesFrom k' p fs cur := by
  induction k generalizing k' p fs cur with
  | zero =>
    obtain rfl := List.length_eq_zero_iff.mp (Nat.le_zero.mp hk)
    cases k' <;> rfl
  | succ k ih =>
    cases p with
    | nil => cases k' <;> rfl
    | cons c p =>
      obtain ⟨k', rfl⟩ : ∃ l, k' = l+1 := ⟨k'-1, by simp only [List.length_cons] at hk'; omega⟩
      rw [fixturesFrom.eq_3 _ _ _ k (List.cons_ne_nil c p),
        fixturesFrom.eq_3 _ _ _ k' (List.cons_ne_nil c p)]
      have hl := congrArg List.length (List.takeWhile_append_dropWhile (p := (· ≠ 10)) (l := c :: p))
      cases hd : (c :: p).dropWhile (· ≠ 10) with
      | nil => rfl
      | cons x rest =>
        rw [hd] at hl
        simp only [List.length_append, List.length_cons] at hl hk hk'
        exact ih (by omega) (by omega) _ _

/-- `http_fixture_load` from some line on. -/
def fixturesIn (p : Bytes) (fs : List HttpFixtureEntry) (cur : Bool) : List HttpFixtureEntry :=
  fixturesFrom p.length p fs cur

/-- The loop takes one line. -/
theorem fixturesIn_line {l rest : Bytes} (h : 10 ∉ l) (fs : List HttpFixtureEntry) (cur : Bool) :
    fixturesIn (l ++ 10 :: rest) fs cur = fixturesIn rest
      (fixtureLine (l ++ 10 :: rest) fs cur).1 (fixtureLine (l ++ 10 :: rest) fs cur).2 := by
  have hne : l ++ 10 :: rest ≠ [] := by simp
  have hlen : (l ++ 10 :: rest).length = l.length+rest.length+1 := by
    simp only [List.length_append, List.length_cons]
    omega
  unfold fixturesIn
  rw [hlen, fixturesFrom.eq_3 _ _ _ _ hne, (takeWhile_line h rest).2]
  exact fixturesFrom_fuel (by omega) le_rfl _ _

theorem fixturesIn_status (o : Option Int32) (rest : Bytes) (e : HttpFixtureEntry)
    (fs : List HttpFixtureEntry) :
    fixturesIn (unlines (o.map fun n => lit "STATUS " ++ decBytes n.toInt).toList ++ rest)
        (e :: fs) true =
      fixturesIn rest ({ e with status := (o.map Int32.toInt).getD e.status } :: fs) true := by
  cases o with
  | none => rfl
  | some n =>
    have hn : 10 ∉ lit "STATUS " ++ decBytes n.toInt :=
      (OneLine.append ⟨by decide, by decide⟩ (oneLine_decBytes _)).1
    change fixturesIn (unlines [lit "STATUS " ++ decBytes n.toInt] ++ rest) _ _ = _
    rw [unlines_cons, List.append_assoc, List.cons_append, fixturesIn_line hn,
      fixtureLine_status hn]
    rfl

theorem fixturesIn_body (o : Option LineText) (rest : Bytes) (e : HttpFixtureEntry)
    (fs : List HttpFixtureEntry) :
    fixturesIn (unlines (o.map fun b => lit "BODY " ++ b.1).toList ++ rest) (e :: fs) true =
      fixturesIn rest ({ e with body :=
        (o.map fun b => FixtureFormat.fixtureFile.read b.1).or e.body } :: fs) true := by
  cases o with
  | none => rfl
  | some b =>
    have hn : 10 ∉ lit "BODY " ++ b.1 := (OneLine.append ⟨by decide, by decide⟩ b.2).1
    change fixturesIn (unlines [lit "BODY " ++ b.1] ++ rest) _ _ = _
    rw [unlines_cons, List.append_assoc, List.cons_append, fixturesIn_line hn, fixtureLine_body hn]
    rfl

/-- An entry of the fixture file goes to the head of the list. -/
theorem fixturesIn_entry (e : Fixture) (rest : Bytes) (fs : List HttpFixtureEntry) :
    fixturesIn (unlines (e.lines .fixtureFile) ++ rest) fs false =
      fixturesIn rest (e.loaded .fixtureFile :: fs) false := by
  have hn : 10 ∉ lit "URL_MATCH " ++ e.url.1 := (OneLine.append ⟨by decide, by decide⟩ e.url.2).1
  have hnil (x : Bytes) : unlines [] ++ x = x := rfl
  -- the pattern opens the entry, the blank line closes it
  simp only [Fixture.lines, unlines_append, List.append_assoc]
  rw [unlines_cons, List.append_assoc, List.cons_append, fixturesIn_line hn, fixtureLine_url hn,
    hnil, fixturesIn_status, fixturesIn_body, Option.or_none]
  exact fixturesIn_line (l := []) List.not_mem_nil _ _

theorem nul_unlines {ls : List Bytes} (h : ∀ l ∈ ls, OneLine l) : 0 ∉ unlines ls := by
  intro h0
  obtain ⟨l, hl, hc⟩ := List.mem_flatMap.mp h0
  rcases List.mem_append.mp hc with hc | hc
  · exact (h l hl).2 hc
  · exact absurd hc (by decide)

theorem FixtureFormat.oneLine_text (fmt : FixtureFormat) (es : List Fixture) :
    ∀ l ∈ es.flatMap fun e => e.lines fmt, OneLine l := by
  intro l hl
  obtain ⟨e, -, he⟩ := List.mem_flatMap.mp hl
  exact e.oneLine_lines fmt l he

theorem httpFixtureLoad_text (es : List Fixture) :
    httpFixtureLoad (FixtureFormat.fixtureFile.text es) =
      (es.map fun e => e.loaded .fixtureFile).reverse := by
  have hrun (fs : List HttpFixtureEntry) :
      fixturesIn (unlines (es.flatMap fun e => e.lines .fixtureFile)) fs false =
        (es.map fun e => e.loaded .fixtureFile).reverse ++ fs := by
    induction es generalizing fs with
    | nil => rfl
    | cons e es ih =>
      rw [List.flatMap_cons, unlines_append, fixturesIn_entry, ih, List.map_cons,
        List.reverse_cons, List.append_assoc]
      rfl
  unfold httpFixtureLoad FixtureFormat.text
  rw [cstr_of_nul_free _ (nul_unlines (FixtureFormat.oneLine_text _ es))]
  exact (hrun []).trans (List.append_nil _)

/-! ### The config file -/

/-- A word without blanks. -/
structure Word (k : Bytes) : Prop where
  ne_nil : k ≠ []
  solid : ∀ c ∈ k, (c == 32 || c == 9) = false

instance (k : Bytes) : Decidable (Word k) :=
  decidable_of_iff (k ≠ [] ∧ ∀ c ∈ k, (c == 32 || c == 9) = false)
    ⟨fun h => ⟨h.1, h.2⟩, fun h => ⟨h.ne_nil, h.solid⟩⟩

theorem Word.head {k : Bytes} (h : Word k) (b : Bytes) :
    (k ++ b).dropWhile (fun c => c == 32 || c == 9) = k ++ b := by
  cases k with
  | nil => exact absurd rfl h.ne_nil
  | cons c k => exact List.dropWhile_cons_of_neg (by rw [h.solid c List.mem_cons_self]; decide)

theorem Word.takeWhile {k : Bytes} (h : Word k) (b : Bytes) :
    (k ++ b).takeWhile (fun c => !(c == 32 || c == 9)) =
        k ++ b.takeWhile (fun c => !(c == 32 || c == 9)) ∧
      (k ++ b).dropWhile (fun c => !(c == 32 || c == 9)) =
        b.dropWhile (fun c => !(c == 32 || c == 9)) := by
  have hk : ∀ c ∈ k, (!(c == 32 || c == 9)) = true := fun c hc => by rw [h.solid c hc]; rfl
  rw [List.takeWhile_append_of_pos hk, List.dropWhile_append_of_pos hk]
  exact ⟨rfl, rfl⟩

/-- The first word of a line, from the word itself and from what follows it. -/
theorem nextTok_eq {k : Bytes} (h : Word k) (b : Bytes) : nextTok (k ++ b) =
    (some (k ++ b.takeWhile fun c => !(c == 32 || c == 9)),
      (b.dropWhile fun c => !(c == 32 || c == 9)).tail) := by
  have hne : k ++ b ≠ [] := by
    intro hkb
    exact h.ne_nil (List.append_eq_nil_iff.mp hkb).1
  obtain ⟨c, x, hx⟩ := List.exists_cons_of_ne_nil hne
  have ht := h.takeWhile b
  have hh := h.head b
  unfold nextTok
  rw [hx] at ht hh ⊢
  rw [hh]
  dsimp only
  rw [ht.1, ht.2]

theorem nextTok_word {k : Bytes} (h : Word k) (b : Bytes) :
    nextTok (k ++ 32 :: b) = (some k, b) := by
  rw [nextTok_eq h]
  exact congrArg (fun x => (some x, b)) (List.append_nil k)

theorem nextTok_end {k : Bytes} (h : Word k) : nextTok k = (some k, []) := by
  have h' := nextTok_eq h []
  rwa [List.append_nil, List.takeWhile_nil, List.append_nil] at h'

theorem trimEnd_append (x b : Bytes) :
    trimEnd (x ++ b) = if trimEnd b = [] then trimEnd x else x ++ trimEnd b := by
  unfold trimEnd
  rw [List.reverse_append, List.dropWhile_append]
  simp only [List.isEmpty_iff, List.reverse_eq_nil_iff]
  split
  · rfl
  · rw [List.reverse_append, List.reverse_reverse]

/-- The word and the value of a directive. -/
theorem nextTok_directive {k : Bytes} (h : Word k) (hk : trimEnd (k ++ [32]) = k) (b : Bytes) :
    ∃ p, nextTok (trimEnd (k ++ [32] ++ b)) = (some k, p) ∧
      restOfLine p = restOfLine (trimEnd b) := by
  rw [trimEnd_append]
  split
  · rename_i hb
    rw [hk, hb]
    exact ⟨[], nextTok_end h, rfl⟩
  · rw [List.append_assoc]
    exact ⟨_, nextTok_word h _, rfl⟩

/-- A number has no blanks to lose. -/
theorem read_decBytes (i : ℤ) : FixtureFormat.config.read (decBytes i) = decBytes i := by
  have hb (c : UInt8) (h : c ∈ decBytes i) : (c == 13 || c == 32 || c == 9) = false := by
    have hs := decBytes_solid i c h
    by_contra hc
    simp only [Bool.or_eq_true, beq_iff_eq, Bool.not_eq_false] at hc
    rcases hc with (rfl | rfl) | rfl <;> exact absurd hs (by decide)
  have hsame {p : UInt8 → Bool} {l : Bytes} (h : ∀ c ∈ l, p c = false) : l.dropWhile p = l := by
    cases l with
    | nil => rfl
    | cons c l => exact List.dropWhile_cons_of_neg (by rw [h c List.mem_cons_self]; decide)
  have ht : trimEnd (decBytes i) = decBytes i := by
    unfold trimEnd
    rw [hsame fun c hc => hb c (List.mem_reverse.mp hc), List.reverse_reverse]
  unfold FixtureFormat.read restOfLine
  dsimp only
  rw [ht]
  apply hsame
  intro c hc
  have h := hb c hc
  simp only [Bool.or_eq_false_iff] at h ⊢
  exact ⟨h.1.2, h.2⟩

namespace World
variable (w : World F) (e : HttpFixtureEntry) (fs : List HttpFixtureEntry) {line p : Bytes}

omit [CDouble F] in
theorem configLine_url (h : nextTok line = (some (lit "FIXTURE_URL"), p)) (fx : Bool) :
    configLine (w, fx) line =
      ({ w with httpFix := ⟨some (restOfLine p), 200, none⟩ :: w.httpFix }, true) := by
  unfold configLine
  rw [h]
  rfl

omit [CDouble F] in
theorem configLine_status (h : nextTok line = (some (lit "FIXTURE_STATUS"), p)) :
    configLine ({ w with httpFix := e :: fs }, true) line =
      ({ w with httpFix := { e with status := atoi (restOfLine p) } :: fs }, true) := by
  unfold configLine
  rw [h]
  rfl

omit [CDouble F] in
theorem configLine_body (h : nextTok line = (some (lit "FIXTURE_BODY"), p)) :
    configLine ({ w with httpFix := e :: fs }, true) line =
      ({ w with httpFix := { e with body := some (restOfLine p) } :: fs }, true) := by
  unfold configLine
  rw [h]
  rfl

omit [CDouble F] in
theorem configLine_end (fx : Bool) : configLine (w, fx) (lit "FIXTURE_END") = (w, false) := by
  have h : nextTok (lit "FIXTURE_END") = (some (lit "FIXTURE_END"), []) := by decide
  unfold configLine
  rw [h]
  rfl

omit [CDouble F] in
/-- The directives of an entry put it at the head of the list. -/
theorem foldl_configLine_entry (f : Fixture) (fx : Bool) :
    ((f.lines .config).map trimEnd).foldl configLine (w, fx) =
      ({ w with httpFix := f.loaded .config :: w.httpFix }, false) := by
  obtain ⟨u, o, b⟩ := f
  have hstatus (e : HttpFixtureEntry) (fs : List HttpFixtureEntry) :
      ((o.map fun n => lit "FIXTURE_STATUS " ++ decBytes n.toInt).toList.map trimEnd).foldl
          configLine ({ w with httpFix := e :: fs }, true) =
        ({ w with httpFix :=
          { e with status := (o.map Int32.toInt).getD e.status } :: fs }, true) := by
    cases o with
    | none => rfl
    | some n =>
      obtain ⟨p, hp, hv⟩ := nextTok_directive (k := lit "FIXTURE_STATUS") (by decide +kernel)
        (by decide +kernel) (decBytes n.toInt)
      have hr := read_decBytes n.toInt
      refine (configLine_status w e fs hp).trans ?_
      rw [hv, show restOfLine (trimEnd (decBytes n.toInt)) = _ from hr, atoi_decBytes]
      rfl
  have hbody (e : HttpFixtureEntry) (fs : List HttpFixtureEntry) :
      ((b.map fun t => lit "FIXTURE_BODY " ++ t.1).toList.map trimEnd).foldl
          configLine ({ w with httpFix := e :: fs }, true) =
        ({ w with httpFix := { e with body :=
          (b.map fun t => FixtureFormat.config.read t.1).or e.body } :: fs }, true) := by
    cases b with
    | none => rfl
    | some t =>
      obtain ⟨p, hp, hv⟩ := nextTok_directive (k := lit "FIXTURE_BODY") (by decide +kernel)
        (by decide +kernel) t.1
      refine (configLine_body w e fs hp).trans ?_
      rw [hv]
      rfl
  obtain ⟨p, hp, hv⟩ := nextTok_directive (k := lit "FIXTURE_URL") (by decide +kernel)
    (by decide +kernel) u.1
  have hurl : [trimEnd (lit "FIXTURE_URL " ++ u.1)].foldl configLine (w, fx) =
      ({ w with httpFix := ⟨some (restOfLine p), 200, none⟩ :: w.httpFix }, true) :=
    configLine_url w hp fx
  have hend (v : World F) : [trimEnd (lit "FIXTURE_END")].foldl configLine (v, true) = (v, false) := by
    have ht : trimEnd (lit "FIXTURE_END") = lit "FIXTURE_END" := by decide +kernel
    rw [ht]
    exact configLine_end v true
  simp only [Fixture.lines, List.map_append, List.map_cons, List.map_nil, List.foldl_append]
  rw [hurl, hstatus, hbody, hend, hv, Option.or_none]
  rfl

end World

theorem commandLine_directive (l : Bytes) : commandLine (70 :: l) = some (trimEnd (70 :: l)) := by
  rw [commandLine_eq]
  rfl

theorem configLines_text (es : List Fixture) : configLines (FixtureFormat.config.text es) =
    (es.flatMap fun e => e.lines .config).map trimEnd := by
  have hn := FixtureFormat.oneLine_text .config es
  have hlen : (cstr (FixtureFormat.config.text es)).length ≤ (FixtureFormat.config.text es).length :=
    (List.takeWhile_prefix _).length_le
  have hF : ∀ l ∈ es.flatMap fun e => e.lines .config, commandLine l = some (trimEnd l) := by
    intro l hl
    obtain ⟨e, -, he⟩ := List.mem_flatMap.mp hl
    simp only [Fixture.lines, List.mem_append, List.mem_singleton, Option.mem_toList,
      Option.map_eq_some_iff] at he
    rcases he with ((rfl | ⟨n, -, rfl⟩) | ⟨b, -, rfl⟩) | rfl <;> exact commandLine_directive _
  unfold configLines
  rw [commandsFrom_eq _ _ hlen]
  unfold FixtureFormat.text
  rw [cstr_of_nul_free _ (nul_unlines hn), splitOn_unlines _ fun l hl => (hn l hl).1,
    List.filterMap_append, List.filterMap_eq_map_iff_forall_eq_some.mpr hF]
  exact List.append_nil _

omit [CDouble F] in
theorem configLoad_text (w : World F) (es : List Fixture) :
    w.configLoad (FixtureFormat.config.text es) =
      { w with httpFix := (es.map fun e => e.loaded .config).reverse ++ w.httpFix } := by
  have hrun (w : World F) (fx : Bool) :
      (((es.flatMap fun e => e.lines .config).map trimEnd).foldl World.configLine (w, fx)).1 =
        { w with httpFix := (es.map fun e => e.loaded .config).reverse ++ w.httpFix } := by
    induction es generalizing w fx with
    | nil => rfl
    | cons e es ih =>
      rw [List.flatMap_cons, List.map_append, List.foldl_append, World.foldl_configLine_entry, ih,
        List.map_cons, List.reverse_cons, List.append_assoc]
      rfl
  unfold World.configLoad
  rw [configLines_text]
  exact hrun w false

/-! ### Which entry answers -/

omit [CDouble F] in
theorem FixtureFormat.load_httpFix (fmt : FixtureFormat) (es : List Fixture) (w : World F) :
    fmt.load es w = { w with httpFix := (es.map fun e => e.loaded fmt).reverse } := by
  cases fmt with
  | fixtureFile =>
    unfold load
    dsimp only
    rw [httpFixtureLoad_text]
  | config =>
    unfold load
    dsimp only
    rw [configLoad_text, List.append_nil]

omit [CDouble F] in
/-- The list is searched from its head, so the entry read last is the one found. -/
theorem httpAnswer_loaded {fmt : FixtureFormat} {es : List Fixture} {w : World F}
    (hf : w.httpFix = (es.map fun e => e.loaded fmt).reverse) (hr : w.httpReal = false)
    (url : Bytes) : w.httpAnswer url = (lastAnswer fmt es url, w) := by
  have hfind : w.httpFixtureMatch url =
      (es.reverse.find? fun e => containsBytes url (fmt.read e.url.1)).map (Fixture.loaded fmt) := by
    unfold World.httpFixtureMatch
    rw [hf, ← List.map_reverse]
    exact List.find?_map
  unfold World.httpAnswer lastAnswer
  rw [hr, hfind]
  cases es.reverse.find? fun e => containsBytes url (fmt.read e.url.1) with
  | none => rfl
  | some e => rfl

/-- A request whose answer is known. -/
theorem llHTTPRequest_answer {w : World F} {s : ℕ} (hs : s < w.scripts.length)
    {a : List (SValue F)} {given : ℤ × Bytes}
    (h : w.genUuid.2.httpAnswer (argStr a 0) = (given, w.genUuid.2)) :
    (w.llHTTPRequest s a).1 = .key w.genUuid.1 ∧
      ((w.llHTTPRequest s a).2.script s).evq = (w.script s).evq ++ [⟨lit "http_response",
        [.key w.genUuid.1, .int given.1, .list [], .string given.2]⟩] ∧
      ∀ i ≠ s, ((w.llHTTPRequest s a).2.script i).evq = (w.script i).evq := by
  have hq : (w.llHTTPRequest s a).2.scripts = (w.genUuid.2.pushEvent s (lit "http_response")
      [.key w.genUuid.1, .int given.1, .list [], .string given.2]).scripts := by
    unfold World.llHTTPRequest World.httpRequest
    dsimp only
    rw [h]
    rfl
  refine ⟨rfl, ?_, fun i hi => ?_⟩
  · rw [World.script, hq]
    exact congrArg Script.evq (World.modScript_script w.genUuid.2 s _ hs)
  · rw [World.script, hq]
    exact congrArg Script.evq (World.modScript_script_ne w.genUuid.2 s i _ hi)

/-- One response is queued, and it carries what the entry read last says. -/
theorem answeredBy_load_iff (fmt : FixtureFormat) (es : List Fixture) {w : World F} {s : ℕ}
    (hs : s < w.scripts.length) (hr : w.httpReal = false) (a : List (SValue F))
    (want : Option (ℤ × Bytes)) :
    AnsweredBy (fmt.load es w) s a want ↔ Suits (lastAnswer fmt es (argStr a 0)) want := by
  obtain ⟨v, hv⟩ : ∃ v, v = fmt.load es w := ⟨_, rfl⟩
  have hload := hv.trans (fmt.load_httpFix es w)
  have hf : v.genUuid.2.httpFix = (es.map fun e => e.loaded fmt).reverse := by rw [hload]; rfl
  have hreal : v.genUuid.2.httpReal = false := by rw [hload]; exact hr
  have hlen : s < v.scripts.length := by rw [hload]; exact hs
  rw [← hv]
  obtain ⟨hk, hq, ho⟩ := llHTTPRequest_answer hlen (httpAnswer_loaded hf hreal (argStr a 0))
  constructor
  · rintro ⟨id, given, -, hg, hq', -⟩
    have hev := List.append_cancel_left (hq.symm.trans hq')
    simp only [List.cons.injEq, Event.mk.injEq, SValue.int.injEq, SValue.string.injEq] at hev
    have hsame : lastAnswer fmt es (argStr a 0) = given := Prod.ext hev.1.2.2.1 hev.1.2.2.2.2.1
    rwa [hsame]
  · intro hg
    exact ⟨_, _, hk, hg, hq, ho⟩

/-- A request is answered as the first entry that matches says if and only if the last entry that
matches, as the loader reads it, says the same. -/
theorem first_fixture_answers_iff (fmt : FixtureFormat) (es : List Fixture) (w : World F) (s : ℕ)
    (hs : s < w.scripts.length) (hr : w.httpReal = false) (a : List (SValue F)) :
    AnsweredBy (fmt.load es w) s a (firstAnswer es (argStr a 0)) ↔
      Suits (lastAnswer fmt es (argStr a 0)) (firstAnswer es (argStr a 0)) :=
  answeredBy_load_iff fmt es hs hr a _

/-- Two entries, of which the second says more. -/
def overlapping : List Fixture :=
  [⟨⟨lit "example.com", by decide⟩, none, some ⟨lit "any page", by decide⟩⟩,
    ⟨⟨lit "example.com/api", by decide⟩, some 500, none⟩]

def askingWorld : World ℚ := (regionOf [default] []).world

theorem single_match_answers : AnsweredBy (FixtureFormat.config.load overlapping askingWorld) 0
    [.string (lit "http://example.com")] (some (200, lit "any page")) :=
  (first_fixture_answers_iff .config overlapping askingWorld 0 (by decide) rfl
    [.string (lit "http://example.com")]).mpr (by decide +kernel)

/-- In either format the later entry wins. -/
theorem first_fixture_loses (fmt : FixtureFormat) :
    ¬ AnsweredBy (fmt.load overlapping askingWorld) 0 [.string (lit "http://example.com/api")]
      (firstAnswer overlapping (lit "http://example.com/api")) := by
  have hs : 0 < askingWorld.scripts.length := by decide
  rw [answeredBy_load_iff fmt overlapping hs rfl]
  cases fmt <;> decide +kernel

theorem overlapping_answered_by_last :
    ¬ AnsweredBy (FixtureFormat.fixtureFile.load overlapping askingWorld) 0
        [.string (lit "http://example.com/api")]
        (firstAnswer overlapping (lit "http://example.com/api")) ∧
      ¬ AnsweredBy (FixtureFormat.config.load overlapping askingWorld) 0
        [.string (lit "http://example.com/api")]
        (firstAnswer overlapping (lit "http://example.com/api")) :=
  ⟨first_fixture_loses .fixtureFile, first_fixture_loses .config⟩

end Slemu
