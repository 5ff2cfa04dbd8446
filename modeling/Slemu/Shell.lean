import Mathlib

/-! How a POSIX shell reads a command line of words, single quotes and a here-document with a quoted
delimiter. Whatever else the shell would do with a line (run a second command, expand, substitute,
redirect, go on to read) is left open. -/

namespace Shell

/-- A line of input bytes. -/
abbrev Line := List UInt8

/-- One simple command: its words, and the here-document on its standard input, if any. -/
structure Command where
  words : List Line
  input : Option Line
  deriving DecidableEq

/-- `'` -/
def quote : UInt8 := 39

/-- The end of a line. -/
def newline : UInt8 := 10

def isBlank (c : UInt8) : Bool := c = 32 || c = 9

/-- The bytes that stand for themselves only in quotes, but for `'` and blanks:
`|`, `&`, `;`, `<`, `>`, `(`, `)`, `$`, the grave accent, the backslash, `"`, the newline, and `*`,
`?`, `[` of patterns. -/
def isSpecial (c : UInt8) : Bool :=
  c ∈ ([124, 38, 59, 60, 62, 40, 41, 36, 96, 92, 34, 10, 42, 63, 91] : List UInt8)

/-- A byte that stands for itself in a word. -/
def isPlain (c : UInt8) : Bool := !isBlank c && c ≠ quote && !isSpecial c

/-- A byte that stands for itself at the beginning of a word; `#` begins a comment there, and `~` is
expanded. -/
def isInitial (c : UInt8) : Bool := isPlain c && c ≠ 35 && c ≠ 126

/-- A word that means itself without quotes. -/
def PlainWord : Line → Prop
  | [] => False
  | c :: w => isInitial c ∧ ∀ d ∈ w, isPlain d

/-- The lines of a here-document up to its delimiter, and what follows it. The last line may lack its
end. So far there are the lines `acc` and the beginning `line` of one more. -/
def hereDoc (delim line acc : Line) : Line → Option (Line × Line)
  | [] => if line = delim then some (acc, []) else none
  | c :: cs =>
    if c = newline then
      if line = delim then some (acc, cs) else hereDoc delim [] (acc ++ line ++ [newline]) cs
    else hereDoc delim (line ++ [c]) acc cs

/-- Where the reading is: between words, or in a word, out of quotes or in them. -/
inductive Mode
  | between
  | word (w : Line)
  | quoted (w : Line)

/-- What follows the first `<` of a redirection: a here-document with its delimiter in quotes, on the
rest of the input. -/
def readHere (ws : List Line) : Line → Option Command
  | 60 :: 39 :: t =>
    match t.dropWhile (· ≠ quote) with
    | 39 :: 10 :: text =>
      match hereDoc (t.takeWhile (· ≠ quote)) [] [] text with
      | some (doc, []) => some ⟨ws, some doc⟩
      | _ => none
    | _ => none
  | _ => none

/-- Reads a command line, with the words `ws` read so far. -/
def read : Mode → List Line → Line → Option Command
  | .between, ws, [] => some ⟨ws, none⟩
  | .word w, ws, [] => some ⟨ws ++ [w], none⟩
  | .quoted _, _, [] => none
  | .between, ws, c :: cs =>
    if isBlank c then read .between ws cs
    else if c = quote then read (.quoted []) ws cs
    else if c = 60 then readHere ws cs
    else if isInitial c then read (.word [c]) ws cs
    else none
  | .word w, ws, c :: cs =>
    if isBlank c then read .between (ws ++ [w]) cs
    else if c = quote then read (.quoted w) ws cs
    else if isPlain c then read (.word (w ++ [c])) ws cs
    else none
  | .quoted w, ws, c :: cs =>
    if c = quote then read (.word w) ws cs else read (.quoted (w ++ [c])) ws cs

/-! ### Words -/

section
variable {w m : Line} {ws : List Line} {cs : Line} {r : Command}

theorem read_blank (ws : List Line) (cs : Line) : read .between ws (32 :: cs) = read .between ws cs :=
  if_pos rfl

/-- In quotes, everything up to the next quote is read as it is. -/
theorem read_quoted (h : quote ∉ m) (w : Line) (ws : List Line) (cs : Line) :
    read (.quoted w) ws (m ++ quote :: cs) = read (.word (w ++ m)) ws cs := by
  induction m generalizing w with
  | nil =>
    rw [List.nil_append, List.append_nil]
    exact if_pos rfl
  | cons c m ih =>
    rw [List.mem_cons, not_or] at h
    have hstep : read (.quoted w) ws (c :: m ++ quote :: cs) =
        read (.quoted (w ++ [c])) ws (m ++ quote :: cs) := if_neg (Ne.symm h.1)
    rw [hstep, ih h.2, List.append_assoc, List.singleton_append]

/-- A quote that is not closed. -/
theorem read_unclosed (h : quote ∉ m) (w : Line) (ws : List Line) :
    read (.quoted w) ws m = none := by
  induction m generalizing w with
  | nil => rfl
  | cons c m ih =>
    rw [List.mem_cons, not_or] at h
    have hstep : read (.quoted w) ws (c :: m) = read (.quoted (w ++ [c])) ws m :=
      if_neg (Ne.symm h.1)
    rw [hstep, ih h.2]

theorem read_plain (h : ∀ c ∈ m, isPlain c) (w : Line) (ws : List Line) (cs : Line) :
    read (.word w) ws (m ++ cs) = read (.word (w ++ m)) ws cs := by
  induction m generalizing w with
  | nil => rw [List.nil_append, List.append_nil]
  | cons c m ih =>
    have hc := h c List.mem_cons_self
    have hc' := hc
    simp only [isPlain, Bool.and_eq_true, Bool.not_eq_true', decide_eq_true_eq] at hc'
    obtain ⟨⟨hb, hq⟩, -⟩ := hc'
    have hstep : read (.word w) ws (c :: m ++ cs) = read (.word (w ++ [c])) ws (m ++ cs) := by
      change (if isBlank c then _ else if c = quote then _ else if isPlain c then
        read (.word (w ++ [c])) ws (m ++ cs) else none) = _
      rw [if_neg (by rw [hb]; decide), if_neg hq, if_pos hc]
    rw [hstep, ih fun d hd => h d (List.mem_cons_of_mem c hd), List.append_assoc,
      List.singleton_append]

/-- A word without quotes, and the blank behind it. -/
theorem read_word (h : PlainWord m) (ws : List Line) (cs : Line) :
    read .between ws (m ++ 32 :: cs) = read .between (ws ++ [m]) cs := by
  cases m with
  | nil => exact h.elim
  | cons c m =>
    obtain ⟨hc, hm⟩ := h
    have hplain : isPlain c = true := by
      simp only [isInitial, Bool.and_eq_true] at hc
      exact hc.1.1
    simp only [isPlain, Bool.and_eq_true, Bool.not_eq_true', decide_eq_true_eq] at hplain
    obtain ⟨⟨hb, hq⟩, hs⟩ := hplain
    have hlt : c ≠ 60 := by
      rintro rfl
      cases hs
    have hstep : read .between ws (c :: m ++ 32 :: cs) = read (.word [c]) ws (m ++ 32 :: cs) := by
      change (if isBlank c then _ else if c = quote then _ else if c = 60 then _ else
        if isInitial c then read (.word [c]) ws (m ++ 32 :: cs) else none) = _
      rw [if_neg (by rw [hb]; decide), if_neg hq, if_neg hlt, if_pos hc]
    rw [hstep, read_plain hm]
    exact if_pos rfl

/-- A word in quotes, and the blank behind it. -/
theorem read_quotedWord (h : quote ∉ m) (ws : List Line) (cs : Line) :
    read .between ws (quote :: m ++ quote :: 32 :: cs) = read .between (ws ++ [m]) cs := by
  have hstep : read .between ws (quote :: m ++ quote :: 32 :: cs) =
      read (.quoted []) ws (m ++ quote :: 32 :: cs) := rfl
  rw [hstep, read_quoted h]
  exact if_pos rfl

end

/-! ### What every reading keeps -/

/-- The words that are done, and the one being read. -/
def Mode.words (ws : List Line) : Mode → List Line
  | .between => ws
  | .word w | .quoted w => ws ++ [w]

/-- A redirection that can be read is a here-document up to the end of the input. -/
theorem readHere_cases {ws : List Line} {cs : Line} {r : Command} (h : readHere ws cs = some r) :
    ∃ delim text doc, cs = 60 :: quote :: delim ++ quote :: newline :: text ∧
      hereDoc delim [] [] text = some (doc, []) ∧ r = ⟨ws, some doc⟩ := by
  unfold readHere at h
  split at h
  · rename_i t
    split at h
    · rename_i text hdrop
      split at h
      · rename_i doc hdoc
        cases h
        refine ⟨_, text, doc, ?_, hdoc, rfl⟩
        have ht : t = t.takeWhile (· ≠ quote) ++ t.dropWhile (· ≠ quote) :=
          List.takeWhile_append_dropWhile.symm
        rw [hdrop] at ht
        conv_lhs => rw [ht]
        rfl
      · cases h
    · cases h
  · cases h

theorem noQuote_nil {ws : List Line} (h : ∀ v ∈ ws, quote ∉ v) : ∀ v ∈ ws ++ [[]], quote ∉ v := by
  intro v hv
  rcases List.mem_append.mp hv with hv | hv
  · exact h v hv
  · rw [List.mem_singleton.mp hv]
    exact List.not_mem_nil

theorem noQuote_snoc {ws : List Line} {w : Line} {c : UInt8} (h : ∀ v ∈ ws ++ [w], quote ∉ v)
    (hc : c ≠ quote) : ∀ v ∈ ws ++ [w ++ [c]], quote ∉ v := by
  intro v hv
  rcases List.mem_append.mp hv with hv | hv
  · exact h v (List.mem_append_left _ hv)
  · rw [List.mem_singleton.mp hv, List.mem_append, List.mem_singleton, not_or]
    exact ⟨h w (List.mem_append_right _ List.mem_cons_self), Ne.symm hc⟩

/-- No quote gets into a word. -/
theorem read_noQuote {mode : Mode} {ws : List Line} {cs : Line} {r : Command}
    (h : read mode ws cs = some r) (hw : ∀ w ∈ mode.words ws, quote ∉ w) :
    ∀ w ∈ r.words, quote ∉ w := by
  fun_induction read mode ws cs with
  | case1 ws => cases h; exact hw
  | case2 w ws => cases h; exact hw
  | case3 => cases h
  | case4 ws c cs hb ih => exact ih h hw
  | case5 ws cs hb ih => exact ih h (noQuote_nil hw)
  | case6 ws cs =>
    obtain ⟨_, _, _, -, -, rfl⟩ := readHere_cases h
    exact hw
  | case7 ws c cs hb hq hlt hc ih => exact ih h (noQuote_snoc (noQuote_nil hw) hq)
  | case8 => cases h
  | case9 w ws c cs hb ih => exact ih h hw
  | case10 w ws cs hb ih => exact ih h hw
  | case11 w ws c cs hb hq hc ih => exact ih h (noQuote_snoc hw hq)
  | case12 => cases h
  | case13 w ws cs ih => exact ih h hw
  | case14 w ws c cs hq ih => exact ih h (noQuote_snoc hw hq)

/-- The words that are done are the first of all words, and the beginning of a word stays. -/
theorem read_words {mode : Mode} {ws : List Line} {cs : Line} {r : Command}
    (h : read mode ws cs = some r) : ws <+: r.words ∧
      ∀ w, mode = .word w ∨ mode = .quoted w → ∃ t, ws ++ [w ++ t] <+: r.words := by
  fun_induction read mode ws cs with
  | case1 ws => cases h; exact ⟨List.prefix_rfl, fun w hw => by rcases hw with hw | hw <;> cases hw⟩
  | case2 w ws =>
    cases h
    refine ⟨List.prefix_append _ _, fun v hv => ?_⟩
    rcases hv with hv | hv
    · cases hv
      exact ⟨[], by rw [List.append_nil]⟩
    · cases hv
  | case3 => cases h
  | case4 ws c cs hb ih =>
    exact ⟨(ih h).1, fun w hw => by rcases hw with hw | hw <;> cases hw⟩
  | case5 ws cs hb ih =>
    exact ⟨(ih h).1, fun w hw => by rcases hw with hw | hw <;> cases hw⟩
  | case6 ws cs =>
    obtain ⟨_, _, _, -, -, rfl⟩ := readHere_cases h
    exact ⟨List.prefix_rfl, fun w hw => by rcases hw with hw | hw <;> cases hw⟩
  | case7 ws c cs hb hq hlt hc ih =>
    exact ⟨(ih h).1, fun w hw => by rcases hw with hw | hw <;> cases hw⟩
  | case8 => cases h
  | case9 w ws c cs hb ih =>
    have hpre := (ih h).1
    refine ⟨(List.prefix_append ws [w]).trans hpre, fun v hv => ?_⟩
    rcases hv with hv | hv
    · cases hv
      exact ⟨[], by rwa [List.append_nil]⟩
    · cases hv
  | case10 w ws cs hb ih =>
    refine ⟨(ih h).1, fun v hv => ?_⟩
    rcases hv with hv | hv
    · cases hv
      exact (ih h).2 w (Or.inr rfl)
    · cases hv
  | case11 w ws c cs hb hq hc ih =>
    refine ⟨(ih h).1, fun v hv => ?_⟩
    rcases hv with hv | hv
    · cases hv
      obtain ⟨t, ht⟩ := (ih h).2 _ (Or.inl rfl)
      exact ⟨c :: t, by rwa [List.append_assoc] at ht⟩
    · cases hv
  | case12 => cases h
  | case13 w ws cs ih =>
    refine ⟨(ih h).1, fun v hv => ?_⟩
    rcases hv with hv | hv
    · cases hv
    · cases hv
      exact (ih h).2 w (Or.inl rfl)
  | case14 w ws c cs hq ih =>
    refine ⟨(ih h).1, fun v hv => ?_⟩
    rcases hv with hv | hv
    · cases hv
    · cases hv
      obtain ⟨t, ht⟩ := (ih h).2 _ (Or.inr rfl)
      exact ⟨c :: t, by rwa [List.append_assoc] at ht⟩

/-- A line that does not go on has no here-document. -/
theorem read_oneLine {mode : Mode} {ws : List Line} {cs : Line} {r : Command}
    (h : read mode ws cs = some r) (hn : newline ∉ cs) : r.input = none := by
  fun_induction read mode ws cs with
  | case1 ws => cases h; rfl
  | case2 w ws => cases h; rfl
  | case3 => cases h
  | case6 ws cs =>
    obtain ⟨delim, text, doc, rfl, -, -⟩ := readHere_cases h
    exact absurd (by simp) hn
  | case8 => cases h
  | case12 => cases h
  | case4 ws c cs hb ih => exact ih h fun hm => hn (List.mem_cons_of_mem _ hm)
  | case5 ws cs hb ih => exact ih h fun hm => hn (List.mem_cons_of_mem _ hm)
  | case7 ws c cs hb hq hlt hc ih => exact ih h fun hm => hn (List.mem_cons_of_mem _ hm)
  | case9 w ws c cs hb ih => exact ih h fun hm => hn (List.mem_cons_of_mem _ hm)
  | case10 w ws cs hb ih => exact ih h fun hm => hn (List.mem_cons_of_mem _ hm)
  | case11 w ws c cs hb hq hc ih => exact ih h fun hm => hn (List.mem_cons_of_mem _ hm)
  | case13 w ws cs ih => exact ih h fun hm => hn (List.mem_cons_of_mem _ hm)
  | case14 w ws c cs hq ih => exact ih h fun hm => hn (List.mem_cons_of_mem _ hm)

/-! ### Words without quotes -/

/-- If there is no quote in `m`, then the word that `w` is the beginning of ends in `m`, or all of `m`
belongs to it. -/
theorem read_word_cases {w m : Line} {ws : List Line} {cs : Line} {r : Command} (hq : quote ∉ m)
    (h : read (.word w) ws (m ++ 32 :: cs) = some r) :
    ((∀ c ∈ m, isPlain c) ∧ read .between (ws ++ [w ++ m]) cs = some r) ∨
      ∃ v : Line, v.length < m.length ∧ ws ++ [w ++ v] <+: r.words := by
  induction m generalizing w with
  | nil =>
    refine Or.inl ⟨fun c hc => (by cases hc), ?_⟩
    rw [List.append_nil]
    exact h
  | cons c m ih =>
    rw [List.mem_cons, not_or] at hq
    change (if isBlank c then read .between (ws ++ [w]) (m ++ 32 :: cs) else if c = quote then
      read (.quoted w) ws (m ++ 32 :: cs) else if isPlain c then
        read (.word (w ++ [c])) ws (m ++ 32 :: cs) else none) = some r at h
    rw [if_neg (Ne.symm hq.1)] at h
    split_ifs at h with hb hc
    · refine Or.inr ⟨[], by simp, ?_⟩
      rw [List.append_nil]
      exact (read_words h).1
    · rcases ih hq.2 h with ⟨hm, hr⟩ | ⟨v, hv, hr⟩
      · refine Or.inl ⟨fun d hd => ?_, by rwa [List.append_assoc, List.singleton_append] at hr⟩
        rcases List.mem_cons.mp hd with rfl | hd
        · exact hc
        · exact hm d hd
      · refine Or.inr ⟨c :: v, by simpa using hv, ?_⟩
        rwa [List.append_assoc, List.singleton_append] at hr

/-- The delimiter of a here-document has a quote in front. -/
theorem readHere_ne_some {m : Line} (hq : quote ∉ m) (ws : List Line) (cs : Line) (r : Command) :
    readHere ws (m ++ 32 :: cs) ≠ some r := by
  intro h
  obtain ⟨delim, text, doc, htext, -, -⟩ := readHere_cases h
  cases m with
  | nil => cases htext
  | cons x m =>
    cases m with
    | nil => cases htext
    | cons y m =>
      rw [List.cons_append, List.cons_append, List.cons_append, List.cons_append,
        List.cons.injEq, List.cons.injEq] at htext
      refine hq ?_
      rw [htext.2.1]
      exact List.mem_cons_of_mem _ List.mem_cons_self

theorem snoc_inj_of_begins {ws l : List Line} {v w : Line} (hv : ws ++ [v] <+: l)
    (hw : ws ++ [w] <+: l) : v = w := by
  have hle : (ws ++ [v]).length ≤ (ws ++ [w]).length := by simp
  have heq := (List.prefix_of_prefix_length_le hv hw hle).eq_of_length (by simp)
  exact (List.cons.inj (List.append_cancel_left heq)).1

theorem read_initial {c : UInt8} (hc : isInitial c) (ws : List Line) (cs : Line) :
    read .between ws (c :: cs) = read (.word [c]) ws cs := by
  have hplain : isPlain c = true := by
    simp only [isInitial, Bool.and_eq_true] at hc
    exact hc.1.1
  simp only [isPlain, Bool.and_eq_true, Bool.not_eq_true', decide_eq_true_eq] at hplain
  obtain ⟨⟨hb, hq⟩, hs⟩ := hplain
  have hlt : c ≠ 60 := by
    rintro rfl
    cases hs
  change (if isBlank c then _ else if c = quote then _ else if c = 60 then _ else
    if isInitial c then read (.word [c]) ws cs else none) = _
  rw [if_neg (by rw [hb]; decide), if_neg hq, if_neg hlt, if_pos hc]

/-- Between words, the next word begins with the first byte that is no blank, if there is no quote
before the blank. -/
theorem read_between_head {m v : Line} {ws : List Line} {d : UInt8} {cs : Line} {r : Command}
    (hq : quote ∉ m) (hd : isInitial d) (h : read .between ws (m ++ 32 :: d :: cs) = some r)
    (hv : ws ++ [v] <+: r.words) : ∃ c t, v = c :: t ∧ isBlank c = false := by
  have hfirst {c : UInt8} {u : Line} (hb : isBlank c = false)
      (h : read (.word [c]) ws u = some r) : ∃ c t, v = c :: t ∧ isBlank c = false := by
    obtain ⟨t, ht⟩ := (read_words h).2 _ (Or.inl rfl)
    exact ⟨c, t, snoc_inj_of_begins hv ht, hb⟩
  have hblank {c : UInt8} (hc : isInitial c) : isBlank c = false := by
    simp only [isInitial, isPlain, Bool.and_eq_true, Bool.not_eq_true'] at hc
    exact hc.1.1.1.1
  induction m with
  | nil =>
    rw [List.nil_append, read_blank, read_initial hd] at h
    exact hfirst (hblank hd) h
  | cons c m ih =>
    rw [List.mem_cons, not_or] at hq
    change (if isBlank c then read .between ws (m ++ 32 :: d :: cs) else if c = quote then
      read (.quoted []) ws (m ++ 32 :: d :: cs) else if c = 60 then
        readHere ws (m ++ 32 :: d :: cs) else if isInitial c then
          read (.word [c]) ws (m ++ 32 :: d :: cs) else none) = some r at h
    rw [if_neg (Ne.symm hq.1)] at h
    split_ifs at h with hb hlt hc
    · exact ih hq.2 h
    · exact absurd h (readHere_ne_some hq.2 ws _ r)
    · exact hfirst (hblank hc) h

/-- A word without quotes in it is read as `v`, of which it is the beginning: then it is `v`, and means
itself. -/
theorem plain_of_read {m v : Line} {k : ℕ} {ws : List Line} {d : UInt8} {cs : Line} {r : Command}
    (hk : 0 < k) (hm : m = v.take k) (hq : quote ∉ m) (hd : isInitial d)
    (h : read .between ws (m ++ 32 :: d :: cs) = some r) (hv : ws ++ [v] <+: r.words) :
    m = v ∧ PlainWord m := by
  obtain ⟨c, t, rfl, hb⟩ := read_between_head hq hd h hv
  obtain ⟨k, rfl⟩ := Nat.exists_eq_succ_of_ne_zero hk.ne'
  rw [List.take_succ_cons] at hm
  subst hm
  rw [List.mem_cons, not_or] at hq
  change (if isBlank c then _ else if c = quote then _ else if c = 60 then
    readHere ws (t.take k ++ 32 :: d :: cs) else if isInitial c then
      read (.word [c]) ws (t.take k ++ 32 :: d :: cs) else none) = some r at h
  rw [if_neg (by rw [hb]; decide), if_neg (Ne.symm hq.1)] at h
  split_ifs at h with hlt hc
  · exact absurd h (readHere_ne_some hq.2 ws _ r)
  · rcases read_word_cases hq.2 h with ⟨hplain, hr⟩ | ⟨v, hlen, hr⟩
    · exact ⟨(snoc_inj_of_begins hv (read_words hr).1).symm, hc, hplain⟩
    · -- the word that was read is too short
      obtain rfl : t = v := (List.cons.inj (snoc_inj_of_begins hv hr)).2
      exact absurd hlen (by simp)

/-! ### Here-documents -/

/-- The lines of a text. -/
def lines : Line → List Line
  | [] => [[]]
  | c :: cs => if c = newline then [] :: lines cs else
    match lines cs with
    | l :: ls => (c :: l) :: ls
    | [] => [[c]]

theorem lines_ne_nil (cs : Line) : lines cs ≠ [] := by
  cases cs with
  | nil => exact List.cons_ne_nil _ _
  | cons c cs =>
    unfold lines
    split
    · exact List.cons_ne_nil _ _
    · split <;> exact List.cons_ne_nil _ _

/-- A here-document and its delimiter fit in the text they are read from. -/
theorem hereDoc_length {delim line acc text doc rest : Line}
    (h : hereDoc delim line acc text = some (doc, rest)) :
    doc.length+delim.length ≤ acc.length+line.length+text.length := by
  fun_induction hereDoc delim line acc text with
  | case1 acc => cases h; simp
  | case2 => cases h
  | case3 acc cs => cases h; simp
  | case4 line acc cs hne ih =>
    have hle := ih h
    simp only [List.length_append, List.length_cons, List.length_nil] at hle ⊢
    omega
  | case5 line acc c cs hc ih =>
    have hle := ih h
    simp only [List.length_append, List.length_cons, List.length_nil] at hle ⊢
    omega

theorem hereDoc_newline (delim line acc cs : Line) : hereDoc delim line acc (newline :: cs) =
    if line = delim then some (acc, cs) else hereDoc delim [] (acc ++ line ++ [newline]) cs :=
  if_pos rfl

theorem hereDoc_byte {c : UInt8} (hc : c ≠ newline) (delim line acc cs : Line) :
    hereDoc delim line acc (c :: cs) = hereDoc delim (line ++ [c]) acc cs :=
  if_neg hc

/-- The last line. -/
theorem hereDoc_last {m : Line} (hn : newline ∉ m) (delim line acc : Line) :
    hereDoc delim line acc m = if line ++ m = delim then some (acc, []) else none := by
  induction m generalizing line with
  | nil => rw [List.append_nil]; rfl
  | cons c m ih =>
    rw [List.mem_cons, not_or] at hn
    rw [hereDoc_byte (Ne.symm hn.1), ih hn.2, List.append_assoc, List.singleton_append]

/-- A text in front of a delimiter is the whole here-document exactly if it has no line that is the
delimiter. -/
theorem hereDoc_eq_iff {delim : Line} (hn : newline ∉ delim) (hne : delim ≠ [])
    (body line acc : Line) :
    hereDoc delim line acc (body ++ newline :: delim) =
        some (acc ++ line ++ body ++ [newline], []) ↔
      ∀ l ls, lines body = l :: ls → line ++ l ≠ delim ∧ delim ∉ ls := by
  induction body generalizing line acc with
  | nil =>
    have hlines : (∀ l ls, lines [] = l :: ls → line ++ l ≠ delim ∧ delim ∉ ls) ↔ line ≠ delim := by
      constructor
      · intro h
        have hl := (h [] [] rfl).1
        rwa [List.append_nil] at hl
      · rintro h l ls hls
        cases hls
        rw [List.append_nil]
        exact ⟨h, List.not_mem_nil⟩
    rw [hlines, List.nil_append, hereDoc_newline]
    split_ifs with hl
    · -- the delimiter stands before the one that is meant
      constructor
      · intro h
        rw [Option.some.injEq, Prod.mk.injEq] at h
        exact absurd h.2 hne
      · intro h
        exact absurd hl h
    · rw [hereDoc_last hn, List.nil_append, if_pos rfl, List.append_nil]
      exact iff_of_true rfl hl
  | cons c body ih =>
    by_cases hc : c = newline
    · subst hc
      have hcons : lines (newline :: body) = [] :: lines body := if_pos rfl
      rw [List.cons_append, hereDoc_newline, hcons]
      obtain ⟨l, ls, hls⟩ := List.exists_cons_of_ne_nil (lines_ne_nil body)
      split_ifs with hl
      · constructor
        · intro h
          rw [Option.some.injEq, Prod.mk.injEq] at h
          have hlen := congrArg List.length h.2
          simp at hlen
        · intro h
          have := (h [] (lines body) rfl).1
          rw [List.append_nil] at this
          exact absurd hl this
      · have hacc : acc ++ line ++ newline :: body ++ [newline] =
            acc ++ line ++ [newline] ++ [] ++ body ++ [newline] := by simp
        rw [hacc, ih, hls]
        constructor
        · intro h l' ls' heq
          cases heq
          obtain ⟨h1, h2⟩ := h l ls rfl
          rw [List.append_nil, List.mem_cons, not_or]
          exact ⟨hl, Ne.symm h1, h2⟩
        · intro h l' ls' heq
          cases heq
          have h2 := (h [] (l :: ls) rfl).2
          rw [List.mem_cons, not_or] at h2
          exact ⟨Ne.symm h2.1, h2.2⟩
    · obtain ⟨l, ls, hls⟩ := List.exists_cons_of_ne_nil (lines_ne_nil body)
      have hcons : lines (c :: body) = (c :: l) :: ls := by
        unfold lines
        rw [if_neg hc, hls]
      have hacc : acc ++ line ++ c :: body ++ [newline] =
          acc ++ (line ++ [c]) ++ body ++ [newline] := by simp
      rw [List.cons_append, hereDoc_byte hc, hacc, ih, hcons, hls]
      constructor
      · intro h l' ls' heq
        cases heq
        have := h l ls rfl
        rwa [List.append_assoc, List.singleton_append] at this
      · intro h l' ls' heq
        cases heq
        rw [List.append_assoc, List.singleton_append]
        exact h (c :: l) ls rfl

/-- If the text is cut, then it is no here-document any more. -/
theorem hereDoc_take_iff {delim : Line} (hn : newline ∉ delim) (hne : delim ≠ []) (body : Line)
    (k : ℕ) : hereDoc delim [] [] ((body ++ newline :: delim).take k) =
        some (body ++ [newline], []) ↔
      delim ∉ lines body ∧ (body ++ newline :: delim).length ≤ k := by
  have hiff := hereDoc_eq_iff hn hne body [] []
  rw [List.nil_append, List.nil_append] at hiff
  by_cases hk : (body ++ newline :: delim).length ≤ k
  · rw [List.take_of_length_le hk, hiff, and_iff_left hk]
    constructor
    · intro h
      obtain ⟨l, ls, hls⟩ := List.exists_cons_of_ne_nil (lines_ne_nil body)
      obtain ⟨h1, h2⟩ := h l ls hls
      rw [hls, List.mem_cons, not_or]
      exact ⟨Ne.symm h1, h2⟩
    · intro h l ls hls
      rw [hls, List.mem_cons, not_or] at h
      exact ⟨Ne.symm h.1, h.2⟩
  · refine iff_of_false ?_ (fun h => hk h.2)
    intro h
    have hle := hereDoc_length h
    rw [List.length_take] at hle
    simp only [List.length_append, List.length_cons, List.length_nil] at hle hk
    omega

/-- A word, and a here-document with its delimiter in quotes. -/
theorem read_hereDoc {delim : Line} (hd : quote ∉ delim) (w text : Line) (ws : List Line)
    (doc : Line) : read (.word w) ws
        (32 :: 60 :: 60 :: quote :: delim ++ quote :: newline :: text) = some ⟨ws ++ [w], some doc⟩ ↔
      hereDoc delim [] [] text = some (doc, []) := by
  have hstep : read (.word w) ws (32 :: 60 :: 60 :: quote :: delim ++ quote :: newline :: text) =
      readHere (ws ++ [w]) (60 :: quote :: (delim ++ quote :: newline :: text)) := rfl
  have hall : ∀ c ∈ delim, decide (c ≠ quote) = true := by
    intro c hc
    apply decide_eq_true
    rintro rfl
    exact hd hc
  have hdrop : (delim ++ quote :: newline :: text).dropWhile (· ≠ quote) =
      quote :: newline :: text := by
    rw [List.dropWhile_append_of_pos hall]
    rfl
  have htake : (delim ++ quote :: newline :: text).takeWhile (· ≠ quote) = delim := by
    rw [List.takeWhile_append_of_pos hall]
    exact List.append_nil _
  rw [hstep]
  unfold readHere
  simp only [quote, newline] at hdrop htake ⊢
  rw [hdrop, htake]
  split
  · rename_i text' htext
    obtain rfl : text = text' := (List.cons.inj (List.cons.inj htext).2).2
    split
    · rename_i doc' h
      rw [h]
      simp
    · rename_i h
      exact iff_of_false (fun hnone => by cases hnone) (h doc)
  · rename_i h
    exact absurd rfl (h text)

end Shell
