import Slemu.Debugger
import Slemu.Fixtures

/-! What a client sends in the form that the head of dbg.c documents is read back as it is
meant. -/

namespace Slemu

/-! ### Sending -/

/-- A text between quotes: a backslash stands before quotes and backslashes. -/
def escaped (s : Bytes) : Bytes := s.flatMap fun c => if c = 34 ∨ c = 92 then [92, c] else [c]

def strMember (key : String) (v : Bytes) : Bytes :=
  34 :: lit key ++ [34, 58, 34] ++ (escaped v ++ [34])

def intMember (key : String) (i : ℤ) : Bytes := 34 :: lit key ++ [34, 58] ++ decBytes i

/-- An object with a command and what goes with it. -/
def request (cmd : String) (members : List Bytes) : Bytes :=
  123 :: strMember "cmd" (lit cmd) ++ members.flatMap (44 :: ·) ++ [125]

namespace DbgCommand

/-- A command as the protocol has it. -/
def text : DbgCommand → Bytes
  | .none | .unknown => []
  | .continue_ => request "continue" []
  | .step => request "step" []
  | .quit => request "quit" []
  | .break_ file line =>
    request "break" ((if file = [] then [] else [strMember "file" file]) ++ [intMember "line" line])
  | .clear id => request "clear" [intMember "id" id]
  | .breakpoints => request "breakpoints" []
  | .catch_ kind => request "catch" [strMember "kind" kind]
  | .uncatch id => request "uncatch" [intMember "id" id]
  | .print name => request "print" [strMember "name" name]
  | .locals => request "locals" []
  | .globals => request "globals" []
  | .backtrace => request "backtrace" []
  | .snapshot => request "snapshot" []

/-- A text that fits a buffer and a line. -/
structure Fits (outlen : ℕ) (s : Bytes) : Prop where
  room : s.length < outlen
  nul : 0 ∉ s
  newline : 10 ∉ s

/-- What the protocol can say. -/
def Sendable : DbgCommand → Prop
  | .none | .unknown => False
  | .break_ file line => Fits 256 file ∧ -2^31 ≤ line ∧ line < 2^31
  | .clear id | .uncatch id => -2^31 ≤ id ∧ id < 2^31
  | .catch_ kind => Fits 64 kind
  | .print name => Fits 128 name
  | _ => True

end DbgCommand

/-! ### Finding a pattern -/

/-- A pattern begins nowhere in a text, whatever follows it. -/
def Skips (pat pre : Bytes) : Prop :=
  ∀ v ∈ pre.tails, v ≠ [] → ¬ v <+: pat ∧ ¬ pat <+: v

instance (pat pre : Bytes) : Decidable (Skips pat pre) :=
  inferInstanceAs (Decidable (∀ v ∈ pre.tails, v ≠ [] → ¬ v <+: pat ∧ ¬ pat <+: v))

variable {pat : Bytes}

theorem afterPat_cons {c : UInt8} {t : Bytes} (h : ¬ pat <+: c :: t) :
    afterPat pat (c :: t) = afterPat pat t := by
  rw [afterPat, if_neg (fun hp => h (List.isPrefixOf_iff_prefix.mp hp))]

theorem afterPat_skip {pre : Bytes} (h : Skips pat pre) (t : Bytes) :
    afterPat pat (pre ++ t) = afterPat pat t := by
  induction pre with
  | nil => rfl
  | cons c pre ih =>
    have hhere := h (c :: pre) (by simp) (List.cons_ne_nil c pre)
    have hrest : Skips pat pre := fun v hv => h v (by
      rw [List.tails_cons]
      exact List.mem_cons_of_mem _ hv)
    rw [List.cons_append, afterPat_cons, ih hrest]
    intro hp
    -- it would begin in the text and end in it or after it
    rcases List.prefix_or_prefix_of_prefix hp (List.prefix_append (c :: pre) t) with hp | hp
    · exact hhere.2 hp
    · exact hhere.1 hp

theorem afterPat_here (hne : pat ≠ []) (t : Bytes) : afterPat pat (pat ++ t) = some t := by
  obtain ⟨c, p, rfl⟩ := List.exists_cons_of_ne_nil hne
  have hp : (c :: p).isPrefixOf (c :: (p ++ t)) = true :=
    List.isPrefixOf_iff_prefix.mpr (List.prefix_append (c :: p) t)
  rw [List.cons_append, afterPat, if_pos hp, ← List.cons_append, List.drop_left]

theorem afterPat_none {c : UInt8} {p t : Bytes} (h : c ∉ t) : afterPat (c :: p) t = none := by
  induction t with
  | nil => rfl
  | cons d t ih =>
    obtain ⟨hcd, ht⟩ := not_or.mp (fun hm => h (List.mem_cons.mpr hm))
    rw [afterPat_cons, ih ht]
    rintro ⟨u, hu⟩
    exact hcd (List.cons.inj hu).1

theorem escaped_cons (c : UInt8) (s : Bytes) :
    escaped (c :: s) = (if c = 34 ∨ c = 92 then [92, c] else [c]) ++ escaped s := rfl

/-- No quote of an escaped text ends a key. -/
theorem not_key_prefix {key more s t : Bytes} (hkey : ∀ c ∈ key, c ≠ 34 ∧ c ≠ 92) :
    ¬ key ++ 34 :: 58 :: more <+: escaped s ++ 34 :: 44 :: t := by
  induction s generalizing key with
  | nil =>
    cases key with
    | nil => simp [escaped]
    | cons k key =>
      have hk := (hkey k List.mem_cons_self).1
      rintro ⟨u, hu⟩
      exact hk (List.cons.inj hu).1
  | cons c s ih =>
    rw [escaped_cons]
    by_cases hc : c = 34 ∨ c = 92
    · rw [if_pos hc]
      cases key with
      | nil => simp
      | cons k key =>
        have hk := (hkey k List.mem_cons_self).2
        rintro ⟨u, hu⟩
        exact hk (List.cons.inj hu).1
    · rw [if_neg hc]
      obtain ⟨hquote, -⟩ := not_or.mp hc
      cases key with
      | nil =>
        rintro ⟨u, hu⟩
        exact hquote (List.cons.inj hu).1.symm
      | cons k key =>
        rintro ⟨u, hu⟩
        exact ih (fun d hd => hkey d (List.mem_cons_of_mem k hd)) ⟨u, (List.cons.inj hu).2⟩

/-- A key is not found in a text between quotes. -/
theorem afterPat_escaped {key more : Bytes} (hkey : ∀ c ∈ key, c ≠ 34 ∧ c ≠ 92 ∧ c ≠ 44)
    (s t : Bytes) :
    afterPat (34 :: (key ++ 34 :: 58 :: more)) (escaped s ++ 34 :: 44 :: t) =
      afterPat (34 :: (key ++ 34 :: 58 :: more)) t := by
  have hskip {c : UInt8} (hc : c ≠ 34) (u : Bytes) :
      afterPat (34 :: (key ++ 34 :: 58 :: more)) (c :: u) =
        afterPat (34 :: (key ++ 34 :: 58 :: more)) u :=
    afterPat_cons fun ⟨v, hv⟩ => hc (List.cons.inj hv).1.symm
  induction s with
  | nil =>
    have hend : ¬ 34 :: (key ++ 34 :: 58 :: more) <+: 34 :: 44 :: t := by
      rintro ⟨u, hu⟩
      cases key with
      | nil => cases hu
      | cons k key =>
        exact (hkey k List.mem_cons_self).2.2 (List.cons.inj (List.cons.inj hu).2).1
    calc afterPat (34 :: (key ++ 34 :: 58 :: more)) (34 :: 44 :: t)
        = afterPat (34 :: (key ++ 34 :: 58 :: more)) (44 :: t) := afterPat_cons hend
      _ = _ := hskip (by decide) t
  | cons c s ih =>
    rw [escaped_cons]
    by_cases hc : c = 34 ∨ c = 92
    · rw [if_pos hc]
      have hbehind : ¬ 34 :: (key ++ 34 :: 58 :: more) <+: c :: (escaped s ++ 34 :: 44 :: t) := by
        rintro ⟨u, hu⟩
        exact not_key_prefix (fun d hd => ⟨(hkey d hd).1, (hkey d hd).2.1⟩)
          ⟨u, (List.cons.inj hu).2⟩
      calc afterPat _ ([92, c] ++ escaped s ++ 34 :: 44 :: t)
          = afterPat _ (c :: (escaped s ++ 34 :: 44 :: t)) := hskip (by decide) _
        _ = afterPat _ (escaped s ++ 34 :: 44 :: t) := afterPat_cons hbehind
        _ = _ := ih
    · rw [if_neg hc]
      exact (hskip (fun h => hc (.inl h)) _).trans ih

theorem afterPat_quoted (key more : Bytes) (hkey : ∀ c ∈ key, c ≠ 34 ∧ c ≠ 92 ∧ c ≠ 44)
    (s t : Bytes) :
    afterPat (34 :: (key ++ 34 :: 58 :: more)) (34 :: (escaped s ++ 34 :: 44 :: t)) =
      afterPat (34 :: (key ++ 34 :: 58 :: more)) t := by
  rw [afterPat_cons, afterPat_escaped hkey]
  rintro ⟨u, hu⟩
  exact not_key_prefix (fun c hc => ⟨(hkey c hc).1, (hkey c hc).2.1⟩) ⟨u, (List.cons.inj hu).2⟩

/-! ### Reading a member -/

theorem jCopy_escaped (n : ℕ) (s t : Bytes) : jCopy n (escaped s ++ 34 :: t) = s.take n := by
  induction s generalizing n with
  | nil => cases n <;> rfl
  | cons c s ih =>
    cases n with
    | zero => rfl
    | succ n =>
      rw [escaped_cons, List.take_succ_cons, ← ih n]
      by_cases hc : c = 34 ∨ c = 92
      · rw [if_pos hc]
        rfl
      · obtain ⟨hquote, hslash⟩ := not_or.mp hc
        rw [if_neg hc]
        exact (if_neg hquote).trans (if_neg hslash)

/-- A number is read up to what is no digit. -/
theorem strtoll_append {i : ℤ} (h1 : llongMin ≤ i) (h2 : i ≤ llongMax) {c : UInt8}
    (hc : ¬ digitVal c < 10) (rest : Bytes) :
    strtoll 10 ((decBytes i ++ c :: rest).dropWhile (· = 32)) = i := by
  obtain ⟨d, cs, hd, hspace⟩ := decBytes_head i
  have hd32 : ¬ d = 32 := by
    rintro rfl
    cases hspace
  have htake (x : Bytes) : (x ++ c :: rest).takeWhile (fun c => digitVal c < 10) =
      x.takeWhile fun c => digitVal c < 10 := by
    induction x with
    | nil => exact List.takeWhile_cons_of_neg (by simpa using hc)
    | cons e x ih => simp only [List.cons_append, List.takeWhile_cons, ih]
  have hdrop : (decBytes i ++ c :: rest).dropWhile (· = 32) = decBytes i ++ c :: rest := by
    rw [hd]
    exact List.dropWhile_cons_of_neg (by simpa using hd32)
  have hsp (x : Bytes) : (d :: x).dropWhile isSpace = d :: x :=
    List.dropWhile_cons_of_neg (by simp [hspace])
  calc strtoll 10 ((decBytes i ++ c :: rest).dropWhile (· = 32))
      = strtoll 10 (decBytes i ++ c :: rest) := by rw [hdrop]
    _ = strtoll 10 (decBytes i) := by
        unfold strtoll
        rw [hd, List.cons_append, hsp, hsp, ← List.cons_append, scanSign_append]
        simp only [scanBase, htake]
    _ = i := strtoll_decBytes i h1 h2

/-- What is read of a text, behind what the key is not in. -/
theorem jGetStr_member {key : String} {pre : Bytes} {n : ℕ} {v t : Bytes}
    (h : Skips (34 :: lit key ++ [34, 58, 34]) pre) (hv : v.length < n) :
    jGetStr (pre ++ (strMember key v ++ t)) (lit key) n = some v := by
  have hfound : afterPat (34 :: lit key ++ [34, 58, 34]) (pre ++ (strMember key v ++ t)) =
      some (escaped v ++ 34 :: t) := by
    rw [afterPat_skip h, strMember, List.append_assoc, afterPat_here (by simp), List.append_assoc]
    rfl
  have hlen : v.length ≤ n-1 := by omega
  rw [jGetStr, hfound, Option.map_some, jCopy_escaped, List.take_of_length_le hlen]

/-- What is read of a number. -/
theorem jGetInt_found {key : String} {i : ℤ} (h1 : -2^31 ≤ i) (h2 : i < 2^31) {line : Bytes}
    {c : UInt8} {t : Bytes} (hc : ¬ digitVal c < 10)
    (h : afterPat (34 :: lit key ++ [34, 58]) line =
      afterPat (34 :: lit key ++ [34, 58]) (intMember key i ++ c :: t)) :
    toCInt ((jGetInt line (lit key)).getD 0) = i := by
  have hfound : afterPat (34 :: lit key ++ [34, 58]) line = some (decBytes i ++ c :: t) := by
    rw [h, intMember, List.append_assoc, afterPat_here (by simp)]
  rw [jGetInt, hfound, Option.map_some, Option.getD_some,
    strtoll_append (by unfold llongMin; omega) (by unfold llongMax; omega) hc, toCInt_eq h1 h2]

/-! ### Reading a command -/

/-- What stands before the first member. -/
def opening (cmd : String) : Bytes := 123 :: strMember "cmd" (lit cmd)

theorem request_append (cmd : String) (members : List Bytes) (t : Bytes) :
    request cmd members ++ t = opening cmd ++ (members.flatMap (44 :: ·) ++ 125 :: t) := by
  simp [request, opening]

theorem request_cmd {cmd : String} (hlen : (lit cmd).length < 64) (members : List Bytes)
    (t : Bytes) : jGetStr (request cmd members ++ t) (lit "cmd") 64 = some (lit cmd) := by
  have hsplit : request cmd members ++ t =
      [123] ++ (strMember "cmd" (lit cmd) ++ (members.flatMap (44 :: ·) ++ 125 :: t)) :=
    request_append cmd members t
  rw [hsplit]
  exact jGetStr_member (by decide +kernel) hlen

theorem request_str (cmd key : String) {n : ℕ} {v : Bytes} (hv : v.length < n)
    (h : Skips (34 :: lit key ++ [34, 58, 34]) (opening cmd ++ [44])) (members : List Bytes)
    (t : Bytes) :
    (jGetStr (request cmd (strMember key v :: members) ++ t) (lit key) n).getD [] = v := by
  have hsplit : request cmd (strMember key v :: members) ++ t =
      opening cmd ++ [44] ++ (strMember key v ++ (members.flatMap (44 :: ·) ++ 125 :: t)) := by
    rw [request_append, List.flatMap_cons]
    simp
  rw [hsplit, jGetStr_member h hv]
  rfl

theorem request_int (cmd key : String) {i : ℤ} (h1 : -2^31 ≤ i) (h2 : i < 2^31)
    (h : Skips (34 :: lit key ++ [34, 58]) (opening cmd ++ [44])) (t : Bytes) :
    toCInt ((jGetInt (request cmd [intMember key i] ++ t) (lit key)).getD 0) = i := by
  have hsplit : request cmd [intMember key i] ++ t =
      opening cmd ++ [44] ++ (intMember key i ++ 125 :: t) := by
    rw [request_append]
    simp
  refine jGetInt_found (c := 125) (t := t) h1 h2 (by decide) ?_
  rw [hsplit, afterPat_skip h]

/-- The line of a breakpoint is found behind its file. -/
theorem request_line {file : Bytes} {line : ℤ} (h1 : -2^31 ≤ line) (h2 : line < 2^31) (t : Bytes) :
    toCInt ((jGetInt (request "break" [strMember "file" file, intMember "line" line] ++ t)
      (lit "line")).getD 0) = line := by
  have hsplit : request "break" [strMember "file" file, intMember "line" line] ++ t =
      (opening "break" ++ [44] ++ (34 :: lit "file" ++ [34, 58])) ++
        34 :: (escaped file ++ 34 :: 44 :: (intMember "line" line ++ 125 :: t)) := by
    rw [request_append]
    simp [strMember]
  refine jGetInt_found (c := 125) (t := t) h1 h2 (by decide) ?_
  rw [hsplit, afterPat_skip (by decide +kernel)]
  exact afterPat_quoted (lit "line") [] (by decide +kernel) file _

theorem not_mem_decBytes {c : UInt8} (h : isDigit c = false) (hc : c ≠ 45) (i : ℤ) :
    c ∉ decBytes i := by
  have hdigits : c ∉ digits i.natAbs := fun hm => by
    rw [isDigit_digits _ c hm] at h
    cases h
  have hdec : decBytes i = if i < 0 then 45 :: digits i.natAbs else digits i.natAbs := rfl
  rw [hdec]
  split
  · exact fun hm => (List.mem_cons.mp hm).elim hc hdigits
  · exact hdigits

/-- There is no file where none is sent. -/
theorem request_no_file {line : ℤ} :
    (jGetStr (request "break" [intMember "line" line] ++ [10]) (lit "file") 256).getD [] = [] := by
  have hsplit : request "break" [intMember "line" line] ++ [10] =
      (opening "break" ++ [44] ++ (34 :: lit "line" ++ [34, 58])) ++
        (decBytes line ++ [125, 10]) := by
    rw [request_append]
    simp [intMember]
  have hquote : (34 : UInt8) ∉ decBytes line ++ [125, 10] := by
    intro hm
    rcases List.mem_append.mp hm with hm | hm
    · exact not_mem_decBytes rfl (by decide) line hm
    · exact absurd hm (by decide)
  have hnone : afterPat (34 :: (lit "file" ++ [34, 58, 34])) (decBytes line ++ [125, 10]) = none :=
    afterPat_none hquote
  have hpat : afterPat (34 :: lit "file" ++ [34, 58, 34]) (decBytes line ++ [125, 10]) = none :=
    hnone
  rw [jGetStr, hsplit, afterPat_skip (by decide +kernel), hpat]
  rfl

namespace DbgCommand

theorem dbgCommand_text (c : DbgCommand) (h : c.Sendable)
    (hcl : cstr (c.text ++ [10]) = c.text ++ [10]) : dbgCommand (c.text ++ [10]) = c := by
  cases c with
  | none => exact h.elim
  | unknown => exact h.elim
  | continue_ => rw [dbgCommand, hcl, text, request_cmd (by decide +kernel)]; rfl
  | step => rw [dbgCommand, hcl, text, request_cmd (by decide +kernel)]; rfl
  | quit => rw [dbgCommand, hcl, text, request_cmd (by decide +kernel)]; rfl
  | break_ file line =>
    obtain ⟨hfit, h1, h2⟩ := h
    by_cases hfile : file = []
    · subst hfile
      have hline := request_int "break" "line" h1 h2 (by decide +kernel) [10]
      rw [dbgCommand, hcl, text, if_pos rfl, List.nil_append, request_cmd (by decide +kernel)]
      exact congrArg₂ break_ request_no_file hline
    · have hread := request_str "break" "file" hfit.room (by decide +kernel)
        [intMember "line" line] [10]
      rw [dbgCommand, hcl, text, if_neg hfile, List.singleton_append,
        request_cmd (by decide +kernel)]
      exact congrArg₂ break_ hread (request_line h1 h2 [10])
  | clear id =>
    have hid := request_int "clear" "id" h.1 h.2 (by decide +kernel) [10]
    rw [dbgCommand, hcl, text, request_cmd (by decide +kernel)]
    exact congrArg clear hid
  | breakpoints => rw [dbgCommand, hcl, text, request_cmd (by decide +kernel)]; rfl
  | catch_ kind =>
    have hid := request_str "catch" "kind" h.room (by decide +kernel) [] [10]
    rw [dbgCommand, hcl, text, request_cmd (by decide +kernel)]
    exact congrArg catch_ hid
  | uncatch id =>
    have hid := request_int "uncatch" "id" h.1 h.2 (by decide +kernel) [10]
    rw [dbgCommand, hcl, text, request_cmd (by decide +kernel)]
    exact congrArg uncatch hid
  | print name =>
    have hid := request_str "print" "name" h.room (by decide +kernel) [] [10]
    rw [dbgCommand, hcl, text, request_cmd (by decide +kernel)]
    exact congrArg print hid
  | locals => rw [dbgCommand, hcl, text, request_cmd (by decide +kernel)]; rfl
  | globals => rw [dbgCommand, hcl, text, request_cmd (by decide +kernel)]; rfl
  | backtrace => rw [dbgCommand, hcl, text, request_cmd (by decide +kernel)]; rfl
  | snapshot => rw [dbgCommand, hcl, text, request_cmd (by decide +kernel)]; rfl

/-! ### Reading all of them -/

/-- A text without NUL and newline. -/
def Plain (b : Bytes) : Prop := ∀ c ∈ b, c ≠ 0 ∧ c ≠ 10

instance (b : Bytes) : Decidable (Plain b) :=
  inferInstanceAs (Decidable (∀ c ∈ b, c ≠ 0 ∧ c ≠ 10))

theorem Plain.append {x y : Bytes} (hx : Plain x) (hy : Plain y) : Plain (x ++ y) :=
  List.forall_mem_append.mpr ⟨hx, hy⟩

theorem Fits.plain {n : ℕ} {s : Bytes} (h : Fits n s) : Plain s := by
  intro c hc
  refine ⟨?_, ?_⟩
  · rintro rfl
    exact h.nul hc
  · rintro rfl
    exact h.newline hc

theorem escaped_plain {s : Bytes} (h : Plain s) : Plain (escaped s) := by
  intro c hc
  obtain ⟨d, hd, hcd⟩ := List.mem_flatMap.mp hc
  split at hcd
  · rcases List.mem_cons.mp hcd with rfl | hcd
    · exact ⟨by decide, by decide⟩
    · rw [List.mem_singleton.mp hcd]
      exact h d hd
  · rw [List.mem_singleton.mp hcd]
    exact h d hd

theorem strMember_plain {key : String} (hkey : Plain (34 :: lit key ++ [34, 58, 34])) {v : Bytes}
    (hv : Plain v) : Plain (strMember key v) :=
  hkey.append ((escaped_plain hv).append
    (List.forall_mem_singleton.mpr ⟨by decide, by decide⟩))

theorem intMember_plain {key : String} (hkey : Plain (34 :: lit key ++ [34, 58])) (i : ℤ) :
    Plain (intMember key i) :=
  hkey.append fun c hc => ⟨(decBytes_clean i c hc).1, (decBytes_clean i c hc).2.2⟩

theorem request_plain {cmd : String} (hcmd : Plain (opening cmd)) {members : List Bytes}
    (h : ∀ m ∈ members, Plain m) : Plain (request cmd members) := by
  refine (Plain.append hcmd ?_).append
    (List.forall_mem_singleton.mpr ⟨by decide, by decide⟩)
  intro c hc
  obtain ⟨m, hm, hcm⟩ := List.mem_flatMap.mp hc
  rcases List.mem_cons.mp hcm with rfl | hcm
  · exact ⟨by decide, by decide⟩
  · exact h m hm c hcm

theorem text_plain {c : DbgCommand} (h : c.Sendable) : Plain c.text := by
  have hbare {cmd : String} (hcmd : Plain (opening cmd)) : Plain (request cmd []) :=
    request_plain hcmd (List.forall_mem_nil _)
  have hone {cmd : String} (hcmd : Plain (opening cmd)) {m : Bytes} (hm : Plain m) :
      Plain (request cmd [m]) := request_plain hcmd (List.forall_mem_singleton.mpr hm)
  cases c with
  | none => exact h.elim
  | unknown => exact h.elim
  | break_ file line =>
    have hint : Plain (intMember "line" line) := intMember_plain (by decide +kernel) line
    refine request_plain (by decide +kernel) (List.forall_mem_append.mpr ⟨?_, ?_⟩)
    · split
      · exact List.forall_mem_nil _
      · exact List.forall_mem_singleton.mpr (strMember_plain (by decide +kernel) h.1.plain)
    · exact List.forall_mem_singleton.mpr hint
  | clear id => exact hone (by decide +kernel) (intMember_plain (by decide +kernel) id)
  | uncatch id => exact hone (by decide +kernel) (intMember_plain (by decide +kernel) id)
  | catch_ kind => exact hone (by decide +kernel) (strMember_plain (by decide +kernel) h.plain)
  | print name => exact hone (by decide +kernel) (strMember_plain (by decide +kernel) h.plain)
  | _ => exact hbare (by decide +kernel)

theorem escaped_length (s : Bytes) : (escaped s).length ≤ 2*s.length := by
  induction s with
  | nil => exact le_rfl
  | cons c s ih =>
    rw [escaped_cons, List.length_append, List.length_cons]
    split
    · rw [List.length_cons, List.length_singleton]
      omega
    · rw [List.length_singleton]
      omega

theorem decBytes_length {i : ℤ} (h1 : -2^31 ≤ i) (h2 : i < 2^31) : (decBytes i).length ≤ 11 := by
  have hdigits : (digits i.natAbs).length ≤ 10 := by
    rw [digits, List.length_map]
    exact Nat.toDigits_length 10 _ 10 (by omega) (by omega)
  have hdec : decBytes i = if i < 0 then 45 :: digits i.natAbs else digits i.natAbs := rfl
  rw [hdec]
  split
  · rw [List.length_cons]
    omega
  · omega

/-- A command fits the buffer of `pause_loop`. -/
theorem text_length {c : DbgCommand} (h : c.Sendable) : c.text.length ≤ 8190 := by
  have hint (key : String) (hkey : (lit key).length ≤ 8) {i : ℤ} (h1 : -2^31 ≤ i) (h2 : i < 2^31) :
      (intMember key i).length ≤ 22 := by
    have hi := decBytes_length h1 h2
    simp only [intMember, List.cons_append, List.length_cons, List.length_append, List.length_nil]
    omega
  have hstr (key : String) (hkey : (lit key).length ≤ 8) {n : ℕ} {v : Bytes} (hv : v.length < n) :
      (strMember key v).length ≤ 2*n+13 := by
    have hi := escaped_length v
    simp only [strMember, List.cons_append, List.length_cons, List.length_append, List.length_nil]
    omega
  have hreq {cmd : String} (hcmd : (opening cmd).length ≤ 40) (members : List Bytes) {n : ℕ}
      (hm : (members.flatMap (44 :: ·)).length ≤ n) : (request cmd members).length ≤ n+41 := by
    rw [request, List.length_append, List.length_append, List.length_singleton]
    exact Nat.succ_le_succ (by rw [Nat.add_comm n]; exact Nat.add_le_add hcmd hm)
  have hone {cmd : String} (hcmd : (opening cmd).length ≤ 40) {m : Bytes} (hm : m.length ≤ 599) :
      (request cmd [m]).length ≤ 8190 := by
    refine (hreq (n := 600) hcmd _ ?_).trans (by omega)
    simp only [List.flatMap_singleton, List.length_cons]
    omega
  cases c with
  | none => exact h.elim
  | unknown => exact h.elim
  | break_ file line =>
    have hline := hint "line" (by decide +kernel) h.2.1 h.2.2
    have hfile := hstr "file" (by decide +kernel) h.1.room
    refine (hreq (n := 600) (by decide +kernel) _ ?_).trans (by omega)
    split
    · simp only [List.nil_append, List.flatMap_singleton, List.length_cons]
      omega
    · simp only [List.singleton_append, List.flatMap_cons, List.flatMap_nil, List.length_append,
        List.length_cons, List.length_nil]
      omega
  | clear id =>
    exact hone (by decide +kernel) ((hint "id" (by decide +kernel) h.1 h.2).trans (by omega))
  | uncatch id =>
    exact hone (by decide +kernel) ((hint "id" (by decide +kernel) h.1 h.2).trans (by omega))
  | catch_ kind =>
    exact hone (by decide +kernel) ((hstr "kind" (by decide +kernel) h.room).trans (by omega))
  | print name =>
    exact hone (by decide +kernel) ((hstr "name" (by decide +kernel) h.room).trans (by omega))
  | _ => exact (hreq (n := 0) (by decide +kernel) [] le_rfl).trans (by omega)

theorem received {c : DbgCommand} (h : c.Sendable) : dbgCommand (c.text ++ [10]) = c := by
  apply dbgCommand_text c h
  apply cstr_of_nul_free
  intro hm
  rcases List.mem_append.mp hm with hm | hm
  · exact (text_plain h 0 hm).1 rfl
  · exact absurd hm (by decide)

theorem fgets_text {c : DbgCommand} (h : c.Sendable) (t : Bytes) :
    fgets 8191 (c.text ++ [10] ++ t) = (c.text ++ [10], t) := by
  have hlen := text_length h
  have hnl : 10 ∉ c.text := fun hm => (text_plain h 10 hm).2 rfl
  obtain ⟨k, hk⟩ := Nat.exists_eq_add_of_lt (Nat.lt_succ_of_le hlen)
  rw [List.append_assoc, fgets_prefix 8191 c.text _ hnl (by omega)]
  have hroom : 8191-c.text.length = k+1 := by omega
  rw [hroom]
  rfl

end DbgCommand

theorem fgetsLines_succ (n k : ℕ) {s : Bytes} (hs : s ≠ []) :
    fgetsLines n (k+1) s = (fgets n s).1 :: fgetsLines n k (fgets n s).2 := by
  obtain ⟨c, t, rfl⟩ := List.exists_cons_of_ne_nil hs
  rfl

theorem received_lines (cs : List DbgCommand) (h : ∀ c ∈ cs, c.Sendable) (k : ℕ)
    (hk : (cs.flatMap fun c => c.text ++ [10]).length ≤ k) :
    (fgetsLines 8191 k (cs.flatMap fun c => c.text ++ [10])).map dbgCommand = cs := by
  induction cs generalizing k with
  | nil => cases k <;> rfl
  | cons c cs ih =>
    obtain ⟨hc, hcs⟩ := List.forall_mem_cons.mp h
    rw [List.flatMap_cons] at hk ⊢
    have hlen : (c.text ++ [10]).length = c.text.length+1 := by simp
    rw [List.length_append, hlen] at hk
    -- one round reads one command
    obtain ⟨k, rfl⟩ := Nat.exists_eq_add_of_lt (by omega : 0 < k)
    rw [Nat.zero_add, fgetsLines_succ 8191 k (by simp), DbgCommand.fgets_text hc, List.map_cons,
      DbgCommand.received hc, ih hcs k (by omega)]

/-- What a client sends is read as the commands it means, in order: quotes and backslashes in the
texts do no harm. -/
theorem commands_received (cs : List DbgCommand) (h : ∀ c ∈ cs, c.Sendable) :
    let input := cs.flatMap fun c => c.text ++ [10]
    (fgetsLines 8191 input.length input).map dbgCommand = cs := received_lines cs h _ le_rfl

/-- A breakpoint in a file with a quote in its name, and a catchpoint. -/
theorem commands_received_break :
    let cs := [.break_ (lit "a\"b.lsl") 42, .catch_ (lit "money"), .continue_]
    let input := cs.flatMap fun c => c.text ++ [10]
    (fgetsLines 8191 input.length input).map dbgCommand = cs :=
  commands_received _ (List.forall_mem_cons.mpr
    ⟨⟨⟨by decide +kernel, by decide +kernel, by decide +kernel⟩, by decide, by decide⟩,
      List.forall_mem_cons.mpr
        ⟨⟨by decide +kernel, by decide +kernel, by decide +kernel⟩,
          List.forall_mem_singleton.mpr trivial⟩⟩)

end Slemu
