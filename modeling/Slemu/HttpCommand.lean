import Slemu.Shell
import Slemu.Decimal
import Slemu.Value

/-! The command line that `real_http_get` hands to the shell. -/

namespace Slemu
variable {F : Type} {file method mime url body : Bytes}

/-- `u.s` of a value: the union is read as a pointer, which is NULL in a void value, and no pointer at
all in a value that is no text. -/
def SValue.textField : SValue F → Option (Option Bytes)
  | .string s | .key s => some (some s)
  | .void => some none
  | _ => none

/-- HTTP_METHOD and HTTP_MIMETYPE of the parameter list, over what has been set so far. A key that is
no integer counts as 0, HTTP_METHOD. -/
def httpParams : List (SValue F) → Bytes → Bytes → Option (Bytes × Bytes)
  | k :: v :: params, method, mime =>
    let key : ℤ := match k with
      | .int i => i
      | _ => 0
    if key = 0 then do
      let s ← v.textField
      httpParams params (s.getD (lit "GET")) mime
    else if key = 1 then do
      let s ← v.textField
      httpParams params method (s.getD [])
    else httpParams params method mime
  | _, method, mime => some (method, mime)

/-- The method and the MIME type of a request. -/
def httpSettings (params : List (SValue F)) : Option (Bytes × Bytes) :=
  httpParams params (lit "GET") (lit "application/x-www-form-urlencoded")

/-- `respfile` -/
def respfile (pid : ℤ) (counter : ℕ) : Bytes :=
  (lit "/tmp/slemu_resp." ++ decBytes pid ++ lit "." ++ decBytes counter).take 127

/-- The requests that send their body. -/
def SendsBody (method body : Bytes) : Prop :=
  body ≠ [] ∧ (method = lit "POST" ∨ method = lit "PUT")

instance (method body : Bytes) : Decidable (SendsBody method body) :=
  inferInstanceAs (Decidable (_ ∧ _))

/-- What `snprintf` is to write into `cmd`, from the buffers of `real_http_get`. -/
def curlText (file method mime url body : Bytes) : Bytes :=
  if SendsBody method body then
    lit "curl -sS -o '" ++ file ++ lit "' -w '%\x7bhttp_code\x7d' -X " ++ method ++
      lit " -H 'Content-Type: " ++ mime ++ lit "' --data-binary @- '" ++ url ++
      lit "' <<'__SLEMU_BODY__'\n" ++ body ++ lit "\n__SLEMU_BODY__"
  else
    lit "curl -sS -o '" ++ file ++ lit "' -w '%\x7bhttp_code\x7d' -X " ++ method ++
      lit " -H 'Accept: " ++ mime ++ lit "' '" ++ url ++ lit "'"

/-- `cmd` of `real_http_get`, with its buffers: 16 bytes for the method, 64 for the MIME type and 8192
for the command. -/
def curlCommand (pid : ℤ) (counter : ℕ) (method mime url body : Bytes) : Bytes :=
  (curlText (respfile pid counter) (method.take 15) (mime.take 63) url body).take 8191

/-- The call of `real_http_get`. -/
def realHttpCommand (pid : ℤ) (counter : ℕ) (url : Bytes) (params : List (SValue F)) (body : Bytes) :
    Option Bytes := do
  let (method, mime) ← httpSettings params
  some (curlCommand pid counter method mime url body)

/-- The delimiter of the body. -/
def bodyEnd : Bytes := lit "__SLEMU_BODY__"

/-- What the header of a request is called. -/
def headerName (method body : Bytes) : Bytes :=
  if SendsBody method body then lit "Content-Type: " else lit "Accept: "

/-- The words behind the header. -/
def dataWords (method body : Bytes) : List Bytes :=
  if SendsBody method body then [lit "--data-binary", lit "@-"] else []

/-- The one call of curl that a request stands for. -/
def curlCall (file method mime url body : Bytes) : Shell.Command where
  words := [lit "curl", lit "-sS", lit "-o", file, lit "-w", lit "%\x7bhttp_code\x7d", lit "-X",
    method, lit "-H", headerName method body ++ mime] ++ dataWords method body ++ [url]
  input := if SendsBody method body then some (body ++ [10]) else none

/-- The requests that get to curl as they are. -/
def ReachesCurl (file method mime url body : Bytes) : Prop :=
  Shell.quote ∉ url ∧ Shell.quote ∉ mime ∧ Shell.PlainWord method ∧
    method.length ≤ 15 ∧ mime.length ≤ 63 ∧
    (SendsBody method body → bodyEnd ∉ Shell.lines body) ∧
    (curlText file method mime url body).length ≤ 8191

instance (w : Bytes) : Decidable (Shell.PlainWord w) := by
  cases w with
  | nil => exact isFalse nofun
  | cons c w => exact inferInstanceAs (Decidable (_ ∧ _))

instance : Decidable (ReachesCurl file method mime url body) :=
  inferInstanceAs (Decidable (_ ∧ _))

/-! ### The parts of the text -/

/-- The text up to the name of the header. -/
def curlFront (file method : Bytes) (cs : Bytes) : Bytes :=
  lit "curl" ++ 32 :: (lit "-sS" ++ 32 :: (lit "-o" ++ 32 :: (Shell.quote :: file ++
    Shell.quote :: 32 :: (lit "-w" ++ 32 :: (Shell.quote :: lit "%\x7bhttp_code\x7d" ++
    Shell.quote :: 32 :: (lit "-X" ++ 32 :: (method ++ 32 :: (lit "-H" ++ 32 :: cs))))))))

/-- The header and the words behind it, up to the URL. -/
def curlHeader (method mime body cs : Bytes) : Bytes :=
  Shell.quote :: (headerName method body ++ mime) ++ Shell.quote :: 32 ::
    ((if SendsBody method body then lit "--data-binary" ++ 32 :: (lit "@-" ++ [32]) else []) ++
      Shell.quote :: cs)

/-- What follows the URL: the here-document. -/
def curlTail (method body : Bytes) : Bytes :=
  if SendsBody method body then
    32 :: 60 :: 60 :: Shell.quote :: bodyEnd ++ Shell.quote :: 10 :: (body ++ 10 :: bodyEnd)
  else []

theorem curlText_eq (file method mime url body : Bytes) :
    curlText file method mime url body =
      curlFront file method (curlHeader method mime body
        (url ++ Shell.quote :: curlTail method body)) := by
  unfold curlText curlFront curlHeader curlTail headerName bodyEnd Shell.quote
  split_ifs <;> simp [lit]

theorem plain_lit : Shell.PlainWord (lit "curl") ∧ Shell.PlainWord (lit "-sS") ∧
    Shell.PlainWord (lit "-o") ∧ Shell.PlainWord (lit "-w") ∧ Shell.PlainWord (lit "-X") ∧
    Shell.PlainWord (lit "-H") ∧ Shell.PlainWord (lit "--data-binary") ∧
    Shell.PlainWord (lit "@-") := by decide +kernel

/-- The words up to the method. -/
def frontWords (file : Bytes) : List Bytes :=
  [lit "curl", lit "-sS", lit "-o", file, lit "-w", lit "%\x7bhttp_code\x7d", lit "-X"]

/-- The shell reads the words up to the method. -/
theorem read_front (hf : Shell.quote ∉ file) (method cs : Bytes) :
    Shell.read .between [] (curlFront file method cs) =
      Shell.read .between (frontWords file) (method ++ 32 :: (lit "-H" ++ 32 :: cs)) := by
  obtain ⟨hcurl, hs, ho, hw, hX, -⟩ := plain_lit
  have hcode : Shell.quote ∉ lit "%\x7bhttp_code\x7d" := by decide +kernel
  unfold curlFront
  rw [Shell.read_word hcurl, Shell.read_word hs, Shell.read_word ho, Shell.read_quotedWord hf,
    Shell.read_word hw, Shell.read_quotedWord hcode, Shell.read_word hX]
  rfl

/-- The shell reads the header and the words behind it, up to the URL. -/
theorem read_header {ws : List Bytes} (hm : Shell.quote ∉ mime) (method body cs : Bytes) :
    Shell.read .between ws (curlHeader method mime body cs) =
      Shell.read (.quoted []) (ws ++ [headerName method body ++ mime] ++ dataWords method body) cs := by
  obtain ⟨-, -, -, -, -, -, hdata, hin⟩ := plain_lit
  have hname : Shell.quote ∉ headerName method body := by
    unfold headerName
    split_ifs <;> decide +kernel
  have hheader : Shell.quote ∉ headerName method body ++ mime := by
    rw [List.mem_append, not_or]
    exact ⟨hname, hm⟩
  unfold curlHeader dataWords
  rw [Shell.read_quotedWord hheader]
  split_ifs
  · rw [List.append_assoc, List.cons_append, List.append_assoc, Shell.read_word hdata,
      List.singleton_append, Shell.read_word hin, List.append_assoc]
    rfl
  · rw [List.nil_append, List.append_nil]
    rfl

theorem respfile_length (pid : ℤ) (counter : ℕ) : (respfile pid counter).length ≤ 127 := by
  unfold respfile
  rw [List.length_take]
  omega

example : respfile 7 1 = lit "/tmp/slemu_resp.7.1" := by decide +kernel

/-- The file of the answer needs no more than its quotes. -/
theorem respfile_noQuote (pid : ℤ) (counter : ℕ) : Shell.quote ∉ respfile pid counter := by
  have hdec (i : ℤ) : Shell.quote ∉ decBytes i := by
    intro h
    have hdigits (h : Shell.quote ∈ digits i.natAbs) : False := by
      have hc := isDigit_digits _ _ h
      cases hc
    rw [decBytes_eq] at h
    split_ifs at h
    · rcases List.mem_cons.mp h with h | h
      · cases h
      · exact hdigits h
    · exact hdigits h
  have hdir : Shell.quote ∉ lit "/tmp/slemu_resp." := by decide +kernel
  have hdot : Shell.quote ∉ lit "." := by decide +kernel
  intro h
  have h := List.mem_of_mem_take h
  simp only [List.mem_append] at h
  rcases h with ((h | h) | h) | h
  · exact hdir h
  · exact hdec _ h
  · exact hdot h
  · exact hdec _ h

/-- Behind the URL's opening quote the text goes on with what is left. -/
theorem curlStart_append (file method mime body cs : Bytes) :
    curlFront file method (curlHeader method mime body cs) =
      curlFront file method (curlHeader method mime body []) ++ cs := by
  unfold curlFront curlHeader
  simp

/-- The buffer has room for everything in front of the URL. -/
theorem curlStart_length {file method mime : Bytes} (hf : file.length ≤ 127)
    (hm : method.length ≤ 15) (ht : mime.length ≤ 63) (body : Bytes) :
    (curlFront file method (curlHeader method mime body [])).length ≤ 400 := by
  unfold curlFront curlHeader headerName
  split_ifs
  · simp [lit]
    omega
  · simp [lit]
    omega

/-- The command has everything in front of the URL, and of the rest as much as the buffer takes. -/
theorem curlCommand_eq (pid : ℤ) (counter : ℕ) (method mime url body : Bytes) :
    ∃ k, curlCommand pid counter method mime url body =
        curlFront (respfile pid counter) (method.take 15) (curlHeader (method.take 15)
          (mime.take 63) body ((url ++ Shell.quote :: curlTail (method.take 15) body).take k)) ∧
      ((curlText (respfile pid counter) (method.take 15) (mime.take 63) url body).length ≤ 8191 ↔
        (url ++ Shell.quote :: curlTail (method.take 15) body).length ≤ k) := by
  have hstart := curlStart_length (respfile_length pid counter) (List.length_take_le 15 method)
    (List.length_take_le 63 mime) body
  unfold curlCommand
  rw [curlText_eq, curlStart_append]
  generalize hs : curlFront (respfile pid counter) (method.take 15) (curlHeader (method.take 15)
    (mime.take 63) body []) = start at hstart ⊢
  refine ⟨8191-start.length, ?_, ?_⟩
  · rw [curlStart_append, hs, List.take_append, List.take_of_length_le (by omega)]
  · rw [List.length_append]
    omega

theorem bodyEnd_clean : Shell.quote ∉ bodyEnd ∧ Shell.newline ∉ bodyEnd ∧ bodyEnd ≠ [] := by
  decide +kernel

/-- The shell reads what is left of the here-document behind the URL. -/
theorem read_tail_iff (ws : List Bytes) (method url body : Bytes) (k : ℕ) :
    Shell.read (.word url) ws ((curlTail method body).take k) =
        some ⟨ws ++ [url], if SendsBody method body then some (body ++ [10]) else none⟩ ↔
      (SendsBody method body → bodyEnd ∉ Shell.lines body) ∧ (curlTail method body).length ≤ k := by
  obtain ⟨hquote, hline, hne⟩ := bodyEnd_clean
  unfold curlTail
  split_ifs with hb
  · let intro' : Bytes := 32 :: 60 :: 60 :: Shell.quote :: bodyEnd ++ [Shell.quote]
    have hlen : intro'.length = 19 := by decide +kernel
    have hclean : Shell.newline ∉ intro' := by decide +kernel
    have heq : 32 :: 60 :: 60 :: Shell.quote :: bodyEnd ++ Shell.quote :: 10 ::
        (body ++ 10 :: bodyEnd) = intro' ++ 10 :: (body ++ 10 :: bodyEnd) := by simp [intro']
    rw [heq]
    rcases Nat.lt_or_ge 19 k with hk | hk
    · -- the end of the line is there
      obtain ⟨i, rfl⟩ := Nat.exists_eq_add_of_le hk
      have htake : (intro' ++ 10 :: (body ++ 10 :: bodyEnd)).take (19+1+i) =
          32 :: 60 :: 60 :: Shell.quote :: bodyEnd ++ Shell.quote :: Shell.newline ::
            (body ++ Shell.newline :: bodyEnd).take i := by
        rw [List.take_append, List.take_of_length_le (by omega), hlen,
          show 19+1+i-19 = i+1 by omega, List.take_succ_cons]
        simp [intro', Shell.newline]
      rw [htake]
      refine (Shell.read_hereDoc hquote url _ ws _).trans ?_
      refine (Shell.hereDoc_take_iff hline hne body i).trans ?_
      rw [imp_iff_right hb]
      refine and_congr_right fun _ => ?_
      simp only [List.length_append, List.length_cons, hlen]
      omega
    · refine iff_of_false ?_ ?_
      · intro h
        have hnone := Shell.read_oneLine h (by
          rw [List.take_append_of_le_length (by omega)]
          exact fun hm => hclean (List.mem_of_mem_take hm))
        cases hnone
      · rintro ⟨-, hle⟩
        simp only [List.length_append, List.length_cons, hlen] at hle
        omega
  · rw [List.take_nil]
    refine iff_of_true rfl ⟨fun h => absurd h hb, Nat.zero_le k⟩

/-- The shell reads what is left of the command behind the URL's opening quote. -/
theorem read_url_iff (hu : Shell.quote ∉ url) (ws : List Bytes) (method body : Bytes) (k : ℕ) :
    Shell.read (.quoted []) ws ((url ++ Shell.quote :: curlTail method body).take k) =
        some ⟨ws ++ [url], if SendsBody method body then some (body ++ [10]) else none⟩ ↔
      (SendsBody method body → bodyEnd ∉ Shell.lines body) ∧
        (url ++ Shell.quote :: curlTail method body).length ≤ k := by
  rcases Nat.lt_or_ge url.length k with hk | hk
  · obtain ⟨i, rfl⟩ := Nat.exists_eq_add_of_le hk
    have htake : (url ++ Shell.quote :: curlTail method body).take (url.length+1+i) =
        url ++ Shell.quote :: (curlTail method body).take i := by
      rw [List.take_append, List.take_of_length_le (by omega),
        show url.length+1+i-url.length = i+1 by omega, List.take_succ_cons]
    rw [htake, Shell.read_quoted hu, List.nil_append, read_tail_iff]
    refine and_congr_right fun _ => ?_
    simp only [List.length_append, List.length_cons]
    omega
  · -- the closing quote is cut off
    rw [List.take_append_of_le_length hk, Shell.read_unclosed fun hm => hu (List.mem_of_mem_take hm)]
    refine iff_of_false (fun h => by cases h) ?_
    rintro ⟨-, hle⟩
    simp only [List.length_append, List.length_cons] at hle
    omega

/-- The words up to the value of the header. -/
def wordsBefore (file method : Bytes) : List Bytes := frontWords file ++ [method] ++ [lit "-H"]

theorem curlCall_eq (file method mime url body : Bytes) : curlCall file method mime url body =
    ⟨wordsBefore file method ++ [headerName method body ++ mime] ++ dataWords method body ++ [url],
      if SendsBody method body then some (body ++ [10]) else none⟩ := by
  unfold curlCall wordsBefore frontWords
  simp

/-- With a method that means itself, the shell reads everything up to the URL. -/
theorem read_start (hf : Shell.quote ∉ file) (hm : Shell.PlainWord method)
    (ht : Shell.quote ∉ mime) (body cs : Bytes) :
    Shell.read .between [] (curlFront file method (curlHeader method mime body cs)) =
      Shell.read (.quoted []) (wordsBefore file method ++ [headerName method body ++ mime] ++
        dataWords method body) cs := by
  obtain ⟨-, -, -, -, -, hH, -⟩ := plain_lit
  rw [read_front hf, Shell.read_word hm, Shell.read_word hH, read_header ht]
  rfl

/-- If the shell calls curl as it should, then no quote is in the way, and the buffers have taken the
method and the MIME type as they are. -/
theorem fits_of_read {pid : ℤ} {counter : ℕ}
    (h : Shell.read .between [] (curlCommand pid counter method mime url body) =
      some (curlCall (respfile pid counter) method mime url body)) :
    Shell.quote ∉ url ∧ Shell.quote ∉ mime ∧ Shell.PlainWord method ∧ method.length ≤ 15 ∧
      mime.length ≤ 63 := by
  obtain ⟨k, hk, -⟩ := curlCommand_eq pid counter method mime url body
  rw [curlCall_eq] at h
  have hwords := Shell.read_noQuote h fun w hw => by cases hw
  simp only [wordsBefore, List.mem_append, List.mem_singleton] at hwords
  have hurl : Shell.quote ∉ url := hwords url (Or.inr rfl)
  have hmethod : Shell.quote ∉ method :=
    hwords method (Or.inl (Or.inl (Or.inl (Or.inl (Or.inr rfl)))))
  have hmime : Shell.quote ∉ mime := fun hm =>
    hwords _ (Or.inl (Or.inl (Or.inr rfl))) (List.mem_append_right _ hm)
  have hfile := respfile_noQuote pid counter
  obtain ⟨-, -, -, -, -, hH, -⟩ := plain_lit
  -- the method is the word it is meant to be
  rw [hk, read_front hfile] at h
  have hprefix : frontWords (respfile pid counter) ++ [method] <+:
      wordsBefore (respfile pid counter) method ++ [headerName method body ++ mime] ++
        dataWords method body ++ [url] := by
    rw [wordsBefore, List.append_assoc _ [lit "-H"], List.append_assoc _ _ (dataWords method body),
      List.append_assoc _ _ [url]]
    exact List.prefix_append _ _
  obtain ⟨htake, hplain⟩ := Shell.plain_of_read (d := 45) (by decide) rfl
    (fun hm => hmethod (List.mem_of_mem_take hm)) (by decide) h hprefix
  rw [htake] at hplain h
  rw [Shell.read_word hplain, Shell.read_word hH,
    read_header fun hm => hmime (List.mem_of_mem_take hm)] at h
  -- and so is the header
  have hheader : wordsBefore (respfile pid counter) method ++ [headerName method body ++ mime] <+:
      wordsBefore (respfile pid counter) method ++ [headerName method body ++ mime] ++
        dataWords method body ++ [url] := by
    rw [List.append_assoc _ _ [url]]
    exact List.prefix_append _ _
  have hread := (Shell.read_words h).1
  have hsame := Shell.snoc_inj_of_begins hheader ((List.prefix_append _ _).trans hread)
  have hlen := congrArg List.length htake
  have hlen' := congrArg List.length hsame
  simp only [List.length_append, List.length_take] at hlen hlen'
  exact ⟨hurl, hmime, hplain, by omega, by omega⟩

theorem realHttpCommand_eq (pid : ℤ) (counter : ℕ) (url body : Bytes) {params : List (SValue F)}
    (hp : httpSettings params = some (method, mime)) :
    realHttpCommand pid counter url params body =
      some (curlCommand pid counter method mime url body) := by
  unfold realHttpCommand
  rw [hp]
  rfl

/-- The shell calls curl once, with the method, the header and the URL that are given and the body as
its input, exactly if the request gets there as it is. -/
theorem curl_called_iff (pid : ℤ) (counter : ℕ) (url body : Bytes) {params : List (SValue F)}
    (hp : httpSettings params = some (method, mime)) :
    (realHttpCommand pid counter url params body).bind (Shell.read .between []) =
        some (curlCall (respfile pid counter) method mime url body) ↔
      ReachesCurl (respfile pid counter) method mime url body := by
  rw [realHttpCommand_eq pid counter url body hp, Option.bind_some]
  have hiff (hurl : Shell.quote ∉ url) (hmime : Shell.quote ∉ mime) (hplain : Shell.PlainWord method)
      (hlen : method.length ≤ 15) (hlen' : mime.length ≤ 63) :
      Shell.read .between [] (curlCommand pid counter method mime url body) =
          some (curlCall (respfile pid counter) method mime url body) ↔
        (SendsBody method body → bodyEnd ∉ Shell.lines body) ∧
          (curlText (respfile pid counter) method mime url body).length ≤ 8191 := by
    obtain ⟨k, hk, hroom⟩ := curlCommand_eq pid counter method mime url body
    rw [List.take_of_length_le hlen, List.take_of_length_le hlen'] at hk hroom
    rw [hk, hroom, curlCall_eq, read_start (respfile_noQuote pid counter) hplain hmime]
    exact read_url_iff hurl _ method body k
  constructor
  · intro h
    obtain ⟨hurl, hmime, hplain, hlen, hlen'⟩ := fits_of_read h
    exact ⟨hurl, hmime, hplain, hlen, hlen', (hiff hurl hmime hplain hlen hlen').mp h⟩
  · rintro ⟨hurl, hmime, hplain, hlen, hlen', hrest⟩
    exact (hiff hurl hmime hplain hlen hlen').mpr hrest

/-- A body of two lines, with a quote in it, gets to curl as it is. -/
theorem curl_called_post :
    (realHttpCommand 7 1 (lit "http://x/") ([.int 0, .string (lit "POST")] : List (SValue ℚ))
        (lit "a'b\nc")).bind (Shell.read .between []) =
      some (curlCall (respfile 7 1) (lit "POST") (lit "application/x-www-form-urlencoded")
        (lit "http://x/") (lit "a'b\nc")) :=
  (curl_called_iff 7 1 (lit "http://x/") (lit "a'b\nc") rfl).mpr (by decide +kernel)

/-- A URL that ends its quotes and begins a second command. -/
theorem curl_call_escaped : ¬ ∀ (pid : ℤ) (counter : ℕ) (method mime url body : Bytes),
    (realHttpCommand pid counter url
        ([.int 0, .string method, .int 1, .string mime] : List (SValue ℚ)) body).bind
      (Shell.read .between []) = some (curlCall (respfile pid counter) method mime url body) := by
  intro h
  have hcall := h 7 1 (lit "GET") (lit "text/plain") (lit "http://x/'; touch y; '") []
  rw [realHttpCommand_eq 7 1 _ [] rfl, Option.bind_some] at hcall
  exact (fits_of_read hcall).1 (by decide +kernel)

end Slemu
