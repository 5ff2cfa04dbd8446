import Slemu.Standing
import Slemu.Fixtures

/-! The URLs that `llRequestURL` hands out, and which script a request from outside reaches. -/

namespace Slemu
variable {F : Type}

/-! ### UUIDs -/

/-- The form of what `gen_uuid` makes, as far as it matters for a command line. -/
structure IsUuid (u : Bytes) : Prop where
  length : u.length = 36
  solid : ∀ c ∈ u, (c == 32 || c == 9) = false

theorem hexBytes_length {width n : ℕ} (h0 : 0 < width) (hn : n < 16^width) :
    (hexBytes width n).length = width := by
  have hl := (Nat.length_toDigits_le_iff (n := n) (by omega : 1 < 16) h0).mpr hn
  unfold hexBytes
  dsimp only
  rw [List.length_append, List.length_replicate, List.length_map]
  omega

/-- What holds of the sixteen digits holds of every digit of a number. -/
theorem hexDigits_forall {P : UInt8 → Prop} (hP : ∀ d < 16, P (Nat.digitChar d).toNat.toUInt8)
    (n : ℕ) : ∀ c ∈ (Nat.toDigits 16 n).map fun c => c.toNat.toUInt8, P c := by
  induction n using Nat.strong_induction_on with
  | _ n ih =>
    intro c hc
    rw [Nat.toDigits_eq_if (by omega)] at hc
    split at hc
    · rename_i h
      rw [List.map_singleton, List.mem_singleton] at hc
      rw [hc]
      exact hP n h
    · rename_i h
      rw [List.map_append, List.mem_append] at hc
      rcases hc with hc | hc
      · exact ih (n/16) (by omega) c hc
      · rw [List.map_singleton, List.mem_singleton] at hc
        rw [hc]
        exact hP _ (Nat.mod_lt n (by omega))

theorem hexBytes_forall {P : UInt8 → Prop} (hP : ∀ d < 16, P (Nat.digitChar d).toNat.toUInt8)
    (width n : ℕ) : ∀ c ∈ hexBytes width n, P c := by
  intro c hc
  unfold hexBytes at hc
  rcases List.mem_append.mp hc with hc | hc
  · rw [List.eq_of_mem_replicate hc]
    exact hP 0 (by omega)
  · exact hexDigits_forall hP n c hc

theorem hexBytes_solid (width n : ℕ) : ∀ c ∈ hexBytes width n, (c == 32 || c == 9) = false := by
  apply hexBytes_forall
  intro d hd
  interval_cases d <;> decide

theorem genUuid_form (w : World F) : ∃ a b c d e f : ℕ, w.genUuid.1 =
    hexBytes 8 (a%2^32) ++ lit "-" ++ hexBytes 4 (b%2^16) ++ lit "-" ++ hexBytes 4 (c%2^16) ++
      lit "-" ++ hexBytes 4 (d%2^16) ++ lit "-" ++ hexBytes 8 (e%2^32) ++ hexBytes 4 (f%2^16) :=
  ⟨_, _, _, _, _, _, rfl⟩

theorem genUuid_isUuid (w : World F) : IsUuid w.genUuid.1 := by
  obtain ⟨a, b, c, d, e, f, h⟩ := genUuid_form w
  have hdash : ∀ c ∈ lit "-", (c == 32 || c == 9) = false := by decide +kernel
  have hlen : (lit "-").length = 1 := rfl
  have h8 (n : ℕ) : (hexBytes 8 (n%2^32)).length = 8 :=
    hexBytes_length (by omega) (by norm_num; omega)
  have h4 (n : ℕ) : (hexBytes 4 (n%2^16)).length = 4 :=
    hexBytes_length (by omega) (by norm_num; omega)
  have hsolid := hexBytes_solid
  rw [h]
  constructor
  · simp only [List.length_append, hlen, h8, h4]
  · simp only [List.mem_append, or_imp, forall_and]
    exact ⟨⟨⟨⟨⟨⟨⟨⟨⟨hsolid _ _, hdash⟩, hsolid _ _⟩, hdash⟩, hsolid _ _⟩, hdash⟩, hsolid _ _⟩,
      hdash⟩, hsolid _ _⟩, hsolid _ _⟩

/-! ### URLs handed out -/

/-- Neither the scripts nor the URLs are others. -/
structure SameUrls (w w' : World F) : Prop where
  uuids : w'.scripts.map Script.uuid = w.scripts.map Script.uuid
  inbound : w'.inbound = w.inbound

variable [CDouble F]

/-- The call returns a key, and the script is told the URL that goes with it. -/
structure HandsOut (w : World F) (s : ℕ) (a : List (SValue F)) (id url : Bytes) : Prop where
  result : (w.llRequestURL s a).1 = .key id
  told : ((w.llRequestURL s a).2.script s).evq = (w.script s).evq ++ [⟨lit "http_request",
    [.key id, .string (lit "URL_REQUEST_GRANTED"), .string url]⟩]

/-- The URLs handed out on the way from one world to another, in their order and with the scripts
that asked for them, whatever else happens in between. -/
inductive Requesting (w : World F) : List (ℕ × Bytes) → World F → Prop
  | start : Requesting w [] w
  | request {us : List (ℕ × Bytes)} {v : World F} {s : ℕ} {a : List (SValue F)} {id url : Bytes} :
    Requesting w us v → HandsOut v s a id url →
      Requesting w (us ++ [(s, url)]) (v.llRequestURL s a).2
  | other {us : List (ℕ × Bytes)} {v v' : World F} :
    Requesting w us v → SameUrls v v' → Requesting w us v'

/-- The command line takes an `http_request` to one script. That script owns a URL with `arg` in
it, and `arg` itself if that is a URL. -/
def ReachesOwner (us : List (ℕ × Bytes)) (w : World F) (line arg : Bytes) : Prop :=
  ∃ s ev, ev.name = lit "http_request" ∧
    ((w.runCommand line).script s).evq = (w.script s).evq ++ [ev] ∧
    (∀ i ≠ s, ((w.runCommand line).script i).evq = (w.script i).evq) ∧
    ∃ url, (s, url) ∈ us ∧ arg <:+: url ∧ (arg ∈ us.map Prod.snd → (s, arg) ∈ us)

/-! ### What is registered -/

/-- The form of a URL. -/
structure UrlForm (url : Bytes) : Prop where
  length : url.length = 92
  solid : ∀ c ∈ url, (c == 32 || c == 9) = false

omit [CDouble F] in
theorem urlForm_of_uuids {u k : Bytes} (hu : IsUuid u) (hk : IsUuid k) :
    UrlForm (lit "http://slemu.local/" ++ u ++ lit "/" ++ k) := by
  have h1 : (lit "http://slemu.local/").length = 19 := by decide
  have h2 : (lit "/").length = 1 := rfl
  have h3 : ∀ c ∈ lit "http://slemu.local/", (c == 32 || c == 9) = false := by decide +kernel
  have h4 : ∀ c ∈ lit "/", (c == 32 || c == 9) = false := by decide +kernel
  constructor
  · simp only [List.length_append, h1, h2, hu.length, hk.length]
  · simp only [List.mem_append, or_imp, forall_and]
    exact ⟨⟨⟨h3, hu.solid⟩, h4⟩, hk.solid⟩

/-- What is registered is what was handed out, newest first. -/
structure Registered (us : List (ℕ × Bytes)) (w : World F) : Prop where
  inbound : w.inbound.map (fun u => (u.target, u.url)) = us.reverse
  targets : ∀ p ∈ us, p.1 < w.scripts.length
  urls : ∀ p ∈ us, UrlForm p.2
  uuids : ∀ u ∈ w.scripts.map Script.uuid, IsUuid u

omit [CDouble F] in
theorem SameUrls.registered {us : List (ℕ × Bytes)} {v v' : World F} (h : SameUrls v v')
    (hv : Registered us v) : Registered us v' := by
  have hlen : v'.scripts.length = v.scripts.length := by
    have hl := congrArg List.length h.uuids
    rwa [List.length_map, List.length_map] at hl
  refine ⟨by rw [h.inbound]; exact hv.inbound, fun p hp => hlen ▸ hv.targets p hp, hv.urls, ?_⟩
  rw [h.uuids]
  exact hv.uuids

/-- A script that is told something is there. -/
theorem HandsOut.lt {w : World F} {s : ℕ} {a : List (SValue F)} {id url : Bytes}
    (h : HandsOut w s a id url) : s < w.scripts.length := by
  by_contra hs
  have hl : (w.llRequestURL s a).2.scripts.length = w.scripts.length := World.modScript_length _ s _
  have h' := h.told
  rw [script_of_length_le _ _ (hl ▸ not_lt.mp hs), script_of_length_le _ _ (not_lt.mp hs)] at h'
  have hn := congrArg List.length h'
  rw [List.length_append, List.length_singleton] at hn
  omega

/-- The URL that a script would be handed now. -/
def World.nextUrl (w : World F) (s : ℕ) : Bytes :=
  lit "http://slemu.local/" ++ (w.script s).uuid ++ lit "/" ++ w.genUuid.1

theorem llRequestURL_evq {w : World F} {s : ℕ} (hs : s < w.scripts.length) (a : List (SValue F)) :
    ((w.llRequestURL s a).2.script s).evq = (w.script s).evq ++ [⟨lit "http_request",
      [.key w.genUuid.1, .string (lit "URL_REQUEST_GRANTED"), .string (w.nextUrl s)]⟩] :=
  congrArg Script.evq (World.modScript_script (w.genUuid.2.inboundRegister s w.genUuid.1).2 s _ hs)

/-- The URL told is the one registered. -/
theorem HandsOut.url {w : World F} {s : ℕ} {a : List (SValue F)} {id url : Bytes}
    (h : HandsOut w s a id url) : url = w.nextUrl s := by
  have he := List.append_cancel_left (h.told.symm.trans (llRequestURL_evq h.lt a))
  simp only [List.cons.injEq, Event.mk.injEq, SValue.string.injEq] at he
  exact he.1.2.2.2.1

theorem HandsOut.registered {us : List (ℕ × Bytes)} {v : World F} {s : ℕ} {a : List (SValue F)}
    {id url : Bytes} (h : HandsOut v s a id url) (hv : Registered us v) :
    Registered (us ++ [(s, url)]) (v.llRequestURL s a).2 := by
  have hin : (v.llRequestURL s a).2.inbound = ⟨v.nextUrl s, s, v.genUuid.1⟩ :: v.inbound := rfl
  have hlen : (v.llRequestURL s a).2.scripts.length = v.scripts.length := World.modScript_length _ s _
  have huuid : (v.llRequestURL s a).2.scripts.map Script.uuid = v.scripts.map Script.uuid :=
    map_modify_same (f := Script.uuid) (g := fun t => t.push _ none) (fun _ => rfl) s v.scripts
  have hs : (v.script s).uuid ∈ v.scripts.map Script.uuid := by
    refine List.mem_map.mpr ⟨v.script s, ?_, rfl⟩
    unfold World.script
    rw [List.getD_eq_getElem _ _ h.lt]
    exact List.getElem_mem h.lt
  have hform : UrlForm url := h.url ▸ urlForm_of_uuids (hv.uuids _ hs) (genUuid_isUuid v)
  constructor
  · rw [hin, List.map_cons, hv.inbound, List.reverse_append, h.url]
    rfl
  · intro p hp
    rw [hlen]
    rcases List.mem_append.mp hp with hp | hp
    · exact hv.targets p hp
    · rw [List.mem_singleton.mp hp]
      exact h.lt
  · intro p hp
    rcases List.mem_append.mp hp with hp | hp
    · exact hv.urls p hp
    · rw [List.mem_singleton.mp hp]
      exact hform
  · rw [huuid]
    exact hv.uuids

theorem Requesting.registered {w v : World F} {us : List (ℕ × Bytes)} (h : Requesting w us v)
    (hw : w.inbound = []) (hu : ∀ t ∈ w.scripts, IsUuid t.uuid) : Registered us v := by
  induction h with
  | start =>
    refine ⟨by rw [hw]; rfl, by simp, by simp, ?_⟩
    intro u hu'
    obtain ⟨t, ht, rfl⟩ := List.mem_map.mp hu'
    exact hu t ht
  | request _ ho ih => exact ho.registered ih
  | other _ hs ih => exact hs.registered ih

/-! ### Resolution -/

omit [CDouble F] in
theorem containsBytes_iff (h p : Bytes) : containsBytes h p = true ↔ p <:+: h := by
  unfold containsBytes
  rw [List.any_eq_true, List.infix_iff_prefix_suffix]
  constructor
  · rintro ⟨t, ht, hp⟩
    exact ⟨t, List.isPrefixOf_iff_prefix.mp hp, (List.mem_tails _ _).mp ht⟩
  · rintro ⟨t, hp, ht⟩
    exact ⟨t, (List.mem_tails _ _).mpr ht, List.isPrefixOf_iff_prefix.mpr hp⟩

omit [CDouble F] in
/-- A registered URL finds a script that owns it. -/
theorem inboundResolve_exact {us : List (ℕ × Bytes)} {w : World F} (h : Registered us w)
    {arg : Bytes} (ha : arg ∈ us.map Prod.snd) :
    ∃ s, w.inboundResolve arg = some s ∧ (s, arg) ∈ us := by
  have hmem (u : InboundUrl) (hu : u ∈ w.inbound) : (u.target, u.url) ∈ us := by
    rw [← List.mem_reverse, ← h.inbound]
    exact List.mem_map_of_mem hu
  cases hf : w.inbound.find? fun u => u.url = arg with
  | none =>
    obtain ⟨p, hp, rfl⟩ := List.mem_map.mp ha
    rw [← List.mem_reverse, ← h.inbound] at hp
    obtain ⟨u, hu, rfl⟩ := List.mem_map.mp hp
    have hnu := List.find?_eq_none.mp hf u hu
    simp at hnu
  | some u =>
    have hu : u.url = arg := by simpa using List.find?_some hf
    refine ⟨u.target, ?_, hu ▸ hmem u (List.mem_of_find?_eq_some hf)⟩
    unfold World.inboundResolve
    rw [hf]

omit [CDouble F] in
/-- Anything else inside a URL finds no script: the test is the wrong way round, and all URLs are of
one length. -/
theorem inboundResolve_part {us : List (ℕ × Bytes)} {w : World F} (h : Registered us w)
    {arg : Bytes} (ha : arg ∉ us.map Prod.snd) (hsub : ∃ p ∈ us, arg <:+: p.2) :
    w.inboundResolve arg = none := by
  obtain ⟨q, hq, hin⟩ := hsub
  have hmem (u : InboundUrl) (hu : u ∈ w.inbound) : (u.target, u.url) ∈ us := by
    rw [← List.mem_reverse, ← h.inbound]
    exact List.mem_map_of_mem hu
  have hne (u : InboundUrl) (hu : u ∈ w.inbound) : u.url ≠ arg := by
    rintro rfl
    exact ha (List.mem_map_of_mem (hmem u hu))
  have h1 : w.inbound.find? (fun u => u.url = arg) = none := by
    apply List.find?_eq_none.mpr
    intro u hu
    simpa using hne u hu
  have h2 : w.inbound.find? (fun u => containsBytes arg u.url) = none := by
    apply List.find?_eq_none.mpr
    intro u hu hc
    have hsub := (containsBytes_iff arg u.url).mp hc
    have hl1 := (h.urls _ (hmem u hu)).length
    have hl2 := (h.urls q hq).length
    have hl3 := hin.length_le
    -- a URL inside `arg`, which is inside a URL, leaves no room for anything else
    exact hne u hu (hsub.eq_of_length_le (by dsimp only at hl1; omega))
  unfold World.inboundResolve
  rw [h1]
  dsimp only
  rw [h2]
  rfl

/-! ### The command -/

/-- What follows a word on a line: nothing, or a blank and something. -/
def Ends (rest : Bytes) : Prop := rest = [] ∨ ∃ r, rest = 32 :: r ∨ rest = 9 :: r

omit [CDouble F] in
theorem nextTok_arg {arg rest : Bytes} (ha : Word arg) (hr : Ends rest) :
    ∃ p, nextTok (arg ++ rest) = (some arg, p) := by
  have ht : rest.takeWhile (fun c => !(c == 32 || c == 9)) = [] := by
    rcases hr with rfl | ⟨r, rfl | rfl⟩ <;> rfl
  rw [nextTok_eq ha, ht, List.append_nil]
  exact ⟨_, rfl⟩

omit [CDouble F] in
theorem word_of_part {arg url : Bytes} (hne : arg ≠ []) (hsub : arg <:+: url) (hu : UrlForm url) :
    Word arg :=
  ⟨hne, fun c hc => hu.solid c (hsub.subset hc)⟩

theorem runCommand_httpIn (w : World F) {arg rest : Bytes} (ha : Word arg) (hr : Ends rest) :
    ∃ p, nextTok (arg ++ rest) = (some arg, p) ∧
      w.runCommand (lit "HTTP_IN " ++ arg ++ rest) = w.cmdHttpIn (arg ++ rest) := by
  obtain ⟨p, hp⟩ := nextTok_arg ha hr
  have hw : Word (lit "HTTP_IN") := by decide +kernel
  have hl : nextTok (lit "HTTP_IN " ++ arg ++ rest) = (some (lit "HTTP_IN"), arg ++ rest) := by
    rw [List.append_assoc]
    exact nextTok_word hw (arg ++ rest)
  exact ⟨p, hp, runCommand_known hl (f := World.cmdHttpIn) (by rfl) w⟩

/-- A URL found sends one event to its script. -/
theorem cmdHttpIn_some {w : World F} {line arg p : Bytes} {s : ℕ} (hs : s < w.scripts.length)
    (hl : nextTok line = (some arg, p)) (hf : w.inboundResolve arg = some s) :
    ∃ ev, ev.name = lit "http_request" ∧
      ((w.cmdHttpIn line).script s).evq = (w.script s).evq ++ [ev] ∧
      ∀ i ≠ s, ((w.cmdHttpIn line).script i).evq = (w.script i).evq := by
  refine ⟨⟨lit "http_request", [.key w.genUuid.1, .string ((nextTok p).1.getD (lit "GET")),
    .string (restOfLine (nextTok p).2)]⟩, rfl, ?_⟩
  have hq : (w.cmdHttpIn line).scripts = (w.genUuid.2.pushEvent s (lit "http_request")
      [.key w.genUuid.1, .string ((nextTok p).1.getD (lit "GET")),
        .string (restOfLine (nextTok p).2)]).scripts := by
    unfold World.cmdHttpIn
    rw [hl]
    dsimp only [Option.getD_some]
    rw [hf]
    rfl
  constructor
  · rw [World.script, hq]
    exact congrArg Script.evq (World.modScript_script w.genUuid.2 s _ hs)
  · intro i hi
    rw [World.script, hq]
    exact congrArg Script.evq (World.modScript_script_ne w.genUuid.2 s i _ hi)

omit [CDouble F] in
theorem cmdHttpIn_none {w : World F} {line arg p : Bytes} (hl : nextTok line = (some arg, p))
    (hf : w.inboundResolve arg = none) : (w.cmdHttpIn line).scripts = w.scripts := by
  unfold World.cmdHttpIn
  rw [hl]
  dsimp only [Option.getD_some]
  rw [hf]
  rfl

theorem cmdHttpIn_reaches_none {w : World F} {line arg p : Bytes} {s : ℕ} {ev : Event F}
    (hl : nextTok line = (some arg, p)) (hf : w.inboundResolve arg = none) :
    ((w.cmdHttpIn line).script s).evq ≠ (w.script s).evq ++ [ev] := by
  intro hev
  rw [script_of_scripts (cmdHttpIn_none hl hf)] at hev
  have hlen := congrArg List.length hev
  rw [List.length_append, List.length_singleton] at hlen
  omega

/-! ### Runs -/

namespace SameUrls
variable {u v w : World F}

omit [CDouble F] in
theorem refl (w : World F) : SameUrls w w := ⟨rfl, rfl⟩

omit [CDouble F] in
theorem trans (h : SameUrls u v) (h' : SameUrls v w) : SameUrls u w :=
  ⟨h'.uuids.trans h.uuids, h'.inbound.trans h.inbound⟩

omit [CDouble F] in
theorem of_steady (h : Stands v w) : SameUrls v w := by
  refine ⟨?_, h.inbound⟩
  have hs : w.scripts.map Script.standing = v.scripts.map Script.standing := congrArg Prod.fst h
  have hu := congrArg (List.map Prod.fst) hs
  rwa [List.map_map, List.map_map] at hu

omit [CDouble F] in
theorem modScript (w : World F) (s : ℕ) {f : Script F → Script F}
    (hf : ∀ t, (f t).uuid = t.uuid) : SameUrls w (w.modScript s f) :=
  ⟨map_modify_same hf s w.scripts, rfl⟩

theorem touch (w : World F) (t : Touch) : SameUrls w (w.touch t) := by
  have hpush (names : List Bytes) (v : World F) : SameUrls v (v.pushTouches t.script names) := by
    induction names generalizing v with
    | nil => exact refl v
    | cons name names ih =>
      have hn : SameUrls v (v.pushEvent t.script name [.int 1]) := modScript v t.script fun _ => rfl
      exact hn.trans (ih _)
  have hd : SameUrls w (w.pushDetected t.script t.key t.name) := modScript w t.script fun _ => rfl
  exact hd.trans (hpush t.events _)

theorem runCommand (w : World F) (line : Bytes) : SameUrls w (w.runCommand line) := by
  have ht := runCommand_touches w line
  cases hl : w.touchOf line with
  | none =>
    rw [hl] at ht
    exact of_steady ht
  | some t =>
    rw [hl] at ht
    exact (touch w t).trans (of_steady ht)

end SameUrls

theorem Handling.requesting {s : ℕ} {w v v' : World F} {us : List (ℕ × Bytes)}
    (h : Handling s v v') (hs : s < v.scripts.length) (hr : Requesting w us v) :
    ∃ us', Requesting w us' v' := by
  cases h with
  | steady h => exact ⟨us, hr.other (.of_steady h)⟩
  | listen a =>
    have hn : SameUrls v { v with nextHandle := v.nextHandle+1 } := ⟨rfl, rfl⟩
    exact ⟨us, (hr.other hn).other (SameUrls.modScript _ s fun _ => rfl)⟩
  | remove a => exact ⟨us, hr.other (SameUrls.modScript v s fun _ => rfl)⟩
  | control a => exact ⟨us, hr.other (SameUrls.modScript v s fun _ => rfl)⟩
  | request a => exact ⟨_, hr.request ⟨rfl, llRequestURL_evq hs a⟩⟩

theorem Handlings.requesting {s : ℕ} {w v v' : World F} {us : List (ℕ × Bytes)}
    (h : Handlings s v v') (hs : s < v.scripts.length) (hr : Requesting w us v) :
    (∃ us', Requesting w us' v') ∧ s < v'.scripts.length := by
  induction h with
  | refl => exact ⟨⟨us, hr⟩, hs⟩
  | tail _ h ih =>
    obtain ⟨⟨us', hr'⟩, hs'⟩ := ih
    exact ⟨h.requesting hs' hr', h.count ▸ hs'⟩

/-- On the way through a run, URLs are handed out. -/
theorem Conf.IsRun.requesting {lib : Lib F} {c : ℕ → Conf F} {n k : ℕ} (h : IsRun lib c n)
    (hk : k ≤ n) : ∃ us, Requesting (c 0).world us (c k).world := by
  induction k with
  | zero => exact ⟨[], .start⟩
  | succ k ih =>
    obtain ⟨us, hr⟩ := ih (by omega)
    have hstep := h.step k (by omega)
    rcases hstep.standing with hs | ⟨i, hi, hn⟩ | ⟨line, hl⟩
    · exact ⟨us, hr.other (.of_steady hs)⟩
    · exact (hn.world.requesting hi hr).1
    · refine ⟨us, hr.other ?_⟩
      rw [hstep.carriesOut hl]
      have h0 : SameUrls (c k).world
          { (c k).world with nextCommand := (c k).world.nextCommand+1 } := ⟨rfl, rfl⟩
      exact (h0.trans (SameUrls.runCommand _ line)).trans ⟨rfl, rfl⟩

/-- A loaded script has a UUID. -/
theorem regionLoadScript_isUuid {w : World F} (h : ∀ t ∈ w.scripts, IsUuid t.uuid) (p : Program)
    (path : Bytes) : ∀ t ∈ (w.regionLoadScript p path).scripts, IsUuid t.uuid := by
  intro t ht
  rcases List.mem_append.mp ht with ht | ht
  · exact h t ht
  · rw [List.mem_singleton.mp ht]
    exact genUuid_isUuid w

/-! ### What a request reaches -/

/-- A request for a part of a URL reaches the owner if and only if the part is a URL itself. -/
theorem http_in_reaches_iff {w v : World F} {us : List (ℕ × Bytes)} (h : Requesting w us v)
    (hw : w.inbound = []) (hu : ∀ t ∈ w.scripts, IsUuid t.uuid) {arg rest : Bytes} (hne : arg ≠ [])
    (hsub : ∃ p ∈ us, arg <:+: p.2) (hr : Ends rest) :
    ReachesOwner us v (lit "HTTP_IN " ++ arg ++ rest) arg ↔ arg ∈ us.map Prod.snd := by
  have hreg := h.registered hw hu
  obtain ⟨q, hq, hin⟩ := hsub
  obtain ⟨p, hp, hrun⟩ := runCommand_httpIn v (word_of_part hne hin (hreg.urls q hq)) hr
  unfold ReachesOwner
  rw [hrun]
  constructor
  · rintro ⟨s, ev, -, hev, -, -⟩
    by_contra ha
    exact cmdHttpIn_reaches_none hp (inboundResolve_part hreg ha ⟨q, hq, hin⟩) hev
  · intro ha
    obtain ⟨s, hf, hs⟩ := inboundResolve_exact hreg ha
    obtain ⟨ev, hn, hev, ho⟩ := cmdHttpIn_some (hreg.targets _ hs) hp hf
    exact ⟨s, ev, hn, hev, ho, arg, hs, List.infix_rfl, fun _ => hs⟩

/-- A region of two scripts. -/
def inboundWorld : World ℚ := (regionOf [default, default] []).world

theorem inboundWorld_uuids : ∀ t ∈ inboundWorld.scripts, IsUuid t.uuid := by
  have h0 : ∀ t ∈ (regionInit default : World ℚ).scripts, IsUuid t.uuid := by
    intro t ht
    exact absurd ht List.not_mem_nil
  exact regionLoadScript_isUuid (regionLoadScript_isUuid h0 _ _) _ _

/-- The second script asks for a URL. -/
theorem inboundWorld_requesting : Requesting inboundWorld [(1, inboundWorld.nextUrl 1)]
    (inboundWorld.llRequestURL 1 []).2 :=
  Requesting.start.request ⟨rfl, llRequestURL_evq (by decide) []⟩

theorem http_in_reaches_whole : ReachesOwner [(1, inboundWorld.nextUrl 1)]
    (inboundWorld.llRequestURL 1 []).2 (lit "HTTP_IN " ++ inboundWorld.nextUrl 1 ++ lit " GET")
    (inboundWorld.nextUrl 1) :=
  (http_in_reaches_iff inboundWorld_requesting rfl inboundWorld_uuids (by decide +kernel)
    ⟨_, List.mem_singleton_self _, List.infix_rfl⟩ (.inr ⟨_, .inl rfl⟩)).mpr
    (List.mem_singleton_self _)

/-- A part of the URL, as the comment of the command has it, reaches nobody. -/
theorem http_in_misses_part : ∃ us v arg, Requesting inboundWorld us v ∧ arg ≠ [] ∧
    (∃ p ∈ us, arg <:+: p.2) ∧ ¬ ReachesOwner us v (lit "HTTP_IN " ++ arg ++ []) arg := by
  refine ⟨_, _, lit "slemu.local", inboundWorld_requesting, by decide,
    ⟨_, List.mem_singleton_self _, ?_⟩, ?_⟩
  · exact (containsBytes_iff _ _).mp (by decide +kernel)
  · obtain ⟨p, hp, hrun⟩ := runCommand_httpIn (inboundWorld.llRequestURL 1 []).2
      (by decide +kernel : Word (lit "slemu.local")) (.inl rfl)
    rintro ⟨s, ev, -, hev, -⟩
    rw [hrun] at hev
    exact cmdHttpIn_reaches_none hp (by decide +kernel) hev

end Slemu
