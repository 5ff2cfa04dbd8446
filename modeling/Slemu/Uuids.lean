import Slemu.InboundUrls

/-! The keys that `gen_uuid` makes: the field that holds the counter keeps them apart. -/

namespace Slemu
variable {F : Type}

/-! ### Hexadecimal numbers -/

/-- A group of lower-case hexadecimal digits. -/
structure HexGroup (width : ℕ) (g : Bytes) : Prop where
  length : g.length = width
  digits : ∀ c ∈ g, c ∈ lit "0123456789abcdef"

/-- The shape 8-4-4-4-12. -/
def UuidShape (u : Bytes) : Prop :=
  ∃ a b c d e : Bytes, HexGroup 8 a ∧ HexGroup 4 b ∧ HexGroup 4 c ∧ HexGroup 4 d ∧ HexGroup 12 e ∧
    u = a ++ lit "-" ++ b ++ lit "-" ++ c ++ lit "-" ++ d ++ lit "-" ++ e

theorem hexGroup_hexBytes {width n : ℕ} (h0 : 0 < width) (hn : n < 16^width) :
    HexGroup width (hexBytes width n) := by
  refine ⟨hexBytes_length h0 hn, hexBytes_forall ?_ width n⟩
  intro d hd
  interval_cases d <;> decide +kernel

theorem HexGroup.append {m n : ℕ} {g h : Bytes} (hg : HexGroup m g) (hh : HexGroup n h) :
    HexGroup (m+n) (g ++ h) := by
  refine ⟨by rw [List.length_append, hg.length, hh.length], ?_⟩
  intro c hc
  rcases List.mem_append.mp hc with hc | hc
  · exact hg.digits c hc
  · exact hh.digits c hc

/-- The number that a digit stands for. -/
def hexDigitValue (c : UInt8) : ℕ := if c < 58 then c.toNat-48 else c.toNat-87

/-- The number that digits stand for, after those that stand for `acc`. -/
def hexValue (acc : ℕ) (u : Bytes) : ℕ := u.foldl (fun n c => 16*n + hexDigitValue c) acc

theorem hexDigitValue_digitChar {d : ℕ} (hd : d < 16) :
    hexDigitValue (Nat.digitChar d).toNat.toUInt8 = d := by
  interval_cases d <;> decide

theorem hexValue_toDigits (n : ℕ) :
    hexValue 0 ((Nat.toDigits 16 n).map fun c => c.toNat.toUInt8) = n := by
  induction n using Nat.strong_induction_on with
  | _ n ih =>
    rw [Nat.toDigits_eq_if (by omega)]
    split
    · rename_i h
      have hd := hexDigitValue_digitChar h
      unfold hexValue
      rw [List.map_singleton, List.foldl_cons, List.foldl_nil, hd]
      omega
    · rename_i h
      have hd := hexDigitValue_digitChar (Nat.mod_lt n (by omega : 0 < 16))
      have hq := ih (n/16) (by omega)
      unfold hexValue at hq ⊢
      rw [List.map_append, List.foldl_append, hq, List.map_singleton, List.foldl_cons,
        List.foldl_nil, hd]
      omega

/-- The digits stand for the number they were made from. -/
theorem hexValue_hexBytes (width n : ℕ) : hexValue 0 (hexBytes width n) = n := by
  have hzeros (k : ℕ) : hexValue 0 (List.replicate k 48) = 0 := by
    induction k with
    | zero => rfl
    | succ k ih => exact ih
  have hn := hexValue_toDigits n
  have hk := hzeros (width - ((Nat.toDigits 16 n).map fun c => c.toNat.toUInt8).length)
  unfold hexValue at hn hk ⊢
  unfold hexBytes
  dsimp only
  rw [List.foldl_append, hk, hn]

/-! ### One key -/

/-- The field of a key that the counter goes into. -/
def counterField (u : Bytes) : ℕ := hexValue 0 ((u.drop 24).take 8)

theorem genUuid_shape (w : World F) : UuidShape w.genUuid.1 := by
  obtain ⟨a, b, c, d, e, f, h⟩ := genUuid_form w
  have h8 (n : ℕ) : HexGroup 8 (hexBytes 8 (n%2^32)) :=
    hexGroup_hexBytes (by omega) (by norm_num; omega)
  have h4 (n : ℕ) : HexGroup 4 (hexBytes 4 (n%2^16)) :=
    hexGroup_hexBytes (by omega) (by norm_num; omega)
  refine ⟨_, _, _, _, _, h8 a, h4 b, h4 c, h4 d, (h8 e).append (h4 f), ?_⟩
  rw [h]
  simp only [List.append_assoc]

theorem UuidShape.length {u : Bytes} (h : UuidShape u) : u.length = 36 := by
  obtain ⟨a, b, c, d, e, ha, hb, hc, hd, he, rfl⟩ := h
  have hlen : (lit "-").length = 1 := rfl
  simp only [List.length_append, ha.length, hb.length, hc.length, hd.length, he.length, hlen]

/-- Whatever the random words are, the field holds the low half of the counter. -/
theorem genUuid_counterField (w : World F) :
    counterField w.genUuid.1 = w.uuidCounter%2^32 := by
  have h8 (n : ℕ) : (hexBytes 8 (n%2^32)).length = 8 :=
    hexBytes_length (by omega) (by norm_num; omega)
  have h4 (n : ℕ) : (hexBytes 4 (n%2^16)).length = 4 :=
    hexBytes_length (by omega) (by norm_num; omega)
  have hlen : (lit "-").length = 1 := rfl
  obtain ⟨front, back, hk, hf⟩ : ∃ front back : Bytes,
      w.genUuid.1 = front ++ (hexBytes 8 (w.uuidCounter%2^32) ++ back) ∧ front.length = 24 := by
    unfold World.genUuid
    dsimp only
    refine ⟨_, _, by rw [List.append_assoc _ (hexBytes 8 _) (hexBytes 4 _)]; rfl, ?_⟩
    simp only [List.length_append, h8, h4, hlen]
  unfold counterField
  rw [hk, List.drop_left' hf, List.take_left' (h8 _)]
  exact hexValue_hexBytes 8 _

theorem genUuid_uuidCounter (w : World F) :
    w.genUuid.2.uuidCounter = (w.uuidCounter+1)%2^64 := rfl

variable [CDouble F]

/-! ### The keys of a run -/

/-- What a key is made for. -/
inductive KeyUse
  | script
  | http
  | url
  | transaction
  | httpIn
  deriving DecidableEq

/-- The counter, the scripts' UUIDs and the URLs are the same. -/
structure SameKeys (w w' : World F) : Prop extends SameUrls w w' where
  counter : w'.uuidCounter = w.uuidCounter

/-- The keys made on the way from the start of the process to a world, oldest first, whatever else
happens in between. -/
inductive Issuing (env : Env F) : List (KeyUse × Bytes) → World F → Prop
  | start : Issuing env [] (regionInit env)
  | load {us : List (KeyUse × Bytes)} {v : World F} {k : Bytes} (p : Program) (path : Bytes) :
    Issuing env us v → ((v.regionLoadScript p path).script v.scripts.length).uuid = k →
      Issuing env (us ++ [(.script, k)]) (v.regionLoadScript p path)
  | http {us : List (KeyUse × Bytes)} {v : World F} {k : Bytes} (s : ℕ) (a : List (SValue F)) :
    Issuing env us v → (v.llHTTPRequest s a).1 = .key k →
      Issuing env (us ++ [(.http, k)]) (v.llHTTPRequest s a).2
  | url {us : List (KeyUse × Bytes)} {v : World F} {k : Bytes} (s : ℕ) (a : List (SValue F)) :
    Issuing env us v → (v.llRequestURL s a).1 = .key k →
      Issuing env (us ++ [(.url, k)]) (v.llRequestURL s a).2
  | transaction {us : List (KeyUse × Bytes)} {v : World F} {k : Bytes} (s : ℕ)
      (a : List (SValue F)) :
    Issuing env us v → (v.llTransferLindenDollars s a).1 = .key k →
      Issuing env (us ++ [(.transaction, k)]) (v.llTransferLindenDollars s a).2
  | httpIn {us : List (KeyUse × Bytes)} {v : World F} (p : Bytes) :
    Issuing env us v → (v.inboundResolve ((nextTok p).1.getD [])).isSome →
      Issuing env (us ++ [(.httpIn, v.genUuid.1)]) (v.cmdHttpIn p)
  | other {us : List (KeyUse × Bytes)} {v v' : World F} :
    Issuing env us v → SameKeys v v' → Issuing env us v'

/-- The keys made for one thing. -/
def keysFor (use : KeyUse) (us : List (KeyUse × Bytes)) : List Bytes :=
  (us.filter fun u => u.1 = use).map Prod.snd

/-- The keys are keys, the first 2^32-1 of them differ, and the world has no others: what the
scripts are called, and what the URLs end with, is among them. -/
structure KeysApart (us : List (KeyUse × Bytes)) (w : World F) : Prop where
  shape : ∀ k ∈ us.map Prod.snd, UuidShape k
  apart : ((us.map Prod.snd).take (2^32-1)).Nodup
  scripts : w.scripts.map Script.uuid = keysFor .script us
  requests : w.inbound.map InboundUrl.reqKey = (keysFor .url us).reverse
  urls : us.length ≤ 2^32-1 → (us.map Prod.snd ++ w.inbound.map InboundUrl.url).Nodup

/-! ### What the counter keeps apart -/

/-- The counter counts the keys, and every key has its number in it. -/
structure Numbered (us : List (KeyUse × Bytes)) (w : World F) : Prop where
  counter : w.uuidCounter = (us.length+1)%2^64
  shape : ∀ k ∈ us.map Prod.snd, UuidShape k
  fields : us.map (fun u => counterField u.2) =
    (List.range us.length).map fun j => (j+1)%2^32
  scripts : w.scripts.map Script.uuid = keysFor .script us
  requests : w.inbound.map InboundUrl.reqKey = (keysFor .url us).reverse
  ends : ∀ u ∈ w.inbound, u.reqKey <:+ u.url ∧ 36 < u.url.length

omit [CDouble F] in
theorem keysFor_append (use : KeyUse) (us : List (KeyUse × Bytes)) (u : KeyUse × Bytes) :
    keysFor use (us ++ [u]) = keysFor use us ++ if u.1 = use then [u.2] else [] := by
  unfold keysFor
  rw [List.filter_append, List.map_append, List.filter_singleton]
  split <;> simp_all

theorem regionInit_numbered (env : Env F) : Numbered [] (regionInit env) := by
  refine ⟨rfl, ?_, rfl, rfl, rfl, ?_⟩
  · intro k hk
    exact absurd hk List.not_mem_nil
  · intro u hu
    exact absurd hu List.not_mem_nil

omit [CDouble F] in
/-- One more key, made from a world with the same counter. -/
theorem Numbered.issue {us : List (KeyUse × Bytes)} {v u v' : World F} (h : Numbered us v)
    {use : KeyUse} (hu : u.uuidCounter = v.uuidCounter) (hc : v'.uuidCounter = u.genUuid.2.uuidCounter)
    (hs : v'.scripts.map Script.uuid =
      v.scripts.map Script.uuid ++ if use = .script then [u.genUuid.1] else [])
    (hr : v'.inbound.map InboundUrl.reqKey =
      (if use = .url then [u.genUuid.1] else []) ++ v.inbound.map InboundUrl.reqKey)
    (he : ∀ x ∈ v'.inbound, x ∈ v.inbound ∨ x.reqKey <:+ x.url ∧ 36 < x.url.length) :
    Numbered (us ++ [(use, u.genUuid.1)]) v' := by
  have hn := h.counter
  constructor
  · rw [hc, genUuid_uuidCounter, hu, hn, List.length_append, List.length_singleton]
    omega
  · intro k hk
    rw [List.map_append, List.map_singleton] at hk
    rcases List.mem_append.mp hk with hk | hk
    · exact h.shape k hk
    · rw [List.mem_singleton.mp hk]
      exact genUuid_shape u
  · have hf : u.uuidCounter%2^32 = (us.length+1)%2^32 := by
      rw [hu, hn]
      omega
    rw [List.map_append, h.fields, List.map_singleton, List.length_append, List.length_singleton,
      List.range_succ, List.map_append, List.map_singleton]
    dsimp only
    rw [genUuid_counterField, hf]
  · rw [hs, h.scripts, keysFor_append]
  · rw [hr, h.requests, keysFor_append, List.reverse_append]
    split <;> rfl
  · intro x hx
    rcases he x hx with hx | hx
    · exact h.ends x hx
    · exact hx

omit [CDouble F] in
theorem SameKeys.numbered {us : List (KeyUse × Bytes)} {v v' : World F} (h : SameKeys v v')
    (hv : Numbered us v) : Numbered us v' where
  counter := h.counter.trans hv.counter
  shape := hv.shape
  fields := hv.fields
  scripts := h.uuids.trans hv.scripts
  requests := by rw [h.inbound]; exact hv.requests
  ends := by rw [h.inbound]; exact hv.ends

omit [CDouble F] in
/-- A key for something that neither is a script nor has a URL. -/
theorem Numbered.request {us : List (KeyUse × Bytes)} {v u v' : World F} (h : Numbered us v)
    {use : KeyUse} (hs : use ≠ .script) (hr : use ≠ .url) (hu : SameKeys v u)
    (hv : SameKeys u.genUuid.2 v') : Numbered (us ++ [(use, u.genUuid.1)]) v' := by
  have hin : v'.inbound = v.inbound := hv.inbound.trans hu.inbound
  refine h.issue hu.counter hv.counter ?_ ?_ ?_
  · rw [if_neg hs, List.append_nil]
    exact hv.uuids.trans hu.uuids
  · rw [if_neg hr, List.nil_append, hin]
  · intro x hx
    exact .inl (hin ▸ hx)

theorem regionLoadScript_numbered {us : List (KeyUse × Bytes)} {v : World F} (h : Numbered us v)
    (p : Program) (path : Bytes) :
    Numbered (us ++ [(.script, v.genUuid.1)]) (v.regionLoadScript p path) := by
  refine h.issue rfl rfl ?_ rfl ?_
  · unfold World.regionLoadScript
    dsimp only
    rw [List.map_append]
    rfl
  · intro x hx
    exact .inl hx

theorem llRequestURL_numbered {us : List (KeyUse × Bytes)} {v : World F} (h : Numbered us v)
    (s : ℕ) (a : List (SValue F)) :
    Numbered (us ++ [(.url, v.genUuid.1)]) (v.llRequestURL s a).2 := by
  have hin : (v.llRequestURL s a).2.inbound = ⟨v.nextUrl s, s, v.genUuid.1⟩ :: v.inbound := rfl
  refine h.issue rfl rfl ?_ ?_ ?_
  · have huuid : (v.llRequestURL s a).2.scripts.map Script.uuid = v.scripts.map Script.uuid :=
      map_modify_same (f := Script.uuid) (g := fun t => t.push _ none) (fun _ => rfl) s v.scripts
    rw [huuid]
    exact (List.append_nil _).symm
  · rw [hin]
    rfl
  · intro x hx
    rw [hin] at hx
    rcases List.mem_cons.mp hx with rfl | hx
    · refine .inr ⟨List.suffix_append _ _, ?_⟩
      have hk := (genUuid_shape v).length
      have hl : (lit "http://slemu.local/").length = 19 := by decide
      unfold World.nextUrl
      simp only [List.length_append, hl, hk]
      omega
    · exact .inl hx

namespace SameKeys
variable {u v w : World F}

omit [CDouble F] in
theorem refl (w : World F) : SameKeys w w := ⟨.refl w, rfl⟩

omit [CDouble F] in
theorem trans (h : SameKeys u v) (h' : SameKeys v w) : SameKeys u w :=
  ⟨h.toSameUrls.trans h'.toSameUrls, h'.counter.trans h.counter⟩

omit [CDouble F] in
theorem modScript (w : World F) (s : ℕ) {f : Script F → Script F}
    (hf : ∀ t, (f t).uuid = t.uuid) : SameKeys w (w.modScript s f) :=
  ⟨.modScript w s hf, rfl⟩

omit [CDouble F] in
theorem pushEvent (w : World F) (s : ℕ) (name : Bytes) (args : List (SValue F)) :
    SameKeys w (w.pushEvent s name args) :=
  modScript w s fun _ => rfl

omit [CDouble F] in
theorem enterAvatar (w : World F) (i : Option ℕ) (uuid : Bytes) :
    SameKeys w (w.enterAvatar i uuid).2 := by
  cases i <;> exact ⟨⟨rfl, rfl⟩, rfl⟩

omit [CDouble F] in
theorem httpAnswer (w : World F) (url : Bytes) : SameKeys w (w.httpAnswer url).2 := by
  unfold World.httpAnswer
  split
  · exact ⟨⟨rfl, rfl⟩, rfl⟩
  · split <;> exact refl w

theorem llGiveMoney (w : World F) (s : ℕ) (a : List (SValue F)) :
    SameKeys w (w.llGiveMoney s a).2 := by
  unfold World.llGiveMoney
  dsimp only
  split
  · exact refl w
  · have he (i j : Option ℕ) (u v : Bytes) :
        SameKeys w ((w.enterAvatar i u).2.enterAvatar j v).2 :=
      (enterAvatar w i u).trans (enterAvatar _ j v)
    split
    · exact he _ _ _ _
    · exact (he _ _ _ _).trans ⟨⟨rfl, rfl⟩, rfl⟩

end SameKeys

theorem llHTTPRequest_numbered {us : List (KeyUse × Bytes)} {v : World F} (h : Numbered us v)
    (s : ℕ) (a : List (SValue F)) :
    Numbered (us ++ [(.http, v.genUuid.1)]) (v.llHTTPRequest s a).2 := by
  refine h.request (by decide) (by decide) (.refl v) ?_
  have hpush := (SameKeys.httpAnswer v.genUuid.2 (argStr a 0)).trans
    (SameKeys.pushEvent _ s (lit "http_response") [.key v.genUuid.1,
      .int (v.genUuid.2.httpAnswer (argStr a 0)).1.1, .list [],
      .string (v.genUuid.2.httpAnswer (argStr a 0)).1.2])
  exact hpush.trans ⟨⟨rfl, rfl⟩, rfl⟩

theorem llTransferLindenDollars_numbered {us : List (KeyUse × Bytes)} {v : World F}
    (h : Numbered us v) (s : ℕ) (a : List (SValue F)) :
    Numbered (us ++ [(.transaction, (v.llGiveMoney s a).2.genUuid.1)])
      (v.llTransferLindenDollars s a).2 :=
  h.request (by decide) (by decide) (.llGiveMoney v s a) (.pushEvent _ s _ _)

omit [CDouble F] in
theorem cmdHttpIn_numbered {us : List (KeyUse × Bytes)} {v : World F} (h : Numbered us v)
    (p : Bytes) (hr : (v.inboundResolve ((nextTok p).1.getD [])).isSome) :
    Numbered (us ++ [(.httpIn, v.genUuid.1)]) (v.cmdHttpIn p) := by
  obtain ⟨t, ht⟩ := Option.isSome_iff_exists.mp hr
  refine h.request (by decide) (by decide) (.refl v) ?_
  unfold World.cmdHttpIn
  dsimp only
  rw [ht]
  exact (SameKeys.pushEvent v.genUuid.2 t _ _).trans ⟨⟨rfl, rfl⟩, rfl⟩

theorem regionLoadScript_key (w : World F) (p : Program) (path : Bytes) :
    ((w.regionLoadScript p path).script w.scripts.length).uuid = w.genUuid.1 := by
  have hs (t : Script F) : (w.scripts ++ [t]).getD w.scripts.length default = t := by
    rw [List.getD_eq_getElem?_getD, List.getElem?_concat_length, Option.getD_some]
  exact congrArg Script.uuid (hs _)

theorem llHTTPRequest_key (w : World F) (s : ℕ) (a : List (SValue F)) :
    (w.llHTTPRequest s a).1 = .key w.genUuid.1 := rfl

theorem llRequestURL_key (w : World F) (s : ℕ) (a : List (SValue F)) :
    (w.llRequestURL s a).1 = .key w.genUuid.1 := rfl

theorem llTransferLindenDollars_key (w : World F) (s : ℕ) (a : List (SValue F)) :
    (w.llTransferLindenDollars s a).1 = .key (w.llGiveMoney s a).2.genUuid.1 := rfl

theorem Issuing.numbered {env : Env F} {us : List (KeyUse × Bytes)} {w : World F}
    (h : Issuing env us w) : Numbered us w := by
  induction h with
  | start => exact regionInit_numbered env
  | load p path _ hk ih =>
    rw [← hk, regionLoadScript_key]
    exact regionLoadScript_numbered ih p path
  | http s a _ hk ih =>
    rw [llHTTPRequest_key] at hk
    rw [← SValue.key.inj hk]
    exact llHTTPRequest_numbered ih s a
  | url s a _ hk ih =>
    rw [llRequestURL_key] at hk
    rw [← SValue.key.inj hk]
    exact llRequestURL_numbered ih s a
  | transaction s a _ hk ih =>
    rw [llTransferLindenDollars_key] at hk
    rw [← SValue.key.inj hk]
    exact llTransferLindenDollars_numbered ih s a
  | httpIn p _ hr ih => exact cmdHttpIn_numbered ih p hr
  | other _ hs ih => exact hs.numbered ih

/-! ### Apart -/

omit [CDouble F] in
theorem Numbered.apart {us : List (KeyUse × Bytes)} {w : World F} (h : Numbered us w) :
    ((us.map Prod.snd).take (2^32-1)).Nodup := by
  have hinj : ∀ i ∈ (List.range us.length).take (2^32-1), ∀ j ∈ (List.range us.length).take (2^32-1),
      (i+1)%2^32 = (j+1)%2^32 → i = j := by
    intro i hi j hj he
    rw [List.take_range, List.mem_range] at hi hj
    omega
  have hf : (((us.map Prod.snd).take (2^32-1)).map counterField).Nodup := by
    rw [List.map_take, List.map_map]
    have hm : us.map (counterField ∘ Prod.snd) = _ := h.fields
    rw [hm, ← List.map_take]
    exact (List.nodup_range.sublist (List.take_sublist _ _)).map_on hinj
  exact hf.of_map

omit [CDouble F] in
theorem Numbered.urls {us : List (KeyUse × Bytes)} {w : World F} (h : Numbered us w)
    (hn : us.length ≤ 2^32-1) : (us.map Prod.snd ++ w.inbound.map InboundUrl.url).Nodup := by
  have hkeys : (us.map Prod.snd).Nodup := by
    have ha := h.apart
    rwa [List.take_of_length_le (by rwa [List.length_map])] at ha
  have hreq : (w.inbound.map InboundUrl.reqKey).Nodup := by
    rw [h.requests, List.nodup_reverse]
    exact hkeys.sublist (List.filter_sublist.map _)
  have hlen (x : InboundUrl) (hx : x ∈ w.inbound) : x.reqKey.length = 36 := by
    have hm : x.reqKey ∈ keysFor .url us := by
      rw [← List.mem_reverse, ← h.requests]
      exact List.mem_map_of_mem hx
    exact (h.shape _ ((List.filter_sublist.map _).subset hm)).length
  apply List.nodup_append'.mpr
  refine ⟨hkeys, ?_, ?_⟩
  · -- one URL ends with both keys, which are of one length
    refine List.Nodup.of_map (fun u => u.drop (u.length-36)) ?_
    rw [List.map_map]
    have he : w.inbound.map ((fun u : Bytes => u.drop (u.length-36)) ∘ InboundUrl.url) =
        w.inbound.map InboundUrl.reqKey := by
      apply List.map_congr_left
      intro x hx
      obtain ⟨front, hfr⟩ := (h.ends x hx).1
      dsimp only [Function.comp_apply]
      rw [← hfr, List.length_append, hlen x hx, Nat.add_sub_cancel, List.drop_left]
    rw [he]
    exact hreq
  · intro k hk hu
    obtain ⟨x, hx, rfl⟩ := List.mem_map.mp hu
    have h36 := (h.shape _ hk).length
    have hx36 := (h.ends x hx).2
    omega

/-- Whatever `rand` returns, and whatever else happens, no two of the keys are the same. -/
theorem keys_apart {env : Env F} {us : List (KeyUse × Bytes)} {w : World F}
    (h : Issuing env us w) : KeysApart us w :=
  have hn := h.numbered
  ⟨hn.shape, hn.apart, hn.scripts, hn.requests, hn.urls⟩

def keyedRegion : World ℚ := (regionInit default).regionLoadScript default []

/-- One script that asks for a URL. -/
theorem keys_apart_two : KeysApart [(.script, (regionInit default : World ℚ).genUuid.1),
    (.url, keyedRegion.genUuid.1)] (keyedRegion.llRequestURL 0 []).2 :=
  keys_apart ((Issuing.start.load default [] (regionLoadScript_key _ _ _)).url 0 []
    (llRequestURL_key _ _ _))

/-! ### Runs -/

/-- What code of a script does to the keys. -/
inductive Naming : World F → World F → Prop
  | same {w w' : World F} : SameKeys w w' → Naming w w'
  | http (w : World F) (s : ℕ) (a : List (SValue F)) : Naming w (w.llHTTPRequest s a).2
  | url (w : World F) (s : ℕ) (a : List (SValue F)) : Naming w (w.llRequestURL s a).2
  | transaction (w : World F) (s : ℕ) (a : List (SValue F)) :
    Naming w (w.llTransferLindenDollars s a).2

/-- From the one world to the other, keys may be made. -/
def Leads (env : Env F) (w w' : World F) : Prop :=
  ∀ us, Issuing env us w → ∃ new, Issuing env (us ++ new) w'

namespace Leads
variable {env : Env F} {u v w : World F}

theorem of_same (h : SameKeys v w) : Leads env v w := by
  intro us hv
  exact ⟨[], by rw [List.append_nil]; exact hv.other h⟩

theorem refl (w : World F) : Leads env w w := of_same (.refl w)

theorem trans (h : Leads env u v) (h' : Leads env v w) : Leads env u w := by
  intro us hu
  obtain ⟨new, hv⟩ := h us hu
  obtain ⟨more, hw⟩ := h' _ hv
  exact ⟨new ++ more, by rwa [← List.append_assoc]⟩

theorem of_naming (h : Naming v w) : Leads env v w := by
  cases h with
  | same h => exact of_same h
  | http s a => exact fun us hv => ⟨_, hv.http s a (llHTTPRequest_key v s a)⟩
  | url s a => exact fun us hv => ⟨_, hv.url s a (llRequestURL_key v s a)⟩
  | transaction s a =>
    exact fun us hv => ⟨_, hv.transaction s a (llTransferLindenDollars_key v s a)⟩

instance (env : Env F) : IsPreorder (World F) (Leads env) where
  refl := refl
  trans _ _ _ := trans

end Leads

namespace SameKeys
variable {u v w : World F}

omit [CDouble F] in
theorem foldl {α : Type} {f : World F → α → World F} (hf : ∀ w a, SameKeys w (f w a))
    (as : List α) (w : World F) : SameKeys w (as.foldl f w) := by
  induction as generalizing w with
  | nil => exact refl w
  | cons a as ih => exact (hf w a).trans (ih _)

omit [CDouble F] in
theorem pushTimes (w : World F) (i : ℕ) (name : Bytes) (args : List (SValue F)) (n : ℕ) :
    SameKeys w (w.pushTimes i name args n) := by
  induction n generalizing w with
  | zero => exact refl w
  | succ n ih => exact (pushEvent w i name args).trans (ih _)

omit [CDouble F] in
theorem pushAll (w : World F) (name : Bytes) (args : List (SValue F))
    (times : ℕ → Script F → ℕ) : SameKeys w (w.pushAll name args times) :=
  foldl (fun _ _ => pushTimes _ _ name args _) _ w

omit [CDouble F] in
/-- What has the counter, the scripts and the URLs of a world. -/
theorem of_parts (hs : w.scripts = v.scripts) (hi : w.inbound = v.inbound)
    (hc : w.uuidCounter = v.uuidCounter) : SameKeys v w :=
  ⟨⟨by rw [hs], hi⟩, hc⟩

omit [CDouble F] in
theorem after (h : SameKeys v w) (hs : v.scripts = u.scripts) (hi : v.inbound = u.inbound)
    (hc : v.uuidCounter = u.uuidCounter) : SameKeys u w :=
  (of_parts hs hi hc).trans h

end SameKeys

/-! ### Runs: builtins -/

namespace Naming

theorem chat (kind : Bytes) (w : World F) (s : ℕ) (a : List (SValue F)) :
    SameKeys w (World.chat kind w s a).2 := by
  unfold World.chat
  dsimp only
  exact (SameKeys.pushAll _ _ _ _).after rfl rfl rfl

theorem llRegionSayTo (w : World F) (s : ℕ) (a : List (SValue F)) :
    SameKeys w (w.llRegionSayTo s a).2 := by
  unfold World.llRegionSayTo
  dsimp only
  exact (SameKeys.pushAll _ _ _ _).after rfl rfl rfl

theorem llMessageLinked (w : World F) (s : ℕ) (a : List (SValue F)) :
    SameKeys w (w.llMessageLinked s a).2 := by
  unfold World.llMessageLinked
  dsimp only
  exact (SameKeys.pushAll _ _ _ _).after rfl rfl rfl

theorem llListen (w : World F) (s : ℕ) (a : List (SValue F)) : SameKeys w (w.llListen s a).2 := by
  have hn : SameKeys w { w with nextHandle := w.nextHandle+1 } := .of_parts rfl rfl rfl
  exact hn.trans (.modScript _ s fun _ => rfl)

theorem llLinksetData (w : World F) (s : ℕ) (a : List (SValue F)) :
    SameKeys w (w.llLinksetDataWrite s a).2 ∧ SameKeys w (w.llLinksetDataDelete s a).2 ∧
      SameKeys w (w.llLinksetDataReset s) := by
  have hk (w : World F) (k : Bytes) : SameKeys w (World.resetKey s w k) := .of_parts rfl rfl rfl
  refine ⟨?_, ?_, SameKeys.foldl hk _ w⟩
  · unfold World.llLinksetDataWrite
    split <;> exact .of_parts rfl rfl rfl
  · unfold World.llLinksetDataDelete
    split <;> exact .of_parts rfl rfl rfl

theorem setCoords (w : World F) (s : ℕ) (a : List (SValue F)) :
    SameKeys w (w.llSetPos s a).2 ∧ SameKeys w (w.llSetRot s a).2 := by
  constructor
  · unfold World.llSetPos
    dsimp only
    split <;> exact .of_parts rfl rfl rfl
  · unfold World.llSetRot
    dsimp only
    split <;> exact .of_parts rfl rfl rfl

theorem llSetText (w : World F) (s : ℕ) (a : List (SValue F)) :
    SameKeys w (w.llSetText s a).2 := by
  have hm : SameKeys w (w.modScript s fun t => { t with hudText := some (argStr a 0) }) :=
    .modScript w s fun _ => rfl
  exact hm.trans (.of_parts rfl rfl rfl)

theorem llRequestPermissions (w : World F) (s : ℕ) (a : List (SValue F)) :
    SameKeys w (w.llRequestPermissions s a).2 := by
  have hm : SameKeys w (w.modScript s fun t =>
      { t with perms := toCInt (argInt a 1), permsKey := some (argStr a 0) }) :=
    .modScript w s fun _ => rfl
  unfold World.llRequestPermissions
  dsimp only
  exact hm.trans ((SameKeys.pushEvent _ _ _ _).after rfl rfl rfl)

theorem effectTable : ∀ p ∈ (Slemu.effectTable : List (Bytes × Builtin F)),
    ∀ w s a, Naming w (p.2 w s a).2 := by
  simp only [Slemu.effectTable, List.forall_mem_cons]
  have hs {f : World F → ℕ → List (SValue F) → World F} (h : ∀ w s a, SameKeys w (f w s a)) :
      ∀ w s a, Naming w (f w s a) := fun w s a => .same (h w s a)
  have hown {f : World F → ℕ → List (SValue F) → Script F → Script F}
      (hf : ∀ w s a t, (f w s a t).uuid = t.uuid) :
      ∀ w s a, Naming w (w.modScript s (f w s a)) :=
    hs fun w s a => SameKeys.modScript w s (hf w s a)
  have hkeep : ∀ (w : World F) (_ : ℕ) (_ : List (SValue F)), Naming w w :=
    fun w _ _ => .same (.refl w)
  have hpart {f : World F → ℕ → List (SValue F) → World F}
      (h : ∀ w s a, (f w s a).scripts = w.scripts ∧ (f w s a).inbound = w.inbound ∧
        (f w s a).uuidCounter = w.uuidCounter) : ∀ w s a, Naming w (f w s a) :=
    hs fun w s a => .of_parts (h w s a).1 (h w s a).2.1 (h w s a).2.2
  exact ⟨hs (chat _), hs (chat _), hs (chat _), hpart fun _ _ _ => ⟨rfl, rfl, rfl⟩, hs (chat _),
    hs llRegionSayTo, hpart fun _ _ _ => ⟨rfl, rfl, rfl⟩, hs llSetText,
    hpart fun _ _ _ => ⟨rfl, rfl, rfl⟩, hpart fun _ _ _ => ⟨rfl, rfl, rfl⟩,
    hpart fun _ _ _ => ⟨rfl, rfl, rfl⟩, hpart fun _ _ _ => ⟨rfl, rfl, rfl⟩,
    hown fun _ _ _ _ => rfl, hown fun _ _ _ _ => rfl, hown fun _ _ _ _ => rfl,
    hown fun _ _ _ _ => rfl, hs fun w s a => (setCoords w s a).1,
    hs fun w s a => (setCoords w s a).2, hs llListen, hown fun _ _ _ _ => rfl,
    hown fun _ _ _ _ => rfl, hs llMessageLinked, hs llRequestPermissions, hs SameKeys.llGiveMoney,
    fun w s a => .transaction w s a, hs fun w s a => (llLinksetData w s a).1, hkeep,
    hs fun w s a => (llLinksetData w s a).2.1, hs fun w s a => (llLinksetData w s a).2.2,
    hkeep, hkeep, fun w s a => .http w s a, fun w s a => .url w s a,
    List.forall_mem_nil _⟩

theorem stubTable : ∀ p ∈ (Slemu.stubTable : List (Bytes × Builtin F)),
    ∀ w s a, SameKeys w (p.2 w s a).2 := by
  intro p hp
  simp only [Slemu.stubTable, List.mem_append, List.mem_map] at hp
  rcases hp with (⟨fn, -, rfl⟩ | ⟨fn, -, rfl⟩) | hp
  · exact fun _ _ _ => .of_parts rfl rfl rfl
  · exact fun _ _ _ => .of_parts rfl rfl rfl
  · revert p
    simp only [List.forall_mem_cons]
    exact ⟨fun _ _ _ => .of_parts rfl rfl rfl, fun _ _ _ => .of_parts rfl rfl rfl,
      fun _ _ _ => .of_parts rfl rfl rfl, fun _ _ _ => .of_parts rfl rfl rfl,
      List.forall_mem_nil _⟩

theorem of_lookup {lib : Lib F} {name : Bytes} {f : Builtin F}
    (h : builtinsLookup lib name = some f) (w : World F) (s : ℕ) (a : List (SValue F)) :
    Naming w (f w s a).2 := by
  unfold builtinsLookup at h
  split at h
  · rename_i g hg
    obtain rfl : g = f := Option.some.inj h
    obtain ⟨l₁, l₂, hl, -⟩ := List.lookup_eq_some_iff.mp hg
    have hmem : (name, g) ∈ (Slemu.effectTable ++ Slemu.stubTable : List (Bytes × Builtin F)) := by
      rw [hl]
      exact List.mem_append_right l₁ List.mem_cons_self
    rcases List.mem_append.mp hmem with hk | hk
    · exact effectTable _ hk w s a
    · exact .same (stubTable _ hk w s a)
  · obtain ⟨g, -, rfl⟩ := Option.map_eq_some_iff.mp h
    exact .same (.of_parts rfl rfl rfl)

end Naming

/-! ### Runs: the interpreter -/

/-- The program makes keys at most. -/
abbrev Leading {α : Type} (env : Env F) (m : VM F α) : Prop := Respects (Leads env) m

namespace Leading
variable {env : Env F}

theorem set {f : World F → World F} (hf : ∀ w, SameKeys w (f w)) : Leading env (VM.set f) :=
  Respects.set fun w => .of_same (hf w)

/-- What changes neither the scripts nor the URLs nor the counter. -/
theorem part {f : World F → World F} (hf : ∀ w, (f w).scripts = w.scripts ∧
    (f w).inbound = w.inbound ∧ (f w).uuidCounter = w.uuidCounter) : Leading env (VM.set f) :=
  set fun w => .of_parts (hf w).1 (hf w).2.1 (hf w).2.2

end Leading

variable (env : Env F)

theorem leading_closed (s : ℕ) :
    Closed s (fun {α} (m _ : VM F α) => Leading env m) where
  pure a := .pure a
  fail e := .fail e
  bind hm hf := .bind hm hf
  get _ := .get _
  mark k _ := .mark k
  setCell c v := Leading.set fun w => by
    cases c with
    | loc k => exact .of_parts rfl rfl rfl
    | glob i => exact .modScript w s fun _ => rfl
  flags _ := Leading.part fun _ => ⟨rfl, rfl, rfl⟩
  define _ _ _ := Leading.part fun _ => ⟨rfl, rfl, rfl⟩
  enter := Leading.part fun _ => ⟨rfl, rfl, rfl⟩
  leave := Leading.part fun _ => ⟨rfl, rfl, rfl⟩

theorem leading_handles (lib : Lib F) (s : ℕ) :
    Handles lib s (fun {α} (m _ : VM F α) => Leading env m) where
  toClosed := leading_closed env s
  func hr fd args := (leading_closed env s).runUserFunc hr
    (fun _ => Leading.part fun _ => ⟨rfl, rfl, rfl⟩) (Leading.part fun _ => ⟨rfl, rfl, rfl⟩) fd args
  builtin hr name args := by
    refine (leading_closed env s).callBuiltin hr.toEvals ?_ (fun st => ?_) ?_ (fun name f args hf => ?_)
      name args
    · exact Leading.set fun w => .modScript w s fun _ => rfl
    · exact Leading.set fun w => .modScript w s fun _ => rfl
    · exact Leading.set fun w => .pushEvent w s _ _
    · exact .call fun w => .of_naming (Naming.of_lookup hf w s args)
  stmt {r r'} hr st hst := by
    refine .bind (.mark _) fun _ => ?_
    cases hc : st.isStateChg with
    | false => exact hst hc
    | true =>
      cases st with
      | stateChg line idx =>
        exact (leading_closed env s).stateChg r r line idx fun i =>
          Leading.set fun w => .modScript w s fun _ => rfl
      | _ => cases hc

theorem vmDispatch_leading (lib : Lib F) (s n : ℕ) (ev : EventDecl) (args : List (SValue F)) :
    Leading env (vmDispatch lib s n ev args) :=
  .bind (Leading.part fun _ => ⟨rfl, rfl, rfl⟩) fun _ =>
    .bind (((leading_handles env lib s).interp n).exec _) fun _ => Leading.part fun _ => ⟨rfl, rfl, rfl⟩

theorem dispatchEvent_leading (lib : Lib F) (s n : ℕ) (ev : Event F) :
    Leading env (dispatchEvent lib s n ev) := by
  refine .bind (.get _) fun o => ?_
  split
  · exact .pure ()
  · exact .bind (Leading.part fun _ => ⟨rfl, rfl, rfl⟩) fun _ => vmDispatch_leading env lib s n _ _

theorem initScript_leading (lib : Lib F) (s n : ℕ) :
    Leading env (initScript lib s n) := by
  have hglobals (gs : List (GlobalVar × ℕ)) :
      Leading env (initGlobals (interp lib s n) s gs) := by
    induction gs with
    | nil => exact .pure ()
    | cons gi gs ih =>
      obtain ⟨g, i⟩ := gi
      exact .bind ((leading_closed env s).initGlobal ((leading_handles env lib s).interp n).toEvals i g _)
        fun _ => ih
  exact .bind (.get _) fun p => .bind (hglobals _) fun _ =>
    .bind (Leading.set fun w => .modScript w s fun _ => rfl) fun _ =>
      Leading.set fun w => .pushEvent w s _ _

/-! ### Runs: commands -/

/-- The counter is left alone. -/
def SameCounter (w w' : World F) : Prop := w'.uuidCounter = w.uuidCounter

namespace SameCounter
variable (w : World F) (p : Bytes)

omit [CDouble F] in
theorem pushTouches (s : ℕ) (names : List Bytes) : SameCounter w (w.pushTouches s names) := by
  induction names generalizing w with
  | nil => rfl
  | cons name names ih => exact (ih (w.pushEvent s name [.int 1]))

theorem touched (s : ℕ) (uuid name msg : Bytes) (names : List Bytes) :
    SameCounter w (((w.pushDetected s uuid name).pushTouches s names).info msg) :=
  pushTouches (w.pushDetected s uuid name) s names

theorem cmdTouch : SameCounter w (w.cmdTouch p) := by
  unfold World.cmdTouch
  dsimp only
  split
  · rfl
  · exact touched w _ _ _ _ _

theorem cmdTouchFace : SameCounter w (w.cmdTouchFace p) := by
  unfold World.cmdTouchFace
  dsimp only
  split
  · rfl
  · exact touched w _ _ _ _ _

theorem cmdTouchAs : SameCounter w (w.cmdTouchAs p) := by
  unfold World.cmdTouchAs
  dsimp only
  split
  · exact touched w _ _ _ _ _
  · rfl

omit [CDouble F] in
theorem cmdListen : SameCounter w (w.cmdListen p) := (SameKeys.pushAll w _ _ _).counter

theorem cmdReply (word field : Bytes) : SameCounter w (World.cmdReply word field w p) := by
  have ha (d : OpenDialog) (who text : Bytes) : SameCounter w (w.answerDialog d who text) := by
    unfold World.answerDialog
    split
    · rfl
    · exact (SameKeys.pushTimes w _ _ _ _).counter
  unfold World.cmdReply
  dsimp only
  split
  · exact ha _ _ _
  · rfl

omit [CDouble F] in
theorem cmdMoneyFrom : SameCounter w (w.cmdMoneyFrom p) := by
  have hpay (i : ℕ) (who : Bytes) (n : ℤ) : SameCounter w (w.payFrom i who n) := by
    unfold World.payFrom
    split
    · rfl
    · dsimp only
      split <;> split <;> rfl
  unfold World.cmdMoneyFrom
  dsimp only
  split
  · rfl
  · split
    · rfl
    · exact hpay _ _ _

theorem cmdAttach : SameCounter w (w.cmdAttach p) := by
  unfold World.cmdAttach
  dsimp only
  split
  · rfl
  · split <;> rfl

omit [CDouble F] in
theorem cmdDetach : SameCounter w w.cmdDetach := by
  unfold World.cmdDetach
  split <;> rfl

omit [CDouble F] in
theorem cmdToAll (word event : Bytes) : SameCounter w (World.cmdToAll word event w p) :=
  (SameKeys.pushAll w _ _ _).counter

omit [CDouble F] in
theorem cmdAssertBalance : SameCounter w (w.cmdAssertBalance p) := by
  have hs (c : Prop) [Decidable c] (a b : Bytes) : SameCounter w (if c then
      w.assertion (lit "balance") false 128 a else w.assertion (lit "balance") true 128 b) := by
    split <;> rfl
  unfold World.cmdAssertBalance
  dsimp only
  split
  · exact hs _ _ _
  · rfl

/-- Only a request from outside makes a key. -/
theorem commandTable : ∀ q ∈ (World.commandTable : List (Bytes × (World F → Bytes → World F))),
    ∀ w p, q.2 w p = w.cmdHttpIn p ∨ SameCounter w (q.2 w p) := by
  simp only [World.commandTable, List.forall_mem_cons]
  have hs {f : World F → Bytes → World F} (h : ∀ w p, SameCounter w (f w p)) :
      ∀ w p, f w p = w.cmdHttpIn p ∨ SameCounter w (f w p) := fun w p => .inr (h w p)
  exact ⟨hs fun _ _ => rfl, hs fun _ _ => rfl, hs fun _ _ => rfl, hs fun _ _ => rfl,
    hs cmdTouch, hs cmdTouchFace, hs cmdTouchAs, hs cmdListen, hs fun _ _ => rfl,
    hs fun w p => cmdReply w p _ _, hs fun w p => cmdReply w p _ _, hs cmdMoneyFrom,
    fun _ _ => .inl trivial, hs cmdAttach, hs fun w _ => cmdDetach w, hs fun w p => cmdToAll w p _ _,
    hs fun w p => cmdToAll w p _ _, hs cmdAssertBalance, hs fun _ _ => rfl, hs fun _ _ => rfl,
    hs fun _ _ => rfl, List.forall_mem_nil _⟩

end SameCounter

theorem runCommand_counter (w : World F) (line : Bytes) :
    (∃ p, w.runCommand line = w.cmdHttpIn p) ∨ SameCounter w (w.runCommand line) := by
  unfold World.runCommand
  dsimp only
  split
  · exact .inr rfl
  · split
    · rename_i f hf
      obtain ⟨l₁, l₂, hl, -⟩ := List.lookup_eq_some_iff.mp hf
      have hmem : (_, f) ∈ World.commandTable := hl ▸ List.mem_append_right l₁ List.mem_cons_self
      rcases SameCounter.commandTable _ hmem w (nextTok line).2 with h | h
      · exact .inl ⟨_, h⟩
      · exact .inr h
    · exact .inr rfl

/-- A command makes one key, or none. -/
theorem runCommand_leads (w : World F) (line : Bytes) : Leads env w (w.runCommand line) := by
  rcases runCommand_counter w line with ⟨p, hp⟩ | hc
  · rw [hp]
    cases hr : w.inboundResolve ((nextTok p).1.getD []) with
    | none =>
      apply Leads.of_same
      unfold World.cmdHttpIn
      dsimp only
      rw [hr]
      exact .of_parts rfl rfl rfl
    | some t => exact fun us h => ⟨_, h.httpIn p (by rw [hr]; rfl)⟩
  · exact Leads.of_same ⟨SameUrls.runCommand w line, hc⟩

/-! ### Runs: one step -/

theorem fireTimer_sameKeys (w : World F) : SameKeys w w.fireTimer.2 := by
  cases hd : w.dueTimer with
  | mk d o =>
    cases o with
    | none =>
      rw [fireTimer_none hd]
      exact .of_parts rfl rfl rfl
    | some i =>
      rw [fireTimer_some hd]
      have hn : SameKeys w { w with virtualNow := d } := .of_parts rfl rfl rfl
      exact hn.trans (.modScript _ i fun _ => rfl)

omit [CDouble F] in
theorem volumeLoadEconomy_sameKeys (w : World F) : SameKeys w w.volumeLoadEconomy := by
  unfold World.volumeLoadEconomy
  split <;> exact .of_parts rfl rfl rfl

theorem loopHead_leading : Leading env (loopHead : VM F Phase) := by
  have hlimit : Leading env (limitReached : VM F Bool) := by
    refine .bind (.get _) fun _ => .ite (.pure true) (.bind (.get _) fun _ => .ite ?_ (.pure false))
    exact .bind (.call fun _ => Leads.of_same (.of_parts rfl rfl rfl)) fun _ => .read _
  exact .bind hlimit fun _ => .ite (.pure _)
    (.bind (.call fun w => Leads.of_same (fireTimer_sameKeys w)) fun _ => .pure _)

theorem startClock_leading : Leading env (startClock : VM F Unit) :=
  .bind (.call fun _ => Leads.of_same (.of_parts rfl rfl rfl)) fun _ =>
    Run.Keeps.update fun _ => Leads.refl _

theorem visitScript_leading (lib : Lib F) (n i : ℕ) (b : Bool) :
    Leading env (visitScript lib n i b) := by
  refine .bind (.get _) fun c => ?_
  split
  · refine .bind (.get _) fun q => ?_
    split
    · exact .pure _
    · exact .bind (Leading.set fun w => .modScript w i fun _ => rfl) fun _ =>
        .bind (dispatchEvent_leading env lib i n _) fun _ =>
          .bind (Leading.part fun _ => ⟨rfl, rfl, rfl⟩) fun _ => .pure _
  · exact .pure _

theorem exitState_leading (lib : Lib F) (n i : ℕ) (old : Option ℕ) :
    Leading env (exitState lib n i old) := by
  refine .bind (.get _) fun p => ?_
  split
  · exact .pure ()
  · exact vmDispatch_leading env lib i n _ []

theorem commandsPump_leads (w : World F) : Leads env w w.commandsPump.2 := by
  cases hl : w.commandLines[w.nextCommand]? with
  | none =>
    have hc : w.commandsPump = (false, w) := by
      unfold World.commandsPump
      rw [hl]
    rw [hc]
    exact .refl w
  | some line =>
    have hc : w.commandsPump =
        (true, { w with nextCommand := w.nextCommand+1 }.runCommand line) := by
      unfold World.commandsPump
      rw [hl]
    have hn : SameKeys w { w with nextCommand := w.nextCommand+1 } := .of_parts rfl rfl rfl
    rw [hc]
    exact (Leads.of_same hn).trans (runCommand_leads env _ line)

theorem pump_leading (next last : Phase) : Leading env (pump next last : VM F Phase) :=
  .bind (.call fun w => commandsPump_leads env w) fun _ =>
    .ite (.bind (Leading.part fun _ => ⟨rfl, rfl, rfl⟩) fun _ => .pure _) (.pure _)

theorem settleScript_leading (i : ℕ) : Leading env (settleScript i : VM F Phase) := by
  refine .bind (.get _) fun t => ?_
  split
  · exact .pure _
  · exact .bind (Leading.set fun w => .modScript w i fun _ => rfl) fun _ => .pure _

theorem regionStep_leading (lib : Lib F) (fuel : ℕ) (p : Phase) :
    Leading env (regionStep lib fuel p) := by
  cases p with
  | load => exact .bind (Leading.set volumeLoadEconomy_sameKeys) fun _ => .pure _
  | init i =>
    refine .bind (.get _) fun c => .ite ?_ ?_
    · exact .bind (initScript_leading env lib i fuel) fun _ => .pure _
    · exact .bind (startClock_leading env) fun _ => .pure _
  | top => exact loopHead_leading env
  | visit i b => exact visitScript_leading env lib fuel i b
  | settle i => exact settleScript_leading env i
  | exit i old new => exact .bind (exitState_leading env lib fuel i old) fun _ => .pure _
  | entry i new => exact .bind (Leading.set fun w => .pushEvent w i _ _) fun _ => .pure _
  | idle => exact pump_leading env _ _
  | drain => exact pump_leading env _ _
  | save => exact .bind (Leading.part fun _ => ⟨rfl, rfl, rfl⟩) fun _ => .pure _
  | done => exact .pure _

/-- The keys of a run are those made before it and those that it makes. -/
theorem Conf.IsRun.issuing {lib : Lib F} {c : ℕ → Conf F} {n k : ℕ} (h : IsRun lib c n)
    {us : List (KeyUse × Bytes)} (h0 : Issuing env us (c 0).world) (hk : k ≤ n) :
    ∃ new, Issuing env (us ++ new) (c k).world := by
  induction k with
  | zero => exact ⟨[], by rwa [List.append_nil]⟩
  | succ k ih =>
    obtain ⟨new, hi⟩ := ih (by omega)
    obtain ⟨-, fuel, hstep⟩ := h.step k (by omega)
    have hl := regionStep_leading env lib fuel (c k).phase (c k).machine
    rw [hstep] at hl
    obtain ⟨more, hm⟩ := hl _ hi
    exact ⟨new ++ more, by rwa [← List.append_assoc]⟩

end Slemu
