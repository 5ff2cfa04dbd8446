import Slemu.Economy

/-! The L$ economy as a ledger: what a payment may do to the balances, over any run of
payments. -/

namespace Slemu
open Ledger

def uuids (as : List Avatar) : List Bytes := as.map Avatar.uuid

/-- The balances of the table, summed over entries of one UUID. -/
noncomputable def ledger (as : List Avatar) : Bytes →₀ ℤ :=
  (as.map fun a => Finsupp.single a.uuid a.balance).sum

def totalBalance (as : List Avatar) : ℤ := (as.map Avatar.balance).sum

theorem degree_ledger (as : List Avatar) : (ledger as).degree = totalBalance as := by
  unfold ledger totalBalance
  induction as with
  | nil => simp only [List.map_nil, List.sum_nil, map_zero]
  | cons a as ih =>
    simp only [List.map_cons, List.sum_cons, map_add, Finsupp.degree_single, ih]

@[simp] theorem ledger_cons (a : Avatar) (as : List Avatar) :
    ledger (a :: as) = Finsupp.single a.uuid a.balance+ledger as := by
  simp only [ledger, List.map_cons, List.sum_cons]

theorem ledger_of_absent (as : List Avatar) (u : Bytes) (h : u ∉ uuids as) :
    ledger as u = 0 := by
  induction as with
  | nil => rfl
  | cons a as ih =>
    simp only [uuids, List.map_cons, List.mem_cons, not_or] at h
    rw [ledger_cons, Finsupp.add_apply, Finsupp.single_eq_of_ne h.1, ih h.2, add_zero]

theorem ledger_at (as : List Avatar) (hn : (uuids as).Nodup) (i : ℕ) (a : Avatar)
    (h : as[i]? = some a) : ledger as a.uuid = a.balance := by
  induction as generalizing i with
  | nil => simp only [List.getElem?_nil, reduceCtorEq] at h
  | cons b as ih =>
    simp only [uuids, List.map_cons, List.nodup_cons] at hn
    rw [ledger_cons, Finsupp.add_apply]
    cases i with
    | zero =>
      obtain rfl : b = a := by simpa only [List.getElem?_cons_zero, Option.some.injEq] using h
      have h0 : ledger as b.uuid = 0 := ledger_of_absent as b.uuid hn.1
      rw [Finsupp.single_eq_same, h0, add_zero]
    | succ i =>
      rw [List.getElem?_cons_succ] at h
      have hne : a.uuid ≠ b.uuid := by
        intro he
        exact hn.1 (he ▸ List.mem_map_of_mem (List.mem_of_getElem? h))
      rw [Finsupp.single_eq_of_ne hne, zero_add, ih hn.2 i h]

/-! ### The operations of the table on the ledger -/

theorem map_modify_same {α β : Type} {f : α → β} {g : α → α} (h : ∀ a, f (g a) = f a) (k : ℕ)
    (l : List α) : (l.modify k g).map f = l.map f := by
  apply List.ext_getElem?
  intro i
  rw [List.getElem?_map, List.getElem?_map, List.getElem?_modify]
  cases l[i]? with
  | none => rfl
  | some a => by_cases hk : k = i <;> simp [hk, h]

theorem uuids_modify (i : ℕ) (f : Avatar → Avatar) (hf : ∀ a, (f a).uuid = a.uuid)
    (as : List Avatar) : uuids (as.modify i f) = uuids as :=
  map_modify_same hf i as

@[simp] theorem uuids_creditAt (i : ℕ) (amt : ℤ) (as : List Avatar) :
    uuids (creditAt i amt as) = uuids as := by
  unfold creditAt
  rw [uuids_modify]
  intro a
  rfl

theorem ledger_creditAt (i : ℕ) (amt : ℤ) (as : List Avatar) (u : Bytes)
    (h : (uuids as)[i]? = some u) :
    ledger (creditAt i amt as) = ledger as+Finsupp.single u amt := by
  unfold creditAt
  induction as generalizing i with
  | nil => simp only [uuids, List.map_nil, List.getElem?_nil, reduceCtorEq] at h
  | cons a as ih =>
    cases i with
    | zero =>
      obtain rfl : a.uuid = u := by simpa [uuids] using h
      simp only [List.modify_zero_cons, ledger_cons, Finsupp.single_add]
      abel
    | succ i =>
      simp only [List.modify_succ_cons, ledger_cons]
      rw [ih i (by simpa only [uuids, List.map_cons, List.getElem?_cons_succ] using h),
        add_assoc]

/-- Two credits of opposite amounts are a transfer. -/
theorem ledger_payment (src dst : ℕ) (amt : ℤ) (as : List Avatar) (p q : Bytes)
    (hs : (uuids as)[src]? = some p) (hd : (uuids as)[dst]? = some q) :
    ledger (creditAt dst amt (creditAt src (-amt) as)) = transfer (ledger as) p q amt := by
  rw [ledger_creditAt dst amt _ q (by rwa [uuids_creditAt]), ledger_creditAt src (-amt) as p hs]
  simp only [transfer, Finsupp.single_neg, sub_eq_add_neg]

/-- What `region_add_avatar` does to the list of UUIDs. -/
theorem uuids_addAvatar (u : Bytes) (b : ℤ) (nm : Option Bytes) (as : List Avatar) :
    uuids (addAvatar u b nm as).1 = if u ∈ uuids as then uuids as else uuids as ++ [u] := by
  induction as with
  | nil => rfl
  | cons a as ih =>
    unfold addAvatar
    by_cases hu : a.uuid = u
    · simp [uuids, hu]
    · have hu' : u ≠ a.uuid := Ne.symm hu
      simp only [if_neg hu, uuids, List.map_cons, List.mem_cons, hu', false_or]
      unfold uuids at ih
      rw [ih]
      split <;> rfl

theorem nodup_addAvatar (u : Bytes) (b : ℤ) (nm : Option Bytes) (as : List Avatar)
    (hn : (uuids as).Nodup) : (uuids (addAvatar u b nm as).1).Nodup := by
  rw [uuids_addAvatar]
  split
  · exact hn
  · rename_i hu
    have hd : (uuids as).Disjoint [u] := List.disjoint_singleton.mpr hu
    exact hn.append (List.nodup_singleton u) hd

/-- The table only grows: an index keeps its UUID. -/
theorem getElem?_addAvatar (u : Bytes) (b : ℤ) (nm : Option Bytes) (as : List Avatar) (i : ℕ)
    (v : Bytes) (h : (uuids as)[i]? = some v) :
    (uuids (addAvatar u b nm as).1)[i]? = some v := by
  rw [uuids_addAvatar]
  split
  · exact h
  · rw [List.getElem?_append_left (List.getElem?_eq_some_iff.mp h).1, h]

/-- The entry that `region_add_avatar` reports is the one of the UUID it was given. -/
theorem addAvatar_index (u : Bytes) (b : ℤ) (nm : Option Bytes) (as : List Avatar) :
    (uuids (addAvatar u b nm as).1)[(addAvatar u b nm as).2]? = some u := by
  induction as with
  | nil => rfl
  | cons a as ih =>
    unfold addAvatar
    by_cases hu : a.uuid = u
    · simp [uuids, hu]
    · simpa only [if_neg hu, uuids, List.map_cons, List.getElem?_cons_succ] using ih

/-- An entry with balance 0 for a UUID without money changes no balance. -/
theorem ledger_addAvatar_zero (u : Bytes) (nm : Option Bytes) (as : List Avatar)
    (hn : (uuids as).Nodup) (h0 : ledger as u = 0) :
    ledger (addAvatar u 0 nm as).1 = ledger as := by
  induction as with
  | nil => simp [addAvatar, ledger]
  | cons a as ih =>
    unfold addAvatar
    by_cases hu : a.uuid = u
    · have hb : ledger (a :: as) a.uuid = a.balance :=
        ledger_at (a :: as) hn 0 a List.getElem?_cons_zero
      rw [hu, h0] at hb
      simp only [if_pos hu, ledger_cons, ← hb]
    · have hs : Finsupp.single a.uuid a.balance u = 0 := Finsupp.single_eq_of_ne (Ne.symm hu)
      have h0' : ledger as u = 0 := by
        rwa [ledger_cons, Finsupp.add_apply, hs, zero_add] at h0
      simp only [if_neg hu, ledger_cons, ih (List.nodup_cons.mp hn).2 h0']

theorem lastAvatar_some (u : Bytes) (as : List Avatar) (i : ℕ) (h : lastAvatar u as = some i) :
    (uuids as)[i]? = some u := by
  induction as generalizing i with
  | nil => cases h
  | cons a as ih =>
    unfold lastAvatar at h
    cases hl : lastAvatar u as with
    | some j =>
      rw [hl] at h
      obtain rfl : j+1 = i := Option.some.inj h
      simpa only [uuids, List.map_cons, List.getElem?_cons_succ] using ih j hl
    | none =>
      simp only [hl] at h
      by_cases hu : a.uuid = u
      · rw [if_pos hu] at h
        obtain rfl : 0 = i := Option.some.inj h
        simp only [uuids, List.map_cons, List.getElem?_cons_zero, hu]
      · rw [if_neg hu] at h
        cases h

theorem lastAvatar_none (u : Bytes) (as : List Avatar) (h : lastAvatar u as = none) :
    u ∉ uuids as := by
  induction as with
  | nil => exact List.not_mem_nil
  | cons a as ih =>
    unfold lastAvatar at h
    cases hl : lastAvatar u as with
    | some j => simp only [hl] at h; cases h
    | none =>
      simp only [hl] at h
      by_cases hu : a.uuid = u
      · rw [if_pos hu] at h
        cases h
      · simp only [uuids, List.map_cons, List.mem_cons, not_or]
        exact ⟨Ne.symm hu, ih hl⟩

/-! ### Payments

A payment is asked for by a script or from outside; the economy grants or refuses it. -/

structure Payment where
  payer : Bytes
  payee : Bytes
  amt : ℤ

variable {F : Type}

/-- What a payment request does: it moves money that the payer has and reports the payment, or
it leaves every balance as it was, because the payer has too little. -/
inductive Settles (w w' : World F) : Option Payment → Prop
  | nothing (h : ledger w'.avatars = ledger w.avatars) : Settles w w' none
  | refused (p : Payment) (hlow : ledger w.avatars p.payer < p.amt)
      (h : ledger w'.avatars = ledger w.avatars) : Settles w w' (some p)
  | paid (p : Payment) (hcov : p.amt ≤ ledger w.avatars p.payer)
      (h : ledger w'.avatars = transfer (ledger w.avatars) p.payer p.payee p.amt)
      (hout : w'.out = w.out ++ [(w.virtualNow, .money p.payer p.payee p.amt 1)]) :
      Settles w w' (some p)

theorem Settles.total {w w' : World F} {p : Option Payment} (h : Settles w w' p) :
    totalBalance w'.avatars = totalBalance w.avatars := by
  rw [← degree_ledger, ← degree_ledger]
  cases h with
  | nothing h => rw [h]
  | refused p hlow h => rw [h]
  | paid p hcov h hout => rw [h, degree_transfer]

variable [CDouble F]

/-- The payment a call of `llGiveMoney` stands for, if its script may debit the owner. -/
def giveMoneyRequest (w : World F) (s : ℕ) (a : List (SValue F)) : Option Payment :=
  if hasBit (w.script s).perms 1 then some ⟨w.ownerUuid, argStr a 0, argInt a 1⟩ else none

/-- The payment a `MONEY_FROM` line stands for, if it names a known avatar. -/
def moneyFromRequest (w : World F) (p : Bytes) : Option Payment :=
  match (moneyFromArgs p).1 with
  | none => none
  | some who =>
    if who ∈ uuids w.avatars then
      some ⟨who, (w.avatars.head?.map Avatar.uuid).getD (lit "owner"), (moneyFromArgs p).2⟩
    else none

omit [CDouble F] in
/-- `balanceAt` reads the ledger. -/
theorem balanceAt_eq (w : World F) (hn : (uuids w.avatars).Nodup) (i : ℕ) (u : Bytes)
    (h : (uuids w.avatars)[i]? = some u) : w.balanceAt i = ledger w.avatars u := by
  obtain ⟨a, ha, rfl⟩ : ∃ a, w.avatars[i]? = some a ∧ a.uuid = u := by
    simpa only [uuids, List.getElem?_map, Option.map_eq_some_iff] using h
  rw [ledger_at w.avatars hn i a ha]
  simp only [World.balanceAt, List.getD_eq_getElem?_getD, ha, Option.getD_some]

/-- The lookup that adds an entry where there is none: the reported index belongs to the UUID,
and no balance and no earlier index changes. -/
structure Enters (w w' : World F) (u : Bytes) (i : ℕ) : Prop where
  nodup : (uuids w'.avatars).Nodup
  ledger_eq : ledger w'.avatars = ledger w.avatars
  index : (uuids w'.avatars)[i]? = some u
  keeps : ∀ (j : ℕ) (v : Bytes), (uuids w.avatars)[j]? = some v → (uuids w'.avatars)[j]? = some v
  out : w'.out = w.out
  now : w'.virtualNow = w.virtualNow

omit [CDouble F] in
theorem enterAvatar_enters (w : World F) (hn : (uuids w.avatars).Nodup) (found : Option ℕ)
    (u : Bytes) (hf : ∀ i, found = some i → (uuids w.avatars)[i]? = some u)
    (h0 : found = none → ledger w.avatars u = 0) :
    Enters w (w.enterAvatar found u).2 u (w.enterAvatar found u).1 := by
  cases found with
  | some i => exact ⟨hn, rfl, hf i rfl, fun _ _ hj => hj, rfl, rfl⟩
  | none =>
    exact ⟨nodup_addAvatar u 0 none _ hn, ledger_addAvatar_zero u none _ hn (h0 rfl),
      addAvatar_index u 0 none _, getElem?_addAvatar u 0 none _, rfl, rfl⟩

theorem ledger_of_lastAvatar_none (u : Bytes) (as : List Avatar) (h : lastAvatar u as = none) :
    ledger as u = 0 :=
  ledger_of_absent as u (lastAvatar_none u as h)

theorem llGiveMoney_settles (w : World F) (s : ℕ) (a : List (SValue F))
    (hn : (uuids w.avatars).Nodup) :
    (uuids (w.llGiveMoney s a).2.avatars).Nodup ∧
      Settles w (w.llGiveMoney s a).2 (giveMoneyRequest w s a) := by
  unfold World.llGiveMoney giveMoneyRequest
  cases hp : hasBit (w.script s).perms 1 with
  | false => exact ⟨hn, .nothing rfl⟩
  | true =>
    simp only [Bool.not_true, Bool.false_eq_true, if_false, if_true]
    -- the lookups leave both parties with an entry; the owner is looked up in the table from
    -- before the recipient was added
    have hd := enterAvatar_enters w hn (lastAvatar (argStr a 0) w.avatars) (argStr a 0)
      (lastAvatar_some _ _) (ledger_of_lastAvatar_none _ _)
    generalize w.enterAvatar (lastAvatar (argStr a 0) w.avatars) (argStr a 0) = d at hd ⊢
    have ho := enterAvatar_enters d.2 hd.nodup (lastAvatar w.ownerUuid w.avatars) w.ownerUuid
      (fun i hi => hd.keeps i _ (lastAvatar_some _ _ i hi))
      (fun hi => hd.ledger_eq ▸ ledger_of_lastAvatar_none _ _ hi)
    generalize d.2.enterAvatar (lastAvatar w.ownerUuid w.avatars) w.ownerUuid = o at ho ⊢
    have hL : ledger o.2.avatars = ledger w.avatars := ho.ledger_eq.trans hd.ledger_eq
    have hb : o.2.balanceAt o.1 = ledger w.avatars w.ownerUuid := by
      rw [balanceAt_eq o.2 ho.nodup o.1 _ ho.index, hL]
    split
    · rename_i hlt
      rw [hb] at hlt
      exact ⟨ho.nodup, .refused _ hlt hL⟩
    · rename_i hle
      rw [hb, not_lt] at hle
      refine ⟨by simpa only [World.emit, uuids_creditAt] using ho.nodup, .paid _ hle ?_ ?_⟩
      · simp only [World.emit]
        rw [ledger_payment o.1 d.1 _ _ _ _ ho.index (ho.keeps d.1 _ hd.index), hL]
      · simp only [World.emit, ho.out, hd.out, ho.now, hd.now]

omit [CDouble F] in
theorem regionFindAvatar_some (w : World F) (u : Bytes) (i : ℕ)
    (h : w.regionFindAvatar u = some i) : (uuids w.avatars)[i]? = some u := by
  obtain ⟨hi, hu, -⟩ := List.findIdx?_eq_some_iff_getElem.mp h
  simpa [uuids, hi] using hu

omit [CDouble F] in
theorem regionFindAvatar_none (w : World F) (u : Bytes) (h : w.regionFindAvatar u = none) :
    u ∉ uuids w.avatars := by
  intro hu
  obtain ⟨a, ha, rfl⟩ := List.mem_map.mp hu
  have := List.findIdx?_eq_none_iff.mp h a ha
  simp at this

omit [CDouble F] in
theorem payFrom_settles (w : World F) (src : ℕ) (who payee : Bytes) (n : ℤ)
    (hn : (uuids w.avatars).Nodup) (hsrc : (uuids w.avatars)[src]? = some who)
    (hdst : (uuids w.avatars)[0]? = some payee) :
    (uuids (w.payFrom src who n).avatars).Nodup ∧
      Settles w (w.payFrom src who n) (some ⟨who, payee, n⟩) := by
  have hb : w.balanceAt src = ledger w.avatars who := balanceAt_eq w hn src who hsrc
  unfold World.payFrom
  split
  · rename_i hlt
    rw [hb] at hlt
    exact ⟨hn, .refused _ hlt rfl⟩
  · rename_i hle
    rw [hb, not_lt] at hle
    have hne : creditAt src (-n) w.avatars ≠ [] := by
      intro he
      rw [← uuids_creditAt src (-n), he] at hsrc
      simp only [uuids, List.map_nil, List.getElem?_nil, reduceCtorEq] at hsrc
    have hn2 : (uuids (creditAt 0 n (creditAt src (-n) w.avatars))).Nodup := by
      rwa [uuids_creditAt, uuids_creditAt]
    have hL := ledger_payment src 0 n w.avatars who payee hsrc hdst
    have hhead : (creditAt 0 n (creditAt src (-n) w.avatars)).head?.map Avatar.uuid =
        some payee := by
      rw [← List.head?_map, List.head?_eq_getElem?]
      change (uuids _)[0]? = some payee
      rwa [uuids_creditAt, uuids_creditAt]
    simp only [if_neg hne]
    -- the event for the first script leaves the table alone
    split
    · exact ⟨hn2, .paid _ hle hL (by simp only [World.emit, hhead, Option.getD_some])⟩
    · exact ⟨hn2, .paid _ hle hL (by
        simp only [World.emit, World.pushEvent, World.pushDue, World.modScript, hhead, Option.getD_some])⟩

omit [CDouble F] in
theorem cmdMoneyFrom_settles (w : World F) (p : Bytes) (hn : (uuids w.avatars).Nodup) :
    (uuids (w.cmdMoneyFrom p).avatars).Nodup ∧
      Settles w (w.cmdMoneyFrom p) (moneyFromRequest w p) := by
  unfold World.cmdMoneyFrom moneyFromRequest
  rcases moneyFromArgs p with ⟨_ | who, n⟩
  · exact ⟨hn, .nothing rfl⟩
  · dsimp only
    cases hsrc : w.regionFindAvatar who with
    | none =>
      rw [if_neg (regionFindAvatar_none w who hsrc)]
      exact ⟨hn, .nothing rfl⟩
    | some src =>
      have hi : (uuids w.avatars)[src]? = some who := regionFindAvatar_some w who src hsrc
      have hu : who ∈ uuids w.avatars := List.mem_of_getElem? hi
      rw [if_pos hu]
      refine payFrom_settles w src who _ n hn hi ?_
      cases has : w.avatars with
      | nil => simp [has, uuids] at hu
      | cons a as => rfl

theorem llTransferLindenDollars_settles (w : World F) (s : ℕ) (a : List (SValue F))
    (hn : (uuids w.avatars).Nodup) :
    (uuids (w.llTransferLindenDollars s a).2.avatars).Nodup ∧
      Settles w (w.llTransferLindenDollars s a).2 (giveMoneyRequest w s a) := by
  have hav : (w.llTransferLindenDollars s a).2.avatars = (w.llGiveMoney s a).2.avatars := rfl
  have hout : (w.llTransferLindenDollars s a).2.out = (w.llGiveMoney s a).2.out := rfl
  obtain ⟨hn', h⟩ := llGiveMoney_settles w s a hn
  refine ⟨hav ▸ hn', ?_⟩
  generalize giveMoneyRequest w s a = p at h ⊢
  cases h with
  | nothing h => exact .nothing (hav ▸ h)
  | refused p hlow h => exact .refused p hlow (hav ▸ h)
  | paid p hcov h ho => exact .paid p hcov (hav ▸ h) (hout ▸ ho)

/-! ### Runs

Payments in any order, with anything else that leaves the avatar table alone in between. -/

inductive Move (F : Type)
  | giveMoney (s : ℕ) (a : List (SValue F))
  | transfer (s : ℕ) (a : List (SValue F))
  | moneyFrom (line : Bytes)
  | elsewhere (w : World F)

def Move.step (w : World F) : Move F → World F
  | .giveMoney s a => (w.llGiveMoney s a).2
  | .transfer s a => (w.llTransferLindenDollars s a).2
  | .moneyFrom line => w.cmdMoneyFrom line
  | .elsewhere w' => { w' with avatars := w.avatars }

def Move.request (w : World F) : Move F → Option Payment
  | .giveMoney s a | .transfer s a => giveMoneyRequest w s a
  | .moneyFrom line => moneyFromRequest w line
  | .elsewhere _ => none

def runMoves (w : World F) (ms : List (Move F)) : World F := ms.foldl Move.step w

theorem Move.step_settles (w : World F) (m : Move F) (hn : (uuids w.avatars).Nodup) :
    (uuids (m.step w).avatars).Nodup ∧ Settles w (m.step w) (m.request w) := by
  cases m with
  | giveMoney s a => exact llGiveMoney_settles w s a hn
  | transfer s a => exact llTransferLindenDollars_settles w s a hn
  | moneyFrom line => exact cmdMoneyFrom_settles w line hn
  | elsewhere w' => exact ⟨hn, .nothing rfl⟩

theorem runMoves_total (w : World F) (ms : List (Move F)) (hn : (uuids w.avatars).Nodup) :
    (uuids (runMoves w ms).avatars).Nodup ∧
      totalBalance (runMoves w ms).avatars = totalBalance w.avatars := by
  induction ms generalizing w with
  | nil => exact ⟨hn, rfl⟩
  | cons m ms ih =>
    obtain ⟨hn1, hs⟩ := m.step_settles w hn
    obtain ⟨hn2, ht⟩ := ih (m.step w) hn1
    exact ⟨hn2, ht.trans hs.total⟩

/-! ### Regions

How main.c, config.c and `region_run` fill the avatar table. -/

inductive RegionCall
  | addAvatar (uuid : Bytes) (balance : ℤ) (name : Option Bytes)
  | setOwner (uuid : Bytes) (name : Option Bytes)

def RegionCall.apply (w : World F) : RegionCall → World F
  | .addAvatar uuid balance name => (w.regionAddAvatar uuid balance name).2
  | .setOwner uuid name => w.regionSetOwner uuid name

/-- A region with the avatars of some calls, once `region_run` has loaded the economy. -/
def economyLoaded (w : World F) (calls : List RegionCall) : World F :=
  (calls.foldl RegionCall.apply { w with avatars := [] }).volumeLoadEconomy

theorem nodup_loadEconomy (text : Bytes) (as : List Avatar) (hn : (uuids as).Nodup) :
    (uuids (loadEconomy text as)).Nodup := by
  unfold loadEconomy
  induction fgetsLines 511 text.length text generalizing as with
  | nil => exact hn
  | cons line lines ih =>
    apply ih
    unfold loadEconomyLine
    cases economyLine line with
    | none => exact hn
    | some r =>
      simp only
      split <;> exact nodup_addAvatar _ _ _ as hn

omit [CDouble F] in
theorem nodup_apply (w : World F) (c : RegionCall) (hn : (uuids w.avatars).Nodup) :
    (uuids (c.apply w).avatars).Nodup := by
  cases c with
  | addAvatar uuid balance name => exact nodup_addAvatar uuid balance name w.avatars hn
  | setOwner uuid name =>
    simp only [RegionCall.apply, World.regionSetOwner]
    split
    · rw [uuids_modify _ _ (fun a => by split <;> rfl)]
      exact hn
    · exact nodup_addAvatar uuid 0 name w.avatars hn

omit [CDouble F] in
theorem nodup_calls (w : World F) (calls : List RegionCall) (hn : (uuids w.avatars).Nodup) :
    (uuids (calls.foldl RegionCall.apply w).avatars).Nodup := by
  induction calls generalizing w with
  | nil => exact hn
  | cons c calls ih => exact ih (c.apply w) (nodup_apply w c hn)

omit [CDouble F] in
theorem nodup_economyLoaded (w : World F) (calls : List RegionCall) :
    (uuids (economyLoaded w calls).avatars).Nodup := by
  have hcalls := nodup_calls { w with avatars := [] } calls List.nodup_nil
  unfold economyLoaded World.volumeLoadEconomy
  generalize calls.foldl RegionCall.apply { w with avatars := [] } = v at hcalls ⊢
  cases v.volume.bind Volume.economy with
  | none => exact hcalls
  | some text => exact nodup_loadEconomy text v.avatars hcalls

/-- Whatever payments are asked for, in any order, the money in the region stays the same and
no avatar gets a second entry. -/
theorem runMoves_conserves_money (w : World F) (calls : List RegionCall) (ms : List (Move F)) :
    totalBalance (runMoves (economyLoaded w calls) ms).avatars =
        totalBalance (economyLoaded w calls).avatars ∧
      (uuids (runMoves (economyLoaded w calls) ms).avatars).Nodup :=
  (runMoves_total (economyLoaded w calls) ms (nodup_economyLoaded w calls)).symm

/-! ### Overdrafts -/

def NoDebt (as : List Avatar) : Prop := ∀ a ∈ as, 0 ≤ a.balance

instance (as : List Avatar) : Decidable (NoDebt as) :=
  inferInstanceAs (Decidable (∀ a ∈ as, 0 ≤ a.balance))

/-- The balance of an avatar, 0 for one that the table does not have. -/
def balanceOf (as : List Avatar) (u : Bytes) : ℤ :=
  ((as.find? fun a => a.uuid = u).map Avatar.balance).getD 0

theorem balanceOf_eq_ledger (as : List Avatar) (hn : (uuids as).Nodup) (u : Bytes) :
    balanceOf as u = ledger as u := by
  unfold balanceOf
  cases hf : as.find? fun a => a.uuid = u with
  | none =>
    have hu : u ∉ uuids as := by
      intro hu
      obtain ⟨a, ha, rfl⟩ := List.mem_map.mp hu
      simpa using List.find?_eq_none.mp hf a ha
    rw [ledger_of_absent as u hu, Option.map_none, Option.getD_none]
  | some a =>
    obtain ⟨i, hi⟩ := List.getElem?_of_mem (List.mem_of_find?_eq_some hf)
    have hu : a.uuid = u := by simpa using List.find?_some hf
    rw [Option.map_some, Option.getD_some, ← hu, ledger_at as hn i a hi]

theorem noDebt_iff (as : List Avatar) (hn : (uuids as).Nodup) :
    NoDebt as ↔ Solvent (ledger as) := by
  constructor
  · intro h u
    rw [← balanceOf_eq_ledger as hn u]
    unfold balanceOf
    cases hf : as.find? fun a => a.uuid = u with
    | none => exact le_refl 0
    | some a => exact h a (List.mem_of_find?_eq_some hf)
  · intro h a ha
    obtain ⟨i, hi⟩ := List.getElem?_of_mem ha
    rw [← ledger_at as hn i a hi]
    exact h a.uuid

/-- A payment reported as made leaves its recipient with at least as much as before. -/
def FairReport (w w' : World F) : Prop :=
  ∀ t src dst amt, w'.out = w.out ++ [(t, .money src dst amt 1)] →
    balanceOf w.avatars dst ≤ balanceOf w'.avatars dst

/-- No avatar is in debt at any point of the run, and every reported payment is fair. -/
def NoOverdraft (w : World F) : List (Move F) → Prop
  | [] => NoDebt w.avatars
  | m :: ms => NoDebt w.avatars ∧ FairReport w (m.step w) ∧ NoOverdraft (m.step w) ms

/-- The move asks for no negative payment to somebody else. -/
def Move.Lawful (w : World F) (m : Move F) : Prop :=
  ∀ p, m.request w = some p → 0 ≤ p.amt ∨ p.payer = p.payee

instance (w : World F) (m : Move F) : Decidable (m.Lawful w) :=
  inferInstanceAs (Decidable (∀ p ∈ m.request w, 0 ≤ p.amt ∨ p.payer = p.payee))

def AllLawful (w : World F) : List (Move F) → Prop
  | [] => True
  | m :: ms => m.Lawful w ∧ AllLawful (m.step w) ms

/-- One move from a table without debt: the report is fair exactly for a lawful move. -/
theorem Move.fairReport_iff (w : World F) (m : Move F) (hn : (uuids w.avatars).Nodup)
    (h0 : NoDebt w.avatars) : FairReport w (m.step w) ↔ m.Lawful w := by
  obtain ⟨hn', hs⟩ := m.step_settles w hn
  unfold FairReport Move.Lawful
  simp only [balanceOf_eq_ledger _ hn, balanceOf_eq_ledger _ hn']
  generalize m.request w = r at hs ⊢
  cases hs with
  | nothing h => simp only [h, le_refl, implies_true, reduceCtorEq, false_implies]
  | refused p hlow h =>
    have hp : 0 ≤ p.amt := le_of_lt (lt_of_le_of_lt ((noDebt_iff _ hn).mp h0 p.payer) hlow)
    simp only [h, le_refl, implies_true, Option.some.injEq, forall_eq', hp, true_or]
  | paid p hcov h hout =>
    simp only [Option.some.injEq, forall_eq']
    rw [← le_transfer_dst (ledger w.avatars), ← h]
    constructor
    · intro hf
      exact hf _ _ _ _ hout
    · intro hle t src dst amt ho
      have he := List.append_cancel_left (hout.symm.trans ho)
      simp only [List.cons.injEq, Prod.mk.injEq, Evt.money.injEq, and_true] at he
      exact he.2.2.1 ▸ hle

/-- A lawful move puts nobody into debt. -/
theorem Move.step_noDebt (w : World F) (m : Move F) (hn : (uuids w.avatars).Nodup)
    (h0 : NoDebt w.avatars) (hm : m.Lawful w) : NoDebt (m.step w).avatars := by
  obtain ⟨hn', hs⟩ := m.step_settles w hn
  rw [noDebt_iff _ hn] at h0
  rw [noDebt_iff _ hn']
  unfold Move.Lawful at hm
  generalize m.request w = r at hs hm
  cases hs with
  | nothing h => exact h ▸ h0
  | refused p hlow h => exact h ▸ h0
  | paid p hcov h hout =>
    rw [h]
    exact h0.transfer p.payer p.payee p.amt hcov (hm p rfl)

theorem noOverdraft_iff (w : World F) (ms : List (Move F)) (hn : (uuids w.avatars).Nodup)
    (h0 : NoDebt w.avatars) : NoOverdraft w ms ↔ AllLawful w ms := by
  induction ms generalizing w with
  | nil => exact iff_of_true h0 trivial
  | cons m ms ih =>
    unfold NoOverdraft AllLawful
    rw [m.fairReport_iff w hn h0]
    simp only [h0, true_and]
    apply and_congr_right
    intro hm
    exact ih (m.step w) (m.step_settles w hn).1 (m.step_noDebt w hn h0 hm)

/-- A region with one script, which may debit the owner. -/
def debitRegion : World ℚ :=
  { regionInit default with scripts := [{ (default : Script ℚ) with perms := 2 }] }

end Slemu
