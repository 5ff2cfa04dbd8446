import Slemu.Money
import Slemu.Listens

/-! Payments that are refused, and the avatar table. -/

namespace Slemu
variable {F : Type}

theorem addAvatar_of_absent (u : Bytes) (b : ℤ) (nm : Option Bytes) {as : List Avatar}
    (h : u ∉ uuids as) : addAvatar u b nm as = (as ++ [⟨u, nm.getD [], b, none⟩], as.length) := by
  induction as with
  | nil => rfl
  | cons a as ih =>
    rw [uuids, List.map_cons, List.mem_cons, not_or] at h
    rw [addAvatar, if_neg (Ne.symm h.1), ih h.2]
    rfl

/-- The entry that is reported has the balance that was given. -/
theorem addAvatar_balance (u : Bytes) (b : ℤ) (nm : Option Bytes) (as : List Avatar) :
    ((addAvatar u b nm as).1.getD (addAvatar u b nm as).2 default).balance = b := by
  induction as with
  | nil => rfl
  | cons a as ih =>
    unfold addAvatar
    split_ifs
    · rfl
    · exact ih

theorem lastAvatar_isSome_iff (u : Bytes) (as : List Avatar) :
    (lastAvatar u as).isSome ↔ u ∈ uuids as := by
  cases h : lastAvatar u as with
  | none => exact iff_of_false Bool.false_ne_true (lastAvatar_none u as h)
  | some i => exact iff_of_true rfl (List.mem_of_getElem? (lastAvatar_some u as i h))

/-- The entries that are there stay as they are. -/
theorem enterAvatar_keeps {w : World F} {u : Bytes} {i : ℕ} (hi : i < w.avatars.length) :
    (w.enterAvatar (lastAvatar u w.avatars) u).2.balanceAt i = w.balanceAt i := by
  cases h : lastAvatar u w.avatars with
  | some j => rfl
  | none =>
    change ((addAvatar u 0 none w.avatars).1.getD i default).balance = _
    rw [addAvatar_of_absent u 0 none (lastAvatar_none u _ h), List.getD_append _ _ _ _ hi]
    rfl

theorem enterAvatar_length (w : World F) (found : Option ℕ) (u : Bytes) :
    w.avatars.length ≤ (w.enterAvatar found u).2.avatars.length := by
  cases found with
  | some i => exact le_rfl
  | none =>
    change w.avatars.length ≤ (addAvatar u 0 none w.avatars).1.length
    have h := congrArg List.length (uuids_addAvatar u 0 none w.avatars)
    rw [uuids, List.length_map] at h
    rw [h]
    split_ifs
    · rw [uuids, List.length_map]
    · rw [List.length_append, uuids, List.length_map]
      exact Nat.le_add_right _ _

theorem enterAvatar_grows {w : World F} {u : Bytes} (h : u ∉ uuids w.avatars) :
    (w.enterAvatar none u).2.avatars.length = w.avatars.length+1 := by
  change (addAvatar u 0 none w.avatars).1.length = _
  rw [addAvatar_of_absent u 0 none h, List.length_append]
  rfl

/-- What the owner can pay: nothing, if the table has no entry for it. -/
def ownerFunds (w : World F) : ℤ := ((lastAvatar w.ownerUuid w.avatars).map w.balanceAt).getD 0

/-- The table when the funds are looked at, with entries for both parties. -/
def withParties (w : World F) (dest : Bytes) : ℕ × World F :=
  let d := w.enterAvatar (lastAvatar dest w.avatars) dest
  d.2.enterAvatar (lastAvatar w.ownerUuid w.avatars) w.ownerUuid

theorem balanceAt_withParties (w : World F) (dest : Bytes) :
    (withParties w dest).2.balanceAt (withParties w dest).1 = ownerFunds w := by
  unfold withParties ownerFunds
  cases h : lastAvatar w.ownerUuid w.avatars with
  | none => exact addAvatar_balance _ _ _ _
  | some i =>
    have hi := (List.getElem?_eq_some_iff.mp (lastAvatar_some _ _ i h)).1
    rw [uuids, List.length_map] at hi
    exact enterAvatar_keeps hi

/-- The table is as before exactly if it had both parties. -/
theorem avatars_withParties_iff (w : World F) (dest : Bytes) :
    (withParties w dest).2.avatars = w.avatars ↔
      dest ∈ uuids w.avatars ∧ w.ownerUuid ∈ uuids w.avatars := by
  unfold withParties
  dsimp only
  constructor
  · intro h
    have hlen := congrArg List.length h
    by_cases hd : dest ∈ uuids w.avatars
    · refine ⟨hd, ?_⟩
      by_contra ho
      obtain ⟨j, hj⟩ := Option.isSome_iff_exists.mp ((lastAvatar_isSome_iff dest _).mpr hd)
      have hnone : lastAvatar w.ownerUuid w.avatars = none := by
        rw [← Option.not_isSome_iff_eq_none, lastAvatar_isSome_iff]
        exact ho
      rw [hj, hnone] at hlen
      have hgrow := enterAvatar_grows ho
      change (w.enterAvatar none w.ownerUuid).2.avatars.length = _ at hlen
      omega
    · have hnone : lastAvatar dest w.avatars = none := by
        rw [← Option.not_isSome_iff_eq_none, lastAvatar_isSome_iff]
        exact hd
      rw [hnone] at hlen
      have hgrow := enterAvatar_grows hd
      have hle := enterAvatar_length (w.enterAvatar none dest).2
        (lastAvatar w.ownerUuid w.avatars) w.ownerUuid
      omega
  · rintro ⟨hd, ho⟩
    obtain ⟨j, hj⟩ := Option.isSome_iff_exists.mp ((lastAvatar_isSome_iff dest _).mpr hd)
    obtain ⟨i, hi⟩ := Option.isSome_iff_exists.mp ((lastAvatar_isSome_iff w.ownerUuid _).mpr ho)
    rw [hj, hi]
    rfl

variable [CDouble F]

/-- The outcome of `llGiveMoney` with permission. -/
theorem llGiveMoney_of_debit {w : World F} {s : ℕ} {a : List (SValue F)}
    (h : hasBit (w.script s).perms 1) :
    (ownerFunds w < argInt a 1 ∧
        w.llGiveMoney s a = (.int 0, (withParties w (argStr a 0)).2)) ∨
      (argInt a 1 ≤ ownerFunds w ∧ (w.llGiveMoney s a).1 = .int 1) := by
  have hfunds := balanceAt_withParties w (argStr a 0)
  unfold World.llGiveMoney
  rw [h, Bool.not_true]
  rcases lt_or_ge (ownerFunds w) (argInt a 1) with hlt | hge
  · refine Or.inl ⟨hlt, ?_⟩
    rw [← hfunds] at hlt
    exact if_pos hlt
  · refine Or.inr ⟨hge, ?_⟩
    rw [← hfunds] at hge
    exact congrArg Prod.fst (if_neg (not_lt.mpr hge))

/-- The avatar table is the same, and so is the `economy.txt` that is written from it. -/
structure SameTable (w w' : World F) : Prop where
  avatars : w'.avatars = w.avatars
  file : w'.volumeSaveEconomy.volume = w.volumeSaveEconomy.volume

/-- A call of `llGiveMoney` that returns 0 and one of `llTransferLindenDollars` that reports 0 leave the
table as it was. -/
structure RefusalsLeave (w : World F) (s : ℕ) (a : List (SValue F)) : Prop where
  give : (w.llGiveMoney s a).1 = .int 0 → SameTable w (w.llGiveMoney s a).2
  transfer : ∀ key msg, Sends w (w.llTransferLindenDollars s a).2 s
      ⟨lit "transaction_result", [.key key, .int 0, .string msg]⟩ →
    SameTable w (w.llTransferLindenDollars s a).2

omit [CDouble F] in
theorem enterAvatar_volume (w : World F) (found : Option ℕ) (u : Bytes) :
    (w.enterAvatar found u).2.volume = w.volume ∧ (w.enterAvatar found u).2.scripts = w.scripts := by
  cases found with
  | some i => exact ⟨rfl, rfl⟩
  | none => exact ⟨rfl, rfl⟩

theorem llGiveMoney_volume (w : World F) (s : ℕ) (a : List (SValue F)) :
    (w.llGiveMoney s a).2.volume = w.volume ∧ (w.llGiveMoney s a).2.scripts = w.scripts := by
  obtain ⟨hdv, hds⟩ := enterAvatar_volume w (lastAvatar (argStr a 0) w.avatars) (argStr a 0)
  obtain ⟨hov, hos⟩ := enterAvatar_volume
    (w.enterAvatar (lastAvatar (argStr a 0) w.avatars) (argStr a 0)).2
    (lastAvatar w.ownerUuid w.avatars) w.ownerUuid
  unfold World.llGiveMoney
  dsimp only
  split_ifs
  · exact ⟨rfl, rfl⟩
  · exact ⟨hov.trans hdv, hos.trans hds⟩
  · exact ⟨hov.trans hdv, hos.trans hds⟩

omit [CDouble F] in
theorem SameTable.of_avatars {w w' : World F} (h : w'.avatars = w.avatars)
    (hv : w'.volume = w.volume) : SameTable w w' := by
  refine ⟨h, ?_⟩
  unfold World.volumeSaveEconomy
  rw [h, hv]

/-- The event that a transfer reports with carries what `llGiveMoney` returned. -/
theorem sends_transfer {w : World F} {s : ℕ} {a : List (SValue F)} {key msg : Bytes}
    (h : Sends w (w.llTransferLindenDollars s a).2 s
      ⟨lit "transaction_result", [.key key, .int 0, .string msg]⟩) :
    (w.llGiveMoney s a).1 ≠ .int 1 := by
  intro hone
  have hgive : ((w.llGiveMoney s a).2.genUuid.2.script s).history = (w.script s).history := by
    have hs : (w.llGiveMoney s a).2.genUuid.2.scripts = w.scripts := (llGiveMoney_volume w s a).2
    rw [World.script, World.script, hs]
  have hpush := pushTimes_history (w.llGiveMoney s a).2.genUuid.2 s s (lit "transaction_result")
    [.key (w.llGiveMoney s a).2.genUuid.1, .int 1, .string []] 1
  have hworld : (w.llTransferLindenDollars s a).2 =
      (w.llGiveMoney s a).2.genUuid.2.pushTimes s (lit "transaction_result")
        [.key (w.llGiveMoney s a).2.genUuid.1, .int 1, .string []] 1 := by
    unfold World.llTransferLindenDollars
    dsimp only
    rw [hone]
    rfl
  rw [hgive] at hpush
  rw [hworld, Sends, newDeeds_eq hpush] at h
  split_ifs at h
  · rw [List.mem_replicate, Deed.push.injEq, Event.mk.injEq] at h
    exact absurd h.2.1.2 (by simp)
  · exact absurd h List.not_mem_nil

/-- Refused payments change nothing exactly if a payment with permission that the owner cannot afford
names an avatar of the table, and the owner is one too. -/
theorem refusals_leave_iff (w : World F) (s : ℕ) (a : List (SValue F)) : RefusalsLeave w s a ↔
    (hasBit (w.script s).perms 1 → ownerFunds w < argInt a 1 →
      argStr a 0 ∈ uuids w.avatars ∧ w.ownerUuid ∈ uuids w.avatars) := by
  constructor
  · intro h hp hlow
    rcases llGiveMoney_of_debit (a := a) hp with ⟨-, hgive⟩ | ⟨hle, -⟩
    · have hsame := h.give (congrArg Prod.fst hgive)
      rw [hgive] at hsame
      exact (avatars_withParties_iff w _).mp hsame.avatars
    · exact absurd hlow (not_lt.mpr hle)
  · intro h
    have hvolume := (llGiveMoney_volume w s a).1
    have hleave (hne : (w.llGiveMoney s a).1 ≠ .int 1) : (w.llGiveMoney s a).2.avatars = w.avatars := by
      cases hp : hasBit (w.script s).perms 1 with
      | false =>
        unfold World.llGiveMoney
        rw [hp]
        rfl
      | true =>
        rcases llGiveMoney_of_debit (a := a) hp with ⟨hlow, hgive⟩ | ⟨-, hone⟩
        · rw [hgive]
          exact (avatars_withParties_iff w _).mpr (h hp hlow)
        · exact absurd hone hne
    refine ⟨fun hzero => ?_, fun key msg hsend => ?_⟩
    · refine .of_avatars (hleave ?_) hvolume
      rw [hzero]
      intro heq
      cases heq
    · exact .of_avatars (hleave (sends_transfer hsend)) hvolume

/-- An owner without money pays to somebody the table does not have. -/
theorem refusal_registers :
    ¬ RefusalsLeave (economyLoaded debitRegion [.addAvatar (lit "owner") 0 none]) 0
      [.key (lit "friend"), .int 5] := by
  intro h
  have hsame := (h.give rfl).avatars
  revert hsame
  decide

end Slemu
