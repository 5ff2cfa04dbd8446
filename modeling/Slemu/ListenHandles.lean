import Slemu.Standing
import Slemu.Listens

/-! Listen handles: what the chain of entries of a script holds, told from the calls alone that
opened, removed and switched entries. -/

namespace Slemu
variable {F : Type}

/-- The builtins that work on listen entries. -/
inductive ListenOp
  | listen
  | remove
  | control
  deriving DecidableEq

/-- A call of one of them, and what it returned. -/
structure ListenCall (F : Type) where
  op : ListenOp
  script : ℕ
  args : List (SValue F)
  result : SValue F

variable [CDouble F]

def ListenOp.builtin : ListenOp → Builtin F
  | .listen => World.llListen
  | .remove => World.llListenRemove
  | .control => World.llListenControl

namespace ListenCall

/-- The handle that a removal or a switch names: its argument as a C `int`. -/
def handle (c : ListenCall F) : ℤ := toCInt (argInt c.args 0)

/-- Script `s` asks for `op` on handle `h`. -/
def Names (c : ListenCall F) (op : ListenOp) (s : ℕ) (h : ℤ) : Prop :=
  c.op = op ∧ c.script = s ∧ c.handle = h

instance (c : ListenCall F) (op : ListenOp) (s : ℕ) (h : ℤ) : Decidable (c.Names op s h) :=
  inferInstanceAs (Decidable (_ ∧ _))

/-- Which way a switch goes. -/
def on (c : ListenCall F) : Bool := toCInt (argInt c.args 1) ≠ 0

end ListenCall

/-- The same entries and the same counter. -/
structure SameEntries (w w' : World F) : Prop where
  listens : w'.scripts.map Script.listens = w.scripts.map Script.listens
  nextHandle : w'.nextHandle = w.nextHandle

/-- The calls made on the way from one world to another, in their order, whatever else happens in
between. -/
inductive Listening (w : World F) : List (ListenCall F) → World F → Prop
  | start : Listening w [] w
  | call {cs : List (ListenCall F)} {v : World F} (op : ListenOp) {s : ℕ} (a : List (SValue F)) :
    Listening w cs v → s < v.scripts.length →
      Listening w (cs ++ [⟨op, s, a, (op.builtin v s a).1⟩]) (op.builtin v s a).2
  | other {cs : List (ListenCall F)} {v v' : World F} :
    Listening w cs v → SameEntries v v' → Listening w cs v'

/-! ### What the calls say -/

/-- The handles returned, in their order. -/
def returned (cs : List (ListenCall F)) : List (SValue F) :=
  (cs.filter fun c => c.op = .listen).map ListenCall.result

/-- How the last switch of handle `h` by script `s` has set it. -/
def switched (cs : List (ListenCall F)) (s : ℕ) (h : ℤ) : Bool :=
  ((cs.filter fun c => c.Names .control s h).getLast?.map ListenCall.on).getD true

/-- Script `s` opened the entry with these filters and has not removed it since; it is as the last
switch left it. -/
def Opened (cs : List (ListenCall F)) (s : ℕ) (le : ListenEntry) : Prop :=
  ∃ pre post a, cs = pre ++ ⟨.listen, s, a, .int le.handle⟩ :: post ∧
    (∀ c ∈ post, ¬ c.Names .remove s le.handle) ∧
    le = ⟨le.handle, toCInt (argInt a 0), argStr a 1, argStr a 2, argStr a 3,
      switched post s le.handle⟩

/-- What holds of the chains after the calls. -/
structure ListenBook (cs : List (ListenCall F)) (v : World F) : Prop where
  /-- No handle is returned twice. -/
  distinct : (returned cs).Nodup
  /-- A handle returned names itself when it is passed on. -/
  exact : ∀ h, .int h ∈ returned cs → toCInt h = h
  /-- The chain of a script holds what it opened and has not removed. -/
  chain : ∀ i < v.scripts.length, ∀ le, le ∈ (v.script i).listens ↔ Opened cs i le
  once : ∀ i, ((v.script i).listens.map ListenEntry.handle).Nodup
  /-- A removal or a switch of anything else changes no chain. -/
  foreign : ∀ op : ListenOp, op ≠ .listen → ∀ s < v.scripts.length, ∀ a : List (SValue F),
    (∀ le ∈ (v.script s).listens, le.handle ≠ toCInt (argInt a 0)) →
      ∀ i, (((op.builtin v s a).2).script i).listens = (v.script i).listens
  /-- Once removed, a handle is gone. -/
  removed : ∀ i pre c post h, cs = pre ++ c :: post → c.Names .remove i h →
    .int h ∈ returned pre → ∀ le ∈ (v.script i).listens, le.handle ≠ h
  /-- A message is delivered once for each open entry that is active and lets it pass. -/
  routed : ∀ i < v.scripts.length, ∀ channel name id msg, ∃ les : List ListenEntry,
    (les.map ListenEntry.handle).Nodup ∧
    (∀ le, le ∈ les ↔ Opened cs i le ∧ Admits le channel name id msg) ∧
    ((v.routeListen channel name id msg).script i).history = (v.script i).history ++
      List.replicate les.length
        (.push ⟨lit "listen", World.listenArgs channel name id msg⟩ none)

/-! ### One call more -/

omit [CDouble F] in
theorem snoc_eq_split {α : Type} {cs pre post : List α} {c x : α}
    (h : cs ++ [c] = pre ++ x :: post) :
    (post = [] ∧ cs = pre ∧ c = x) ∨ ∃ post', post = post' ++ [c] ∧ cs = pre ++ x :: post' := by
  rcases List.eq_nil_or_concat post with rfl | ⟨post', d, rfl⟩
  · obtain ⟨hcs, hc⟩ := List.append_inj' h rfl
    exact .inl ⟨rfl, hcs, (List.cons.inj hc).1⟩
  · rw [List.concat_eq_append, ← List.cons_append, ← List.append_assoc] at h
    obtain ⟨hcs, hc⟩ := List.append_inj' h rfl
    rw [List.concat_eq_append, (List.cons.inj hc).1]
    exact .inr ⟨post', rfl, hcs⟩

theorem switched_snoc (cs : List (ListenCall F)) (c : ListenCall F) (s : ℕ) (h : ℤ) :
    switched (cs ++ [c]) s h = if c.Names .control s h then c.on else switched cs s h := by
  unfold switched
  rw [List.filter_append, List.filter_singleton]
  by_cases hc : c.Names .control s h
  · rw [decide_eq_true hc, if_pos hc]
    simp only [cond_true, List.getLast?_append, List.getLast?_singleton, Option.some_or,
      Option.map_some, Option.getD_some]
  · rw [decide_eq_false hc, if_neg hc, cond_false, List.append_nil]

/-- What one call does to an entry that is open. -/
def ListenCall.apply (c : ListenCall F) (s : ℕ) (le : ListenEntry) : ListenEntry :=
  if c.Names .control s le.handle then { le with active := c.on } else le

theorem ListenCall.apply_handle (c : ListenCall F) (s : ℕ) (le : ListenEntry) :
    (c.apply s le).handle = le.handle := by
  unfold ListenCall.apply
  split <;> rfl

/-- The entry that a call opens. -/
def ListenCall.entry (c : ListenCall F) (h : ℤ) : ListenEntry :=
  ⟨h, toCInt (argInt c.args 0), argStr c.args 1, argStr c.args 2, argStr c.args 3, true⟩

theorem opened_snoc (cs : List (ListenCall F)) (c : ListenCall F) (i : ℕ) (le : ListenEntry) :
    Opened (cs ++ [c]) i le ↔
      (∃ le', Opened cs i le' ∧ ¬ c.Names .remove i le'.handle ∧ le = c.apply i le') ∨
      (c.op = .listen ∧ c.script = i ∧ c.result = .int le.handle ∧ le = c.entry le.handle) := by
  constructor
  · rintro ⟨pre, post, a, hcs, hr, hle⟩
    rcases snoc_eq_split hcs with ⟨rfl, -, rfl⟩ | ⟨post', rfl, hcs'⟩
    · exact .inr ⟨rfl, rfl, rfl, hle⟩
    · refine .inl ⟨{ le with active := switched post' i le.handle }, ⟨pre, post', a, hcs', ?_, ?_⟩,
        hr c (by simp), ?_⟩
      · intro d hd
        exact hr d (List.mem_append_left _ hd)
      · rw [hle]
      · rw [switched_snoc] at hle
        unfold ListenCall.apply
        dsimp only
        split
        · rename_i hc
          rw [if_pos hc] at hle
          rw [hle]
        · rename_i hc
          rw [if_neg hc] at hle
          rw [hle]
  · rintro (⟨le', ⟨pre, post, a, rfl, hr, hle⟩, hc, rfl⟩ | ⟨hop, hs, hres, hle⟩)
    · refine ⟨pre, post ++ [c], a, ?_, ?_, ?_⟩
      · rw [c.apply_handle, List.append_assoc, List.cons_append]
      · rw [c.apply_handle]
        intro d hd
        rcases List.mem_append.mp hd with hd | hd
        · exact hr d hd
        · rw [List.mem_singleton.mp hd]
          exact hc
      · rw [c.apply_handle, switched_snoc]
        unfold ListenCall.apply
        split
        · rw [hle]
        · exact hle
    · refine ⟨cs, [], c.args, ?_, by simp, ?_⟩
      · obtain ⟨op, script, args, result⟩ := c
        dsimp only at hop hs hres
        rw [hop, hs, hres]
      · exact hle

/-! ### The chains -/

omit [CDouble F] in
/-- Where keys are unique, the first entry with a key is all there is of it. -/
theorem mem_eraseP_iff {α : Type} (key : α → ℤ) (k : ℤ) {l : List α} (hn : (l.map key).Nodup)
    (x : α) : x ∈ l.eraseP (fun y => key y = k) ↔ x ∈ l ∧ key x ≠ k := by
  induction l with
  | nil => simp
  | cons y l ih =>
    rw [List.map_cons, List.nodup_cons] at hn
    by_cases hy : key y = k
    · rw [List.eraseP_cons, decide_eq_true hy, cond_true, List.mem_cons]
      constructor
      · intro hx
        refine ⟨.inr hx, ?_⟩
        rw [← hy]
        intro hxy
        exact hn.1 (hxy ▸ List.mem_map_of_mem hx)
      · rintro ⟨rfl | hx, hxk⟩
        · exact absurd hy hxk
        · exact hx
    · rw [List.eraseP_cons, decide_eq_false hy, cond_false, List.mem_cons, List.mem_cons, ih hn.2]
      constructor
      · rintro (rfl | ⟨hx, hxk⟩)
        · exact ⟨.inl rfl, hy⟩
        · exact ⟨.inr hx, hxk⟩
      · rintro ⟨rfl | hx, hxk⟩
        · exact .inl rfl
        · exact .inr ⟨hx, hxk⟩

/-- What a call makes of the chain of its script, where `n` is the next handle. -/
def ListenOp.onChain (n : ℤ) (a : List (SValue F)) : ListenOp → List ListenEntry → List ListenEntry
  | .listen, l => ⟨n, toCInt (argInt a 0), argStr a 1, argStr a 2, argStr a 3, true⟩ :: l
  | .remove, l => l.eraseP fun le => le.handle = toCInt (argInt a 0)
  | .control, l => l.map fun le =>
    if le.handle = toCInt (argInt a 0) then { le with active := toCInt (argInt a 1) ≠ 0 } else le

/-- The chain of script `i` after a call by script `s`. -/
theorem listens_builtin (op : ListenOp) {v : World F} {s : ℕ} (hs : s < v.scripts.length)
    (a : List (SValue F)) (i : ℕ) : ((op.builtin v s a).2.script i).listens =
      if i = s then op.onChain v.nextHandle a (v.script i).listens else (v.script i).listens := by
  have hm (w : World F) (hw : w.scripts = v.scripts) (g : Script F → Script F) :
      ((w.modScript s g).script i).listens =
        if i = s then (g (v.script i)).listens else (v.script i).listens := by
    rw [script_modScript, script_of_scripts hw, hw]
    by_cases hi : i = s
    · rw [if_pos hi, if_pos ⟨hi, hs⟩]
    · rw [if_neg hi, if_neg fun h => hi h.1]
  cases op with
  | listen => exact hm _ rfl _
  | remove => exact hm v rfl _
  | control => exact hm v rfl _

theorem count_builtin (op : ListenOp) (v : World F) (s : ℕ) (a : List (SValue F)) :
    (op.builtin v s a).2.scripts.length = v.scripts.length := by
  cases op with
  | listen => exact World.modScript_length _ s _
  | remove => exact World.modScript_length v s _
  | control => exact World.modScript_length v s _

/-! ### The invariant -/

omit [CDouble F] in
theorem mem_returned (cs : List (ListenCall F)) (r : SValue F) :
    r ∈ returned cs ↔ ∃ c ∈ cs, c.op = .listen ∧ c.result = r := by
  simp only [returned, List.mem_map, List.mem_filter, decide_eq_true_eq, and_assoc]

theorem Opened.returned {cs : List (ListenCall F)} {i : ℕ} {le : ListenEntry}
    (h : Opened cs i le) : .int le.handle ∈ returned cs := by
  obtain ⟨pre, post, a, rfl, -, -⟩ := h
  rw [mem_returned]
  exact ⟨⟨.listen, i, a, .int le.handle⟩, by simp, rfl, rfl⟩

/-- The chains follow the calls, and the counter is past every handle. -/
structure Tallies (cs : List (ListenCall F)) (v : World F) : Prop where
  distinct : (returned cs).Nodup
  below : ∀ r ∈ returned cs, ∃ h, r = .int h ∧ 0 < h ∧ h < v.nextHandle
  counter : v.nextHandle = (returned cs).length+1
  chain : ∀ i < v.scripts.length, ∀ le, le ∈ (v.script i).listens ↔ Opened cs i le
  once : ∀ i < v.scripts.length, ((v.script i).listens.map ListenEntry.handle).Nodup

theorem Tallies.handle_lt {cs : List (ListenCall F)} {v : World F} (h : Tallies cs v) {i : ℕ}
    (hi : i < v.scripts.length) {le : ListenEntry} (hle : le ∈ (v.script i).listens) :
    le.handle < v.nextHandle := by
  obtain ⟨k, hk, -, hlt⟩ := h.below _ ((h.chain i hi le).mp hle).returned
  cases hk
  exact hlt

omit [CDouble F] in
theorem returned_snoc (cs : List (ListenCall F)) (c : ListenCall F) :
    returned (cs ++ [c]) = if c.op = .listen then returned cs ++ [c.result] else returned cs := by
  unfold returned
  rw [List.filter_append, List.filter_singleton]
  by_cases hc : c.op = .listen
  · rw [decide_eq_true hc, if_pos hc, cond_true, List.map_append, List.map_singleton]
  · rw [decide_eq_false hc, if_neg hc, cond_false, List.append_nil]

/-- A call that opens nothing: what it says of the entries is what it makes of the chain. -/
theorem Tallies.keep {cs : List (ListenCall F)} {v : World F} (h : Tallies cs v) {op : ListenOp}
    (hop : op ≠ .listen) {s : ℕ} (hs : s < v.scripts.length) (a : List (SValue F)) (r : SValue F)
    (hn : (op.builtin v s a).2.nextHandle = v.nextHandle)
    (hmem : ∀ l : List ListenEntry, (l.map ListenEntry.handle).Nodup → ∀ le,
      le ∈ op.onChain v.nextHandle a l ↔ ∃ le' ∈ l,
        ¬ (⟨op, s, a, r⟩ : ListenCall F).Names .remove s le'.handle ∧
        le = (⟨op, s, a, r⟩ : ListenCall F).apply s le')
    (honce : ∀ l : List ListenEntry, (l.map ListenEntry.handle).Nodup →
      ((op.onChain v.nextHandle a l).map ListenEntry.handle).Nodup) :
    Tallies (cs ++ [⟨op, s, a, r⟩]) (op.builtin v s a).2 := by
  have hret : returned (cs ++ [⟨op, s, a, r⟩]) = returned cs := by
    rw [returned_snoc, if_neg hop]
  refine ⟨hret ▸ h.distinct, ?_, ?_, fun i hi le => ?_, fun i hi => ?_⟩
  · rw [hret, hn]
    exact h.below
  · rw [hret, hn]
    exact h.counter
  · rw [count_builtin] at hi
    rw [listens_builtin op hs a i, opened_snoc, or_iff_left fun hl => hop hl.1]
    by_cases his : i = s
    · subst his
      rw [if_pos rfl, hmem _ (h.once i hi)]
      simp only [h.chain i hi]
    · -- the call is about another script
      have hother (o : ListenOp) (k : ℤ) : ¬ (⟨op, s, a, r⟩ : ListenCall F).Names o i k :=
        fun hnm => his hnm.2.1.symm
      rw [if_neg his, h.chain i hi]
      constructor
      · intro ho
        refine ⟨le, ho, hother _ _, ?_⟩
        unfold ListenCall.apply
        rw [if_neg (hother _ _)]
      · rintro ⟨le', ho, -, hle⟩
        unfold ListenCall.apply at hle
        rw [if_neg (hother _ _)] at hle
        rwa [hle]
  · rw [count_builtin] at hi
    rw [listens_builtin op hs a i]
    split
    · exact honce _ (h.once i hi)
    · exact h.once i hi

theorem Tallies.remove {cs : List (ListenCall F)} {v : World F} (h : Tallies cs v) {s : ℕ}
    (hs : s < v.scripts.length) (a : List (SValue F)) (r : SValue F) :
    Tallies (cs ++ [⟨.remove, s, a, r⟩]) (v.llListenRemove s a).2 := by
  refine h.keep (by decide : ListenOp.remove ≠ .listen) hs a r rfl (fun l hl le => ?_) (fun l hl => ?_)
  · have hne : ListenOp.remove ≠ .control := by decide
    have happly (le' : ListenEntry) : (⟨.remove, s, a, r⟩ : ListenCall F).apply s le' = le' :=
      if_neg fun hn => hne hn.1
    have hnames (k : ℤ) : (⟨.remove, s, a, r⟩ : ListenCall F).Names .remove s k ↔
        toCInt (argInt a 0) = k := ⟨fun hn => hn.2.2, fun hk => ⟨rfl, rfl, hk⟩⟩
    refine (mem_eraseP_iff ListenEntry.handle _ hl le).trans ?_
    simp only [happly, hnames]
    constructor
    · rintro ⟨hle, hk⟩
      exact ⟨le, hle, fun hk' => hk hk'.symm, rfl⟩
    · rintro ⟨le', hle, hk, rfl⟩
      exact ⟨hle, fun hk' => hk hk'.symm⟩
  · exact (List.eraseP_sublist.map ListenEntry.handle).nodup hl

theorem Tallies.control {cs : List (ListenCall F)} {v : World F} (h : Tallies cs v) {s : ℕ}
    (hs : s < v.scripts.length) (a : List (SValue F)) (r : SValue F) :
    Tallies (cs ++ [⟨.control, s, a, r⟩]) (v.llListenControl s a).2 := by
  have happly (le : ListenEntry) : (⟨.control, s, a, r⟩ : ListenCall F).apply s le =
      if le.handle = toCInt (argInt a 0) then { le with active := toCInt (argInt a 1) ≠ 0 }
      else le := by
    have hnames : (⟨.control, s, a, r⟩ : ListenCall F).Names .control s le.handle ↔
        le.handle = toCInt (argInt a 0) := ⟨fun hn => hn.2.2.symm, fun hk => ⟨rfl, rfl, hk.symm⟩⟩
    unfold ListenCall.apply
    by_cases hk : le.handle = toCInt (argInt a 0)
    · rw [if_pos (hnames.mpr hk), if_pos hk]
      rfl
    · rw [if_neg fun hn => hk (hnames.mp hn), if_neg hk]
  have hchain (l : List ListenEntry) : ListenOp.control.onChain v.nextHandle a l =
      l.map ((⟨.control, s, a, r⟩ : ListenCall F).apply s) := by
    simp only [ListenOp.onChain, funext happly]
  refine h.keep (by decide : ListenOp.control ≠ .listen) hs a r rfl (fun l _ le => ?_) (fun l hl => ?_)
  · have hne : ListenOp.control ≠ .remove := by decide
    have hnot (k : ℤ) : ¬ (⟨.control, s, a, r⟩ : ListenCall F).Names .remove s k :=
      fun hn => hne hn.1
    rw [hchain, List.mem_map]
    simp only [hnot, not_false_eq_true, true_and, eq_comm]
  · have hh : (l.map ((⟨.control, s, a, r⟩ : ListenCall F).apply s)).map ListenEntry.handle =
        l.map ListenEntry.handle := by
      rw [List.map_map]
      exact List.map_congr_left fun le _ => ListenCall.apply_handle _ s le
    rw [hchain, hh]
    exact hl

theorem Tallies.listen {cs : List (ListenCall F)} {v : World F} (h : Tallies cs v) {s : ℕ}
    (hs : s < v.scripts.length) (a : List (SValue F)) :
    Tallies (cs ++ [⟨.listen, s, a, .int v.nextHandle⟩]) (v.llListen s a).2 := by
  have hret : returned (cs ++ [⟨.listen, s, a, .int v.nextHandle⟩]) =
      returned cs ++ [.int v.nextHandle] := by
    rw [returned_snoc, if_pos rfl]
  have hnext : (v.llListen s a).2.nextHandle = v.nextHandle+1 := rfl
  have hpos : 0 < v.nextHandle := by
    have := h.counter
    omega
  refine ⟨?_, ?_, ?_, fun i hi le => ?_, fun i hi => ?_⟩
  · rw [hret]
    refine List.nodup_append'.mpr ⟨h.distinct, List.nodup_singleton _, ?_⟩
    intro r hr hr'
    obtain ⟨k, rfl, -, hk⟩ := h.below r hr
    cases List.mem_singleton.mp hr'
    exact lt_irrefl _ hk
  · rw [hret, hnext]
    intro r hr
    rcases List.mem_append.mp hr with hr | hr
    · obtain ⟨k, rfl, h0, hk⟩ := h.below r hr
      exact ⟨k, rfl, h0, by omega⟩
    · exact ⟨v.nextHandle, List.mem_singleton.mp hr, hpos, by omega⟩
  · rw [hret, hnext, List.length_append, List.length_singleton, h.counter]
    push_cast
    ring
  · rw [show (v.llListen s a).2.scripts.length = v.scripts.length from
      count_builtin .listen v s a] at hi
    have hnot (o : ListenOp) (ho : o ≠ .listen) (k : ℤ) :
        ¬ (⟨.listen, s, a, .int v.nextHandle⟩ : ListenCall F).Names o i k := fun hn => ho hn.1.symm
    have happly (le' : ListenEntry) :
        (⟨.listen, s, a, .int v.nextHandle⟩ : ListenCall F).apply i le' = le' :=
      if_neg (hnot .control (by decide) _)
    rw [show ((v.llListen s a).2.script i).listens = _ from listens_builtin .listen hs a i,
      opened_snoc]
    simp only [happly, hnot .remove (by decide), not_false_eq_true, true_and, exists_eq_right',
      ← h.chain i hi]
    constructor
    · intro hle
      split at hle
      · rename_i his
        rcases List.mem_cons.mp hle with rfl | hle
        · exact .inr ⟨his.symm, rfl, rfl⟩
        · exact .inl hle
      · exact .inl hle
    · rintro (hle | ⟨rfl, hk, hle⟩)
      · split
        · exact List.mem_cons_of_mem _ hle
        · exact hle
      · rw [if_pos rfl]
        refine List.mem_cons.mpr (.inl ?_)
        rw [hle, ← SValue.int.inj hk]
        rfl
  · rw [show (v.llListen s a).2.scripts.length = v.scripts.length from
      count_builtin .listen v s a] at hi
    rw [show ((v.llListen s a).2.script i).listens = _ from listens_builtin .listen hs a i]
    split
    · refine List.nodup_cons.mpr ⟨?_, h.once i hi⟩
      intro hmem
      obtain ⟨le, hle, hk⟩ := List.mem_map.mp hmem
      exact (h.handle_lt hi hle).ne hk
    · exact h.once i hi

omit [CDouble F] in
theorem SameEntries.count {v v' : World F} (h : SameEntries v v') :
    v'.scripts.length = v.scripts.length := by
  have hl := congrArg List.length h.listens
  rwa [List.length_map, List.length_map] at hl

theorem SameEntries.script {v v' : World F} (h : SameEntries v v') (i : ℕ) :
    (v'.script i).listens = (v.script i).listens := by
  have hi (u : World F) : (u.script i).listens = (u.scripts.map Script.listens).getD i [] := by
    unfold World.script
    rw [List.getD_eq_getElem?_getD, List.getD_eq_getElem?_getD, List.getElem?_map]
    cases u.scripts[i]? <;> rfl
  rw [hi v', hi v, h.listens]

theorem Listening.tallies {w v : World F} {cs : List (ListenCall F)} (h : Listening w cs v)
    (hw : ∀ t ∈ w.scripts, t.listens = []) (hn : w.nextHandle = 1) : Tallies cs v := by
  induction h with
  | start =>
    have hnil (i : ℕ) (hi : i < w.scripts.length) : (w.script i).listens = [] := by
      refine hw _ ?_
      unfold World.script
      rw [List.getD_eq_getElem _ _ hi]
      exact List.getElem_mem hi
    refine ⟨List.nodup_nil, by simp [returned], hn, fun i hi le => ?_, fun i hi => ?_⟩
    · rw [hnil i hi]
      refine iff_of_false List.not_mem_nil ?_
      rintro ⟨pre, post, a, hcs, -⟩
      simp at hcs
    · rw [hnil i hi]
      exact List.nodup_nil
  | call op a _ hs ih =>
    cases op with
    | listen => exact ih.listen hs a
    | remove => exact ih.remove hs a _
    | control => exact ih.control hs a _
  | other _ hsame ih =>
    refine ⟨ih.distinct, hsame.nextHandle ▸ ih.below, hsame.nextHandle ▸ ih.counter, ?_, ?_⟩
    · intro i hi
      rw [hsame.script i]
      exact ih.chain i (hsame.count ▸ hi)
    · intro i hi
      rw [hsame.script i]
      exact ih.once i (hsame.count ▸ hi)

/-! ### The book -/

/-- A call about a handle that is not in the chain changes nothing. -/
theorem onChain_foreign {op : ListenOp} (hop : op ≠ .listen) (n : ℤ) (a : List (SValue F))
    (l : List ListenEntry) (h : ∀ le ∈ l, le.handle ≠ toCInt (argInt a 0)) :
    op.onChain n a l = l := by
  cases op with
  | listen => exact absurd rfl hop
  | remove =>
    apply List.eraseP_of_forall_not
    intro le hle
    simpa using h le hle
  | control =>
    refine (List.map_congr_left fun le hle => ?_).trans (List.map_id l)
    exact if_neg (h le hle)

omit [CDouble F] in
/-- A handle that was returned before a call was not returned again after it. -/
theorem opened_before {pre post pre' post' : List (ListenCall F)} {c d : ListenCall F} {h : ℤ}
    (hn : (returned (pre ++ c :: post)).Nodup) (hcs : pre ++ c :: post = pre' ++ d :: post')
    (hd : d.op = .listen) (hr : d.result = .int h) (hpre : .int h ∈ returned pre) :
    c ∈ post' := by
  have hret : returned (pre' ++ d :: post') = returned pre' ++ .int h :: returned post' := by
    unfold returned
    rw [List.filter_append, List.filter_cons_of_pos (by simpa using hd), List.map_append,
      List.map_cons, hr]
  -- the handle is given but once, so it is not among those given before `d`
  have hfresh : SValue.int h ∉ returned pre' := by
    rw [hcs, hret] at hn
    intro hmem
    exact (List.nodup_append'.mp hn).2.2 hmem List.mem_cons_self
  have hlong : ¬ pre <+: pre' := by
    intro hp
    obtain ⟨e, he, hop⟩ := (mem_returned pre _).mp hpre
    exact hfresh ((mem_returned pre' _).mpr ⟨e, hp.subset he, hop⟩)
  rcases List.append_eq_append_iff.mp hcs with ⟨as, rfl, -⟩ | ⟨bs, rfl, hbs⟩
  · exact absurd (List.prefix_append pre as) hlong
  · cases bs with
    | nil => exact absurd (by rw [List.append_nil]) hlong
    | cons b bs =>
      rw [List.cons_append] at hbs
      rw [(List.cons.inj hbs).2]
      exact List.mem_append_right bs List.mem_cons_self

/-- The calls tell what the chains hold. -/
theorem Tallies.book {cs : List (ListenCall F)} {v : World F} (h : Tallies cs v)
    (hc : (returned cs).length < 2^31) : ListenBook cs v := by
  have honce (i : ℕ) : ((v.script i).listens.map ListenEntry.handle).Nodup := by
    by_cases hi : i < v.scripts.length
    · exact h.once i hi
    · rw [script_of_length_le _ _ (not_lt.mp hi)]
      exact List.nodup_nil
  refine ⟨h.distinct, ?_, h.chain, honce, ?_, ?_, ?_⟩
  · intro k hk
    obtain ⟨k', hkk, h0, hlt⟩ := h.below _ hk
    have hcount := h.counter
    rw [SValue.int.inj hkk]
    unfold toCInt
    omega
  · intro op hop s hs a hne i
    rw [listens_builtin op hs a i]
    split
    · rename_i his
      subst his
      exact onChain_foreign hop _ a _ hne
    · rfl
  · intro i pre c post k hcs hname hpre le hle hk
    by_cases hi : i < v.scripts.length
    · obtain ⟨pre', post', a, hcs', hrem, -⟩ := (h.chain i hi le).mp hle
      rw [hk] at hcs' hrem
      have hn := h.distinct
      rw [hcs] at hn
      exact hrem c (opened_before hn (hcs.symm.trans hcs') rfl rfl hpre) hname
    · rw [script_of_length_le _ _ (not_lt.mp hi)] at hle
      exact List.not_mem_nil hle
  · intro i hi channel name id msg
    refine ⟨(v.script i).listens.filter fun le => World.hears le channel name id msg, ?_, ?_, ?_⟩
    · exact (List.filter_sublist.map ListenEntry.handle).nodup (honce i)
    · intro le
      rw [List.mem_filter, h.chain i hi, hears_iff]
    · rw [World.routeListen, pushAll_history, if_pos hi, List.countP_eq_length_filter]

/-! ### Runs -/

namespace SameEntries
variable {u v w : World F}

omit [CDouble F] in
theorem of_steady (h : Stands v w) : SameEntries v w := by
  refine ⟨?_, h.nextHandle⟩
  have hs : w.scripts.map Script.standing = v.scripts.map Script.standing := congrArg Prod.fst h
  have hl := congrArg (List.map fun x => x.2.1) hs
  rwa [List.map_map, List.map_map] at hl

omit [CDouble F] in
theorem trans (h : SameEntries u v) (h' : SameEntries v w) : SameEntries u w :=
  ⟨h'.listens.trans h.listens, h'.nextHandle.trans h.nextHandle⟩

omit [CDouble F] in
theorem modScript (w : World F) (s : ℕ) {f : Script F → Script F}
    (hf : ∀ t, (f t).listens = t.listens) : SameEntries w (w.modScript s f) :=
  ⟨map_modify_same hf s w.scripts, rfl⟩

theorem touch (w : World F) (t : Touch) : SameEntries w (w.touch t) := by
  have hpush (names : List Bytes) (v : World F) : SameEntries v (v.pushTouches t.script names) := by
    induction names generalizing v with
    | nil => exact ⟨rfl, rfl⟩
    | cons name names ih =>
      have hn : SameEntries v (v.pushEvent t.script name [.int 1]) :=
        modScript v t.script fun _ => rfl
      exact hn.trans (ih _)
  have hd : SameEntries w (w.pushDetected t.script t.key t.name) :=
    modScript w t.script fun _ => rfl
  exact hd.trans (hpush t.events _)

theorem runCommand (w : World F) (line : Bytes) : SameEntries w (w.runCommand line) := by
  have ht := runCommand_touches w line
  cases hl : w.touchOf line with
  | none =>
    rw [hl] at ht
    exact of_steady ht
  | some t =>
    rw [hl] at ht
    exact (touch w t).trans (of_steady ht)

end SameEntries

theorem Handling.listening {s : ℕ} {w v v' : World F} {cs : List (ListenCall F)}
    (h : Handling s v v') (hs : s < v.scripts.length) (hl : Listening w cs v) :
    ∃ cs', Listening w cs' v' := by
  cases h with
  | steady h => exact ⟨cs, hl.other (.of_steady h)⟩
  | listen a => exact ⟨_, hl.call .listen a hs⟩
  | remove a => exact ⟨_, hl.call .remove a hs⟩
  | control a => exact ⟨_, hl.call .control a hs⟩
  | request a =>
    have h0 : SameEntries v (v.genUuid.2.inboundRegister s v.genUuid.1).2 := ⟨rfl, rfl⟩
    exact ⟨cs, hl.other (h0.trans (.modScript _ s fun _ => rfl))⟩

theorem Handlings.listening {s : ℕ} {w v v' : World F} {cs : List (ListenCall F)}
    (h : Handlings s v v') (hs : s < v.scripts.length) (hl : Listening w cs v) :
    (∃ cs', Listening w cs' v') ∧ s < v'.scripts.length := by
  induction h with
  | refl => exact ⟨⟨cs, hl⟩, hs⟩
  | tail _ h ih =>
    obtain ⟨⟨cs', hl'⟩, hs'⟩ := ih
    exact ⟨h.listening hs' hl', h.count ▸ hs'⟩

/-- On the way through a run, and within its steps, entries are opened, removed and switched by
calls alone. -/
theorem Conf.IsRun.listening {lib : Lib F} {c : ℕ → Conf F} {n k : ℕ} (h : IsRun lib c n)
    (hk : k ≤ n) : ∃ cs, Listening (c 0).world cs (c k).world := by
  induction k with
  | zero => exact ⟨[], .start⟩
  | succ k ih =>
    obtain ⟨cs, hl⟩ := ih (by omega)
    have hstep := h.step k (by omega)
    rcases hstep.standing with hs | ⟨i, hi, hn⟩ | ⟨line, hline⟩
    · exact ⟨cs, hl.other (.of_steady hs)⟩
    · exact (hn.world.listening hi hl).1
    · refine ⟨cs, hl.other ?_⟩
      rw [hstep.carriesOut hline]
      have h0 : SameEntries (c k).world
          { (c k).world with nextCommand := (c k).world.nextCommand+1 } := ⟨rfl, rfl⟩
      exact (h0.trans (SameEntries.runCommand _ line)).trans ⟨rfl, rfl⟩

/-! ### What the calls come to -/

/-- Whatever calls the scripts make, and whatever else happens in between: handles are never given
twice, the chains hold what was opened and not removed, and messages go through no other entry. -/
theorem listen_handles {w v : World F} {cs : List (ListenCall F)} (h : Listening w cs v)
    (hw : ∀ t ∈ w.scripts, t.listens = []) (hn : w.nextHandle = 1)
    (hc : (returned cs).length < 2^31) : ListenBook cs v :=
  (h.tallies hw hn).book hc

/-- Two scripts. -/
def listenWorld : World ℚ := (regionOf [default, default] []).world

/-- Each opens an entry, and the second switches its own off. -/
def listenCalls : List (ListenCall ℚ) :=
  [⟨.listen, 0, [.int 11], .int 1⟩, ⟨.listen, 1, [.int 11], .int 2⟩,
    ⟨.control, 1, [.int 2, .int 0], .void⟩]

theorem listenWorld_listening : ∃ v, Listening listenWorld listenCalls v := by
  have h1 := Listening.start.call (w := listenWorld) .listen [.int 11] (s := 0) (by decide)
  have h2 := h1.call .listen [.int 11] (s := 1) (by decide)
  exact ⟨_, h2.call .control [.int 2, .int 0] (s := 1) (by decide)⟩

theorem listen_handles_two : ∃ v, Listening listenWorld listenCalls v ∧ ListenBook listenCalls v := by
  obtain ⟨v, hv⟩ := listenWorld_listening
  exact ⟨v, hv, listen_handles hv (by decide) rfl (by decide)⟩

/-- A number past the C `int` removes an entry although no call has returned it. -/
theorem llListenRemove_wraps : ∃ (cs : List (ListenCall ℚ)) (v : World ℚ),
    Listening listenWorld cs v ∧ .int 4294967297 ∉ returned cs ∧
      ((v.llListenRemove 0 [.int 4294967297]).2.script 0).listens ≠ (v.script 0).listens := by
  refine ⟨_, _, Listening.start.call .listen [.int 11] (s := 0) (by decide), ?_, ?_⟩
  · intro hmem
    obtain ⟨c, hc, -, hr⟩ := (mem_returned _ _).mp hmem
    rw [List.nil_append, List.mem_singleton] at hc
    rw [hc] at hr
    exact absurd (SValue.int.inj hr) (by decide)
  · intro hsame
    exact absurd (congrArg List.length hsame) (by decide)

end Slemu
