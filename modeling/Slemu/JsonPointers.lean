import Slemu.JsonScan
import Slemu.CheckedLoop

/-! The JSON functions of builtins.c on pointers, with every pointer and every copy checked. A
pointer is its distance from the start of the text. -/

namespace Slemu
variable {F : Type}

namespace JsonAt

/-- What may go wrong: a pointer outside the text and its NUL, a copy of what is not all text, or
a loop that takes more turns than it was given. -/
inductive Fault
  | outside
  | badCopy
  | endless
  deriving DecidableEq

abbrev Checked (α : Type) := Except Fault α

/-- `*p` -/
def read (s : Bytes) (p : ℤ) : Checked UInt8 :=
  if 0 ≤ p ∧ p ≤ s.length then .ok (s.getD p.toNat 0) else .error .outside

/-- A pointer that is formed. -/
def ptr (s : Bytes) (p : ℤ) : Checked ℤ :=
  if 0 ≤ p ∧ p ≤ s.length then .ok p else .error .outside

/-- `xstrndup(p, n)`, and `memcpy` of `n` characters from `p` on. -/
def copy (s : Bytes) (p n : ℤ) : Checked Bytes :=
  if 0 ≤ n ∧ 0 ≤ p ∧ p+n ≤ s.length then .ok ((s.drop p.toNat).take n.toNat) else .error .badCopy

/-- `memcpy` of `strlen(p)` characters from `p` on and of the NUL. -/
def copyRest (s : Bytes) (p : ℤ) : Checked Bytes :=
  if 0 ≤ p ∧ p ≤ s.length then .ok (s.drop p.toNat) else .error .badCopy

/-- A scan over the text. Each of its turns leaves a character behind. -/
def scan {σ α : Type} (s : Bytes) (body : σ → Checked (σ ⊕ α)) : σ → Checked α :=
  Loop.run body .endless (s.length+1)

/-! ### Skippers -/

def wsTurn (s : Bytes) (p : ℤ) : Checked (ℤ ⊕ ℤ) := do
  let c ← read s p
  if Json.isWs c then do
    let p ← ptr s (p+1)
    pure (.inl p)
  else pure (.inr p)

/-- `json_skip_ws` -/
def skipWs (s : Bytes) : ℤ → Checked ℤ := scan s (wsTurn s)

def strTurn (s : Bytes) (p : ℤ) : Checked (ℤ ⊕ ℤ) := do
  let c ← read s p
  if c = 0 then pure (.inr p)
  else if c = 92 then do
    let d ← read s (p+1)
    -- a backslash at the end is a character like any other
    let p ← ptr s (if d = 0 then p+1 else p+2)
    pure (.inl p)
  else do
    let p ← ptr s (p+1)
    pure (if c = 34 then .inr p else .inl p)

/-- `json_walk_str` -/
def walkStr (s : Bytes) (p : ℤ) : Checked ℤ := do
  let c ← read s p
  if c = 34 then do
    let p ← ptr s (p+1)
    scan s (strTurn s) p
  else pure p

/-- One turn of the loop that looks for a closing bracket, with the depth. The first bracket it
sees is an opening one. -/
def closeTurn (s : Bytes) (op cl : UInt8) (x : ℤ × ℤ) : Checked ((ℤ × ℤ) ⊕ (Bool × ℤ)) := do
  let c ← read s x.1
  if c = 0 then pure (.inr (false, x.1))
  else if c = 34 then do
    let p ← walkStr s x.1
    let p ← ptr s (p-1)
    let p ← ptr s (p+1)
    pure (.inl (p, x.2))
  else if c = op then do
    let p ← ptr s (x.1+1)
    pure (.inl (p, x.2+1))
  else if c = cl then
    if x.2-1 = 0 then pure (.inr (true, x.1))
    else do
      let p ← ptr s (x.1+1)
      pure (.inl (p, x.2-1))
  else do
    let p ← ptr s (x.1+1)
    pure (.inl (p, x.2))

/-- From an opening bracket: where the bracket is that closes it, or that there is none. -/
def close (s : Bytes) (op cl : UInt8) (p : ℤ) : Checked (Bool × ℤ) :=
  scan s (closeTurn s op cl) (p, 0)

def scalarTurn (s : Bytes) (p : ℤ) : Checked (ℤ ⊕ ℤ) := do
  let c ← read s p
  if c ≠ 0 ∧ jsonStop c = false then do
    let p ← ptr s (p+1)
    pure (.inl p)
  else pure (.inr p)

/-- `json_walk` -/
def walk (s : Bytes) (p : ℤ) : Checked ℤ := do
  let p ← skipWs s p
  let c ← read s p
  if c = 34 then walkStr s p
  else if c = 123 ∨ c = 91 then do
    let q ← close s c (if c = 123 then 125 else 93) p
    if q.1 then ptr s (q.2+1) else pure q.2
  else scan s (scalarTurn s) p

def frontTurn (s : Bytes) (stop start : ℤ) : Checked (ℤ ⊕ ℤ) :=
  if start < stop then do
    let c ← read s start
    if Json.isWs c then do
      let p ← ptr s (start+1)
      pure (.inl p)
    else pure (.inr start)
  else pure (.inr start)

def backTurn (s : Bytes) (start stop : ℤ) : Checked (ℤ ⊕ ℤ) :=
  if start < stop then do
    let c ← read s (stop-1)
    if Json.isWs c then do
      let p ← ptr s (stop-1)
      pure (.inl p)
    else pure (.inr stop)
  else pure (.inr stop)

/-- The end of `json_extract_value`: the quotes come off. -/
def strip (s : Bytes) (start stop : ℤ) : Checked Bytes :=
  if start < stop then do
    let c ← read s start
    if c = 34 ∧ start+1 < stop then do
      let d ← read s (stop-1)
      if d = 34 then copy s (start+1) (stop-1-(start+1))
      else copy s start (stop-start)
    else copy s start (stop-start)
  else copy s start (stop-start)

/-- `json_extract_value` -/
def extractValue (s : Bytes) (start stop : ℤ) : Checked Bytes := do
  let start ← scan s (frontTurn s stop) start
  let stop ← scan s (backTurn s start) stop
  strip s start stop

/-! ### Loops over members and elements -/

/-- Past a comma, if there is one. -/
def comma (s : Bytes) (p : ℤ) : Checked ℤ := do
  let c ← read s p
  if c = 44 then ptr s (p+1) else pure p

/-- A key and where its string ends. The length of the key is that of the string less its two
quotes, whether it has them or not. -/
def keyOf (s : Bytes) (p : ℤ) : Checked (Bytes × ℤ) := do
  let keyEnd ← walkStr s p
  let last ← ptr s (keyEnd-2)
  let key ← copy s (p+1) (last-p)
  pure (key, keyEnd)

/-- The key of a member and where its value starts. -/
def member (s : Bytes) (p : ℤ) : Checked (Option (Bytes × ℤ)) := do
  let c ← read s p
  -- a closing brace is no quote either
  if c ≠ 34 then pure none
  else do
    let key ← keyOf s p
    let p ← skipWs s key.2
    let c ← read s p
    if c ≠ 58 then pure none
    else do
      let p ← ptr s (p+1)
      let v ← skipWs s p
      pure (some (key.1, v))

/-- One turn of the loop of `json_find_value` over the members of an object. -/
def keyTurn (s : Bytes) (k : Bytes) (p : ℤ) : Checked (ℤ ⊕ Option ℤ) := do
  let c ← read s p
  if c = 0 then pure (.inr none)
  else do
    let p ← skipWs s p
    match ← member s p with
    | none => pure (.inr none)
    | some m => do
      let valEnd ← walk s m.2
      if m.1 = k then pure (.inr (some m.2))
      else do
        let p ← skipWs s valEnd
        let c ← read s p
        if c = 125 then pure (.inr none)
        else do
          let p ← comma s p
          pure (.inl p)

/-- One turn of the loop of `json_find_value` over the elements of an array, with `idx`. -/
def idxTurn (s : Bytes) (want : ℤ) (x : ℤ × ℤ) : Checked ((ℤ × ℤ) ⊕ Option ℤ) := do
  let c ← read s x.1
  if c = 0 then pure (.inr none)
  else do
    let p ← skipWs s x.1
    let c ← read s p
    if c = 93 then pure (.inr none)
    else do
      let valEnd ← walk s p
      if x.2 = want then pure (.inr (some p))
      else do
        let p ← skipWs s valEnd
        let c ← read s p
        if c = 93 then pure (.inr none)
        else do
          let p ← comma s p
          pure (.inl (p, x.2+1))

/-- One step of the path in `json_find_value`, from where a value starts. -/
def findStep (s : Bytes) (fuel : ℕ) (step : SValue F) (p : ℤ) : Checked (Option ℤ) := do
  let c ← read s p
  match step with
  | .string k =>
    if c = 123 then do
      let p ← ptr s (p+1)
      Loop.run (keyTurn s k) .endless fuel p
    else pure none
  | .int want =>
    if c = 91 then do
      let p ← ptr s (p+1)
      Loop.run (idxTurn s want) .endless fuel (p, 0)
    else pure none
  | _ => pure none

/-- `json_find_value` -/
def findValue (s : Bytes) (fuel : ℕ) : List (SValue F) → ℤ → Checked (Option ℤ)
  | [], p => do
    let p ← skipWs s p
    pure (some p)
  | step :: path, p => do
    let p ← skipWs s p
    match ← findStep s fuel step p with
    | none => pure none
    | some v => if path.isEmpty then pure (some v) else findValue s fuel path v

/-- `bi_llJsonGetValue` -/
def llJsonGetValue (fuel : ℕ) : List (SValue F) → Checked (SValue F)
  | a@(_ :: .list path :: _) => do
    match ← findValue (argStr a 0) fuel path 0 with
    | none => pure (.string jsonInvalid)
    | some r => do
      let stop ← walk (argStr a 0) r
      let v ← extractValue (argStr a 0) r stop
      pure (.string v)
  | _ => pure (.string [])

/-- `bi_llJsonValueType`, which reads one character of what it finds. -/
def llJsonValueType (fuel : ℕ) : List (SValue F) → Checked (SValue F)
  | a@(_ :: .list path :: _) => do
    match ← findValue (argStr a 0) fuel path 0 with
    | none => pure (.string jsonInvalid)
    | some r => do
      let r ← skipWs (argStr a 0) r
      let c ← read (argStr a 0) r
      pure (.string (jsonTypeOf [c]))
  | _ => pure (.string jsonInvalid)

/-! ### Setting -/

/-- One turn of the scan of the setters for a key, before the closing brace. -/
def scanTurn (s : Bytes) (stop : ℤ) (k : Bytes) (p : ℤ) : Checked (ℤ ⊕ Option (ℤ × ℤ)) :=
  if p < stop then do
    let p ← skipWs s p
    if stop ≤ p then pure (.inr none)
    else do
      match ← member s p with
      | none => pure (.inr none)
      | some m => do
        let valEnd ← walk s m.2
        if m.1 = k then pure (.inr (some (m.2, valEnd)))
        else do
          let p ← skipWs s valEnd
          let p ← comma s p
          pure (.inl p)
  else pure (.inr none)

/-- One turn of the test whether the object is empty. -/
def emptyTurn (s : Bytes) (stop q : ℤ) : Checked (ℤ ⊕ Bool) :=
  if q < stop then do
    let c ← read s q
    if Json.isWs c then do
      let q ← ptr s (q+1)
      pure (.inl q)
    else pure (.inr false)
  else pure (.inr true)

/-- Both setters, once the closing brace is found. -/
def putInto (s : Bytes) (fuel : ℕ) (k new : Bytes) (body stop : ℤ) : Checked Bytes := do
  match ← Loop.run (scanTurn s stop k) .endless fuel body with
  | some v => do
    let front ← copy s 0 v.1
    let back ← copyRest s v.2
    pure (front ++ new ++ back)
  | none => do
    let empty ← scan s (emptyTurn s stop) body
    let front ← copy s 0 stop
    let back ← copyRest s stop
    pure (front ++ (if empty then [] else [44]) ++ 34 :: k ++ [34, 58] ++ new ++ back)

/-- Both setters. -/
def put (s : Bytes) (fuel : ℕ) (k new : Bytes) : Checked Bytes := do
  let p ← skipWs s 0
  let c ← read s p
  if c ≠ 123 then pure s
  else do
    let body ← ptr s (p+1)
    let stop ← close s 123 125 p
    if stop.1 then putInto s fuel k new body stop.2 else pure s

/-- `json_obj_set_top` -/
def objSetTop (s : Bytes) (fuel : ℕ) (key val : Bytes) : Checked Bytes :=
  put s fuel key (jsonQuoted val)

/-- What is under the outer key, or an empty object. -/
def subObject (s : Bytes) (fuel : ℕ) (k : Bytes) : Checked Bytes := do
  match ← findValue s fuel [SValue.string (F := F) k] 0 with
  | some r => do
    let stop ← walk s r
    copy s r (stop-r)
  | none => pure [123, 125]

/-- `bi_llJsonSetValue` -/
def llJsonSetValue (fuel : ℕ) : List (SValue F) → Checked (SValue F)
  | a@(_ :: .list [.string k] :: _ :: _) => do
    let out ← objSetTop (argStr a 0) fuel k (argStr a 2)
    pure (.string out)
  | a@(_ :: .list [.string k1, .string k2] :: _ :: _) => do
    let sub ← subObject (F := F) (argStr a 0) fuel k1
    let newSub ← objSetTop sub fuel k2 (argStr a 2)
    let out ← put (argStr a 0) fuel k1 newSub
    pure (.string out)
  | v :: _ => pure v
  | [] => pure (.string [])

/-! ### Lists -/

/-- The key of an entry of an object, past a colon, if there is one. -/
def listKey (s : Bytes) (isObj : Bool) (p : ℤ) : Checked (List Bytes × ℤ) := do
  let c ← read s p
  if isObj ∧ c = 34 then do
    let key ← keyOf s p
    let p ← skipWs s key.2
    let c ← read s p
    let p ← if c = 58 then ptr s (p+1) else pure p
    pure ([key.1], p)
  else pure ([], p)

/-- One turn of the loop of `bi_llJson2List`, with the list so far. -/
def listTurn (s : Bytes) (isObj : Bool) (x : ℤ × List Bytes) :
    Checked ((ℤ × List Bytes) ⊕ List Bytes) := do
  let c ← read s x.1
  if c = 0 then pure (.inr x.2)
  else do
    let p ← skipWs s x.1
    let c ← read s p
    if c = 125 ∨ c = 93 then pure (.inr x.2)
    else do
      let key ← listKey s isObj p
      let p ← skipWs s key.2
      let valEnd ← walk s p
      let val ← extractValue s p valEnd
      let p ← skipWs s valEnd
      let p ← comma s p
      pure (.inl (p, x.2 ++ (key.1 ++ [val])))

/-- `bi_llJson2List` -/
def llJson2List (fuel : ℕ) (a : List (SValue F)) : Checked (SValue F) := do
  let p ← skipWs (argStr a 0) 0
  let c ← read (argStr a 0) p
  if c = 91 ∨ c = 123 then do
    let p ← ptr (argStr a 0) (p+1)
    let l ← Loop.run (listTurn (argStr a 0) (c = 123)) .endless fuel (p, [])
    pure (.list (l.map .string))
  else do
    let t ← copyRest (argStr a 0) p
    pure (.list [.string t])

/-! ### Pointers and the text behind them -/

/-- The pointer to the part `t` at the end of the text. -/
def pos (s t : Bytes) : ℤ := s.length-t.length

theorem ok_bind {α β : Type} (a : α) (f : α → Checked β) : (Except.ok a >>= f) = f a := rfl

theorem error_bind {α β : Type} (e : Fault) (f : α → Checked β) :
    ((Except.error e : Checked α) >>= f) = .error e := rfl

/-- What comes first must have returned. -/
theorem bind_eq_ok {α β : Type} {x : Checked α} {f : α → Checked β} {b : β} :
    (x >>= f) = .ok b ↔ ∃ a, x = .ok a ∧ f a = .ok b := by
  cases x with
  | error e => simp [error_bind]
  | ok a => simp [ok_bind]

theorem pure_ok {α : Type} (a : α) : (pure a : Checked α) = .ok a := rfl

theorem pos_cons (s : Bytes) (c : UInt8) (t : Bytes) : pos s (c :: t)+1 = pos s t := by
  unfold pos
  rw [List.length_cons]
  push_cast
  omega

theorem pos_nonneg {s t : Bytes} (h : t <:+ s) : 0 ≤ pos s t := by
  have hl := h.length_le
  unfold pos
  omega

theorem tail_suffix {s t : Bytes} {c : UInt8} (h : c :: t <:+ s) : t <:+ s :=
  (List.suffix_cons c t).trans h

theorem drop_pos {s t : Bytes} (h : t <:+ s) : s.drop (pos s t).toNat = t := by
  obtain ⟨u, rfl⟩ := h
  have hp : (pos (u ++ t) t).toNat = u.length := by
    unfold pos
    rw [List.length_append]
    omega
  rw [hp, List.drop_left]

theorem read_pos {s t : Bytes} (h : t <:+ s) : read s (pos s t) = .ok (t.headD 0) := by
  have h0 := pos_nonneg h
  have h1 : pos s t ≤ s.length := by unfold pos; omega
  have hd : s.getD (pos s t).toNat 0 = t.headD 0 := by
    have hs := congrArg List.head? (drop_pos h)
    rw [List.head?_drop] at hs
    rw [List.getD_eq_getElem?_getD, hs, List.headD_eq_head?_getD]
  unfold read
  rw [if_pos ⟨h0, h1⟩, hd]

theorem ptr_pos {s t : Bytes} (h : t <:+ s) : ptr s (pos s t) = .ok (pos s t) := by
  unfold ptr
  rw [if_pos ⟨pos_nonneg h, by unfold pos; omega⟩]

theorem ptr_next {s t : Bytes} {c : UInt8} (h : c :: t <:+ s) :
    ptr s (pos s (c :: t)+1) = .ok (pos s t) := by
  rw [pos_cons]
  exact ptr_pos (tail_suffix h)

theorem copy_pos {s t : Bytes} {n : ℕ} (h : t <:+ s) (hn : n ≤ t.length) :
    copy s (pos s t) n = .ok (t.take n) := by
  have hl := h.length_le
  unfold copy
  rw [if_pos ⟨by omega, pos_nonneg h, by unfold pos; omega⟩, drop_pos h, Int.toNat_natCast]

theorem copyRest_pos {s t : Bytes} (h : t <:+ s) : copyRest s (pos s t) = .ok t := by
  unfold copyRest
  rw [if_pos ⟨pos_nonneg h, by unfold pos; omega⟩, drop_pos h]

/-- A scan whose turns stand for steps on the text behind the pointer. -/
theorem scan_eq {σ α : Type} {s : Bytes} {body : σ → Checked (σ ⊕ α)} {p : Bytes → σ}
    {f : Bytes → α} (h : ∀ t, t <:+ s → body (p t) = .ok (.inr (f t)) ∨
      ∃ u, u <:+ s ∧ u.length < t.length ∧ Loop.Turn body (p t) (p u) ∧ f u = f t)
    {t : Bytes} (ht : t <:+ s) : scan s body (p t) = .ok (f t) :=
  Loop.run_eq h ht (Nat.lt_succ_of_le ht.length_le)

/-! ### Skippers -/

theorem skipWs_pos {s t : Bytes} (h : t <:+ s) :
    skipWs s (pos s t) = .ok (pos s (jsonSkipWs t)) := by
  refine scan_eq (p := pos s) (f := fun t => pos s (jsonSkipWs t)) ?_ h
  intro t ht
  unfold Loop.Turn wsTurn
  rw [read_pos ht, ok_bind]
  cases t with
  | nil => exact .inl rfl
  | cons c t =>
    rw [List.headD_cons]
    by_cases hc : Json.isWs c
    · refine .inr ⟨t, tail_suffix ht, Nat.lt_succ_self _, ?_, ?_⟩
      · rw [if_pos hc, ptr_next ht]
        rfl
      · rw [jsonSkipWs, jsonSkipWs, List.dropWhile_cons_of_pos hc]
    · refine .inl ?_
      rw [if_neg hc, jsonSkipWs_cons t (by simpa using hc)]
      rfl

theorem suffix_ne_zero {s t : Bytes} {c : UInt8} (h0 : 0 ∉ s) (h : c :: t <:+ s) : c ≠ 0 := by
  rintro rfl
  exact h0 (h.subset List.mem_cons_self)

theorem strTurn_pos {s t : Bytes} (h0 : 0 ∉ s) (h : t <:+ s) :
    strTurn s (pos s t) = .ok (.inr (pos s (jsonStrEnd t))) ∨
      ∃ u, u <:+ s ∧ u.length < t.length ∧ Loop.Turn (strTurn s) (pos s t) (pos s u) ∧
        pos s (jsonStrEnd u) = pos s (jsonStrEnd t) := by
  unfold Loop.Turn strTurn
  rw [read_pos h, ok_bind]
  cases t with
  | nil => exact .inl rfl
  | cons c t =>
    have hc := suffix_ne_zero h0 h
    rw [List.headD_cons, if_neg hc]
    by_cases h92 : c = 92
    · subst h92
      rw [if_pos rfl, pos_cons, read_pos (tail_suffix h), ok_bind]
      cases t with
      | nil =>
        refine .inr ⟨[], tail_suffix h, Nat.one_pos, ?_, rfl⟩
        rw [List.headD_nil, if_pos rfl, ptr_pos (tail_suffix h)]
        rfl
      | cons d t =>
        have ht := tail_suffix (tail_suffix h)
        have hp : pos s (92 :: d :: t)+2 = pos s t := by
          rw [← pos_cons s d t, ← pos_cons s 92 (d :: t)]
          omega
        refine .inr ⟨t, ht, by simp, ?_, by rw [jsonStrEnd_escape]⟩
        rw [List.headD_cons, if_neg (suffix_ne_zero h0 (tail_suffix h)), hp, ptr_pos ht]
        rfl
    · rw [if_neg h92, ptr_next h, ok_bind]
      by_cases h34 : c = 34
      · subst h34
        refine .inl ?_
        rw [if_pos rfl, jsonStrEnd_quote]
        rfl
      · refine .inr ⟨t, tail_suffix h, Nat.lt_succ_self _, ?_, by rw [jsonStrEnd_cons t h92 h34]⟩
        rw [if_neg h34]
        rfl

theorem walkStr_pos {s t : Bytes} (h0 : 0 ∉ s) (h : 34 :: t <:+ s) :
    walkStr s (pos s (34 :: t)) = .ok (pos s (jsonStrEnd t)) := by
  unfold walkStr
  rw [read_pos h, ok_bind, List.headD_cons, if_pos rfl, ptr_next h, ok_bind]
  exact scan_eq (p := pos s) (fun t ht => strTurn_pos h0 ht) (tail_suffix h)

/-- The end of the loop that looks for a closing bracket. -/
def closed (s : Bytes) (e : Option Bytes) : Bool × ℤ := (e.isSome, pos s (e.getD []))

theorem closeTurn_pos {s : Bytes} (h0 : 0 ∉ s) (op cl : UInt8) (i : Bytes × ℤ) (h : i.1 <:+ s) :
    closeTurn s op cl (pos s i.1, i.2) = .ok (.inr (closed s (jsonClose op cl i.2 i.1))) ∨
      ∃ j : Bytes × ℤ, j.1 <:+ s ∧ j.1.length < i.1.length ∧
        Loop.Turn (closeTurn s op cl) (pos s i.1, i.2) (pos s j.1, j.2) ∧
          closed s (jsonClose op cl j.2 j.1) = closed s (jsonClose op cl i.2 i.1) := by
  obtain ⟨t, depth⟩ := i
  unfold Loop.Turn closeTurn
  dsimp only at h ⊢
  rw [read_pos h, ok_bind]
  cases t with
  | nil =>
    refine .inl ?_
    rw [jsonClose]
    rfl
  | cons c t =>
    have ht := tail_suffix h
    rw [List.headD_cons, if_neg (suffix_ne_zero h0 h), jsonClose]
    by_cases h34 : c = 34
    · subst h34
      have hq := jsonStrEnd_suffix t
      have hlt := Nat.lt_succ_of_le (jsonStrEnd_le t)
      have hb : ptr s (pos s (jsonStrEnd t)-1) = .ok (pos s (jsonStrEnd t)-1) := by
        have hl := h.length_le
        unfold ptr
        rw [List.length_cons] at hl
        rw [if_pos ⟨by unfold pos; omega, by unfold pos; omega⟩]
      refine .inr ⟨(jsonStrEnd t, depth), hq.trans ht, hlt, ?_, by rw [if_pos rfl]⟩
      rw [if_pos rfl, walkStr_pos h0 h, ok_bind, hb, ok_bind, Int.sub_add_cancel,
        ptr_pos (hq.trans ht)]
      rfl
    · rw [if_neg h34, if_neg h34]
      by_cases ho : c = op
      · refine .inr ⟨(t, depth+1), ht, Nat.lt_succ_self _, ?_, by rw [if_pos ho]⟩
        rw [if_pos ho, ptr_next h]
        rfl
      · rw [if_neg ho, if_neg ho]
        by_cases hc : c = cl
        · rw [if_pos hc, if_pos hc]
          by_cases hd : depth-1 = 0
          · refine .inl ?_
            rw [if_pos hd, if_pos hd]
            rfl
          · refine .inr ⟨(t, depth-1), ht, Nat.lt_succ_self _, ?_, by rw [if_neg hd]⟩
            rw [if_neg hd, ptr_next h]
            rfl
        · refine .inr ⟨(t, depth), ht, Nat.lt_succ_self _, ?_, by rw [if_neg hc]⟩
          rw [if_neg hc, ptr_next h]
          rfl

theorem close_pos {s t : Bytes} (h0 : 0 ∉ s) (op cl : UInt8) (h : t <:+ s) :
    close s op cl (pos s t) = .ok (closed s (jsonClose op cl 0 t)) :=
  Loop.run_eq (p := fun i : Bytes × ℤ => (pos s i.1, i.2)) (μ := fun i => i.1.length)
    (I := fun i => i.1 <:+ s) (closeTurn_pos h0 op cl) (i := (t, 0)) h
    (Nat.lt_succ_of_le h.length_le)

theorem jsonSkipWs_suffix (t : Bytes) : jsonSkipWs t <:+ t := List.dropWhile_suffix _

theorem jsonClose_some {op cl : UInt8} {depth : ℤ} {p e : Bytes}
    (h : jsonClose op cl depth p = some e) : e <:+ p ∧ ∃ c t, e = c :: t := by
  fun_induction jsonClose op cl depth p with
  | case1 depth => cases h
  | case2 depth t ih =>
    exact ⟨(ih h).1.trans ((jsonStrEnd_suffix t).trans (List.suffix_cons _ _)), (ih h).2⟩
  | case3 depth t _ ih => exact ⟨(ih h).1.trans (List.suffix_cons _ _), (ih h).2⟩
  | case4 depth t _ _ _ =>
    cases h
    exact ⟨List.suffix_rfl, _, _, rfl⟩
  | case5 depth t _ _ _ ih => exact ⟨(ih h).1.trans (List.suffix_cons _ _), (ih h).2⟩
  | case6 depth c t _ _ _ ih => exact ⟨(ih h).1.trans (List.suffix_cons _ _), (ih h).2⟩

theorem jsonAfter_suffix (op cl : UInt8) (p : Bytes) : jsonAfter op cl p <:+ p := by
  unfold jsonAfter
  cases h : jsonClose op cl 0 p with
  | none => exact List.nil_suffix
  | some e => exact (List.tail_suffix e).trans (jsonClose_some h).1

theorem jsonWalk_suffix (p : Bytes) : jsonWalk p <:+ p := by
  have hs := jsonSkipWs_suffix p
  rw [jsonWalk]
  split
  all_goals rename_i he
  · rw [he] at hs
    exact (jsonStrEnd_suffix _).trans (tail_suffix hs)
  · rw [he] at hs
    exact (jsonAfter_suffix _ _ _).trans hs
  · rw [he] at hs
    exact (jsonAfter_suffix _ _ _).trans hs
  · exact (List.dropWhile_suffix _).trans hs

/-- Behind the bracket that closes the first one. -/
theorem after_pos {s t : Bytes} (h0 : 0 ∉ s) (op cl : UInt8) (h : t <:+ s) :
    (do
      let q ← close s op cl (pos s t)
      if q.1 then ptr s (q.2+1) else pure q.2) = .ok (pos s (jsonAfter op cl t)) := by
  rw [close_pos h0 op cl h, ok_bind]
  unfold closed jsonAfter
  cases hc : jsonClose op cl 0 t with
  | none => rfl
  | some e =>
    obtain ⟨he, c, u, rfl⟩ := jsonClose_some hc
    exact ptr_next (he.trans h)

theorem scalar_pos {s t : Bytes} (h0 : 0 ∉ s) (h : t <:+ s) :
    scan s (scalarTurn s) (pos s t) = .ok (pos s (t.dropWhile fun c => !jsonStop c)) := by
  refine scan_eq (p := pos s) (f := fun t => pos s (t.dropWhile fun c => !jsonStop c)) ?_ h
  intro t ht
  unfold Loop.Turn scalarTurn
  rw [read_pos ht, ok_bind]
  cases t with
  | nil => exact .inl rfl
  | cons c t =>
    rw [List.headD_cons]
    by_cases hc : jsonStop c = false
    · refine .inr ⟨t, tail_suffix ht, Nat.lt_succ_self _, ?_, ?_⟩
      · rw [if_pos ⟨suffix_ne_zero h0 ht, hc⟩, ptr_next ht]
        rfl
      · rw [List.dropWhile_cons_of_pos (by simp [hc])]
    · refine .inl ?_
      rw [if_neg (fun hn => hc hn.2), List.dropWhile_cons_of_neg (by simpa using hc)]
      rfl

/-- What `json_walk` makes of the first character. -/
theorem jsonWalk_cases (t : Bytes) :
    (∃ u, jsonSkipWs t = 34 :: u ∧ jsonWalk t = jsonStrEnd u) ∨
    (∃ u, jsonSkipWs t = 123 :: u ∧ jsonWalk t = jsonAfter 123 125 (123 :: u)) ∨
    (∃ u, jsonSkipWs t = 91 :: u ∧ jsonWalk t = jsonAfter 91 93 (91 :: u)) ∨
    ((jsonSkipWs t).headD 0 ≠ 34 ∧ ¬ ((jsonSkipWs t).headD 0 = 123 ∨ (jsonSkipWs t).headD 0 = 91) ∧
      jsonWalk t = (jsonSkipWs t).dropWhile fun c => !jsonStop c) := by
  unfold jsonWalk
  split
  · rename_i u he
    exact .inl ⟨u, he, rfl⟩
  · rename_i u he
    exact .inr (.inl ⟨u, he, rfl⟩)
  · rename_i u he
    exact .inr (.inr (.inl ⟨u, he, rfl⟩))
  · rename_i h34 h123 h91
    have hne (c : UInt8) (hc : c ≠ 0) (hn : ∀ u, jsonSkipWs t ≠ c :: u) :
        (jsonSkipWs t).headD 0 ≠ c := by
      cases hj : jsonSkipWs t with
      | nil => exact fun h => hc h.symm
      | cons d u =>
        rintro rfl
        exact hn u hj
    refine .inr (.inr (.inr ⟨hne 34 (by decide) h34, ?_, rfl⟩))
    rintro (h | h)
    · exact hne 123 (by decide) h123 h
    · exact hne 91 (by decide) h91 h

theorem walk_pos {s t : Bytes} (h0 : 0 ∉ s) (h : t <:+ s) :
    walk s (pos s t) = .ok (pos s (jsonWalk t)) := by
  have hu := (jsonSkipWs_suffix t).trans h
  unfold walk
  rw [skipWs_pos h, ok_bind, read_pos hu, ok_bind]
  rcases jsonWalk_cases t with ⟨u, he, hw⟩ | ⟨u, he, hw⟩ | ⟨u, he, hw⟩ | ⟨h34, hb, hw⟩
  · rw [he] at hu ⊢
    rw [hw, List.headD_cons, if_pos rfl]
    exact walkStr_pos h0 hu
  · rw [he] at hu ⊢
    rw [hw]
    exact after_pos h0 123 125 hu
  · rw [he] at hu ⊢
    rw [hw]
    exact after_pos h0 91 93 hu
  · rw [hw, if_neg h34, if_neg hb]
    exact scalar_pos h0 hu

/-! ### Values -/

theorem pos_add {s t : Bytes} {k : ℕ} (hk : k ≤ t.length) : pos s t+k = pos s (t.drop k) := by
  unfold pos
  rw [List.length_drop]
  omega

theorem pos_append (s b u : Bytes) : pos s u = pos s (b ++ u)+b.length := by
  unfold pos
  rw [List.length_append]
  push_cast
  omega

theorem front_pos {s b u : Bytes} (h : b ++ u <:+ s) :
    scan s (frontTurn s (pos s u)) (pos s (b ++ u)) =
      .ok (pos s (b.dropWhile Json.isWs ++ u)) := by
  refine Loop.run_eq (p := fun b => pos s (b ++ u))
    (f := fun b => pos s (b.dropWhile Json.isWs ++ u)) (μ := List.length)
    (I := fun b => b ++ u <:+ s) ?_ h
    (Nat.lt_succ_of_le ((List.length_append ▸ Nat.le_add_right _ _).trans h.length_le))
  intro b hb
  unfold Loop.Turn frontTurn
  cases b with
  | nil =>
    refine .inl ?_
    rw [List.nil_append, if_neg (lt_irrefl _)]
    rfl
  | cons c b =>
    have hlt : pos s (c :: b ++ u) < pos s u := by
      rw [pos_append s (c :: b) u, List.length_cons]
      omega
    rw [if_pos hlt, read_pos hb, ok_bind, List.cons_append, List.headD_cons]
    by_cases hc : Json.isWs c
    · refine .inr ⟨b, tail_suffix hb, Nat.lt_succ_self _, ?_, ?_⟩
      · have hn : ptr s (pos s (c :: (b ++ u))+1) = .ok (pos s (b ++ u)) := ptr_next hb
        rw [if_pos hc, hn]
        rfl
      · rw [List.dropWhile_cons_of_pos hc]
    · refine .inl ?_
      rw [if_neg hc, List.dropWhile_cons_of_neg hc, List.cons_append]
      rfl

theorem back_pos {s t b : Bytes} (h : t <:+ s) (hb : b <+: t) :
    scan s (backTurn s (pos s t)) (pos s t+b.length) =
      .ok (pos s t+(b.rdropWhile Json.isWs).length) := by
  refine Loop.run_eq (p := fun b : Bytes => pos s t+b.length)
    (f := fun b => pos s t+(b.rdropWhile Json.isWs).length) (μ := List.length)
    (I := fun b => b <+: t) ?_ hb (Nat.lt_succ_of_le (hb.length_le.trans h.length_le))
  intro b hb
  unfold Loop.Turn backTurn
  rcases List.eq_nil_or_concat' b with rfl | ⟨b, c, rfl⟩
  · refine .inl ?_
    rw [List.rdropWhile_nil, List.length_nil, Nat.cast_zero, add_zero, if_neg (lt_irrefl _)]
    rfl
  · obtain ⟨v, hv⟩ := hb
    have hlt : pos s t < pos s t+((b ++ [c]).length : ℕ) := by
      rw [List.length_append, List.length_singleton]
      omega
    have hle : b.length ≤ t.length := by
      rw [← hv, List.append_assoc, List.length_append]
      omega
    have hd : t.drop b.length = c :: v := by
      rw [← hv, List.append_assoc, List.drop_left]
      rfl
    have hp : pos s t+((b ++ [c]).length : ℕ)-1 = pos s (t.drop b.length) := by
      rw [← pos_add hle, List.length_append, List.length_singleton]
      push_cast
      omega
    have hsuf : t.drop b.length <:+ s := (List.drop_suffix _ _).trans h
    rw [if_pos hlt, hp, read_pos hsuf, ok_bind, hd, List.headD_cons]
    by_cases hc : Json.isWs c
    · refine .inr ⟨b, ⟨c :: v, by rw [← hv, List.append_assoc]; rfl⟩, by simp, ?_, ?_⟩
      · rw [if_pos hc, ← hd, ptr_pos hsuf, ← pos_add hle]
        rfl
      · rw [List.rdropWhile_concat_pos _ _ _ hc]
    · refine .inl ?_
      rw [if_neg hc, List.rdropWhile_concat_neg _ _ _ hc]
      rfl

theorem jsonStrip_open {r : Bytes} (h : r.getLast? ≠ some 34) : jsonStrip (34 :: r) = 34 :: r := by
  rw [jsonStrip, if_neg h]

theorem strip_pos {s t b : Bytes} (h : t <:+ s) (hb : b <+: t) :
    strip s (pos s t) (pos s t+b.length) = .ok (jsonStrip b) := by
  have hcopy : copy s (pos s t) (pos s t+b.length-pos s t) = .ok b := by
    have hn : pos s t+b.length-pos s t = b.length := by omega
    obtain ⟨v, rfl⟩ := hb
    rw [hn, copy_pos h (by rw [List.length_append]; omega), List.take_left]
  unfold strip
  cases b with
  | nil =>
    rw [List.length_nil, Nat.cast_zero, add_zero] at hcopy ⊢
    rw [if_neg (lt_irrefl _)]
    exact hcopy
  | cons c r =>
    obtain ⟨v, rfl⟩ := hb
    have hlen : ((c :: r).length : ℤ) = r.length+1 := by rw [List.length_cons]; push_cast; rfl
    rw [if_pos (by omega), read_pos h, ok_bind, List.cons_append, List.headD_cons]
    rw [List.cons_append] at hcopy
    by_cases hc : c = 34
    · subst hc
      rcases List.eq_nil_or_concat' r with rfl | ⟨r, d, rfl⟩
      · rw [if_neg (fun hn => by simp at hn), hcopy, jsonStrip_open (by simp)]
      · have hlast : (34 :: (r ++ [d] ++ v)).drop (r.length+1) = d :: v := by simp
        have hd : pos s (34 :: (r ++ [d] ++ v))+((34 :: (r ++ [d])).length : ℕ)-1 =
            pos s (d :: v) := by
          rw [← hlast, ← pos_add (by simp), hlen, List.length_append, List.length_singleton]
          push_cast
          omega
        have hs : d :: v <:+ s := hlast ▸ (List.drop_suffix _ _).trans h
        rw [if_pos ⟨rfl, by rw [hlen, List.length_append, List.length_singleton]; omega⟩, hd,
          read_pos hs, ok_bind, List.headD_cons]
        by_cases h34 : d = 34
        · subst h34
          have ht : r ++ [34] ++ v <:+ s := tail_suffix h
          have hn : pos s (34 :: v)-(pos s (34 :: (r ++ [34] ++ v))+1) = (r.length : ℕ) := by
            rw [← hd, hlen, List.length_append, List.length_singleton]
            push_cast
            omega
          rw [if_pos rfl, hn, pos_cons, copy_pos ht (by simp), List.append_assoc, List.take_left]
          exact congrArg Except.ok (jsonStrip_quoted r).symm
        · rw [if_neg h34, hcopy, jsonStrip_open (by simpa using h34)]
    · rw [if_neg (fun hn => hc hn.1), hcopy, jsonStrip_cons r hc]

theorem extractValue_pos {s t u : Bytes} (ht : t <:+ s) (hu : u <:+ t) :
    extractValue s (pos s t) (pos s u) = .ok (jsonExtractValue (upTo t u)) := by
  obtain ⟨b, rfl⟩ := hu
  have hfront : b.dropWhile Json.isWs ++ u <:+ s := by
    obtain ⟨w, hw⟩ := List.dropWhile_suffix (l := b) Json.isWs
    exact List.IsSuffix.trans ⟨w, by rw [← List.append_assoc, hw]⟩ ht
  have hback : (b.dropWhile Json.isWs).rdropWhile Json.isWs <+: b.dropWhile Json.isWs ++ u :=
    (List.rdropWhile_prefix _ _).trans (List.prefix_append _ _)
  unfold extractValue
  rw [front_pos ht, ok_bind, pos_append s (b.dropWhile Json.isWs) u,
    back_pos hfront (List.prefix_append _ _), ok_bind, strip_pos hfront hback, upTo_append]
  rfl

/-! ### Members -/

theorem comma_pos {s t : Bytes} (h : t <:+ s) :
    comma s (pos s t) = .ok (pos s (jsonComma t)) := by
  unfold comma
  rw [read_pos h, ok_bind]
  cases t with
  | nil => rfl
  | cons c t =>
    rw [List.headD_cons]
    by_cases hc : c = 44
    · subst hc
      rw [if_pos rfl, ptr_next h]
      rfl
    · have hj : jsonComma (c :: t) = c :: t := by
        unfold jsonComma
        split
        · rename_i he
          cases he
          exact absurd rfl hc
        · rfl
      rw [if_neg hc, hj]
      rfl

theorem jsonComma_suffix (t : Bytes) : jsonComma t <:+ t := by
  unfold jsonComma
  split
  · exact List.suffix_cons _ _
  · exact List.suffix_rfl

theorem jsonStrEnd_lt {t : Bytes} (ht : t ≠ []) : (jsonStrEnd t).length < t.length := by
  cases t with
  | nil => exact absurd rfl ht
  | cons c t =>
    by_cases h92 : c = 92
    · subst h92
      cases t with
      | nil => exact Nat.one_pos
      | cons d t =>
        rw [jsonStrEnd_escape]
        exact Nat.lt_succ_of_le ((jsonStrEnd_le t).trans (Nat.le_succ _))
    · by_cases h34 : c = 34
      · subst h34
        rw [jsonStrEnd_quote]
        exact Nat.lt_succ_self _
      · rw [jsonStrEnd_cons t h92 h34]
        exact Nat.lt_succ_of_le (jsonStrEnd_le t)

/-- With anything behind its quote, a key has a length. The text starts with a bracket, so that
there is room before the quote. -/
theorem keyOf_pos {s t : Bytes} (h0 : 0 ∉ s) (h : 34 :: t <:+ s) (hp : 0 < pos s (34 :: t))
    (ht : t ≠ []) : keyOf s (pos s (34 :: t)) =
      .ok (jsonKeyText t (jsonStrEnd t), pos s (jsonStrEnd t)) := by
  have hlt := jsonStrEnd_lt ht
  have hn : pos s (jsonStrEnd t)-2-pos s (34 :: t) = (t.length-(jsonStrEnd t).length-1 : ℕ) := by
    unfold pos
    rw [List.length_cons]
    push_cast
    omega
  have hptr : ptr s (pos s (jsonStrEnd t)-2) = .ok (pos s (jsonStrEnd t)-2) := by
    unfold ptr
    rw [if_pos ⟨by omega, by unfold pos; omega⟩]
  unfold keyOf
  rw [walkStr_pos h0 h, ok_bind, hptr, ok_bind, hn, pos_cons, copy_pos (tail_suffix h) (by omega)]
  rfl

/-- A quote at the end of the text gives a key of length -1. -/
theorem keyOf_end {s : Bytes} (h0 : 0 ∉ s) (h : [34] <:+ s) (hp : 0 < pos s [34]) :
    keyOf s (pos s [34]) = .error .badCopy := by
  have hn : pos s (jsonStrEnd [])-2-pos s [34] = -1 := by
    unfold pos
    simp [jsonStrEnd]
  have hptr : ptr s (pos s (jsonStrEnd [])-2) = .ok (pos s (jsonStrEnd [])-2) := by
    unfold ptr
    rw [if_pos ⟨by omega, by unfold pos; omega⟩]
  unfold keyOf
  rw [walkStr_pos h0 h, ok_bind, hptr, ok_bind, hn]
  unfold copy
  rw [if_neg (by omega)]
  rfl

/-- What is behind the start of an object or an array has something in front of it. -/
theorem pos_pos {s t u : Bytes} {c : UInt8} (h : c :: t <:+ s) (hu : u <:+ t) : 0 < pos s u := by
  have hl := h.length_le
  have hl' := hu.length_le
  rw [List.length_cons] at hl
  unfold pos
  omega

/-- The last quote of the text has nothing behind it. -/
def CutOff (t : Bytes) : Prop := t = [34]

instance (t : Bytes) : Decidable (CutOff t) := decEq _ _

theorem member_pos {s t : Bytes} (h0 : 0 ∉ s) (h : t <:+ s) (hp : 0 < pos s t)
    (hc : ¬ CutOff t) :
    member s (pos s t) = .ok ((jsonMember t).map fun m => (m.1, pos s m.2)) := by
  unfold member
  rw [read_pos h, ok_bind]
  cases t with
  | nil => rfl
  | cons c t =>
    rw [List.headD_cons]
    by_cases h34 : c = 34
    · subst h34
      have ht : t ≠ [] := by
        rintro rfl
        exact hc rfl
      have hstr : jsonSkipWs (jsonStrEnd t) <:+ s :=
        (jsonSkipWs_suffix _).trans ((jsonStrEnd_suffix t).trans (tail_suffix h))
      rw [if_neg (by simp), keyOf_pos h0 h hp ht, ok_bind,
        skipWs_pos ((jsonStrEnd_suffix t).trans (tail_suffix h)), ok_bind, read_pos hstr, ok_bind]
      rw [jsonMember]
      cases hj : jsonSkipWs (jsonStrEnd t) with
      | nil =>
        rw [if_pos (by decide)]
        rfl
      | cons d u =>
        rw [hj] at hstr
        by_cases h58 : d = 58
        · subst h58
          rw [if_neg (fun hn : (58 :: u).headD 0 ≠ 58 => hn rfl), ptr_next hstr, ok_bind,
            skipWs_pos (tail_suffix hstr)]
          rfl
        · rw [if_pos (show (d :: u).headD 0 ≠ 58 from h58)]
          split
          · rename_i he
            cases he
            exact absurd rfl h58
          · rfl
    · rw [if_pos h34]
      unfold jsonMember
      split
      · rename_i he
        cases he
        exact absurd rfl h34
      · rfl

theorem member_end {s : Bytes} (h0 : 0 ∉ s) (h : [34] <:+ s) (hp : 0 < pos s [34]) :
    member s (pos s [34]) = .error .badCopy := by
  unfold member
  rw [read_pos h, ok_bind, List.headD_cons, if_neg (by simp), keyOf_end h0 h hp]
  rfl

theorem jsonMember_suffix {t k v : Bytes} (h : jsonMember t = some (k, v)) : v <:+ t := by
  unfold jsonMember at h
  split at h
  · rename_i t
    split at h
    · rename_i u hu
      cases h
      have hs := (jsonSkipWs_suffix (jsonStrEnd t)).trans (jsonStrEnd_suffix t)
      rw [hu] at hs
      exact (jsonSkipWs_suffix u).trans ((tail_suffix hs).trans (List.suffix_cons _ _))
    · cases h
  · cases h

end JsonAt
end Slemu
