import Mathlib.Data.List.Basic
import Mathlib.Data.List.Range
import Mathlib.Algebra.Order.Group.Nat

/-! Messages that are taken in block by block, through a buffer that holds what does not fill one
yet, and that end with a padding. -/

namespace BlockStream
variable {β σ : Type} {N : ℕ}

/-! ### A message in blocks -/

/-- The whole blocks of a message; what is left over after them is in none. -/
def blocks (N : ℕ) (m : List β) : List (List β) :=
  (List.range (m.length/N)).map fun i => (m.drop (N*i)).take N

/-- How many zeros bring `n` items, a mark and a field of `L` to the end of a block. -/
def zeros (N L n : ℕ) : ℕ := (N-(n+1+L)%N)%N

/-- A message with its padding: a mark, zeros, and what says how long it was. -/
def padded (N : ℕ) (mark zero : β) (field m : List β) : List β :=
  m ++ (mark :: List.replicate (zeros N field.length m.length) zero ++ field)

theorem blocks_nil : blocks N ([] : List β) = [] := by
  unfold blocks
  rw [List.length_nil, Nat.zero_div, List.range_zero, List.map_nil]

theorem blocks_single {m : List β} (hN : 0 < N) (hm : m.length = N) : blocks N m = [m] := by
  unfold blocks
  rw [hm, Nat.div_self hN]
  change [(m.drop (N*0)).take N] = [m]
  rw [Nat.mul_zero, List.drop_zero, ← hm, List.take_length]

theorem blocks_append {m t : List β} (hN : 0 < N) (hm : N ∣ m.length) :
    blocks N (m ++ t) = blocks N m ++ blocks N t := by
  obtain ⟨q, hq⟩ := hm
  have hcount : (m ++ t).length/N = q+t.length/N := by
    rw [List.length_append, hq, Nat.mul_add_div hN]
  have hqm : m.length/N = q := by
    rw [hq, Nat.mul_div_cancel_left q hN]
  unfold blocks
  rw [hcount, hqm, List.range_add, List.map_append, List.map_map]
  apply congrArg₂
  · apply List.map_congr_left
    intro i hi
    -- a block of `m` ends within it
    have hin : N*i+N ≤ m.length := by
      calc N*i+N = N*(i+1) := (Nat.mul_succ N i).symm
        _ ≤ N*q := Nat.mul_le_mul_left N (List.mem_range.mp hi)
        _ = m.length := hq.symm
    rw [List.drop_append_of_le_length (by omega),
      List.take_append_of_le_length (by rw [List.length_drop]; omega)]
  · apply List.map_congr_left
    intro i _
    have hat : N*(q+i) = m.length+N*i := by
      rw [Nat.mul_add, hq]
    change ((m ++ t).drop (N*(q+i))).take N = (t.drop (N*i)).take N
    rw [hat, List.drop_append, List.drop_eq_nil_of_le (by omega), List.nil_append,
      Nat.add_sub_cancel_left]

theorem length_of_mem_blocks {m b : List β} (h : b ∈ blocks N m) : b.length = N := by
  unfold blocks at h
  obtain ⟨i, hi, rfl⟩ := List.mem_map.mp h
  have hin : N*i+N ≤ m.length := by
    calc N*i+N = N*(i+1) := (Nat.mul_succ N i).symm
      _ ≤ N*(m.length/N) := Nat.mul_le_mul_left N (List.mem_range.mp hi)
      _ ≤ m.length := Nat.mul_div_le m.length N
  rw [List.length_take, List.length_drop]
  omega

/-- Two ways to take a block in that agree on whole blocks agree on messages. -/
theorem foldl_blocks {f g : σ → List β → σ} (h : ∀ x b, b.length = N → f x b = g x b) (x : σ)
    (m : List β) : (blocks N m).foldl f x = (blocks N m).foldl g x := by
  apply List.foldl_ext
  intro x b hb
  exact h x b (length_of_mem_blocks hb)

/-- The padding ends a block. -/
theorem dvd_padded (mark zero : β) (field m : List β) (hN : 0 < N) :
    N ∣ (padded N mark zero field m).length := by
  unfold padded
  rw [List.length_append, List.length_append, List.length_cons, List.length_replicate]
  unfold zeros
  obtain ⟨n, hn⟩ : ∃ n, m.length+1+field.length = n := ⟨_, rfl⟩
  have hlen : m.length+((N-(m.length+1+field.length)%N)%N+1+field.length) = n+(N-n%N)%N := by
    rw [hn]
    omega
  rw [hlen]
  have hlt : n%N < N := Nat.mod_lt n hN
  apply Nat.dvd_of_mod_eq_zero
  rcases Nat.eq_zero_or_pos (n%N) with h0 | hpos
  · rw [h0, Nat.sub_zero, Nat.mod_self, Nat.add_zero, h0]
  · rw [Nat.mod_eq_of_lt (by omega : N-n%N < N)]
    have hsplit : n+(N-n%N) = N*(n/N)+N := by
      have := Nat.div_add_mod n N
      omega
    rw [hsplit, Nat.mul_add_mod, Nat.mod_self]

/-! ### The buffer -/

/-- `memcpy(b + pos, d, |d|)` -/
def put (b : List β) (pos : ℕ) (d : List β) : List β := b.take pos ++ d ++ b.drop (pos+d.length)

theorem put_length {b d : List β} {pos : ℕ} (h : pos+d.length ≤ b.length) :
    (put b pos d).length = b.length := by
  unfold put
  rw [List.length_append, List.length_append, List.length_take, List.length_drop]
  omega

/-- What stood before the place stays, and the data comes after it. -/
theorem put_take {b d : List β} {pos : ℕ} (h : pos+d.length ≤ b.length) :
    (put b pos d).take (pos+d.length) = b.take pos ++ d := by
  have hlen : (b.take pos ++ d).length = pos+d.length := by
    rw [List.length_append, List.length_take]
    omega
  unfold put
  rw [← hlen, List.take_left]

theorem put_full {b d : List β} {pos : ℕ} (h : pos+d.length = b.length) :
    put b pos d = b.take pos ++ d := by
  unfold put
  rw [h, List.drop_length, List.append_nil]

/-- Words under way, and a buffer with `used` items in it that are not in the words yet. -/
@[ext]
structure Stream (N : ℕ) (β σ : Type) where
  words : σ
  buf : List β
  used : ℕ
  length : buf.length = N
  used_lt : used < N

section
variable (compress : σ → List β → σ)

/-- How much of the data goes into the buffer. -/
def Stream.room (s : Stream N β σ) (d : List β) : ℕ := min (N-s.used) d.length

theorem Stream.room_le (s : Stream N β σ) (d : List β) :
    s.used+(d.take (s.room d)).length ≤ s.buf.length := by
  have hlt := s.used_lt
  rw [List.length_take, s.length]
  unfold Stream.room
  omega

/-- A turn: the buffer takes what it has room for, and a full one goes into the words. -/
def Stream.turn (s : Stream N β σ) (d : List β) : Stream N β σ :=
  let buf := put s.buf s.used (d.take (s.room d))
  have hbuf : buf.length = N := (put_length (s.room_le d)).trans s.length
  if h : s.used+s.room d = N then
    ⟨compress s.words buf, buf, 0, hbuf, Nat.lt_of_le_of_lt (Nat.zero_le _) s.used_lt⟩
  else
    ⟨s.words, buf, s.used+s.room d, hbuf, by
      have hlt := s.used_lt
      unfold Stream.room at h ⊢
      omega⟩

/-- Turns until the data are used up, and `n` of them at most. -/
def Stream.turns : ℕ → Stream N β σ → List β → Stream N β σ
  | 0, s, _ => s
  | _+1, s, [] => s
  | n+1, s, c :: d => turns n (s.turn compress (c :: d)) ((c :: d).drop (s.room (c :: d)))

def Stream.update (s : Stream N β σ) (d : List β) : Stream N β σ := s.turns compress d.length d

/-- The end: the mark; zeros, in a block of their own where the field has no room after the mark;
and the field. -/
def Stream.finish (mark zero : β) (field : List β) (s : Stream N β σ) : σ :=
  let buf := put s.buf s.used [mark]
  let used := s.used+1
  if N-field.length < used then
    let buf := put buf used (.replicate (N-used) zero)
    let words := compress s.words buf
    let buf := put buf 0 (.replicate (N-field.length) zero)
    compress words (put buf (N-field.length) field)
  else
    let buf := put buf used (.replicate (N-field.length-used) zero)
    compress s.words (put buf (N-field.length) field)

/-- The stream has taken in the message: its whole blocks are in the words, the rest in the
buffer. -/
def Stream.Took (start : σ) (s : Stream N β σ) (m : List β) : Prop :=
  ∃ full rest, m = full ++ rest ∧ N ∣ full.length ∧
    s.words = (blocks N full).foldl compress start ∧ s.buf.take s.used = rest

end

/-! ### What a stream has taken in -/

variable {compress : σ → List β → σ} {start : σ} {s : Stream N β σ} {m d : List β}

theorem Stream.take_length (s : Stream N β σ) : (s.buf.take s.used).length = s.used := by
  have hlt := s.used_lt
  rw [List.length_take, s.length]
  omega

/-- A stream that has just begun. -/
theorem took_nil (hw : s.words = start) (hu : s.used = 0) : s.Took compress start [] := by
  refine ⟨[], [], rfl, ⟨0, rfl⟩, ?_, ?_⟩
  · rw [hw, blocks_nil]
    rfl
  · rw [hu, List.take_zero]

theorem Stream.Took.used (h : s.Took compress start m) : s.used = m.length%N := by
  obtain ⟨full, rest, rfl, hdvd, _, hrest⟩ := h
  have hlen : rest.length = s.used := by
    rw [← hrest]
    exact s.take_length
  rw [List.length_append, hlen, Nat.add_mod, Nat.mod_eq_zero_of_dvd hdvd, Nat.zero_add,
    Nat.mod_mod, Nat.mod_eq_of_lt s.used_lt]

/-- What a turn adds is what it took. -/
theorem took_turn (h : s.Took compress start m) :
    (s.turn compress d).Took compress start (m ++ d.take (s.room d)) := by
  obtain ⟨full, rest, rfl, hdvd, hwords, hrest⟩ := h
  have hN : 0 < N := Nat.lt_of_le_of_lt (Nat.zero_le _) s.used_lt
  have hroom : (d.take (s.room d)).length = s.room d := by
    rw [List.length_take]
    unfold Stream.room
    omega
  have htake := put_take (s.room_le d)
  rw [hroom, hrest] at htake
  by_cases hfull : s.used+s.room d = N
  · -- the buffer is full: with what it held it is the next block
    have hturn : s.turn compress d = ⟨compress s.words (rest ++ d.take (s.room d)),
        rest ++ d.take (s.room d), 0, by
          rw [List.length_append, ← hrest, s.take_length, hroom, hfull], hN⟩ := by
      have hput : put s.buf s.used (d.take (s.room d)) = rest ++ d.take (s.room d) := by
        rw [put_full (by rw [hroom, hfull, s.length]), hrest]
      unfold Stream.turn
      dsimp only
      rw [dif_pos hfull]
      simp only [hput]
    have hlen : (rest ++ d.take (s.room d)).length = N := by
      rw [List.length_append, ← hrest, s.take_length, hroom, hfull]
    refine ⟨full ++ (rest ++ d.take (s.room d)), [], ?_, ?_, ?_, ?_⟩
    · rw [List.append_nil, List.append_assoc]
    · rw [List.length_append, hlen]
      exact Nat.dvd_add hdvd (Nat.dvd_refl N)
    · rw [hturn, blocks_append hN hdvd, blocks_single hN hlen, List.foldl_append, ← hwords]
      rfl
    · rw [hturn, List.take_zero]
  · -- there is room left, and the words stay
    have hturn : (s.turn compress d).words = s.words ∧
        (s.turn compress d).buf = put s.buf s.used (d.take (s.room d)) ∧
        (s.turn compress d).used = s.used+s.room d := by
      unfold Stream.turn
      dsimp only
      rw [dif_neg hfull]
      exact ⟨rfl, rfl, rfl⟩
    obtain ⟨hw, hb, hu⟩ := hturn
    refine ⟨full, rest ++ d.take (s.room d), (List.append_assoc ..), hdvd, ?_, ?_⟩
    · rw [hw, hwords]
    · rw [hb, hu, htake]

theorem room_cons (s : Stream N β σ) (c : β) (t : List β) : 0 < s.room (c :: t) := by
  have hlt := s.used_lt
  unfold Stream.room
  rw [List.length_cons]
  omega

/-- As many turns as there are data use them up. -/
theorem took_turns {n : ℕ} (hn : d.length ≤ n) (h : s.Took compress start m) :
    (s.turns compress n d).Took compress start (m ++ d) := by
  induction n generalizing s m d with
  | zero =>
    have hd : d = [] := List.length_eq_zero_iff.mp (Nat.le_zero.mp hn)
    rw [hd, List.append_nil]
    exact h
  | succ n ih =>
    cases d with
    | nil =>
      rw [List.append_nil]
      exact h
    | cons c t =>
      have hpos := room_cons s c t
      have hleft : ((c :: t).drop (s.room (c :: t))).length ≤ n := by
        rw [List.length_drop]
        rw [List.length_cons] at hn ⊢
        omega
      have hrest := ih hleft (took_turn (d := c :: t) h)
      rw [List.append_assoc, List.take_append_drop] at hrest
      exact hrest

theorem took_update (h : s.Took compress start m) :
    (s.update compress d).Took compress start (m ++ d) :=
  took_turns (Nat.le_refl _) h

/-- What every update keeps, pieces keep. -/
theorem foldl_pieces {τ : Type} {upd : τ → List β → τ} {P : τ → List β → Prop}
    (hupd : ∀ c m d, P c m → P (upd c d) (m ++ d)) {c : τ} {ps : List (List β)} (h : P c m) :
    P (ps.foldl upd c) (m ++ ps.flatten) := by
  induction ps generalizing c m with
  | nil =>
    rw [List.flatten_nil, List.append_nil]
    exact h
  | cons p ps ih =>
    rw [List.flatten_cons, ← List.append_assoc]
    exact ih (hupd c m p h)

/-! ### The end of a stream -/

theorem zeros_of_room {L n : ℕ} (h : n%N+1+L ≤ N) : zeros N L n = N-L-(n%N+1) := by
  have hmod : (n+1+L)%N = (n%N+1+L)%N := by
    rw [Nat.add_assoc, Nat.add_assoc, Nat.mod_add_mod]
  unfold zeros
  rw [hmod]
  rcases Nat.lt_or_eq_of_le h with hlt | heq
  · rw [Nat.mod_eq_of_lt hlt, Nat.mod_eq_of_lt (by omega)]
    omega
  · rw [heq, Nat.mod_self, Nat.sub_zero, Nat.mod_self]
    omega

theorem zeros_of_no_room {L n : ℕ} (hL : L < N) (h : N < n%N+1+L) :
    zeros N L n = N-(n%N+1)+(N-L) := by
  have hlt : n%N < N := Nat.mod_lt n (by omega)
  have hmod : (n+1+L)%N = n%N+1+L-N := by
    calc (n+1+L)%N = (n%N+1+L)%N := by rw [Nat.add_assoc, Nat.add_assoc, Nat.mod_add_mod]
      _ = (n%N+1+L-N)%N := Nat.mod_eq_sub_mod (Nat.le_of_lt h)
      _ = n%N+1+L-N := Nat.mod_eq_of_lt (by omega)
  unfold zeros
  rw [hmod, Nat.mod_eq_of_lt (by omega)]
  omega

/-- Zeros up to the field, and the field, after what the buffer holds. -/
theorem put_zeros_field (zero : β) (field : List β) {b r : List β} {pos : ℕ}
    (hb : b.length = N) (hr : b.take pos = r) (hpos : pos+field.length ≤ N) :
    put (put b pos (.replicate (N-field.length-pos) zero)) (N-field.length) field =
      r ++ (.replicate (N-field.length-pos) zero ++ field) := by
  have hzeros : pos+(List.replicate (N-field.length-pos) zero).length = N-field.length := by
    rw [List.length_replicate]
    omega
  have hfit : pos+(List.replicate (N-field.length-pos) zero).length ≤ b.length := by omega
  have htake := put_take hfit
  rw [hzeros, hr] at htake
  rw [put_full (by rw [put_length hfit]; omega), htake, List.append_assoc]

/-- The end of a stream is the end of the padded message. -/
theorem finish_took {mark zero : β} {field : List β} (hL : field.length < N)
    (h : s.Took compress start m) :
    s.finish compress mark zero field =
      (blocks N (padded N mark zero field m)).foldl compress start := by
  have hmod := h.used.symm
  obtain ⟨full, rest, rfl, hdvd, hwords, hrest⟩ := h
  have hN : 0 < N := by omega
  have hused : rest.length = s.used := by
    rw [← hrest]
    exact s.take_length
  have hlt := s.used_lt
  -- the buffer with the mark in it
  have hmark : s.used+[mark].length ≤ s.buf.length := by
    rw [s.length]
    exact hlt
  have htake := put_take hmark
  rw [hrest, List.length_singleton] at htake
  have hput : (put s.buf s.used [mark]).length = N := (put_length hmark).trans s.length
  unfold padded
  rw [List.append_assoc, blocks_append hN hdvd, List.foldl_append, ← hwords]
  unfold Stream.finish
  dsimp only
  generalize put s.buf s.used [mark] = buf at htake hput
  by_cases hroom : N-field.length < s.used+1
  · -- the mark's block is whole with zeros, and the field's is the one after it
    rw [if_pos hroom, zeros_of_no_room hL (by omega), hmod]
    have hfirst : put buf (s.used+1) (.replicate (N-(s.used+1)) zero) =
        rest ++ [mark] ++ .replicate (N-(s.used+1)) zero := by
      rw [put_full (by rw [List.length_replicate, hput]; omega), htake]
    have hone : (rest ++ [mark] ++ List.replicate (N-(s.used+1)) zero).length = N := by
      rw [← hfirst, put_length (by rw [List.length_replicate, hput]; omega), hput]
    have hsecond := put_zeros_field zero field hone List.take_zero (by omega)
    rw [Nat.sub_zero, List.nil_append] at hsecond
    have htwo : (List.replicate (N-field.length) zero ++ field).length = N := by
      rw [List.length_append, List.length_replicate]
      omega
    have hsplit : rest ++ (mark :: .replicate (N-(s.used+1)+(N-field.length)) zero ++ field) =
        (rest ++ [mark] ++ .replicate (N-(s.used+1)) zero) ++
          (.replicate (N-field.length) zero ++ field) := by
      rw [List.replicate_add]
      simp only [List.append_assoc, List.cons_append, List.nil_append]
    rw [hfirst, hsecond, hsplit, blocks_append hN ⟨1, by rw [hone, Nat.mul_one]⟩, blocks_single hN hone,
      blocks_single hN htwo]
    rfl
  · -- mark, zeros and field end the block that the message has begun
    rw [if_neg hroom, zeros_of_room (by omega), hmod]
    have hlast := put_zeros_field zero field hput htake (by omega)
    have hone : (rest ++ [mark] ++ (List.replicate (N-field.length-(s.used+1)) zero ++
        field)).length = N := by
      rw [List.length_append, List.length_append, List.length_append, List.length_replicate,
        List.length_singleton, hused]
      omega
    have hjoin : rest ++ (mark :: .replicate (N-field.length-(s.used+1)) zero ++ field) =
        rest ++ [mark] ++ (.replicate (N-field.length-(s.used+1)) zero ++ field) := by
      simp only [List.append_assoc, List.cons_append, List.nil_append]
    rw [hlast, hjoin, blocks_single hN hone]
    rfl

end BlockStream
