import OrgCursor.Cursor.Basic

/-!
# Skipping characters

`skip_whitespace`, `skip_chars_forward` and `skip_chars_backward` are `while let` loops over
`get_next_char` and `get_prev_char`.  Each loop is modelled with a fuel argument, one round of
the source loop per unit, and the methods give it `len s + 1` rounds: a round that goes on moves
the cursor past a character, so the loop has stopped before the fuel runs out
(`length_le_len`).

One spec lemma per loop states what a run of it does from the offset of a character:
`skipWhitespaceLoop_spec`, `skipCharsForwardLoop_spec` and `skipCharsBackwardLoop_spec`, each
by induction on the fuel from a lemma for one round.  From
them, `skip_chars_backward` stops at its limit or at the first character not in the set
(`skipCharsBackward_stops_at_limit_or_nonmember`) and undoes `skip_chars_forward`
(`skipCharsBackward_undoes_skipCharsForward`).  The other two loops do less than their
comments say: `skip_chars_forward` compares a count of characters with a byte limit and runs
past the limit, and `skip_whitespace` reads a second character after each whitespace one, so
that after an odd run of whitespace it swallows the character that ends it.  Each loop stays
where it stopped, so all three skips are idempotent (`skips_idempotent`).
-/

namespace OrgCursor

/-- `char::is_whitespace`: the characters with the Unicode `White_Space` property. -/
def isWhitespace (c : Char) : Bool :=
  let v := c.toNat
  v == 0x20 || (0x09 ≤ v && v ≤ 0x0d) || v == 0x85 || v == 0xa0 || v == 0x1680 ||
    (0x2000 ≤ v && v ≤ 0x200a) || v == 0x2028 || v == 0x2029 || v == 0x202f || v == 0x205f ||
    v == 0x3000

namespace StrCursor

variable (s : String)

/-- The loop of `StrCursor::skip_whitespace`, for `fuel` rounds. -/
def skipWhitespaceLoop : Nat → Nat → Except Panic Nat
  | 0, pos => .ok pos
  | fuel + 1, pos => do
    match ← getNextChar s pos with
    | (none, pos) => return pos
    | (some c, pos) =>
      if !isWhitespace c then
        let (_, pos) ← getPrevChar s pos
        return pos
      else
        let (_, pos) ← getNextChar s pos
        skipWhitespaceLoop fuel pos

/-- `StrCursor::skip_whitespace`: the new position, which it also returns. -/
def skipWhitespace (pos : Nat) : Except Panic (Nat × Nat) := do
  let pos ← skipWhitespaceLoop s (len s + 1) pos
  return (pos, pos)

/-- The loop of `StrCursor::skip_chars_forward` from `pos` with the limit `limit`, for `fuel`
rounds, from the count `count` at `cur`.  `count + pos` cannot overflow: both are at most
`len s`. -/
def skipCharsForwardLoop (str : String) (pos limit : Nat) :
    Nat → Nat → Nat → Except Panic (Nat × Nat)
  | 0, count, cur => .ok (count, cur)
  | fuel + 1, count, cur => do
    match ← getNextChar s cur with
    | (none, cur) => return (count, cur)
    | (some c, cur) =>
      if !str.data.contains c then
        let (_, cur) ← getPrevChar s cur
        return (count, cur)
      else if count + pos > limit then
        let (_, cur) ← getPrevChar s cur
        return (count, cur)
      else skipCharsForwardLoop str pos limit fuel (count + 1) cur

/-- `StrCursor::skip_chars_forward`: the number of characters skipped, and the new position. -/
def skipCharsForward (str : String) (limit : Option Nat) (pos : Nat) :
    Except Panic (Nat × Nat) :=
  let limit := limit.getD (len s)
  if pos ≥ limit then .ok (0, pos)
  else skipCharsForwardLoop s str pos limit (len s + 1) 0 pos

/-- The loop of `StrCursor::skip_chars_backward` with the limit `limit`, for `fuel` rounds,
from the count `count` at `cur`. -/
def skipCharsBackwardLoop (str : String) (limit : Nat) :
    Nat → Nat → Nat → Except Panic (Nat × Nat)
  | 0, count, cur => .ok (count, cur)
  | fuel + 1, count, cur => do
    match ← getPrevChar s cur with
    | (none, cur) => return (count, cur)
    | (some c, cur) =>
      if !str.data.contains c then
        let (_, cur) ← getNextChar s cur
        return (count, cur)
      else if cur < limit then
        let (_, cur) ← getNextChar s cur
        return (count, cur)
      else skipCharsBackwardLoop str limit fuel (count + 1) cur

/-- `StrCursor::skip_chars_backward`: the number of characters skipped, and the new position. -/
def skipCharsBackward (str : String) (limit : Option Nat) (pos : Nat) :
    Except Panic (Nat × Nat) :=
  let limit := limit.getD 0
  if pos ≤ limit then .ok (0, pos)
  else skipCharsBackwardLoop s str limit (len s + 1) 0 pos

/-! ### One round -/

variable {s} {i : Nat}

/-- `get_next_char` from the offset of a character moves to the next one, and stays at the
end. -/
lemma getNextChar_offsetOf_le (h : i ≤ s.data.length) :
    ∃ o, getNextChar s (offsetOf s i) = .ok (o, offsetOf s (min (i + 1) s.data.length)) := by
  rcases Nat.lt_or_ge i s.data.length with hlt | hge
  · exact ⟨_, by rw [getNextChar_offsetOf hlt, min_eq_left hlt]⟩
  · obtain rfl : i = s.data.length := by omega
    exact ⟨_, by rw [min_eq_right (Nat.le_succ _), offsetOf_length, getNextChar_len]⟩

/-! ### `skip_whitespace` -/

/-- One round of the loop of `skip_whitespace` at the offset of a character: after a
whitespace character it reads the next one too and goes on; before any other it steps back. -/
lemma skipWhitespaceLoop_succ_offsetOf {f : Nat} (h : i < s.data.length) :
    skipWhitespaceLoop s (f + 1) (offsetOf s i) =
      if isWhitespace s.data[i] then
        skipWhitespaceLoop s f (offsetOf s (min (i + 2) s.data.length))
      else .ok (offsetOf s i) := by
  obtain ⟨o, ho⟩ := getNextChar_offsetOf_le (s := s) (i := i + 1) h
  rw [skipWhitespaceLoop, getNextChar_offsetOf h, ok_bind]
  cases hw : isWhitespace s.data[i] <;> simp [hw, ho, getPrevChar_offsetOf_succ h]

/-- A run of the loop of `skip_whitespace` from the offset of character `i`: it stops at the
first character at an even distance from `i` that is not whitespace, or at the end.  The
characters at an odd distance are skipped unread. -/
lemma skipWhitespaceLoop_spec {f : Nat} (hi : i ≤ s.data.length)
    (hf : s.data.length - i < f) :
    ∃ r, i ≤ r ∧ r ≤ s.data.length ∧ skipWhitespaceLoop s f (offsetOf s i) = .ok (offsetOf s r) ∧
      (∀ m, i ≤ m → m < r → (m - i) % 2 = 0 → ∀ d, s.data[m]? = some d → isWhitespace d) ∧
      (r < s.data.length → (r - i) % 2 = 0) ∧
      ∀ d, s.data[r]? = some d → isWhitespace d = false := by
  induction f generalizing i with
  | zero => omega
  | succ f ih =>
    rcases Nat.lt_or_ge i s.data.length with hlt | hge
    · have hget : s.data[i]? = some s.data[i] := List.getElem?_eq_getElem hlt
      rw [skipWhitespaceLoop_succ_offsetOf hlt]
      split_ifs with hw
      · obtain ⟨r, h1, h2, h3, h4, h5, h6⟩ :=
          ih (i := min (i + 2) s.data.length) (by omega) (by omega)
        refine ⟨r, by omega, h2, h3, fun m hm1 hm2 hm3 d hd => ?_, fun hr => ?_, h6⟩
        · rcases Nat.lt_or_ge m (i + 2) with hm | hm
          · obtain rfl : m = i := by omega
            rw [hget] at hd
            cases hd
            exact hw
          · exact h4 m (by omega) hm2 (by omega) d hd
        · have := h5 hr
          omega
      · refine ⟨i, le_rfl, hi, rfl, fun m hm1 hm2 => by omega, fun _ => by simp, fun d hd => ?_⟩
        rw [hget] at hd
        cases hd
        simpa using hw
    · obtain rfl : i = s.data.length := by omega
      refine ⟨s.data.length, le_rfl, le_rfl, ?_, fun m hm1 hm2 => by omega, fun h => by omega,
        fun d hd => by rw [List.getElem?_eq_none le_rfl] at hd; cases hd⟩
      rw [skipWhitespaceLoop, offsetOf_length, getNextChar_len]
      rfl

/-- `skip_whitespace` from `" a"` stops after the `'a'`: the second read of the round that
starts at the space consumes it. -/
theorem skipWhitespace_swallows_after_odd_run : skipWhitespace " a" 0 = .ok (2, 2) := by
  decide

/-! ### `skip_chars_forward` -/

/-- One round of the loop of `skip_chars_forward` at the offset of a character: it goes on past
the character if it is in the set and the count has not passed the limit, and otherwise steps
back onto it. -/
lemma skipCharsForwardLoop_succ_offsetOf (str : String) (pos limit : Nat) {f c : Nat}
    (h : i < s.data.length) :
    skipCharsForwardLoop s str pos limit (f + 1) c (offsetOf s i) =
      if s.data[i] ∈ str.data ∧ c + pos ≤ limit then
        skipCharsForwardLoop s str pos limit f (c + 1) (offsetOf s (i + 1))
      else .ok (c, offsetOf s i) := by
  rw [skipCharsForwardLoop, getNextChar_offsetOf h, ok_bind]
  by_cases hc : s.data[i] ∈ str.data <;> by_cases hl : c + pos ≤ limit <;>
    simp [hc, hl, getPrevChar_offsetOf_succ h]

/-- A run of the loop of `skip_chars_forward` from the offset of character `i` with the count
`c`: it skips characters of the set while `c + pos` is at most the limit, testing the
count before it adds the character it has read. -/
lemma skipCharsForwardLoop_spec (str : String) (pos limit : Nat) {f c : Nat}
    (hi : i ≤ s.data.length) (hf : s.data.length - i < f) :
    ∃ r, i ≤ r ∧ r ≤ s.data.length ∧
      skipCharsForwardLoop s str pos limit f c (offsetOf s i) =
        .ok (c + (r - i), offsetOf s r) ∧
      (∀ m, i ≤ m → m < r → ∀ d, s.data[m]? = some d → d ∈ str.data) ∧
      (r = i ∨ c + (r - i) + pos ≤ limit + 1) ∧
      ∀ d, s.data[r]? = some d → d ∈ str.data → limit < c + (r - i) + pos := by
  induction f generalizing i c with
  | zero => omega
  | succ f ih =>
    rcases Nat.lt_or_ge i s.data.length with hlt | hge
    · have hget : s.data[i]? = some s.data[i] := List.getElem?_eq_getElem hlt
      rw [skipCharsForwardLoop_succ_offsetOf str pos limit hlt]
      split_ifs with hgo
      · obtain ⟨r, h1, h2, h3, h4, h5, h6⟩ := ih (i := i + 1) (c := c + 1) hlt (by omega)
        refine ⟨r, by omega, h2, ?_, fun m hm1 hm2 d hd => ?_, Or.inr (by omega), fun d hd hd' => ?_⟩
        · rw [h3]
          congr 2
          omega
        · rcases Nat.eq_or_lt_of_le hm1 with rfl | hm
          · rw [hget] at hd
            cases hd
            exact hgo.1
          · exact h4 m hm hm2 d hd
        · have := h6 d hd hd'
          omega
      · refine ⟨i, le_rfl, hi, by simp, fun m hm1 hm2 => by omega, Or.inl rfl, fun d hd hd' => ?_⟩
        rw [hget] at hd
        cases hd
        exact Nat.lt_of_not_le fun hl => hgo ⟨hd', by omega⟩
    · obtain rfl : i = s.data.length := by omega
      refine ⟨s.data.length, le_rfl, le_rfl, ?_, fun m hm1 hm2 => by omega, Or.inl rfl,
        fun d hd => by rw [List.getElem?_eq_none le_rfl] at hd; cases hd⟩
      rw [skipCharsForwardLoop, offsetOf_length, getNextChar_len, Nat.sub_self, Nat.add_zero]
      rfl

/-- At the limit `2`, `skip_chars_forward` over `"ééé"` skips all three characters, to the
offset `6`. -/
theorem skipCharsForward_overruns_limit :
    skipCharsForward "ééé" "é" (some 2) 0 = .ok (3, 6) := by
  decide

/-! ### `skip_chars_backward` -/

/-- One round of the loop of `skip_chars_backward` after a character: it goes on before the
character if it is in the set and starts at or after the limit, and otherwise steps forward
over it again. -/
lemma skipCharsBackwardLoop_succ_offsetOf_succ (str : String) (limit : Nat) {f c : Nat}
    (h : i < s.data.length) :
    skipCharsBackwardLoop s str limit (f + 1) c (offsetOf s (i + 1)) =
      if s.data[i] ∈ str.data ∧ limit ≤ offsetOf s i then
        skipCharsBackwardLoop s str limit f (c + 1) (offsetOf s i)
      else .ok (c, offsetOf s (i + 1)) := by
  rw [skipCharsBackwardLoop, getPrevChar_offsetOf_succ h, ok_bind]
  by_cases hc : s.data[i] ∈ str.data <;> by_cases hl : limit ≤ offsetOf s i <;>
    simp [hc, hl, getNextChar_offsetOf h]

/-- A run of the loop of `skip_chars_backward` from the offset of character `i` with the count
`c`: it skips back over characters of the set as long as the character it lands on starts
at or after the limit. -/
lemma skipCharsBackwardLoop_spec (str : String) (limit : Nat) {f c : Nat}
    (hi : i ≤ s.data.length) (hf : i < f) :
    ∃ q, q ≤ i ∧
      skipCharsBackwardLoop s str limit f c (offsetOf s i) =
        .ok (c + (i - q), offsetOf s q) ∧
      (∀ m, q ≤ m → m < i → ∀ d, s.data[m]? = some d → d ∈ str.data) ∧
      (q = i ∨ limit ≤ offsetOf s q) ∧
      ∀ d, 0 < q → s.data[q - 1]? = some d → d ∈ str.data → offsetOf s (q - 1) < limit := by
  induction f generalizing i c with
  | zero => omega
  | succ f ih =>
    rcases i with _ | i
    · refine ⟨0, le_rfl, ?_, fun m hm1 hm2 => by omega, Or.inl rfl, fun _ h => by omega⟩
      rw [skipCharsBackwardLoop, offsetOf_zero, getPrevChar_zero]
      rfl
    have hlt : i < s.data.length := hi
    have hget : s.data[i]? = some s.data[i] := List.getElem?_eq_getElem hlt
    rw [skipCharsBackwardLoop_succ_offsetOf_succ str limit hlt]
    split_ifs with hgo
    · obtain ⟨q, h1, h2, h3, h4, h5⟩ := ih (i := i) (c := c + 1) hlt.le (by omega)
      refine ⟨q, by omega, ?_, fun m hm1 hm2 d hd => ?_, Or.inr ?_, h5⟩
      · rw [h2]
        congr 2
        omega
      · rcases Nat.lt_or_ge m i with hm | hm
        · exact h3 m hm1 hm d hd
        · obtain rfl : m = i := by omega
          rw [hget] at hd
          cases hd
          exact hgo.1
      · rcases h4 with rfl | h4
        · exact hgo.2
        · exact h4
    · refine ⟨i + 1, le_rfl, by simp, fun m hm1 hm2 => by omega, Or.inl rfl, fun d _ hd hd' => ?_⟩
      rw [Nat.add_sub_cancel, hget] at hd
      cases hd
      exact Nat.lt_of_not_le fun hl => hgo ⟨hd', hl⟩

/-! ### Where the loops stay -/

/-- The loop of `skip_whitespace` stays where the text ends or a character that is not
whitespace starts. -/
lemma skipWhitespaceLoop_stays {f r : Nat} (hr : r ≤ s.data.length)
    (h : ∀ d, s.data[r]? = some d → isWhitespace d = false) :
    skipWhitespaceLoop s (f + 1) (offsetOf s r) = .ok (offsetOf s r) := by
  rcases Nat.lt_or_ge r s.data.length with hlt | hge
  · rw [skipWhitespaceLoop_succ_offsetOf hlt,
      if_neg (by simp [h _ (List.getElem?_eq_getElem hlt)])]
  · obtain rfl : r = s.data.length := by omega
    rw [skipWhitespaceLoop, offsetOf_length, getNextChar_len]
    rfl

/-- The loop of `skip_chars_forward` stays where the text ends, or where a character starts
that is not in the set or that comes when the count has passed the limit. -/
lemma skipCharsForwardLoop_stays (str : String) (pos limit : Nat) {f c r : Nat}
    (hr : r ≤ s.data.length) (h : ∀ d, s.data[r]? = some d → d ∈ str.data → limit < c + pos) :
    skipCharsForwardLoop s str pos limit (f + 1) c (offsetOf s r) = .ok (c, offsetOf s r) := by
  rcases Nat.lt_or_ge r s.data.length with hlt | hge
  · rw [skipCharsForwardLoop_succ_offsetOf str pos limit hlt, if_neg]
    rintro ⟨hc, hl⟩
    have := h _ (List.getElem?_eq_getElem hlt) hc
    omega
  · obtain rfl : r = s.data.length := by omega
    rw [skipCharsForwardLoop, offsetOf_length, getNextChar_len]
    rfl

/-- The loop of `skip_chars_backward` stays at the start of the text, or after a character
that is not in the set or that starts before the limit. -/
lemma skipCharsBackwardLoop_stays (str : String) (limit : Nat) {f c q : Nat}
    (hq : q ≤ s.data.length)
    (h : ∀ d, 0 < q → s.data[q - 1]? = some d → d ∈ str.data → offsetOf s (q - 1) < limit) :
    skipCharsBackwardLoop s str limit (f + 1) c (offsetOf s q) = .ok (c, offsetOf s q) := by
  rcases q with _ | q
  · rw [skipCharsBackwardLoop, offsetOf_zero, getPrevChar_zero]
    rfl
  · rw [skipCharsBackwardLoop_succ_offsetOf_succ str limit hq, if_neg]
    rintro ⟨hc, hl⟩
    have := h _ (Nat.succ_pos q) (List.getElem?_eq_getElem hq) hc
    exact absurd hl (not_le.2 this)

/-- Where the loop of `skip_chars_backward` stops, at `q`, the character before `q` is not in
the set or starts before the limit; so no offset `m` at or after the limit with that character
in the set after it lies before `q`. -/
lemma le_of_skipCharsBackwardLoop_stop {str : String} {limit q m : Nat}
    (hstop : ∀ d, 0 < q → s.data[q - 1]? = some d → d ∈ str.data → offsetOf s (q - 1) < limit)
    (hq : q ≤ s.data.length) (hm : limit ≤ offsetOf s m)
    (hmem : m < q → ∀ d, s.data[q - 1]? = some d → d ∈ str.data) : q ≤ m := by
  by_contra hmq
  obtain ⟨d, hd⟩ : ∃ d, s.data[q - 1]? = some d := ⟨_, List.getElem?_eq_getElem (by omega)⟩
  have := hstop d (by omega) hd (hmem (by omega) d hd)
  have := offsetOf_mono (s := s) (show m ≤ q - 1 by omega)
  omega

/-! ### The methods -/

section Methods

variable (str : String) (limit : Option Nat) {p : Nat}

/-- From a character boundary the three skips do not panic, and move to a character boundary
in their own direction. -/
lemma skipWhitespace_isCharBoundary (hb : isCharBoundary s p = true) :
    ∃ q, skipWhitespace s p = .ok (q, q) ∧ isCharBoundary s q = true ∧ p ≤ q := by
  obtain ⟨j, hj, rfl⟩ := isCharBoundary_iff.1 hb
  obtain ⟨r, hjr, -, h, -⟩ := skipWhitespaceLoop_spec (s := s) (f := len s + 1) hj
    (by have := length_le_len (s := s); omega)
  exact ⟨_, by simp [skipWhitespace, h], isCharBoundary_offsetOf r, offsetOf_mono hjr⟩

lemma skipCharsForward_isCharBoundary (hb : isCharBoundary s p = true) :
    ∃ k q, skipCharsForward s str limit p = .ok (k, q) ∧ isCharBoundary s q = true ∧ p ≤ q := by
  obtain ⟨j, hj, rfl⟩ := isCharBoundary_iff.1 hb
  simp only [skipCharsForward]
  split_ifs
  · exact ⟨_, _, rfl, hb, le_rfl⟩
  obtain ⟨r, hjr, -, h, -⟩ := skipCharsForwardLoop_spec (s := s) str (offsetOf s j)
    (limit.getD (len s)) (c := 0) (f := len s + 1) hj
    (by have := length_le_len (s := s); omega)
  exact ⟨_, _, h, isCharBoundary_offsetOf r, offsetOf_mono hjr⟩

lemma skipCharsBackward_isCharBoundary (hb : isCharBoundary s p = true) :
    ∃ k q, skipCharsBackward s str limit p = .ok (k, q) ∧ isCharBoundary s q = true ∧ q ≤ p := by
  obtain ⟨j, hj, rfl⟩ := isCharBoundary_iff.1 hb
  simp only [skipCharsBackward]
  split_ifs
  · exact ⟨_, _, rfl, hb, le_rfl⟩
  obtain ⟨q, hqj, h, -⟩ := skipCharsBackwardLoop_spec (s := s) str (limit.getD 0) (c := 0)
    (f := len s + 1) hj (by have := length_le_len (s := s); omega)
  exact ⟨_, _, h, isCharBoundary_offsetOf q, offsetOf_mono hqj⟩

lemma head?_charsIn_to_len {r : Nat} (hr : r ≤ s.data.length) :
    (charsIn s (offsetOf s r) (len s)).head? = s.data[r]? := by
  rw [charsIn_to_len r hr, List.head?_eq_getElem?, List.getElem?_drop, Nat.add_zero]

/-- What `skip_whitespace` does from a character boundary `p`: it moves to a character boundary
`q` at which the text ends or a character that is not whitespace starts; of the characters it
passes, those at an even distance from `p` are whitespace, and it stops before the end only at an
even distance, but the characters at an odd distance are passed unread. -/
theorem skipWhitespace_eq (hb : isCharBoundary s p = true) :
    ∃ q, skipWhitespace s p = .ok (q, q) ∧ isCharBoundary s q = true ∧ p ≤ q ∧
      (∀ t c, t % 2 = 0 → (charsIn s p q)[t]? = some c → isWhitespace c = true) ∧
      (q < len s → (charsIn s p q).length % 2 = 0) ∧
      ∀ c, (charsIn s q (len s)).head? = some c → isWhitespace c = false := by
  obtain ⟨j, hj, rfl⟩ := isCharBoundary_iff.1 hb
  obtain ⟨r, h1, h2, h3, h4, h5, h6⟩ := skipWhitespaceLoop_spec (s := s) (f := len s + 1) hj
    (by have := length_le_len (s := s); omega)
  refine ⟨offsetOf s r, by simp [skipWhitespace, h3], isCharBoundary_offsetOf r,
    offsetOf_mono h1, fun t c ht hc => ?_, fun hr => ?_, fun c hc => ?_⟩
  · rw [charsIn_offsetOf h1, List.getElem?_take] at hc
    split_ifs at hc with htr
    rw [List.getElem?_drop] at hc
    exact h4 (j + t) (by omega) (by omega) (by omega) c hc
  · have hrn : r < s.data.length := by
      rcases Nat.lt_or_ge r s.data.length with h | h
      · exact h
      · rw [show r = s.data.length by omega, offsetOf_length] at hr
        omega
    rw [length_charsIn_offsetOf h1 h2]
    exact h5 hrn
  · rw [head?_charsIn_to_len h2] at hc
    exact h6 c hc

/-- From the start of `"  a"`, `skip_whitespace` stops at `2`, before the `'a'`: the stop the
characterisation leaves is forced. -/
theorem skipWhitespace_eq_on_spaces : skipWhitespace "  a" 0 = .ok (2, 2) := by
  obtain ⟨q, h, hq, -, hws, heven, hstop⟩ := skipWhitespace_eq (s := "  a") (p := 0) (by decide)
  have hq3 : q ≤ 3 := le_len_of_isCharBoundary hq
  obtain rfl | rfl | rfl | rfl : q = 0 ∨ q = 1 ∨ q = 2 ∨ q = 3 := by omega
  · exact absurd (hstop ' ' (by decide)) (by decide)
  · exact absurd (heven (by decide)) (by decide)
  · exact h
  · exact absurd (hws 2 'a' (by decide) (by decide)) (by decide)

/-- What `skip_chars_forward` does from a character boundary `p` below its limit `L` (the end
by default): it moves to a character boundary `q` past characters of the set only, and stops at
the end of the text, before a character not in the set, or before a character read when the
count of characters already skipped plus `p` passes `L`; it returns that count.  A count of
characters compared with a byte offset lets `q` pass `L`. -/
theorem skipCharsForward_eq (hb : isCharBoundary s p = true) :
    if limit.getD (len s) ≤ p then skipCharsForward s str limit p = .ok (0, p)
    else ∃ q, skipCharsForward s str limit p = .ok ((charsIn s p q).length, q) ∧
      isCharBoundary s q = true ∧ p ≤ q ∧ (∀ c ∈ charsIn s p q, c ∈ str.data) ∧
      (q = p ∨ (charsIn s p q).length + p ≤ limit.getD (len s) + 1) ∧
      ∀ c, (charsIn s q (len s)).head? = some c → c ∈ str.data →
        limit.getD (len s) < (charsIn s p q).length + p := by
  obtain ⟨j, hj, rfl⟩ := isCharBoundary_iff.1 hb
  split_ifs with hle
  · simp [skipCharsForward, hle]
  obtain ⟨r, h1, h2, h3, h4, h5, h6⟩ := skipCharsForwardLoop_spec (s := s) str (offsetOf s j)
    (limit.getD (len s)) (c := 0) (f := len s + 1) hj (by have := length_le_len (s := s); omega)
  have hlen := length_charsIn_offsetOf h1 h2
  refine ⟨offsetOf s r, ?_, isCharBoundary_offsetOf r, offsetOf_mono h1, fun c hc => ?_, ?_,
    fun c hc hc' => ?_⟩
  · simp only [skipCharsForward, if_neg hle, h3, Nat.zero_add, hlen]
  · obtain ⟨m, hm1, hm2, hm⟩ := (mem_charsIn_offsetOf h1).1 hc
    exact h4 m hm1 hm2 c hm
  · rcases h5 with rfl | h5
    · exact Or.inl rfl
    · exact Or.inr (by omega)
  · rw [head?_charsIn_to_len h2] at hc
    have := h6 c hc hc'
    omega

/-- Over `"ab"` with the set `"a"`, `skip_chars_forward` from `0` skips the one `'a'` and stops
at `1`: the stop the characterisation leaves is forced. -/
theorem skipCharsForward_eq_on_ab : skipCharsForward "ab" "a" none 0 = .ok (1, 1) := by
  have h := skipCharsForward_eq (s := "ab") "a" none (p := 0) (by decide)
  rw [if_neg (by decide)] at h
  obtain ⟨q, h1, hq, -, hmem, -, hstop⟩ := h
  have hq2 : q ≤ 2 := le_len_of_isCharBoundary hq
  obtain rfl | rfl | rfl : q = 0 ∨ q = 1 ∨ q = 2 := by omega
  · exact absurd (hstop 'a' (by decide) (by decide)) (by decide)
  · exact h1.trans (by decide)
  · exact absurd (hmem 'b' (by decide)) (by decide)

/-- `skip_chars_backward` from a character boundary `p`: above its limit (`0` by default) it
moves to the least character boundary `q` at or above the limit from which every character up
to `p` is in the set, and returns the number of those characters; at or below it, it does
nothing. -/
theorem skipCharsBackward_stops_at_limit_or_nonmember (hb : isCharBoundary s p = true) :
    if p ≤ limit.getD 0 then skipCharsBackward s str limit p = .ok (0, p)
    else ∃ q, skipCharsBackward s str limit p = .ok ((charsIn s q p).length, q) ∧
      isCharBoundary s q = true ∧ limit.getD 0 ≤ q ∧ q ≤ p ∧
      (∀ c ∈ charsIn s q p, c ∈ str.data) ∧
      ∀ q', isCharBoundary s q' = true → limit.getD 0 ≤ q' → q' ≤ p →
        (∀ c ∈ charsIn s q' p, c ∈ str.data) → q ≤ q' := by
  obtain ⟨j, hj, rfl⟩ := isCharBoundary_iff.1 hb
  split_ifs with hle
  · simp [skipCharsBackward, hle]
  obtain ⟨q, h1, h2, h3, h4, h5⟩ := skipCharsBackwardLoop_spec (s := s) str (limit.getD 0)
    (c := 0) (f := len s + 1) hj (by have := length_le_len (s := s); omega)
  have hlim : limit.getD 0 ≤ offsetOf s q := by rcases h4 with rfl | h4 <;> omega
  refine ⟨offsetOf s q, ?_, isCharBoundary_offsetOf q, hlim, offsetOf_mono h1,
    fun c hc => ?_, fun q' hq' hl' _ hall => ?_⟩
  · simp only [skipCharsBackward, if_neg hle, h2, length_charsIn_offsetOf h1 hj, Nat.zero_add]
  · obtain ⟨m, hm1, hm2, hm⟩ := (mem_charsIn_offsetOf h1).1 hc
    exact h3 m hm1 hm2 c hm
  obtain ⟨m, hm, rfl⟩ := isCharBoundary_iff.1 hq'
  rw [offsetOf_le_offsetOf_iff (by omega)]
  exact le_of_skipCharsBackwardLoop_stop h5 (by omega) hl' fun hmq d hd =>
    hall d ((mem_charsIn_offsetOf (by omega)).2 ⟨q - 1, by omega, by omega, hd⟩)

/-- From offset `2` of `"aab"`, `skip_chars_backward` over `"a"` skips the two `'a'`s back to
offset `0`. -/
theorem skipCharsBackward_stops_on_aab : skipCharsBackward "aab" "a" none 2 = .ok (2, 0) := by
  have h := skipCharsBackward_stops_at_limit_or_nonmember (s := "aab") "a" none (p := 2) (by decide)
  rw [if_neg (by decide)] at h
  obtain ⟨q, hq, -, -, -, -, hmin⟩ := h
  obtain rfl : q = 0 := Nat.le_zero.1 (hmin 0 (by decide) le_rfl (by decide) (by decide))
  exact hq

/-- From the position and count where `skip_chars_forward` stops, `skip_chars_backward` with
the old position as its limit comes back to it and counts the same characters. -/
theorem skipCharsBackward_undoes_skipCharsForward (hb : isCharBoundary s p = true) {k p' : Nat}
    (h : skipCharsForward s str limit p = .ok (k, p')) :
    skipCharsBackward s str (some p) p' = .ok (k, p) := by
  obtain ⟨j, hj, rfl⟩ := isCharBoundary_iff.1 hb
  have hfuel : s.data.length < len s + 1 := by have := length_le_len (s := s); omega
  simp only [skipCharsForward] at h
  split_ifs at h with hge
  · cases h
    simp [skipCharsBackward]
  obtain ⟨r, h1, h2, h3, h4, -, -⟩ := skipCharsForwardLoop_spec (s := s) str (offsetOf s j)
    (limit.getD (len s)) (c := 0) (f := len s + 1) hj (by omega)
  rw [h3] at h
  cases h
  simp only [skipCharsBackward, Option.getD_some]
  split_ifs with hle
  · obtain rfl : r = j := le_antisymm ((offsetOf_le_offsetOf_iff h2).1 hle) h1
    simp
  obtain ⟨q, g1, g2, -, g4, g5⟩ := skipCharsBackwardLoop_spec (s := s) str (offsetOf s j)
    (c := 0) (f := len s + 1) h2 (by omega)
  have hjq : j ≤ q := by
    rcases g4 with rfl | g4
    · exact h1
    · exact (offsetOf_le_offsetOf_iff hj).1 g4
  have hqj : q ≤ j := le_of_skipCharsBackwardLoop_stop g5 (by omega) le_rfl fun hjq d hd =>
    h4 (q - 1) (by omega) (by omega) d hd
  obtain rfl : q = j := le_antisymm hqj hjq
  exact g2

/-- Over `"aab"` with the set `"a"`, forward from `0` skips two characters to `2`, and backward
from `2` with the limit `0` comes back to `0`. -/
theorem skipCharsBackward_undoes_skipCharsForward_on_aab :
    skipCharsBackward "aab" "a" (some 0) 2 = .ok (2, 0) :=
  skipCharsBackward_undoes_skipCharsForward (s := "aab") "a" none (by decide)
    (by decide : skipCharsForward "aab" "a" none 0 = .ok (2, 2))

/-- Each skip is idempotent: from where a skip stops, the same skip stays, and the counting
ones count nothing. -/
theorem skips_idempotent (hb : isCharBoundary s p = true) :
    (∀ q, skipWhitespace s p = .ok (q, q) → skipWhitespace s q = .ok (q, q)) ∧
    (∀ k q, skipCharsForward s str limit p = .ok (k, q) →
      skipCharsForward s str limit q = .ok (0, q)) ∧
    (∀ k q, skipCharsBackward s str limit p = .ok (k, q) →
      skipCharsBackward s str limit q = .ok (0, q)) := by
  obtain ⟨j, hj, rfl⟩ := isCharBoundary_iff.1 hb
  have hfuel : s.data.length < len s + 1 := by have := length_le_len (s := s); omega
  refine ⟨fun q hq => ?_, fun k q hq => ?_, fun k q hq => ?_⟩
  · obtain ⟨r, -, h2, h3, -, -, h6⟩ := skipWhitespaceLoop_spec (s := s) (f := len s + 1) hj
      (by omega)
    simp only [skipWhitespace, h3, ok_bind, pure_eq_ok, Except.ok.injEq, Prod.mk.injEq] at hq
    obtain ⟨rfl, -⟩ := hq
    simp [skipWhitespace, skipWhitespaceLoop_stays h2 h6]
  · simp only [skipCharsForward] at hq ⊢
    split_ifs at hq with hge
    · cases hq
      rw [if_pos hge]
    obtain ⟨r, h1, h2, h3, -, -, h6⟩ := skipCharsForwardLoop_spec (s := s) str (offsetOf s j)
      (limit.getD (len s)) (c := 0) (f := len s + 1) hj (by omega)
    rw [h3] at hq
    cases hq
    split_ifs with hge'
    · rfl
    · refine skipCharsForwardLoop_stays str _ _ h2 fun d hd hd' => ?_
      have := h6 d hd hd'
      have := offsetOf_add_sub_le (s := s) h1 h2
      omega
  · simp only [skipCharsBackward] at hq ⊢
    split_ifs at hq with hle
    · cases hq
      rw [if_pos hle]
    obtain ⟨q', h1, h2, -, -, h5⟩ := skipCharsBackwardLoop_spec (s := s) str (limit.getD 0)
      (c := 0) (f := len s + 1) hj (by omega)
    rw [h2] at hq
    cases hq
    split_ifs with hle'
    · rfl
    · exact skipCharsBackwardLoop_stays str _ (by omega) h5

/-- Over `"  a"`, `skip_whitespace` and `skip_chars_forward` over `" "`, run again from `2`
where their first runs from `0` stop, stay at `2`. -/
theorem skips_idempotent_on_spaces :
    skipWhitespace "  a" 2 = .ok (2, 2) ∧ skipCharsForward "  a" " " none 2 = .ok (0, 2) :=
  ⟨(skips_idempotent (s := "  a") " " none (p := 0) (by decide)).1 2 (by decide),
    (skips_idempotent (s := "  a") " " none (p := 0) (by decide)).2.1 2 2 (by decide)⟩

end Methods

end StrCursor

end OrgCursor
