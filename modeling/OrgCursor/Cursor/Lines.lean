import OrgCursor.Cursor.Basic

/-!
# Lines

A line of the text is a maximal run of bytes without `'\n'`.  The offset `p` is on line
`lineOf s p`, the number of `'\n'` bytes before it; the text has lines `0` to `lineCount s`;
and line `k` starts at `lineStart s k`: `0` for the first line, one past the `k`-th `'\n'` for
the others (`lineStart_spec`), and, as a convention, `len s` past the last line.

The newline metric is exact in these terms (`newlineMetric_next_eq`, `newlineMetric_prev_eq`),
and from it every line method of the cursor is:

* `gotoLineBegin_eq`, `gotoNextLine_eq`, `gotoPrevLine_eq`: the start of the current, next and
  previous line;
* `gotoNextLines_succ_eq`, `prevLinesOrStart_eq`, `prevLinesWhile_succ_eq`: the loops of
  `line_beginning_position` and `line_end_position`, by induction on their iteration count.

From the loops, `line_beginning_position` is the start of the line `n - 1` lines on, clamped to
the text (`lineBeginningPosition_eq`), and `line_end_position` the character before the line
start its loops reach (`lineEndPosition_eq`), for every `n` whose `i32` arithmetic does not
overflow; at `n = i32::MIN` both panic (`linePositions_overflow_at_MIN`), and at
`n = i32::MIN + 1` `line_beginning_position` panics off the first line
(`lineBeginningPosition_MIN_succ`).  `goto_next_line` and `goto_prev_line` undo each other but
on the last and the first line (`gotoNextLine_gotoPrevLine_round_trip`).
-/

namespace OrgCursor

/-- The line the offset `p` is on: the number of `'\n'` bytes before it. -/
def lineOf (s : String) (p : Nat) : Nat := ((asBytes s).take p).count 0x0a

/-- The number of `'\n'` bytes of the text, the index of its last line. -/
def lineCount (s : String) : Nat := (asBytes s).count 0x0a

/-- Where line `k` of a byte sequence starts: `0` for the first line, one past the `k`-th
`'\n'` for the others, the length of the sequence past its last line. -/
def lineStartIn : List Nat → Nat → Nat
  | _, 0 => 0
  | [], _ + 1 => 0
  | b :: bs, k + 1 => 1 + lineStartIn bs (if b = 0x0a then k else k + 1)

/-- Where line `k` of the text starts. -/
def lineStart (s : String) (k : Nat) : Nat := lineStartIn (asBytes s) k

/-! ### Line starts in a byte sequence -/

section Bytes

variable {l : List Nat} {o k : Nat}

lemma count_take_succ {b : Nat} (h : l[o]? = some b) :
    (l.take (o + 1)).count 0x0a = (l.take o).count 0x0a + if b = 0x0a then 1 else 0 := by
  simp [List.take_succ, h, List.count_singleton]

lemma count_take_mono {o' : Nat} (h : o ≤ o') : (l.take o).count 0x0a ≤ (l.take o').count 0x0a :=
  (List.take_sublist_take_left l h).count_le _

lemma count_take_le_count : (l.take o).count 0x0a ≤ l.count 0x0a :=
  (List.take_sublist o l).count_le _

/-- No `'\n'` between `o` and `o'`: the two offsets are on the same line. -/
lemma count_take_eq_of_forall {o' : Nat} (h : o ≤ o') (hno : ∀ m, o ≤ m → m < o' → l[m]? ≠ some 0x0a) :
    (l.take o').count 0x0a = (l.take o).count 0x0a := by
  induction o' with
  | zero => rw [Nat.le_zero.1 h]
  | succ o' ih =>
    rcases Nat.eq_or_lt_of_le h with rfl | hlt
    · rfl
    rw [← ih (by omega) fun m h1 h2 => hno m h1 (by omega)]
    cases hb : l[o']? with
    | none => simp [List.take_succ, hb]
    | some b =>
      rw [count_take_succ hb, if_neg]
      · rfl
      · rintro rfl
        exact hno o' (by omega) (by omega) hb

/-- Line `k` starts one past a `'\n'` that has `k - 1` others before it. -/
lemma lineStartIn_spec (hk1 : 1 ≤ k) (hk : k ≤ l.count 0x0a) :
    ∃ o, lineStartIn l k = o + 1 ∧ l[o]? = some 0x0a ∧ (l.take o).count 0x0a = k - 1 := by
  induction l generalizing k with
  | nil => simp at hk; omega
  | cons b l ih =>
    obtain ⟨k, rfl⟩ : ∃ k', k = k' + 1 := ⟨k - 1, by omega⟩
    by_cases hb : b = 0x0a
    · subst hb
      rcases Nat.eq_zero_or_pos k with rfl | hk0
      · exact ⟨0, by simp [lineStartIn], by simp, rfl⟩
      · obtain ⟨o, h1, h2, h3⟩ := ih (k := k) hk0 (by simpa using hk)
        exact ⟨o + 1, by simp [lineStartIn, h1]; omega, by simpa using h2, by simp [h3]; omega⟩
    · obtain ⟨o, h1, h2, h3⟩ := ih (k := k + 1) (by omega) (by simpa [List.count_cons, hb] using hk)
      exact ⟨o + 1, by simp [lineStartIn, hb, h1]; omega, by simpa using h2,
        by simp [List.count_cons, hb, h3]⟩

lemma lineStartIn_of_count_lt (h : l.count 0x0a < k) : lineStartIn l k = l.length := by
  induction l generalizing k with
  | nil => cases k <;> simp_all [lineStartIn]
  | cons b l ih =>
    obtain ⟨k, rfl⟩ : ∃ k', k = k' + 1 := ⟨k - 1, by omega⟩
    by_cases hb : b = 0x0a
    · subst hb
      simp only [lineStartIn, ite_true, List.length_cons]
      rw [ih (by simpa using h)]
      omega
    · simp only [lineStartIn, hb, ite_false, List.length_cons]
      rw [ih (by simpa [List.count_cons, hb] using h)]
      omega

/-- Two `'\n'` bytes with as many `'\n'` before them are the same. -/
lemma eq_of_count_take_eq {o' : Nat} (h1 : l[o]? = some 0x0a) (h2 : l[o']? = some 0x0a)
    (h : (l.take o).count 0x0a = (l.take o').count 0x0a) : o = o' := by
  have key : ∀ {o o'}, o < o' → l[o]? = some 0x0a →
      (l.take o).count 0x0a < (l.take o').count 0x0a := fun hlt hb => by
    have := count_take_mono (l := l) (show _ + 1 ≤ _ from hlt)
    rw [count_take_succ hb, if_pos rfl] at this
    omega
  rcases lt_trichotomy o o' with hlt | rfl | hlt
  · exact absurd h (key hlt h1).ne
  · rfl
  · exact absurd h (key hlt h2).ne'

/-- The line after a `'\n'` starts one past it. -/
lemma lineStartIn_eq (h : l[o]? = some 0x0a) :
    lineStartIn l ((l.take o).count 0x0a + 1) = o + 1 := by
  have hle : (l.take o).count 0x0a + 1 ≤ l.count 0x0a := by
    have := count_take_le_count (l := l) (o := o + 1)
    rwa [count_take_succ h, if_pos rfl] at this
  obtain ⟨o', h1, h2, h3⟩ := lineStartIn_spec (Nat.le_add_left 1 _) hle
  rw [h1, eq_of_count_take_eq h2 h (by simpa using h3)]

end Bytes

/-! ### Lines of the text -/

section Text

variable {s : String} {p k : Nat}

@[simp] lemma lineOf_zero : lineOf s 0 = 0 := by simp [lineOf]

@[simp] lemma lineStart_zero : lineStart s 0 = 0 := by cases s; simp [lineStart, lineStartIn]

lemma lineOf_le_lineCount : lineOf s p ≤ lineCount s := count_take_le_count

lemma lineOf_of_len_le (h : len s ≤ p) : lineOf s p = lineCount s := by
  simp [lineOf, lineCount, List.take_of_length_le (show (asBytes s).length ≤ p from h)]

/-- Line `k` of the text, `1 ≤ k ≤ lineCount s`, starts one past the `k`-th `'\n'`. -/
lemma lineStart_spec (hk1 : 1 ≤ k) (hk : k ≤ lineCount s) :
    ∃ o, lineStart s k = o + 1 ∧ (asBytes s)[o]? = some 0x0a ∧ lineOf s o = k - 1 :=
  lineStartIn_spec hk1 hk

lemma lineStart_of_lineCount_lt (h : lineCount s < k) : lineStart s k = len s :=
  lineStartIn_of_count_lt h

lemma lineStart_eq_of_newline {o : Nat} (h : (asBytes s)[o]? = some 0x0a) :
    lineStart s (lineOf s o + 1) = o + 1 :=
  lineStartIn_eq h

lemma lineStart_le_len : lineStart s k ≤ len s := by
  rcases Nat.eq_zero_or_pos k with rfl | hk1
  · simp
  rcases le_or_lt k (lineCount s) with hk | hk
  · obtain ⟨o, h1, h2, -⟩ := lineStart_spec hk1 hk
    have : o < (asBytes s).length := by
      by_contra hlt
      simp [List.getElem?_eq_none (not_lt.1 hlt)] at h2
    rw [h1]
    exact this
  · rw [lineStart_of_lineCount_lt hk]

lemma lineOf_lineStart (hk : k ≤ lineCount s) : lineOf s (lineStart s k) = k := by
  rcases Nat.eq_zero_or_pos k with rfl | hk1
  · simp
  obtain ⟨o, h1, h2, h3⟩ := lineStart_spec hk1 hk
  rw [h1, lineOf, count_take_succ h2, if_pos rfl, ← lineOf, h3]
  omega

/-- Past the last line, the start is clamped to the end of the text. -/
lemma lineStart_min_add {j : Nat} (hj : 0 < j) :
    lineStart s (min k (lineCount s) + j) = lineStart s (k + j) := by
  rcases le_or_lt k (lineCount s) with hk | hk
  · rw [min_eq_left hk]
  · rw [min_eq_right hk.le, lineStart_of_lineCount_lt (by omega), lineStart_of_lineCount_lt (by omega)]

lemma lineOf_lineStart_min : lineOf s (lineStart s k) = min k (lineCount s) := by
  rcases le_or_lt k (lineCount s) with hk | hk
  · rw [lineOf_lineStart hk, min_eq_left hk]
  · rw [lineStart_of_lineCount_lt hk, lineOf_of_len_le le_rfl, min_eq_right hk.le]

/-- A `'\n'` byte and the offset after it are character boundaries. -/
lemma isCharBoundary_of_newline {o : Nat} (h : (asBytes s)[o]? = some 0x0a) :
    isCharBoundary s o = true ∧ isCharBoundary s (o + 1) = true := by
  obtain ⟨j, hj, hc, rfl⟩ := exists_offsetOf_of_newline h
  rw [List.getElem?_eq_getElem hj, Option.some.injEq] at hc
  have hsucc := offsetOf_succ hj
  rw [hc] at hsucc
  exact ⟨isCharBoundary_offsetOf j, hsucc ▸ isCharBoundary_offsetOf (j + 1)⟩

lemma isCharBoundary_lineStart (k : Nat) : isCharBoundary s (lineStart s k) = true := by
  rcases Nat.eq_zero_or_pos k with rfl | hk1
  · simp
  rcases le_or_lt k (lineCount s) with hk | hk
  · obtain ⟨o, h1, h2, -⟩ := lineStart_spec hk1 hk
    rw [h1]
    exact (isCharBoundary_of_newline h2).2
  · rw [lineStart_of_lineCount_lt hk]
    exact isCharBoundary_len

/-- The next line starts after the position. -/
lemma lt_lineStart_succ (hl : lineOf s p < lineCount s) : p < lineStart s (lineOf s p + 1) := by
  obtain ⟨o, h1, h2, h3⟩ := lineStart_spec (s := s) (k := lineOf s p + 1) (by omega) (by omega)
  rw [h1]
  by_contra hle
  have hmono : lineOf s (o + 1) ≤ lineOf s p := count_take_mono (by omega)
  have hsucc : lineOf s (o + 1) = lineOf s o + 1 := by
    rw [lineOf, count_take_succ h2, if_pos rfl]
    rfl
  omega

/-- A line no later than the current one starts at or before the position. -/
lemma lineStart_le_of_le_lineOf (hk : k ≤ lineOf s p) : lineStart s k ≤ p := by
  rcases Nat.eq_zero_or_pos k with rfl | hk1
  · simp
  obtain ⟨o, h1, -, h3⟩ := lineStart_spec hk1 (hk.trans lineOf_le_lineCount)
  rw [h1]
  by_contra hlt
  have : lineOf s p ≤ lineOf s o := count_take_mono (by omega)
  omega

/-- The next line, or the end of the text, starts at or after the position. -/
lemma le_lineStart_succ (hp : p ≤ len s) : p ≤ lineStart s (lineOf s p + 1) := by
  rcases Nat.lt_or_ge (lineOf s p) (lineCount s) with hl | hl
  · exact (lt_lineStart_succ hl).le
  · rwa [lineStart_of_lineCount_lt (by omega)]

lemma lineOf_eq_pred (h0 : 0 < p) (hp : p ≤ len s) :
    lineOf s p = lineOf s (p - 1) + if (asBytes s)[p - 1]? = some 0x0a then 1 else 0 := by
  have hlt : p - 1 < (asBytes s).length := by unfold len at hp; omega
  have hb := List.getElem?_eq_getElem hlt
  have := count_take_succ hb
  rw [Nat.sub_add_cancel h0] at this
  simp only [lineOf, this, hb, Option.some.injEq]

end Text

/-! ### The newline metric in terms of lines -/

section NewlineMetric

variable {s : String} {p : Nat}

lemma newlineMetric_next_eq (hp : p ≤ len s) :
    newlineMetric.next s p =
      .ok (if lineOf s p < lineCount s then some (lineStart s (lineOf s p + 1)) else none) := by
  simp only [newlineMetric, bytesFrom_of_le (show p ≤ (asBytes s).length from hp), ok_bind,
    pure_eq_ok, Except.ok.injEq]
  cases hm : memchr 0x0a ((asBytes s).drop p) with
  | none =>
    have hnot := memchr_eq_none_iff.1 hm
    have : lineOf s p = lineCount s := by
      rw [lineCount, ← List.take_append_drop p (asBytes s), List.count_append,
        List.count_eq_zero.2 hnot]
      rfl
    simp [this]
  | some i =>
    obtain ⟨h1, h2⟩ := memchr_eq_some_iff.1 hm
    rw [List.getElem?_drop] at h1
    have hline : lineOf s (p + i) = lineOf s p :=
      count_take_eq_of_forall (by omega) fun m hm1 hm2 => by
        have := h2 (m - p) (by omega)
        rwa [List.getElem?_drop, Nat.add_sub_cancel' hm1] at this
    have hstart := lineStart_eq_of_newline h1
    have hlt : lineOf s p < lineCount s := by
      have := count_take_le_count (l := asBytes s) (o := p + i + 1)
      rw [count_take_succ h1, if_pos rfl] at this
      rw [← hline]
      exact this
    rw [hline] at hstart
    simp only [Option.map_some', hlt, ite_true, hstart]

lemma newlineMetric_prev_eq (h0 : 0 < p) (hp : p ≤ len s) :
    newlineMetric.prev s p =
      .ok (if 0 < lineOf s (p - 1) then some (lineStart s (lineOf s (p - 1))) else none) := by
  have hto : bytesTo (asBytes s) (p - 1) = .ok ((asBytes s).take (p - 1)) :=
    bytesTo_of_le (by unfold len at hp; omega)
  simp only [newlineMetric, gt_iff_lt, h0, not_true_eq_false, ite_false, hto, ok_bind,
    pure_eq_ok, Except.ok.injEq]
  cases hm : memrchr 0x0a ((asBytes s).take (p - 1)) with
  | none =>
    have : lineOf s (p - 1) = 0 := List.count_eq_zero.2 (memrchr_eq_none_iff.1 hm)
    simp [this]
  | some i =>
    obtain ⟨h1, h2⟩ := memrchr_eq_some_iff.1 hm
    have hi : i < p - 1 := by
      by_contra hc
      rw [List.getElem?_take, if_neg hc] at h1
      cases h1
    rw [List.getElem?_take_of_lt hi] at h1
    have hline : lineOf s (p - 1) = lineOf s i + 1 := by
      have hno : ∀ m, i + 1 ≤ m → m < p - 1 → (asBytes s)[m]? ≠ some 0x0a := fun m hm1 hm2 => by
        have := h2 m (by omega)
        rwa [List.getElem?_take_of_lt hm2] at this
      rw [lineOf, count_take_eq_of_forall (by omega) hno, count_take_succ h1, if_pos rfl]
      rfl
    simp [hline, lineStart_eq_of_newline h1]

lemma newlineMetric_isBoundary_eq (h0 : 0 < p) (hp : p ≤ len s) :
    newlineMetric.isBoundary s p = .ok (decide ((asBytes s)[p - 1]? = some 0x0a)) := by
  have hlt : p - 1 < (asBytes s).length := by unfold len at hp; omega
  simp only [newlineMetric, Nat.pos_iff_ne_zero.1 h0, ite_false, byteAt_of_lt hlt, ok_bind,
    pure_eq_ok, List.getElem?_eq_getElem hlt, Option.some.injEq]
  rfl

end NewlineMetric

/-! ### The line methods -/

namespace StrCursor

variable (s : String)

/-- `StrCursor::goto_line_begin`: the start of the current line. -/
def gotoLineBegin (pos : Nat) : Except Panic (Nat × Nat) := do
  if pos ≠ 0 then
    match ← atOrPrev s newlineMetric pos with
    | (none, _) => return (0, 0)
    | (some _, pos) => return (pos, pos)
  else return (pos, pos)

/-- `StrCursor::goto_next_line`: the start of the next line, or the end of the text. -/
def gotoNextLine (pos : Nat) : Except Panic (Nat × Nat) := do
  match ← next s newlineMetric pos with
  | (none, _) => return (len s, len s)
  | (some x, pos) => return (x, pos)

/-- `StrCursor::goto_prev_line`: the start of the previous line, or `0`. -/
def gotoPrevLine (pos : Nat) : Except Panic (Nat × Nat) := do
  let (_, pos) ← gotoLineBegin s pos
  if pos = 0 then return (0, pos)
  match ← prev s newlineMetric pos with
  | (none, _) => return (0, 0)
  | (some x, pos) => return (x, pos)

variable {s} {p k : Nat}

lemma next_newlineMetric_eq (hp : p ≤ len s) :
    next s newlineMetric p =
      .ok (if lineOf s p < lineCount s then
        (some (lineStart s (lineOf s p + 1)), lineStart s (lineOf s p + 1)) else (none, p)) := by
  simp only [next, newlineMetric_next_eq hp, ok_bind]
  split_ifs <;> rfl

lemma gotoNextLine_eq (hp : p ≤ len s) :
    gotoNextLine s p = .ok (lineStart s (lineOf s p + 1), lineStart s (lineOf s p + 1)) := by
  simp only [gotoNextLine, next_newlineMetric_eq hp]
  split_ifs with h
  · rfl
  · rw [lineStart_of_lineCount_lt (by have := lineOf_le_lineCount (s := s) (p := p); omega)]
    rfl

lemma atOrPrev_newlineMetric_eq (h0 : 0 < p) (hp : p ≤ len s) :
    atOrPrev s newlineMetric p =
      .ok (if 0 < lineOf s p then
        (some (lineStart s (lineOf s p)), lineStart s (lineOf s p)) else (none, p)) := by
  have hpred := lineOf_eq_pred h0 hp
  simp only [atOrPrev, Metric.atOrPrev, newlineMetric_isBoundary_eq h0 hp, ok_bind]
  by_cases hb : (asBytes s)[p - 1]? = some 0x0a
  · have hstart := lineStart_eq_of_newline hb
    rw [if_pos hb] at hpred
    rw [Nat.sub_add_cancel h0] at hstart
    simp [hb, hstart, hpred]
  · rw [if_neg hb, Nat.add_zero] at hpred
    simp only [hb, decide_False, Bool.false_eq_true, ite_false, newlineMetric_prev_eq h0 hp,
      ← hpred]
    split_ifs <;> rfl

lemma gotoLineBegin_eq (hp : p ≤ len s) :
    gotoLineBegin s p = .ok (lineStart s (lineOf s p), lineStart s (lineOf s p)) := by
  rcases Nat.eq_zero_or_pos p with rfl | h0
  · simp [gotoLineBegin]
  simp only [gotoLineBegin, ne_eq, Nat.pos_iff_ne_zero.1 h0, not_false_eq_true, ite_true,
    atOrPrev_newlineMetric_eq h0 hp]
  split_ifs with hl
  · rfl
  · simp [Nat.eq_zero_of_not_pos hl]

lemma prev_newlineMetric_lineStart (hk1 : 1 ≤ k) (hk : k ≤ lineCount s) :
    prev s newlineMetric (lineStart s k) =
      .ok (if 1 < k then (some (lineStart s (k - 1)), lineStart s (k - 1))
        else (none, lineStart s k)) := by
  obtain ⟨o, h1, h2, h3⟩ := lineStart_spec hk1 hk
  have hle := lineStart_le_len (s := s) (k := k)
  rw [h1] at hle ⊢
  simp only [prev, newlineMetric_prev_eq (by omega : 0 < o + 1) hle, Nat.add_sub_cancel, ok_bind]
  rw [h3]
  by_cases hk2 : 1 < k
  · rw [if_pos (by omega : 0 < k - 1), if_pos hk2]
    rfl
  · rw [if_neg (by omega : ¬ 0 < k - 1), if_neg hk2]
    rfl

lemma gotoPrevLine_eq (hp : p ≤ len s) :
    gotoPrevLine s p = .ok (lineStart s (lineOf s p - 1), lineStart s (lineOf s p - 1)) := by
  have hl := lineOf_le_lineCount (s := s) (p := p)
  simp only [gotoPrevLine, gotoLineBegin_eq hp, ok_bind]
  rcases Nat.eq_zero_or_pos (lineOf s p) with h | h
  · simp [h]
  obtain ⟨o, h1, -, -⟩ := lineStart_spec h hl
  have hne : lineStart s (lineOf s p) ≠ 0 := by rw [h1]; omega
  simp only [hne, ite_false, prev_newlineMetric_lineStart h hl]
  split_ifs with h2
  · rfl
  · simp [show lineOf s p = 1 by omega]

lemma isBol_eq (hp : p ≤ len s) : isBol s p = .ok (decide (lineStart s (lineOf s p) = p)) := by
  rcases Nat.eq_zero_or_pos p with rfl | h0
  · simp [isBol]
  have hpred := lineOf_eq_pred h0 hp
  simp only [isBol, Nat.pos_iff_ne_zero.1 h0, ite_false, newlineMetric_isBoundary_eq h0 hp,
    Except.ok.injEq, decide_eq_decide]
  constructor
  · intro hb
    rw [if_pos hb] at hpred
    rw [hpred, lineStart_eq_of_newline hb]
    omega
  · intro hstart
    by_contra hb
    rw [if_neg hb, Nat.add_zero] at hpred
    rcases Nat.eq_zero_or_pos (lineOf s p) with hl | hl
    · rw [hl, lineStart_zero] at hstart
      omega
    obtain ⟨o, h1, h2, -⟩ := lineStart_spec hl lineOf_le_lineCount
    rw [hstart] at h1
    rw [show p - 1 = o by omega] at hb
    exact hb h2

/-- The line primitives agree with the newline-count model of lines: `goto_line_begin` moves to
the start of the current line, so it is idempotent, lands on a line start, and stays exactly
when it is already at one; `goto_next_line` moves to the start of the next line or to the end;
`goto_prev_line` to the start of the previous line, or of the first. -/
theorem line_primitives_agree_with_lines (hp : p ≤ len s) :
    gotoLineBegin s p = .ok (lineStart s (lineOf s p), lineStart s (lineOf s p)) ∧
    gotoLineBegin s (lineStart s (lineOf s p)) =
      .ok (lineStart s (lineOf s p), lineStart s (lineOf s p)) ∧
    isBol s (lineStart s (lineOf s p)) = .ok true ∧
    (lineStart s (lineOf s p) = p ↔ isBol s p = .ok true) ∧
    gotoNextLine s p =
      (if lineOf s p < lineCount s then
        .ok (lineStart s (lineOf s p + 1), lineStart s (lineOf s p + 1))
      else .ok (len s, len s)) ∧
    gotoPrevLine s p = .ok (lineStart s (lineOf s p - 1), lineStart s (lineOf s p - 1)) := by
  have hq : lineOf s (lineStart s (lineOf s p)) = lineOf s p := lineOf_lineStart lineOf_le_lineCount
  refine ⟨gotoLineBegin_eq hp, ?_, ?_, ?_, ?_, gotoPrevLine_eq hp⟩
  · rw [gotoLineBegin_eq lineStart_le_len, hq]
  · rw [isBol_eq lineStart_le_len, hq]
    simp
  · rw [isBol_eq hp]
    simp
  · rw [gotoNextLine_eq hp]
    split_ifs with h
    · rfl
    · rw [lineStart_of_lineCount_lt (by have := lineOf_le_lineCount (s := s) (p := p); omega)]

/-- From the middle of the second line of `"a\nbc"`, `goto_line_begin` moves back to its start,
`2`. -/
theorem line_primitives_agree_with_lines_mid_line :
    3 ≤ len "a\nbc" ∧ gotoLineBegin "a\nbc" 3 = .ok (2, 2) :=
  ⟨by decide, by
    have := (line_primitives_agree_with_lines (s := "a\nbc") (p := 3) (by decide)).1
    rwa [show lineStart "a\nbc" (lineOf "a\nbc" 3) = 2 by decide] at this⟩

/-- `goto_next_line` and `goto_prev_line` undo each other up to the start of the line, but not
at the ends of the text: from the last line `goto_next_line` moves to the end, still on that
line, and `goto_prev_line` then moves to the line before; from the first line
`goto_prev_line` moves to `0`, and `goto_next_line` then moves to the second line. -/
theorem gotoNextLine_gotoPrevLine_round_trip (hp : p ≤ len s) :
    (∃ q, gotoNextLine s p = .ok (q, q) ∧
      gotoPrevLine s q = .ok (lineStart s (if lineOf s p < lineCount s then lineOf s p
        else lineOf s p - 1), lineStart s (if lineOf s p < lineCount s then lineOf s p
        else lineOf s p - 1))) ∧
    (∃ q, gotoPrevLine s p = .ok (q, q) ∧
      gotoNextLine s q = .ok (lineStart s (max (lineOf s p) 1), lineStart s (max (lineOf s p) 1))) := by
  have hl := lineOf_le_lineCount (s := s) (p := p)
  refine ⟨⟨_, gotoNextLine_eq hp, ?_⟩, ⟨_, gotoPrevLine_eq hp, ?_⟩⟩
  · rw [gotoPrevLine_eq lineStart_le_len, lineOf_lineStart_min]
    split_ifs with h
    · rw [min_eq_left (by omega), Nat.add_sub_cancel]
    · rw [min_eq_right (by omega), show lineCount s = lineOf s p by omega]
  · rw [gotoNextLine_eq lineStart_le_len, lineOf_lineStart (by omega)]
    congr 3 <;> omega

/-- On the last line of `"a\nb"`, `goto_next_line` and then `goto_prev_line` land on the first
line, at `0`. -/
theorem gotoNextLine_gotoPrevLine_round_trip_on_ab :
    ∃ q, gotoNextLine "a\nb" 2 = .ok (q, q) ∧ gotoPrevLine "a\nb" q = .ok (0, 0) := by
  obtain ⟨⟨q, h1, h2⟩, -⟩ := gotoNextLine_gotoPrevLine_round_trip (s := "a\nb") (p := 2) (by decide)
  exact ⟨q, h1, h2.trans (by decide)⟩

/-! ### `line_beginning_position` and `line_end_position` -/

variable (s)

/-- `for _p in 0..k { self.goto_next_line(); }`. -/
def gotoNextLines : Nat → Nat → Except Panic Nat
  | 0, pos => .ok pos
  | k + 1, pos => do
    let (_, pos) ← gotoNextLine s pos
    gotoNextLines k pos

/-- `for p in 0..k { if self.prev::<NewlineMetric>().is_none() { self.set(0); break; } }`. -/
def prevLinesOrStart : Nat → Nat → Except Panic Nat
  | 0, pos => .ok pos
  | k + 1, pos => do
    match ← prev s newlineMetric pos with
    | (none, _) => return 0
    | (some _, pos) => prevLinesOrStart k pos

/-- `for p in 0..=x { if self.prev::<NewlineMetric>().is_none() { break; } }`, run for `k`
rounds. -/
def prevLinesWhile : Nat → Nat → Except Panic Nat
  | 0, pos => .ok pos
  | k + 1, pos => do
    match ← prev s newlineMetric pos with
    | (none, pos) => return pos
    | (some _, pos) => prevLinesWhile k pos

/-- `StrCursor::line_beginning_position` (elisp `line-beginning-position`): the start of the
line `n - 1` lines after the current one; the cursor is put back. -/
def lineBeginningPosition (n : Option I32) (pos : Nat) : Except Panic (Nat × Nat) := do
  let result ← match n with
    | none => do
      let (_, p) ← gotoLineBegin s pos
      pure p
    | some x => do
      if x.val = 1 then
        let (_, p) ← gotoLineBegin s pos
        pure p
      else if x.val > 1 then
        let k ← x.sub I32.one
        gotoNextLines s k.val.toNat pos
      else
        let (_, p) ← gotoLineBegin s pos
        if p ≠ 0 then
          let y ← x.sub I32.one
          let k ← y.abs
          prevLinesOrStart s k.val.toNat p
        else pure p
  return (result, pos)

/-- `StrCursor::line_end_position` (elisp `line-end-position`): the offset of the last
character of the line `n - 1` lines after the current one; the cursor is put back. -/
def lineEndPosition (n : Option I32) (pos : Nat) : Except Panic (Nat × Nat) := do
  let p ← match n with
    | none => do
      let (_, p) ← gotoNextLine s pos
      pure p
    | some x => do
      if x.val = 1 then
        let (_, p) ← gotoNextLine s pos
        pure p
      else if x.val > 1 then gotoNextLines s x.val.toNat pos
      else if pos ≠ 0 then
        let k ← x.abs
        prevLinesWhile s (k.val.toNat + 1) pos
      else pure pos
  let (result, _) ← prev s charMetric p
  return (result.getD 0, pos)

variable {s}

lemma gotoNextLines_succ_eq (hp : p ≤ len s) (m : Nat) :
    gotoNextLines s (m + 1) p = .ok (lineStart s (lineOf s p + m + 1)) := by
  induction m generalizing p with
  | zero => simp [gotoNextLines, gotoNextLine_eq hp]
  | succ m ih =>
    rw [gotoNextLines, gotoNextLine_eq hp, ok_bind]
    dsimp only
    rw [ih lineStart_le_len, lineOf_lineStart_min,
      show min (lineOf s p + 1) (lineCount s) + m + 1 = min (lineOf s p + 1) (lineCount s) + (m + 1)
        by omega, lineStart_min_add (by omega)]
    congr 2
    omega

lemma prevLinesOrStart_eq (hk1 : 1 ≤ k) (hk : k ≤ lineCount s) (m : Nat) :
    prevLinesOrStart s m (lineStart s k) = .ok (lineStart s (k - m)) := by
  induction m generalizing k with
  | zero => rfl
  | succ m ih =>
    rw [prevLinesOrStart, prev_newlineMetric_lineStart hk1 hk, ok_bind]
    split_ifs with h
    · dsimp only
      rw [ih (k := k - 1) (by omega) (by omega)]
      congr 2
      omega
    · simp [show k - (m + 1) = 0 by omega]

/-- `line_beginning_position` at every `n` but the two least `i32` values: the start of line
`lineOf s p + n - 1`, `0` before the first line and `len s` after the last. -/
theorem lineBeginningPosition_eq (hp : p ≤ len s) (n : Option I32)
    (hn : ∀ x, n = some x → -2 ^ 31 + 1 < x.val) :
    let t : Int := lineOf s p + (n.getD I32.one).val - 1
    lineBeginningPosition s n p =
      .ok (if t < 0 then 0 else if t ≤ lineCount s then lineStart s t.toNat else len s, p) := by
  intro t
  have hl := lineOf_le_lineCount (s := s) (p := p)
  have hclamp : (if t < 0 then 0 else if t ≤ lineCount s then lineStart s t.toNat else len s) =
      if t < 0 then 0 else lineStart s t.toNat := by
    split_ifs with h1 h2 <;> first | rfl | rw [lineStart_of_lineCount_lt (by omega)]
  rw [hclamp]
  cases n with
  | none =>
    simp only [lineBeginningPosition, gotoLineBegin_eq hp, t, ok_bind, pure_eq_ok,
      Option.getD_none, I32.one_val]
    rw [if_neg (by omega)]
    congr 3
    omega
  | some x =>
    have hx := hn x rfl
    simp only [Option.getD_some, t] at hclamp ⊢
    by_cases h1 : x.val = 1
    · simp only [lineBeginningPosition, h1, gotoLineBegin_eq hp, ok_bind, pure_eq_ok, ite_true]
      rw [if_neg (by omega)]
      congr 3
      omega
    by_cases h2 : x.val > 1
    · obtain ⟨y, hy, hyv⟩ := I32.sub_one_of_ne_MIN (x := x) (fun h => by simp [h] at h2)
      obtain ⟨m, hm⟩ : ∃ m, y.val.toNat = m + 1 := ⟨y.val.toNat - 1, by omega⟩
      simp only [lineBeginningPosition, h1, h2, ite_false, ite_true, hy, ok_bind, hm,
        gotoNextLines_succ_eq hp, pure_eq_ok]
      rw [if_neg (by omega), show (↑(lineOf s p) + x.val - 1).toNat = lineOf s p + m + 1 by omega]
    · simp only [lineBeginningPosition, h1, h2, ite_false, gotoLineBegin_eq hp, ok_bind]
      rcases Nat.eq_zero_or_pos (lineOf s p) with h0 | h0
      · rw [if_pos (show (lineOf s p : Int) + x.val - 1 < 0 by omega)]
        simp [h0]
      obtain ⟨o, ho, -, -⟩ := lineStart_spec h0 hl
      obtain ⟨y, hy, hyv⟩ := I32.sub_one_of_ne_MIN (x := x) (fun h => by simp [h] at hx)
      obtain ⟨z, hz, hzv⟩ := I32.abs_of_ne (x := y) (by omega)
      have hzk : (z.val.toNat : Int) = 1 - x.val := by omega
      clear hzv hyv
      have hne : lineStart s (lineOf s p) ≠ 0 := by rw [ho]; omega
      simp only [hne, ne_eq, not_false_eq_true, ite_true, hy, hz, ok_bind,
        prevLinesOrStart_eq h0 hl, pure_eq_ok]
      split_ifs with h3
      · simp [show lineOf s p - z.val.toNat = 0 by omega]
      · congr 3
        omega

/-- `n = 0` from the second line of `"a\nb"` gives the start of the first line. -/
theorem lineBeginningPosition_eq_at_zero :
    lineBeginningPosition "a\nb" (some (I32.ofInt 0)) 2 = .ok (0, 2) :=
  (lineBeginningPosition_eq (s := "a\nb") (p := 2) (by decide) (some (I32.ofInt 0))
    (fun x hx => by cases hx; decide)).trans (by decide)

/-- At `n = i32::MIN + 1`, `(x - 1).abs()` is `i32::MIN.abs()`, which overflows as soon as the
current line does not start at `0`. -/
theorem lineBeginningPosition_abs_overflow :
    lineBeginningPosition "a\nb" (some (I32.ofInt (-2 ^ 31 + 1))) 2 = .error .negOverflow := by
  decide

/-- At `n = i32::MIN + 1`, `line_beginning_position` panics exactly off the first line: there
`x - 1` is `i32::MIN` and its `abs()` overflows; on the first line it returns `0`. -/
lemma lineBeginningPosition_MIN_succ (hp : p ≤ len s) {x : I32} (hx : x.val = -2 ^ 31 + 1) :
    lineBeginningPosition s (some x) p =
      if 0 < lineOf s p then .error .negOverflow else .ok (0, p) := by
  simp only [lineBeginningPosition, show x.val ≠ 1 by omega, show ¬ x.val > 1 by omega, ite_false,
    gotoLineBegin_eq hp, ok_bind]
  rcases Nat.eq_zero_or_pos (lineOf s p) with h0 | h0
  · simp [h0]
  obtain ⟨o, ho, -, -⟩ := lineStart_spec h0 lineOf_le_lineCount
  have hne : lineStart s (lineOf s p) ≠ 0 := by rw [ho]; omega
  obtain ⟨y, hy, hyv⟩ := I32.sub_one_of_ne_MIN (x := x) (fun h => by simp [h] at hx)
  simp [hne, hy, h0, I32.abs, hyv, hx]

lemma prevLinesWhile_lineStart (hk1 : 1 ≤ k) (hk : k ≤ lineCount s) (m : Nat) :
    prevLinesWhile s m (lineStart s k) = .ok (lineStart s (max (k - m) 1)) := by
  induction m generalizing k with
  | zero => rw [Nat.sub_zero, max_eq_left hk1]; rfl
  | succ m ih =>
    rw [prevLinesWhile, prev_newlineMetric_lineStart hk1 hk, ok_bind]
    split_ifs with h
    · dsimp only
      rw [ih (k := k - 1) (by omega) (by omega)]
      congr 3
      omega
    · simp [show k = 1 by omega]

/-- The backward loop of `line_end_position` from `p > 0`: the first step goes to the start of
the line holding `p - 1`, each further one a line back, never before the start of line `1`. -/
lemma prevLinesWhile_succ_eq (h0 : 0 < p) (hp : p ≤ len s) (m : Nat) :
    prevLinesWhile s (m + 1) p =
      .ok (if 0 < lineOf s (p - 1) then lineStart s (max (lineOf s (p - 1) - m) 1) else p) := by
  rw [prevLinesWhile]
  simp only [prev, newlineMetric_prev_eq h0 hp, ok_bind]
  split_ifs with h
  · exact prevLinesWhile_lineStart h lineOf_le_lineCount m
  · rfl

/-- The tail of `line_end_position`: `self.prev::<CharMetric>().unwrap_or(0)`. -/
lemma prev_charMetric_getD (u pos : Nat) :
    (do
      let (result, _) ← prev s charMetric u
      return (result.getD 0, pos) : Except Panic (Nat × Nat)) =
      .ok (scanBackToBoundary s (u - 1), pos) := by
  by_cases hu : u = 0
  · subst hu
    rfl
  · simp [prev, charMetric, hu]

/-- `line_end_position` for every `n` but `i32::MIN`: it moves to the start `u` of a line and
returns the character boundary before it.  Forwards, `u` is the start of line `l + n`; backwards,
the first step of the loop goes to the start of the line holding `p - 1`, which is line `l - 1`
when `p` starts line `l`, and the loop never goes before line `1` nor moves from line `0`. -/
theorem lineEndPosition_eq (hp : p ≤ len s) (n : Option I32) (hn : n ≠ some I32.MIN) :
    let u := match n with
      | none => lineStart s (lineOf s p + 1)
      | some x =>
        if 1 ≤ x.val then lineStart s (lineOf s p + x.val.toNat)
        else if p = 0 then 0
        else if 0 < lineOf s (p - 1) then lineStart s (max (lineOf s (p - 1) - x.val.natAbs) 1)
        else p
    lineEndPosition s n p = .ok (scanBackToBoundary s (u - 1), p) := by
  intro u
  unfold lineEndPosition
  cases n with
  | none =>
    simp only [gotoNextLine_eq hp, ok_bind, pure_eq_ok]
    exact prev_charMetric_getD _ _
  | some x =>
    simp only [u]
    by_cases h1 : x.val = 1
    · simp only [h1, ite_true, gotoNextLine_eq hp, ok_bind, pure_eq_ok, le_refl]
      exact prev_charMetric_getD _ _
    by_cases h2 : x.val > 1
    · obtain ⟨m, hm⟩ : ∃ m, x.val.toNat = m + 1 := ⟨x.val.toNat - 1, by omega⟩
      simp only [h1, h2, ite_false, ite_true, hm, gotoNextLines_succ_eq hp, ok_bind,
        if_pos (show 1 ≤ x.val by omega)]
      exact prev_charMetric_getD _ _
    rw [if_neg (show ¬ 1 ≤ x.val by omega)]
    by_cases h0 : p = 0
    · simp only [h0, h1, h2, ite_false, ite_true, ne_eq, not_true_eq_false, pure_eq_ok, ok_bind]
      exact prev_charMetric_getD _ _
    obtain ⟨y, hy, hyv⟩ := I32.abs_of_ne (x := x) (I32.val_ne_of_ne_MIN (fun h => hn (h ▸ rfl)))
    simp only [h0, h1, h2, ite_false, ne_eq, not_false_eq_true, ite_true, hy, ok_bind,
      prevLinesWhile_succ_eq (Nat.pos_of_ne_zero h0) hp, show y.val.toNat = x.val.natAbs by omega]
    exact prev_charMetric_getD _ _

/-- From the middle of the second line of `"a\nbc\nd"`, `n = 0` gives the end of the first
line. -/
theorem lineEndPosition_eq_mid_line :
    lineEndPosition "a\nbc\nd" (some (I32.ofInt 0)) 3 = .ok (1, 3) :=
  (lineEndPosition_eq (s := "a\nbc\nd") (p := 3) (by decide) (some (I32.ofInt 0))
    (by decide)).trans (by decide)

/-- From the first offset of a line, the backward loop of `line_end_position` takes one line too
many: at `n = 0` from the start of the last line of `"a\nb\nc"` it returns the end of the first
line, `1`, not the end of the second, `3`. -/
theorem lineEndPosition_overshoots_at_line_start :
    lineEndPosition "a\nb\nc" (some (I32.ofInt 0)) 4 = .ok (1, 4) := by
  decide

/-- At `n = i32::MIN` the relative-line arithmetic overflows: `line_beginning_position`
computes `x - 1` from every position off the first line, and `line_end_position` computes
`x.abs()` from every position but `0`; both panic. -/
theorem linePositions_overflow_at_MIN (hp : p ≤ len s) :
    (0 < lineOf s p → lineBeginningPosition s (some I32.MIN) p = .error .subOverflow) ∧
    (p ≠ 0 → lineEndPosition s (some I32.MIN) p = .error .negOverflow) := by
  refine ⟨fun h0 => ?_, fun h0 => ?_⟩
  · obtain ⟨o, ho, -, -⟩ := lineStart_spec h0 lineOf_le_lineCount
    have hne : lineStart s (lineOf s p) ≠ 0 := by rw [ho]; omega
    simp [lineBeginningPosition, gotoLineBegin_eq hp, hne, I32.sub]
  · simp [lineEndPosition, h0, I32.abs]

/-- From the second line of `"a\nb"`, both positions panic at `n = i32::MIN`. -/
theorem linePositions_overflow_at_MIN_on_ab :
    lineBeginningPosition "a\nb" (some I32.MIN) 2 = .error .subOverflow ∧
      lineEndPosition "a\nb" (some I32.MIN) 2 = .error .negOverflow :=
  ⟨(linePositions_overflow_at_MIN (s := "a\nb") (p := 2) (by decide)).1 (by decide),
    (linePositions_overflow_at_MIN (s := "a\nb") (p := 2) (by decide)).2 (by decide)⟩

end StrCursor

end OrgCursor
