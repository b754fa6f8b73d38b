import OrgCursor.Text.Str
import Mathlib.Order.Bounds.Basic

/-!
# Metrics and lexemes

`trait Metric` of `cursor.rs` names a kind of boundary in a string and three queries about
it: is an offset a boundary, and which boundary comes before or after it.  The trait's static
methods become the fields of a record, and its two implementations two values of it:

* `charMetric`, `impl Metric for CharMetric`: the boundary is the start of a character; `next`
  reads the length of the character from its first byte (`lenUtf8FromFirstByte`), `prev` walks
  back to the previous char boundary;
* `newlineMetric`, `impl Metric for NewlineMetric`: the boundary is the offset just after a
  `'\n'`; `next` and `prev` search the bytes with `memchr` and `memrchr`.

`CharLexeme` pairs a character with the offset it starts at; its `next` returns the character
after the next boundary, not the one at the offset (`charLexeme_prev_next_offsetOf`).
`LineLexeme` is `unimplemented!()` in the source and is left out.

The lemmas state each query at the offsets the cursor uses it at: `charMetric_next_offsetOf`,
`charMetric_prev_offsetOf`, and the `memchr`/`memrchr` characterisations on which the line
model of `OrgCursor.Cursor.Lines` rests.  From them, both metrics meet the contract of the
trait at every offset of the text, stated with `IsLeast` and `IsGreatest` over the boundaries
(`metrics_meet_contract`).  The trait's default `at_or_next` does not: inside a character
`CharMetric::next` reads a continuation byte, which it takes for the first byte of a two-byte
character, so it moves two bytes on whatever the character (`charMetric_atOrNext_eq`).  The
default `at_or_prev` of `CharMetric` does: it returns the nearest boundary at or before the
offset (`charMetric_atOrPrev_isGreatest`).
-/

namespace OrgCursor

/-- `trait Metric`: a kind of boundary in a string, and the queries about it. -/
structure Metric where
  /-- `is_boundary`: the offset is a boundary. -/
  isBoundary : String → Nat → Except Panic Bool
  /-- `prev`: the nearest boundary before the offset. -/
  prev : String → Nat → Except Panic (Option Nat)
  /-- `next`: the nearest boundary after the offset. -/
  next : String → Nat → Except Panic (Option Nat)

namespace Metric

/-- `Metric::at_or_next`. -/
def atOrNext (M : Metric) (s : String) (offset : Nat) : Except Panic (Option Nat) := do
  if ← M.isBoundary s offset then return some offset else M.next s offset

/-- `Metric::at_or_prev`. -/
def atOrPrev (M : Metric) (s : String) (offset : Nat) : Except Panic (Option Nat) := do
  if ← M.isBoundary s offset then return some offset else M.prev s offset

end Metric

/-- `CharMetric::len_utf8_from_first_byte`: the number of bytes of a character, from its first
byte. -/
def lenUtf8FromFirstByte (b : Nat) : Nat :=
  if b < 0x80 then 1 else if b < 0xe0 then 2 else if b < 0xf0 then 3 else 4

/-- The `while` loop of `CharMetric::prev`, over `i = offset - len`: from `i` down, the first
char boundary.  It stops at `0` at the latest, which is one, so `offset - len` never
underflows. -/
def scanBackToBoundary (s : String) : Nat → Nat
  | 0 => 0
  | i + 1 => if isCharBoundary s (i + 1) then i + 1 else scanBackToBoundary s i

/-- `impl Metric for CharMetric`. -/
def charMetric : Metric where
  isBoundary s offset := .ok (isCharBoundary s offset)
  prev s offset := if offset = 0 then .ok none else .ok (some (scanBackToBoundary s (offset - 1)))
  next s offset :=
    if offset = len s then .ok none
    else do
      let b ← byteAt (asBytes s) offset
      return some (offset + lenUtf8FromFirstByte b)

/-- `memchr::memchr`: the index of the first occurrence of a byte. -/
def memchr (needle : Nat) : List Nat → Option Nat
  | [] => none
  | b :: bs => if b = needle then some 0 else (memchr needle bs).map (· + 1)

/-- `memchr::memrchr`: the index of the last occurrence of a byte. -/
def memrchr (needle : Nat) : List Nat → Option Nat
  | [] => none
  | b :: bs =>
    match memrchr needle bs with
    | some i => some (i + 1)
    | none => if b = needle then some 0 else none

/-- `impl Metric for NewlineMetric`. -/
def newlineMetric : Metric where
  isBoundary s offset :=
    if offset = 0 then .ok false
    else do
      let b ← byteAt (asBytes s) (offset - 1)
      return b == 0x0a
  prev s offset :=
    if ¬ offset > 0 then .error (.assertFailed "caller is responsible for validating input")
    else do
      let bytes ← bytesTo (asBytes s) (offset - 1)
      return (memrchr 0x0a bytes).map (· + 1)
  next s offset := do
    let bytes ← bytesFrom (asBytes s) offset
    return (memchr 0x0a bytes).map (offset + · + 1)

/-- `struct Addressable<T>`: a value and the offset at which it starts. -/
structure Addressable (α : Type) where
  /-- The value. -/
  value : α
  /-- Its offset. -/
  address : Nat
  deriving DecidableEq, Repr

/-- `CharLexeme::prev`: the character before the offset, with its address. -/
def charLexemePrev (s : String) (offset : Nat) : Except Panic (Option (Addressable Char)) := do
  match ← charMetric.prev s offset with
  | some a => return (← sliceFrom s a).head?.map fun c => ⟨c, a⟩
  | none => return none

/-- `CharLexeme::next`: the character after the next char boundary, with its address. -/
def charLexemeNext (s : String) (offset : Nat) : Except Panic (Option (Addressable Char)) := do
  match ← charMetric.next s offset with
  | some a => return (← sliceFrom s a).head?.map fun c => ⟨c, a⟩
  | none => return none

/-! ### `CharMetric` -/

section CharMetric

variable {s : String} {j : Nat}

lemma lenUtf8FromFirstByte_of_encodeUtf8 {c : Char} {b : Nat} {rest : List Nat}
    (h : encodeUtf8 c = b :: rest) : lenUtf8FromFirstByte b = lenUtf8 c := by
  obtain ⟨b', rest', h', -, hb⟩ := encodeUtf8_shape c
  rw [h] at h'
  obtain ⟨rfl, rfl⟩ := List.cons.inj h'
  rw [lenUtf8, h, List.length_cons, lenUtf8FromFirstByte]
  rcases hb with ⟨rfl, hb⟩ | ⟨hl, hb⟩ | ⟨hl, hb⟩ | ⟨hl, hb⟩
  · rw [if_pos hb]; rfl
  all_goals rw [hl]; split_ifs <;> omega

/-- The byte at the offset of a character is the first byte of its encoding. -/
lemma getElem?_asBytes_offsetOf (h : j < s.data.length) :
    (asBytes s)[offsetOf s j]? = (encodeUtf8 s.data[j]).head? := by
  have hsplit : asBytes s = asBytes ⟨s.data.take j⟩ ++ asBytes ⟨s.data[j] :: s.data.drop (j + 1)⟩ := by
    rw [← asBytes_append, List.cons_getElem_drop_succ, List.take_append_drop]
  rw [hsplit, offsetOf, len, List.getElem?_append_right le_rfl, Nat.sub_self, asBytes_cons]
  obtain ⟨b, rest, he, -⟩ := encodeUtf8_shape s.data[j]
  simp [he]

lemma charMetric_next_offsetOf (h : j < s.data.length) :
    charMetric.next s (offsetOf s j) = .ok (some (offsetOf s (j + 1))) := by
  obtain ⟨b, rest, he, -⟩ := encodeUtf8_shape s.data[j]
  have hb : byteAt (asBytes s) (offsetOf s j) = .ok b := by
    simp [byteAt, getElem?_asBytes_offsetOf h, he]
  have hne : offsetOf s j ≠ len s := (offsetOf_lt_len h).ne
  simp [charMetric, hne, hb, lenUtf8FromFirstByte_of_encodeUtf8 he, offsetOf_succ h]

@[simp] lemma charMetric_next_len : charMetric.next s (len s) = .ok none := by
  simp [charMetric]

lemma scanBackToBoundary_eq {q k : Nat} (hq : isCharBoundary s q = true) (hqk : q ≤ k)
    (hnone : ∀ m, q < m → m ≤ k → isCharBoundary s m = false) : scanBackToBoundary s k = q := by
  induction k with
  | zero => simp [scanBackToBoundary]; omega
  | succ k ih =>
    rcases Nat.eq_or_lt_of_le hqk with rfl | hlt
    · simp [scanBackToBoundary, hq]
    · simp only [scanBackToBoundary, hnone (k + 1) hlt le_rfl, Bool.false_eq_true, ite_false]
      exact ih (by omega) fun m h1 h2 => hnone m h1 (by omega)

/-- No char boundary lies inside a character. -/
lemma isCharBoundary_eq_false_of_lt {m : Nat} (h1 : offsetOf s j < m) (h2 : m < offsetOf s (j + 1)) :
    isCharBoundary s m = false := by
  by_contra hm
  obtain ⟨i, hi, rfl⟩ := isCharBoundary_iff.1 (Bool.not_eq_false _ ▸ hm)
  rcases lt_or_le i (j + 1) with h | h
  · exact absurd h1 (not_lt.2 (offsetOf_mono (by omega)))
  · exact absurd h2 (not_lt.2 (offsetOf_mono h))

lemma charMetric_prev_offsetOf (h : j < s.data.length) :
    charMetric.prev s (offsetOf s (j + 1)) = .ok (some (offsetOf s j)) := by
  have hsucc := offsetOf_succ h
  have hpos := lenUtf8_pos s.data[j]
  have hscan : scanBackToBoundary s (offsetOf s (j + 1) - 1) = offsetOf s j :=
    scanBackToBoundary_eq (isCharBoundary_offsetOf j) (by omega)
      fun m h1 h2 => isCharBoundary_eq_false_of_lt h1 (by omega)
  have hne : offsetOf s (j + 1) ≠ 0 := by omega
  simp only [charMetric, hne, ite_false, hscan]

@[simp] lemma charMetric_prev_zero : charMetric.prev s 0 = .ok none := rfl

/-- `CharLexeme` does not read the same way round in both directions: from the offset of the
character `j`, `prev` returns the character `j - 1` at its start, while `next` first moves to
the next boundary and returns the character `j + 1` there, never the one at the offset; from
the last character `next` returns `None`. -/
theorem charLexeme_prev_next_offsetOf (hj : j ≤ s.data.length) :
    charLexemePrev s (offsetOf s j) =
        .ok (if 0 < j then s.data[j - 1]?.map fun c => ⟨c, offsetOf s (j - 1)⟩ else none) ∧
      charLexemeNext s (offsetOf s j) =
        .ok (s.data[j + 1]?.map fun c => ⟨c, offsetOf s (j + 1)⟩) := by
  have hhead : ∀ i, (s.data.drop i).head? = s.data[i]? := fun i => by
    rw [List.head?_eq_getElem?, List.getElem?_drop, Nat.add_zero]
  constructor
  · rcases j with _ | j
    · rfl
    · simp only [charLexemePrev, charMetric_prev_offsetOf (Nat.lt_of_succ_le hj), ok_bind,
        sliceFrom_offsetOf, hhead, Nat.add_sub_cancel, if_pos (Nat.succ_pos j)]
      rfl
  · rcases Nat.lt_or_ge j s.data.length with h | h
    · simp only [charLexemeNext, charMetric_next_offsetOf h, ok_bind, sliceFrom_offsetOf, hhead]
      rfl
    · obtain rfl : j = s.data.length := by omega
      rw [List.getElem?_eq_none (by omega), offsetOf_length]
      simp [charLexemeNext]

/-- From the start of `"ab"`, `CharLexeme::next` returns the `'b'` at `1`, not the `'a'` at the
offset. -/
theorem charLexeme_prev_next_offsetOf_on_ab : charLexemeNext "ab" 0 = .ok (some ⟨'b', 1⟩) :=
  (charLexeme_prev_next_offsetOf (s := "ab") (j := 0) (by decide)).2.trans (by decide)

end CharMetric

/-! ### `memchr` and `memrchr` -/

section Memchr

variable {b : Nat} {xs : List Nat} {i : Nat}

lemma memchr_eq_some_iff : memchr b xs = some i ↔ xs[i]? = some b ∧ ∀ k < i, xs[k]? ≠ some b := by
  induction xs generalizing i with
  | nil => simp [memchr]
  | cons x xs ih =>
    by_cases hx : x = b
    · subst hx
      cases i with
      | zero => simp [memchr]
      | succ i =>
        simp only [memchr, ite_true, Option.some.injEq, reduceCtorEq, false_iff, not_and,
          not_forall, not_not]
        exact fun _ => ⟨0, by omega, by simp⟩
    · cases i with
      | zero => simp [memchr, hx]
      | succ i =>
        simp only [memchr, hx, ite_false, Option.map_eq_some', ih, Nat.add_right_cancel_iff,
          exists_eq_right, List.getElem?_cons_succ]
        constructor
        · rintro ⟨h1, h2⟩
          refine ⟨h1, fun k hk => ?_⟩
          cases k with
          | zero => simpa using hx
          | succ k => simpa using h2 k (by omega)
        · rintro ⟨h1, h2⟩
          exact ⟨h1, fun k hk => by simpa using h2 (k + 1) (by omega)⟩

lemma memchr_eq_none_iff : memchr b xs = none ↔ b ∉ xs := by
  induction xs with
  | nil => simp [memchr]
  | cons x xs ih =>
    by_cases hx : x = b
    · simp [memchr, hx]
    · simp [memchr, hx, ih, Ne.symm hx]

lemma memrchr_eq_none_iff : memrchr b xs = none ↔ b ∉ xs := by
  induction xs with
  | nil => simp [memrchr]
  | cons x xs ih =>
    cases hr : memrchr b xs with
    | some r =>
      have hb : b ∈ xs := by
        by_contra hb
        simp [ih.2 hb] at hr
      simp [memrchr, hr, hb]
    | none =>
      by_cases hx : x = b
      · simp [memrchr, hr, hx]
      · simp [memrchr, hr, hx, Ne.symm hx, ih.1 hr]

/-- What `memrchr` finds is the last occurrence of the byte. -/
lemma memrchr_spec (h : memrchr b xs = some i) :
    xs[i]? = some b ∧ ∀ k, i < k → xs[k]? ≠ some b := by
  induction xs generalizing i with
  | nil => simp [memrchr] at h
  | cons x xs ih =>
    cases hr : memrchr b xs with
    | some r =>
      simp only [memrchr, hr, Option.some.injEq] at h
      subst h
      obtain ⟨h1, h2⟩ := ih hr
      refine ⟨by simpa using h1, fun k hk => ?_⟩
      obtain ⟨k, rfl⟩ : ∃ k', k = k' + 1 := ⟨k - 1, by omega⟩
      simpa using h2 k (by omega)
    | none =>
      simp only [memrchr, hr] at h
      split_ifs at h with hx
      cases h
      refine ⟨by simp [hx], fun k hk => ?_⟩
      obtain ⟨k, rfl⟩ : ∃ k', k = k' + 1 := ⟨k - 1, by omega⟩
      simpa using fun h => memrchr_eq_none_iff.1 hr (List.getElem?_mem h)

lemma memrchr_eq_some_iff :
    memrchr b xs = some i ↔ xs[i]? = some b ∧ ∀ k, i < k → xs[k]? ≠ some b := by
  refine ⟨memrchr_spec, fun ⟨h1, h2⟩ => ?_⟩
  cases hr : memrchr b xs with
  | none => exact absurd (List.getElem?_mem h1) (memrchr_eq_none_iff.1 hr)
  | some j =>
    obtain ⟨hj1, hj2⟩ := memrchr_spec hr
    rcases lt_trichotomy i j with h | rfl | h
    · exact absurd hj1 (h2 j h)
    · rfl
    · exact absurd h1 (hj2 i h)

end Memchr

/-! ### The contract of `trait Metric` -/

section Contract

variable {s : String} {o : Nat}

/-- The loop of `CharMetric::prev` finds the greatest char boundary at or below where it
starts. -/
lemma scanBackToBoundary_isGreatest (n : Nat) :
    IsGreatest {k | k ≤ n ∧ isCharBoundary s k = true} (scanBackToBoundary s n) := by
  induction n with
  | zero => exact ⟨⟨le_rfl, isCharBoundary_zero⟩, fun k hk => hk.1⟩
  | succ n ih =>
    by_cases hb : isCharBoundary s (n + 1) = true
    · rw [scanBackToBoundary, if_pos hb]
      exact ⟨⟨le_rfl, hb⟩, fun k hk => hk.1⟩
    · rw [scanBackToBoundary, if_neg hb]
      refine ⟨⟨ih.1.1.trans n.le_succ, ih.1.2⟩, fun k ⟨hk, hkb⟩ => ih.2 ⟨?_, hkb⟩⟩
      by_contra h
      obtain rfl : k = n + 1 := by omega
      exact hb hkb

/-- The char boundary after the start of a character is the start of the next one. -/
lemma isLeast_offsetOf_succ {j : Nat} (hj : j < s.data.length) :
    IsLeast {k | offsetOf s j < k ∧ isCharBoundary s k = true} (offsetOf s (j + 1)) := by
  refine ⟨⟨offsetOf_lt_offsetOf (Nat.lt_add_one j) hj, isCharBoundary_offsetOf _⟩, ?_⟩
  rintro k ⟨hk, hkb⟩
  obtain ⟨i, hi, rfl⟩ := isCharBoundary_iff.1 hkb
  exact offsetOf_mono (not_lt.1 fun h => absurd hk (not_lt.2 (offsetOf_mono (by omega))))

/-- `CharMetric::prev` from any offset inside the text: the greatest char boundary before it,
at most four bytes back. -/
lemma charMetric_prev_isGreatest (h0 : 0 < o) (ho : o ≤ len s) :
    ∃ q, charMetric.prev s o = .ok (some q) ∧
      IsGreatest {k | k < o ∧ isCharBoundary s k = true} q ∧ o ≤ q + 4 := by
  have hg := scanBackToBoundary_isGreatest (s := s) (o - 1)
  refine ⟨scanBackToBoundary s (o - 1), by simp [charMetric, h0.ne'],
    by simpa only [Nat.lt_iff_le_pred h0] using hg, ?_⟩
  obtain ⟨⟨hq, hqb⟩, hmax⟩ := hg
  obtain ⟨i, -, hqi⟩ := isCharBoundary_iff.1 hqb
  have hi : i < s.data.length := lt_length_of_offsetOf_lt_len (by omega)
  have hnext : o - 1 < offsetOf s (i + 1) := not_le.1 fun h => by
    have := hmax ⟨h, isCharBoundary_offsetOf _⟩
    have := offsetOf_lt_offsetOf (s := s) (Nat.lt_add_one i) hi
    omega
  have := offsetOf_succ hi
  have := lenUtf8_le_four s.data[i]
  omega

/-- `NewlineMetric::next`: the least offset after `o` that follows a `'\n'`, if there is one. -/
lemma newlineMetric_next_spec (ho : o ≤ len s) :
    ∃ r, newlineMetric.next s o = .ok r ∧
      (∀ k, r = some k → IsLeast {k | o < k ∧ (asBytes s)[k - 1]? = some 0x0a} k) ∧
      (r = none → ∀ k, o < k → (asBytes s)[k - 1]? ≠ some 0x0a) := by
  simp only [newlineMetric, bytesFrom_of_le (show o ≤ (asBytes s).length from ho), ok_bind,
    pure_eq_ok]
  refine ⟨_, rfl, fun k hk => ?_, fun hk k hok hb => ?_⟩
  · obtain ⟨i, hi, rfl⟩ := Option.map_eq_some'.1 hk
    obtain ⟨h1, h2⟩ := memchr_eq_some_iff.1 hi
    rw [List.getElem?_drop] at h1
    refine ⟨⟨by omega, h1⟩, fun k ⟨hk, hb⟩ => not_lt.1 fun hlt => h2 (k - 1 - o) (by omega) ?_⟩
    rwa [List.getElem?_drop, show o + (k - 1 - o) = k - 1 by omega]
  · refine memchr_eq_none_iff.1 (Option.map_eq_none'.1 hk) (List.mem_iff_getElem?.2 ⟨k - 1 - o, ?_⟩)
    rwa [List.getElem?_drop, show o + (k - 1 - o) = k - 1 by omega]

/-- `NewlineMetric::prev`: the greatest offset before `o` that follows a `'\n'`, if there is
one. -/
lemma newlineMetric_prev_spec (h0 : 0 < o) (ho : o ≤ len s) :
    ∃ r, newlineMetric.prev s o = .ok r ∧
      (∀ k, r = some k → IsGreatest {k | 0 < k ∧ k < o ∧ (asBytes s)[k - 1]? = some 0x0a} k) ∧
      (r = none → ∀ k, 0 < k → k < o → (asBytes s)[k - 1]? ≠ some 0x0a) := by
  have hto : bytesTo (asBytes s) (o - 1) = .ok ((asBytes s).take (o - 1)) :=
    bytesTo_of_le (by unfold len at ho; omega)
  simp only [newlineMetric, gt_iff_lt, h0, not_true_eq_false, ite_false, hto, ok_bind,
    pure_eq_ok]
  refine ⟨_, rfl, fun k hk => ?_, fun hk k hk0 hko hb => ?_⟩
  · obtain ⟨i, hi, rfl⟩ := Option.map_eq_some'.1 hk
    obtain ⟨h1, h2⟩ := memrchr_eq_some_iff.1 hi
    have hio : i < o - 1 := by
      by_contra h
      rw [List.getElem?_take, if_neg h] at h1
      cases h1
    rw [List.getElem?_take_of_lt hio] at h1
    refine ⟨⟨by omega, by omega, h1⟩, fun k ⟨hk0, hk, hb⟩ => not_lt.1 fun hlt => h2 (k - 1) (by omega) ?_⟩
    rwa [List.getElem?_take_of_lt (by omega)]
  · refine memrchr_eq_none_iff.1 (Option.map_eq_none'.1 hk) (List.mem_iff_getElem?.2 ⟨k - 1, ?_⟩)
    rwa [List.getElem?_take_of_lt (by omega)]

/-- Both metrics meet the contract of `trait Metric`.  `CharMetric::next` from a char boundary
inside the text is the least char boundary after it, and `prev` from it comes back;
`CharMetric::prev` from any offset inside the text is the greatest char boundary before it, at
most four bytes back, and from a char boundary `next` comes back; neither passes the ends.
`NewlineMetric::next` and `prev` are the nearest offsets after and before that follow a
`'\n'` byte, and `None` when there is none. -/
theorem metrics_meet_contract (s : String) :
    (∀ o, isCharBoundary s o = true → o < len s →
      ∃ q, charMetric.next s o = .ok (some q) ∧
        IsLeast {k | o < k ∧ isCharBoundary s k = true} q ∧ charMetric.prev s q = .ok (some o)) ∧
    (∀ o, 0 < o → o ≤ len s →
      ∃ q, charMetric.prev s o = .ok (some q) ∧
        IsGreatest {k | k < o ∧ isCharBoundary s k = true} q ∧ o ≤ q + 4 ∧
        (isCharBoundary s o = true → charMetric.next s q = .ok (some o))) ∧
    charMetric.next s (len s) = .ok none ∧ charMetric.prev s 0 = .ok none ∧
    (∀ o, o ≤ len s → ∃ r, newlineMetric.next s o = .ok r ∧
      (∀ k, r = some k → IsLeast {k | o < k ∧ (asBytes s)[k - 1]? = some 0x0a} k) ∧
      (r = none → ∀ k, o < k → (asBytes s)[k - 1]? ≠ some 0x0a)) ∧
    (∀ o, 0 < o → o ≤ len s → ∃ r, newlineMetric.prev s o = .ok r ∧
      (∀ k, r = some k → IsGreatest {k | 0 < k ∧ k < o ∧ (asBytes s)[k - 1]? = some 0x0a} k) ∧
      (r = none → ∀ k, 0 < k → k < o → (asBytes s)[k - 1]? ≠ some 0x0a)) := by
  refine ⟨fun o ho hlt => ?_, fun o h0 ho => ?_, charMetric_next_len, charMetric_prev_zero,
    fun o ho => newlineMetric_next_spec ho, fun o h0 ho => newlineMetric_prev_spec h0 ho⟩
  · obtain ⟨j, -, rfl⟩ := isCharBoundary_iff.1 ho
    have hj := lt_length_of_offsetOf_lt_len hlt
    exact ⟨_, charMetric_next_offsetOf hj, isLeast_offsetOf_succ hj, charMetric_prev_offsetOf hj⟩
  · obtain ⟨q, hq, hg, h4⟩ := charMetric_prev_isGreatest h0 ho
    refine ⟨q, hq, hg, h4, fun hb => ?_⟩
    obtain ⟨_ | j, hj, rfl⟩ := isCharBoundary_iff.1 hb
    · exact absurd h0 (by simp)
    · rw [charMetric_prev_offsetOf hj, Except.ok.injEq, Option.some.injEq] at hq
      exact hq ▸ charMetric_next_offsetOf hj

/-- Over `"é\n"`, `CharMetric::prev` from `2`, where `CharMetric::next` from `0` lands, comes
back to `0`, the start of the two-byte `'é'`. -/
theorem metrics_meet_contract_on_e_newline : charMetric.prev "é\n" 2 = .ok (some 0) := by
  obtain ⟨q, hq, -, hprev⟩ := (metrics_meet_contract "é\n").1 0 rfl (by decide)
  have h2 : charMetric.next "é\n" 0 = .ok (some 2) := by decide
  rw [h2, Except.ok.injEq, Option.some.injEq] at hq
  subst hq
  exact hprev

end Contract

/-! ### `at_or_next` and `at_or_prev` of `CharMetric` -/

section AtOrNext

variable {s : String} {o : Nat}

/-- `Metric::at_or_next` of `CharMetric` inside the text: the offset itself on a char boundary,
and two bytes on inside a character, whatever its length: `next` reads a continuation byte
there, which `len_utf8_from_first_byte` counts as the first byte of a two-byte character. -/
theorem charMetric_atOrNext_eq (ho : o ≤ len s) :
    charMetric.atOrNext s o = .ok (some (if isCharBoundary s o then o else o + 2)) := by
  cases hb : isCharBoundary s o
  · obtain ⟨b, hget, h1, h2⟩ := continuation_of_not_isCharBoundary hb ho
    have hne : o ≠ len s := fun h => by simp [h, isCharBoundary_len] at hb
    have hbyte : byteAt (asBytes s) o = .ok b := by simp [byteAt, hget]
    have hlen : lenUtf8FromFirstByte b = 2 := by
      simp only [lenUtf8FromFirstByte]
      split_ifs <;> omega
    simp [Metric.atOrNext, charMetric, hb, hne, hbyte, hlen]
  · simp [Metric.atOrNext, charMetric, hb]

/-- From one byte inside the three-byte `'€'`, `at_or_next` moves two bytes on, to its end
`3`. -/
theorem charMetric_atOrNext_eq_on_euro : charMetric.atOrNext "€" 1 = .ok (some 3) :=
  (charMetric_atOrNext_eq (s := "€") (o := 1) (by decide)).trans (by decide)

/-- From inside the two-byte `'З'`, `at_or_next` lands past the end of the text, at `3`. -/
theorem charMetric_atOrNext_past_end :
    charMetric.atOrNext "З" 1 = .ok (some 3) ∧ len "З" = 2 := by
  decide

/-- `Metric::at_or_prev` of `CharMetric` inside the text is exact, unlike `at_or_next`: the
greatest char boundary at or before the offset, since `prev` walks back byte by byte. -/
theorem charMetric_atOrPrev_isGreatest (ho : o ≤ len s) :
    ∃ q, charMetric.atOrPrev s o = .ok (some q) ∧
      IsGreatest {k | k ≤ o ∧ isCharBoundary s k = true} q := by
  have hisb : charMetric.isBoundary s o = .ok (isCharBoundary s o) := rfl
  cases hb : isCharBoundary s o
  · have h0 : 0 < o := Nat.pos_of_ne_zero fun h => by simp [h] at hb
    obtain ⟨q, hq, hg, -⟩ := charMetric_prev_isGreatest h0 ho
    refine ⟨q, by simp only [Metric.atOrPrev, hisb, hb, ok_bind, Bool.false_eq_true, ite_false, hq],
      ⟨hg.1.1.le, hg.1.2⟩, fun k ⟨hk, hkb⟩ => hg.2 ⟨lt_of_le_of_ne hk ?_, hkb⟩⟩
    rintro rfl
    exact absurd hkb (by simp [hb])
  · exact ⟨o, by simp [Metric.atOrPrev, hisb, hb], ⟨le_rfl, hb⟩, fun k hk => hk.1⟩

/-- From two bytes inside the three-byte `'€'`, `at_or_prev` goes back to its start `0`. -/
theorem charMetric_atOrPrev_isGreatest_on_euro : charMetric.atOrPrev "€" 2 = .ok (some 0) := by
  obtain ⟨q, hq, ⟨hq2, hqb⟩, -⟩ := charMetric_atOrPrev_isGreatest (s := "€") (o := 2) (by decide)
  have hbound : ∀ k ≤ 2, isCharBoundary "€" k = true → k = 0 := by decide
  rwa [hbound q hq2 hqb] at hq

end AtOrNext

end OrgCursor
