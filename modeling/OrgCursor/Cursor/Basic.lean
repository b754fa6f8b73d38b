import OrgCursor.Metric

/-!
# The cursor and its elementary moves

`struct StrCursor<'a> { data: &'a str, pos: usize }`.  No method changes `data`, so a method on
`&mut self` is a function of the text `s` (the field `data`) and of the position, returning its
result and the new position, `Except Panic (α × Nat)`; a method on `&self` returns its result
alone.  The pattern `let pos = self.pos(); ...; self.set(pos)` of the non-moving queries
becomes a function that returns the position it was given.

Three functions the methods call are not in the source: the cursor's own `at_or_prev`, which
`trait Cursor` declares, and `get_next_char` and `get_prev_char`, whose behaviour the tests
and their callers pin down.  They are modelled below, each docstring saying where its
behaviour comes from and which of it is a modelling choice.

The spec lemmas at the end state the character moves at the offsets of characters:
`getNextChar_offsetOf` and `getPrevChar_offsetOf_succ`.  The moves over `CharMetric` undo each
other (`next_prev_charMetric_inverse`).
-/

namespace OrgCursor

namespace StrCursor

variable (s : String)

/-- `StrCursor::inc`. -/
def inc (pos n : Nat) : Nat := pos + n

/-- `StrCursor::dec`: `pos - n`, or `0` where that would underflow. -/
def dec (pos n : Nat) : Nat := if n > pos then 0 else pos - n

/-- `StrCursor::next::<M>`: move to the next boundary, if there is one. -/
def next (M : Metric) (pos : Nat) : Except Panic (Option Nat × Nat) := do
  match ← M.next s pos with
  | some l => return (some l, l)
  | none => return (none, pos)

/-- `StrCursor::prev::<M>`: move to the previous boundary, if there is one. -/
def prev (M : Metric) (pos : Nat) : Except Panic (Option Nat × Nat) := do
  match ← M.prev s pos with
  | some l => return (some l, l)
  | none => return (none, pos)

/-- `StrCursor::is_boundary::<M>`. -/
def isBoundary (M : Metric) (pos : Nat) : Except Panic Bool := M.isBoundary s pos

/-- Modelled from the spec: the cursor's `at_or_prev::<M>`, which `goto_line_begin` calls and
`trait Cursor` declares, has no body in the source.  Like `next` and `prev` it moves to the
boundary that `Metric::at_or_prev` finds, and stays where there is none. -/
def atOrPrev (M : Metric) (pos : Nat) : Except Panic (Option Nat × Nat) := do
  match ← M.atOrPrev s pos with
  | some l => return (some l, l)
  | none => return (none, pos)

/-- Modelled from the spec: `get_next_char`, which `skip_whitespace`, `char_after` and the
`skip_chars` methods call, is not in the source, and the spec does not name it.  Its behaviour
is taken from the tests that call it (`essentials`, `skip_whitespaces`, `line_begin`,
`prev_line`): it returns the character at the cursor and moves past it, and at the end of the
text it returns `None` and stays.  It decodes `self.data[self.pos..].chars().next()`; that it
panics, as that slice does, at an offset that is not a char boundary is a modelling choice. -/
def getNextChar (pos : Nat) : Except Panic (Option Char × Nat) := do
  match ← sliceFrom s pos with
  | [] => return (none, pos)
  | c :: _ => return (some c, pos + lenUtf8 c)

/-- Modelled from the spec: `get_prev_char`, which `skip_whitespace` and the `skip_chars`
methods call, is not in the source, and neither the spec nor the tests name it.  Its behaviour
is taken from those callers, which use it to step back over the character just read, and from
the test `skip_chars_backward` of the method that walks back with it: it moves back to the
character before the cursor (`CharLexeme::prev`) and returns it.  That at offset `0` it
returns `None` and stays is a modelling choice. -/
def getPrevChar (pos : Nat) : Except Panic (Option Char × Nat) := do
  match ← charLexemePrev s pos with
  | some a => return (some a.value, a.address)
  | none => return (none, pos)

/-- `StrCursor::char_after`: the character at `offset`; the cursor is put back. -/
def charAfter (offset pos : Nat) : Except Panic (Option Char × Nat) := do
  let (result, _) ← getNextChar s offset
  return (result, pos)

/-- `StrCursor::is_bol`: the cursor is at the start of the text or just after a `'\n'`. -/
def isBol (pos : Nat) : Except Panic Bool :=
  if pos = 0 then .ok true else newlineMetric.isBoundary s pos

/-! ### Moves by one character -/

variable {s} {j : Nat}

lemma getNextChar_offsetOf (h : j < s.data.length) :
    getNextChar s (offsetOf s j) = .ok (some s.data[j], offsetOf s (j + 1)) := by
  rw [getNextChar, sliceFrom_offsetOf, List.drop_eq_getElem_cons h, offsetOf_succ h]
  rfl

@[simp] lemma getNextChar_len : getNextChar s (len s) = .ok (none, len s) := by
  rw [← offsetOf_length, getNextChar, sliceFrom_offsetOf, List.drop_length]
  rfl

lemma getPrevChar_offsetOf_succ (h : j < s.data.length) :
    getPrevChar s (offsetOf s (j + 1)) = .ok (some s.data[j], offsetOf s j) := by
  rw [getPrevChar, charLexemePrev, charMetric_prev_offsetOf h]
  simp only [ok_bind, sliceFrom_offsetOf, List.drop_eq_getElem_cons h]
  rfl

@[simp] lemma getPrevChar_zero : getPrevChar s 0 = .ok (none, 0) := by
  simp [getPrevChar, charLexemePrev]

/-- `next::<CharMetric>` and `prev::<CharMetric>` undo each other: from a character boundary
before the end, `next` moves over one character and `prev` moves back to the boundary; from one
after the start, `prev` moves back over one character and `next` returns to it. -/
theorem next_prev_charMetric_inverse {p : Nat} (hb : isCharBoundary s p = true) :
    (p < len s → ∃ q, next s charMetric p = .ok (some q, q) ∧
      prev s charMetric q = .ok (some p, p)) ∧
    (0 < p → ∃ q, prev s charMetric p = .ok (some q, q) ∧
      next s charMetric q = .ok (some p, p)) := by
  obtain ⟨j, hj, rfl⟩ := isCharBoundary_iff.1 hb
  refine ⟨fun hlt => ?_, fun h0 => ?_⟩
  · have h := lt_length_of_offsetOf_lt_len hlt
    exact ⟨offsetOf s (j + 1), by simp [next, charMetric_next_offsetOf h],
      by simp [prev, charMetric_prev_offsetOf h]⟩
  · rcases j with _ | j
    · simp at h0
    have h : j < s.data.length := hj
    exact ⟨offsetOf s j, by simp [prev, charMetric_prev_offsetOf h],
      by simp [next, charMetric_next_offsetOf h]⟩

/-- Over `"é"`, `next` moves from `0` over the two bytes of the character and `prev` moves back
to `0`. -/
theorem next_prev_charMetric_inverse_on_e :
    ∃ q, next "é" charMetric 0 = .ok (some q, q) ∧ prev "é" charMetric q = .ok (some 0, 0) :=
  (next_prev_charMetric_inverse (s := "é") (p := 0) (by decide)).1 (by decide)

/-- From a character boundary, `get_next_char` does not panic and lands on one. -/
lemma getNextChar_isCharBoundary {o : Nat} (ho : isCharBoundary s o = true) :
    ∃ c q, getNextChar s o = .ok (c, q) ∧ isCharBoundary s q = true := by
  obtain ⟨j, hj, rfl⟩ := isCharBoundary_iff.1 ho
  rcases Nat.lt_or_ge j s.data.length with h | h
  · exact ⟨_, _, getNextChar_offsetOf h, isCharBoundary_offsetOf _⟩
  · obtain rfl : j = s.data.length := by omega
    rw [offsetOf_length]
    exact ⟨_, _, getNextChar_len, isCharBoundary_len⟩

end StrCursor

end OrgCursor
