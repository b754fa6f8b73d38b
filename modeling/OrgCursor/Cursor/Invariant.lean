import OrgCursor.Cursor.Skip
import OrgCursor.Cursor.Search
import OrgCursor.Cursor.Regex

/-!
# The cursor over whole runs

A parser holds one cursor over a text and drives it by a sequence of operations.  `Op` lists the
operations that move the cursor or read around it, `runOp` is the position each leaves, and
`Reachable` the positions reached from a start by steps that a side condition allows.

`Allowed` is the side condition the operations document: `prev::<NewlineMetric>` off offset `0`,
the relative line queries for every `n` but `i32::MIN`, `char_after` at a character boundary,
and `re_search_forward` to the end of the text.  It is not enough: at `n = i32::MIN + 1`,
`line_beginning_position` takes `(n - 1).abs()` of `i32::MIN` and panics
(`run_lineBeginningPosition_overflows`).  `Safe` excludes that value too, and under it the
cursor stays on a character boundary and no operation panics, in every run
(`reachable_safe_isCharBoundary`): one step lemma per operation (`runOp_isCharBoundary`),
each citing the spec lemma of its method, and an induction over the run.  That value is the
only panic `Allowed` leaves, and only off the first line (`runOp_panics_iff`).

`Op.direction` is the way each operation's doc comment says it moves the cursor.  Every safe step
moves the cursor that way (`runOp_spec`), so a run of operations none of which moves backward
never ends before its start, and dually (`reachable_monotone`).  The boundary invariant is
exact: safe runs reach every character boundary (`reachable_safe_iff_isCharBoundary`).
-/

namespace OrgCursor

namespace StrCursor

/-- The operations of the cursor, with their arguments. -/
inductive Op where
  /-- `next::<CharMetric>`. -/
  | nextChar
  /-- `prev::<CharMetric>`. -/
  | prevChar
  /-- `next::<NewlineMetric>`. -/
  | nextNewline
  /-- `prev::<NewlineMetric>`. -/
  | prevNewline
  | gotoLineBegin
  | gotoNextLine
  | gotoPrevLine
  | lineBeginningPosition (n : Option I32)
  | lineEndPosition (n : Option I32)
  | charAfter (offset : Nat)
  | skipWhitespace
  | skipCharsForward (str : String) (limit : Option Nat)
  | skipCharsBackward (str : String) (limit : Option Nat)
  | searchForward (str : String) (bound count : Option Nat)
  | lookingAt (re : Regex)
  | capturingAt (re : Regex)
  | reSearchForward (re : Regex) (bound : Option Nat)

/-- The position of the cursor after an operation. -/
def runOp (s : String) : Op → Nat → Except Panic Nat
  | .nextChar, pos => Prod.snd <$> next s charMetric pos
  | .prevChar, pos => Prod.snd <$> prev s charMetric pos
  | .nextNewline, pos => Prod.snd <$> next s newlineMetric pos
  | .prevNewline, pos => Prod.snd <$> prev s newlineMetric pos
  | .gotoLineBegin, pos => Prod.snd <$> gotoLineBegin s pos
  | .gotoNextLine, pos => Prod.snd <$> gotoNextLine s pos
  | .gotoPrevLine, pos => Prod.snd <$> gotoPrevLine s pos
  | .lineBeginningPosition n, pos => Prod.snd <$> lineBeginningPosition s n pos
  | .lineEndPosition n, pos => Prod.snd <$> lineEndPosition s n pos
  | .charAfter offset, pos => Prod.snd <$> charAfter s offset pos
  | .skipWhitespace, pos => Prod.snd <$> skipWhitespace s pos
  | .skipCharsForward str limit, pos => Prod.snd <$> skipCharsForward s str limit pos
  | .skipCharsBackward str limit, pos => Prod.snd <$> skipCharsBackward s str limit pos
  | .searchForward str bound count, pos => Prod.snd <$> searchForward s str bound count pos
  | .lookingAt re, pos => (fun _ => pos) <$> lookingAt s re pos
  | .capturingAt re, pos => (fun _ => pos) <$> capturingAt s re pos
  | .reSearchForward re bound, pos => Prod.snd <$> reSearchForward s re bound pos

/-- The side conditions the operations document. -/
def Allowed (s : String) : Op → Nat → Prop
  | .prevNewline, pos => 0 < pos
  | .lineBeginningPosition n, _ => n ≠ some I32.MIN
  | .lineEndPosition n, _ => n ≠ some I32.MIN
  | .charAfter offset, _ => isCharBoundary s offset = true
  | .reSearchForward _ bound, _ => bound = none
  | _, _ => True

/-- The documented side conditions, and `n ≠ i32::MIN + 1` for `line_beginning_position`. -/
def Safe (s : String) (op : Op) (pos : Nat) : Prop :=
  Allowed s op pos ∧ ∀ x, op = .lineBeginningPosition (some x) → x.val ≠ -2 ^ 31 + 1

/-- Which way an operation moves the cursor. -/
inductive Direction where
  | forward
  | backward
  | stay
  deriving DecidableEq

/-- The direction each operation's doc comment gives it: the `next` moves, `goto_next_line`,
`skip_whitespace`, `skip_chars_forward` and the two searches forward; the `prev` moves,
`goto_line_begin`, `goto_prev_line` and `skip_chars_backward` backward; the queries, which put
the cursor back or never move it, not at all. -/
def Op.direction : Op → Direction
  | .nextChar | .nextNewline | .gotoNextLine | .skipWhitespace | .skipCharsForward .. |
    .searchForward .. | .reSearchForward .. => .forward
  | .prevChar | .prevNewline | .gotoLineBegin | .gotoPrevLine | .skipCharsBackward .. => .backward
  | .lineBeginningPosition _ | .lineEndPosition _ | .charAfter _ | .lookingAt _ | .capturingAt _ =>
    .stay

/-- A move from `p` to `p'` in the direction `d`. -/
def Direction.Moves : Direction → Nat → Nat → Prop
  | .forward, p, p' => p ≤ p'
  | .backward, p, p' => p' ≤ p
  | .stay, p, p' => p' = p

lemma Direction.Moves.le {d : Direction} {p p' : Nat} (hd : d ≠ .backward) (h : d.Moves p p') :
    p ≤ p' := by
  cases d with
  | forward => exact h
  | backward => exact absurd rfl hd
  | stay => exact Eq.ge h

lemma Direction.Moves.ge {d : Direction} {p p' : Nat} (hd : d ≠ .forward) (h : d.Moves p p') :
    p' ≤ p := by
  cases d with
  | forward => exact absurd rfl hd
  | backward => exact h
  | stay => exact Eq.le h

/-- The positions reached from `p0` by operations that `ok` allows where they are run. -/
inductive Reachable (s : String) (ok : Op → Nat → Prop) (p0 : Nat) : Nat → Prop
  | initial : Reachable s ok p0 p0
  | step {p p' : Nat} (op : Op) :
    Reachable s ok p0 p → ok op p → runOp s op p = .ok p' → Reachable s ok p0 p'

/-- At `n = i32::MIN + 1`, an allowed `line_beginning_position` panics from the start of the
second line of `"\n"`. -/
theorem run_lineBeginningPosition_overflows :
    isCharBoundary "\n" 1 = true ∧
      Allowed "\n" (.lineBeginningPosition (some (I32.ofInt (-2 ^ 31 + 1)))) 1 ∧
      runOp "\n" (.lineBeginningPosition (some (I32.ofInt (-2 ^ 31 + 1)))) 1 =
        .error .negOverflow :=
  ⟨by decide, by simp only [Allowed]; decide, by decide⟩

/-! ### One step -/

variable {s : String} {p : Nat}

@[simp] lemma map_ok {α : Type} (f : α → Nat) (a : α) :
    (f <$> (Except.ok a : Except Panic α)) = .ok (f a) := rfl

lemma next_charMetric_isCharBoundary (hb : isCharBoundary s p = true) :
    ∃ r q, next s charMetric p = .ok (r, q) ∧ isCharBoundary s q = true ∧ p ≤ q := by
  obtain ⟨j, hj, rfl⟩ := isCharBoundary_iff.1 hb
  rcases Nat.lt_or_ge j s.data.length with h | h
  · exact ⟨some (offsetOf s (j + 1)), offsetOf s (j + 1),
      by simp [next, charMetric_next_offsetOf h], isCharBoundary_offsetOf _,
      offsetOf_mono (Nat.le_succ j)⟩
  · obtain rfl : j = s.data.length := by omega
    rw [offsetOf_length] at hb ⊢
    exact ⟨none, _, by simp [next], hb, le_rfl⟩

lemma prev_charMetric_isCharBoundary (hb : isCharBoundary s p = true) :
    ∃ r q, prev s charMetric p = .ok (r, q) ∧ isCharBoundary s q = true ∧ q ≤ p := by
  obtain ⟨j, hj, rfl⟩ := isCharBoundary_iff.1 hb
  rcases j with _ | j
  · exact ⟨none, _, by simp [prev], hb, le_rfl⟩
  · exact ⟨some (offsetOf s j), offsetOf s j, by simp [prev, charMetric_prev_offsetOf hj],
      isCharBoundary_offsetOf _, offsetOf_mono (Nat.le_succ j)⟩

lemma prev_newlineMetric_isCharBoundary (h0 : 0 < p) (hp : p ≤ len s)
    (hb : isCharBoundary s p = true) :
    ∃ r q, prev s newlineMetric p = .ok (r, q) ∧ isCharBoundary s q = true ∧ q ≤ p := by
  simp only [prev, newlineMetric_prev_eq h0 hp, ok_bind]
  split_ifs
  · exact ⟨_, _, rfl, isCharBoundary_lineStart _,
      (lineStart_le_of_le_lineOf le_rfl).trans (Nat.sub_le p 1)⟩
  · exact ⟨_, _, rfl, hb, le_rfl⟩

/-- One step: from a character boundary, an operation that `Safe` allows does not panic, leaves
the cursor on a character boundary, and moves it the way its direction says. -/
lemma runOp_spec (op : Op) (hb : isCharBoundary s p = true) (hsafe : Safe s op p) :
    ∃ p', runOp s op p = .ok p' ∧ isCharBoundary s p' = true ∧ op.direction.Moves p p' := by
  have hp := le_len_of_isCharBoundary hb
  obtain ⟨hallow, hmin⟩ := hsafe
  cases op with
  | nextChar =>
    obtain ⟨r, q, h, hq, hpq⟩ := next_charMetric_isCharBoundary hb
    exact ⟨q, by simp [runOp, h], hq, hpq⟩
  | prevChar =>
    obtain ⟨r, q, h, hq, hpq⟩ := prev_charMetric_isCharBoundary hb
    exact ⟨q, by simp [runOp, h], hq, hpq⟩
  | nextNewline =>
    simp only [runOp, next_newlineMetric_eq hp]
    split_ifs with hl
    · exact ⟨_, rfl, isCharBoundary_lineStart _, (lt_lineStart_succ hl).le⟩
    · exact ⟨_, rfl, hb, le_rfl⟩
  | prevNewline =>
    obtain ⟨r, q, h, hq, hpq⟩ := prev_newlineMetric_isCharBoundary hallow hp hb
    exact ⟨q, by simp [runOp, h], hq, hpq⟩
  | gotoLineBegin =>
    exact ⟨_, by simp [runOp, gotoLineBegin_eq hp], isCharBoundary_lineStart (lineOf s p),
      lineStart_le_of_le_lineOf le_rfl⟩
  | gotoNextLine =>
    exact ⟨_, by simp [runOp, gotoNextLine_eq hp], isCharBoundary_lineStart (lineOf s p + 1),
      le_lineStart_succ hp⟩
  | gotoPrevLine =>
    exact ⟨_, by simp [runOp, gotoPrevLine_eq hp], isCharBoundary_lineStart (lineOf s p - 1),
      lineStart_le_of_le_lineOf (Nat.sub_le _ 1)⟩
  | lineBeginningPosition n =>
    have hn : ∀ x, n = some x → -2 ^ 31 + 1 < x.val := fun x hx => by
      have h1 := I32.val_ne_of_ne_MIN fun h => hallow (hx.trans (congrArg some h))
      have h2 := hmin x (congrArg Op.lineBeginningPosition hx)
      have h3 := x.min_le
      omega
    exact ⟨p, by simp [runOp, lineBeginningPosition_eq hp n hn], hb, rfl⟩
  | lineEndPosition n => exact ⟨p, by simp [runOp, lineEndPosition_eq hp n hallow], hb, rfl⟩
  | charAfter offset =>
    obtain ⟨c, q, h, -⟩ := getNextChar_isCharBoundary hallow
    exact ⟨p, by simp [runOp, charAfter, h], hb, rfl⟩
  | skipWhitespace =>
    obtain ⟨q, h, hq, hpq⟩ := skipWhitespace_isCharBoundary hb
    exact ⟨q, by simp [runOp, h], hq, hpq⟩
  | skipCharsForward str limit =>
    obtain ⟨k, q, h, hq, hpq⟩ := skipCharsForward_isCharBoundary str limit hb
    exact ⟨q, by simp [runOp, h], hq, hpq⟩
  | skipCharsBackward str limit =>
    obtain ⟨k, q, h, hq, hpq⟩ := skipCharsBackward_isCharBoundary str limit hb
    exact ⟨q, by simp [runOp, h], hq, hpq⟩
  | searchForward str bound count =>
    obtain ⟨r, q, h, hq, hpq⟩ := searchForward_isCharBoundary str bound count hb
    exact ⟨q, by simp [runOp, h], hq, hpq⟩
  | lookingAt re =>
    obtain ⟨r, h⟩ := lookingAt_ok re hb
    exact ⟨p, by simp [runOp, h], hb, rfl⟩
  | capturingAt re =>
    obtain ⟨r, h⟩ := capturingAt_ok re hb
    exact ⟨p, by simp [runOp, h], hb, rfl⟩
  | reSearchForward re bound =>
    simp only [Allowed] at hallow
    subst hallow
    obtain ⟨r, q, h, hq, hsome, hnone⟩ := reSearchForward_spec re (b := none) hb isCharBoundary_len
    refine ⟨q, by simp [runOp, h], hq, ?_⟩
    cases r with
    | none => exact (hnone rfl).ge
    | some iv =>
      obtain ⟨h1, -, rfl⟩ := hsome iv rfl
      exact h1.trans iv.start_le

lemma runOp_isCharBoundary (op : Op) (hb : isCharBoundary s p = true) (hsafe : Safe s op p) :
    ∃ p', runOp s op p = .ok p' ∧ isCharBoundary s p' = true :=
  let ⟨p', h, hb', _⟩ := runOp_spec op hb hsafe
  ⟨p', h, hb'⟩

lemma runOp_moves {op : Op} {p' : Nat} (hb : isCharBoundary s p = true) (hsafe : Safe s op p)
    (hrun : runOp s op p = .ok p') : op.direction.Moves p p' := by
  obtain ⟨q, hq, -, hm⟩ := runOp_spec op hb hsafe
  rw [hrun, Except.ok.injEq] at hq
  exact hq ▸ hm

/-- `Allowed` leaves exactly one panic: from a character boundary an allowed operation panics
if and only if it is `line_beginning_position(Some(i32::MIN + 1))` off the first line. -/
theorem runOp_panics_iff (op : Op) (hb : isCharBoundary s p = true) (hallow : Allowed s op p) :
    (∃ e, runOp s op p = .error e) ↔
      (∃ x : I32, op = .lineBeginningPosition (some x) ∧ x.val = -2 ^ 31 + 1) ∧
        0 < lineOf s p := by
  by_cases hx : ∃ x : I32, op = .lineBeginningPosition (some x) ∧ x.val = -2 ^ 31 + 1
  · obtain ⟨x, rfl, hxv⟩ := hx
    simp only [runOp, lineBeginningPosition_MIN_succ (le_len_of_isCharBoundary hb) hxv]
    split_ifs with h0
    · exact iff_of_true ⟨_, rfl⟩ ⟨⟨x, rfl, hxv⟩, h0⟩
    · exact iff_of_false (fun ⟨e, he⟩ => by cases he) fun h => h0 h.2
  · obtain ⟨p', h, -⟩ := runOp_isCharBoundary op hb ⟨hallow, fun x hop hxv => hx ⟨x, hop, hxv⟩⟩
    exact iff_of_false (fun ⟨e, he⟩ => by rw [h] at he; cases he) fun h => hx h.1

/-- At offset `1` of `"\n"`, `prev::<NewlineMetric>` is allowed and does not panic. -/
theorem runOp_panics_iff_on_newline : ¬ ∃ e, runOp "\n" .prevNewline 1 = .error e := fun h => by
  obtain ⟨⟨x, hx, -⟩, -⟩ :=
    (runOp_panics_iff (s := "\n") (p := 1) .prevNewline (by decide) Nat.one_pos).1 h
  cases hx

/-! ### Whole runs -/

/-- Every run whose operations `ok` allows, where `ok` is no weaker than `Safe`, keeps the
cursor on a character boundary. -/
lemma reachable_isCharBoundary {ok : Op → Nat → Prop} (hok : ∀ op q, ok op q → Safe s op q)
    {p0 : Nat} (h0 : isCharBoundary s p0 = true) (h : Reachable s ok p0 p) :
    isCharBoundary s p = true := by
  induction h with
  | initial => exact h0
  | step op _ hop hrun ih =>
    obtain ⟨p', hp', hb', -⟩ := runOp_spec op ih (hok _ _ hop)
    rw [hrun, Except.ok.injEq] at hp'
    exact hp' ▸ hb'

/-- In every run from a character boundary whose operations `Safe` allows, the cursor stays on
a character boundary, within the text, and every operation that `Safe` allows from where it is
completes without a panic. -/
theorem reachable_safe_isCharBoundary {p0 : Nat} (h0 : isCharBoundary s p0 = true)
    (h : Reachable s (Safe s) p0 p) :
    isCharBoundary s p = true ∧ p ≤ len s ∧
      ∀ op, Safe s op p → ∃ p', runOp s op p = .ok p' ∧ isCharBoundary s p' = true := by
  have hb := reachable_isCharBoundary (fun _ _ h => h) h0 h
  exact ⟨hb, le_len_of_isCharBoundary hb, fun op hop => runOp_isCharBoundary op hb hop⟩

/-- A safe run of two steps over `"é\nb"`, `next::<CharMetric>` over the two bytes of `'é'` and
then `next::<NewlineMetric>`, ends at `3`: a character boundary within the text, from which
`prev::<CharMetric>` completes on one. -/
theorem reachable_safe_isCharBoundary_on_e_newline :
    Reachable "é\nb" (Safe "é\nb") 0 3 ∧ isCharBoundary "é\nb" 3 = true ∧ 3 ≤ len "é\nb" ∧
      ∃ p', runOp "é\nb" .prevChar 3 = .ok p' ∧ isCharBoundary "é\nb" p' = true := by
  have h2 : Reachable "é\nb" (Safe "é\nb") 0 2 :=
    .step .nextChar .initial ⟨trivial, fun _ h => (nomatch h)⟩ (by decide)
  have h3 : Reachable "é\nb" (Safe "é\nb") 0 3 :=
    .step .nextNewline h2 ⟨trivial, fun _ h => (nomatch h)⟩ (by decide)
  obtain ⟨hb, hlen, hops⟩ := reachable_safe_isCharBoundary (s := "é\nb") (by decide) h3
  exact ⟨h3, hb, hlen, hops .prevChar ⟨trivial, fun _ h => (nomatch h)⟩⟩

lemma reachable_forward {j : Nat} (d : Nat) (hd : j + d ≤ s.data.length) :
    Reachable s (Safe s) (offsetOf s j) (offsetOf s (j + d)) := by
  induction d with
  | zero => exact .initial
  | succ d ih =>
    have h : j + d < s.data.length := by omega
    exact .step .nextChar (ih (by omega)) ⟨trivial, fun _ h => (nomatch h)⟩
      (by rw [← Nat.add_assoc]; simp [runOp, next, charMetric_next_offsetOf h])

lemma reachable_backward {j : Nat} (d : Nat) (hj : j ≤ s.data.length) (hd : d ≤ j) :
    Reachable s (Safe s) (offsetOf s j) (offsetOf s (j - d)) := by
  induction d with
  | zero => exact .initial
  | succ d ih =>
    have hprev := charMetric_prev_offsetOf (s := s) (j := j - (d + 1)) (by omega)
    rw [show j - (d + 1) + 1 = j - d by omega] at hprev
    exact .step .prevChar (ih (by omega)) ⟨trivial, fun _ h => (nomatch h)⟩
      (by simp [runOp, prev, hprev])

/-- The invariant is exact: from a character boundary, the positions that safe runs reach are
the character boundaries, every one of them, one character at a time. -/
theorem reachable_safe_iff_isCharBoundary {p0 q : Nat} (h0 : isCharBoundary s p0 = true) :
    Reachable s (Safe s) p0 q ↔ isCharBoundary s q = true := by
  refine ⟨reachable_isCharBoundary (fun _ _ h => h) h0, fun hq => ?_⟩
  obtain ⟨j, hj, rfl⟩ := isCharBoundary_iff.1 h0
  obtain ⟨k, hk, rfl⟩ := isCharBoundary_iff.1 hq
  rcases le_total j k with hjk | hkj
  · have := reachable_forward (s := s) (j := j) (k - j) (by omega)
    rwa [Nat.add_sub_cancel' hjk] at this
  · have := reachable_backward (s := s) (j := j) (j - k) hj (Nat.sub_le j k)
    rwa [Nat.sub_sub_self hkj] at this

/-- The end of `"ab"` is reached from its start by a safe run. -/
theorem reachable_safe_iff_isCharBoundary_on_ab : Reachable "ab" (Safe "ab") 0 2 :=
  (reachable_safe_iff_isCharBoundary (s := "ab") (by decide)).2 (by decide)

/-- A parser that only scans forward never re-reads text: in a safe run from a character
boundary none of whose operations moves backward, the cursor never ends before where it
started; in one none of whose operations moves forward, never after. -/
theorem reachable_monotone {p0 : Nat} (h0 : isCharBoundary s p0 = true) :
    (Reachable s (fun op q => Safe s op q ∧ op.direction ≠ .backward) p0 p → p0 ≤ p) ∧
    (Reachable s (fun op q => Safe s op q ∧ op.direction ≠ .forward) p0 p → p ≤ p0) := by
  constructor
  · intro h
    induction h with
    | initial => exact le_rfl
    | step op hr hop hrun ih =>
      have hb := reachable_isCharBoundary (fun _ _ h => h.1) h0 hr
      exact ih.trans ((runOp_moves hb hop.1 hrun).le hop.2)
  · intro h
    induction h with
    | initial => exact le_rfl
    | step op hr hop hrun ih =>
      have hb := reachable_isCharBoundary (fun _ _ h => h.1) h0 hr
      exact ((runOp_moves hb hop.1 hrun).ge hop.2).trans ih

/-- One `next::<CharMetric>` from the start of `"ab"` is a forward run, which ends after its
start. -/
theorem reachable_monotone_on_ab :
    Reachable "ab" (fun op q => Safe "ab" op q ∧ op.direction ≠ .backward) 0 1 ∧ 0 ≤ 1 :=
  have hr : Reachable "ab" (fun op q => Safe "ab" op q ∧ op.direction ≠ .backward) 0 1 :=
    .step .nextChar .initial ⟨⟨trivial, fun _ h => nomatch h⟩, by decide⟩ (by decide)
  ⟨hr, (reachable_monotone (s := "ab") (by decide)).1 hr⟩

end StrCursor

end OrgCursor
