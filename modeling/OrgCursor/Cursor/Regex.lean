import OrgCursor.Cursor.Lines
import OrgCursor.Cursor.Search
import Mathlib.Data.List.Infix

/-!
# Pattern matching at the cursor

`looking_at`, `capturing_at` and `re_search_forward` hand a slice of the text to the `regex`
crate.  The crate is a collaborator of the cursor, not part of it: a `Regex` here is its source
text and its two queries on a haystack, `find` and `captures`, with what the crate guarantees of
a match on a `str` as a field: it is a span whose ends are character boundaries of the haystack.
`Interval`, which `re_search_forward` returns, is defined outside the source and is modelled
from the spec.  `literalRegex` is the crate's regex for a pattern of plain characters, whose
leftmost match is the leftmost occurrence (`matchPositions`).

The window that `looking_at` and `capturing_at` give the pattern is the rest of the current line
without its `'\n'`, or the rest of the text for a pattern that `is_multiline_regex` classifies
as spanning lines (`windowEnd_spec`).  No query panics from a character boundary, and
`re_search_forward` moves to a character boundary (`reSearchForward_spec`).  The crate's `find`
is not anchored, so neither is `looking_at`: a match may start after the cursor; it ends on the
cursor's line for a pattern on one line (`lookingAt_ends_on_line`).  `re_search_forward` slices
up to its bound, and panics when the bound is past the cursor and not a char boundary
(`reSearchForward_panics_on_bound`); with any other bound its match lies within the bound
(`reSearchForward_within_bound`).  For a non-empty literal pattern it is `search_forward` with
the default count: the first occurrence in its window is the first one after the cursor when
that one ends within the bound (`reSearchForward_literal_eq_searchForward`).
-/

namespace OrgCursor

/-- A `regex::Match`: a span of the haystack. -/
structure Match where
  /-- `Match::start`. -/
  start : Nat
  /-- `Match::end`. -/
  stop : Nat
  start_le : start ≤ stop
  deriving DecidableEq, Repr

/-- A `regex::Regex`, through the queries the cursor makes of it. -/
structure Regex where
  /-- `Regex::as_str`: the source of the pattern. -/
  asStr : String
  /-- `Regex::find`: the leftmost-first match in a haystack. -/
  find : String → Option Match
  /-- `Regex::captures`: the spans of the groups of the leftmost-first match, group `0` the
  whole match. -/
  captures : String → Option (List (Option Match))
  /-- A match starts and ends at character boundaries of its haystack. -/
  find_boundary : ∀ h m, find h = some m → isCharBoundary h m.start ∧ isCharBoundary h m.stop

/-- Modelled from the spec: `crate::data::Interval`, the half-open span `[start, end)` of
absolute offsets of a match, `start <= end`. -/
structure Interval where
  start : Nat
  /-- The end, exclusive. -/
  stop : Nat
  start_le : start ≤ stop
  deriving DecidableEq, Repr

/-- `is_multiline_regex`: the source of the pattern contains one of `\n`, `\r` and
`[[:space:]]`, the indicators that it can match a line break. -/
def isMultilineRegex (regex : String) : Bool :=
  ["\\n", "\\r", "[[:space:]]"].any fun i => decide (i.data <:+: regex.data)

/-- The leftmost occurrence of the literal `w` in the haystack `h`, as a span of bytes. -/
def literalFind (w h : String) : Option Match :=
  (matchPositions w.data h.data 0 0).head?.map fun x =>
    ⟨offsetOf h x, offsetOf h (x + w.data.length), offsetOf_mono (Nat.le_add_right x _)⟩

/-- `Regex::new(w)` for a pattern `w` of plain characters, its own source, which the crate
matches as a literal: `find` is its leftmost occurrence, and `captures` has the whole match as
its one group. -/
def literalRegex (w : String) : Regex where
  asStr := w
  find := literalFind w
  captures h := (literalFind w h).map fun m => [some m]
  find_boundary h m hm := by
    obtain ⟨x, -, rfl⟩ := Option.map_eq_some'.1 hm
    exact ⟨isCharBoundary_offsetOf _, isCharBoundary_offsetOf _⟩

/-- The one group of a literal's captures is its match. -/
lemma literalRegex_captures (w : String) :
    ∀ h gs, (literalRegex w).captures h = some gs → gs.head? = some ((literalRegex w).find h) := by
  intro h gs hgs
  obtain ⟨m, hm, rfl⟩ := Option.map_eq_some'.1 hgs
  simp [literalRegex, hm]

namespace StrCursor

variable (s : String)

/-- The end of the window of `looking_at` and `capturing_at`, which compute it alike:
`NewlineMetric::next(self.data, self.pos).map(|p| p - 1).unwrap_or_else(|| self.data.len())`
for a pattern on one line, the end of the text otherwise. -/
def windowEnd (re : Regex) (pos : Nat) : Except Panic Nat :=
  if !isMultilineRegex re.asStr then do
    match ← newlineMetric.next s pos with
    | some p => usizeSub p 1
    | none => return len s
  else return len s

/-- `StrCursor::looking_at`: the first match of the pattern in the window from the cursor. -/
def lookingAt (re : Regex) (pos : Nat) : Except Panic (Option Match) := do
  let stop ← windowEnd s re pos
  let hay ← slice s pos stop
  return re.find ⟨hay⟩

/-- `StrCursor::capturing_at`: the groups of the first match of the pattern in the window from
the cursor. -/
def capturingAt (re : Regex) (pos : Nat) : Except Panic (Option (List (Option Match))) := do
  let stop ← windowEnd s re pos
  let hay ← slice s pos stop
  return re.captures ⟨hay⟩

/-- `StrCursor::re_search_forward`: the first match of the pattern in `[pos, bound)` (the bound
defaults to the end), as absolute offsets; the cursor moves to its end. -/
def reSearchForward (re : Regex) (bound : Option Nat) (pos : Nat) :
    Except Panic (Option Interval × Nat) := do
  let stop := bound.getD (len s)
  if stop ≤ pos then return (none, pos)
  let hay ← slice s pos stop
  match re.find ⟨hay⟩ with
  | none => return (none, pos)
  | some m =>
    return (some ⟨pos + m.start, pos + m.stop, Nat.add_le_add_left m.start_le pos⟩, pos + m.stop)

/-! ### From a character boundary -/

variable {s} {p : Nat}

/-- The window ends at a character boundary after the position: at the `'\n'` that ends the
line, or at the end of the text. -/
lemma windowEnd_spec (re : Regex) (hp : p ≤ len s) :
    ∃ q, windowEnd s re p = .ok q ∧ p ≤ q ∧ isCharBoundary s q = true := by
  by_cases hm : isMultilineRegex re.asStr
  · exact ⟨len s, by simp [windowEnd, hm], hp, isCharBoundary_len⟩
  simp only [windowEnd, hm, Bool.not_false, ite_true, newlineMetric_next_eq hp, ok_bind]
  split_ifs with hl
  · obtain ⟨o, h1, h2, -⟩ := lineStart_spec (s := s) (k := lineOf s p + 1) (by omega) (by omega)
    have hlt := lt_lineStart_succ hl
    rw [h1] at hlt ⊢
    exact ⟨o, usizeSub_of_le (by omega), by omega, (isCharBoundary_of_newline h2).1⟩
  · exact ⟨len s, rfl, hp, isCharBoundary_len⟩

lemma lookingAt_ok (re : Regex) (hb : isCharBoundary s p = true) :
    ∃ r, lookingAt s re p = .ok r := by
  obtain ⟨q, hq, hpq, hqb⟩ := windowEnd_spec re (le_len_of_isCharBoundary hb)
  exact ⟨re.find ⟨charsIn s p q⟩, by simp [lookingAt, hq, slice_of_isCharBoundary hpq hb hqb]⟩

lemma capturingAt_ok (re : Regex) (hb : isCharBoundary s p = true) :
    ∃ r, capturingAt s re p = .ok r := by
  obtain ⟨q, hq, hpq, hqb⟩ := windowEnd_spec re (le_len_of_isCharBoundary hb)
  exact ⟨re.captures ⟨charsIn s p q⟩,
    by simp [capturingAt, hq, slice_of_isCharBoundary hpq hb hqb]⟩

/-- From a character boundary, `re_search_forward` with a bound that is a character boundary
does not panic: it returns a match from the cursor on that ends within the bound, and moves to
its end, a character boundary; or `None`, and stays. -/
lemma reSearchForward_spec (re : Regex) {b : Option Nat} (hb : isCharBoundary s p = true)
    (hbound : isCharBoundary s (b.getD (len s)) = true) :
    ∃ r q, reSearchForward s re b p = .ok (r, q) ∧ isCharBoundary s q = true ∧
      (∀ iv, r = some iv → p ≤ iv.start ∧ iv.stop ≤ b.getD (len s) ∧ q = iv.stop) ∧
      (r = none → q = p) := by
  obtain ⟨j, hj, rfl⟩ := isCharBoundary_iff.1 hb
  obtain ⟨j', -, hj'e⟩ := isCharBoundary_iff.1 hbound
  simp only [reSearchForward]
  split_ifs with hle
  · exact ⟨none, _, rfl, hb, by simp, fun _ => rfl⟩
  have hjj : j ≤ j' := (offsetOf_le_offsetOf_iff hj).1 (by omega)
  simp only [slice_of_isCharBoundary (by omega) hb hbound, ok_bind]
  cases hf : re.find ⟨charsIn s (offsetOf s j) (b.getD (len s))⟩ with
  | none => exact ⟨none, _, rfl, hb, by simp, fun _ => rfl⟩
  | some m =>
    have hstop := (re.find_boundary _ m hf).2
    rw [← hj'e] at hstop
    obtain ⟨h1, h2⟩ := isCharBoundary_add_of_charsIn hjj hstop
    refine ⟨_, _, rfl, h1, ?_, by simp⟩
    rintro iv ⟨⟩
    exact ⟨Nat.le_add_right _ _, h2.trans hj'e.le, rfl⟩

/-! ### The bound of `re_search_forward` -/

/-- A bound past the cursor that is not a char boundary, past the end of the text or inside a
character, makes `re_search_forward` panic on the slice `data[pos..end]`, whatever the
pattern. -/
theorem reSearchForward_panics_on_bound (re : Regex) {b : Nat} (hpb : p < b)
    (hb : isCharBoundary s b = false) : reSearchForward s re (some b) p = .error .strIndex := by
  simp [reSearchForward, slice, hb, not_le.2 hpb]

/-- The bound `2`, past the end of `"a"`, makes `re_search_forward` panic. -/
theorem reSearchForward_panics_past_end :
    reSearchForward "a" (literalRegex "a") (some 2) 0 = .error .strIndex :=
  reSearchForward_panics_on_bound _ (by decide) (by decide)

/-- From a char boundary, with a bound at or before the cursor or on a char boundary,
`re_search_forward` returns: a match as absolute offsets from the cursor on, ending within the
bound and the text, with the cursor at its end; or `None` with the cursor where it was. -/
theorem reSearchForward_within_bound (re : Regex) {b : Nat} (hp : isCharBoundary s p = true)
    (hb : b ≤ p ∨ isCharBoundary s b = true) :
    ∃ r q, reSearchForward s re (some b) p = .ok (r, q) ∧
      (∀ iv, r = some iv → p ≤ iv.start ∧ iv.stop ≤ min b (len s) ∧ q = iv.stop) ∧
      (r = none → q = p) := by
  rcases hb with hle | hbb
  · exact ⟨none, p, by simp [reSearchForward, hle], by simp, fun _ => rfl⟩
  obtain ⟨r, q, h, -, hs, hn⟩ := reSearchForward_spec re (b := some b) hp hbb
  refine ⟨r, q, h, fun iv hiv => ?_, hn⟩
  obtain ⟨h1, h2, h3⟩ := hs iv hiv
  exact ⟨h1, le_min h2 (h2.trans (le_len_of_isCharBoundary hbb)), h3⟩

/-- Over `"ab"` with the bound `2`, the pattern `b` is found one byte past the cursor, and the
cursor moves to the end `2` of the match, within the bound. -/
theorem reSearchForward_within_bound_on_ab :
    ∃ iv, reSearchForward "ab" (literalRegex "b") (some 2) 0 = .ok (some iv, 2) ∧
      0 ≤ iv.start ∧ iv.stop ≤ min 2 (len "ab") := by
  obtain ⟨r, q, h, hsome, -⟩ :=
    reSearchForward_within_bound (s := "ab") (p := 0) (b := 2) (literalRegex "b") rfl
      (.inr (by decide))
  have hrun : reSearchForward "ab" (literalRegex "b") (some 2) 0 =
      .ok (some ⟨1, 2, by decide⟩, 2) := by decide
  obtain ⟨rfl, rfl⟩ := Prod.mk.inj (Except.ok.inj (h.symm.trans hrun))
  obtain ⟨h1, h2, -⟩ := hsome _ rfl
  exact ⟨_, hrun, h1, h2⟩

/-! ### A literal pattern -/

/-- For a literal, `re_search_forward` is `search_forward` with the default count: from a char
boundary and with a bound at a char boundary, both find the first occurrence of a non-empty
literal that starts at or after the cursor, and only when it ends within the bound; both move
the cursor to its end, and the interval spans the literal.  The empty literal alone differs,
with the bound at the cursor: there `search_forward` finds it, and `re_search_forward`, whose
window is empty, returns `None`. -/
theorem reSearchForward_literal_eq_searchForward (w : String) (hw : w.data ≠ []) {b : Option Nat}
    (hb : isCharBoundary s p = true) (hbound : isCharBoundary s (b.getD (len s)) = true) :
    ∃ r q, reSearchForward s (literalRegex w) b p = .ok (r, q) ∧
      searchForward s w b none p = .ok (r.map Interval.stop, q) ∧
      ∀ iv, r = some iv → iv.stop = iv.start + len w := by
  obtain ⟨j, hj, rfl⟩ := isCharBoundary_iff.1 hb
  obtain ⟨j', hj', hj'e⟩ := isCharBoundary_iff.1 hbound
  rw [searchForward_offsetOf, getElem?_matchEnds]
  simp only [Option.getD_none, Nat.sub_self, ← List.head?_eq_getElem?, reSearchForward]
  -- the first occurrence after the cursor, and where it ends
  have hend : ∀ x, (matchPositions w.data (s.data.drop j) 0 0).head? = some x →
      w.data <+: s.data.drop (j + x) ∧ j + x + w.data.length ≤ s.data.length := by
    intro x hx
    obtain ⟨⟨-, hx1, hpre⟩, -⟩ := (head?_matchPositions _ 0 x).1 hx
    rw [Nat.sub_zero, List.drop_drop] at hpre
    have hlen := hpre.length_le
    rw [List.length_drop] at hlen hx1
    exact ⟨hpre, by omega⟩
  by_cases hle : b.getD (len s) ≤ offsetOf s j
  · -- the window of `re_search_forward` is empty, and every occurrence ends past the bound
    rw [if_pos hle]
    refine ⟨none, _, rfl, ?_, fun _ h => (nomatch h)⟩
    cases hx : (matchPositions w.data (s.data.drop j) 0 0).head? with
    | none => rfl
    | some x =>
      have hlt := offsetOf_lt_offsetOf (s := s) (show j < j + x + w.data.length by
        have := List.length_pos.2 hw; omega) (hend x hx).2
      simp only [Option.map_some']
      rw [if_neg (by omega)]
      rfl
  rw [if_neg hle]
  have hjj : j ≤ j' := (offsetOf_le_offsetOf_iff hj).1 (by omega)
  rw [slice_of_isCharBoundary (by omega) hb hbound, ← hj'e, charsIn_offsetOf hjj]
  simp only [ok_bind, literalRegex, literalFind, head?_matchPositions_take]
  cases hx : (matchPositions w.data (s.data.drop j) 0 0).head? with
  | none => exact ⟨none, _, rfl, rfl, fun _ h => (nomatch h)⟩
  | some x =>
    obtain ⟨hpre, hlen⟩ := hend x hx
    by_cases hxn : x + w.data.length ≤ j' - j
    · -- the occurrence lies in the window, whose offsets are offsets from the cursor
      have hwin : ∀ m ≤ j' - j, offsetOf s j + offsetOf ⟨(s.data.drop j).take (j' - j)⟩ m =
          offsetOf s (j + m) := fun m hm => by
        rw [offsetOf_take (s := ⟨s.data.drop j⟩) hm, ← offsetOf_drop_add, Nat.add_comm]
      have h1 := hwin x (by omega)
      have h2 := hwin (x + w.data.length) hxn
      have h3 := offsetOf_add_of_prefix hpre
      have hmono := offsetOf_mono (s := s) (show j + x + w.data.length ≤ j' by omega)
      rw [← Nat.add_assoc] at h2
      simp only [Option.filter_some, decide_eq_true_eq, if_pos hxn, Option.map_some']
      rw [if_pos ⟨by omega, le_rfl, hmono⟩]
      refine ⟨_, _, rfl, by rw [← h2]; rfl, ?_⟩
      rintro iv ⟨⟩
      dsimp only
      omega
    · -- it ends past the bound
      have hlt := offsetOf_lt_offsetOf (s := s) (show j' < j + x + w.data.length by omega) hlen
      simp only [Option.filter_some, decide_eq_true_eq, if_neg hxn, Option.map_none',
        Option.map_some']
      rw [if_neg (by omega)]
      exact ⟨none, _, rfl, rfl, fun _ h => (nomatch h)⟩

/-- In `"abab"` from `1`, `search_forward` for `"ab"` moves to `4`; so `re_search_forward` for the
literal moves there too, and returns the span `[2, 4)` of the occurrence. -/
theorem reSearchForward_literal_eq_searchForward_on_abab :
    ∃ iv, reSearchForward "abab" (literalRegex "ab") none 1 = .ok (some iv, 4) ∧
      iv.start = 2 ∧ iv.stop = 4 := by
  obtain ⟨r, q, h1, h2, h3⟩ := reSearchForward_literal_eq_searchForward (s := "abab") (p := 1)
    "ab" (by decide) (b := none) (by decide) (by decide)
  have hsf : searchForward "abab" "ab" none none 1 = .ok (some 4, 4) := by decide
  obtain ⟨hr, rfl⟩ := Prod.mk.inj (Except.ok.inj (h2.symm.trans hsf))
  obtain ⟨iv, rfl, hstop⟩ := Option.map_eq_some'.1 hr
  have hspan := h3 iv rfl
  have hlen : len "ab" = 2 := by decide
  exact ⟨iv, h1, by omega, hstop⟩

/-! ### The window of `looking_at` and `capturing_at` -/

/-- For a pattern on one line, the window ends at or before every `'\n'` at or after the
cursor. -/
lemma windowEnd_le_newline (re : Regex) (hm : isMultilineRegex re.asStr = false)
    (hp : p ≤ len s) :
    ∃ q, windowEnd s re p = .ok q ∧ p ≤ q ∧ isCharBoundary s q = true ∧
      ∀ k, p ≤ k → (asBytes s)[k]? = some 0x0a → q ≤ k := by
  obtain ⟨r, hr, hsome, hnone⟩ := newlineMetric_next_spec hp
  simp only [windowEnd, hm, Bool.not_false, ite_true, hr, ok_bind]
  cases r with
  | none =>
    exact ⟨len s, rfl, hp, isCharBoundary_len,
      fun k hk hb => absurd (by simpa using hb) (hnone rfl (k + 1) (by omega))⟩
  | some e =>
    obtain ⟨⟨he, hb⟩, hleast⟩ := hsome e rfl
    obtain ⟨j, -, -, hj⟩ := exists_offsetOf_of_newline hb
    refine ⟨e - 1, usizeSub_of_le (by omega), by omega, hj ▸ isCharBoundary_offsetOf j,
      fun k hk hkb => ?_⟩
    have := hleast ⟨show p < k + 1 by omega, by simpa using hkb⟩
    omega

/-- `looking_at` is not anchored at the cursor: from the start of `"ab"` the pattern `b` is
found one byte in, by both queries. -/
theorem lookingAt_finds_past_cursor :
    lookingAt "ab" (literalRegex "b") 0 = .ok (some ⟨1, 2, by decide⟩) ∧
      capturingAt "ab" (literalRegex "b") 0 = .ok (some [some ⟨1, 2, by decide⟩]) := by
  decide

/-- For a pattern that `is_multiline_regex` does not classify as spanning lines, the match that
`looking_at` returns ends on the cursor's line: within the text, and at or before every `'\n'`
at or after the cursor.  `capturing_at` returns that match as its group `0`, for a regex whose
captures agree with `find` there. -/
theorem lookingAt_ends_on_line (re : Regex) (hb : isCharBoundary s p = true)
    (hm : isMultilineRegex re.asStr = false)
    (hcap : ∀ h gs, re.captures h = some gs → gs.head? = some (re.find h)) :
    (∀ gs, capturingAt s re p = .ok (some gs) → lookingAt s re p = .ok gs.head?.join) ∧
    ∀ m, lookingAt s re p = .ok (some m) →
      p + m.stop ≤ len s ∧ ∀ k, p ≤ k → (asBytes s)[k]? = some 0x0a → p + m.stop ≤ k := by
  obtain ⟨q, hq, hpq, hqb, hnl⟩ := windowEnd_le_newline re hm (le_len_of_isCharBoundary hb)
  simp only [lookingAt, capturingAt, hq, slice_of_isCharBoundary hpq hb hqb, ok_bind,
    pure_eq_ok, Except.ok.injEq]
  refine ⟨fun gs hgs => by rw [hcap _ gs hgs]; rfl, fun m hm' => ?_⟩
  obtain ⟨j, hj, rfl⟩ := isCharBoundary_iff.1 hb
  obtain ⟨j', -, rfl⟩ := isCharBoundary_iff.1 hqb
  obtain ⟨-, hle⟩ := isCharBoundary_add_of_charsIn ((offsetOf_le_offsetOf_iff hj).1 hpq)
    (re.find_boundary _ m hm').2
  exact ⟨hle.trans offsetOf_le_len, fun k hk hkb => hle.trans (hnl k hk hkb)⟩

/-- The pattern `b` is on one line, and on `"ab"` its match ends at `2`, within the text. -/
theorem lookingAt_ends_on_line_on_ab :
    isMultilineRegex (literalRegex "b").asStr = false ∧ 0 + 2 ≤ len "ab" :=
  ⟨by decide, ((lookingAt_ends_on_line (s := "ab") (p := 0) (literalRegex "b") rfl (by decide)
    (literalRegex_captures "b")).2 ⟨1, 2, by decide⟩ (by decide)).1⟩

end StrCursor

end OrgCursor
