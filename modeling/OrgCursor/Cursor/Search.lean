import OrgCursor.Cursor.Basic
import Mathlib.Data.Nat.Find

/-!
# Searching for a literal

`StrCursor::search_forward` walks the iterator `self.data[pos..].match_indices(str)` and counts
the matches whose end does not pass the bound.  `str::match_indices` is modelled over the
characters of the haystack (`matchPositions`): it finds the leftmost occurrence, reports it, and
goes on after its end, and the empty needle occurs at every character boundary, the end
included.  The standard library compares bytes, but a byte match of a non-empty needle in a
`str` starts and ends at character boundaries, so it finds the same occurrences.

`searchForward_finds_count_th` states the search in terms of the list of match ends, and says
which ends these are: the first is the least end of an occurrence after the cursor
(`OccursFrom`), each next one the least end of an occurrence after the end before it
(`getElem?_succ_matchPositions`), and for the empty literal they are the character boundaries
after the cursor.  The `count`-th end is returned when it does not pass the bound.  The ends strictly increase, and
after the `k`-th match the occurrences are those of a search started at its end
(`matchPositions_restart`), so the counted search of a non-empty literal is the iterated one
(`searchForward_count_succ`); the empty literal matches where a search starts, so it is not.
Every end the search returns is the end of an occurrence after the cursor and within the bound,
and with the default count it is the first such end (`searchForward_finds_first_occurrence`):
`matchPositions` reports the leftmost occurrence first (`head?_matchPositions`).
-/

namespace OrgCursor

/-- `str::match_indices` with a `&str` needle `w`, over the characters of the haystack: the
indices, counted from `i`, of the leftmost non-overlapping occurrences of `w`, left to right,
where `skip` characters of the last occurrence are still to be passed. -/
def matchPositions (w : List Char) : List Char → Nat → Nat → List Nat
  | [], skip, i => if skip = 0 ∧ w = [] then [i] else []
  | c :: t, 0, i =>
    if w.isPrefixOf (c :: t) then i :: matchPositions w t (w.length - 1) (i + 1)
    else matchPositions w t 0 (i + 1)
  | _ :: t, skip + 1, i => matchPositions w t skip (i + 1)

/-- `hay.match_indices(needle)`: the byte offsets of the matches. -/
def matchIndices (hay needle : String) : List Nat :=
  (matchPositions needle.data hay.data 0 0).map (offsetOf hay)

namespace StrCursor

variable (s : String)

/-- The `loop` of `StrCursor::search_forward` over the match offsets `result.0` of
`match_indices`, relative to `pos`, with the counter `i`. -/
def searchForwardLoop (strLen pos bound count : Nat) : List Nat → Nat → Option Nat
  | [], _ => none
  | r :: rs, i =>
    if r + pos + strLen > bound then none
    else if count = i then some (r + pos + strLen)
    else searchForwardLoop strLen pos bound count rs (i + 1)

/-- `StrCursor::search_forward`: the end of the `count`-th (default `1`) match of `str` after the
cursor that does not end past `bound` (default the end), to which the cursor moves. -/
def searchForward (str : String) (bound count : Option Nat) (pos : Nat) :
    Except Panic (Option Nat × Nat) := do
  let count := count.getD 1
  let bound := bound.getD (len s)
  if bound < pos then return (none, pos)
  let hay ← sliceFrom s pos
  match searchForwardLoop (len str) pos bound count (matchIndices ⟨hay⟩ str) 1 with
  | some e => return (some e, e)
  | none => return (none, pos)

/-- The literal `w` occurs in `s` from a character at or after the offset `q`, and that
occurrence ends at the offset `e`. -/
def OccursFrom (w : String) (q e : Nat) : Prop :=
  ∃ a ≤ s.data.length, q ≤ offsetOf s a ∧ w.data <+: s.data.drop a ∧
    e = offsetOf s (a + w.data.length)

end StrCursor

/-! ### The matches -/

section Matches

variable {w : List Char}

lemma matchPositions_skip {t : List Char} {skip i : Nat} (h : skip ≤ t.length) :
    matchPositions w t skip i = matchPositions w (t.drop skip) 0 (i + skip) := by
  induction skip generalizing t i with
  | zero => rfl
  | succ skip ih =>
    obtain ⟨c, t, rfl⟩ : ∃ c t', t = c :: t' := List.exists_cons_of_length_pos (by omega)
    rw [matchPositions, ih (by simpa using h), List.drop_succ_cons, Nat.add_right_comm,
      Nat.add_assoc]

lemma matchPositions_bounds {t : List Char} {skip i x : Nat}
    (hx : x ∈ matchPositions w t skip i) : i ≤ x ∧ x ≤ i + t.length := by
  induction t generalizing skip i with
  | nil =>
    simp only [matchPositions] at hx
    split_ifs at hx <;> simp_all
  | cons c t ih =>
    cases skip with
    | zero =>
      simp only [matchPositions] at hx
      split_ifs at hx
      · rcases List.mem_cons.1 hx with rfl | hx
        · simp
        · have := ih hx
          simp only [List.length_cons]
          omega
      · have := ih hx
        simp only [List.length_cons]
        omega
    | succ skip =>
      have := ih hx
      simp only [List.length_cons]
      omega

lemma matchPositions_pairwise (t : List Char) (skip i : Nat) :
    (matchPositions w t skip i).Pairwise (· < ·) := by
  induction t generalizing skip i with
  | nil =>
    simp only [matchPositions]
    split_ifs <;> simp
  | cons c t ih =>
    cases skip with
    | zero =>
      simp only [matchPositions]
      split_ifs
      · exact List.Pairwise.cons (fun x hx => by have := matchPositions_bounds hx; omega) (ih _ _)
      · exact ih _ _
    | succ skip => exact ih _ _

/-- The empty needle occurs at every character boundary. -/
lemma matchPositions_nil (t : List Char) (i : Nat) :
    matchPositions [] t 0 i = List.range' i (t.length + 1) := by
  induction t generalizing i with
  | nil => rfl
  | cons c t ih => simp [matchPositions, ih, List.range'_succ]

lemma matchPositions_shift (t : List Char) (skip i d : Nat) :
    matchPositions w t skip (i + d) = (matchPositions w t skip i).map (· + d) := by
  induction t generalizing skip i with
  | nil =>
    simp only [matchPositions]
    split_ifs <;> simp
  | cons c t ih =>
    cases skip with
    | zero =>
      simp only [matchPositions, Nat.add_right_comm i d 1]
      split_ifs <;> simp [ih]
    | succ skip => simp only [matchPositions, Nat.add_right_comm i d 1, ih]

/-- A match of a non-empty needle is an occurrence, and after it the search goes on as a search
started at its end. -/
lemma matchPositions_restart (hw : w ≠ []) {t : List Char} {i n x : Nat} {rest : List Nat}
    (h : (matchPositions w t 0 i).drop n = x :: rest) :
    i ≤ x ∧ w <+: t.drop (x - i) ∧
      rest = matchPositions w (t.drop (x - i + w.length)) 0 (x + w.length) := by
  obtain ⟨L, hL⟩ : ∃ L, t.length ≤ L := ⟨_, le_rfl⟩
  induction L generalizing t i n with
  | zero =>
    obtain rfl : t = [] := List.eq_nil_of_length_eq_zero (by omega)
    simp [matchPositions, hw] at h
  | succ L ih =>
    cases t with
    | nil => simp [matchPositions, hw] at h
    | cons c t =>
      simp only [List.length_cons] at hL
      by_cases hp : w.isPrefixOf (c :: t)
      · have hpre := List.isPrefixOf_iff_prefix.1 hp
        have hw1 : 1 ≤ w.length := List.length_pos.2 hw
        have hwl : w.length - 1 ≤ t.length := by
          have := hpre.length_le
          simp only [List.length_cons] at this
          omega
        rw [matchPositions, if_pos hp, matchPositions_skip hwl,
          show i + 1 + (w.length - 1) = i + w.length by omega] at h
        cases n with
        | zero =>
          simp only [List.drop_zero, List.cons.injEq] at h
          obtain ⟨rfl, rfl⟩ := h
          refine ⟨le_rfl, by simpa using hpre, ?_⟩
          rw [show i - i + w.length = (w.length - 1) + 1 by omega, List.drop_succ_cons]
        | succ n =>
          obtain ⟨h1, h2, h3⟩ := ih h (by simp only [List.length_drop]; omega)
          rw [List.drop_drop] at h2 h3
          refine ⟨by omega, ?_, ?_⟩
          · rwa [show x - i = (w.length - 1 + (x - (i + w.length))) + 1 by omega,
              List.drop_succ_cons]
          · rw [h3, show x - i + w.length = (w.length - 1 + (x - (i + w.length) + w.length)) + 1
              by omega, List.drop_succ_cons]
      · rw [matchPositions, if_neg hp] at h
        obtain ⟨h1, h2, h3⟩ := ih h (by omega)
        refine ⟨by omega, ?_, ?_⟩
        · rwa [show x - i = (x - (i + 1)) + 1 by omega, List.drop_succ_cons]
        · rw [h3, show x - i + w.length = (x - (i + 1) + w.length) + 1 by omega,
            List.drop_succ_cons]

/-- What `match_indices` reports are occurrences of the needle. -/
lemma prefix_of_mem_matchPositions {t : List Char} {skip i x : Nat}
    (hx : x ∈ matchPositions w t skip i) : w <+: t.drop (x - i) := by
  induction t generalizing skip i with
  | nil =>
    simp only [matchPositions] at hx
    split_ifs at hx with h
    · obtain rfl := List.mem_singleton.1 hx
      simp [h.2]
    · cases hx
  | cons c t ih =>
    have shift : ∀ {k}, x ∈ matchPositions w t k (i + 1) → w <+: (c :: t).drop (x - i) :=
      fun hx => by
        have := (matchPositions_bounds hx).1
        rw [show x - i = x - (i + 1) + 1 by omega, List.drop_succ_cons]
        exact ih hx
    cases skip with
    | zero =>
      simp only [matchPositions] at hx
      split_ifs at hx with hp
      · rcases List.mem_cons.1 hx with rfl | hx
        · simpa using List.isPrefixOf_iff_prefix.1 hp
        · exact shift hx
      · exact shift hx
    | succ skip => exact shift hx

/-- The first match is the least index at which the needle occurs. -/
lemma head?_matchPositions (t : List Char) (i x : Nat) :
    (matchPositions w t 0 i).head? = some x ↔
      IsLeast {y | i ≤ y ∧ y ≤ i + t.length ∧ w <+: t.drop (y - i)} x := by
  induction t generalizing i with
  | nil =>
    by_cases hw : w = []
    · subst hw
      rw [IsLeast.isLeast_iff_eq (a := i) ⟨?_, ?_⟩]
      · simp [matchPositions]
      · exact ⟨le_rfl, by simp, List.nil_prefix⟩
      · exact fun y hy => hy.1
    · simp only [matchPositions, hw, and_false, ite_false, List.head?_nil, reduceCtorEq,
        false_iff]
      rintro ⟨⟨-, -, h⟩, -⟩
      exact hw (List.prefix_nil.1 (by simpa using h))
  | cons c t ih =>
    by_cases hp : w.isPrefixOf (c :: t)
    · rw [matchPositions, if_pos hp, List.head?_cons, Option.some.injEq,
        IsLeast.isLeast_iff_eq (a := i) ⟨?_, ?_⟩]
      · exact ⟨le_rfl, by simp, by simpa using List.isPrefixOf_iff_prefix.1 hp⟩
      · exact fun y hy => hy.1
    rw [matchPositions, if_neg hp, ih]
    have hS : {y | i + 1 ≤ y ∧ y ≤ i + 1 + t.length ∧ w <+: t.drop (y - (i + 1))} =
        {y | i ≤ y ∧ y ≤ i + (c :: t).length ∧ w <+: (c :: t).drop (y - i)} := by
      ext y
      simp only [Set.mem_setOf_eq, List.length_cons]
      constructor
      · rintro ⟨h1, h2, h3⟩
        refine ⟨by omega, by omega, ?_⟩
        rwa [show y - i = y - (i + 1) + 1 by omega, List.drop_succ_cons]
      · rintro ⟨h1, h2, h3⟩
        rcases Nat.eq_or_lt_of_le h1 with rfl | h1
        · exact absurd (List.isPrefixOf_iff_prefix.2 (by simpa using h3)) hp
        · refine ⟨h1, by omega, ?_⟩
          rwa [show y - i = y - (i + 1) + 1 by omega, List.drop_succ_cons] at h3
    rw [hS]

/-- A set of naturals that has an element has a least one. -/
lemma exists_isLeast_of_mem {S : Set Nat} {z : Nat} (hz : z ∈ S) : ∃ y, IsLeast S y := by
  classical
  exact ⟨Nat.find ⟨z, hz⟩, Nat.find_spec ⟨z, hz⟩, fun y hy => Nat.find_min' ⟨z, hz⟩ hy⟩

/-- No first match: the needle occurs nowhere. -/
lemma head?_matchPositions_eq_none (t : List Char) :
    (matchPositions w t 0 0).head? = none ↔ ∀ y ≤ t.length, ¬ w <+: t.drop y := by
  constructor
  · intro h y hy hpre
    obtain ⟨z, hz⟩ := exists_isLeast_of_mem
      (S := {y | 0 ≤ y ∧ y ≤ 0 + t.length ∧ w <+: t.drop (y - 0)})
      ⟨Nat.zero_le y, by omega, by simpa using hpre⟩
    have := (head?_matchPositions t 0 z).2 hz
    rw [h] at this
    cases this
  · intro h
    cases hx : (matchPositions w t 0 0).head? with
    | none => rfl
    | some x =>
      obtain ⟨⟨-, hx1, hx2⟩, -⟩ := (head?_matchPositions t 0 x).1 hx
      exact absurd (by simpa using hx2) (h x (by simpa using hx1))

/-- After the match at `x`, the next match of a non-empty needle is the least occurrence from
the end of that match on. -/
lemma getElem?_succ_matchPositions (hw : w ≠ []) {t : List Char} {n x : Nat}
    (hx : (matchPositions w t 0 0)[n]? = some x) (y : Nat) :
    (matchPositions w t 0 0)[n + 1]? = some y ↔
      IsLeast {z | x + w.length ≤ z ∧ z ≤ t.length ∧ w <+: t.drop z} y := by
  obtain ⟨hn, hxe⟩ := List.getElem?_eq_some_iff.1 hx
  have hdrop := List.drop_eq_getElem_cons hn
  rw [hxe] at hdrop
  obtain ⟨-, hpre, hrest⟩ := matchPositions_restart hw hdrop
  have hxl := (matchPositions_bounds (List.getElem?_mem hx)).2
  have hlen := hpre.length_le
  simp only [Nat.sub_zero, Nat.zero_add, List.length_drop] at hpre hrest hxl hlen
  have hnext : (matchPositions w t 0 0)[n + 1]? =
      (matchPositions w (t.drop (x + w.length)) 0 (x + w.length)).head? := by
    rw [← hrest, List.head?_eq_getElem?, List.getElem?_drop]
  -- from the end of the match, the occurrences are counted in the whole haystack
  have hS : {z | x + w.length ≤ z ∧ z ≤ x + w.length + (t.drop (x + w.length)).length ∧
      w <+: (t.drop (x + w.length)).drop (z - (x + w.length))} =
      {z | x + w.length ≤ z ∧ z ≤ t.length ∧ w <+: t.drop z} := by
    ext z
    simp only [Set.mem_setOf_eq, List.length_drop, List.drop_drop]
    refine and_congr_right fun h1 => ?_
    rw [Nat.add_sub_cancel' h1]
    exact and_congr_left fun _ => by omega
  rw [hnext, head?_matchPositions, hS]

/-- The first match in a prefix of the haystack is the first match in the whole haystack, when
it ends within the prefix. -/
lemma head?_matchPositions_take (t : List Char) (n : Nat) :
    (matchPositions w (t.take n) 0 0).head? =
      (matchPositions w t 0 0).head?.filter fun x => x + w.length ≤ n := by
  -- the occurrences in the prefix are those that end within it
  have hocc : ∀ y, (y ≤ (t.take n).length ∧ w <+: (t.take n).drop y) ↔
      (y ≤ t.length ∧ w <+: t.drop y ∧ y + w.length ≤ n) := fun y => by
    rw [List.drop_take, List.prefix_take_iff, List.length_take]
    constructor
    · rintro ⟨h1, h2, h3⟩
      exact ⟨by omega, h2, by omega⟩
    · rintro ⟨h1, h2, h3⟩
      exact ⟨by omega, h2, by omega⟩
  cases hx : (matchPositions w t 0 0).head? with
  | none =>
    rw [Option.filter_none, head?_matchPositions_eq_none]
    intro y hy hpre
    obtain ⟨h1, h2, -⟩ := (hocc y).1 ⟨hy, hpre⟩
    exact (head?_matchPositions_eq_none t).1 hx y h1 h2
  | some x =>
    obtain ⟨⟨-, hx1, hx2⟩, hxmin⟩ := (head?_matchPositions t 0 x).1 hx
    simp only [Nat.sub_zero, Nat.zero_add] at hx1 hx2
    have hlow : ∀ y ≤ t.length, w <+: t.drop y → x ≤ y := fun y hy hpre =>
      hxmin ⟨Nat.zero_le y, by omega, by simpa using hpre⟩
    simp only [Option.filter_some, decide_eq_true_eq]
    split_ifs with hxn
    · rw [head?_matchPositions]
      refine ⟨⟨Nat.zero_le x, ?_, ?_⟩, fun y hy => ?_⟩
      · simpa using ((hocc x).2 ⟨hx1, hx2, hxn⟩).1
      · simpa using ((hocc x).2 ⟨hx1, hx2, hxn⟩).2
      · obtain ⟨h1, h2, -⟩ := (hocc y).1 ⟨by simpa using hy.2.1, by simpa using hy.2.2⟩
        exact hlow y h1 h2
    · rw [head?_matchPositions_eq_none]
      intro y hy hpre
      obtain ⟨h1, h2, h3⟩ := (hocc y).1 ⟨hy, hpre⟩
      have := hlow y h1 h2
      omega

end Matches

/-! ### The search loop -/

namespace StrCursor

section Loop

variable {strLen pos bound : Nat}

lemma searchForwardLoop_of_lt {count i : Nat} (rs : List Nat) (h : count < i) :
    searchForwardLoop strLen pos bound count rs i = none := by
  induction rs generalizing i with
  | nil => rfl
  | cons r rs ih =>
    simp only [searchForwardLoop]
    split_ifs with h1 h2
    · rfl
    · omega
    · exact ih (by omega)

/-- Over increasing match ends, the loop returns the end of match number `count` (counted from
`i`) when it does not pass the bound: an earlier end past the bound makes this one pass it
too. -/
lemma searchForwardLoop_eq {rs : List Nat} {i t : Nat}
    (hs : (rs.map (· + pos + strLen)).Pairwise (· < ·)) :
    searchForwardLoop strLen pos bound (i + t) rs i =
      (rs.map (· + pos + strLen))[t]?.bind fun o => if o ≤ bound then some o else none := by
  induction rs generalizing i t with
  | nil => rfl
  | cons r rs ih =>
    rw [List.map_cons, List.pairwise_cons] at hs
    simp only [searchForwardLoop]
    split_ifs with h1 h2
    · cases t with
      | zero => simp [not_le.2 h1]
      | succ t =>
        simp only [List.map_cons, List.getElem?_cons_succ]
        cases ho : (rs.map (· + pos + strLen))[t]? with
        | none => rfl
        | some o =>
          have := hs.1 o (List.getElem?_mem ho)
          simp only [Option.some_bind]
          rw [if_neg (by omega)]
    · obtain rfl : t = 0 := by omega
      simp [le_of_not_lt h1]
    · obtain ⟨t, rfl⟩ : ∃ t', t = t' + 1 := ⟨t - 1, by omega⟩
      rw [show i + (t + 1) = (i + 1) + t by omega, ih hs.2]
      simp only [List.map_cons, List.getElem?_cons_succ]

end Loop

/-! ### `search_forward` -/

section SearchForward

variable {s} {p : Nat}

/-- The match ends of `str` in `s` after the character `j`, as absolute offsets, increase. -/
lemma matchEnds_pairwise (w : String) (j : Nat) :
    ((matchIndices ⟨s.data.drop j⟩ w).map (· + offsetOf s j + len w)).Pairwise (· < ·) := by
  rw [matchIndices, List.map_map, List.pairwise_map]
  refine (matchPositions_pairwise _ 0 0).imp_of_mem fun ha hb hab => ?_
  have := offsetOf_lt_offsetOf (s := ⟨s.data.drop j⟩) hab
    (by simpa using (matchPositions_bounds hb).2)
  simp only [Function.comp_apply]
  omega

/-- `search_forward` from the offset of character `j`, in terms of the ends of the matches. -/
lemma searchForward_offsetOf (w : String) (b k : Option Nat) (j : Nat) :
    searchForward s w b k (offsetOf s j) =
      .ok (match ((matchIndices ⟨s.data.drop j⟩ w).map (· + offsetOf s j + len w))[k.getD 1 - 1]?
        with
        | some o =>
          if offsetOf s j ≤ b.getD (len s) ∧ 1 ≤ k.getD 1 ∧ o ≤ b.getD (len s) then (some o, o)
          else (none, offsetOf s j)
        | none => (none, offsetOf s j)) := by
  simp only [searchForward, sliceFrom_offsetOf, ok_bind]
  by_cases hlt : b.getD (len s) < offsetOf s j
  · simp only [hlt, ite_true, pure_eq_ok]
    cases (List.map _ _)[k.getD 1 - 1]? <;> simp [not_le.2 hlt]
  simp only [hlt, ite_false, pure_eq_ok, ok_bind]
  rcases Nat.eq_zero_or_pos (k.getD 1) with hk | hk
  · rw [searchForwardLoop_of_lt _ (by omega)]
    cases (List.map _ _)[k.getD 1 - 1]? <;> simp [hk]
  obtain ⟨t, ht⟩ : ∃ t, k.getD 1 = 1 + t := ⟨k.getD 1 - 1, by omega⟩
  rw [ht, searchForwardLoop_eq (matchEnds_pairwise w j), Nat.add_sub_cancel_left]
  cases (List.map _ _)[t]? with
  | none => rfl
  | some o =>
    by_cases ho : o ≤ b.getD (len s)
    · simp [ho, not_lt.1 hlt]
    · simp [ho]

/-- The ends of the matches after the character `j`, as offsets in `s`: each is the end of the
occurrence that `match_indices` reports. -/
lemma getElem?_matchEnds (w : String) (j n : Nat) :
    ((matchIndices ⟨s.data.drop j⟩ w).map (· + offsetOf s j + len w))[n]? =
      (matchPositions w.data (s.data.drop j) 0 0)[n]?.map
        fun x => offsetOf s (j + x + w.data.length) := by
  simp only [matchIndices, List.map_map, List.getElem?_map]
  cases hx : (matchPositions w.data (s.data.drop j) 0 0)[n]? with
  | none => rfl
  | some x =>
    have hpre := prefix_of_mem_matchPositions (List.getElem?_mem hx)
    rw [Nat.sub_zero, List.drop_drop] at hpre
    simp only [Option.map_some', Function.comp_apply, offsetOf_drop_add,
      offsetOf_add_of_prefix hpre]

/-- An occurrence from the offset of the character `j + c` on is one at `z ≥ c` in the characters
after `j`. -/
lemma occursFrom_offsetOf_iff (w : String) {j c e : Nat} (hc : j + c ≤ s.data.length) :
    OccursFrom s w (offsetOf s (j + c)) e ↔
      ∃ z, (c ≤ z ∧ z ≤ (s.data.drop j).length ∧ w.data <+: (s.data.drop j).drop z) ∧
        e = offsetOf s (j + z + w.data.length) := by
  constructor
  · rintro ⟨a, ha, hq, hpre, rfl⟩
    have hca : j + c ≤ a := (offsetOf_le_offsetOf_iff hc).1 hq
    refine ⟨a - j, ⟨by omega, by rw [List.length_drop]; omega, ?_⟩,
      by rw [Nat.add_sub_cancel' (by omega)]⟩
    rwa [List.drop_drop, Nat.add_sub_cancel' (by omega)]
  · rintro ⟨z, ⟨hcz, hz, hpre⟩, rfl⟩
    rw [List.length_drop] at hz
    exact ⟨j + z, by omega, offsetOf_mono (by omega), by rwa [List.drop_drop] at hpre, rfl⟩

/-- The least occurrence at `x ≥ c` after the character `j` has the least end of the
occurrences from the offset of `j + c` on. -/
lemma isLeast_occursFrom (w : String) {j c x : Nat} (hc : j + c ≤ s.data.length)
    (hx : IsLeast {z | c ≤ z ∧ z ≤ (s.data.drop j).length ∧
      w.data <+: (s.data.drop j).drop z} x) :
    IsLeast {e | OccursFrom s w (offsetOf s (j + c)) e} (offsetOf s (j + x + w.data.length)) := by
  refine ⟨(occursFrom_offsetOf_iff w hc).2 ⟨x, hx.1, rfl⟩, fun e he => ?_⟩
  obtain ⟨z, hz, rfl⟩ := (occursFrom_offsetOf_iff w hc).1 he
  exact offsetOf_mono (by have := hx.2 hz; omega)

/-- An option that holds exactly the least occurrence at `x ≥ c` after the character `j`,
mapped to the end of that occurrence, holds exactly the least end of an occurrence from the
offset of `j + c` on. -/
lemma map_eq_some_iff_isLeast_occursFrom (w : String) {j c : Nat} (hc : j + c ≤ s.data.length)
    {o : Option Nat} (ho : ∀ x, o = some x ↔ IsLeast {z | c ≤ z ∧ z ≤ (s.data.drop j).length ∧
      w.data <+: (s.data.drop j).drop z} x) (e : Nat) :
    o.map (fun x => offsetOf s (j + x + w.data.length)) = some e ↔
      IsLeast {e | OccursFrom s w (offsetOf s (j + c)) e} e := by
  cases o with
  | none =>
    refine iff_of_false (by simp) fun he => ?_
    obtain ⟨z, hz, -⟩ := (occursFrom_offsetOf_iff w hc).1 he.1
    obtain ⟨y, hy⟩ := exists_isLeast_of_mem
      (S := {z | c ≤ z ∧ z ≤ (s.data.drop j).length ∧ w.data <+: (s.data.drop j).drop z}) hz
    exact absurd ((ho y).2 hy) (by simp)
  | some x =>
    rw [Option.map_some', Option.some.injEq,
      (isLeast_occursFrom w hc ((ho x).1 rfl)).isLeast_iff_eq]

/-- For the empty literal the ends of the matches after the character `j` are the character
boundaries from there on. -/
lemma mem_matchEnds_empty {j : Nat} (hj : j ≤ s.data.length) (e : Nat) :
    e ∈ (matchIndices ⟨s.data.drop j⟩ "").map (· + offsetOf s j + len "") ↔
      offsetOf s j ≤ e ∧ isCharBoundary s e = true := by
  have h0 : ("" : String).data = [] := rfl
  simp only [matchIndices, h0, matchPositions_nil, List.map_map, List.mem_map, List.mem_range'_1,
    Function.comp_apply]
  constructor
  · rintro ⟨x, -, rfl⟩
    rw [show len "" = 0 from rfl, Nat.add_zero, offsetOf_drop_add]
    exact ⟨offsetOf_mono (Nat.le_add_right j x), isCharBoundary_offsetOf _⟩
  · rintro ⟨hle, hb⟩
    obtain ⟨k, hk, rfl⟩ := isCharBoundary_iff.1 hb
    have hjk := (offsetOf_le_offsetOf_iff hj).1 hle
    refine ⟨k - j, ⟨Nat.zero_le _, by simp only [List.length_drop]; omega⟩, ?_⟩
    rw [show len "" = 0 from rfl, Nat.add_zero, offsetOf_drop_add, Nat.add_sub_cancel' hjk]

/-- `search_forward` from a character boundary `p`, in terms of `ends`, the absolute ends of the
matches of `w` after `p`: the first is the end of the least occurrence from `p` on, and each
next one, for a non-empty literal, the end of the least occurrence from the end before it; for
the empty literal they are the character boundaries from `p` on.  The ends increase, and the
search returns and moves to the `count`-th end when the bound is not below `p` and that end
does not pass it; it returns `None` and stays otherwise. -/
theorem searchForward_finds_count_th (w : String) (b k : Option Nat)
    (hb : isCharBoundary s p = true) :
    let ends := (matchIndices ⟨charsIn s p (len s)⟩ w).map (· + p + len w)
    (∀ e, ends.head? = some e ↔ IsLeast {e | OccursFrom s w p e} e) ∧
    (w ≠ "" → ∀ n e, ends[n]? = some e →
      ∀ e', ends[n + 1]? = some e' ↔ IsLeast {e' | OccursFrom s w e e'} e') ∧
    (w = "" → ∀ e, e ∈ ends ↔ p ≤ e ∧ isCharBoundary s e = true) ∧
    ends.Pairwise (· < ·) ∧
    searchForward s w b k p =
      .ok (match ends[k.getD 1 - 1]? with
        | some o =>
          if p ≤ b.getD (len s) ∧ 1 ≤ k.getD 1 ∧ o ≤ b.getD (len s) then (some o, o)
          else (none, p)
        | none => (none, p)) := by
  obtain ⟨j, hj, rfl⟩ := isCharBoundary_iff.1 hb
  simp only [charsIn_to_len j hj]
  refine ⟨fun e => ?_, fun hw n e he e' => ?_, fun hw => ?_, matchEnds_pairwise w j,
    searchForward_offsetOf w b k j⟩
  · -- the first match is the least occurrence
    rw [List.head?_eq_getElem?, getElem?_matchEnds, ← List.head?_eq_getElem?]
    exact map_eq_some_iff_isLeast_occursFrom (c := 0) w hj (fun x => by
      simpa only [Nat.zero_add, Nat.sub_zero] using head?_matchPositions (s.data.drop j) 0 x) e
  · -- each next match is the least occurrence from the end of the one before
    have hw' : w.data ≠ [] := fun h => hw (String.ext h)
    rw [getElem?_matchEnds] at he
    obtain ⟨x, hx, rfl⟩ := Option.map_eq_some'.1 he
    have hxm := List.getElem?_mem hx
    have hxl := (matchPositions_bounds hxm).2
    have hlen := (prefix_of_mem_matchPositions hxm).length_le
    simp only [Nat.zero_add, Nat.sub_zero, List.length_drop] at hxl hlen
    have := map_eq_some_iff_isLeast_occursFrom w (c := x + w.data.length) (by omega)
      (getElem?_succ_matchPositions hw' hx) e'
    rw [getElem?_matchEnds]
    rwa [← Nat.add_assoc] at this
  · -- for the empty literal, every boundary
    subst hw
    exact mem_matchEnds_empty hj

/-- The second match of `"ab"` in `"abab"` ends at `4`. -/
theorem searchForward_finds_count_th_on_abab :
    searchForward "abab" "ab" none (some 2) 0 = .ok (some 4, 4) :=
  (searchForward_finds_count_th (s := "abab") "ab" none (some 2) (p := 0) (by decide)).2.2.2.2.trans
    (by decide)

lemma lt_of_pairwise_getElem? {l : List Nat} (hs : l.Pairwise (· < ·)) {a b i j : Nat}
    (hij : i < j) (ha : l[i]? = some a) (hb : l[j]? = some b) : a < b := by
  obtain ⟨hi, rfl⟩ := List.getElem?_eq_some_iff.1 ha
  obtain ⟨hj, rfl⟩ := List.getElem?_eq_some_iff.1 hb
  exact List.pairwise_iff_getElem.1 hs i j hi hj hij

/-- After the match of a non-empty literal that ends at the offset of character `j + x + |w|`,
the ends of the later matches are those of a search started there. -/
lemma matchEnds_drop {w : String} (hw : w ≠ "") {j n x : Nat}
    (hx : (matchPositions w.data (s.data.drop j) 0 0)[n]? = some x) :
    ((matchIndices ⟨s.data.drop j⟩ w).map (· + offsetOf s j + len w))[n]? =
      some (offsetOf s (j + x + w.data.length)) ∧
    ((matchIndices ⟨s.data.drop j⟩ w).map (· + offsetOf s j + len w)).drop (n + 1) =
      (matchIndices ⟨s.data.drop (j + x + w.data.length)⟩ w).map
        (· + offsetOf s (j + x + w.data.length) + len w) := by
  have hw' : w.data ≠ [] := fun h => hw (String.ext h)
  obtain ⟨hn, hxe⟩ := List.getElem?_eq_some_iff.1 hx
  have hdrop := List.drop_eq_getElem_cons hn
  rw [hxe] at hdrop
  obtain ⟨-, hpre, hrest⟩ := matchPositions_restart hw' hdrop
  simp only [Nat.sub_zero, List.drop_drop, ← Nat.add_assoc] at hpre hrest
  constructor
  · simp only [matchIndices, List.map_map, List.getElem?_map, hx, Option.map_some',
      Function.comp_apply, offsetOf_drop_add, offsetOf_add_of_prefix hpre]
  · have hsh := matchPositions_shift (w := w.data) (s.data.drop (j + x + w.data.length)) 0 0
      (x + w.data.length)
    rw [Nat.zero_add] at hsh
    rw [matchIndices, List.map_map, ← List.map_drop, hrest, hsh, matchIndices, List.map_map,
      List.map_map]
    refine List.map_congr_left fun y _ => ?_
    simp only [Function.comp_apply]
    rw [offsetOf_drop_add, offsetOf_drop_add]
    congr 2
    omega

/-- Every match end is a character boundary. -/
lemma isCharBoundary_of_mem_matchEnds (w : String) (j : Nat) {o : Nat}
    (ho : o ∈ (matchIndices ⟨s.data.drop j⟩ w).map (· + offsetOf s j + len w)) :
    isCharBoundary s o = true := by
  by_cases hw : w = ""
  · subst hw
    simp only [matchIndices, List.map_map, List.mem_map, Function.comp_apply] at ho
    obtain ⟨x, -, rfl⟩ := ho
    rw [show len "" = 0 from rfl, Nat.add_zero, offsetOf_drop_add]
    exact isCharBoundary_offsetOf _
  obtain ⟨n, hn⟩ := List.mem_iff_getElem?.1 ho
  obtain ⟨x, hx⟩ : ∃ x, (matchPositions w.data (s.data.drop j) 0 0)[n]? = some x := by
    cases hx : (matchPositions w.data (s.data.drop j) 0 0)[n]? with
    | some x => exact ⟨x, rfl⟩
    | none => simp [matchIndices, List.getElem?_map, hx] at hn
  rw [(matchEnds_drop hw hx).1, Option.some.injEq] at hn
  exact hn ▸ isCharBoundary_offsetOf _

/-- From a character boundary, `search_forward` does not panic and moves forward to one. -/
lemma searchForward_isCharBoundary (w : String) (b k : Option Nat)
    (hb : isCharBoundary s p = true) :
    ∃ r q, searchForward s w b k p = .ok (r, q) ∧ isCharBoundary s q = true ∧ p ≤ q := by
  obtain ⟨j, -, rfl⟩ := isCharBoundary_iff.1 hb
  rw [searchForward_offsetOf]
  cases ho : ((matchIndices ⟨s.data.drop j⟩ w).map (· + offsetOf s j + len w))[k.getD 1 - 1]?
    with
  | none => exact ⟨_, _, rfl, hb, le_rfl⟩
  | some o =>
    have hmem := List.getElem?_mem ho
    obtain ⟨x, -, rfl⟩ := List.mem_map.1 hmem
    dsimp only
    split_ifs
    · exact ⟨_, _, rfl, isCharBoundary_of_mem_matchEnds w j hmem, by omega⟩
    · exact ⟨_, _, rfl, hb, le_rfl⟩

/-- The counted search of a non-empty literal is the iterated one: when the `k`-th match ends
at `e` within the bound, the search for the `k + 1`-th and a search for the first from `e`
return the same result `r`, each moving to it when there is one and staying where it started
otherwise.  For every literal, no `k`-th match means no `k + 1`-th. -/
theorem searchForward_count_succ (w : String) (b : Option Nat) {k : Nat} (hk : 1 ≤ k)
    (hb : isCharBoundary s p = true) :
    (w ≠ "" → ∀ e, searchForward s w b (some k) p = .ok (some e, e) →
      ∃ r, searchForward s w b (some (k + 1)) p = .ok (r, r.getD p) ∧
        searchForward s w b (some 1) e = .ok (r, r.getD e)) ∧
    (searchForward s w b (some k) p = .ok (none, p) →
      searchForward s w b (some (k + 1)) p = .ok (none, p)) := by
  obtain ⟨j, hj, rfl⟩ := isCharBoundary_iff.1 hb
  have hs := matchEnds_pairwise (s := s) w j
  simp only [searchForward_offsetOf w b _ j, Option.getD_some, Nat.add_sub_cancel,
    Except.ok.injEq]
  constructor
  · intro hw e he
    obtain ⟨x, hx⟩ : ∃ x, (matchPositions w.data (s.data.drop j) 0 0)[k - 1]? = some x := by
      cases hx : (matchPositions w.data (s.data.drop j) 0 0)[k - 1]? with
      | some x => exact ⟨x, rfl⟩
      | none => simp [matchIndices, List.getElem?_map, hx] at he
    obtain ⟨h1, h2⟩ := matchEnds_drop hw hx
    rw [h1] at he
    simp only [hk, true_and] at he
    split_ifs at he with hc
    · simp only [Prod.mk.injEq] at he
      obtain ⟨-, rfl⟩ := he
      rw [Nat.sub_add_cancel hk] at h2
      have hnext := List.getElem?_drop
        ((matchIndices ⟨s.data.drop j⟩ w).map (· + offsetOf s j + len w)) k 0
      rw [h2, Nat.add_zero] at hnext
      rw [searchForward_offsetOf w b _ (j + x + w.data.length)]
      simp only [Option.getD_some, Nat.sub_self, le_refl, true_and, hnext]
      cases ((matchIndices ⟨s.data.drop j⟩ w).map (· + offsetOf s j + len w))[k]? with
      | none => exact ⟨none, rfl, rfl⟩
      | some o =>
        by_cases ho : o ≤ b.getD (len s)
        · exact ⟨some o, by simp [hc.1, ho], by simpa [ho] using hc.2⟩
        · exact ⟨none, by simp [ho], by simp [ho]⟩
    · simp at he
  · intro hnone
    set E := (matchIndices ⟨s.data.drop j⟩ w).map (· + offsetOf s j + len w)
    cases hk1 : E[k]? with
    | none => rfl
    | some o' =>
      obtain ⟨hlt, -⟩ := List.getElem?_eq_some_iff.1 hk1
      have hk0 := List.getElem?_eq_getElem (show k - 1 < E.length by omega)
      have := lt_of_pairwise_getElem? hs (by omega) hk0 hk1
      rw [hk0] at hnone
      simp only [hk, true_and] at hnone
      dsimp only
      rw [if_neg]
      rintro ⟨hpb, -, ho'⟩
      rw [if_pos ⟨hpb, by omega⟩] at hnone
      simp at hnone

/-- The counted search is not the iterated one in two cases: for the empty literal the first
match is where a search starts, so a search from the end of the first match finds that end
again, not the second match; and for a non-empty literal with no next match, the counted search
stays where it started but the iterated one at the end of the previous match. -/
theorem searchForward_count_succ_fails :
    (searchForward "a" "" none (some 1) 0 = .ok (some 0, 0) ∧
      searchForward "a" "" none (some 2) 0 = .ok (some 1, 1)) ∧
    (searchForward "a" "a" none (some 1) 0 = .ok (some 1, 1) ∧
      searchForward "a" "a" none (some 2) 0 = .ok (none, 0) ∧
      searchForward "a" "a" none (some 1) 1 = .ok (none, 1)) := by
  decide

/-- In `"abab"` the first match of `"ab"` ends at `2`, and the second, found either way, at
`4`. -/
theorem searchForward_count_succ_on_abab :
    searchForward "abab" "ab" none (some 2) 0 = .ok (some 4, 4) ∧
      searchForward "abab" "ab" none (some 1) 2 = .ok (some 4, 4) := by
  obtain ⟨r, h1, h2⟩ := (searchForward_count_succ (s := "abab") "ab" none (k := 1) le_rfl
    (p := 0) (by decide)).1 (by decide) 2 (by decide)
  have h4 : searchForward "abab" "ab" none (some (1 + 1)) 0 = .ok (some 4, 4) := by decide
  rw [h4, Except.ok.injEq, Prod.mk.injEq] at h1
  obtain ⟨rfl, -⟩ := h1
  exact ⟨h4, h2⟩

/-! ### The first occurrence -/

/-- `search_forward` finds occurrences of the literal.  Whatever the count, an end it returns
is the end of an occurrence that starts at or after the cursor and ends within the bound; with
the default count it returns the least such end, and `None` exactly when there is none. -/
theorem searchForward_finds_first_occurrence (w : String) (b : Option Nat)
    (hb : isCharBoundary s p = true) :
    let ends := {e | ∃ a ≤ s.data.length, p ≤ offsetOf s a ∧ w.data <+: s.data.drop a ∧
      e = offsetOf s (a + w.data.length) ∧ e ≤ b.getD (len s)}
    (∀ k e, searchForward s w b k p = .ok (some e, e) → e ∈ ends) ∧
    ∃ r, searchForward s w b none p = .ok (r, r.getD p) ∧
      (∀ e, r = some e → IsLeast ends e) ∧ (r = none → ends = ∅) := by
  intro ends
  obtain ⟨j, hj, rfl⟩ := isCharBoundary_iff.1 hb
  -- the occurrences after `j`, counted from `j`, are the elements of `ends`
  have hmem : ∀ x, x ≤ (s.data.drop j).length → w.data <+: (s.data.drop j).drop x →
      offsetOf s (j + x + w.data.length) ≤ b.getD (len s) →
      offsetOf s (j + x + w.data.length) ∈ ends := fun x hx hpre hle =>
    ⟨j + x, by rw [List.length_drop] at hx; omega, offsetOf_mono (Nat.le_add_right _ _),
      by rwa [List.drop_drop] at hpre, rfl, hle⟩
  have hfrom : ∀ e ∈ ends, ∃ y, y ≤ (s.data.drop j).length ∧
      w.data <+: (s.data.drop j).drop y ∧ e = offsetOf s (j + y + w.data.length) := by
    rintro e ⟨a, ha, hpa, hpre, rfl, -⟩
    have hja : j ≤ a := (offsetOf_le_offsetOf_iff hj).1 hpa
    exact ⟨a - j, by rw [List.length_drop]; omega,
      by rwa [List.drop_drop, Nat.add_sub_cancel' hja], by rw [Nat.add_sub_cancel' hja]⟩
  refine ⟨fun k e he => ?_, ?_⟩
  · rw [searchForward_offsetOf, getElem?_matchEnds] at he
    cases hx : (matchPositions w.data (s.data.drop j) 0 0)[k.getD 1 - 1]? with
    | none => simp [hx] at he
    | some x =>
      simp only [hx, Option.map_some'] at he
      split_ifs at he with hc
      · obtain ⟨-, rfl⟩ := Prod.mk.inj (Except.ok.inj he)
        have hxm := List.getElem?_mem hx
        exact hmem x (by simpa using (matchPositions_bounds hxm).2)
          (by simpa using prefix_of_mem_matchPositions hxm) hc.2.2
      · simp at he
  rw [searchForward_offsetOf, getElem?_matchEnds]
  simp only [Option.getD_none, Nat.sub_self, ← List.head?_eq_getElem?]
  cases hx : (matchPositions w.data (s.data.drop j) 0 0).head? with
  | none =>
    refine ⟨none, rfl, fun _ h => (nomatch h), fun _ => Set.eq_empty_of_forall_not_mem ?_⟩
    intro e he
    obtain ⟨y, hy, hpre, -⟩ := hfrom e he
    exact (head?_matchPositions_eq_none _).1 hx y hy hpre
  | some x =>
    obtain ⟨⟨-, hxl, hxp⟩, hxmin⟩ := (head?_matchPositions _ 0 x).1 hx
    have hlow : ∀ e ∈ ends, offsetOf s (j + x + w.data.length) ≤ e := by
      intro e he
      obtain ⟨y, hy, hpre, rfl⟩ := hfrom e he
      have := hxmin ⟨Nat.zero_le y, by omega, by simpa using hpre⟩
      exact offsetOf_mono (by omega)
    simp only [Option.map_some']
    split_ifs with hc
    · refine ⟨_, rfl, fun e he => ?_, fun h => nomatch h⟩
      cases he
      exact ⟨hmem x (by simpa using hxl) (by simpa using hxp) hc.2.2, hlow⟩
    · refine ⟨none, rfl, fun _ h => (nomatch h), fun _ => Set.eq_empty_of_forall_not_mem ?_⟩
      intro e he
      have h1 := hlow e he
      obtain ⟨a, -, hpa, -, rfl, hle⟩ := he
      exact hc ⟨hpa.trans ((offsetOf_mono (Nat.le_add_right _ _)).trans hle), le_rfl, h1.trans hle⟩

/-- From `1` in `"abab"`, `search_forward` for `"ab"` moves to `4`, the end of the occurrence at
`2`, the one occurrence that starts after the cursor. -/
theorem searchForward_finds_first_occurrence_on_abab :
    searchForward "abab" "ab" none none 1 = .ok (some 4, 4) := by
  obtain ⟨-, r, hr, hsome, hnone⟩ :=
    searchForward_finds_first_occurrence (s := "abab") (p := 1) "ab" none (by decide)
  cases r with
  | none =>
    -- the occurrence at character `2` ends at `4`
    exact absurd (hnone rfl) fun h => Set.eq_empty_iff_forall_not_mem.1 h 4
      ⟨2, by decide, by decide, by decide, by decide, by decide⟩
  | some e =>
    obtain ⟨⟨a, ha, h1, h2, rfl, -⟩, -⟩ := hsome _ rfl
    have ha4 : a ≤ 4 := ha
    obtain rfl | rfl | rfl | rfl | rfl : a = 0 ∨ a = 1 ∨ a = 2 ∨ a = 3 ∨ a = 4 := by omega
    · exact absurd h1 (by decide)
    · exact absurd h2 (by decide)
    · exact hr
    · exact absurd h2 (by decide)
    · exact absurd h2 (by decide)

end SearchForward

end StrCursor

end OrgCursor
