import OrgCursor.Text.Utf8
import OrgCursor.Rust.Prim

/-!
# Strings, byte offsets and char boundaries

A `&str` is a Lean `String`: a list of characters, valid UTF-8 by construction, whose bytes
(`asBytes`) are the concatenated encodings of its characters.  `isCharBoundary` is
`str::is_char_boundary` as the standard library computes it, from the byte at the index.

The character view and the byte view are tied by `offsetOf s j`, the byte offset of the
`j`-th character:

* `isCharBoundary_iff`: the char boundaries are exactly the offsets `offsetOf s j`,
  `j ≤ s.data.length`;
* `dropBytes_offsetOf`, `charsIn_offsetOf`: a slice at char boundaries is a sublist of
  characters;
* `exists_offsetOf_of_newline`: a `0x0a` byte is a whole character `'\n'`.
-/

namespace OrgCursor

/-- `str::as_bytes`: the UTF-8 encoding of the string. -/
def asBytes (s : String) : List Nat := s.data.flatMap encodeUtf8

/-- `str::len`: the length of the string in bytes. -/
def len (s : String) : Nat := (asBytes s).length

/-- `str::is_char_boundary`: `index` is the first byte of a character, or the end of the
string. -/
def isCharBoundary (s : String) (index : Nat) : Bool :=
  index == 0 || match (asBytes s)[index]? with
    | none => index == len s
    | some b => isUtf8CharBoundary b

/-- The byte offset at which the `j`-th character of `s` starts, `len s` from the end on. -/
def offsetOf (s : String) (j : Nat) : Nat := len ⟨s.data.take j⟩

/-- The characters of `cs` that start at byte offset `a` or after it. -/
def dropBytes : List Char → Nat → List Char
  | cs, 0 => cs
  | [], _ + 1 => []
  | c :: cs, a + 1 => dropBytes cs (a + 1 - lenUtf8 c)

/-- The characters of `cs` that start before byte offset `b`. -/
def takeBytes : List Char → Nat → List Char
  | [], _ => []
  | _ :: _, 0 => []
  | c :: cs, b + 1 => c :: takeBytes cs (b + 1 - lenUtf8 c)

/-- The characters of `s[a..b]`. -/
def charsIn (s : String) (a b : Nat) : List Char := takeBytes (dropBytes s.data a) (b - a)

/-- `&s[a..]`, as its characters. -/
def sliceFrom (s : String) (a : Nat) : Except Panic (List Char) :=
  if isCharBoundary s a then .ok (dropBytes s.data a) else .error .strIndex

/-- `&s[a..b]`, as its characters. -/
def slice (s : String) (a b : Nat) : Except Panic (List Char) :=
  if a ≤ b ∧ isCharBoundary s a ∧ isCharBoundary s b then .ok (charsIn s a b)
  else .error .strIndex

/-! ### Bytes and offsets of a list of characters -/

section Offsets

variable {c : Char} {cs : List Char} {s : String} {i j : Nat}

@[simp] lemma asBytes_empty : asBytes "" = [] := rfl

@[simp] lemma asBytes_cons : asBytes ⟨c :: cs⟩ = encodeUtf8 c ++ asBytes ⟨cs⟩ :=
  List.flatMap_cons _ _ _

lemma asBytes_append (xs ys : List Char) : asBytes ⟨xs ++ ys⟩ = asBytes ⟨xs⟩ ++ asBytes ⟨ys⟩ :=
  List.flatMap_append _ _ _

@[simp] lemma len_empty : len "" = 0 := rfl

@[simp] lemma len_cons : len ⟨c :: cs⟩ = lenUtf8 c + len ⟨cs⟩ := by
  simp [len, lenUtf8]

lemma len_append (xs ys : List Char) : len ⟨xs ++ ys⟩ = len ⟨xs⟩ + len ⟨ys⟩ := by
  simp [len, asBytes_append]

@[simp] lemma offsetOf_zero : offsetOf s 0 = 0 := by simp [offsetOf]

@[simp] lemma offsetOf_empty : offsetOf "" j = 0 := by simp [offsetOf]

@[simp] lemma offsetOf_cons_succ : offsetOf ⟨c :: cs⟩ (j + 1) = lenUtf8 c + offsetOf ⟨cs⟩ j := by
  simp [offsetOf]

lemma offsetOf_of_length_le (h : s.data.length ≤ j) : offsetOf s j = len s := by
  simp [offsetOf, List.take_of_length_le h]

lemma offsetOf_length : offsetOf s s.data.length = len s := offsetOf_of_length_le le_rfl

lemma offsetOf_succ (h : j < s.data.length) :
    offsetOf s (j + 1) = offsetOf s j + lenUtf8 s.data[j] := by
  obtain ⟨cs⟩ := s
  induction cs generalizing j with
  | nil => simp at h
  | cons c cs ih =>
    cases j with
    | zero => simp
    | succ j =>
      simp only [offsetOf_cons_succ, List.length_cons] at h ⊢
      rw [ih (by simpa using h)]
      simp only [List.getElem_cons_succ]
      omega

/-- Offsets add up along a split of the characters. -/
lemma offsetOf_add (h : i ≤ j) : offsetOf s j = offsetOf s i + offsetOf ⟨s.data.drop i⟩ (j - i) := by
  obtain ⟨j, rfl⟩ := Nat.exists_eq_add_of_le h
  simp only [offsetOf, Nat.add_sub_cancel_left, ← len_append, List.take_add]

lemma offsetOf_drop_add (i j : Nat) : offsetOf ⟨s.data.drop i⟩ j + offsetOf s i = offsetOf s (i + j) := by
  rw [offsetOf_add (Nat.le_add_right i j), Nat.add_sub_cancel_left, Nat.add_comm]

/-- Past a prefix `w` of the characters from `i`, the offset grows by the length of `w`. -/
lemma offsetOf_add_of_prefix {w : String} (h : w.data <+: s.data.drop i) :
    offsetOf s (i + w.data.length) = offsetOf s i + len w := by
  rw [offsetOf_add (Nat.le_add_right _ _), Nat.add_sub_cancel_left]
  show _ + len ⟨(s.data.drop i).take w.data.length⟩ = _
  rw [← List.prefix_iff_eq_take.1 h]

lemma offsetOf_mono (h : i ≤ j) : offsetOf s i ≤ offsetOf s j := by
  rw [offsetOf_add h]
  omega

lemma offsetOf_le_len : offsetOf s j ≤ len s := by
  rcases le_or_lt j s.data.length with h | h
  · rw [← offsetOf_length]; exact offsetOf_mono h
  · rw [offsetOf_of_length_le h.le]

lemma offsetOf_lt_offsetOf (hij : i < j) (hj : j ≤ s.data.length) : offsetOf s i < offsetOf s j := by
  have hstep := offsetOf_succ (s := s) (j := i) (by omega)
  have := offsetOf_mono (s := s) (show i + 1 ≤ j by omega)
  have := lenUtf8_pos s.data[i]
  omega

lemma offsetOf_le_offsetOf_iff (hi : i ≤ s.data.length) : offsetOf s i ≤ offsetOf s j ↔ i ≤ j :=
  ⟨fun h => not_lt.1 fun hji => absurd h (not_le.2 (offsetOf_lt_offsetOf hji hi)), offsetOf_mono⟩

lemma offsetOf_lt_len (h : j < s.data.length) : offsetOf s j < len s :=
  offsetOf_length (s := s) ▸ offsetOf_lt_offsetOf h le_rfl

lemma lt_length_of_offsetOf_lt_len (h : offsetOf s j < len s) : j < s.data.length :=
  not_le.1 fun hj => by rw [offsetOf_of_length_le hj] at h; exact lt_irrefl _ h

/-- Every character takes at least one byte. -/
lemma le_offsetOf (h : j ≤ s.data.length) : j ≤ offsetOf s j := by
  induction j with
  | zero => exact le_rfl
  | succ j ih =>
    rw [offsetOf_succ (by omega)]
    have := lenUtf8_pos s.data[j]
    have := ih (by omega)
    omega

lemma length_le_len : s.data.length ≤ len s := offsetOf_length (s := s) ▸ le_offsetOf le_rfl

/-- Between the offsets of two characters lie at least as many bytes as characters. -/
lemma offsetOf_add_sub_le (hij : i ≤ j) (hj : j ≤ s.data.length) :
    offsetOf s i + (j - i) ≤ offsetOf s j := by
  have := le_offsetOf (s := ⟨s.data.drop i⟩) (j := j - i)
    (show j - i ≤ (s.data.drop i).length by rw [List.length_drop]; omega)
  rw [offsetOf_add hij]
  omega

end Offsets

/-! ### Char boundaries -/

section Boundary

variable {c : Char} {cs : List Char} {s : String} {i : Nat}

@[simp] lemma isCharBoundary_zero : isCharBoundary s 0 = true := rfl

lemma isUtf8CharBoundary_of_getElem?_zero {b : Nat} (h : (asBytes ⟨cs⟩)[0]? = some b) :
    isUtf8CharBoundary b = true := by
  cases cs with
  | nil => simp at h
  | cons c cs =>
    obtain ⟨b', rest, he, -⟩ := encodeUtf8_shape c
    simp only [asBytes_cons, he, List.cons_append, List.getElem?_cons_zero, Option.some.injEq] at h
    exact h ▸ isUtf8CharBoundary_of_encodeUtf8 he

lemma isCharBoundary_cons_of_lt (h0 : 0 < i) (h : i < lenUtf8 c) :
    isCharBoundary ⟨c :: cs⟩ i = false := by
  obtain ⟨b, rest, he, -⟩ := encodeUtf8_shape c
  obtain ⟨i, rfl⟩ : ∃ i', i = i' + 1 := ⟨i - 1, by omega⟩
  have hi : i < rest.length := by simp only [lenUtf8, he, List.length_cons] at h; omega
  have hget : (asBytes ⟨c :: cs⟩)[i + 1]? = some rest[i] := by
    simp [he, List.getElem?_append_left hi]
  have hx := not_isUtf8CharBoundary_of_mem he (List.getElem_mem hi)
  rw [isCharBoundary, hget]
  simpa using hx

lemma isCharBoundary_cons_of_le (h : lenUtf8 c ≤ i) :
    isCharBoundary ⟨c :: cs⟩ i = isCharBoundary ⟨cs⟩ (i - lenUtf8 c) := by
  have hpos := lenUtf8_pos c
  have hget : (asBytes ⟨c :: cs⟩)[i]? = (asBytes ⟨cs⟩)[i - lenUtf8 c]? :=
    List.getElem?_append_right h
  simp only [isCharBoundary, hget, len_cons]
  have h1 : (i == 0) = false := by simp; omega
  rw [h1, Bool.false_or]
  rcases Nat.eq_or_lt_of_le h with heq | hlt
  · subst heq
    rw [Nat.sub_self]
    cases hb : (asBytes ⟨cs⟩)[0]? with
    | none =>
      have : len ⟨cs⟩ = 0 := by simpa [len] using hb
      simp [this]
    | some b => simpa using isUtf8CharBoundary_of_getElem?_zero hb
  · have h2 : (i - lenUtf8 c == 0) = false := by simp; omega
    rw [h2, Bool.false_or]
    cases (asBytes ⟨cs⟩)[i - lenUtf8 c]? with
    | none => rw [Bool.eq_iff_iff]; simp only [beq_iff_eq]; omega
    | some b => rfl

/-- The char boundaries of a string are the offsets of its characters and its end. -/
theorem isCharBoundary_iff : isCharBoundary s i = true ↔ ∃ j ≤ s.data.length, offsetOf s j = i := by
  obtain ⟨cs⟩ := s
  induction cs generalizing i with
  | nil =>
    have hb : isCharBoundary ⟨[]⟩ i = (i == 0) := by cases i <;> rfl
    rw [hb, beq_iff_eq]
    constructor
    · rintro rfl
      exact ⟨0, le_rfl, rfl⟩
    · rintro ⟨j, hj, rfl⟩
      obtain rfl : j = 0 := Nat.le_zero.1 hj
      rfl
  | cons c cs ih =>
    rcases Nat.eq_zero_or_pos i with rfl | hi
    · exact ⟨fun _ => ⟨0, Nat.zero_le _, rfl⟩, fun _ => rfl⟩
    rcases lt_or_le i (lenUtf8 c) with hlt | hle
    · simp only [isCharBoundary_cons_of_lt hi hlt, Bool.false_eq_true, false_iff, not_exists,
        not_and]
      rintro (_ | j) - hj
      · simp at hj; omega
      · simp at hj; omega
    · rw [isCharBoundary_cons_of_le hle, ih]
      constructor
      · rintro ⟨j, hj, hoff⟩
        exact ⟨j + 1, by simpa using hj, by simp only [offsetOf_cons_succ]; omega⟩
      · rintro ⟨_ | j, hj, hoff⟩
        · simp at hoff; omega
        · exact ⟨j, by simpa using hj, by simp only [offsetOf_cons_succ] at hoff; omega⟩

lemma isCharBoundary_offsetOf (j : Nat) : isCharBoundary s (offsetOf s j) = true := by
  rcases le_or_lt j s.data.length with h | h
  · exact isCharBoundary_iff.2 ⟨j, h, rfl⟩
  · rw [offsetOf_of_length_le h.le, ← offsetOf_length]
    exact isCharBoundary_iff.2 ⟨_, le_rfl, rfl⟩

lemma le_len_of_isCharBoundary (h : isCharBoundary s i = true) : i ≤ len s := by
  obtain ⟨j, -, rfl⟩ := isCharBoundary_iff.1 h
  exact offsetOf_le_len

lemma isCharBoundary_len : isCharBoundary s (len s) = true :=
  offsetOf_length (s := s) ▸ isCharBoundary_offsetOf _

/-- Inside the text, an offset that is not a char boundary holds a continuation byte. -/
lemma continuation_of_not_isCharBoundary (hb : isCharBoundary s i = false) (hi : i ≤ len s) :
    ∃ b, (asBytes s)[i]? = some b ∧ 0x80 ≤ b ∧ b < 0xc0 := by
  simp only [isCharBoundary, Bool.or_eq_false_iff] at hb
  obtain ⟨-, hb⟩ := hb
  cases hget : (asBytes s)[i]? with
  | none =>
    rw [hget, beq_eq_false_iff_ne] at hb
    exact absurd (le_antisymm hi (by simpa [len] using List.getElem?_eq_none_iff.1 hget)) hb
  | some b =>
    rw [hget] at hb
    simp only [isUtf8CharBoundary, Bool.or_eq_false_iff, decide_eq_false_iff_not] at hb
    exact ⟨b, rfl, by omega, by omega⟩

end Boundary

/-! ### Slices -/

section Slices

variable {cs : List Char} {s : String} {i j : Nat}

lemma dropBytes_cons_of_pos {c : Char} {a : Nat} (h : 0 < a) :
    dropBytes (c :: cs) a = dropBytes cs (a - lenUtf8 c) := by
  obtain ⟨a, rfl⟩ := Nat.exists_eq_add_of_lt h
  rfl

lemma takeBytes_cons_of_pos {c : Char} {b : Nat} (h : 0 < b) :
    takeBytes (c :: cs) b = c :: takeBytes cs (b - lenUtf8 c) := by
  obtain ⟨b, rfl⟩ := Nat.exists_eq_add_of_lt h
  rfl

lemma dropBytes_offsetOf (j : Nat) : dropBytes s.data (offsetOf s j) = s.data.drop j := by
  obtain ⟨cs⟩ := s
  induction cs generalizing j with
  | nil => cases j <;> simp [dropBytes]
  | cons c cs ih =>
    cases j with
    | zero => simp [dropBytes]
    | succ j =>
      rw [offsetOf_cons_succ, dropBytes_cons_of_pos (by have := lenUtf8_pos c; omega)]
      simpa using ih j

lemma takeBytes_offsetOf (j : Nat) : takeBytes s.data (offsetOf s j) = s.data.take j := by
  obtain ⟨cs⟩ := s
  induction cs generalizing j with
  | nil => simp [takeBytes]
  | cons c cs ih =>
    cases j with
    | zero => cases cs <;> simp [takeBytes]
    | succ j =>
      rw [offsetOf_cons_succ, takeBytes_cons_of_pos (by have := lenUtf8_pos c; omega),
        Nat.add_sub_cancel_left]
      simpa using ih j

lemma charsIn_offsetOf (hij : i ≤ j) :
    charsIn s (offsetOf s i) (offsetOf s j) = (s.data.drop i).take (j - i) := by
  rw [charsIn, dropBytes_offsetOf, offsetOf_add hij, Nat.add_sub_cancel_left]
  exact takeBytes_offsetOf (s := ⟨s.data.drop i⟩) _

lemma charsIn_to_len (j : Nat) (hj : j ≤ s.data.length) :
    charsIn s (offsetOf s j) (len s) = s.data.drop j := by
  rw [← offsetOf_length, charsIn_offsetOf hj, List.take_of_length_le (by simp)]

lemma mem_charsIn_offsetOf {d : Char} (hij : i ≤ j) :
    d ∈ charsIn s (offsetOf s i) (offsetOf s j) ↔ ∃ m, i ≤ m ∧ m < j ∧ s.data[m]? = some d := by
  rw [charsIn_offsetOf hij, List.mem_iff_getElem?]
  simp only [List.getElem?_take, List.getElem?_drop]
  constructor
  · rintro ⟨k, hk⟩
    split_ifs at hk with h
    exact ⟨i + k, by omega, by omega, hk⟩
  · rintro ⟨m, h1, h2, hm⟩
    exact ⟨m - i, by rw [if_pos (by omega), Nat.add_sub_cancel' h1, hm]⟩

lemma length_charsIn_offsetOf (hij : i ≤ j) (hj : j ≤ s.data.length) :
    (charsIn s (offsetOf s i) (offsetOf s j)).length = j - i := by
  rw [charsIn_offsetOf hij, List.length_take, List.length_drop]
  omega

lemma offsetOf_take {k m : Nat} (h : m ≤ k) : offsetOf ⟨s.data.take k⟩ m = offsetOf s m := by
  simp only [offsetOf, List.take_take, min_eq_left h]

/-- A character boundary of the slice `s[offsetOf s i..offsetOf s j]`, shifted by its start, is
one of `s` within the slice. -/
lemma isCharBoundary_add_of_charsIn {b : Nat} (hij : i ≤ j)
    (hb : isCharBoundary ⟨charsIn s (offsetOf s i) (offsetOf s j)⟩ b = true) :
    isCharBoundary s (offsetOf s i + b) = true ∧ offsetOf s i + b ≤ offsetOf s j := by
  rw [charsIn_offsetOf hij] at hb
  obtain ⟨m, hm, rfl⟩ := isCharBoundary_iff.1 hb
  simp only [List.length_take, List.length_drop] at hm
  rw [offsetOf_take (by omega), Nat.add_comm, offsetOf_drop_add]
  exact ⟨isCharBoundary_offsetOf _, offsetOf_mono (by omega)⟩

@[simp] lemma sliceFrom_offsetOf (j : Nat) : sliceFrom s (offsetOf s j) = .ok (s.data.drop j) := by
  simp [sliceFrom, isCharBoundary_offsetOf, dropBytes_offsetOf]

lemma slice_of_isCharBoundary {a b : Nat} (hab : a ≤ b) (ha : isCharBoundary s a = true)
    (hb : isCharBoundary s b = true) : slice s a b = .ok (charsIn s a b) := by
  simp [slice, hab, ha, hb]

end Slices

/-- A `0x0a` byte is a whole character `'\n'`. -/
lemma exists_offsetOf_of_newline {s : String} {k : Nat} (h : (asBytes s)[k]? = some 0x0a) :
    ∃ j < s.data.length, s.data[j]? = some '\n' ∧ offsetOf s j = k := by
  obtain ⟨cs⟩ := s
  induction cs generalizing k with
  | nil => simp at h
  | cons c cs ih =>
    rcases lt_or_le k (lenUtf8 c) with hk | hk
    · rw [asBytes_cons, List.getElem?_append_left hk] at h
      have hc := mem_encodeUtf8_newline.1 (List.getElem?_mem h)
      subst hc
      have : k = 0 := by simpa [lenUtf8, encodeUtf8_newline] using hk
      exact ⟨0, by simp, by simp, by simp [this]⟩
    · rw [asBytes_cons, List.getElem?_append_right hk] at h
      obtain ⟨j, hj, hc, hoff⟩ := ih h
      refine ⟨j + 1, by simpa using hj, by simpa using hc, ?_⟩
      simp only [offsetOf_cons_succ, lenUtf8] at hoff hk ⊢
      omega

end OrgCursor
