import Mathlib.Data.List.Basic

/-!
# UTF-8 octets

Every offset the cursor of `cursor.rs` handles is a byte offset into the UTF-8 encoding of
its text, and its metrics read that encoding byte by byte (`as_bytes()[offset]`, `memchr`).
This file gives the encoding of one character, transcribed from RFC 3629 §3, with octets as
natural numbers, and the two facts about it that the rest of the development uses:

* `encodeUtf8_shape`: an encoding is a first octet, whose high bits give the length of the
  sequence, followed by continuation octets `0x80 ≤ b < 0xc0`;
* `mem_encodeUtf8_newline`: the octet `0x0a` occurs only in the encoding of `'\n'`.
-/

namespace OrgCursor

/-- The UTF-8 encoding of a character (RFC 3629 §3), octets as numbers. -/
def encodeUtf8 (c : Char) : List Nat :=
  let v := c.toNat
  if v < 0x80 then [v]
  else if v < 0x800 then [0xc0 + v / 0x40, 0x80 + v % 0x40]
  else if v < 0x10000 then [0xe0 + v / 0x1000, 0x80 + v / 0x40 % 0x40, 0x80 + v % 0x40]
  else [0xf0 + v / 0x40000, 0x80 + v / 0x1000 % 0x40, 0x80 + v / 0x40 % 0x40, 0x80 + v % 0x40]

/-- `char::len_utf8`: the number of octets of a character's encoding. -/
def lenUtf8 (c : Char) : Nat := (encodeUtf8 c).length

/-- `u8::is_utf8_char_boundary`: the octet does not continue a character
(`b as i8 >= -0x40`). -/
def isUtf8CharBoundary (b : Nat) : Bool := b < 0x80 || 0xc0 ≤ b

lemma toNat_lt_of_char (c : Char) : c.toNat < 0x110000 := by
  have h := c.valid
  simp only [UInt32.isValidChar, Nat.isValidChar] at h
  show c.val.toNat < _
  omega

/-- An encoding is a first octet whose high bits give the length of the sequence, followed by
continuation octets. -/
lemma encodeUtf8_shape (c : Char) :
    ∃ b rest, encodeUtf8 c = b :: rest ∧ (∀ x ∈ rest, 0x80 ≤ x ∧ x < 0xc0) ∧
      ((rest = [] ∧ b < 0x80) ∨ (rest.length = 1 ∧ 0xc0 ≤ b ∧ b < 0xe0) ∨
        (rest.length = 2 ∧ 0xe0 ≤ b ∧ b < 0xf0) ∨ (rest.length = 3 ∧ 0xf0 ≤ b ∧ b < 0xf8)) := by
  have hv := toNat_lt_of_char c
  dsimp only [encodeUtf8]
  split_ifs with h1 h2 h3
  · exact ⟨_, [], rfl, by simp, .inl ⟨rfl, h1⟩⟩
  · refine ⟨_, _, rfl, ?_, .inr (.inl ⟨rfl, by omega, by omega⟩)⟩
    simp only [List.mem_singleton, forall_eq]
    omega
  · refine ⟨_, _, rfl, ?_, .inr (.inr (.inl ⟨rfl, by omega, by omega⟩))⟩
    simp only [List.mem_cons, List.mem_singleton, List.not_mem_nil, or_false, forall_eq_or_imp,
      forall_eq]
    omega
  · refine ⟨_, _, rfl, ?_, .inr (.inr (.inr ⟨rfl, by omega, by omega⟩))⟩
    simp only [List.mem_cons, List.mem_singleton, List.not_mem_nil, or_false, forall_eq_or_imp,
      forall_eq]
    omega

lemma encodeUtf8_ne_nil (c : Char) : encodeUtf8 c ≠ [] := by
  obtain ⟨b, rest, h, -⟩ := encodeUtf8_shape c
  simp [h]

lemma lenUtf8_pos (c : Char) : 0 < lenUtf8 c := by
  have := encodeUtf8_ne_nil c
  unfold lenUtf8
  cases h : encodeUtf8 c <;> simp_all

lemma lenUtf8_le_four (c : Char) : lenUtf8 c ≤ 4 := by
  obtain ⟨b, rest, h, -, hb⟩ := encodeUtf8_shape c
  simp only [lenUtf8, h, List.length_cons]
  rcases hb with ⟨rfl, -⟩ | ⟨hl, -⟩ | ⟨hl, -⟩ | ⟨hl, -⟩
  · simp
  all_goals omega

/-- The first octet of an encoding starts a character. -/
lemma isUtf8CharBoundary_of_encodeUtf8 {c : Char} {b : Nat} {rest : List Nat}
    (h : encodeUtf8 c = b :: rest) : isUtf8CharBoundary b = true := by
  obtain ⟨b', rest', h', -, hb⟩ := encodeUtf8_shape c
  rw [h] at h'
  obtain ⟨rfl, rfl⟩ := List.cons.inj h'
  simp only [isUtf8CharBoundary, Bool.or_eq_true, decide_eq_true_eq]
  omega

/-- The later octets of an encoding continue it. -/
lemma not_isUtf8CharBoundary_of_mem {c : Char} {b x : Nat} {rest : List Nat}
    (h : encodeUtf8 c = b :: rest) (hx : x ∈ rest) : isUtf8CharBoundary x = false := by
  obtain ⟨b', rest', h', hcont, -⟩ := encodeUtf8_shape c
  rw [h] at h'
  obtain ⟨rfl, rfl⟩ := List.cons.inj h'
  have := hcont x hx
  simp only [isUtf8CharBoundary, Bool.or_eq_false_iff, decide_eq_false_iff_not]
  omega

lemma encodeUtf8_newline : encodeUtf8 '\n' = [0x0a] := rfl

/-- The octet `0x0a` occurs only in the encoding of `'\n'`. -/
lemma mem_encodeUtf8_newline {c : Char} : 0x0a ∈ encodeUtf8 c ↔ c = '\n' := by
  refine ⟨fun h => ?_, fun h => by simp [h, encodeUtf8_newline]⟩
  dsimp only [encodeUtf8] at h
  split_ifs at h
  · simp only [List.mem_singleton] at h
    exact Char.ext (UInt32.toNat.inj (h.symm.trans rfl))
  all_goals simp only [List.mem_cons, List.mem_singleton, List.not_mem_nil, or_false] at h; omega

end OrgCursor
