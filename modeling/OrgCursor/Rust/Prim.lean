import Mathlib.Data.List.Basic
import Mathlib.Algebra.Group.Int

/-!
# Rust primitives in a debug build

The cursor is modelled as its debug build runs it, the build its tests run in: a slice or an
index out of range panics, so does `usize` and `i32` arithmetic that overflows, and so does a
failed `debug_assert!`.  A fallible computation returns `Except Panic`, and a panic is named
by the message Rust prints for it.
-/

namespace OrgCursor

/-- A panic of the program, by the message it prints. -/
inductive Panic where
  /-- `index out of bounds` / `range end index out of range for slice`: an index or a slice
  of `as_bytes()` past its end. -/
  | indexOutOfBounds
  /-- `byte index is not a char boundary` / `begin <= end`: a `&str` slice whose ends are not
  char boundaries in order. -/
  | strIndex
  /-- `attempt to subtract with overflow`. -/
  | subOverflow
  /-- `attempt to negate with overflow`: `abs` of the least `i32`. -/
  | negOverflow
  /-- A failed `debug_assert!`, with its message. -/
  | assertFailed (msg : String)
  deriving DecidableEq, Repr

/-- Results compare by value, so that a run on a concrete input can be decided. -/
instance decidableEqExcept {ε α : Type} [DecidableEq ε] [DecidableEq α] :
    DecidableEq (Except ε α)
  | .ok a, .ok b => decidable_of_iff (a = b) (by simp)
  | .error a, .error b => decidable_of_iff (a = b) (by simp)
  | .ok _, .error _ => isFalse Except.noConfusion
  | .error _, .ok _ => isFalse Except.noConfusion

@[simp] lemma ok_bind {ε α β : Type} (a : α) (f : α → Except ε β) :
    (Except.ok a >>= f) = f a := rfl

@[simp] lemma error_bind {ε α β : Type} (e : ε) (f : α → Except ε β) :
    (Except.error e >>= f) = .error e := rfl

@[simp] lemma pure_eq_ok {ε α : Type} (a : α) : (pure a : Except ε α) = .ok a := rfl

/-- `a - b` on `usize`. -/
def usizeSub (a b : Nat) : Except Panic Nat :=
  if b ≤ a then .ok (a - b) else .error .subOverflow

@[simp] lemma usizeSub_of_le {a b : Nat} (h : b ≤ a) : usizeSub a b = .ok (a - b) := if_pos h

/-- `bytes[i]`. -/
def byteAt (bytes : List Nat) (i : Nat) : Except Panic Nat :=
  match bytes[i]? with
  | some b => .ok b
  | none => .error .indexOutOfBounds

/-- `&bytes[a..]`. -/
def bytesFrom (bytes : List Nat) (a : Nat) : Except Panic (List Nat) :=
  if a ≤ bytes.length then .ok (bytes.drop a) else .error .indexOutOfBounds

/-- `&bytes[..b]`. -/
def bytesTo (bytes : List Nat) (b : Nat) : Except Panic (List Nat) :=
  if b ≤ bytes.length then .ok (bytes.take b) else .error .indexOutOfBounds

lemma byteAt_of_lt {bytes : List Nat} {i : Nat} (h : i < bytes.length) :
    byteAt bytes i = .ok bytes[i] := by
  simp [byteAt, List.getElem?_eq_getElem h]

@[simp] lemma bytesFrom_of_le {bytes : List Nat} {a : Nat} (h : a ≤ bytes.length) :
    bytesFrom bytes a = .ok (bytes.drop a) := if_pos h

@[simp] lemma bytesTo_of_le {bytes : List Nat} {b : Nat} (h : b ≤ bytes.length) :
    bytesTo bytes b = .ok (bytes.take b) := if_pos h

/-- An `i32`. -/
structure I32 where
  /-- The value. -/
  val : Int
  min_le : -2 ^ 31 ≤ val
  lt_max : val < 2 ^ 31
  deriving DecidableEq

namespace I32

/-- `i32::MIN`. -/
def MIN : I32 := ⟨-2 ^ 31, by decide, by decide⟩

/-- The `i32` one. -/
def one : I32 := ⟨1, by decide, by decide⟩

@[simp] lemma MIN_val : MIN.val = -2 ^ 31 := rfl

@[simp] lemma one_val : one.val = 1 := rfl

lemma val_ne_of_ne_MIN {x : I32} (h : x ≠ MIN) : x.val ≠ -2 ^ 31 := fun hv =>
  h (by cases x; simp_all [MIN])

/-- An integer in range, as an `i32`. -/
def ofInt (v : Int) (h : -2 ^ 31 ≤ v ∧ v < 2 ^ 31 := by decide) : I32 := ⟨v, h.1, h.2⟩

/-- `x - y`. -/
def sub (x y : I32) : Except Panic I32 :=
  if h : -2 ^ 31 ≤ x.val - y.val ∧ x.val - y.val < 2 ^ 31 then .ok ⟨_, h.1, h.2⟩
  else .error .subOverflow

/-- `i32::abs`: the absolute value, which overflows on `i32::MIN` alone. -/
def abs (x : I32) : Except Panic I32 :=
  if h : x.val = -2 ^ 31 then .error .negOverflow
  else .ok ⟨x.val.natAbs, by have := x.min_le; omega, by have := x.lt_max; have := x.min_le; omega⟩

lemma sub_one_of_ne_MIN {x : I32} (h : x ≠ MIN) :
    ∃ y : I32, x.sub one = .ok y ∧ y.val = x.val - 1 := by
  have hx := val_ne_of_ne_MIN h
  have := x.min_le
  have := x.lt_max
  exact ⟨_, dif_pos ⟨by simp only [one_val]; omega, by simp only [one_val]; omega⟩, rfl⟩

lemma abs_of_ne {x : I32} (h : x.val ≠ -2 ^ 31) :
    ∃ y : I32, x.abs = .ok y ∧ y.val = x.val.natAbs :=
  ⟨_, dif_neg h, rfl⟩

end I32

end OrgCursor
