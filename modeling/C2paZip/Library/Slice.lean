import Mathlib.Data.List.Basic
import Mathlib.Tactic.Common

/-!
# Slices and in-place writes

`slice xs pos n` is the `n` elements of `xs` from position `pos`, `getRange` the checked half-open
range of a slice, and `overwrite xs pos ys` writes `ys` over the elements from `pos` on. The lemmas
say how the three move through concatenations and through each other; a write leaves every slice
that it does not meet unchanged (`slice_overwrite_of_disjoint`).
-/

set_option autoImplicit false

namespace C2paZip.Library

universe u

variable {α : Type u}

/-- The `n` elements of `xs` from position `pos`; shorter where `xs` ends before `pos + n`. -/
def slice (xs : List α) (pos n : Nat) : List α := (xs.drop pos).take n

/-- The checked range `a..b` of a list. -/
def getRange (xs : List α) (a b : Nat) : Option (List α) :=
  if a ≤ b ∧ b ≤ xs.length then some (slice xs a (b - a)) else none

/-- `xs` with `ys` written over the elements from `pos` on. -/
def overwrite (xs : List α) (pos : Nat) (ys : List α) : List α :=
  xs.take pos ++ (ys ++ xs.drop (pos + ys.length))

/-! ## Slices -/

theorem length_slice_le (xs : List α) (pos n : Nat) : (slice xs pos n).length ≤ n :=
  List.length_take_le n _

theorem length_slice {xs : List α} {pos n : Nat} (h : pos + n ≤ xs.length) :
    (slice xs pos n).length = n := by
  simp only [slice, List.length_take, List.length_drop]
  omega

/-- A slice that has its full length lies inside the list, unless it is empty. -/
theorem add_le_of_length_slice {xs : List α} {pos n : Nat} (hn : 0 < n)
    (h : (slice xs pos n).length = n) : pos + n ≤ xs.length := by
  simp only [slice, List.length_take, List.length_drop] at h
  omega

@[simp] theorem slice_zero (xs : List α) (pos : Nat) : slice xs pos 0 = [] := by
  simp [slice]

theorem slice_self (xs : List α) : slice xs 0 xs.length = xs := by
  simp [slice]

theorem slice_append_left {xs ys : List α} {pos n : Nat} (h : pos + n ≤ xs.length) :
    slice (xs ++ ys) pos n = slice xs pos n := by
  simp only [slice]
  rw [List.drop_append_of_le_length (by omega),
    List.take_append_of_le_length (by rw [List.length_drop]; omega)]

theorem slice_append_right (xs ys : List α) (pos n : Nat) :
    slice (xs ++ ys) (xs.length + pos) n = slice ys pos n := by
  rw [slice, ← List.drop_drop, List.drop_left, slice]

theorem slice_append_of_le {xs ys : List α} {pos : Nat} (n : Nat) (h : xs.length ≤ pos) :
    slice (xs ++ ys) pos n = slice ys (pos - xs.length) n := by
  obtain ⟨k, rfl⟩ := Nat.exists_eq_add_of_le h
  rw [slice_append_right, Nat.add_sub_cancel_left]

/-- The front block of a concatenation. -/
theorem slice_append_zero (xs ys : List α) : slice (xs ++ ys) 0 xs.length = xs := by
  rw [slice_append_left (by omega), slice_self]

/-- The front of the second part of a concatenation. -/
theorem slice_append_length (xs ys : List α) (n : Nat) :
    slice (xs ++ ys) xs.length n = slice ys 0 n :=
  slice_append_right xs ys 0 n

/-- The middle block of a concatenation. -/
theorem slice_append_middle (xs ys zs : List α) :
    slice (xs ++ (ys ++ zs)) xs.length ys.length = ys := by
  rw [slice_append_length, slice_append_zero]

theorem slice_slice {xs : List α} {pos n i m : Nat} (h : i + m ≤ n) :
    slice (slice xs pos n) i m = slice xs (pos + i) m := by
  simp only [slice, List.drop_take, List.take_take, List.drop_drop]
  congr 1
  omega

theorem slice_add (xs : List α) (pos m n : Nat) :
    slice xs pos (m + n) = slice xs pos m ++ slice xs (pos + m) n := by
  simp [slice, List.take_add, List.drop_drop]

/-- A slice followed by what stands behind it. -/
theorem slice_append_drop (xs : List α) (pos n : Nat) :
    slice xs pos n ++ xs.drop (pos + n) = xs.drop pos := by
  rw [slice, ← List.drop_drop, List.take_append_drop]

theorem slice_drop (xs : List α) (k pos n : Nat) :
    slice (xs.drop k) pos n = slice xs (k + pos) n := by
  rw [slice, List.drop_drop, slice]

theorem slice_eq_take (xs : List α) (n : Nat) : slice xs 0 n = xs.take n := by
  simp [slice]

theorem getElem?_slice {xs : List α} {pos n i : Nat} (h : i < n) :
    (slice xs pos n)[i]? = xs[pos + i]? := by
  simp [slice, h]

/-- Two lists with equal elements from `pos` on up to `pos + n` have equal slices there. -/
theorem slice_congr {xs ys : List α} {pos n : Nat}
    (h : ∀ i, pos ≤ i → i < pos + n → xs[i]? = ys[i]?) : slice xs pos n = slice ys pos n := by
  apply List.ext_getElem?
  intro i
  by_cases hi : i < n
  · rw [getElem?_slice hi, getElem?_slice hi]
    exact h _ (by omega) (by omega)
  · rw [List.getElem?_eq_none, List.getElem?_eq_none]
    · exact Nat.le_trans (length_slice_le _ _ _) (by omega)
    · exact Nat.le_trans (length_slice_le _ _ _) (by omega)

theorem getRange_eq_some {xs ys : List α} {a b : Nat} :
    getRange xs a b = some ys ↔ a ≤ b ∧ b ≤ xs.length ∧ slice xs a (b - a) = ys := by
  unfold getRange
  by_cases h : a ≤ b ∧ b ≤ xs.length
  · simp [h]
  · simp only [h, if_false, reduceCtorEq, false_iff]
    rintro ⟨h1, h2, -⟩
    exact h ⟨h1, h2⟩

/-! ## Writes -/

theorem length_overwrite {xs ys : List α} {pos : Nat} (h : pos + ys.length ≤ xs.length) :
    (overwrite xs pos ys).length = xs.length := by
  simp only [overwrite, List.length_append, List.length_take, List.length_drop]
  omega

theorem overwrite_append_left {xs ys zs : List α} {pos : Nat} (h : pos + zs.length ≤ xs.length) :
    overwrite (xs ++ ys) pos zs = overwrite xs pos zs ++ ys := by
  simp only [overwrite, List.append_assoc]
  rw [List.take_append_of_le_length (by omega), List.drop_append_of_le_length h]

theorem overwrite_append_right (xs ys zs : List α) (pos : Nat) :
    overwrite (xs ++ ys) (xs.length + pos) zs = xs ++ overwrite ys pos zs := by
  rw [overwrite, Nat.add_assoc, ← List.drop_drop, List.drop_left, List.take_length_add_append,
    List.append_assoc, overwrite]

theorem overwrite_append_of_le {xs ys : List α} {pos : Nat} (zs : List α) (h : xs.length ≤ pos) :
    overwrite (xs ++ ys) pos zs = xs ++ overwrite ys (pos - xs.length) zs := by
  obtain ⟨k, rfl⟩ := Nat.exists_eq_add_of_le h
  rw [overwrite_append_right, Nat.add_sub_cancel_left]

/-- Writing over the front block of a concatenation. -/
theorem overwrite_append_zero {xs zs : List α} (ys : List α) (h : zs.length = xs.length) :
    overwrite (xs ++ ys) 0 zs = zs ++ ys := by
  rw [overwrite, List.take_zero, List.nil_append, Nat.zero_add, h, List.drop_left]

theorem slice_overwrite_self {xs ys : List α} {pos : Nat} (h : pos ≤ xs.length) :
    slice (overwrite xs pos ys) pos ys.length = ys := by
  have hl : (xs.take pos).length = pos := List.length_take_of_le h
  have hs := slice_append_middle (xs.take pos) ys (xs.drop (pos + ys.length))
  rwa [hl] at hs

theorem slice_overwrite_before {xs ys : List α} {pos p n : Nat} (h : pos ≤ xs.length)
    (hp : p + n ≤ pos) : slice (overwrite xs pos ys) p n = slice xs p n := by
  have hl : (xs.take pos).length = pos := List.length_take_of_le h
  rw [overwrite, slice_append_left (by omega), ← slice_eq_take, slice_slice (by omega),
    Nat.zero_add]

theorem slice_overwrite_after {xs ys : List α} {pos p : Nat} (n : Nat) (h : pos ≤ xs.length)
    (hp : pos + ys.length ≤ p) : slice (overwrite xs pos ys) p n = slice xs p n := by
  have hl : (xs.take pos).length = pos := List.length_take_of_le h
  rw [overwrite, slice_append_of_le _ (by omega), slice_append_of_le _ (by omega), slice,
    List.drop_drop, slice]
  congr 2
  omega

/-- A write leaves every slice that it does not meet unchanged. -/
theorem slice_overwrite_of_disjoint {xs ys : List α} {pos p n : Nat} (h : pos ≤ xs.length)
    (hp : p + n ≤ pos ∨ pos + ys.length ≤ p) : slice (overwrite xs pos ys) p n = slice xs p n := by
  rcases hp with hp | hp
  · exact slice_overwrite_before h hp
  · exact slice_overwrite_after n h hp

/-- A second write to the same place covers the first. -/
theorem overwrite_overwrite {xs ys zs : List α} {pos : Nat} (h : pos ≤ xs.length)
    (hlen : zs.length = ys.length) :
    overwrite (overwrite xs pos ys) pos zs = overwrite xs pos zs := by
  have hl : (xs.take pos).length = pos := List.length_take_of_le h
  -- The first write changes neither the front nor the back that the second one keeps.
  have htake : (overwrite xs pos ys).take pos = xs.take pos := by
    rw [overwrite, List.take_append_of_le_length (by omega), List.take_of_length_le (by omega)]
  have hdrop : (overwrite xs pos ys).drop (pos + ys.length) = xs.drop (pos + ys.length) := by
    rw [overwrite, ← List.append_assoc, List.drop_left' (by rw [List.length_append, hl])]
  simp only [overwrite, hlen] at htake hdrop ⊢
  rw [htake, hdrop]

/-- Writing what already stands there changes nothing. -/
theorem overwrite_slice {xs : List α} {pos n : Nat} (h : pos + n ≤ xs.length) :
    overwrite xs pos (slice xs pos n) = xs := by
  rw [overwrite, length_slice h, slice_append_drop, List.take_append_drop]

theorem getElem?_overwrite_of_not_mem {xs ys : List α} {pos i : Nat}
    (h : pos + ys.length ≤ xs.length) (hi : i < pos ∨ pos + ys.length ≤ i) :
    (overwrite xs pos ys)[i]? = xs[i]? := by
  have hl : (xs.take pos).length = pos := List.length_take_of_le (by omega)
  rcases hi with hi | hi
  · rw [overwrite, List.getElem?_append_left (by omega), List.getElem?_take, if_pos hi]
  · rw [overwrite, List.getElem?_append_right (by omega), List.getElem?_append_right (by omega),
      List.getElem?_drop]
    congr 1
    omega

end C2paZip.Library
