import Mathlib.Algebra.GroupWithZero.Nat
import Mathlib.Tactic.Common

/-!
# Tilings

`Tiles lo hi a xs b` says that the intervals `[lo x, hi x)` of the list `xs`, taken in order, tile
`[a, b)`: the first starts at `a`, every other one where the one before it ends, and the last ends
at `b`.
-/

set_option autoImplicit false

namespace C2paZip.Library

universe u

variable {α : Type u}

/-- The intervals of `xs` tile `[a, b)` in order. -/
def Tiles (lo hi : α → Nat) : Nat → List α → Nat → Prop
  | a, [], b => a = b
  | a, x :: xs, b => lo x = a ∧ a ≤ hi x ∧ Tiles lo hi (hi x) xs b

section

variable {lo hi : α → Nat} {a b : Nat}

@[simp] theorem tiles_nil : Tiles lo hi a [] b ↔ a = b := Iff.rfl

@[simp] theorem tiles_cons {x : α} {xs : List α} :
    Tiles lo hi a (x :: xs) b ↔ lo x = a ∧ a ≤ hi x ∧ Tiles lo hi (hi x) xs b := Iff.rfl

/-- A tiling carries over to intervals with the same ends. -/
theorem tiles_map {β : Type u} {f : α → β} {lo' hi' : β → Nat} {xs : List α} :
    Tiles lo' hi' a (xs.map f) b ↔ Tiles (lo' ∘ f) (hi' ∘ f) a xs b := by
  induction xs generalizing a with
  | nil => exact Iff.rfl
  | cons x xs ih => rw [List.map_cons, tiles_cons, tiles_cons, ih]; rfl

/-- No interval starts before the tiled range. -/
theorem Tiles.le_lo {xs : List α} (h : Tiles lo hi a xs b) : ∀ x ∈ xs, a ≤ lo x := by
  induction xs generalizing a with
  | nil => simp
  | cons x xs ih =>
      obtain ⟨hlo, hle, hrest⟩ := h
      intro y hy
      rcases List.mem_cons.1 hy with rfl | hy
      · exact Nat.le_of_eq hlo.symm
      · exact Nat.le_trans hle (ih hrest y hy)

/-- Of two intervals the earlier one ends where or before the later one starts. -/
theorem Tiles.pairwise {xs : List α} (h : Tiles lo hi a xs b) :
    xs.Pairwise fun x y => hi x ≤ lo y := by
  induction xs generalizing a with
  | nil => exact List.Pairwise.nil
  | cons x xs ih =>
      obtain ⟨-, -, hrest⟩ := h
      exact List.pairwise_cons.2 ⟨hrest.le_lo, ih hrest⟩

/-- The lengths of the intervals add up to the tiled range. -/
theorem Tiles.sum_length {len : α → Nat} {xs : List α}
    (h : Tiles lo (fun x => lo x + len x) a xs b) : a + (xs.map len).sum = b := by
  induction xs generalizing a with
  | nil => exact h
  | cons x xs ih =>
      obtain ⟨hlo, -, hrest⟩ := h
      have hsum : lo x + len x + (xs.map len).sum = b := ih hrest
      rw [hlo] at hsum
      rw [List.map_cons, List.sum_cons, ← Nat.add_assoc, hsum]

end

end C2paZip.Library
