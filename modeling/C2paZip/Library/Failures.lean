import Mathlib.Data.Set.Basic
import Mathlib.Tactic.Common

/-!
# What a computation fails with

`FailsIn S x` says that every error of `x` is in `S`. It is built up along binds and loops, and
`failures f` are the errors that a function has on some input: an upper bound comes from `FailsIn`,
a lower one from inputs.
-/

set_option autoImplicit false

namespace C2paZip.Library

universe u

variable {ε α β : Type u} {S T : Set ε}

/-- Every error of `x` is in `S`. -/
def FailsIn (S : Set ε) (x : Except ε α) : Prop := ∀ e, x = .error e → e ∈ S

/-- The errors of `f`. -/
def failures (f : α → Except ε β) : Set ε := {e | ∃ a, f a = .error e}

theorem failures_subset_iff {f : α → Except ε β} : failures f ⊆ S ↔ ∀ a, FailsIn S (f a) := by
  constructor
  · intro h a e he
    exact h ⟨a, he⟩
  · rintro h e ⟨a, he⟩
    exact h a e he

namespace FailsIn

variable {x : Except ε α}

theorem mono (h : FailsIn S x) (hST : S ⊆ T) : FailsIn T x := fun e he => hST (h e he)

theorem ok (a : α) : FailsIn S (.ok a : Except ε α) :=
  fun e he => by cases he

theorem pure (a : α) : FailsIn S (Pure.pure a : Except ε α) := ok a

theorem error {e : ε} (he : e ∈ S) : FailsIn S (.error e : Except ε α) := by
  intro e' h
  cases h
  exact he

/-- **Errors along a bind** are those of the first part and of the rest. -/
theorem bind {f : α → Except ε β} (hx : FailsIn S x) (hf : ∀ a, x = .ok a → FailsIn S (f a)) :
    FailsIn S (x >>= f) := by
  cases x with
  | error e => exact error (hx e rfl)
  | ok a => exact hf a rfl

theorem ite {c : Prop} [Decidable c] {y : Except ε α} (hx : c → FailsIn S x)
    (hy : ¬ c → FailsIn S y) : FailsIn S (if c then x else y) := by
  split
  · exact hx ‹_›
  · exact hy ‹_›

theorem mapM {f : α → Except ε β} {xs : List α} (h : ∀ a ∈ xs, FailsIn S (f a)) :
    FailsIn S (xs.mapM f) := by
  induction xs with
  | nil => exact pure []
  | cons a xs ih =>
      rw [List.mapM_cons]
      refine bind (h a List.mem_cons_self) fun b _ => ?_
      exact bind (ih fun a' ha' => h a' (List.mem_cons_of_mem a ha')) fun bs _ => pure _

theorem foldlM {f : β → α → Except ε β} (h : ∀ b a, FailsIn S (f b a)) {xs : List α} {b : β} :
    FailsIn S (xs.foldlM f b) := by
  induction xs generalizing b with
  | nil => exact pure b
  | cons a xs ih =>
      rw [List.foldlM_cons]
      exact bind (h b a) fun b' _ => ih

end FailsIn

end C2paZip.Library
