import C2paZip.Library.Slice
import Mathlib.Algebra.GroupWithZero.Nat

/-!
# Computations that may panic

`Outcome ε α` is a value, an error, or a panic. The operations are those of a program with `w`-bit
positions that does not check every sum, index and slice itself: they panic where the plain
operation would leave its range. `Agrees o x` compares such a computation with one over unbounded
numbers that cannot panic: both return the same value, or both return an error. The two errors may
differ, since a checked sum can fail where the unbounded one is rejected later. Agreement is built
up along the binds of the two computations and excludes a panic (`Agrees.ne_panic`).
-/

set_option autoImplicit false

namespace C2paZip.Library

/-- How a computation ends. -/
inductive Outcome (ε α : Type) where
  | ok (a : α)
  | err (e : ε)
  | panic

namespace Outcome

variable {ε α β : Type}

/-- Errors and panics end the whole computation. -/
def bind : Outcome ε α → (α → Outcome ε β) → Outcome ε β
  | ok a, f => f a
  | err e, _ => err e
  | panic, _ => panic

instance : Monad (Outcome ε) where
  pure := ok
  bind := bind

/-- A result without a panic. -/
def ofExcept : Except ε α → Outcome ε α
  | .ok a => ok a
  | .error e => err e

instance : MonadLift (Except ε) (Outcome ε) := ⟨ofExcept⟩

/-- `Result::ok`: errors are forgotten, panics are not. -/
def toOption : Outcome ε α → Outcome ε (Option α)
  | ok a => ok (some a)
  | err _ => ok none
  | panic => panic

@[simp] theorem pure_eq (a : α) : (pure a : Outcome ε α) = ok a := rfl

@[simp] theorem ok_bind (a : α) (f : α → Outcome ε β) : (ok a >>= f) = f a := rfl

instance : LawfulMonad (Outcome ε) :=
  LawfulMonad.mk' (Outcome ε) (fun x => by cases x <;> rfl) (fun _ _ => rfl)
    (fun x _ _ => by cases x <;> rfl)

/-! ## Operations -/

/-- `a + b`. -/
def add (w a b : Nat) : Outcome ε Nat := if a + b < 2 ^ w then ok (a + b) else panic

/-- `a - b`. -/
def sub (a b : Nat) : Outcome ε Nat := if b ≤ a then ok (a - b) else panic

/-- `a.checked_add(b).ok_or(e)?`. -/
def checkedAdd (w a b : Nat) (e : ε) : Outcome ε Nat :=
  if a + b < 2 ^ w then ok (a + b) else err e

/-- `xs[i]`. -/
def index (xs : List α) (i : Nat) : Outcome ε α :=
  match xs[i]? with
  | some x => ok x
  | none => panic

/-- `&xs[a..b]`. -/
def range (xs : List α) (a b : Nat) : Outcome ε (List α) :=
  match getRange xs a b with
  | some ys => ok ys
  | none => panic

/-- `xs[a..b].copy_from_slice(ys)`: the range must exist and be as long as `ys`. -/
def copyFrom (xs : List α) (a b : Nat) (ys : List α) : Outcome ε (List α) :=
  if a ≤ b ∧ b ≤ xs.length ∧ ys.length = b - a then ok (overwrite xs a ys) else panic

section Operations

variable {w a b i : Nat} {e : ε} {x : α} {xs ys : List α}

theorem add_of_lt (h : a + b < 2 ^ w) : (add w a b : Outcome ε Nat) = ok (a + b) :=
  if_pos h

theorem sub_of_le (h : b ≤ a) : (sub a b : Outcome ε Nat) = ok (a - b) :=
  if_pos h

theorem checkedAdd_of_lt (h : a + b < 2 ^ w) : checkedAdd w a b e = ok (a + b) :=
  if_pos h

theorem index_of_getElem? (h : xs[i]? = some x) : (index xs i : Outcome ε α) = ok x := by
  rw [index, h]

theorem index_of_lt [Inhabited α] (h : i < xs.length) :
    (index xs i : Outcome ε α) = ok xs[i]! :=
  index_of_getElem? (by rw [getElem!_pos xs i h, List.getElem?_eq_getElem h])

theorem range_of_le (ha : a ≤ b) (hb : b ≤ xs.length) :
    (range xs a b : Outcome ε (List α)) = ok (slice xs a (b - a)) := by
  rw [range, getRange_eq_some.2 ⟨ha, hb, rfl⟩]

theorem copyFrom_of_le (ha : a ≤ b) (hb : b ≤ xs.length) (hlen : ys.length = b - a) :
    (copyFrom xs a b ys : Outcome ε (List α)) = ok (overwrite xs a ys) :=
  if_pos ⟨ha, hb, hlen⟩

end Operations

end Outcome

/-! ## Agreement -/

/-- Both computations return the same value, or both return an error. -/
def Agrees {ε α : Type} : Outcome ε α → Except ε α → Prop
  | .ok a, .ok b => a = b
  | .err _, .error _ => True
  | _, _ => False

namespace Agrees

variable {ε α β : Type} {o : Outcome ε α} {x : Except ε α}

theorem ne_panic (h : Agrees o x) : o ≠ .panic := by
  rintro rfl
  cases x <;> exact h

theorem pure (a : α) : Agrees (Pure.pure a : Outcome ε α) (Pure.pure a) := rfl

theorem of_eq {a : α} (h : o = .ok a) : Agrees o (.ok a) := by
  rw [h]
  exact pure a

theorem error (e e' : ε) : Agrees (.err e : Outcome ε α) (.error e') := trivial

/-- Where the unbounded computation fails in any way, so may the other. -/
theorem fail {e : ε} (h : ∀ a, x ≠ .ok a) : Agrees (.err e) x := by
  cases x with
  | error e' => exact error e e'
  | ok a => exact absurd rfl (h a)

theorem lift (x : Except ε α) : Agrees (liftM x : Outcome ε α) x := by
  cases x with
  | error e => exact error e e
  | ok a => exact pure a

/-- Agreeing computations end in the same way. -/
theorem cases (h : Agrees o x) :
    (∃ a, o = .ok a ∧ x = .ok a) ∨ ∃ e e', o = .err e ∧ x = .error e' := by
  cases o with
  | panic => exact absurd rfl h.ne_panic
  | err e =>
      cases x with
      | ok a => exact h.elim
      | error e' => exact Or.inr ⟨e, e', rfl, rfl⟩
  | ok a =>
      cases x with
      | error e => exact h.elim
      | ok b =>
          obtain rfl : a = b := h
          exact Or.inl ⟨a, rfl, rfl⟩

/-- Computations that agree up to a projection `p` end in the same way. -/
theorem cases_map {γ : Type} {p : γ → α} {o : Outcome ε γ} (h : Agrees (p <$> o) x) :
    (∃ c, o = .ok c ∧ x = .ok (p c)) ∨ ∃ e e', o = .err e ∧ x = .error e' := by
  rcases h.cases with ⟨a, ho, rfl⟩ | ⟨e, e', ho, rfl⟩
  · cases o with
    | ok c => exact Or.inl ⟨c, rfl, congrArg Except.ok (Outcome.ok.inj ho).symm⟩
    | err e => cases ho
    | panic => cases ho
  · cases o with
    | ok c => cases ho
    | err e => exact Or.inr ⟨e, e', rfl, rfl⟩
    | panic => cases ho

/-- **Agreement along a bind**: the rest has to agree on the value returned so far. -/
theorem bind {f : α → Outcome ε β} {g : α → Except ε β} (h : Agrees o x)
    (hrest : ∀ a, x = .ok a → Agrees (f a) (g a)) : Agrees (o >>= f) (x >>= g) := by
  rcases h.cases with ⟨a, rfl, rfl⟩ | ⟨e, e', rfl, rfl⟩
  · exact hrest a rfl
  · exact error e e'

/-- Agreement along a bind where one of the values is a projection of the other. -/
theorem bind_map {γ : Type} {p : γ → α} {o : Outcome ε γ} {f : γ → Outcome ε β}
    {g : α → Except ε β} (h : Agrees (p <$> o) x)
    (hrest : ∀ c, x = .ok (p c) → Agrees (f c) (g (p c))) : Agrees (o >>= f) (x >>= g) := by
  rcases h.cases_map with ⟨c, rfl, rfl⟩ | ⟨e, e', rfl, rfl⟩
  · exact hrest c rfl
  · exact error e e'

/-- An operation that only one of the two computations carries out, and that succeeds. -/
theorem step {γ : Type} {p : Outcome ε γ} {c : γ} {f : γ → Outcome ε α} (hp : p = .ok c)
    (h : Agrees (f c) x) : Agrees (p >>= f) x := by
  rwa [hp, Outcome.ok_bind]

/-- A checked sum that does not fit may fail where the unbounded computation fails later. -/
theorem checkedAdd {w a b : Nat} {e : ε} {f : Nat → Outcome ε α} (hfit : Agrees (f (a + b)) x)
    (hover : 2 ^ w ≤ a + b → ∀ c, x ≠ .ok c) : Agrees (Outcome.checkedAdd w a b e >>= f) x := by
  unfold Outcome.checkedAdd
  split
  · exact hfit
  · exact fail (hover (by omega))

theorem toOption (h : Agrees o x) : o.toOption = .ok x.toOption := by
  rcases h.cases with ⟨a, rfl, rfl⟩ | ⟨e, e', rfl, rfl⟩
  · rfl
  · rfl

theorem mapM {f : α → Outcome ε β} {g : α → Except ε β} {xs : List α}
    (h : ∀ x ∈ xs, Agrees (f x) (g x)) : Agrees (xs.mapM f) (xs.mapM g) := by
  induction xs with
  | nil => exact pure []
  | cons x xs ih =>
      rw [List.mapM_cons, List.mapM_cons]
      refine bind (h x List.mem_cons_self) fun y _ => ?_
      refine bind (ih fun z hz => h z (List.mem_cons_of_mem x hz)) fun ys _ => ?_
      exact pure (y :: ys)

/-- **Agreement of two loops**, one of them over a projection `p` of the other's state, with an
invariant `I` on the rounds left and the state: it makes a round agree, and it passes to the next
round. -/
theorem foldlM {γ : Type} {p : γ → β} {I : List α → β → Prop} {f : γ → α → Outcome ε γ}
    {g : β → α → Except ε β}
    (hround : ∀ x xs c, I (x :: xs) (p c) → Agrees (p <$> f c x) (g (p c) x))
    (hnext : ∀ x xs b b', I (x :: xs) b → g b x = .ok b' → I xs b') {xs : List α} {c : γ}
    (h : I xs (p c)) : Agrees (p <$> xs.foldlM f c) (xs.foldlM g (p c)) := by
  induction xs generalizing c with
  | nil => exact pure (p c)
  | cons x xs ih =>
      rw [List.foldlM_cons, List.foldlM_cons, map_bind]
      exact bind_map (hround x xs c h) fun c' hc' => ih (hnext x xs (p c) (p c') h hc')

end Agrees

end C2paZip.Library
