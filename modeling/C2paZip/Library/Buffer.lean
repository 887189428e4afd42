import C2paZip.Library.Outcome

/-!
# Vectors that grow

A `Buffer w α` is a vector of one-byte elements on a target of `w` bits. What it contains fits its
capacity, and the capacity stays below half of the positions. Appending to a full vector asks for a
larger one, and panics where no vector is as large. How much more than needed it asks for is a
parameter: `amortized` is the growth of the standard library, and `exact` asks for no more. Below
the limit of `GrowsBelow` appending never panics.
-/

set_option autoImplicit false

namespace C2paZip.Library

/-- A vector with its capacity. -/
structure Buffer (w : Nat) (α : Type) where
  items : List α
  capacity : Nat
  length_le : items.length ≤ capacity
  capacity_lt : capacity < 2 ^ (w - 1)

namespace Buffer

variable {w : Nat} {ε α : Type}

/-! ## Growth -/

/-- The growth of `Vec`: twice the capacity, and eight elements at least. -/
def amortized (capacity : Nat) : Nat := max (2 * capacity) 8

/-- No more than what is needed. -/
def exact (_capacity : Nat) : Nat := 0

/-- A vector of less than `limit` elements grows without a panic. -/
structure GrowsBelow (w : Nat) (grow : Nat → Nat) (limit : Nat) : Prop where
  limit_le : limit ≤ 2 ^ (w - 1)
  grow_lt : ∀ capacity < limit, grow capacity < 2 ^ (w - 1)

theorem growsBelow_exact (w : Nat) : GrowsBelow w exact (2 ^ (w - 1)) :=
  ⟨Nat.le_refl _, fun _ _ => Nat.two_pow_pos _⟩

/-- A vector that doubles its capacity needs twice the room. -/
theorem growsBelow_amortized (hw : 5 ≤ w) : GrowsBelow w amortized (2 ^ (w - 2)) := by
  have hdouble : 2 ^ (w - 1) = 2 * 2 ^ (w - 2) := by
    rw [← Nat.pow_succ']
    congr 1
    omega
  have height : 2 ^ 3 ≤ 2 ^ (w - 2) := Nat.pow_le_pow_right (by omega) (by omega)
  refine ⟨by omega, fun capacity hcap => ?_⟩
  rw [amortized]
  omega

/-! ## Operations -/

/-- `Vec::with_capacity(n)`. -/
def withCapacity (w n : Nat) : Outcome ε (Buffer w α) :=
  if h : n < 2 ^ (w - 1) then .ok ⟨[], n, Nat.zero_le n, h⟩ else .panic

/-- `out.extend_from_slice(xs)`. -/
def extend (grow : Nat → Nat) (out : Buffer w α) (xs : List α) : Outcome ε (Buffer w α) :=
  if h : (out.items ++ xs).length ≤ out.capacity then
    .ok ⟨out.items ++ xs, out.capacity, h, out.capacity_lt⟩
  else if h : max (out.items ++ xs).length (grow out.capacity) < 2 ^ (w - 1) then
    .ok ⟨out.items ++ xs, _, Nat.le_max_left _ _, h⟩
  else
    .panic

/-- `out[a..b].copy_from_slice(xs)`: the range must exist and be as long as `xs`. -/
def copyFrom (out : Buffer w α) (a b : Nat) (xs : List α) : Outcome ε (Buffer w α) :=
  if h : a ≤ b ∧ b ≤ out.items.length ∧ xs.length = b - a then
    .ok { out with
      items := overwrite out.items a xs
      length_le := by
        rw [length_overwrite (by omega)]
        exact out.length_le }
  else
    .panic

section Operations

variable {grow : Nat → Nat} {limit a b n : Nat} {out : Buffer w α} {xs : List α}

theorem exists_withCapacity (h : n < 2 ^ (w - 1)) :
    ∃ out : Buffer w α, (withCapacity w n : Outcome ε _) = .ok out ∧ out.items = [] :=
  ⟨_, dif_pos h, rfl⟩

/-- **Appending below the limit never panics**, whether the vector has to grow or not. -/
theorem exists_extend (hgrow : GrowsBelow w grow limit) {zs : List α}
    (hzs : out.items ++ xs = zs) (h : zs.length < limit) :
    ∃ out', (extend grow out xs : Outcome ε _) = .ok out' ∧ out'.items = zs := by
  subst hzs
  by_cases hfits : (out.items ++ xs).length ≤ out.capacity
  · exact ⟨_, dif_pos hfits, rfl⟩
  · have hlimit := hgrow.limit_le
    have hlarge := hgrow.grow_lt out.capacity (by omega)
    exact ⟨_, (dif_neg hfits).trans (dif_pos (by omega)), rfl⟩

/-- Pieces can be appended one by one where all of them stay below the limit. -/
theorem exists_foldlM_extend (hgrow : GrowsBelow w grow limit) {pieces : List (List α)}
    {zs : List α} (hzs : out.items ++ pieces.flatten = zs) (h : zs.length < limit) :
    ∃ out', (pieces.foldlM (extend grow) out : Outcome ε _) = .ok out' ∧ out'.items = zs := by
  induction pieces generalizing out with
  | nil => exact ⟨out, rfl, (List.append_nil _).symm.trans hzs⟩
  | cons xs pieces ih =>
      rw [List.flatten_cons, ← List.append_assoc] at hzs
      have hlen := congrArg List.length hzs
      rw [List.length_append] at hlen
      obtain ⟨out₁, hext, hitems⟩ := exists_extend (ε := ε) hgrow rfl
        (show (out.items ++ xs).length < limit by omega)
      obtain ⟨out₂, hrest, hitems'⟩ := ih (by rw [hitems, hzs])
      exact ⟨out₂, by rw [List.foldlM_cons, hext, Outcome.ok_bind, hrest], hitems'⟩

theorem exists_copyFrom (out : Buffer w α) (xs : List α) (ha : a ≤ b)
    (hb : b ≤ out.items.length) (hlen : xs.length = b - a) :
    ∃ out', (copyFrom out a b xs : Outcome ε _) = .ok out' ∧
      out'.items = overwrite out.items a xs :=
  ⟨_, dif_pos ⟨ha, hb, hlen⟩, rfl⟩

end Operations

end Buffer

end C2paZip.Library
