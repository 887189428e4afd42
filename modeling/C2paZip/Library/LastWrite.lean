import Mathlib.Data.List.Pairwise
import Mathlib.Data.List.Perm.Basic
import Mathlib.Tactic.Common

/-!
# The last write wins

Writes of values to keys, some of which a state accepts and others it refuses. In a `KeyedWrites`
system a refused write changes nothing, no write changes what is accepted, the later of two writes
to one key covers the earlier one, and writes to two keys commute. The state after a list of writes
is then determined by the value last accepted for each key (`KeyedWrites.foldl_eq`): neither the
order across keys nor what was written before or refused in between leaves a trace.
-/

set_option autoImplicit false

namespace C2paZip.Library

universe u v w

variable {σ : Type u} {κ : Type v} {α : Type w}

section LastWrites

variable [DecidableEq κ]

/-- The last value written to `k` by a write with `p`. -/
def lastWrite (p : κ × α → Bool) (k : κ) : List (κ × α) → Option α
  | [] => none
  | x :: xs => (lastWrite p k xs).or (if x.1 = k ∧ p x = true then some x.2 else none)

/-- The writes with `p` that no later one covers. -/
def lastWrites (p : κ × α → Bool) : List (κ × α) → List (κ × α)
  | [] => []
  | x :: xs =>
      if p x = true ∧ lastWrite p x.1 xs = none then x :: lastWrites p xs else lastWrites p xs

variable {p : κ × α → Bool} {xs : List (κ × α)}

theorem mem_lastWrites {k : κ} {a : α} :
    (k, a) ∈ lastWrites p xs ↔ lastWrite p k xs = some a := by
  induction xs with
  | nil => simp [lastWrites, lastWrite]
  | cons x xs ih =>
      obtain ⟨l, b⟩ := x
      rw [lastWrites, lastWrite]
      by_cases hp : p (l, b) = true
      · cases hl : lastWrite p l xs with
        | none =>
            rw [if_pos ⟨hp, rfl⟩, List.mem_cons, ih, Prod.mk.injEq]
            by_cases hk : l = k
            · subst hk
              simp [hl, hp, eq_comm]
            · simp [hk, Ne.symm hk]
        | some c =>
            rw [if_neg (by simp), ih]
            by_cases hk : l = k
            · subst hk
              simp [hl]
            · simp [hk]
      · rw [if_neg (by simp [hp]), ih]
        simp [hp]

/-- The writes left have the property and go to different keys. -/
theorem lastWrites_pairwise : (lastWrites p xs).Pairwise fun x y => x.1 ≠ y.1 := by
  induction xs with
  | nil => exact List.Pairwise.nil
  | cons x xs ih =>
      rw [lastWrites]
      by_cases hx : p x = true ∧ lastWrite p x.1 xs = none
      · rw [if_pos hx]
        refine List.pairwise_cons.2 ⟨fun y hy hxy => ?_, ih⟩
        obtain ⟨l, b⟩ := y
        have hlast := mem_lastWrites.1 hy
        rw [← show x.1 = l from hxy, hx.2] at hlast
        cases hlast
      · rw [if_neg hx]
        exact ih

theorem of_mem_lastWrites {x : κ × α} (hx : x ∈ lastWrites p xs) : p x = true := by
  induction xs with
  | nil => cases hx
  | cons y ys ih =>
      rw [lastWrites] at hx
      by_cases hy : p y = true ∧ lastWrite p y.1 ys = none
      · rw [if_pos hy] at hx
        rcases List.mem_cons.1 hx with rfl | hx
        · exact hy.1
        · exact ih hx
      · rw [if_neg hy] at hx
        exact ih hx

/-- Equal last values leave the same writes, up to their order. -/
theorem lastWrites_perm {ys : List (κ × α)}
    (h : ∀ k, lastWrite p k xs = lastWrite p k ys) : (lastWrites p xs).Perm (lastWrites p ys) := by
  have hnodup : ∀ zs : List (κ × α), (lastWrites p zs).Nodup :=
    fun zs => lastWrites_pairwise.imp fun hne heq => hne (congrArg Prod.fst heq)
  refine (List.perm_ext_iff_of_nodup (hnodup xs) (hnodup ys)).2 fun x => ?_
  obtain ⟨k, a⟩ := x
  rw [mem_lastWrites, mem_lastWrites, h]

end LastWrites

/-- A system of writes to keys, in which the last accepted write to a key wins. -/
structure KeyedWrites (act : σ → κ × α → σ) (ok : σ → κ × α → Bool) : Prop where
  refused : ∀ {s x}, ok s x = false → act s x = s
  stable : ∀ s x, ok (act s x) = ok s
  covered : ∀ {s k a b}, ok s (k, a) = true → ok s (k, b) = true →
    act (act s (k, a)) (k, b) = act s (k, b)
  comm : ∀ {s x y}, x.1 ≠ y.1 → ok s x = true → ok s y = true →
    act (act s x) y = act (act s y) x

namespace KeyedWrites

variable {act : σ → κ × α → σ} {ok : σ → κ × α → Bool}

/-- Writes to different keys commute, also where one of them is refused. -/
theorem comm_of_ne (h : KeyedWrites act ok) (s : σ) {x y : κ × α} (hne : x.1 ≠ y.1) :
    act (act s x) y = act (act s y) x := by
  cases hx : ok s x with
  | false =>
      have hx' : ok (act s y) x = false := by rw [h.stable, hx]
      rw [h.refused hx, h.refused hx']
  | true =>
      cases hy : ok s y with
      | false =>
          have hy' : ok (act s x) y = false := by rw [h.stable, hy]
          rw [h.refused hy', h.refused hy]
      | true => exact h.comm hne hx hy

variable [DecidableEq κ]

/-- An accepted write leaves no trace once its key is written again. -/
theorem foldl_covered (h : KeyedWrites act ok) {k : κ} {a b : α} {xs : List (κ × α)} {s : σ}
    (hok : ∀ x ∈ xs, ok s x = true) (ha : ok s (k, a) = true) (hb : (k, b) ∈ xs) :
    xs.foldl act (act s (k, a)) = xs.foldl act s := by
  induction xs generalizing s with
  | nil => cases hb
  | cons x xs ih =>
      obtain ⟨l, c⟩ := x
      have hx := hok _ List.mem_cons_self
      rw [List.foldl_cons, List.foldl_cons]
      by_cases hl : l = k
      · subst hl
        rw [h.covered ha hx]
      · have hmem : (k, b) ∈ xs := by
          rcases List.mem_cons.1 hb with heq | hmem
          · exact absurd (congrArg Prod.fst heq).symm hl
          · exact hmem
        rw [h.comm_of_ne s (Ne.symm hl)]
        refine ih (fun y hy => ?_) ?_ hmem
        · rw [h.stable]
          exact hok y (List.mem_cons_of_mem _ hy)
        · rw [h.stable]
          exact ha

/-- Only the last accepted write to each key counts. -/
theorem foldl_lastWrites (h : KeyedWrites act ok) (xs : List (κ × α)) (s : σ) :
    xs.foldl act s = (lastWrites (ok s) xs).foldl act s := by
  induction xs generalizing s with
  | nil => rfl
  | cons x xs ih =>
      obtain ⟨k, a⟩ := x
      rw [List.foldl_cons, ih, h.stable, lastWrites]
      cases hx : ok s (k, a) with
      | false => rw [if_neg (by simp), h.refused hx]
      | true =>
          cases hlast : lastWrite (ok s) k xs with
          | none => rw [if_pos ⟨rfl, rfl⟩, List.foldl_cons]
          | some b =>
              rw [if_neg (by simp)]
              exact h.foldl_covered (fun _ hy => of_mem_lastWrites hy) hx (mem_lastWrites.2 hlast)

/-- **The last accepted value of each key determines the state.** -/
theorem foldl_eq (h : KeyedWrites act ok) {xs ys : List (κ × α)} {s : σ}
    (hlast : ∀ k, lastWrite (ok s) k xs = lastWrite (ok s) k ys) :
    xs.foldl act s = ys.foldl act s := by
  rw [h.foldl_lastWrites xs, h.foldl_lastWrites ys]
  refine (lastWrites_perm hlast).foldl_eq' (fun x hx y hy t => ?_) s
  by_cases hxy : x = y
  · rw [hxy]
  · have hsymm : Std.Symm fun x y : κ × α => x.1 ≠ y.1 := ⟨fun _ _ => Ne.symm⟩
    exact h.comm_of_ne t (lastWrites_pairwise.forall hx hy hxy)

end KeyedWrites

end C2paZip.Library
