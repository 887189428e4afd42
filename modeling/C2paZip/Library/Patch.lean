import C2paZip.Library.Slice

/-!
# Patches

A patch is a list of writes to a list, each with its position; `applyPatch` makes them in order.
Patches that do not meet commute (`applyPatch_comm`), and a patch whose writes do not meet is
covered by one with the same positions and lengths (`applyPatch_covered`).
-/

set_option autoImplicit false

namespace C2paZip.Library

universe u

variable {α : Type u}

/-- Make the writes of a patch in order. -/
def applyPatch (xs : List α) (ws : List (Nat × List α)) : List α :=
  ws.foldl (fun xs w => overwrite xs w.1 w.2) xs

/-- The writes of a patch stay inside a list of length `n`. -/
def InBounds (n : Nat) (ws : List (Nat × List α)) : Prop :=
  ∀ w ∈ ws, w.1 + w.2.length ≤ n

/-- Two writes do not meet. -/
def Apart (v w : Nat × List α) : Prop :=
  v.1 + v.2.length ≤ w.1 ∨ w.1 + w.2.length ≤ v.1

@[simp] theorem applyPatch_cons (xs : List α) (w : Nat × List α) (ws : List (Nat × List α)) :
    applyPatch xs (w :: ws) = applyPatch (overwrite xs w.1 w.2) ws := rfl

theorem getElem?_overwrite {xs ys : List α} {pos : Nat} (h : pos + ys.length ≤ xs.length)
    (i : Nat) :
    (overwrite xs pos ys)[i]? = if pos ≤ i ∧ i < pos + ys.length then ys[i - pos]? else xs[i]? := by
  by_cases hi : pos ≤ i ∧ i < pos + ys.length
  · have hslice : (slice (overwrite xs pos ys) pos ys.length)[i - pos]? =
        (overwrite xs pos ys)[pos + (i - pos)]? := getElem?_slice (by omega)
    rw [slice_overwrite_self (by omega), Nat.add_sub_cancel' hi.1] at hslice
    rw [if_pos hi, hslice]
  · rw [if_neg hi, getElem?_overwrite_of_not_mem h (by omega)]

/-- Writes that do not meet commute. -/
theorem overwrite_comm {xs : List α} {v w : Nat × List α} (hv : v.1 + v.2.length ≤ xs.length)
    (hw : w.1 + w.2.length ≤ xs.length) (h : Apart v w) :
    overwrite (overwrite xs v.1 v.2) w.1 w.2 = overwrite (overwrite xs w.1 w.2) v.1 v.2 := by
  have hlv := length_overwrite hv
  have hlw := length_overwrite hw
  apply List.ext_getElem?
  intro i
  rw [getElem?_overwrite (by omega), getElem?_overwrite hv, getElem?_overwrite (by omega),
    getElem?_overwrite hw]
  by_cases hiv : v.1 ≤ i ∧ i < v.1 + v.2.length
  · have hiw : ¬ (w.1 ≤ i ∧ i < w.1 + w.2.length) := by
      rcases h with h | h <;> omega
    rw [if_neg hiw, if_pos hiv, if_pos hiv]
  · rw [if_neg hiv, if_neg hiv]

section Patches

variable {xs : List α} {vs ws : List (Nat × List α)}

/-- A write that meets none of a patch can be made before it. -/
theorem overwrite_applyPatch {w : Nat × List α} (hv : InBounds xs.length vs)
    (hw : w.1 + w.2.length ≤ xs.length) (h : ∀ v ∈ vs, Apart v w) :
    overwrite (applyPatch xs vs) w.1 w.2 = applyPatch (overwrite xs w.1 w.2) vs := by
  induction vs generalizing xs with
  | nil => rfl
  | cons v vs ih =>
      have hbound := hv v List.mem_cons_self
      have hlen := length_overwrite hbound
      rw [applyPatch_cons, applyPatch_cons, ← overwrite_comm hbound hw (h v List.mem_cons_self)]
      refine ih ?_ (by omega) fun u hu => h u (List.mem_cons_of_mem _ hu)
      rw [hlen]
      exact fun u hu => hv u (List.mem_cons_of_mem _ hu)

/-- **Patches that do not meet commute.** -/
theorem applyPatch_comm (hv : InBounds xs.length vs) (hw : InBounds xs.length ws)
    (h : ∀ v ∈ vs, ∀ w ∈ ws, Apart v w) :
    applyPatch (applyPatch xs vs) ws = applyPatch (applyPatch xs ws) vs := by
  induction ws generalizing xs with
  | nil => rfl
  | cons w ws ih =>
      have hbound := hw w List.mem_cons_self
      have hlen := length_overwrite hbound
      rw [applyPatch_cons, applyPatch_cons,
        overwrite_applyPatch hv hbound fun v hv => h v hv w List.mem_cons_self]
      refine ih (by rw [hlen]; exact hv) ?_ fun v hv u hu => h v hv u (List.mem_cons_of_mem _ hu)
      rw [hlen]
      exact fun u hu => hw u (List.mem_cons_of_mem _ hu)

/-- **A patch with the same places covers the earlier one.** -/
theorem applyPatch_covered (hv : InBounds xs.length vs)
    (hplaces : List.Forall₂ (fun v w => w.1 = v.1 ∧ w.2.length = v.2.length) vs ws)
    (hapart : vs.Pairwise Apart) : applyPatch (applyPatch xs vs) ws = applyPatch xs ws := by
  induction hplaces generalizing xs with
  | nil => rfl
  | @cons v w vs ws hvw _ ih =>
      obtain ⟨hpos, hlen⟩ := hvw
      obtain ⟨hfirst, hrest⟩ := List.pairwise_cons.1 hapart
      have hbound := hv v List.mem_cons_self
      have hxs := length_overwrite hbound
      have hvs : InBounds (overwrite xs v.1 v.2).length vs := by
        rw [hxs]
        exact fun u hu => hv u (List.mem_cons_of_mem _ hu)
      have hw : w.1 + w.2.length ≤ xs.length := by omega
      -- The first write of the second patch is moved in front of the rest of the first patch.
      have hapart' : ∀ u ∈ vs, Apart u w := by
        intro u hu
        have := hfirst u hu
        simp only [Apart] at this ⊢
        omega
      rw [applyPatch_cons, applyPatch_cons, applyPatch_cons,
        overwrite_applyPatch hvs (by omega) hapart', hpos,
        overwrite_overwrite (by omega) hlen, ← hpos]
      refine ih ?_ hrest
      rw [length_overwrite hw, ← hxs]
      exact hvs

end Patches

end C2paZip.Library
