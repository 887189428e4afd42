import Mathlib.Data.List.Sort

/-!
# Stable sorting by a numeric key

`sortByKey key xs` sorts by `key` in ascending order and keeps elements with equal keys in their
original order. Besides the laws inherited from insertion sort, the module gives the laws that
re-sorting an edited list needs: elements with different keys have one order only
(`sortByKey_eq_of_perm`), sorting commutes with a map that keeps the keys (`map_sortByKey`), and an
element appended at the end is inserted behind every element whose key
does not exceed its own (`sortByKey_append_singleton`).
-/

set_option autoImplicit false

namespace C2paZip.Library

universe u v

variable {α : Type u} {β : Type v}

/-- Stable ascending sort by `key`. -/
def sortByKey (key : α → Nat) (xs : List α) : List α :=
  xs.insertionSort fun a b => key a ≤ key b

section

variable (key : α → Nat)

theorem sortByKey_cons (a : α) (xs : List α) :
    sortByKey key (a :: xs) =
      (sortByKey key xs).orderedInsert (fun a b => key a ≤ key b) a := rfl

theorem perm_sortByKey (xs : List α) : (sortByKey key xs).Perm xs :=
  List.perm_insertionSort _ xs

@[simp] theorem mem_sortByKey {xs : List α} {a : α} : a ∈ sortByKey key xs ↔ a ∈ xs :=
  (perm_sortByKey key xs).mem_iff

@[simp] theorem length_sortByKey (xs : List α) : (sortByKey key xs).length = xs.length :=
  (perm_sortByKey key xs).length_eq

theorem pairwise_sortByKey (xs : List α) :
    (sortByKey key xs).Pairwise fun a b => key a ≤ key b := by
  have : Std.Total fun a b => key a ≤ key b := ⟨fun a b => Nat.le_total _ _⟩
  have : IsTrans α fun a b => key a ≤ key b := ⟨fun _ _ _ => Nat.le_trans⟩
  exact List.pairwise_insertionSort _ xs

theorem sortByKey_of_pairwise {xs : List α} (h : xs.Pairwise fun a b => key a ≤ key b) :
    sortByKey key xs = xs :=
  h.insertionSort_eq

end

/-- Elements with different keys are sorted into one order. -/
theorem sortByKey_eq_of_perm {key : α → Nat} {xs ys : List α} (h : xs.Perm ys)
    (hkeys : (xs.map key).Nodup) : sortByKey key xs = sortByKey key ys := by
  have hperm : (sortByKey key xs).Perm (sortByKey key ys) :=
    (perm_sortByKey key xs).trans (h.trans (perm_sortByKey key ys).symm)
  refine hperm.eq_of_pairwise (fun a b ha hb hab hba => ?_) (pairwise_sortByKey key xs)
    (pairwise_sortByKey key ys)
  have hb' : b ∈ xs := h.mem_iff.2 ((mem_sortByKey key).1 hb)
  exact List.inj_on_of_nodup_map hkeys ((mem_sortByKey key).1 ha) hb' (Nat.le_antisymm hab hba)

/-- Sorting commutes with a map that keeps the keys. -/
theorem map_sortByKey {key : α → Nat} {key' : β → Nat} (f : α → β) (xs : List α)
    (hf : ∀ a, key' (f a) = key a) : (sortByKey key xs).map f = sortByKey key' (xs.map f) := by
  apply List.map_insertionSort
  intro a _ b _
  rw [hf a, hf b]

section

variable {key : α → Nat}

theorem orderedInsert_append_left {a : α} {l r : List α} (h : ∀ b ∈ r, key a ≤ key b) :
    (l ++ r).orderedInsert (fun a b => key a ≤ key b) a =
      l.orderedInsert (fun a b => key a ≤ key b) a ++ r := by
  induction l with
  | nil =>
      cases r with
      | nil => rfl
      | cons b r => simp [List.orderedInsert_cons, h b List.mem_cons_self]
  | cons c l ih =>
      simp only [List.cons_append, List.orderedInsert_cons]
      by_cases hc : key a ≤ key c
      · simp [hc]
      · simp [hc, ih]

theorem orderedInsert_append_right {a : α} {l r : List α} (h : ∀ b ∈ l, key b < key a) :
    (l ++ r).orderedInsert (fun a b => key a ≤ key b) a =
      l ++ r.orderedInsert (fun a b => key a ≤ key b) a := by
  induction l with
  | nil => rfl
  | cons c l ih =>
      have hc : ¬ key a ≤ key c := Nat.not_le.2 (h c List.mem_cons_self)
      simp only [List.cons_append, List.orderedInsert_cons, if_neg hc]
      rw [ih fun b hb => h b (List.mem_cons_of_mem c hb)]

/-- An element appended at the end lands behind every element whose key does not exceed its own. -/
theorem sortByKey_append_singleton (key : α → Nat) (xs : List α) (x : α) :
    ∃ l r, sortByKey key xs = l ++ r ∧ sortByKey key (xs ++ [x]) = l ++ x :: r ∧
      (∀ a ∈ l, key a ≤ key x) ∧ ∀ a ∈ r, key x < key a := by
  induction xs with
  | nil => exact ⟨[], [], rfl, rfl, by simp, by simp⟩
  | cons a xs ih =>
      obtain ⟨l, r, hxs, hx, hl, hr⟩ := ih
      -- `a` is inserted in front of `x` up to an equal key, and behind it otherwise.
      by_cases ha : key a ≤ key x
      · refine ⟨l.orderedInsert (fun a b => key a ≤ key b) a, r, ?_, ?_, ?_, hr⟩
        · rw [sortByKey_cons, hxs]
          exact orderedInsert_append_left fun b hb => Nat.le_trans ha (Nat.le_of_lt (hr b hb))
        · rw [List.cons_append, sortByKey_cons, hx]
          apply orderedInsert_append_left
          intro b hb
          rcases List.mem_cons.1 hb with rfl | hb
          · exact ha
          · exact Nat.le_trans ha (Nat.le_of_lt (hr b hb))
        · intro b hb
          rcases (List.mem_orderedInsert _).1 hb with rfl | hb
          · exact ha
          · exact hl b hb
      · have hlt : key x < key a := Nat.not_le.1 ha
        refine ⟨l, r.orderedInsert (fun a b => key a ≤ key b) a, ?_, ?_, hl, ?_⟩
        · rw [sortByKey_cons, hxs]
          exact orderedInsert_append_right fun b hb => Nat.lt_of_le_of_lt (hl b hb) hlt
        · have hlx : ∀ b ∈ l ++ [x], key b < key a := by
            intro b hb
            rcases List.mem_append.1 hb with hb | hb
            · exact Nat.lt_of_le_of_lt (hl b hb) hlt
            · rw [List.mem_singleton.1 hb]
              exact hlt
          have happ := orderedInsert_append_right (r := r) hlx
          rw [List.append_assoc, List.append_assoc] at happ
          rw [List.cons_append, sortByKey_cons, hx]
          exact happ
        · intro b hb
          rcases (List.mem_orderedInsert _).1 hb with rfl | hb
          · exact hlt
          · exact hr b hb

/-- An element inserted in front of all elements with its key comes before them. -/
theorem pairwise_orderedInsert {R : α → α → Prop} {a : α} {l : List α}
    (hl : l.Pairwise fun b c => key b < key c ∨ key b = key c ∧ R b c) (ha : ∀ b ∈ l, R a b) :
    (l.orderedInsert (fun a b => key a ≤ key b) a).Pairwise
      fun b c => key b < key c ∨ key b = key c ∧ R b c := by
  induction l with
  | nil => exact List.pairwise_singleton _ _
  | cons c l ih =>
      obtain ⟨hc, hrest⟩ := List.pairwise_cons.1 hl
      rw [List.orderedInsert_cons]
      by_cases hac : key a ≤ key c
      · rw [if_pos hac]
        refine List.pairwise_cons.2 ⟨fun b hb => ?_, hl⟩
        -- `c` has the least key behind `a`.
        have hcb : key c ≤ key b := by
          rcases List.mem_cons.1 hb with rfl | hb
          · exact Nat.le_refl _
          · rcases hc b hb with h | h
            · exact Nat.le_of_lt h
            · exact Nat.le_of_eq h.1
        rcases Nat.lt_or_eq_of_le (Nat.le_trans hac hcb) with h | h
        · exact Or.inl h
        · exact Or.inr ⟨h, ha b hb⟩
      · rw [if_neg hac]
        refine List.pairwise_cons.2
          ⟨fun b hb => ?_, ih hrest fun b hb => ha b (List.mem_cons_of_mem c hb)⟩
        rcases (List.mem_orderedInsert _).1 hb with rfl | hb
        · exact Or.inl (Nat.not_le.1 hac)
        · exact hc b hb

/-- Elements with equal keys keep their order. -/
theorem pairwise_sortByKey_of_pairwise (key : α → Nat) {R : α → α → Prop} {xs : List α}
    (h : xs.Pairwise R) :
    (sortByKey key xs).Pairwise fun a b => key a < key b ∨ key a = key b ∧ R a b := by
  induction xs with
  | nil => exact List.Pairwise.nil
  | cons a xs ih =>
      obtain ⟨ha, hxs⟩ := List.pairwise_cons.1 h
      exact pairwise_orderedInsert (ih hxs) fun b hb => ha b ((mem_sortByKey key).1 hb)

/-- Sorting first does not change where an appended element lands. -/
theorem sortByKey_sortByKey_append (key : α → Nat) (xs : List α) (x : α) :
    sortByKey key (sortByKey key xs ++ [x]) = sortByKey key (xs ++ [x]) := by
  obtain ⟨l, r, hxs, hx, hl, hr⟩ := sortByKey_append_singleton key xs x
  obtain ⟨l', r', hxs', hx', hl', hr'⟩ := sortByKey_append_singleton key (sortByKey key xs) x
  rw [sortByKey_of_pairwise key (pairwise_sortByKey key xs), hxs] at hxs'
  -- Both cuts put the elements with a key up to that of `x` in front.
  have cut : ∀ {l r : List α}, (∀ a ∈ l, key a ≤ key x) → (∀ a ∈ r, key x < key a) →
      (l ++ r).filter (fun a => key a ≤ key x) = l := by
    intro l r hl hr
    rw [List.filter_append, List.filter_eq_self.2 (by simpa using hl),
      List.filter_eq_nil_iff.2 (by simpa using hr), List.append_nil]
  have hll : l = l' := by rw [← cut hl hr, hxs', cut hl' hr']
  subst hll
  rw [hx, hx', List.append_cancel_left hxs']

/-- An element appended with a key above all others stays last. -/
theorem sortByKey_append_of_le {xs : List α} {x : α} (h : ∀ a ∈ xs, key a ≤ key x) :
    sortByKey key (xs ++ [x]) = sortByKey key xs ++ [x] := by
  obtain ⟨l, r, hxs, hx, -, hr⟩ := sortByKey_append_singleton key xs x
  -- Nothing has a key above that of `x`.
  have hnil : r = [] := by
    apply List.eq_nil_iff_forall_not_mem.2
    intro a ha
    have hmem : a ∈ sortByKey key xs := by
      rw [hxs]
      exact List.mem_append_right l ha
    exact absurd (h a ((mem_sortByKey key).1 hmem)) (Nat.not_le.2 (hr a ha))
  rw [hx, hxs, hnil, List.append_nil]

end

end C2paZip.Library
