import Mathlib.Data.List.Forall2

/-!
# Traversals that may fail

`mapM` and `foldlM` over a list in `Except`, as relations on their results: a traversal succeeds
exactly where every round does.
-/

set_option autoImplicit false

namespace C2paZip.Library

universe u

variable {ε α β γ : Type u}

theorem ok_bind {a : α} {f : α → Except ε β} : (Except.ok a >>= f) = f a :=
  rfl

theorem error_bind_eq_error {e e' : ε} {f : α → Except ε β} :
    (Except.error e' >>= f) = .error e ↔ e' = e :=
  Iff.of_eq (Except.error.injEq e' e)

theorem mapM_nil_eq_ok {f : α → Except ε β} {ys : List β} :
    [].mapM f = .ok ys ↔ ys = [] := by
  simp [pure, Except.pure, eq_comm]

theorem mapM_cons_eq_ok {f : α → Except ε β} {x : α} {xs : List α} {ys : List β} :
    (x :: xs).mapM f = .ok ys ↔
      ∃ y zs, f x = .ok y ∧ xs.mapM f = .ok zs ∧ ys = y :: zs := by
  rw [List.mapM_cons]
  cases hx : f x with
  | error e => simp [bind, Except.bind]
  | ok y =>
      cases hxs : xs.mapM f with
      | error e => simp [bind, Except.bind]
      | ok zs => simp [bind, Except.bind, pure, Except.pure, eq_comm]

/-- A traversal succeeds exactly where every element does. -/
theorem mapM_eq_ok {f : α → Except ε β} {xs : List α} {ys : List β} :
    xs.mapM f = .ok ys ↔ List.Forall₂ (fun x y => f x = .ok y) xs ys := by
  induction xs generalizing ys with
  | nil => rw [mapM_nil_eq_ok, List.forall₂_nil_left_iff]
  | cons x xs ih =>
      rw [mapM_cons_eq_ok, List.forall₂_cons_left_iff]
      constructor
      · rintro ⟨y, zs, hy, hzs, rfl⟩
        exact ⟨y, zs, hy, ih.1 hzs, rfl⟩
      · rintro ⟨y, zs, hy, hzs, rfl⟩
        exact ⟨y, zs, hy, ih.2 hzs, rfl⟩

/-- **A traversal fails with the error of its first element that fails.** -/
theorem mapM_eq_error {f : α → Except ε β} {xs : List α} {e : ε} :
    xs.mapM f = .error e ↔
      ∃ pre x post, xs = pre ++ x :: post ∧ (∀ y ∈ pre, ∃ v, f y = .ok v) ∧ f x = .error e := by
  induction xs with
  | nil => simp [pure, Except.pure]
  | cons x xs ih =>
      rw [List.mapM_cons]
      cases hx : f x with
      | error e' =>
          show (Except.error e' : Except ε (List β)) = _ ↔ _
          constructor
          · intro h
            obtain rfl := Except.error.inj h
            exact ⟨[], x, xs, rfl, fun y hy => absurd hy List.not_mem_nil, hx⟩
          · rintro ⟨pre, w, post, heq, hpre, hw⟩
            cases pre with
            | nil =>
                obtain ⟨rfl, -⟩ := List.cons.inj heq
                rw [Except.error.inj (hx.symm.trans hw)]
            | cons y pre =>
                obtain ⟨rfl, -⟩ := List.cons.inj heq
                obtain ⟨v, hv⟩ := hpre x List.mem_cons_self
                rw [hx] at hv
                cases hv
      | ok v =>
          have hrest : ((Except.ok v : Except ε β) >>= fun y => xs.mapM f >>= fun ys =>
              pure (y :: ys)) = .error e ↔ xs.mapM f = .error e := by
            cases xs.mapM f with
            | error e' => rfl
            | ok ys => simp [bind, Except.bind, pure, Except.pure]
          rw [hrest, ih]
          constructor
          · rintro ⟨pre, w, post, rfl, hpre, hw⟩
            refine ⟨x :: pre, w, post, rfl, fun y hy => ?_, hw⟩
            rcases List.mem_cons.1 hy with rfl | hy
            · exact ⟨v, hx⟩
            · exact hpre y hy
          · rintro ⟨pre, w, post, heq, hpre, hw⟩
            cases pre with
            | nil =>
                obtain ⟨rfl, -⟩ := List.cons.inj heq
                rw [hx] at hw
                cases hw
            | cons y pre =>
                obtain ⟨-, rfl⟩ := List.cons.inj heq
                exact ⟨pre, w, post, rfl, fun y hy => hpre y (List.mem_cons_of_mem _ hy), hw⟩

theorem mapM_range_eq_error {ε β : Type} {f : Nat → Except ε β} {n : Nat} {e : ε} :
    (List.range n).mapM f = .error e ↔
      ∃ i < n, (∀ j < i, ∃ v, f j = .ok v) ∧ f i = .error e := by
  rw [mapM_eq_error]
  constructor
  · rintro ⟨pre, i, post, hrange, hpre, hi⟩
    -- The elements in front of `i` are the smaller ones.
    rw [List.range_eq_range'] at hrange
    obtain ⟨k, hk, rfl, hrest⟩ := List.range'_eq_append_iff.1 hrange
    obtain ⟨hstart, hlt, -⟩ := List.range'_eq_cons_iff.1 hrest.symm
    rw [Nat.zero_add, Nat.mul_one] at hstart
    subst hstart
    refine ⟨k, by omega, fun j hj => hpre j ?_, hi⟩
    rw [← List.range_eq_range', List.mem_range]
    exact hj
  · rintro ⟨i, hi, hbefore, herror⟩
    refine ⟨List.range i, i, (List.range (n - (i + 1))).map (i + 1 + ·), ?_,
      fun j hj => hbefore j (List.mem_range.1 hj), herror⟩
    have hsum : n = i + 1 + (n - (i + 1)) := by omega
    conv_lhs => rw [hsum, List.range_add, List.range_succ, List.append_assoc]
    rfl

/-- A relation with two lists behind each other splits its second list. -/
theorem forall₂_append_left {R : α → β → Prop} {xs xs' : List α} {ys : List β} :
    List.Forall₂ R (xs ++ xs') ys ↔
      ∃ us vs, List.Forall₂ R xs us ∧ List.Forall₂ R xs' vs ∧ ys = us ++ vs := by
  induction xs generalizing ys with
  | nil =>
      simp only [List.nil_append, List.forall₂_nil_left_iff]
      constructor
      · intro h
        exact ⟨[], ys, rfl, h, rfl⟩
      · rintro ⟨us, vs, rfl, h, rfl⟩
        exact h
  | cons x xs ih =>
      rw [List.cons_append, List.forall₂_cons_left_iff]
      constructor
      · rintro ⟨y, ys', hy, hys, rfl⟩
        obtain ⟨us, vs, hus, hvs, rfl⟩ := ih.1 hys
        exact ⟨y :: us, vs, List.Forall₂.cons hy hus, hvs, rfl⟩
      · rintro ⟨us, vs, hus, hvs, rfl⟩
        obtain ⟨y, us', hy, hus', rfl⟩ := List.forall₂_cons_left_iff.1 hus
        exact ⟨y, us' ++ vs, hy, ih.2 ⟨us', vs, hus', hvs, rfl⟩, rfl⟩

/-- A relation with a list that ends in `x` ends in a partner of `x`. -/
theorem forall₂_concat_left {R : α → β → Prop} {xs : List α} {x : α} {ys : List β} :
    List.Forall₂ R (xs ++ [x]) ys ↔ ∃ zs y, List.Forall₂ R xs zs ∧ R x y ∧ ys = zs ++ [y] := by
  rw [forall₂_append_left]
  constructor
  · rintro ⟨us, vs, hus, hvs, rfl⟩
    obtain ⟨y, ws, hy, hws, rfl⟩ := List.forall₂_cons_left_iff.1 hvs
    rw [List.forall₂_nil_left_iff.1 hws]
    exact ⟨us, y, hus, hy, rfl⟩
  · rintro ⟨us, y, hus, hy, rfl⟩
    exact ⟨us, [y], hus, List.Forall₂.cons hy List.Forall₂.nil, rfl⟩

/-- Where every element has a partner, the lists of partners exist. -/
theorem exists_forall₂_of_forall {R : α → β → Prop} {xs : List α} (h : ∀ x ∈ xs, ∃ y, R x y) :
    ∃ ys, List.Forall₂ R xs ys := by
  induction xs with
  | nil => exact ⟨[], List.Forall₂.nil⟩
  | cons x xs ih =>
      obtain ⟨y, hy⟩ := h x List.mem_cons_self
      obtain ⟨ys, hys⟩ := ih fun w hw => h w (List.mem_cons_of_mem _ hw)
      exact ⟨y :: ys, List.Forall₂.cons hy hys⟩

/-- Every element of the first list has its partner. -/
theorem exists_right_of_forall₂ {R : α → β → Prop} {xs : List α} {ys : List β}
    (h : List.Forall₂ R xs ys) {x : α} (hx : x ∈ xs) : ∃ y ∈ ys, R x y := by
  induction h with
  | nil => cases hx
  | cons hxy _ ih =>
      rcases List.mem_cons.1 hx with rfl | hx
      · exact ⟨_, List.mem_cons_self, hxy⟩
      · obtain ⟨y, hy, hr⟩ := ih hx
        exact ⟨y, List.mem_cons_of_mem _ hy, hr⟩

/-- Every element of the second list has its partner. -/
theorem exists_left_of_forall₂ {R : α → β → Prop} {xs : List α} {ys : List β}
    (h : List.Forall₂ R xs ys) {y : β} (hy : y ∈ ys) : ∃ x ∈ xs, R x y :=
  exists_right_of_forall₂ h.flip hy

/-- Two relations that determine the same partner for every element relate the same list. -/
theorem eq_of_forall₂ {R S : α → β → Prop} {xs : List α} {ys zs : List β}
    (hR : List.Forall₂ R xs ys) (hS : List.Forall₂ S xs zs)
    (heq : ∀ x ∈ xs, ∀ y z, R x y → S x z → z = y) : zs = ys := by
  induction hR generalizing zs with
  | nil =>
      cases hS
      rfl
  | cons hxy _ ih =>
      cases hS with
      | cons hxz hrest =>
          rw [heq _ List.mem_cons_self _ _ hxy hxz,
            ih hrest fun x hx => heq x (List.mem_cons_of_mem _ hx)]

/-- What holds of any two elements in order holds of their partners. -/
theorem pairwise_of_forall₂ {R : α → β → Prop} {S : α → α → Prop} {T : β → β → Prop} {xs : List α}
    {ys : List β} (h : List.Forall₂ R xs ys) (hS : xs.Pairwise S)
    (hT : ∀ x x' y y', S x x' → R x y → R x' y' → T y y') : ys.Pairwise T := by
  induction h with
  | nil => exact List.Pairwise.nil
  | cons hxy hrest ih =>
      obtain ⟨hx, hxs⟩ := List.pairwise_cons.1 hS
      refine List.pairwise_cons.2 ⟨fun y' hy' => ?_, ih hxs⟩
      obtain ⟨x', hx', hr⟩ := exists_left_of_forall₂ hrest hy'
      exact hT _ _ _ _ (hx x' hx') hxy hr

/-- A relation may be weakened with the membership of its first argument at hand. -/
theorem forall₂_imp_mem {R S : α → β → Prop} {xs : List α} {ys : List β}
    (hR : List.Forall₂ R xs ys) (h : ∀ x ∈ xs, ∀ y, R x y → S x y) : List.Forall₂ S xs ys := by
  induction hR with
  | nil => exact List.Forall₂.nil
  | cons hxy _ ih =>
      exact List.Forall₂.cons (h _ List.mem_cons_self _ hxy)
        (ih fun x hx => h x (List.mem_cons_of_mem _ hx))

/-- Relations that agree on the elements of a list relate it to the same lists. -/
theorem forall₂_congr_mem {R S : α → β → Prop} {xs : List α} {ys : List β}
    (h : ∀ x ∈ xs, ∀ y, R x y ↔ S x y) : List.Forall₂ R xs ys ↔ List.Forall₂ S xs ys :=
  ⟨fun hR => forall₂_imp_mem hR fun x hx y => (h x hx y).1,
    fun hS => forall₂_imp_mem hS fun x hx y => (h x hx y).2⟩

/-- Functions that agree on related elements agree along related lists. -/
theorem map_eq_map_of_forall₂ {R : α → β → Prop} {f : α → γ} {g : β → γ} {xs : List α} {ys : List β}
    (hR : List.Forall₂ R xs ys) (hfg : ∀ x ∈ xs, ∀ y, R x y → f x = g y) :
    xs.map f = ys.map g := by
  induction hR with
  | nil => rfl
  | cons hxy _ ih =>
      rw [List.map_cons, List.map_cons, hfg _ List.mem_cons_self _ hxy,
        ih fun x hx => hfg x (List.mem_cons_of_mem _ hx)]

/-- Two lists related to the same list are related to each other. -/
theorem forall₂_join {R : α → γ → Prop} {S : β → γ → Prop} {xs : List α} {ys : List β}
    {zs : List γ} (hR : List.Forall₂ R xs zs) (hS : List.Forall₂ S ys zs) :
    List.Forall₂ (fun x y => ∃ z, R x z ∧ S y z) xs ys := by
  induction hR generalizing ys with
  | nil =>
      cases hS
      exact List.Forall₂.nil
  | cons hxz _ ih =>
      cases hS with
      | cons hyz hrest => exact List.Forall₂.cons ⟨_, hxz, hyz⟩ (ih hrest)

/-- Two relations between the same lists hold of the same partners. -/
theorem forall₂_and {R S : α → β → Prop} {xs : List α} {ys : List β} (hR : List.Forall₂ R xs ys)
    (hS : List.Forall₂ S xs ys) : List.Forall₂ (fun x y => R x y ∧ S x y) xs ys := by
  induction hR with
  | nil => exact List.Forall₂.nil
  | cons hxy _ ih =>
      cases hS with
      | cons hxy' hrest => exact List.Forall₂.cons ⟨hxy, hxy'⟩ (ih hrest)

/-- Lists that agree on what a filter keeps have the same filtered list. -/
theorem filter_eq_filter_of_forall₂ {f : α → Bool} {xs ys : List α}
    (h : List.Forall₂ (fun x y => f x = f y ∧ (f x = true → x = y)) xs ys) :
    xs.filter f = ys.filter f := by
  induction h with
  | nil => rfl
  | @cons x y xs ys hxy _ ih =>
      obtain ⟨hf, heq⟩ := hxy
      by_cases hx : f x = true
      · rw [List.filter_cons_of_pos hx, List.filter_cons_of_pos (hf ▸ hx), ih, heq hx]
      · rw [List.filter_cons_of_neg hx, List.filter_cons_of_neg (hf ▸ hx), ih]

/-- A search for a property that related elements share finds related elements. -/
theorem forall₂_find? {R : α → β → Prop} {f : α → Bool} {g : β → Bool} {xs : List α} {ys : List β}
    (h : List.Forall₂ R xs ys) (hfg : ∀ x y, R x y → f x = g y) :
    (xs.find? f = none ∧ ys.find? g = none) ∨
      ∃ x y, xs.find? f = some x ∧ ys.find? g = some y ∧ R x y := by
  induction h with
  | nil => exact Or.inl ⟨rfl, rfl⟩
  | @cons x y xs ys hxy _ ih =>
      cases hy : g y with
      | true =>
          exact Or.inr ⟨x, y, List.find?_cons_of_pos ((hfg x y hxy).trans hy),
            List.find?_cons_of_pos hy, hxy⟩
      | false =>
          rw [List.find?_cons_of_neg (by simp [hfg x y hxy, hy]),
            List.find?_cons_of_neg (by simp [hy])]
          exact ih

theorem foldlM_cons_eq_ok {f : β → α → Except ε β} {x : α} {xs : List α} {a b : β} :
    (x :: xs).foldlM f a = .ok b ↔ ∃ c, f a x = .ok c ∧ xs.foldlM f c = .ok b := by
  rw [List.foldlM_cons]
  cases h : f a x with
  | error e => simp [bind, Except.bind]
  | ok c => simp [bind, Except.bind]

/-- What an invariant on the rounds left and the state says of the result of a loop. -/
theorem foldlM_invariant {I : List α → β → Prop} {f : β → α → Except ε β}
    (hnext : ∀ x xs b b', I (x :: xs) b → f b x = .ok b' → I xs b') {xs : List α} {a b : β}
    (h : I xs a) (hrun : xs.foldlM f a = .ok b) : I [] b := by
  induction xs generalizing a with
  | nil =>
      obtain rfl : a = b := Except.ok.inj hrun
      exact h
  | cons x xs ih =>
      obtain ⟨c, hc, hrest⟩ := foldlM_cons_eq_ok.1 hrun
      exact ih (hnext x xs a c h hc) hrest

/-- **Steps that commute can be made in any order**, also where some of them fail. -/
theorem foldlM_perm {I : β → Prop} {f : β → α → Except ε β}
    (hstep : ∀ {s t a}, I s → f s a = .ok t → I t)
    (hcomm : ∀ {s} a b, I s → (f s a >>= fun t => f t b) = (f s b >>= fun t => f t a))
    {xs ys : List α} (h : xs.Perm ys) {s : β} (hs : I s) : xs.foldlM f s = ys.foldlM f s := by
  induction h generalizing s with
  | nil => rfl
  | cons x _ ih =>
      rw [List.foldlM_cons, List.foldlM_cons]
      cases hx : f s x with
      | error e => rfl
      | ok t => exact ih (hstep hs hx)
  | swap x y xs =>
      have hswap := congrArg (· >>= fun t => xs.foldlM f t) (hcomm y x hs)
      simp only [bind_assoc] at hswap
      simpa only [List.foldlM_cons] using hswap
  | trans _ _ ih ih' => exact (ih hs).trans (ih' hs)

/-- A list with its indices. -/
theorem zipIdx_eq_map_range [Inhabited α] (xs : List α) :
    xs.zipIdx = (List.range xs.length).map fun i => (xs[i]!, i) := by
  apply List.ext_getElem?
  intro i
  by_cases hi : i < xs.length
  · simp [hi]
  · simp [hi]

end C2paZip.Library
