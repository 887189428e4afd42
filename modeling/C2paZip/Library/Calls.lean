import Mathlib.Tactic.Common

/-!
# Systems that answer calls

A system is given by its step function, which takes a state and a call to the next state and the
reply; `runCalls` makes a list of calls. `Simulates step spec R allowed` says that from related
states every allowed call gets the same reply in both systems and leads to related states. Related
states then get the same replies to every list of allowed calls (`Simulates.run`). In
`SimulatesWithin` the relation also carries a budget that every call takes its cost from, and the
same holds of the lists of calls that the budget pays for (`SimulatesWithin.run`). A step function
in a monad may fail to return; where an invariant makes every call that the budget pays for return
what a plain system does, up to a relation on replies, so does every such list of calls
(`ReturnsWithin.run`).
-/

set_option autoImplicit false

namespace C2paZip.Library

universe u v w x y

variable {σ : Type u} {τ : Type v} {ι : Type w} {ο : Type x}

/-- The state and the replies after a list of calls. -/
def runCalls (step : σ → ι → σ × ο) : σ → List ι → σ × List ο
  | s, [] => (s, [])
  | s, c :: cs =>
      let next := step s c
      let rest := runCalls step next.1 cs
      (rest.1, next.2 :: rest.2)

section Run

variable (step : σ → ι → σ × ο)

@[simp] theorem runCalls_cons (s : σ) (c : ι) (cs : List ι) :
    runCalls step s (c :: cs) =
      ((runCalls step (step s c).1 cs).1, (step s c).2 :: (runCalls step (step s c).1 cs).2) :=
  rfl

/-- The state after a list of calls is a fold of their steps. -/
theorem runCalls_fst (s : σ) (cs : List ι) :
    (runCalls step s cs).1 = cs.foldl (fun s c => (step s c).1) s := by
  induction cs generalizing s with
  | nil => rfl
  | cons c cs ih => rw [runCalls_cons, ih, List.foldl_cons]

end Run

/-! ## Simulations within a budget -/

section Within

variable {β : Type y} [Add β] [Zero β]

/-- Related states with a budget for an allowed call answer it alike, and stay related with what is
left of the budget. -/
structure SimulatesWithin (step : σ → ι → σ × ο) (spec : τ → ι → τ × ο) (R : β → σ → τ → Prop)
    (cost : ι → β) (allowed : ι → Prop) : Prop where
  reply : ∀ {b s t c}, R (cost c + b) s t → allowed c → (step s c).2 = (spec t c).2
  next : ∀ {b s t c}, R (cost c + b) s t → allowed c → R b (step s c).1 (spec t c).1

/-- **A simulation lifts to the runs that its budget pays for.** -/
theorem SimulatesWithin.run {step : σ → ι → σ × ο} {spec : τ → ι → τ × ο} {R : β → σ → τ → Prop}
    {cost : ι → β} {allowed : ι → Prop} (h : SimulatesWithin step spec R cost allowed) {s : σ}
    {t : τ} {cs : List ι} (hst : R (cs.map cost).sum s t) (hcs : ∀ c ∈ cs, allowed c) :
    (runCalls step s cs).2 = (runCalls spec t cs).2 ∧
      R 0 (runCalls step s cs).1 (runCalls spec t cs).1 := by
  induction cs generalizing s t with
  | nil => exact ⟨rfl, hst⟩
  | cons c cs ih =>
      rw [List.map_cons, List.sum_cons] at hst
      have hc := hcs c List.mem_cons_self
      obtain ⟨hreplies, hrel⟩ :=
        ih (h.next hst hc) fun d hd => hcs d (List.mem_cons_of_mem c hd)
      refine ⟨?_, hrel⟩
      rw [runCalls_cons, runCalls_cons, h.reply hst hc, hreplies]

end Within

/-! ## Simulations -/

/-- The states in `R` answer every allowed call alike, and stay in `R`. -/
structure Simulates (step : σ → ι → σ × ο) (spec : τ → ι → τ × ο) (R : σ → τ → Prop)
    (allowed : ι → Prop) : Prop where
  reply : ∀ {s t c}, R s t → allowed c → (step s c).2 = (spec t c).2
  next : ∀ {s t c}, R s t → allowed c → R (step s c).1 (spec t c).1

/-- **A simulation lifts to runs**: nothing has to be paid for. -/
theorem Simulates.run {step : σ → ι → σ × ο} {spec : τ → ι → τ × ο} {R : σ → τ → Prop}
    {allowed : ι → Prop} (h : Simulates step spec R allowed) {s : σ} {t : τ} {cs : List ι}
    (hst : R s t) (hcs : ∀ c ∈ cs, allowed c) :
    (runCalls step s cs).2 = (runCalls spec t cs).2 ∧
      R (runCalls step s cs).1 (runCalls spec t cs).1 := by
  have hfree : SimulatesWithin step spec (fun _ : Nat => R) (fun _ => 0) allowed :=
    ⟨h.reply, h.next⟩
  exact hfree.run hst hcs

/-! ## Systems that may not return -/

section Returns

variable {σ ο : Type u} {m : Type u → Type v} [Monad m]

/-- A list of calls to a system whose calls may not return. -/
def runCallsM (step : σ → ι → m (σ × ο)) : σ → List ι → m (σ × List ο)
  | s, [] => pure (s, [])
  | s, c :: cs => do
      let next ← step s c
      let rest ← runCallsM step next.1 cs
      return (rest.1, next.2 :: rest.2)

variable {β : Type y} [Add β] [Zero β]

/-- From a state with a budget for a call it returns, with the state of the plain system and a
reply like the one there, and what is left of the budget is there for the next call. -/
structure ReturnsWithin (step : σ → ι → m (σ × ο)) (spec : σ → ι → σ × ο) (I : β → σ → Prop)
    (cost : ι → β) (alike : ο → ο → Prop) : Prop where
  returns : ∀ {b s c}, I (cost c + b) s →
    ∃ r, step s c = pure ((spec s c).1, r) ∧ alike r (spec s c).2
  next : ∀ {b s c}, I (cost c + b) s → I b (spec s c).1

/-- **Every list of calls that the budget pays for returns.** -/
theorem ReturnsWithin.run [LawfulMonad m] {step : σ → ι → m (σ × ο)} {spec : σ → ι → σ × ο}
    {I : β → σ → Prop} {cost : ι → β} {alike : ο → ο → Prop}
    (h : ReturnsWithin step spec I cost alike) {s : σ} {cs : List ι} (hs : I (cs.map cost).sum s) :
    ∃ rs, runCallsM step s cs = pure ((runCalls spec s cs).1, rs) ∧
      List.Forall₂ alike rs (runCalls spec s cs).2 := by
  induction cs generalizing s with
  | nil => exact ⟨[], rfl, .nil⟩
  | cons c cs ih =>
      rw [List.map_cons, List.sum_cons] at hs
      obtain ⟨r, hstep, hr⟩ := h.returns hs
      obtain ⟨rs, hrest, hrs⟩ := ih (h.next hs)
      refine ⟨r :: rs, ?_, .cons hr hrs⟩
      rw [runCallsM, hstep, pure_bind, hrest, pure_bind, runCalls_cons]

end Returns

end C2paZip.Library
