import C2paZip.NoPanic
import C2paZip.Store

/-!
# Histories on a `w`-bit target

The calls of `Store.Call` once more, as a program on a `w`-bit target makes them: the error of an
operation is a reply, and its panic ends the program. Output vectors grow as those of the standard
library do. An archive grows with every insertion, so a bound on one input does not bound the next
one. Where the first archive and everything that is inserted later fit a quarter of the positions,
so that a vector may double its capacity, the program never panics, its archive is that of the model
after every call, and so is every reply, except that a failing operation may name another error
(`machine_runs`). What the other modules say about histories of the model is then so on the target.
-/

set_option autoImplicit false

namespace C2paZip

open Library

/-! ## Calls -/

/-- The archive and the reply behind an operation on a `w`-bit target. -/
def Machine.returned {α : Type} (bytes : List UInt8) (f : α → List UInt8 × Reply) :
    Outcome Error α → Outcome Error (List UInt8 × Reply)
  | .ok a => .ok (f a)
  | .err e => .ok (bytes, .failed e)
  | .panic => .panic

/-- One call on an archive, on a `w`-bit target. -/
def Machine.Store.call (w : Nat) (bytes : List UInt8) :
    Store.Call → Outcome Error (List UInt8 × Reply)
  | .insert name content =>
      returned bytes (fun out => (out, .done))
        (Zip.insertZipEntry w Buffer.amortized bytes name content)
  | .remove name =>
      returned bytes (fun out => (out, .done)) (Zip.removeZipEntry w Buffer.amortized bytes name)
  | .fill name content =>
      returned bytes (fun out => (out, .done)) (Zip.fillManifest w bytes name content)
  | .read name =>
      returned bytes (fun m => (bytes, .manifest m)) (Zip.readManifestEntry w bytes name)
  | .content name =>
      returned bytes (fun c => (bytes, .content c)) (Zip.readZipEntryContent w bytes name)
  | .members =>
      returned bytes (fun ms => (bytes, .names (ms.map Binding.Member.name)))
        (Binding.collectionMembers w bytes)

/-- The bytes that an insertion asks for beyond its input. -/
def Store.growth : Store.Call → Nat
  | .insert name content => content.length + 2 * (asBytes name).length + 128
  | _ => 0

/-- The same reply, or two failures. -/
def Reply.Alike (r r' : Reply) : Prop := r = r' ∨ ∃ e e', r = .failed e ∧ r' = .failed e'

/-! ## One call -/

section Returned

variable {α : Type} {z : List UInt8} {o : Outcome Error α} {x : Except Error α}

theorem returned_edited {o : Outcome Error (List UInt8)} {x : Except Error (List UInt8)}
    (h : Agrees o x) :
    ∃ r, Machine.returned z (fun out => (out, .done)) o = .ok ((edited z x).1, r) ∧
      r.Alike (edited z x).2 := by
  rcases h.cases with ⟨out, rfl, rfl⟩ | ⟨e, e', rfl, rfl⟩
  · exact ⟨.done, rfl, Or.inl rfl⟩
  · exact ⟨.failed e, rfl, Or.inr ⟨e, e', rfl, rfl⟩⟩

theorem returned_answer {f : α → Reply} (h : Agrees o x) :
    ∃ r, Machine.returned z (fun a => (z, f a)) o = .ok (z, r) ∧ r.Alike (answer f x) := by
  rcases h.cases with ⟨a, rfl, rfl⟩ | ⟨e, e', rfl, rfl⟩
  · exact ⟨f a, rfl, Or.inl rfl⟩
  · exact ⟨.failed e, rfl, Or.inr ⟨e, e', rfl, rfl⟩⟩

end Returned

/-- The archive and everything still to be inserted fit a quarter of the positions. -/
def FitsQuarter (w growth : Nat) (z : List UInt8) : Prop := z.length + growth < 2 ^ (w - 2)

theorem FitsQuarter.roomy {w growth : Nat} {z : List UInt8} (hw : 32 ≤ w)
    (h : FitsQuarter w growth z) :
    Roomy w z.length := by
  have hquarter : 2 ^ 30 ≤ 2 ^ (w - 2) := Nat.pow_le_pow_right (by omega) (by omega)
  have hpow : 2 ^ w = 2 ^ 2 * 2 ^ (w - 2) := by
    rw [← Nat.pow_add]
    congr 1
    omega
  unfold FitsQuarter at h
  unfold Roomy
  omega

/-- A bound on the input and on what an edit returns is one on what it leaves. -/
theorem length_edited_le {z : List UInt8} {x : Except Error (List UInt8)} {n : Nat}
    (hz : z.length ≤ n) (hx : ∀ out, x = .ok out → out.length ≤ n) :
    (edited z x).1.length ≤ n := by
  cases x with
  | error e => exact hz
  | ok out => exact hx out rfl

/-- **A call makes the archive no longer than it asks for.** -/
theorem length_call_le (z : List UInt8) (c : Store.Call) :
    (Store.call z c).1.length ≤ z.length + Store.growth c := by
  cases c with
  | insert name content =>
      refine length_edited_le (Nat.le_add_right _ _) fun out hins => ?_
      obtain ⟨A, rfl⟩ := exists_archive_of_bind hins
      have hlen := Archive.length_insertZipEntry_le hins
      show out.length ≤ A.bytes.length + (content.length + 2 * (asBytes name).length + 128)
      omega
  | remove name =>
      refine length_edited_le (Nat.le_add_right _ _) fun out hrem => ?_
      obtain ⟨A, rfl⟩ := exists_archive_of_bind hrem
      exact length_removeZipEntry_le hrem
  | fill name content =>
      refine length_edited_le (Nat.le_add_right _ _) fun out hfill => ?_
      obtain ⟨A, rfl⟩ := exists_archive_of_bind hfill
      obtain ⟨p, r, hloc, hlen, rfl⟩ := A.fillManifest_eq_ok.1 hfill
      exact Nat.le_of_eq (hloc.length_fillBytes hlen)
  | read name => exact Nat.le_refl _
  | content name => exact Nat.le_refl _
  | members => exact Nat.le_refl _

/-- **A call that fits returns on a `w`-bit target what it does in the model.** -/
theorem returns_call {w : Nat} (hw : 32 ≤ w) :
    ReturnsWithin (Machine.Store.call w) Store.call (FitsQuarter w) Store.growth Reply.Alike where
  returns := by
    intro b z c hz
    have hroom := hz.roomy hw
    have hgrow : Buffer.GrowsBelow w Buffer.amortized (2 ^ (w - 2)) :=
      Buffer.growsBelow_amortized (by omega)
    unfold FitsQuarter at hz
    cases c with
    | insert name content =>
        have hgrowth : Store.growth (.insert name content) =
          content.length + 2 * (asBytes name).length + 128 := rfl
        exact returned_edited (agrees_insertZipEntry hgrow hroom (by omega))
    | remove name => exact returned_edited (agrees_removeZipEntry hgrow hroom (by omega))
    | fill name content => exact returned_edited (agrees_fillManifest hroom)
    | read name => exact returned_answer (agrees_readManifestEntry hroom)
    | content name => exact returned_answer (agrees_readZipEntryContent hroom)
    | members =>
        exact returned_answer (.bind (agrees_memberRanges hroom) fun ranges _ => .pure _)
  next := by
    intro b z c hz
    have hlen := length_call_le z c
    unfold FitsQuarter at hz ⊢
    omega

/-! ## Histories -/

/-- **No history makes the crate panic**, as long as the first archive and all that is inserted fit
a quarter of the positions: no sum, index, slice or copy is out of range, and no vector grows beyond
the largest one. The archive is that of the model, and so are the replies up to the error of a
failed operation. -/
theorem machine_runs {w : Nat} (hw : w = 32 ∨ w = 64) (z : List UInt8) (cs : List Store.Call)
    (hsize : z.length + (cs.map Store.growth).sum < 2 ^ (w - 2)) :
    ∃ rs, runCallsM (Machine.Store.call w) z cs = .ok ((runCalls Store.call z cs).1, rs) ∧
      List.Forall₂ Reply.Alike rs (runCalls Store.call z cs).2 :=
  (returns_call (by omega)).run hsize

/-- An insertion, a failed filling and a removal on a 32-bit target. -/
theorem machine_runs_three_calls :
    ∃ rs, runCallsM (Machine.Store.call 32) (buildZip [("a", [7])])
        [.insert "b" [1, 2], .fill "b" [3], .remove "a"] =
        .ok ((runCalls Store.call (buildZip [("a", [7])])
          [.insert "b" [1, 2], .fill "b" [3], .remove "a"]).1, rs) ∧
      List.Forall₂ Reply.Alike rs (runCalls Store.call (buildZip [("a", [7])])
        [.insert "b" [1, 2], .fill "b" [3], .remove "a"]).2 :=
  machine_runs (Or.inl rfl) _ _ (by decide +kernel)

end C2paZip
