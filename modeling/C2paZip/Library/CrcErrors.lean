import C2paZip.Library.Crc
import Mathlib.Algebra.Polynomial.Inductions
import Mathlib.RingTheory.Coprime.Lemmas

/-!
# Error detection

Two messages of one length leave the same register exactly where the generator divides their
difference (`foldl_lfsrChunk_eq_iff`), provided that the generator has a constant term. A register
of width `w` therefore tells apart messages that differ only within `w` consecutive bits
(`eq_of_foldl_lfsrChunk_eq`).
-/

set_option autoImplicit false

namespace C2paZip.Library

open Polynomial

/-! ## Bit strings as polynomials -/

theorem bitCoeff_injective : Function.Injective bitCoeff := by decide

theorem degree_bitsPoly_lt (bs : List Bool) : (bitsPoly bs).degree < bs.length := by
  rw [degree_lt_iff_coeff_zero]
  intro i hi
  have hnone : bs.reverse[i]? = none := List.getElem?_eq_none (by simpa using hi)
  rw [coeff_bitsPoly, hnone, Option.getD_none, bitCoeff_false]

/-- Bit strings of one length with the same polynomial are equal. -/
theorem bitsPoly_inj {as bs : List Bool} (hlen : as.length = bs.length)
    (h : bitsPoly as = bitsPoly bs) : as = bs := by
  apply List.reverse_injective
  apply List.ext_getElem?
  intro i
  have hcoeff := congrArg (fun p => p.coeff i) h
  simp only [coeff_bitsPoly] at hcoeff
  have hbit := bitCoeff_injective hcoeff
  rcases Nat.lt_or_ge i as.length with hi | hi
  · rw [List.getElem?_eq_getElem (by simpa using hi), List.getElem?_eq_getElem (by simpa [← hlen]
      using hi)] at hbit ⊢
    rw [Option.getD_some, Option.getD_some] at hbit
    rw [hbit]
  · rw [List.getElem?_eq_none (by simpa using hi), List.getElem?_eq_none (by simpa [← hlen]
      using hi)]

/-! ## Residues -/

section

variable {w k : Nat} {g : BitVec w}

theorem registerPoly_injective : Function.Injective (registerPoly (w := w)) := by
  intro r s h
  have hreverse := congrArg (coeffWord w) h
  rw [registerPoly, registerPoly, coeffWord_wordPoly, coeffWord_wordPoly] at hreverse
  calc r = r.reverse.reverse := BitVec.reverse_reverse_eq.symm
    _ = s.reverse.reverse := by rw [hreverse]
    _ = s := BitVec.reverse_reverse_eq

/-- A register is determined by its residue. -/
theorem residue_registerPoly_inj {r s : BitVec w}
    (h : residue g (registerPoly r) = residue g (registerPoly s)) : r = s := by
  have hdvd : generator g ∣ registerPoly r - registerPoly s := AdjoinRoot.mk_eq_mk.1 h
  have hlt : (registerPoly r - registerPoly s).degree < (generator g).degree := by
    rw [degree_generator]
    exact lt_of_le_of_lt (degree_sub_le _ _)
      (max_lt (degree_registerPoly_lt r) (degree_registerPoly_lt s))
  exact registerPoly_injective (sub_eq_zero.1 (eq_zero_of_dvd_of_degree_lt hdvd hlt))

/-- A generator with a constant term is coprime to `X`. -/
theorem isCoprime_generator_X (hg : g.getMsbD 0 = true) : IsCoprime (generator g) X := by
  have hw : 0 < w := by
    rcases Nat.eq_zero_or_pos w with rfl | hw
    · simp at hg
    · exact hw
  have hcoeff : (generator g).coeff 0 = 1 := by
    rw [generator, coeff_add, coeff_registerPoly, hg, coeff_X_pow, if_neg (Nat.ne_of_lt hw),
      bitCoeff_true, zero_add]
  have hsplit := divX_mul_X_add (generator g)
  rw [hcoeff, C_1] at hsplit
  exact ⟨1, -divX (generator g), by rw [one_mul]; nth_rewrite 1 [← hsplit]; ring⟩

/-! ## Equal registers -/

variable (hk : k ≤ w) (hg : g.getMsbD 0 = true) {bs cs : List (BitVec k)}
  (hlen : bs.length = cs.length)

include hk hg hlen

/-- **Two messages of one length leave the same register exactly where the generator divides their
difference.** -/
theorem foldl_lfsrChunk_eq_iff (r : BitVec w) :
    bs.foldl (lfsrChunk g) r = cs.foldl (lfsrChunk g) r ↔
      generator g ∣ bitsPoly (bs.flatMap lowBitsFirst) - bitsPoly (cs.flatMap lowBitsFirst) := by
  have hb := residue_foldl_lfsrChunk g hk bs r
  have hc := residue_foldl_lfsrChunk g hk cs r
  rw [← hlen] at hc
  -- The initial register cancels, and the shift by `w` is a unit modulo the generator.
  have hshift : generator g ∣ (bitsPoly (bs.flatMap lowBitsFirst) -
      bitsPoly (cs.flatMap lowBitsFirst)) * X ^ w ↔
      bs.foldl (lfsrChunk g) r = cs.foldl (lfsrChunk g) r := by
    have hdiff : (bitsPoly (bs.flatMap lowBitsFirst) - bitsPoly (cs.flatMap lowBitsFirst)) * X ^ w =
        (bitsPoly (bs.flatMap lowBitsFirst) * X ^ w + X ^ (k * bs.length) * registerPoly r) -
          (bitsPoly (cs.flatMap lowBitsFirst) * X ^ w + X ^ (k * bs.length) * registerPoly r) := by
      ring
    rw [hdiff]
    constructor
    · intro h
      exact residue_registerPoly_inj (hb.trans ((AdjoinRoot.mk_eq_mk.2 h).trans hc.symm))
    · intro h
      rw [h] at hb
      exact AdjoinRoot.mk_eq_mk.1 (hb.symm.trans hc)
  rw [← hshift]
  constructor
  · intro h
    exact (isCoprime_generator_X hg).pow_right.dvd_of_dvd_mul_right h
  · intro h
    exact h.mul_right _

/-- **Bursts are detected**: messages that differ only within `w` consecutive bits and leave the
same register are equal. -/
theorem eq_of_foldl_lfsrChunk_eq {pre u v post : List Bool} {r : BitVec w}
    (hb : bs.flatMap lowBitsFirst = pre ++ u ++ post)
    (hc : cs.flatMap lowBitsFirst = pre ++ v ++ post) (huv : u.length = v.length)
    (hu : u.length ≤ w) (h : bs.foldl (lfsrChunk g) r = cs.foldl (lfsrChunk g) r) : u = v := by
  have hdvd := (foldl_lfsrChunk_eq_iff hk hg hlen r).1 h
  have hdiff : bitsPoly (pre ++ u ++ post) - bitsPoly (pre ++ v ++ post) =
      (bitsPoly u - bitsPoly v) * X ^ post.length := by
    simp only [bitsPoly_append, huv]
    ring
  rw [hb, hc, hdiff] at hdvd
  have hburst := (isCoprime_generator_X hg).pow_right.dvd_of_dvd_mul_right hdvd
  -- The difference of the bursts has a smaller degree than the generator.
  have hlt : (bitsPoly u - bitsPoly v).degree < (generator g).degree := by
    rw [degree_generator]
    refine lt_of_le_of_lt (degree_sub_le _ _) (max_lt ?_ ?_)
    · exact lt_of_lt_of_le (degree_bitsPoly_lt u) (Nat.cast_le.2 hu)
    · exact lt_of_lt_of_le (degree_bitsPoly_lt v) (Nat.cast_le.2 (huv ▸ hu))
  exact bitsPoly_inj huv (sub_eq_zero.1 (eq_zero_of_dvd_of_degree_lt hburst hlt))

end

end C2paZip.Library
