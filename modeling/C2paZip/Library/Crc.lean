import Mathlib.Algebra.CharP.Two
import Mathlib.Algebra.Field.ZMod
import Mathlib.Logic.Function.Iterate
import Mathlib.RingTheory.AdjoinRoot

/-!
# Reflected shift registers and division over GF(2)

A reflected shift register of width `w` with taps `g` keeps the leading coefficient of its
polynomial in bit 0. This module reads such a register as a polynomial (`registerPoly`) and shows
that one step multiplies it by `X` modulo `generator g` (`registerPoly_lfsrStep`). Feeding a message
in chunks of `k` bits, lowest bit first, therefore divides it by the generator:

- `registerPoly_foldl`: the register after a message is the remainder of the message, shifted by
  `w`, plus the initial register, shifted by the length of the message.
-/

set_option autoImplicit false

namespace C2paZip.Library

open Polynomial

/-! ## Words as polynomials -/

/-- The coefficient that a bit stands for. -/
def bitCoeff (b : Bool) : ZMod 2 := if b then 1 else 0

@[simp] theorem bitCoeff_false : bitCoeff false = 0 := rfl

@[simp] theorem bitCoeff_true : bitCoeff true = 1 := rfl

theorem bitCoeff_xor (a b : Bool) : bitCoeff (a ^^ b) = bitCoeff a + bitCoeff b := by
  cases a <;> cases b <;> decide

theorem bitCoeff_eq_one {b : Bool} : bitCoeff b = 1 ↔ b = true := by
  cases b <;> decide

section

variable {w : Nat}

/-- The polynomial of a word: bit `i` is the coefficient of `X ^ i`. -/
noncomputable def wordPoly (r : BitVec w) : (ZMod 2)[X] :=
  ∑ i ∈ Finset.range w, monomial i (bitCoeff (r.getLsbD i))

theorem coeff_wordPoly (r : BitVec w) (i : Nat) :
    (wordPoly r).coeff i = bitCoeff (r.getLsbD i) := by
  rw [wordPoly, finsetSum_coeff]
  simp only [coeff_monomial, Finset.sum_ite_eq', Finset.mem_range]
  split
  · rfl
  next h => rw [BitVec.getLsbD_of_ge r i (Nat.le_of_not_lt h), bitCoeff_false]

/-- The word of the lowest `w` coefficients of a polynomial. -/
noncomputable def coeffWord (w : Nat) (p : (ZMod 2)[X]) : BitVec w :=
  (BitVec.ofBoolListLE ((List.range w).map fun i => decide (p.coeff i = 1))).cast (by simp)

theorem getLsbD_coeffWord (p : (ZMod 2)[X]) {i : Nat} (h : i < w) :
    (coeffWord w p).getLsbD i = decide (p.coeff i = 1) := by
  rw [coeffWord, BitVec.getLsbD_cast, BitVec.getLsbD_ofBoolListLE]
  simp [h]

theorem coeffWord_wordPoly (r : BitVec w) : coeffWord w (wordPoly r) = r := by
  apply BitVec.eq_of_getLsbD_eq
  intro i hi
  rw [getLsbD_coeffWord _ hi, coeff_wordPoly]
  simp [bitCoeff_eq_one]

/-- The polynomial of a reflected register: bit 0 is the leading coefficient. -/
noncomputable def registerPoly (r : BitVec w) : (ZMod 2)[X] := wordPoly r.reverse

theorem coeff_registerPoly (r : BitVec w) (i : Nat) :
    (registerPoly r).coeff i = bitCoeff (r.getMsbD i) := by
  rw [registerPoly, coeff_wordPoly, BitVec.getLsbD_reverse]

theorem registerPoly_xor (r s : BitVec w) :
    registerPoly (r ^^^ s) = registerPoly r + registerPoly s := by
  ext i
  rw [coeff_add, coeff_registerPoly, coeff_registerPoly, coeff_registerPoly, BitVec.getMsbD_xor,
    bitCoeff_xor]

@[simp] theorem registerPoly_zero : registerPoly 0#w = 0 := by
  ext i
  simp [coeff_registerPoly]

theorem degree_registerPoly_lt (r : BitVec w) : (registerPoly r).degree < w := by
  rw [degree_lt_iff_coeff_zero]
  intro i hi
  rw [coeff_registerPoly, BitVec.getMsbD_of_ge r i hi, bitCoeff_false]

/-- The register with every bit set. -/
theorem registerPoly_allOnes :
    registerPoly (BitVec.allOnes w) = ∑ i ∈ Finset.range w, X ^ i := by
  ext i
  rw [coeff_registerPoly, finsetSum_coeff, BitVec.getMsbD_allOnes]
  simp only [coeff_X_pow, Finset.sum_ite_eq, Finset.mem_range, bitCoeff, decide_eq_true_eq]

/-- A register widened at its high bits is its polynomial shifted up. -/
theorem registerPoly_setWidth {k : Nat} (h : k ≤ w) (b : BitVec k) :
    registerPoly (b.setWidth w) = X ^ (w - k) * registerPoly b := by
  ext i
  rw [coeff_registerPoly, coeff_X_pow_mul', BitVec.getMsbD_setWidth]
  split
  next hi => rw [coeff_registerPoly, decide_eq_true hi, Bool.true_and, Nat.sub_sub_right i h]
  next hi => rw [decide_eq_false hi, Bool.false_and, bitCoeff_false]

end

/-! ## One step of the register -/

/-- One step of a reflected shift register with taps `g`. -/
def lfsrStep {w : Nat} (g r : BitVec w) : BitVec w :=
  (r >>> 1) ^^^ (if r.getLsbD 0 then g else 0#w)

/-- The polynomial that a register with taps `g` divides by. -/
noncomputable def generator {w : Nat} (g : BitVec w) : (ZMod 2)[X] := X ^ w + registerPoly g

section

variable {w : Nat} (g : BitVec w)

theorem monic_generator : (generator g).Monic := monic_X_pow_add (degree_registerPoly_lt g)

theorem degree_generator : (generator g).degree = w := by
  have hlt : (registerPoly g).degree < (X ^ w : (ZMod 2)[X]).degree := by
    rw [degree_X_pow]
    exact degree_registerPoly_lt g
  rw [generator, degree_add_eq_left_of_degree_lt hlt, degree_X_pow]

/-- A shift moves every coefficient up by one and drops the leading one. -/
theorem X_mul_registerPoly (r : BitVec w) :
    X * registerPoly r = registerPoly (r >>> 1) + C (bitCoeff (r.getLsbD 0)) * X ^ w := by
  ext i
  rw [coeff_add, coeff_registerPoly, coeff_C_mul, coeff_X_pow, BitVec.getMsbD_ushiftRight]
  cases i with
  | zero =>
      rw [coeff_X_mul_zero]
      rcases Nat.eq_zero_or_pos w with rfl | hw
      · simp
      · simp [Nat.ne_of_lt hw]
  | succ i =>
      rw [coeff_X_mul, coeff_registerPoly]
      rcases Nat.lt_trichotomy (i + 1) w with h | h | h
      · simp [h, Nat.ne_of_lt h]
      · subst h
        simp [BitVec.getMsbD_eq_getLsbD]
      · simp [Nat.lt_asymm h, Nat.ne_of_gt h, BitVec.getMsbD_of_ge r i (Nat.le_of_lt_succ h)]

/-- A step multiplies by `X` and takes off the generator when the leading coefficient is set. -/
theorem registerPoly_lfsrStep (r : BitVec w) :
    registerPoly (lfsrStep g r) =
      X * registerPoly r + C (bitCoeff (r.getLsbD 0)) * generator g := by
  have htaps : registerPoly (if r.getLsbD 0 then g else 0#w) =
      C (bitCoeff (r.getLsbD 0)) * registerPoly g := by
    cases r.getLsbD 0 <;> simp
  rw [lfsrStep, registerPoly_xor, htaps, X_mul_registerPoly, generator, mul_add, add_assoc,
    CharTwo.add_cancel_left]

end

/-! ## Messages -/

/-- The polynomial of a bit string, its first bit leading. -/
noncomputable def bitsPoly : List Bool → (ZMod 2)[X]
  | [] => 0
  | b :: bs => C (bitCoeff b) * X ^ bs.length + bitsPoly bs

theorem bitsPoly_append (as bs : List Bool) :
    bitsPoly (as ++ bs) = bitsPoly as * X ^ bs.length + bitsPoly bs := by
  induction as with
  | nil => simp [bitsPoly]
  | cons a as ih =>
      rw [List.cons_append, bitsPoly, bitsPoly, ih, List.length_append, pow_add]
      ring

theorem coeff_bitsPoly (bs : List Bool) (i : Nat) :
    (bitsPoly bs).coeff i = bitCoeff (bs.reverse[i]?.getD false) := by
  induction bs with
  | nil => simp [bitsPoly]
  | cons b bs ih =>
      rw [bitsPoly, coeff_add, coeff_C_mul, coeff_X_pow, ih, List.reverse_cons,
        List.getElem?_append, List.length_reverse]
      rcases Nat.lt_trichotomy i bs.length with h | rfl | h
      · simp [h, Nat.ne_of_lt h]
      · simp
      · have hlast : ([b] : List Bool)[i - bs.length]? = none :=
          List.getElem?_eq_none (Nat.sub_pos_of_lt h)
        simp [Nat.lt_asymm h, Nat.ne_of_gt h, hlast]

section

variable {k : Nat}

/-- The bits of a word, its lowest first. -/
def lowBitsFirst (b : BitVec k) : List Bool := (List.range k).map b.getLsbD

@[simp] theorem length_lowBitsFirst (b : BitVec k) : (lowBitsFirst b).length = k := by
  simp [lowBitsFirst]

theorem bitsPoly_lowBitsFirst (b : BitVec k) : bitsPoly (lowBitsFirst b) = registerPoly b := by
  ext i
  rw [coeff_bitsPoly, coeff_registerPoly, BitVec.getMsbD_eq_getLsbD]
  rcases Nat.lt_or_ge i k with h | h
  · have hrev : (lowBitsFirst b).reverse[i]? = some (b.getLsbD (k - 1 - i)) := by
      simp [lowBitsFirst, h]
    rw [hrev, decide_eq_true h, Bool.true_and, Option.getD_some]
  · rw [List.getElem?_eq_none (by simpa using h), decide_eq_false (Nat.not_lt.2 h),
      Bool.false_and, Option.getD_none]

theorem length_flatMap_lowBitsFirst (bs : List (BitVec k)) :
    (bs.flatMap lowBitsFirst).length = k * bs.length := by
  simp [Nat.mul_comm]

end

/-! ## The register after a message -/

section

variable {w k : Nat} (g : BitVec w)

/-- Xor a chunk of `k` bits into the low end of the register and step `k` times. -/
def lfsrChunk (r : BitVec w) (b : BitVec k) : BitVec w :=
  (lfsrStep g)^[k] (r ^^^ b.setWidth w)

/-- A polynomial as an element of the ring modulo the generator. -/
noncomputable abbrev residue : (ZMod 2)[X] →+* AdjoinRoot (generator g) :=
  AdjoinRoot.mk (generator g)

theorem residue_lfsrStep (r : BitVec w) :
    residue g (registerPoly (lfsrStep g r)) = residue g (X * registerPoly r) := by
  rw [registerPoly_lfsrStep, map_add, map_mul _ (C _), AdjoinRoot.mk_self, mul_zero, add_zero]

theorem residue_iterate_lfsrStep (n : Nat) (r : BitVec w) :
    residue g (registerPoly ((lfsrStep g)^[n] r)) = residue g (X ^ n * registerPoly r) := by
  induction n with
  | zero => rw [Function.iterate_zero_apply, pow_zero, one_mul]
  | succ n ih =>
      rw [Function.iterate_succ_apply', residue_lfsrStep, map_mul, ih, ← map_mul, pow_succ',
        mul_assoc]

/-- What one chunk does to the register. -/
theorem residue_lfsrChunk (hk : k ≤ w) (r : BitVec w) (b : BitVec k) :
    residue g (registerPoly (lfsrChunk g r b)) =
      residue g (X ^ k * registerPoly r + X ^ w * registerPoly b) := by
  rw [lfsrChunk, residue_iterate_lfsrStep, registerPoly_xor, registerPoly_setWidth hk, mul_add,
    ← mul_assoc (X ^ k) (X ^ (w - k)), ← pow_add, Nat.add_sub_of_le hk]

/-- What a message does to the register. -/
theorem residue_foldl_lfsrChunk (hk : k ≤ w) (bs : List (BitVec k)) (r : BitVec w) :
    residue g (registerPoly (bs.foldl (lfsrChunk g) r)) =
      residue g (bitsPoly (bs.flatMap lowBitsFirst) * X ^ w +
        X ^ (k * bs.length) * registerPoly r) := by
  induction bs generalizing r with
  | nil => simp [bitsPoly]
  | cons b bs ih =>
      have hchunk := residue_lfsrChunk g hk r b
      rw [List.foldl_cons, ih, List.flatMap_cons, bitsPoly_append, bitsPoly_lowBitsFirst,
        length_flatMap_lowBitsFirst, List.length_cons]
      simp only [map_add, map_mul, map_pow] at hchunk ⊢
      rw [hchunk]
      ring

/-- The register after a message, read as a polynomial, is the remainder of the message and the
initial register. -/
theorem registerPoly_foldl (hk : k ≤ w) (bs : List (BitVec k)) (r : BitVec w) :
    registerPoly (bs.foldl (lfsrChunk g) r) =
      (bitsPoly (bs.flatMap lowBitsFirst) * X ^ w + X ^ (k * bs.length) * registerPoly r) %ₘ
        generator g := by
  have hmonic := monic_generator g
  have hdvd := AdjoinRoot.mk_eq_mk.1 (residue_foldl_lfsrChunk g hk bs r)
  calc registerPoly (bs.foldl (lfsrChunk g) r)
      = registerPoly (bs.foldl (lfsrChunk g) r) %ₘ generator g := by
        refine ((modByMonic_eq_self_iff hmonic).2 ?_).symm
        rw [degree_generator]
        exact degree_registerPoly_lt _
    _ = _ := modByMonic_eq_of_dvd_sub hmonic hdvd

/-- The register itself: the remainder with its bits reversed. -/
theorem foldl_lfsrChunk (hk : k ≤ w) (bs : List (BitVec k)) (r : BitVec w) :
    bs.foldl (lfsrChunk g) r =
      (coeffWord w ((bitsPoly (bs.flatMap lowBitsFirst) * X ^ w +
        X ^ (k * bs.length) * registerPoly r) %ₘ generator g)).reverse := by
  rw [← registerPoly_foldl g hk, registerPoly, coeffWord_wordPoly, BitVec.reverse_reverse_eq]

end

end C2paZip.Library
