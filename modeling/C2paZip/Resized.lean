import C2paZip.Errors

/-!
# Archives cut short, and archives with bytes behind them

The comment length of an end-of-central-directory record fixes where the archive ends. By that
record no prefix of an archive is an archive, and no extension; it is one only by another record
that ends with it. Where there is none every operation fails with `noEocd`, wherever the archive was
cut (`resized_unreadable_iff`).
-/

set_option autoImplicit false

namespace C2paZip

open Library

/-- `y` is a prefix of `z` or has `z` as a prefix, and is not `z`. -/
structure IsResized (y z : List UInt8) : Prop where
  comparable : y <+: z ∨ z <+: y
  length_ne : y.length ≠ z.length

theorem isResized_take {z : List UInt8} {n : Nat} (h : n < z.length) : IsResized (z.take n) z where
  comparable := Or.inl (List.take_prefix n z)
  length_ne := by
    rw [List.length_take]
    omega

theorem isResized_append (z : List UInt8) {t : List UInt8} (h : t ≠ []) : IsResized (z ++ t) z where
  comparable := Or.inr (List.prefix_append z t)
  length_ne := by
    have hpos := List.length_pos_iff.2 h
    rw [List.length_append]
    omega

/-- Fields that both have are the same. -/
theorem IsResized.u16At_eq {y z : List UInt8} (h : IsResized y z) {p : Nat}
    (hy : p + 2 ≤ y.length) (hz : p + 2 ≤ z.length) : u16At y p = u16At z p := by
  rcases h.comparable with ⟨t, rfl⟩ | ⟨t, rfl⟩
  · exact (u16At_append_left hy).symm
  · exact u16At_append_left hz

/-- **A record ends one archive only**: its comment length fixes the length. -/
theorem IsResized.not_isEocdAt {y z : List UInt8} (h : IsResized y z) {p : Nat}
    (hz : IsEocdAt z p) : ¬ IsEocdAt y p := by
  intro hy
  obtain ⟨hfity, -, hendy⟩ := hy
  obtain ⟨hfitz, -, hendz⟩ := hz
  have hne := h.length_ne
  simp only [eocdMinLen] at hfity hfitz hendy hendz
  rw [h.u16At_eq (by omega) (by omega)] at hendy
  omega

/-- **An archive that was cut short, or got bytes behind it, is unreadable** exactly where no other
record ends with it. -/
theorem resized_unreadable_iff {y z : List UInt8} {L : ZipLayout} (hL : parseLayout z = .ok L)
    (h : IsResized y z) :
    Unreadable y .noEocd ↔ ∀ p, p ≠ L.eocdOffset → ¬ IsEocdAt y p := by
  obtain ⟨A, rfl, rfl⟩ := exists_archive_of_parseLayout hL
  have hold : ¬ IsEocdAt y A.layout.eocdOffset :=
    h.not_isEocdAt (findEocd_eq_ok.1 A.findEocd_bytes).1
  rw [unreadable_iff, parseLayout_eq_noEocd]
  constructor
  · intro hnone p _
    exact hnone p
  · intro hother p hp
    by_cases hpe : p = A.layout.eocdOffset
    · exact hold (hpe ▸ hp)
    · exact hother p hpe hp

/-- An archive without its last byte, and one with a byte behind it. -/
theorem resized_unreadable_one_byte :
    Unreadable ((buildZip [("a", [7])]).take 100) .noEocd ∧
      Unreadable (buildZip [("a", [7])] ++ [0]) .noEocd := by
  have hL : parseLayout (buildZip [("a", [7])]) = .ok ⟨[⟨"a", 0, 0, crc32 [7], 1, 1, 0, 32, 47⟩],
      32, 79⟩ := by decide +kernel
  have hlen : (buildZip [("a", [7])]).length = 101 := by decide +kernel
  -- A record lies inside the input, which leaves few positions.
  have hnone : ∀ q < 81, ¬ IsEocdAt ((buildZip [("a", [7])]).take 100) q ∧
      ¬ IsEocdAt (buildZip [("a", [7])] ++ [0]) q := by decide +kernel
  refine ⟨(resized_unreadable_iff hL (isResized_take (by omega))).2 fun p _ hp => ?_,
    (resized_unreadable_iff hL (isResized_append _ (by decide))).2 fun p _ hp => ?_⟩
  · have hfit := hp.1
    rw [List.length_take, eocdMinLen] at hfit
    exact (hnone p (by omega)).1 hp
  · have hfit := hp.1
    rw [List.length_append, hlen, List.length_singleton, eocdMinLen] at hfit
    exact (hnone p (by omega)).2 hp

end C2paZip
