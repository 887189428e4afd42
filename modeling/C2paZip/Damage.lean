import C2paZip.Crc32
import C2paZip.Descriptor
import C2paZip.Library.CrcErrors
import C2paZip.Store

/-!
# Damaged contents

The checksum tells apart contents of one length that differ within 32 consecutive bits
(`crc32_burst`). The crate compares no CRC with a content: what it compares are the CRCs in the two
headers of an entry. So an archive with a burst in the content of a stored entry is parsed and bound
as before; but whoever compares sees the damage in that entry, whose headers have not the CRC of its
content any more, and in no other (`damage_detected`).
-/

set_option autoImplicit false

namespace C2paZip

open Library Polynomial

/-! ## Bursts -/

/-- Contents of one length that differ at most within 32 consecutive bits. -/
structure WithinBurst (xs ys : List UInt8) : Prop where
  length : xs.length = ys.length
  burst : ∃ pre u v post, messageBits xs = pre ++ u ++ post ∧ messageBits ys = pre ++ v ++ post ∧
    u.length = v.length ∧ u.length ≤ 32

theorem lowBitsFirst_injective {k : Nat} : Function.Injective (lowBitsFirst (k := k)) := by
  intro b c h
  apply BitVec.eq_of_getLsbD_eq
  intro i hi
  have hbit := congrArg (fun l => l[i]?) h
  simpa [lowBitsFirst, hi] using hbit

theorem messageBits_inj {xs ys : List UInt8} (hlen : xs.length = ys.length)
    (h : messageBits xs = messageBits ys) : xs = ys := by
  induction xs generalizing ys with
  | nil => exact (List.length_eq_zero_iff.1 hlen.symm).symm
  | cons x xs ih =>
      cases ys with
      | nil => cases hlen
      | cons y ys =>
          simp only [messageBits, List.flatMap_cons] at h
          obtain ⟨hx, hxs⟩ := List.append_inj h (by simp)
          rw [UInt8.toBitVec_inj.1 (lowBitsFirst_injective hx), ih (Nat.succ.inj hlen) hxs]

/-- Equal checksums are equal registers. -/
theorem crc32_eq_iff_register {xs ys : List UInt8} : crc32 xs = crc32 ys ↔
    (xs.map UInt8.toBitVec).foldl (lfsrChunk 0xEDB88320#32) (BitVec.allOnes 32) =
      (ys.map UInt8.toBitVec).foldl (lfsrChunk 0xEDB88320#32) (BitVec.allOnes 32) := by
  have hones : (0xFFFFFFFF : UInt32).toBitVec = BitVec.allOnes 32 := rfl
  rw [← hones, ← foldl_crc32Byte_toBitVec, ← foldl_crc32Byte_toBitVec, UInt32.toBitVec_inj, crc32,
    crc32, ← UInt32.toBitVec_inj, UInt32.toBitVec_not, UInt32.toBitVec_not, BitVec.not_inj,
    UInt32.toBitVec_inj]

/-- **The checksums of two contents of one length are equal exactly where the generator divides
their difference.** -/
theorem crc32_eq_iff {xs ys : List UInt8} (hlen : xs.length = ys.length) :
    crc32 xs = crc32 ys ↔ crcGenerator ∣ bitsPoly (messageBits xs) - bitsPoly (messageBits ys) := by
  rw [crc32_eq_iff_register, foldl_lfsrChunk_eq_iff (by decide) (by decide) (by simpa using hlen),
    crcGenerator_eq, messageBits, messageBits, List.flatMap_map, List.flatMap_map]

/-- Two single bytes. -/
theorem crc32_eq_iff_bytes :
    crc32 [7] = crc32 [9] ↔
      crcGenerator ∣ bitsPoly (messageBits [7]) - bitsPoly (messageBits [9]) :=
  crc32_eq_iff rfl

/-- **A burst of 32 bits changes the checksum.** -/
theorem crc32_burst {xs ys : List UInt8} (h : WithinBurst xs ys) :
    crc32 xs = crc32 ys ↔ xs = ys := by
  constructor
  · intro hcrc
    obtain ⟨pre, u, v, post, hx, hy, huv, hu⟩ := h.burst
    have hbits : ∀ zs : List UInt8,
        (zs.map UInt8.toBitVec).flatMap lowBitsFirst = messageBits zs := fun zs => by
      rw [messageBits, List.flatMap_map]
    have heq := eq_of_foldl_lfsrChunk_eq (by decide) (by decide) (by simpa using h.length)
      ((hbits xs).trans hx) ((hbits ys).trans hy) huv hu (crc32_eq_iff_register.1 hcrc)
    exact messageBits_inj h.length (by rw [hx, hy, heq])
  · intro heq
    rw [heq]

/-! ## Archives with another content -/

/-- Writing over the content of an entry keeps its content range: the local header stands in front
of it. -/
theorem contentRange_overwrite {z c : List UInt8} {e : CdEntry} {b : Nat} {r : Range}
    (hr : contentRange z e b = .ok r) (hlen : c.length = r.stop - r.start) :
    contentRange (overwrite z r.start c) e b = .ok r := by
  obtain ⟨hsig, hflags, hstart, hstop, hroom, hz⟩ := contentRange_eq_ok.1 hr
  have hfix := hstart
  simp only [localHeaderFixedLen] at hfix
  have keep : ∀ i n, i + n ≤ 30 → slice (overwrite z r.start c) (e.localHeaderOffset + i) n =
      slice z (e.localHeaderOffset + i) n :=
    fun i n hi => slice_overwrite_before (by omega) (by omega)
  refine contentRange_eq_ok.2 ⟨?_, ?_, ?_, hstop, hroom, ?_⟩
  · rw [← hsig]
    exact u32At_congr (keep 0 4 (by omega))
  · rw [← hflags]
    exact u16At_congr (keep 6 2 (by omega))
  · rw [u16At_congr (keep 26 2 (by omega)), u16At_congr (keep 28 2 (by omega))]
    exact hstart
  · rw [length_overwrite (by omega)]
    exact hz

/-- Writing over the content of an entry keeps its binding range: CRC and sizes are read in front of
the content or behind it. -/
theorem bindingRange_overwrite {z c : List UInt8} {e : CdEntry} {b : Nat} {r t : Range}
    (hb : b ≤ z.length) (hr : contentRange z e b = .ok r) (hlen : c.length = r.stop - r.start)
    (ht : bindingRange z e b = .ok t) : bindingRange (overwrite z r.start c) e b = .ok t := by
  obtain ⟨-, -, hstart, hstop, -, hz⟩ := contentRange_eq_ok.1 hr
  simp only [localHeaderFixedLen] at hstart
  have hlength : (overwrite z r.start c).length = z.length := length_overwrite (by omega)
  rw [bindingRange_eq_ok_of_content hr, bindingEnd_eq_ok hb (by omega)] at ht
  rw [bindingRange_eq_ok_of_content (contentRange_overwrite hr hlen),
    bindingEnd_eq_ok (by omega) (by omega), hlength]
  have hfield : ∀ p, p + 4 ≤ r.start ∨ r.stop ≤ p →
      u32At (overwrite z r.start c) p = u32At z p :=
    fun p hp => u32At_congr (slice_overwrite_of_disjoint (by omega) (by omega))
  have hsizes : ∀ p, p + 12 ≤ r.start ∨ r.stop ≤ p →
      (SizesAt e (overwrite z r.start c) p ↔ SizesAt e z p) := by
    intro p hp
    rw [SizesAt, SizesAt, hfield p (by omega), hfield (p + 4) (by omega), hfield (p + 8) (by omega)]
  rw [hfield r.stop (Or.inr (Nat.le_refl _)), hsizes r.stop (Or.inr (Nat.le_refl _)),
    hsizes (r.stop + 4) (Or.inr (Nat.le_add_right _ _)),
    hsizes (e.localHeaderOffset + 14) (Or.inl (by omega))]
  exact ht

namespace Archive

variable (A : Archive)

/-- The rooms of two entries lie beside each other. -/
theorem rooms_beside {i j : Nat} (hi : i < A.layout.entries.length)
    (hj : j < A.layout.entries.length) (hne : i ≠ j) :
    entryBoundary A.layout i ≤ A.layout.entries[j]!.localHeaderOffset ∨
      entryBoundary A.layout j ≤ A.layout.entries[i]!.localHeaderOffset := by
  obtain ⟨hi', hgeti⟩ := List.getElem?_eq_some_iff.1 (A.getElem?_room hi)
  obtain ⟨hj', hgetj⟩ := List.getElem?_eq_some_iff.1 (A.getElem?_room hj)
  have hpair := List.pairwise_iff_getElem.1 A.pairwise_rooms
  rcases Nat.lt_or_gt_of_ne hne with h | h
  · have hle := hpair i j hi' hj' h
    rw [hgeti, hgetj] at hle
    exact Or.inl hle
  · have hle := hpair j i hj' hi' h
    rw [hgeti, hgetj] at hle
    exact Or.inr hle

/-- An archive with another content of the same length has the same layout. -/
theorem parseLayout_overwrite {p : CdEntry × Nat} {r : Range} {c : List UInt8} (hp : p ∈ A.rooms)
    (hr : contentRange A.bytes p.1 p.2 = .ok r) (hlen : c.length = r.stop - r.start) :
    parseLayout (overwrite A.bytes r.start c) = .ok A.layout := by
  obtain ⟨-, -, -, hstop, hroom, -⟩ := contentRange_eq_ok.1 hr
  have hle := A.room_le hp
  have hdata : (overwrite A.data r.start c).length = A.data.length := length_overwrite (by omega)
  have hbytes : (A.replaceData _ hdata).bytes = overwrite A.bytes r.start c := by
    rw [replaceData_bytes, bytes, List.drop_left, overwrite_append_left (by omega)]
  rw [← hbytes, parseLayout_bytes, A.replaceData_layout hdata]

end Archive

/-- **A burst in a stored content is seen where it is, and nowhere else**: the layout and the ranges
of the damaged entry are the same, so that the crate itself does not object, but the content has not
the CRC of the headers; and every other entry is intact. -/
theorem damage_detected {z c : List UInt8} {L : ZipLayout} {i : Nat} {r : Range}
    (hL : parseLayout z = .ok L) (hz : Intact z L) (hi : i < L.entries.length)
    (hplain : L.entries[i]!.plain = true) (hr : entryContentRange z L i = .ok r)
    (hburst : WithinBurst (slice z r.start (r.stop - r.start)) c)
    (hne : slice z r.start (r.stop - r.start) ≠ c) :
    parseLayout (overwrite z r.start c) = .ok L ∧
      (∃ t, entryBindingRange (overwrite z r.start c) L i = .ok t) ∧
      entryContentRange (overwrite z r.start c) L i = .ok r ∧
      slice (overwrite z r.start c) r.start (r.stop - r.start) = c ∧
      crc32 c ≠ L.entries[i]!.crc32 ∧
      ∀ j < L.entries.length, j ≠ i → IntactAt (overwrite z r.start c) L j := by
  obtain ⟨A, rfl, rfl⟩ := exists_archive_of_parseLayout hL
  have hroomi := List.mem_of_getElem? (A.getElem?_room hi)
  have hlei := A.room_le_bytes hroomi
  obtain ⟨-, -, hstart, hstop, hroom, hlast⟩ := contentRange_eq_ok.1 hr
  simp only [localHeaderFixedLen] at hstart
  have hlen : c.length = r.stop - r.start := by
    rw [← hburst.length]
    exact length_slice (by omega)
  have hlength : (overwrite A.bytes r.start c).length = A.bytes.length :=
    length_overwrite (by omega)
  obtain ⟨⟨t, ht⟩, hcrc⟩ := hz.all i hi
  refine ⟨A.parseLayout_overwrite hroomi hr hlen, ⟨t, bindingRange_overwrite hlei hr hlen ht⟩,
    contentRange_overwrite hr hlen, ?_, fun hbad => ?_, fun j hj hji => ?_⟩
  · rw [← hlen]
    exact slice_overwrite_self (by omega)
  · -- Both contents have the CRC of the header.
    exact hne ((crc32_burst hburst).1 ((hcrc r hplain hr).trans hbad.symm))
  · -- The room of another entry does not meet the content.
    have hroomj := List.mem_of_getElem? (A.getElem?_room hj)
    have hlej : entryBoundary A.layout j ≤ A.bytes.length := A.room_le_bytes hroomj
    have hsame : ∀ k, A.layout.entries[j]!.localHeaderOffset ≤ k → k < entryBoundary A.layout j →
        (overwrite A.bytes r.start c)[k]? = A.bytes[k]? := by
      intro k hk hkj
      refine getElem?_overwrite_of_not_mem (by omega) ?_
      rcases A.rooms_beside hi hj (Ne.symm hji) with h | h <;> omega
    have hlej' : entryBoundary A.layout j ≤ (overwrite A.bytes r.start c).length := by omega
    obtain ⟨⟨t, ht⟩, hcrc⟩ := hz.all j hj
    refine ⟨⟨t, (bindingRange_congr hlej' hlej hsame).2 ht⟩, fun s hpl hs => ?_⟩
    have hs' := (contentRange_congr hlej' hlej hsame).1 hs
    obtain ⟨-, -, hstart', hstop', hroom', -⟩ := contentRange_eq_ok.1 hs'
    rw [← hcrc s hpl hs']
    exact congrArg crc32 (slice_congr fun k h1 h2 => hsame k (by omega) (by omega))

/-- A changed byte in the first of two members. -/
theorem damage_detected_first :
    crc32 [9] ≠ crc32 [7] ∧
      IntactAt (overwrite (buildZip [("a", [7]), ("b", [8])]) 31 [9])
        { entries := [⟨"a", 0, 0, crc32 [7], 1, 1, 0, 64, 47⟩,
            ⟨"b", 0, 0, crc32 [8], 1, 1, 32, 111, 47⟩]
          cdStart := 64
          eocdOffset := 158 } 1 := by
  obtain ⟨-, -, -, -, hcrc, hothers⟩ :=
    damage_detected (z := buildZip [("a", [7]), ("b", [8])]) (c := [9]) (i := 0) (r := ⟨31, 32⟩)
      (L := { entries := [⟨"a", 0, 0, crc32 [7], 1, 1, 0, 64, 47⟩,
                ⟨"b", 0, 0, crc32 [8], 1, 1, 32, 111, 47⟩]
              cdStart := 64
              eocdOffset := 158 })
      (by decide +kernel)
      { tidy := by decide
        all := fun i hi => by
          have hi' : i = 0 ∨ i = 1 := Nat.le_one_iff_eq_zero_or_eq_one.1 (Nat.le_of_lt_succ hi)
          rcases hi' with rfl | rfl
          · exact IntactAt.of_ranges (t := ⟨0, 32⟩) (r := ⟨31, 32⟩) (by decide +kernel)
              (by decide +kernel) (by decide +kernel)
          · exact IntactAt.of_ranges (t := ⟨32, 64⟩) (r := ⟨63, 64⟩) (by decide +kernel)
              (by decide +kernel) (by decide +kernel) }
      (by decide) (by decide) (by decide +kernel)
      ⟨by decide +kernel, [], messageBits [7], messageBits [9], [], by decide +kernel,
        by decide +kernel, by decide +kernel, by decide +kernel⟩
      (by decide +kernel)
  exact ⟨hcrc, hothers 1 (by decide) (by decide)⟩

end C2paZip
