import C2paZip.Archive.Member

/-!
# Data descriptors

`DescriptorAt z e pos n` says that the `n` bytes at `pos` are a data descriptor that agrees with the
directory entry `e`, in one of its two forms. The parser tells the forms apart by their first four
bytes, and so takes one form for the other where the CRC of the shorter one is the signature of the
longer one (`descriptor_forms_iff`).
-/

set_option autoImplicit false

namespace C2paZip

open Library

/-- The `n` bytes at `pos` are a descriptor of `e`: CRC and sizes, with or without the signature in
front. -/
def DescriptorAt (z : List UInt8) (e : CdEntry) (pos n : Nat) : Prop :=
  n = 12 ∧ SizesAt e z pos ∨
    n = 16 ∧ u32At z pos = dataDescriptorSig ∧ SizesAt e z (pos + 4)

instance (z : List UInt8) (e : CdEntry) (pos n : Nat) : Decidable (DescriptorAt z e pos n) := by
  unfold DescriptorAt
  infer_instance

/-- With bit 3 set the binding range ends behind a descriptor, but not behind one without signature
that looks like one with signature. -/
theorem bindingEnd_eq_ok_iff_descriptor {z : List UInt8} {e : CdEntry} {b stop t : Nat}
    (hb : b ≤ z.length) (hlh : e.localHeaderOffset + 26 ≤ z.length)
    (hbit : e.flags &&& 0x0008 ≠ 0) :
    bindingEnd z e b stop = .ok t ↔ stop ≤ t ∧ t ≤ b ∧ DescriptorAt z e stop (t - stop) ∧
      ¬ (t = stop + 12 ∧ u32At z stop = dataDescriptorSig) := by
  rw [bindingEnd_eq_ok hb hlh, if_pos hbit]
  by_cases hsig : stop + 4 ≤ z.length ∧ u32At z stop = dataDescriptorSig
  · rw [if_pos hsig]
    constructor
    · rintro ⟨rfl, htb, hsizes⟩
      exact ⟨by omega, htb, Or.inr ⟨by omega, hsig.2, hsizes⟩, fun h => by omega⟩
    · rintro ⟨hle, htb, hd | hd, hne⟩
      · exact absurd ⟨by omega, hsig.2⟩ hne
      · exact ⟨by omega, htb, hd.2.2⟩
  · rw [if_neg hsig]
    constructor
    · rintro ⟨rfl, htb, hsizes⟩
      exact ⟨by omega, htb, Or.inl ⟨by omega, hsizes⟩, fun h => hsig ⟨by omega, h.2⟩⟩
    · rintro ⟨hle, htb, hd | hd, -⟩
      · exact ⟨by omega, htb, hd.2⟩
      · exact absurd ⟨by omega, hd.2.1⟩ hsig

/-- A binding range is the end of the binding range behind the content. -/
theorem bindingRange_eq_ok_of_content {z : List UInt8} {e : CdEntry} {b : Nat} {r s : Range}
    (hr : contentRange z e b = .ok r) :
    bindingRange z e b = .ok s ↔
      bindingEnd z e b r.stop = .ok s.stop ∧ e.localHeaderOffset = s.start := by
  rw [bindingRange]
  simp only [bind_eq_ok, pure_eq_ok, hr, Except.ok.injEq, exists_eq_left']
  constructor
  · rintro ⟨t, ht, rfl⟩
    exact ⟨ht, rfl⟩
  · rintro ⟨ht, hs⟩
    exact ⟨s.stop, ht, by rw [hs]⟩

/-- **Both forms of a data descriptor are accepted** exactly where the room does not hold a
descriptor without signature whose CRC is the signature. -/
theorem descriptor_forms_iff {z : List UInt8} {L : ZipLayout} {i : Nat} {r : Range}
    (hparse : parseLayout z = .ok L) (hi : i < L.entries.length)
    (hbit : L.entries[i]!.flags &&& 0x0008 ≠ 0) (hr : entryContentRange z L i = .ok r) :
    ((DescriptorAt z L.entries[i]! r.stop (entryBoundary L i - r.stop) →
        entryBindingRange z L i =
          .ok ⟨L.entries[i]!.localHeaderOffset, entryBoundary L i⟩) ∧
      ∀ s, entryBindingRange z L i = .ok s →
        DescriptorAt z L.entries[i]! r.stop (s.stop - r.stop)) ↔
    ¬ (entryBoundary L i = r.stop + 12 ∧ SizesAt L.entries[i]! z r.stop ∧
      L.entries[i]!.crc32 = dataDescriptorSig) := by
  obtain ⟨A, rfl, rfl⟩ := exists_archive_of_parseLayout hparse
  have hb := A.room_le_bytes (List.mem_of_getElem? (A.getElem?_room hi))
  simp only at hb
  obtain ⟨-, -, hstart, hstop, hroom, -⟩ := contentRange_eq_ok.1 hr
  simp only [localHeaderFixedLen] at hstart
  have hbind : ∀ s, entryBindingRange A.bytes A.layout i = .ok s ↔ (r.stop ≤ s.stop ∧
      s.stop ≤ entryBoundary A.layout i ∧
      DescriptorAt A.bytes A.layout.entries[i]! r.stop (s.stop - r.stop) ∧
      ¬ (s.stop = r.stop + 12 ∧ u32At A.bytes r.stop = dataDescriptorSig)) ∧
      A.layout.entries[i]!.localHeaderOffset = s.start := by
    intro s
    rw [entryBindingRange, bindingRange_eq_ok_of_content hr,
      bindingEnd_eq_ok_iff_descriptor hb (by omega) hbit]
  simp only [hbind]
  constructor
  · -- A descriptor whose CRC is the signature is taken for the other form, which does not fit.
    rintro ⟨haccept, -⟩ ⟨hlen, hsizes, hcrc⟩
    obtain ⟨⟨-, -, -, hne⟩, -⟩ := haccept (Or.inl ⟨by omega, hsizes⟩)
    exact hne ⟨hlen, hsizes.1.trans hcrc⟩
  · intro hcond
    refine ⟨fun hd => ⟨⟨hroom, Nat.le_refl _, hd, ?_⟩, trivial⟩, fun s hs => hs.1.2.2.1⟩
    rintro ⟨hlen, hsig⟩
    rcases hd with hd | hd
    · exact hcond ⟨hlen, hd.2, hd.2.1.symm.trans hsig⟩
    · omega

/-- The archive of one stored member `a` with bit 3 set and the descriptor `descriptor`. -/
def described (content descriptor : List UInt8) : List UInt8 :=
  let crc := crc32 content
  let size := UInt32.ofNat content.length
  let header := overwrite (writeLocalHeader [] (asBytes "a") 0 0 1) 6 (u16ToLe 8)
  let directory := overwrite (writeCdHeader [] (asBytes "a") crc size 1 0) 8 (u16ToLe 8)
  let data := header ++ (content ++ descriptor)
  writeEocd (data ++ directory) 1 47 (UInt32.ofNat data.length)

/-- A descriptor with signature behind one byte of content. -/
theorem descriptor_forms_signature :
    entryBindingRange (described [7] (u32ToLe dataDescriptorSig ++ (u32ToLe (crc32 [7]) ++
        (u32ToLe 1 ++ u32ToLe 1))))
      ⟨[⟨"a", 8, 0, crc32 [7], 1, 1, 0, 48, 47⟩], 48, 95⟩ 0 = .ok ⟨0, 48⟩ := by
  exact ((descriptor_forms_iff (r := ⟨31, 32⟩) (by decide +kernel) (by decide) (by decide +kernel)
    (by decide +kernel)).2 (by decide +kernel)).1 (by decide +kernel)

/-- Four bytes whose CRC is the descriptor signature. -/
def signatureCrc : List UInt8 := [172, 10, 122, 213]

/-- A descriptor without signature that is not recognised. -/
theorem descriptor_form_missed :
    ∃ z L r, z = described signatureCrc (u32ToLe dataDescriptorSig ++ (u32ToLe 4 ++ u32ToLe 4)) ∧
      parseLayout z = .ok L ∧ L.entries[0]!.flags &&& 0x0008 ≠ 0 ∧
      entryContentRange z L 0 = .ok r ∧ slice z r.start (r.stop - r.start) = signatureCrc ∧
      L.entries[0]!.crc32 = crc32 signatureCrc ∧
      DescriptorAt z L.entries[0]! r.stop (entryBoundary L 0 - r.stop) ∧
      entryBindingRange z L 0 = .error .malformedDataDescriptor := by
  refine ⟨_, ⟨[⟨"a", 8, 0, dataDescriptorSig, 4, 4, 0, 47, 47⟩], 47, 94⟩, ⟨31, 35⟩, rfl,
    by decide +kernel, by decide +kernel, by decide +kernel, by decide +kernel, by decide +kernel,
    by decide +kernel, by decide +kernel⟩

end C2paZip
