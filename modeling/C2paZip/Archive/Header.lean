import C2paZip.Zip.Layout

/-!
# Central-directory headers as values

`CdHeader` is one central-directory header: its bytes, together with the facts that make the
directory walk accept them. The walk step succeeds exactly where such a value stands at the cursor
(`readCdHeader_eq_ok`). A header determines where it ends, so a concatenation of headers can be
cut in one way only (`CdHeader.append_inj`). The two fields that the crate rewrites in place are the
local-header offset (`CdHeader.patchOffset`) and the CRC (`CdHeader.setCrc`).
-/

set_option autoImplicit false

namespace C2paZip

open Library

/-- A central-directory header that the walk accepts: signature, a length that matches the three
length fields, a UTF-8 name and no ZIP64 size. -/
structure CdHeader where
  bytes : List UInt8
  name : String
  sig_eq : u32At bytes 0 = cdHeaderSig
  length_eq : bytes.length = cdHeaderFixedLen + (u16At bytes 28).toNat +
    (u16At bytes 30).toNat + (u16At bytes 32).toNat
  name_eq : slice bytes cdHeaderFixedLen (u16At bytes 28).toNat = asBytes name
  compressed_ne : u32At bytes 20 ≠ zip64SentinelU32
  uncompressed_ne : u32At bytes 24 ≠ zip64SentinelU32

namespace CdHeader

def flags (h : CdHeader) : UInt16 := u16At h.bytes 8
def method (h : CdHeader) : UInt16 := u16At h.bytes 10
def crc32 (h : CdHeader) : UInt32 := u32At h.bytes 16
def compressedSize (h : CdHeader) : Nat := (u32At h.bytes 20).toNat
def uncompressedSize (h : CdHeader) : Nat := (u32At h.bytes 24).toNat
def localOffset (h : CdHeader) : Nat := (u32At h.bytes 42).toNat

/-- The entry the walk makes of the header at position `pos`. -/
def entry (h : CdHeader) (pos : Nat) : CdEntry where
  name := h.name
  flags := h.flags
  method := h.method
  crc32 := h.crc32
  compressedSize := h.compressedSize
  uncompressedSize := h.uncompressedSize
  localHeaderOffset := h.localOffset
  cdHeaderOffset := pos
  cdHeaderLen := h.bytes.length

theorem fixed_le (h : CdHeader) : 46 ≤ h.bytes.length := by
  have hlen := h.length_eq
  simp only [cdHeaderFixedLen] at hlen
  omega

/-- The name length field is the length of the name. -/
theorem nameLen_eq (h : CdHeader) : (u16At h.bytes 28).toNat = (asBytes h.name).length := by
  have hlen := h.length_eq
  rw [← h.name_eq, length_slice (by omega)]

/-- The name follows the fixed part. -/
theorem slice_name (h : CdHeader) : slice h.bytes 46 (asBytes h.name).length = asBytes h.name := by
  have hname := h.name_eq
  rwa [h.nameLen_eq] at hname

theorem name_le (h : CdHeader) : 46 + (asBytes h.name).length ≤ h.bytes.length := by
  have hlen := h.length_eq
  rw [h.nameLen_eq, cdHeaderFixedLen] at hlen
  omega

/-- The bytes determine the header. -/
@[ext] theorem ext {h k : CdHeader} (hb : h.bytes = k.bytes) : h = k := by
  have hn : h.name = k.name := by
    apply asBytes_injective
    rw [← h.name_eq, ← k.name_eq, hb]
  cases h
  cases k
  cases hb
  cases hn
  rfl

/-- Headers with equal length fields have equal lengths. -/
theorem length_eq_of_fields {h k : CdHeader} (hs : slice h.bytes 28 6 = slice k.bytes 28 6) :
    h.bytes.length = k.bytes.length := by
  -- Name, extra and comment length stand at 28, 30 and 32.
  have field : ∀ i, i + 2 ≤ 6 → u16At h.bytes (28 + i) = u16At k.bytes (28 + i) := by
    intro i hi
    rw [← u16At_slice hi, ← u16At_slice hi, hs]
  rw [h.length_eq, k.length_eq, field 0 (by omega), field 2 (by omega), field 4 (by omega)]

/-- A header is self-delimiting. -/
theorem append_inj {h k : CdHeader} {xs ys : List UInt8} (heq : h.bytes ++ xs = k.bytes ++ ys) :
    h = k ∧ xs = ys := by
  have hh := h.fixed_le
  have hk := k.fixed_le
  have hs : slice h.bytes 28 6 = slice k.bytes 28 6 := by
    have hx : slice (h.bytes ++ xs) 28 6 = slice h.bytes 28 6 := slice_append_left (by omega)
    rw [← hx, heq, slice_append_left (by omega)]
  obtain ⟨hb, hxy⟩ := List.append_inj heq (length_eq_of_fields hs)
  exact ⟨ext hb, hxy⟩

/-! ## Rewriting fields in place -/

/-- A header with a field of the fixed part rewritten, at a position that none of the checked
fields meets. -/
def rewriteField (h : CdHeader) (pos : Nat) (x : UInt32)
    (hpos : pos = 16 ∨ pos = 42) : CdHeader :=
  have hfix := h.fixed_le
  have hlen : (overwrite h.bytes pos (u32ToLe x)).length = h.bytes.length :=
    length_overwrite (by rw [length_u32ToLe]; omega)
  -- The checked fields lie in front of, between and behind the two fields that are rewritten.
  have keep : ∀ p n, p + n ≤ 16 ∨ (20 ≤ p ∧ p + n ≤ 42) ∨ 46 ≤ p →
      slice (overwrite h.bytes pos (u32ToLe x)) p n = slice h.bytes p n := by
    intro p n hp
    by_cases hb : p + n ≤ pos
    · exact slice_overwrite_before (by omega) hb
    · exact slice_overwrite_after n (by omega) (by rw [length_u32ToLe]; omega)
  have h28 : u16At (overwrite h.bytes pos (u32ToLe x)) 28 = u16At h.bytes 28 :=
    u16At_congr (keep 28 2 (by omega))
  { bytes := overwrite h.bytes pos (u32ToLe x)
    name := h.name
    sig_eq := by rw [u32At_congr (keep 0 4 (by omega)), h.sig_eq]
    length_eq := by
      rw [hlen, h28, u16At_congr (keep 30 2 (by omega)), u16At_congr (keep 32 2 (by omega)),
        h.length_eq]
    name_eq := by rw [h28, keep cdHeaderFixedLen _ (Or.inr (Or.inr (Nat.le_refl 46))), h.name_eq]
    compressed_ne := by
      rw [u32At_congr (keep 20 4 (by omega))]
      exact h.compressed_ne
    uncompressed_ne := by
      rw [u32At_congr (keep 24 4 (by omega))]
      exact h.uncompressed_ne }

/-- The header with its local-header offset patched. -/
def patchOffset (h : CdHeader) (off : UInt32) : CdHeader := h.rewriteField 42 off (Or.inr rfl)

/-- The header with its CRC replaced. -/
def setCrc (h : CdHeader) (crc : UInt32) : CdHeader := h.rewriteField 16 crc (Or.inl rfl)

section Rewrite

variable (h : CdHeader) (x y : UInt32)

theorem patchOffset_bytes : (h.patchOffset x).bytes = overwrite h.bytes 42 (u32ToLe x) := rfl

theorem setCrc_bytes : (h.setCrc x).bytes = overwrite h.bytes 16 (u32ToLe x) := rfl

@[simp] theorem patchOffset_length : (h.patchOffset x).bytes.length = h.bytes.length := by
  have hfix := h.fixed_le
  exact length_overwrite (by rw [length_u32ToLe]; omega)

@[simp] theorem setCrc_length : (h.setCrc x).bytes.length = h.bytes.length := by
  have hfix := h.fixed_le
  exact length_overwrite (by rw [length_u32ToLe]; omega)

theorem patchOffset_slice {p n : Nat} (hp : p + n ≤ 42) :
    slice (h.patchOffset x).bytes p n = slice h.bytes p n := by
  have hfix := h.fixed_le
  exact slice_overwrite_before (by omega) hp

/-- The entry of a patched header differs in the patched field only. -/
theorem patchOffset_entry (pos : Nat) :
    (h.patchOffset x).entry pos = { h.entry pos with localHeaderOffset := x.toNat } := by
  have hfix := h.fixed_le
  have h42 : (h.patchOffset x).localOffset = x.toNat := by
    rw [localOffset, patchOffset_bytes, u32At_overwrite_self (by omega)]
  simp only [entry, h42, patchOffset_length]
  simp only [flags, method, crc32, compressedSize, uncompressedSize,
    u16At_congr (h.patchOffset_slice x (p := 8) (n := 2) (by omega)),
    u16At_congr (h.patchOffset_slice x (p := 10) (n := 2) (by omega)),
    u32At_congr (h.patchOffset_slice x (p := 16) (n := 4) (by omega)),
    u32At_congr (h.patchOffset_slice x (p := 20) (n := 4) (by omega)),
    u32At_congr (h.patchOffset_slice x (p := 24) (n := 4) (by omega))]
  rfl

theorem setCrc_slice {p n : Nat} (hp : p + n ≤ 16 ∨ 20 ≤ p) :
    slice (h.setCrc x).bytes p n = slice h.bytes p n := by
  have hfix := h.fixed_le
  rcases hp with hp | hp
  · exact slice_overwrite_before (by omega) hp
  · exact slice_overwrite_after n (by omega) (by rw [length_u32ToLe]; omega)

/-- The entry of a header with a new CRC differs in the CRC only. -/
theorem setCrc_entry (pos : Nat) : (h.setCrc x).entry pos = { h.entry pos with crc32 := x } := by
  have hfix := h.fixed_le
  have h16 : (h.setCrc x).crc32 = x := by
    rw [crc32, setCrc_bytes, u32At_overwrite_self (by omega)]
  simp only [entry, h16, setCrc_length]
  simp only [flags, method, compressedSize, uncompressedSize, localOffset,
    u16At_congr (h.setCrc_slice x (p := 8) (n := 2) (by omega)),
    u16At_congr (h.setCrc_slice x (p := 10) (n := 2) (by omega)),
    u32At_congr (h.setCrc_slice x (p := 20) (n := 4) (by omega)),
    u32At_congr (h.setCrc_slice x (p := 24) (n := 4) (by omega)),
    u32At_congr (h.setCrc_slice x (p := 42) (n := 4) (by omega))]
  rfl

/-- A second patch covers the first. -/
@[simp] theorem patchOffset_patchOffset : (h.patchOffset x).patchOffset y = h.patchOffset y := by
  have hfix := h.fixed_le
  apply ext
  rw [patchOffset_bytes, patchOffset_bytes, patchOffset_bytes,
    overwrite_overwrite (by omega) (by simp)]

/-- Patching in the offset that already stands there changes nothing. -/
theorem patchOffset_self (hx : x = u32At h.bytes 42) : h.patchOffset x = h := by
  have hfix := h.fixed_le
  apply ext
  rw [patchOffset_bytes, hx, u32ToLe_u32At (by omega), overwrite_slice (by omega)]

end Rewrite

end CdHeader

/-! ## The checks of the walk -/

/-- What one round of the walk checks, field by field. -/
theorem readCdHeader_eq_ok_fields {bytes : List UInt8} {eocd cdStart cursor next : Nat}
    {e : CdEntry} :
    readCdHeader bytes eocd cdStart cursor = .ok (e, next) ↔
      u32At bytes cursor = cdHeaderSig ∧ u32At bytes (cursor + 42) ≠ zip64SentinelU32 ∧
      u32At bytes (cursor + 20) ≠ zip64SentinelU32 ∧ u32At bytes (cursor + 24) ≠ zip64SentinelU32 ∧
      cursor + 46 + (u16At bytes (cursor + 28)).toNat ≤ bytes.length ∧
      slice bytes (cursor + 46) (u16At bytes (cursor + 28)).toNat = asBytes e.name ∧
      (u32At bytes (cursor + 42)).toNat < cdStart ∧
      next = cursor + 46 + (u16At bytes (cursor + 28)).toNat +
        (u16At bytes (cursor + 30)).toNat + (u16At bytes (cursor + 32)).toNat ∧ next ≤ eocd ∧
      e = { name := e.name
            flags := u16At bytes (cursor + 8)
            method := u16At bytes (cursor + 10)
            crc32 := u32At bytes (cursor + 16)
            compressedSize := (u32At bytes (cursor + 20)).toNat
            uncompressedSize := (u32At bytes (cursor + 24)).toNat
            localHeaderOffset := (u32At bytes (cursor + 42)).toNat
            cdHeaderOffset := cursor
            cdHeaderLen := next - cursor } := by
  simp only [readCdHeader, bind_eq_ok, failIf_eq_ok, okOr_eq_ok, readU16_eq_ok, readU32_eq_ok,
    pure_eq_ok, getRange_eq_some, fromUtf8_eq_some, exists_and_left, exists_eq_left', and_assoc,
    exists_const, Nat.add_sub_cancel_left, not_lt, ge_iff_le, not_le, gt_iff_lt, not_or, ne_eq,
    not_not, cdHeaderFixedLen]
  constructor
  · rintro ⟨-, hsig, -, -, -, -, -, -, -, -, -, hoff, hc, hu, -, hlen, name, hname, hlo, hnext, heq⟩
    obtain ⟨rfl, rfl⟩ := Prod.mk.inj heq
    exact ⟨hsig, hoff, hc, hu, hlen, hname.symm, hlo, rfl, hnext, rfl⟩
  · rintro ⟨hsig, hoff, hc, hu, hlen, hname, hlo, rfl, hnext, he⟩
    exact ⟨by omega, hsig, by omega, by omega, by omega, by omega, by omega, by omega, by omega,
      by omega, by omega, hoff, hc, hu, by omega, hlen, e.name, hname.symm, hlo, hnext,
      by rw [← he]⟩

/-! ## Headers inside an input -/

namespace CdHeader

section OfSlice

variable {bytes : List UInt8} {cursor : Nat} {h : CdHeader}
  (hs : slice bytes cursor h.bytes.length = h.bytes)

include hs

theorem u16At_of_slice {i : Nat} (hi : i + 2 ≤ 46) :
    u16At bytes (cursor + i) = u16At h.bytes i := by
  have hfix := h.fixed_le
  rw [← hs, u16At_slice (by omega)]

theorem u32At_of_slice {i : Nat} (hi : i + 4 ≤ 46) :
    u32At bytes (cursor + i) = u32At h.bytes i := by
  have hfix := h.fixed_le
  rw [← hs, u32At_slice (by omega)]

theorem name_of_slice :
    slice bytes (cursor + 46) (u16At bytes (cursor + 28)).toNat = asBytes h.name := by
  have hname := h.slice_name
  rw [← hs, slice_slice h.name_le] at hname
  rw [u16At_of_slice hs (by omega), h.nameLen_eq, hname]

/-- The entry of a header, read from the input. -/
theorem entry_of_slice : h.entry cursor =
    { name := h.name
      flags := u16At bytes (cursor + 8)
      method := u16At bytes (cursor + 10)
      crc32 := u32At bytes (cursor + 16)
      compressedSize := (u32At bytes (cursor + 20)).toNat
      uncompressedSize := (u32At bytes (cursor + 24)).toNat
      localHeaderOffset := (u32At bytes (cursor + 42)).toNat
      cdHeaderOffset := cursor
      cdHeaderLen := h.bytes.length } := by
  rw [u16At_of_slice hs (by omega), u16At_of_slice hs (by omega), u32At_of_slice hs (by omega),
    u32At_of_slice hs (by omega), u32At_of_slice hs (by omega), u32At_of_slice hs (by omega)]
  rfl

end OfSlice

/-- Fields that the walk accepts are those of a header value. -/
theorem exists_of_fields {bytes : List UInt8} {cursor n : Nat} {name : String}
    (hn : n = 46 + (u16At bytes (cursor + 28)).toNat + (u16At bytes (cursor + 30)).toNat +
      (u16At bytes (cursor + 32)).toNat)
    (hlen : cursor + n ≤ bytes.length) (hsig : u32At bytes cursor = cdHeaderSig)
    (hname : slice bytes (cursor + 46) (u16At bytes (cursor + 28)).toNat = asBytes name)
    (hc : u32At bytes (cursor + 20) ≠ zip64SentinelU32)
    (hu : u32At bytes (cursor + 24) ≠ zip64SentinelU32) :
    ∃ h : CdHeader, h.bytes = slice bytes cursor n ∧ h.name = name := by
  have hbytes : (slice bytes cursor n).length = n := length_slice hlen
  have at16 : ∀ i, i + 2 ≤ 46 → u16At (slice bytes cursor n) i = u16At bytes (cursor + i) :=
    fun i hi => u16At_slice (by omega)
  have at32 : ∀ i, i + 4 ≤ 46 → u32At (slice bytes cursor n) i = u32At bytes (cursor + i) :=
    fun i hi => u32At_slice (by omega)
  exact ⟨{ bytes := slice bytes cursor n
           name := name
           sig_eq := (at32 0 (by omega)).trans hsig
           length_eq := by
             rw [hbytes, at16 28 (by omega), at16 30 (by omega), at16 32 (by omega)]
             exact hn
           name_eq := by
             rw [at16 28 (by omega), slice_slice (by simp only [cdHeaderFixedLen]; omega)]
             exact hname
           compressed_ne := by rw [at32 20 (by omega)]; exact hc
           uncompressed_ne := by rw [at32 24 (by omega)]; exact hu }, rfl, rfl⟩

end CdHeader

/-! ## The walk step -/

/-- **One round of the walk reads exactly one header value**, which ends at or before the EOCD and
points before the directory. -/
theorem readCdHeader_eq_ok {bytes : List UInt8} {eocd cdStart cursor next : Nat} {e : CdEntry}
    (heocd : eocd ≤ bytes.length) (hcd : cdStart < 2 ^ 32) :
    readCdHeader bytes eocd cdStart cursor = .ok (e, next) ↔
      ∃ h : CdHeader, next = cursor + h.bytes.length ∧ next ≤ eocd ∧
        slice bytes cursor h.bytes.length = h.bytes ∧ h.localOffset < cdStart ∧
        e = h.entry cursor := by
  rw [readCdHeader_eq_ok_fields]
  constructor
  · rintro ⟨hsig, -, hc, hu, -, hname, hlo, hnext, hle, he⟩
    -- The header value is the slice up to the next cursor.
    obtain ⟨n, rfl⟩ := Nat.exists_eq_add_of_le (show cursor ≤ next by omega)
    obtain ⟨h, hbytes, hn⟩ := CdHeader.exists_of_fields (n := n) (by omega)
      (by omega) hsig hname hc hu
    have hlen : h.bytes.length = n := by rw [hbytes, length_slice (by omega)]
    have hs : slice bytes cursor h.bytes.length = h.bytes := by rw [hlen, hbytes]
    refine ⟨h, by rw [hlen], hle, hs, ?_, ?_⟩
    · rw [CdHeader.u32At_of_slice hs (by omega)] at hlo
      exact hlo
    · rw [CdHeader.entry_of_slice hs, hn, hlen, he, Nat.add_sub_cancel_left]
  · rintro ⟨h, rfl, hle, hs, hlo, rfl⟩
    have hlen := h.length_eq
    have hname := h.name_le
    have h28 := CdHeader.u16At_of_slice hs (i := 28) (by omega)
    have h30 := CdHeader.u16At_of_slice hs (i := 30) (by omega)
    have h32 := CdHeader.u16At_of_slice hs (i := 32) (by omega)
    have h42 : (u32At bytes (cursor + 42)).toNat = h.localOffset := by
      rw [CdHeader.u32At_of_slice hs (by omega)]
      rfl
    rw [cdHeaderFixedLen, ← h28, ← h30, ← h32] at hlen
    refine ⟨?_, ?_, ?_, ?_, ?_, CdHeader.name_of_slice hs, by omega, by omega, hle, ?_⟩
    · exact (CdHeader.u32At_of_slice hs (i := 0) (by omega)).trans h.sig_eq
    · -- The offset is below a directory start that is itself a field.
      intro hoff
      have hmax : zip64SentinelU32.toNat = 2 ^ 32 - 1 := rfl
      rw [hoff] at h42
      omega
    · rw [CdHeader.u32At_of_slice hs (by omega)]
      exact h.compressed_ne
    · rw [CdHeader.u32At_of_slice hs (by omega)]
      exact h.uncompressed_ne
    · omega
    · rw [CdHeader.entry_of_slice hs, Nat.add_sub_cancel_left]

/-- **A round of the walk looks at the fixed part and the name only**; the header may end where the
bound allows, whatever stands there. -/
theorem readCdHeader_congr {x y : List UInt8} {eocd cdStart cursor next : Nat} {e : CdEntry}
    (hy : cursor + (46 + (asBytes e.name).length) ≤ y.length)
    (hxy : slice x cursor (46 + (asBytes e.name).length) =
      slice y cursor (46 + (asBytes e.name).length))
    (h : readCdHeader x eocd cdStart cursor = .ok (e, next)) :
    readCdHeader y eocd cdStart cursor = .ok (e, next) := by
  have at16 : ∀ i, i + 2 ≤ 46 → u16At y (cursor + i) = u16At x (cursor + i) := by
    intro i hi
    rw [← u16At_slice (n := 46 + (asBytes e.name).length) (by omega), ← hxy, u16At_slice (by omega)]
  have at32 : ∀ i, i + 4 ≤ 46 → u32At y (cursor + i) = u32At x (cursor + i) := by
    intro i hi
    rw [← u32At_slice (n := 46 + (asBytes e.name).length) (by omega), ← hxy, u32At_slice (by omega)]
  have hsig : u32At y cursor = u32At x cursor := at32 0 (by omega)
  have hname : slice y (cursor + 46) (asBytes e.name).length =
      slice x (cursor + 46) (asBytes e.name).length := by
    rw [← slice_slice (Nat.le_refl _), ← hxy, slice_slice (Nat.le_refl _)]
  obtain ⟨hs, hoff, hc, hu, hlen, hslice, hlo, hnext, hle, he⟩ := readCdHeader_eq_ok_fields.1 h
  have hnl : (asBytes e.name).length = (u16At x (cursor + 28)).toNat := by
    rw [← hslice, length_slice hlen]
  rw [readCdHeader_eq_ok_fields, hsig, at16 28 (by omega), at16 30 (by omega), at16 32 (by omega),
    at16 8 (by omega), at16 10 (by omega), at32 16 (by omega), at32 20 (by omega),
    at32 24 (by omega), at32 42 (by omega), ← hnl, hname, hnl]
  exact ⟨hs, hoff, hc, hu, by omega, hslice, hlo, hnext, hle, he⟩

end C2paZip
