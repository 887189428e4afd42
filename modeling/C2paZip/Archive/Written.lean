import C2paZip.Archive.Member

/-!
# What the writers write

The header writers of the crate write what its parser accepts: the end record is an EOCD record
without a comment, a stored directory header is a header value (`storedHeader`), and the local
header in front of the content is a member record of that header (`isMember_storedRecord`). An input
that ends in a written end record is cut by the parser where the writer joined it
(`Archive.parts_of_bytes_eq`), and file data and headers within the limits can be joined so
(`Archive.ofParts`).
-/

set_option autoImplicit false

namespace C2paZip

open Library

/-! ## The end record -/

section EndRecord

variable (out : List UInt8) (total : UInt16) (cdSize cdStart : UInt32)

theorem writeEocd_eq :
    writeEocd out total cdSize cdStart = out ++ writeEocd [] total cdSize cdStart :=
  rfl

@[simp] theorem length_writeEocd :
    (writeEocd out total cdSize cdStart).length = out.length + 22 := by
  simp [writeEocd]

@[simp] theorem u32At_writeEocd_sig : u32At (writeEocd [] total cdSize cdStart) 0 = eocdSig := by
  simp [writeEocd, u32At_u32ToLe_append]

@[simp] theorem u16At_writeEocd_total : u16At (writeEocd [] total cdSize cdStart) 10 = total := by
  simp [writeEocd, u16At_append_of_le]

@[simp] theorem u32At_writeEocd_size : u32At (writeEocd [] total cdSize cdStart) 12 = cdSize := by
  simp [writeEocd, u32At_append_of_le, u32At_u32ToLe_append]

@[simp] theorem u32At_writeEocd_start : u32At (writeEocd [] total cdSize cdStart) 16 = cdStart := by
  simp [writeEocd, u32At_append_of_le, u32At_u32ToLe_append]

theorem u16At_writeEocd_comment : u16At (writeEocd [] total cdSize cdStart) 20 = 0 := by
  simp [writeEocd, u16At_append_of_le, u16At_u16ToLe]

theorem isEocdAt_writeEocd : IsEocdAt (writeEocd [] total cdSize cdStart) 0 :=
  ⟨by simp [eocdMinLen], by simp, by simp [eocdMinLen, u16At_writeEocd_comment]⟩

theorem not_isEocdAt_writeEocd {q : Nat} (hq : 0 < q) :
    ¬ IsEocdAt (writeEocd [] total cdSize cdStart) q := by
  rintro ⟨hlen, -⟩
  simp only [eocdMinLen, length_writeEocd, List.length_nil] at hlen
  omega

end EndRecord

namespace Archive

/-- File data, headers and the bytes behind them, joined with a written end record. -/
def ofParts (data : List UInt8) (headers : List CdHeader) (gap : List UInt8)
    (hcount : headers.length < 65535) (hdata : data.length < 2 ^ 32 - 1)
    (hdir : (dirBytes headers ++ gap).length < 2 ^ 32 - 1)
    (hlocal : ∀ h ∈ headers, h.localOffset < data.length) : Archive where
  data := data
  headers := headers
  gap := gap
  eocd := writeEocd [] (UInt16.ofNat headers.length)
    (UInt32.ofNat (dirBytes headers ++ gap).length) (UInt32.ofNat data.length)
  eocd_at := isEocdAt_writeEocd _ _ _
  eocd_last := fun _ hq => not_isEocdAt_writeEocd _ _ _ hq
  total_eq := by rw [u16At_writeEocd_total, u16_toNat_ofNat (by omega)]
  total_ne := by
    rw [u16At_writeEocd_total]
    exact (u16OfNat_ne_sentinel (by omega)).2 hcount
  size_ne := by
    rw [u32At_writeEocd_size]
    exact (u32OfNat_ne_sentinel (by omega)).2 hdir
  offset_eq := by rw [u32At_writeEocd_start, u32_toNat_ofNat (by omega)]
  offset_ne := by
    rw [u32At_writeEocd_start]
    exact (u32OfNat_ne_sentinel (by omega)).2 hdata
  local_lt := hlocal

section OfParts

variable {data : List UInt8} {headers : List CdHeader} {gap : List UInt8}
  (hcount : headers.length < 65535) (hdata : data.length < 2 ^ 32 - 1)
  (hdir : (dirBytes headers ++ gap).length < 2 ^ 32 - 1)
  (hlocal : ∀ h ∈ headers, h.localOffset < data.length)

theorem ofParts_bytes : (ofParts data headers gap hcount hdata hdir hlocal).bytes =
    writeEocd (data ++ (dirBytes headers ++ gap)) (UInt16.ofNat headers.length)
      (UInt32.ofNat (dirBytes headers ++ gap).length) (UInt32.ofNat data.length) := by
  rw [bytes_eq_append_eocd, writeEocd_eq]
  rfl

end OfParts

/-- **What the parser makes of a written archive**: file data, directory and count as they were
joined, none of them at the limit. -/
theorem parts_of_bytes_eq {A : Archive} {data dir : List UInt8} {n : Nat} (hn : n < 2 ^ 16)
    (hdata : data.length < 2 ^ 32) (hdir : dir.length < 2 ^ 32)
    (hA : A.bytes = writeEocd (data ++ dir) (UInt16.ofNat n) (UInt32.ofNat dir.length)
      (UInt32.ofNat data.length)) :
    A.data = data ∧ dirBytes A.headers ++ A.gap = dir ∧ A.headers.length = n ∧
      n < 65535 ∧ data.length < 2 ^ 32 - 1 ∧ dir.length < 2 ^ 32 - 1 := by
  rw [bytes_eq_append_eocd, writeEocd_eq] at hA
  -- The written record has no comment and is the last suffix of its kind.
  obtain ⟨heocd, hfront⟩ := eocd_unique A.eocd_at A.eocd_last (isEocdAt_writeEocd _ _ _)
    (fun _ hq => not_isEocdAt_writeEocd _ _ _ hq) hA
  have hoffset := A.offset_eq
  have htotal := A.total_eq
  rw [heocd, u32At_writeEocd_start, u32_toNat_ofNat hdata] at hoffset
  rw [heocd, u16At_writeEocd_total, u16_toNat_ofNat hn] at htotal
  obtain ⟨hd, hdir'⟩ := List.append_inj hfront hoffset.symm
  -- None of the three fields is a ZIP64 sentinel, since the parser accepted them.
  have hcount := A.total_ne
  have hstart := A.offset_ne
  have hsize := A.size_ne
  rw [heocd, u16At_writeEocd_total, u16OfNat_ne_sentinel hn] at hcount
  rw [heocd, u32At_writeEocd_start, u32OfNat_ne_sentinel hdata] at hstart
  rw [heocd, u32At_writeEocd_size, u32OfNat_ne_sentinel hdir] at hsize
  exact ⟨hd, hdir', htotal.symm, hcount, hstart, hsize⟩

end Archive

/-! ## Stored entries -/

section StoredFields

variable (name : List UInt8) (crc size : UInt32) (nameLen : UInt16) (off : UInt32)

theorem writeLocalHeader_eq (out : List UInt8) :
    writeLocalHeader out name crc size nameLen =
      out ++ writeLocalHeader [] name crc size nameLen := rfl

theorem writeCdHeader_eq (out : List UInt8) :
    writeCdHeader out name crc size nameLen off =
      out ++ writeCdHeader [] name crc size nameLen off := rfl

@[simp] theorem length_writeCdHeader :
    (writeCdHeader [] name crc size nameLen off).length = 46 + name.length := by
  simp only [writeCdHeader, List.length_append, List.length_nil, length_u16ToLe, length_u32ToLe]
  omega

@[simp] theorem writeCdHeader_sig :
    u32At (writeCdHeader [] name crc size nameLen off) 0 = cdHeaderSig := by
  simp [writeCdHeader, u32At_u32ToLe_append]

@[simp] theorem writeCdHeader_flags :
    u16At (writeCdHeader [] name crc size nameLen off) 8 = 0 := by
  simp [writeCdHeader, u16At_append_of_le]

@[simp] theorem writeCdHeader_method :
    u16At (writeCdHeader [] name crc size nameLen off) 10 = 0 := by
  simp [writeCdHeader, u16At_append_of_le]

@[simp] theorem writeCdHeader_crc :
    u32At (writeCdHeader [] name crc size nameLen off) 16 = crc := by
  simp [writeCdHeader, u32At_append_of_le, u32At_u32ToLe_append]

@[simp] theorem writeCdHeader_compressedSize :
    u32At (writeCdHeader [] name crc size nameLen off) 20 = size := by
  simp [writeCdHeader, u32At_append_of_le, u32At_u32ToLe_append]

@[simp] theorem writeCdHeader_uncompressedSize :
    u32At (writeCdHeader [] name crc size nameLen off) 24 = size := by
  simp [writeCdHeader, u32At_append_of_le, u32At_u32ToLe_append]

@[simp] theorem writeCdHeader_nameLen :
    u16At (writeCdHeader [] name crc size nameLen off) 28 = nameLen := by
  simp [writeCdHeader, u16At_append_of_le]

@[simp] theorem writeCdHeader_extraLen :
    u16At (writeCdHeader [] name crc size nameLen off) 30 = 0 := by
  simp [writeCdHeader, u16At_append_of_le]

@[simp] theorem writeCdHeader_comment :
    u16At (writeCdHeader [] name crc size nameLen off) 32 = 0 := by
  simp [writeCdHeader, u16At_append_of_le]

@[simp] theorem writeCdHeader_localOff :
    u32At (writeCdHeader [] name crc size nameLen off) 42 = off := by
  simp [writeCdHeader, u32At_append_of_le, u32At_u32ToLe_append]

theorem writeCdHeader_name (n : Nat) :
    slice (writeCdHeader [] name crc size nameLen off) 46 n = slice name 0 n := by
  simp [writeCdHeader, slice_append_of_le]

/-- Only the four bytes of the offset depend on it. -/
theorem overwrite_writeCdHeader_localOff (off' : UInt32) :
    overwrite (writeCdHeader [] name crc size nameLen off) 42 (u32ToLe off') =
      writeCdHeader [] name crc size nameLen off' := by
  simp [writeCdHeader, overwrite_append_of_le, overwrite_append_zero]

/-- Only the four bytes of the CRC depend on it. -/
theorem overwrite_writeCdHeader_crc (crc' : UInt32) :
    overwrite (writeCdHeader [] name crc size nameLen off) 16 (u32ToLe crc') =
      writeCdHeader [] name crc' size nameLen off := by
  simp [writeCdHeader, overwrite_append_of_le, overwrite_append_zero]

@[simp] theorem length_writeLocalHeader :
    (writeLocalHeader [] name crc size nameLen).length = 30 + name.length := by
  simp only [writeLocalHeader, List.length_append, List.length_nil, length_u16ToLe, length_u32ToLe]
  omega

theorem length_append_writeLocalHeader (out : List UInt8) :
    (writeLocalHeader out name crc size nameLen).length = out.length + (30 + name.length) := by
  rw [writeLocalHeader_eq, List.length_append, length_writeLocalHeader]

theorem length_append_writeCdHeader (out : List UInt8) :
    (writeCdHeader out name crc size nameLen off).length = out.length + (46 + name.length) := by
  rw [writeCdHeader_eq, List.length_append, length_writeCdHeader]

@[simp] theorem writeLocalHeader_sig :
    u32At (writeLocalHeader [] name crc size nameLen) 0 = localHeaderSig := by
  simp [writeLocalHeader, u32At_u32ToLe_append]

@[simp] theorem writeLocalHeader_flags :
    u16At (writeLocalHeader [] name crc size nameLen) 6 = 0 := by
  simp [writeLocalHeader, u16At_append_of_le]

@[simp] theorem writeLocalHeader_crc :
    u32At (writeLocalHeader [] name crc size nameLen) 14 = crc := by
  simp [writeLocalHeader, u32At_append_of_le, u32At_u32ToLe_append]

@[simp] theorem writeLocalHeader_compressedSize :
    u32At (writeLocalHeader [] name crc size nameLen) 18 = size := by
  simp [writeLocalHeader, u32At_append_of_le, u32At_u32ToLe_append]

@[simp] theorem writeLocalHeader_uncompressedSize :
    u32At (writeLocalHeader [] name crc size nameLen) 22 = size := by
  simp [writeLocalHeader, u32At_append_of_le, u32At_u32ToLe_append]

@[simp] theorem writeLocalHeader_nameLen :
    u16At (writeLocalHeader [] name crc size nameLen) 26 = nameLen := by
  simp [writeLocalHeader, u16At_append_of_le]

@[simp] theorem writeLocalHeader_extraLen :
    u16At (writeLocalHeader [] name crc size nameLen) 28 = 0 := by
  simp [writeLocalHeader, u16At_append_of_le]

theorem writeLocalHeader_name :
    slice (writeLocalHeader [] name crc size nameLen) 30 name.length = name := by
  simp [writeLocalHeader, slice_append_of_le, slice_self]

/-- Only the four bytes of the CRC depend on it. -/
theorem overwrite_writeLocalHeader_crc (crc' : UInt32) :
    overwrite (writeLocalHeader [] name crc size nameLen) 14 (u32ToLe crc') =
      writeLocalHeader [] name crc' size nameLen := by
  simp [writeLocalHeader, overwrite_append_of_le, overwrite_append_zero]

end StoredFields

section StoredHeader

variable {name : List UInt8} {crc size : UInt32} {off : UInt32} {n : Nat}

theorem writeCdHeader_length_eq (hname : name.length < 2 ^ 16) :
    (writeCdHeader [] name crc size (UInt16.ofNat name.length) off).length = cdHeaderFixedLen +
      (u16At (writeCdHeader [] name crc size (UInt16.ofNat name.length) off) 28).toNat +
      (u16At (writeCdHeader [] name crc size (UInt16.ofNat name.length) off) 30).toNat +
      (u16At (writeCdHeader [] name crc size (UInt16.ofNat name.length) off) 32).toNat := by
  rw [length_writeCdHeader, writeCdHeader_nameLen, writeCdHeader_extraLen, writeCdHeader_comment,
    u16_toNat_ofNat hname]
  rfl

theorem writeCdHeader_name_eq (hname : name.length < 2 ^ 16) :
    slice (writeCdHeader [] name crc size (UInt16.ofNat name.length) off) cdHeaderFixedLen
      (u16At (writeCdHeader [] name crc size (UInt16.ofNat name.length) off) 28).toNat = name := by
  rw [writeCdHeader_nameLen, u16_toNat_ofNat hname, cdHeaderFixedLen, writeCdHeader_name,
    slice_self]

theorem size_ne_sentinel (hsize : n < 2 ^ 32 - 1) : UInt32.ofNat n ≠ zip64SentinelU32 :=
  (u32OfNat_ne_sentinel (by omega)).2 hsize

end StoredHeader

/-- The directory header of a stored entry. -/
def storedHeader (name : String) (content : List UInt8) (off : UInt32)
    (hname : (asBytes name).length < 2 ^ 16) (hsize : content.length < 2 ^ 32 - 1) : CdHeader where
  bytes := writeCdHeader [] (asBytes name) (crc32 content) (UInt32.ofNat content.length)
    (UInt16.ofNat (asBytes name).length) off
  name := name
  sig_eq := writeCdHeader_sig _ _ _ _ _
  length_eq := writeCdHeader_length_eq hname
  name_eq := writeCdHeader_name_eq hname
  compressed_ne := (writeCdHeader_compressedSize _ _ _ _ _).trans_ne (size_ne_sentinel hsize)
  uncompressed_ne := (writeCdHeader_uncompressedSize _ _ _ _ _).trans_ne (size_ne_sentinel hsize)

/-- The local header of a stored entry with the content behind it. -/
def storedRecord (name : String) (content : List UInt8) : List UInt8 :=
  writeLocalHeader [] (asBytes name) (crc32 content) (UInt32.ofNat content.length)
    (UInt16.ofNat (asBytes name).length) ++ content

section Stored

variable (name : String) (content : List UInt8)

@[simp] theorem length_storedRecord :
    (storedRecord name content).length = 30 + (asBytes name).length + content.length := by
  simp [storedRecord]

/-- The fixed part of a written record is the header that was written. -/
theorem u32At_storedRecord {i : Nat} (hi : i + 4 ≤ 30) : u32At (storedRecord name content) i =
    u32At (writeLocalHeader [] (asBytes name) (crc32 content) (UInt32.ofNat content.length)
      (UInt16.ofNat (asBytes name).length)) i :=
  u32At_append_left (by rw [length_writeLocalHeader]; omega)

theorem u16At_storedRecord {i : Nat} (hi : i + 2 ≤ 30) : u16At (storedRecord name content) i =
    u16At (writeLocalHeader [] (asBytes name) (crc32 content) (UInt32.ofNat content.length)
      (UInt16.ofNat (asBytes name).length)) i :=
  u16At_append_left (by rw [length_writeLocalHeader]; omega)

/-- The name stands behind the fixed part. -/
theorem slice_storedRecord_name :
    slice (storedRecord name content) 30 (asBytes name).length = asBytes name := by
  rw [storedRecord, slice_append_left (by rw [length_writeLocalHeader]), writeLocalHeader_name]

theorem storedRecord_crc : u32At (storedRecord name content) 14 = crc32 content := by
  rw [u32At_storedRecord _ _ (by omega), writeLocalHeader_crc]

variable (off : UInt32) {name content} (hname : (asBytes name).length < 2 ^ 16)
  (hsize : content.length < 2 ^ 32 - 1)

/-- The entry the parser makes of a stored header. -/
theorem storedHeader_entry (pos : Nat) : (storedHeader name content off hname hsize).entry pos =
    { name := name
      flags := 0
      method := 0
      crc32 := crc32 content
      compressedSize := content.length
      uncompressedSize := content.length
      localHeaderOffset := off.toNat
      cdHeaderOffset := pos
      cdHeaderLen := 46 + (asBytes name).length } := by
  have hlen : (UInt32.ofNat content.length).toNat = content.length := u32_toNat_ofNat (by omega)
  simp only [CdHeader.entry, CdHeader.flags, CdHeader.method, CdHeader.crc32,
    CdHeader.compressedSize, CdHeader.uncompressedSize, CdHeader.localOffset, storedHeader,
    writeCdHeader_flags, writeCdHeader_method, writeCdHeader_crc, writeCdHeader_compressedSize,
    writeCdHeader_uncompressedSize, writeCdHeader_localOff, length_writeCdHeader, hlen]

@[simp] theorem patchOffset_storedHeader (off' : UInt32) :
    (storedHeader name content off hname hsize).patchOffset off' =
      storedHeader name content off' hname hsize := by
  apply CdHeader.ext
  exact overwrite_writeCdHeader_localOff _ _ _ _ _ _

include hname in
theorem contentStart_storedRecord :
    contentStart (storedRecord name content) = 30 + (asBytes name).length := by
  rw [contentStart, u16At_storedRecord _ _ (by omega), u16At_storedRecord _ _ (by omega),
      writeLocalHeader_nameLen,
    writeLocalHeader_extraLen, u16_toNat_ofNat hname, localHeaderFixedLen]
  rfl

/-- **A written record is a member record of its header.** -/
theorem isMember_storedRecord (pos : Nat) :
    IsMember ((storedHeader name content off hname hsize).entry pos)
      (storedRecord name content) := by
  have hstart : contentStart (storedRecord name content) = _ := contentStart_storedRecord hname
  have hlen : (UInt32.ofNat content.length).toNat = content.length := u32_toNat_ofNat (by omega)
  have hflags : ¬ ((0 : UInt16) &&& 0x0008 ≠ 0) := by decide
  rw [storedHeader_entry]
  refine ⟨by rw [u32At_storedRecord _ _ (by omega), writeLocalHeader_sig],
    by rw [u16At_storedRecord _ _ (by omega), writeLocalHeader_flags], ?_⟩
  -- bit 3 is clear: no data descriptor follows
  rw [hstart, HasTrailer, if_neg hflags]
  refine ⟨length_storedRecord name content, ?_, ?_, ?_⟩
  · exact storedRecord_crc name content
  · rw [u32At_storedRecord _ _ (by omega), writeLocalHeader_compressedSize, hlen]
  · rw [u32At_storedRecord _ _ (by omega), writeLocalHeader_uncompressedSize, hlen]

end Stored

end C2paZip
