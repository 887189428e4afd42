import C2paZip.Built
import C2paZip.ReadBack

/-!
# ZIP64 sentinels in written archives

The writers narrow counts, sizes and offsets with `try_from`, which accepts the largest value of a
field, and the parser rejects that value as a ZIP64 sentinel. What the writers emit is true
(`EndsWithRecord`), and free of sentinels exactly where the narrowed numbers stay below the largest
values (`edits_clear_iff`).
-/

set_option autoImplicit false

namespace C2paZip

open Library

/-! ## Fields without sentinels -/

/-- `out` is the file data `data`, the directory `dir` and an EOCD record with the true count
`count`, the true size of the directory and its true offset. -/
structure EndsWithRecord (out data dir : List UInt8) (count : Nat) : Prop where
  length : out.length = (data ++ dir).length + 22
  parts : out.take (data ++ dir).length = data ++ dir
  sig : u32At out (out.length - 22) = eocdSig
  total : (u16At out (out.length - 22 + 10)).toNat = count
  size : (u32At out (out.length - 22 + 12)).toNat = dir.length
  offset : (u32At out (out.length - 22 + 16)).toNat = data.length

/-- No field of the EOCD record that ends `out` is a sentinel. -/
structure RecordClear (out : List UInt8) : Prop where
  total : u16At out (out.length - 22 + 10) ≠ zip64SentinelU16
  size : u32At out (out.length - 22 + 12) ≠ zip64SentinelU32
  offset : u32At out (out.length - 22 + 16) ≠ zip64SentinelU32

/-- No size or offset field of the directory header `h` is a sentinel. -/
structure HeaderClear (h : List UInt8) : Prop where
  sig : u32At h 0 = cdHeaderSig
  compressed : u32At h 20 ≠ zip64SentinelU32
  uncompressed : u32At h 24 ≠ zip64SentinelU32
  offset : u32At h 42 ≠ zip64SentinelU32

/-- No size field of the local header that begins `r` is a sentinel. -/
structure LocalClear (r : List UInt8) : Prop where
  sig : u32At r 0 = localHeaderSig
  compressed : u32At r 18 ≠ zip64SentinelU32
  uncompressed : u32At r 22 ≠ zip64SentinelU32

/-- The headers `hs` of the entries `is`, with patched offsets, are free of sentinels. -/
def PatchedClear (L : ZipLayout) (is : List Nat) (hs : List (List UInt8)) : Prop :=
  List.Forall₂ (fun i h => h.length = L.entries[i]!.cdHeaderLen ∧ HeaderClear h) is hs

/-- Removing the manifest from an archive with the layout `L` wrote `out` without sentinels: packed
file data, the patched headers of the other entries, and a true record. -/
def RemovalClear (L : ZipLayout) (out : List UInt8) : Prop :=
  ∃ data hs, EndsWithRecord out data hs.flatten (otherEntries L zipManifestPath).length ∧
    RecordClear out ∧ PatchedClear L (otherEntries L zipManifestPath) hs

/-- Embedding `m` into `z` wrote `out` without sentinels: a record behind the other file data, a
header behind the other headers, which are patched where a manifest was removed, and a true EOCD
record. -/
def EmbedClear (z : List UInt8) (L : ZipLayout) (m out : List UInt8) : Prop :=
  ∃ data record old header,
    EndsWithRecord out (data ++ record) (old ++ header)
      ((otherEntries L zipManifestPath).length + 1) ∧ RecordClear out ∧
    record.length = 62 + m.length ∧ LocalClear record ∧ header.length = 78 ∧ HeaderClear header ∧
    if ∃ e ∈ L.entries, e.name = zipManifestPath then
      ∃ hs, old = hs.flatten ∧ PatchedClear L (otherEntries L zipManifestPath) hs
    else
      data = z.take L.cdStart ∧ old = slice z L.cdStart (L.eocdOffset - L.cdStart)

/-! ## Written records and headers -/

section Record

variable {data dir : List UInt8} {count : Nat}

/-- A record written with the lengths of its parts is true. -/
theorem endsWithRecord_writeEocd (hcount : count < 2 ^ 16) (hdir : dir.length < 2 ^ 32)
    (hdata : data.length < 2 ^ 32) :
    EndsWithRecord (writeEocd (data ++ dir) (UInt16.ofNat count) (UInt32.ofNat dir.length)
      (UInt32.ofNat data.length)) data dir count := by
  have hend : (writeEocd (data ++ dir) (UInt16.ofNat count) (UInt32.ofNat dir.length)
      (UInt32.ofNat data.length)).length - 22 = (data ++ dir).length := by
    rw [length_writeEocd, Nat.add_sub_cancel]
  refine ⟨length_writeEocd _ _ _ _, ?_, ?_, ?_, ?_, ?_⟩
  · rw [writeEocd_eq, List.take_left]
  · rw [hend, writeEocd_eq]
    exact (u32At_append_right (p := 0)).trans (u32At_writeEocd_sig _ _ _)
  · rw [hend, writeEocd_eq, u16At_append_right, u16At_writeEocd_total, u16_toNat_ofNat hcount]
  · rw [hend, writeEocd_eq, u32At_append_right, u32At_writeEocd_size, u32_toNat_ofNat hdir]
  · rw [hend, writeEocd_eq, u32At_append_right, u32At_writeEocd_start, u32_toNat_ofNat hdata]

/-- A true record is free of sentinels exactly where the numbers are below them. -/
theorem EndsWithRecord.recordClear_iff {out : List UInt8} (h : EndsWithRecord out data dir count) :
    RecordClear out ↔ count ≠ 65535 ∧ dir.length ≠ 2 ^ 32 - 1 ∧ data.length ≠ 2 ^ 32 - 1 := by
  rw [← h.total, ← h.size, ← h.offset]
  constructor
  · rintro ⟨h1, h2, h3⟩
    exact ⟨fun h => h1 (UInt16.toNat_inj.1 h), fun h => h2 (UInt32.toNat_inj.1 h),
      fun h => h3 (UInt32.toNat_inj.1 h)⟩
  · rintro ⟨h1, h2, h3⟩
    exact ⟨fun h => h1 (congrArg UInt16.toNat h), fun h => h2 (congrArg UInt32.toNat h),
      fun h => h3 (congrArg UInt32.toNat h)⟩

end Record

/-- A header with a small offset is free of sentinels. -/
theorem CdHeader.headerClear {h : CdHeader} (hoff : h.localOffset < 2 ^ 32 - 1) :
    HeaderClear h.bytes := by
  refine ⟨h.sig_eq, h.compressed_ne, h.uncompressed_ne, fun heq => ?_⟩
  have hmax : h.localOffset = 2 ^ 32 - 1 := congrArg UInt32.toNat heq
  omega

/-- The headers of packed items are free of sentinels. -/
theorem headerClear_placeHeaders {items : List Item} (hsize : (bodies items).length < 2 ^ 32) :
    ∀ h ∈ placeHeaders 0 items, HeaderClear h.bytes := by
  intro h hh
  have hoff := (@placeHeaders_localOffset_lt items 0 (by omega) h hh).2
  exact CdHeader.headerClear (by omega)

/-- Placing a header keeps its length. -/
theorem forall₂_placeHeaders (off : Nat) (items : List Item) :
    List.Forall₂ (fun (h : CdHeader) (it : Item) => h.bytes.length = it.header.bytes.length)
      (placeHeaders off items) items := by
  induction items generalizing off with
  | nil => exact List.Forall₂.nil
  | cons it items ih => exact List.Forall₂.cons (it.length_headerAt off) (ih _)

/-- The headers of the kept items are the patched headers of the other entries. -/
theorem Archive.Carries.patchedClear {A : Archive} {items : List Item} (hA : A.Carries items)
    (hsize : (bodies (kept zipManifestPath items)).length < 2 ^ 32) :
    PatchedClear A.layout (otherEntries A.layout zipManifestPath)
      ((placeHeaders 0 (kept zipManifestPath items)).map CdHeader.bytes) := by
  have hclear := headerClear_placeHeaders hsize
  have hheaders := forall₂_imp_mem (forall₂_placeHeaders 0 (kept zipManifestPath items))
    (S := fun h it => h.bytes.length = it.header.bytes.length ∧ HeaderClear h.bytes)
    fun h hh it hlen => ⟨hlen, hclear h hh⟩
  -- An entry and a header belong together where they are the same item.
  rw [PatchedClear, List.forall₂_map_right_iff]
  refine (forall₂_join (hA.forall₂_otherEntries zipManifestPath) hheaders).imp ?_
  rintro i h ⟨it, hit, hlen, hclear⟩
  exact ⟨hlen.trans hit.cdHeaderLen.symm, hclear⟩

theorem flatten_headers (hs : List CdHeader) : (hs.map CdHeader.bytes).flatten = dirBytes hs :=
  rfl

/-- The record that insertion writes is free of sentinels. -/
theorem localClear_storedRecord {name : String} {content : List UInt8}
    (hsize : content.length < 2 ^ 32 - 1) : LocalClear (storedRecord name content) := by
  refine ⟨?_, ?_, ?_⟩
  · rw [u32At_storedRecord _ _ (by omega), writeLocalHeader_sig]
  · rw [u32At_storedRecord _ _ (by omega), writeLocalHeader_compressedSize]
    exact size_ne_sentinel hsize
  · rw [u32At_storedRecord _ _ (by omega), writeLocalHeader_uncompressedSize]
    exact size_ne_sentinel hsize

/-- The header that insertion writes is free of sentinels. -/
theorem Archive.headerClear_insertedHeader (A : Archive) {name : String} {content : List UInt8}
    (hname : (asBytes name).length < 2 ^ 16) (hsize : content.length < 2 ^ 32 - 1) :
    HeaderClear (A.insertedHeader name content) := by
  have hoff := A.data_length_lt
  have hlocal := A.newHeader_localOffset hname hsize
  exact CdHeader.headerClear (h := A.newHeader hname hsize) (by omega)

/-! ## The edits -/

section Edits

variable {A : Archive} {m out : List UInt8}

/-- **Removal is free of sentinels** where the directory of the other entries stays below the limit.
-/
theorem removalClear_iff (hname : ∃ e ∈ A.layout.entries, e.name = zipManifestPath)
    (hremove : Writer.removeManifest A.bytes = .ok out) :
    RemovalClear A.layout out ↔
      ((otherEntries A.layout zipManifestPath).map fun i =>
        A.layout.entries[i]!.cdHeaderLen).sum < 2 ^ 32 - 1 := by
  obtain ⟨items, hA⟩ := exists_carries_of_removeZipEntry hname hremove
  obtain ⟨hdir, rfl⟩ := (removeZipEntry_eq_ok hA hname).1 hremove
  have hcount := length_kept_lt hA hname
  have hheaders := A.headers_length_lt
  have hdata := A.data_length_lt
  obtain ⟨-, hbodies, -⟩ := hA.kept_le zipManifestPath
  have hothers := (hA.forall₂_otherEntries zipManifestPath).length_eq
  have hrecord : EndsWithRecord (assembled (kept zipManifestPath items))
      (bodies (kept zipManifestPath items)) (directory (kept zipManifestPath items))
      (otherEntries A.layout zipManifestPath).length := by
    rw [hothers]
    exact endsWithRecord_writeEocd (by omega) hdir (by omega)
  rw [hA.sum_cdHeaderLen]
  constructor
  · rintro ⟨data, hs, -, hclear, -⟩
    obtain ⟨-, hsize, -⟩ := hrecord.recordClear_iff.1 hclear
    omega
  · intro hsize
    refine ⟨bodies (kept zipManifestPath items), _, ?_,
      hrecord.recordClear_iff.2 ⟨by omega, by omega, by omega⟩, hA.patchedClear (by omega)⟩
    rw [flatten_headers]
    exact hrecord

/-- What insertion writes, and when it is free of sentinels. -/
theorem insert_clear {B : Archive}
    (hinsert : Zip.insertZipEntry B.bytes zipManifestPath m = .ok out) :
    EndsWithRecord out (B.data ++ storedRecord zipManifestPath m)
        ((dirBytes B.headers ++ B.gap) ++ B.insertedHeader zipManifestPath m)
        (B.headers.length + 1) ∧
      (storedRecord zipManifestPath m).length = 62 + m.length ∧
      LocalClear (storedRecord zipManifestPath m) ∧
      (B.insertedHeader zipManifestPath m).length = 78 ∧
      HeaderClear (B.insertedHeader zipManifestPath m) ∧
      (RecordClear out ↔
        BelowSentinels B.headers.length B.data.length (B.eocdOffset - B.data.length) m) := by
  obtain ⟨hname, hdata, hdir, rfl⟩ := Archive.insertZipEntry_eq_ok.1 hinsert
  have h1 := B.length_insertedData zipManifestPath m
  have h2 := B.length_insertedDir zipManifestPath m
  have h3 := length_manifestPath
  have h4 := B.headers_length_lt
  have heocd : B.eocdOffset - B.data.length = (dirBytes B.headers).length + B.gap.length := by
    rw [Archive.eocdOffset]
    omega
  have hrecord : EndsWithRecord (B.inserted zipManifestPath m)
      (B.insertedData zipManifestPath m) (B.insertedDir zipManifestPath m)
      (B.headers.length + 1) :=
    endsWithRecord_writeEocd (by omega) hdir hdata
  refine ⟨?_, ?_, localClear_storedRecord (by omega), ?_,
    B.headerClear_insertedHeader hname (by omega), ?_⟩
  · rw [List.append_assoc]
    exact hrecord
  · rw [length_storedRecord, h3]
  · rw [Archive.length_insertedHeader, h3]
  · rw [hrecord.recordClear_iff, h1, h2, h3, heocd]
    constructor
    · rintro ⟨hc, hs, hd⟩
      exact ⟨by omega, by omega, by omega⟩
    · rintro ⟨hc, hd, hs⟩
      exact ⟨by omega, by omega, by omega⟩

/-- The numbers that embedding `m` writes stay below the sentinels: those of the packed other
entries where a manifest is removed, and those of the archive itself otherwise. -/
def StaysBelow (L : ZipLayout) (z m : List UInt8) : Prop :=
  if ∃ e ∈ L.entries, e.name = zipManifestPath then
    BelowSentinels (otherEntries L zipManifestPath).length
      ((otherEntries L zipManifestPath).map (boundLength z L)).sum
      ((otherEntries L zipManifestPath).map fun i => L.entries[i]!.cdHeaderLen).sum m
  else
    BelowSentinels L.entries.length L.cdStart (L.eocdOffset - L.cdStart) m

/-- Where no entry is called like the manifest, all entries are others. -/
theorem length_otherEntries_of_absent (hnone : ∀ e ∈ A.entries, e.name ≠ zipManifestPath) :
    (otherEntries A.layout zipManifestPath).length = A.headers.length := by
  have hall : otherEntries A.layout zipManifestPath = List.range A.layout.entries.length := by
    apply List.filter_eq_self.2
    intro i hi
    have hlt : i < A.layout.entries.length := List.mem_range.1 hi
    rw [getElem!_pos A.layout.entries i hlt, decide_eq_true_iff]
    exact hnone _ (List.getElem_mem hlt)
  rw [hall, List.length_range, Archive.layout_entries, A.length_entries]

/-- The parts that embedding writes, but for the EOCD record, are free of sentinels. -/
theorem embedClear_iff_recordClear {z data record old header : List UInt8} {L : ZipLayout}
    (hrecord : EndsWithRecord out (data ++ record) (old ++ header)
      ((otherEntries L zipManifestPath).length + 1))
    (hlen : record.length = 62 + m.length) (hlocal : LocalClear record)
    (hlen' : header.length = 78) (hheader : HeaderClear header)
    (hold : if ∃ e ∈ L.entries, e.name = zipManifestPath then
        ∃ hs, old = hs.flatten ∧ PatchedClear L (otherEntries L zipManifestPath) hs
      else data = z.take L.cdStart ∧ old = slice z L.cdStart (L.eocdOffset - L.cdStart)) :
    EmbedClear z L m out ↔ RecordClear out := by
  constructor
  · rintro ⟨_, _, _, _, -, hout, -⟩
    exact hout
  · intro hout
    exact ⟨data, record, old, header, hrecord, hout, hlen, hlocal, hlen', hheader, hold⟩

/-- **Embedding is free of sentinels** where the numbers it writes stay below them. -/
theorem embedClear_iff (hembed : Writer.embedManifest A.bytes m = .ok out) :
    EmbedClear A.bytes A.layout m out ↔ StaysBelow A.layout A.bytes m := by
  by_cases hname : ∃ e ∈ A.layout.entries, e.name = zipManifestPath
  · -- The manifest is inserted behind the packed other items.
    obtain ⟨items, hA⟩ := exists_carries_of_embedManifest hname hembed
    obtain ⟨hfits, hinsert⟩ := exists_fits_of_embedManifest hA hname hembed
    have hd := hfits.data
    have hothers := (hA.forall₂_otherEntries zipManifestPath).length_eq
    obtain ⟨hrecord, hlen, hlocal, hlen', hheader, hclear⟩ := insert_clear hinsert
    rw [assemble_directory_length, assemble_headers, length_placeHeaders, assemble_data] at hclear
    rw [assemble_headers, length_placeHeaders, ← hothers] at hrecord
    rw [StaysBelow, if_pos hname, hothers, hA.sum_boundLength, hA.sum_cdHeaderLen, ← hclear]
    apply embedClear_iff_recordClear hrecord hlen hlocal hlen' hheader
    rw [if_pos hname]
    refine ⟨_, ?_, hA.patchedClear (by omega)⟩
    rw [assemble_gap, List.append_nil, flatten_headers]
  · -- The input is copied as it is.
    have hnone : ∀ e ∈ A.entries, e.name ≠ zipManifestPath := fun e he hn => hname ⟨e, he, hn⟩
    rw [embedManifest_of_absent hnone] at hembed
    obtain ⟨hrecord, hlen, hlocal, hlen', hheader, hclear⟩ := insert_clear hembed
    rw [← length_otherEntries_of_absent hnone] at hrecord
    rw [StaysBelow, if_neg hname, Archive.layout_entries, A.length_entries, Archive.layout_cdStart,
      Archive.layout_eocdOffset, ← hclear]
    apply embedClear_iff_recordClear hrecord hlen hlocal hlen' hheader
    rw [if_neg hname]
    exact ⟨A.take_bytes.symm, A.slice_bytes_dir.symm⟩

end Edits

/-- **The writers emit no ZIP64 sentinel** exactly where the numbers they write stay below the
largest values: for a removal the directory of the other entries, for an embedding the count, the
file data and the directory with one manifest more. -/
theorem edits_clear_iff {z m : List UInt8} {L : ZipLayout} (hL : parseLayout z = .ok L) :
    (∀ out, Writer.removeManifest z = .ok out → out ≠ z →
      (RemovalClear L out ↔ ((otherEntries L zipManifestPath).map fun i =>
        L.entries[i]!.cdHeaderLen).sum < 2 ^ 32 - 1)) ∧
    ∀ out, Writer.embedManifest z m = .ok out → (EmbedClear z L m out ↔ StaysBelow L z m) := by
  obtain ⟨A, rfl, rfl⟩ := exists_archive_of_parseLayout hL
  refine ⟨fun out hremove hne => ?_, fun out hembed => embedClear_iff hembed⟩
  -- An archive without manifest is copied.
  have hname : ∃ e ∈ A.layout.entries, e.name = zipManifestPath := by
    by_contra hname
    have hcopy := @removeZipEntry_of_absent A zipManifestPath fun e he hn => hname ⟨e, he, hn⟩
    exact hne (Except.ok.inj (hremove.symm.trans hcopy))
  exact removalClear_iff hname hremove

/-- A manifest behind one member, and its removal. -/
theorem edits_clear_one_member :
    RemovalClear ⟨[⟨"a", 0, 0, crc32 [7], 1, 1, 0, 95, 47⟩,
        ⟨zipManifestPath, 0, 0, crc32 [1], 1, 1, 32, 142, 78⟩], 95, 220⟩ (buildZip [("a", [7])]) ∧
      EmbedClear (buildZip [("a", [7]), (zipManifestPath, [1])])
        ⟨[⟨"a", 0, 0, crc32 [7], 1, 1, 0, 95, 47⟩,
          ⟨zipManifestPath, 0, 0, crc32 [1], 1, 1, 32, 142, 78⟩], 95, 220⟩ [2]
        (buildZip [("a", [7]), (zipManifestPath, [2])]) := by
  obtain ⟨hremoval, hembed⟩ := @edits_clear_iff (buildZip [("a", [7]), (zipManifestPath, [1])]) [2]
    ⟨[⟨"a", 0, 0, crc32 [7], 1, 1, 0, 95, 47⟩,
      ⟨zipManifestPath, 0, 0, crc32 [1], 1, 1, 32, 142, 78⟩], 95, 220⟩ (by decide +kernel)
  refine ⟨(hremoval _ (by decide +kernel) (by decide +kernel)).2 (by decide +kernel),
    (hembed _ (by decide +kernel)).2 ?_⟩
  rw [StaysBelow, if_pos (by decide +kernel)]
  exact ⟨by decide +kernel, by decide +kernel, by decide +kernel⟩

/-! ## An archive at the limit -/

/-- A member without content. -/
def emptyMember : StoredFile := ⟨"a", [], by decide +kernel, by decide⟩

/-- The largest number of members that a count field holds without being a sentinel. -/
def fullArchive : List UInt8 := buildZip (List.replicate 65534 ("a", []))

/-- The items of the full archive. -/
def fullItems : List Item := List.replicate 65534 emptyMember.item

theorem fullArchive_eq : fullArchive = assembled fullItems := by
  have h := buildZip_eq_assembled (List.replicate 65534 emptyMember)
  rw [List.map_replicate, List.map_replicate] at h
  exact h

theorem length_bodies_fullItems : (bodies fullItems).length = 65534 * 31 := by
  have hbody : emptyMember.item.body.length = 31 := by decide +kernel
  rw [bodies, List.length_flatMap, fullItems, List.map_replicate, hbody,
    List.sum_replicate_nat]

theorem length_directory_fullItems : (directory fullItems).length = 65534 * 47 := by
  have hheader : emptyMember.item.header.bytes.length = 47 := by decide +kernel
  rw [length_directory, fullItems, List.map_replicate, hheader, List.sum_replicate_nat]

theorem fits_fullItems : Fits fullItems := by
  refine ⟨?_, ?_, ?_⟩
  · rw [fullItems, List.length_replicate]
    decide
  · rw [length_bodies_fullItems]
    decide
  · rw [length_directory_fullItems]
    decide

/-- One manifest more makes the count of the full archive a sentinel. -/
theorem fullArchive_overflows :
    ∃ L out, parseLayout fullArchive = .ok L ∧ Writer.embedManifest fullArchive [] = .ok out ∧
      out ≠ fullArchive ∧ u16At out (out.length - 22 + 10) = zip64SentinelU16 ∧
      ¬ EmbedClear fullArchive L [] out := by
  have hsize : ([] : List UInt8).length < 2 ^ 32 - 1 := by decide
  have hnone : ∀ e ∈ (assemble _ fits_fullItems).entries, e.name ≠ zipManifestPath := by
    intro e he hn
    obtain ⟨it, hit, hname⟩ := (carries_assemble fits_fullItems).exists_name_iff.1 ⟨e, he, hn⟩
    rw [(List.mem_replicate.1 hit).2] at hname
    exact absurd hname (by decide +kernel)
  have hbodies := length_bodies_fullItems
  have hdirectory := length_directory_fullItems
  have hinsert : Zip.insertZipEntry (assemble _ fits_fullItems).bytes zipManifestPath [] =
      .ok (assembled (fullItems ++ [manifestItem [] hsize])) := by
    rw [assemble_bytes]
    exact (insertZipEntry_assembled fits_fullItems hsize).2
      ⟨by rw [List.length_nil]; omega, by omega, rfl⟩
  have hembed : Writer.embedManifest (assemble _ fits_fullItems).bytes [] =
      .ok (assembled (fullItems ++ [manifestItem [] hsize])) := by
    rw [embedManifest_of_absent hnone, hinsert]
  obtain ⟨hrecord, -⟩ := insert_clear hinsert
  have htotal : u16At (assembled (fullItems ++ [manifestItem [] hsize]))
      ((assembled (fullItems ++ [manifestItem [] hsize])).length - 22 + 10) =
      zip64SentinelU16 := by
    apply UInt16.toNat_inj.1
    rw [hrecord.total, assemble_headers, length_placeHeaders, fullItems, List.length_replicate]
    rfl
  rw [fullArchive_eq, ← assemble_bytes fits_fullItems]
  refine ⟨_, _, Archive.parseLayout_bytes _, hembed, ?_, htotal, ?_⟩
  · -- The result is longer.
    intro heq
    have hlen := congrArg List.length heq
    rw [assemble_bytes, assembled, assembled, length_writeEocd, length_writeEocd,
      List.length_append, List.length_append, length_bodies_manifest,
      length_directory_manifest] at hlen
    omega
  · rintro ⟨_, _, _, _, -, hclear, -⟩
    exact hclear.total htotal

end C2paZip
