import C2paZip.Embed

/-!
# Two-pass signing

Filling the placeholder of an embedded manifest gives, byte for byte, the archive that embedding the
final manifest gives (`two_pass_signing`): the three writes of the fill meet exactly the content and
the two CRC fields that the insertion wrote (`Archive.fillBytes_inserted`).
-/

set_option autoImplicit false

namespace C2paZip

open Library

namespace Archive

variable {A : Archive} {name : String} {p f : List UInt8}

/-- The inserted archive, block by block. -/
theorem inserted_eq (A : Archive) (name : String) (content : List UInt8) :
    A.inserted name content = A.data ++ (writeLocalHeader [] (asBytes name) (crc32 content)
      (UInt32.ofNat content.length) (UInt16.ofNat (asBytes name).length) ++ (content ++
      (dirBytes A.headers ++ (A.gap ++ (writeCdHeader [] (asBytes name) (crc32 content)
      (UInt32.ofNat content.length) (UInt16.ofNat (asBytes name).length)
      (UInt32.ofNat A.data.length) ++ writeEocd [] (UInt16.ofNat (A.headers.length + 1))
      (UInt32.ofNat (A.insertedDir name content).length)
      (UInt32.ofNat (A.insertedData name content).length)))))) := by
  rw [inserted, writeEocd_eq]
  simp only [insertedData, insertedDir, insertedHeader, storedRecord, List.append_assoc]

/-- **Filling an inserted record gives the insertion of the new content.** -/
theorem fillBytes_inserted (hlen : f.length = p.length) {e : CdEntry} {r : Range}
    (hlocal : e.localHeaderOffset = A.data.length)
    (hcentral : e.cdHeaderOffset = (A.insertedData name p).length +
      ((dirBytes A.headers).length + A.gap.length))
    (hstart : r.start = A.data.length + (30 + (asBytes name).length)) :
    fillBytes (A.inserted name p) e r f = A.inserted name f := by
  have hdata : (A.insertedData name f).length = (A.insertedData name p).length := by
    rw [length_insertedData, length_insertedData, hlen]
  have hdir : (A.insertedDir name f).length = (A.insertedDir name p).length := by
    rw [length_insertedDir, length_insertedDir]
  have hpos : e.cdHeaderOffset + 16 = A.data.length + (30 + (asBytes name).length +
      (f.length + ((dirBytes A.headers).length + (A.gap.length + 16)))) := by
    rw [hcentral, length_insertedData]
    omega
  -- The content, between the local header and the directory.
  have hcontent : ∀ H X : List UInt8, H.length = 30 + (asBytes name).length →
      overwrite (A.data ++ (H ++ (p ++ X))) (A.data.length + (30 + (asBytes name).length)) f =
        A.data ++ (H ++ (f ++ X)) := by
    intro H X hH
    rw [overwrite_append_right, overwrite_append_of_le _ (by omega), hH, Nat.sub_self,
      overwrite_append_zero _ hlen]
  -- The CRC field of the local header.
  have hlocalCrc : ∀ X : List UInt8, overwrite (A.data ++ (writeLocalHeader [] (asBytes name)
      (crc32 p) (UInt32.ofNat p.length) (UInt16.ofNat (asBytes name).length) ++ X))
      (A.data.length + 14) (u32ToLe (crc32 f)) = A.data ++ (writeLocalHeader [] (asBytes name)
      (crc32 f) (UInt32.ofNat p.length) (UInt16.ofNat (asBytes name).length) ++ X) := by
    intro X
    rw [overwrite_append_right, overwrite_append_left, overwrite_writeLocalHeader_crc]
    rw [length_writeLocalHeader, length_u32ToLe]
    omega
  -- The CRC field of the directory header.
  have hcentralCrc : ∀ H X : List UInt8, H.length = 30 + (asBytes name).length →
      overwrite (A.data ++ (H ++ (f ++ (dirBytes A.headers ++ (A.gap ++
        (writeCdHeader [] (asBytes name) (crc32 p) (UInt32.ofNat p.length)
          (UInt16.ofNat (asBytes name).length) (UInt32.ofNat A.data.length) ++ X))))))
        (e.cdHeaderOffset + 16) (u32ToLe (crc32 f)) =
      A.data ++ (H ++ (f ++ (dirBytes A.headers ++ (A.gap ++
        (writeCdHeader [] (asBytes name) (crc32 f) (UInt32.ofNat p.length)
          (UInt16.ofNat (asBytes name).length) (UInt32.ofNat A.data.length) ++ X))))) := by
    intro H X hH
    rw [hpos, ← hH, overwrite_append_right, overwrite_append_right, overwrite_append_right,
      overwrite_append_right, overwrite_append_right, overwrite_append_left,
      overwrite_writeCdHeader_crc]
    rw [length_writeCdHeader, length_u32ToLe]
    omega
  rw [fillBytes, hlocal, hstart, inserted_eq, inserted_eq, hdata, hdir, hlen,
    hcontent _ _ (length_writeLocalHeader _ _ _ _), hlocalCrc,
    hcentralCrc _ _ (length_writeLocalHeader _ _ _ _)]

end Archive

/-- **Two-pass signing equals one-pass embedding.** On an archive with a manifest entry, or without
one whose headers end at the EOCD, filling an embedded placeholder with the final manifest succeeds
and gives the archive that embedding the final manifest gives. -/
theorem two_pass_signing {z p f y : List UInt8} {L : ZipLayout} (hL : parseLayout z = .ok L)
    (hcase : (∃ e ∈ L.entries, e.name = zipManifestPath) ∨
      (∀ e ∈ L.entries, e.name ≠ zipManifestPath) ∧ L.entries.length ≤ 65533 ∧ L.HeadersEndAtEocd)
    (hlen : p.length = f.length) (hz : z.length + p.length + 140 < 2 ^ 32 - 1)
    (hembed : Writer.embedManifest z p = .ok y) :
    ∃ out, Writer.fillManifest y f = .ok out ∧ Writer.embedManifest z f = .ok out := by
  obtain ⟨A, rfl, rfl⟩ := exists_archive_of_parseLayout hL
  rw [A.headersEndAtEocd_iff, Archive.layout_entries, A.length_entries] at hcase
  obtain ⟨B, hbase, -, hnone, hlenB, hB⟩ := exists_base hembed
  obtain ⟨hgap, hcount⟩ : B.gap = [] ∧ B.headers.length + 1 < 65535 := by
    rcases hB with rfl | ⟨-, hgap, hcount, -⟩
    · rcases hcase with ⟨e, he, hn⟩ | ⟨-, hcount, hgap⟩
      · exact absurd hn (hnone e he)
      · exact ⟨hgap, by omega⟩
    · exact ⟨hgap, hcount⟩
  have hpath := length_manifestPath
  have hbytes := B.length_bytes
  have hdata := B.length_insertedData zipManifestPath
  have hdir := B.length_insertedDir zipManifestPath
  have hembed' : ∀ m,
      Writer.embedManifest A.bytes m = Zip.insertZipEntry B.bytes zipManifestPath m := by
    intro m
    rw [Writer.embedManifest, hbase]
    rfl
  -- Placeholder and final manifest are inserted into the same base.
  obtain ⟨hp, P, hP, -, hinsP⟩ := Archive.exists_insert (m := p) hgap hcount
    (by rw [hdata]; omega) (by rw [hdir]; omega)
  obtain ⟨hf, F, hF, -, hinsF⟩ := Archive.exists_insert (m := f) hgap hcount
    (by rw [hdata]; omega) (by rw [hdir]; omega)
  rw [hembed', hinsP] at hembed
  obtain rfl := Except.ok.inj hembed
  refine ⟨F.bytes, P.fillManifest_eq_ok.2 ⟨_, _, hP.locates hnone, ?_, ?_⟩, ?_⟩
  · have hlenP := hP.length_data
    simp only
    omega
  · rw [hP.bytes, hF.bytes,
      Archive.fillBytes_inserted hlen.symm (by simp only [hP.entry_eq]) ?_ rfl]
    simp only [hP.entry_eq, hP.data, hgap, List.length_nil, Nat.add_zero]
  · rw [hembed', hinsF]

/-- A placeholder in a new archive, filled. -/
theorem two_pass_signing_new_manifest :
    ∃ out, Writer.fillManifest (buildZip [("a", [7]), (zipManifestPath, [0])]) [1] = .ok out ∧
      Writer.embedManifest (buildZip [("a", [7])]) [1] = .ok out :=
  two_pass_signing (p := [0])
    (L := { entries := [⟨"a", 0, 0, crc32 [7], 1, 1, 0, 32, 47⟩], cdStart := 32, eocdOffset := 79 })
    (by decide +kernel) (Or.inr (by decide +kernel)) rfl (by decide +kernel) (by decide +kernel)

end C2paZip
