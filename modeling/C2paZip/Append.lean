import C2paZip.Archive.Remove
import C2paZip.Zip.Build

/-!
# Embedding into an unsigned archive

Where an archive has no manifest entry and its directory headers end at the EOCD, embedding is an
append: the entries stay where they are, one stored manifest entry follows, and the member hashes
are the same (`embed_appends`).
-/

set_option autoImplicit false

namespace C2paZip

open Library

/-- Entry `i` of the archive `out` with the layout `L` is a stored, unencrypted manifest entry with
the content `m`, and both of its headers hold the CRC of `m`. -/
structure IsManifestEntry (out : List UInt8) (L : ZipLayout) (i : Nat) (m : List UInt8) : Prop where
  name : L.entries[i]!.name = zipManifestPath
  method : L.entries[i]!.method = 0
  flags : L.entries[i]!.flags = 0
  crc : L.entries[i]!.crc32 = crc32 m
  localCrc : u32At out (L.entries[i]!.localHeaderOffset + 14) = crc32 m
  content : ∃ r, entryContentRange out L i = .ok r ∧ slice out r.start (r.stop - r.start) = m

namespace Archive.IsInserted

variable {A B : Archive} {m : List UInt8} {hsize : m.length < 2 ^ 32 - 1}
  (h : IsInserted A B zipManifestPath m (A.newHeader manifestPath_lt hsize))

include h

/-- The last entry is the manifest. -/
theorem isManifestEntry : IsManifestEntry B.bytes B.layout A.entries.length m := by
  -- The new room stands behind the old ones.
  have hroom : B.rooms[A.entries.length]? = some (h.entry, B.data.length) := by
    have hlen : A.rooms.length = A.entries.length := length_rooms A.entries
    rw [h.rooms, ← hlen]
    simp
  obtain ⟨he, -⟩ := B.layout_of_room hroom
  have hlen := h.length_data
  have hbytes := B.length_bytes
  refine ⟨by rw [he, h.entry_eq], by rw [he, h.entry_eq], by rw [he, h.entry_eq],
    by rw [he, h.entry_eq], ?_, _,
    (B.entryContentRange_of_room hroom).trans h.contentRange_new, ?_⟩
  · have hrecord := h.slice_record
    rw [he, h.entry_eq, ← storedRecord_crc zipManifestPath m, ← hrecord, u32At_slice (by omega)]
  · have hcontent := h.slice_content
    simp only
    rw [show B.data.length - (A.data.length + (30 + (asBytes zipManifestPath).length)) = m.length by
      omega, hcontent]

/-- The member loop returns the old member ranges and that of the manifest. -/
theorem memberRanges {rs : List (String × Range)} :
    Zip.memberRanges B.bytes = .ok rs ↔ ∃ rs₀, Zip.memberRanges A.bytes = .ok rs₀ ∧
      rs = rs₀ ++ [(zipManifestPath, ⟨A.data.length, B.data.length⟩)] := by
  have hvalid : Zip.validateMemberUri zipManifestPath = .ok () := by decide +kernel
  have hname : h.entry.name = zipManifestPath := by rw [h.entry_eq]
  simp only [memberRanges_eq_ok, h.rooms, forall₂_concat_left, List.forall₂_map_left_iff,
    h.bindingRange_new, hname, hvalid, Except.ok.injEq, true_and]
  -- The old rooms bind as they did, although the last one now ends at the new record.
  have hold : ∀ rs₀ : List (String × Range),
      List.Forall₂ (fun q r => Zip.validateMemberUri q.1.name = .ok () ∧
        bindingRange B.bytes (q.1.shift (30 + (asBytes zipManifestPath).length + m.length)) q.2 =
          .ok r.2 ∧ r.1 = q.1.name) A.rooms rs₀ ↔
      List.Forall₂ (fun q r => Zip.validateMemberUri q.1.name = .ok () ∧
        bindingRange A.bytes q.1 q.2 = .ok r.2 ∧ r.1 = q.1.name) A.rooms rs₀ := by
    intro rs₀
    apply forall₂_congr_mem
    intro q hq r
    rw [h.bindingRange_old hq]
  constructor
  · rintro ⟨rs₀, y, hrs₀, ⟨hr, hn⟩, rfl⟩
    exact ⟨rs₀, (hold rs₀).1 hrs₀, by rw [← Prod.eta y, hn, ← hr]⟩
  · rintro ⟨rs₀, hrs₀, rfl⟩
    exact ⟨rs₀, _, (hold rs₀).2 hrs₀, ⟨rfl, rfl⟩, rfl⟩

/-- The members are the old members. -/
theorem collectionMembers {ms : List Binding.Member} :
    Binding.collectionMembers B.bytes = .ok ms ↔ Binding.collectionMembers A.bytes = .ok ms := by
  have hfilter : ∀ rs₀ : List (String × Range),
      (rs₀ ++ [(zipManifestPath, (⟨A.data.length, B.data.length⟩ : Range))]).filter
        (fun x => x.1 ≠ zipManifestPath) = rs₀.filter fun x => x.1 ≠ zipManifestPath := by
    intro rs₀
    rw [List.filter_append]
    simp
  simp only [collectionMembers_eq_ok, h.memberRanges]
  constructor
  · rintro ⟨_, ⟨rs₀, hrs₀, rfl⟩, hms⟩
    exact ⟨rs₀, hrs₀, by rw [← hms, hfilter]⟩
  · rintro ⟨rs₀, hrs₀, hms⟩
    exact ⟨_, ⟨rs₀, hrs₀, rfl⟩, by rw [hfilter, hms]⟩

end Archive.IsInserted

/-- Insertion into an archive whose headers end at the EOCD, away from the limits. -/
theorem Archive.exists_insert {A : Archive} {m : List UInt8} (hgap : A.gap = [])
    (hcount : A.headers.length + 1 < 65535)
    (hdata : (A.insertedData zipManifestPath m).length < 2 ^ 32 - 1)
    (hdir : (A.insertedDir zipManifestPath m).length < 2 ^ 32 - 1) :
    ∃ (hsize : m.length < 2 ^ 32 - 1) (B : Archive),
      IsInserted A B zipManifestPath m (A.newHeader manifestPath_lt hsize) ∧ B.gap = [] ∧
        Zip.insertZipEntry A.bytes zipManifestPath m = .ok B.bytes := by
  have hlen := A.length_insertedData zipManifestPath m
  have hsize : m.length < 2 ^ 32 - 1 := by omega
  obtain ⟨B, hB, hBgap⟩ := exists_isInserted hgap manifestPath_lt hsize hcount hdata hdir
  exact ⟨hsize, B, hB, hBgap, insertZipEntry_eq_ok.2
    ⟨manifestPath_lt, by omega, by omega, hB.bytes⟩⟩

/-- Where no entry is called like the manifest, embedding inserts into the archive as it is. -/
theorem embedManifest_of_absent {A : Archive} {m : List UInt8}
    (hnone : ∀ e ∈ A.entries, e.name ≠ zipManifestPath) :
    Writer.embedManifest A.bytes m = Zip.insertZipEntry A.bytes zipManifestPath m := by
  rw [Writer.embedManifest, removeZipEntry_of_absent hnone]
  rfl

/-- **Embedding into an unsigned archive is exactly an append.** Where no entry is called like the
manifest, the headers end at the EOCD and the sizes are away from the limits, embedding succeeds;
the file data stays as it is and every entry with its header moved behind the new record, one
manifest entry with the content `m` follows at the old directory start, and the collection members
are the same. -/
theorem embed_appends {z m : List UInt8} {L : ZipLayout} (hL : parseLayout z = .ok L)
    (hnone : ∀ e ∈ L.entries, e.name ≠ zipManifestPath) (hcount : L.entries.length ≤ 65533)
    (hend : L.HeadersEndAtEocd) (hsize : z.length + m.length + 140 < 2 ^ 32 - 1) :
    ∃ out L' e, Writer.embedManifest z m = .ok out ∧ parseLayout out = .ok L' ∧
      out.take L.cdStart = z.take L.cdStart ∧
      L'.entries = L.entries.map (CdEntry.shift (62 + m.length)) ++ [e] ∧
      e.localHeaderOffset = L.cdStart ∧ IsManifestEntry out L' L.entries.length m ∧
      ∀ ms, Binding.collectionMembers out = .ok ms ↔ Binding.collectionMembers z = .ok ms := by
  obtain ⟨A, rfl, rfl⟩ := exists_archive_of_parseLayout hL
  have hgap := A.headersEndAtEocd_iff.1 hend
  have hpath := length_manifestPath
  have hbytes := A.length_bytes
  have hdata := A.length_insertedData zipManifestPath m
  have hdir := A.length_insertedDir zipManifestPath m
  rw [Archive.layout_entries, A.length_entries] at hcount
  obtain ⟨hm, B, hB, -, hinsert⟩ := Archive.exists_insert (m := m) hgap (by omega)
    (by omega) (by omega)
  refine ⟨B.bytes, B.layout, hB.entry, ?_, B.parseLayout_bytes, ?_, ?_, ?_, hB.isManifestEntry,
    fun ms => hB.collectionMembers⟩
  · rw [embedManifest_of_absent hnone, hinsert]
  · rw [Archive.layout_cdStart, A.take_bytes, Archive.bytes, hB.data, Archive.insertedData,
      List.append_assoc, List.take_left]
  · have hentries := hB.entries
    rwa [hpath] at hentries
  · rw [hB.entry_eq]
    rfl

/-- A manifest appended to an archive of two members. -/
theorem embed_appends_two_members :
    ∃ out L', Writer.embedManifest (buildZip [("a", [7]), ("b", [])]) [1] = .ok out ∧
      parseLayout out = .ok L' ∧ out.take 63 = (buildZip [("a", [7]), ("b", [])]).take 63 ∧
      IsManifestEntry out L' 2 [1] := by
  obtain ⟨out, L', -, hout, hL', hdata, -, -, hmanifest, -⟩ :=
    embed_appends (z := buildZip [("a", [7]), ("b", [])]) (m := [1])
      (L := { entries := [⟨"a", 0, 0, crc32 [7], 1, 1, 0, 63, 47⟩,
                ⟨"b", 0, 0, 0, 0, 0, 32, 110, 47⟩]
              cdStart := 63
              eocdOffset := 157 })
      (by decide +kernel) (by decide +kernel) (by decide) (by decide) (by decide +kernel)
  exact ⟨out, L', hout, hL', hdata, hmanifest⟩

end C2paZip
