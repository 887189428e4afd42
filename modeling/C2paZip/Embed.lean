import C2paZip.Append
import C2paZip.Removal

/-!
# Replacing a manifest

Embedding into an archive that has a manifest entry removes every manifest entry first. The result
is the assembled archive of the other items and one stored manifest (`embedManifest_eq_ok`), so it
has exactly one manifest behind the other members (`embed_replaces`) and depends on the archive
through its other items only (`embed_forgets`).
-/

set_option autoImplicit false

namespace C2paZip

open Library

/-- The manifest entry that embedding writes. -/
def manifestItem (m : List UInt8) (hsize : m.length < 2 ^ 32 - 1) : Item :=
  storedItem zipManifestPath m manifestPath_lt hsize

section ManifestItem

variable {m : List UInt8} (hsize : m.length < 2 ^ 32 - 1)

theorem manifestItem_name : (manifestItem m hsize).header.name = zipManifestPath := rfl

@[simp] theorem length_manifestItem_body :
    (manifestItem m hsize).body.length = 62 + m.length := by
  show (storedRecord zipManifestPath m).length = _
  rw [length_storedRecord, length_manifestPath]

@[simp] theorem length_manifestItem_header :
    (manifestItem m hsize).header.bytes.length = 78 := by
  show (writeCdHeader [] (asBytes zipManifestPath) _ _ _ _).length = _
  rw [length_writeCdHeader, length_manifestPath]

theorem length_bodies_manifest (items : List Item) :
    (bodies (items ++ [manifestItem m hsize])).length =
      (bodies items).length + (62 + m.length) := by
  simp

theorem length_directory_manifest (items : List Item) :
    (directory (items ++ [manifestItem m hsize])).length = (directory items).length + 78 := by
  rw [length_directory, length_directory]
  simp

/-- Removing the manifest from the other items and a manifest leaves the other items. -/
theorem kept_manifest (items : List Item) :
    kept zipManifestPath (kept zipManifestPath items ++ [manifestItem m hsize]) =
      kept zipManifestPath items := by
  rw [kept, List.filter_append]
  simp [manifestItem_name, kept]

end ManifestItem

/-- **An entry that is the manifest item is a manifest entry.** -/
theorem isManifestEntry_of_itemAt {A : Archive} {i : Nat} {m : List UInt8}
    {hsize : m.length < 2 ^ 32 - 1} (hi : i < A.layout.entries.length)
    (h : ItemAt A.bytes (A.layout.entries[i]!, entryBoundary A.layout i) (manifestItem m hsize)) :
    IsManifestEntry A.bytes A.layout i m := by
  have hroom := A.getElem?_room hi
  have hb := A.room_le_bytes (List.mem_of_getElem? hroom)
  have hentry := h.entry
  simp only [Item.headerAt, manifestItem, storedItem, patchOffset_storedHeader, storedHeader_entry]
    at hentry
  -- The binding range holds the written record.
  obtain ⟨r, hr, hbody⟩ := h.range
  obtain ⟨hstart, -, -, -⟩ := (bindingRange_eq_ok hb).1 hr
  have hbody' : slice A.bytes r.start (r.stop - r.start) = storedRecord zipManifestPath m := hbody
  have hlen := congrArg List.length hbody'
  rw [length_storedRecord, length_manifestPath] at hlen
  have hle := length_slice_le A.bytes r.start (r.stop - r.start)
  obtain ⟨hcontent, hslice⟩ := ItemAt.content_stored hb h
  refine ⟨by rw [hentry], by rw [hentry], by rw [hentry], by rw [hentry], ?_, _,
    (A.entryContentRange_of_room hroom).trans hcontent, ?_⟩
  · have hrecord := storedRecord_crc zipManifestPath m
    rw [← hbody', u32At_slice (by omega), hstart] at hrecord
    exact hrecord
  · simp only
    rw [Nat.add_sub_cancel_left, hslice]

/-- Removing a name that occurs removes at least one item. -/
theorem length_kept_lt {A : Archive} {items : List Item} {name : String} (hA : A.Carries items)
    (hname : ∃ e ∈ A.entries, e.name = name) : (kept name items).length < A.headers.length := by
  obtain ⟨it, hit, hn⟩ := hA.exists_name_iff.1 hname
  rw [← hA.length]
  exact List.length_filter_lt_length_iff_exists.2 ⟨it, hit, by simp [hn]⟩

/-- No entry of the kept items has the removed name. -/
theorem not_exists_name_kept {items : List Item} {name : String} (h : Fits (kept name items)) :
    ∀ e ∈ (assemble _ h).entries, e.name ≠ name := by
  intro e he hn
  obtain ⟨it, hit, hname⟩ := (carries_assemble h).exists_name_iff.1 ⟨e, he, hn⟩
  exact (mem_kept.1 hit).2 hname

section Replace

variable {A : Archive} {items : List Item} {m out : List UInt8}

/-- Inserting the manifest behind an assembled archive. -/
theorem insertZipEntry_assembled (h : Fits items) (hsize : m.length < 2 ^ 32 - 1) :
    Zip.insertZipEntry (assembled items) zipManifestPath m = .ok out ↔
      (bodies items).length + (62 + m.length) < 2 ^ 32 ∧ (directory items).length + 78 < 2 ^ 32 ∧
        out = assembled (items ++ [manifestItem m hsize]) := by
  have hdir : (directory items).length = (dirBytes (assemble items h).headers).length := rfl
  rw [← assemble_bytes h, Archive.insertZipEntry_eq_ok, inserted_assemble h manifestPath_lt hsize,
    Archive.length_insertedData, Archive.length_insertedDir, assemble_data, assemble_gap,
    length_manifestPath, List.length_nil, Nat.add_zero, hdir]
  exact and_iff_right (by decide)

/-- Where embedding replaces a manifest, the other items fit, and the manifest is inserted behind
them. -/
theorem exists_fits_of_embedManifest (hA : A.Carries items)
    (hname : ∃ e ∈ A.entries, e.name = zipManifestPath)
    (hembed : Writer.embedManifest A.bytes m = .ok out) :
    ∃ h : Fits (kept zipManifestPath items),
      Zip.insertZipEntry (assemble _ h).bytes zipManifestPath m = .ok out := by
  obtain ⟨base, hbase, hinsert⟩ := bind_eq_ok.1 hembed
  obtain ⟨hdir, rfl⟩ := (removeZipEntry_eq_ok hA hname).1 hbase
  have hcount := length_kept_lt hA hname
  have hheaders := A.headers_length_lt
  have hdata := A.data_length_lt
  obtain ⟨-, hbodies, -⟩ := hA.kept_le zipManifestPath
  -- The base is parsed again, so its directory is below the limit.
  obtain ⟨B, hB⟩ := exists_archive_of_bind hinsert
  obtain ⟨-, -, -, hn, hd, hs⟩ := Archive.parts_of_bytes_eq (by omega) (by omega) hdir hB
  have hfits : Fits (kept zipManifestPath items) := ⟨hn, hd, hs⟩
  refine ⟨hfits, ?_⟩
  rwa [assemble_bytes]

/-- **Replacing the manifest replaces the manifest items by one behind the others**, where data and
directory fit their length fields. -/
theorem embedManifest_eq_ok (hA : A.Carries items)
    (hname : ∃ e ∈ A.entries, e.name = zipManifestPath)
    (hsize : m.length < 2 ^ 32 - 1) :
    Writer.embedManifest A.bytes m = .ok out ↔
      (bodies (kept zipManifestPath items)).length + (62 + m.length) < 2 ^ 32 ∧
        (directory (kept zipManifestPath items)).length + 78 < 2 ^ 32 ∧
        out = assembled (kept zipManifestPath items ++ [manifestItem m hsize]) := by
  constructor
  · intro hembed
    obtain ⟨hfits, hinsert⟩ := exists_fits_of_embedManifest hA hname hembed
    rw [assemble_bytes] at hinsert
    exact (insertZipEntry_assembled hfits hsize).1 hinsert
  · rintro ⟨hd, hs, rfl⟩
    have hcount := length_kept_lt hA hname
    have hheaders := A.headers_length_lt
    have hfits : Fits (kept zipManifestPath items) := ⟨by omega, by omega, by omega⟩
    rw [Writer.embedManifest, (removeZipEntry_eq_ok hA hname).2 ⟨by omega, rfl⟩]
    exact (insertZipEntry_assembled hfits hsize).2 ⟨hd, hs, rfl⟩

end Replace

/-- The other items and a new manifest fit where the sizes are away from the limits. -/
theorem fits_manifest {A : Archive} {items : List Item} {m : List UInt8}
    (hsize : m.length < 2 ^ 32 - 1) (hA : A.Carries items)
    (hname : ∃ e ∈ A.entries, e.name = zipManifestPath)
    (hz : A.bytes.length + m.length + 140 < 2 ^ 32 - 1) :
    Fits (kept zipManifestPath items ++ [manifestItem m hsize]) := by
  have hcount := length_kept_lt hA hname
  have hheaders := A.headers_length_lt
  have hlen := A.length_bytes
  obtain ⟨-, hbodies, hdir⟩ := hA.kept_le zipManifestPath
  refine ⟨by rw [List.length_append, List.length_singleton]; omega, ?_, ?_⟩
  · rw [length_bodies_manifest]
    omega
  · rw [length_directory_manifest]
    omega

/-- An input on which embedding succeeds is an archive. -/
theorem exists_archive_of_embedManifest {z m out : List UInt8}
    (h : Writer.embedManifest z m = .ok out) : ∃ A : Archive, A.bytes = z := by
  obtain ⟨base, hbase, -⟩ := bind_eq_ok.1 h
  exact exists_archive_of_bind hbase

/-- Embedding into an archive with a manifest succeeds on archives all of whose entries bind. -/
theorem exists_carries_of_embedManifest {A : Archive} {m out : List UInt8}
    (hname : ∃ e ∈ A.entries, e.name = zipManifestPath)
    (h : Writer.embedManifest A.bytes m = .ok out) : ∃ items, A.Carries items := by
  obtain ⟨base, hbase, -⟩ := bind_eq_ok.1 h
  exact exists_carries_of_removeZipEntry hname hbase

/-- **Embedding inserts into a base** without manifest, which is no longer than the archive: the
archive itself, or the packed other items. -/
theorem exists_base {A : Archive} {m out : List UInt8}
    (hembed : Writer.embedManifest A.bytes m = .ok out) :
    ∃ B : Archive, Zip.removeZipEntry A.bytes zipManifestPath = .ok B.bytes ∧
      Zip.insertZipEntry B.bytes zipManifestPath m = .ok out ∧
      (∀ e ∈ B.entries, e.name ≠ zipManifestPath) ∧ B.bytes.length ≤ A.bytes.length ∧
      (B = A ∨ (∃ e ∈ A.entries, e.name = zipManifestPath) ∧ B.gap = [] ∧
        B.headers.length + 1 < 65535 ∧ ∃ items, B.Carries items) := by
  by_cases hname : ∃ e ∈ A.entries, e.name = zipManifestPath
  · obtain ⟨items, hA⟩ := exists_carries_of_embedManifest hname hembed
    obtain ⟨hfits, hinsert⟩ := exists_fits_of_embedManifest hA hname hembed
    have hdir := hfits.directory
    have hcount := length_kept_lt hA hname
    have hheaders := A.headers_length_lt
    have hremove : Zip.removeZipEntry A.bytes zipManifestPath = .ok (assemble _ hfits).bytes := by
      rw [assemble_bytes]
      exact (removeZipEntry_eq_ok hA hname).2 ⟨by omega, rfl⟩
    refine ⟨assemble _ hfits, hremove, hinsert, not_exists_name_kept hfits,
      length_removeZipEntry_le hremove, Or.inr ⟨hname, rfl, ?_, _, carries_assemble hfits⟩⟩
    · rw [assemble_headers, length_placeHeaders]
      omega
  · have hnone : ∀ e ∈ A.entries, e.name ≠ zipManifestPath := fun e he hn => hname ⟨e, he, hn⟩
    rw [embedManifest_of_absent hnone] at hembed
    exact ⟨A, removeZipEntry_of_absent hnone, hembed, hnone, Nat.le_refl _, Or.inl rfl⟩

/-- **Replacing leaves exactly one manifest and every other member intact.** The entries of the
result are the entries with another name, in order and with their data and binding-range bytes, and
one manifest entry with the content `m` behind them. -/
theorem embed_replaces {z m out : List UInt8} {L : ZipLayout} (hL : parseLayout z = .ok L)
    (hname : ∃ e ∈ L.entries, e.name = zipManifestPath)
    (hz : z.length + m.length + 140 < 2 ^ 32 - 1) (hembed : Writer.embedManifest z m = .ok out) :
    ∃ L', parseLayout out = .ok L' ∧
      L'.entries.length = (otherEntries L zipManifestPath).length + 1 ∧
      List.Forall₂ (fun i j => SameMember z L i out L' j) (otherEntries L zipManifestPath)
        (List.range (otherEntries L zipManifestPath).length) ∧
      IsManifestEntry out L' (otherEntries L zipManifestPath).length m := by
  obtain ⟨A, rfl, rfl⟩ := exists_archive_of_parseLayout hL
  obtain ⟨items, hA⟩ := exists_carries_of_embedManifest hname hembed
  have hsize : m.length < 2 ^ 32 - 1 := by omega
  have hfits := fits_manifest hsize hA hname hz
  obtain ⟨-, -, rfl⟩ := (embedManifest_eq_ok hA hname hsize).1 hembed
  rw [← assemble_bytes hfits]
  have hothers := hA.forall₂_otherEntries zipManifestPath
  have hlen : (assemble _ hfits).layout.entries.length =
      (otherEntries A.layout zipManifestPath).length + 1 := by
    rw [Archive.layout_entries, Archive.length_entries, assemble_headers, length_placeHeaders,
      List.length_append, hothers.length_eq, List.length_singleton]
  have hcarries := (carries_assemble hfits).forall₂_range
  -- The last item is the manifest, the items in front of it are the others.
  rw [hlen, List.range_succ, forall₂_concat_left] at hcarries
  obtain ⟨its, it, hits, hit, heq⟩ := hcarries
  obtain ⟨rfl, hlast⟩ := List.append_inj' heq rfl
  obtain rfl := List.singleton_inj.1 hlast
  refine ⟨_, Archive.parseLayout_bytes _, hlen, ?_, isManifestEntry_of_itemAt (by omega) hit⟩
  refine (forall₂_join hothers hits).imp ?_
  rintro i j ⟨x, hi, hj⟩
  exact sameMember_of_itemAt hi hj

/-- Replacing the two manifests around a member. -/
theorem embed_replaces_two_manifests :
    ∃ L', parseLayout (buildZip [("a", [7]), (zipManifestPath, [2])]) = .ok L' ∧
      L'.entries.length = 2 ∧
      IsManifestEntry (buildZip [("a", [7]), (zipManifestPath, [2])]) L' 1 [2] := by
  obtain ⟨L', hL', hlen, -, hmanifest⟩ := @embed_replaces
    (buildZip [(zipManifestPath, [0]), ("a", [7]), (zipManifestPath, [1])]) [2]
    (buildZip [("a", [7]), (zipManifestPath, [2])])
    { entries := [⟨zipManifestPath, 0, 0, crc32 [0], 1, 1, 0, 158, 78⟩,
        ⟨"a", 0, 0, crc32 [7], 1, 1, 63, 236, 47⟩,
        ⟨zipManifestPath, 0, 0, crc32 [1], 1, 1, 95, 283, 78⟩]
      cdStart := 158
      eocdOffset := 361 }
    (by decide +kernel) (by decide +kernel) (by decide +kernel) (by decide +kernel)
  exact ⟨L', hL', hlen, hmanifest⟩

/-- **Once an archive has a manifest, edits forget earlier manifests byte for byte.** -/
theorem embed_forgets {z a b x : List UInt8} {L : ZipLayout} (hL : parseLayout z = .ok L)
    (hname : ∃ e ∈ L.entries, e.name = zipManifestPath)
    (hz : z.length + a.length + b.length + 140 < 2 ^ 32 - 1)
    (hremove : Writer.removeManifest z = .ok x) :
    ∃ ya yb, Writer.embedManifest z a = .ok ya ∧ Writer.embedManifest ya b = .ok yb ∧
      Writer.embedManifest z b = .ok yb ∧ Writer.removeManifest ya = .ok x ∧
      Writer.removeManifest x = .ok x := by
  obtain ⟨A, rfl, rfl⟩ := exists_archive_of_parseLayout hL
  obtain ⟨items, hA⟩ := exists_carries_of_removeZipEntry hname hremove
  have ha : a.length < 2 ^ 32 - 1 := by omega
  have hb : b.length < 2 ^ 32 - 1 := by omega
  have hfa := fits_manifest ha hA hname (by omega)
  have hfb := fits_manifest hb hA hname (by omega)
  have hfx : Fits (kept zipManifestPath items) := fits_kept hA (by omega)
  have hda := hfa.data
  have hra := hfa.directory
  have hdb := hfb.data
  have hrb := hfb.directory
  rw [length_bodies_manifest] at hda hdb
  rw [length_directory_manifest] at hra hrb
  obtain ⟨-, rfl⟩ := (removeZipEntry_eq_ok hA hname).1 hremove
  -- The archive with the manifest `a` carries the other items and that manifest.
  have hYa := carries_assemble hfa
  have hnameYa : ∃ e ∈ (assemble _ hfa).entries, e.name = zipManifestPath :=
    hYa.exists_name_iff.2 ⟨manifestItem a ha, by simp, rfl⟩
  have hnoneX : ∀ e ∈ (assemble _ hfx).entries, e.name ≠ zipManifestPath :=
    not_exists_name_kept hfx
  refine ⟨assembled (kept zipManifestPath items ++ [manifestItem a ha]),
    assembled (kept zipManifestPath items ++ [manifestItem b hb]), ?_, ?_, ?_, ?_, ?_⟩
  · exact (embedManifest_eq_ok hA hname ha).2 ⟨by omega, by omega, rfl⟩
  · rw [← assemble_bytes hfa, embedManifest_eq_ok hYa hnameYa hb, kept_manifest]
    exact ⟨by omega, by omega, rfl⟩
  · exact (embedManifest_eq_ok hA hname hb).2 ⟨by omega, by omega, rfl⟩
  · rw [← assemble_bytes hfa, Writer.removeManifest, removeZipEntry_eq_ok hYa hnameYa,
      kept_manifest]
    exact ⟨by omega, rfl⟩
  · rw [← assemble_bytes hfx]
    exact removeZipEntry_of_absent hnoneX

/-- Two replacements of a manifest in front of a member. -/
theorem embed_forgets_first_manifest :
    ∃ ya yb, Writer.embedManifest (buildZip [(zipManifestPath, [0]), ("a", [7])]) [1] = .ok ya ∧
      Writer.embedManifest ya [2] = .ok yb ∧
      Writer.removeManifest ya = .ok (buildZip [("a", [7])]) := by
  obtain ⟨ya, yb, hya, hyb, -, hremove, -⟩ := embed_forgets
    (z := buildZip [(zipManifestPath, [0]), ("a", [7])]) (a := [1]) (b := [2])
    (x := buildZip [("a", [7])])
    (L := { entries := [⟨zipManifestPath, 0, 0, crc32 [0], 1, 1, 0, 95, 78⟩,
              ⟨"a", 0, 0, crc32 [7], 1, 1, 63, 173, 47⟩]
            cdStart := 95
            eocdOffset := 220 })
    (by decide +kernel) (by decide +kernel) (by decide +kernel) (by decide +kernel)
  exact ⟨ya, yb, hya, hyb, hremove⟩

end C2paZip
