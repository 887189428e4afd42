import C2paZip.Embed
import C2paZip.Recorded

/-!
# Reading back what was embedded

Embedding counts one entry more and writes the new count, sizes and offsets as they are, so that its
result is read back exactly where these stay below the ZIP64 sentinels that the parser rejects and
the header that the parser counts is the one that embedding wrote (`embed_reads_back_iff`). The
second part fails on archives with bytes between the last counted header and the EOCD: they are
copied in front of the written header.
-/

set_option autoImplicit false

namespace C2paZip

open Library

/-- One manifest entry more keeps an archive of `count` entries with `data` bytes of file data and
`directory` bytes of directory below the ZIP64 sentinels. -/
structure BelowSentinels (count data directory : Nat) (m : List UInt8) : Prop where
  count : count + 1 < 65535
  data : data + (62 + m.length) < 2 ^ 32 - 1
  directory : directory + 78 < 2 ^ 32 - 1

/-- `X` is stored and unencrypted, and its content is `m`. -/
structure HoldsManifest (z : List UInt8) (L : ZipLayout) (m : List UInt8) (X : CdEntry) : Prop where
  stored : X.method = 0
  unencrypted : X.flags &&& 1 = 0
  content : HoldsContent z L m X

/-! ## Reading an insertion -/

section Inserted

variable {A B : Archive} {m out : List UInt8} {X : CdHeader}

/-- The lookup finds the room of the last header, since no other entry has its name. -/
theorem Archive.IsInserted.room?_eq_some (h : IsInserted A B zipManifestPath m X)
    (hnone : ∀ e ∈ A.entries, e.name ≠ zipManifestPath) (hname : X.name = zipManifestPath)
    {stop : Nat} (hq : (X.entry A.layout.walkEnd, stop) ∈
      A.layout.roomsWith (X.entry A.layout.walkEnd) (A.data.length + (62 + m.length))) :
    B.room? zipManifestPath =
      some ((X.entry A.layout.walkEnd).shift (62 + m.length), stop) := by
  have hmem : ((X.entry A.layout.walkEnd).shift (62 + m.length), stop) ∈ B.rooms := by
    rw [h.rooms_with]
    exact List.mem_map.2 ⟨_, hq, rfl⟩
  cases hfind : B.room? zipManifestPath with
  | none => exact absurd hname (B.room?_eq_none.1 hfind _ (B.room_fst_mem hmem))
  | some p =>
      have hp := B.room?_mem hfind
      have hname' := B.room?_name hfind
      rw [h.rooms_with] at hp
      obtain ⟨q, hq', rfl⟩ := List.mem_map.1 hp
      obtain ⟨b, hb⟩ := ZipLayout.exists_room_with (L := A.layout)
        (X := X.entry A.layout.walkEnd) (fun e he hn => hnone e he (hn.trans hname))
        (A.data.length + (62 + m.length))
      obtain rfl : stop = b := congrArg Prod.snd (hb _ hq rfl)
      rw [hb q hq' (hname'.trans hname.symm)]

/-- The content of a room, read in the result and in the recorded file data. -/
theorem Archive.IsInserted.slice_with (h : IsInserted A B zipManifestPath m X)
    {q : CdEntry × Nat} {r : Range}
    (hq : q ∈ A.layout.roomsWith (X.entry A.layout.walkEnd) (A.data.length + (62 + m.length)))
    (hr : r.stop ≤ q.2) : slice B.bytes r.start (r.stop - r.start) =
      slice (recordedData A.bytes A.layout m) r.start (r.stop - r.start) := by
  have hroom := h.room_with_le hq
  exact slice_congr fun i _ hi => h.getElem?_recordedData (by omega)

/-- **Reading takes the content of the last header**, where no other entry is called like the
manifest. -/
theorem Archive.IsInserted.readManifest_eq_some (h : IsInserted A B zipManifestPath m X)
    (hnone : ∀ e ∈ A.entries, e.name ≠ zipManifestPath) :
    Reader.readManifest B.bytes = .ok (some m) ↔
      X.name = zipManifestPath ∧
        HoldsManifest A.bytes A.layout m (X.entry A.layout.walkEnd) := by
  constructor
  · intro hread
    obtain ⟨p, r, hloc, hm⟩ := B.readManifestEntry_eq_some.1 hread
    have hp := B.room?_mem hloc.room
    rw [h.rooms_with] at hp
    obtain ⟨⟨Y, stop⟩, hq, rfl⟩ := List.mem_map.1 hp
    have hname : Y.name = zipManifestPath := B.room?_name hloc.room
    rcases ZipLayout.mem_roomsWith hq with hold | hnew
    · exact absurd hname (hnone _ hold)
    · obtain rfl : Y = X.entry A.layout.walkEnd := hnew
      have hcontent := (h.contentRange_with hq).1 hloc.content
      obtain ⟨-, -, -, -, hstop, -⟩ := contentRange_eq_ok.1 hcontent
      refine ⟨hname, hloc.stored, hloc.unencrypted,
        Archive.exists_content_iff.1 ⟨stop, r, hq, hcontent, ?_⟩⟩
      rw [← h.slice_with hq hstop, hm]
  · rintro ⟨hname, hstored, hunencrypted, hholds⟩
    obtain ⟨stop, r, hq, hcontent, hm⟩ := Archive.exists_content_iff.2 hholds
    obtain ⟨-, -, -, -, hstop, -⟩ := contentRange_eq_ok.1 hcontent
    refine B.readManifestEntry_eq_some.2
      ⟨_, r, ⟨h.room?_eq_some hnone hname hq, hstored, hunencrypted, ?_⟩, ?_⟩
    · exact (h.contentRange_with hq).2 hcontent
    · rw [h.slice_with hq hstop, hm]

/-- **Reading back an insertion**, where no entry is called like the manifest. -/
theorem readManifest_inserted_iff (hnone : ∀ e ∈ A.entries, e.name ≠ zipManifestPath)
    (hinsert : Zip.insertZipEntry A.bytes zipManifestPath m = .ok out) :
    Reader.readManifest out = .ok (some m) ↔
      BelowSentinels A.headers.length A.data.length (A.eocdOffset - A.data.length) m ∧
        (A.gap = [] ∨ ∃ Y, UncountedHeader A.bytes A.layout m Y ∧
          HoldsManifest A.bytes A.layout m Y) := by
  have hdata := A.length_insertedData zipManifestPath m
  have hdir := A.length_insertedDir zipManifestPath m
  have hpath := length_manifestPath
  have heocd : A.eocdOffset - A.data.length = (dirBytes A.headers).length + A.gap.length := by
    rw [Archive.eocdOffset]
    omega
  obtain ⟨-, hd, hs, rfl⟩ := Archive.insertZipEntry_eq_ok.1 hinsert
  constructor
  · intro hread
    obtain ⟨B, hB⟩ := exists_archive_of_bind hread
    obtain ⟨⟨X, hins⟩, hcount, hd', hs'⟩ := Archive.inserted_parts hd hs hB
    refine ⟨⟨hcount, by omega, by omega⟩, ?_⟩
    -- With a gap, the header that was read is not the written one.
    by_cases hgap : A.gap = []
    · exact Or.inl hgap
    · rw [← hB, hins.readManifest_eq_some hnone] at hread
      exact Or.inr ⟨_, hins.uncountedHeader hgap hread.1, hread.2⟩
  · rintro ⟨hbelow, hgap | ⟨Y, hheader, hholds⟩⟩
    · have hcount := hbelow.count
      have hd' := hbelow.data
      have hs' := hbelow.directory
      obtain ⟨hsize, B, hB, -, -⟩ :=
        Archive.exists_insert (m := m) hgap hcount (by omega) (by omega)
      have hlen := hB.length_data
      rw [← hB.bytes]
      refine B.readManifestEntry_eq_some.2 ⟨_, _, hB.locates hnone, ?_⟩
      have hcontent := hB.slice_content
      simp only
      rwa [show B.data.length - (A.data.length + (30 + (asBytes zipManifestPath).length)) =
        m.length by omega]
    · have hcount := hbelow.count
      have hd' := hbelow.data
      have hs' := hbelow.directory
      obtain ⟨B, X, hB, rfl⟩ := hheader.exists_isInserted hcount (by omega) (by omega)
      rw [← hB.bytes, hB.readManifest_eq_some hnone]
      exact ⟨hheader.name, hholds⟩

end Inserted

/-! ## Reading back -/

/-- The length of the binding range of entry `i`; zero where it does not bind. -/
def boundLength (z : List UInt8) (L : ZipLayout) (i : Nat) : Nat :=
  match entryBindingRange z L i with
  | .ok r => r.stop - r.start
  | .error _ => 0

/-- The condition under which embedding `m` into `z` is read back. Where `z` has a manifest, all
that counts is that the other entries, packed, stay below the sentinels with one manifest more.
Where it has none, its own sizes count, and the header behind the counted ones is the written header
or stands in the uncounted bytes and has the content `m`. -/
def ReadsBack (z : List UInt8) (L : ZipLayout) (m : List UInt8) : Prop :=
  if ∃ e ∈ L.entries, e.name = zipManifestPath then
    BelowSentinels (otherEntries L zipManifestPath).length
      ((otherEntries L zipManifestPath).map (boundLength z L)).sum
      ((otherEntries L zipManifestPath).map fun i => L.entries[i]!.cdHeaderLen).sum m
  else
    BelowSentinels L.entries.length L.cdStart (L.eocdOffset - L.cdStart) m ∧
      (L.HeadersEndAtEocd ∨ ∃ X, UncountedHeader z L m X ∧ HoldsManifest z L m X)

section Packed

variable {A : Archive} {items : List Item} (hA : A.Carries items) (name : String)

include hA

/-- The packed data of the kept items is as long as the binding ranges. -/
theorem Archive.Carries.sum_boundLength :
    ((otherEntries A.layout name).map (boundLength A.bytes A.layout)).sum =
      (bodies (kept name items)).length := by
  have hmap : (otherEntries A.layout name).map (boundLength A.bytes A.layout) =
      (kept name items).map fun it => it.body.length := by
    refine map_eq_map_of_forall₂ (hA.forall₂_otherEntries name) ?_
    intro i hi it hit
    have hlt : i < A.layout.entries.length := List.mem_range.1 (List.mem_filter.1 hi).1
    have hroom := A.room_le_bytes (List.mem_of_getElem? (A.getElem?_room hlt))
    have hbind := hit.bindingRange_eq hroom
    rw [boundLength, entryBindingRange, hbind]
    exact Nat.add_sub_cancel_left _ _
  rw [hmap, bodies, List.length_flatMap]

/-- The packed directory of the kept items is as long as their headers. -/
theorem Archive.Carries.sum_cdHeaderLen :
    ((otherEntries A.layout name).map fun i => A.layout.entries[i]!.cdHeaderLen).sum =
      (directory (kept name items)).length := by
  have hmap : ((otherEntries A.layout name).map fun i => A.layout.entries[i]!.cdHeaderLen) =
      (kept name items).map fun it => it.header.bytes.length :=
    map_eq_map_of_forall₂ (hA.forall₂_otherEntries name) fun _ _ _ hit => hit.cdHeaderLen
  rw [hmap, C2paZip.length_directory]

end Packed

/-- **Embedding is read back exactly where the written count, sizes and offsets stay below the ZIP64
sentinels and the parser counts the written header.** -/
theorem embed_reads_back_iff {z m out : List UInt8} (hembed : Writer.embedManifest z m = .ok out) :
    Reader.readManifest out = .ok (some m) ↔
      ∃ L, parseLayout z = .ok L ∧ ReadsBack z L m := by
  obtain ⟨A, rfl⟩ := exists_archive_of_embedManifest hembed
  rw [A.exists_layout_iff, ReadsBack]
  by_cases hname : ∃ e ∈ A.layout.entries, e.name = zipManifestPath
  · -- The manifest is inserted behind the packed other items.
    obtain ⟨items, hA⟩ := exists_carries_of_embedManifest hname hembed
    obtain ⟨hfits, hinsert⟩ := exists_fits_of_embedManifest hA hname hembed
    have hothers := (hA.forall₂_otherEntries zipManifestPath).length_eq
    rw [if_pos hname, readManifest_inserted_iff (not_exists_name_kept hfits) hinsert,
      assemble_directory_length, hA.sum_boundLength, hA.sum_cdHeaderLen, hothers, assemble_headers,
      length_placeHeaders, assemble_data, assemble_gap]
    exact and_iff_left (Or.inl rfl)
  · -- The input is copied as it is.
    have hnone : ∀ e ∈ A.entries, e.name ≠ zipManifestPath :=
      fun e he hn => hname ⟨e, he, hn⟩
    rw [embedManifest_of_absent hnone] at hembed
    rw [if_neg hname, readManifest_inserted_iff hnone hembed, Archive.layout_entries,
      A.length_entries, A.headersEndAtEocd_iff]
    rfl

/-- A manifest embedded beside a member is read back. -/
theorem embed_reads_back_beside_member :
    Reader.readManifest (buildZip [("a", [7]), (zipManifestPath, [1])]) = .ok (some [1]) :=
  (@embed_reads_back_iff (buildZip [("a", [7])]) [1] _ (by decide +kernel)).2
    ⟨{ entries := [⟨"a", 0, 0, crc32 [7], 1, 1, 0, 32, 47⟩], cdStart := 32, eocdOffset := 79 },
      by decide +kernel, by
        rw [ReadsBack, if_neg (by decide)]
        exact ⟨⟨by decide, by decide, by decide⟩, Or.inl (by decide)⟩⟩

/-- An uncounted header that points behind the file data is counted for the record put there. -/
example : (Writer.embedManifest (writeEocd (writeCdHeader [0] (asBytes zipManifestPath) (crc32 [1])
    1 32 1) 0 0 1) [2] >>= Reader.readManifest) = .ok (some [2]) := by
  decide +kernel

/-- One uncounted byte in front of the EOCD is taken for the first byte of the manifest's header. -/
theorem embed_not_read_back_behind_stray_byte :
    Writer.embedManifest (writeEocd [0] 0 0 0) [] =
        .ok (writeEocd (writeCdHeader (writeLocalHeader [] (asBytes zipManifestPath) 0 0 32 ++ [0])
          (asBytes zipManifestPath) 0 0 32 0) 1 79 62) ∧
      Reader.readManifest (writeEocd (writeCdHeader (writeLocalHeader [] (asBytes zipManifestPath)
          0 0 32 ++ [0]) (asBytes zipManifestPath) 0 0 32 0) 1 79 62) = .error .truncated := by
  decide +kernel

end C2paZip
