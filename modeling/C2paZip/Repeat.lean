import C2paZip.ReadBack

/-!
# Embedding again

Replacing and stripping a manifest check every entry of the archive, while inserting a first
manifest checks none. A manifest that was embedded and is read back can therefore be replaced and
stripped again exactly where every entry of the result binds, which `StripsAgain` says of the input
(`embed_strips_again_iff`).
-/

set_option autoImplicit false

namespace C2paZip

open Library

/-- The condition under which the result of embedding `m` into `z` can be edited again. Either `z`
has a manifest entry, so that embedding has checked the other entries. Or the parser counts the
written header, and the entries of `z` bind. Or it counts an uncounted header, and the entries of
`z` and that one bind. -/
def StripsAgain (z : List UInt8) (L : ZipLayout) (m : List UInt8) : Prop :=
  (∃ e ∈ L.entries, e.name = zipManifestPath) ∨
  (L.HeadersEndAtEocd ∧ ∀ i < L.entries.length, ∃ r, entryBindingRange z L i = .ok r) ∨
  ∃ X, UncountedHeader z L m X ∧ BindsWith z L m X

section Strip

variable {A B : Archive} {m m' : List UInt8} {X : CdHeader}

/-- **A manifest is replaced and stripped exactly where all entries bind**, away from the limits. -/
theorem strips_iff (hname : ∃ e ∈ A.entries, e.name = zipManifestPath)
    (hdata : A.data.length + (62 + m.length) < 2 ^ 32 - 1)
    (hdir : (dirBytes A.headers).length + 78 < 2 ^ 32 - 1) :
    ((∃ out, Writer.embedManifest A.bytes m = .ok out) ∧
      ∃ out, Writer.removeManifest A.bytes = .ok out) ↔ ∃ items, A.Carries items := by
  constructor
  · rintro ⟨-, out, hremove⟩
    exact exists_carries_of_removeZipEntry hname hremove
  · rintro ⟨items, hA⟩
    obtain ⟨-, hkeptdata, hkeptdir⟩ := hA.kept_le zipManifestPath
    have hsize : m.length < 2 ^ 32 - 1 := by omega
    exact ⟨⟨_, (embedManifest_eq_ok hA hname hsize).2 ⟨by omega, by omega, rfl⟩⟩,
      _, (removeZipEntry_eq_ok hA hname).2 ⟨by omega, rfl⟩⟩

namespace Archive.IsInserted

/-- The entries of an insertion bind where the old entries and that of the last header do. -/
theorem exists_carries_iff (h : IsInserted A B zipManifestPath m X) :
    (∃ items, B.Carries items) ↔
      ∀ q ∈ A.layout.roomsWith (X.entry A.layout.walkEnd) (A.data.length + (62 + m.length)),
        ∃ r, bindingRange (recordedData A.bytes A.layout m) q.1 q.2 = .ok r := by
  rw [exists_carries_iff_rooms, h.rooms_with, List.forall_mem_map]
  constructor
  · intro hbind q hq
    obtain ⟨r, hr⟩ := hbind q hq
    exact ⟨r, (h.bindingRange_with hq).1 hr⟩
  · intro hbind q hq
    obtain ⟨r, hr⟩ := hbind q hq
    exact ⟨r, (h.bindingRange_with hq).2 hr⟩

/-- The written entry always binds, and the old entries bind as before. -/
theorem exists_carries_iff_of_newHeader {hsize : m.length < 2 ^ 32 - 1}
    (h : IsInserted A B zipManifestPath m (A.newHeader manifestPath_lt hsize)) :
    (∃ items, B.Carries items) ↔ ∃ items, A.Carries items := by
  rw [exists_carries_iff_rooms, exists_carries_iff_rooms, h.rooms]
  constructor
  · intro hbind p hp
    obtain ⟨r, hr⟩ := hbind _ (List.mem_append_left _ (List.mem_map.2 ⟨p, hp, rfl⟩))
    exact ⟨r, (h.bindingRange_old hp _).1 hr⟩
  · intro hbind p hp
    rcases List.mem_append.1 hp with hold | hnew
    · obtain ⟨q, hq, rfl⟩ := List.mem_map.1 hold
      obtain ⟨r, hr⟩ := hbind q hq
      exact ⟨r, (h.bindingRange_old hq _).2 hr⟩
    · obtain rfl := List.mem_singleton.1 hnew
      exact ⟨_, h.bindingRange_new⟩

end Archive.IsInserted

/-- The header of uncounted bytes is determined. -/
theorem UncountedHeader.unique {z : List UInt8} {L : ZipLayout} {Y Y' : CdEntry}
    (h : UncountedHeader z L m Y) (h' : UncountedHeader z L m Y') : Y = Y' := by
  obtain ⟨next, hread⟩ := h.read
  obtain ⟨next', hread'⟩ := h'.read
  have heq := Except.ok.inj (hread.symm.trans hread')
  exact (Prod.mk.inj heq).1

/-- There is none where the headers end at the EOCD. -/
theorem UncountedHeader.gap_ne_nil {Y : CdEntry} (h : UncountedHeader A.bytes A.layout m Y) :
    A.gap ≠ [] := by
  intro hgap
  have hwhole := h.whole
  rw [A.layout_walkEnd, Archive.layout_eocdOffset, Archive.eocdOffset, hgap, List.length_nil]
    at hwhole
  omega

/-- **When the entries of an insertion bind**, where the manifest is read back. -/
theorem Archive.IsInserted.exists_carries_iff_of_read (h : IsInserted A B zipManifestPath m X)
    (hsize : m.length < 2 ^ 32 - 1) (hnone : ∀ e ∈ A.entries, e.name ≠ zipManifestPath)
    (hread : Reader.readManifest B.bytes = .ok (some m)) :
    (∃ items, B.Carries items) ↔ StripsAgain A.bytes A.layout m := by
  have hno : ¬ ∃ e ∈ A.layout.entries, e.name = zipManifestPath := by
    rintro ⟨e, he, hn⟩
    exact hnone e he hn
  rw [StripsAgain, or_iff_right hno]
  by_cases hgap : A.gap = []
  · -- The parser counts the written header.
    obtain ⟨rfl, -⟩ := h.eq_newHeader hgap manifestPath_lt hsize
    rw [h.exists_carries_iff_of_newHeader, A.exists_carries_iff]
    constructor
    · intro hbind
      exact Or.inl ⟨A.headersEndAtEocd_iff.2 hgap, hbind⟩
    · rintro (⟨-, hbind⟩ | ⟨W, hW, -⟩)
      · exact hbind
      · exact absurd hgap hW.gap_ne_nil
  · -- The parser counts a header of the uncounted bytes.
    obtain ⟨hmanifest, hholds⟩ := (h.readManifest_eq_some hnone).1 hread
    have hheader := h.uncountedHeader hgap hmanifest
    rw [h.exists_carries_iff, Archive.forall_binds_iff hholds.content (by omega)]
    constructor
    · intro hbind
      exact Or.inr ⟨_, hheader, hbind⟩
    · rintro (⟨hend, -⟩ | ⟨W, hW, hbind⟩)
      · exact absurd (A.headersEndAtEocd_iff.1 hend) hgap
      · obtain rfl := hW.unique hheader
        exact hbind

end Strip

/-- **An embedded manifest that is read back can be replaced and stripped exactly under
`StripsAgain`.** -/
theorem embed_strips_again_iff {z m₁ m₂ y : List UInt8}
    (hz : z.length + m₁.length + m₂.length + 140 < 2 ^ 32 - 1)
    (hembed : Writer.embedManifest z m₁ = .ok y)
    (hread : Reader.readManifest y = .ok (some m₁)) :
    ((∃ out, Writer.embedManifest y m₂ = .ok out) ∧ ∃ out, Writer.removeManifest y = .ok out) ↔
      ∃ L, parseLayout z = .ok L ∧ StripsAgain z L m₁ := by
  obtain ⟨A, rfl⟩ := exists_archive_of_embedManifest hembed
  obtain ⟨B, -, hinsert, hnone, hlenB, hbase⟩ := exists_base hembed
  obtain ⟨Y, rfl⟩ := exists_archive_of_bind hread
  obtain ⟨-, hd, hs, hY⟩ := Archive.insertZipEntry_eq_ok.1 hinsert
  obtain ⟨⟨X, hins⟩, -, -, -⟩ := Archive.inserted_parts hd hs hY
  have hname : ∃ e ∈ Y.entries, e.name = zipManifestPath := by
    obtain ⟨p, r, hloc, -⟩ := Y.readManifestEntry_eq_some.1 hread
    exact ⟨p.1, Y.room_fst_mem (Y.room?_mem hloc.room), Y.room?_name hloc.room⟩
  -- The sizes of the result, from those of the base.
  have hdata := hins.length_data
  have hdir := hins.length_directory_le
  rw [length_manifestPath] at hdata hdir
  have hbytes := B.length_bytes
  have heocd := B.eocd_length_ge
  have hsize : m₁.length < 2 ^ 32 - 1 := by omega
  rw [A.exists_layout_iff, strips_iff hname (by omega) (by omega)]
  rcases hbase with rfl | ⟨hmanifest, hgap, -, hcarries⟩
  · exact hins.exists_carries_iff_of_read hsize hnone hread
  · -- The packed items of the base bind.
    obtain ⟨rfl, -⟩ := hins.eq_newHeader hgap manifestPath_lt hsize
    exact iff_of_true (hins.exists_carries_iff_of_newHeader.2 hcarries) (Or.inl hmanifest)

/-- A manifest embedded beside a member can be replaced and stripped. -/
theorem embed_strips_again_beside_member :
    (∃ out, Writer.embedManifest (buildZip [("a", [7]), (zipManifestPath, [1])]) [2] = .ok out) ∧
      ∃ out, Writer.removeManifest (buildZip [("a", [7]), (zipManifestPath, [1])]) = .ok out :=
  (@embed_strips_again_iff (buildZip [("a", [7])]) [1] [2] _ (by decide +kernel) (by decide +kernel)
    (by decide +kernel)).2
    ⟨{ entries := [⟨"a", 0, 0, crc32 [7], 1, 1, 0, 32, 47⟩], cdStart := 32, eocdOffset := 79 },
      by decide +kernel, Or.inr (Or.inl ⟨by decide, by
        intro i hi
        obtain rfl : i = 0 := by simpa using hi
        exact ⟨⟨0, 32⟩, by decide +kernel⟩⟩)⟩

/-- An uncounted header that points behind the file data, but has the CRC of another content than is
embedded there. -/
example : (Writer.embedManifest (writeEocd (writeCdHeader [0] (asBytes zipManifestPath) (crc32 [1])
    1 32 1) 0 0 1) [2] >>= Writer.removeManifest) = .error .badOffset := by
  decide +kernel

/-- An archive of one byte of file data with a header for an empty name that points at it. -/
def headerWithoutRecord : List UInt8 := writeEocd (writeCdHeader [0] [] 0 0 0 0) 1 46 1

/-- `headerWithoutRecord` with an empty manifest embedded. -/
def headerWithoutRecordSigned : List UInt8 :=
  writeEocd (writeCdHeader (writeCdHeader (writeLocalHeader [0] (asBytes zipManifestPath) 0 0 32)
    [] 0 0 0 0) (asBytes zipManifestPath) 0 0 32 1) 2 124 63

/-- The entry without a record does not stop a manifest from being embedded and read back, but from
being replaced and stripped. -/
theorem embed_not_stripped_again :
    Writer.embedManifest headerWithoutRecord [] = .ok headerWithoutRecordSigned ∧
      Reader.readManifest headerWithoutRecordSigned = .ok (some []) ∧
      Writer.embedManifest headerWithoutRecordSigned [] = .error .truncated ∧
      Writer.removeManifest headerWithoutRecordSigned = .error .truncated := by
  decide +kernel

end C2paZip
