import C2paZip.Append

/-!
# Uncounted directory bytes

Insertion copies the bytes between the last counted header and the EOCD, adds its header behind them
and counts one header more. Where there are such bytes, the header that the parser then finds for
the new count starts with them. It names the manifest only where a whole fixed part and name stand
there already (`UncountedHeader`): the header that insertion writes cannot supply a part of them
(`CdHeader.length_gap_ge`).
-/

set_option autoImplicit false

namespace C2paZip

open Library

/-- Where the walk over the counted headers ends. -/
def ZipLayout.walkEnd (L : ZipLayout) : Nat := L.cdStart + (L.entries.map CdEntry.cdHeaderLen).sum

/-- The file data of `z` with the record of the manifest `m` behind it. -/
def recordedData (z : List UInt8) (L : ZipLayout) (m : List UInt8) : List UInt8 :=
  z.take L.cdStart ++ storedRecord zipManifestPath m

/-- The rooms of the entries of `L` and of `X` in file data that ends at `stop`. -/
def ZipLayout.roomsWith (L : ZipLayout) (X : CdEntry) (stop : Nat) : List (CdEntry × Nat) :=
  rooms stop (sortByKey CdEntry.localHeaderOffset (L.entries ++ [X]))

/-- The fixed part and the name of one more header, called like the manifest, stand between the
counted headers of `z` and its EOCD. `X` is the entry that the walk makes of it where a record of
`m` and a header of 78 bytes are added. -/
structure UncountedHeader (z : List UInt8) (L : ZipLayout) (m : List UInt8) (X : CdEntry) :
    Prop where
  whole : L.walkEnd + 78 ≤ L.eocdOffset
  read : ∃ next, readCdHeader z (L.eocdOffset + 78) (L.cdStart + (62 + m.length)) L.walkEnd =
    .ok (X, next)
  name : X.name = zipManifestPath

theorem ZipLayout.mem_roomsWith {L : ZipLayout} {X : CdEntry} {stop : Nat} {q : CdEntry × Nat}
    (hq : q ∈ L.roomsWith X stop) : q.1 ∈ L.entries ∨ q.1 = X := by
  have hfst : q.1 ∈ (L.roomsWith X stop).map Prod.fst := List.mem_map_of_mem hq
  rw [ZipLayout.roomsWith, map_fst_rooms, mem_sortByKey, List.mem_append,
    List.mem_singleton] at hfst
  exact hfst

/-- An entry with a new name has one room. -/
theorem ZipLayout.exists_room_with {L : ZipLayout} {X : CdEntry}
    (hnone : ∀ e ∈ L.entries, e.name ≠ X.name) (stop : Nat) :
    ∃ b, ∀ q ∈ L.roomsWith X stop, q.1.name = X.name → q = (X, b) := by
  obtain ⟨l, r, hL, hX, -, -⟩ :=
    sortByKey_append_singleton CdEntry.localHeaderOffset L.entries X
  -- `X` stands between the entries up to its offset and those behind it.
  have hold : ∀ e ∈ l ++ r, e.name ≠ X.name := by
    intro e he
    rw [← hL] at he
    exact hnone e ((mem_sortByKey _).1 he)
  have hfst : ∀ {b es} {q : CdEntry × Nat}, q ∈ rooms b es → q.1 ∈ es := by
    intro b es q hq
    rw [← map_fst_rooms b es]
    exact List.mem_map_of_mem hq
  rw [ZipLayout.roomsWith, hX, rooms_append_cons, rooms]
  refine ⟨(r.head?.map CdEntry.localHeaderOffset).getD stop, fun q hq hname => ?_⟩
  rcases List.mem_append.1 hq with hq | hq
  · exact absurd hname (hold _ (List.mem_append_left _ (hfst hq)))
  · rcases List.mem_cons.1 hq with hq | hq
    · exact hq
    · exact absurd hname (hold _ (List.mem_append_right _ (hfst hq)))

/-! ## The header behind the counted ones -/

section Straddle

theorem manifestPath_ne {b : UInt8} (hb : b ∈ asBytes zipManifestPath) : b ≠ 0x50 ∧ b ≠ 0 := by
  have hall : ∀ b ∈ asBytes zipManifestPath, b ≠ 0x50 ∧ b ≠ 0 := by decide +kernel
  exact hall b hb

theorem manifestPath_zero : (asBytes zipManifestPath)[0]? = some 0x4d := by decide +kernel

theorem manifestPath_four : (asBytes zipManifestPath)[4]? = some 0x2d := by decide +kernel

variable {A : Archive} {m : List UInt8}

theorem insertedHeader_zero : (A.insertedHeader zipManifestPath m)[0]? = some 0x50 := rfl

theorem insertedHeader_twelve : (A.insertedHeader zipManifestPath m)[12]? = some 0 := rfl

theorem insertedHeader_fortyone : (A.insertedHeader zipManifestPath m)[41]? = some 0 := rfl

theorem insertedHeader_name : (A.insertedHeader zipManifestPath m)[46]? = some 0x4d := by
  have hname := congrArg (·[0]?) (writeCdHeader_name (asBytes zipManifestPath) (crc32 m)
    (UInt32.ofNat m.length) (UInt16.ofNat (asBytes zipManifestPath).length)
    (UInt32.ofNat A.data.length) 1)
  simp only [getElem?_slice Nat.one_pos] at hname
  exact hname.trans manifestPath_zero

/-- **The written header supplies no part of another manifest header**: the header behind the
counted ones names the manifest only where the uncounted bytes hold all of its fixed part and name.
-/
theorem CdHeader.length_gap_ge {X : CdHeader} {rest : List UInt8}
    (hX : X.bytes ++ rest = A.gap ++ A.insertedHeader zipManifestPath m)
    (hname : X.name = zipManifestPath) (hgap : A.gap ≠ []) : 78 ≤ A.gap.length := by
  have hpos : 0 < A.gap.length := List.length_pos_iff.2 hgap
  have hfix := X.name_le
  have hpath := X.slice_name
  rw [hname, length_manifestPath] at hfix hpath
  -- The fixed part and the name, and the written header behind the gap, read in the joined bytes.
  have hsig : slice X.bytes 0 4 = u32ToLe cdHeaderSig := by
    rw [← u32ToLe_u32At (by omega), X.sig_eq]
  have front : ∀ i, i < X.bytes.length → (A.gap ++ A.insertedHeader zipManifestPath m)[i]? =
      X.bytes[i]? := by
    intro i hi
    rw [← hX, List.getElem?_append_left hi]
  have inName : ∀ k, k < 32 → (A.gap ++ A.insertedHeader zipManifestPath m)[46 + k]? =
      (asBytes zipManifestPath)[k]? := by
    intro k hk
    rw [front _ (by omega), ← hpath, getElem?_slice hk]
  have behind : ∀ j, (A.gap ++ A.insertedHeader zipManifestPath m)[A.gap.length + j]? =
      (A.insertedHeader zipManifestPath m)[j]? := by
    intro j
    rw [List.getElem?_append_right (Nat.le_add_right _ _), Nat.add_sub_cancel_left]
  have notInName : ∀ j b, (A.insertedHeader zipManifestPath m)[j]? = some b →
      46 ≤ A.gap.length + j → A.gap.length + j < 78 → b ≠ 0x50 ∧ b ≠ 0 := by
    intro j b hj hlo hhi
    have hk := inName (A.gap.length + j - 46) (by omega)
    rw [Nat.add_sub_cancel' hlo, behind, hj] at hk
    exact manifestPath_ne (List.mem_of_getElem? hk.symm)
  by_contra hlt
  rcases Nat.lt_or_ge A.gap.length 4 with h4 | h4
  · -- The written header would start inside the signature.
    have hno : ∀ g < 4, 0 < g → (u32ToLe cdHeaderSig)[g]? ≠ some 0x50 := by decide
    have h0 := behind 0
    rw [Nat.add_zero, front _ (by omega), insertedHeader_zero] at h0
    apply hno _ h4 hpos
    rw [← hsig, getElem?_slice h4, Nat.zero_add, h0]
  rcases Nat.eq_or_lt_of_le h4 with h4 | h5
  · -- The written name starts inside the name.
    have h46 := behind 46
    rw [← h4, inName 4 (by omega), manifestPath_four, insertedHeader_name] at h46
    exact absurd h46 (by decide)
  rcases Nat.lt_or_ge A.gap.length 37 with h37 | h37
  · exact (notInName 41 0 insertedHeader_fortyone (by omega) (by omega)).2 rfl
  rcases Nat.lt_or_ge A.gap.length 46 with h46 | h46
  · exact (notInName 12 0 insertedHeader_twelve (by omega) (by omega)).2 rfl
  · exact (notInName 0 0x50 insertedHeader_zero (by omega) (by omega)).1 rfl

end Straddle

/-! ## The parsed result -/

namespace Archive

variable {A B : Archive} {m : List UInt8} {X : CdHeader}

theorem layout_walkEnd (A : Archive) :
    A.layout.walkEnd = A.data.length + (dirBytes A.headers).length := by
  rw [ZipLayout.walkEnd, layout_entries, A.sum_cdHeaderLen, layout_cdStart]

/-- The directory with the bytes that insertion adds. -/
theorem recordedData_bytes (A : Archive) (m : List UInt8) :
    recordedData A.bytes A.layout m = A.insertedData zipManifestPath m := by
  rw [recordedData, layout_cdStart, A.take_bytes, insertedData]

/-- The input up to the EOCD with the written header behind it. -/
def uncountedBytes (A : Archive) (m : List UInt8) : List UInt8 :=
  (A.data ++ dirBytes A.headers) ++ (A.gap ++ A.insertedHeader zipManifestPath m)

theorem length_uncountedBytes (A : Archive) (m : List UInt8) :
    (A.uncountedBytes m).length = A.eocdOffset + 78 := by
  simp only [uncountedBytes, List.length_append, length_insertedHeader, length_manifestPath,
    eocdOffset]
  omega

/-- What stands behind the counted headers, with anything behind it. -/
theorem slice_walkEnd (A : Archive) (xs : List UInt8) (n : Nat) :
    slice ((A.data ++ dirBytes A.headers) ++ xs) A.layout.walkEnd n = slice xs 0 n := by
  have hlen : (A.data ++ dirBytes A.headers).length = A.layout.walkEnd := by
    rw [List.length_append, A.layout_walkEnd]
  rw [← hlen, slice_append_length]

/-- The walk finds a header behind the counted ones exactly where one stands there. -/
theorem readCdHeader_uncountedBytes {Y : CdEntry} {next cdStart : Nat} (hcd : cdStart < 2 ^ 32) :
    readCdHeader (A.uncountedBytes m) (A.eocdOffset + 78) cdStart A.layout.walkEnd = .ok (Y, next) ↔
      ∃ (X : CdHeader) (rest : List UInt8),
        X.bytes ++ rest = A.gap ++ A.insertedHeader zipManifestPath m ∧
        X.localOffset < cdStart ∧ Y = X.entry A.layout.walkEnd ∧
        next = A.layout.walkEnd + X.bytes.length := by
  have hwalk := A.layout_walkEnd
  have heocd : A.eocdOffset = A.layout.walkEnd + A.gap.length := by rw [hwalk, eocdOffset]
  have hlen : (A.gap ++ A.insertedHeader zipManifestPath m).length = A.gap.length + 78 := by
    rw [List.length_append, length_insertedHeader, length_manifestPath]
  rw [readCdHeader_eq_ok (Nat.le_of_eq (length_uncountedBytes A m).symm) hcd]
  constructor
  · rintro ⟨X, hnext, -, hslice, hlocal, hY⟩
    rw [uncountedBytes, slice_walkEnd, slice_eq_take] at hslice
    refine ⟨X, (A.gap ++ A.insertedHeader zipManifestPath m).drop X.bytes.length, ?_, hlocal, hY,
      hnext⟩
    conv_lhs => lhs; rw [← hslice]
    exact List.take_append_drop _ _
  · rintro ⟨X, rest, hX, hlocal, hY, hnext⟩
    have hle := congrArg List.length hX
    rw [List.length_append, hlen] at hle
    refine ⟨X, hnext, by omega, ?_, hlocal, hY⟩
    rw [uncountedBytes, slice_walkEnd, ← hX, slice_append_zero]

/-- The bytes that decide about the header are those of the input. -/
theorem slice_uncountedBytes (hgap : 78 ≤ A.gap.length) :
    slice A.bytes A.layout.walkEnd 78 = slice (A.uncountedBytes m) A.layout.walkEnd 78 := by
  have hbytes : A.bytes = (A.data ++ dirBytes A.headers) ++ (A.gap ++ A.eocd) := by
    rw [bytes, List.append_assoc]
  rw [hbytes, uncountedBytes, slice_walkEnd, slice_walkEnd, slice_append_left (by omega),
    slice_append_left (by omega)]

/-- The header the parser takes from uncounted bytes, where it names the manifest. -/
theorem IsInserted.uncountedHeader (h : IsInserted A B zipManifestPath m X) (hgap : A.gap ≠ [])
    (hname : X.name = zipManifestPath) :
    UncountedHeader A.bytes A.layout m (X.entry A.layout.walkEnd) := by
  have hwhole := CdHeader.length_gap_ge h.behind hname hgap
  have hwalk := A.layout_walkEnd
  have heocd : A.eocdOffset = A.layout.walkEnd + A.gap.length := by rw [hwalk, eocdOffset]
  have hbytes := A.eocdOffset_add_length
  have hlen : (asBytes (X.entry A.layout.walkEnd).name).length = 32 := by
    rw [← length_manifestPath, ← hname]
    rfl
  have hdata := h.length_data
  have hdata' := B.data_length_lt
  rw [length_manifestPath] at hdata
  have hlocal : X.localOffset < A.data.length + (62 + m.length) := by
    have := B.local_lt X (by rw [h.headers]; simp)
    omega
  refine ⟨?_, ⟨A.layout.walkEnd + X.bytes.length, ?_⟩, hname⟩
  · rw [layout_eocdOffset]
    omega
  · refine readCdHeader_congr (x := A.uncountedBytes m) (by rw [hlen]; omega) ?_ ?_
    · rw [hlen]
      exact (slice_uncountedBytes hwhole).symm
    · exact (readCdHeader_uncountedBytes (by rw [layout_cdStart]; omega)).2
        ⟨X, B.gap, h.behind, hlocal, rfl, rfl⟩

end Archive

/-- Insertion in front of an uncounted manifest header is parsed with that header. -/
theorem UncountedHeader.exists_isInserted {A : Archive} {m : List UInt8} {Y : CdEntry}
    (hu : UncountedHeader A.bytes A.layout m Y) (hcount : A.headers.length + 1 < 65535)
    (hdata : (A.insertedData zipManifestPath m).length < 2 ^ 32 - 1)
    (hdir : (A.insertedDir zipManifestPath m).length < 2 ^ 32 - 1) :
    ∃ (B : Archive) (X : CdHeader), Archive.IsInserted A B zipManifestPath m X ∧
      Y = X.entry A.layout.walkEnd := by
  obtain ⟨hwhole, ⟨next, hread⟩, hname⟩ := hu
  have hwalk := A.layout_walkEnd
  have heocd : A.eocdOffset = A.layout.walkEnd + A.gap.length := by rw [hwalk, Archive.eocdOffset]
  have hlenD := A.length_insertedData zipManifestPath m
  have hbytes := A.length_uncountedBytes m
  rw [length_manifestPath] at hlenD
  rw [Archive.layout_eocdOffset] at hwhole hread
  have hlen : (asBytes Y.name).length = 32 := by rw [hname, length_manifestPath]
  -- The same header is read where the written header replaces the EOCD.
  have hread' := readCdHeader_congr (y := A.uncountedBytes m) (by rw [hlen]; omega)
    (by rw [hlen]; exact A.slice_uncountedBytes (by omega)) hread
  obtain ⟨X, rest, hX, hlocal, hY, -⟩ :=
    (Archive.readCdHeader_uncountedBytes (by rw [Archive.layout_cdStart]; omega)).1 hread'
  rw [Archive.layout_cdStart] at hlocal
  obtain ⟨B, hB, -⟩ := Archive.exists_inserted hX (by omega) hcount hdata hdir
  exact ⟨B, X, hB, hY⟩

namespace Archive.IsInserted

variable {A B : Archive} {m : List UInt8} {X : CdHeader}
  (h : IsInserted A B zipManifestPath m X)

include h

/-- The entries of the result are the old ones and that of the last header, with the headers moved.
-/
theorem rooms_with : B.rooms =
    (A.layout.roomsWith (X.entry A.layout.walkEnd) (A.data.length + (62 + m.length))).map
      fun q => (q.1.shift (62 + m.length), q.2) := by
  have hdata := h.length_data
  have hwalk := h.walk
  rw [length_manifestPath] at hdata hwalk
  have hentry : h.entry = (X.entry A.layout.walkEnd).shift (62 + m.length) := by
    rw [entry, hdata, A.layout_walkEnd, Nat.add_right_comm]
    rfl
  have hentries : B.entries = (sortByKey CdEntry.localHeaderOffset
      (A.entries ++ [X.entry A.layout.walkEnd])).map (CdEntry.shift (62 + m.length)) := by
    -- Moving the headers keeps the local offsets, which the sort looks at.
    have hsort : (sortByKey CdEntry.localHeaderOffset (A.walk ++ [X.entry A.layout.walkEnd])).map
        (CdEntry.shift (62 + m.length)) = sortByKey CdEntry.localHeaderOffset
          ((A.walk ++ [X.entry A.layout.walkEnd]).map (CdEntry.shift (62 + m.length))) :=
      map_sortByKey _ _ fun _ => rfl
    rw [Archive.entries, hwalk, hentry, Archive.entries, sortByKey_sortByKey_append, hsort,
      List.map_append]
    rfl
  rw [Archive.rooms, hentries, hdata]
  exact rooms_map (CdEntry.shift_localHeaderOffset _) _

theorem room_with_le {q : CdEntry × Nat}
    (hq : q ∈ A.layout.roomsWith (X.entry A.layout.walkEnd) (A.data.length + (62 + m.length))) :
    q.2 ≤ B.data.length := by
  have hmem : (q.1.shift (62 + m.length), q.2) ∈ B.rooms := by
    rw [h.rooms_with]
    exact List.mem_map_of_mem hq
  have hle := B.room_le hmem
  exact hle

/-- The rooms lie in the file data of the input with the new record behind it. -/
theorem getElem?_recordedData {i : Nat} (hi : i < B.data.length) :
    B.bytes[i]? = (recordedData A.bytes A.layout m)[i]? := by
  rw [A.recordedData_bytes, ← h.data, Archive.bytes, List.getElem?_append_left hi]

theorem length_recordedData : (recordedData A.bytes A.layout m).length = B.data.length := by
  rw [A.recordedData_bytes, h.data]

theorem contentRange_with {q : CdEntry × Nat} {r : Range}
    (hq : q ∈ A.layout.roomsWith (X.entry A.layout.walkEnd) (A.data.length + (62 + m.length))) :
    contentRange B.bytes (q.1.shift (62 + m.length)) q.2 = .ok r ↔
      contentRange (recordedData A.bytes A.layout m) q.1 q.2 = .ok r := by
  have hroom := h.room_with_le hq
  have hbytes := B.length_bytes
  have hlen := h.length_recordedData
  rw [contentRange_shift]
  exact contentRange_congr (by omega) (by omega)
    fun i _ hi => h.getElem?_recordedData (by omega)

theorem bindingRange_with {q : CdEntry × Nat} {r : Range}
    (hq : q ∈ A.layout.roomsWith (X.entry A.layout.walkEnd) (A.data.length + (62 + m.length))) :
    bindingRange B.bytes (q.1.shift (62 + m.length)) q.2 = .ok r ↔
      bindingRange (recordedData A.bytes A.layout m) q.1 q.2 = .ok r := by
  have hroom := h.room_with_le hq
  have hbytes := B.length_bytes
  have hlen := h.length_recordedData
  rw [bindingRange_shift]
  exact bindingRange_congr (by omega) (by omega)
    fun i _ hi => h.getElem?_recordedData (by omega)

end Archive.IsInserted

end C2paZip
