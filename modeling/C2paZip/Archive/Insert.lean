import C2paZip.Archive.Locate
import C2paZip.Archive.Written

/-!
# Inserting an entry

`insert_zip_entry` puts a stored record behind the file data, copies the directory with whatever
stands behind its counted headers, adds a header and counts one entry more
(`insertZipEntry_eq_ok`). The parser reads back the old headers and one more, which it takes from
the first byte behind them (`Archive.inserted_parts`). It is the new header where the old headers
ended at the EOCD.
-/

set_option autoImplicit false

namespace C2paZip

open Library

/-- The entry with its directory header moved by `d`. -/
def CdEntry.shift (d : Nat) (e : CdEntry) : CdEntry :=
  { e with cdHeaderOffset := e.cdHeaderOffset + d }

theorem placeEntries_add (pos d : Nat) (hs : List CdHeader) :
    placeEntries (pos + d) hs = (placeEntries pos hs).map (CdEntry.shift d) := by
  induction hs generalizing pos with
  | nil => rfl
  | cons h hs ih =>
      rw [placeEntries, placeEntries, List.map_cons, ← ih, Nat.add_right_comm]
      rfl

@[simp] theorem CdEntry.shift_localHeaderOffset (d : Nat) (e : CdEntry) :
    (e.shift d).localHeaderOffset = e.localHeaderOffset := rfl

theorem contentRange_shift (z : List UInt8) (d : Nat) (e : CdEntry) (b : Nat) :
    contentRange z (e.shift d) b = contentRange z e b := rfl

theorem bindingRange_shift (z : List UInt8) (d : Nat) (e : CdEntry) (b : Nat) :
    bindingRange z (e.shift d) b = bindingRange z e b := rfl

namespace Archive

variable (A : Archive) (name : String) (content : List UInt8)

/-- The file data with the new record behind it. -/
def insertedData : List UInt8 := A.data ++ storedRecord name content

/-- The directory header of the new record. -/
def insertedHeader : List UInt8 :=
  writeCdHeader [] (asBytes name) (crc32 content) (UInt32.ofNat content.length)
    (UInt16.ofNat (asBytes name).length) (UInt32.ofNat A.data.length)

/-- The copied directory with the new header behind it. -/
def insertedDir : List UInt8 :=
  dirBytes A.headers ++ (A.gap ++ A.insertedHeader name content)

/-- The archive that insertion writes. -/
def inserted : List UInt8 :=
  writeEocd (A.insertedData name content ++ A.insertedDir name content)
    (UInt16.ofNat (A.headers.length + 1)) (UInt32.ofNat (A.insertedDir name content).length)
    (UInt32.ofNat (A.insertedData name content).length)

@[simp] theorem length_insertedData : (A.insertedData name content).length =
    A.data.length + (30 + (asBytes name).length + content.length) := by
  rw [insertedData, List.length_append, length_storedRecord]

@[simp] theorem length_insertedHeader :
    (A.insertedHeader name content).length = 46 + (asBytes name).length :=
  length_writeCdHeader _ _ _ _ _

theorem length_insertedDir : (A.insertedDir name content).length =
    (dirBytes A.headers).length + A.gap.length + (46 + (asBytes name).length) := by
  rw [insertedDir, List.length_append, List.length_append, length_insertedHeader, Nat.add_assoc]

variable {A name content}

/-- **Insertion succeeds exactly where the new name, data and directory fit their length fields.**
-/
theorem insertZipEntry_eq_ok {out : List UInt8} :
    Zip.insertZipEntry A.bytes name content = .ok out ↔
      (asBytes name).length < 2 ^ 16 ∧ (A.insertedData name content).length < 2 ^ 32 ∧
        (A.insertedDir name content).length < 2 ^ 32 ∧ out = A.inserted name content := by
  have hcount := A.headers_length_lt
  have hdata := A.data_length_lt
  have hdir := A.length_insertedDir name content
  have hlen := A.length_insertedData name content
  -- What the writers append, in the two parts of the result.
  have hdata' : writeLocalHeader A.data (asBytes name) (crc32 content) (UInt32.ofNat content.length)
      (UInt16.ofNat (asBytes name).length) ++ content = A.insertedData name content := by
    rw [writeLocalHeader_eq, List.append_assoc, insertedData, storedRecord]
  have hdir' : writeCdHeader (A.insertedData name content ++ (dirBytes A.headers ++ A.gap))
      (asBytes name) (crc32 content) (UInt32.ofNat content.length)
      (UInt16.ofNat (asBytes name).length) (UInt32.ofNat A.data.length) =
      A.insertedData name content ++ A.insertedDir name content := by
    rw [writeCdHeader_eq, insertedDir, insertedHeader]
    simp only [List.append_assoc]
  have hsplit : (A.insertedData name content ++ A.insertedDir name content).length =
      (A.insertedData name content).length + (A.insertedDir name content).length :=
    List.length_append
  simp only [Zip.insertZipEntry, bind_eq_ok, A.parseLayout_bytes, Except.ok.injEq, exists_eq_left',
    u16TryFrom_eq_ok, u32TryFrom_eq_ok, pure_eq_ok, layout_cdStart, layout_eocdOffset,
    layout_entries, length_entries, A.take_bytes, A.slice_bytes_dir, and_assoc, exists_and_left,
    hdata', hdir', hsplit]
  constructor
  · rintro ⟨h1, -, -, h2, h3, -, rfl⟩
    rw [u32_toNat_ofNat h2, Nat.add_sub_cancel_left] at h3 ⊢
    exact ⟨h1, h2, h3, rfl⟩
  · rintro ⟨h1, h2, h3, rfl⟩
    rw [u32_toNat_ofNat h2, Nat.add_sub_cancel_left]
    exact ⟨h1, by omega, by omega, h2, h3, by omega, rfl⟩

/-- An insertion adds two headers with the name, and the content. -/
theorem length_insertZipEntry_le {out : List UInt8}
    (hins : Zip.insertZipEntry A.bytes name content = .ok out) :
    out.length ≤ A.bytes.length + content.length + 2 * (asBytes name).length + 76 := by
  obtain ⟨-, -, -, rfl⟩ := insertZipEntry_eq_ok.1 hins
  have hdata := A.length_insertedData name content
  have hdir := A.length_insertedDir name content
  have hbytes := A.length_bytes
  have heocd := A.eocd_length_ge
  rw [inserted, length_writeEocd, List.length_append]
  omega

/-- `B` is the archive `A` with `content` inserted as `name`, and the parser takes `X` for the
header behind the old ones. -/
structure IsInserted (A B : Archive) (name : String) (content : List UInt8) (X : CdHeader) :
    Prop where
  bytes : B.bytes = A.inserted name content
  data : B.data = A.insertedData name content
  headers : B.headers = A.headers ++ [X]
  behind : X.bytes ++ B.gap = A.gap ++ A.insertedHeader name content

/-- **What the parser makes of an insertion**: the old headers and one more, taken from the first
byte behind them. -/
theorem inserted_parts {B : Archive} (hdata : (A.insertedData name content).length < 2 ^ 32)
    (hdir : (A.insertedDir name content).length < 2 ^ 32)
    (hB : B.bytes = A.inserted name content) :
    (∃ X, IsInserted A B name content X) ∧ A.headers.length + 1 < 65535 ∧
      (A.insertedData name content).length < 2 ^ 32 - 1 ∧
      (A.insertedDir name content).length < 2 ^ 32 - 1 := by
  have hcount := A.headers_length_lt
  obtain ⟨hd, hdir', hn, hcount', hdata', hsize⟩ := parts_of_bytes_eq (by omega) hdata hdir hB
  refine ⟨?_, hcount', hdata', hsize⟩
  -- The first headers are the old ones, since a header is self-delimiting.
  obtain ⟨hs, X, hheaders⟩ : ∃ hs X, B.headers = hs ++ [X] :=
    ⟨_, _, (List.dropLast_append_getLast (l := B.headers)
      (List.ne_nil_of_length_pos (by omega))).symm⟩
  rw [hheaders, List.length_append, List.length_singleton] at hn
  rw [hheaders, insertedDir] at hdir'
  simp only [dirBytes_append, dirBytes_cons, dirBytes_nil, List.append_nil, List.append_assoc]
    at hdir'
  obtain ⟨rfl, hX⟩ := dirBytes_append_inj (by omega) hdir'
  exact ⟨X, hB, hd, hheaders, hX⟩

/-- Where a header stands at the first byte behind the counted ones, the insertion is an archive. -/
theorem exists_inserted {X : CdHeader} {rest : List UInt8}
    (hX : X.bytes ++ rest = A.gap ++ A.insertedHeader name content)
    (hlocal : X.localOffset < (A.insertedData name content).length)
    (hcount : A.headers.length + 1 < 65535)
    (hdata : (A.insertedData name content).length < 2 ^ 32 - 1)
    (hdir : (A.insertedDir name content).length < 2 ^ 32 - 1) :
    ∃ B, IsInserted A B name content X ∧ B.gap = rest := by
  have hdir' : dirBytes (A.headers ++ [X]) ++ rest = A.insertedDir name content := by
    rw [insertedDir, ← hX]
    simp
  -- The old offsets are below the old directory start, which only moves up.
  have hlocal' : ∀ h ∈ A.headers ++ [X], h.localOffset < (A.insertedData name content).length := by
    intro h hh
    rcases List.mem_append.1 hh with hh | hh
    · have := A.local_lt h hh
      rw [length_insertedData]
      omega
    · rw [List.mem_singleton.1 hh]
      exact hlocal
  refine ⟨ofParts (A.insertedData name content) (A.headers ++ [X]) rest (by simpa using hcount)
    hdata (by rw [hdir']; exact hdir) hlocal', ⟨?_, rfl, rfl, hX⟩, rfl⟩
  rw [ofParts_bytes, hdir', List.length_append]
  rfl

namespace IsInserted

variable {B : Archive} {X : CdHeader}

/-- The entry of the last header. -/
def entry (_ : IsInserted A B name content X) : CdEntry :=
  X.entry (B.data.length + (dirBytes A.headers).length)

theorem length_data (h : IsInserted A B name content X) :
    B.data.length = A.data.length + (30 + (asBytes name).length + content.length) := by
  rw [h.data, length_insertedData]

theorem walk (h : IsInserted A B name content X) : B.walk =
    A.walk.map (CdEntry.shift (30 + (asBytes name).length + content.length)) ++ [h.entry] := by
  rw [Archive.walk, h.headers, placeEntries_append, h.length_data, placeEntries_add]
  simp only [placeEntries, entry, h.length_data]
  rfl

/-- The counted directory grows by the last header, which ends where the new header does at the
latest. -/
theorem length_directory_le (h : IsInserted A B name content X) : (dirBytes B.headers).length ≤
    (dirBytes A.headers).length + A.gap.length + (46 + (asBytes name).length) := by
  have hbehind := congrArg List.length h.behind
  rw [List.length_append, List.length_append, length_insertedHeader] at hbehind
  rw [h.headers, dirBytes_append, dirBytes_cons, dirBytes_nil, List.append_nil, List.length_append]
  omega

/-- The old file data is kept. -/
theorem getElem?_bytes (h : IsInserted A B name content X) {i : Nat} (hi : i < A.data.length) :
    B.bytes[i]? = A.bytes[i]? := by
  have hlen := h.length_data
  rw [Archive.bytes, List.getElem?_append_left (by omega), h.data, insertedData,
    List.getElem?_append_left hi, Archive.bytes, List.getElem?_append_left hi]

/-- The new record stands behind the old file data. -/
theorem slice_record (h : IsInserted A B name content X) :
    slice B.bytes A.data.length (30 + (asBytes name).length + content.length) =
      storedRecord name content := by
  rw [Archive.bytes, h.data, insertedData, List.append_assoc, ← length_storedRecord,
    slice_append_middle]

end IsInserted

/-! ## Insertion behind a directory that ends at the EOCD -/

section Tidy

variable {B : Archive} (hgap : A.gap = []) (hname : (asBytes name).length < 2 ^ 16)
  (hsize : content.length < 2 ^ 32 - 1)

/-- The header that insertion adds. -/
abbrev newHeader (A : Archive) {name : String} {content : List UInt8}
    (hname : (asBytes name).length < 2 ^ 16) (hsize : content.length < 2 ^ 32 - 1) : CdHeader :=
  storedHeader name content (UInt32.ofNat A.data.length) hname hsize

theorem newHeader_localOffset : (A.newHeader hname hsize).localOffset = A.data.length := by
  have h := congrArg CdEntry.localHeaderOffset
    (storedHeader_entry (UInt32.ofNat A.data.length) hname hsize 0)
  have hlt := A.data_length_lt
  rw [u32_toNat_ofNat (by omega)] at h
  exact h

include hgap

/-- The header the parser finds is the one that insertion added. -/
theorem IsInserted.eq_newHeader {X : CdHeader} (h : IsInserted A B name content X) :
    X = A.newHeader hname hsize ∧ B.gap = [] := by
  have hbehind := h.behind
  rw [hgap, List.nil_append, ← List.append_nil (A.insertedHeader name content)] at hbehind
  exact CdHeader.append_inj (k := A.newHeader hname hsize) hbehind

theorem exists_isInserted (hcount : A.headers.length + 1 < 65535)
    (hdata : (A.insertedData name content).length < 2 ^ 32 - 1)
    (hdir : (A.insertedDir name content).length < 2 ^ 32 - 1) :
    ∃ B, IsInserted A B name content (A.newHeader hname hsize) ∧ B.gap = [] := by
  have hX : (A.newHeader hname hsize).bytes ++ [] = A.gap ++ A.insertedHeader name content := by
    rw [hgap, List.append_nil, List.nil_append]
    rfl
  exact exists_inserted hX (by rw [newHeader_localOffset, length_insertedData]; omega) hcount hdata
    hdir

omit hgap

variable {hname hsize} (h : IsInserted A B name content (A.newHeader hname hsize))

include h

namespace IsInserted

/-- The entry of the new header. -/
theorem entry_eq : h.entry =
    { name := name
      flags := 0
      method := 0
      crc32 := crc32 content
      compressedSize := content.length
      uncompressedSize := content.length
      localHeaderOffset := A.data.length
      cdHeaderOffset := B.data.length + (dirBytes A.headers).length
      cdHeaderLen := 46 + (asBytes name).length } := by
  have hlt := A.data_length_lt
  rw [entry, storedHeader_entry, u32_toNat_ofNat (by omega)]

theorem entries : B.entries =
    A.entries.map (CdEntry.shift (30 + (asBytes name).length + content.length)) ++ [h.entry] := by
  -- The new entry is last: it starts where the old directory started.
  have hoff : h.entry.localHeaderOffset = A.data.length := by rw [h.entry_eq]
  rw [Archive.entries, h.walk, sortByKey_append_of_le, ← map_sortByKey]
  · rfl
  · intro e
    rfl
  · intro e he
    obtain ⟨d, hd, rfl⟩ := List.mem_map.1 he
    rw [hoff]
    have hlt := A.localHeaderOffset_lt ((mem_sortByKey _).2 hd)
    exact Nat.le_of_lt hlt

/-- The old rooms stay, the last one up to the new record. -/
theorem rooms : B.rooms =
    A.rooms.map (fun q => (q.1.shift (30 + (asBytes name).length + content.length), q.2)) ++
      [(h.entry, B.data.length)] := by
  have hoff : h.entry.localHeaderOffset = A.data.length := by rw [h.entry_eq]
  rw [Archive.rooms, h.entries, rooms_append_cons, hoff]
  exact congrArg (· ++ _) (rooms_map (CdEntry.shift_localHeaderOffset _) A.entries)

/-- The old entries keep their binding ranges. -/
theorem bindingRange_old {q : CdEntry × Nat} (hq : q ∈ A.rooms) (d : Nat) {r : Range} :
    bindingRange B.bytes (q.1.shift d) q.2 = .ok r ↔ bindingRange A.bytes q.1 q.2 = .ok r := by
  have hroom := A.room_le hq
  have hlen := h.length_data
  have hbytes := B.length_bytes
  rw [bindingRange_shift]
  exact bindingRange_congr (by omega) (A.room_le_bytes hq)
    fun i _ hi => h.getElem?_bytes (by omega)

/-- The new entry is bound by its record. -/
theorem bindingRange_new :
    bindingRange B.bytes h.entry B.data.length = .ok ⟨A.data.length, B.data.length⟩ := by
  have hlen := h.length_data
  have hbytes := B.length_bytes
  refine (bindingRange_eq_ok (by omega)).2 ⟨by rw [h.entry_eq], by simp only; omega,
    Nat.le_refl _, ?_⟩
  simp only
  rw [h.length_data, Nat.add_sub_cancel_left, h.slice_record]
  exact isMember_storedRecord _ hname hsize _

theorem contentRange_new : contentRange B.bytes h.entry B.data.length =
    .ok ⟨A.data.length + (30 + (asBytes name).length), B.data.length⟩ := by
  have hlen := h.length_data
  have hbytes := B.length_bytes
  have hc := contentRange_of_bindingRange (by omega) h.bindingRange_new
  simp only at hc
  rw [h.length_data, Nat.add_sub_cancel_left, h.slice_record, contentStart_storedRecord hname,
    h.entry_eq] at hc
  rw [h.length_data, h.entry_eq, hc, h.length_data, Nat.add_assoc, Nat.add_assoc, Nat.add_assoc]

theorem slice_content :
    slice B.bytes (A.data.length + (30 + (asBytes name).length)) content.length = content := by
  have hs : slice (slice B.bytes A.data.length (30 + (asBytes name).length + content.length))
      (30 + (asBytes name).length) content.length = _ := slice_slice (Nat.le_refl _)
  rw [← hs, h.slice_record, storedRecord, slice_append_of_le _ (by simp)]
  simp [slice_self]

/-- The lookup finds the new record where the name is new. -/
theorem locates (hnone : ∀ e ∈ A.entries, e.name ≠ name) :
    B.Locates name (h.entry, B.data.length)
      ⟨A.data.length + (30 + (asBytes name).length), B.data.length⟩ := by
  refine ⟨?_, by simp only [h.entry_eq], by simp only [h.entry_eq]; rfl, h.contentRange_new⟩
  have hname : h.entry.name = name := by rw [h.entry_eq]
  have hold := A.room?_eq_none.2 hnone
  rw [Archive.room?, h.rooms, List.find?_append, List.find?_map]
  rw [Archive.room?] at hold
  have hshift : (fun p : CdEntry × Nat => decide (p.1.name = name)) ∘
      (fun q : CdEntry × Nat => (q.1.shift (30 + (asBytes name).length + content.length), q.2)) =
      fun p => decide (p.1.name = name) := rfl
  rw [hshift, hold]
  simp [hname]

end IsInserted

end Tidy

end Archive

end C2paZip
