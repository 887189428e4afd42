import C2paZip.Removal
import C2paZip.Uncounted

/-!
# Entries at the end of the file data

A record behind the file data moves the end of the last room, and no other. The content of an entry
in the longer file data is therefore its content in the old one, unless the entry points at the
record or runs across the old end into it (`Archive.exists_content_iff`), and so it is with the
binding ranges (`Archive.forall_binds_iff`). Only an entry that runs across the end reads bytes of
the file data and of the record together.
-/

set_option autoImplicit false

namespace C2paZip

open Library

/-! ## Inside, across and behind -/

/-- `X` points at the record of `m` behind the file data, and has its flags and size. -/
structure PointsAtRecord (L : ZipLayout) (m : List UInt8) (X : CdEntry) : Prop where
  offset : X.localHeaderOffset = L.cdStart
  flags : X.flags = 0
  size : X.compressedSize = m.length

/-- `X` has the content `m` in the file data of `z`. -/
def HoldsInside (z : List UInt8) (L : ZipLayout) (m : List UInt8) (X : CdEntry) : Prop :=
  ∃ stop r, (X, stop) ∈ L.roomsWith X L.cdStart ∧ contentRange z X stop = .ok r ∧
    slice z r.start (r.stop - r.start) = m

/-- `X` is the last entry in the file data of `z`, and its content runs from there into the record
of `m` and is `m`. -/
def HoldsAcross (z : List UInt8) (L : ZipLayout) (m : List UInt8) (X : CdEntry) : Prop :=
  X.localHeaderOffset < L.cdStart ∧ (X, L.cdStart) ∈ L.roomsWith X L.cdStart ∧
    ∃ r, L.cdStart < r.stop ∧
      contentRange (recordedData z L m) X (L.cdStart + (62 + m.length)) = .ok r ∧
      slice (recordedData z L m) r.start (r.stop - r.start) = m

/-- The content of `X` is `m`: that of the record of `m` behind the file data of `z`, or one in the
file data, or one across its end. -/
def HoldsContent (z : List UInt8) (L : ZipLayout) (m : List UInt8) (X : CdEntry) : Prop :=
  PointsAtRecord L m X ∨ HoldsInside z L m X ∨ HoldsAcross z L m X

/-- The entry of the room `q` binds in the file data of `z`, or it is the last one there and binds
across its end in the record of `m`. -/
def BindsInOrAcross (z : List UInt8) (L : ZipLayout) (m : List UInt8) (q : CdEntry × Nat) : Prop :=
  (∃ r, bindingRange z q.1 q.2 = .ok r) ∨ q.2 = L.cdStart ∧ ∃ r, L.cdStart < r.stop ∧
    bindingRange (recordedData z L m) q.1 (L.cdStart + (62 + m.length)) = .ok r

/-- The entries of `z` and `X` bind where the record of `m` stands behind the file data of `z`: `X`
has the CRC and size of the record, or all of them start in the file data. -/
def BindsWith (z : List UInt8) (L : ZipLayout) (m : List UInt8) (X : CdEntry) : Prop :=
  (PointsAtRecord L m X ∧ X.crc32 = crc32 m ∧ X.uncompressedSize = m.length ∧
    ∀ i < L.entries.length, ∃ r, entryBindingRange z L i = .ok r) ∨
  (X.localHeaderOffset < L.cdStart ∧ ∀ q ∈ L.roomsWith X L.cdStart, BindsInOrAcross z L m q)

/-- A room ends at another entry, or where the file data does. -/
theorem ZipLayout.roomsWith_cases {L : ZipLayout} {X : CdEntry} {q : CdEntry × Nat} {stop : Nat}
    (hq : q ∈ L.roomsWith X stop) (stop' : Nat) :
    (q ∈ L.roomsWith X stop' ∧
        ((∃ e ∈ L.entries, q.2 = e.localHeaderOffset) ∨ q.2 = X.localHeaderOffset)) ∨
      (q.1, stop') ∈ L.roomsWith X stop' ∧ q.2 = stop := by
  refine (mem_rooms_of_end hq stop').imp_left ?_
  rintro ⟨hmem, e, he, hend⟩
  refine ⟨hmem, ?_⟩
  rcases List.mem_append.1 ((mem_sortByKey _).1 he) with hold | hnew
  · exact Or.inl ⟨e, hold, hend⟩
  · obtain rfl := List.mem_singleton.1 hnew
    exact Or.inr hend

section Ranges

variable {z : List UInt8} {e : CdEntry} {b b' : Nat} {r : Range}

/-- A content fits every room behind its end. -/
theorem contentRange_of_stop_le (h : contentRange z e b = .ok r) (hr : r.stop ≤ b') :
    contentRange z e b' = .ok r := by
  obtain ⟨hsig, hflags, hstart, hstop, -, hlen⟩ := contentRange_eq_ok.1 h
  exact contentRange_eq_ok.2 ⟨hsig, hflags, hstart, hstop, hr, hlen⟩

/-- So does a member. -/
theorem bindingRange_of_stop_le (hb : b ≤ z.length) (hb' : b' ≤ z.length)
    (h : bindingRange z e b = .ok r) (hr : r.stop ≤ b') : bindingRange z e b' = .ok r := by
  obtain ⟨hstart, hle, -, hmember⟩ := (bindingRange_eq_ok hb).1 h
  exact (bindingRange_eq_ok hb').2 ⟨hstart, hle, hr, hmember⟩

/-- A content lies behind the offset of its entry. -/
theorem contentRange_bounds (h : contentRange z e b = .ok r) :
    e.localHeaderOffset + 30 ≤ r.start ∧ r.start ≤ r.stop ∧ r.stop ≤ b ∧ r.stop ≤ z.length := by
  obtain ⟨-, -, hstart, hstop, hb, hlen⟩ := contentRange_eq_ok.1 h
  simp only [localHeaderFixedLen] at hstart
  omega

end Ranges

namespace Archive

variable {A : Archive} {m : List UInt8} {X : CdEntry}

/-! ## The longer file data -/

theorem length_recordedData (A : Archive) (m : List UInt8) :
    (recordedData A.bytes A.layout m).length = A.data.length + (62 + m.length) := by
  rw [A.recordedData_bytes, length_insertedData, length_manifestPath]

theorem getElem?_recordedData {i : Nat} (hi : i < A.data.length) :
    (recordedData A.bytes A.layout m)[i]? = A.bytes[i]? := by
  rw [A.recordedData_bytes, insertedData, bytes, List.getElem?_append_left hi,
    List.getElem?_append_left hi]

theorem slice_recordedData {pos n : Nat} (h : pos + n ≤ A.data.length) :
    slice (recordedData A.bytes A.layout m) pos n = slice A.bytes pos n :=
  slice_congr fun _ _ hi => getElem?_recordedData (by omega)

theorem contentRange_recordedData {e : CdEntry} {b : Nat} {r : Range} (hb : b ≤ A.data.length) :
    contentRange (recordedData A.bytes A.layout m) e b = .ok r ↔
      contentRange A.bytes e b = .ok r := by
  have hlen := A.length_recordedData m
  have hbytes := A.length_bytes
  exact contentRange_congr (by omega) (by omega) fun _ _ hi => getElem?_recordedData (by omega)

theorem bindingRange_recordedData {e : CdEntry} {b : Nat} {r : Range} (hb : b ≤ A.data.length) :
    bindingRange (recordedData A.bytes A.layout m) e b = .ok r ↔
      bindingRange A.bytes e b = .ok r := by
  have hlen := A.length_recordedData m
  have hbytes := A.length_bytes
  exact bindingRange_congr (by omega) (by omega) fun _ _ hi => getElem?_recordedData (by omega)

/-- A room that ends at another entry ends in front of the record, unless `X` starts behind it. -/
theorem end_lt {b : Nat}
    (hb : (∃ e ∈ A.layout.entries, b = e.localHeaderOffset) ∨ b = X.localHeaderOffset)
    (hX : X.localHeaderOffset < A.data.length ∨ X.localHeaderOffset < b) : b < A.data.length := by
  rcases hb with ⟨e, he, rfl⟩ | rfl
  · exact A.localHeaderOffset_lt he
  · exact hX.resolve_right (Nat.lt_irrefl _)

theorem localHeaderOffset_lt_of_holdsInside (h : HoldsInside A.bytes A.layout m X) :
    X.localHeaderOffset < A.data.length := by
  obtain ⟨stop, r, hroom, hr, -⟩ := h
  obtain ⟨hlow, hle, hstop, -⟩ := contentRange_bounds hr
  rcases ZipLayout.roomsWith_cases hroom A.data.length with ⟨-, hend⟩ | ⟨-, hend⟩
  · have hlt : stop < A.data.length := end_lt hend (Or.inr (by omega))
    omega
  · have hlast : stop = A.data.length := hend
    omega

/-! ## The record -/

theorem slice_record (A : Archive) (m : List UInt8) :
    slice (recordedData A.bytes A.layout m) A.data.length (62 + m.length) =
      storedRecord zipManifestPath m := by
  rw [A.recordedData_bytes, insertedData, slice_append_length]
  have hself := slice_self (storedRecord zipManifestPath m)
  rwa [length_storedRecord, length_manifestPath] at hself

theorem slice_record_content (A : Archive) (m : List UInt8) :
    slice (recordedData A.bytes A.layout m) (A.data.length + 62) m.length = m := by
  have hpath : (writeLocalHeader [] (asBytes zipManifestPath) (crc32 m) (UInt32.ofNat m.length)
      (UInt16.ofNat (asBytes zipManifestPath).length)).length = 62 := by
    rw [length_writeLocalHeader, length_manifestPath]
  rw [← slice_slice (Nat.le_refl (62 + m.length)), slice_record, storedRecord, ← hpath,
    slice_append_length, slice_self]

/-- The content that an entry finds where the record starts. -/
theorem contentRange_record (hX : X.localHeaderOffset = A.data.length) {r : Range} :
    contentRange (recordedData A.bytes A.layout m) X (A.data.length + (62 + m.length)) = .ok r ↔
      X.flags = 0 ∧ r.start = A.data.length + 62 ∧ r.stop = r.start + X.compressedSize ∧
        r.stop ≤ A.data.length + (62 + m.length) := by
  have hlen := A.length_recordedData m
  have hstart : contentStart (storedRecord zipManifestPath m) = _ :=
    contentStart_storedRecord manifestPath_lt
  rw [length_manifestPath] at hstart
  have key : r.stop ≤ A.data.length + (62 + m.length) →
      (contentRange (recordedData A.bytes A.layout m) X (A.data.length + (62 + m.length)) = .ok r ↔
        X.flags = 0 ∧ r.start = A.data.length + 62 ∧ r.stop = r.start + X.compressedSize) := by
    intro hr
    rw [contentRange_eq_ok_iff_slice (n := 62 + m.length) (by omega) (by omega) (by omega), hX,
      slice_record, hstart, u32At_storedRecord _ _ (by omega), u16At_storedRecord _ _ (by omega),
      writeLocalHeader_sig, writeLocalHeader_flags]
    constructor
    · rintro ⟨-, hflags, hs, ht, -⟩
      exact ⟨hflags.symm, hs, ht⟩
    · rintro ⟨hflags, hs, ht⟩
      exact ⟨rfl, hflags.symm, hs, ht, hr⟩
  constructor
  · intro hr
    have hstop := (contentRange_bounds hr).2.2.1
    obtain ⟨hflags, hs, ht⟩ := (key hstop).1 hr
    exact ⟨hflags, hs, ht, hstop⟩
  · rintro ⟨hflags, hs, ht, hstop⟩
    exact (key hstop).2 ⟨hflags, hs, ht⟩

theorem contentRange_of_pointsAtRecord (hX : PointsAtRecord A.layout m X) :
    contentRange (recordedData A.bytes A.layout m) X (A.data.length + (62 + m.length)) =
      .ok ⟨A.data.length + 62, A.data.length + (62 + m.length)⟩ :=
  (contentRange_record hX.offset).2
    ⟨hX.flags, rfl, by rw [hX.size, Nat.add_assoc], Nat.le_refl _⟩

/-- **Behind the start of the record no header leads to `m`**: its extra length would end in the
name, whose bytes are too large for it. -/
theorem localHeaderOffset_le_of_content {r : Range}
    (hr : contentRange (recordedData A.bytes A.layout m) X (A.data.length + (62 + m.length)) =
      .ok r)
    (hm : r.stop - r.start = m.length) : X.localHeaderOffset ≤ A.data.length := by
  obtain ⟨-, -, hstart, -, -, -⟩ := contentRange_eq_ok.1 hr
  obtain ⟨hlow, hle, hstop, -⟩ := contentRange_bounds hr
  simp only [localHeaderFixedLen] at hstart
  by_contra hgt
  obtain ⟨k, hk⟩ := Nat.exists_eq_add_of_le (show A.data.length + 1 ≤ X.localHeaderOffset by omega)
  have hlt : k < (asBytes zipManifestPath).length := by
    rw [length_manifestPath]
    omega
  -- The last byte of the header's fixed part is the byte `k` of the name.
  have hbyte : (recordedData A.bytes A.layout m)[X.localHeaderOffset + 28 + 1]? =
      some (asBytes zipManifestPath)[k] := by
    have hname := slice_storedRecord_name zipManifestPath m
    rw [length_manifestPath, ← A.slice_record, slice_slice (by omega)] at hname
    rw [← List.getElem?_eq_getElem hlt, ← hname, getElem?_slice (by omega)]
    congr 1
    omega
  have hextra := le_u16At hbyte
  have hne : (asBytes zipManifestPath)[k].toNat ≠ 0 := fun h =>
    (manifestPath_ne (List.getElem_mem hlt)).2 (UInt8.toNat_inj.1 h)
  omega

/-- The room of an entry that points at the record is the last one. -/
theorem roomsWith_record (hX : X.localHeaderOffset = A.data.length) (stop : Nat) :
    A.layout.roomsWith X stop = A.rooms ++ [(X, stop)] := by
  have hle : ∀ e ∈ A.layout.entries, e.localHeaderOffset ≤ X.localHeaderOffset := by
    intro e he
    rw [hX]
    exact Nat.le_of_lt (A.localHeaderOffset_lt he)
  -- The entries are sorted already.
  have hsorted : sortByKey CdEntry.localHeaderOffset A.layout.entries = A.entries :=
    sortByKey_of_pairwise _ (pairwise_sortByKey _ _)
  rw [ZipLayout.roomsWith, sortByKey_append_of_le hle, rooms_append_cons, hX, hsorted]
  rfl

/-- The record binds under its CRC and size. -/
theorem exists_bindingRange_record (hX : PointsAtRecord A.layout m X) (hm : m.length < 2 ^ 32) :
    (∃ r, bindingRange (recordedData A.bytes A.layout m) X (A.data.length + (62 + m.length)) =
        .ok r) ↔ X.crc32 = crc32 m ∧ X.uncompressedSize = m.length := by
  have hlen := A.length_recordedData m
  have hoff := hX.offset
  rw [layout_cdStart] at hoff
  have hbit : ¬ X.flags &&& 0x0008 ≠ 0 := by
    rw [hX.flags]
    decide
  have field : ∀ i, u32At (recordedData A.bytes A.layout m) (A.data.length + i) =
      u32At (storedRecord zipManifestPath m) i := by
    intro i
    rw [A.recordedData_bytes, insertedData, u32At_append_right]
  have hsize : (UInt32.ofNat m.length).toNat = m.length := u32_toNat_ofNat hm
  -- Without a descriptor, the sizes compared are those of the local header.
  have hsizes : SizesAt X (recordedData A.bytes A.layout m) (X.localHeaderOffset + 14) ↔
      X.crc32 = crc32 m ∧ X.uncompressedSize = m.length := by
    rw [SizesAt, hoff, Nat.add_assoc, Nat.add_assoc, field, field, field, storedRecord_crc,
      u32At_storedRecord _ _ (by omega), u32At_storedRecord _ _ (by omega),
      writeLocalHeader_compressedSize, writeLocalHeader_uncompressedSize, hsize, hX.size]
    constructor
    · rintro ⟨hcrc, -, hlength⟩
      exact ⟨hcrc.symm, hlength.symm⟩
    · rintro ⟨hcrc, hlength⟩
      exact ⟨hcrc.symm, rfl, hlength.symm⟩
  have hend : ∀ {stop t : Nat}, bindingEnd (recordedData A.bytes A.layout m) X
      (A.data.length + (62 + m.length)) stop = .ok t ↔ t = stop ∧
        X.crc32 = crc32 m ∧ X.uncompressedSize = m.length := by
    intro stop t
    rw [bindingEnd_eq_ok (by omega) (by omega), if_neg hbit, hsizes]
  simp only [bindingRange, bind_eq_ok, pure_eq_ok, hend]
  constructor
  · rintro ⟨-, -, -, -, ⟨-, h⟩, -⟩
    exact h
  · intro h
    exact ⟨_, _, contentRange_of_pointsAtRecord hX, _, ⟨rfl, h⟩, rfl⟩

/-! ## Contents -/

/-- **Where a content of the longer file data is `m`.** -/
theorem exists_content_iff : (∃ stop r,
      (X, stop) ∈ A.layout.roomsWith X (A.data.length + (62 + m.length)) ∧
      contentRange (recordedData A.bytes A.layout m) X stop = .ok r ∧
      slice (recordedData A.bytes A.layout m) r.start (r.stop - r.start) = m) ↔
    HoldsContent A.bytes A.layout m X := by
  have hlen := A.length_recordedData m
  rw [HoldsContent]
  constructor
  · rintro ⟨stop, r, hroom, hr, hm⟩
    obtain ⟨hlow, hle, hstop, hfit⟩ := contentRange_bounds hr
    rcases ZipLayout.roomsWith_cases hroom A.data.length with ⟨hin, hend⟩ | ⟨hin, rfl⟩
    · have hlt : stop < A.data.length := end_lt hend (Or.inr (by omega))
      refine Or.inr (Or.inl ⟨stop, r, hin, (contentRange_recordedData (Nat.le_of_lt hlt)).1 hr, ?_⟩)
      rw [← hm, slice_recordedData (by omega)]
    · by_cases hc : r.stop ≤ A.data.length
      · refine Or.inr (Or.inl ⟨A.data.length, r, hin,
          (contentRange_recordedData (Nat.le_refl _)).1 (contentRange_of_stop_le hr hc), ?_⟩)
        rw [← hm, slice_recordedData (by omega)]
      · have hsize := congrArg List.length hm
        rw [length_slice (by omega)] at hsize
        rcases Nat.lt_or_eq_of_le (localHeaderOffset_le_of_content hr hsize) with hX | hX
        · exact Or.inr (Or.inr ⟨hX, hin, r, Nat.lt_of_not_le hc, hr, hm⟩)
        · obtain ⟨hflags, -, hend, -⟩ := (contentRange_record hX).1 hr
          exact Or.inl ⟨hX, hflags, by omega⟩
  · rintro (hX | ⟨stop, r, hroom, hr, hm⟩ | ⟨hX, hroom, r, -, hr, hm⟩)
    · refine ⟨_, _, ?_, contentRange_of_pointsAtRecord hX, ?_⟩
      · rw [roomsWith_record hX.offset]
        exact List.mem_append_right _ List.mem_cons_self
      · rw [Nat.add_sub_add_left, Nat.add_sub_cancel_left, slice_record_content]
    · obtain ⟨hlow, hle, hstop, -⟩ := contentRange_bounds hr
      rcases ZipLayout.roomsWith_cases hroom (A.data.length + (62 + m.length)) with
        ⟨hin, hend⟩ | ⟨hin, rfl⟩
      · have hlt : stop < A.data.length := end_lt hend (Or.inr (by omega))
        refine ⟨stop, r, hin, (contentRange_recordedData (Nat.le_of_lt hlt)).2 hr, ?_⟩
        rw [slice_recordedData (by omega), hm]
      · rw [layout_cdStart] at hstop
        have hr' := (contentRange_recordedData (m := m) (Nat.le_refl _)).2 hr
        refine ⟨_, r, hin, contentRange_of_stop_le hr' (by omega), ?_⟩
        rw [slice_recordedData (by omega), hm]
    · rcases ZipLayout.roomsWith_cases hroom (A.data.length + (62 + m.length)) with
        ⟨-, hend⟩ | ⟨hin, -⟩
      · exact absurd (end_lt hend (Or.inl hX)) (Nat.lt_irrefl _)
      · exact ⟨_, r, hin, hr, hm⟩

/-! ## Binding ranges -/

/-- Where an entry points at the record, the others bind as without it. -/
theorem forall_binds_iff_of_record (hX : PointsAtRecord A.layout m X) (hm : m.length < 2 ^ 32) :
    (∀ q ∈ A.layout.roomsWith X (A.data.length + (62 + m.length)),
      ∃ r, bindingRange (recordedData A.bytes A.layout m) q.1 q.2 = .ok r) ↔
    X.crc32 = crc32 m ∧ X.uncompressedSize = m.length ∧
      ∀ i < A.layout.entries.length, ∃ r, entryBindingRange A.bytes A.layout i = .ok r := by
  have hold : ∀ q ∈ A.rooms, (∃ r, bindingRange (recordedData A.bytes A.layout m) q.1 q.2 = .ok r) ↔
      ∃ r, bindingRange A.bytes q.1 q.2 = .ok r := by
    intro q hq
    simp only [bindingRange_recordedData (A.room_le hq)]
  rw [roomsWith_record hX.offset, ← and_assoc, ← exists_bindingRange_record hX hm,
    ← A.exists_carries_iff, A.exists_carries_iff_rooms]
  constructor
  · intro h
    exact ⟨h _ (List.mem_append_right _ List.mem_cons_self),
      fun q hq => (hold q hq).1 (h q (List.mem_append_left _ hq))⟩
  · rintro ⟨hnew, h⟩ q hq
    rcases List.mem_append.1 hq with hq | hq
    · exact (hold q hq).2 (h q hq)
    · obtain rfl := List.mem_singleton.1 hq
      exact hnew

/-- **Where the entries of the longer file data bind**, if all start in front of the record. -/
theorem forall_binds_iff_of_lt (hX : X.localHeaderOffset < A.data.length) :
    (∀ q ∈ A.layout.roomsWith X (A.data.length + (62 + m.length)),
      ∃ r, bindingRange (recordedData A.bytes A.layout m) q.1 q.2 = .ok r) ↔
    ∀ q ∈ A.layout.roomsWith X A.layout.cdStart, BindsInOrAcross A.bytes A.layout m q := by
  have hlen := A.length_recordedData m
  constructor
  · intro h q hq
    rcases ZipLayout.roomsWith_cases hq (A.data.length + (62 + m.length)) with
      ⟨hin, hend⟩ | ⟨hin, hlast⟩
    · obtain ⟨r, hr⟩ := h q hin
      exact Or.inl ⟨r, (bindingRange_recordedData (Nat.le_of_lt (end_lt hend (Or.inl hX)))).1 hr⟩
    · obtain ⟨r, hr⟩ := h _ hin
      rcases Nat.lt_or_ge A.data.length r.stop with hc | hc
      · exact Or.inr ⟨hlast, r, hc, hr⟩
      · have hr' := bindingRange_of_stop_le (by omega) (by omega) hr hc
        refine Or.inl ⟨r, ?_⟩
        rw [hlast]
        exact (bindingRange_recordedData (Nat.le_refl _)).1 hr'
  · intro h q hq
    rcases ZipLayout.roomsWith_cases hq A.layout.cdStart with ⟨hin, hend⟩ | ⟨hin, hlast⟩
    · have hlt := end_lt hend (Or.inl hX)
      rcases h q hin with ⟨r, hr⟩ | ⟨hc, -⟩
      · exact ⟨r, (bindingRange_recordedData (Nat.le_of_lt hlt)).2 hr⟩
      · exact absurd hc (Nat.ne_of_lt hlt)
    · rw [hlast]
      rcases h _ hin with ⟨r, hr⟩ | ⟨-, r, -, hr⟩
      · have hr' := (bindingRange_recordedData (m := m) (Nat.le_refl _)).2 hr
        obtain ⟨-, -, hstop, -⟩ := (bindingRange_eq_ok (by omega)).1 hr'
        exact ⟨r, bindingRange_of_stop_le (by omega) (by omega) hr' (by omega)⟩
      · exact ⟨r, hr⟩

/-- **Where all entries of the longer file data bind**, if the content of `X` there is `m`. -/
theorem forall_binds_iff (hX : HoldsContent A.bytes A.layout m X) (hm : m.length < 2 ^ 32) :
    (∀ q ∈ A.layout.roomsWith X (A.data.length + (62 + m.length)),
      ∃ r, bindingRange (recordedData A.bytes A.layout m) q.1 q.2 = .ok r) ↔
    BindsWith A.bytes A.layout m X := by
  have hlt : ¬ PointsAtRecord A.layout m X → X.localHeaderOffset < A.layout.cdStart := by
    intro hno
    rcases Or.resolve_left hX hno with hin | hacross
    · exact localHeaderOffset_lt_of_holdsInside hin
    · exact hacross.1
  by_cases hpoint : PointsAtRecord A.layout m X
  · rw [forall_binds_iff_of_record hpoint hm, BindsWith, and_iff_right hpoint, or_iff_left]
    rintro ⟨hlow, -⟩
    exact absurd hpoint.offset (Nat.ne_of_lt hlow)
  · rw [forall_binds_iff_of_lt (hlt hpoint), BindsWith, and_iff_right (hlt hpoint),
      or_iff_right (fun h => hpoint h.1)]

end Archive

end C2paZip
