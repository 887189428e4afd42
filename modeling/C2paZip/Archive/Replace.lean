import C2paZip.Archive.Directory

/-!
# In-place edits of an archive

Two edits keep every length and therefore every position of an archive: other file data of the same
length (`Archive.replaceData`), and another CRC in one directory header (`Archive.replaceCrc`). The
parsed layout changes in that one CRC only (`Archive.replaceCrc_entries`).
-/

set_option autoImplicit false

namespace C2paZip

open Library

/-- The entry whose header stands at `pos`, with another CRC; any other entry unchanged. -/
def setEntryCrc (pos : Nat) (crc : UInt32) (e : CdEntry) : CdEntry :=
  { e with crc32 := if e.cdHeaderOffset = pos then crc else e.crc32 }

section SetEntryCrc

variable (pos : Nat) (crc : UInt32) (e : CdEntry)

@[simp] theorem setEntryCrc_flags : (setEntryCrc pos crc e).flags = e.flags := rfl
@[simp] theorem setEntryCrc_localHeaderOffset :
    (setEntryCrc pos crc e).localHeaderOffset = e.localHeaderOffset := rfl
@[simp] theorem setEntryCrc_cdHeaderOffset :
    (setEntryCrc pos crc e).cdHeaderOffset = e.cdHeaderOffset := rfl
@[simp] theorem setEntryCrc_cdHeaderLen : (setEntryCrc pos crc e).cdHeaderLen = e.cdHeaderLen := rfl

theorem setEntryCrc_of_ne {pos : Nat} {e : CdEntry} (h : e.cdHeaderOffset ≠ pos) :
    setEntryCrc pos crc e = e := by
  simp [setEntryCrc, h]

theorem setEntryCrc_self : setEntryCrc e.cdHeaderOffset crc e = { e with crc32 := crc } := by
  simp [setEntryCrc]

end SetEntryCrc

/-- The headers of a directory start inside it, in order. -/
theorem cdHeaderOffset_bounds {pos : Nat} {hs : List CdHeader} {e : CdEntry}
    (he : e ∈ placeEntries pos hs) :
    pos ≤ e.cdHeaderOffset ∧ e.cdHeaderOffset + 46 ≤ pos + (dirBytes hs).length := by
  obtain ⟨pre, h, post, rfl, rfl⟩ := mem_placeEntries he
  have hfix := h.fixed_le
  rw [dirBytes_append, dirBytes_cons, List.length_append, List.length_append]
  exact ⟨Nat.le_add_right _ _, by show pos + _ + 46 ≤ _; omega⟩

/-- An entry of a directory is determined by the position of its header. -/
theorem eq_of_cdHeaderOffset_eq {pos : Nat} {hs : List CdHeader} {e f : CdEntry}
    (he : e ∈ placeEntries pos hs) (hf : f ∈ placeEntries pos hs)
    (heq : e.cdHeaderOffset = f.cdHeaderOffset) : e = f := by
  induction hs generalizing pos with
  | nil => cases he
  | cons h hs ih =>
      have hfix := h.fixed_le
      rcases List.mem_cons.1 he with rfl | he' <;> rcases List.mem_cons.1 hf with rfl | hf'
      · rfl
      · have hb := (cdHeaderOffset_bounds hf').1
        have hpos : (h.entry pos).cdHeaderOffset = pos := rfl
        omega
      · have hb := (cdHeaderOffset_bounds he').1
        have hpos : (h.entry pos).cdHeaderOffset = pos := rfl
        omega
      · exact ih he' hf'

theorem placeEntries_map_setEntryCrc_of_not_mem {pos q : Nat} {hs : List CdHeader} (crc : UInt32)
    (hq : q < pos ∨ pos + (dirBytes hs).length ≤ q) :
    (placeEntries pos hs).map (setEntryCrc q crc) = placeEntries pos hs := by
  conv_rhs => rw [← List.map_id (placeEntries pos hs)]
  apply List.map_congr_left
  intro e he
  have hb := cdHeaderOffset_bounds he
  exact setEntryCrc_of_ne crc (by omega)

/-- Another CRC in the header behind `pre` is another CRC in its entry. -/
theorem placeEntries_setCrc (pos : Nat) (pre post : List CdHeader) (h : CdHeader) (crc : UInt32) :
    placeEntries pos (pre ++ h.setCrc crc :: post) =
      (placeEntries pos (pre ++ h :: post)).map
        (setEntryCrc (pos + (dirBytes pre).length) crc) := by
  have hfix := h.fixed_le
  rw [placeEntries_append, placeEntries_append, List.map_append,
    placeEntries_map_setEntryCrc_of_not_mem crc (Or.inr (Nat.le_refl _))]
  simp only [placeEntries, List.map_cons, CdHeader.setCrc_length]
  -- The entries in front and behind have their headers at other positions.
  rw [placeEntries_map_setEntryCrc_of_not_mem crc (Or.inl (by omega)), CdHeader.setCrc_entry]
  congr 2
  exact (setEntryCrc_self crc (h.entry (pos + (dirBytes pre).length))).symm

namespace Archive

/-- The archive with other file data of the same length. -/
def replaceData (A : Archive) (data : List UInt8) (hlen : data.length = A.data.length) : Archive :=
  { A with
    data := data
    offset_eq := by rw [hlen, A.offset_eq]
    local_lt := by rw [hlen]; exact A.local_lt }

section ReplaceData

variable (A : Archive) {data : List UInt8} (hlen : data.length = A.data.length)

@[simp] theorem replaceData_data : (A.replaceData data hlen).data = data := rfl

@[simp] theorem replaceData_headers : (A.replaceData data hlen).headers = A.headers := rfl

theorem replaceData_bytes :
    (A.replaceData data hlen).bytes = data ++ A.bytes.drop A.data.length := by
  rw [bytes, bytes, List.drop_left]
  rfl

theorem replaceData_layout : (A.replaceData data hlen).layout = A.layout := by
  simp only [layout, entries, walk, eocdOffset, replaceData_data, replaceData_headers, hlen]
  rfl

end ReplaceData

/-- The archive with another CRC in the header behind `pre`. -/
def replaceCrc (A : Archive) {pre post : List CdHeader} {h : CdHeader}
    (hs : A.headers = pre ++ h :: post) (crc : UInt32) : Archive :=
  { A with
    headers := pre ++ h.setCrc crc :: post
    total_eq := by rw [A.total_eq, hs]; simp
    local_lt := by
      intro k hk
      -- The offsets that the parser bounds are not touched.
      have hlocal : (h.setCrc crc).localOffset = h.localOffset :=
        congrArg CdEntry.localHeaderOffset (h.setCrc_entry crc 0)
      rcases List.mem_append.1 hk with hk | hk
      · exact A.local_lt k (by simp [hs, hk])
      · rcases List.mem_cons.1 hk with rfl | hk
        · rw [hlocal]
          exact A.local_lt h (by simp [hs])
        · exact A.local_lt k (by simp [hs, hk]) }

section ReplaceCrc

variable (A : Archive) {pre post : List CdHeader} {h : CdHeader}
  (hs : A.headers = pre ++ h :: post) (crc : UInt32)

@[simp] theorem replaceCrc_data : (A.replaceCrc hs crc).data = A.data := rfl

@[simp] theorem replaceCrc_headers :
    (A.replaceCrc hs crc).headers = pre ++ h.setCrc crc :: post := rfl

theorem length_dirBytes_setCrc :
    (dirBytes (pre ++ h.setCrc crc :: post)).length = (dirBytes (pre ++ h :: post)).length := by
  simp

theorem replaceCrc_bytes : (A.replaceCrc hs crc).bytes =
    overwrite A.bytes (A.data.length + (dirBytes pre).length + 16) (u32ToLe crc) := by
  have hfix := h.fixed_le
  have hsplit : A.bytes = A.data ++ (dirBytes pre ++ (h.bytes ++
      (dirBytes post ++ (A.gap ++ A.eocd)))) := by
    simp [bytes, hs]
  rw [hsplit, Nat.add_assoc, overwrite_append_right, overwrite_append_right,
    overwrite_append_left (by rw [length_u32ToLe]; omega), ← CdHeader.setCrc_bytes]
  simp only [bytes, replaceCrc_data, replaceCrc_headers, dirBytes_append, dirBytes_cons,
    List.append_assoc]
  rfl

theorem replaceCrc_walk : (A.replaceCrc hs crc).walk =
    A.walk.map (setEntryCrc (A.data.length + (dirBytes pre).length) crc) := by
  rw [walk, walk, replaceCrc_headers, replaceCrc_data, placeEntries_setCrc, hs]

theorem replaceCrc_entries : (A.replaceCrc hs crc).entries =
    A.entries.map (setEntryCrc (A.data.length + (dirBytes pre).length) crc) := by
  rw [entries, entries, replaceCrc_walk]
  exact (map_sortByKey _ _ fun e => setEntryCrc_localHeaderOffset _ crc e).symm

end ReplaceCrc

end Archive

end C2paZip
