import C2paZip.Archive.Eocd
import C2paZip.Archive.Header
import C2paZip.Zip.Edit

/-!
# Archives as values

`Archive` is an input that `parseLayout` accepts, cut into its parts: file data, counted directory
headers, the bytes between the last counted header and the EOCD, and the EOCD record with its
comment. The fields carry everything the parser checks, so that an archive value is accepted by
construction (`Archive.parseLayout_bytes`), and every accepted input is one
(`exists_archive_of_parseLayout`). An edit of an accepted input is then an edit of an `Archive`,
and what the parser sees of the result is the layout of the edited value.
-/

set_option autoImplicit false

namespace C2paZip

open Library

/-! ## The directory walk -/

/-- The bytes of consecutive headers. -/
def dirBytes (hs : List CdHeader) : List UInt8 := hs.flatMap CdHeader.bytes

@[simp] theorem dirBytes_nil : dirBytes [] = [] := rfl

@[simp] theorem dirBytes_cons (h : CdHeader) (hs : List CdHeader) :
    dirBytes (h :: hs) = h.bytes ++ dirBytes hs := rfl

@[simp] theorem dirBytes_append (hs ks : List CdHeader) :
    dirBytes (hs ++ ks) = dirBytes hs ++ dirBytes ks :=
  List.flatMap_append

/-- Headers are read back from their bytes in one way only. -/
theorem dirBytes_append_inj {hs ks : List CdHeader} {xs ys : List UInt8}
    (hlen : hs.length = ks.length) (heq : dirBytes hs ++ xs = dirBytes ks ++ ys) :
    hs = ks ∧ xs = ys := by
  induction hs generalizing ks with
  | nil =>
      rw [List.length_nil] at hlen
      rw [List.length_eq_zero_iff.1 hlen.symm] at heq ⊢
      exact ⟨rfl, heq⟩
  | cons h hs ih =>
      cases ks with
      | nil => cases hlen
      | cons k ks =>
          simp only [dirBytes_cons, List.append_assoc] at heq
          obtain ⟨rfl, hrest⟩ := CdHeader.append_inj heq
          obtain ⟨rfl, hxy⟩ := ih (by simpa using hlen) hrest
          exact ⟨rfl, hxy⟩

/-- The entries of consecutive headers, the first at position `pos`. -/
def placeEntries : Nat → List CdHeader → List CdEntry
  | _, [] => []
  | pos, h :: hs => h.entry pos :: placeEntries (pos + h.bytes.length) hs

theorem length_placeEntries (pos : Nat) (hs : List CdHeader) :
    (placeEntries pos hs).length = hs.length := by
  induction hs generalizing pos with
  | nil => rfl
  | cons h hs ih => rw [placeEntries, List.length_cons, ih, List.length_cons]

theorem placeEntries_append (pos : Nat) (hs ks : List CdHeader) :
    placeEntries pos (hs ++ ks) =
      placeEntries pos hs ++ placeEntries (pos + (dirBytes hs).length) ks := by
  induction hs generalizing pos with
  | nil => simp [placeEntries]
  | cons h hs ih => simp [placeEntries, ih, Nat.add_assoc]

/-- Every entry comes from a header of the directory. -/
theorem mem_placeEntries {pos : Nat} {hs : List CdHeader} {e : CdEntry}
    (he : e ∈ placeEntries pos hs) :
    ∃ pre h post, hs = pre ++ h :: post ∧ e = h.entry (pos + (dirBytes pre).length) := by
  induction hs generalizing pos with
  | nil => cases he
  | cons h hs ih =>
      rcases List.mem_cons.1 he with rfl | he
      · exact ⟨[], h, hs, rfl, rfl⟩
      · obtain ⟨pre, k, post, rfl, rfl⟩ := ih he
        exact ⟨h :: pre, k, post, rfl, by simp [Nat.add_assoc]⟩

/-- **The walk over `n` headers reads exactly `n` header values** that stand one behind the other
from the cursor on, end at or before the EOCD and point before the directory. -/
theorem walkHeaders_eq_ok {bytes : List UInt8} {eocd cdStart : Nat} (heocd : eocd ≤ bytes.length)
    (hcd : cdStart < 2 ^ 32) {n cursor : Nat} {es : List CdEntry} (hcur : cursor ≤ eocd) :
    walkHeaders bytes eocd cdStart n cursor = .ok es ↔
      ∃ hs : List CdHeader, hs.length = n ∧ cursor + (dirBytes hs).length ≤ eocd ∧
        slice bytes cursor (dirBytes hs).length = dirBytes hs ∧
        (∀ h ∈ hs, h.localOffset < cdStart) ∧ es = placeEntries cursor hs := by
  induction n generalizing cursor es with
  | zero =>
      rw [walkHeaders, Except.ok.injEq]
      constructor
      · rintro rfl
        exact ⟨[], rfl, by simpa using hcur, by simp, by simp, rfl⟩
      · rintro ⟨hs, hlen, -, -, -, rfl⟩
        rw [List.length_eq_zero_iff.1 hlen]
        rfl
  | succ n ih =>
      simp only [walkHeaders, bind_eq_ok, Prod.exists, pure_eq_ok]
      constructor
      · rintro ⟨e, next, hread, rest, hwalk, rfl⟩
        -- One header, and the rest from the position behind it.
        obtain ⟨h, rfl, hnext, hbytes, hlo, rfl⟩ := (readCdHeader_eq_ok heocd hcd).1 hread
        obtain ⟨hs, hlen, hend, hslice, hlos, rfl⟩ := (ih hnext).1 hwalk
        refine ⟨h :: hs, by rw [List.length_cons, hlen], ?_, ?_, ?_, rfl⟩
        · rw [dirBytes_cons, List.length_append]
          omega
        · rw [dirBytes_cons, List.length_append, slice_add, hbytes, hslice]
        · intro k hk
          rcases List.mem_cons.1 hk with rfl | hk
          · exact hlo
          · exact hlos k hk
      · rintro ⟨hs, hlen, hend, hslice, hlos, rfl⟩
        cases hs with
        | nil => cases hlen
        | cons h hs =>
            rw [dirBytes_cons, List.length_append] at hend
            rw [dirBytes_cons, List.length_append, slice_add] at hslice
            -- The first header stands at the cursor, the others behind it.
            obtain ⟨hh, hrest⟩ := List.append_inj hslice (length_slice (by omega))
            have hread := (readCdHeader_eq_ok heocd hcd).2 ⟨h, rfl, by omega, hh,
              hlos h List.mem_cons_self, rfl⟩
            exact ⟨_, _, hread, _, (ih (by omega)).2 ⟨hs, by simpa using hlen, by omega, hrest,
              fun k hk => hlos k (List.mem_cons_of_mem h hk), rfl⟩, rfl⟩

/-! ## Archives -/

/-- An input that the parser accepts, in parts. -/
structure Archive where
  /-- Everything before the central directory. -/
  data : List UInt8
  /-- The counted headers, in directory order. -/
  headers : List CdHeader
  /-- The bytes between the last counted header and the EOCD. -/
  gap : List UInt8
  /-- The EOCD record with its comment. -/
  eocd : List UInt8
  eocd_at : IsEocdAt eocd 0
  eocd_last : ∀ q, 0 < q → ¬ IsEocdAt eocd q
  total_eq : (u16At eocd 10).toNat = headers.length
  total_ne : u16At eocd 10 ≠ zip64SentinelU16
  size_ne : u32At eocd 12 ≠ zip64SentinelU32
  offset_eq : (u32At eocd 16).toNat = data.length
  offset_ne : u32At eocd 16 ≠ zip64SentinelU32
  local_lt : ∀ h ∈ headers, h.localOffset < data.length

namespace Archive

variable (A : Archive)

/-- The input itself. -/
def bytes : List UInt8 := A.data ++ (dirBytes A.headers ++ (A.gap ++ A.eocd))

/-- The entries in directory order. -/
def walk : List CdEntry := placeEntries A.data.length A.headers

/-- The entries in local-offset order. -/
def entries : List CdEntry := sortByKey CdEntry.localHeaderOffset A.walk

/-- Where the EOCD record stands. -/
def eocdOffset : Nat := A.data.length + (dirBytes A.headers).length + A.gap.length

/-- What the parser returns. -/
def layout : ZipLayout := ⟨A.entries, A.data.length, A.eocdOffset⟩

@[simp] theorem layout_entries : A.layout.entries = A.entries := rfl
@[simp] theorem layout_cdStart : A.layout.cdStart = A.data.length := rfl
@[simp] theorem layout_eocdOffset : A.layout.eocdOffset = A.eocdOffset := rfl

theorem length_bytes : A.bytes.length = A.data.length + (dirBytes A.headers).length +
    A.gap.length + A.eocd.length := by
  simp only [bytes, List.length_append]
  omega

theorem eocdOffset_add_length : A.eocdOffset + A.eocd.length = A.bytes.length := by
  rw [length_bytes, eocdOffset]

theorem eocd_length_ge : 22 ≤ A.eocd.length := by
  have h := A.eocd_at.1
  simpa [eocdMinLen] using h

theorem data_length_le_eocdOffset : A.data.length ≤ A.eocdOffset := by
  rw [eocdOffset]
  omega

/-- The fixed part of the EOCD record lies behind the directory. -/
theorem eocdOffset_add_le : A.eocdOffset + 22 ≤ A.bytes.length := by
  have hsum := A.eocdOffset_add_length
  have hge := A.eocd_length_ge
  omega

theorem length_entries : A.entries.length = A.headers.length := by
  rw [entries, length_sortByKey, walk, length_placeEntries]

/-- The header lengths of the entries add up to the counted directory. -/
theorem sum_cdHeaderLen :
    (A.entries.map CdEntry.cdHeaderLen).sum = (dirBytes A.headers).length := by
  have hwalk : ∀ pos hs, ((placeEntries pos hs).map CdEntry.cdHeaderLen).sum =
      (dirBytes hs).length := by
    intro pos hs
    induction hs generalizing pos with
    | nil => rfl
    | cons h hs ih =>
        rw [placeEntries, List.map_cons, List.sum_cons, ih, dirBytes_cons, List.length_append]
        rfl
  rw [← hwalk A.data.length]
  exact ((perm_sortByKey _ A.walk).map _).sum_nat

theorem headers_length_lt : A.headers.length < 65535 := by
  have hlt := (u16At A.eocd 10).toNat_lt
  -- The largest count is the ZIP64 sentinel, which the parser rejects.
  have hne : (u16At A.eocd 10).toNat ≠ 65535 := by
    intro h
    exact A.total_ne (UInt16.toNat_inj.1 h)
  have heq := A.total_eq
  omega

theorem data_length_lt : A.data.length < 2 ^ 32 - 1 := by
  have hlt := (u32At A.eocd 16).toNat_lt
  have hne : (u32At A.eocd 16).toNat ≠ 2 ^ 32 - 1 := by
    intro h
    exact A.offset_ne (UInt32.toNat_inj.1 h)
  have heq := A.offset_eq
  omega

/-- The header behind an entry. -/
theorem exists_header {e : CdEntry} (he : e ∈ A.entries) :
    ∃ pre h post, A.headers = pre ++ h :: post ∧
      e = h.entry (A.data.length + (dirBytes pre).length) :=
  mem_placeEntries ((mem_sortByKey _).1 he)

/-- Every entry points before the directory. -/
theorem localHeaderOffset_lt {e : CdEntry} (he : e ∈ A.entries) :
    e.localHeaderOffset < A.data.length := by
  obtain ⟨pre, h, post, hs, rfl⟩ := A.exists_header he
  exact A.local_lt h (by simp [hs])

theorem bytes_eq_append_eocd :
    A.bytes = (A.data ++ (dirBytes A.headers ++ A.gap)) ++ A.eocd := by
  simp only [bytes, List.append_assoc]

/-- The record condition behind the EOCD offset is that of the record itself. -/
theorem isEocdAt_bytes (q : Nat) : IsEocdAt A.bytes (A.eocdOffset + q) ↔ IsEocdAt A.eocd q := by
  have hlen : (A.data ++ (dirBytes A.headers ++ A.gap)).length = A.eocdOffset := by
    simp only [List.length_append, eocdOffset, Nat.add_assoc]
  rw [bytes_eq_append_eocd, ← hlen, isEocdAt_append]

theorem findEocd_bytes : findEocd A.bytes = .ok A.eocdOffset := by
  refine findEocd_eq_ok.2 ⟨(A.isEocdAt_bytes 0).2 A.eocd_at, fun q hq hrec => ?_⟩
  obtain ⟨k, rfl⟩ := Nat.exists_eq_add_of_lt hq
  exact A.eocd_last (k + 1) (by omega) ((A.isEocdAt_bytes (k + 1)).1 hrec)

theorem slice_bytes_data : slice A.bytes 0 A.data.length = A.data :=
  slice_append_zero _ _

theorem take_bytes : A.bytes.take A.data.length = A.data :=
  List.take_left

/-- The directory with the bytes behind it, as the writers copy it. -/
theorem slice_bytes_dir :
    slice A.bytes A.data.length (A.eocdOffset - A.data.length) = dirBytes A.headers ++ A.gap := by
  have h := slice_append_middle A.data (dirBytes A.headers ++ A.gap) A.eocd
  have hlen : (dirBytes A.headers ++ A.gap).length = A.eocdOffset - A.data.length := by
    rw [List.length_append, eocdOffset]
    omega
  rw [hlen, List.append_assoc] at h
  exact h

theorem slice_bytes_headers :
    slice A.bytes A.data.length (dirBytes A.headers).length = dirBytes A.headers :=
  slice_append_middle _ _ _

/-- The header behind an entry stands in the directory, at the position of the entry. -/
theorem exists_header_slice {e : CdEntry} (he : e ∈ A.entries) :
    ∃ h : CdHeader, e = h.entry e.cdHeaderOffset ∧ A.data.length ≤ e.cdHeaderOffset ∧
      e.cdHeaderOffset + h.bytes.length ≤ A.eocdOffset ∧
      slice A.bytes e.cdHeaderOffset h.bytes.length = h.bytes := by
  obtain ⟨pre, h, post, hs, rfl⟩ := A.exists_header he
  refine ⟨h, rfl, Nat.le_add_right _ _, ?_, ?_⟩
  · show A.data.length + (dirBytes pre).length + h.bytes.length ≤ A.eocdOffset
    rw [eocdOffset, hs, dirBytes_append, dirBytes_cons, List.length_append, List.length_append]
    omega
  · have hm := slice_append_middle (A.data ++ dirBytes pre) h.bytes
      (dirBytes post ++ (A.gap ++ A.eocd))
    rw [List.length_append] at hm
    show slice A.bytes (A.data.length + (dirBytes pre).length) h.bytes.length = h.bytes
    rw [bytes, hs, dirBytes_append, dirBytes_cons]
    simpa only [List.append_assoc] using hm

/-- The header of an entry is whole and lies in the directory. -/
theorem cdHeader_bounds {e : CdEntry} (he : e ∈ A.entries) :
    46 ≤ e.cdHeaderLen ∧ A.data.length ≤ e.cdHeaderOffset ∧
      e.cdHeaderOffset + e.cdHeaderLen ≤ A.eocdOffset := by
  obtain ⟨h, hentry, hlo, hhi, -⟩ := A.exists_header_slice he
  have hlen : e.cdHeaderLen = h.bytes.length := congrArg CdEntry.cdHeaderLen hentry
  rw [hlen]
  exact ⟨h.fixed_le, hlo, hhi⟩

/-- The fields of an entry are those of its directory header. -/
theorem fields_of_entry {e : CdEntry} (he : e ∈ A.entries) :
    u32At A.bytes e.cdHeaderOffset = cdHeaderSig ∧
      slice A.bytes (e.cdHeaderOffset + 46) (u16At A.bytes (e.cdHeaderOffset + 28)).toNat =
        asBytes e.name ∧
      e.flags = u16At A.bytes (e.cdHeaderOffset + 8) ∧
      e.method = u16At A.bytes (e.cdHeaderOffset + 10) ∧
      e.crc32 = u32At A.bytes (e.cdHeaderOffset + 16) ∧
      e.compressedSize = (u32At A.bytes (e.cdHeaderOffset + 20)).toNat ∧
      e.uncompressedSize = (u32At A.bytes (e.cdHeaderOffset + 24)).toNat ∧
      e.localHeaderOffset = (u32At A.bytes (e.cdHeaderOffset + 42)).toNat := by
  obtain ⟨h, hentry, -, -, hs⟩ := A.exists_header_slice he
  have hname : e.name = h.name := by
    rw [hentry]
    rfl
  have hfields := CdHeader.entry_of_slice hs
  rw [← hentry] at hfields
  refine ⟨?_, ?_, ?_⟩
  · exact (CdHeader.u32At_of_slice hs (i := 0) (by omega)).trans h.sig_eq
  · rw [hname]
    exact CdHeader.name_of_slice hs
  · exact ⟨congrArg CdEntry.flags hfields, congrArg CdEntry.method hfields,
      congrArg CdEntry.crc32 hfields, congrArg CdEntry.compressedSize hfields,
      congrArg CdEntry.uncompressedSize hfields, congrArg CdEntry.localHeaderOffset hfields⟩

theorem u16At_bytes_eocd (i : Nat) : u16At A.bytes (A.eocdOffset + i) = u16At A.eocd i := by
  have hlen : (A.data ++ (dirBytes A.headers ++ A.gap)).length = A.eocdOffset := by
    simp only [List.length_append, eocdOffset, Nat.add_assoc]
  rw [bytes_eq_append_eocd, ← hlen, u16At_append_right]

theorem u32At_bytes_eocd (i : Nat) : u32At A.bytes (A.eocdOffset + i) = u32At A.eocd i := by
  have hlen : (A.data ++ (dirBytes A.headers ++ A.gap)).length = A.eocdOffset := by
    simp only [List.length_append, eocdOffset, Nat.add_assoc]
  rw [bytes_eq_append_eocd, ← hlen, u32At_append_right]

end Archive

/-- The counted headers end exactly at the EOCD: no byte lies between them and the record. -/
def ZipLayout.HeadersEndAtEocd (L : ZipLayout) : Prop :=
  L.cdStart + (L.entries.map CdEntry.cdHeaderLen).sum = L.eocdOffset

instance (L : ZipLayout) : Decidable L.HeadersEndAtEocd := by
  unfold ZipLayout.HeadersEndAtEocd
  infer_instance

theorem Archive.headersEndAtEocd_iff (A : Archive) : A.layout.HeadersEndAtEocd ↔ A.gap = [] := by
  rw [ZipLayout.HeadersEndAtEocd, layout_entries, A.sum_cdHeaderLen, layout_cdStart,
    layout_eocdOffset, eocdOffset, ← List.length_eq_zero_iff]
  omega

/-- What `parseLayout` checks around the walk. -/
theorem parseLayout_eq_ok {bytes : List UInt8} {L : ZipLayout} :
    parseLayout bytes = .ok L ↔ ∃ eocd es, findEocd bytes = .ok eocd ∧
      u16At bytes (eocd + 10) ≠ zip64SentinelU16 ∧ u32At bytes (eocd + 12) ≠ zip64SentinelU32 ∧
      u32At bytes (eocd + 16) ≠ zip64SentinelU32 ∧ (u32At bytes (eocd + 16)).toNat ≤ eocd ∧
      walkHeaders bytes eocd (u32At bytes (eocd + 16)).toNat (u16At bytes (eocd + 10)).toNat
        (u32At bytes (eocd + 16)).toNat = .ok es ∧
      L = ⟨sortByKey CdEntry.localHeaderOffset es, (u32At bytes (eocd + 16)).toNat, eocd⟩ := by
  simp only [parseLayout, bind_eq_ok, failIf_eq_ok, readU16_eq_ok, readU32_eq_ok, pure_eq_ok,
    exists_and_left, exists_eq_left', and_assoc, exists_const, not_or, gt_iff_lt, not_lt]
  constructor
  · rintro ⟨eocd, hfind, -, -, -, -, h1, h2, h3, h4, -, es, hwalk, rfl⟩
    exact ⟨eocd, hfind, h1, h2, h3, h4, es, hwalk, rfl⟩
  · rintro ⟨eocd, hfind, h1, h2, h3, h4, es, hwalk, rfl⟩
    obtain ⟨hlen, -, hcomment⟩ := (findEocd_eq_ok.1 hfind).1
    have hlen' : eocd + 22 ≤ bytes.length := hlen
    exact ⟨eocd, hfind, by omega, by omega, by omega, by omega, h1, h2, h3, h4,
      Nat.le_of_eq hcomment, es, hwalk, rfl⟩

/-- **An archive value is accepted, with its own layout.** -/
theorem Archive.parseLayout_bytes (A : Archive) : parseLayout A.bytes = .ok A.layout := by
  have heocd : A.eocdOffset ≤ A.bytes.length :=
    Nat.le_trans (Nat.le_add_right _ 22) A.eocdOffset_add_le
  refine parseLayout_eq_ok.2 ⟨A.eocdOffset, A.walk, A.findEocd_bytes, ?_⟩
  rw [A.u16At_bytes_eocd, A.u32At_bytes_eocd, A.u32At_bytes_eocd, A.offset_eq, A.total_eq]
  refine ⟨A.total_ne, A.size_ne, A.offset_ne, A.data_length_le_eocdOffset, ?_, rfl⟩
  refine (walkHeaders_eq_ok heocd ?_ A.data_length_le_eocdOffset).2
    ⟨A.headers, rfl, by rw [eocdOffset]; omega, A.slice_bytes_headers, A.local_lt, rfl⟩
  have := A.data_length_lt
  omega

/-- What holds of the layout of an archive. -/
theorem Archive.exists_layout_iff (A : Archive) {P : ZipLayout → Prop} :
    (∃ L, parseLayout A.bytes = .ok L ∧ P L) ↔ P A.layout := by
  rw [A.parseLayout_bytes]
  constructor
  · rintro ⟨L, hL, hP⟩
    obtain rfl := Except.ok.inj hL
    exact hP
  · intro hP
    exact ⟨_, rfl, hP⟩

/-- **Every accepted input is an archive value.** -/
theorem exists_archive_of_parseLayout {bytes : List UInt8} {L : ZipLayout}
    (hparse : parseLayout bytes = .ok L) : ∃ A : Archive, A.bytes = bytes ∧ A.layout = L := by
  obtain ⟨eocd, es, hfind, htotal, hsize, hoffset, hcd, hwalk, rfl⟩ := parseLayout_eq_ok.1 hparse
  obtain ⟨hrec, hlast⟩ := findEocd_eq_ok.1 hfind
  have heocd : eocd ≤ bytes.length := Nat.le_trans (Nat.le_add_right _ _) hrec.1
  obtain ⟨hs, hlen, hend, hslice, hlos, rfl⟩ :=
    (walkHeaders_eq_ok heocd (u32At bytes (eocd + 16)).toNat_lt hcd).1 hwalk
  set cdStart := (u32At bytes (eocd + 16)).toNat with hcdStart
  set w := cdStart + (dirBytes hs).length with hw
  -- The four parts, cut at the directory start, the end of the walk and the EOCD.
  have hdata : (bytes.take cdStart).length = cdStart := List.length_take_of_le (by omega)
  have hgap : (slice bytes w (eocd - w)).length = eocd - w := length_slice (by omega)
  have hparts : bytes = bytes.take cdStart ++ (dirBytes hs ++ (slice bytes w (eocd - w) ++
      bytes.drop eocd)) := by
    have hdrop := slice_append_drop bytes w (eocd - w)
    have hdir := slice_append_drop bytes cdStart (dirBytes hs).length
    rw [Nat.add_sub_cancel' hend] at hdrop
    rw [hdrop, ← hslice, hw, hdir, List.take_append_drop]
  have hfront : (bytes.take eocd).length = eocd := List.length_take_of_le heocd
  -- The record condition does not depend on what stands in front.
  have hat : ∀ q, IsEocdAt bytes (eocd + q) ↔ IsEocdAt (bytes.drop eocd) q := by
    intro q
    have h := isEocdAt_append (bytes.take eocd) (bytes.drop eocd) q
    rwa [hfront, List.take_append_drop] at h
  refine ⟨{ data := bytes.take cdStart
            headers := hs
            gap := slice bytes w (eocd - w)
            eocd := bytes.drop eocd
            eocd_at := (hat 0).1 hrec
            eocd_last := fun q hq h => hlast (eocd + q) (by omega) ((hat q).2 h)
            total_eq := by rw [u16At_drop, hlen]
            total_ne := by rw [u16At_drop]; exact htotal
            size_ne := by rw [u32At_drop]; exact hsize
            offset_eq := by rw [u32At_drop, hdata]
            offset_ne := by rw [u32At_drop]; exact hoffset
            local_lt := by rw [hdata]; exact hlos }, hparts.symm, ?_⟩
  simp only [Archive.layout, Archive.entries, Archive.walk, Archive.eocdOffset, hdata, hgap]
  congr 1
  omega

/-- An input on which an operation succeeds that starts by parsing is an archive. -/
theorem exists_archive_of_bind {α : Type} {bytes : List UInt8} {k : ZipLayout → Except Error α}
    {a : α} (hk : (parseLayout bytes >>= k) = .ok a) : ∃ A : Archive, A.bytes = bytes := by
  obtain ⟨L, hL, -⟩ := bind_eq_ok.1 hk
  obtain ⟨A, hA, -⟩ := exists_archive_of_parseLayout hL
  exact ⟨A, hA⟩

end C2paZip
