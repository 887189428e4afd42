import C2paZip.Zip.Build
import C2paZip.Archive.Directory
import C2paZip.Library.Tiling

/-!
# The bytes of the central directory

`Accounted z L` says that the layout `L` accounts for every byte between the directory start and the
EOCD. The parser checks everything it needs but one: that the counted headers reach the EOCD
(`accounted_iff`). Following the length fields of as many headers as the EOCD counts
(`headersEnd`) tells the inputs apart.
-/

set_option autoImplicit false

namespace C2paZip

open Library

/-- The layout `L` of `z` accounts for every byte of the directory. -/
structure Accounted (z : List UInt8) (L : ZipLayout) : Prop where
  /-- There are as many entries as the EOCD counts. -/
  count : L.entries.length = (u16At z (L.eocdOffset + 10)).toNat
  /-- In increasing order, the headers of the entries tile the directory. -/
  tiles : ∃ walk, L.entries.Perm walk ∧
    Tiles CdEntry.cdHeaderOffset (fun e => e.cdHeaderOffset + e.cdHeaderLen) L.cdStart walk
      L.eocdOffset
  sig : ∀ e ∈ L.entries, 46 ≤ e.cdHeaderLen ∧ u32At z e.cdHeaderOffset = cdHeaderSig
  /-- The entries are sorted by local offset, entries with the same one by header position. -/
  sorted : L.entries.Pairwise fun d e => d.localHeaderOffset < e.localHeaderOffset ∨
    d.localHeaderOffset = e.localHeaderOffset ∧ d.cdHeaderOffset < e.cdHeaderOffset
  local_lt : ∀ e ∈ L.entries, e.localHeaderOffset < L.cdStart

/-- The position behind `n` headers from `cursor` on, by their length fields alone. -/
def headersEnd (z : List UInt8) : Nat → Nat → Nat
  | 0, cursor => cursor
  | n + 1, cursor => headersEnd z n (cursor + cdHeaderFixedLen + (u16At z (cursor + 28)).toNat +
      (u16At z (cursor + 30)).toNat + (u16At z (cursor + 32)).toNat)

/-- As many headers as the EOCD counts, one behind the other from the directory offset on, end at
the EOCD. -/
def HeadersReachEocd (z : List UInt8) : Prop :=
  ∃ p, IsEocdAt z p ∧ (∀ q, p < q → ¬ IsEocdAt z q) ∧
    headersEnd z (u16At z (p + 10)).toNat (u32At z (p + 16)).toNat = p

/-! ## The walk -/

/-- Consecutive headers tile their bytes. -/
theorem tiles_placeEntries (pos : Nat) (hs : List CdHeader) :
    Tiles CdEntry.cdHeaderOffset (fun e => e.cdHeaderOffset + e.cdHeaderLen) pos
      (placeEntries pos hs) (pos + (dirBytes hs).length) := by
  induction hs generalizing pos with
  | nil => rfl
  | cons h hs ih =>
      have hrest := ih (pos + h.bytes.length)
      rw [Nat.add_assoc, ← List.length_append] at hrest
      exact ⟨rfl, Nat.le_add_right _ _, hrest⟩

/-- Following the length fields of headers leads behind them. -/
theorem headersEnd_dirBytes {z : List UInt8} {hs : List CdHeader} {cursor : Nat}
    (hslice : slice z cursor (dirBytes hs).length = dirBytes hs)
    (hz : cursor + (dirBytes hs).length ≤ z.length) :
    headersEnd z hs.length cursor = cursor + (dirBytes hs).length := by
  induction hs generalizing cursor with
  | nil => rfl
  | cons h hs ih =>
      rw [dirBytes_cons, List.length_append] at hz hslice
      rw [slice_add] at hslice
      obtain ⟨hh, hrest⟩ := List.append_inj hslice (length_slice (by omega))
      have hlen := h.length_eq
      rw [← CdHeader.u16At_of_slice hh (i := 28) (by omega),
        ← CdHeader.u16At_of_slice hh (i := 30) (by omega),
        ← CdHeader.u16At_of_slice hh (i := 32) (by omega)] at hlen
      have hnext : cursor + cdHeaderFixedLen + (u16At z (cursor + 28)).toNat +
          (u16At z (cursor + 30)).toNat + (u16At z (cursor + 32)).toNat =
          cursor + h.bytes.length := by
        omega
      rw [List.length_cons, headersEnd, hnext, ih hrest (by omega), dirBytes_cons,
        List.length_append, Nat.add_assoc]

/-! ## When every byte is accounted for -/

/-- Headers that tile the directory leave nothing in front of the EOCD. -/
theorem Accounted.headersEndAtEocd {z : List UInt8} {L : ZipLayout} (h : Accounted z L) :
    L.HeadersEndAtEocd := by
  obtain ⟨walk, hperm, htiles⟩ := h.tiles
  rw [ZipLayout.HeadersEndAtEocd, (hperm.map CdEntry.cdHeaderLen).sum_nat]
  exact htiles.sum_length

namespace Archive

variable (A : Archive)

/-- An archive without uncounted bytes is accounted for. -/
theorem accounted_of_gap (hgap : A.gap = []) : Accounted A.bytes A.layout where
  count := by
    rw [layout_entries, A.length_entries, layout_eocdOffset, A.u16At_bytes_eocd, A.total_eq]
  tiles := by
    refine ⟨A.walk, perm_sortByKey _ _, ?_⟩
    have hend : A.eocdOffset = A.data.length + (dirBytes A.headers).length := by
      rw [eocdOffset, hgap, List.length_nil, Nat.add_zero]
    rw [layout_cdStart, layout_eocdOffset, hend]
    exact tiles_placeEntries _ _
  sig := by
    intro e he
    exact ⟨(A.cdHeader_bounds he).1, (A.fields_of_entry he).1⟩
  sorted := by
    have hwalk : A.walk.Pairwise fun d e => d.cdHeaderOffset < e.cdHeaderOffset := by
      refine (tiles_placeEntries A.data.length A.headers).pairwise.imp_of_mem ?_
      intro d e hd _ hle
      obtain ⟨hfixed, -⟩ := A.cdHeader_bounds ((mem_sortByKey _).2 hd)
      omega
    exact pairwise_sortByKey_of_pairwise _ hwalk
  local_lt := fun _ he => A.localHeaderOffset_lt he

theorem accounted_iff_gap : Accounted A.bytes A.layout ↔ A.gap = [] :=
  ⟨fun h => A.headersEndAtEocd_iff.1 h.headersEndAtEocd, A.accounted_of_gap⟩

/-- The length fields lead to the end of the counted headers. -/
theorem headersReachEocd_iff : HeadersReachEocd A.bytes ↔ A.gap = [] := by
  have hend : headersEnd A.bytes (u16At A.bytes (A.eocdOffset + 10)).toNat
      (u32At A.bytes (A.eocdOffset + 16)).toNat = A.data.length + (dirBytes A.headers).length := by
    rw [A.u16At_bytes_eocd, A.u32At_bytes_eocd, A.total_eq, A.offset_eq]
    have hlen := A.length_bytes
    exact headersEnd_dirBytes A.slice_bytes_headers (by omega)
  have hgap : A.data.length + (dirBytes A.headers).length = A.eocdOffset ↔ A.gap = [] := by
    rw [eocdOffset, ← List.length_eq_zero_iff]
    omega
  obtain ⟨hrec, hlast⟩ := findEocd_eq_ok.1 A.findEocd_bytes
  rw [← hgap, ← hend]
  constructor
  · rintro ⟨p, hp, hplast, hreach⟩
    -- There is only one last record.
    have heq : p = A.eocdOffset := by
      rcases Nat.lt_trichotomy p A.eocdOffset with h | h | h
      · exact absurd hrec (hplast _ h)
      · exact h
      · exact absurd hp (hlast _ h)
    rwa [heq] at hreach
  · intro hreach
    exact ⟨_, hrec, hlast, hreach⟩

end Archive

/-- **Every byte of the directory of an accepted input is accounted for** exactly where its counted
headers reach the EOCD. -/
theorem accounted_iff {z : List UInt8} {L : ZipLayout} (hparse : parseLayout z = .ok L) :
    Accounted z L ↔ HeadersReachEocd z := by
  obtain ⟨A, rfl, rfl⟩ := exists_archive_of_parseLayout hparse
  rw [A.accounted_iff_gap, A.headersReachEocd_iff]

/-- The two headers of an archive of two members. -/
theorem accounted_iff_two_members : HeadersReachEocd (buildZip [("a", [7]), ("b", [])]) := by
  have hparse : parseLayout (buildZip [("a", [7]), ("b", [])]) =
      .ok { entries := [⟨"a", 0, 0, crc32 [7], 1, 1, 0, 63, 47⟩, ⟨"b", 0, 0, 0, 0, 0, 32, 110, 47⟩]
            cdStart := 63
            eocdOffset := 157 } := by
    decide +kernel
  exact (accounted_iff hparse).1
    { count := by decide +kernel
      tiles := ⟨_, List.Perm.refl _, by simp⟩
      sig := by decide +kernel
      sorted := by simp
      local_lt := by decide }

/-- Two members, of which the EOCD counts the first only. -/
def hiddenHeader : List UInt8 :=
  overwrite (buildZip [("a", []), ("b", [])]) 164 (u16ToLe 1 ++ u16ToLe 1)

/-- A directory header can lie hidden between the counted ones and the EOCD. -/
theorem hiddenHeader_not_accounted :
    ∃ L, parseLayout hiddenHeader = .ok L ∧ L.entries.length = 1 ∧
      u32At hiddenHeader (L.cdStart + 47) = cdHeaderSig ∧ L.cdStart + 94 = L.eocdOffset ∧
      ¬ Accounted hiddenHeader L := by
  have hparse : parseLayout hiddenHeader =
      .ok ⟨[⟨"a", 0, 0, 0, 0, 0, 0, 62, 47⟩], 62, 156⟩ := by
    decide +kernel
  refine ⟨_, hparse, by decide +kernel, by decide +kernel, by decide +kernel, fun h => ?_⟩
  exact absurd h.headersEndAtEocd (by decide +kernel)

end C2paZip
