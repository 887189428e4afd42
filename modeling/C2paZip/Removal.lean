import C2paZip.Archive.Remove
import C2paZip.Zip.Build

/-!
# Removal is deletion

Removing a name from an archive succeeds exactly where every entry binds, and the result carries the
other entries, in order and back to back, with their bytes (`remove_deletes`).
-/

set_option autoImplicit false

namespace C2paZip

open Library

/-- Entry `j` of `out` is entry `i` of `z`: the same name, flags, method, CRC and sizes, and the
same bytes in its binding range. -/
structure SameMember (z : List UInt8) (L : ZipLayout) (i : Nat) (out : List UInt8) (L' : ZipLayout)
    (j : Nat) : Prop where
  name : L'.entries[j]!.name = L.entries[i]!.name
  flags : L'.entries[j]!.flags = L.entries[i]!.flags
  method : L'.entries[j]!.method = L.entries[i]!.method
  crc : L'.entries[j]!.crc32 = L.entries[i]!.crc32
  compressedSize : L'.entries[j]!.compressedSize = L.entries[i]!.compressedSize
  uncompressedSize : L'.entries[j]!.uncompressedSize = L.entries[i]!.uncompressedSize
  bytes : ∃ r r', entryBindingRange z L i = .ok r ∧ entryBindingRange out L' j = .ok r' ∧
    slice out r'.start (r'.stop - r'.start) = slice z r.start (r.stop - r.start)

/-- The entries with another name, in local-offset order. -/
def otherEntries (L : ZipLayout) (name : String) : List Nat :=
  (List.range L.entries.length).filter fun i => L.entries[i]!.name ≠ name

/-- Two entries that are the same item are the same member. -/
theorem sameMember_of_itemAt {z out : List UInt8} {L L' : ZipLayout} {i j : Nat} {it : Item}
    (hi : ItemAt z (L.entries[i]!, entryBoundary L i) it)
    (hj : ItemAt out (L'.entries[j]!, entryBoundary L' j) it) : SameMember z L i out L' j := by
  obtain ⟨r, hr, hbody⟩ := hi.range
  obtain ⟨r', hr', hbody'⟩ := hj.range
  -- Every field but the offsets is a field of the item.
  have key : ∀ {w : List UInt8} {p : CdEntry × Nat}, ItemAt w p it →
      p.1.name = it.header.name ∧ p.1.flags = it.header.flags ∧ p.1.method = it.header.method ∧
        p.1.crc32 = it.header.crc32 ∧ p.1.compressedSize = it.header.compressedSize ∧
        p.1.uncompressedSize = it.header.uncompressedSize := by
    intro w p h
    have he := h.entry
    rw [Item.headerAt, CdHeader.patchOffset_entry] at he
    rw [he]
    exact ⟨rfl, rfl, rfl, rfl, rfl, rfl⟩
  obtain ⟨h1, h2, h3, h4, h5, h6⟩ := key hi
  obtain ⟨k1, k2, k3, k4, k5, k6⟩ := key hj
  exact ⟨k1.trans h1.symm, k2.trans h2.symm, k3.trans h3.symm, k4.trans h4.symm, k5.trans h5.symm,
    k6.trans h6.symm, r, r', hr, hr', hbody'.trans hbody.symm⟩

namespace Archive

variable {A : Archive} {items : List Item} {name : String}

/-- The items, by index. -/
theorem Carries.forall₂_range (hA : A.Carries items) :
    List.Forall₂ (fun i => ItemAt A.bytes (A.layout.entries[i]!, entryBoundary A.layout i))
      (List.range A.layout.entries.length) items := by
  have hrooms : A.rooms = (List.range A.layout.entries.length).map fun i =>
      (A.layout.entries[i]!, entryBoundary A.layout i) := rooms_eq_map_range A.layout
  rw [Carries, hrooms, List.forall₂_map_left_iff] at hA
  exact hA

/-- The kept items, by index. -/
theorem Carries.forall₂_otherEntries (hA : A.Carries items) (name : String) :
    List.Forall₂ (fun i => ItemAt A.bytes (A.layout.entries[i]!, entryBoundary A.layout i))
      (otherEntries A.layout name) (kept name items) := by
  refine List.rel_filter ?_ hA.forall₂_range
  intro i it h
  have hn : A.layout.entries[i]!.name = it.header.name := h.name
  show decide _ = true ↔ decide _ = true
  rw [hn]

/-- An archive whose rooms all bind carries items, and conversely. -/
theorem exists_carries_iff_rooms :
    (∃ items, A.Carries items) ↔ ∀ p ∈ A.rooms, ∃ r, bindingRange A.bytes p.1 p.2 = .ok r := by
  constructor
  · rintro ⟨items, hA⟩ p hp
    exact hA.binds hp
  · exact A.exists_carries

/-- An archive whose entries all bind carries items, and conversely. -/
theorem exists_carries_iff :
    (∃ items, A.Carries items) ↔
      ∀ i < A.layout.entries.length, ∃ r, entryBindingRange A.bytes A.layout i = .ok r := by
  have hrooms : A.rooms = (List.range A.layout.entries.length).map fun i =>
      (A.layout.entries[i]!, entryBoundary A.layout i) := rooms_eq_map_range A.layout
  rw [exists_carries_iff_rooms, hrooms, List.forall_mem_map]
  simp only [List.mem_range]
  rfl

end Archive

/-- The kept items of a short archive fit. -/
theorem fits_kept {A : Archive} {items : List Item} {name : String} (hA : A.Carries items)
    (hz : A.bytes.length < 2 ^ 32 - 1) : Fits (kept name items) := by
  have hheaders := A.headers_length_lt
  have hlen := A.length_bytes
  obtain ⟨hcount, hbodies, hdir⟩ := hA.kept_le name
  exact ⟨by omega, by omega, by omega⟩

/-- The binding ranges of an assembled archive tile its file data. -/
theorem tiles_assemble {items : List Item} (h : Fits items) :
    ∃ rs, List.Forall₂ (fun j r =>
        entryBindingRange (assemble items h).bytes (assemble items h).layout j = .ok r)
      (List.range (assemble items h).layout.entries.length) rs ∧
      Tiles Range.start Range.stop 0 rs (assemble items h).layout.cdStart := by
  have hd := h.data
  have hrooms : (assemble items h).rooms =
      (List.range (assemble items h).layout.entries.length).map fun i =>
        ((assemble items h).layout.entries[i]!, entryBoundary (assemble items h).layout i) :=
    rooms_eq_map_range (assemble items h).layout
  refine ⟨(assemble items h).rooms.map fun p => ⟨p.1.localHeaderOffset, p.2⟩, ?_, ?_⟩
  · have hall : List.Forall₂ (fun (p : CdEntry × Nat) (r : Range) =>
        bindingRange (assemble items h).bytes p.1 p.2 = .ok r) (assemble items h).rooms
        ((assemble items h).rooms.map fun p => ⟨p.1.localHeaderOffset, p.2⟩) := by
      apply List.forall₂_map_right_iff.2
      apply List.forall₂_same.2
      intro p hp
      -- The record fills the room, so the binding range ends with it.
      obtain ⟨it, -, hit, hend⟩ := exists_right_of_forall₂ (tight_assemble h) hp
      rw [hit.bindingRange_eq ((assemble items h).room_le_bytes hp), ← hend]
    conv at hall => arg 2; rw [hrooms]
    exact List.forall₂_map_left_iff.1 hall
  · have htiles := tiles_placeRooms (bodies items).length 0 items (by omega)
    rw [← rooms_assemble h, Nat.zero_add] at htiles
    exact tiles_map.2 htiles

/-- **Removal is exactly deletion of the named entries.** It succeeds exactly where every entry
binds; the result carries the entries with another name in the same order, with the same data and
binding-range bytes, these ranges tile the file data, and the headers end at the EOCD. -/
theorem remove_deletes {z : List UInt8} {name : String} {L : ZipLayout}
    (hz : z.length < 2 ^ 32 - 1) (hL : parseLayout z = .ok L)
    (hname : ∃ e ∈ L.entries, e.name = name) :
    ((∃ out, Zip.removeZipEntry z name = .ok out) ↔
      ∀ i < L.entries.length, ∃ r, entryBindingRange z L i = .ok r) ∧
    ∀ out, Zip.removeZipEntry z name = .ok out → ∃ L', parseLayout out = .ok L' ∧
      List.Forall₂ (fun i j => SameMember z L i out L' j) (otherEntries L name)
        (List.range L'.entries.length) ∧
      (∃ rs, List.Forall₂ (fun j r => entryBindingRange out L' j = .ok r)
          (List.range L'.entries.length) rs ∧ Tiles Range.start Range.stop 0 rs L'.cdStart) ∧
      L'.HeadersEndAtEocd := by
  obtain ⟨A, rfl, rfl⟩ := exists_archive_of_parseLayout hL
  constructor
  · rw [← A.exists_carries_iff]
    constructor
    · rintro ⟨out, hrem⟩
      exact exists_carries_of_removeZipEntry hname hrem
    · rintro ⟨items, hA⟩
      have hfits : Fits (kept name items) := fits_kept hA hz
      have hdir := hfits.directory
      exact ⟨_, (removeZipEntry_eq_ok hA hname).2 ⟨by omega, rfl⟩⟩
  · intro out hrem
    obtain ⟨items, hA⟩ := exists_carries_of_removeZipEntry hname hrem
    have hfits : Fits (kept name items) := fits_kept hA hz
    obtain ⟨-, rfl⟩ := (removeZipEntry_eq_ok hA hname).1 hrem
    rw [← assemble_bytes hfits]
    refine ⟨_, Archive.parseLayout_bytes _, ?_, tiles_assemble hfits,
      (Archive.headersEndAtEocd_iff _).2 rfl⟩
    refine (forall₂_join (hA.forall₂_otherEntries name)
      (carries_assemble hfits).forall₂_range).imp ?_
    rintro i j ⟨it, hi, hj⟩
    exact sameMember_of_itemAt hi hj

/-- Removing the first of two members. -/
theorem remove_deletes_first :
    ∃ out L', Zip.removeZipEntry (buildZip [("a", [7]), ("b", [])]) "a" = .ok out ∧
      parseLayout out = .ok L' ∧ L'.HeadersEndAtEocd := by
  obtain ⟨-, hout⟩ := @remove_deletes (buildZip [("a", [7]), ("b", [])]) "a"
    { entries := [⟨"a", 0, 0, crc32 [7], 1, 1, 0, 63, 47⟩, ⟨"b", 0, 0, 0, 0, 0, 32, 110, 47⟩]
      cdStart := 63
      eocdOffset := 157 }
    (by decide +kernel) (by decide +kernel) (by decide)
  have hrem : Zip.removeZipEntry (buildZip [("a", [7]), ("b", [])]) "a" =
      .ok (buildZip [("b", [])]) := by
    decide +kernel
  obtain ⟨L', hL', -, -, hend⟩ := hout _ hrem
  exact ⟨_, L', hrem, hL', hend⟩

end C2paZip
