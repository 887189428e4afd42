import C2paZip.Fill
import C2paZip.Ranges

/-!
# Local header and directory header

Every entry has two headers, which repeat seven fields. Of an entry whose bytes are handed out the
parser compares the flags, and the CRC and the sizes of a member without bit 3 (`headers_agree`). It
compares neither the name nor the method of the local header with anything
(`mislabelled_headers_differ`).
-/

set_option autoImplicit false

namespace C2paZip

open Library

/-! ## The two headers of an entry -/

/-- Both headers of `e` are there, the directory header names `e` and points to the local header,
and they have the same flags. -/
structure FlagsAgree (z : List UInt8) (e : CdEntry) : Prop where
  localSig : u32At z e.localHeaderOffset = localHeaderSig
  directorySig : u32At z e.cdHeaderOffset = cdHeaderSig
  directoryName :
    slice z (e.cdHeaderOffset + 46) (u16At z (e.cdHeaderOffset + 28)).toNat = asBytes e.name
  directoryOffset : (u32At z (e.cdHeaderOffset + 42)).toNat = e.localHeaderOffset
  flags : u16At z (e.localHeaderOffset + 6) = u16At z (e.cdHeaderOffset + 8)

/-- Without bit 3 both headers of `e` have the same CRC and sizes. -/
def SizesAgree (z : List UInt8) (e : CdEntry) : Prop :=
  u16At z (e.cdHeaderOffset + 8) &&& 0x0008 = 0 →
    u32At z (e.localHeaderOffset + 14) = u32At z (e.cdHeaderOffset + 16) ∧
      u32At z (e.localHeaderOffset + 18) = u32At z (e.cdHeaderOffset + 20) ∧
      u32At z (e.localHeaderOffset + 22) = u32At z (e.cdHeaderOffset + 24)

namespace Archive

variable (A : Archive) {e : CdEntry}

/-- Where the content of an entry is found, its headers have the same flags. -/
theorem flagsAgree_of_contentRange {b : Nat} {r : Range} (he : e ∈ A.entries)
    (hr : contentRange A.bytes e b = .ok r) : FlagsAgree A.bytes e := by
  obtain ⟨hsig, hname, hflags, -, -, -, -, hoffset⟩ := A.fields_of_entry he
  obtain ⟨hlocal, hsame, -⟩ := contentRange_eq_ok.1 hr
  exact ⟨hlocal, hsig, hname, hoffset.symm, hsame.trans hflags⟩

/-- Where an entry without bit 3 is bound, its headers have the same CRC and sizes. -/
theorem sizesAgree_of_bindingRange {b : Nat} {r : Range} (he : e ∈ A.entries)
    (hb : b ≤ A.bytes.length) (hr : bindingRange A.bytes e b = .ok r) :
    SizesAgree A.bytes e := by
  obtain ⟨-, -, hflags, -, hcrc, hcompressed, huncompressed, -⟩ := A.fields_of_entry he
  intro hbit
  rw [← hflags] at hbit
  obtain ⟨c, hc, hbind⟩ := bind_eq_ok.1 hr
  obtain ⟨t, ht, -⟩ := bind_eq_ok.1 hbind
  obtain ⟨-, -, hstart, hstop, hcb, -⟩ := contentRange_eq_ok.1 hc
  simp only [localHeaderFixedLen] at hstart
  rw [bindingEnd_eq_ok hb (by omega), if_neg (not_not.2 hbit)] at ht
  obtain ⟨-, h14, h18, h22⟩ := ht
  exact ⟨h14.trans hcrc, UInt32.toNat_inj.1 (h18.trans hcompressed),
    UInt32.toNat_inj.1 (h22.trans huncompressed)⟩

end Archive

/-! ## What is handed out -/

/-- **The headers of an entry that is handed out agree** in the flags, and in CRC and sizes for a
member without bit 3. The manifest that is read is declared stored and named in the directory, and
unencrypted in both headers. -/
theorem headers_agree (z : List UInt8) :
    (∀ m, Reader.readManifest z = .ok (some m) → ∃ L e, parseLayout z = .ok L ∧
      L.entries.find? (fun e => e.name = zipManifestPath) = some e ∧
      slice z (recordEnd z e - e.compressedSize) e.compressedSize = m ∧ FlagsAgree z e ∧
      slice z (e.cdHeaderOffset + 46) (u16At z (e.cdHeaderOffset + 28)).toNat =
        asBytes zipManifestPath ∧
      u16At z (e.cdHeaderOffset + 10) = 0 ∧ u16At z (e.cdHeaderOffset + 8) &&& 1 = 0 ∧
      u16At z (e.localHeaderOffset + 6) &&& 1 = 0) ∧
    ∀ ms, Binding.collectionMembers z = .ok ms → ∃ L, parseLayout z = .ok L ∧
      List.Forall₂ (fun e m => m.name = e.name ∧ m.content.start = e.localHeaderOffset ∧
        FlagsAgree z e ∧ SizesAgree z e)
        (L.entries.filter fun e => e.name ≠ zipManifestPath) ms := by
  constructor
  · intro m hm
    obtain ⟨A, rfl⟩ := exists_archive_of_readManifest hm
    obtain ⟨p, r, hloc, hcontent⟩ := A.readManifestEntry_eq_some.1 hm
    have he := A.room_fst_mem (A.room?_mem hloc.room)
    have hagree := A.flagsAgree_of_contentRange he hloc.content
    have hname := hagree.directoryName
    rw [A.room?_name hloc.room] at hname
    obtain ⟨-, -, hflags, hmethod, -⟩ := A.fields_of_entry he
    obtain ⟨-, -, -, hstop, -, -⟩ := contentRange_eq_ok.1 hloc.content
    refine ⟨A.layout, p.1, A.parseLayout_bytes, ?_, ?_, hagree, hname, ?_, ?_, ?_⟩
    · exact A.manifest?_eq_map_room?.trans (by rw [hloc.room]; rfl)
    · rw [← stop_eq_recordEnd hloc.content, ← hcontent, hstop, Nat.add_sub_cancel,
        Nat.add_sub_cancel_left]
    · rw [← hmethod]
      exact hloc.stored
    · rw [← hflags]
      exact hloc.unencrypted
    · rw [hagree.flags, ← hflags]
      exact hloc.unencrypted
  · intro ms hms
    obtain ⟨rs, hrs, rfl⟩ := collectionMembers_eq_ok.1 hms
    obtain ⟨A, rfl⟩ := exists_archive_of_bind hrs
    refine ⟨A.layout, A.parseLayout_bytes, ?_⟩
    apply A.forall₂_members (R := fun e r => r.start = e.localHeaderOffset ∧
      FlagsAgree A.bytes e ∧ SizesAgree A.bytes e)
    refine forall₂_imp_mem (A.memberRanges_eq_ok.1 hrs) ?_
    rintro p hp m ⟨-, hr, hn⟩
    have he := A.room_fst_mem hp
    obtain ⟨hstart, -, -, -⟩ := (bindingRange_eq_ok (A.room_le_bytes hp)).1 hr
    exact ⟨hn, hstart,
      A.flagsAgree_of_contentRange he (contentRange_of_bindingRange (A.room_le_bytes hp) hr),
      A.sizesAgree_of_bindingRange he (A.room_le_bytes hp) hr⟩

/-- Member and manifest of a built archive. -/
theorem headers_agree_built :
    (∃ L e, parseLayout (buildZip [("a", [7]), (zipManifestPath, [1])]) = .ok L ∧
      L.entries.find? (fun e => e.name = zipManifestPath) = some e ∧
      FlagsAgree (buildZip [("a", [7]), (zipManifestPath, [1])]) e) ∧
    ∃ L, parseLayout (buildZip [("a", [7]), (zipManifestPath, [1])]) = .ok L ∧
      List.Forall₂ (fun (e : CdEntry) (m : Binding.Member) => m.name = e.name ∧
        m.content.start = e.localHeaderOffset ∧
        FlagsAgree (buildZip [("a", [7]), (zipManifestPath, [1])]) e ∧
        SizesAgree (buildZip [("a", [7]), (zipManifestPath, [1])]) e)
        (L.entries.filter fun e => e.name ≠ zipManifestPath) [⟨"a", ⟨0, 32⟩⟩] := by
  obtain ⟨hread, hmembers⟩ := headers_agree (buildZip [("a", [7]), (zipManifestPath, [1])])
  obtain ⟨L, e, hL, hfind, -, hagree, -⟩ := hread [1] (by decide +kernel)
  exact ⟨⟨L, e, hL, hfind, hagree⟩, hmembers _ (by decide +kernel)⟩

/-- The archive of a member and a manifest whose local headers have another method and another
name. -/
def mislabelled : List UInt8 :=
  let z := buildZip [("a", [7]), (zipManifestPath, [1])]
  let z := overwrite (overwrite z 8 (u16ToLe 8)) 30 [98]
  overwrite (overwrite z 40 (u16ToLe 8)) 62 [98]

/-- The local name and the local method of an entry that is handed out may be others than those in
the directory. -/
theorem mislabelled_headers_differ :
    ∃ L, parseLayout mislabelled = .ok L ∧ L.entries.map CdEntry.name = ["a", zipManifestPath] ∧
      Reader.readManifest mislabelled = .ok (some [1]) ∧
      Binding.collectionMembers mislabelled = .ok [⟨"a", ⟨0, 32⟩⟩] ∧
      ∀ e ∈ L.entries, u32At mislabelled e.localHeaderOffset = localHeaderSig ∧
        slice mislabelled (e.localHeaderOffset + 30)
            (u16At mislabelled (e.localHeaderOffset + 26)).toNat ≠ asBytes e.name ∧
        u16At mislabelled (e.localHeaderOffset + 8) = 8 ∧
        u16At mislabelled (e.cdHeaderOffset + 10) = 0 := by
  have hparse : parseLayout mislabelled = .ok ⟨[⟨"a", 0, 0, crc32 [7], 1, 1, 0, 95, 47⟩,
      ⟨zipManifestPath, 0, 0, crc32 [1], 1, 1, 32, 142, 78⟩], 95, 220⟩ := by
    decide +kernel
  exact ⟨_, hparse, by decide +kernel, by decide +kernel, by decide +kernel, by decide +kernel⟩

end C2paZip
