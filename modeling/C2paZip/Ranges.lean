import C2paZip.Coverage
import C2paZip.Descriptor
import Mathlib.Data.List.Pairwise

/-!
# The hashed ranges

Where `collection_members` succeeds, its ranges and those of the directory are complete and never
overlap (`ranges_complete`). One range is compared with its record (`CoversRecord`); the order of
the rooms gives the order of all ranges.
-/

set_option autoImplicit false

namespace C2paZip

open Library

/-! ## One range -/

/-- Where the data of the local record of `e` ends. -/
def recordEnd (z : List UInt8) (e : CdEntry) : Nat :=
  e.localHeaderOffset + localHeaderFixedLen + (u16At z (e.localHeaderOffset + 26)).toNat +
    (u16At z (e.localHeaderOffset + 28)).toNat + e.compressedSize

theorem stop_eq_recordEnd {z : List UInt8} {e : CdEntry} {b : Nat} {r : Range}
    (hr : contentRange z e b = .ok r) : r.stop = recordEnd z e := by
  obtain ⟨-, -, hstart, hstop, -, -⟩ := contentRange_eq_ok.1 hr
  rw [hstop, hstart]
  rfl

/-- The range `r` is exactly the local record of `e`: fixed header, name, extra field, data, and a
descriptor where bit 3 is set. -/
structure CoversRecord (z : List UInt8) (e : CdEntry) (r : Range) : Prop where
  start_eq : r.start = e.localHeaderOffset
  sig : u32At z r.start = localHeaderSig
  stop_eq : if e.flags &&& 0x0008 ≠ 0 then
      ∃ n, DescriptorAt z e (recordEnd z e) n ∧ r.stop = recordEnd z e + n
    else r.stop = recordEnd z e

/-- A binding range covers its record and ends in its room. -/
theorem coversRecord_of_bindingRange {z : List UInt8} {e : CdEntry} {b : Nat} {r : Range}
    (hb : b ≤ z.length) (h : bindingRange z e b = .ok r) :
    CoversRecord z e r ∧ r.start < r.stop ∧ r.stop ≤ b := by
  rw [bindingRange] at h
  obtain ⟨c, hc, hbind⟩ := bind_eq_ok.1 h
  obtain ⟨t, ht, hr⟩ := bind_eq_ok.1 hbind
  obtain rfl := pure_eq_ok.1 hr
  obtain ⟨hsig, -, hstart, hstop, hcb, -⟩ := contentRange_eq_ok.1 hc
  have hend := stop_eq_recordEnd hc
  simp only [localHeaderFixedLen] at hstart
  have hlh : e.localHeaderOffset + 26 ≤ z.length := by omega
  obtain ⟨hct, htb⟩ := bindingEnd_bounds hb hlh hcb ht
  refine ⟨⟨rfl, hsig, ?_⟩, by simp only; omega, htb⟩
  by_cases hbit : e.flags &&& 0x0008 ≠ 0
  · rw [if_pos hbit]
    obtain ⟨hle, -, hd, -⟩ := (bindingEnd_eq_ok_iff_descriptor hb hlh hbit).1 ht
    rw [hend] at hd hle
    exact ⟨_, hd, by simp only; omega⟩
  · rw [bindingEnd_eq_ok hb hlh, if_neg hbit] at ht
    rw [if_neg hbit, ht.1, hend]

/-! ## The member ranges -/

/-- The members `ms` of the layout `L` are complete and do not overlap. -/
structure CompleteMembers (z : List UInt8) (L : ZipLayout) (ms : List Binding.Member) : Prop where
  /-- Every entry that is not called like the manifest has its member, in the same order. -/
  members : List.Forall₂ (fun e m => m.name = e.name ∧ CoversRecord z e m.content)
    (L.entries.filter fun e => e.name ≠ zipManifestPath) ms
  segments : ∀ m ∈ ms, ['.'] ∉ m.name.toList.splitOn '/' ∧ ['.', '.'] ∉ m.name.toList.splitOn '/'
  ordered : ms.Pairwise fun m n =>
    m.content.start < n.content.start ∧ m.content.stop ≤ n.content.start
  bounds : ∀ m ∈ ms, m.content.start < m.content.stop ∧ m.content.stop ≤ L.cdStart
  /-- No member meets the binding range of an entry called like the manifest. -/
  apart : ∀ i < L.entries.length, L.entries[i]!.name = zipManifestPath →
    ∃ r, entryBindingRange z L i = .ok r ∧
      ∀ m ∈ ms, m.content.stop ≤ r.start ∨ r.stop ≤ m.content.start

theorem validateMemberUri_eq_ok {name : String} {u : Unit} :
    Zip.validateMemberUri name = .ok u ↔
      ['.'] ∉ name.toList.splitOn '/' ∧ ['.', '.'] ∉ name.toList.splitOn '/' := by
  rw [Zip.validateMemberUri, failIf_eq_ok, List.any_eq_true]
  constructor
  · intro h
    exact ⟨fun hmem => h ⟨_, hmem, by simp⟩, fun hmem => h ⟨_, hmem, by simp⟩⟩
  · rintro ⟨h1, h2⟩ ⟨segment, hmem, hsegment⟩
    rcases of_decide_eq_true hsegment with rfl | rfl
    · exact h1 hmem
    · exact h2 hmem

namespace Archive

variable (A : Archive)

/-- What a successful member loop says about one room. -/
theorem room_of_memberRange {rs : List (String × Range)}
    (hrs : Zip.memberRanges A.bytes = .ok rs) :
    List.Forall₂ (fun p m => Zip.validateMemberUri p.1.name = .ok () ∧
      bindingRange A.bytes p.1 p.2 = .ok m.2 ∧ m.1 = p.1.name ∧ CoversRecord A.bytes p.1 m.2 ∧
      m.2.start < m.2.stop ∧ m.2.stop ≤ p.2 ∧ p.2 ≤ A.data.length) A.rooms rs := by
  refine forall₂_imp_mem (A.memberRanges_eq_ok.1 hrs) ?_
  rintro p hp m ⟨hv, hr, hn⟩
  obtain ⟨hcovers, hlt, hle⟩ := coversRecord_of_bindingRange (A.room_le_bytes hp) hr
  exact ⟨hv, hr, hn, hcovers, hlt, hle, A.room_le hp⟩

/-- Entries and members called like the manifest drop out together. -/
theorem forall₂_members {R : CdEntry → Range → Prop} {rs : List (String × Range)}
    (h : List.Forall₂ (fun p m => m.1 = p.1.name ∧ R p.1 m.2) A.rooms rs) :
    List.Forall₂ (fun e m => m.name = e.name ∧ R e m.content)
      (A.layout.entries.filter fun e => e.name ≠ zipManifestPath)
      ((rs.filter fun m => m.1 ≠ zipManifestPath).map fun m => (⟨m.1, m.2⟩ : Binding.Member)) := by
  rw [layout_entries, ← A.map_fst_rooms, List.filter_map, List.forall₂_map_left_iff,
    List.forall₂_map_right_iff]
  refine List.rel_filter ?_ h
  rintro p m ⟨hn, -⟩
  have hname : m.1 = p.1.name := hn
  simp only [Function.comp_apply, hname]

/-- Binding ranges follow one another like the rooms. -/
theorem pairwise_memberRanges {rs : List (String × Range)}
    (hrs : Zip.memberRanges A.bytes = .ok rs) :
    rs.Pairwise fun m n => m.2.start < n.2.start ∧ m.2.stop ≤ n.2.start := by
  refine pairwise_of_forall₂ (A.room_of_memberRange hrs) A.pairwise_rooms ?_
  rintro p q m n hpq ⟨-, -, -, -, hlt, hle, -⟩ ⟨-, -, -, hcovers, -⟩
  have hstart := hcovers.start_eq
  omega

/-- The members of an archive are complete. -/
theorem completeMembers {ms : List Binding.Member}
    (hms : Binding.collectionMembers A.bytes = .ok ms) :
    CompleteMembers A.bytes A.layout ms := by
  obtain ⟨rs, hrs, rfl⟩ := collectionMembers_eq_ok.1 hms
  have hrooms := A.room_of_memberRange hrs
  have hpairs := A.pairwise_memberRanges hrs
  refine ⟨?_, ?_, ?_, ?_, ?_⟩
  · exact A.forall₂_members (hrooms.imp fun p m h => ⟨h.2.2.1, h.2.2.2.1⟩)
  · intro m hm
    obtain ⟨x, hx, rfl⟩ := List.mem_map.1 hm
    obtain ⟨p, -, hv, -, hn, -⟩ := exists_left_of_forall₂ hrooms (List.mem_filter.1 hx).1
    rw [hn]
    exact validateMemberUri_eq_ok.1 hv
  · exact List.pairwise_map.2 (hpairs.filter _)
  · intro m hm
    obtain ⟨x, hx, rfl⟩ := List.mem_map.1 hm
    obtain ⟨p, -, -, -, -, -, hlt, hle, hp⟩ :=
      exists_left_of_forall₂ hrooms (List.mem_filter.1 hx).1
    exact ⟨hlt, Nat.le_trans hle hp⟩
  · intro i hi hname
    obtain ⟨x, hx, -, hr, hn, -⟩ :=
      exists_right_of_forall₂ hrooms (List.mem_of_getElem? (A.getElem?_room hi))
    refine ⟨x.2, hr, fun m hm => ?_⟩
    obtain ⟨y, hy, rfl⟩ := List.mem_map.1 hm
    obtain ⟨hy, hother⟩ := List.mem_filter.1 hy
    have hne : y ≠ x := by
      rintro rfl
      rw [hn, hname] at hother
      simp at hother
    -- One of the two comes first.
    have hapart : rs.Pairwise fun m n => m.2.stop ≤ n.2.start ∨ n.2.stop ≤ m.2.start :=
      hpairs.imp fun h => Or.inl h.2
    have : Std.Symm fun m n : String × Range => m.2.stop ≤ n.2.start ∨ n.2.stop ≤ m.2.start :=
      ⟨fun _ _ => Or.symm⟩
    exact hapart.forall hy hx hne

end Archive

/-! ## The directory ranges -/

/-- The directory ranges `ds` of the layout `L` are complete but for the CRC field of the first
manifest entry. -/
structure CompleteDirectory (z : List UInt8) (L : ZipLayout) (ds : List Range) : Prop where
  ordered : ds.Pairwise fun r s => r.stop ≤ s.start
  bounds : ∀ r ∈ ds, L.cdStart ≤ r.start ∧ r.start ≤ r.stop ∧ r.stop ≤ z.length
  covers : ∀ k, (∃ r ∈ ds, r.start ≤ k ∧ k < r.stop) ↔ L.cdStart ≤ k ∧ k < z.length ∧
    ∀ e, L.entries.find? (fun e => e.name = zipManifestPath) = some e →
      k < e.cdHeaderOffset + 16 ∨ e.cdHeaderOffset + 20 ≤ k
  /-- The bytes left out are the CRC of a directory header. -/
  crc : ∀ e, L.entries.find? (fun e => e.name = zipManifestPath) = some e →
    L.cdStart ≤ e.cdHeaderOffset ∧ e.cdHeaderOffset + 46 ≤ L.eocdOffset ∧
      u32At z e.cdHeaderOffset = cdHeaderSig ∧ u32At z (e.cdHeaderOffset + 16) = e.crc32

/-- The directory ranges of an archive are complete. -/
theorem Archive.completeDirectory (A : Archive) :
    ∃ ds, Binding.centralDirectoryRanges A.bytes = .ok ds ∧
      CompleteDirectory A.bytes A.layout ds := by
  refine ⟨_, A.centralDirectoryRanges_eq_ok.2 rfl, ?_⟩
  have hlen := A.eocdOffset_add_le
  have hcd := A.data_length_le_eocdOffset
  have hfind : A.layout.entries.find? (fun e => e.name = zipManifestPath) = A.manifest? := rfl
  cases hm : A.manifest? with
  | none =>
      refine ⟨List.pairwise_singleton _ _, ?_, ?_, ?_⟩
      · simp only [List.mem_singleton, forall_eq, layout_cdStart]
        omega
      · intro k
        rw [hfind, hm]
        simp
      · intro e he
        rw [hfind, hm] at he
        cases he
  | some e =>
      obtain ⟨hfixed, hlo, hhi⟩ := A.cdHeader_bounds (A.manifest?_mem hm)
      refine ⟨?_, ?_, ?_, ?_⟩
      · simp
      · simp only [List.mem_cons, List.not_mem_nil, or_false, forall_eq_or_imp, forall_eq,
          layout_cdStart]
        omega
      · intro k
        rw [hfind, hm]
        simp only [List.mem_cons, List.not_mem_nil, or_false, exists_eq_or_imp, exists_eq_left,
          layout_cdStart, Option.some.injEq, forall_eq']
        -- In front of the CRC field, or behind it.
        constructor
        · rintro (⟨h1, h2⟩ | ⟨h1, h2⟩)
          · exact ⟨h1, by omega, Or.inl h2⟩
          · exact ⟨by omega, h2, Or.inr h1⟩
        · rintro ⟨h1, h2, h3 | h3⟩
          · exact Or.inl ⟨h1, h3⟩
          · exact Or.inr ⟨h3, h2⟩
      · intro e' he'
        rw [hfind, hm] at he'
        obtain rfl := Option.some.inj he'
        obtain ⟨hsig, -, -, -, hcrc, -⟩ := A.fields_of_entry (A.manifest?_mem hm)
        exact ⟨hlo, by rw [layout_eocdOffset]; omega, hsig, hcrc.symm⟩

/-! ## All ranges -/

/-- **The hashed ranges are complete and never overlap**: where the members are found, the directory
ranges are, too, the members are exactly the records of the entries that are not called like the
manifest, and the directory ranges leave out nothing but a CRC. -/
theorem ranges_complete {z : List UInt8} {ms : List Binding.Member}
    (hms : Binding.collectionMembers z = .ok ms) :
    ∃ L ds, parseLayout z = .ok L ∧ Binding.centralDirectoryRanges z = .ok ds ∧
      CompleteMembers z L ms ∧ CompleteDirectory z L ds := by
  obtain ⟨rs, hrs, -⟩ := collectionMembers_eq_ok.1 hms
  obtain ⟨A, rfl⟩ := exists_archive_of_bind hrs
  obtain ⟨ds, hds, hdirectory⟩ := A.completeDirectory
  exact ⟨A.layout, ds, A.parseLayout_bytes, hds, A.completeMembers hms, hdirectory⟩

/-- A member in front of the manifest. -/
theorem ranges_complete_member :
    ∃ L ds, parseLayout (buildZip [("a", [7]), (zipManifestPath, [1])]) = .ok L ∧
      Binding.centralDirectoryRanges (buildZip [("a", [7]), (zipManifestPath, [1])]) = .ok ds ∧
      CompleteMembers (buildZip [("a", [7]), (zipManifestPath, [1])]) L [⟨"a", ⟨0, 32⟩⟩] ∧
      CompleteDirectory (buildZip [("a", [7]), (zipManifestPath, [1])]) L ds :=
  ranges_complete (by decide +kernel)

end C2paZip
