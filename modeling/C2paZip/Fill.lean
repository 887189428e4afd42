import C2paZip.Archive.Locate
import C2paZip.Coverage
import C2paZip.Zip.Build

/-!
# Filling a placeholder manifest

`fill_manifest` overwrites the located content and the CRC fields of the two headers of its entry.
The three writes stay inside the room of that entry and inside one skipped field of the directory,
so the result is an archive with the same positions and the same entries up to that CRC
(`Locates.exists_filled`). Hence the directory hash survives (`fill_keeps_directory_hash`). The
member hashes survive exactly where no descriptor repeats the old CRC (`fill_keeps_members_iff`).
-/

set_option autoImplicit false

namespace C2paZip

open Library

namespace Archive

/-- `B` is the archive `A` with the content `r` of the entry `e` filled with `f`. -/
structure IsFilled (A B : Archive) (e : CdEntry) (r : Range) (f : List UInt8) : Prop where
  bytes : B.bytes = fillBytes A.bytes e r f
  length_data : B.data.length = A.data.length
  entries : B.entries = A.entries.map (setEntryCrc e.cdHeaderOffset (crc32 f))

/-! ## The writes -/

namespace Locates

variable {A : Archive} {name : String} {p : CdEntry × Nat} {r : Range} {f : List UInt8}

/-- The header of the located entry stands in the directory. -/
theorem cdHeaderOffset_bounds (h : A.Locates name p r) :
    A.data.length ≤ p.1.cdHeaderOffset ∧ p.1.cdHeaderOffset + 46 ≤ A.bytes.length := by
  have hmem := (mem_sortByKey _).1 (A.room_fst_mem (A.room?_mem h.room))
  have hb := C2paZip.cdHeaderOffset_bounds hmem
  have hlen := A.length_bytes
  omega

/-- The first two writes keep the length. -/
theorem length_writes (h : A.Locates name p r) (hlen : f.length = r.stop - r.start) :
    (overwrite A.bytes r.start f).length = A.bytes.length ∧
      (overwrite (overwrite A.bytes r.start f) (p.1.localHeaderOffset + 14)
        (u32ToLe (crc32 f))).length = A.bytes.length := by
  have hb := h.bounds
  have hcd := h.cdHeaderOffset_bounds
  have h1 : (overwrite A.bytes r.start f).length = A.bytes.length := length_overwrite (by omega)
  exact ⟨h1, by rw [length_overwrite (by rw [length_u32ToLe]; omega), h1]⟩

theorem length_fillBytes (h : A.Locates name p r) (hlen : f.length = r.stop - r.start) :
    (fillBytes A.bytes p.1 r f).length = A.bytes.length := by
  have hcd := h.cdHeaderOffset_bounds
  obtain ⟨-, h2⟩ := h.length_writes hlen
  rw [fillBytes, length_overwrite (by rw [length_u32ToLe]; omega), h2]

/-- Bytes outside the content and the two CRC fields are kept. -/
theorem slice_fillBytes (h : A.Locates name p r) (hlen : f.length = r.stop - r.start) {q n : Nat}
    (hcontent : q + n ≤ r.start ∨ r.stop ≤ q)
    (hlocal : q + n ≤ p.1.localHeaderOffset + 14 ∨ p.1.localHeaderOffset + 18 ≤ q)
    (hcentral : q + n ≤ p.1.cdHeaderOffset + 16 ∨ p.1.cdHeaderOffset + 20 ≤ q) :
    slice (fillBytes A.bytes p.1 r f) q n = slice A.bytes q n := by
  have hb := h.bounds
  have hcd := h.cdHeaderOffset_bounds
  obtain ⟨h1, h2⟩ := h.length_writes hlen
  rw [fillBytes, slice_overwrite_of_disjoint (by omega) (by rw [length_u32ToLe]; omega),
    slice_overwrite_of_disjoint (by omega) (by rw [length_u32ToLe]; omega),
    slice_overwrite_of_disjoint (by omega) (by omega)]

theorem getElem?_fillBytes (h : A.Locates name p r) (hlen : f.length = r.stop - r.start) {k : Nat}
    (hcontent : k < r.start ∨ r.stop ≤ k)
    (hlocal : k < p.1.localHeaderOffset + 14 ∨ p.1.localHeaderOffset + 18 ≤ k)
    (hcentral : k < p.1.cdHeaderOffset + 16 ∨ p.1.cdHeaderOffset + 20 ≤ k) :
    (fillBytes A.bytes p.1 r f)[k]? = A.bytes[k]? := by
  have hb := h.bounds
  have hcd := h.cdHeaderOffset_bounds
  obtain ⟨h1, h2⟩ := h.length_writes hlen
  rw [fillBytes, getElem?_overwrite_of_not_mem, getElem?_overwrite_of_not_mem,
    getElem?_overwrite_of_not_mem] <;> (try rw [length_u32ToLe]) <;> omega

/-- The content is the new content. -/
theorem slice_fillBytes_content (h : A.Locates name p r) (hlen : f.length = r.stop - r.start) :
    slice (fillBytes A.bytes p.1 r f) r.start (r.stop - r.start) = f := by
  have hb := h.bounds
  have hcd := h.cdHeaderOffset_bounds
  obtain ⟨h1, h2⟩ := h.length_writes hlen
  rw [fillBytes, slice_overwrite_of_disjoint (by omega) (by omega),
    slice_overwrite_of_disjoint (by omega) (by rw [length_u32ToLe]; omega), ← hlen,
    slice_overwrite_self (by omega)]

/-- The CRC field of the local header is the CRC of the new content. -/
theorem u32At_fillBytes_crc (h : A.Locates name p r) (hlen : f.length = r.stop - r.start) :
    u32At (fillBytes A.bytes p.1 r f) (p.1.localHeaderOffset + 14) = crc32 f := by
  have hb := h.bounds
  have hcd := h.cdHeaderOffset_bounds
  obtain ⟨h1, h2⟩ := h.length_writes hlen
  rw [fillBytes, u32At_congr (slice_overwrite_of_disjoint (by omega) (by omega)),
    u32At_overwrite_self (by omega)]

/-- **A filled archive is an archive** with the same positions and, up to the CRC of the located
entry, the same entries. -/
theorem exists_filled (h : A.Locates name p r) (hlen : f.length = r.stop - r.start) :
    ∃ B : Archive, IsFilled A B p.1 r f := by
  have hb := h.bounds
  obtain ⟨pre, k, post, hs, hp⟩ := A.exists_header (A.room_fst_mem (A.room?_mem h.room))
  have hpos : p.1.cdHeaderOffset = A.data.length + (dirBytes pre).length := by rw [hp]; rfl
  -- The first two writes stay in the file data, the third one in the header behind `pre`.
  set data := overwrite (overwrite A.data r.start f) (p.1.localHeaderOffset + 14)
    (u32ToLe (crc32 f)) with hdata
  have h1 : (overwrite A.data r.start f).length = A.data.length := length_overwrite (by omega)
  have hdatalen : data.length = A.data.length := by
    rw [hdata, length_overwrite (by rw [length_u32ToLe]; omega), h1]
  have hbytes : (A.replaceData data hdatalen).bytes = overwrite (overwrite A.bytes r.start f)
      (p.1.localHeaderOffset + 14) (u32ToLe (crc32 f)) := by
    rw [replaceData_bytes, bytes, List.drop_left, overwrite_append_left (by omega),
      overwrite_append_left (by rw [length_u32ToLe]; omega)]
  have hs' : (A.replaceData data hdatalen).headers = pre ++ k :: post := hs
  refine ⟨(A.replaceData data hdatalen).replaceCrc hs' (crc32 f), ?_, hdatalen, ?_⟩
  · rw [replaceCrc_bytes, replaceData_data, hdatalen, hbytes, fillBytes, hpos]
  · rw [replaceCrc_entries, replaceData_data, hdatalen, hpos]
    exact congrArg (List.map _) (congrArg ZipLayout.entries (A.replaceData_layout hdatalen))

end Locates

/-! ## The filled archive -/

namespace IsFilled

variable {A B : Archive} {name : String} {p : CdEntry × Nat} {r : Range} {f : List UInt8}

theorem rooms (hB : IsFilled A B p.1 r f) :
    B.rooms = A.rooms.map fun q => (setEntryCrc p.1.cdHeaderOffset (crc32 f) q.1, q.2) := by
  rw [Archive.rooms, hB.entries, hB.length_data]
  exact rooms_map (setEntryCrc_localHeaderOffset _ _) A.entries

theorem room? (hB : IsFilled A B p.1 r f) (name : String) :
    B.room? name =
      (A.room? name).map fun q => (setEntryCrc p.1.cdHeaderOffset (crc32 f) q.1, q.2) := by
  rw [Archive.room?, Archive.room?, hB.rooms, List.find?_map]
  rfl

/-- The lookup finds the same content in the filled archive. -/
theorem locates (hB : IsFilled A B p.1 r f) (h : A.Locates name p r)
    (hlen : f.length = r.stop - r.start) :
    B.Locates name (setEntryCrc p.1.cdHeaderOffset (crc32 f) p.1, p.2) r := by
  have hb := h.bounds
  have hcd := h.cdHeaderOffset_bounds
  -- The checked fields of the local header lie around its CRC field and in front of the content.
  have keep : ∀ i n, i + n ≤ 14 ∨ (18 ≤ i ∧ i + n ≤ 30) →
      slice B.bytes (p.1.localHeaderOffset + i) n =
        slice A.bytes (p.1.localHeaderOffset + i) n := by
    intro i n hi
    rw [hB.bytes]
    exact h.slice_fillBytes hlen (by omega) (by omega) (by omega)
  refine ⟨by rw [hB.room?, h.room]; rfl, h.stored, h.unencrypted, ?_⟩
  obtain ⟨hsig, hflags, hstart, hstop, hroom, -⟩ := contentRange_eq_ok.1 h.content
  refine contentRange_eq_ok.2 ⟨?_, ?_, ?_, hstop, hroom, ?_⟩
  · rw [← hsig]
    exact u32At_congr (keep 0 4 (by omega))
  · rw [setEntryCrc_flags, ← hflags]
    exact u16At_congr (keep 6 2 (by omega))
  · rw [hstart]
    simp only [setEntryCrc_localHeaderOffset, u16At_congr (keep 26 2 (by omega)),
      u16At_congr (keep 28 2 (by omega))]
  · rw [hB.bytes, h.length_fillBytes hlen]
    have hlen := A.length_bytes
    omega

/-- The manifest entry of the directory hash is the same, up to its CRC. -/
theorem manifest? (hB : IsFilled A B p.1 r f) :
    B.manifest? = A.manifest?.map (setEntryCrc p.1.cdHeaderOffset (crc32 f)) := by
  rw [Archive.manifest?, Archive.manifest?, hB.entries, List.find?_map]
  rfl

/-- The directory hash covers the same ranges. -/
theorem centralDirectoryRanges (hB : IsFilled A B p.1 r f) (h : A.Locates name p r)
    (hlen : f.length = r.stop - r.start) {rs : List Range} :
    Binding.centralDirectoryRanges B.bytes = .ok rs ↔
      Binding.centralDirectoryRanges A.bytes = .ok rs := by
  rw [centralDirectoryRanges_eq_ok, centralDirectoryRanges_eq_ok, hB.manifest?, hB.length_data,
    hB.bytes, h.length_fillBytes hlen]
  cases A.manifest? <;> rfl

end IsFilled

/-- The manifest entry of the directory hash is the one that reading and filling locate. -/
theorem manifest?_eq_map_room? (A : Archive) :
    A.manifest? = (A.room? zipManifestPath).map Prod.fst := by
  rw [manifest?, room?, ← A.map_fst_rooms, List.find?_map]
  rfl

end Archive

/-! ## The directory hash -/

/-- What a successful fill leaves unchanged, for the entry `i` of `L` with the content range `r`. -/
structure FillFrame (z f out : List UInt8) (L : ZipLayout) (i : Nat) (r : Range) : Prop where
  layout : parseLayout z = .ok L
  index : Zip.entryIndex L zipManifestPath = some i
  content : entryContentRange z L i = .ok r
  length : out.length = z.length
  outside : ∀ k, (k < r.start ∨ r.stop ≤ k) →
    (k < L.entries[i]!.localHeaderOffset + 14 ∨ L.entries[i]!.localHeaderOffset + 18 ≤ k) →
    (k < L.entries[i]!.cdHeaderOffset + 16 ∨ L.entries[i]!.cdHeaderOffset + 20 ≤ k) →
    out[k]? = z[k]?
  directory : ∃ rs, Binding.centralDirectoryRanges z = .ok rs ∧
    Binding.centralDirectoryRanges out = .ok rs ∧
    ∀ q ∈ rs, slice out q.start (q.stop - q.start) = slice z q.start (q.stop - q.start)
  read : Reader.readManifest out = .ok (some f)

theorem exists_archive_of_fillManifest {z f out : List UInt8}
    (hfill : Writer.fillManifest z f = .ok out) : ∃ A : Archive, A.bytes = z :=
  exists_archive_of_bind hfill

/-- A fill that succeeds finds a content of the same length and writes the filled archive. -/
theorem exists_isFilled_of_fillManifest {z f out : List UInt8}
    (hfill : Writer.fillManifest z f = .ok out) :
    ∃ (A B : Archive) (p : CdEntry × Nat) (r : Range), A.bytes = z ∧ B.bytes = out ∧
      A.Locates zipManifestPath p r ∧ f.length = r.stop - r.start ∧ A.IsFilled B p.1 r f := by
  obtain ⟨A, rfl⟩ := exists_archive_of_fillManifest hfill
  obtain ⟨p, r, hloc, hlen, rfl⟩ := A.fillManifest_eq_ok.1 hfill
  obtain ⟨B, hB⟩ := hloc.exists_filled hlen
  exact ⟨A, B, p, r, rfl, hB.bytes, hloc, hlen, hB⟩

theorem exists_archive_of_readManifest {z : List UInt8} {o : Option (List UInt8)}
    (hread : Reader.readManifest z = .ok o) : ∃ A : Archive, A.bytes = z :=
  exists_archive_of_bind hread

/-- Filling succeeds exactly where a manifest of the same length is read. -/
theorem fillManifest_isOk_iff (z f : List UInt8) :
    (∃ out, Writer.fillManifest z f = .ok out) ↔
      ∃ old, Reader.readManifest z = .ok (some old) ∧ old.length = f.length := by
  constructor
  · rintro ⟨out, hfill⟩
    obtain ⟨A, rfl⟩ := exists_archive_of_fillManifest hfill
    obtain ⟨p, r, hloc, hlen, -⟩ := A.fillManifest_eq_ok.1 hfill
    exact ⟨_, A.readManifestEntry_eq_some.2 ⟨p, r, hloc, rfl⟩, by rw [hloc.length_slice, hlen]⟩
  · rintro ⟨old, hread, hlen⟩
    obtain ⟨A, rfl⟩ := exists_archive_of_readManifest hread
    obtain ⟨p, r, hloc, rfl⟩ := A.readManifestEntry_eq_some.1 hread
    rw [hloc.length_slice] at hlen
    exact ⟨_, A.fillManifest_eq_ok.2 ⟨p, r, hloc, hlen.symm, rfl⟩⟩

/-- The covered directory bytes of a filled archive are those of the archive. -/
theorem Archive.IsFilled.slice_directory {A B : Archive} {p : CdEntry × Nat} {r : Range}
    {f : List UInt8} (hB : IsFilled A B p.1 r f) (h : A.Locates zipManifestPath p r)
    (hlen : f.length = r.stop - r.start) {rs : List Range}
    (hrs : Binding.centralDirectoryRanges A.bytes = .ok rs) :
    ∀ q ∈ rs, slice B.bytes q.start (q.stop - q.start) =
      slice A.bytes q.start (q.stop - q.start) := by
  have hb := h.bounds
  have hcd := h.cdHeaderOffset_bounds
  rw [centralDirectoryRanges_eq_ok, A.manifest?_eq_map_room?, h.room] at hrs
  intro q hq
  rw [hB.bytes]
  rw [hrs] at hq
  rcases List.mem_pair.1 hq with rfl | rfl
  · exact h.slice_fillBytes hlen (by simp only; omega) (by simp only; omega) (by simp only; omega)
  · exact h.slice_fillBytes hlen (by simp only; omega) (by simp only; omega) (by simp only; omega)

/-- **Filling keeps the signed directory hash.** It succeeds exactly where a manifest of the same
length is read, changes nothing but the content and the two CRC fields of that entry, keeps the
covered directory ranges and their bytes, and the new content is read back. -/
theorem fill_keeps_directory_hash (z f : List UInt8) :
    ((∃ out, Writer.fillManifest z f = .ok out) ↔
      ∃ old, Reader.readManifest z = .ok (some old) ∧ old.length = f.length) ∧
    ∀ out, Writer.fillManifest z f = .ok out → ∃ L i r, FillFrame z f out L i r := by
  refine ⟨fillManifest_isOk_iff z f, fun out hfill => ?_⟩
  obtain ⟨A, B, p, r, rfl, rfl, hloc, hlen, hB⟩ := exists_isFilled_of_fillManifest hfill
  have hbytes := hB.bytes
  have hindex := hloc.room
  rw [A.room?_eq_map_entryIndex, Option.map_eq_some_iff] at hindex
  obtain ⟨i, hi, rfl⟩ := hindex
  have hrs := A.centralDirectoryRanges_eq_ok.2 rfl
  refine ⟨A.layout, i, r, A.parseLayout_bytes, hi, hloc.content, ?_, ?_,
    ⟨_, hrs, (hB.centralDirectoryRanges hloc hlen).2 hrs, hB.slice_directory hloc hlen hrs⟩, ?_⟩
  · rw [hbytes, hloc.length_fillBytes hlen]
  · intro k
    rw [hbytes]
    exact hloc.getElem?_fillBytes hlen
  · refine B.readManifestEntry_eq_some.2 ⟨_, r, hB.locates hloc hlen, ?_⟩
    rw [hbytes, hloc.slice_fillBytes_content hlen]

/-- The fill of a one-byte placeholder. -/
theorem fill_keeps_directory_hash_placeholder :
    ∃ out L i r, Writer.fillManifest (buildZip [(zipManifestPath, [0])]) [1] = .ok out ∧
      FillFrame (buildZip [(zipManifestPath, [0])]) [1] out L i r := by
  obtain ⟨hok, hframe⟩ := fill_keeps_directory_hash (buildZip [(zipManifestPath, [0])]) [1]
  have hread : Reader.readManifest (buildZip [(zipManifestPath, [0])]) = .ok (some [0]) := by
    decide +kernel
  obtain ⟨out, hout⟩ := hok.2 ⟨[0], hread, rfl⟩
  obtain ⟨L, i, r, h⟩ := hframe out hout
  exact ⟨out, L, i, r, hout, h⟩

/-! ## The member hashes -/

/-- With a new CRC in the local header, the binding range ends where it did exactly if the CRC is
recorded there, or did not change: a descriptor keeps the old one. -/
theorem bindingEnd_setCrc {z z' : List UInt8} {e : CdEntry} {b stop t t' : Nat} {c : UInt32}
    (hb : b ≤ z.length) (hlen : z'.length = z.length) (hlh : e.localHeaderOffset + 26 ≤ z.length)
    (hcrc : u32At z' (e.localHeaderOffset + 14) = c)
    (hfront : ∀ i, 18 ≤ i → i ≤ 22 →
      slice z' (e.localHeaderOffset + i) 4 = slice z (e.localHeaderOffset + i) 4)
    (hback : ∀ i, stop ≤ i → i + 4 ≤ b → slice z' i 4 = slice z i 4)
    (ht : bindingEnd z e b stop = .ok t) :
    bindingEnd z' { e with crc32 := c } b stop = .ok t' ↔
      t' = t ∧ (e.flags &&& 0x0008 = 0 ∨ c = e.crc32) := by
  -- A descriptor is kept byte for byte, so it agrees with the new CRC only if that is the old one.
  have hsizes : ∀ i, stop ≤ i → i + 12 ≤ b → SizesAt e z i →
      (SizesAt { e with crc32 := c } z' i ↔ c = e.crc32) := by
    rintro i hi hib ⟨h1, h2, h3⟩
    rw [SizesAt, u32At_congr (hback i hi (by omega)),
      u32At_congr (hback (i + 4) (by omega) (by omega)),
      u32At_congr (hback (i + 8) (by omega) (by omega))]
    constructor
    · rintro ⟨h, -, -⟩
      exact h.symm.trans h1
    · intro h
      exact ⟨h1.trans h.symm, h2, h3⟩
  rw [bindingEnd_eq_ok hb hlh] at ht
  rw [bindingEnd_eq_ok (by omega) (by simp only; omega)]
  by_cases hbit : e.flags &&& 0x0008 = 0
  -- The CRC is recorded in the local header, which was rewritten.
  · simp only [hbit, ne_eq, not_true_eq_false, if_false, true_or, and_true] at ht ⊢
    obtain ⟨rfl, -, h2, h3⟩ := ht
    refine and_iff_left ⟨hcrc, ?_, ?_⟩
    · rw [Nat.add_assoc, u32At_congr (hfront 18 (by omega) (by omega)), ← h2, Nat.add_assoc]
    · rw [Nat.add_assoc, u32At_congr (hfront 22 (by omega) (by omega)), ← h3, Nat.add_assoc]
  · simp only [hbit, ne_eq, not_false_eq_true, if_true, false_or] at ht ⊢
    split at ht
    · rename_i hsig
      obtain ⟨rfl, htb, hold⟩ := ht
      have hsig' : stop + 4 ≤ z'.length ∧ u32At z' stop = dataDescriptorSig :=
        ⟨by omega, by rw [u32At_congr (hback stop (by omega) (by omega)), hsig.2]⟩
      rw [if_pos hsig', hsizes _ (by omega) (by omega) hold]
      constructor
      · rintro ⟨ht', -, hc⟩
        exact ⟨ht', hc⟩
      · rintro ⟨ht', hc⟩
        exact ⟨ht', by omega, hc⟩
    · rename_i hsig
      obtain ⟨rfl, htb, hold⟩ := ht
      have hsig' : ¬ (stop + 4 ≤ z'.length ∧ u32At z' stop = dataDescriptorSig) := by
        rintro ⟨-, h⟩
        rw [u32At_congr (hback stop (by omega) (by omega))] at h
        exact hsig ⟨by omega, h⟩
      rw [if_neg hsig', hsizes _ (by omega) (by omega) hold]
      constructor
      · rintro ⟨ht', -, hc⟩
        exact ⟨ht', hc⟩
      · rintro ⟨ht', hc⟩
        exact ⟨ht', by omega, hc⟩

namespace Archive

variable {A B : Archive} {name : String} {p : CdEntry × Nat} {r : Range} {f : List UInt8}

/-- Every room is the located one or lies beside it. -/
theorem Locates.room_cases (h : A.Locates name p r) {q : CdEntry × Nat} (hq : q ∈ A.rooms) :
    q = p ∨ q.1.cdHeaderOffset ≠ p.1.cdHeaderOffset ∧
      (q.2 ≤ p.1.localHeaderOffset ∨ p.2 ≤ q.1.localHeaderOffset) := by
  have hb := h.bounds
  have hroom := h.room
  rw [Archive.room?, List.find?_eq_some_iff_append] at hroom
  obtain ⟨hname, pre, post, hrooms, hpre⟩ := hroom
  have hentry : q.1.cdHeaderOffset = p.1.cdHeaderOffset → q.1 = p.1 :=
    eq_of_cdHeaderOffset_eq ((mem_sortByKey _).1 (A.room_fst_mem hq))
      ((mem_sortByKey _).1 (A.room_fst_mem (A.room?_mem h.room)))
  have hpair := A.pairwise_rooms
  rw [hrooms, List.pairwise_append] at hpair
  obtain ⟨-, hpost, hcross⟩ := hpair
  rw [hrooms, List.mem_append, List.mem_cons] at hq
  rcases hq with hq | rfl | hq
  · -- An earlier room has another name.
    refine Or.inr ⟨fun heq => ?_, Or.inl (hcross q hq p List.mem_cons_self)⟩
    have hne := hpre q hq
    rw [hentry heq] at hne
    simp [hname] at hne
  · exact Or.inl rfl
  · -- A later room starts behind the content of the located entry.
    have hle := List.rel_of_pairwise_cons hpost hq
    refine Or.inr ⟨fun heq => ?_, Or.inr hle⟩
    rw [hentry heq] at hle
    omega

/-- Beside the located room nothing changes. -/
theorem IsFilled.bindingRange_of_ne (hB : IsFilled A B p.1 r f) (h : A.Locates name p r)
    (hlen : f.length = r.stop - r.start) {q : CdEntry × Nat} (hq : q ∈ A.rooms)
    (hne : q.1.cdHeaderOffset ≠ p.1.cdHeaderOffset)
    (hbeside : q.2 ≤ p.1.localHeaderOffset ∨ p.2 ≤ q.1.localHeaderOffset) {t : Range} :
    bindingRange B.bytes (setEntryCrc p.1.cdHeaderOffset (crc32 f) q.1) q.2 = .ok t ↔
      bindingRange A.bytes q.1 q.2 = .ok t := by
  have hb := h.bounds
  have hcd := h.cdHeaderOffset_bounds
  have hroom := A.room_le hq
  have hbytes := A.room_le_bytes hq
  rw [setEntryCrc_of_ne _ hne]
  have hbytes' : q.2 ≤ B.bytes.length := by
    rw [hB.bytes, h.length_fillBytes hlen]
    exact hbytes
  apply bindingRange_congr hbytes' hbytes
  intro k hk hkb
  rw [hB.bytes]
  exact h.getElem?_fillBytes hlen (by omega) (by omega) (by omega)

/-- The located entry keeps its binding range exactly if no descriptor records another CRC. -/
theorem IsFilled.bindingRange_located (hB : IsFilled A B p.1 r f) (h : A.Locates name p r)
    (hlen : f.length = r.stop - r.start) {t t' : Range}
    (ht : bindingRange A.bytes p.1 p.2 = .ok t) :
    bindingRange B.bytes (setEntryCrc p.1.cdHeaderOffset (crc32 f) p.1) p.2 = .ok t' ↔
      t' = t ∧ (p.1.flags &&& 0x0008 = 0 ∨ crc32 f = p.1.crc32) := by
  have hb := h.bounds
  have hcd := h.cdHeaderOffset_bounds
  have hbytes := A.length_bytes
  have hcontent := (hB.locates h hlen).content
  simp only [bindingRange, h.content, bind_eq_ok, Except.ok.injEq, exists_eq_left',
    pure_eq_ok] at ht
  obtain ⟨t₀, ht₀, rfl⟩ := ht
  simp only [bindingRange, hcontent, bind_eq_ok, Except.ok.injEq, exists_eq_left', pure_eq_ok]
  rw [setEntryCrc_self]
  have hend : ∀ t₁, bindingEnd B.bytes { p.1 with crc32 := crc32 f } p.2 r.stop = .ok t₁ ↔
      t₁ = t₀ ∧ (p.1.flags &&& 0x0008 = 0 ∨ crc32 f = p.1.crc32) := by
    intro t₁
    refine bindingEnd_setCrc (z := A.bytes) (by omega) ?_ (by omega) ?_ ?_ ?_ ht₀
    · rw [hB.bytes, h.length_fillBytes hlen]
    · rw [hB.bytes, h.u32At_fillBytes_crc hlen]
    · intro i h1 h2
      rw [hB.bytes, h.slice_fillBytes hlen (by omega) (by omega) (by omega)]
    · intro i h1 h2
      rw [hB.bytes, h.slice_fillBytes hlen (by omega) (by omega) (by omega)]
  constructor
  · rintro ⟨t₁, ht₁, rfl⟩
    obtain ⟨rfl, hcond⟩ := (hend t₁).1 ht₁
    exact ⟨rfl, hcond⟩
  · rintro ⟨rfl, hcond⟩
    exact ⟨t₀, (hend t₀).2 ⟨rfl, hcond⟩, rfl⟩

/-- The member loop returns the same ranges in the filled archive exactly if no descriptor of the
located entry records another CRC; otherwise it fails. -/
theorem IsFilled.memberRanges (hB : IsFilled A B p.1 r f) (h : A.Locates name p r)
    (hlen : f.length = r.stop - r.start) {ms ms' : List (String × Range)}
    (hms : Zip.memberRanges A.bytes = .ok ms) :
    Zip.memberRanges B.bytes = .ok ms' ↔
      ms' = ms ∧ (p.1.flags &&& 0x0008 = 0 ∨ crc32 f = p.1.crc32) := by
  rw [memberRanges_eq_ok] at hms
  -- Room by room: beside the located entry nothing changes.
  have hround : ∀ q ∈ A.rooms, ∀ t t' : Range, bindingRange A.bytes q.1 q.2 = .ok t →
      (bindingRange B.bytes (setEntryCrc p.1.cdHeaderOffset (crc32 f) q.1) q.2 = .ok t' →
        t' = t) ∧
      (p.1.flags &&& 0x0008 = 0 ∨ crc32 f = p.1.crc32 →
        bindingRange B.bytes (setEntryCrc p.1.cdHeaderOffset (crc32 f) q.1) q.2 = .ok t) := by
    intro q hq t t' ht
    rcases h.room_cases hq with rfl | ⟨hne, hbeside⟩
    · constructor
      · intro ht'
        exact ((hB.bindingRange_located h hlen ht).1 ht').1
      · intro hcond
        exact (hB.bindingRange_located h hlen ht).2 ⟨rfl, hcond⟩
    · have hkeep := fun t => hB.bindingRange_of_ne h hlen hq hne hbeside (t := t)
      constructor
      · intro ht'
        have hold := (hkeep t').1 ht'
        rw [ht] at hold
        exact (Except.ok.inj hold).symm
      · intro _
        exact (hkeep t).2 ht
  rw [memberRanges_eq_ok, hB.rooms, List.forall₂_map_left_iff]
  constructor
  · intro hms'
    obtain ⟨m', -, -, hm', -⟩ := exists_right_of_forall₂ hms' (A.room?_mem h.room)
    obtain ⟨m, -, -, hm, -⟩ := exists_right_of_forall₂ hms (A.room?_mem h.room)
    refine ⟨eq_of_forall₂ hms hms' ?_, ((hB.bindingRange_located h hlen hm).1 hm').2⟩
    rintro q hq x y ⟨-, hr, hn⟩ ⟨-, hr', hn'⟩
    exact Prod.ext (hn'.trans hn.symm) ((hround q hq _ _ hr).1 hr')
  · rintro ⟨rfl, hcond⟩
    refine ((List.forall₂_and_left _ _).2 ⟨fun q (hq : q ∈ A.rooms) => hq, hms⟩).imp ?_
    rintro q m ⟨hmem, hv, hr, hn⟩
    exact ⟨hv, (hround q hmem m.2 m.2 hr).2 hcond, hn⟩

/-- The bytes of the other members are kept. -/
theorem IsFilled.slice_member (hB : IsFilled A B p.1 r f) (h : A.Locates name p r)
    (hlen : f.length = r.stop - r.start) {q : CdEntry × Nat} (hq : q ∈ A.rooms)
    (hname : q.1.name ≠ name) {t : Range} (ht : bindingRange A.bytes q.1 q.2 = .ok t) :
    slice B.bytes t.start (t.stop - t.start) = slice A.bytes t.start (t.stop - t.start) := by
  have hb := h.bounds
  have hcd := h.cdHeaderOffset_bounds
  have hroom := A.room_le hq
  obtain ⟨hstart, hle, hstop, -⟩ := (bindingRange_eq_ok (A.room_le_bytes hq)).1 ht
  rcases h.room_cases hq with rfl | ⟨-, hbeside⟩
  · exact absurd (A.room?_name h.room) hname
  · rw [hB.bytes]
    exact h.slice_fillBytes hlen (by omega) (by omega) (by omega)

end Archive

/-- **Filling keeps the member hashes exactly if no data descriptor records another CRC:** the first
manifest entry has bit 3 clear, or the new content has the old CRC. -/
theorem fill_keeps_members_iff {z f out : List UInt8} {ms : List Binding.Member}
    (hms : Binding.collectionMembers z = .ok ms) (hfill : Writer.fillManifest z f = .ok out) :
    (Binding.collectionMembers out = .ok ms ∧ ∀ m ∈ ms,
      slice out m.content.start (m.content.stop - m.content.start) =
        slice z m.content.start (m.content.stop - m.content.start)) ↔
    ∃ L e, parseLayout z = .ok L ∧ L.entries.find? (fun e => e.name = zipManifestPath) = some e ∧
      (e.flags &&& 0x0008 = 0 ∨ crc32 f = e.crc32) := by
  obtain ⟨A, B, p, r, rfl, rfl, hloc, hlen, hB⟩ := exists_isFilled_of_fillManifest hfill
  obtain ⟨rs, hrs, rfl⟩ := collectionMembers_eq_ok.1 hms
  have hfirst : A.entries.find? (fun e => e.name = zipManifestPath) = some p.1 := by
    have hmap := A.manifest?_eq_map_room?
    rwa [hloc.room] at hmap
  constructor
  · rintro ⟨hout, -⟩
    obtain ⟨rs', hrs', -⟩ := collectionMembers_eq_ok.1 hout
    exact ⟨A.layout, p.1, A.parseLayout_bytes, hfirst, ((hB.memberRanges hloc hlen hrs).1 hrs').2⟩
  · rintro ⟨L, e, hL, he, hcond⟩
    obtain rfl := Except.ok.inj (A.parseLayout_bytes.symm.trans hL)
    obtain rfl := Option.some.inj (hfirst.symm.trans he)
    refine ⟨collectionMembers_eq_ok.2 ⟨rs, (hB.memberRanges hloc hlen hrs).2 ⟨rfl, hcond⟩, rfl⟩, ?_⟩
    intro m hm
    obtain ⟨x, hx, rfl⟩ := List.mem_map.1 hm
    obtain ⟨hx, hname⟩ := List.mem_filter.1 hx
    obtain ⟨q, hq, -, hr, hn⟩ := exists_left_of_forall₂ (A.memberRanges_eq_ok.1 hrs) hx
    exact hB.slice_member hloc hlen hq (by rw [← hn]; simpa using hname) hr

/-- Filling a stored placeholder beside a member keeps that member's hash. -/
theorem fill_keeps_members_stored :
    (Binding.collectionMembers (buildZip [("a", [7]), (zipManifestPath, [1])]) =
        .ok [⟨"a", ⟨0, 32⟩⟩] ∧ ∀ m ∈ [(⟨"a", ⟨0, 32⟩⟩ : Binding.Member)],
      slice (buildZip [("a", [7]), (zipManifestPath, [1])]) m.content.start
          (m.content.stop - m.content.start) =
        slice (buildZip [("a", [7]), (zipManifestPath, [0])]) m.content.start
          (m.content.stop - m.content.start)) ↔
    ∃ L e, parseLayout (buildZip [("a", [7]), (zipManifestPath, [0])]) = .ok L ∧
      L.entries.find? (fun e => e.name = zipManifestPath) = some e ∧
      (e.flags &&& 0x0008 = 0 ∨ crc32 [1] = e.crc32) :=
  fill_keeps_members_iff (by decide +kernel) (by decide +kernel)

/-- An archive whose one manifest byte is followed by a descriptor that records the CRC of a zero
byte; `crc` stands in both headers. -/
def describedManifest (content : UInt8) (crc : UInt32) : List UInt8 :=
  let nameB := asBytes zipManifestPath
  let header := overwrite (writeLocalHeader [] nameB crc 1 32) 6 (u16ToLe 8)
  let descriptor := u32ToLe dataDescriptorSig ++ (u32ToLe (crc32 [0]) ++ (u32ToLe 1 ++ u32ToLe 1))
  let directory := overwrite (writeCdHeader [] nameB crc 1 32 0) 8 (u16ToLe 8)
  writeEocd (header ++ (content :: descriptor) ++ directory) 1 78 79

/-- Filling leaves the CRC of a descriptor behind, and the members are lost. -/
theorem fill_loses_described_members :
    Binding.collectionMembers (describedManifest 0 (crc32 [0])) = .ok [] ∧
      Writer.fillManifest (describedManifest 0 (crc32 [0])) [1] =
        .ok (describedManifest 1 (crc32 [1])) ∧
      Binding.collectionMembers (describedManifest 1 (crc32 [1])) =
        .error .malformedDataDescriptor := by
  decide +kernel

end C2paZip
