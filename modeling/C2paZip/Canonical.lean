import C2paZip.Archive.Carried

/-!
# What determines an archive

The format is unambiguous: an accepted input is the bytes of exactly one `Archive`
(`parse_determines_archive`). A removal determines what it keeps and is determined by it, since
items are read off the bytes that are assembled from them (`assembled_inj`): two removals write the
same bytes exactly where the kept entries have the same directory headers, up to their offsets, and
the same records (`removals_agree_iff`).
-/

set_option autoImplicit false

namespace C2paZip

open Library

/-! ## One archive -/

namespace Archive

/-- **The format is unambiguous.** -/
theorem bytes_injective : Function.Injective bytes := by
  intro A B h
  have hfront := h
  rw [bytes_eq_append_eocd, bytes_eq_append_eocd] at hfront
  have heocd := eocd_eq_of_append hfront
  obtain ⟨hdata, hcount⟩ := sizes_of_eocd_eq heocd
  -- The EOCD fixes where the directory starts, and a header is self-delimiting.
  obtain ⟨hd, hrest⟩ := List.append_inj h hdata
  obtain ⟨hh, hgap⟩ := dirBytes_append_inj hcount hrest
  rw [heocd] at hgap
  have hg := List.append_cancel_right hgap
  cases A
  cases B
  simp only at hd hh hg heocd
  subst hd hh hg heocd
  rfl

end Archive

/-- **The parser accepts an input with the layout `L` exactly where the input is the bytes of one
archive, and of one only, and `L` is the layout of that archive.** -/
theorem parse_determines_archive (z : List UInt8) (L : ZipLayout) :
    parseLayout z = .ok L ↔
      ∃ A : Archive, A.bytes = z ∧ A.layout = L ∧ ∀ B : Archive, B.bytes = z → B = A := by
  constructor
  · intro hL
    obtain ⟨A, hA, hlayout⟩ := exists_archive_of_parseLayout hL
    exact ⟨A, hA, hlayout, fun B hB => Archive.bytes_injective (hB.trans hA.symm)⟩
  · rintro ⟨A, rfl, rfl, -⟩
    exact A.parseLayout_bytes

/-! ## Items -/

/-- The directory header of an entry with its local-header offset zeroed. -/
def unplacedHeader (z : List UInt8) (e : CdEntry) : List UInt8 :=
  overwrite (slice z e.cdHeaderOffset e.cdHeaderLen) 42 (u32ToLe 0)

/-- Items are equal that have the same bytes. -/
theorem Item.ext {it it' : Item} (hheader : it.header = it'.header) (hbody : it.body = it'.body) :
    it = it' := by
  cases it
  cases it'
  simp only at hheader hbody
  subst hheader hbody
  rfl

namespace ItemAt

variable {z : List UInt8} {p : CdEntry × Nat} {it : Item}

theorem unplacedHeader_eq (h : ItemAt z p it) : unplacedHeader z p.1 = it.header.bytes := by
  have hpatched := h.header_patched 0
  rw [Item.headerAt] at hpatched
  rw [unplacedHeader, ← it.normal]
  exact hpatched

/-- An item is determined by its unplaced header and its record. -/
theorem eq_iff {z' : List UInt8} {p' : CdEntry × Nat} {it' : Item} (h : ItemAt z p it)
    (h' : ItemAt z' p' it') : it = it' ↔ unplacedHeader z p.1 = unplacedHeader z' p'.1 ∧
      ∃ r r', bindingRange z p.1 p.2 = .ok r ∧ bindingRange z' p'.1 p'.2 = .ok r' ∧
        slice z r.start (r.stop - r.start) = slice z' r'.start (r'.stop - r'.start) := by
  obtain ⟨r, hr, hbody⟩ := h.range
  obtain ⟨r', hr', hbody'⟩ := h'.range
  rw [h.unplacedHeader_eq, h'.unplacedHeader_eq]
  constructor
  · rintro rfl
    exact ⟨rfl, r, r', hr, hr', hbody.trans hbody'.symm⟩
  · rintro ⟨hheader, s, s', hs, hs', hslice⟩
    obtain rfl := Except.ok.inj (hr.symm.trans hs)
    obtain rfl := Except.ok.inj (hr'.symm.trans hs')
    rw [hbody, hbody'] at hslice
    exact Item.ext (CdHeader.ext hheader) hslice

end ItemAt

/-- Placed items are determined by their headers and the joined records: the offsets in the headers
say where one record ends and the next one starts. -/
theorem placeHeaders_inj {items items' : List Item} {off : Nat}
    (hoff : off + (bodies items).length < 2 ^ 32) (hbodies : bodies items = bodies items')
    (hheaders : placeHeaders off items = placeHeaders off items') : items = items' := by
  induction items generalizing items' off with
  | nil =>
      cases items' with
      | nil => rfl
      | cons it' items' => cases hheaders
  | cons it items ih =>
      cases items' with
      | nil => cases hheaders
      | cons it' items' =>
          obtain ⟨hhead, htail⟩ := List.cons.inj hheaders
          have hlen := congrArg List.length hbodies
          simp only [bodies_cons, List.length_append] at hoff hlen
          -- The records end in the same place.
          have hend : it.body.length = it'.body.length := by
            cases items with
            | nil =>
                cases items' with
                | nil => simpa using hlen
                | cons j' js' => cases htail
            | cons j js =>
                cases items' with
                | nil => cases htail
                | cons j' js' =>
                    have hnext := congrArg CdHeader.localOffset (List.cons.inj htail).1
                    rw [j.headerAt_localOffset (by omega), j'.headerAt_localOffset (by omega)]
                      at hnext
                    omega
          obtain ⟨hbody, hrest⟩ := List.append_inj hbodies hend
          rw [← hend] at htail
          have hheader : it.header = it'.header := by
            have hzero := congrArg (CdHeader.patchOffset · 0) hhead
            simpa only [Item.headerAt, CdHeader.patchOffset_patchOffset, Item.normal] using hzero
          rw [Item.ext hheader hbody, ih (by omega) hrest htail]

/-- The count and the sizes of the items fit their fields, the sentinels included. -/
structure FillsFields (items : List Item) : Prop where
  count : items.length < 2 ^ 16
  data : (bodies items).length < 2 ^ 32
  directory : (directory items).length < 2 ^ 32

/-- Items are determined by the bytes assembled from them, also where the parser rejects these. -/
theorem assembled_inj {items items' : List Item} (h : FillsFields items)
    (h' : FillsFields items') : assembled items = assembled items' ↔ items = items' := by
  constructor
  · intro heq
    have hlen := congrArg List.length heq
    rw [assembled, assembled, length_writeEocd, length_writeEocd] at hlen
    rw [assembled, assembled, writeEocd_eq, writeEocd_eq (_ ++ _)] at heq
    obtain ⟨hfront, heocd⟩ := List.append_inj heq (by omega)
    have htotal := congrArg (u16At · 10) heocd
    have hstart := congrArg (u32At · 16) heocd
    simp only [u16At_writeEocd_total, u32At_writeEocd_start] at htotal hstart
    -- The record has the number of the items and the length of their records.
    have hcount : items.length = items'.length := by
      rw [← u16_toNat_ofNat h.count, htotal, u16_toNat_ofNat h'.count]
    have hdata : (bodies items).length = (bodies items').length := by
      rw [← u32_toNat_ofNat h.data, hstart, u32_toNat_ofNat h'.data]
    obtain ⟨hbodies, hdir⟩ := List.append_inj hfront hdata
    have happend : dirBytes (placeHeaders 0 items) ++ [] =
        dirBytes (placeHeaders 0 items') ++ [] := by
      rw [List.append_nil, List.append_nil]
      exact hdir
    obtain ⟨hheaders, -⟩ := dirBytes_append_inj
      (by rw [length_placeHeaders, length_placeHeaders, hcount]) happend
    exact placeHeaders_inj (by rw [Nat.zero_add]; exact h.data) hbodies hheaders
  · rintro rfl
    rfl

/-! ## What a removal determines -/

/-- Entry `i` of `z` and entry `j` of `z'` have the same directory header, up to the local-header
offset, and the same bytes in their binding ranges. -/
def SameRecord (z : List UInt8) (L : ZipLayout) (z' : List UInt8) (L' : ZipLayout) (i j : Nat) :
    Prop :=
  unplacedHeader z L.entries[i]! = unplacedHeader z' L'.entries[j]! ∧
    ∃ r r', entryBindingRange z L i = .ok r ∧ entryBindingRange z' L' j = .ok r' ∧
      slice z r.start (r.stop - r.start) = slice z' r'.start (r'.stop - r'.start)

/-- What a removal keeps fits the fields it is written to. -/
theorem Archive.Carries.fillsFields {A : Archive} {items : List Item} {name : String}
    (hA : A.Carries items) (hdir : (directory (kept name items)).length < 2 ^ 32) :
    FillsFields (kept name items) := by
  have hheaders := A.headers_length_lt
  have hdata := A.data_length_lt
  obtain ⟨hcount, hbodies, -⟩ := hA.kept_le name
  exact ⟨by omega, by omega, hdir⟩

/-- **A removal writes what it keeps, and nothing else**: two removals, from whatever archives,
write the same bytes exactly where they keep the same records in the same order. -/
theorem removals_agree_iff {z z' out out' : List UInt8} {name name' : String} {L L' : ZipLayout}
    (hL : parseLayout z = .ok L) (hL' : parseLayout z' = .ok L')
    (hname : ∃ e ∈ L.entries, e.name = name) (hname' : ∃ e ∈ L'.entries, e.name = name')
    (hout : Zip.removeZipEntry z name = .ok out)
    (hout' : Zip.removeZipEntry z' name' = .ok out') :
    out = out' ↔ List.Forall₂ (SameRecord z L z' L') (otherEntries L name)
      (otherEntries L' name') := by
  obtain ⟨A, rfl, rfl⟩ := exists_archive_of_parseLayout hL
  obtain ⟨B, rfl, rfl⟩ := exists_archive_of_parseLayout hL'
  obtain ⟨items, hA⟩ := exists_carries_of_removeZipEntry hname hout
  obtain ⟨items', hB⟩ := exists_carries_of_removeZipEntry hname' hout'
  obtain ⟨hdir, rfl⟩ := (removeZipEntry_eq_ok hA hname).1 hout
  obtain ⟨hdir', rfl⟩ := (removeZipEntry_eq_ok hB hname').1 hout'
  rw [assembled_inj (hA.fillsFields hdir) (hB.fillsFields hdir')]
  have hkeptA := hA.forall₂_otherEntries name
  have hkeptB := hB.forall₂_otherEntries name'
  constructor
  · intro heq
    rw [← heq] at hkeptB
    refine (forall₂_join hkeptA hkeptB).imp ?_
    rintro i j ⟨it, hi, hj⟩
    exact (hi.eq_iff hj).1 rfl
  · intro hsame
    -- Along the indices on both sides, every item meets its equal.
    have hitems := forall₂_join (forall₂_join hkeptA.flip hsame.flip) hkeptB.flip
    refine List.forall₂_eq_eq_eq ▸ hitems.imp ?_
    rintro it it' ⟨j, ⟨i, hi, hij⟩, hj⟩
    exact (ItemAt.eq_iff hi hj).2 hij

/-- Removing the other member from either archive leaves the same one. -/
theorem removals_agree_one_member :
    List.Forall₂ (SameRecord (buildZip [("a", [7]), ("b", [1])])
      { entries := [⟨"a", 0, 0, crc32 [7], 1, 1, 0, 64, 47⟩,
          ⟨"b", 0, 0, crc32 [1], 1, 1, 32, 111, 47⟩]
        cdStart := 64
        eocdOffset := 158 }
      (buildZip [("c", [2, 3]), ("a", [7])])
      { entries := [⟨"c", 0, 0, crc32 [2, 3], 2, 2, 0, 65, 47⟩,
          ⟨"a", 0, 0, crc32 [7], 1, 1, 33, 112, 47⟩]
        cdStart := 65
        eocdOffset := 159 }) [0] [1] := by
  have hb : Zip.removeZipEntry (buildZip [("a", [7]), ("b", [1])]) "b" =
      .ok (buildZip [("a", [7])]) := by decide +kernel
  have hc : Zip.removeZipEntry (buildZip [("c", [2, 3]), ("a", [7])]) "c" =
      .ok (buildZip [("a", [7])]) := by decide +kernel
  exact (removals_agree_iff (by decide +kernel) (by decide +kernel) (by decide) (by decide) hb
    hc).1 rfl

end C2paZip
