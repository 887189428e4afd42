import C2paZip.Accounted
import C2paZip.Embed
import C2paZip.Fill
import Mathlib.Data.List.Pairwise

/-!
# Edits and lookups on items

What the operations do to an archive that carries items, in terms of the items: inserting adds an
item behind the others (`IsInserted.carries`), filling replaces one item
(`IsFilled.exists_replaced`), a lookup by name finds the first item of that name
(`Carries.readZipEntryContent_eq`), and the hashed members are the items with another name than the
manifest (`Carries.memberInputs_eq`).
-/

set_option autoImplicit false

namespace C2paZip

open Library

/-- What the collection hash covers: the name and the bytes of every member. -/
def memberInputs (bytes : List UInt8) : Except Error (List (String × List UInt8)) := do
  let members ← Binding.collectionMembers bytes
  return members.map fun m =>
    (m.name, slice bytes m.content.start (m.content.stop - m.content.start))

/-- One round of the loop of `member_ranges`, over rooms. -/
def memberRound (bytes : List UInt8) (p : CdEntry × Nat) : Except Error (String × Range) := do
  Zip.validateMemberUri p.1.name
  let range ← bindingRange bytes p.1 p.2
  return (p.1.name, range)

/-- Name and bytes of the ranges that are not called like the manifest. -/
def membersOf (bytes : List UInt8) (ranges : List (String × Range)) : List (String × List UInt8) :=
  (ranges.filter fun m => m.1 ≠ zipManifestPath).map fun m =>
    (m.1, slice bytes m.2.start (m.2.stop - m.2.start))

/-- What the collection hash covers of an item. -/
def Item.input (it : Item) : Except Error (String × List UInt8) := do
  Zip.validateMemberUri it.header.name
  return (it.header.name, it.body)

/-- The content of an item: what stands behind its local header, as long as its directory header
says. -/
def Item.content (it : Item) : List UInt8 :=
  slice it.body (contentStart it.body) it.header.compressedSize

namespace ItemAt

variable {z : List UInt8} {p : CdEntry × Nat} {it : Item}

/-- Every field of the entry but its positions is a field of the item. -/
theorem fields (h : ItemAt z p it) : p.1 =
    { it.header.entry p.1.cdHeaderOffset with localHeaderOffset := p.1.localHeaderOffset } := by
  have he := h.entry
  rw [Item.headerAt, CdHeader.patchOffset_entry] at he
  have hoff := congrArg CdEntry.localHeaderOffset he
  simp only at hoff
  rw [← hoff] at he
  exact he

/-- The content range holds the content of the item. -/
theorem contentRange_eq (h : ItemAt z p it) (hp : p.2 ≤ z.length) :
    contentRange z p.1 p.2 = .ok ⟨p.1.localHeaderOffset + contentStart it.body,
        p.1.localHeaderOffset + contentStart it.body + it.header.compressedSize⟩ ∧
      slice z (p.1.localHeaderOffset + contentStart it.body) it.header.compressedSize =
        it.content := by
  obtain ⟨r, hr, hbody⟩ := h.range
  obtain ⟨hstart, hle, hstop, hm⟩ := (bindingRange_eq_ok hp).1 hr
  have hsize : p.1.compressedSize = it.header.compressedSize := by
    rw [h.fields]
    rfl
  have hcontent := contentRange_of_bindingRange hp hr
  have hin := hm.content_le
  rw [hbody, hstart, hsize] at hcontent
  refine ⟨hcontent, ?_⟩
  have hlen : (slice z r.start (r.stop - r.start)).length = r.stop - r.start :=
    length_slice (by omega)
  rw [hsize, hlen, hbody] at hin
  rw [Item.content, ← hbody, slice_slice (by rw [hbody]; exact hin), hbody, hstart]

/-- The bytes of the content range are the content of the item. -/
theorem getRange_content (h : ItemAt z p it) (hp : p.2 ≤ z.length) :
    ∃ r, contentRange z p.1 p.2 = .ok r ∧ r.stop - r.start = it.content.length ∧
      getRange z r.start r.stop = some it.content := by
  obtain ⟨hcontent, hslice⟩ := h.contentRange_eq hp
  obtain ⟨-, -, -, -, -, hlen⟩ := contentRange_eq_ok.1 hcontent
  refine ⟨_, hcontent, ?_, getRange_eq_some.2 ⟨Nat.le_add_right _ _, hlen, ?_⟩⟩
  · rw [← hslice, Nat.add_sub_cancel_left]
    exact (length_slice (by simpa using hlen)).symm
  · rw [Nat.add_sub_cancel_left]
    exact hslice

theorem method (h : ItemAt z p it) : p.1.method = it.header.method := by
  rw [h.fields]
  rfl

theorem flags (h : ItemAt z p it) : p.1.flags = it.header.flags := by
  rw [h.fields]
  rfl

theorem crc32 (h : ItemAt z p it) : p.1.crc32 = it.header.crc32 := by
  rw [h.fields]
  rfl

end ItemAt

namespace Archive

/-- Nothing is dropped with a name that no entry has. -/
theorem Carries.kept_of_absent {A : Archive} {name : String} {items : List Item}
    (hA : A.Carries items) (hnone : ∀ d ∈ A.entries, d.name ≠ name) : kept name items = items := by
  refine List.filter_eq_self.2 fun it hit => decide_eq_true fun hn => ?_
  obtain ⟨d, hd, hdn⟩ := hA.exists_name_iff.2 ⟨it, hit, hn⟩
  exact hnone d hd hdn

theorem kept_append (name : String) (items items' : List Item) :
    kept name (items ++ items') = kept name items ++ kept name items' :=
  List.filter_append _ _

/-! ## Headers in the directory -/

/-- The header behind `pre` stands in the directory. -/
theorem slice_header (A : Archive) {pre post : List CdHeader} {h : CdHeader}
    (hs : A.headers = pre ++ h :: post) :
    slice A.bytes (A.data.length + (dirBytes pre).length) h.bytes.length = h.bytes := by
  have hm := slice_append_middle (A.data ++ dirBytes pre) h.bytes
    (dirBytes post ++ (A.gap ++ A.eocd))
  rw [List.length_append] at hm
  rw [bytes, hs, dirBytes_append, dirBytes_cons]
  simpa only [List.append_assoc] using hm

/-- The headers of two entries do not overlap. -/
theorem cdHeader_disjoint (A : Archive) {e f : CdEntry} (he : e ∈ A.entries) (hf : f ∈ A.entries)
    (hne : e.cdHeaderOffset ≠ f.cdHeaderOffset) :
    e.cdHeaderOffset + e.cdHeaderLen ≤ f.cdHeaderOffset ∨
      f.cdHeaderOffset + f.cdHeaderLen ≤ e.cdHeaderOffset := by
  have hpairs : A.walk.Pairwise fun a b => a.cdHeaderOffset + a.cdHeaderLen ≤ b.cdHeaderOffset ∨
      b.cdHeaderOffset + b.cdHeaderLen ≤ a.cdHeaderOffset :=
    (tiles_placeEntries A.data.length A.headers).pairwise.imp Or.inl
  have : Std.Symm fun a b : CdEntry => a.cdHeaderOffset + a.cdHeaderLen ≤ b.cdHeaderOffset ∨
      b.cdHeaderOffset + b.cdHeaderLen ≤ a.cdHeaderOffset := ⟨fun _ _ => Or.symm⟩
  refine hpairs.forall ((mem_sortByKey _).1 he) ((mem_sortByKey _).1 hf) ?_
  rintro rfl
  exact hne rfl

/-! ## Inserting -/

section Insert

variable {A B : Archive} {name : String} {content : List UInt8} {items : List Item}
  {hname : (asBytes name).length < 2 ^ 16} {hsize : content.length < 2 ^ 32 - 1}

namespace IsInserted

variable (h : IsInserted A B name content (A.newHeader hname hsize))

include h

/-- An old entry is the same item in the result. -/
theorem itemAt_old {q : CdEntry × Nat} {it : Item} (hq : q ∈ A.rooms) (hit : ItemAt A.bytes q it) :
    ItemAt B.bytes (q.1.shift (30 + (asBytes name).length + content.length), q.2) it := by
  have hlen := h.length_data
  obtain ⟨r, hr, hbody⟩ := hit.range
  obtain ⟨-, hle, hstop, -⟩ := (bindingRange_eq_ok (A.room_le_bytes hq)).1 hr
  have hroom := A.room_le hq
  refine ⟨?_, ?_, r, (h.bindingRange_old hq _).2 hr, ?_⟩
  · exact congrArg (CdEntry.shift _) hit.entry
  · -- The header of the entry is the same header of the longer directory.
    obtain ⟨pre, k, post, hs, he⟩ := A.exists_header (A.room_fst_mem hq)
    have hsB : B.headers = pre ++ k :: (post ++ [A.newHeader hname hsize]) := by
      rw [h.headers, hs, List.append_assoc, List.cons_append]
    have hpos : q.1.cdHeaderOffset = A.data.length + (dirBytes pre).length := by rw [he]; rfl
    have hklen : q.1.cdHeaderLen = k.bytes.length := by rw [he]; rfl
    have hposB : A.data.length + (dirBytes pre).length +
        (30 + (asBytes name).length + content.length) = B.data.length + (dirBytes pre).length := by
      omega
    have hold := hit.header
    rw [hpos, hklen, A.slice_header hs] at hold
    simp only [CdEntry.shift]
    rw [hpos, hklen, hposB, B.slice_header hsB, hold]
  · rw [← hbody]
    exact slice_congr fun i _ hi => h.getElem?_bytes (by omega)

/-- The new entry is the inserted item. -/
theorem itemAt_new :
    ItemAt B.bytes (h.entry, B.data.length) (storedItem name content hname hsize) := by
  have hlen := h.length_data
  have hoff : h.entry.localHeaderOffset = A.data.length := by rw [h.entry_eq]
  have hheader : (storedItem name content hname hsize).headerAt A.data.length =
      A.newHeader hname hsize :=
    patchOffset_storedHeader _ hname hsize _
  refine ⟨?_, ?_, _, h.bindingRange_new, ?_⟩
  · rw [hoff, hheader]
    rfl
  · rw [hoff, hheader]
    exact B.slice_header h.headers
  · simp only
    rw [hlen, Nat.add_sub_cancel_left]
    exact h.slice_record

/-- **Inserting adds an item behind the others.** -/
theorem carries (hA : A.Carries items) :
    B.Carries (items ++ [storedItem name content hname hsize]) := by
  rw [Carries, h.rooms]
  refine List.rel_append ?_ (List.Forall₂.cons h.itemAt_new List.Forall₂.nil)
  exact List.forall₂_map_left_iff.2 (forall₂_imp_mem hA fun q hq it hit => h.itemAt_old hq hit)

end IsInserted

/-- **A stored item behind others of another name is what the lookup locates.** -/
theorem Carries.locates_stored
    (hA : A.Carries (items ++ [storedItem name content hname hsize]))
    (hother : ∀ it ∈ items, it.header.name ≠ name) :
    ∃ p r, A.Locates name p r ∧ p.1.flags = 0 ∧
      slice A.bytes r.start (r.stop - r.start) = content := by
  obtain ⟨ps, p, hps, hp, hrooms⟩ := forall₂_concat_left.1 hA.flip
  have hmem : p ∈ A.rooms := by
    rw [hrooms]
    exact List.mem_append_right _ List.mem_cons_self
  have hentry := hp.entry
  simp only [Item.headerAt, storedItem, patchOffset_storedHeader, storedHeader_entry] at hentry
  obtain ⟨hcontent, hslice⟩ := hp.content_stored (A.room_le_bytes hmem)
  have hflags : p.1.flags = 0 := by rw [hentry]
  refine ⟨p, _, ⟨?_, by rw [hentry], by rw [hflags]; decide, hcontent⟩, hflags, ?_⟩
  · -- The other items in front have other names.
    have hnone : ps.find? (fun q => q.1.name = name) = none := by
      apply List.find?_eq_none.2
      intro q hq
      obtain ⟨it, hit, hqit⟩ := exists_left_of_forall₂ hps hq
      simpa [hqit.name] using hother it hit
    have hpname : p.1.name = name := by rw [hentry]
    rw [room?, hrooms, List.find?_append, hnone, Option.none_or]
    exact List.find?_cons_of_pos (by simp [hpname])
  · simp only
    rw [Nat.add_sub_cancel_left, hslice]

end Insert

/-! ## Filling -/

section Fill

variable {A B : Archive} {name : String} {p : CdEntry × Nat} {r : Range} {f : List UInt8}

/-- An entry beside the located one is the same item in the filled archive. -/
theorem IsFilled.itemAt_of_ne (hB : IsFilled A B p.1 r f) (h : A.Locates name p r)
    (hlen : f.length = r.stop - r.start) {q : CdEntry × Nat} {it : Item} (hq : q ∈ A.rooms)
    (hne : q.1.cdHeaderOffset ≠ p.1.cdHeaderOffset)
    (hbeside : q.2 ≤ p.1.localHeaderOffset ∨ p.2 ≤ q.1.localHeaderOffset)
    (hit : ItemAt A.bytes q it) :
    ItemAt B.bytes (setEntryCrc p.1.cdHeaderOffset (crc32 f) q.1, q.2) it := by
  have hb := h.bounds
  have hroom := A.room_le hq
  obtain ⟨s, hs, hbody⟩ := hit.range
  obtain ⟨hstart, hle, hstop, -⟩ := (bindingRange_eq_ok (A.room_le_bytes hq)).1 hs
  have hbind := (hB.bindingRange_of_ne h hlen hq hne hbeside).2 hs
  have hcdq := A.cdHeader_bounds (A.room_fst_mem hq)
  have hcdp := A.cdHeader_bounds (A.room_fst_mem (A.room?_mem h.room))
  have hdisjoint := A.cdHeader_disjoint (A.room_fst_mem hq)
    (A.room_fst_mem (A.room?_mem h.room)) hne
  rw [setEntryCrc_of_ne _ hne] at hbind ⊢
  refine ⟨hit.entry, ?_, s, hbind, ?_⟩
  · rw [← hit.header, hB.bytes]
    exact h.slice_fillBytes hlen (by simp only; omega) (by simp only; omega) (by simp only; omega)
  · rw [← hbody, hB.bytes]
    exact h.slice_fillBytes hlen (by omega) (by omega) (by omega)

/-- **Filling an entry without a descriptor replaces its item**, the first one of the name, and
keeps the items around it. -/
theorem IsFilled.exists_replaced (hB : IsFilled A B p.1 r f) (h : A.Locates name p r)
    (hlen : f.length = r.stop - r.start) (hbit : p.1.flags &&& 0x0008 = 0) {items : List Item}
    (hA : A.Carries items) : ∃ pre it it' post, items = pre ++ it :: post ∧
      B.Carries (pre ++ it' :: post) ∧ (∀ x ∈ pre, x.header.name ≠ name) ∧ ItemAt A.bytes p it ∧
      ItemAt B.bytes (setEntryCrc p.1.cdHeaderOffset (crc32 f) p.1, p.2) it' := by
  have hb := h.bounds
  have hroom := h.room
  rw [Archive.room?, List.find?_eq_some_iff_append] at hroom
  obtain ⟨-, qs, qs', hrooms, hqs⟩ := hroom
  -- A room beside the located one has the same item in both archives.
  have hkeep : ∀ q ∈ A.rooms, q ≠ p → ∀ it, ItemAt A.bytes q it →
      ItemAt B.bytes (setEntryCrc p.1.cdHeaderOffset (crc32 f) q.1, q.2) it := by
    intro q hq hne it hit
    rcases h.room_cases hq with rfl | ⟨hcd, hbeside⟩
    · exact absurd rfl hne
    · exact hB.itemAt_of_ne h hlen hq hcd hbeside hit
  have hpair := A.pairwise_rooms
  rw [Carries, hrooms] at hA
  rw [hrooms, List.pairwise_append] at hpair
  obtain ⟨-, hpost, -⟩ := hpair
  obtain ⟨pre, its, hpre, hrest, rfl⟩ := forall₂_append_left.1 hA
  obtain ⟨it, post, hit, htail, rfl⟩ := List.forall₂_cons_left_iff.1 hrest
  obtain ⟨s, hs, -⟩ := hit.range
  have hmem : (setEntryCrc p.1.cdHeaderOffset (crc32 f) p.1, p.2) ∈ B.rooms := by
    rw [hB.rooms]
    exact List.mem_map_of_mem (A.room?_mem h.room)
  obtain ⟨it', hit'⟩ := B.exists_itemAt hmem
    ((hB.bindingRange_located h hlen hs).2 ⟨rfl, Or.inl hbit⟩)
  refine ⟨pre, it, it', post, rfl, ?_, ?_, hit, hit'⟩
  · rw [Carries, hB.rooms, hrooms, List.map_append, List.map_cons]
    refine List.rel_append ?_ (List.Forall₂.cons hit' ?_)
    · refine List.forall₂_map_left_iff.2 (forall₂_imp_mem hpre fun q hq it₁ hit₁ => ?_)
      refine hkeep q (by rw [hrooms]; exact List.mem_append_left _ hq) ?_ it₁ hit₁
      rintro rfl
      have hne := hqs q hq
      simp [A.room?_name h.room] at hne
    · refine List.forall₂_map_left_iff.2 (forall₂_imp_mem htail fun q hq it₁ hit₁ => ?_)
      refine hkeep q (by rw [hrooms]; exact List.mem_append_right _ (List.mem_cons_of_mem _ hq)) ?_
        it₁ hit₁
      rintro rfl
      have hle := List.rel_of_pairwise_cons hpost hq
      omega
  · intro x hx
    obtain ⟨q, hq, hqx⟩ := exists_left_of_forall₂ hpre hx
    rw [← hqx.name]
    simpa using hqs q hq

/-- Filling an entry without a descriptor changes no item of another name. -/
theorem IsFilled.exists_carries (hB : IsFilled A B p.1 r f) (h : A.Locates name p r)
    (hlen : f.length = r.stop - r.start) (hbit : p.1.flags &&& 0x0008 = 0) {items : List Item}
    (hA : A.Carries items) : ∃ items', B.Carries items' ∧ kept name items' = kept name items := by
  obtain ⟨pre, it, it', post, rfl, hcarries, -, hit, hit'⟩ := hB.exists_replaced h hlen hbit hA
  have hqname : p.1.name = name := A.room?_name h.room
  have hname : it.header.name = name := hit.name.symm.trans hqname
  have hname' : it'.header.name = name := hit'.name.symm.trans hqname
  refine ⟨_, hcarries, ?_⟩
  rw [kept_append, kept_append, kept_cons_of_eq hname, kept_cons_of_eq hname']

end Fill

/-! ## Lookups -/

section Lookup

variable {A : Archive} {items : List Item}

/-- Dropping another name does not change what a lookup finds. -/
theorem find?_kept {name other : String} (hne : name ≠ other) (items : List Item) :
    (kept other items).find? (fun it => it.header.name = name) =
      items.find? fun it => it.header.name = name := by
  rw [kept, List.find?_filter]
  congr 1
  funext it
  by_cases hit : it.header.name = name
  · simp [hit, hne]
  · simp [hit]

/-- The lookup of the source, by the room it selects. -/
theorem readZipEntryContent_bytes (A : Archive) (name : String) :
    Zip.readZipEntryContent A.bytes name = match A.room? name with
      | none => .ok none
      | some p => do
          let range ← contentRange A.bytes p.1 p.2
          let content ← okOr (getRange A.bytes range.start range.stop) .truncated
          return some content := by
  rw [A.room?_eq_map_entryIndex, Zip.readZipEntryContent, A.parseLayout_bytes, ok_bind]
  cases Zip.entryIndex A.layout name with
  | none => rfl
  | some i => rfl

/-- Filling, by the room it selects. -/
theorem fillManifest_bytes (A : Archive) (name : String) (f : List UInt8) :
    Zip.fillManifest A.bytes name f = match A.room? name with
      | none => .error .truncated
      | some p => do
          failIf (p.1.method ≠ 0 ∨ p.1.flags &&& 1 ≠ 0) .manifestEntryNotStoredOrEncrypted
          let range ← contentRange A.bytes p.1 p.2
          failIf (f.length ≠ range.stop - range.start) .truncated
          return fillBytes A.bytes p.1 range f := by
  rw [A.room?_eq_map_entryIndex, Zip.fillManifest, A.parseLayout_bytes]
  show (okOr (Zip.entryIndex A.layout name) _ >>= _) = _
  cases Zip.entryIndex A.layout name with
  | none => rfl
  | some i => rfl

/-- Reading, by the room it selects. -/
theorem readManifestEntry_bytes (A : Archive) (name : String) :
    Zip.readManifestEntry A.bytes name = match A.room? name with
      | none => .ok none
      | some p => do
          failIf (p.1.method ≠ 0 ∨ p.1.flags &&& 1 ≠ 0) .manifestEntryNotStoredOrEncrypted
          let range ← contentRange A.bytes p.1 p.2
          let content ← okOr (getRange A.bytes range.start range.stop) .truncated
          return some content := by
  rw [A.room?_eq_map_entryIndex, Zip.readManifestEntry, A.parseLayout_bytes, ok_bind]
  cases Zip.entryIndex A.layout name with
  | none => rfl
  | some i => rfl

/-- The lookup selects the room of the first item of the name. -/
theorem Carries.room?_cases (hA : A.Carries items) (name : String) :
    (A.room? name = none ∧ items.find? (fun it => it.header.name = name) = none) ∨
      ∃ p it, A.room? name = some p ∧ items.find? (fun it => it.header.name = name) = some it ∧
        ItemAt A.bytes p it :=
  forall₂_find? (f := fun q : CdEntry × Nat => decide (q.1.name = name))
    (g := fun it : Item => decide (it.header.name = name)) hA fun q it hit => by rw [hit.name]

/-- **A lookup by name finds the content of the first item of that name.** -/
theorem Carries.readZipEntryContent_eq (hA : A.Carries items) (name : String) :
    Zip.readZipEntryContent A.bytes name =
      .ok ((items.find? fun it => it.header.name = name).map Item.content) := by
  rw [readZipEntryContent_bytes]
  rcases hA.room?_cases name with ⟨hq, hit⟩ | ⟨q, it, hq, hit, hitem⟩
  · rw [hq, hit]
    rfl
  · obtain ⟨r, hr, -, hget⟩ :=
      hitem.getRange_content (A.room_le_bytes (List.mem_of_find?_eq_some hq))
    rw [hq, hit]
    simp only [hr, Option.map_some]
    show (okOr (getRange _ _ _) _ >>= _) = _
    rw [hget]
    rfl

/-- The member loop is a loop over rooms. -/
theorem memberRanges_eq_mapM (A : Archive) :
    Zip.memberRanges A.bytes = A.rooms.mapM (memberRound A.bytes) := by
  have hrooms : A.rooms = (List.range A.layout.entries.length).map fun i =>
      (A.layout.entries[i]!, entryBoundary A.layout i) := rooms_eq_map_range A.layout
  rw [hrooms, List.mapM_map, Zip.memberRanges, A.parseLayout_bytes]
  rfl

/-- **The hashed members are the items that are not called like the manifest**; where one of them
has a dot segment in its name, the first one is what the loop fails with. -/
theorem Carries.memberInputs_eq (hA : A.Carries items) :
    memberInputs A.bytes = (kept zipManifestPath items).mapM Item.input := by
  have hvalid : Zip.validateMemberUri zipManifestPath = .ok () := by decide +kernel
  -- The rounds of the loop and what is done with their results, for any part of the rooms.
  have key : ∀ {ps : List (CdEntry × Nat)} {its : List Item},
      List.Forall₂ (ItemAt A.bytes) ps its →
      (ps.mapM (memberRound A.bytes)).map (membersOf A.bytes) =
        (kept zipManifestPath its).mapM Item.input := by
    intro ps its hall
    induction hall with
    | nil => rfl
    | @cons p it ps its hit _ ih =>
        obtain ⟨r, hr, hbody⟩ := hit.range
        have hround : memberRound A.bytes p = (Zip.validateMemberUri it.header.name).map
            fun _ => (it.header.name, r) := by
          rw [memberRound, hit.name, hr]
          cases Zip.validateMemberUri it.header.name <;> rfl
        rw [List.mapM_cons, hround]
        by_cases hn : it.header.name = zipManifestPath
        · -- An item called like the manifest is checked and dropped.
          rw [kept_cons_of_eq hn, ← ih, hn, hvalid]
          cases ps.mapM (memberRound A.bytes) with
          | error e => rfl
          | ok rs =>
              show Except.ok (membersOf A.bytes ((zipManifestPath, r) :: rs)) = _
              rw [membersOf, List.filter_cons_of_neg (by simp)]
              rfl
        · rw [kept_cons_of_ne hn, List.mapM_cons, ← ih, Item.input]
          cases Zip.validateMemberUri it.header.name with
          | error e => rfl
          | ok u =>
              cases ps.mapM (memberRound A.bytes) with
              | error e => rfl
              | ok rs =>
                  show Except.ok (membersOf A.bytes ((it.header.name, r) :: rs)) = _
                  rw [membersOf, List.filter_cons_of_pos (by simpa using hn), List.map_cons, hbody]
                  rfl
  rw [← key hA, memberInputs, Binding.collectionMembers, memberRanges_eq_mapM]
  cases A.rooms.mapM (memberRound A.bytes) with
  | error e => rfl
  | ok rs =>
      show Except.ok (((rs.filter fun m => m.1 ≠ zipManifestPath).map
        fun m => (⟨m.1, m.2⟩ : Binding.Member)).map _) = _
      rw [List.map_map]
      rfl

end Lookup

end Archive

end C2paZip
