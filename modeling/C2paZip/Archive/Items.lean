import C2paZip.Archive.Insert
import C2paZip.Library.Tiling

/-!
# Archives as lists of members

The abstract view of an archive whose entries all bind: a list of items, each a directory header
without its position together with the member record it describes. `assembled items` is the archive
that carries the items one behind the other and nothing else, and `A.Carries items` says that the
entries of `A`, in local-offset order, are these items, wherever they stand. Removing an entry is
`List.filter` on items (`removeZipEntry_eq_ok`), inserting one behind an assembled archive is `++`
(`inserted_assemble`), and an assembled archive carries the items it was made from
(`carries_assemble`).
-/

set_option autoImplicit false

namespace C2paZip

open Library

/-- A member without its position: a header whose local-header offset is zeroed, and the member
record that the header describes. -/
structure Item where
  header : CdHeader
  body : List UInt8
  normal : header.patchOffset 0 = header
  member : IsMember (header.entry 0) body

namespace Item

/-- The header of the item with its record at `off`. -/
def headerAt (it : Item) (off : Nat) : CdHeader := it.header.patchOffset (UInt32.ofNat off)

variable (it : Item)

@[simp] theorem length_headerAt (off : Nat) :
    (it.headerAt off).bytes.length = it.header.bytes.length :=
  CdHeader.patchOffset_length _ _

theorem headerAt_entry {off : Nat} (hoff : off < 2 ^ 32) (pos : Nat) :
    (it.headerAt off).entry pos = { it.header.entry pos with localHeaderOffset := off } := by
  rw [headerAt, CdHeader.patchOffset_entry, u32_toNat_ofNat hoff]

theorem headerAt_localOffset {off : Nat} (hoff : off < 2 ^ 32) :
    (it.headerAt off).localOffset = off :=
  congrArg CdEntry.localHeaderOffset (it.headerAt_entry hoff 0)

/-- The record is a member record at any position. -/
theorem member_at (off pos : Nat) : IsMember ((it.headerAt off).entry pos) it.body := by
  rw [headerAt, CdHeader.patchOffset_entry]
  exact ⟨it.member.sig, it.member.flags, it.member.trailer⟩

theorem length_body_pos : 0 < it.body.length := by
  have h := it.member.length_ge
  omega

end Item

/-! ## Assembling -/

/-- The records of `items`, one behind the other. -/
def bodies (items : List Item) : List UInt8 := items.flatMap Item.body

/-- The headers of `items` with the records from `off` on. -/
def placeHeaders : Nat → List Item → List CdHeader
  | _, [] => []
  | off, it :: items => it.headerAt off :: placeHeaders (off + it.body.length) items

/-- The directory of `items` with the records from `0` on. -/
def directory (items : List Item) : List UInt8 := dirBytes (placeHeaders 0 items)

/-- The archive that carries `items` and nothing else. -/
def assembled (items : List Item) : List UInt8 :=
  writeEocd (bodies items ++ directory items) (UInt16.ofNat items.length)
    (UInt32.ofNat (directory items).length) (UInt32.ofNat (bodies items).length)

section Assemble

variable (items : List Item)

@[simp] theorem bodies_nil : bodies [] = [] := rfl

@[simp] theorem bodies_cons (it : Item) : bodies (it :: items) = it.body ++ bodies items := rfl

@[simp] theorem bodies_append (items' : List Item) :
    bodies (items ++ items') = bodies items ++ bodies items' :=
  List.flatMap_append

@[simp] theorem length_placeHeaders (off : Nat) :
    (placeHeaders off items).length = items.length := by
  induction items generalizing off with
  | nil => rfl
  | cons it items ih => rw [placeHeaders, List.length_cons, ih, List.length_cons]

theorem placeHeaders_append (off : Nat) (items' : List Item) :
    placeHeaders off (items ++ items') =
      placeHeaders off items ++ placeHeaders (off + (bodies items).length) items' := by
  induction items generalizing off with
  | nil => simp [placeHeaders]
  | cons it items ih => simp [placeHeaders, ih, Nat.add_assoc]

/-- The directory length does not depend on where the records stand. -/
theorem length_dirBytes_placeHeaders (off : Nat) :
    (dirBytes (placeHeaders off items)).length =
      (items.map fun it => it.header.bytes.length).sum := by
  induction items generalizing off with
  | nil => rfl
  | cons it items ih =>
      rw [placeHeaders, dirBytes_cons, List.length_append, ih, Item.length_headerAt, List.map_cons,
        List.sum_cons]

theorem length_directory :
    (directory items).length = (items.map fun it => it.header.bytes.length).sum :=
  length_dirBytes_placeHeaders items 0

/-- Every placed record starts inside the records. -/
theorem placeHeaders_localOffset_lt {off : Nat} (hoff : off + (bodies items).length < 2 ^ 32)
    {h : CdHeader} (hh : h ∈ placeHeaders off items) :
    off ≤ h.localOffset ∧ h.localOffset < off + (bodies items).length := by
  induction items generalizing off with
  | nil => cases hh
  | cons it items ih =>
      have hpos := it.length_body_pos
      rw [bodies_cons, List.length_append] at hoff ⊢
      rcases List.mem_cons.1 hh with rfl | hh
      · rw [it.headerAt_localOffset (by omega)]
        omega
      · have := ih (by omega) hh
        omega

end Assemble

/-- The items fit the fields of a ZIP archive. -/
structure Fits (items : List Item) : Prop where
  count : items.length < 65535
  data : (bodies items).length < 2 ^ 32 - 1
  directory : (directory items).length < 2 ^ 32 - 1

/-- The archive of fitting items. -/
def assemble (items : List Item) (h : Fits items) : Archive :=
  Archive.ofParts (bodies items) (placeHeaders 0 items) []
    (by rw [length_placeHeaders]; exact h.count) h.data
    (by rw [List.append_nil]; exact h.directory)
    (fun _ hh => by
      have hd := h.data
      have := (placeHeaders_localOffset_lt items (by omega) hh).2
      omega)

section AssembleArchive

variable {items : List Item} (h : Fits items)

@[simp] theorem assemble_data : (assemble items h).data = bodies items := rfl

@[simp] theorem assemble_headers : (assemble items h).headers = placeHeaders 0 items := rfl

@[simp] theorem assemble_gap : (assemble items h).gap = [] := rfl

theorem assemble_bytes : (assemble items h).bytes = assembled items := by
  rw [assemble, Archive.ofParts_bytes, List.append_nil, length_placeHeaders]
  rfl

/-- The directory takes up everything between the data and the EOCD. -/
theorem assemble_directory_length :
    (assemble items h).eocdOffset - (assemble items h).data.length = (directory items).length := by
  rw [Archive.eocdOffset, assemble_gap, List.length_nil, Nat.add_zero, Nat.add_sub_cancel_left]
  rfl

/-- The rooms of `items` with the records from `off` on and the headers from `pos` on. -/
def placeRooms : Nat → Nat → List Item → List (CdEntry × Nat)
  | _, _, [] => []
  | pos, off, it :: items => ((it.headerAt off).entry pos, off + it.body.length) ::
      placeRooms (pos + it.header.bytes.length) (off + it.body.length) items

theorem placeEntries_placeHeaders_pairwise (pos off : Nat) (items : List Item)
    (hoff : off + (bodies items).length < 2 ^ 32) :
    (placeEntries pos (placeHeaders off items)).Pairwise
      fun a b => a.localHeaderOffset ≤ b.localHeaderOffset := by
  induction items generalizing pos off with
  | nil => exact List.Pairwise.nil
  | cons it items ih =>
      rw [bodies_cons, List.length_append] at hoff
      refine List.Pairwise.cons ?_ (ih _ _ (by omega))
      intro e he
      obtain ⟨pre, k, post, hk, rfl⟩ := mem_placeEntries he
      have hmem : k ∈ placeHeaders (off + it.body.length) items := by
        rw [hk]
        simp
      have hlow := (placeHeaders_localOffset_lt items (by omega) hmem).1
      have hself := it.headerAt_localOffset (show off < 2 ^ 32 by omega)
      show (it.headerAt off).localOffset ≤ k.localOffset
      omega

theorem rooms_placeEntries (pos off cdStart : Nat) (items : List Item)
    (hcd : off + (bodies items).length = cdStart) (hlt : cdStart < 2 ^ 32) :
    rooms cdStart (placeEntries pos (placeHeaders off items)) = placeRooms pos off items := by
  induction items generalizing pos off with
  | nil => rfl
  | cons it items ih =>
      rw [bodies_cons, List.length_append] at hcd
      rw [placeHeaders, placeEntries, rooms, Item.length_headerAt, ih _ _ (by omega), placeRooms]
      congr 2
      cases items with
      | nil =>
          rw [bodies_nil, List.length_nil] at hcd
          exact (by omega : cdStart = off + it.body.length)
      | cons it' items =>
          rw [bodies_cons, List.length_append] at hcd
          exact it'.headerAt_localOffset (by omega)

/-- The entries of an assembled archive are in the order of its items. -/
theorem entries_assemble :
    (assemble items h).entries = placeEntries (bodies items).length (placeHeaders 0 items) := by
  have hd := h.data
  apply sortByKey_of_pairwise
  exact placeEntries_placeHeaders_pairwise _ _ items (by omega)

/-- Each record of an assembled archive fills its room. -/
theorem rooms_assemble :
    (assemble items h).rooms = placeRooms (bodies items).length 0 items := by
  have hd := h.data
  rw [Archive.rooms, entries_assemble]
  exact rooms_placeEntries _ _ _ items (Nat.zero_add _) (by rw [assemble_data]; omega)

end AssembleArchive

/-! ## Carrying items -/

/-- The entry of the room `p` in `z` is the item `it`: its binding range covers the record, and its
directory header is the header of the item at that position. -/
structure ItemAt (z : List UInt8) (p : CdEntry × Nat) (it : Item) : Prop where
  entry : p.1 = (it.headerAt p.1.localHeaderOffset).entry p.1.cdHeaderOffset
  header : slice z p.1.cdHeaderOffset p.1.cdHeaderLen = (it.headerAt p.1.localHeaderOffset).bytes
  range : ∃ r, bindingRange z p.1 p.2 = .ok r ∧ slice z r.start (r.stop - r.start) = it.body

/-- The entries of `A` are the items `items`. -/
def Archive.Carries (A : Archive) (items : List Item) : Prop :=
  List.Forall₂ (ItemAt A.bytes) A.rooms items

namespace ItemAt

variable {z : List UInt8} {p : CdEntry × Nat} {it : Item}

theorem name (h : ItemAt z p it) : p.1.name = it.header.name := by
  rw [h.entry]
  rfl

theorem cdHeaderLen (h : ItemAt z p it) : p.1.cdHeaderLen = it.header.bytes.length := by
  rw [h.entry]
  exact it.length_headerAt _

/-- The header lies inside the input. -/
theorem header_le (h : ItemAt z p it) : p.1.cdHeaderOffset + p.1.cdHeaderLen ≤ z.length := by
  have hfix := it.header.fixed_le
  have hlen := h.cdHeaderLen
  apply add_le_of_length_slice (by omega)
  rw [h.header, Item.length_headerAt, hlen]

/-- Copying the header and patching in another offset gives the header of the item there. -/
theorem header_patched (h : ItemAt z p it) (off : Nat) :
    overwrite (slice z p.1.cdHeaderOffset p.1.cdHeaderLen) 42 (u32ToLe (UInt32.ofNat off)) =
      (it.headerAt off).bytes := by
  rw [h.header, ← CdHeader.patchOffset_bytes, Item.headerAt, CdHeader.patchOffset_patchOffset]
  rfl

/-- The binding range, by the length of the record. -/
theorem bindingRange_eq (h : ItemAt z p it) (hp : p.2 ≤ z.length) :
    bindingRange z p.1 p.2 =
      .ok ⟨p.1.localHeaderOffset, p.1.localHeaderOffset + it.body.length⟩ := by
  obtain ⟨r, hr, hbody⟩ := h.range
  obtain ⟨hstart, hle, hstop, -⟩ := (bindingRange_eq_ok hp).1 hr
  have hlen : (slice z r.start (r.stop - r.start)).length = r.stop - r.start :=
    length_slice (by omega)
  rw [hbody, hstart] at hlen
  rw [hr, hlen, ← hstart, Nat.add_sub_cancel' hle]

/-- The record fits the room. -/
theorem body_le (h : ItemAt z p it) (hp : p.2 ≤ z.length) :
    p.1.localHeaderOffset + it.body.length ≤ p.2 := by
  obtain ⟨-, -, hstop, -⟩ := (bindingRange_eq_ok hp).1 (h.bindingRange_eq hp)
  exact hstop

end ItemAt

/-- An entry that binds is an item. -/
theorem Archive.exists_itemAt (A : Archive) {p : CdEntry × Nat} (hp : p ∈ A.rooms) {r : Range}
    (hr : bindingRange A.bytes p.1 p.2 = .ok r) : ∃ it, ItemAt A.bytes p it := by
  obtain ⟨h, he, -, -, hslice⟩ := A.exists_header_slice (A.room_fst_mem hp)
  obtain ⟨-, -, -, hm⟩ := (bindingRange_eq_ok (A.room_le_bytes hp)).1 hr
  -- Zeroing the offset and patching it back in gives the header again.
  have hself : (h.patchOffset 0).patchOffset (UInt32.ofNat p.1.localHeaderOffset) = h := by
    have hoff : UInt32.ofNat p.1.localHeaderOffset = u32At h.bytes 42 := by
      rw [he]
      exact UInt32.ofNat_toNat
    rw [CdHeader.patchOffset_patchOffset, CdHeader.patchOffset_self _ _ hoff]
  have hlen : p.1.cdHeaderLen = h.bytes.length := congrArg CdEntry.cdHeaderLen he
  refine ⟨{ header := h.patchOffset 0
            body := slice A.bytes r.start (r.stop - r.start)
            normal := CdHeader.patchOffset_patchOffset _ _ _
            member := ?_ }, ?_, ?_, r, hr, rfl⟩
  · rw [CdHeader.patchOffset_entry]
    rw [he] at hm
    exact ⟨hm.sig, hm.flags, hm.trailer⟩
  · rw [Item.headerAt, hself]
    exact he
  · rw [Item.headerAt, hself, hlen]
    exact hslice

/-- **An archive whose entries all bind carries a list of items.** -/
theorem Archive.exists_carries (A : Archive)
    (hbind : ∀ p ∈ A.rooms, ∃ r, bindingRange A.bytes p.1 p.2 = .ok r) :
    ∃ items, A.Carries items := by
  have key : ∀ ps : List (CdEntry × Nat), (∀ p ∈ ps, p ∈ A.rooms) →
      ∃ items, List.Forall₂ (ItemAt A.bytes) ps items := by
    intro ps
    induction ps with
    | nil => exact fun _ => ⟨[], List.Forall₂.nil⟩
    | cons p ps ih =>
        intro hps
        obtain ⟨items, hitems⟩ := ih fun q hq => hps q (List.mem_cons_of_mem _ hq)
        obtain ⟨r, hr⟩ := hbind p (hps p List.mem_cons_self)
        obtain ⟨it, hit⟩ := A.exists_itemAt (hps p List.mem_cons_self) hr
        exact ⟨it :: items, List.Forall₂.cons hit hitems⟩
  exact key A.rooms fun p hp => hp

/-- Records and headers that stand where they were placed are the items, and fill their rooms. -/
theorem forall₂_itemAt_placeRooms {z : List UInt8} {items : List Item} {pos off : Nat}
    (hoff : off + (bodies items).length < 2 ^ 32) (hz : off + (bodies items).length ≤ z.length)
    (hbodies : slice z off (bodies items).length = bodies items)
    (hdir : slice z pos (dirBytes (placeHeaders off items)).length =
      dirBytes (placeHeaders off items)) :
    List.Forall₂ (fun p it => ItemAt z p it ∧ p.2 = p.1.localHeaderOffset + it.body.length)
      (placeRooms pos off items) items := by
  induction items generalizing pos off with
  | nil => exact List.Forall₂.nil
  | cons it items ih =>
      rw [bodies_cons, List.length_append] at hoff hz hbodies
      rw [placeHeaders, dirBytes_cons, List.length_append, Item.length_headerAt] at hdir
      have hdirlen : (slice z pos it.header.bytes.length).length = it.header.bytes.length := by
        have hl := congrArg List.length hdir
        simp only [slice_add, List.length_append, Item.length_headerAt] at hl
        have h1 := length_slice_le z pos it.header.bytes.length
        have h2 := length_slice_le z (pos + it.header.bytes.length)
          (dirBytes (placeHeaders (off + it.body.length) items)).length
        omega
      rw [slice_add] at hbodies hdir
      -- The first record and header are split off.
      obtain ⟨hbody, hbodies'⟩ := List.append_inj hbodies (length_slice (by omega))
      obtain ⟨hheader, hdir'⟩ := List.append_inj hdir (by rw [Item.length_headerAt, hdirlen])
      have hlocal := it.headerAt_localOffset (show off < 2 ^ 32 by omega)
      refine List.Forall₂.cons ⟨⟨?_, ?_, ⟨off, off + it.body.length⟩, ?_, ?_⟩, ?_⟩
        (ih (by omega) (by omega) hbodies' hdir')
      · show (it.headerAt off).entry pos =
          (it.headerAt (it.headerAt off).localOffset).entry pos
        rw [hlocal]
      · show slice z pos (it.headerAt off).bytes.length =
          (it.headerAt (it.headerAt off).localOffset).bytes
        rw [hlocal, Item.length_headerAt, hheader]
      · refine (bindingRange_eq_ok (by simp only; omega)).2
          ⟨hlocal.symm, by simp only; omega, Nat.le_refl _, ?_⟩
        simp only
        rw [Nat.add_sub_cancel_left, hbody]
        exact it.member_at off pos
      · simp only
        rw [Nat.add_sub_cancel_left, hbody]
      · exact congrArg (· + it.body.length) hlocal.symm

/-- The rooms of an assembled archive are its items, and nothing is left in them. -/
theorem tight_assemble {items : List Item} (h : Fits items) :
    List.Forall₂ (fun p it => ItemAt (assemble items h).bytes p it ∧
      p.2 = p.1.localHeaderOffset + it.body.length) (assemble items h).rooms items := by
  have hd := h.data
  have hlen := (assemble items h).length_bytes
  rw [assemble_data] at hlen
  rw [rooms_assemble]
  refine forall₂_itemAt_placeRooms (by omega) (by omega) ?_ ?_
  · rw [← assemble_data h]
    exact Archive.slice_bytes_data _
  · have hs := (assemble items h).slice_bytes_headers
    rwa [assemble_headers, assemble_data] at hs

/-- **An assembled archive carries the items it was made from.** -/
theorem carries_assemble {items : List Item} (h : Fits items) : (assemble items h).Carries items :=
  (tight_assemble h).imp fun _ _ hp => hp.1

/-- The rooms of an assembled archive tile its file data. -/
theorem tiles_placeRooms (pos off : Nat) (items : List Item)
    (hoff : off + (bodies items).length < 2 ^ 32) :
    Tiles (fun p : CdEntry × Nat => p.1.localHeaderOffset) Prod.snd off
      (placeRooms pos off items) (off + (bodies items).length) := by
  induction items generalizing pos off with
  | nil => rfl
  | cons it items ih =>
      rw [bodies_cons, List.length_append] at hoff ⊢
      rw [← Nat.add_assoc]
      exact ⟨it.headerAt_localOffset (by omega), Nat.le_add_right _ _, ih _ _ (by omega)⟩

section Carries

variable {A : Archive} {items : List Item} (hA : A.Carries items)

include hA

theorem Archive.Carries.binds {p : CdEntry × Nat} (hp : p ∈ A.rooms) :
    ∃ r, bindingRange A.bytes p.1 p.2 = .ok r := by
  obtain ⟨it, -, hit⟩ := exists_right_of_forall₂ hA hp
  obtain ⟨r, hr, -⟩ := hit.range
  exact ⟨r, hr⟩

/-- The names of the entries are the names of the items. -/
theorem Archive.Carries.exists_name_iff {name : String} :
    (∃ e ∈ A.entries, e.name = name) ↔ ∃ it ∈ items, it.header.name = name := by
  constructor
  · rintro ⟨e, he, hn⟩
    rw [← A.map_fst_rooms] at he
    obtain ⟨p, hp, rfl⟩ := List.mem_map.1 he
    obtain ⟨it, hit, hitem⟩ := exists_right_of_forall₂ hA hp
    exact ⟨it, hit, by rw [← hitem.name, hn]⟩
  · rintro ⟨it, hit, hn⟩
    obtain ⟨p, hp, hitem⟩ := exists_left_of_forall₂ hA hit
    exact ⟨p.1, A.room_fst_mem hp, by rw [hitem.name, hn]⟩

theorem Archive.Carries.length : items.length = A.headers.length := by
  rw [← List.Forall₂.length_eq hA, Archive.rooms, length_rooms, A.length_entries]

/-- The records are disjoint parts of the file data. -/
theorem Archive.Carries.length_bodies : (bodies items).length ≤ A.data.length := by
  -- Each record ends before the next room starts, so the lengths add up below the directory.
  have key : ∀ {ps : List (CdEntry × Nat)} {its : List Item} (lo : Nat),
      List.Forall₂ (ItemAt A.bytes) ps its → (∀ p ∈ ps, p ∈ A.rooms) →
      ps.Pairwise (fun p q => p.2 ≤ q.1.localHeaderOffset) →
      (∀ p ∈ ps, lo ≤ p.1.localHeaderOffset) → lo ≤ A.data.length →
      lo + (bodies its).length ≤ A.data.length := by
    intro ps its lo hall
    induction hall generalizing lo with
    | nil => exact fun _ _ _ hlo => hlo
    | cons hit _ ih =>
        intro hmem hpair hlow hlo
        obtain ⟨hfirst, hrest⟩ := List.pairwise_cons.1 hpair
        have hp := hmem _ List.mem_cons_self
        have hbody := hit.body_le (A.room_le_bytes hp)
        have hroom := A.room_le hp
        have hstart := hlow _ List.mem_cons_self
        have := ih _ (fun q hq => hmem q (List.mem_cons_of_mem _ hq)) hrest hfirst hroom
        rw [bodies_cons, List.length_append]
        omega
  have h0 := key 0 hA (fun p hp => hp) A.pairwise_rooms (fun _ _ => Nat.zero_le _) (Nat.zero_le _)
  omega

/-- The headers are those of the directory. -/
theorem Archive.Carries.length_directory :
    (directory items).length = (dirBytes A.headers).length := by
  have key : (A.rooms.map fun p => p.1.cdHeaderLen) = items.map fun it => it.header.bytes.length :=
    map_eq_map_of_forall₂ hA fun _ _ _ hit => hit.cdHeaderLen
  have hmap : (A.rooms.map fun p => p.1.cdHeaderLen) = A.entries.map CdEntry.cdHeaderLen := by
    conv_rhs => rw [← A.map_fst_rooms]
    rw [List.map_map]
    rfl
  rw [C2paZip.length_directory, ← key, hmap, A.sum_cdHeaderLen]

end Carries

/-! ## Stored items -/

/-- A stored entry as an item. -/
def storedItem (name : String) (content : List UInt8) (hname : (asBytes name).length < 2 ^ 16)
    (hsize : content.length < 2 ^ 32 - 1) : Item where
  header := storedHeader name content 0 hname hsize
  body := storedRecord name content
  normal := patchOffset_storedHeader 0 hname hsize 0
  member := isMember_storedRecord 0 hname hsize 0

/-- **The content of a stored item** stands behind its local header and name. -/
theorem ItemAt.content_stored {z : List UInt8} {p : CdEntry × Nat} {name : String}
    {content : List UInt8} {hname : (asBytes name).length < 2 ^ 16}
    {hsize : content.length < 2 ^ 32 - 1} (hp : p.2 ≤ z.length)
    (h : ItemAt z p (storedItem name content hname hsize)) :
    contentRange z p.1 p.2 = .ok ⟨p.1.localHeaderOffset + (30 + (asBytes name).length),
        p.1.localHeaderOffset + (30 + (asBytes name).length) + content.length⟩ ∧
      slice z (p.1.localHeaderOffset + (30 + (asBytes name).length)) content.length = content := by
  have hentry := h.entry
  simp only [Item.headerAt, storedItem, patchOffset_storedHeader, storedHeader_entry] at hentry
  have hsizep : p.1.compressedSize = content.length := by rw [hentry]
  -- The binding range holds the written record, whose content stands behind the name.
  obtain ⟨r, hr, hbody⟩ := h.range
  obtain ⟨hstart, -, -, -⟩ := (bindingRange_eq_ok hp).1 hr
  have hbody' : slice z r.start (r.stop - r.start) = storedRecord name content := hbody
  have hlen := congrArg List.length hbody'
  rw [length_storedRecord] at hlen
  have hle := length_slice_le z r.start (r.stop - r.start)
  have hcontent := contentRange_of_bindingRange hp hr
  rw [hbody', contentStart_storedRecord hname, hsizep, hstart] at hcontent
  refine ⟨hcontent, ?_⟩
  rw [← hstart, ← slice_slice (n := r.stop - r.start) (by omega), hbody', storedRecord,
    slice_append_of_le _ (by simp)]
  simp [slice_self]

/-- **Inserting behind an assembled archive appends an item.** -/
theorem inserted_assemble {items : List Item} (h : Fits items) {name : String}
    {content : List UInt8}
    (hname : (asBytes name).length < 2 ^ 16) (hsize : content.length < 2 ^ 32 - 1) :
    (assemble items h).inserted name content =
      assembled (items ++ [storedItem name content hname hsize]) := by
  have hdata : (assemble items h).insertedData name content =
      bodies (items ++ [storedItem name content hname hsize]) := by
    rw [Archive.insertedData, assemble_data, bodies_append, bodies_cons, bodies_nil,
      List.append_nil]
    rfl
  have hdir : (assemble items h).insertedDir name content =
      directory (items ++ [storedItem name content hname hsize]) := by
    rw [Archive.insertedDir, assemble_gap, List.nil_append, assemble_headers, directory,
      placeHeaders_append, dirBytes_append, Nat.zero_add]
    simp only [placeHeaders, dirBytes_cons, dirBytes_nil, List.append_nil, Item.headerAt,
      storedItem,
      patchOffset_storedHeader]
    rfl
  rw [Archive.inserted, hdata, hdir, assemble_headers, length_placeHeaders, assembled,
    List.length_append]
  rfl

end C2paZip
