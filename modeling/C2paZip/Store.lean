import C2paZip.Session

/-!
# Archives as ordered stores

The entry operations of `zip.rs` take any name. Over whole histories an archive whose entries bind
is a list of `Slot`s, one for each entry in local-offset order: what it is called, its content, and
whether it is stored and unencrypted. Insertion appends a slot, removal filters, filling replaces
the content of the first slot of a name, and the lookups return it. `slots` reads the slots off the
bytes, and over every list of calls that the 16-bit and 32-bit fields have room for, the replies and
the slots that are left are those of the list (`store_refines`).
-/

set_option autoImplicit false

namespace C2paZip

open Library

/-! ## Slots -/

/-- What the lookups see of an entry. -/
structure Slot where
  name : String
  content : List UInt8
  plain : Bool
  deriving DecidableEq

/-- A call of an entry operation. -/
inductive Store.Call where
  | insert (name : String) (content : List UInt8)
  | remove (name : String)
  | fill (name : String) (content : List UInt8)
  | read (name : String)
  | content (name : String)
  | members

/-- One call on an archive. -/
def Store.call (bytes : List UInt8) : Store.Call → List UInt8 × Reply
  | .insert name content => edited bytes (Zip.insertZipEntry bytes name content)
  | .remove name => edited bytes (Zip.removeZipEntry bytes name)
  | .fill name content => edited bytes (Zip.fillManifest bytes name content)
  | .read name => (bytes, answer .manifest (Zip.readManifestEntry bytes name))
  | .content name => (bytes, answer .content (Zip.readZipEntryContent bytes name))
  | .members =>
      (bytes, answer (fun ms => .names (ms.map Binding.Member.name))
        (Binding.collectionMembers bytes))

/-- Stored and unencrypted, so that the content is read as it stands. -/
def CdEntry.plain (e : CdEntry) : Bool := decide (e.method = 0 ∧ e.flags &&& 1 = 0)

/-- The slots of an archive. -/
def slots (bytes : List UInt8) : Except Error (List Slot) := do
  let layout ← parseLayout bytes
  (List.range layout.entries.length).mapM fun i => do
    let range ← entryContentRange bytes layout i
    let content ← okOr (getRange bytes range.start range.stop) .truncated
    return ⟨layout.entries[i]!.name, content, layout.entries[i]!.plain⟩

namespace Slot

/-- The first slot of a name. -/
def lookup (name : String) (ss : List Slot) : Option Slot := ss.find? fun s => s.name = name

/-- Another content in the first slot of a name. -/
def replace (name : String) (content : List UInt8) : List Slot → List Slot
  | [] => []
  | s :: ss =>
      if s.name = name then { s with content := content } :: ss
      else s :: replace name content ss

/-- Filling needs a plain slot with a content of the same length. -/
def fill (ss : List Slot) (name : String) (content : List UInt8) : List Slot × Reply :=
  match lookup name ss with
  | none => (ss, .failed .truncated)
  | some s =>
      if ¬ s.plain then (ss, .failed .manifestEntryNotStoredOrEncrypted)
      else if content.length ≠ s.content.length then (ss, .failed .truncated)
      else (replace name content ss, .done)

/-- Reading needs a plain slot. -/
def read (ss : List Slot) (name : String) : Reply :=
  match lookup name ss with
  | none => .manifest none
  | some s => if s.plain then .manifest (some s.content)
      else .failed .manifestEntryNotStoredOrEncrypted

/-- The name of a member without dot segments. -/
def memberName (s : Slot) : Except Error String := do
  Zip.validateMemberUri s.name
  return s.name

/-- One call on a list of slots. -/
def call (ss : List Slot) : Store.Call → List Slot × Reply
  | .insert name content =>
      if (asBytes name).length < 2 ^ 16 then (ss ++ [⟨name, content, true⟩], .done)
      else (ss, .failed .truncated)
  | .remove name => (ss.filter fun s => s.name ≠ name, .done)
  | .fill name content => fill ss name content
  | .read name => (ss, read ss name)
  | .content name => (ss, .content ((lookup name ss).map Slot.content))
  | .members =>
      (ss, answer .names ((ss.filter fun s => s.name ≠ zipManifestPath).mapM memberName))

end Slot

/-! ## Sizes -/

/-- Bytes of file data, bytes of the directory, and number of entries. -/
structure Size where
  data : Nat
  directory : Nat
  count : Nat

namespace Size

instance : Add Size :=
  ⟨fun a b => ⟨a.data + b.data, a.directory + b.directory, a.count + b.count⟩⟩

instance : Zero Size := ⟨⟨0, 0, 0⟩⟩

@[simp] theorem add_data (a b : Size) : (a + b).data = a.data + b.data := rfl

@[simp] theorem add_directory (a b : Size) : (a + b).directory = a.directory + b.directory := rfl

@[simp] theorem add_count (a b : Size) : (a + b).count = a.count + b.count := rfl

theorem zero_add (a : Size) : 0 + a = a := by
  show Size.mk (0 + a.data) (0 + a.directory) (0 + a.count) = a
  rw [Nat.zero_add, Nat.zero_add, Nat.zero_add]

/-- The fields of an archive hold the sizes, and none is a ZIP64 sentinel. -/
structure Bounded (s : Size) : Prop where
  data : s.data < 2 ^ 32 - 1
  directory : s.directory < 2 ^ 32 - 1
  count : s.count < 65535

end Size

/-- The sizes of an archive. -/
def ZipLayout.size (L : ZipLayout) : Size :=
  ⟨L.cdStart, L.eocdOffset - L.cdStart, L.entries.length⟩

/-- What an insertion adds; a name that does not fit its length field is refused. -/
def Store.cost : Store.Call → Size
  | .insert name content =>
      if (asBytes name).length < 2 ^ 16 then
        ⟨30 + (asBytes name).length + content.length, 46 + (asBytes name).length, 1⟩
      else 0
  | _ => 0

/-! ## Lists of slots -/

/-- The slot of an item. -/
def Item.slot (it : Item) : Slot := ⟨it.header.name, it.content, (it.header.entry 0).plain⟩

/-- The item `it'` is `it` filled with `f`. -/
structure Item.FilledWith (it : Item) (f : List UInt8) (it' : Item) : Prop where
  slot : it'.slot = { it.slot with content := f }
  flags : it'.header.flags = it.header.flags
  crc32 : it'.header.crc32 = C2paZip.crc32 f

section Slots

variable {name : String} {content : List UInt8}

theorem Slot.lookup_map (name : String) (items : List Item) :
    Slot.lookup name (items.map Item.slot) =
      (items.find? fun it => it.header.name = name).map Item.slot := by
  rw [Slot.lookup, List.find?_map]
  rfl

theorem Slot.fill_of_none {ss : List Slot} (h : Slot.lookup name ss = none) (f : List UInt8) :
    Slot.fill ss name f = (ss, .failed .truncated) := by
  rw [Slot.fill, h]

theorem Slot.fill_of_some {ss : List Slot} {s : Slot} (h : Slot.lookup name ss = some s)
    (f : List UInt8) : Slot.fill ss name f =
      if ¬ s.plain then (ss, .failed .manifestEntryNotStoredOrEncrypted)
      else if f.length ≠ s.content.length then (ss, .failed .truncated)
      else (Slot.replace name f ss, .done) := by
  rw [Slot.fill, h]

theorem Slot.filter_map (name : String) (items : List Item) :
    (items.map Item.slot).filter (fun s => s.name ≠ name) = (kept name items).map Item.slot := by
  rw [List.filter_map]
  rfl

/-- The first slot of a name is the one that gets the new content. -/
theorem Slot.replace_map {pre post : List Item} {it it' : Item}
    (hpre : ∀ x ∈ pre, x.header.name ≠ name) (hit : it.header.name = name)
    (hslot : it'.slot = { it.slot with content := content }) :
    Slot.replace name content ((pre ++ it :: post).map Item.slot) =
      (pre ++ it' :: post).map Item.slot := by
  induction pre with
  | nil =>
      rw [List.nil_append, List.map_cons, Slot.replace, if_pos (show it.slot.name = name from hit),
        ← hslot]
      rfl
  | cons x pre ih =>
      have hx : x.slot.name ≠ name := hpre x List.mem_cons_self
      rw [List.cons_append, List.map_cons, Slot.replace, if_neg hx,
        ih fun y hy => hpre y (List.mem_cons_of_mem x hy)]
      rfl

/-- An inserted item has the inserted name and content, and is plain. -/
theorem slot_storedItem {hname : (asBytes name).length < 2 ^ 16}
    {hsize : content.length < 2 ^ 32 - 1} :
    (storedItem name content hname hsize).slot = ⟨name, content, true⟩ := by
  have hentry := storedHeader_entry 0 hname hsize 0
  have hlen : (storedHeader name content 0 hname hsize).compressedSize = content.length :=
    congrArg CdEntry.compressedSize hentry
  have hcontent : (storedItem name content hname hsize).content = content := by
    show slice (storedRecord name content) (contentStart (storedRecord name content))
      (storedHeader name content 0 hname hsize).compressedSize = content
    rw [hlen, contentStart_storedRecord hname, storedRecord, slice_append_of_le _ (by simp)]
    simp [slice_self]
  have hplain : ((storedHeader name content 0 hname hsize).entry 0).plain = true := by
    rw [hentry]
    exact decide_eq_true ⟨rfl, show (0 : UInt16) &&& 1 = 0 by decide⟩
  rw [Item.slot, hcontent]
  exact congrArg (Slot.mk name content) hplain

end Slots

theorem ItemAt.plain {z : List UInt8} {p : CdEntry × Nat} {it : Item} (h : ItemAt z p it) :
    p.1.plain = it.slot.plain := by
  have hentry : p.1.plain = decide (it.header.method = 0 ∧ it.header.flags &&& 1 = 0) := by
    rw [CdEntry.plain, h.method, h.flags]
  exact hentry

namespace Archive

variable {A : Archive} {items : List Item}

/-- **The slots of an archive are those of its items.** -/
theorem Carries.slots_eq (hA : A.Carries items) : slots A.bytes = .ok (items.map Item.slot) := by
  have hrooms : A.rooms = (List.range A.layout.entries.length).map fun i =>
      (A.layout.entries[i]!, entryBoundary A.layout i) := rooms_eq_map_range A.layout
  have hmap : slots A.bytes = A.rooms.mapM fun p => do
      let range ← contentRange A.bytes p.1 p.2
      let content ← okOr (getRange A.bytes range.start range.stop) .truncated
      return (⟨p.1.name, content, p.1.plain⟩ : Slot) := by
    rw [hrooms, List.mapM_map, slots, A.parseLayout_bytes]
    rfl
  rw [hmap, mapM_eq_ok]
  refine List.forall₂_map_right_iff.2 (forall₂_imp_mem hA fun p hp it hit => ?_)
  obtain ⟨r, hr, -, hget⟩ := hit.getRange_content (A.room_le_bytes hp)
  rw [hr]
  show (okOr (getRange _ _ _) _ >>= _) = _
  rw [hget, Item.slot, ← hit.name, hit.plain]
  rfl

theorem layout_size (A : Archive) : A.layout.size =
    ⟨A.data.length, (dirBytes A.headers).length + A.gap.length, A.headers.length⟩ := by
  have hlen : A.eocdOffset - A.data.length = (dirBytes A.headers).length + A.gap.length := by
    rw [eocdOffset]
    omega
  rw [ZipLayout.size, layout_cdStart, layout_eocdOffset, layout_entries, A.length_entries, hlen]

/-- A filled archive has the record where it was, and the same sizes. -/
theorem IsFilled.layout_size {B : Archive} {name : String} {p : CdEntry × Nat} {r : Range}
    {f : List UInt8} (hB : IsFilled A B p.1 r f) (h : A.Locates name p r)
    (hlen : f.length = r.stop - r.start) :
    B.layout.size = A.layout.size ∧ (A.gap = [] → B.gap = []) := by
  have hb := h.bounds
  have hcd := A.cdHeader_bounds (A.room_fst_mem (A.room?_mem h.room))
  have hdata := A.data_length_le_eocdOffset
  have hfront : (A.data ++ (dirBytes A.headers ++ A.gap)).length = A.eocdOffset := by
    rw [List.length_append, List.length_append, eocdOffset, Nat.add_assoc]
  -- Nothing is written at or behind the record.
  have hdrop : B.bytes.drop A.eocdOffset = A.eocd := by
    apply List.ext_getElem?
    intro i
    rw [List.getElem?_drop, hB.bytes, h.getElem?_fillBytes hlen (by omega) (by omega) (by omega),
      A.bytes_eq_append_eocd, List.getElem?_append_right (by omega), hfront,
      Nat.add_sub_cancel_left]
  have hoff : B.eocdOffset = A.eocdOffset := by
    have hsplit := List.take_append_drop A.eocdOffset B.bytes
    rw [hdrop, B.bytes_eq_append_eocd] at hsplit
    have hxs := congrArg List.length
      (eocd_unique A.eocd_at A.eocd_last B.eocd_at B.eocd_last hsplit).2
    rw [← B.bytes_eq_append_eocd, List.length_take, hB.bytes, h.length_fillBytes hlen,
      List.length_append, List.length_append] at hxs
    have hle := A.eocdOffset_add_le
    rw [eocdOffset]
    omega
  have hsum : B.entries.map CdEntry.cdHeaderLen = A.entries.map CdEntry.cdHeaderLen := by
    rw [hB.entries, List.map_map]
    exact List.map_congr_left fun e _ => setEntryCrc_cdHeaderLen _ _ e
  refine ⟨?_, fun hgap => B.headersEndAtEocd_iff.1 ?_⟩
  · rw [ZipLayout.size, ZipLayout.size, layout_cdStart, layout_cdStart, layout_eocdOffset,
      layout_eocdOffset, hoff, hB.length_data, layout_entries, layout_entries, hB.entries,
      List.length_map]
  · have htidy := A.headersEndAtEocd_iff.2 hgap
    rw [ZipLayout.HeadersEndAtEocd, layout_entries, layout_cdStart, layout_eocdOffset] at htidy ⊢
    rw [hsum, hoff, hB.length_data, htidy]

/-- **The filled item** has the new content and its CRC, and the name and flags it had. -/
theorem IsFilled.filledWith {B : Archive} {name : String} {p : CdEntry × Nat} {r : Range}
    {f : List UInt8} {it it' : Item} (hB : IsFilled A B p.1 r f) (h : A.Locates name p r)
    (hlen : f.length = r.stop - r.start) (hit : ItemAt A.bytes p it)
    (hit' : ItemAt B.bytes (setEntryCrc p.1.cdHeaderOffset (crc32 f) p.1, p.2) it') :
    it.FilledWith f it' := by
  have hp : p.2 ≤ B.bytes.length := by
    rw [hB.bytes, h.length_fillBytes hlen]
    exact A.room_le_bytes (A.room?_mem h.room)
  obtain ⟨hrange, hslice⟩ := hit'.contentRange_eq hp
  have hr := Except.ok.inj ((hB.locates h hlen).content.symm.trans hrange)
  have hcontent : it'.content = f := by
    have hfilled := h.slice_fillBytes_content hlen
    rw [← hslice, ← hfilled, ← hB.bytes, hr]
    simp only [Nat.add_sub_cancel_left]
    rfl
  have hname : it'.header.name = it.header.name := hit'.name.symm.trans hit.name
  have hplain : it'.slot.plain = it.slot.plain := hit'.plain.symm.trans hit.plain
  refine ⟨?_, hit'.flags.symm.trans hit.flags, ?_⟩
  · calc it'.slot = ⟨it'.header.name, it'.content, it'.slot.plain⟩ := rfl
      _ = _ := by rw [hname, hcontent, hplain]; rfl
  · rw [← hit'.crc32, setEntryCrc_self]

end Archive

/-! ## Stores -/

/-- A property of items that the operations keep, where only names in `filled` are filled: no
descriptor follows the content of such an item. -/
structure ItemInvariant (filled : String → Prop) (P : Item → Prop) : Prop where
  undescribed : ∀ {it}, P it → filled it.header.name → it.header.flags &&& 0x0008 = 0
  inserted : ∀ {name content} (hname : (asBytes name).length < 2 ^ 16)
    (hsize : content.length < 2 ^ 32 - 1), P (storedItem name content hname hsize)
  filled : ∀ {it f it'}, P it → it.FilledWith f it' → P it'

/-- The archive `A` stores `items`, each with `P`, and has room for `b` more. Nothing stands behind
its headers. -/
structure Stores (P : Item → Prop) (b : Size) (A : Archive) (items : List Item) : Prop where
  carries : A.Carries items
  tidy : A.gap = []
  all : ∀ it ∈ items, P it
  bounded : (A.layout.size + b).Bounded

namespace Stores

variable {filled : String → Prop} {P : Item → Prop} {b : Size} {A : Archive} {items : List Item}
  {name : String}

/-- **Inserting** appends a slot. -/
theorem insertZipEntry (hP : ItemInvariant filled P) {content : List UInt8}
    (h : Stores P (Store.cost (.insert name content) + b) A items)
    (hname : (asBytes name).length < 2 ^ 16) :
    ∃ B items', Zip.insertZipEntry A.bytes name content = .ok B.bytes ∧
      Stores P b B items' ∧
      items'.map Item.slot = items.map Item.slot ++ [⟨name, content, true⟩] := by
  obtain ⟨hdata, hdir, hcount⟩ := h.bounded
  rw [A.layout_size, Store.cost, if_pos hname, h.tidy] at hdata hdir hcount
  simp only [Size.add_data, Size.add_directory, Size.add_count, List.length_nil]
    at hdata hdir hcount
  have hlendata := A.length_insertedData name content
  have hlendir := A.length_insertedDir name content
  rw [h.tidy, List.length_nil] at hlendir
  have hsize : content.length < 2 ^ 32 - 1 := by omega
  obtain ⟨B, hB, hgap⟩ := Archive.exists_isInserted h.tidy hname hsize (by omega) (by omega)
    (by omega)
  have hlenB := hB.length_data
  have hdirB := hB.length_directory_le
  rw [h.tidy, List.length_nil] at hdirB
  refine ⟨B, _, ?_, ⟨hB.carries h.carries, hgap, ?_, ?_⟩, ?_⟩
  · rw [hB.bytes]
    exact Archive.insertZipEntry_eq_ok.2 ⟨hname, by omega, by omega, rfl⟩
  · intro it hit
    rcases List.mem_append.1 hit with hit | hit
    · exact h.all it hit
    · rw [List.mem_singleton.1 hit]
      exact hP.inserted hname hsize
  · have hcountB := congrArg List.length hB.headers
    rw [List.length_append, List.length_singleton] at hcountB
    rw [B.layout_size, hgap, List.length_nil]
    exact ⟨by simp only [Size.add_data]; omega, by simp only [Size.add_directory]; omega,
      by simp only [Size.add_count]; omega⟩
  · rw [List.map_append, List.map_singleton, slot_storedItem]

/-- A name that does not fit its length field is refused before anything else is looked at. -/
theorem insertZipEntry_of_long (A : Archive) {content : List UInt8}
    (hname : ¬ (asBytes name).length < 2 ^ 16) :
    Zip.insertZipEntry A.bytes name content = .error .truncated := by
  rw [Zip.insertZipEntry, A.parseLayout_bytes]
  show (u16TryFrom _ _ >>= _) = _
  rw [u16TryFrom, if_neg hname]
  rfl

/-- **Removing** filters the items. -/
theorem removeZipEntry (h : Stores P b A items) (name : String) :
    ∃ B, Zip.removeZipEntry A.bytes name = .ok B.bytes ∧ Stores P b B (kept name items) := by
  by_cases hname : ∃ e ∈ A.entries, e.name = name
  · obtain ⟨hdata, hdir, hcount⟩ := h.bounded
    obtain ⟨hkept, hbodies, hheaders⟩ := h.carries.kept_le name
    rw [A.layout_size] at hdata hdir hcount
    simp only [Size.add_data, Size.add_directory, Size.add_count] at hdata hdir hcount
    have hfits : Fits (kept name items) := ⟨by omega, by omega, by omega⟩
    refine ⟨assemble _ hfits, ?_, ⟨carries_assemble hfits, rfl, ?_, ?_⟩⟩
    · rw [assemble_bytes]
      exact (removeZipEntry_eq_ok h.carries hname).2 ⟨by omega, rfl⟩
    · exact fun it hit => h.all it (mem_kept.1 hit).1
    · have hdirectory : (dirBytes (placeHeaders 0 (kept name items))).length ≤
          (dirBytes A.headers).length := hheaders
      rw [Archive.layout_size, assemble_data, assemble_headers, assemble_gap, List.length_nil,
        length_placeHeaders]
      exact ⟨by simp only [Size.add_data]; omega, by simp only [Size.add_directory]; omega,
        by simp only [Size.add_count]; omega⟩
  · have hnone : ∀ e ∈ A.entries, e.name ≠ name := fun e he hn => hname ⟨e, he, hn⟩
    have hself : kept name items = items := h.carries.kept_of_absent hnone
    rw [hself]
    exact ⟨A, removeZipEntry_of_absent hnone, h⟩

/-- **Filling** replaces the content of the first slot of the name, or changes nothing. -/
theorem fillManifest (hP : ItemInvariant filled P) (h : Stores P b A items) (hname : filled name)
    (f : List UInt8) :
    ∃ B items', edited A.bytes (Zip.fillManifest A.bytes name f) =
        (Archive.bytes B, (Slot.fill (items.map Item.slot) name f).2) ∧
      Stores P b B items' ∧
      items'.map Item.slot = (Slot.fill (items.map Item.slot) name f).1 := by
  have hconcrete := A.fillManifest_bytes name f
  have hlookup := Slot.lookup_map name items
  rcases h.carries.room?_cases name with ⟨hroom, hfind⟩ | ⟨p, it, hroom, hfind, hit⟩
  · rw [hroom] at hconcrete
    rw [hfind] at hlookup
    rw [hconcrete, Slot.fill_of_none hlookup]
    exact ⟨A, items, rfl, h, rfl⟩
  · obtain ⟨r, hr, hlen, -⟩ := hit.getRange_content (A.room_le_bytes (A.room?_mem hroom))
    have hlen' : r.stop - r.start = it.slot.content.length := hlen
    have hplain : it.slot.plain = decide (p.1.method = 0 ∧ p.1.flags &&& 1 = 0) := hit.plain.symm
    rw [hfind] at hlookup
    have habstract := Slot.fill_of_some hlookup f
    rw [hroom] at hconcrete
    simp only [hr] at hconcrete
    by_cases hpl : p.1.method = 0 ∧ p.1.flags &&& 1 = 0
    · have hok : ¬ (p.1.method ≠ 0 ∨ p.1.flags &&& 1 ≠ 0) := by
        rw [hpl.1, hpl.2]
        simp
      rw [failIf, if_neg hok] at hconcrete
      rw [if_neg (by simp [hplain, hpl])] at habstract
      by_cases hf : f.length = r.stop - r.start
      · rw [if_neg (not_not.2 (hf.trans hlen'))] at habstract
        have hloc : A.Locates name p r := ⟨hroom, hpl.1, hpl.2, hr⟩
        obtain ⟨B, hB⟩ := hloc.exists_filled hf
        have hfilled : Zip.fillManifest A.bytes name f = .ok B.bytes := by
          rw [hB.bytes]
          exact A.fillManifest_eq_ok.2 ⟨p, r, hloc, hf, rfl⟩
        have hitname : it.header.name = name := hit.name.symm.trans (A.room?_name hroom)
        have hbit : p.1.flags &&& 0x0008 = 0 := by
          rw [hit.flags]
          exact hP.undescribed (h.all it (List.mem_of_find?_eq_some hfind)) (hitname ▸ hname)
        obtain ⟨pre, it₁, it', post, rfl, hcarries, hpre, hit₁, hit'⟩ :=
          hB.exists_replaced hloc hf hbit h.carries
        obtain ⟨hsize, hgap⟩ := hB.layout_size hloc hf
        have hwith := hB.filledWith hloc hf hit₁ hit'
        rw [hfilled, habstract]
        refine ⟨B, pre ++ it' :: post, rfl, ⟨hcarries, hgap h.tidy, ?_, hsize ▸ h.bounded⟩,
          (Slot.replace_map hpre (hit₁.name.symm.trans (A.room?_name hroom))
            hwith.slot).symm⟩
        intro x hx
        rcases List.mem_append.1 hx with hx | hx
        · exact h.all x (List.mem_append_left _ hx)
        · rcases List.mem_cons.1 hx with rfl | hx
          · exact hP.filled (h.all it₁ (List.mem_append_right _ List.mem_cons_self)) hwith
          · exact h.all x (List.mem_append_right _ (List.mem_cons_of_mem _ hx))
      · -- The length is the last check.
        have hf' : f.length ≠ it.slot.content.length := fun heq => hf (heq.trans hlen'.symm)
        have herror : Zip.fillManifest A.bytes name f = .error .truncated := by
          rw [hconcrete]
          show (failIf _ _ >>= _) = _
          rw [failIf, if_pos hf]
          rfl
        rw [if_pos hf'] at habstract
        rw [herror, habstract]
        exact ⟨A, items, rfl, h, rfl⟩
    · have hfail : p.1.method ≠ 0 ∨ p.1.flags &&& 1 ≠ 0 := not_and_or.1 hpl
      rw [failIf, if_pos hfail] at hconcrete
      rw [if_pos (by simp [hplain, hpl])] at habstract
      rw [hconcrete, habstract]
      exact ⟨A, items, rfl, h, rfl⟩

/-- **Reading** returns the content of the first slot of the name, if that is plain. -/
theorem readManifestEntry (h : Stores P b A items) (name : String) :
    answer .manifest (Zip.readManifestEntry A.bytes name) =
      Slot.read (items.map Item.slot) name := by
  rw [A.readManifestEntry_bytes, Slot.read, Slot.lookup_map]
  rcases h.carries.room?_cases name with ⟨hroom, hfind⟩ | ⟨p, it, hroom, hfind, hit⟩
  · rw [hroom, hfind]
    rfl
  · obtain ⟨r, hr, -, hget⟩ := hit.getRange_content (A.room_le_bytes (A.room?_mem hroom))
    have hplain : it.slot.plain = decide (p.1.method = 0 ∧ p.1.flags &&& 1 = 0) := hit.plain.symm
    rw [hroom, hfind, Option.map_some]
    simp only [hr]
    by_cases hpl : p.1.method = 0 ∧ p.1.flags &&& 1 = 0
    · have hok : ¬ (p.1.method ≠ 0 ∨ p.1.flags &&& 1 ≠ 0) := by
        rw [hpl.1, hpl.2]
        simp
      rw [failIf, if_neg hok, if_pos (hplain.trans (decide_eq_true hpl))]
      show answer _ (okOr (getRange _ _ _) _ >>= _) = _
      rw [hget]
      rfl
    · rw [failIf, if_pos (not_and_or.1 hpl), if_neg (by simp [hplain, hpl])]
      rfl

/-- The members are the slots that are not called like the manifest. -/
theorem collectionMembers (h : Stores P b A items) :
    answer (fun ms => .names (ms.map Binding.Member.name)) (Binding.collectionMembers A.bytes) =
      answer .names (((items.map Item.slot).filter fun s => s.name ≠ zipManifestPath).mapM
        Slot.memberName) := by
  -- The names of the hashed members, with the records left out.
  have hnames : ∀ its : List Item, (its.mapM Item.input).map (List.map Prod.fst) =
      (its.map Item.slot).mapM Slot.memberName := by
    intro its
    induction its with
    | nil => rfl
    | cons it its ih =>
        rw [List.map_cons, List.mapM_cons, List.mapM_cons, ← ih, Item.input, Slot.memberName]
        show _ = (Zip.validateMemberUri it.header.name >>= _) >>= _
        cases Zip.validateMemberUri it.header.name with
        | error e => rfl
        | ok u => cases its.mapM Item.input <;> rfl
  have hinputs := h.carries.memberInputs_eq
  rw [Slot.filter_map, ← hnames, ← hinputs, memberInputs]
  cases Binding.collectionMembers A.bytes with
  | error e => rfl
  | ok ms =>
      show Reply.names (ms.map Binding.Member.name) =
        .names ((ms.map fun m => (m.name, _)).map Prod.fst)
      rw [List.map_map]
      rfl

end Stores

/-- **Every call is the call on the slots**, as long as there is room for it. -/
theorem simulates_slots {filled : String → Prop} {P : Item → Prop} (hP : ItemInvariant filled P) :
    SimulatesWithin Store.call Slot.call
      (fun b z ss => ∃ A items, Archive.bytes A = z ∧ Stores P b A items ∧
        items.map Item.slot = ss)
      Store.cost (fun c => ∀ name f, c = .fill name f → filled name) := by
  have key : ∀ {b : Size} {z : List UInt8} {ss : List Slot} {c : Store.Call},
      (∃ A items, Archive.bytes A = z ∧ Stores P (Store.cost c + b) A items ∧
        items.map Item.slot = ss) → (∀ name f, c = .fill name f → filled name) →
      (Store.call z c).2 = (Slot.call ss c).2 ∧
        ∃ A items, Archive.bytes A = (Store.call z c).1 ∧ Stores P b A items ∧
          items.map Item.slot = (Slot.call ss c).1 := by
    rintro b _ _ c ⟨A, items, rfl, h, rfl⟩ hc
    have hfree : Store.cost c = 0 → Stores P b A items := by
      intro h0
      rw [h0, Size.zero_add] at h
      exact h
    cases c with
    | insert name content =>
        by_cases hname : (asBytes name).length < 2 ^ 16
        · obtain ⟨B, items', hB, hstores, hslots⟩ := Stores.insertZipEntry hP h hname
          have hspec : Slot.call (items.map Item.slot) (.insert name content) = (_, .done) :=
            if_pos hname
          have hcall : Store.call A.bytes (.insert name content) = (B.bytes, .done) := by
            rw [Store.call, hB, edited]
          rw [hspec, hcall]
          exact ⟨rfl, B, items', rfl, hstores, hslots⟩
        · have hlong : Zip.insertZipEntry A.bytes name content = .error .truncated :=
            Stores.insertZipEntry_of_long A hname
          have hspec : Slot.call (items.map Item.slot) (.insert name content) =
              (_, .failed .truncated) := if_neg hname
          have hcall : Store.call A.bytes (.insert name content) =
              (A.bytes, .failed .truncated) := by
            rw [Store.call, hlong, edited]
          rw [hspec, hcall]
          exact ⟨rfl, A, items, rfl, hfree (if_neg hname), rfl⟩
    | remove name =>
        obtain ⟨B, hB, hstores⟩ := (hfree rfl).removeZipEntry name
        simp only [Store.call, hB, edited]
        exact ⟨rfl, B, _, rfl, hstores, (Slot.filter_map name items).symm⟩
    | fill name f =>
        obtain ⟨B, items', hB, hstores, hslots⟩ :=
          Stores.fillManifest hP (hfree rfl) (hc name f rfl) f
        simp only [Store.call, hB]
        exact ⟨rfl, B, items', rfl, hstores, hslots⟩
    | read name => exact ⟨(hfree rfl).readManifestEntry name, A, items, rfl, hfree rfl, rfl⟩
    | content name =>
        refine ⟨?_, A, items, rfl, hfree rfl, rfl⟩
        simp only [Store.call, h.carries.readZipEntryContent_eq, Slot.call, Slot.lookup_map,
          Option.map_map]
        rfl
    | members => exact ⟨h.collectionMembers, A, items, rfl, hfree rfl, rfl⟩
  exact ⟨fun h hc => (key h hc).1, fun h hc => (key h hc).2⟩

/-! ## Histories -/

/-- Without a descriptor where the entry may be filled. -/
def Undescribed (filled : String → Prop) (it : Item) : Prop :=
  filled it.header.name → it.header.flags &&& 0x0008 = 0

theorem itemInvariant_undescribed (filled : String → Prop) :
    ItemInvariant filled (Undescribed filled) where
  undescribed h := h
  inserted hname hsize _ := by
    have hflags : (storedItem _ _ hname hsize).header.flags = 0 :=
      congrArg CdEntry.flags (storedHeader_entry 0 hname hsize 0)
    rw [hflags]
    decide
  filled {it f it'} h hwith hfilled := by
    have hname : it'.header.name = it.header.name := congrArg Slot.name hwith.slot
    rw [hwith.flags]
    exact h (hname ▸ hfilled)

/-- The names that a list of calls fills. -/
def Fills (calls : List Store.Call) (name : String) : Prop :=
  ∃ f, Store.Call.fill name f ∈ calls

/-- What a list of calls needs: nothing stands behind the headers, the fields have room for what is
inserted, and no filled name has a data descriptor. -/
structure Storable (L : ZipLayout) (calls : List Store.Call) : Prop where
  tidy : L.HeadersEndAtEocd
  bounded : (L.size + (calls.map Store.cost).sum).Bounded
  undescribed : ∀ e ∈ L.entries, Fills calls e.name → e.flags &&& 0x0008 = 0

namespace Storable

variable {A : Archive} {items : List Item} {calls : List Store.Call}

theorem all_undescribed (h : Storable A.layout calls) (hA : A.Carries items) :
    ∀ it ∈ items, Undescribed (Fills calls) it := by
  intro it hit hfills
  obtain ⟨p, hp, hitem⟩ := exists_left_of_forall₂ hA hit
  rw [← hitem.flags]
  exact h.undescribed p.1 (A.room_fst_mem hp) (hitem.name ▸ hfills)

/-- **A history on an archive that carries items** ends in an archive that carries items with the
same property, and agrees with the history on their slots. -/
theorem run {P : Item → Prop} (hP : ItemInvariant (Fills calls) P) (h : Storable A.layout calls)
    (hA : A.Carries items) (hall : ∀ it ∈ items, P it) :
    (runCalls Store.call A.bytes calls).2 =
        (runCalls Slot.call (items.map Item.slot) calls).2 ∧
      ∃ B items', Archive.bytes B = (runCalls Store.call A.bytes calls).1 ∧ Stores P 0 B items' ∧
        items'.map Item.slot = (runCalls Slot.call (items.map Item.slot) calls).1 :=
  (simulates_slots hP).run ⟨A, items, rfl,
    ⟨hA, A.headersEndAtEocd_iff.1 h.tidy, hall, h.bounded⟩, rfl⟩
    fun _ hc _ f hcf => ⟨f, hcf ▸ hc⟩

end Storable

/-- **Every history of entry operations is a history of operations on a list of slots**, if every
entry binds and the archive is fit for the calls: the replies agree, and so do the slots that are
left. -/
theorem store_refines {z : List UInt8} {L : ZipLayout} {calls : List Store.Call}
    (hL : parseLayout z = .ok L)
    (hbinds : ∀ i < L.entries.length, ∃ r, entryBindingRange z L i = .ok r)
    (h : Storable L calls) :
    ∃ ss, slots z = .ok ss ∧
      (runCalls Store.call z calls).2 = (runCalls Slot.call ss calls).2 ∧
      slots (runCalls Store.call z calls).1 = .ok (runCalls Slot.call ss calls).1 := by
  obtain ⟨A, rfl, rfl⟩ := exists_archive_of_parseLayout hL
  obtain ⟨items, hA⟩ := A.exists_carries_iff.2 hbinds
  obtain ⟨hreplies, B, items', hB, hstores, hslots⟩ :=
    h.run (itemInvariant_undescribed _) hA (h.all_undescribed hA)
  refine ⟨_, hA.slots_eq, hreplies, ?_⟩
  rw [← hB, hstores.carries.slots_eq, hslots]

/-- A name is inserted twice behind a member, filled, looked up and removed. -/
theorem store_refines_duplicates :
    (runCalls Store.call (buildZip [("a", [7])])
      [.insert "b" [1], .insert "b" [2], .fill "b" [3], .content "b", .fill "c" [0], .members,
        .remove "b", .content "b", .read "a"]).2 =
    [.done, .done, .done, .content (some [3]), .failed .truncated, .names ["a", "b", "b"], .done,
      .content none, .manifest (some [7])] := by
  have hstorable : Storable
      { entries := [⟨"a", 0, 0, crc32 [7], 1, 1, 0, 32, 47⟩], cdStart := 32, eocdOffset := 79 }
      [.insert "b" [1], .insert "b" [2], .fill "b" [3], .content "b", .fill "c" [0], .members,
        .remove "b", .content "b", .read "a"] :=
    { tidy := by decide
      bounded := ⟨by decide +kernel, by decide +kernel, by decide +kernel⟩
      undescribed := fun e he _ => by
        obtain rfl := List.mem_singleton.1 he
        decide }
  obtain ⟨ss, hss, hreplies, -⟩ := store_refines (z := buildZip [("a", [7])]) (by decide +kernel)
    (fun i hi => ⟨⟨0, 32⟩, by
      obtain rfl : i = 0 := Nat.lt_one_iff.1 hi
      decide +kernel⟩) hstorable
  have hslots : slots (buildZip [("a", [7])]) = .ok [⟨"a", [7], true⟩] := by decide +kernel
  obtain rfl := Except.ok.inj (hslots.symm.trans hss)
  rw [hreplies]
  rfl

/-! ## Intact archives -/

/-- Entry `i` binds, and has the CRC of its content if it is stored and unencrypted. -/
structure IntactAt (z : List UInt8) (L : ZipLayout) (i : Nat) : Prop where
  binds : ∃ r, entryBindingRange z L i = .ok r
  crc : ∀ r, L.entries[i]!.plain = true → entryContentRange z L i = .ok r →
    crc32 (slice z r.start (r.stop - r.start)) = L.entries[i]!.crc32

theorem IntactAt.of_ranges {z : List UInt8} {L : ZipLayout} {i : Nat} {t r : Range}
    (ht : entryBindingRange z L i = .ok t) (hr : entryContentRange z L i = .ok r)
    (hcrc : crc32 (slice z r.start (r.stop - r.start)) = L.entries[i]!.crc32) : IntactAt z L i :=
  ⟨⟨t, ht⟩, fun s _ hs => by rw [← Except.ok.inj (hr.symm.trans hs), hcrc]⟩

/-- Every entry of an archive is intact, and nothing stands behind its headers. -/
structure Intact (z : List UInt8) (L : ZipLayout) : Prop where
  tidy : L.HeadersEndAtEocd
  all : ∀ i < L.entries.length, IntactAt z L i

/-- The header of a plain item has the CRC of its content. -/
def Item.Intact (it : Item) : Prop :=
  it.slot.plain = true → C2paZip.crc32 it.content = it.header.crc32

/-- An insertion and a fill write the CRC of what they write. -/
theorem ItemInvariant.intact {filled : String → Prop} {P : Item → Prop}
    (hP : ItemInvariant filled P) : ItemInvariant filled fun it => P it ∧ it.Intact where
  undescribed h := hP.undescribed h.1
  inserted {name content} hname hsize := by
    refine ⟨hP.inserted hname hsize, fun _ => ?_⟩
    have hcontent : (storedItem name content hname hsize).content = content :=
      congrArg Slot.content slot_storedItem
    have hcrc : (storedItem name content hname hsize).header.crc32 = C2paZip.crc32 content :=
      congrArg CdEntry.crc32 (storedHeader_entry 0 hname hsize 0)
    rw [hcontent, hcrc]
  filled {it f it'} h hwith := by
    refine ⟨hP.filled h.1 hwith, fun _ => ?_⟩
    have hcontent : it'.content = f := congrArg Slot.content hwith.slot
    rw [hcontent, hwith.crc32]

/-- The intact entries of an archive are its intact items. -/
theorem Archive.Carries.intact_iff {A : Archive} {items : List Item} (hA : A.Carries items) :
    (∀ i < A.layout.entries.length, IntactAt A.bytes A.layout i) ↔ ∀ it ∈ items, it.Intact := by
  have hitem : ∀ {p : CdEntry × Nat} {it : Item}, p ∈ A.rooms → ItemAt A.bytes p it →
      ((∀ r, p.1.plain = true → contentRange A.bytes p.1 p.2 = .ok r →
        C2paZip.crc32 (slice A.bytes r.start (r.stop - r.start)) = p.1.crc32) ↔ it.Intact) := by
    intro p it hp hit
    obtain ⟨r, hr, -, hget⟩ := hit.getRange_content (A.room_le_bytes hp)
    obtain ⟨-, -, hslice⟩ := getRange_eq_some.1 hget
    rw [Item.Intact, ← hit.plain, ← hit.crc32, ← hslice]
    constructor
    · intro h hpl
      exact h r hpl hr
    · intro h r' hpl hr'
      rw [Except.ok.inj (hr'.symm.trans hr)]
      exact h hpl
  constructor
  · intro h it hit
    obtain ⟨p, hp, hpit⟩ := exists_left_of_forall₂ hA hit
    obtain ⟨i, hi, hpi⟩ := List.getElem_of_mem hp
    have hroom : A.rooms[i]? = some p := by rw [List.getElem?_eq_getElem hi, hpi]
    obtain ⟨he, hb⟩ := A.layout_of_room hroom
    have hlt : i < A.layout.entries.length := by
      rw [layout_entries, ← A.map_fst_rooms, List.length_map]
      exact hi
    refine (hitem hp hpit).1 fun r hpl hr => ?_
    have hcrc := (h i hlt).crc r
    rw [entryContentRange, he, hb] at hcrc
    exact hcrc hpl hr
  · intro h i hi
    have hroom := A.getElem?_room hi
    have hp := List.mem_of_getElem? hroom
    obtain ⟨it, hit, hpit⟩ := exists_right_of_forall₂ hA hp
    exact ⟨hA.binds hp, (hitem hp hpit).2 (h it hit)⟩

/-- **A history for which an intact archive has room leaves it intact**: whatever is inserted,
removed or read, and whatever is filled of names that have no entry with a data descriptor, with
whatever result. A fill leaves the CRC of a descriptor as it was, so that the entry need not bind
any longer. -/
theorem store_keeps_intact {z : List UInt8} {L : ZipLayout} {calls : List Store.Call}
    (hL : parseLayout z = .ok L) (hz : Intact z L) (h : Storable L calls) :
    ∃ L', parseLayout (runCalls Store.call z calls).1 = .ok L' ∧
      Intact (runCalls Store.call z calls).1 L' := by
  obtain ⟨A, rfl, rfl⟩ := exists_archive_of_parseLayout hL
  obtain ⟨items, hA⟩ := A.exists_carries_iff.2 fun i hi => (hz.all i hi).binds
  have hintact := hA.intact_iff.1 hz.all
  obtain ⟨-, B, items', hB, hstores, -⟩ :=
    h.run (itemInvariant_undescribed _).intact hA
      fun it hit => ⟨h.all_undescribed hA it hit, hintact it hit⟩
  rw [← hB]
  exact ⟨B.layout, B.parseLayout_bytes, B.headersEndAtEocd_iff.2 hstores.tidy,
    hstores.carries.intact_iff.2 fun it hit => (hstores.all it hit).2⟩

/-- Filling and inserting next to a member. -/
theorem store_keeps_intact_filled :
    ∃ L', parseLayout (runCalls Store.call (buildZip [("a", [7])])
        [.insert "b" [1], .fill "a" [2]]).1 = .ok L' ∧
      Intact (runCalls Store.call (buildZip [("a", [7])]) [.insert "b" [1], .fill "a" [2]]).1 L' :=
  store_keeps_intact
    (L := { entries := [⟨"a", 0, 0, crc32 [7], 1, 1, 0, 32, 47⟩], cdStart := 32, eocdOffset := 79 })
    (by decide +kernel)
    { tidy := by decide
      all := fun i hi => by
        obtain rfl : i = 0 := Nat.lt_one_iff.1 hi
        exact IntactAt.of_ranges (t := ⟨0, 32⟩) (r := ⟨31, 32⟩) (by decide +kernel)
          (by decide +kernel) (by decide +kernel) }
    { tidy := by decide
      bounded := ⟨by decide +kernel, by decide +kernel, by decide +kernel⟩
      undescribed := fun e he _ => by
        obtain rfl := List.mem_singleton.1 he
        decide }

end C2paZip
