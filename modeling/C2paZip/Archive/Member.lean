import C2paZip.Api
import C2paZip.Archive.Directory
import C2paZip.Library.Traverse

/-!
# Members and their room

`IsMember e m` says that the bytes `m` are exactly one member record of the entry `e`: local
header, name, extra field, data, and the descriptor where bit 3 asks for one. The binding range of
an entry is the record that starts at its local header and fits its room
(`bindingRange_eq_ok`), so binding a record depends on the record's own bytes only, wherever they
stand. `rooms` pairs every entry with the end of its room; the loops over entry indices of the
source are loops over rooms.
-/

set_option autoImplicit false

namespace C2paZip

open Library

/-! ## Member records -/

/-- Where the content of a local record starts: behind fixed header, name and extra field. -/
def contentStart (m : List UInt8) : Nat :=
  localHeaderFixedLen + (u16At m 26).toNat + (u16At m 28).toNat

/-- CRC and sizes of `e` stand at `pos`. -/
def SizesAt (e : CdEntry) (m : List UInt8) (pos : Nat) : Prop :=
  u32At m pos = e.crc32 ∧ (u32At m (pos + 4)).toNat = e.compressedSize ∧
    (u32At m (pos + 8)).toNat = e.uncompressedSize

instance (e : CdEntry) (m : List UInt8) (pos : Nat) : Decidable (SizesAt e m pos) := by
  unfold SizesAt
  infer_instance

/-- What follows the content of a record that ends at `stop`: a descriptor, with or without
signature, where bit 3 is set, and nothing otherwise. -/
def HasTrailer (e : CdEntry) (m : List UInt8) (stop : Nat) : Prop :=
  if e.flags &&& 0x0008 ≠ 0 then
    if u32At m stop = dataDescriptorSig then
      m.length = stop + 16 ∧ SizesAt e m (stop + 4)
    else
      m.length = stop + 12 ∧ SizesAt e m stop
  else
    m.length = stop ∧ SizesAt e m 14

/-- The bytes `m` are exactly one member record of the entry `e`. -/
structure IsMember (e : CdEntry) (m : List UInt8) : Prop where
  sig : u32At m 0 = localHeaderSig
  flags : u16At m 6 = e.flags
  trailer : HasTrailer e m (contentStart m + e.compressedSize)

theorem le_contentStart (m : List UInt8) : 30 ≤ contentStart m := by
  simp only [contentStart, localHeaderFixedLen]
  omega

namespace IsMember

variable {e : CdEntry} {m : List UInt8}

/-- The content lies inside the record. -/
theorem content_le (hm : IsMember e m) : contentStart m + e.compressedSize ≤ m.length := by
  have ht := hm.trailer
  unfold HasTrailer at ht
  split at ht
  · split at ht <;> omega
  · omega

theorem length_ge (hm : IsMember e m) : 30 ≤ m.length := by
  have h1 := hm.content_le
  have h2 := le_contentStart m
  omega

end IsMember

/-! ## The checks of the parser -/

theorem contentRange_eq_ok {z : List UInt8} {e : CdEntry} {b : Nat} {r : Range} :
    contentRange z e b = .ok r ↔
      u32At z e.localHeaderOffset = localHeaderSig ∧ u16At z (e.localHeaderOffset + 6) = e.flags ∧
      r.start = e.localHeaderOffset + localHeaderFixedLen +
        (u16At z (e.localHeaderOffset + 26)).toNat + (u16At z (e.localHeaderOffset + 28)).toNat ∧
      r.stop = r.start + e.compressedSize ∧ r.stop ≤ b ∧ r.stop ≤ z.length := by
  simp only [contentRange, bind_eq_ok, failIf_eq_ok, readU16_eq_ok, readU32_eq_ok, pure_eq_ok,
    exists_and_left, exists_eq_left', and_assoc, exists_const, gt_iff_lt, not_lt, ne_eq, not_not]
  simp only [localHeaderFixedLen]
  constructor
  · rintro ⟨-, hsig, -, hflags, -, -, hb, hz, rfl⟩
    exact ⟨hsig, hflags, rfl, rfl, hb, hz⟩
  · rintro ⟨hsig, hflags, hstart, hstop, hb, hz⟩
    refine ⟨by omega, hsig, by omega, hflags, by omega, by omega, by omega, by omega, ?_⟩
    cases r
    simp only at hstart hstop
    rw [hstop, hstart]

/-- The content of a record at its local header, as the record sees it. -/
theorem contentRange_eq_ok_iff_slice {z : List UInt8} {e : CdEntry} {b n : Nat} {r : Range}
    (hn : 30 ≤ n) (hz : e.localHeaderOffset + n ≤ z.length)
    (hr : r.stop ≤ e.localHeaderOffset + n) :
    contentRange z e b = .ok r ↔
      u32At (slice z e.localHeaderOffset n) 0 = localHeaderSig ∧
      u16At (slice z e.localHeaderOffset n) 6 = e.flags ∧
      r.start = e.localHeaderOffset + contentStart (slice z e.localHeaderOffset n) ∧
      r.stop = r.start + e.compressedSize ∧ r.stop ≤ b := by
  rw [contentRange_eq_ok, contentStart, u32At_slice (by omega), u16At_slice (by omega),
    u16At_slice (by omega), u16At_slice (by omega), Nat.add_zero]
  constructor
  · rintro ⟨h1, h2, h3, h4, h5, -⟩
    exact ⟨h1, h2, by omega, h4, h5⟩
  · rintro ⟨h1, h2, h3, h4, h5⟩
    exact ⟨h1, h2, by omega, h4, h5, by omega⟩

/-- CRC and sizes inside a record are CRC and sizes of the input. -/
theorem sizesAt_slice {z : List UInt8} {e : CdEntry} {p n i : Nat} (h : i + 12 ≤ n) :
    SizesAt e (slice z p n) i ↔ SizesAt e z (p + i) := by
  simp only [SizesAt]
  rw [u32At_slice (by omega), u32At_slice (by omega), u32At_slice (by omega), Nat.add_assoc,
    Nat.add_assoc]

theorem bindingEnd_eq_ok {z : List UInt8} {e : CdEntry} {b stop t : Nat} (hb : b ≤ z.length)
    (hlh : e.localHeaderOffset + 26 ≤ z.length) :
    bindingEnd z e b stop = .ok t ↔
      if e.flags &&& 0x0008 ≠ 0 then
        if stop + 4 ≤ z.length ∧ u32At z stop = dataDescriptorSig then
          t = stop + 16 ∧ t ≤ b ∧ SizesAt e z (stop + 4)
        else
          t = stop + 12 ∧ t ≤ b ∧ SizesAt e z stop
      else
        t = stop ∧ SizesAt e z (e.localHeaderOffset + 14) := by
  unfold bindingEnd
  by_cases hbit : e.flags &&& 0x0008 ≠ 0
  · simp only [if_pos hbit, readU32_eq_ok]
    generalize hstart : (if stop + 4 ≤ z.length ∧ u32At z stop = dataDescriptorSig then
      stop + 4 else stop) = start
    -- With or without signature, the fields of the descriptor stand at its start.
    have hfields : (if stop + 4 ≤ z.length ∧ u32At z stop = dataDescriptorSig then
        t = stop + 16 ∧ t ≤ b ∧ SizesAt e z (stop + 4)
      else t = stop + 12 ∧ t ≤ b ∧ SizesAt e z stop) ↔
        t = start + 12 ∧ t ≤ b ∧ SizesAt e z start := by
      rw [← hstart]
      split <;> rfl
    rw [hfields]
    simp only [bind_eq_ok, failIf_eq_ok, readU32_eq_ok, pure_eq_ok, exists_and_left,
      exists_eq_left', and_assoc, exists_const, gt_iff_lt, not_lt, ne_eq, not_not, SizesAt]
    constructor
    · rintro ⟨h1, -, h2, -, h3, -, h4, rfl⟩
      exact ⟨rfl, h1, h2, h3, h4⟩
    · rintro ⟨rfl, h1, h2, h3, h4⟩
      exact ⟨h1, by omega, h2, by omega, h3, by omega, h4, rfl⟩
  · simp only [if_neg hbit, bind_eq_ok, failIf_eq_ok, readU32_eq_ok, pure_eq_ok, exists_and_left,
      exists_eq_left', and_assoc, exists_const, ne_eq, not_not, SizesAt]
    constructor
    · rintro ⟨-, h1, -, h2, -, h3, rfl⟩
      exact ⟨rfl, h1, h2, h3⟩
    · rintro ⟨rfl, h1, h2, h3⟩
      exact ⟨by omega, h1, by omega, h2, by omega, h3, rfl⟩

/-- The end of the binding range is where a record with the trailer of `e` ends. -/
theorem bindingEnd_eq_ok_iff_slice {z : List UInt8} {e : CdEntry} {b n w : Nat} (hb : b ≤ z.length)
    (hw : 30 ≤ w) (hwn : w ≤ n) (hnb : e.localHeaderOffset + n ≤ b) :
    bindingEnd z e b (e.localHeaderOffset + w) = .ok (e.localHeaderOffset + n) ↔
      HasTrailer e (slice z e.localHeaderOffset n) w := by
  have hn : (slice z e.localHeaderOffset n).length = n := length_slice (by omega)
  rw [bindingEnd_eq_ok hb (by omega), HasTrailer, hn]
  by_cases hbit : e.flags &&& 0x0008 ≠ 0
  · rw [if_pos hbit, if_pos hbit]
    by_cases hfit : w + 12 ≤ n
    · rw [u32At_slice (by omega)]
      by_cases hsig : u32At z (e.localHeaderOffset + w) = dataDescriptorSig
      · -- The descriptor has a signature.
        rw [if_pos ⟨by omega, hsig⟩, if_pos hsig, Nat.add_assoc e.localHeaderOffset w 4]
        constructor
        · rintro ⟨hstop, -, hsizes⟩
          exact ⟨by omega, (sizesAt_slice (by omega)).2 hsizes⟩
        · rintro ⟨hstop, hsizes⟩
          exact ⟨by omega, hnb, (sizesAt_slice (by omega)).1 hsizes⟩
      · rw [if_neg fun h => hsig h.2, if_neg hsig]
        constructor
        · rintro ⟨hstop, -, hsizes⟩
          exact ⟨by omega, (sizesAt_slice (by omega)).2 hsizes⟩
        · rintro ⟨hstop, hsizes⟩
          exact ⟨by omega, hnb, (sizesAt_slice (by omega)).1 hsizes⟩
    · -- The record is too short for a descriptor, with or without signature.
      constructor
      · intro h
        split at h <;> omega
      · intro h
        split at h <;> omega
  · -- Without bit 3 the record ends with its content, and the local header has the CRC and sizes.
    rw [if_neg hbit, if_neg hbit]
    constructor
    · rintro ⟨hstop, hsizes⟩
      exact ⟨by omega, (sizesAt_slice (by omega)).2 hsizes⟩
    · rintro ⟨hstop, hsizes⟩
      exact ⟨by omega, (sizesAt_slice (by omega)).1 hsizes⟩

/-- A binding range ends behind the content and inside the room. -/
theorem bindingEnd_bounds {z : List UInt8} {e : CdEntry} {b stop t : Nat} (hb : b ≤ z.length)
    (hlh : e.localHeaderOffset + 26 ≤ z.length) (hstop : stop ≤ b)
    (ht : bindingEnd z e b stop = .ok t) : stop ≤ t ∧ t ≤ b := by
  rw [bindingEnd_eq_ok hb hlh] at ht
  split at ht
  · split at ht <;> omega
  · omega

/-- **The binding range is the member record that starts at the local header**, where it fits the
room. -/
theorem bindingRange_eq_ok {z : List UInt8} {e : CdEntry} {b : Nat} {r : Range}
    (hb : b ≤ z.length) :
    bindingRange z e b = .ok r ↔ r.start = e.localHeaderOffset ∧ r.start ≤ r.stop ∧ r.stop ≤ b ∧
      IsMember e (slice z r.start (r.stop - r.start)) := by
  obtain ⟨lh, t⟩ := r
  simp only [bindingRange, bind_eq_ok, pure_eq_ok, Range.mk.injEq]
  constructor
  · rintro ⟨c, hc, t', ht', rfl, rfl⟩
    obtain ⟨-, -, hstart, hstop, hcb, -⟩ := contentRange_eq_ok.1 hc
    simp only [localHeaderFixedLen] at hstart
    obtain ⟨hct, htb⟩ := bindingEnd_bounds hb (by omega) hcb ht'
    obtain ⟨n, rfl⟩ := Nat.exists_eq_add_of_le (show e.localHeaderOffset ≤ t' by omega)
    rw [Nat.add_sub_cancel_left]
    refine ⟨rfl, Nat.le_add_right _ _, htb, ?_⟩
    -- What was read from the input is what the record holds.
    obtain ⟨msig, mflags, mstart, mstop, -⟩ :=
      (contentRange_eq_ok_iff_slice (n := n) (by omega) (by omega) hct).1 hc
    have hge := le_contentStart (slice z e.localHeaderOffset n)
    rw [mstop, mstart, Nat.add_assoc] at ht' hct
    exact ⟨msig, mflags, (bindingEnd_eq_ok_iff_slice hb (by omega) (by omega) htb).1 ht'⟩
  · rintro ⟨rfl, hle, htb, hm⟩
    obtain ⟨n, rfl⟩ := Nat.exists_eq_add_of_le hle
    rw [Nat.add_sub_cancel_left] at hm
    have hn : (slice z e.localHeaderOffset n).length = n := length_slice (by omega)
    have hge := le_contentStart (slice z e.localHeaderOffset n)
    have hcontent := hm.content_le
    rw [hn] at hcontent
    refine ⟨⟨e.localHeaderOffset + contentStart (slice z e.localHeaderOffset n),
      e.localHeaderOffset + (contentStart (slice z e.localHeaderOffset n) + e.compressedSize)⟩, ?_,
      e.localHeaderOffset + n, ?_, rfl, rfl⟩
    · exact (contentRange_eq_ok_iff_slice (n := n) (by omega) (by omega) (by simp only; omega)).2
        ⟨hm.sig, hm.flags, rfl, (Nat.add_assoc _ _ _).symm, by simp only; omega⟩
    · exact (bindingEnd_eq_ok_iff_slice hb (by omega) hcontent htb).2 hm.trailer

/-- The content range depends on the bytes of the room only. -/
theorem contentRange_congr {z z' : List UInt8} {e : CdEntry} {b : Nat} {r : Range}
    (hb : b ≤ z.length) (hb' : b ≤ z'.length)
    (hroom : ∀ i, e.localHeaderOffset ≤ i → i < b → z[i]? = z'[i]?) :
    contentRange z e b = .ok r ↔ contentRange z' e b = .ok r := by
  -- One direction, for either input: the header fields read are in the room.
  have key : ∀ {x y : List UInt8}, b ≤ x.length → b ≤ y.length →
      (∀ i, e.localHeaderOffset ≤ i → i < b → x[i]? = y[i]?) →
      contentRange x e b = .ok r → contentRange y e b = .ok r := by
    intro x y hx hy hxy h
    obtain ⟨hsig, hflags, hstart, hstop, hroom, -⟩ := contentRange_eq_ok.1 h
    simp only [localHeaderFixedLen] at hstart
    have keep : ∀ i n, i + n ≤ 30 →
        slice y (e.localHeaderOffset + i) n = slice x (e.localHeaderOffset + i) n := by
      intro i n hi
      exact slice_congr fun k h1 h2 => (hxy k (by omega) (by omega)).symm
    refine contentRange_eq_ok.2 ⟨?_, ?_, ?_, hstop, hroom, by omega⟩
    · rw [← hsig]
      exact u32At_congr (keep 0 4 (by omega))
    · rw [← hflags]
      exact u16At_congr (keep 6 2 (by omega))
    · rw [u16At_congr (keep 26 2 (by omega)), u16At_congr (keep 28 2 (by omega))]
      exact hstart
  exact ⟨key hb hb' hroom, key hb' hb fun i h1 h2 => (hroom i h1 h2).symm⟩

/-- The binding range depends on the bytes of the room only. -/
theorem bindingRange_congr {z z' : List UInt8} {e : CdEntry} {b : Nat} {r : Range}
    (hb : b ≤ z.length) (hb' : b ≤ z'.length)
    (hroom : ∀ i, e.localHeaderOffset ≤ i → i < b → z[i]? = z'[i]?) :
    bindingRange z e b = .ok r ↔ bindingRange z' e b = .ok r := by
  rw [bindingRange_eq_ok hb, bindingRange_eq_ok hb']
  apply and_congr_right
  intro hstart
  apply and_congr_right
  intro hle
  apply and_congr_right
  intro hrb
  rw [slice_congr fun i h1 h2 => hroom i (by omega) (by omega)]

/-- The content range inside a binding range. -/
theorem contentRange_of_bindingRange {z : List UInt8} {e : CdEntry} {b : Nat} {r : Range}
    (hb : b ≤ z.length) (hr : bindingRange z e b = .ok r) :
    contentRange z e b = .ok
      ⟨r.start + contentStart (slice z r.start (r.stop - r.start)),
        r.start + contentStart (slice z r.start (r.stop - r.start)) + e.compressedSize⟩ := by
  obtain ⟨hstart, hle, hrb, hm⟩ := (bindingRange_eq_ok hb).1 hr
  have hlen : (slice z r.start (r.stop - r.start)).length = r.stop - r.start :=
    length_slice (by omega)
  have hge := hm.length_ge
  rw [hlen] at hge
  simp only [bindingRange, bind_eq_ok] at hr
  obtain ⟨c, hc, -⟩ := hr
  obtain ⟨-, -, hcstart, hcstop, -, -⟩ := contentRange_eq_ok.1 hc
  have hcs : c.start = r.start + contentStart (slice z r.start (r.stop - r.start)) := by
    rw [contentStart, u16At_slice (by omega), u16At_slice (by omega), hcstart, hstart]
    omega
  rw [hc, ← hcs, ← hcstop]

/-! ## Rooms -/

/-- Every entry with the end of its room: the next entry's local header, or the directory. -/
def rooms (cdStart : Nat) : List CdEntry → List (CdEntry × Nat)
  | [] => []
  | e :: es => (e, (es.head?.map CdEntry.localHeaderOffset).getD cdStart) :: rooms cdStart es

section Rooms

variable {cdStart : Nat}

theorem length_rooms (es : List CdEntry) : (rooms cdStart es).length = es.length := by
  induction es with
  | nil => rfl
  | cons e es ih => rw [rooms, List.length_cons, ih, List.length_cons]

theorem map_fst_rooms (cdStart : Nat) (es : List CdEntry) :
    (rooms cdStart es).map Prod.fst = es := by
  induction es with
  | nil => rfl
  | cons e es ih => rw [rooms, List.map_cons, ih]

/-- The room of entry `i` ends at the boundary of entry `i`. -/
theorem getElem?_rooms (L : ZipLayout) (i : Nat) :
    (rooms L.cdStart L.entries)[i]? = L.entries[i]?.map fun e => (e, entryBoundary L i) := by
  unfold entryBoundary
  generalize L.entries = es
  induction es generalizing i with
  | nil => simp [rooms]
  | cons e es ih =>
      cases i with
      | zero => simp [rooms, List.head?_eq_getElem?]
      | succ i => simpa [rooms] using ih i

/-- The rooms, by index. -/
theorem rooms_eq_map_range (L : ZipLayout) :
    rooms L.cdStart L.entries =
      (List.range L.entries.length).map fun i => (L.entries[i]!, entryBoundary L i) := by
  apply List.ext_getElem?
  intro i
  rw [getElem?_rooms]
  by_cases hi : i < L.entries.length
  · simp [hi]
  · simp [hi]

/-- A key-preserving change of the entries keeps the ends of the rooms. -/
theorem rooms_map {f : CdEntry → CdEntry}
    (hf : ∀ e, (f e).localHeaderOffset = e.localHeaderOffset) (es : List CdEntry) :
    rooms cdStart (es.map f) = (rooms cdStart es).map fun p => (f p.1, p.2) := by
  induction es with
  | nil => rfl
  | cons e es ih =>
      simp only [List.map_cons, rooms, ih]
      congr 2
      cases es with
      | nil => rfl
      | cons e' es => simp [hf]

/-- Rooms end where the next entry starts, whatever else changes. -/
theorem forall₂_rooms {R : CdEntry → CdEntry → Prop} {es fs : List CdEntry}
    (h : List.Forall₂ R es fs) (hR : ∀ e f, R e f → f.localHeaderOffset = e.localHeaderOffset) :
    List.Forall₂ (fun p q => R p.1 q.1 ∧ q.2 = p.2) (rooms cdStart es) (rooms cdStart fs) := by
  induction h with
  | nil => exact List.Forall₂.nil
  | @cons e f es fs hef hrest ih =>
      refine List.Forall₂.cons ⟨hef, ?_⟩ ih
      cases hrest with
      | nil => rfl
      | cons hef' _ => exact hR _ _ hef'

/-- An entry ends the room of the entry before it. -/
theorem rooms_append_cons (es fs : List CdEntry) (e : CdEntry) :
    rooms cdStart (es ++ e :: fs) = rooms e.localHeaderOffset es ++ rooms cdStart (e :: fs) := by
  induction es with
  | nil => rfl
  | cons d es ih =>
      cases es with
      | nil => rfl
      | cons d' es => exact congrArg _ ih

/-- Where the file data ends elsewhere, only the last room is another one. -/
theorem mem_rooms_of_end {es : List CdEntry} {q : CdEntry × Nat} (hq : q ∈ rooms cdStart es)
    (stop : Nat) : (q ∈ rooms stop es ∧ ∃ e ∈ es, q.2 = e.localHeaderOffset) ∨
      (q.1, stop) ∈ rooms stop es ∧ q.2 = cdStart := by
  induction es with
  | nil => cases hq
  | cons e es ih =>
      rcases List.mem_cons.1 hq with rfl | hq
      · cases es with
        | nil => exact Or.inr ⟨List.mem_cons_self, rfl⟩
        | cons e' es =>
            exact Or.inl ⟨List.mem_cons_self, e', List.mem_cons_of_mem _ List.mem_cons_self, rfl⟩
      · rcases ih hq with ⟨hmem, f, hf, hend⟩ | ⟨hmem, hend⟩
        · exact Or.inl ⟨List.mem_cons_of_mem _ hmem, f, List.mem_cons_of_mem _ hf, hend⟩
        · exact Or.inr ⟨List.mem_cons_of_mem _ hmem, hend⟩

/-- A later entry starts at or behind the end of an earlier entry's room. -/
theorem pairwise_rooms {es : List CdEntry}
    (hs : es.Pairwise fun a b => a.localHeaderOffset ≤ b.localHeaderOffset) :
    (rooms cdStart es).Pairwise fun p q => p.2 ≤ q.1.localHeaderOffset := by
  induction es with
  | nil => exact List.Pairwise.nil
  | cons e es ih =>
      obtain ⟨-, hes⟩ := List.pairwise_cons.1 hs
      refine List.Pairwise.cons ?_ (ih hes)
      intro q hq
      have hmem : q.1 ∈ es := by
        rw [← map_fst_rooms cdStart es]
        exact List.mem_map_of_mem hq
      cases es with
      | nil => cases hmem
      | cons e' es =>
          obtain ⟨hle, -⟩ := List.pairwise_cons.1 hes
          rcases List.mem_cons.1 hmem with h | h
          · rw [h]
            exact Nat.le_refl _
          · exact hle q.1 h

/-- Every room ends at or before the directory. -/
theorem room_le {es : List CdEntry} (hcd : ∀ e ∈ es, e.localHeaderOffset ≤ cdStart)
    {p : CdEntry × Nat} (hp : p ∈ rooms cdStart es) : p.2 ≤ cdStart := by
  induction es with
  | nil => cases hp
  | cons e es ih =>
      rcases List.mem_cons.1 hp with rfl | hp
      · cases es with
        | nil => exact Nat.le_refl _
        | cons e' es => exact hcd e' (by simp)
      · exact ih (fun d hd => hcd d (List.mem_cons_of_mem _ hd)) hp

end Rooms

namespace Archive

variable (A : Archive)

/-- The rooms of an archive. -/
def rooms : List (CdEntry × Nat) := C2paZip.rooms A.data.length A.entries

theorem map_fst_rooms : A.rooms.map Prod.fst = A.entries :=
  C2paZip.map_fst_rooms _ _

theorem pairwise_rooms : A.rooms.Pairwise fun p q => p.2 ≤ q.1.localHeaderOffset :=
  C2paZip.pairwise_rooms (pairwise_sortByKey _ _)

theorem room_fst_mem {p : CdEntry × Nat} (hp : p ∈ A.rooms) : p.1 ∈ A.entries := by
  rw [← A.map_fst_rooms]
  exact List.mem_map_of_mem hp

theorem room_le {p : CdEntry × Nat} (hp : p ∈ A.rooms) : p.2 ≤ A.data.length :=
  C2paZip.room_le (fun _ he => Nat.le_of_lt (A.localHeaderOffset_lt he)) hp

theorem room_le_bytes {p : CdEntry × Nat} (hp : p ∈ A.rooms) : p.2 ≤ A.bytes.length := by
  have h1 := A.room_le hp
  have h2 := A.length_bytes
  omega

/-- The rooms by index. -/
theorem getElem?_room {i : Nat} (hi : i < A.layout.entries.length) :
    A.rooms[i]? = some (A.layout.entries[i]!, entryBoundary A.layout i) := by
  have hget : A.rooms[i]? = A.layout.entries[i]?.map fun e => (e, entryBoundary A.layout i) :=
    getElem?_rooms A.layout i
  rw [hget, List.getElem?_eq_getElem hi, getElem!_pos A.layout.entries i hi]
  rfl

/-- Entry and boundary by index. -/
theorem layout_of_room {i : Nat} {p : CdEntry × Nat} (hp : A.rooms[i]? = some p) :
    A.layout.entries[i]! = p.1 ∧ entryBoundary A.layout i = p.2 := by
  have hget : A.rooms[i]? = A.layout.entries[i]?.map fun e => (e, entryBoundary A.layout i) :=
    getElem?_rooms A.layout i
  rw [hp] at hget
  obtain ⟨e, he, rfl⟩ := Option.map_eq_some_iff.1 hget.symm
  exact ⟨by rw [getElem!_def, he], rfl⟩

theorem entryContentRange_of_room {i : Nat} {p : CdEntry × Nat} (hp : A.rooms[i]? = some p) :
    entryContentRange A.bytes A.layout i = contentRange A.bytes p.1 p.2 := by
  obtain ⟨he, hb⟩ := A.layout_of_room hp
  rw [entryContentRange, he, hb]

/-- The byte range of the member loop is a traversal of the rooms. -/
theorem memberRanges_eq_ok {ms : List (String × Range)} :
    Zip.memberRanges A.bytes = .ok ms ↔
      List.Forall₂ (fun p m => Zip.validateMemberUri p.1.name = .ok () ∧
        bindingRange A.bytes p.1 p.2 = .ok m.2 ∧ m.1 = p.1.name) A.rooms ms := by
  have hrooms : A.rooms = (List.range A.layout.entries.length).map fun i =>
      (A.layout.entries[i]!, entryBoundary A.layout i) := rooms_eq_map_range A.layout
  -- The loop over indices, as a loop over rooms.
  have hloop : Zip.memberRanges A.bytes = A.rooms.mapM fun p => do
      Zip.validateMemberUri p.1.name
      let range ← bindingRange A.bytes p.1 p.2
      return (p.1.name, range) := by
    rw [hrooms, List.mapM_map, Zip.memberRanges, A.parseLayout_bytes]
    rfl
  have hround : ∀ (p : CdEntry × Nat) (m : String × Range),
      (do
        Zip.validateMemberUri p.1.name
        let range ← bindingRange A.bytes p.1 p.2
        return (p.1.name, range)) = (Except.ok m : Except Error (String × Range)) ↔
      Zip.validateMemberUri p.1.name = .ok () ∧
        bindingRange A.bytes p.1 p.2 = .ok m.2 ∧ m.1 = p.1.name := by
    intro p m
    obtain ⟨n, r⟩ := m
    simp only [bind_eq_ok, pure_eq_ok, Prod.mk.injEq]
    constructor
    · rintro ⟨u, hv, range, hr, rfl, rfl⟩
      exact ⟨hv, hr, rfl⟩
    · rintro ⟨hv, hr, rfl⟩
      exact ⟨(), hv, r, hr, rfl, rfl⟩
  rw [hloop, mapM_eq_ok]
  exact ⟨List.Forall₂.imp fun p m => (hround p m).1, List.Forall₂.imp fun p m => (hround p m).2⟩

end Archive

/-- The members are the member ranges without those of manifest entries. -/
theorem collectionMembers_eq_ok {z : List UInt8} {ms : List Binding.Member} :
    Binding.collectionMembers z = .ok ms ↔ ∃ rs, Zip.memberRanges z = .ok rs ∧
      (rs.filter fun m => m.1 ≠ zipManifestPath).map (fun m => ⟨m.1, m.2⟩) = ms := by
  simp only [Binding.collectionMembers, bind_eq_ok, pure_eq_ok]

end C2paZip
