import C2paZip.Agreement
import C2paZip.Archive.Remove
import C2paZip.Zip.Build

/-!
# No input makes the crate panic

Filling, inserting and removing on a `w`-bit target agree with the model, too, so that no operation
of the API panics (`no_panic`). A removal rests on two loop invariants: the file data copied so far
ends in front of every entry to come (`Retaining`), and the directory that is written is no longer
than the one that was read (`Copying`).
-/

set_option autoImplicit false

namespace C2paZip

open Library
open Library.Outcome (add_of_lt sub_of_le index_of_lt range_of_le copyFrom_of_le)
open Library.Buffer (GrowsBelow exists_withCapacity exists_extend exists_foldlM_extend
  exists_copyFrom growsBelow_exact)

/-! ## Filling and inserting -/

section Writing

variable {w : Nat} {z : List UInt8} {name : String} {content : List UInt8}

theorem agrees_fillManifest (hz : Roomy w z.length) :
    Agrees (Machine.Zip.fillManifest w z name content) (Zip.fillManifest z name content) := by
  refine agrees_of_parse hz ?_
  rintro A rfl
  have hroom : A.bytes.length + 2 ^ 31 ≤ 2 ^ w := hz
  refine .bind (.lift _) fun i hi => ?_
  have hlt := entryIndex_lt (okOr_eq_ok.1 hi)
  refine .step (index_of_lt hlt) (agrees_failIf fun _ => ?_)
  refine .bind (agrees_entryContentRange hz hlt) fun range hrange => agrees_failIf fun hsize => ?_
  -- The content ends inside the input, so the local CRC in front of it stands there, too.
  obtain ⟨-, -, hstart, hstop, -, hle⟩ := contentRange_eq_ok.1 hrange
  have hfixed : localHeaderFixedLen = 30 := rfl
  have hcontent : content.length = range.stop - range.start := not_not.1 hsize
  obtain ⟨hcd, -, hend⟩ := A.cdHeader_bounds (A.getElem_mem_entries hlt)
  have hlen := A.eocdOffset_add_le
  refine .step (copyFrom_of_le (by omega) hle hcontent) ?_
  have hout : (overwrite A.bytes range.start content).length = A.bytes.length :=
    length_overwrite (by omega)
  refine .step (add_of_lt (by omega)) (.step (add_of_lt (by omega)) ?_)
  refine .step (add_of_lt (by omega)) (.step (copyFrom_of_le (by omega) (by omega) ?_) ?_)
  · rw [length_u32ToLe, Nat.add_sub_cancel_left]
  have hout' : (overwrite (overwrite A.bytes range.start content)
      (A.layout.entries[i]!.localHeaderOffset + 14) (u32ToLe (crc32 content))).length =
      A.bytes.length := by
    rw [length_overwrite (by rw [length_u32ToLe]; omega), hout]
  refine .step (add_of_lt (by omega)) (.of_eq (copyFrom_of_le (by omega) (by omega) ?_))
  rw [length_u32ToLe, Nat.add_sub_cancel_left]

section Writers

variable {grow : Nat → Nat} {limit : Nat} {out : Buffer w UInt8} (nameB : List UInt8)
  (crc size offset cdSize cdStart : UInt32) (nameLen total : UInt16)

theorem exists_writeLocalHeader (hgrow : GrowsBelow w grow limit)
    (h : out.items.length + (30 + nameB.length) < limit) :
    ∃ out', Machine.writeLocalHeader grow out nameB crc size nameLen = .ok out' ∧
      out'.items = writeLocalHeader out.items nameB crc size nameLen := by
  refine exists_foldlM_extend hgrow ?_ (by rwa [length_append_writeLocalHeader])
  simp only [List.flatten_cons, List.flatten_nil, List.append_nil, writeLocalHeader]

theorem exists_writeCdHeader (hgrow : GrowsBelow w grow limit)
    (h : out.items.length + (46 + nameB.length) < limit) :
    ∃ out', Machine.writeCdHeader grow out nameB crc size nameLen offset = .ok out' ∧
      out'.items = writeCdHeader out.items nameB crc size nameLen offset := by
  refine exists_foldlM_extend hgrow ?_ (by rwa [length_append_writeCdHeader])
  simp only [List.flatten_cons, List.flatten_nil, List.append_nil, writeCdHeader]

theorem exists_writeEocd (hgrow : GrowsBelow w grow limit) (h : out.items.length + 22 < limit) :
    ∃ out', Machine.writeEocd grow out total cdSize cdStart = .ok out' ∧
      out'.items = writeEocd out.items total cdSize cdStart := by
  refine exists_foldlM_extend hgrow ?_ (by rwa [length_writeEocd])
  simp only [List.flatten_cons, List.flatten_nil, List.append_nil, writeEocd]

end Writers

/-- The prefix that inserting keeps. -/
theorem range_data (A : Archive) :
    (Outcome.range A.bytes 0 A.layout.cdStart : Outcome Error (List UInt8)) =
      .ok (A.bytes.take A.layout.cdStart) := by
  have hcd := A.data_length_le_eocdOffset
  have hend := A.eocdOffset_add_le
  rw [Archive.layout_cdStart, range_of_le (Nat.zero_le _) (by omega), Nat.sub_zero, slice_eq_take]

/-- The directory that inserting copies. -/
theorem range_directory (A : Archive) :
    (Outcome.range A.bytes A.layout.cdStart A.layout.eocdOffset : Outcome Error (List UInt8)) =
      .ok (slice A.bytes A.layout.cdStart (A.layout.eocdOffset - A.layout.cdStart)) := by
  have hend := A.eocdOffset_add_le
  rw [Archive.layout_cdStart, Archive.layout_eocdOffset,
    range_of_le A.data_length_le_eocdOffset (by omega)]

theorem agrees_insertZipEntry {grow : Nat → Nat} {limit : Nat} (hgrow : GrowsBelow w grow limit)
    (hz : Roomy w z.length)
    (hout : z.length + content.length + 2 * (asBytes name).length + 128 < limit) :
    Agrees (Machine.Zip.insertZipEntry w grow z name content)
      (Zip.insertZipEntry z name content) := by
  refine agrees_of_parse hz ?_
  rintro A rfl
  have hroom : A.bytes.length + 2 ^ 31 ≤ 2 ^ w := hz
  have hlimit := hgrow.limit_le
  have hhalf : 2 ^ (w - 1) ≤ 2 ^ w := Nat.pow_le_pow_right (by omega) (Nat.sub_le w 1)
  have hcd := A.data_length_le_eocdOffset
  have hend := A.eocdOffset_add_le
  have hdata : (A.bytes.take A.layout.cdStart).length = A.data.length :=
    List.length_take_of_le (by rw [Archive.layout_cdStart]; omega)
  have hdir : (slice A.bytes A.layout.cdStart
      (A.layout.eocdOffset - A.layout.cdStart)).length = A.eocdOffset - A.data.length :=
    length_slice (by rw [Archive.layout_cdStart, Archive.layout_eocdOffset]; omega)
  refine .bind (.lift _) fun nameLen _ => .bind (.lift _) fun size _ => ?_
  refine .bind (.lift _) fun offset _ => ?_
  dsimp only
  refine .step (add_of_lt (by omega)) (.step (add_of_lt (by omega)) ?_)
  obtain ⟨out₀, hnew, hout₀⟩ := exists_withCapacity (ε := Error) (α := UInt8) (w := w)
    (n := A.bytes.length + content.length + 128) (by omega)
  refine .step hnew (.step (range_data A) ?_)
  -- File data, the new record, the old directory and its new header, each behind the other.
  obtain ⟨out₁, hext₁, hout₁⟩ := exists_extend (ε := Error) hgrow
    (show out₀.items ++ A.bytes.take A.layout.cdStart = _ by rw [hout₀, List.nil_append])
    (by omega)
  obtain ⟨out₂, hlocal, hout₂⟩ := exists_writeLocalHeader (asBytes name) (crc32 content) size
    nameLen hgrow (show out₁.items.length + _ < limit by rw [hout₁]; omega)
  rw [hout₁] at hout₂
  have hlen₂ := congrArg List.length hout₂
  rw [length_append_writeLocalHeader, hdata] at hlen₂
  obtain ⟨out₃, hext₃, hout₃⟩ := exists_extend (ε := Error) hgrow
    (show out₂.items ++ content = _ from rfl) (by rw [List.length_append]; omega)
  have hlen₃ := congrArg List.length hout₃
  rw [List.length_append] at hlen₃
  refine .step hext₁ (.step hlocal (.step hext₃ ?_))
  rw [← hout₂, ← hout₃]
  refine .bind (.lift _) fun newCdStart hstart => ?_
  obtain ⟨hnarrow, rfl⟩ := u32TryFrom_eq_ok.1 hstart
  obtain ⟨out₄, hext₄, hout₄⟩ := exists_extend (ε := Error) hgrow
    (show out₃.items ++ slice A.bytes A.layout.cdStart
      (A.layout.eocdOffset - A.layout.cdStart) = _ from rfl)
    (by rw [List.length_append, hdir]; omega)
  have hlen₄ := congrArg List.length hout₄
  rw [List.length_append, hdir] at hlen₄
  obtain ⟨out₅, hheader, hout₅⟩ := exists_writeCdHeader (asBytes name) (crc32 content) size offset
    nameLen hgrow (show out₄.items.length + _ < limit by omega)
  rw [hout₄] at hout₅
  have hlen₅ := congrArg List.length hout₅
  rw [← hout₄, length_append_writeCdHeader] at hlen₅
  refine .step (range_directory A) (.step hext₄ (.step hheader ?_))
  rw [← hout₅]
  -- The directory grew behind its start, and a count of entries has sixteen bits.
  have hcount : A.layout.entries.length + 1 < 2 ^ w := by
    rw [Archive.layout_entries, A.length_entries]
    have := A.headers_length_lt
    omega
  refine .step (sub_of_le (by rw [u32_toNat_ofNat hnarrow]; omega)) ?_
  refine .bind (.lift _) fun newCdSize _ => ?_
  refine .step (add_of_lt hcount) (.bind (.lift _) fun totalEntries _ => ?_)
  obtain ⟨out₆, hrecord, hout₆⟩ := exists_writeEocd newCdSize (UInt32.ofNat out₃.items.length)
    totalEntries hgrow (show out₅.items.length + _ < limit by omega)
  refine .step hrecord ?_
  rw [hout₆]
  exact .pure _

end Writing

/-! ## Removing -/

/-- What holds in the first loop of a removal with the entries `rest` to come: the file data copied
so far ends in front of all of them, and what is retained came from the directory. -/
structure Retaining (A : Archive) (rest : List (CdEntry × Nat))
    (st : List UInt8 × List (CdEntry × UInt32)) : Prop where
  entries : ∀ x ∈ rest, A.layout.entries[x.2]? = some x.1
  ordered : rest.Pairwise fun x y => entryBoundary A.layout x.2 ≤ y.1.localHeaderOffset
  out_le : ∀ x ∈ rest, st.1.length ≤ x.1.localHeaderOffset
  out_le_data : st.1.length ≤ A.data.length
  retained : ∀ x ∈ st.2, x.1 ∈ A.entries
  headers_le : (st.2.map fun x => x.1.cdHeaderLen).sum + (rest.map fun x => x.1.cdHeaderLen).sum ≤
    (dirBytes A.headers).length

/-- What holds in the second loop with the headers of `rest` to come. -/
structure Copying (A : Archive) (base : Nat) (rest : List (CdEntry × UInt32)) (out : List UInt8) :
    Prop where
  entries : ∀ x ∈ rest, x.1 ∈ A.entries
  base_le : base ≤ out.length
  length_le : out.length + (rest.map fun x => x.1.cdHeaderLen).sum ≤ A.eocdOffset

section Removing

variable {w limit : Nat} {grow : Nat → Nat} {A : Archive} {name : String}

/-- The rooms, by entry and index. -/
theorem rooms_eq_map_zipIdx (A : Archive) :
    A.rooms = A.layout.entries.zipIdx.map fun x => (x.1, entryBoundary A.layout x.2) := by
  have hrooms : A.rooms = (List.range A.layout.entries.length).map fun i =>
      (A.layout.entries[i]!, entryBoundary A.layout i) := rooms_eq_map_range A.layout
  rw [hrooms, zipIdx_eq_map_range, List.map_map]
  rfl

theorem retaining_start (A : Archive) : Retaining A A.layout.entries.zipIdx ([], []) where
  entries _ hx := List.mem_zipIdx_iff_getElem?.1 hx
  ordered := by
    have h := A.pairwise_rooms
    rw [rooms_eq_map_zipIdx] at h
    exact List.pairwise_map.1 h
  out_le _ _ := Nat.zero_le _
  out_le_data := Nat.zero_le _
  retained _ hx := absurd hx List.not_mem_nil
  headers_le := by
    have hmap := congrArg (List.map CdEntry.cdHeaderLen) (List.zipIdx_map_fst 0 A.entries)
    rw [List.map_map] at hmap
    have hsum := A.sum_cdHeaderLen
    rw [← hmap] at hsum
    rw [List.map_nil, List.sum_nil, Nat.zero_add]
    exact Nat.le_of_eq hsum

/-- The state of the first loop without the capacity of its vector. -/
def loopState (st : Buffer w UInt8 × List (CdEntry × UInt32)) :
    List UInt8 × List (CdEntry × UInt32) := (st.1.items, st.2)

namespace Retaining

variable {x : CdEntry × Nat} {rest : List (CdEntry × Nat)}
  {st st' : List UInt8 × List (CdEntry × UInt32)}

theorem index_lt (h : Retaining A (x :: rest) st) : x.2 < A.layout.entries.length := by
  obtain ⟨hlt, -⟩ := List.getElem?_eq_some_iff.1 (h.entries x List.mem_cons_self)
  exact hlt

theorem entry_eq (h : Retaining A (x :: rest) st) : A.layout.entries[x.2]! = x.1 := by
  rw [getElem!_def, h.entries x List.mem_cons_self]

theorem room_mem (h : Retaining A (x :: rest) st) :
    (x.1, entryBoundary A.layout x.2) ∈ A.rooms := by
  rw [← h.entry_eq]
  exact List.mem_of_getElem? (A.getElem?_room h.index_lt)

/-- The record of the next entry, copied, ends in the room of that entry. -/
theorem end_le (h : Retaining A (x :: rest) st) {r : Range} {data : List UInt8}
    (hr : entryBindingRange A.bytes A.layout x.2 = .ok r)
    (hdata : getRange A.bytes r.start r.stop = some data) :
    (st.1 ++ data).length ≤ entryBoundary A.layout x.2 := by
  rw [entryBindingRange, h.entry_eq] at hr
  obtain ⟨hstart, hle, hstop, -⟩ := (bindingRange_eq_ok (A.room_le_bytes h.room_mem)).1 hr
  obtain ⟨-, hbytes, rfl⟩ := getRange_eq_some.1 hdata
  have hout := h.out_le x List.mem_cons_self
  rw [List.length_append, length_slice (by omega)]
  omega

/-- One round keeps the invariant. -/
theorem round (h : Retaining A (x :: rest) st)
    (hround : Zip.retainEntry A.bytes A.layout name st x = .ok st') : Retaining A rest st' := by
  obtain ⟨hnext, hrest⟩ := List.pairwise_cons.1 h.ordered
  have hentries := fun y hy => h.entries y (List.mem_cons_of_mem x hy)
  have hsum := h.headers_le
  rw [List.map_cons, List.sum_cons] at hsum
  obtain ⟨r, hr, hround⟩ := bind_eq_ok.1 hround
  by_cases hn : x.1.name = name
  · rw [if_pos hn, pure_eq_ok] at hround
    subst hround
    have hout := fun y hy => h.out_le y (List.mem_cons_of_mem x hy)
    exact ⟨hentries, hrest, hout, h.out_le_data, h.retained, by omega⟩
  · rw [if_neg hn] at hround
    simp only [bind_eq_ok, okOr_eq_ok, pure_eq_ok] at hround
    obtain ⟨data, hdata, off, -, rfl⟩ := hround
    have hend := h.end_le hr hdata
    refine ⟨hentries, hrest, fun y hy => Nat.le_trans hend (hnext y hy),
      Nat.le_trans hend (A.room_le h.room_mem), ?_, ?_⟩
    · intro y hy
      rcases List.mem_append.1 hy with hy | hy
      · exact h.retained y hy
      · rw [List.mem_singleton.1 hy]
        exact List.mem_of_getElem? (h.entries x List.mem_cons_self)
    · simp only [List.map_append, List.sum_append, List.map_singleton, List.sum_singleton]
      omega

theorem agrees_round {st : Buffer w UInt8 × List (CdEntry × UInt32)}
    (h : Retaining A (x :: rest) (loopState st)) (hgrow : GrowsBelow w grow limit)
    (hz : Roomy w A.bytes.length) (hsize : A.bytes.length < limit) :
    Agrees (loopState <$> Machine.Zip.retainEntry w grow A.bytes A.layout name st x)
      (Zip.retainEntry A.bytes A.layout name (loopState st) x) := by
  rw [Machine.Zip.retainEntry, map_bind]
  refine .bind (agrees_entryBindingRange hz h.index_lt) fun r hr => ?_
  by_cases hn : x.1.name = name
  · rw [if_pos hn, if_pos hn]
    exact .pure (loopState st)
  · rw [if_neg hn, if_neg hn]
    simp only [map_bind]
    refine .bind (.lift _) fun data hdata => .bind (.lift _) fun off _ => ?_
    have hend := h.end_le hr (okOr_eq_ok.1 hdata)
    have hroom := A.room_le_bytes h.room_mem
    obtain ⟨out, hext, hout⟩ := exists_extend (ε := Error) hgrow
      (show st.1.items ++ data = _ from rfl) (Nat.lt_of_le_of_lt (Nat.le_trans hend hroom) hsize)
    refine .step hext ?_
    show Agrees (Pure.pure (out.items, _)) _
    rw [hout]
    exact .pure _

end Retaining

namespace Copying

variable {base : Nat} {x : CdEntry × UInt32} {rest : List (CdEntry × UInt32)}
  {out out' : List UInt8}

/-- The header copied next is a whole header inside the input. -/
theorem header_le (h : Copying A base (x :: rest) out) :
    46 ≤ x.1.cdHeaderLen ∧ x.1.cdHeaderOffset + x.1.cdHeaderLen ≤ A.bytes.length := by
  obtain ⟨hfixed, -, hend⟩ := A.cdHeader_bounds (h.entries x List.mem_cons_self)
  exact ⟨hfixed, Nat.le_trans hend (Nat.le_trans (Nat.le_add_right _ 22) A.eocdOffset_add_le)⟩

theorem length_append (h : Copying A base (x :: rest) out) :
    (out ++ slice A.bytes x.1.cdHeaderOffset x.1.cdHeaderLen).length =
      out.length + x.1.cdHeaderLen := by
  rw [List.length_append, length_slice h.header_le.2]

theorem round (h : Copying A base (x :: rest) out)
    (hround : Zip.copyCdHeader A.bytes out x = .ok out') : Copying A base rest out' := by
  obtain ⟨hfixed, -⟩ := h.header_le
  have happend := h.length_append
  have hlen := h.length_le
  have hbase := h.base_le
  rw [List.map_cons, List.sum_cons] at hlen
  simp only [Zip.copyCdHeader, bind_eq_ok, okOr_eq_ok, getRange_eq_some, pure_eq_ok,
    Nat.add_sub_cancel_left] at hround
  obtain ⟨hdr, ⟨-, -, rfl⟩, rfl⟩ := hround
  have hout : (overwrite (out ++ slice A.bytes x.1.cdHeaderOffset x.1.cdHeaderLen)
      (out.length + 42) (u32ToLe x.2)).length = out.length + x.1.cdHeaderLen := by
    rw [length_overwrite (by rw [length_u32ToLe]; omega), happend]
  exact ⟨fun y hy => h.entries y (List.mem_cons_of_mem x hy), by omega, by omega⟩

theorem agrees_round {out : Buffer w UInt8} (h : Copying A base (x :: rest) out.items)
    (hgrow : GrowsBelow w grow limit) (hz : Roomy w A.bytes.length)
    (hsize : A.bytes.length < limit) :
    Agrees (Buffer.items <$> Machine.Zip.copyCdHeader w grow A.bytes out x)
      (Zip.copyCdHeader A.bytes out.items x) := by
  unfold Roomy at hz
  obtain ⟨hfixed, hend⟩ := h.header_le
  have happend := h.length_append
  have hlen := h.length_le
  have hbytes := A.eocdOffset_add_le
  rw [List.map_cons, List.sum_cons] at hlen
  simp only [Machine.Zip.copyCdHeader, map_bind]
  refine .step (add_of_lt (by omega)) (.bind (.lift _) fun hdr hhdr => ?_)
  obtain ⟨-, -, rfl⟩ := getRange_eq_some.1 (okOr_eq_ok.1 hhdr)
  rw [Nat.add_sub_cancel_left]
  obtain ⟨out₁, hext, hout₁⟩ := exists_extend (ε := Error) hgrow
    (show out.items ++ slice A.bytes x.1.cdHeaderOffset x.1.cdHeaderLen = _ from rfl) (by omega)
  refine .step hext ?_
  -- The header has its forty-six fixed bytes, so the patched field is inside.
  refine .step (add_of_lt (by omega)) (.step (add_of_lt (by omega)) ?_)
  obtain ⟨out₂, hcopy, hout₂⟩ := exists_copyFrom (ε := Error) out₁ (u32ToLe x.2)
    (show out.items.length + 42 ≤ out.items.length + 46 by omega) (by rw [hout₁]; omega)
    (by rw [length_u32ToLe]; omega)
  rw [hcopy]
  show Agrees (Pure.pure out₂.items) _
  rw [hout₂, hout₁]
  exact .pure _

end Copying

/-- The second loop starts behind the file data of the first. -/
theorem copying_start {st : List UInt8 × List (CdEntry × UInt32)}
    (h : A.layout.entries.zipIdx.foldlM (Zip.retainEntry A.bytes A.layout name) ([], []) = .ok st) :
    Copying A st.1.length st.2 st.1 := by
  have hst : Retaining A [] st :=
    foldlM_invariant (fun _ _ _ _ h => h.round) (retaining_start A) h
  have hdata := hst.out_le_data
  have hsum := hst.headers_le
  rw [List.map_nil, List.sum_nil] at hsum
  refine ⟨hst.retained, Nat.le_refl _, ?_⟩
  rw [Archive.eocdOffset]
  omega

theorem agrees_removeZipEntry {z : List UInt8} (hgrow : GrowsBelow w grow limit)
    (hz : Roomy w z.length) (hsize : z.length < limit) :
    Agrees (Machine.Zip.removeZipEntry w grow z name) (Zip.removeZipEntry z name) := by
  refine agrees_of_parse hz ?_
  rintro A rfl
  by_cases hany : ¬ A.layout.entries.any fun e => e.name = name
  · rw [if_pos hany, if_pos hany]
    exact .pure _
  · rw [if_neg hany, if_neg hany]
    obtain ⟨out₀, hnew, hout₀⟩ := exists_withCapacity (ε := Error) (α := UInt8) (w := w)
      (Nat.lt_of_lt_of_le hsize hgrow.limit_le)
    have hfirst : loopState (out₀, []) = ([], []) := by rw [loopState, hout₀]
    refine .step hnew (.bind_map (p := loopState) ?_ ?_)
    · rw [← hfirst]
      exact .foldlM (I := Retaining A) (fun _ _ _ h => h.agrees_round hgrow hz hsize)
        (fun _ _ _ _ h => h.round) (by rw [hfirst]; exact retaining_start A)
    rintro ⟨out, retained⟩ hretain
    have hstart := copying_start hretain
    refine .bind (.lift _) fun newCdStart hnew => ?_
    obtain ⟨hnarrow, rfl⟩ := u32TryFrom_eq_ok.1 hnew
    refine .bind_map (p := Buffer.items) (.foldlM (I := Copying A out.items.length)
      (fun _ _ _ h => h.agrees_round hgrow hz hsize) (fun _ _ _ _ h => h.round) hstart)
      fun dir hdir => ?_
    have hend : Copying A out.items.length [] dir.items :=
      foldlM_invariant (fun _ _ _ _ h => h.round) hstart hdir
    have hbase := hend.base_le
    have hlen := hend.length_le
    have hbytes := A.eocdOffset_add_le
    rw [List.map_nil, List.sum_nil] at hlen
    refine .step (sub_of_le (by rw [u32_toNat_ofNat hnarrow]; exact hbase)) ?_
    refine .bind (.lift _) fun cdSize _ => .bind (.lift _) fun totalEntries _ => ?_
    obtain ⟨out', hrecord, hout'⟩ := exists_writeEocd cdSize (UInt32.ofNat out.items.length)
      totalEntries hgrow (show dir.items.length + _ < limit by omega)
    refine .step hrecord ?_
    rw [hout']
    exact .pure _

end Removing

/-! ## The public API -/

/-- **The `w`-bit crate agrees with the model** on every input that leaves room in memory for what
embedding adds. -/
theorem agrees_api {w : Nat} (hw : w = 32 ∨ w = 64) (z m : List UInt8)
    (hsize : z.length + m.length < 2 ^ (w - 1) - 256) :
    Agrees (Machine.Reader.readManifest w z) (Reader.readManifest z) ∧
      Agrees (Machine.Writer.embedManifest w z m) (Writer.embedManifest z m) ∧
      Agrees (Machine.Writer.fillManifest w z m) (Writer.fillManifest z m) ∧
      Agrees (Machine.Writer.removeManifest w z) (Writer.removeManifest z) ∧
      Agrees (Machine.Binding.collectionMembers w z) (Binding.collectionMembers z) ∧
      Agrees (Machine.Binding.centralDirectoryRange w z) (Binding.centralDirectoryRange z) ∧
      Agrees (Machine.Binding.centralDirectoryRanges w z) (Binding.centralDirectoryRanges z) := by
  have hhalf : 2 ^ 31 ≤ 2 ^ (w - 1) := Nat.pow_le_pow_right (by omega) (by omega)
  have hpow : 2 ^ w = 2 * 2 ^ (w - 1) := by
    rw [← Nat.pow_succ']
    congr 1
    omega
  have hz : Roomy w z.length := by
    unfold Roomy
    omega
  have hname := length_manifestPath
  have hgrow := growsBelow_exact w
  refine ⟨agrees_readManifestEntry hz, ?_, agrees_fillManifest hz,
    agrees_removeZipEntry hgrow hz (by omega), ?_, agrees_centralDirectoryRange hz,
    agrees_centralDirectoryRanges hz⟩
  · -- The archive without the old manifest is no longer than the input.
    refine .bind (agrees_removeZipEntry hgrow hz (by omega)) fun base hbase => ?_
    obtain ⟨A, rfl⟩ := exists_archive_of_bind hbase
    have hle := length_removeZipEntry_le hbase
    refine agrees_insertZipEntry hgrow ?_ (by omega)
    unfold Roomy at hz ⊢
    omega
  · exact .bind (agrees_memberRanges hz) fun ranges _ => .pure _

/-- **No input makes the crate panic**: on a 32-bit and on a 64-bit target every unchecked index,
slice and copy is in bounds and every unchecked sum and difference of positions fits. The output
vectors get the room they grow to. -/
theorem no_panic {w : Nat} (hw : w = 32 ∨ w = 64) (z m : List UInt8)
    (hsize : z.length + m.length < 2 ^ (w - 1) - 256) :
    Machine.Reader.readManifest w z ≠ .panic ∧ Machine.Writer.embedManifest w z m ≠ .panic ∧
      Machine.Writer.fillManifest w z m ≠ .panic ∧ Machine.Writer.removeManifest w z ≠ .panic ∧
      Machine.Binding.collectionMembers w z ≠ .panic ∧
      Machine.Binding.centralDirectoryRange w z ≠ .panic ∧
      Machine.Binding.centralDirectoryRanges w z ≠ .panic := by
  obtain ⟨h1, h2, h3, h4, h5, h6, h7⟩ := agrees_api hw z m hsize
  exact ⟨h1.ne_panic, h2.ne_panic, h3.ne_panic, h4.ne_panic, h5.ne_panic, h6.ne_panic, h7.ne_panic⟩

/-- A small archive on a 32-bit target. -/
theorem no_panic_small :
    Machine.Reader.readManifest 32 (buildZip [("a", [7])]) ≠ .panic ∧
      Machine.Writer.embedManifest 32 (buildZip [("a", [7])]) [1, 2] ≠ .panic ∧
      Machine.Writer.fillManifest 32 (buildZip [("a", [7])]) [1, 2] ≠ .panic ∧
      Machine.Writer.removeManifest 32 (buildZip [("a", [7])]) ≠ .panic ∧
      Machine.Binding.collectionMembers 32 (buildZip [("a", [7])]) ≠ .panic ∧
      Machine.Binding.centralDirectoryRange 32 (buildZip [("a", [7])]) ≠ .panic ∧
      Machine.Binding.centralDirectoryRanges 32 (buildZip [("a", [7])]) ≠ .panic :=
  no_panic (Or.inl rfl) _ _ (by decide +kernel)

end C2paZip
