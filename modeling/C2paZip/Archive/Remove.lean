import C2paZip.Archive.Items

/-!
# Removing entries

`remove_zip_entry` checks the binding range of every entry, copies the records of the entries it
keeps, and then their headers with new offsets. On an archive that carries items it writes the
assembled archive of the kept items (`removeZipEntry_eq_ok`), and it fails on every archive with an
entry that does not bind (`exists_carries_of_removeZipEntry`).
-/

set_option autoImplicit false

namespace C2paZip

open Library

/-- The items that removing `name` keeps. -/
def kept (name : String) (items : List Item) : List Item :=
  items.filter fun it => it.header.name ≠ name

section Kept

variable {name : String} {it : Item} {items : List Item}

@[simp] theorem kept_nil : kept name [] = [] := rfl

theorem kept_cons_of_eq (h : it.header.name = name) :
    kept name (it :: items) = kept name items := by
  simp [kept, h]

theorem kept_cons_of_ne (h : it.header.name ≠ name) :
    kept name (it :: items) = it :: kept name items := by
  simp [kept, h]

theorem mem_kept : it ∈ kept name items ↔ it ∈ items ∧ it.header.name ≠ name := by
  simp [kept]

/-- Filtering makes no sum over the items larger. -/
theorem sum_kept_le (f : Item → Nat) (name : String) (items : List Item) :
    ((kept name items).map f).sum ≤ (items.map f).sum := by
  induction items with
  | nil => exact Nat.le_refl _
  | cons it items ih =>
      by_cases h : it.header.name = name
      · rw [kept_cons_of_eq h, List.map_cons, List.sum_cons]
        omega
      · rw [kept_cons_of_ne h, List.map_cons, List.map_cons, List.sum_cons, List.sum_cons]
        omega

theorem length_bodies_kept (name : String) (items : List Item) :
    (bodies (kept name items)).length ≤ (bodies items).length := by
  rw [bodies, bodies, List.length_flatMap, List.length_flatMap]
  exact sum_kept_le _ name items

theorem length_directory_kept (name : String) (items : List Item) :
    (directory (kept name items)).length ≤ (directory items).length := by
  rw [length_directory, length_directory]
  exact sum_kept_le _ name items

/-- What is kept is no larger than the archive. -/
theorem Archive.Carries.kept_le {A : Archive} (hA : A.Carries items) (name : String) :
    (kept name items).length ≤ A.headers.length ∧
      (bodies (kept name items)).length ≤ A.data.length ∧
      (directory (kept name items)).length ≤ (dirBytes A.headers).length := by
  rw [← hA.length, ← hA.length_directory]
  exact ⟨List.length_filter_le _ _, Nat.le_trans (length_bodies_kept name items) hA.length_bodies,
    length_directory_kept name items⟩

end Kept

/-! ## The first loop -/

/-- One round of the first loop, over rooms. -/
def retainRoom (bytes : List UInt8) (name : String)
    (st : List UInt8 × List (CdEntry × UInt32)) (p : CdEntry × Nat) :
    Except Error (List UInt8 × List (CdEntry × UInt32)) := do
  let range ← bindingRange bytes p.1 p.2
  if p.1.name = name then
    return st
  else do
    let data ← okOr (getRange bytes range.start range.stop) .truncated
    let newOff ← u32TryFrom st.1.length .zip64Unsupported
    return (st.1 ++ data, st.2 ++ [(p.1, newOff)])

/-- The loop over indices is a loop over rooms. -/
theorem foldlM_retainEntry (A : Archive) (name : String)
    (st : List UInt8 × List (CdEntry × UInt32)) :
    A.layout.entries.zipIdx.foldlM (Zip.retainEntry A.bytes A.layout name) st =
      A.rooms.foldlM (retainRoom A.bytes name) st := by
  have hrooms : A.rooms = (List.range A.layout.entries.length).map fun i =>
      (A.layout.entries[i]!, entryBoundary A.layout i) := rooms_eq_map_range A.layout
  rw [hrooms, zipIdx_eq_map_range, List.foldlM_map, List.foldlM_map]
  rfl

section FirstLoop

variable {z : List UInt8} {name : String}

/-- Every entry is checked, also the removed ones. -/
theorem binds_of_foldlM_retainRoom {ps : List (CdEntry × Nat)}
    {st st' : List UInt8 × List (CdEntry × UInt32)}
    (h : ps.foldlM (retainRoom z name) st = .ok st') :
    ∀ p ∈ ps, ∃ r, bindingRange z p.1 p.2 = .ok r := by
  induction ps generalizing st with
  | nil => exact fun p hp => nomatch hp
  | cons p ps ih =>
      obtain ⟨st₁, hstep, hrest⟩ := foldlM_cons_eq_ok.1 h
      intro q hq
      rcases List.mem_cons.1 hq with rfl | hq
      · obtain ⟨r, hr, -⟩ := bind_eq_ok.1 hstep
        exact ⟨r, hr⟩
      · exact ih hrest q hq

/-- The header of `h` is the header of the entry with the new offset patched in. -/
def CopiesTo (z : List UInt8) (x : CdEntry × UInt32) (h : CdHeader) : Prop :=
  x.1.cdHeaderOffset + x.1.cdHeaderLen ≤ z.length ∧
    overwrite (slice z x.1.cdHeaderOffset x.1.cdHeaderLen) 42 (u32ToLe x.2) = h.bytes

theorem retainRoom_of_eq {p : CdEntry × Nat} {it : Item} (h : ItemAt z p it)
    (hn : it.header.name = name) (st : List UInt8 × List (CdEntry × UInt32)) :
    retainRoom z name st p = .ok st := by
  obtain ⟨r, hr, -⟩ := h.range
  rw [← h.name] at hn
  simp only [retainRoom, hr, bind_eq_ok, Except.ok.injEq, exists_eq_left', if_pos hn, pure_eq_ok]

theorem retainRoom_of_ne {p : CdEntry × Nat} {it : Item} (h : ItemAt z p it)
    (hp : p.2 ≤ z.length) (hn : it.header.name ≠ name) {out : List UInt8}
    (hout : out.length < 2 ^ 32) (ret : List (CdEntry × UInt32)) :
    retainRoom z name (out, ret) p =
      .ok (out ++ it.body, ret ++ [(p.1, UInt32.ofNat out.length)]) := by
  obtain ⟨r, hr, hbody⟩ := h.range
  obtain ⟨-, hle, hstop, -⟩ := (bindingRange_eq_ok hp).1 hr
  rw [← h.name] at hn
  simp only [retainRoom, hr, bind_eq_ok, Except.ok.injEq, exists_eq_left', if_neg hn, pure_eq_ok,
    okOr_eq_ok, getRange_eq_some, u32TryFrom_eq_ok]
  exact ⟨it.body, ⟨hle, by omega, hbody⟩, _, ⟨hout, rfl⟩, rfl⟩

/-- **The first loop copies the records of the kept items** and notes where their headers go. -/
theorem foldlM_retainRoom (name : String) {ps : List (CdEntry × Nat)} {items : List Item}
    (h : List.Forall₂ (ItemAt z) ps items) (hps : ∀ p ∈ ps, p.2 ≤ z.length) (out : List UInt8)
    (ret : List (CdEntry × UInt32))
    (hout : out.length + (bodies (kept name items)).length < 2 ^ 32) :
    ∃ ret', ps.foldlM (retainRoom z name) (out, ret) =
        .ok (out ++ bodies (kept name items), ret ++ ret') ∧
      List.Forall₂ (CopiesTo z) ret' (placeHeaders out.length (kept name items)) := by
  induction h generalizing out ret with
  | nil => exact ⟨[], by simp [pure, Except.pure], List.Forall₂.nil⟩
  | @cons p it ps items hit _ ih =>
      have hp := hps p List.mem_cons_self
      have hps' := fun q hq => hps q (List.mem_cons_of_mem p hq)
      -- A removed item is checked and skipped, a kept one is copied to the end of the output.
      by_cases hn : it.header.name = name
      · rw [kept_cons_of_eq hn] at hout ⊢
        obtain ⟨ret', hrun, hcopies⟩ := ih hps' out ret hout
        exact ⟨ret', foldlM_cons_eq_ok.2 ⟨_, retainRoom_of_eq hit hn _, hrun⟩, hcopies⟩
      · rw [kept_cons_of_ne hn, bodies_cons, List.length_append] at hout
        rw [kept_cons_of_ne hn, bodies_cons, placeHeaders]
        have hlen : (out ++ it.body).length = out.length + it.body.length := List.length_append
        obtain ⟨ret', hrun, hcopies⟩ := ih hps' (out ++ it.body)
          (ret ++ [(p.1, UInt32.ofNat out.length)]) (by omega)
        refine ⟨(p.1, UInt32.ofNat out.length) :: ret', foldlM_cons_eq_ok.2
          ⟨_, retainRoom_of_ne hit hp hn (by omega) ret, ?_⟩, List.Forall₂.cons ?_ ?_⟩
        · rw [hrun, List.append_assoc, List.append_assoc]
          rfl
        · exact ⟨hit.header_le, hit.header_patched _⟩
        · rwa [hlen] at hcopies

end FirstLoop

/-! ## The second loop -/

/-- **The second loop appends the patched headers.** -/
theorem foldlM_copyCdHeader {z : List UInt8} {ret : List (CdEntry × UInt32)} {hs : List CdHeader}
    (h : List.Forall₂ (CopiesTo z) ret hs) (out : List UInt8) :
    ret.foldlM (Zip.copyCdHeader z) out = .ok (out ++ dirBytes hs) := by
  induction h generalizing out with
  | nil => simp [pure, Except.pure]
  | @cons x k ret hs hx _ ih =>
      obtain ⟨hle, hbytes⟩ := hx
      refine foldlM_cons_eq_ok.2 ⟨out ++ k.bytes, ?_, ?_⟩
      · simp only [Zip.copyCdHeader, bind_eq_ok, okOr_eq_ok, getRange_eq_some, pure_eq_ok]
        refine ⟨_, ⟨Nat.le_add_right _ _, hle, rfl⟩, ?_⟩
        rw [overwrite_append_right, Nat.add_sub_cancel_left, hbytes]
      · rw [ih, dirBytes_cons, List.append_assoc]

/-! ## The whole removal -/

/-- Removing an absent name copies the input. -/
theorem removeZipEntry_of_absent {A : Archive} {name : String}
    (hnone : ∀ e ∈ A.entries, e.name ≠ name) : Zip.removeZipEntry A.bytes name = .ok A.bytes := by
  have hany : ¬ A.layout.entries.any (fun e => e.name = name) := by simpa using hnone
  simp only [Zip.removeZipEntry, bind_eq_ok, A.parseLayout_bytes, Except.ok.injEq, exists_eq_left']
  rw [if_pos hany]
  rfl

section Removal

variable {A : Archive} {name : String} {out : List UInt8}

/-- Removal succeeds on archives all of whose entries bind. -/
theorem exists_carries_of_removeZipEntry (hname : ∃ e ∈ A.entries, e.name = name)
    (hrem : Zip.removeZipEntry A.bytes name = .ok out) : ∃ items, A.Carries items := by
  have hany : ¬ ¬ A.layout.entries.any (fun e => e.name = name) := by simpa using hname
  simp only [Zip.removeZipEntry, bind_eq_ok, A.parseLayout_bytes, Except.ok.injEq, exists_eq_left']
    at hrem
  rw [if_neg hany, foldlM_retainEntry, bind_eq_ok] at hrem
  obtain ⟨st, hloop, -⟩ := hrem
  exact A.exists_carries (binds_of_foldlM_retainRoom hloop)

/-- **Removing an entry filters the items**, where the kept directory fits its length field. -/
theorem removeZipEntry_eq_ok {items : List Item} (hA : A.Carries items)
    (hname : ∃ e ∈ A.entries, e.name = name) :
    Zip.removeZipEntry A.bytes name = .ok out ↔
      (directory (kept name items)).length < 2 ^ 32 ∧ out = assembled (kept name items) := by
  have hany : ¬ ¬ A.layout.entries.any (fun e => e.name = name) := by simpa using hname
  have hdata := A.data_length_lt
  have hcount := A.headers_length_lt
  obtain ⟨hkeptlen, hbodies, -⟩ := hA.kept_le name
  -- The first loop leaves the kept records, the second one their patched headers.
  obtain ⟨ret, hloop, hcopies⟩ := foldlM_retainRoom name hA
    (fun p hp => A.room_le_bytes hp) [] [] (by rw [List.length_nil]; omega)
  have hret : ret.length = (kept name items).length := by
    rw [hcopies.length_eq, length_placeHeaders]
  have hsecond := foldlM_copyCdHeader hcopies (bodies (kept name items))
  simp only [Zip.removeZipEntry, bind_eq_ok, A.parseLayout_bytes, Except.ok.injEq, exists_eq_left']
  rw [if_neg hany, foldlM_retainEntry, hloop]
  simp only [List.nil_append, List.length_nil, bind_eq_ok, Except.ok.injEq, exists_eq_left',
    u16TryFrom_eq_ok, u32TryFrom_eq_ok, pure_eq_ok, and_assoc, exists_and_left, hsecond,
    List.length_append, hret]
  rw [u32_toNat_ofNat (by omega), Nat.add_sub_cancel_left]
  constructor
  · rintro ⟨-, hdir, -, rfl⟩
    exact ⟨hdir, rfl⟩
  · rintro ⟨hdir, rfl⟩
    exact ⟨by omega, hdir, by omega, rfl⟩

/-- Removing never makes an archive longer. -/
theorem length_removeZipEntry_le (hrem : Zip.removeZipEntry A.bytes name = .ok out) :
    out.length ≤ A.bytes.length := by
  by_cases hname : ∃ e ∈ A.entries, e.name = name
  · obtain ⟨items, hA⟩ := exists_carries_of_removeZipEntry hname hrem
    obtain ⟨-, rfl⟩ := (removeZipEntry_eq_ok hA hname).1 hrem
    obtain ⟨-, hbodies, hdir⟩ := hA.kept_le name
    have hlen := A.length_bytes
    have hrecord := A.eocd_length_ge
    rw [assembled, length_writeEocd, List.length_append]
    omega
  · rw [removeZipEntry_of_absent fun e he hn => hname ⟨e, he, hn⟩, Except.ok.injEq] at hrem
    rw [hrem]

end Removal

/-- **Removing from an assembled archive filters its items.** -/
theorem removeZipEntry_assembled {items : List Item} (h : Fits items) (name : String) :
    Zip.removeZipEntry (assembled items) name = .ok (assembled (kept name items)) := by
  have hA := carries_assemble h
  rw [← assemble_bytes h]
  by_cases hname : ∃ e ∈ (assemble items h).entries, e.name = name
  · have hdir := h.directory
    have hkept := length_directory_kept name items
    exact (removeZipEntry_eq_ok hA hname).2 ⟨by omega, rfl⟩
  · -- Without such an entry nothing is filtered out.
    have hnone : ∀ e ∈ (assemble items h).entries, e.name ≠ name :=
      fun e he hn => hname ⟨e, he, hn⟩
    have hkept : kept name items = items := by
      apply List.filter_eq_self.2
      intro it hit
      rw [decide_eq_true_iff]
      intro hn
      exact hname (hA.exists_name_iff.2 ⟨it, hit, hn⟩)
    rw [removeZipEntry_of_absent hnone, hkept, assemble_bytes]

end C2paZip
