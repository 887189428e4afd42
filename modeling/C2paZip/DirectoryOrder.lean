import C2paZip.Archive.Carried

/-!
# The order of the directory

The central directory may list the entries in any order; the parser sorts them by local offset. Two
archives with the same file data, whose directories list the same headers in different orders, have
the same members, lookups and removals (`directory_order_irrelevant`), as long as no two entries
share a local header. What a removal writes is in file order.
-/

set_option autoImplicit false

namespace C2paZip

open Library

/-- `B` has the file data of `A`, and lists the same headers in some order. -/
structure Reordered (A B : Archive) : Prop where
  data : B.data = A.data
  headers : B.headers.Perm A.headers
  distinct : (A.headers.map CdHeader.localOffset).Nodup

/-- The same entry, with its header somewhere else in the directory. -/
structure SameHeader (A B : Archive) (e e' : CdEntry) : Prop where
  entry : e' = { e with cdHeaderOffset := e'.cdHeaderOffset }
  header : slice B.bytes e'.cdHeaderOffset e'.cdHeaderLen =
    slice A.bytes e.cdHeaderOffset e.cdHeaderLen

/-! ## Entries -/

/-- The walk as a list of headers with their positions. -/
theorem exists_placed (pos : Nat) (hs : List CdHeader) :
    ∃ xs : List (CdHeader × Nat), xs.map Prod.fst = hs ∧
      placeEntries pos hs = xs.map (fun x => x.1.entry x.2) ∧
      ∀ x ∈ xs, ∃ pre post, hs = pre ++ x.1 :: post ∧ x.2 = pos + (dirBytes pre).length := by
  induction hs generalizing pos with
  | nil => exact ⟨[], rfl, rfl, fun r hr => absurd hr List.not_mem_nil⟩
  | cons h hs ih =>
      obtain ⟨xs, hfst, hplace, hpos⟩ := ih (pos + h.bytes.length)
      refine ⟨(h, pos) :: xs, by rw [List.map_cons, hfst], by rw [placeEntries, hplace]; rfl, ?_⟩
      intro x hx
      rcases List.mem_cons.1 hx with rfl | hx
      · exact ⟨[], hs, rfl, rfl⟩
      · obtain ⟨pre, post, rfl, hx2⟩ := hpos x hx
        refine ⟨h :: pre, post, rfl, ?_⟩
        rw [hx2, dirBytes_cons, List.length_append, Nat.add_assoc]

/-- The entries of an archive come from its headers, sorted by local offset. -/
theorem Archive.exists_sorted (A : Archive) :
    ∃ xs : List (CdHeader × Nat), xs.map Prod.fst = sortByKey CdHeader.localOffset A.headers ∧
      A.entries = xs.map (fun x => x.1.entry x.2) ∧
      ∀ x ∈ xs, slice A.bytes x.2 x.1.bytes.length = x.1.bytes := by
  obtain ⟨xs, hfst, hplace, hpos⟩ := exists_placed A.data.length A.headers
  refine ⟨sortByKey (fun x => x.1.localOffset) xs, ?_, ?_, fun x hx => ?_⟩
  · rw [← hfst]
    exact map_sortByKey Prod.fst xs fun x => rfl
  · rw [entries, walk, hplace]
    exact (map_sortByKey (fun x : CdHeader × Nat => x.1.entry x.2) xs fun x => rfl).symm
  · obtain ⟨pre, post, hs, hx2⟩ := hpos x ((mem_sortByKey _).1 hx)
    have hmiddle := slice_append_middle (A.data ++ dirBytes pre) x.1.bytes
      (dirBytes post ++ (A.gap ++ A.eocd))
    rw [List.length_append] at hmiddle
    rw [hx2, bytes, hs, dirBytes_append, dirBytes_cons]
    simpa only [List.append_assoc] using hmiddle

namespace Reordered

variable {A B : Archive} (h : Reordered A B)

include h

theorem symm : Reordered B A where
  data := h.data.symm
  headers := h.headers.symm
  distinct := (h.headers.map CdHeader.localOffset).nodup_iff.2 h.distinct

/-- **The entries are the same in local-offset order.** -/
theorem forall₂_entries : List.Forall₂ (SameHeader A B) A.entries B.entries := by
  obtain ⟨xs, hxs, hA, hsliceA⟩ := A.exists_sorted
  obtain ⟨ys, hys, hB, hsliceB⟩ := B.exists_sorted
  have hsorted : xs.map Prod.fst = ys.map Prod.fst := by
    rw [hxs, hys, sortByKey_eq_of_perm h.headers.symm h.distinct]
  have hpairs : List.Forall₂ (fun x y => x.1 = y.1) xs ys :=
    List.forall₂_map_left_iff.1 (List.forall₂_map_right_iff.1
      (List.forall₂_eq_eq_eq.symm ▸ hsorted))
  rw [hA, hB]
  refine List.forall₂_map_left_iff.2 (List.forall₂_map_right_iff.2 ?_)
  have hmem := forall₂_imp_mem hpairs fun x hx y hxy => And.intro (hsliceA x hx) hxy
  refine (forall₂_imp_mem hmem.flip fun y hy x hxy => ?_).flip
  obtain ⟨hx, hxy⟩ := hxy
  have hy := hsliceB y hy
  exact ⟨by rw [hxy]; rfl, by
    show slice B.bytes y.2 y.1.bytes.length = slice A.bytes x.2 x.1.bytes.length
    rw [hx, hy, hxy]⟩

/-- The rooms are the same, too. -/
theorem forall₂_rooms : List.Forall₂ (fun p q => SameHeader A B p.1 q.1 ∧ q.2 = p.2) A.rooms
    B.rooms := by
  rw [Archive.rooms, Archive.rooms, h.data]
  exact C2paZip.forall₂_rooms h.forall₂_entries fun e e' hee => by rw [hee.entry]

/-- Bytes of the file data are the same. -/
theorem getElem?_bytes {i : Nat} (hi : i < A.data.length) : B.bytes[i]? = A.bytes[i]? := by
  rw [Archive.bytes, Archive.bytes, h.data, List.getElem?_append_left hi,
    List.getElem?_append_left hi]

theorem getRange_bytes {a b : Nat} (hb : b ≤ A.data.length) :
    getRange B.bytes a b = getRange A.bytes a b := by
  have hB : b ≤ B.data.length := by rwa [h.data]
  have hlenA := A.length_bytes
  have hlenB := B.length_bytes
  rw [getRange, getRange]
  by_cases hab : a ≤ b
  · rw [if_pos ⟨hab, by omega⟩, if_pos ⟨hab, by omega⟩]
    exact congrArg some (slice_congr fun k h1 h2 => h.getElem?_bytes (by omega))
  · rw [if_neg fun hc => hab hc.1, if_neg fun hc => hab hc.1]

section Room

variable {p q : CdEntry × Nat} (hp : p ∈ A.rooms) (hpq : SameHeader A B p.1 q.1 ∧ q.2 = p.2)

include hp hpq

/-- A room has the same content. -/
theorem contentRange_iff {r : Range} :
    contentRange B.bytes q.1 q.2 = .ok r ↔ contentRange A.bytes p.1 p.2 = .ok r := by
  have hroom := A.room_le hp
  have hlenA := A.length_bytes
  have hlenB := B.length_bytes
  have hdata := congrArg List.length h.data
  have hentry : contentRange B.bytes q.1 p.2 = contentRange B.bytes p.1 p.2 := by
    rw [hpq.1.entry]
    rfl
  rw [hpq.2, hentry]
  exact contentRange_congr (by omega) (by omega) fun i _ hi => h.getElem?_bytes (by omega)

/-- A room has the same record. -/
theorem bindingRange_iff {r : Range} :
    bindingRange B.bytes q.1 q.2 = .ok r ↔ bindingRange A.bytes p.1 p.2 = .ok r := by
  have hroom := A.room_le hp
  have hlenA := A.length_bytes
  have hlenB := B.length_bytes
  have hdata := congrArg List.length h.data
  have hentry : bindingRange B.bytes q.1 p.2 = bindingRange B.bytes p.1 p.2 := by
    rw [hpq.1.entry]
    rfl
  rw [hpq.2, hentry]
  exact bindingRange_congr (by omega) (by omega) fun i _ hi => h.getElem?_bytes (by omega)

/-- A room carries the same item. -/
theorem itemAt {it : Item} (hit : ItemAt A.bytes p it) : ItemAt B.bytes q it := by
  obtain ⟨r, hr, hbody⟩ := hit.range
  obtain ⟨-, hle, hstop, -⟩ := (bindingRange_eq_ok (A.room_le_bytes hp)).1 hr
  have hroom := A.room_le hp
  have hoff : q.1.localHeaderOffset = p.1.localHeaderOffset := by rw [hpq.1.entry]
  refine ⟨?_, ?_, r, (h.bindingRange_iff hp hpq).2 hr, ?_⟩
  · rw [hoff]
    calc q.1 = { p.1 with cdHeaderOffset := q.1.cdHeaderOffset } := hpq.1.entry
      _ = { (it.headerAt p.1.localHeaderOffset).entry p.1.cdHeaderOffset with
            cdHeaderOffset := q.1.cdHeaderOffset } := by rw [← hit.entry]
      _ = (it.headerAt p.1.localHeaderOffset).entry q.1.cdHeaderOffset := rfl
  · rw [hpq.1.header, hoff]
    exact hit.header
  · rw [← hbody]
    exact slice_congr fun k h1 h2 => h.getElem?_bytes (by omega)

end Room

/-- **The items are the same**, in file order. -/
theorem carries {items : List Item} (hA : A.Carries items) : B.Carries items := by
  have hrooms := forall₂_imp_mem h.forall₂_rooms fun p hp q hpq => And.intro hp hpq
  refine (forall₂_join hrooms.flip hA.flip).imp ?_
  rintro q it ⟨p, ⟨hp, hpq⟩, hit⟩
  exact h.itemAt hp hpq hit

/-! ## Operations -/

theorem collectionMembers {ms : List Binding.Member}
    (hms : Binding.collectionMembers A.bytes = .ok ms) :
    Binding.collectionMembers B.bytes = .ok ms := by
  obtain ⟨rs, hrs, rfl⟩ := collectionMembers_eq_ok.1 hms
  refine collectionMembers_eq_ok.2 ⟨rs, B.memberRanges_eq_ok.2 ?_, rfl⟩
  have hrooms := forall₂_imp_mem h.forall₂_rooms fun p hp q hpq => And.intro hp hpq
  refine (forall₂_join hrooms.flip (A.memberRanges_eq_ok.1 hrs).flip).imp ?_
  rintro q m ⟨p, ⟨hp, hpq⟩, hvalid, hrange, hname⟩
  have hentry : q.1.name = p.1.name := by rw [hpq.1.entry]
  rw [hentry]
  exact ⟨hvalid, (h.bindingRange_iff hp hpq).2 hrange, hname⟩

/-- The lookups find the same room. -/
theorem room?_cases (name : String) : (A.room? name = none ∧ B.room? name = none) ∨
    ∃ p q, A.room? name = some p ∧ B.room? name = some q ∧ SameHeader A B p.1 q.1 ∧ q.2 = p.2 :=
  forall₂_find? h.forall₂_rooms fun p q hpq => by rw [hpq.1.entry]

theorem readZipEntryContent {name : String} {c : Option (List UInt8)}
    (hc : Zip.readZipEntryContent A.bytes name = .ok c) :
    Zip.readZipEntryContent B.bytes name = .ok c := by
  rw [Archive.readZipEntryContent_bytes] at hc ⊢
  rcases h.room?_cases name with ⟨hp, hq⟩ | ⟨p, q, hp, hq, hpq⟩
  · rw [hp] at hc
    rw [hq]
    exact hc
  · have hmem := List.mem_of_find?_eq_some hp
    have hroom := A.room_le hmem
    rw [hp] at hc
    rw [hq]
    simp only [bind_eq_ok, okOr_eq_ok] at hc ⊢
    obtain ⟨r, hr, content, hcontent, hdone⟩ := hc
    obtain ⟨-, -, -, -, hstop, -⟩ := contentRange_eq_ok.1 hr
    refine ⟨r, (h.contentRange_iff hmem hpq).2 hr, content, ?_, hdone⟩
    rw [h.getRange_bytes (by omega), hcontent]

theorem readManifestEntry {name : String} {m : Option (List UInt8)}
    (hm : Zip.readManifestEntry A.bytes name = .ok m) :
    Zip.readManifestEntry B.bytes name = .ok m := by
  rw [Archive.readManifestEntry_bytes] at hm ⊢
  rcases h.room?_cases name with ⟨hp, hq⟩ | ⟨p, q, hp, hq, hpq⟩
  · rw [hp] at hm
    rw [hq]
    exact hm
  · have hmem := List.mem_of_find?_eq_some hp
    have hroom := A.room_le hmem
    have hmethod : q.1.method = p.1.method := by rw [hpq.1.entry]
    have hflags : q.1.flags = p.1.flags := by rw [hpq.1.entry]
    rw [hp] at hm
    rw [hq]
    simp only [bind_eq_ok, okOr_eq_ok, hmethod, hflags] at hm ⊢
    obtain ⟨u, hu, r, hr, content, hcontent, hdone⟩ := hm
    obtain ⟨-, -, -, -, hstop, -⟩ := contentRange_eq_ok.1 hr
    refine ⟨u, hu, r, (h.contentRange_iff hmem hpq).2 hr, content, ?_, hdone⟩
    rw [h.getRange_bytes (by omega), hcontent]

theorem exists_entry {name : String} (hname : ∃ e ∈ A.entries, e.name = name) :
    ∃ e ∈ B.entries, e.name = name := by
  obtain ⟨e, he, rfl⟩ := hname
  obtain ⟨e', he', hee⟩ := exists_right_of_forall₂ h.forall₂_entries he
  exact ⟨e', he', by rw [hee.entry]⟩

theorem removeZipEntry {name : String} (hname : ∃ e ∈ A.entries, e.name = name)
    {out : List UInt8} (hout : Zip.removeZipEntry A.bytes name = .ok out) :
    Zip.removeZipEntry B.bytes name = .ok out := by
  obtain ⟨items, hA⟩ := exists_carries_of_removeZipEntry hname hout
  obtain ⟨hdir, rfl⟩ := (removeZipEntry_eq_ok hA hname).1 hout
  exact (removeZipEntry_eq_ok (h.carries hA) (h.exists_entry hname)).2 ⟨hdir, rfl⟩

end Reordered

/-- **The order of the directory does not matter**: the members, the lookups and the removal of a
present entry are those of the same archive with its directory in another order. -/
theorem directory_order_irrelevant {A B : Archive} (h : Reordered A B) :
    (∀ ms, Binding.collectionMembers A.bytes = .ok ms ↔
      Binding.collectionMembers B.bytes = .ok ms) ∧
    (∀ name c, Zip.readZipEntryContent A.bytes name = .ok c ↔
      Zip.readZipEntryContent B.bytes name = .ok c) ∧
    (∀ name m, Zip.readManifestEntry A.bytes name = .ok m ↔
      Zip.readManifestEntry B.bytes name = .ok m) ∧
    ∀ name out, (∃ e ∈ A.entries, e.name = name) →
      (Zip.removeZipEntry A.bytes name = .ok out ↔ Zip.removeZipEntry B.bytes name = .ok out) := by
  refine ⟨fun ms => ⟨h.collectionMembers, h.symm.collectionMembers⟩,
    fun name c => ⟨h.readZipEntryContent, h.symm.readZipEntryContent⟩,
    fun name m => ⟨h.readManifestEntry, h.symm.readManifestEntry⟩, fun name out hname => ?_⟩
  exact ⟨h.removeZipEntry hname, h.symm.removeZipEntry (h.exists_entry hname)⟩

/-- Two members, listed in file order and the other way round. -/
theorem directory_order_irrelevant_two_members :
    ∃ A B : Archive, A.bytes ≠ B.bytes ∧
      Binding.collectionMembers A.bytes = .ok [⟨"a", ⟨0, 32⟩⟩, ⟨"b", ⟨32, 64⟩⟩] ∧
      Binding.collectionMembers B.bytes = .ok [⟨"a", ⟨0, 32⟩⟩, ⟨"b", ⟨32, 64⟩⟩] := by
  let a : CdHeader := storedHeader "a" [7] 0 (by decide +kernel) (by decide)
  let b : CdHeader := storedHeader "b" [8] 32 (by decide +kernel) (by decide)
  let A : Archive := .ofParts (storedRecord "a" [7] ++ storedRecord "b" [8]) [a, b] [] (by decide)
    (by decide +kernel) (by decide +kernel) (by decide +kernel)
  let B : Archive := .ofParts (storedRecord "a" [7] ++ storedRecord "b" [8]) [b, a] [] (by decide)
    (by decide +kernel) (by decide +kernel) (by decide +kernel)
  have h : Reordered A B := ⟨rfl, List.Perm.swap a b [], by decide +kernel⟩
  have hA : Binding.collectionMembers A.bytes = .ok [⟨"a", ⟨0, 32⟩⟩, ⟨"b", ⟨32, 64⟩⟩] := by
    decide +kernel
  exact ⟨A, B, by decide +kernel, hA, ((directory_order_irrelevant h).1 _).1 hA⟩

end C2paZip
