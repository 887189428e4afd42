import C2paZip.Archive.Carried

/-!
# What the two hashes cover

A signer hashes the members one by one and the directory, and a validator recomputes both from the
archive it is given. `bindingInputs` is what they hash. Two archives have the same inputs exactly
where they have the same length and the same bytes in the hashed ranges of one of them
(`sameInputs_iff`): the ranges, which each side computes from its own archive, are then the same,
so nothing inside them can be changed, moved, added or dropped, and nothing outside them matters.
-/

set_option autoImplicit false

namespace C2paZip

open Library

/-- What is hashed: the members with their names, and the covered directory. -/
structure Inputs where
  members : List (String × List UInt8)
  directory : List UInt8
  deriving DecidableEq

def bindingInputs (bytes : List UInt8) : Except Error Inputs := do
  let members ← memberInputs bytes
  let ranges ← Binding.centralDirectoryRanges bytes
  return { members := members, directory := coveredBytes bytes ranges }

/-- Where it stands: the ranges of the members and those of the directory. -/
def hashedRanges (bytes : List UInt8) : Except Error (List Range) := do
  let members ← Binding.collectionMembers bytes
  let ranges ← Binding.centralDirectoryRanges bytes
  return members.map Binding.Member.content ++ ranges

/-- `x` and `y` have the same bytes in `r`. -/
def SameRange (x y : List UInt8) (r : Range) : Prop :=
  slice x r.start (r.stop - r.start) = slice y r.start (r.stop - r.start)

instance (x y : List UInt8) (r : Range) : Decidable (SameRange x y r) :=
  inferInstanceAs (Decidable (_ = _))

/-! ## Archives with the same directory -/

/-- The entries of `A` and `B` agree, those called like the manifest up to their CRC. -/
structure SameEntries (A B : Archive) : Prop where
  data : A.data.length = B.data.length
  entries : List.Forall₂ (fun e f => f = { e with crc32 := f.crc32 } ∧
    (e.name ≠ zipManifestPath → f = e)) A.entries B.entries

namespace SameEntries

variable {A B : Archive}

theorem rooms (h : SameEntries A B) : List.Forall₂ (fun p q =>
    (q.1 = { p.1 with crc32 := q.1.crc32 } ∧ (p.1.name ≠ zipManifestPath → q.1 = p.1)) ∧
      q.2 = p.2) A.rooms B.rooms := by
  rw [Archive.rooms, Archive.rooms, ← h.data]
  refine forall₂_rooms h.entries ?_
  rintro e f ⟨hf, -⟩
  rw [hf]

/-- The member loops of both archives, round by round. -/
theorem memberRanges (h : SameEntries A B) {rs rs' : List (String × Range)}
    (hrs : Zip.memberRanges A.bytes = .ok rs) (hrs' : Zip.memberRanges B.bytes = .ok rs') :
    List.Forall₂ (fun m m' => m'.1 = m.1 ∧ (m.1 ≠ zipManifestPath →
      ∃ e b, b ≤ A.bytes.length ∧ b ≤ B.bytes.length ∧ bindingRange A.bytes e b = .ok m.2 ∧
        bindingRange B.bytes e b = .ok m'.2)) rs rs' := by
  rw [A.memberRanges_eq_ok] at hrs
  rw [B.memberRanges_eq_ok] at hrs'
  -- Rooms, partners and both results side by side.
  have hA := forall₂_imp_mem hrs fun p hp m hm => And.intro (A.room_le_bytes hp) hm
  have hB := forall₂_imp_mem hrs' fun p hp m hm => And.intro (B.room_le_bytes hp) hm
  have hjoin := forall₂_join (forall₂_join hA.flip h.rooms.flip) hB.flip
  refine hjoin.imp ?_
  rintro m m' ⟨q, ⟨p, ⟨hbA, -, hr, hn⟩, ⟨⟨hq, hother⟩, hb⟩⟩, ⟨hbB, -, hr', hn'⟩⟩
  have hname : q.1.name = p.1.name := by rw [hq]
  refine ⟨by rw [hn', hname, hn], fun hne => ?_⟩
  rw [hn] at hne
  rw [hother hne, hb] at hr'
  rw [hb] at hbB
  exact ⟨p.1, p.2, hbA, hbB, hr, hr'⟩

end SameEntries

theorem SameDirectory.sameEntries {A B : Archive} {rs : List Range} (h : SameDirectory A B rs) :
    SameEntries A B := by
  obtain ⟨hdata, -, hentries⟩ := h
  refine ⟨hdata, hentries.imp ?_⟩
  rintro e f ⟨hf, hcrc⟩
  refine ⟨hf, fun hne => ?_⟩
  obtain hcrc | ⟨hn, -⟩ := hcrc
  · rw [hf, ← hcrc]
  · exact absurd hn hne

/-- **The same covered bytes come from the same ranges of the same directory.** -/
theorem sameDirectory_of_coveredBytes {A B : Archive} {rs rs' : List Range}
    (hA : A.bytes.length < 2 ^ 30) (hB : B.bytes.length < 2 ^ 30)
    (hrs : Binding.centralDirectoryRanges A.bytes = .ok rs)
    (hrs' : Binding.centralDirectoryRanges B.bytes = .ok rs')
    (hcov : coveredBytes A.bytes rs = coveredBytes B.bytes rs') :
    A.bytes.length = B.bytes.length ∧ rs = rs' ∧ SameDirectory A B rs := by
  rw [A.centralDirectoryRanges_eq_ok] at hrs
  rw [B.centralDirectoryRanges_eq_ok] at hrs'
  rcases hmA : A.manifest? with _ | e <;> rcases hmB : B.manifest? with _ | f <;>
    rw [hmA] at hrs <;> rw [hmB] at hrs' <;> simp only at hrs hrs' <;> subst hrs hrs'
  · rw [A.coveredBytes_none, B.coveredBytes_none] at hcov
    obtain ⟨hlen, hsame⟩ := sameDirectory_of_none [⟨A.data.length, A.bytes.length⟩] hcov
    exact ⟨hlen, by rw [hsame.1, hlen], hsame⟩
  · -- A skipped field in one of them only is excluded.
    obtain ⟨pre, h, post, hs, rfl⟩ := B.exists_header (B.manifest?_mem hmB)
    exact absurd ((B.coveredBytes_some hs).symm.trans (hcov.symm.trans A.coveredBytes_none))
      (coveredBytes_ne_of_some_none hA hs (B.manifest?_name hmB))
  · obtain ⟨pre, h, post, hs, rfl⟩ := A.exists_header (A.manifest?_mem hmA)
    exact absurd ((A.coveredBytes_some hs).symm.trans (hcov.trans B.coveredBytes_none))
      (coveredBytes_ne_of_some_none hB hs (A.manifest?_name hmA))
  · obtain ⟨pre, h, post, hs, rfl⟩ := A.exists_header (A.manifest?_mem hmA)
    obtain ⟨pre', h', post', hs', rfl⟩ := B.exists_header (B.manifest?_mem hmB)
    obtain ⟨hlen, rfl, hsame⟩ := sameDirectory_of_some hA hB hs hs' (A.manifest?_name hmA)
      (B.manifest?_name hmB)
      ((A.coveredBytes_some hs).symm.trans (hcov.trans (B.coveredBytes_some hs')))
    refine ⟨hlen, ?_, hsame⟩
    have hdata := hsame.1
    simp only [CdHeader.entry]
    rw [hdata, hlen]

/-- Inputs of one length with the same covered bytes have the same bytes in each range. -/
theorem sameRange_of_coveredBytes {x y : List UInt8} (hlen : x.length = y.length)
    {rs : List Range} (hcov : coveredBytes x rs = coveredBytes y rs) :
    ∀ r ∈ rs, SameRange x y r := by
  induction rs with
  | nil => exact fun r hr => nomatch hr
  | cons r rs ih =>
      simp only [coveredBytes, List.flatMap_cons] at hcov
      obtain ⟨hr, hrest⟩ := List.append_inj hcov (by simp [slice, hlen])
      intro q hq
      rcases List.mem_cons.1 hq with rfl | hq
      · exact hr
      · exact ih hrest q hq

theorem coveredBytes_of_sameRange {x y : List UInt8} {rs : List Range}
    (h : ∀ r ∈ rs, SameRange x y r) : coveredBytes x rs = coveredBytes y rs :=
  List.flatMap_congr h

/-- The same bytes in a range, position by position. -/
theorem SameRange.getElem? {x y : List UInt8} {r : Range} (h : SameRange x y r) {i : Nat}
    (hi : r.start ≤ i) (hi' : i < r.stop) : x[i]? = y[i]? := by
  have hs := congrArg (fun xs : List UInt8 => xs[i - r.start]?) h
  rwa [getElem?_slice (by omega), getElem?_slice (by omega), Nat.add_sub_cancel' hi] at hs

section SameBytes

variable {A : Archive} {z : List UInt8}

/-- An input that agrees with `A` behind the file data but in four bytes is the archive with other
file data and these four bytes overwritten. -/
theorem overwrite_replaceData {data : List UInt8} (hdata : data.length = A.data.length)
    (hlen : z.length = A.bytes.length) (hfront : z.take A.data.length = data) {p : Nat}
    (hp : A.data.length ≤ p) (hp' : p + 4 ≤ A.bytes.length)
    (hsame : ∀ i, A.data.length ≤ i → (i < p ∨ p + 4 ≤ i) → z[i]? = A.bytes[i]?) :
    overwrite (A.replaceData data hdata).bytes p (slice z p 4) = z := by
  have hbytes := A.length_bytes
  have hlen' : (A.replaceData data hdata).bytes.length = A.bytes.length := by
    rw [A.replaceData_bytes, List.length_append, hdata, List.length_drop]
    omega
  have hslice : (slice z p 4).length = 4 := length_slice (by omega)
  apply List.ext_getElem?
  intro i
  by_cases hin : p ≤ i ∧ i < p + 4
  · have hs : slice (overwrite (A.replaceData data hdata).bytes p (slice z p 4)) p
        (slice z p 4).length = slice z p 4 := slice_overwrite_self (by omega)
    rw [hslice] at hs
    exact SameRange.getElem? (r := ⟨p, p + 4⟩) (by simpa [SameRange] using hs) hin.1 hin.2
  · rw [getElem?_overwrite_of_not_mem (by omega) (by omega), A.replaceData_bytes]
    by_cases hi : i < A.data.length
    · rw [List.getElem?_append_left (by omega), ← hfront, List.getElem?_take_of_lt hi]
    · rw [List.getElem?_append_right (by omega), hdata, List.getElem?_drop,
        Nat.add_sub_cancel' (by omega), hsame i (by omega) (by omega)]

/-- **An input that agrees with an archive in its covered directory is an archive** with the same
ranges and the same entries, up to the CRC that is skipped. -/
theorem exists_sameEntries {rs : List Range}
    (hrs : Binding.centralDirectoryRanges A.bytes = .ok rs) (hlen : z.length = A.bytes.length)
    (hsame : ∀ r ∈ rs, SameRange z A.bytes r) :
    ∃ B : Archive, B.bytes = z ∧ SameEntries A B ∧
      Binding.centralDirectoryRanges B.bytes = .ok rs := by
  have hbytes := A.length_bytes
  have htake : (z.take A.data.length).length = A.data.length := List.length_take_of_le (by omega)
  have hentries : (A.replaceData _ htake).entries = A.entries :=
    congrArg ZipLayout.entries (A.replaceData_layout htake)
  rw [A.centralDirectoryRanges_eq_ok] at hrs
  cases hm : A.manifest? with
  | none =>
      rw [hm] at hrs
      subst hrs
      -- Everything behind the file data is the same.
      have hz : (A.replaceData _ htake).bytes = z := by
        rw [A.replaceData_bytes]
        have hback := hsame _ List.mem_cons_self
        rw [SameRange, slice, slice,
          List.take_of_length_le (by simp only [List.length_drop]; omega),
          List.take_of_length_le (by simp only [List.length_drop]; omega)] at hback
        rw [← hback, List.take_append_drop]
      refine ⟨_, hz, ⟨htake.symm, ?_⟩, ?_⟩
      · rw [hentries]
        exact List.forall₂_same.2 fun e _ => ⟨rfl, fun _ => rfl⟩
      · have hm' : A.entries.find? (fun e => e.name = zipManifestPath) = none := hm
        rw [Archive.centralDirectoryRanges_eq_ok, Archive.manifest?, hentries, hm', hz, hlen,
          Archive.replaceData_data, htake]
  | some e =>
      obtain ⟨pre, h, post, hs, he⟩ := A.exists_header (A.manifest?_mem hm)
      rw [hm] at hrs
      subst hrs
      have hcd := A.cdHeader_bounds (A.manifest?_mem hm)
      have heocd := A.eocdOffset_add_length
      have hpos : e.cdHeaderOffset = A.data.length + (dirBytes pre).length := by rw [he]; rfl
      -- Another CRC stands in the four bytes between the two ranges.
      set c := u32At z (e.cdHeaderOffset + 16) with hc
      have hs' : (A.replaceData _ htake).headers = pre ++ h :: post := hs
      have hz : ((A.replaceData _ htake).replaceCrc hs' c).bytes = z := by
        rw [Archive.replaceCrc_bytes, Archive.replaceData_data, htake, ← hpos, hc,
          u32ToLe_u32At (by omega)]
        refine overwrite_replaceData htake hlen rfl (by omega) (by omega) ?_
        rintro i hi (hi' | hi')
        · exact (hsame _ List.mem_cons_self).getElem? hi hi'
        · by_cases hend : i < A.bytes.length
          · exact (hsame _ (List.mem_cons_of_mem _ List.mem_cons_self)).getElem? hi' hend
          · rw [List.getElem?_eq_none (by omega), List.getElem?_eq_none (by omega)]
      have hentries' : ((A.replaceData _ htake).replaceCrc hs' c).entries =
          A.entries.map (setEntryCrc e.cdHeaderOffset c) := by
        rw [Archive.replaceCrc_entries, hentries, Archive.replaceData_data, htake, ← hpos]
      refine ⟨_, hz, ⟨htake.symm, ?_⟩, ?_⟩
      · rw [hentries', List.forall₂_map_right_iff]
        refine List.forall₂_same.2 fun f hf => ⟨rfl, fun hne => setEntryCrc_of_ne _ fun heq => ?_⟩
        -- Only the manifest entry has its header there.
        have hfe := eq_of_cdHeaderOffset_eq ((mem_sortByKey _).1 hf)
          ((mem_sortByKey _).1 (A.manifest?_mem hm)) heq
        rw [hfe] at hne
        exact hne (A.manifest?_name hm)
      · have hm' : A.entries.find? (fun e => e.name = zipManifestPath) = some e := hm
        have hfind : (A.entries.map (setEntryCrc e.cdHeaderOffset c)).find?
            (fun e => e.name = zipManifestPath) = some (setEntryCrc e.cdHeaderOffset c e) := by
          rw [List.find?_map]
          exact congrArg (Option.map _) hm'
        rw [Archive.centralDirectoryRanges_eq_ok, Archive.manifest?, hentries', hfind, hz, hlen]
        simp only [Archive.replaceCrc_data, Archive.replaceData_data, htake,
          setEntryCrc_cdHeaderOffset]

end SameBytes

/-! ## The members -/

section Members

variable {A B : Archive} {ms ms' : List Binding.Member}

/-- The members of both archives, one by one: the same entry binds in both. -/
theorem SameEntries.members (h : SameEntries A B)
    (hms : Binding.collectionMembers A.bytes = .ok ms)
    (hms' : Binding.collectionMembers B.bytes = .ok ms') :
    List.Forall₂ (fun m m' => m'.name = m.name ∧ ∃ e b, b ≤ A.bytes.length ∧ b ≤ B.bytes.length ∧
      bindingRange A.bytes e b = .ok m.content ∧ bindingRange B.bytes e b = .ok m'.content)
      ms ms' := by
  obtain ⟨rs, hrs, rfl⟩ := collectionMembers_eq_ok.1 hms
  obtain ⟨rs', hrs', rfl⟩ := collectionMembers_eq_ok.1 hms'
  rw [List.forall₂_map_left_iff, List.forall₂_map_right_iff]
  have hfilter := List.rel_filter (p := fun m : String × Range => decide (m.1 ≠ zipManifestPath))
    (q := fun m : String × Range => decide (m.1 ≠ zipManifestPath))
    (by rintro m m' ⟨hn, -⟩; simp [hn]) (h.memberRanges hrs hrs')
  refine forall₂_imp_mem hfilter ?_
  rintro m hm m' ⟨hn, hbind⟩
  exact ⟨hn, hbind (by simpa using (List.mem_filter.1 hm).2)⟩

/-- The same names and bytes stand in the same ranges. -/
theorem SameEntries.members_eq_of_bytes (h : SameEntries A B)
    (hms : Binding.collectionMembers A.bytes = .ok ms)
    (hms' : Binding.collectionMembers B.bytes = .ok ms')
    (hbytes : (ms.map fun m => (m.name, slice A.bytes m.content.start
        (m.content.stop - m.content.start))) =
      ms'.map fun m => (m.name, slice B.bytes m.content.start
        (m.content.stop - m.content.start))) :
    ms = ms' ∧ ∀ m ∈ ms, SameRange A.bytes B.bytes m.content := by
  have hpairs := List.forall₂_map_left_iff.1 (List.forall₂_map_right_iff.1
    (List.forall₂_eq_eq_eq.symm ▸ hbytes))
  have heq : List.Forall₂ (fun m m' => m = m' ∧ SameRange A.bytes B.bytes m.content) ms ms' := by
    refine (forall₂_and (h.members hms hms') hpairs).imp ?_
    rintro ⟨n, r⟩ ⟨n', r'⟩ ⟨⟨hn, e, b, hbA, hbB, hr, hr'⟩, hslice⟩
    obtain ⟨hstart, hle, hstop, -⟩ := (bindingRange_eq_ok hbA).1 hr
    obtain ⟨hstart', hle', hstop', -⟩ := (bindingRange_eq_ok hbB).1 hr'
    simp only at hn hstart hle hstop hstart' hle' hstop'
    have hbody := (Prod.mk.inj hslice).2
    simp only at hbody
    -- Both start at the local header, and are as long as their bytes.
    have hlen := congrArg List.length hbody
    rw [length_slice (by omega), length_slice (by omega)] at hlen
    have hr : r = r' := by
      cases r
      cases r'
      simp only [Range.mk.injEq] at *
      omega
    subst hr hn
    exact ⟨rfl, hbody⟩
  refine ⟨List.forall₂_eq_eq_eq ▸ heq.imp fun _ _ hm => hm.1, fun m hm => ?_⟩
  obtain ⟨m', -, -, hm'⟩ := exists_right_of_forall₂ heq hm
  exact hm'

/-- The same bytes in the ranges of one archive make the same members in the other. -/
theorem SameEntries.members_eq_of_sameRange (h : SameEntries A B)
    (hms : Binding.collectionMembers A.bytes = .ok ms)
    (hms' : Binding.collectionMembers B.bytes = .ok ms')
    (hsame : ∀ m ∈ ms, SameRange B.bytes A.bytes m.content) : ms' = ms := by
  refine eq_of_forall₂ (R := Eq) (List.forall₂_same.2 fun _ _ => rfl) (h.members hms hms') ?_
  rintro ⟨n, r⟩ hm _ ⟨n', r'⟩ rfl ⟨hn, e, b, hbA, hbB, hr, hr'⟩
  -- The record of the entry is the same record in the other archive.
  obtain ⟨hstart, hle, hstop, hmember⟩ := (bindingRange_eq_ok hbA).1 hr
  have hrange : slice B.bytes r.start (r.stop - r.start) = _ := hsame _ hm
  rw [← hrange] at hmember
  have hbind : bindingRange B.bytes e b = .ok r :=
    (bindingRange_eq_ok hbB).2 ⟨hstart, hle, hstop, hmember⟩
  obtain rfl : r = r' := Except.ok.inj (hbind.symm.trans hr')
  obtain rfl : n' = n := hn
  rfl

end Members

/-! ## The inputs -/

theorem bindingInputs_eq_ok {z : List UInt8} {I : Inputs} : bindingInputs z = .ok I ↔
    ∃ ms rs, Binding.collectionMembers z = .ok ms ∧ Binding.centralDirectoryRanges z = .ok rs ∧
      I = ⟨ms.map fun m => (m.name, slice z m.content.start (m.content.stop - m.content.start)),
        coveredBytes z rs⟩ := by
  simp only [bindingInputs, memberInputs, bind_eq_ok, pure_eq_ok]
  constructor
  · rintro ⟨_, ⟨ms, hms, rfl⟩, rs, hrs, rfl⟩
    exact ⟨ms, rs, hms, hrs, rfl⟩
  · rintro ⟨ms, rs, hms, hrs, rfl⟩
    exact ⟨_, ⟨ms, hms, rfl⟩, rs, hrs, rfl⟩

theorem hashedRanges_eq_ok {z : List UInt8} {qs : List Range} : hashedRanges z = .ok qs ↔
    ∃ ms rs, Binding.collectionMembers z = .ok ms ∧ Binding.centralDirectoryRanges z = .ok rs ∧
      qs = ms.map Binding.Member.content ++ rs := by
  simp only [hashedRanges, bind_eq_ok, pure_eq_ok]
  constructor
  · rintro ⟨ms, hms, rs, hrs, rfl⟩
    exact ⟨ms, rs, hms, hrs, rfl⟩
  · rintro ⟨ms, rs, hms, hrs, rfl⟩
    exact ⟨ms, hms, rs, hrs, rfl⟩

/-- Archives with the same inputs hash the same ranges of the same entries. -/
theorem sameEntries_of_inputs {A B : Archive} (hA : A.bytes.length < 2 ^ 30)
    (hB : B.bytes.length < 2 ^ 30) {I : Inputs} (hIA : bindingInputs A.bytes = .ok I)
    (hIB : bindingInputs B.bytes = .ok I) :
    A.bytes.length = B.bytes.length ∧ SameEntries A B ∧
      ∃ qs, hashedRanges A.bytes = .ok qs ∧ hashedRanges B.bytes = .ok qs ∧
        ∀ q ∈ qs, SameRange A.bytes B.bytes q := by
  obtain ⟨ms, rs, hms, hrs, rfl⟩ := bindingInputs_eq_ok.1 hIA
  obtain ⟨ms', rs', hms', hrs', hI⟩ := bindingInputs_eq_ok.1 hIB
  obtain ⟨hbytes, hcov⟩ := Inputs.mk.inj hI
  obtain ⟨hlen, rfl, hdir⟩ := sameDirectory_of_coveredBytes hA hB hrs hrs' hcov
  obtain ⟨rfl, hmembers⟩ := hdir.sameEntries.members_eq_of_bytes hms hms' hbytes
  refine ⟨hlen, hdir.sameEntries, _, hashedRanges_eq_ok.2 ⟨ms, rs, hms, hrs, rfl⟩,
    hashedRanges_eq_ok.2 ⟨ms, rs, hms', hrs', rfl⟩, fun q hq => ?_⟩
  rcases List.mem_append.1 hq with hq | hq
  · obtain ⟨m, hm, rfl⟩ := List.mem_map.1 hq
    exact hmembers m hm
  · exact sameRange_of_coveredBytes hlen hcov q hq

/-- **The hash inputs say exactly what the hashed ranges hold.** Where `z` hashes the ranges `qs`,
another input of less than `2 ^ 30` bytes has the same inputs if and only if it has inputs at all,
the same length, and the same bytes in `qs`; it then hashes the same ranges. -/
theorem sameInputs_iff {z y : List UInt8} {qs : List Range} (hz : z.length < 2 ^ 30)
    (hy : y.length < 2 ^ 30) (hqs : hashedRanges z = .ok qs) :
    (bindingInputs y = bindingInputs z ↔ (∃ I, bindingInputs y = .ok I) ∧ y.length = z.length ∧
      ∀ q ∈ qs, SameRange y z q) ∧
    (bindingInputs y = bindingInputs z → hashedRanges y = .ok qs) := by
  obtain ⟨ms, rs, hms, hrs, rfl⟩ := hashedRanges_eq_ok.1 hqs
  have hI := bindingInputs_eq_ok.2 ⟨ms, rs, hms, hrs, rfl⟩
  obtain ⟨A, rfl⟩ := exists_archive_of_bind hrs
  rw [hI]
  -- Inputs are only taken of archives.
  have hsame : ∀ {I}, bindingInputs y = .ok I → ∃ B : Archive, B.bytes = y := by
    intro I hIy
    obtain ⟨ms', rs', -, hrs', -⟩ := bindingInputs_eq_ok.1 hIy
    exact exists_archive_of_bind hrs'
  refine ⟨⟨fun hIy => ?_, ?_⟩, fun hIy => ?_⟩
  · obtain ⟨B, rfl⟩ := hsame hIy
    obtain ⟨hlen, -, qs', hqs', -, hranges⟩ := sameEntries_of_inputs hz hy hI hIy
    obtain rfl := Except.ok.inj (hqs'.symm.trans hqs)
    exact ⟨⟨_, hIy⟩, hlen.symm, fun q hq => (hranges q hq).symm⟩
  · rintro ⟨⟨I, hIy⟩, hlen, hranges⟩
    obtain ⟨ms', rs', hms', hrs', rfl⟩ := bindingInputs_eq_ok.1 hIy
    obtain ⟨B, rfl, hentries, hrsB⟩ := exists_sameEntries hrs hlen
      fun r hr => hranges r (List.mem_append_right _ hr)
    obtain rfl := Except.ok.inj (hrsB.symm.trans hrs')
    have hmembers : ∀ m ∈ ms, SameRange B.bytes A.bytes m.content :=
      fun m hm => hranges _ (List.mem_append_left _ (List.mem_map_of_mem hm))
    obtain rfl := hentries.members_eq_of_sameRange hms hms' hmembers
    have hmap : (ms'.map fun m => (m.name, slice B.bytes m.content.start
        (m.content.stop - m.content.start))) = ms'.map fun m => (m.name,
          slice A.bytes m.content.start (m.content.stop - m.content.start)) :=
      List.map_congr_left fun m hm => congrArg (Prod.mk m.name) (hmembers m hm)
    rw [hIy, hmap, coveredBytes_of_sameRange fun r hr => hranges r (List.mem_append_right _ hr)]
  · obtain ⟨B, rfl⟩ := hsame hIy
    obtain ⟨-, -, qs', hqs', hqsB, -⟩ := sameEntries_of_inputs hz hy hI hIy
    obtain rfl := Except.ok.inj (hqs'.symm.trans hqs)
    exact hqsB

/-- Another manifest byte behind a member is not hashed. -/
theorem sameInputs_refilled :
    bindingInputs (buildZip [("a", [7]), (zipManifestPath, [1])]) =
        bindingInputs (buildZip [("a", [7]), (zipManifestPath, [0])]) ∧
      hashedRanges (buildZip [("a", [7]), (zipManifestPath, [1])]) =
        .ok [⟨0, 32⟩, ⟨95, 158⟩, ⟨162, 242⟩] := by
  have hqs : hashedRanges (buildZip [("a", [7]), (zipManifestPath, [0])]) =
      .ok [⟨0, 32⟩, ⟨95, 158⟩, ⟨162, 242⟩] := by decide +kernel
  obtain ⟨hiff, hranges⟩ := sameInputs_iff (y := buildZip [("a", [7]), (zipManifestPath, [1])])
    (by decide +kernel) (by decide +kernel) hqs
  have hsame := hiff.2 ⟨⟨_, bindingInputs_eq_ok.2 ⟨[⟨"a", ⟨0, 32⟩⟩], [⟨95, 158⟩, ⟨162, 242⟩],
    by decide +kernel, by decide +kernel, rfl⟩⟩, by decide +kernel, by decide +kernel⟩
  exact ⟨hsame, hranges hsame⟩

end C2paZip
