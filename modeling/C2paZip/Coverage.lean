import C2paZip.Api
import C2paZip.Archive.Replace
import C2paZip.Zip.Build

/-!
# What the directory hash covers

`central_directory_ranges` covers everything from the first directory header to the end of the input
except the CRC field of the manifest entry, whose position comes out of the parsed directory. The
covered bytes of two inputs agree only if the two directories do (`coverage_determines_directory`):
both end with the same EOCD record, since a record is the last suffix of its kind; and walking both
header by header, the skipped field cannot stand at different headers, since the header read without
its gap would take the first four name bytes `META` for its local-header offset.
-/

set_option autoImplicit false

namespace C2paZip

open Library

/-- The concatenated bytes of `ranges`. -/
def coveredBytes (bytes : List UInt8) (ranges : List Range) : List UInt8 :=
  ranges.flatMap fun r => slice bytes r.start (r.stop - r.start)

/-- The bytes of a header without its CRC field. -/
def CdHeader.skipCrc (h : CdHeader) : List UInt8 := h.bytes.take 16 ++ h.bytes.drop 20

namespace CdHeader

variable (h : CdHeader)

theorem length_skipCrc : h.skipCrc.length = h.bytes.length - 4 := by
  have hfix := h.fixed_le
  rw [skipCrc, List.length_append, List.length_take_of_le (by omega), List.length_drop]
  omega

theorem bytes_eq_skipCrc :
    h.bytes = h.bytes.take 16 ++ (u32ToLe h.crc32 ++ h.bytes.drop 20) := by
  have hfix := h.fixed_le
  rw [crc32, u32ToLe_u32At (by omega), slice_append_drop, List.take_append_drop]

/-- Behind the skipped field, every position is four lower. -/
theorem slice_skipCrc {p n : Nat} (hp : 16 ≤ p) :
    slice h.skipCrc p n = slice h.bytes (p + 4) n := by
  have hfix := h.fixed_le
  have hlen : (h.bytes.take 16).length = 16 := List.length_take_of_le (by omega)
  rw [skipCrc, slice_append_of_le n (by omega), hlen, slice, List.drop_drop, slice]
  congr 2
  omega

/-- Headers that agree outside the CRC differ in the CRC only. -/
theorem eq_setCrc_of_skipCrc {h k : CdHeader} (hs : h.skipCrc = k.skipCrc) :
    k = h.setCrc k.crc32 := by
  have hh := h.fixed_le
  have hk := k.fixed_le
  have hlen : (h.bytes.take 16).length = (k.bytes.take 16).length := by
    rw [List.length_take_of_le (by omega), List.length_take_of_le (by omega)]
  obtain ⟨htake, hdrop⟩ := List.append_inj hs hlen
  apply ext
  rw [setCrc_bytes, overwrite, length_u32ToLe, htake, hdrop]
  exact k.bytes_eq_skipCrc

/-- Two headers read without their CRC fields from the same bytes. -/
theorem skipCrc_append_inj {h k : CdHeader} {xs ys : List UInt8}
    (heq : h.skipCrc ++ xs = k.skipCrc ++ ys) : k = h.setCrc k.crc32 ∧ xs = ys := by
  have hh := h.fixed_le
  have hk := k.fixed_le
  have hlh := h.length_skipCrc
  have hlk := k.length_skipCrc
  have hs : slice h.bytes 28 6 = slice k.bytes 28 6 := by
    have hx : slice (h.skipCrc ++ xs) 24 6 = slice h.skipCrc 24 6 := slice_append_left (by omega)
    rw [← h.slice_skipCrc (p := 24) (by omega), ← k.slice_skipCrc (p := 24) (by omega), ← hx, heq,
      slice_append_left (by omega)]
  have hlen := length_eq_of_fields hs
  obtain ⟨hskip, hxy⟩ := List.append_inj heq (by omega)
  exact ⟨eq_setCrc_of_skipCrc hskip, hxy⟩

/-- **A manifest header without its CRC field is not read as a header that points below `2 ^ 30`:**
the local-header offset would be the four bytes `META` of the name. -/
theorem skipCrc_append_ne {h k : CdHeader} {xs ys : List UInt8} (hn : h.name = zipManifestPath)
    (hk : k.localOffset < 2 ^ 30) : h.skipCrc ++ xs ≠ k.bytes ++ ys := by
  intro heq
  have hlen := h.name_le
  have hkfix := k.fixed_le
  have hskip := h.length_skipCrc
  have hname := h.slice_name
  rw [hn, length_manifestPath] at hlen hname
  -- `META`, read as a little-endian offset.
  have hmeta : u32At h.bytes 46 = 0x4154454D := by
    have hs : slice h.bytes 46 4 = slice (asBytes zipManifestPath) 0 4 := by
      rw [← hname, slice_slice (by omega)]
    rw [u32At, hs]
    decide +kernel
  -- Four bytes are missing in front of it, so the offset field of `k` holds these bytes.
  have h42 : u32At k.bytes 42 = u32At h.bytes 46 := by
    apply u32At_congr
    have hy : slice (k.bytes ++ ys) 42 4 = slice k.bytes 42 4 := slice_append_left (by omega)
    rw [← hy, ← heq, slice_append_left (by omega), h.slice_skipCrc (by omega)]
  rw [localOffset, h42, hmeta] at hk
  exact absurd hk (by decide)

end CdHeader

/-! ## Comparing two directories header by header -/

/-- A directory with a skipped CRC is not a directory without one. -/
theorem skipCrc_directory_ne {pre ks : List CdHeader} {h : CdHeader} {xs ys : List UInt8}
    (hn : h.name = zipManifestPath) (hk : ∀ k ∈ ks, k.localOffset < 2 ^ 30)
    (hlen : pre.length < ks.length) :
    dirBytes pre ++ (h.skipCrc ++ xs) ≠ dirBytes ks ++ ys := by
  induction pre generalizing ks with
  | nil =>
      cases ks with
      | nil => cases hlen
      | cons k ks =>
          rw [dirBytes_cons, List.append_assoc]
          exact CdHeader.skipCrc_append_ne hn (hk k List.mem_cons_self)
  | cons p pre ih =>
      cases ks with
      | nil => cases hlen
      | cons k ks =>
          intro heq
          simp only [dirBytes_cons, List.append_assoc] at heq
          obtain ⟨-, hrest⟩ := CdHeader.append_inj heq
          exact ih (fun k hmem => hk k (List.mem_cons_of_mem _ hmem)) (by simpa using hlen) hrest

/-- Two directories with one skipped CRC each skip it at the same header. -/
theorem skipCrc_directory_inj {pre pre' post post' : List CdHeader} {h h' : CdHeader}
    {xs ys : List UInt8} (hn : h.name = zipManifestPath) (hn' : h'.name = zipManifestPath)
    (hk : ∀ k ∈ pre, k.localOffset < 2 ^ 30) (hk' : ∀ k ∈ pre', k.localOffset < 2 ^ 30)
    (hlen : pre.length + post.length = pre'.length + post'.length)
    (heq : dirBytes pre ++ (h.skipCrc ++ (dirBytes post ++ xs)) =
      dirBytes pre' ++ (h'.skipCrc ++ (dirBytes post' ++ ys))) :
    pre = pre' ∧ h' = h.setCrc h'.crc32 ∧ post = post' ∧ xs = ys := by
  induction pre generalizing pre' with
  | nil =>
      cases pre' with
      | nil =>
          obtain ⟨hcrc, hrest⟩ := CdHeader.skipCrc_append_inj heq
          obtain ⟨rfl, hxy⟩ := dirBytes_append_inj (by simpa using hlen) hrest
          exact ⟨rfl, hcrc, rfl, hxy⟩
      -- The manifest header of one input would be another header of the other.
      | cons p' pre' =>
          rw [dirBytes_cons, List.append_assoc] at heq
          exact absurd heq (CdHeader.skipCrc_append_ne hn (hk' p' List.mem_cons_self))
  | cons p pre ih =>
      cases pre' with
      | nil =>
          rw [dirBytes_cons, List.append_assoc] at heq
          exact absurd heq.symm (CdHeader.skipCrc_append_ne hn' (hk p List.mem_cons_self))
      | cons p' pre' =>
          simp only [dirBytes_cons, List.append_assoc] at heq
          obtain ⟨rfl, hrest⟩ := CdHeader.append_inj heq
          obtain ⟨rfl, hcrc, rfl, hxy⟩ := ih (fun k hm => hk k (List.mem_cons_of_mem _ hm))
            (fun k hm => hk' k (List.mem_cons_of_mem _ hm))
            (by simp only [List.length_cons] at hlen; omega) hrest
          exact ⟨rfl, hcrc, rfl, hxy⟩

/-! ## The covered bytes of an archive -/

namespace Archive

variable (A : Archive)

/-- The manifest entry whose CRC field is skipped: the first one in local-offset order. -/
def manifest? : Option CdEntry := A.entries.find? fun e => e.name = zipManifestPath

theorem manifest?_name {e : CdEntry} (he : A.manifest? = some e) : e.name = zipManifestPath := by
  simpa using List.find?_some he

theorem manifest?_mem {e : CdEntry} (he : A.manifest? = some e) : e ∈ A.entries :=
  List.mem_of_find?_eq_some he

theorem centralDirectoryRanges_eq_ok {rs : List Range} :
    Binding.centralDirectoryRanges A.bytes = .ok rs ↔
      rs = match A.manifest? with
        | some e => [⟨A.data.length, e.cdHeaderOffset + 16⟩,
            ⟨e.cdHeaderOffset + 20, A.bytes.length⟩]
        | none => [⟨A.data.length, A.bytes.length⟩] := by
  have hlen := A.eocdOffset_add_le
  have hcd := A.data_length_le_eocdOffset
  have hok : ¬ (A.data.length > A.bytes.length ∨ A.data.length > A.eocdOffset) := by omega
  unfold Binding.centralDirectoryRanges Zip.centralDirectoryRanges manifest?
  simp only [bind_eq_ok, A.parseLayout_bytes, Except.ok.injEq, exists_eq_left', failIf_eq_ok,
    layout_cdStart, layout_eocdOffset, layout_entries, exists_and_left, exists_const]
  rw [and_iff_right hok]
  cases A.entries.find? fun e => e.name = zipManifestPath with
  | none => exact pure_eq_ok.trans eq_comm
  | some e => exact pure_eq_ok.trans eq_comm

theorem coveredBytes_none :
    coveredBytes A.bytes [⟨A.data.length, A.bytes.length⟩] =
      dirBytes A.headers ++ (A.gap ++ A.eocd) := by
  simp only [coveredBytes, List.flatMap_cons, List.flatMap_nil, List.append_nil]
  have hlen : A.bytes.length - A.data.length =
      (dirBytes A.headers ++ (A.gap ++ A.eocd)).length := by
    rw [bytes, List.length_append, Nat.add_sub_cancel_left]
  rw [hlen, bytes, slice_append_length, slice_self]

theorem coveredBytes_some {pre post : List CdHeader} {h : CdHeader}
    (hs : A.headers = pre ++ h :: post) :
    coveredBytes A.bytes [⟨A.data.length, A.data.length + (dirBytes pre).length + 16⟩,
        ⟨A.data.length + (dirBytes pre).length + 20, A.bytes.length⟩] =
      dirBytes pre ++ (h.skipCrc ++ (dirBytes post ++ (A.gap ++ A.eocd))) := by
  have hfix := h.fixed_le
  set rest := dirBytes post ++ (A.gap ++ A.eocd) with hrest
  have hsplit : A.bytes = A.data ++ (dirBytes pre ++ (h.bytes ++ rest)) := by
    simp [bytes, hs, hrest]
  -- Up to the CRC field of the skipped header, and from behind it on.
  have hfront : slice A.bytes A.data.length ((dirBytes pre).length + 16) =
      dirBytes pre ++ h.bytes.take 16 := by
    rw [hsplit, slice_append_length, slice_add, slice_append_zero, Nat.zero_add,
      slice_append_length, slice_append_left (by omega), slice_eq_take]
  have hback : slice A.bytes (A.data.length + (dirBytes pre).length + 20)
      (A.bytes.length - (A.data.length + (dirBytes pre).length + 20)) =
      h.bytes.drop 20 ++ rest := by
    have hlen : A.bytes.length - (A.data.length + (dirBytes pre).length + 20) =
        (h.bytes ++ rest).length - 20 := by
      simp only [hsplit, List.length_append]
      omega
    rw [hlen, hsplit, Nat.add_assoc, slice_append_right, slice_append_right, slice,
      List.drop_append_of_le_length (by omega), List.take_of_length_le]
    simp only [List.length_append, List.length_drop]
    omega
  simp only [coveredBytes, List.flatMap_cons, List.flatMap_nil, List.append_nil]
  rw [show A.data.length + (dirBytes pre).length + 16 - A.data.length =
    (dirBytes pre).length + 16 by omega, hfront, hback, CdHeader.skipCrc]
  simp only [List.append_assoc]

/-- Equal inputs end with equal records. -/
theorem eocd_eq_of_append {A B : Archive} {xs ys : List UInt8}
    (heq : xs ++ A.eocd = ys ++ B.eocd) : A.eocd = B.eocd :=
  (eocd_unique A.eocd_at A.eocd_last B.eocd_at B.eocd_last heq).1

/-- Equal records fix the start and the number of headers of the directory. -/
theorem sizes_of_eocd_eq {A B : Archive} (heq : A.eocd = B.eocd) :
    A.data.length = B.data.length ∧ A.headers.length = B.headers.length := by
  rw [← A.offset_eq, ← B.offset_eq, ← A.total_eq, ← B.total_eq, heq]
  exact ⟨rfl, rfl⟩

end Archive

/-! ## Tamper evidence -/

/-- The directories of `A` and `B` agree, up to the CRC of the manifest entry that the ranges `rs`
of `A` skip. -/
def SameDirectory (A B : Archive) (rs : List Range) : Prop :=
  A.data.length = B.data.length ∧ A.eocdOffset = B.eocdOffset ∧
    List.Forall₂ (fun e f => f = { e with crc32 := f.crc32 } ∧
      (e.crc32 = f.crc32 ∨ e.name = zipManifestPath ∧
        rs = [⟨A.data.length, e.cdHeaderOffset + 16⟩,
          ⟨e.cdHeaderOffset + 20, A.bytes.length⟩])) A.entries B.entries

section TamperEvidence

variable {A B : Archive}

/-- Local-header offsets of a short input are small. -/
theorem Archive.localOffset_lt_of_short (hA : A.bytes.length < 2 ^ 30) :
    ∀ h ∈ A.headers, h.localOffset < 2 ^ 30 := by
  intro h hh
  have hlt := A.local_lt h hh
  have hlen := A.length_bytes
  omega

/-- Without a manifest entry in either input the whole directories are compared. -/
theorem sameDirectory_of_none (rs : List Range)
    (hcov : dirBytes A.headers ++ (A.gap ++ A.eocd) = dirBytes B.headers ++ (B.gap ++ B.eocd)) :
    A.bytes.length = B.bytes.length ∧ SameDirectory A B rs := by
  have hassoc := hcov
  rw [← List.append_assoc, ← List.append_assoc] at hassoc
  have heocd := Archive.eocd_eq_of_append hassoc
  obtain ⟨hdata, hcount⟩ := Archive.sizes_of_eocd_eq heocd
  obtain ⟨hheaders, hrest⟩ := dirBytes_append_inj hcount hcov
  rw [heocd] at hrest
  have hgap := List.append_cancel_right hrest
  have hentries : A.entries = B.entries := by
    rw [Archive.entries, Archive.entries, Archive.walk, Archive.walk, hdata, hheaders]
  refine ⟨?_, hdata, ?_, ?_⟩
  · rw [A.length_bytes, B.length_bytes, hdata, hheaders, hgap, heocd]
  · rw [Archive.eocdOffset, Archive.eocdOffset, hdata, hheaders, hgap]
  · rw [← hentries]
    exact List.forall₂_same.2 fun e _ => ⟨rfl, Or.inl rfl⟩

/-- With a manifest entry in one input only, the covered bytes differ. -/
theorem coveredBytes_ne_of_some_none {pre post : List CdHeader} {h : CdHeader}
    (hB : B.bytes.length < 2 ^ 30) (hs : A.headers = pre ++ h :: post)
    (hn : h.name = zipManifestPath) :
    dirBytes pre ++ (h.skipCrc ++ (dirBytes post ++ (A.gap ++ A.eocd))) ≠
      dirBytes B.headers ++ (B.gap ++ B.eocd) := by
  intro hcov
  have hassoc : (dirBytes pre ++ (h.skipCrc ++ (dirBytes post ++ A.gap))) ++ A.eocd =
      (dirBytes B.headers ++ B.gap) ++ B.eocd := by
    simpa only [List.append_assoc] using hcov
  have heocd := Archive.eocd_eq_of_append hassoc
  obtain ⟨-, hcount⟩ := Archive.sizes_of_eocd_eq heocd
  refine skipCrc_directory_ne hn (Archive.localOffset_lt_of_short hB) ?_ hcov
  rw [← hcount, hs, List.length_append, List.length_cons]
  omega

/-- With a manifest entry in both inputs, the same field is skipped in both. -/
theorem sameDirectory_of_some {pre pre' post post' : List CdHeader} {h h' : CdHeader}
    (hA : A.bytes.length < 2 ^ 30) (hB : B.bytes.length < 2 ^ 30)
    (hs : A.headers = pre ++ h :: post) (hs' : B.headers = pre' ++ h' :: post')
    (hn : h.name = zipManifestPath) (hn' : h'.name = zipManifestPath)
    (hcov : dirBytes pre ++ (h.skipCrc ++ (dirBytes post ++ (A.gap ++ A.eocd))) =
      dirBytes pre' ++ (h'.skipCrc ++ (dirBytes post' ++ (B.gap ++ B.eocd)))) :
    A.bytes.length = B.bytes.length ∧ pre = pre' ∧ SameDirectory A B
      [⟨A.data.length, A.data.length + (dirBytes pre).length + 16⟩,
        ⟨A.data.length + (dirBytes pre).length + 20, A.bytes.length⟩] := by
  have hassoc : (dirBytes pre ++ (h.skipCrc ++ (dirBytes post ++ A.gap))) ++ A.eocd =
      (dirBytes pre' ++ (h'.skipCrc ++ (dirBytes post' ++ B.gap))) ++ B.eocd := by
    simpa only [List.append_assoc] using hcov
  have heocd := Archive.eocd_eq_of_append hassoc
  obtain ⟨hdata, hcount⟩ := Archive.sizes_of_eocd_eq heocd
  rw [hs, hs'] at hcount
  simp only [List.length_append, List.length_cons] at hcount
  have hsmall := Archive.localOffset_lt_of_short hA
  have hsmall' := Archive.localOffset_lt_of_short hB
  obtain ⟨rfl, hcrc, rfl, hrest⟩ := skipCrc_directory_inj hn hn'
    (fun k hk => hsmall k (by simp [hs, hk])) (fun k hk => hsmall' k (by simp [hs', hk]))
    (by omega) hcov
  rw [heocd] at hrest
  have hgap := List.append_cancel_right hrest
  rw [hcrc] at hs'
  -- `B` is `A` with another CRC at the skipped position, as far as positions and entries go.
  have hheaders : B.headers = (A.replaceCrc hs h'.crc32).headers := hs'
  have hdir : (dirBytes B.headers).length = (dirBytes A.headers).length := by
    rw [hheaders, A.replaceCrc_headers hs, Archive.length_dirBytes_setCrc, hs]
  have hentries : B.entries = A.entries.map
      (setEntryCrc (A.data.length + (dirBytes pre).length) h'.crc32) := by
    rw [← A.replaceCrc_entries hs, Archive.entries, Archive.entries, Archive.walk, Archive.walk,
      ← hdata, hheaders]
    rfl
  refine ⟨?_, rfl, hdata, ?_, ?_⟩
  · rw [A.length_bytes, B.length_bytes, hdata, hdir, hgap, heocd]
  · rw [Archive.eocdOffset, Archive.eocdOffset, hdata, hdir, hgap]
  · rw [hentries]
    refine List.forall₂_map_right_iff.2 (List.forall₂_same.2 fun e he => ⟨rfl, ?_⟩)
    -- Only the entry whose header stands at the skipped position can differ.
    by_cases hpos : e.cdHeaderOffset = A.data.length + (dirBytes pre).length
    · have hmem : h.entry (A.data.length + (dirBytes pre).length) ∈ A.walk := by
        rw [Archive.walk, hs, placeEntries_append]
        exact List.mem_append_right _ List.mem_cons_self
      have heq := eq_of_cdHeaderOffset_eq ((mem_sortByKey _).1 he) hmem hpos
      refine Or.inr ⟨?_, by rw [hpos]⟩
      rw [heq]
      exact hn
    · rw [setEntryCrc_of_ne _ hpos]
      exact Or.inl rfl

end TamperEvidence

/-- **Central-directory coverage is tamper-evident.** Two inputs below `2 ^ 30` bytes whose covered
directory bytes agree have the same length, the same covered ranges and the same parsed directory,
except possibly the CRC of the manifest entry that the coverage skips. -/
theorem coverage_determines_directory {z₁ z₂ : List UInt8} {rs₁ rs₂ : List Range}
    (hz₁ : z₁.length < 2 ^ 30) (hz₂ : z₂.length < 2 ^ 30)
    (hrs₁ : Binding.centralDirectoryRanges z₁ = .ok rs₁)
    (hrs₂ : Binding.centralDirectoryRanges z₂ = .ok rs₂)
    (hcov : coveredBytes z₁ rs₁ = coveredBytes z₂ rs₂) :
    z₁.length = z₂.length ∧ rs₁ = rs₂ ∧
      ∃ L₁ L₂, parseLayout z₁ = .ok L₁ ∧ parseLayout z₂ = .ok L₂ ∧
        L₁.cdStart = L₂.cdStart ∧ L₁.eocdOffset = L₂.eocdOffset ∧
        List.Forall₂ (fun e f => f = { e with crc32 := f.crc32 } ∧
          (e.crc32 = f.crc32 ∨ e.name = zipManifestPath ∧
            rs₁ = [⟨L₁.cdStart, e.cdHeaderOffset + 16⟩, ⟨e.cdHeaderOffset + 20, z₁.length⟩]))
          L₁.entries L₂.entries := by
  obtain ⟨A, rfl⟩ := exists_archive_of_bind hrs₁
  obtain ⟨B, rfl⟩ := exists_archive_of_bind hrs₂
  suffices h : A.bytes.length = B.bytes.length ∧ rs₁ = rs₂ ∧ SameDirectory A B rs₁ by
    obtain ⟨hlen, hrs, hcd, heocd, hentries⟩ := h
    exact ⟨hlen, hrs, A.layout, B.layout, A.parseLayout_bytes, B.parseLayout_bytes, hcd, heocd,
      hentries⟩
  rw [A.centralDirectoryRanges_eq_ok] at hrs₁
  rw [B.centralDirectoryRanges_eq_ok] at hrs₂
  cases hmA : A.manifest? with
  | none =>
      rw [hmA] at hrs₁
      cases hmB : B.manifest? with
      | none =>
          rw [hmB] at hrs₂
          rw [hrs₁, hrs₂, A.coveredBytes_none, B.coveredBytes_none] at hcov
          obtain ⟨hlen, hsame⟩ := sameDirectory_of_none rs₁ hcov
          exact ⟨hlen, by rw [hrs₁, hrs₂, hsame.1, hlen], hsame⟩
      | some f =>
          obtain ⟨pre, h, post, hs, rfl⟩ := B.exists_header (B.manifest?_mem hmB)
          rw [hmB] at hrs₂
          rw [hrs₁, hrs₂, A.coveredBytes_none] at hcov
          have hc := B.coveredBytes_some hs
          exact absurd (hc.symm.trans hcov.symm)
            (coveredBytes_ne_of_some_none hz₁ hs (B.manifest?_name hmB))
  | some e =>
      obtain ⟨pre, h, post, hs, rfl⟩ := A.exists_header (A.manifest?_mem hmA)
      rw [hmA] at hrs₁
      cases hmB : B.manifest? with
      | none =>
          rw [hmB] at hrs₂
          rw [hrs₁, hrs₂, B.coveredBytes_none] at hcov
          have hc := A.coveredBytes_some hs
          exact absurd (hc.symm.trans hcov)
            (coveredBytes_ne_of_some_none hz₂ hs (A.manifest?_name hmA))
      | some f =>
          obtain ⟨pre', h', post', hs', rfl⟩ := B.exists_header (B.manifest?_mem hmB)
          rw [hmB] at hrs₂
          rw [hrs₁, hrs₂] at hcov
          have hc := (A.coveredBytes_some hs).symm.trans (hcov.trans (B.coveredBytes_some hs'))
          obtain ⟨hlen, rfl, hsame⟩ := sameDirectory_of_some hz₁ hz₂ hs hs' (A.manifest?_name hmA)
            (B.manifest?_name hmB) hc
          rw [hrs₁, hrs₂]
          refine ⟨hlen, ?_, hsame⟩
          simp only [CdHeader.entry]
          rw [hsame.1, hlen]

/-- Two archives that differ in their one manifest byte cover the same directory. -/
theorem coverage_determines_directory_refilled :
    ∃ L₁ L₂, parseLayout (buildZip [(zipManifestPath, [0])]) = .ok L₁ ∧
      parseLayout (buildZip [(zipManifestPath, [1])]) = .ok L₂ ∧
      L₁.cdStart = L₂.cdStart ∧ L₁.eocdOffset = L₂.eocdOffset := by
  obtain ⟨-, -, L₁, L₂, h₁, h₂, hcd, heocd, -⟩ :=
    @coverage_determines_directory (buildZip [(zipManifestPath, [0])])
      (buildZip [(zipManifestPath, [1])]) [⟨63, 79⟩, ⟨83, 163⟩] [⟨63, 79⟩, ⟨83, 163⟩]
      (by decide +kernel) (by decide +kernel) (by decide +kernel)
      (by decide +kernel) (by decide +kernel)
  exact ⟨L₁, L₂, h₁, h₂, hcd, heocd⟩

end C2paZip
