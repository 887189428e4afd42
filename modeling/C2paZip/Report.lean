import C2paZip.Fill
import C2paZip.Ranges

/-!
# The structural report

`verify` reports through `read_manifest`, the binding functions look at the directory alone. The two
agree exactly where the manifest entry, if there is one, can be read (`report_agrees_iff`).
-/

set_option autoImplicit false

namespace C2paZip

open Library

/-- The report about `z` agrees with the binding functions: `z` is valid where the directory ranges
are found, and has a manifest where there are two of them. -/
def ReportAgrees (z : List UInt8) : Prop :=
  ∃ report, Verify.verify z = .ok report ∧
    (report.isValidZip = true ↔ ∃ rs, Binding.centralDirectoryRanges z = .ok rs) ∧
    (report.hasManifest = true ↔ ∃ rs, Binding.centralDirectoryRanges z = .ok rs ∧ rs.length = 2)

/-- The first manifest entry of the layout, if there is one, is stored and unencrypted, has a local
header with its flags, and its record fits its room. -/
def ManifestReadable (z : List UInt8) (L : ZipLayout) : Prop :=
  ∀ i, Zip.entryIndex L zipManifestPath = some i →
    L.entries[i]!.method = 0 ∧ L.entries[i]!.flags &&& 1 = 0 ∧
      u32At z L.entries[i]!.localHeaderOffset = localHeaderSig ∧
      u16At z (L.entries[i]!.localHeaderOffset + 6) = L.entries[i]!.flags ∧
      recordEnd z L.entries[i]! ≤ entryBoundary L i

/-! ## What the report says -/

/-- The report calls an input valid where the manifest, or that there is none, is read, and says
that it has a manifest where one is read. -/
theorem verify_eq_ok (z : List UInt8) :
    ∃ report, Verify.verify z = .ok report ∧
      (report.isValidZip = true ↔ ∃ o, Reader.readManifest z = .ok o) ∧
      (report.hasManifest = true ↔ ∃ m, Reader.readManifest z = .ok (some m)) := by
  unfold Verify.verify
  cases Reader.readManifest z with
  | error e => exact ⟨_, rfl, by simp, by simp⟩
  | ok o =>
      cases o with
      | none => exact ⟨_, rfl, by simp, by simp⟩
      | some m => exact ⟨_, rfl, by simp, by simp⟩

/-- A record that ends in its room is one whose content is found. -/
theorem exists_contentRange_iff {z : List UInt8} {e : CdEntry} {b : Nat} (hb : b ≤ z.length) :
    (∃ r, contentRange z e b = .ok r) ↔ u32At z e.localHeaderOffset = localHeaderSig ∧
      u16At z (e.localHeaderOffset + 6) = e.flags ∧ recordEnd z e ≤ b := by
  constructor
  · rintro ⟨r, hr⟩
    obtain ⟨hsig, hflags, -, -, hrb, -⟩ := contentRange_eq_ok.1 hr
    rw [stop_eq_recordEnd hr] at hrb
    exact ⟨hsig, hflags, hrb⟩
  · rintro ⟨hsig, hflags, hend⟩
    exact ⟨⟨recordEnd z e - e.compressedSize, recordEnd z e⟩, contentRange_eq_ok.2
      ⟨hsig, hflags, Nat.add_sub_cancel _ _, by simp only [recordEnd]; omega, hend,
        Nat.le_trans hend hb⟩⟩

namespace Archive

variable (A : Archive)

/-- The manifest is readable where the lookup finds its content. -/
theorem manifestReadable_iff : ManifestReadable A.bytes A.layout ↔
    ∀ p, A.room? zipManifestPath = some p → ∃ r, A.Locates zipManifestPath p r := by
  have hroom := A.room?_eq_map_entryIndex zipManifestPath
  constructor
  · intro h p hp
    rw [hroom] at hp
    obtain ⟨i, hi, rfl⟩ := Option.map_eq_some_iff.1 hp
    obtain ⟨hmethod, hflags, hrest⟩ := h i hi
    rw [← hroom] at hp
    obtain ⟨r, hr⟩ := (exists_contentRange_iff (A.room_le_bytes (A.room?_mem hp))).2 hrest
    exact ⟨r, hp, hmethod, hflags, hr⟩
  · intro h i hi
    rw [hi, Option.map_some] at hroom
    obtain ⟨r, hloc⟩ := h _ hroom
    exact ⟨hloc.stored, hloc.unencrypted,
      (exists_contentRange_iff (A.room_le_bytes (A.room?_mem hroom))).1 ⟨r, hloc.content⟩⟩

/-- The reader succeeds on an archive whose manifest, if it has one, is readable. -/
theorem exists_readManifest_iff : (∃ o, Reader.readManifest A.bytes = .ok o) ↔
    ManifestReadable A.bytes A.layout := by
  rw [A.manifestReadable_iff]
  constructor
  · rintro ⟨o, ho⟩ p hp
    cases o with
    | none =>
        rw [A.readManifestEntry_eq_none.1 ho] at hp
        cases hp
    | some m =>
        obtain ⟨q, r, hloc, -⟩ := A.readManifestEntry_eq_some.1 ho
        obtain rfl := Option.some.inj (hp.symm.trans hloc.room)
        exact ⟨r, hloc⟩
  · intro h
    cases hroom : A.room? zipManifestPath with
    | none => exact ⟨none, A.readManifestEntry_eq_none.2 hroom⟩
    | some p =>
        obtain ⟨r, hloc⟩ := h p hroom
        exact ⟨some _, A.readManifestEntry_eq_some.2 ⟨p, r, hloc, rfl⟩⟩

/-- The directory ranges of an archive are two exactly where it lists a manifest. -/
theorem two_centralDirectoryRanges_iff :
    (∃ rs, Binding.centralDirectoryRanges A.bytes = .ok rs ∧ rs.length = 2) ↔
      A.manifest?.isSome = true := by
  simp only [A.centralDirectoryRanges_eq_ok, exists_eq_left]
  cases A.manifest? with
  | none => simp
  | some e => simp

end Archive

/-- **The report agrees with the binding functions** exactly where the first manifest entry of an
input that parses, if it has one, can be read. -/
theorem report_agrees_iff (z : List UInt8) :
    ReportAgrees z ↔ ∀ L, parseLayout z = .ok L → ManifestReadable z L := by
  obtain ⟨report, hreport, hvalid, hmanifest⟩ := verify_eq_ok z
  have hagrees : ReportAgrees z ↔
      (report.isValidZip = true ↔ ∃ rs, Binding.centralDirectoryRanges z = .ok rs) ∧
      (report.hasManifest = true ↔
        ∃ rs, Binding.centralDirectoryRanges z = .ok rs ∧ rs.length = 2) := by
    constructor
    · rintro ⟨report', hreport', hrest⟩
      obtain rfl := Except.ok.inj (hreport.symm.trans hreport')
      exact hrest
    · intro hrest
      exact ⟨report, hreport, hrest⟩
  rw [hagrees, hvalid, hmanifest]
  cases hparse : parseLayout z with
  | error e =>
      -- Neither the reader nor the binding functions get past the parser.
      have hstop : ∀ {α : Type} (k : ZipLayout → Except Error α) (a : α),
          (parseLayout z >>= k) ≠ .ok a := by
        intro α k a h
        rw [hparse] at h
        cases h
      have hread : ∀ o, Reader.readManifest z ≠ .ok o := fun o => hstop _ o
      have hranges : ∀ rs, Binding.centralDirectoryRanges z ≠ .ok rs := fun rs => hstop _ rs
      simp [hread, hranges]
  | ok L =>
      obtain ⟨A, rfl, rfl⟩ := exists_archive_of_parseLayout hparse
      obtain ⟨ds, hds, -⟩ := A.completeDirectory
      have hlayout : (∀ L', Except.ok A.layout = (Except.ok L' : Except Error ZipLayout) →
          ManifestReadable A.bytes L') ↔ ManifestReadable A.bytes A.layout := by
        simp
      rw [hlayout, A.two_centralDirectoryRanges_iff, A.exists_readManifest_iff,
        A.manifest?_eq_map_room?, Option.isSome_map]
      constructor
      · rintro ⟨hiff, -⟩
        exact hiff.2 ⟨ds, hds⟩
      · intro hreadable
        refine ⟨⟨fun _ => ⟨ds, hds⟩, fun _ => hreadable⟩, ?_, ?_⟩
        · rintro ⟨m, hm⟩
          obtain ⟨p, r, hloc, -⟩ := A.readManifestEntry_eq_some.1 hm
          rw [hloc.room]
          rfl
        · intro hsome
          obtain ⟨p, hp⟩ := Option.isSome_iff_exists.1 hsome
          obtain ⟨r, hloc⟩ := A.manifestReadable_iff.1 hreadable p hp
          exact ⟨_, A.readManifestEntry_eq_some.2 ⟨p, r, hloc, rfl⟩⟩

/-- A manifest whose directory header declares it compressed. -/
def deflatedManifest : List UInt8 :=
  overwrite (buildZip [(zipManifestPath, [1])]) 73 (u16ToLe 8)

/-- An archive is reported invalid because of its manifest entry alone. -/
theorem deflatedManifest_report :
    Verify.verify deflatedManifest = .ok ⟨false, 0, false⟩ ∧
      Binding.centralDirectoryRanges deflatedManifest = .ok [⟨63, 79⟩, ⟨83, 163⟩] ∧
      ¬ ReportAgrees deflatedManifest := by
  have hverify : Verify.verify deflatedManifest = .ok ⟨false, 0, false⟩ := by decide +kernel
  have hranges : Binding.centralDirectoryRanges deflatedManifest =
      .ok [⟨63, 79⟩, ⟨83, 163⟩] := by
    decide +kernel
  refine ⟨hverify, hranges, ?_⟩
  rintro ⟨report, hreport, hvalid, -⟩
  rw [hverify] at hreport
  obtain rfl := Except.ok.inj hreport
  cases hvalid.2 ⟨_, hranges⟩

end C2paZip
