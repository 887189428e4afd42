import C2paZip.Archive.Carried
import C2paZip.Library.Calls

/-!
# Editing sessions

What the crate is for, over whole histories: an archive stands for a `Document`, its members and at
most one manifest, and the public functions are calls on it. `Session.call` makes one call on the
bytes, as the crate does, and `Document.call` on the document. An archive that represents a document
gets the reply of the document to every call, and the edited archive represents the edited document,
so the replies agree over every list of calls (`session_refines`): no history loses, duplicates or
changes a member, and the manifest read is always the one written last. A document has no positions:
of the directory ranges a reply keeps only how many there are.
-/

set_option autoImplicit false

namespace C2paZip

open Library

/-! ## Documents -/

/-- Members that are not called like the manifest, and at most one manifest. -/
structure Document where
  members : List Item
  manifest : Option (List UInt8)
  others : ∀ it ∈ members, it.header.name ≠ zipManifestPath

/-- A call of the public API, or of the lookup of an entry's content, which the crate's tests use.
-/
inductive Call where
  | embed (manifest : List UInt8)
  | fill (manifest : List UInt8)
  | remove
  | read
  | verify
  | members
  | content (name : String)
  | directoryRange
  | directoryRanges

/-- What a document determines of the result of a call: all of it, but for directory ranges, whose
positions are left out. -/
inductive Reply where
  | done
  | failed (e : Error)
  | manifest (m : Option (List UInt8))
  | report (c : Verify.Compliance)
  | members (ms : List (String × List UInt8))
  | names (ns : List String)
  | content (c : Option (List UInt8))
  | ranges (n : Nat)

/-- The reply to a call that returns a result. -/
def answer {α : Type} (f : α → Reply) : Except Error α → Reply
  | .ok a => f a
  | .error e => .failed e

/-- The archive behind an edit: a failed edit leaves the caller with the archive he had. -/
def edited (bytes : List UInt8) : Except Error (List UInt8) → List UInt8 × Reply
  | .ok out => (out, .done)
  | .error e => (bytes, .failed e)

/-- One call on an archive. The single directory range is reported as `done`, and of several their
number. -/
def Session.call (bytes : List UInt8) : Call → List UInt8 × Reply
  | .embed manifest => edited bytes (Writer.embedManifest bytes manifest)
  | .fill manifest => edited bytes (Writer.fillManifest bytes manifest)
  | .remove => edited bytes (Writer.removeManifest bytes)
  | .read => (bytes, answer .manifest (Reader.readManifest bytes))
  | .verify => (bytes, answer .report (Verify.verify bytes))
  | .members => (bytes, answer .members (memberInputs bytes))
  | .content name => (bytes, answer .content (Zip.readZipEntryContent bytes name))
  | .directoryRange => (bytes, answer (fun _ => .done) (Binding.centralDirectoryRange bytes))
  | .directoryRanges =>
      (bytes, answer (fun rs => .ranges rs.length) (Binding.centralDirectoryRanges bytes))

namespace Document

/-- The document with another manifest. -/
def withManifest (d : Document) (m : Option (List UInt8)) : Document := { d with manifest := m }

/-- A manifest is replaced in place only by one of its length. -/
def fill (d : Document) (f : List UInt8) : Document × Reply :=
  match d.manifest with
  | some m =>
      if f.length = m.length then (d.withManifest (some f), .done) else (d, .failed .truncated)
  | none => (d, .failed .truncated)

/-- The structural report. -/
def report (d : Document) : Verify.Compliance where
  hasManifest := d.manifest.isSome
  manifestLen := (d.manifest.map List.length).getD 0
  isValidZip := true

/-- The content of the manifest, or of the first member called `name`. -/
def content (d : Document) (name : String) : Option (List UInt8) :=
  if name = zipManifestPath then
    d.manifest
  else
    (d.members.find? fun it => it.header.name = name).map Item.content

/-- One call on a document. -/
def call (d : Document) : Call → Document × Reply
  | .embed manifest => (d.withManifest (some manifest), .done)
  | .fill manifest => d.fill manifest
  | .remove => (d.withManifest none, .done)
  | .read => (d, .manifest d.manifest)
  | .verify => (d, .report d.report)
  | .members => (d, answer .members (d.members.mapM Item.input))
  | .content name => (d, .content (d.content name))
  | .directoryRange =>
      (d, if d.manifest.isSome then .failed .nonContiguousCentralDirectoryHash else .done)
  | .directoryRanges => (d, .ranges (if d.manifest.isSome then 2 else 1))

end Document

/-- An embedded manifest stays away from the 32-bit limit for an archive of `n` bytes. -/
def Call.Small (n : Nat) : Call → Prop
  | .embed manifest => n + manifest.length + 140 < 2 ^ 32 - 1
  | _ => True

/-! ## Representation -/

/-- Where the archive keeps the manifest of a document: in the first entry of that name, stored and
without a descriptor; without a manifest, there is none, and the next one can be inserted. -/
def ReadsManifest (n : Nat) (A : Archive) : Option (List UInt8) → Prop
  | some m => ∃ p r, A.Locates zipManifestPath p r ∧ p.1.flags &&& 0x0008 = 0 ∧
      slice A.bytes r.start (r.stop - r.start) = m
  | none => (∀ e ∈ A.entries, e.name ≠ zipManifestPath) ∧ A.gap = [] ∧
      A.data.length + (dirBytes A.headers).length ≤ n

/-- The archive `A` stands for the document `d`, whose members take at most `n` bytes. -/
structure Represents (n : Nat) (A : Archive) (d : Document) : Prop where
  members : ∃ items, A.Carries items ∧ kept zipManifestPath items = d.members
  manifest : ReadsManifest n A d.manifest
  count : d.members.length + 1 < 65535
  size : (bodies d.members).length + (directory d.members).length ≤ n
  limit : n + 140 < 2 ^ 32 - 1

section Assembled

variable {n : Nat} {d : Document}

/-- The members and a new manifest fit. -/
theorem fits_members_manifest (hcount : d.members.length + 1 < 65535)
    (hsize : (bodies d.members).length + (directory d.members).length ≤ n) {m : List UInt8}
    (hm : m.length < 2 ^ 32 - 1) (hsmall : n + m.length + 140 < 2 ^ 32 - 1) :
    Fits (d.members ++ [manifestItem m hm]) := by
  refine ⟨by rw [List.length_append, List.length_singleton]; omega, ?_, ?_⟩
  · rw [length_bodies_manifest]
    omega
  · rw [length_directory_manifest]
    omega

/-- An archive of the members and a manifest represents the document with that manifest. -/
theorem represents_of_carries {A : Archive} {m : List UInt8} {hm : m.length < 2 ^ 32 - 1}
    (hcount : d.members.length + 1 < 65535)
    (hsize : (bodies d.members).length + (directory d.members).length ≤ n)
    (hlimit : n + 140 < 2 ^ 32 - 1) (hA : A.Carries (d.members ++ [manifestItem m hm])) :
    Represents n A (d.withManifest (some m)) := by
  obtain ⟨p, r, hloc, hflags, hslice⟩ := hA.locates_stored d.others
  refine ⟨⟨_, hA, ?_⟩, ⟨p, r, hloc, by rw [hflags]; decide, hslice⟩, hcount, hsize, hlimit⟩
  have hself : kept zipManifestPath d.members = d.members :=
    List.filter_eq_self.2 fun it hit => decide_eq_true (d.others it hit)
  have h := kept_manifest hm d.members
  rw [hself] at h
  exact h

end Assembled

namespace Represents

variable {n : Nat} {A : Archive} {d : Document}

/-- Where there is a manifest, an entry has its name. -/
theorem exists_manifest_entry {m : List UInt8} (h : Represents n A d) (hm : d.manifest = some m) :
    ∃ e ∈ A.entries, e.name = zipManifestPath := by
  have hman := h.manifest
  rw [hm] at hman
  obtain ⟨p, r, hloc, -, -⟩ := hman
  exact ⟨p.1, A.room_fst_mem (A.room?_mem hloc.room), A.room?_name hloc.room⟩

/-! ## Reading -/

/-- The manifest that is read is the manifest of the document. -/
theorem readManifest (h : Represents n A d) : Reader.readManifest A.bytes = .ok d.manifest := by
  have hman := h.manifest
  cases hm : d.manifest with
  | none =>
      rw [hm] at hman
      exact A.readManifestEntry_eq_none.2 (A.room?_eq_none.2 hman.1)
  | some m =>
      rw [hm] at hman
      obtain ⟨p, r, hloc, -, hslice⟩ := hman
      exact A.readManifestEntry_eq_some.2 ⟨p, r, hloc, hslice⟩

/-- The report is the report of the document. -/
theorem verify (h : Represents n A d) : Verify.verify A.bytes = .ok d.report := by
  rw [Verify.verify, h.readManifest, Document.report]
  cases d.manifest with
  | none => rfl
  | some m => rfl

/-- The hashed members are those of the document. -/
theorem memberInputs (h : Represents n A d) :
    C2paZip.memberInputs A.bytes = d.members.mapM Item.input := by
  obtain ⟨items, hA, hkept⟩ := h.members
  rw [hA.memberInputs_eq, hkept]

/-- The content of an entry is that of the document. -/
theorem readZipEntryContent (h : Represents n A d) (name : String) :
    Zip.readZipEntryContent A.bytes name = .ok (d.content name) := by
  rw [Document.content]
  by_cases hn : name = zipManifestPath
  · -- Without the check of the manifest, the same content is read.
    rw [if_pos hn, hn, A.readZipEntryContent_bytes]
    have hman := h.manifest
    cases hm : d.manifest with
    | none =>
        rw [hm] at hman
        rw [A.room?_eq_none.2 hman.1]
    | some m =>
        rw [hm] at hman
        obtain ⟨p, r, hloc, -, hslice⟩ := hman
        obtain ⟨-, hle, hstop, hroom⟩ := hloc.bounds
        have hlen := A.length_bytes
        have hget : getRange A.bytes r.start r.stop = some m :=
          getRange_eq_some.2 ⟨hle, by omega, hslice⟩
        rw [hloc.room]
        simp only [hloc.content]
        show (okOr (getRange _ _ _) _ >>= _) = _
        rw [hget]
        rfl
  · rw [if_neg hn]
    obtain ⟨items, hA, hkept⟩ := h.members
    rw [hA.readZipEntryContent_eq, ← hkept, Archive.find?_kept hn]

/-- The directory hash leaves out the CRC of the manifest, if there is one. -/
theorem centralDirectoryRanges (h : Represents n A d) :
    ∃ rs, Binding.centralDirectoryRanges A.bytes = .ok rs ∧
      rs.length = if d.manifest.isSome then 2 else 1 := by
  refine ⟨_, A.centralDirectoryRanges_eq_ok.2 rfl, ?_⟩
  have hman := h.manifest
  rw [A.manifest?_eq_map_room?]
  cases hm : d.manifest with
  | none =>
      rw [hm] at hman
      rw [A.room?_eq_none.2 hman.1]
      rfl
  | some m =>
      rw [hm] at hman
      obtain ⟨p, r, hloc, -, -⟩ := hman
      rw [hloc.room]
      rfl

theorem centralDirectoryRange (h : Represents n A d) :
    answer (fun _ => Reply.done) (Binding.centralDirectoryRange A.bytes) =
      if d.manifest.isSome then .failed .nonContiguousCentralDirectoryHash else .done := by
  obtain ⟨rs, hrs, hlen⟩ := h.centralDirectoryRanges
  have hrs' : Zip.centralDirectoryRanges A.bytes = .ok rs := hrs
  rw [Binding.centralDirectoryRange, Zip.centralDirectoryRange, hrs']
  show answer _ (failIf (rs.length ≠ 1) _ >>= _) = _
  rw [hlen]
  cases d.manifest with
  | none => rfl
  | some m => rfl

/-! ## Editing -/

/-- **Embedding** gives an archive of the document with the new manifest: the manifest entries are
replaced, or a first one is inserted. -/
theorem embedManifest (h : Represents n A d) {m : List UInt8}
    (hsmall : n + m.length + 140 < 2 ^ 32 - 1) :
    ∃ B, Writer.embedManifest A.bytes m = .ok B.bytes ∧
      Represents n B (d.withManifest (some m)) := by
  have hm : m.length < 2 ^ 32 - 1 := by omega
  have hfits := fits_members_manifest h.count h.size hm hsmall
  obtain ⟨items, hA, hkept⟩ := h.members
  have hman := h.manifest
  have hsize := h.size
  cases hdm : d.manifest with
  | none =>
      rw [hdm] at hman
      obtain ⟨hnone, hgap, hbytes⟩ := hman
      have hpath := length_manifestPath
      have hdata := A.length_insertedData zipManifestPath m
      have hdir := A.length_insertedDir zipManifestPath m
      rw [hgap, List.length_nil] at hdir
      -- Nothing is removed, so the members are the items themselves.
      have hself : kept zipManifestPath items = items := hA.kept_of_absent hnone
      have hcount := h.count
      rw [← hkept, hself, hA.length] at hcount
      obtain ⟨hm', B, hB, -, hinsert⟩ := Archive.exists_insert (m := m) hgap hcount
        (by omega) (by omega)
      refine ⟨B, by rw [embedManifest_of_absent hnone, hinsert], ?_⟩
      have hcarries : B.Carries (kept zipManifestPath items ++ [manifestItem m hm]) := by
        rw [hself]
        exact hB.carries hA
      rw [hkept] at hcarries
      exact represents_of_carries h.count h.size h.limit hcarries
  | some old =>
      refine ⟨assemble _ hfits, ?_,
        represents_of_carries h.count h.size h.limit (carries_assemble hfits)⟩
      have hd := hfits.data
      have hr := hfits.directory
      rw [length_bodies_manifest] at hd
      rw [length_directory_manifest] at hr
      rw [assemble_bytes]
      refine (embedManifest_eq_ok hA (h.exists_manifest_entry hdm) hm).2 ?_
      rw [hkept]
      exact ⟨by omega, by omega, rfl⟩

/-- **Removing** gives an archive of the document without a manifest. -/
theorem removeManifest (h : Represents n A d) :
    ∃ B, Writer.removeManifest A.bytes = .ok B.bytes ∧ Represents n B (d.withManifest none) := by
  have hcount := h.count
  have hsize := h.size
  have hlimit := h.limit
  obtain ⟨items, hA, hkept⟩ := h.members
  have hman := h.manifest
  cases hdm : d.manifest with
  | none =>
      rw [hdm] at hman
      exact ⟨A, removeZipEntry_of_absent hman.1, ⟨⟨items, hA, hkept⟩, hman, hcount, hsize, hlimit⟩⟩
  | some old =>
      have hfits : Fits (kept zipManifestPath items) := by
        rw [hkept]
        exact ⟨by omega, by omega, by omega⟩
      have hdir := hfits.directory
      refine ⟨assemble _ hfits, ?_, ⟨⟨_, carries_assemble hfits, ?_⟩,
        ⟨not_exists_name_kept hfits, rfl, ?_⟩, hcount, hsize, hlimit⟩⟩
      · rw [assemble_bytes]
        exact (removeZipEntry_eq_ok hA (h.exists_manifest_entry hdm)).2 ⟨by omega, rfl⟩
      · rw [hkept]
        exact List.filter_eq_self.2 fun it hit => decide_eq_true (d.others it hit)
      · show (bodies (kept zipManifestPath items)).length +
          (directory (kept zipManifestPath items)).length ≤ n
        rw [hkept]
        exact hsize

/-- **Filling** replaces a manifest of the same length, and fails otherwise. -/
theorem fillManifest (h : Represents n A d) (f : List UInt8) :
    ∃ B, edited A.bytes (Writer.fillManifest A.bytes f) = (Archive.bytes B, (d.fill f).2) ∧
      Represents n B (d.fill f).1 := by
  have hman := h.manifest
  rw [Document.fill]
  cases hdm : d.manifest with
  | none =>
      rw [hdm] at hman
      refine ⟨A, ?_, h⟩
      rw [Writer.fillManifest, A.fillManifest_bytes, A.room?_eq_none.2 hman.1]
      rfl
  | some m =>
      rw [hdm] at hman
      obtain ⟨p, r, hloc, hbit, hslice⟩ := hman
      have hlen := hloc.length_slice
      rw [hslice] at hlen
      by_cases hf : f.length = m.length
      · obtain ⟨B, hB⟩ := hloc.exists_filled (hf.trans hlen)
        obtain ⟨items, hA, hkept⟩ := h.members
        obtain ⟨items', hB', hkept'⟩ := hB.exists_carries hloc (hf.trans hlen) hbit hA
        simp only [if_pos hf]
        refine ⟨B, ?_, ⟨⟨items', hB', hkept'.trans hkept⟩, ⟨_, r, hB.locates hloc (hf.trans hlen),
          hbit, ?_⟩, h.count, h.size, h.limit⟩⟩
        · rw [Writer.fillManifest, A.fillManifest_eq_ok.2 ⟨p, r, hloc, hf.trans hlen, rfl⟩,
            hB.bytes]
          rfl
        · rw [hB.bytes]
          exact hloc.slice_fillBytes_content (hf.trans hlen)
      · -- The length is the last check.
        simp only [if_neg hf]
        refine ⟨A, ?_, h⟩
        have hstored : ¬ (p.1.method ≠ 0 ∨ p.1.flags &&& 1 ≠ 0) := by
          rw [hloc.stored, hloc.unencrypted]
          simp
        have hne : f.length ≠ r.stop - r.start := by
          rw [← hlen]
          exact hf
        rw [Writer.fillManifest, A.fillManifest_bytes, hloc.room]
        simp only [failIf, if_neg hstored, hloc.content]
        show edited _ (failIf _ _ >>= _) = _
        rw [failIf, if_pos hne]
        rfl

end Represents

/-! ## Sessions -/

/-- **Every call is the call on the document**: an archive that represents a document gives its
reply, and is edited into one that represents the edited document. -/
theorem simulates_document (n : Nat) : Simulates Session.call Document.call
    (fun z d => ∃ A : Archive, A.bytes = z ∧ Represents n A d) (Call.Small n) := by
  have key : ∀ {z : List UInt8} {d : Document} {c : Call},
      (∃ A : Archive, A.bytes = z ∧ Represents n A d) → c.Small n →
      (Session.call z c).2 = (d.call c).2 ∧
        ∃ A : Archive, A.bytes = (Session.call z c).1 ∧ Represents n A (d.call c).1 := by
    rintro _ d c ⟨A, rfl, h⟩ hc
    cases c with
    | embed m =>
        obtain ⟨B, hB, hrep⟩ := h.embedManifest hc
        simp only [Session.call, hB, edited]
        exact ⟨rfl, B, rfl, hrep⟩
    | fill f =>
        obtain ⟨B, hB, hrep⟩ := h.fillManifest f
        simp only [Session.call, hB]
        exact ⟨rfl, B, rfl, hrep⟩
    | remove =>
        obtain ⟨B, hB, hrep⟩ := h.removeManifest
        simp only [Session.call, hB, edited]
        exact ⟨rfl, B, rfl, hrep⟩
    | read =>
        refine ⟨?_, A, rfl, h⟩
        simp only [Session.call, h.readManifest]
        rfl
    | verify =>
        refine ⟨?_, A, rfl, h⟩
        simp only [Session.call, h.verify]
        rfl
    | members =>
        refine ⟨?_, A, rfl, h⟩
        simp only [Session.call, h.memberInputs]
        rfl
    | content name =>
        refine ⟨?_, A, rfl, h⟩
        simp only [Session.call, h.readZipEntryContent name]
        rfl
    | directoryRange => exact ⟨h.centralDirectoryRange, A, rfl, h⟩
    | directoryRanges =>
        refine ⟨?_, A, rfl, h⟩
        obtain ⟨rs, hrs, hlen⟩ := h.centralDirectoryRanges
        simp only [Session.call, hrs, answer, hlen]
        rfl
  exact ⟨fun h hc => (key h hc).1, fun h hc => (key h hc).2⟩

/-- An archive that a session can start from, with the manifest `m`: every entry binds; without a
manifest, the headers end at the EOCD and one more entry can be counted; with one, no descriptor
follows its content. -/
structure Editable (z : List UInt8) (L : ZipLayout) (m : Option (List UInt8)) : Prop where
  binds : ∀ i < L.entries.length, ∃ r, entryBindingRange z L i = .ok r
  read : Reader.readManifest z = .ok m
  tidy : m = none → L.HeadersEndAtEocd ∧ L.entries.length ≤ 65533
  plain : ∀ e, m ≠ none → L.entries.find? (fun e => e.name = zipManifestPath) = some e →
    e.flags &&& 0x0008 = 0

/-- An archive that a session can start from represents a document. -/
theorem exists_represents {A : Archive} {m : Option (List UInt8)}
    (h : Editable A.bytes A.layout m) (hlimit : A.bytes.length + 140 < 2 ^ 32 - 1) :
    ∃ d : Document, d.manifest = m ∧ Represents A.bytes.length A d ∧
      List.Forall₂ (fun i => ItemAt A.bytes (A.layout.entries[i]!, entryBoundary A.layout i))
        (otherEntries A.layout zipManifestPath) d.members := by
  obtain ⟨items, hA⟩ := A.exists_carries_iff.2 h.binds
  obtain ⟨hlen, hbodies, hdir⟩ := hA.kept_le zipManifestPath
  have hbytes := A.length_bytes
  refine ⟨⟨kept zipManifestPath items, m, fun it hit => (mem_kept.1 hit).2⟩, rfl,
    ⟨⟨items, hA, rfl⟩, ?_, ?_, by simp only; omega, hlimit⟩, hA.forall₂_otherEntries _⟩
  · cases hm : m with
    | none =>
        have hread := h.read
        rw [hm] at hread
        refine ⟨A.room?_eq_none.1 (A.readManifestEntry_eq_none.1 hread),
          A.headersEndAtEocd_iff.1 (h.tidy hm).1, by omega⟩
    | some c =>
        have hread := h.read
        rw [hm] at hread
        obtain ⟨p, r, hloc, hslice⟩ := A.readManifestEntry_eq_some.1 hread
        refine ⟨p, r, hloc, h.plain p.1 (by rw [hm]; simp) ?_, hslice⟩
        have hfirst := A.manifest?_eq_map_room?
        rw [hloc.room] at hfirst
        exact hfirst
  · have hheaders := A.headers_length_lt
    show (kept zipManifestPath items).length + 1 < 65535
    cases hm : m with
    | none =>
        have hle := (h.tidy hm).2
        rw [Archive.layout_entries, A.length_entries] at hle
        omega
    | some c =>
        have hread := h.read
        rw [hm] at hread
        obtain ⟨p, r, hloc, -⟩ := A.readManifestEntry_eq_some.1 hread
        have hlt := length_kept_lt hA
          ⟨p.1, A.room_fst_mem (A.room?_mem hloc.room), A.room?_name hloc.room⟩
        omega

/-- **Every history of calls on an archive is a history of calls on a document**: its members are
the entries that are not called like the manifest, and whatever is called, in whatever order, the
replies are those of the document. -/
theorem session_refines {z : List UInt8} {L : ZipLayout} {m : Option (List UInt8)}
    (hL : parseLayout z = .ok L) (h : Editable z L m) (hz : z.length + 140 < 2 ^ 32 - 1) :
    ∃ d : Document, d.manifest = m ∧
      List.Forall₂ (fun i => ItemAt z (L.entries[i]!, entryBoundary L i))
        (otherEntries L zipManifestPath) d.members ∧
      ∀ calls : List Call, (∀ c ∈ calls, c.Small z.length) →
        (runCalls Session.call z calls).2 = (runCalls Document.call d calls).2 := by
  obtain ⟨A, rfl, rfl⟩ := exists_archive_of_parseLayout hL
  obtain ⟨d, hm, hrep, hmembers⟩ := exists_represents h hz
  refine ⟨d, hm, hmembers, fun calls hcalls => ?_⟩
  exact ((simulates_document A.bytes.length).run ⟨A, rfl, hrep⟩ hcalls).1

/-- An unsigned archive of one member is signed in two passes, read, and stripped. -/
theorem session_refines_two_passes :
    (runCalls Session.call (buildZip [("a", [7])])
      [.embed [0], .fill [1, 2], .fill [1], .read, .directoryRange, .remove, .verify]).2 =
    [.done, .failed .truncated, .done, .manifest (some [1]),
      .failed .nonContiguousCentralDirectoryHash, .done,
      .report { hasManifest := false, manifestLen := 0, isValidZip := true }] := by
  obtain ⟨d, hd, -, hrun⟩ := session_refines (z := buildZip [("a", [7])])
    (L := { entries := [⟨"a", 0, 0, crc32 [7], 1, 1, 0, 32, 47⟩], cdStart := 32, eocdOffset := 79 })
    (m := none) (by decide +kernel)
    { binds := by
        intro i hi
        obtain rfl : i = 0 := Nat.lt_one_iff.1 hi
        exact ⟨⟨0, 32⟩, by decide +kernel⟩
      read := by decide +kernel
      tidy := fun _ => ⟨by decide, by decide⟩
      plain := fun _ hm _ => absurd rfl hm }
    (by decide +kernel)
  have hlen : (buildZip [("a", [7])]).length = 101 := by decide +kernel
  rw [hrun _ (by simp [Call.Small, hlen])]
  obtain ⟨members, manifest, others⟩ := d
  obtain rfl : manifest = none := hd
  rfl

end C2paZip
