import C2paZip.Embed
import Mathlib.Algebra.Order.BigOperators.Group.List

/-!
# Built archives

The archive that `build_zip` makes of a list of stored files is the assembled archive of their items
(`buildZip_eq_assembled`). So the parser reads back exactly the files that were written, at the
prefix sums of their lengths (`build_parses`), and the edits of the crate are list operations on the
files (`edit_builds`).
-/

set_option autoImplicit false

namespace C2paZip

open Library

/-! ## Stored files -/

/-- The length of the local records of `files`. -/
def localLength (files : List (String × List UInt8)) : Nat :=
  (files.map fun f => localHeaderFixedLen + (asBytes f.1).length + f.2.length).sum

/-- The length of the directory headers of `files`. -/
def directoryLength (files : List (String × List UInt8)) : Nat :=
  (files.map fun f => cdHeaderFixedLen + (asBytes f.1).length).sum

/-- A file whose name and content fit their length fields. -/
structure StoredFile where
  name : String
  content : List UInt8
  name_lt : (asBytes name).length < 2 ^ 16
  size_lt : content.length < 2 ^ 32 - 1

namespace StoredFile

/-- The file as `build_zip` takes it. -/
def file (f : StoredFile) : String × List UInt8 := (f.name, f.content)

/-- The item that `build_zip` writes for the file. -/
def item (f : StoredFile) : Item := storedItem f.name f.content f.name_lt f.size_lt

@[simp] theorem item_body (f : StoredFile) : f.item.body = storedRecord f.name f.content := rfl

theorem headerAt_bytes (f : StoredFile) (off : Nat) : (f.item.headerAt off).bytes =
    writeCdHeader [] (asBytes f.name) (crc32 f.content) (UInt32.ofNat f.content.length)
      (UInt16.ofNat (asBytes f.name).length) (UInt32.ofNat off) := by
  rw [Item.headerAt, item, storedItem, patchOffset_storedHeader]
  rfl

@[simp] theorem length_item_header (f : StoredFile) :
    f.item.header.bytes.length = 46 + (asBytes f.name).length :=
  length_writeCdHeader _ _ _ _ _

end StoredFile

/-- Files within the limits are stored files. -/
theorem exists_storedFiles {files : List (String × List UInt8)}
    (hnames : ∀ f ∈ files, (asBytes f.1).length ≤ 65535)
    (hsizes : ∀ f ∈ files, f.2.length < 2 ^ 32 - 1) :
    ∃ fs : List StoredFile, fs.map StoredFile.file = files := by
  induction files with
  | nil => exact ⟨[], rfl⟩
  | cons f files ih =>
      obtain ⟨fs, hfs⟩ := ih (fun g hg => hnames g (List.mem_cons_of_mem f hg))
        (fun g hg => hsizes g (List.mem_cons_of_mem f hg))
      have hname := hnames f List.mem_cons_self
      have hsize := hsizes f List.mem_cons_self
      refine ⟨⟨f.1, f.2, by omega, hsize⟩ :: fs, ?_⟩
      rw [List.map_cons, hfs]
      rfl

/-- A file is no longer than the records. -/
theorem length_le_localLength {files : List (String × List UInt8)} {f : String × List UInt8}
    (hf : f ∈ files) : f.2.length ≤ localLength files := by
  have hle : localHeaderFixedLen + (asBytes f.1).length + f.2.length ≤ localLength files :=
    List.le_sum_of_mem (List.mem_map_of_mem hf)
  omega

section Lengths

variable (fs : List StoredFile)

theorem length_bodies_item :
    (bodies (fs.map StoredFile.item)).length = localLength (fs.map StoredFile.file) := by
  induction fs with
  | nil => rfl
  | cons f fs ih =>
      rw [List.map_cons, bodies_cons, List.length_append, ih, StoredFile.item_body,
        length_storedRecord, List.map_cons, localLength, localLength, List.map_cons, List.sum_cons]
      rfl

theorem length_directory_item :
    (directory (fs.map StoredFile.item)).length = directoryLength (fs.map StoredFile.file) := by
  rw [length_directory, directoryLength, List.map_map, List.map_map]
  congr 1
  apply List.map_congr_left
  intro f _
  exact f.length_item_header

end Lengths

/-! ## Building is assembling -/

/-- One round of the first loop appends a record. -/
theorem writeRecord_eq (out : List UInt8) (name : String) (content : List UInt8) :
    writeLocalHeader out (asBytes name) (crc32 content) (UInt32.ofNat content.length)
      (UInt16.ofNat (asBytes name).length) ++ content = out ++ storedRecord name content := by
  rw [writeLocalHeader_eq, List.append_assoc, storedRecord]

/-- The first loop appends the records of the files. -/
theorem buildLocals_fst (out : List UInt8) (fs : List StoredFile) :
    (buildLocals out (fs.map StoredFile.file)).1 = out ++ bodies (fs.map StoredFile.item) := by
  induction fs generalizing out with
  | nil => exact (List.append_nil out).symm
  | cons f fs ih =>
      show (buildLocals (writeLocalHeader out (asBytes f.name) (crc32 f.content)
        (UInt32.ofNat f.content.length) (UInt16.ofNat (asBytes f.name).length) ++ f.content)
        (fs.map StoredFile.file)).1 = _
      rw [writeRecord_eq, ih, List.map_cons, bodies_cons, List.append_assoc, StoredFile.item_body]

/-- The second loop appends the headers of the files, at the offsets that the first one noted. -/
theorem buildDirectory_zip (out cd : List UInt8) (fs : List StoredFile) :
    buildDirectory cd ((fs.map StoredFile.file).zip (buildLocals out (fs.map StoredFile.file)).2) =
      cd ++ dirBytes (placeHeaders out.length (fs.map StoredFile.item)) := by
  induction fs generalizing out cd with
  | nil => exact (List.append_nil cd).symm
  | cons f fs ih =>
      show buildDirectory (writeCdHeader cd (asBytes f.name) (crc32 f.content)
        (UInt32.ofNat f.content.length) (UInt16.ofNat (asBytes f.name).length)
        (UInt32.ofNat out.length)) ((fs.map StoredFile.file).zip (buildLocals
          (writeLocalHeader out (asBytes f.name) (crc32 f.content) (UInt32.ofNat f.content.length)
            (UInt16.ofNat (asBytes f.name).length) ++ f.content) (fs.map StoredFile.file)).2) = _
      rw [writeRecord_eq, ih, List.map_cons, placeHeaders, dirBytes_cons, f.headerAt_bytes,
        writeCdHeader_eq, List.append_assoc, List.length_append, StoredFile.item_body]

/-- **A built archive is the assembled archive of its files.** -/
theorem buildZip_eq_assembled (fs : List StoredFile) :
    buildZip (fs.map StoredFile.file) = assembled (fs.map StoredFile.item) := by
  have hlocals := buildLocals_fst [] fs
  have hdirectory := buildDirectory_zip [] [] fs
  rw [List.nil_append] at hlocals hdirectory
  simp only [buildZip, hlocals, hdirectory, assembled, directory, List.length_map,
    List.length_nil]

/-! ## Reading a built archive -/

/-- Entry `i` of `files` where the records start at `off` and the headers at `pos`: its offsets are
the lengths of what is written for the files in front. -/
def builtEntry (files : List (String × List UInt8)) (pos off i : Nat) : CdEntry where
  name := files[i]!.1
  flags := 0
  method := 0
  crc32 := crc32 files[i]!.2
  compressedSize := files[i]!.2.length
  uncompressedSize := files[i]!.2.length
  localHeaderOffset := off + localLength (files.take i)
  cdHeaderOffset := pos + directoryLength (files.take i)
  cdHeaderLen := cdHeaderFixedLen + (asBytes files[i]!.1).length

/-- The entries behind the first file. -/
theorem builtEntry_succ (f : String × List UInt8) (files : List (String × List UInt8))
    (pos off i : Nat) : builtEntry (f :: files) pos off (i + 1) =
      builtEntry files (pos + (cdHeaderFixedLen + (asBytes f.1).length))
        (off + (localHeaderFixedLen + (asBytes f.1).length + f.2.length)) i := by
  simp only [builtEntry, localLength, directoryLength, List.take_succ_cons, List.map_cons,
    List.sum_cons, List.getElem!_cons_succ, Nat.add_assoc]

/-- The placed headers of the files are read as their entries. -/
theorem placeEntries_item (pos off : Nat) (fs : List StoredFile)
    (hoff : off + localLength (fs.map StoredFile.file) < 2 ^ 32) :
    placeEntries pos (placeHeaders off (fs.map StoredFile.item)) =
      (List.range fs.length).map (builtEntry (fs.map StoredFile.file) pos off) := by
  induction fs generalizing pos off with
  | nil => rfl
  | cons f fs ih =>
      have hlen : localLength ((f :: fs).map StoredFile.file) =
          localHeaderFixedLen + (asBytes f.name).length + f.content.length +
            localLength (fs.map StoredFile.file) := by
        rw [localLength, List.map_cons, List.map_cons, List.sum_cons]
        rfl
      have hbody : f.item.body.length =
          localHeaderFixedLen + (asBytes f.name).length + f.content.length := by
        rw [StoredFile.item_body, length_storedRecord]
        rfl
      rw [hlen] at hoff
      rw [List.map_cons, placeHeaders, placeEntries, Item.length_headerAt, ih _ _ (by omega),
        List.length_cons, List.range_succ_eq_map, List.map_cons, List.map_map]
      congr 1
      · rw [Item.headerAt, StoredFile.item, storedItem, patchOffset_storedHeader,
          storedHeader_entry, u32_toNat_ofNat (by omega)]
        rfl
      · apply List.map_congr_left
        intro i _
        rw [Function.comp_apply, List.map_cons, builtEntry_succ, StoredFile.length_item_header,
          hbody]
        rfl

/-- **A built archive decodes to the files it was built from**: the parser finds exactly these files
in this order at the offsets where they were written, every content range is the content, and the
binding ranges tile the file data. -/
theorem build_parses {files : List (String × List UInt8)} (hcount : files.length < 65535)
    (hnames : ∀ f ∈ files, (asBytes f.1).length ≤ 65535)
    (hlocal : localLength files < 2 ^ 32 - 1) (hdirectory : directoryLength files < 2 ^ 32 - 1) :
    ∃ L, parseLayout (buildZip files) = .ok L ∧ L.cdStart = localLength files ∧
      L.eocdOffset = localLength files + directoryLength files ∧
      L.entries = (List.range files.length).map (builtEntry files (localLength files) 0) ∧
      (∀ i < files.length, ∃ r, entryContentRange (buildZip files) L i = .ok r ∧
        slice (buildZip files) r.start (r.stop - r.start) = files[i]!.2) ∧
      ∃ rs, List.Forall₂ (fun i r => entryBindingRange (buildZip files) L i = .ok r)
        (List.range files.length) rs ∧ Tiles Range.start Range.stop 0 rs L.cdStart := by
  have hsizes : ∀ f ∈ files, f.2.length < 2 ^ 32 - 1 := by
    intro f hf
    have hle := length_le_localLength hf
    omega
  obtain ⟨fs, rfl⟩ := exists_storedFiles hnames hsizes
  rw [List.length_map] at hcount ⊢
  have hbodies := length_bodies_item fs
  have hheaders := length_directory_item fs
  have hfits : Fits (fs.map StoredFile.item) :=
    ⟨by rw [List.length_map]; exact hcount, by rw [hbodies]; exact hlocal,
      by rw [hheaders]; exact hdirectory⟩
  have hentries : (assemble _ hfits).layout.entries = (List.range fs.length).map
      (builtEntry (fs.map StoredFile.file) (localLength (fs.map StoredFile.file)) 0) := by
    rw [Archive.layout_entries, entries_assemble, hbodies, placeEntries_item _ _ _ (by omega)]
  have hlen : (assemble _ hfits).layout.entries.length = fs.length := by
    rw [hentries, List.length_map, List.length_range]
  have htiles := tiles_assemble hfits
  rw [hlen] at htiles
  rw [buildZip_eq_assembled, ← assemble_bytes hfits]
  refine ⟨_, Archive.parseLayout_bytes _, ?_, ?_, hentries, ?_, htiles⟩
  · rw [Archive.layout_cdStart, assemble_data, hbodies]
  · rw [Archive.layout_eocdOffset, Archive.eocdOffset, assemble_data, hbodies, assemble_gap,
      assemble_headers, List.length_nil, Nat.add_zero]
    exact congrArg _ hheaders
  · intro i hi
    -- The room of entry `i` holds the item of file `i`.
    have hroom := (assemble _ hfits).getElem?_room (i := i) (by omega)
    have hb := (assemble _ hfits).room_le_bytes (List.mem_of_getElem? hroom)
    have hitem : ItemAt (assemble _ hfits).bytes ((assemble _ hfits).layout.entries[i]!,
        entryBoundary (assemble _ hfits).layout i) fs[i].item := by
      have hcarries := (carries_assemble hfits).forall₂_range
      rw [hlen] at hcarries
      have hget := List.forall₂_iff_get.1 hcarries
      simpa using hget.2 i (by simpa using hi) (by simpa using hi)
    obtain ⟨hcontent, hslice⟩ := ItemAt.content_stored hb hitem
    refine ⟨_, ((assemble _ hfits).entryContentRange_of_room hroom).trans hcontent, ?_⟩
    simp only
    rw [Nat.add_sub_cancel_left, hslice]
    simp [hi, StoredFile.file]

/-- Two files of the same name, one of them empty. -/
theorem build_parses_same_name :
    ∃ L, parseLayout (buildZip [("a", [7]), ("a", [])]) = .ok L ∧ L.cdStart = 63 ∧
      L.entries = [⟨"a", 0, 0, crc32 [7], 1, 1, 0, 63, 47⟩, ⟨"a", 0, 0, 0, 0, 0, 32, 110, 47⟩] := by
  obtain ⟨L, hL, hstart, -, hentries, -, -⟩ :=
    @build_parses [("a", [7]), ("a", [])] (by decide) (by decide +kernel) (by decide +kernel)
      (by decide +kernel)
  refine ⟨L, hL, hstart, ?_⟩
  rw [hentries]
  decide +kernel

/-! ## Editing a built archive -/

/-- The files that are not called like the manifest. -/
def withoutManifest (files : List (String × List UInt8)) : List (String × List UInt8) :=
  files.filter fun f => f.1 ≠ zipManifestPath

/-- Removing the manifest items keeps the items of the other files. -/
theorem kept_item (fs : List StoredFile) : kept zipManifestPath (fs.map StoredFile.item) =
    (fs.filter fun f => f.name ≠ zipManifestPath).map StoredFile.item := by
  rw [kept, List.filter_map]
  rfl

theorem withoutManifest_file (fs : List StoredFile) :
    withoutManifest (fs.map StoredFile.file) =
      (fs.filter fun f => f.name ≠ zipManifestPath).map StoredFile.file := by
  rw [withoutManifest, List.filter_map]
  rfl

/-- **Removing the manifest of a built archive builds the other files.** -/
theorem removeManifest_build {fs : List StoredFile} (h : Fits (fs.map StoredFile.item)) :
    Writer.removeManifest (buildZip (fs.map StoredFile.file)) =
      .ok (buildZip (withoutManifest (fs.map StoredFile.file))) := by
  rw [withoutManifest_file, buildZip_eq_assembled, buildZip_eq_assembled, ← kept_item]
  exact removeZipEntry_assembled h zipManifestPath

/-- **Embedding into a built archive builds the other files and the manifest.** -/
theorem embedManifest_build {fs : List StoredFile} {m : StoredFile}
    (hm : m.name = zipManifestPath) (h : Fits (fs.map StoredFile.item))
    (h' : Fits (((fs.filter fun f => f.name ≠ zipManifestPath) ++ [m]).map StoredFile.item)) :
    Writer.embedManifest (buildZip (fs.map StoredFile.file)) m.content =
      .ok (buildZip (withoutManifest (fs.map StoredFile.file) ++ [m.file])) := by
  set rest := fs.filter fun f => f.name ≠ zipManifestPath with hrest
  have hremove := removeManifest_build h
  rw [withoutManifest_file, ← hrest, buildZip_eq_assembled rest, Writer.removeManifest] at hremove
  have hmanifest : (rest ++ [m]).map StoredFile.item =
      rest.map StoredFile.item ++ [manifestItem m.content m.size_lt] := by
    obtain ⟨name, content, hname, hsize⟩ := m
    obtain rfl : name = zipManifestPath := hm
    rw [List.map_append]
    rfl
  have hfiles : rest.map StoredFile.file ++ [m.file] = (rest ++ [m]).map StoredFile.file := by
    rw [List.map_append]
    rfl
  -- The other files fit, and the manifest is inserted behind them.
  have hcount := h'.count
  have hdata := h'.data
  have hdir := h'.directory
  rw [hmanifest] at hcount hdata hdir
  rw [List.length_append, List.length_singleton] at hcount
  rw [length_bodies_manifest] at hdata
  rw [length_directory_manifest] at hdir
  have hfits : Fits (rest.map StoredFile.item) := ⟨by omega, by omega, by omega⟩
  rw [withoutManifest_file, ← hrest, hfiles, buildZip_eq_assembled (rest ++ [m]), hmanifest,
    Writer.embedManifest, hremove]
  exact (insertZipEntry_assembled hfits m.size_lt).2 ⟨by omega, by omega, rfl⟩

/-! ## The length of a built archive -/

theorem length_buildLocals (out : List UInt8) (files : List (String × List UInt8)) :
    (buildLocals out files).1.length = out.length + localLength files ∧
      (buildLocals out files).2.length = files.length := by
  induction files generalizing out with
  | nil => exact ⟨rfl, rfl⟩
  | cons f files ih =>
      obtain ⟨name, data⟩ := f
      obtain ⟨h1, h2⟩ := ih (writeLocalHeader out (asBytes name) (crc32 data)
        (UInt32.ofNat data.length) (UInt16.ofNat (asBytes name).length) ++ data)
      have hlen : (writeLocalHeader out (asBytes name) (crc32 data) (UInt32.ofNat data.length)
          (UInt16.ofNat (asBytes name).length) ++ data).length =
          out.length + (localHeaderFixedLen + (asBytes name).length + data.length) := by
        rw [List.length_append, length_append_writeLocalHeader, localHeaderFixedLen, Nat.add_assoc]
      have hcons : localLength ((name, data) :: files) =
          localHeaderFixedLen + (asBytes name).length + data.length + localLength files := by
        rw [localLength, List.map_cons, List.sum_cons]
        rfl
      rw [hlen] at h1
      refine ⟨?_, congrArg (· + 1) h2⟩
      rw [hcons, ← Nat.add_assoc, ← h1]
      rfl

theorem length_buildDirectory (cd : List UInt8)
    (entries : List ((String × List UInt8) × UInt32)) :
    (buildDirectory cd entries).length = cd.length + directoryLength (entries.map Prod.fst) := by
  induction entries generalizing cd with
  | nil => rfl
  | cons e entries ih =>
      obtain ⟨⟨name, data⟩, off⟩ := e
      rw [buildDirectory, ih, length_append_writeCdHeader, directoryLength, directoryLength,
        List.map_cons, List.map_cons, List.sum_cons, cdHeaderFixedLen, Nat.add_assoc]

theorem length_buildZip (files : List (String × List UInt8)) :
    (buildZip files).length = localLength files + directoryLength files + 22 := by
  obtain ⟨h1, h2⟩ := length_buildLocals [] files
  rw [List.length_nil, Nat.zero_add] at h1
  have hzip : (files.zip (buildLocals [] files).2).map Prod.fst = files :=
    List.map_fst_zip (Nat.le_of_eq h2.symm)
  simp only [buildZip]
  rw [length_writeEocd, List.length_append, h1, length_buildDirectory, hzip, List.length_nil,
    Nat.zero_add]

/-- Files whose archive is short fit. -/
theorem fits_of_length_buildZip {fs : List StoredFile} (hcount : fs.length < 65535)
    (hz : (buildZip (fs.map StoredFile.file)).length < 2 ^ 32 - 1) :
    Fits (fs.map StoredFile.item) := by
  rw [length_buildZip] at hz
  have h1 := length_bodies_item fs
  have h2 := length_directory_item fs
  exact ⟨by rw [List.length_map]; exact hcount, by omega, by omega⟩

/-- **Editing commutes with building.** On the archive built from a list of files, stripping the
manifest builds the other files, embedding a manifest builds the other files and the manifest behind
them, and stripping what was embedded gives the archive of the other files back. -/
theorem edit_builds {files : List (String × List UInt8)} {m : List UInt8}
    (hnames : ∀ f ∈ files, (asBytes f.1).length ≤ 65535) (hcount : files.length ≤ 65533)
    (hz : (buildZip files).length < 2 ^ 32 - 1)
    (hrest : (buildZip (withoutManifest files)).length < 2 ^ 32 - 1)
    (hout : (buildZip (withoutManifest files ++ [(zipManifestPath, m)])).length < 2 ^ 32 - 1) :
    Writer.removeManifest (buildZip files) = .ok (buildZip (withoutManifest files)) ∧
      Writer.embedManifest (buildZip files) m =
        .ok (buildZip (withoutManifest files ++ [(zipManifestPath, m)])) ∧
      (Writer.embedManifest (buildZip (withoutManifest files)) m >>= Writer.removeManifest) =
        .ok (buildZip (withoutManifest files)) := by
  have hsizes : ∀ f ∈ files, f.2.length < 2 ^ 32 - 1 := by
    intro f hf
    have hle := length_le_localLength hf
    rw [length_buildZip] at hz
    omega
  have hsize : m.length < 2 ^ 32 - 1 := by
    have hle := @length_le_localLength (withoutManifest files ++ [(zipManifestPath, m)])
      (zipManifestPath, m) (by simp)
    rw [length_buildZip] at hout
    simp only at hle
    omega
  obtain ⟨fs, rfl⟩ := exists_storedFiles hnames hsizes
  rw [List.length_map] at hcount
  set rest := fs.filter fun f => f.name ≠ zipManifestPath with hdef
  have hle : rest.length ≤ fs.length := List.length_filter_le _ _
  set manifest : StoredFile := ⟨zipManifestPath, m, manifestPath_lt, hsize⟩
  have hfiles : withoutManifest (fs.map StoredFile.file) = rest.map StoredFile.file :=
    withoutManifest_file fs
  have hnew : rest.map StoredFile.file ++ [(zipManifestPath, m)] =
      (rest ++ [manifest]).map StoredFile.file := by
    rw [List.map_append]
    rfl
  rw [hfiles] at hrest hout ⊢
  rw [hnew] at hout
  -- Filtering again changes nothing.
  have hself : (rest.filter fun f => f.name ≠ zipManifestPath) = rest := by
    rw [hdef, List.filter_filter]
    simp
  have hfits := fits_of_length_buildZip (by omega) hz
  have hfitsRest := fits_of_length_buildZip (by omega) hrest
  have hfitsNew := fits_of_length_buildZip (by simp; omega) hout
  have hremove := removeManifest_build hfits
  have hembed := embedManifest_build (m := manifest) rfl hfits hfitsNew
  have hembedRest := embedManifest_build (m := manifest) rfl hfitsRest
    (by rw [hself]; exact hfitsNew)
  have hstrip := removeManifest_build hfitsNew
  rw [hfiles] at hremove hembed
  rw [withoutManifest_file, hself] at hembedRest
  rw [withoutManifest_file, List.filter_append, hself] at hstrip
  refine ⟨hremove, hembed, ?_⟩
  rw [hembedRest]
  show Writer.removeManifest (buildZip (rest.map StoredFile.file ++ [manifest.file])) = _
  have hfile : rest.map StoredFile.file ++ [manifest.file] =
      (rest ++ [manifest]).map StoredFile.file := hnew
  rw [hfile, hstrip]
  simp [manifest]

/-- Two manifests around a member. -/
theorem edit_builds_two_manifests :
    Writer.embedManifest
        (buildZip [(zipManifestPath, [0]), ("a", [7]), (zipManifestPath, [])]) [1] =
        .ok (buildZip [("a", [7]), (zipManifestPath, [1])]) ∧
      Writer.removeManifest (buildZip [("a", [7]), (zipManifestPath, [1])]) =
        .ok (buildZip [("a", [7])]) := by
  obtain ⟨-, hembed, hstrip⟩ :=
    @edit_builds [(zipManifestPath, [0]), ("a", [7]), (zipManifestPath, [])] [1] (by decide +kernel)
      (by decide) (by decide +kernel) (by decide +kernel) (by decide +kernel)
  refine ⟨hembed, ?_⟩
  have hbase : Writer.embedManifest (buildZip [("a", [7])]) [1] =
      .ok (buildZip [("a", [7]), (zipManifestPath, [1])]) := by
    decide +kernel
  have hrest : withoutManifest [(zipManifestPath, [0]), ("a", [7]), (zipManifestPath, [])] =
      [("a", [7])] := by
    decide +kernel
  rw [hrest, hbase] at hstrip
  obtain ⟨_, heq, hremove⟩ := bind_eq_ok.1 hstrip
  rw [Except.ok.inj heq]
  exact hremove

end C2paZip
