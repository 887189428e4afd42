import C2paZip.Archive.Carried
import C2paZip.Library.Failures
import C2paZip.Zip.Build

/-!
# Which errors a caller meets

Every operation parses its input first, so it fails on what is no archive as the parser does
(`unreadable_iff`); beyond that each has errors of its own. `failures_exact` gives, for every public
function, the errors it has on some input and no others.
-/

set_option autoImplicit false

namespace C2paZip

open Library

/-! ## Inputs that are not parsed -/

/-- Every operation fails on `z` with the error `e`, and the report says so. -/
structure Unreadable (z : List UInt8) (e : Error) : Prop where
  insert : ∀ name content, Zip.insertZipEntry z name content = .error e
  delete : ∀ name, Zip.removeZipEntry z name = .error e
  overwrite : ∀ name content, Zip.fillManifest z name content = .error e
  entry : ∀ name, Zip.readManifestEntry z name = .error e
  content : ∀ name, Zip.readZipEntryContent z name = .error e
  embed : ∀ manifest, Writer.embedManifest z manifest = .error e
  fill : ∀ manifest, Writer.fillManifest z manifest = .error e
  remove : Writer.removeManifest z = .error e
  read : Reader.readManifest z = .error e
  members : Binding.collectionMembers z = .error e
  range : Binding.centralDirectoryRange z = .error e
  ranges : Binding.centralDirectoryRanges z = .error e
  report : Verify.verify z = .ok { hasManifest := false, manifestLen := 0, isValidZip := false }

/-- The directory ranges of what the parser accepts are found. -/
theorem exists_centralDirectoryRanges {z : List UInt8} {L : ZipLayout}
    (hL : parseLayout z = .ok L) : ∃ rs, Binding.centralDirectoryRanges z = .ok rs := by
  obtain ⟨A, rfl, -⟩ := exists_archive_of_parseLayout hL
  exact ⟨_, A.centralDirectoryRanges_eq_ok.2 rfl⟩

/-- **Every operation fails with `e`** exactly where the parser does. -/
theorem unreadable_iff {z : List UInt8} {e : Error} :
    Unreadable z e ↔ parseLayout z = .error e := by
  constructor
  · intro h
    have hranges := h.ranges
    cases hparse : parseLayout z with
    | error e' =>
        rw [Binding.centralDirectoryRanges, Zip.centralDirectoryRanges, hparse] at hranges
        exact congrArg Except.error (Except.error.inj hranges)
    | ok L =>
        obtain ⟨rs, hrs⟩ := exists_centralDirectoryRanges hparse
        rw [hrs] at hranges
        cases hranges
  · intro h
    have hbind : ∀ {α : Type} (k : ZipLayout → Except Error α), (parseLayout z >>= k) = .error e :=
      fun k => by rw [h]; rfl
    have hdelete : ∀ name, Zip.removeZipEntry z name = .error e := fun name => hbind _
    have hranges : Zip.centralDirectoryRanges z = .error e := hbind _
    have hmembers : Zip.memberRanges z = .error e := hbind _
    have hread : Reader.readManifest z = .error e := hbind _
    refine ⟨fun name content => hbind _, hdelete, fun name content => hbind _, fun name => hbind _,
      fun name => hbind _, fun manifest => ?_, fun manifest => hbind _, hdelete _, hread, ?_, ?_,
      hranges, ?_⟩
    · rw [Writer.embedManifest, hdelete]
      rfl
    · rw [Binding.collectionMembers, hmembers]
      rfl
    · rw [Binding.centralDirectoryRange, Zip.centralDirectoryRange, hranges]
      rfl
    · rw [Verify.verify, hread]

/-! ## The parser -/

/-- What the parser fails with behind the end-of-central-directory record. -/
def recordErrors : Set Error := {.truncated, .zip64Unsupported, .badOffset, .nonUtf8Name}

/-- What the parser fails with. -/
def parseErrors : Set Error := insert .noEocd recordErrors

section Checks

variable {S : Set Error} {e : Error} (he : e ∈ S)

include he

theorem failsIn_failIf (c : Prop) [Decidable c] : FailsIn S (failIf c e) :=
  .ite (fun _ => .error he) fun _ => .ok ()

theorem failsIn_okOr {α : Type} (o : Option α) : FailsIn S (okOr o e) := by
  cases o with
  | none => exact .error he
  | some a => exact .ok a

theorem failsIn_u16TryFrom (n : Nat) : FailsIn S (u16TryFrom n e) :=
  .ite (fun _ => .ok _) fun _ => .error he

theorem failsIn_u32TryFrom (n : Nat) : FailsIn S (u32TryFrom n e) :=
  .ite (fun _ => .ok _) fun _ => .error he

end Checks

section Parser

variable {S : Set Error} (hS : recordErrors ⊆ S) (z : List UInt8)

include hS

theorem truncated_mem : .truncated ∈ S := hS (by simp [recordErrors])

theorem zip64Unsupported_mem : .zip64Unsupported ∈ S := hS (by simp [recordErrors])

theorem badOffset_mem : .badOffset ∈ S := hS (by simp [recordErrors])

theorem nonUtf8Name_mem : .nonUtf8Name ∈ S := hS (by simp [recordErrors])

/-- Field reads fail in one way. -/
theorem failsIn_readU16 (pos : Nat) : FailsIn S (readU16 z pos) := failsIn_okOr (truncated_mem hS) _

theorem failsIn_readU32 (pos : Nat) : FailsIn S (readU32 z pos) := failsIn_okOr (truncated_mem hS) _

theorem failsIn_readCdHeader (eocd cdStart cursor : Nat) :
    FailsIn S (readCdHeader z eocd cdStart cursor) := by
  have h16 := failsIn_readU16 hS z
  have h32 := failsIn_readU32 hS z
  have htruncated := failsIn_failIf (truncated_mem hS)
  have hzip64 := failsIn_failIf (zip64Unsupported_mem hS)
  rw [readCdHeader]
  refine .bind (h32 _) fun _ _ => .bind (htruncated _) fun _ _ => ?_
  refine .bind (h16 _) fun _ _ => .bind (h16 _) fun _ _ => .bind (h16 _) fun _ _ => ?_
  refine .bind (h32 _) fun _ _ => .bind (h16 _) fun _ _ => .bind (h16 _) fun _ _ => ?_
  refine .bind (h32 _) fun _ _ => .bind (h32 _) fun _ _ => .bind (h32 _) fun _ _ => ?_
  refine .bind (hzip64 _) fun _ _ => .bind (hzip64 _) fun _ _ => ?_
  refine .bind (failsIn_okOr (truncated_mem hS) _) fun _ _ => ?_
  refine .bind (failsIn_okOr (nonUtf8Name_mem hS) _) fun _ _ => ?_
  refine .bind (failsIn_failIf (badOffset_mem hS) _) fun _ _ => ?_
  exact .bind (htruncated _) fun _ _ => .pure _

theorem failsIn_walkHeaders (eocd cdStart n cursor : Nat) :
    FailsIn S (walkHeaders z eocd cdStart n cursor) := by
  induction n generalizing cursor with
  | zero => exact .ok []
  | succ n ih =>
      rw [walkHeaders]
      refine .bind (failsIn_readCdHeader hS z eocd cdStart cursor) ?_
      rintro ⟨entry, next⟩ -
      exact .bind (ih next) fun _ _ => .pure _

/-- Behind the scan, the parser has the errors of a record. -/
theorem failsIn_parseLayout_of_findEocd (hfind : FailsIn S (findEocd z)) :
    FailsIn S (parseLayout z) := by
  have h16 := failsIn_readU16 hS z
  have h32 := failsIn_readU32 hS z
  rw [parseLayout]
  refine .bind hfind fun _ _ => .bind (h16 _) fun _ _ => .bind (h32 _) fun _ _ => ?_
  refine .bind (h32 _) fun _ _ => .bind (h16 _) fun _ _ => ?_
  refine .bind (failsIn_failIf (zip64Unsupported_mem hS) _) fun _ _ => ?_
  refine .bind (failsIn_failIf (badOffset_mem hS) _) fun _ _ => ?_
  exact .bind (failsIn_walkHeaders hS z _ _ _ _) fun _ _ => .pure _

end Parser

theorem failsIn_parseLayout (z : List UInt8) : FailsIn parseErrors (parseLayout z) := by
  refine failsIn_parseLayout_of_findEocd (Set.subset_insert _ _) z fun e he => ?_
  rw [(findEocd_eq_error.1 he).1]
  exact Set.mem_insert _ _

/-- **The scan alone says that there is no record.** -/
theorem parseLayout_eq_noEocd {z : List UInt8} :
    parseLayout z = .error .noEocd ↔ ∀ p, ¬ IsEocdAt z p := by
  constructor
  · intro h
    cases hfind : findEocd z with
    | error e => exact (findEocd_eq_error.1 hfind).2
    | ok p =>
        have hok : FailsIn recordErrors (findEocd z) := by
          rw [hfind]
          exact .ok p
        have hmem := failsIn_parseLayout_of_findEocd subset_rfl z hok _ h
        simp [recordErrors] at hmem
  · intro h
    rw [parseLayout, findEocd_eq_error.2 ⟨rfl, h⟩]
    rfl

/-! ## Operations -/

section Entries

variable {S : Set Error} (hS : recordErrors ⊆ S) (z : List UInt8) (e : CdEntry) (b : Nat)

include hS

theorem failsIn_contentRange : FailsIn S (contentRange z e b) := by
  have h16 := failsIn_readU16 hS z
  have htruncated := failsIn_failIf (truncated_mem hS)
  have hoffset := failsIn_failIf (badOffset_mem hS)
  rw [contentRange]
  refine .bind (failsIn_readU32 hS z _) fun _ _ => .bind (htruncated _) fun _ _ => ?_
  refine .bind (h16 _) fun _ _ => .bind (hoffset _) fun _ _ => ?_
  refine .bind (h16 _) fun _ _ => .bind (h16 _) fun _ _ => ?_
  exact .bind (hoffset _) fun _ _ => .bind (htruncated _) fun _ _ => .pure _

/-- A record adds the errors of a data descriptor. -/
theorem failsIn_bindingRange (hdescriptor : .malformedDataDescriptor ∈ S) :
    FailsIn S (bindingRange z e b) := by
  have h32 := failsIn_readU32 hS z
  have hoffset := failsIn_failIf (badOffset_mem hS)
  have hmalformed := failsIn_failIf hdescriptor
  refine .bind (failsIn_contentRange hS z e b) fun _ _ => .bind ?_ fun _ _ => .pure _
  refine .ite (fun _ => ?_) fun _ => ?_
  · refine .bind (hmalformed _) fun _ _ => ?_
    refine .bind (h32 _) fun _ _ => .bind (hmalformed _) fun _ _ => ?_
    refine .bind (h32 _) fun _ _ => .bind (hmalformed _) fun _ _ => ?_
    exact .bind (h32 _) fun _ _ => .bind (hmalformed _) fun _ _ => .pure _
  · refine .bind (h32 _) fun _ _ => .bind (hoffset _) fun _ _ => ?_
    refine .bind (h32 _) fun _ _ => .bind (hoffset _) fun _ _ => ?_
    exact .bind (h32 _) fun _ _ => .bind (hoffset _) fun _ _ => .pure _

end Entries

section Edits

variable {S : Set Error} (hS : parseErrors ⊆ S) (z : List UInt8) (name : String)

include hS

theorem failsIn_insertZipEntry (content : List UInt8) :
    FailsIn S (Zip.insertZipEntry z name content) := by
  have hR : recordErrors ⊆ S := (Set.subset_insert _ _).trans hS
  have hzip64 := failsIn_u32TryFrom (zip64Unsupported_mem hR)
  have htruncated := failsIn_u32TryFrom (truncated_mem hR)
  refine .bind ((failsIn_parseLayout z).mono hS) fun _ _ => ?_
  refine .bind (failsIn_u16TryFrom (truncated_mem hR) _) fun _ _ => ?_
  refine .bind (htruncated _) fun _ _ => .bind (hzip64 _) fun _ _ => ?_
  refine .bind (hzip64 _) fun _ _ => .bind (htruncated _) fun _ _ => ?_
  exact .bind (failsIn_u16TryFrom (zip64Unsupported_mem hR) _) fun _ _ => .pure _

theorem failsIn_removeZipEntry (hdescriptor : .malformedDataDescriptor ∈ S) :
    FailsIn S (Zip.removeZipEntry z name) := by
  have hR : recordErrors ⊆ S := (Set.subset_insert _ _).trans hS
  have hrange := failsIn_okOr (truncated_mem hR) (α := List UInt8)
  have hzip64 := failsIn_u32TryFrom (zip64Unsupported_mem hR)
  refine .bind ((failsIn_parseLayout z).mono hS) fun L _ => .ite (fun _ => .pure _) fun _ => ?_
  have hretain : ∀ st x, FailsIn S (Zip.retainEntry z L name st x) := fun st x =>
    .bind (failsIn_bindingRange hR z _ _ hdescriptor) fun _ _ => .ite (fun _ => .pure _) fun _ =>
      .bind (hrange _) fun _ _ => .bind (hzip64 _) fun _ _ => .pure _
  have hcopy : ∀ out x, FailsIn S (Zip.copyCdHeader z out x) := fun out x =>
    .bind (hrange _) fun _ _ => .pure _
  refine .bind (.foldlM hretain) fun _ _ => .bind (hzip64 _) fun _ _ => ?_
  refine .bind (.foldlM hcopy) fun _ _ => ?_
  refine .bind (failsIn_u32TryFrom (truncated_mem hR) _) fun _ _ => ?_
  exact .bind (failsIn_u16TryFrom (zip64Unsupported_mem hR) _) fun _ _ => .pure _

variable (hplain : .manifestEntryNotStoredOrEncrypted ∈ S)

include hplain

theorem failsIn_fillManifest (content : List UInt8) :
    FailsIn S (Zip.fillManifest z name content) := by
  have hR : recordErrors ⊆ S := (Set.subset_insert _ _).trans hS
  refine .bind ((failsIn_parseLayout z).mono hS) fun L _ => ?_
  refine .bind (failsIn_okOr (truncated_mem hR) _) fun i _ => ?_
  refine .bind (failsIn_failIf hplain _) fun _ _ => ?_
  refine .bind (failsIn_contentRange hR z _ _) fun _ _ => ?_
  exact .bind (failsIn_failIf (truncated_mem hR) _) fun _ _ => .pure _

theorem failsIn_readManifestEntry : FailsIn S (Zip.readManifestEntry z name) := by
  have hR : recordErrors ⊆ S := (Set.subset_insert _ _).trans hS
  refine .bind ((failsIn_parseLayout z).mono hS) fun L _ => ?_
  cases Zip.entryIndex L name with
  | none => exact .pure none
  | some i =>
      refine .bind (failsIn_failIf hplain _) fun _ _ => ?_
      refine .bind (failsIn_contentRange hR z _ _) fun _ _ => ?_
      exact .bind (failsIn_okOr (truncated_mem hR) _) fun _ _ => .pure _

end Edits

/-! ## Member names -/

/-- A path segment is `.` or `..`. -/
def HasDotSegment (name : String) : Prop :=
  ['.'] ∈ name.toList.splitOn '/' ∨ ['.', '.'] ∈ name.toList.splitOn '/'

instance (name : String) : Decidable (HasDotSegment name) := by
  unfold HasDotSegment
  infer_instance

theorem validateMemberUri_eq_error {name : String} {e : Error} :
    Zip.validateMemberUri name = .error e ↔ HasDotSegment name ∧ e = .invalidMemberPath name := by
  have hany : ((name.toList.splitOn '/').any fun s => s = ['.'] ∨ s = ['.', '.']) = true ↔
      HasDotSegment name := by
    simp only [List.any_eq_true, decide_eq_true_eq, HasDotSegment]
    constructor
    · rintro ⟨s, hs, rfl | rfl⟩
      · exact Or.inl hs
      · exact Or.inr hs
    · rintro (hs | hs)
      · exact ⟨_, hs, Or.inl rfl⟩
      · exact ⟨_, hs, Or.inr rfl⟩
  rw [Zip.validateMemberUri, failIf]
  by_cases h : HasDotSegment name
  · rw [if_pos (hany.2 h)]
    exact ⟨fun he => ⟨h, (Except.error.inj he).symm⟩, fun he => by rw [he.2]⟩
  · rw [if_neg (mt hany.1 h)]
    exact ⟨fun he => (by cases he), fun he => absurd he.1 h⟩

/-- The name errors of an archive: names that a sixteen-bit length can describe. -/
def pathErrors : Set Error :=
  {e | ∃ name, HasDotSegment name ∧ (asBytes name).length < 2 ^ 16 ∧ e = .invalidMemberPath name}

/-- What the member functions fail with. -/
def memberErrors : Set Error := insert .malformedDataDescriptor parseErrors ∪ pathErrors

theorem Archive.length_name_lt (A : Archive) {e : CdEntry} (he : e ∈ A.entries) :
    (asBytes e.name).length < 2 ^ 16 := by
  obtain ⟨pre, h, post, -, rfl⟩ := A.exists_header he
  have hname : (asBytes h.name).length = (u16At h.bytes 28).toNat := h.nameLen_eq.symm
  have hlt := (u16At h.bytes 28).toNat_lt
  show (asBytes h.name).length < 2 ^ 16
  omega

theorem failsIn_memberRanges (z : List UInt8) : FailsIn memberErrors (Zip.memberRanges z) := by
  have hS : parseErrors ⊆ memberErrors := fun e he => Or.inl (Set.mem_insert_of_mem _ he)
  have hR : recordErrors ⊆ memberErrors := (Set.subset_insert _ _).trans hS
  cases hL : parseLayout z with
  | error e =>
      rw [Zip.memberRanges, hL]
      exact .error (hS (failsIn_parseLayout z e hL))
  | ok L =>
      obtain ⟨A, rfl, -⟩ := exists_archive_of_parseLayout hL
      rw [A.memberRanges_eq_mapM]
      refine .mapM fun p hp => .bind ?_ fun _ _ => ?_
      · intro e he
        obtain ⟨hdot, rfl⟩ := validateMemberUri_eq_error.1 he
        exact Or.inr ⟨_, hdot, A.length_name_lt (A.room_fst_mem hp), rfl⟩
      · exact .bind (failsIn_bindingRange hR _ _ _ (Or.inl (Set.mem_insert _ _)))
          fun _ _ => .pure _

/-- An archive whose only entry has a dot segment in its name. -/
theorem exists_invalidMemberPath {name : String} (hdot : HasDotSegment name)
    (hname : (asBytes name).length < 2 ^ 16) :
    ∃ z, Binding.collectionMembers z = .error (.invalidMemberPath name) := by
  have hfits : Fits [storedItem name [] hname (by decide)] := by
    refine ⟨show 1 < 65535 by decide, ?_, ?_⟩
    · rw [bodies_cons, bodies_nil, List.append_nil]
      show (storedRecord name []).length < 2 ^ 32 - 1
      rw [length_storedRecord, List.length_nil]
      omega
    · rw [length_directory, List.map_singleton, List.sum_singleton]
      show (writeCdHeader [] (asBytes name) _ _ _ _).length < 2 ^ 32 - 1
      rw [length_writeCdHeader]
      omega
  have hne : name ≠ zipManifestPath := by
    rintro rfl
    exact absurd hdot (by decide +kernel)
  -- The check of the name comes first.
  have hvalid := validateMemberUri_eq_error.2 ⟨hdot, rfl⟩
  have hinputs := (carries_assemble hfits).memberInputs_eq
  rw [kept_cons_of_ne hne, List.mapM_cons, Item.input] at hinputs
  refine ⟨(assemble _ hfits).bytes, ?_⟩
  have herror : memberInputs (assemble _ hfits).bytes = .error (.invalidMemberPath name) := by
    rw [hinputs]
    show (Zip.validateMemberUri name >>= _) >>= _ = _
    rw [hvalid]
    rfl
  rw [memberInputs] at herror
  cases h : Binding.collectionMembers (assemble _ hfits).bytes with
  | error e =>
      rw [h] at herror
      exact congrArg Except.error (Except.error.inj herror)
  | ok ms =>
      rw [h] at herror
      cases herror

/-! ## The errors of the crate -/

/-- Every parse error is met by a function that parses first. -/
theorem failures_parseLayout : failures parseLayout = parseErrors := by
  refine Set.Subset.antisymm (failures_subset_iff.2 failsIn_parseLayout) ?_
  rintro e (rfl | rfl | rfl | rfl | rfl)
  · exact ⟨[], by decide +kernel⟩
  · exact ⟨writeEocd [] 1 0 0, by decide +kernel⟩
  · exact ⟨writeEocd [] 0xFFFF 0 0, by decide +kernel⟩
  · exact ⟨writeEocd [] 0 0 1, by decide +kernel⟩
  · exact ⟨writeEocd (writeCdHeader [] [0xFF] 0 0 1 0) 1 47 0, by decide +kernel⟩

theorem parseErrors_subset {α β : Type} {f : α → Except Error β} (input : List UInt8 → α)
    (h : ∀ z e, Unreadable z e → f (input z) = .error e) : parseErrors ⊆ failures f := by
  rw [← failures_parseLayout]
  rintro e ⟨z, hz⟩
  exact ⟨input z, h z e (unreadable_iff.2 hz)⟩

/-- The errors of a function that parses first and has one error of its own. -/
theorem failures_eq_insert {α β : Type} {f : α → Except Error β} (input : List UInt8 → α)
    (h : ∀ z e, Unreadable z e → f (input z) = .error e) {e : Error}
    (hle : ∀ a, FailsIn (insert e parseErrors) (f a)) {a : α} (ha : f a = .error e) :
    failures f = insert e parseErrors :=
  Set.Subset.antisymm (failures_subset_iff.2 hle)
    (Set.insert_subset ⟨a, ha⟩ (parseErrors_subset input h))

/-- **The errors of every public function**, each met on some input. All but the report meet the
errors of the parser. Beyond them reading and filling reject a manifest entry that is not stored or
is encrypted, embedding, removing and the members a data descriptor, the members also a path, and
the single directory range a manifest; the report fails on nothing. -/
theorem failures_exact :
    failures Reader.readManifest = insert .manifestEntryNotStoredOrEncrypted parseErrors ∧
      failures (fun x : List UInt8 × List UInt8 => Writer.embedManifest x.1 x.2) =
        insert .malformedDataDescriptor parseErrors ∧
      failures (fun x : List UInt8 × List UInt8 => Writer.fillManifest x.1 x.2) =
        insert .manifestEntryNotStoredOrEncrypted parseErrors ∧
      failures Writer.removeManifest = insert .malformedDataDescriptor parseErrors ∧
      failures Binding.collectionMembers =
        insert .malformedDataDescriptor parseErrors ∪ pathErrors ∧
      failures Binding.centralDirectoryRange =
        insert .nonContiguousCentralDirectoryHash parseErrors ∧
      failures Binding.centralDirectoryRanges = parseErrors ∧ failures Verify.verify = ∅ := by
  have hsub : ∀ e, parseErrors ⊆ insert e parseErrors := fun e => Set.subset_insert e _
  have hown : ∀ e, e ∈ insert e parseErrors := fun e => Set.mem_insert e _
  -- A deflated manifest entry, and entries that claim a data descriptor.
  have hdeflated : Reader.readManifest (overwrite (buildZip [(zipManifestPath, [])]) 72 [8]) =
      .error .manifestEntryNotStoredOrEncrypted := by decide +kernel
  have hdeflated' : Writer.fillManifest (overwrite (buildZip [(zipManifestPath, [])]) 72 [8]) [] =
      .error .manifestEntryNotStoredOrEncrypted := by decide +kernel
  have hstreamed : Writer.removeManifest
      (overwrite (overwrite (buildZip [(zipManifestPath, [])]) 6 [8]) 70 [8]) =
      .error .malformedDataDescriptor := by decide +kernel
  have hmember : Binding.collectionMembers
      (overwrite (overwrite (buildZip [(zipManifestPath, [])]) 6 [8]) 70 [8]) =
      .error .malformedDataDescriptor := by decide +kernel
  have hsplit : Binding.centralDirectoryRange (buildZip [(zipManifestPath, [])]) =
      .error .nonContiguousCentralDirectoryHash := by decide +kernel
  have hranges : ∀ z, FailsIn parseErrors (Binding.centralDirectoryRanges z) := by
    intro z e he
    cases hL : parseLayout z with
    | error e' =>
        rw [(unreadable_iff.2 hL).ranges] at he
        exact Except.error.inj he ▸ failsIn_parseLayout z e' hL
    | ok L =>
        obtain ⟨rs, hrs⟩ := exists_centralDirectoryRanges hL
        rw [hrs] at he
        cases he
  refine ⟨?_, ?_, ?_, ?_, ?_, ?_, ?_, ?_⟩
  · exact failures_eq_insert id (fun z e h => h.read)
      (fun z => failsIn_readManifestEntry (hsub _) z _ (hown _)) hdeflated
  · refine failures_eq_insert (fun z => (z, [])) (fun z e h => h.embed []) (fun x => ?_)
      (a := (overwrite (overwrite (buildZip [(zipManifestPath, [])]) 6 [8]) 70 [8], [])) ?_
    · exact .bind (failsIn_removeZipEntry (hsub _) _ _ (hown _)) fun base _ =>
        failsIn_insertZipEntry (hsub _) base _ _
    · show Writer.removeManifest _ >>= _ = _
      rw [hstreamed]
      rfl
  · exact failures_eq_insert (fun z => (z, [])) (fun z e h => h.fill [])
      (fun x => failsIn_fillManifest (hsub _) _ _ (hown _) _) (a := (_, [])) hdeflated'
  · exact failures_eq_insert id (fun z e h => h.remove)
      (fun z => failsIn_removeZipEntry (hsub _) z _ (hown _)) hstreamed
  · refine Set.Subset.antisymm (failures_subset_iff.2 fun z =>
      .bind (failsIn_memberRanges z) fun _ _ => .pure _) (Set.union_subset
        (Set.insert_subset ⟨_, hmember⟩ (parseErrors_subset id fun z e h => h.members)) ?_)
    rintro e ⟨name, hdot, hname, rfl⟩
    exact exists_invalidMemberPath hdot hname
  · refine failures_eq_insert id (fun z e h => h.range) (fun z => ?_) hsplit
    exact .bind ((hranges z).mono (hsub _)) fun _ _ => .bind (failsIn_failIf (hown _) _)
      fun _ _ => .pure _
  · exact Set.Subset.antisymm (failures_subset_iff.2 hranges)
      (parseErrors_subset id fun z e h => h.ranges)
  · refine Set.eq_empty_of_forall_notMem ?_
    rintro e ⟨z, hz⟩
    unfold Verify.verify at hz
    split at hz <;> cases hz

end C2paZip
