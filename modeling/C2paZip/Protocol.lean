import C2paZip.Inputs
import C2paZip.Session

/-!
# Signing and validating

The two-pass flow that `zip.rs` documents: reserve a placeholder, hash the archive, sign, and fill
in the signed manifest. The manifest records digests of the members and of the directory, and
whoever receives an archive takes the digests again. The delivered archive has the recorded digests
(completeness); and an archive with the recorded digests has the members of the document that was
signed, entry by entry and lookup by lookup, unless two inputs of the hash function collide
(soundness, `signed_members`). The hash function is a parameter.
-/

set_option autoImplicit false

namespace C2paZip

open Library

/-! ## Digests -/

section Digests

variable {D : Type} (hash : List UInt8 → D)

/-- The byte strings that are hashed. -/
def Inputs.hashed (I : Inputs) : List (List UInt8) := I.members.map Prod.snd ++ [I.directory]

/-- What a manifest records: every member name with its digest, and the digest of the directory. -/
def Inputs.digests (I : Inputs) : List (String × D) × D :=
  (I.members.map fun m => (m.1, hash m.2), hash I.directory)

/-- The hash function does not take different strings of `I` and `J` to one digest. -/
def Separates (I J : Inputs) : Prop :=
  ∀ a ∈ I.hashed, ∀ b ∈ J.hashed, hash a = hash b → a = b

variable {hash}

/-- **The same digests are digests of the same inputs**, unless the hash function collides. -/
theorem Inputs.eq_of_digests {I J : Inputs} (hsep : Separates hash I J)
    (hdigests : I.digests hash = J.digests hash) : I = J := by
  obtain ⟨hmembers, hdirectory⟩ := Prod.mk.inj hdigests
  have hdir : I.directory = J.directory :=
    hsep _ (List.mem_append_right _ List.mem_cons_self) _
      (List.mem_append_right _ List.mem_cons_self) hdirectory
  have hmem : I.members = J.members := by
    have hpairs := List.forall₂_map_left_iff.1 (List.forall₂_map_right_iff.1
      (List.forall₂_eq_eq_eq.symm ▸ hmembers))
    -- Every member of one is a member of the other, at the same place.
    have hleft := forall₂_imp_mem hpairs fun x hx y hxy => And.intro hx hxy
    have hboth := forall₂_imp_mem hleft.flip fun y hy x hxy => And.intro hy hxy
    refine List.forall₂_eq_eq_eq ▸ hboth.flip.imp ?_
    rintro x y ⟨hy, hx, hxy⟩
    obtain ⟨hn, hh⟩ := Prod.mk.inj hxy
    exact Prod.ext hn (hsep _ (List.mem_append_left _ (List.mem_map_of_mem hx)) _
      (List.mem_append_left _ (List.mem_map_of_mem hy)) hh)
  cases I
  cases J
  simp only at hdir hmem
  rw [hdir, hmem]

end Digests

/-! ## The delivered archive -/

/-- Filling keeps the covered directory. -/
theorem coveredBytes_of_fill {z f out : List UInt8} (hfill : Writer.fillManifest z f = .ok out)
    {rs : List Range} (hrs : Binding.centralDirectoryRanges z = .ok rs) :
    out.length = z.length ∧ Binding.centralDirectoryRanges out = .ok rs ∧
      coveredBytes out rs = coveredBytes z rs := by
  obtain ⟨A, B, p, r, rfl, rfl, hloc, hlen, hB⟩ := exists_isFilled_of_fillManifest hfill
  refine ⟨?_, (hB.centralDirectoryRanges hloc hlen).2 hrs,
    coveredBytes_of_sameRange (hB.slice_directory hloc hlen hrs)⟩
  rw [hB.bytes, hloc.length_fillBytes hlen]

/-- Embedding adds no more than one entry. -/
theorem length_embedManifest_le {A : Archive} {m out : List UInt8}
    (hembed : Writer.embedManifest A.bytes m = .ok out) :
    out.length ≤ A.bytes.length + m.length + 140 := by
  obtain ⟨B, -, hinsert, -, hle, -⟩ := exists_base hembed
  have hlen := Archive.length_insertZipEntry_le hinsert
  have hpath := length_manifestPath
  omega

/-- **Filling a document's archive keeps everything that was hashed.** -/
theorem Represents.exists_fill {n : Nat} {A : Archive} {d : Document} {p f : List UInt8}
    (h : Represents n A (d.withManifest (some p))) (hf : f.length = p.length) :
    ∃ B, Writer.fillManifest A.bytes f = .ok B.bytes ∧
      Represents n B (d.withManifest (some f)) ∧ B.bytes.length = A.bytes.length ∧
      bindingInputs B.bytes = bindingInputs A.bytes := by
  obtain ⟨B, hB, hrep⟩ := h.fillManifest f
  have hdone : (d.withManifest (some p)).fill f = (d.withManifest (some f), .done) := by
    rw [Document.fill]
    exact if_pos hf
  rw [hdone] at hB hrep
  have hfill : Writer.fillManifest A.bytes f = .ok B.bytes := by
    cases hw : Writer.fillManifest A.bytes f with
    | error e =>
        rw [hw] at hB
        cases (Prod.mk.inj hB).2
    | ok out =>
        rw [hw] at hB
        rw [← (Prod.mk.inj hB).1]
  obtain ⟨rs, hrs, -⟩ := h.centralDirectoryRanges
  obtain ⟨hlen, hrsB, hcov⟩ := coveredBytes_of_fill hfill hrs
  refine ⟨B, hfill, hrep, hlen, ?_⟩
  have hmembers : C2paZip.memberInputs B.bytes = C2paZip.memberInputs A.bytes := by
    rw [hrep.memberInputs, h.memberInputs]
    rfl
  simp only [bindingInputs, hmembers, hrs, hrsB]
  cases C2paZip.memberInputs A.bytes with
  | error e => rfl
  | ok ms => exact congrArg (fun xs => Except.ok (Inputs.mk ms xs)) hcov

/-! ## The members of an accepted archive -/

/-- The name, the bytes and the stored size of an item. -/
def Item.view (it : Item) : (String × List UInt8) × Nat :=
  ((it.header.name, it.body), it.header.compressedSize)

/-- Items with the same views have the same contents under every name. -/
theorem find?_content_of_view {its its' : List Item}
    (hview : its.map Item.view = its'.map Item.view) (name : String) :
    (its.find? fun it => it.header.name = name).map Item.content =
      (its'.find? fun it => it.header.name = name).map Item.content := by
  have key : ∀ is : List Item, (is.find? fun it => it.header.name = name).map Item.content =
      ((is.map Item.view).find? fun v => v.1.1 = name).map
        fun v => slice v.1.2 (contentStart v.1.2) v.2 := by
    intro is
    rw [List.find?_map, Option.map_map]
    rfl
  rw [key, key, hview]

/-- The inputs of items are their names and bytes. -/
theorem map_input_eq_ok {its : List Item} {ms : List (String × List UInt8)}
    (h : its.mapM Item.input = .ok ms) : its.map (fun it => (it.header.name, it.body)) = ms := by
  rw [← List.map_id ms]
  refine map_eq_map_of_forall₂ (mapM_eq_ok.1 h) fun it _ m hm => ?_
  obtain ⟨-, -, hm⟩ := bind_eq_ok.1 hm
  exact pure_eq_ok.1 hm

namespace Archive

variable {A B : Archive} {items : List Item}

/-- An archive with members binds entry by entry. -/
theorem exists_carries_of_memberInputs {ms : List (String × List UInt8)}
    (hms : memberInputs A.bytes = .ok ms) : ∃ items, A.Carries items := by
  obtain ⟨members, hmembers, -⟩ := bind_eq_ok.1 hms
  obtain ⟨rs, hrs, -⟩ := collectionMembers_eq_ok.1 hmembers
  refine A.exists_carries fun p hp => ?_
  obtain ⟨m, -, -, hr, -⟩ := exists_right_of_forall₂ (A.memberRanges_eq_ok.1 hrs) hp
  exact ⟨m.2, hr⟩

/-- The stored sizes of the items are those of the entries. -/
theorem Carries.map_compressedSize (hA : A.Carries items) (name : String) :
    (kept name items).map (fun it => it.header.compressedSize) =
      (A.entries.filter fun e => e.name ≠ name).map CdEntry.compressedSize := by
  have hentries : List.Forall₂ (fun (e : CdEntry) (it : Item) => e.name = it.header.name ∧
      e.compressedSize = it.header.compressedSize) A.entries items := by
    rw [← A.map_fst_rooms, List.forall₂_map_left_iff]
    refine hA.imp fun p it hit => ⟨hit.name, ?_⟩
    rw [hit.fields]
    rfl
  refine (map_eq_map_of_forall₂ (List.rel_filter ?_ hentries) fun e _ it hit => hit.2).symm
  rintro e it ⟨hn, -⟩
  simp [hn]

/-- **Archives with the same entries and the same hashed members have the same content under every
name but the manifest's.** -/
theorem readZipEntryContent_eq_of_sameEntries (h : SameEntries A B)
    {ms : List (String × List UInt8)} (hA : memberInputs A.bytes = .ok ms)
    (hB : memberInputs B.bytes = .ok ms) {name : String} (hne : name ≠ zipManifestPath) :
    Zip.readZipEntryContent A.bytes name = Zip.readZipEntryContent B.bytes name := by
  obtain ⟨items, hcA⟩ := exists_carries_of_memberInputs hA
  obtain ⟨items', hcB⟩ := exists_carries_of_memberInputs hB
  have hbytes := map_input_eq_ok (hcA.memberInputs_eq.symm.trans hA)
  have hbytes' := map_input_eq_ok (hcB.memberInputs_eq.symm.trans hB)
  have hfilter : A.entries.filter (fun e => e.name ≠ zipManifestPath) =
      B.entries.filter fun e => e.name ≠ zipManifestPath := by
    refine filter_eq_filter_of_forall₂ (h.entries.imp ?_)
    rintro e f ⟨hf, hother⟩
    have hname : f.name = e.name := by rw [hf]
    exact ⟨by simp [hname], fun hn => (hother (by simpa using hn)).symm⟩
  have hsizes := (hcA.map_compressedSize zipManifestPath).trans
    ((congrArg (List.map CdEntry.compressedSize) hfilter).trans
      (hcB.map_compressedSize zipManifestPath).symm)
  have hview : (kept zipManifestPath items).map Item.view =
      (kept zipManifestPath items').map Item.view := by
    have hzip := congrArg₂ List.zip (hbytes.trans hbytes'.symm) hsizes
    rw [List.zip_map', List.zip_map'] at hzip
    exact hzip
  rw [hcA.readZipEntryContent_eq, hcB.readZipEntryContent_eq, ← find?_kept hne items,
    ← find?_kept hne items', find?_content_of_view hview]

end Archive

/-! ## The whole flow -/

/-- The archive `y` has the members of `z`: their names and bytes, and the content under every name
but the manifest's. -/
def SameDocument (z y : List UInt8) : Prop :=
  memberInputs y = memberInputs z ∧ ∀ name, name ≠ zipManifestPath →
    Zip.readZipEntryContent y name = Zip.readZipEntryContent z name

/-- **Two-pass signing is complete and sound.** From any archive that can be edited and whose
members can be hashed, embedding a placeholder and filling in a manifest of its length succeed. The
delivered archive is read back, is the same document, and has the inputs that were hashed for the
placeholder. And every archive of less than `2 ^ 30` bytes that has the recorded digests is the same
document, unless the hash function takes two different strings that the signer and the validator
hashed to one digest. -/
theorem signed_members {D : Type} (hash : List UInt8 → D) {z p f : List UInt8} {L : ZipLayout}
    {m : Option (List UInt8)} {ms : List (String × List UInt8)} (hL : parseLayout z = .ok L)
    (h : Editable z L m) (hms : memberInputs z = .ok ms) (hf : f.length = p.length)
    (hz : z.length + p.length + 140 < 2 ^ 30) :
    ∃ stub out I, Writer.embedManifest z p = .ok stub ∧ bindingInputs stub = .ok I ∧
      I.members = ms ∧ Writer.fillManifest stub f = .ok out ∧ bindingInputs out = .ok I ∧
      Reader.readManifest out = .ok (some f) ∧ SameDocument z out ∧
      ∀ y J, y.length < 2 ^ 30 → bindingInputs y = .ok J → J.digests hash = I.digests hash →
        Separates hash J I → SameDocument z y := by
  obtain ⟨A, rfl, rfl⟩ := exists_archive_of_parseLayout hL
  obtain ⟨d, -, hrep, -⟩ := exists_represents h (by omega)
  obtain ⟨B, hembed, hrepB⟩ := hrep.embedManifest (m := p) (by omega)
  obtain ⟨C, hfill, hrepC, hlenC, hinputs⟩ := hrepB.exists_fill hf
  have hlenB := length_embedManifest_le hembed
  obtain ⟨rs, hrs, -⟩ := hrepB.centralDirectoryRanges
  -- The members are those of the document throughout.
  have hmembers := hrep.memberInputs
  have hmsB : memberInputs B.bytes = .ok ms := by
    rw [hrepB.memberInputs, ← hms, hmembers]
    rfl
  have hmsC : memberInputs C.bytes = .ok ms := by
    rw [hrepC.memberInputs, ← hms, hmembers]
    rfl
  have hcontent : ∀ name, name ≠ zipManifestPath →
      Zip.readZipEntryContent C.bytes name = Zip.readZipEntryContent A.bytes name := by
    intro name hne
    rw [hrepC.readZipEntryContent, hrep.readZipEntryContent, Document.content, Document.content,
      if_neg hne, if_neg hne]
    rfl
  have hI : bindingInputs B.bytes = .ok ⟨ms, coveredBytes B.bytes rs⟩ := by
    simp only [bindingInputs, hmsB, hrs]
    rfl
  refine ⟨B.bytes, C.bytes, _, hembed, hI, rfl, hfill, hinputs.trans hI, hrepC.readManifest,
    ⟨hmsC.trans hms.symm, hcontent⟩, fun y J hy hJ hdigests hsep => ?_⟩
  -- The same digests are digests of the same inputs, which fix entries and members.
  obtain rfl := Inputs.eq_of_digests hsep hdigests
  have hJ' := hJ
  obtain ⟨ms', rs', -, hrs', -⟩ := bindingInputs_eq_ok.1 hJ
  obtain ⟨Y, rfl⟩ := exists_archive_of_bind hrs'
  obtain ⟨-, hsame, -⟩ := sameEntries_of_inputs hy (by omega) hJ (hinputs.trans hI)
  have hmsY : memberInputs Y.bytes = .ok ms := by
    rw [bindingInputs] at hJ
    obtain ⟨ms'', hms'', hrest⟩ := bind_eq_ok.1 hJ
    obtain ⟨rs'', -, heq⟩ := bind_eq_ok.1 hrest
    rw [hms'', (Inputs.mk.inj (pure_eq_ok.1 heq)).1]
  refine ⟨hmsY.trans hms.symm, fun name hne => ?_⟩
  rw [Archive.readZipEntryContent_eq_of_sameEntries hsame hmsY hmsC hne, hcontent name hne]

/-- Signing an archive of one member, with the strings themselves for digests. -/
theorem signed_members_identity :
    ∃ stub out I, Writer.embedManifest (buildZip [("a", [7])]) [0] = .ok stub ∧
      bindingInputs stub = .ok I ∧ I.members = [("a", buildZip [("a", [7])] |>.take 32)] ∧
      Writer.fillManifest stub [1] = .ok out ∧ bindingInputs out = .ok I := by
  have hinputs : memberInputs (buildZip [("a", [7])]) =
      .ok [("a", buildZip [("a", [7])] |>.take 32)] := by decide +kernel
  obtain ⟨stub, out, I, hembed, hI, hms, hfill, hout, -⟩ := signed_members id
    (z := buildZip [("a", [7])]) (p := [0]) (f := [1]) (m := none)
    (L := { entries := [⟨"a", 0, 0, crc32 [7], 1, 1, 0, 32, 47⟩], cdStart := 32, eocdOffset := 79 })
    (by decide +kernel)
    { binds := by
        intro i hi
        obtain rfl : i = 0 := Nat.lt_one_iff.1 hi
        exact ⟨⟨0, 32⟩, by decide +kernel⟩
      read := by decide +kernel
      tidy := fun _ => ⟨by decide, by decide⟩
      plain := fun _ hm _ => absurd rfl hm }
    hinputs rfl (by decide +kernel)
  exact ⟨stub, out, I, hembed, hI, hms, hfill, hout⟩

end C2paZip
