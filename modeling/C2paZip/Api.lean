import C2paZip.Zip.Edit

/-!
# The public API

`writer.rs`, `reader.rs`, `binding.rs` and `verify.rs`: the archive operations at the manifest path,
each under the name of its source module.
-/

set_option autoImplicit false

namespace C2paZip

/-! ## `writer.rs` -/

/-- Embed a C2PA Manifest Store into a ZIP-based document. -/
def Writer.embedManifest (zip manifestStore : List UInt8) : Except Error (List UInt8) := do
  let base ← Zip.removeZipEntry zip zipManifestPath
  Zip.insertZipEntry base zipManifestPath manifestStore

/-- Overwrite a previously embedded placeholder manifest with the final, signed bytes. -/
def Writer.fillManifest (zip finalManifest : List UInt8) : Except Error (List UInt8) :=
  Zip.fillManifest zip zipManifestPath finalManifest

/-- Remove the C2PA Manifest Store from a ZIP-based document, if present. -/
def Writer.removeManifest (zip : List UInt8) : Except Error (List UInt8) :=
  Zip.removeZipEntry zip zipManifestPath

/-! ## `reader.rs` -/

/-- Read the embedded C2PA Manifest Store from a ZIP-based document. -/
def Reader.readManifest (zip : List UInt8) : Except Error (Option (List UInt8)) :=
  Zip.readManifestEntry zip zipManifestPath

/-! ## `binding.rs` -/

/-- A member of the archive, and its complete collection-hash byte range. -/
structure Binding.Member where
  name : String
  content : Range
  deriving DecidableEq

/-- Every archive member except the C2PA Manifest Store entry, in archive order. -/
def Binding.collectionMembers (zip : List UInt8) : Except Error (List Binding.Member) := do
  let ranges ← Zip.memberRanges zip
  return (ranges.filter fun m => m.1 ≠ zipManifestPath).map fun m => ⟨m.1, m.2⟩

/-- The contiguous byte range covered by `zip_central_directory_hash` for an archive without a
manifest entry. -/
def Binding.centralDirectoryRange (zip : List UInt8) : Except Error Range :=
  Zip.centralDirectoryRange zip

/-- Ordered byte ranges to concatenate and hash for `zip_central_directory_hash`. -/
def Binding.centralDirectoryRanges (zip : List UInt8) : Except Error (List Range) :=
  Zip.centralDirectoryRanges zip

/-! ## `verify.rs` -/

/-- The result of a structural check of a ZIP-based document's C2PA embedding. -/
structure Verify.Compliance where
  hasManifest : Bool
  manifestLen : Nat
  isValidZip : Bool
  deriving DecidableEq

/-- Structurally verify a ZIP-based document's C2PA embedding. -/
def Verify.verify (zip : List UInt8) : Except Error Verify.Compliance :=
  match Reader.readManifest zip with
  | .ok (some manifest) =>
      .ok { hasManifest := true, manifestLen := manifest.length, isValidZip := true }
  | .ok none => .ok { hasManifest := false, manifestLen := 0, isValidZip := true }
  -- Every error of the reader, also one about the manifest entry alone, becomes the same report.
  | .error _ => .ok { hasManifest := false, manifestLen := 0, isValidZip := false }

end C2paZip
