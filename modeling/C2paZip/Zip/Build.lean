import C2paZip.Zip.Edit

/-!
# Building an archive

`build_zip` of the tests of `zip.rs`: an archive of stored entries without a comment, made with the
header writers of the crate.
-/

set_option autoImplicit false

namespace C2paZip

/-- The first loop of `build_zip`: `out` with the local records of `files` behind it, and the
offsets of the records. -/
def buildLocals (out : List UInt8) : List (String × List UInt8) → List UInt8 × List UInt32
  | [] => (out, [])
  | (name, data) :: files =>
      let nameB := asBytes name
      let rest := buildLocals (writeLocalHeader out nameB (crc32 data) (UInt32.ofNat data.length)
        (UInt16.ofNat nameB.length) ++ data) files
      (rest.1, UInt32.ofNat out.length :: rest.2)

/-- The second loop of `build_zip`: `cd` with the directory headers of `files` behind it. -/
def buildDirectory (cd : List UInt8) : List ((String × List UInt8) × UInt32) → List UInt8
  | [] => cd
  | ((name, data), offset) :: files =>
      let nameB := asBytes name
      buildDirectory (writeCdHeader cd nameB (crc32 data) (UInt32.ofNat data.length)
        (UInt16.ofNat nameB.length) offset) files

/-- Build a minimal ZIP with stored entries. -/
def buildZip (files : List (String × List UInt8)) : List UInt8 :=
  let (out, offsets) := buildLocals [] files
  let cd := buildDirectory [] (files.zip offsets)
  writeEocd (out ++ cd) (UInt16.ofNat files.length) (UInt32.ofNat cd.length)
    (UInt32.ofNat out.length)

end C2paZip
