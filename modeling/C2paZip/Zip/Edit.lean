import C2paZip.Zip.Layout
import Mathlib.Logic.Function.Iterate

/-!
# Reading, writing and removing entries

The header writers, the CRC and the entry operations of `zip.rs`. An output vector is threaded
through the writers as the list of bytes written so far.
-/

set_option autoImplicit false

namespace C2paZip

open Library

/-! ## Writers -/

/-- Append a stored (uncompressed) local file header for `name` to `out`. -/
def writeLocalHeader (out name : List UInt8) (crc size : UInt32) (nameLen : UInt16) : List UInt8 :=
  out ++ (u32ToLe localHeaderSig ++ (u16ToLe 20 ++ (u16ToLe 0 ++ (u16ToLe 0 ++ (u16ToLe 0 ++
    (u16ToLe 0 ++ (u32ToLe crc ++ (u32ToLe size ++ (u32ToLe size ++ (u16ToLe nameLen ++
      (u16ToLe 0 ++ name)))))))))))

/-- Append a central-directory header for `name` (a stored entry at `localOff`) to `out`. -/
def writeCdHeader (out name : List UInt8) (crc size : UInt32) (nameLen : UInt16)
    (localOff : UInt32) : List UInt8 :=
  out ++ (u32ToLe cdHeaderSig ++ (u16ToLe 20 ++ (u16ToLe 20 ++ (u16ToLe 0 ++ (u16ToLe 0 ++
    (u16ToLe 0 ++ (u16ToLe 0 ++ (u32ToLe crc ++ (u32ToLe size ++ (u32ToLe size ++
      (u16ToLe nameLen ++ (u16ToLe 0 ++ (u16ToLe 0 ++ (u16ToLe 0 ++ (u16ToLe 0 ++
        (u32ToLe 0 ++ (u32ToLe localOff ++ name)))))))))))))))))

/-- The end-of-central-directory record (no comment) that ends both rebuilt archives. -/
def writeEocd (out : List UInt8) (totalEntries : UInt16) (cdSize cdStart : UInt32) : List UInt8 :=
  out ++ (u32ToLe eocdSig ++ (u16ToLe 0 ++ (u16ToLe 0 ++ (u16ToLe totalEntries ++
    (u16ToLe totalEntries ++ (u32ToLe cdSize ++ (u32ToLe cdStart ++ u16ToLe 0)))))))

/-- One round of the inner loop of `crc32`. -/
def crc32Bit (crc : UInt32) : UInt32 :=
  let mask := -(crc &&& 1)
  (crc >>> 1) ^^^ (0xEDB88320 &&& mask)

/-- One round of the outer loop of `crc32`. -/
def crc32Byte (crc : UInt32) (byte : UInt8) : UInt32 :=
  crc32Bit^[8] (crc ^^^ byte.toUInt32)

/-- CRC-32 (IEEE, as used by ZIP) of a byte slice. -/
def crc32 (data : List UInt8) : UInt32 := ~~~ data.foldl crc32Byte 0xFFFFFFFF

namespace Zip

/-! ## Inserting -/

/-- Insert a stored (uncompressed) entry `name` with `content`, behind the existing file data and
before the central directory. -/
def insertZipEntry (bytes : List UInt8) (name : String) (content : List UInt8) :
    Except Error (List UInt8) := do
  let layout ← parseLayout bytes
  let nameB := asBytes name
  let nameLen ← u16TryFrom nameB.length .truncated
  let size ← u32TryFrom content.length .truncated
  let crc := crc32 content
  -- The file data stays, and the new record goes where the directory was.
  let manifestLocalOffset ← u32TryFrom layout.cdStart .zip64Unsupported
  let out := bytes.take layout.cdStart
  let out := writeLocalHeader out nameB crc size nameLen
  let out := out ++ content
  let newCdStart ← u32TryFrom out.length .zip64Unsupported
  -- The original central directory, copied verbatim.
  let out := out ++ slice bytes layout.cdStart (layout.eocdOffset - layout.cdStart)
  let out := writeCdHeader out nameB crc size nameLen manifestLocalOffset
  let newCdSize ← u32TryFrom (out.length - newCdStart.toNat) .truncated
  let totalEntries ← u16TryFrom (layout.entries.length + 1) .zip64Unsupported
  return writeEocd out totalEntries newCdSize newCdStart

/-! ## The manifest entry -/

/-- Index of the first entry called `name`, in local-offset order. -/
def entryIndex (layout : ZipLayout) (name : String) : Option Nat :=
  layout.entries.findIdx? fun e => e.name = name

/-- Overwrite the entry's content in place, and its CRC in both headers. -/
def fillManifest (bytes : List UInt8) (name : String) (newContent : List UInt8) :
    Except Error (List UInt8) := do
  let layout ← parseLayout bytes
  let i ← okOr (entryIndex layout name) .truncated
  let entry := layout.entries[i]!
  failIf (entry.method ≠ 0 ∨ entry.flags &&& 1 ≠ 0) .manifestEntryNotStoredOrEncrypted
  let range ← entryContentRange bytes layout i
  failIf (newContent.length ≠ range.stop - range.start) .truncated
  let out := overwrite bytes range.start newContent
  let crc := crc32 newContent
  -- The two header CRCs; a data descriptor is not rewritten.
  let out := overwrite out (entry.localHeaderOffset + 14) (u32ToLe crc)
  return overwrite out (entry.cdHeaderOffset + 16) (u32ToLe crc)

/-- The stored content of the first entry called `name`, which must be stored and unencrypted;
`none` where there is no such entry. The loop of the source returns at its first match. -/
def readManifestEntry (bytes : List UInt8) (name : String) :
    Except Error (Option (List UInt8)) := do
  let layout ← parseLayout bytes
  match entryIndex layout name with
  | none => return none
  | some i => do
      let entry := layout.entries[i]!
      -- Only a stored, unencrypted entry can be read as it stands.
      failIf (entry.method ≠ 0 ∨ entry.flags &&& 1 ≠ 0) .manifestEntryNotStoredOrEncrypted
      let range ← entryContentRange bytes layout i
      let content ← okOr (getRange bytes range.start range.stop) .truncated
      return some content

/-- The content of the first entry called `name` as it stands, without the check that it is stored
and unencrypted. -/
def readZipEntryContent (bytes : List UInt8) (name : String) :
    Except Error (Option (List UInt8)) := do
  let layout ← parseLayout bytes
  match entryIndex layout name with
  | none => return none
  | some i => do
      let range ← entryContentRange bytes layout i
      let content ← okOr (getRange bytes range.start range.stop) .truncated
      return some content

/-! ## Binding ranges -/

/-- Names with a `.` or `..` path segment are rejected. -/
def validateMemberUri (name : String) : Except Error Unit :=
  failIf ((name.toList.splitOn '/').any fun segment => segment = ['.'] ∨ segment = ['.', '.'])
    (.invalidMemberPath name)

/-- Every entry's name and complete member-binding range, in archive order. -/
def memberRanges (bytes : List UInt8) : Except Error (List (String × Range)) := do
  let layout ← parseLayout bytes
  (List.range layout.entries.length).mapM fun i => do
    validateMemberUri layout.entries[i]!.name
    let range ← entryBindingRange bytes layout i
    return (layout.entries[i]!.name, range)

def centralDirectoryRanges (bytes : List UInt8) : Except Error (List Range) := do
  let layout ← parseLayout bytes
  failIf (layout.cdStart > bytes.length ∨ layout.cdStart > layout.eocdOffset) .badOffset
  match layout.entries.find? fun e => e.name = zipManifestPath with
  | some entry =>
      -- Everything from the directory on, without the CRC field that filling rewrites.
      let crcStart := entry.cdHeaderOffset + 16
      let crcEnd := crcStart + 4
      return [⟨layout.cdStart, crcStart⟩, ⟨crcEnd, bytes.length⟩]
  | none => return [⟨layout.cdStart, bytes.length⟩]

/-- From the first central directory header to the end of the archive. -/
def centralDirectoryRange (bytes : List UInt8) : Except Error Range := do
  let ranges ← centralDirectoryRanges bytes
  failIf (ranges.length ≠ 1) .nonContiguousCentralDirectoryHash
  return ranges.headD ⟨0, 0⟩

/-! ## Removing -/

/-- One round of the first loop of `remove_zip_entry`: the file data copied so far, and the
retained entries with their new local-header offsets. -/
def retainEntry (bytes : List UInt8) (layout : ZipLayout) (name : String)
    (st : List UInt8 × List (CdEntry × UInt32)) (entry : CdEntry × Nat) :
    Except Error (List UInt8 × List (CdEntry × UInt32)) := do
  -- The range is computed, and can fail, for a removed entry too.
  let range ← entryBindingRange bytes layout entry.2
  if entry.1.name = name then
    return st
  else do
    let data ← okOr (getRange bytes range.start range.stop) .truncated
    let newOff ← u32TryFrom st.1.length .zip64Unsupported
    return (st.1 ++ data, st.2 ++ [(entry.1, newOff)])

/-- One round of the second loop of `remove_zip_entry`: copies a header and patches its
local-header offset. -/
def copyCdHeader (bytes out : List UInt8) (entry : CdEntry × UInt32) :
    Except Error (List UInt8) := do
  let hdr ← okOr (getRange bytes entry.1.cdHeaderOffset
    (entry.1.cdHeaderOffset + entry.1.cdHeaderLen)) .truncated
  let start := out.length
  return overwrite (out ++ hdr) (start + 42) (u32ToLe entry.2)

/-- Remove the entries named `name`, rebuilding file data, central directory and EOCD; a copy of
`bytes` when `name` is absent. -/
def removeZipEntry (bytes : List UInt8) (name : String) : Except Error (List UInt8) := do
  let layout ← parseLayout bytes
  if ¬ layout.entries.any fun e => e.name = name then
    return bytes
  else do
    let (out, retained) ← layout.entries.zipIdx.foldlM (retainEntry bytes layout name) ([], [])
    let newCdStart ← u32TryFrom out.length .zip64Unsupported
    let out ← retained.foldlM (copyCdHeader bytes) out
    let cdSize ← u32TryFrom (out.length - newCdStart.toNat) .truncated
    let totalEntries ← u16TryFrom retained.length .zip64Unsupported
    return writeEocd out totalEntries cdSize newCdStart

end Zip

end C2paZip
