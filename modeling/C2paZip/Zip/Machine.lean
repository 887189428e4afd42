import C2paZip.Api
import C2paZip.Library.Buffer

/-!
# The crate on a `w`-bit target

The functions of `zip.rs` and of the API once more, with `usize` as it is on a target of `w` bits.
What the source does not check can panic here: sums and differences of positions, indexing, slicing,
`copy_from_slice`, and vectors of bytes that have to grow. A `checked_add` that does not fit returns
its error. How much an output vector grows by is the parameter `grow`; the allocator has the memory
that is asked for. A vector of entries holds a sixteen-bit count of them, so its allocation
succeeds, and a `u32` field fits `usize`, so its conversion keeps the value.
-/

set_option autoImplicit false

namespace C2paZip.Machine

open Library
open Library.Outcome (add sub checkedAdd index range copyFrom)
open Library.Buffer (withCapacity extend)

variable (w : Nat)

/-! ## Field readers -/

def readU16 (buf : List UInt8) (pos : Nat) : Outcome Error UInt16 := do
  let b ← okOr (getRange buf pos (← add w pos 2)) .truncated
  return u16FromLe [← index b 0, ← index b 1]

def readU32 (buf : List UInt8) (pos : Nat) : Outcome Error UInt32 := do
  let b ← okOr (getRange buf pos (← add w pos 4)) .truncated
  return u32FromLe [← index b 0, ← index b 1, ← index b 2, ← index b 3]

/-! ## Locating and walking the central directory -/

/-- The loop of `find_eocd`: tries `scanStart + k - 1` down to `scanStart`. -/
def scanEocd (bytes : List UInt8) (scanStart : Nat) : Nat → Outcome Error Nat
  | 0 => .err .noEocd
  | k + 1 => do
      -- The loop variable is taken from a range and not computed.
      let pos := scanStart + k
      let sig ← readU32 w bytes pos
      if sig = eocdSig then
        let commentLen ← readU16 w bytes (← add w pos 20)
        let stop ← add w (← add w pos eocdMinLen) commentLen.toNat
        if stop = bytes.length then
          return pos
        else
          scanEocd bytes scanStart k
      else
        scanEocd bytes scanStart k

def findEocd (bytes : List UInt8) : Outcome Error Nat :=
  if bytes.length < eocdMinLen then
    .err .noEocd
  else do
    -- Truncated subtraction is `saturating_sub`.
    let scanStart := bytes.length - (← add w eocdMinLen 0xFFFF)
    let last ← sub bytes.length eocdMinLen
    scanEocd w bytes scanStart (last + 1 - scanStart)

/-- One round of the directory walk: the header at `cursor` and the position behind it. -/
def readCdHeader (bytes : List UInt8) (eocd cdStart cursor : Nat) :
    Outcome Error (CdEntry × Nat) := do
  let sig ← readU32 w bytes cursor
  failIf (sig ≠ cdHeaderSig) .truncated
  let nameLen ← readU16 w bytes (← add w cursor 28)
  let extraLen ← readU16 w bytes (← add w cursor 30)
  let comment ← readU16 w bytes (← add w cursor 32)
  let localOff ← readU32 w bytes (← add w cursor 42)
  let flags ← readU16 w bytes (← add w cursor 8)
  let method ← readU16 w bytes (← add w cursor 10)
  let crc32 ← readU32 w bytes (← add w cursor 16)
  let compressedSize ← readU32 w bytes (← add w cursor 20)
  let uncompressedSize ← readU32 w bytes (← add w cursor 24)
  failIf (localOff = zip64SentinelU32) .zip64Unsupported
  failIf (compressedSize = zip64SentinelU32 ∨ uncompressedSize = zip64SentinelU32)
    .zip64Unsupported
  let nameStart ← checkedAdd w cursor cdHeaderFixedLen .truncated
  let nameEnd ← checkedAdd w nameStart nameLen.toNat .truncated
  let nameBytes ← okOr (getRange bytes nameStart nameEnd) .truncated
  let name ← okOr (fromUtf8 nameBytes) .nonUtf8Name
  failIf (localOff.toNat ≥ cdStart) .badOffset
  let extraEnd ← checkedAdd w nameEnd extraLen.toNat .truncated
  let next ← checkedAdd w extraEnd comment.toNat .truncated
  failIf (next > eocd) .truncated
  -- The length is not checked: no header ends before it starts.
  let cdHeaderLen ← sub next cursor
  return ({ name := name
            flags := flags
            method := method
            crc32 := crc32
            compressedSize := compressedSize.toNat
            uncompressedSize := uncompressedSize.toNat
            localHeaderOffset := localOff.toNat
            cdHeaderOffset := cursor
            cdHeaderLen := cdHeaderLen }, next)

/-- The directory walk over the next `n` headers. -/
def walkHeaders (bytes : List UInt8) (eocd cdStart : Nat) :
    Nat → Nat → Outcome Error (List CdEntry)
  | 0, _ => .ok []
  | n + 1, cursor => do
      let (entry, next) ← readCdHeader w bytes eocd cdStart cursor
      let entries ← walkHeaders bytes eocd cdStart n next
      return entry :: entries

def parseLayout (bytes : List UInt8) : Outcome Error ZipLayout := do
  let eocd ← findEocd w bytes
  let totalEntries ← readU16 w bytes (← add w eocd 10)
  let cdSize ← readU32 w bytes (← add w eocd 12)
  let cdOffset ← readU32 w bytes (← add w eocd 16)
  let commentLen ← readU16 w bytes (← add w eocd 20)
  failIf (totalEntries = zip64SentinelU16 ∨ cdSize = zip64SentinelU32 ∨
    cdOffset = zip64SentinelU32) .zip64Unsupported
  let cdStart := cdOffset.toNat
  let recordEnd ← checkedAdd w eocd eocdMinLen .truncated
  let cdThroughEocdEnd ← checkedAdd w recordEnd commentLen.toNat .truncated
  failIf (cdStart > eocd ∨ cdThroughEocdEnd > bytes.length) .badOffset
  let entries ← walkHeaders w bytes eocd cdStart totalEntries.toNat cdStart
  return { entries := sortByKey CdEntry.localHeaderOffset entries
           cdStart := cdStart
           eocdOffset := eocd }

/-! ## Entry ranges -/

def entryBoundary (layout : ZipLayout) (i : Nat) : Outcome Error Nat := do
  return (layout.entries[← add w i 1]?.map CdEntry.localHeaderOffset).getD layout.cdStart

def entryContentRange (bytes : List UInt8) (layout : ZipLayout) (i : Nat) :
    Outcome Error Range := do
  let lh := (← index layout.entries i).localHeaderOffset
  let sig ← readU32 w bytes lh
  failIf (sig ≠ localHeaderSig) .truncated
  let entry ← index layout.entries i
  let localFlags ← readU16 w bytes (← add w lh 6)
  failIf (localFlags ≠ entry.flags) .badOffset
  let nameLen ← readU16 w bytes (← add w lh 26)
  let extraLen ← readU16 w bytes (← add w lh 28)
  let nameStart ← checkedAdd w lh localHeaderFixedLen .truncated
  let nameEnd ← checkedAdd w nameStart nameLen.toNat .truncated
  let start ← checkedAdd w nameEnd extraLen.toNat .truncated
  -- The size is any `u32`, so this sum need not fit.
  let stop ← checkedAdd w start entry.compressedSize .truncated
  let boundary ← entryBoundary w layout i
  failIf (stop > boundary) .badOffset
  failIf (stop > bytes.length) .truncated
  return { start := start, stop := stop }

/-- Where the fields of a descriptor start: behind its signature, which is optional. -/
def descriptorStart (bytes : List UInt8) (stop : Nat) : Outcome Error Nat := do
  let sig ← (readU32 w bytes stop).toOption
  if sig = some dataDescriptorSig then
    checkedAdd w stop 4 .truncated
  else
    return stop

/-- The `if` of `entry_binding_range`: the end of the binding range of entry `i`, whose content
ends at `stop`. -/
def bindingEnd (bytes : List UInt8) (layout : ZipLayout) (i : Nat) (entry : CdEntry)
    (stop : Nat) : Outcome Error Nat :=
  if entry.flags &&& 0x0008 ≠ 0 then do
    let stop ← descriptorStart w bytes stop
    let descriptorEnd ← checkedAdd w stop 12 .truncated
    let boundary ← entryBoundary w layout i
    failIf (descriptorEnd > boundary) .malformedDataDescriptor
    let crc ← readU32 w bytes stop
    failIf (crc ≠ entry.crc32) .malformedDataDescriptor
    let compressed ← readU32 w bytes (← add w stop 4)
    failIf (compressed.toNat ≠ entry.compressedSize) .malformedDataDescriptor
    let uncompressed ← readU32 w bytes (← add w stop 8)
    failIf (uncompressed.toNat ≠ entry.uncompressedSize) .malformedDataDescriptor
    return descriptorEnd
  else do
    let crc ← readU32 w bytes (← add w entry.localHeaderOffset 14)
    failIf (crc ≠ entry.crc32) .badOffset
    let compressed ← readU32 w bytes (← add w entry.localHeaderOffset 18)
    failIf (compressed.toNat ≠ entry.compressedSize) .badOffset
    let uncompressed ← readU32 w bytes (← add w entry.localHeaderOffset 22)
    failIf (uncompressed.toNat ≠ entry.uncompressedSize) .badOffset
    return stop

def entryBindingRange (bytes : List UInt8) (layout : ZipLayout) (i : Nat) :
    Outcome Error Range := do
  let entry ← index layout.entries i
  let content ← entryContentRange w bytes layout i
  let stop ← bindingEnd w bytes layout i entry content.stop
  return { start := entry.localHeaderOffset, stop := stop }

/-! ## Writers -/

section Writers

variable {w} (grow : Nat → Nat)

def writeLocalHeader (out : Buffer w UInt8) (name : List UInt8) (crc size : UInt32)
    (nameLen : UInt16) : Outcome Error (Buffer w UInt8) :=
  [u32ToLe localHeaderSig, u16ToLe 20, u16ToLe 0, u16ToLe 0, u16ToLe 0, u16ToLe 0, u32ToLe crc,
    u32ToLe size, u32ToLe size, u16ToLe nameLen, u16ToLe 0, name].foldlM (extend grow) out

def writeCdHeader (out : Buffer w UInt8) (name : List UInt8) (crc size : UInt32)
    (nameLen : UInt16) (localOff : UInt32) : Outcome Error (Buffer w UInt8) :=
  [u32ToLe cdHeaderSig, u16ToLe 20, u16ToLe 20, u16ToLe 0, u16ToLe 0, u16ToLe 0, u16ToLe 0,
    u32ToLe crc, u32ToLe size, u32ToLe size, u16ToLe nameLen, u16ToLe 0, u16ToLe 0, u16ToLe 0,
    u16ToLe 0, u32ToLe 0, u32ToLe localOff, name].foldlM (extend grow) out

def writeEocd (out : Buffer w UInt8) (totalEntries : UInt16) (cdSize cdStart : UInt32) :
    Outcome Error (Buffer w UInt8) :=
  [u32ToLe eocdSig, u16ToLe 0, u16ToLe 0, u16ToLe totalEntries, u16ToLe totalEntries,
    u32ToLe cdSize, u32ToLe cdStart, u16ToLe 0].foldlM (extend grow) out

end Writers

namespace Zip

variable (grow : Nat → Nat)

/-! ## Inserting -/

def insertZipEntry (bytes : List UInt8) (name : String) (content : List UInt8) :
    Outcome Error (List UInt8) := do
  let layout ← parseLayout w bytes
  let nameB := asBytes name
  let nameLen ← u16TryFrom nameB.length .truncated
  let size ← u32TryFrom content.length .truncated
  let crc := crc32 content
  let manifestLocalOffset ← u32TryFrom layout.cdStart .zip64Unsupported
  let out ← withCapacity w (← add w (← add w bytes.length content.length) 128)
  let out ← extend grow out (← range bytes 0 layout.cdStart)
  let out ← writeLocalHeader grow out nameB crc size nameLen
  let out ← extend grow out content
  let newCdStart ← u32TryFrom out.items.length .zip64Unsupported
  let out ← extend grow out (← range bytes layout.cdStart layout.eocdOffset)
  let out ← writeCdHeader grow out nameB crc size nameLen manifestLocalOffset
  let newCdSize ← u32TryFrom (← sub out.items.length newCdStart.toNat) .truncated
  let totalEntries ← u16TryFrom (← add w layout.entries.length 1) .zip64Unsupported
  let out ← writeEocd grow out totalEntries newCdSize newCdStart
  return out.items

/-! ## The manifest entry -/

def fillManifest (bytes : List UInt8) (name : String) (newContent : List UInt8) :
    Outcome Error (List UInt8) := do
  let layout ← parseLayout w bytes
  let i ← okOr (Zip.entryIndex layout name) .truncated
  let entry ← index layout.entries i
  failIf (entry.method ≠ 0 ∨ entry.flags &&& 1 ≠ 0) .manifestEntryNotStoredOrEncrypted
  let content ← entryContentRange w bytes layout i
  failIf (newContent.length ≠ content.stop - content.start) .truncated
  let out ← copyFrom bytes content.start content.stop newContent
  let crc := crc32 newContent
  let localCrcAt ← add w entry.localHeaderOffset 14
  let cdCrcAt ← add w entry.cdHeaderOffset 16
  let out ← copyFrom out localCrcAt (← add w localCrcAt 4) (u32ToLe crc)
  copyFrom out cdCrcAt (← add w cdCrcAt 4) (u32ToLe crc)

/-- The entry of the loop comes from the iterator, so only its range is found by index. -/
def readManifestEntry (bytes : List UInt8) (name : String) :
    Outcome Error (Option (List UInt8)) := do
  let layout ← parseLayout w bytes
  match Zip.entryIndex layout name with
  | none => return none
  | some i => do
      let entry := layout.entries[i]!
      failIf (entry.method ≠ 0 ∨ entry.flags &&& 1 ≠ 0) .manifestEntryNotStoredOrEncrypted
      let content ← entryContentRange w bytes layout i
      let content ← okOr (getRange bytes content.start content.stop) .truncated
      return some content

/-- Any entry, without the check of its method. -/
def readZipEntryContent (bytes : List UInt8) (name : String) :
    Outcome Error (Option (List UInt8)) := do
  let layout ← parseLayout w bytes
  match Zip.entryIndex layout name with
  | none => return none
  | some i => do
      let content ← entryContentRange w bytes layout i
      let content ← okOr (getRange bytes content.start content.stop) .truncated
      return some content

/-! ## Binding ranges -/

def memberRanges (bytes : List UInt8) : Outcome Error (List (String × Range)) := do
  let layout ← parseLayout w bytes
  (List.range layout.entries.length).mapM fun i => do
    Zip.validateMemberUri (← index layout.entries i).name
    let name := (← index layout.entries i).name
    let member ← entryBindingRange w bytes layout i
    return (name, member)

def centralDirectoryRanges (bytes : List UInt8) : Outcome Error (List Range) := do
  let layout ← parseLayout w bytes
  failIf (layout.cdStart > bytes.length ∨ layout.cdStart > layout.eocdOffset) .badOffset
  match layout.entries.find? fun e => e.name = zipManifestPath with
  | some entry => do
      let crcStart ← add w entry.cdHeaderOffset 16
      let crcEnd ← add w crcStart 4
      return [⟨layout.cdStart, crcStart⟩, ⟨crcEnd, bytes.length⟩]
  | none => return [⟨layout.cdStart, bytes.length⟩]

def centralDirectoryRange (bytes : List UInt8) : Outcome Error Range := do
  let ranges ← centralDirectoryRanges w bytes
  failIf (ranges.length ≠ 1) .nonContiguousCentralDirectoryHash
  index ranges 0

/-! ## Removing -/

/-- One round of the first loop of `remove_zip_entry`. -/
def retainEntry (bytes : List UInt8) (layout : ZipLayout) (name : String)
    (st : Buffer w UInt8 × List (CdEntry × UInt32)) (entry : CdEntry × Nat) :
    Outcome Error (Buffer w UInt8 × List (CdEntry × UInt32)) := do
  let member ← entryBindingRange w bytes layout entry.2
  if entry.1.name = name then
    return st
  else do
    let data ← okOr (getRange bytes member.start member.stop) .truncated
    let newOff ← u32TryFrom st.1.items.length .zip64Unsupported
    let out ← extend grow st.1 data
    return (out, st.2 ++ [(entry.1, newOff)])

/-- One round of the second loop of `remove_zip_entry`. -/
def copyCdHeader (bytes : List UInt8) (out : Buffer w UInt8) (entry : CdEntry × UInt32) :
    Outcome Error (Buffer w UInt8) := do
  let stop ← add w entry.1.cdHeaderOffset entry.1.cdHeaderLen
  let hdr ← okOr (getRange bytes entry.1.cdHeaderOffset stop) .truncated
  let start := out.items.length
  let out ← extend grow out hdr
  out.copyFrom (← add w start 42) (← add w start 46) (u32ToLe entry.2)

def removeZipEntry (bytes : List UInt8) (name : String) : Outcome Error (List UInt8) := do
  let layout ← parseLayout w bytes
  if ¬ layout.entries.any fun e => e.name = name then
    return bytes
  else do
    let out ← withCapacity w bytes.length
    let (out, retained) ←
      layout.entries.zipIdx.foldlM (retainEntry w grow bytes layout name) (out, [])
    let newCdStart ← u32TryFrom out.items.length .zip64Unsupported
    let out ← retained.foldlM (copyCdHeader w grow bytes) out
    let cdSize ← u32TryFrom (← sub out.items.length newCdStart.toNat) .truncated
    let totalEntries ← u16TryFrom retained.length .zip64Unsupported
    let out ← writeEocd grow out totalEntries cdSize newCdStart
    return out.items

end Zip

/-! ## The public API

Growing an output vector is assumed to succeed: it gets the room it needs. -/

def Writer.embedManifest (zip manifestStore : List UInt8) : Outcome Error (List UInt8) := do
  let base ← Zip.removeZipEntry w Buffer.exact zip zipManifestPath
  Zip.insertZipEntry w Buffer.exact base zipManifestPath manifestStore

def Writer.fillManifest (zip finalManifest : List UInt8) : Outcome Error (List UInt8) :=
  Zip.fillManifest w zip zipManifestPath finalManifest

def Writer.removeManifest (zip : List UInt8) : Outcome Error (List UInt8) :=
  Zip.removeZipEntry w Buffer.exact zip zipManifestPath

def Reader.readManifest (zip : List UInt8) : Outcome Error (Option (List UInt8)) :=
  Zip.readManifestEntry w zip zipManifestPath

def Binding.collectionMembers (zip : List UInt8) : Outcome Error (List Binding.Member) := do
  let ranges ← Zip.memberRanges w zip
  return (ranges.filter fun m => m.1 ≠ zipManifestPath).map fun m => ⟨m.1, m.2⟩

def Binding.centralDirectoryRange (zip : List UInt8) : Outcome Error Range :=
  Zip.centralDirectoryRange w zip

def Binding.centralDirectoryRanges (zip : List UInt8) : Outcome Error (List Range) :=
  Zip.centralDirectoryRanges w zip

end C2paZip.Machine
