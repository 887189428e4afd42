import C2paZip.Library.StableSort
import C2paZip.Zip.Format

/-!
# Locating and walking the central directory

`find_eocd` and `parse_layout` of `zip.rs`. The backward scan is a recursion on the number of
positions left to try, the walk over the directory headers a recursion on the number of headers
left, with the loop body as `readCdHeader`.
-/

set_option autoImplicit false

namespace C2paZip

open Library

/-- The loop of `find_eocd`: tries `scanStart + k - 1` down to `scanStart`. -/
def scanEocd (bytes : List UInt8) (scanStart : Nat) : Nat → Except Error Nat
  | 0 => .error .noEocd
  | k + 1 => do
      let pos := scanStart + k
      -- A whole record fits behind `pos`, so neither read is past the end.
      let sig ← readU32 bytes pos
      if sig = eocdSig then
        -- The comment length must match the remaining bytes.
        let commentLen ← readU16 bytes (pos + 20)
        if pos + eocdMinLen + commentLen.toNat = bytes.length then
          return pos
        else
          scanEocd bytes scanStart k
      else
        scanEocd bytes scanStart k

/-- Locate the EOCD by scanning backwards for its signature, tolerating a trailing ZIP comment of
up to 65535 bytes. -/
def findEocd (bytes : List UInt8) : Except Error Nat :=
  if bytes.length < eocdMinLen then
    .error .noEocd
  else
    -- Truncated subtraction is `saturating_sub`.
    let scanStart := bytes.length - (eocdMinLen + 0xFFFF)
    scanEocd bytes scanStart (bytes.length - eocdMinLen + 1 - scanStart)

/-- One round of the directory walk: the header at `cursor` and the position behind it. -/
def readCdHeader (bytes : List UInt8) (eocd cdStart cursor : Nat) :
    Except Error (CdEntry × Nat) := do
  let sig ← readU32 bytes cursor
  failIf (sig ≠ cdHeaderSig) .truncated
  let nameLen ← readU16 bytes (cursor + 28)
  let extraLen ← readU16 bytes (cursor + 30)
  let comment ← readU16 bytes (cursor + 32)
  let localOff ← readU32 bytes (cursor + 42)
  let flags ← readU16 bytes (cursor + 8)
  let method ← readU16 bytes (cursor + 10)
  let crc32 ← readU32 bytes (cursor + 16)
  let compressedSize ← readU32 bytes (cursor + 20)
  let uncompressedSize ← readU32 bytes (cursor + 24)
  -- ZIP64 fields are rejected before the name is read.
  failIf (localOff = zip64SentinelU32) .zip64Unsupported
  failIf (compressedSize = zip64SentinelU32 ∨ uncompressedSize = zip64SentinelU32)
    .zip64Unsupported
  let nameStart := cursor + cdHeaderFixedLen
  let nameEnd := nameStart + nameLen.toNat
  let nameBytes ← okOr (getRange bytes nameStart nameEnd) .truncated
  let name ← okOr (fromUtf8 nameBytes) .nonUtf8Name
  -- A local header behind the directory start is rejected, a shared or overlapping one is not.
  failIf (localOff.toNat ≥ cdStart) .badOffset
  let next := nameEnd + extraLen.toNat + comment.toNat
  failIf (next > eocd) .truncated
  return ({ name := name
            flags := flags
            method := method
            crc32 := crc32
            compressedSize := compressedSize.toNat
            uncompressedSize := uncompressedSize.toNat
            localHeaderOffset := localOff.toNat
            cdHeaderOffset := cursor
            cdHeaderLen := next - cursor }, next)

/-- The directory walk over the next `n` headers. -/
def walkHeaders (bytes : List UInt8) (eocd cdStart : Nat) : Nat → Nat → Except Error (List CdEntry)
  | 0, _ => .ok []
  | n + 1, cursor => do
      let (entry, next) ← readCdHeader bytes eocd cdStart cursor
      let entries ← walkHeaders bytes eocd cdStart n next
      return entry :: entries

def parseLayout (bytes : List UInt8) : Except Error ZipLayout := do
  let eocd ← findEocd bytes
  let totalEntries ← readU16 bytes (eocd + 10)
  let cdSize ← readU32 bytes (eocd + 12)
  let cdOffset ← readU32 bytes (eocd + 16)
  let commentLen ← readU16 bytes (eocd + 20)
  failIf (totalEntries = zip64SentinelU16 ∨ cdSize = zip64SentinelU32 ∨
    cdOffset = zip64SentinelU32) .zip64Unsupported
  let cdStart := cdOffset.toNat
  failIf (cdStart > eocd ∨ eocd + eocdMinLen + commentLen.toNat > bytes.length) .badOffset
  let entries ← walkHeaders bytes eocd cdStart totalEntries.toNat cdStart
  -- Sorted, so that each entry's byte range ends at the next entry's local header.
  return { entries := sortByKey CdEntry.localHeaderOffset entries
           cdStart := cdStart
           eocdOffset := eocd }

/-! ## Entry ranges -/

/-- End of the room of entry `i`: the next entry's local header, or the central directory. -/
def entryBoundary (layout : ZipLayout) (i : Nat) : Nat :=
  (layout.entries[i + 1]?.map CdEntry.localHeaderOffset).getD layout.cdStart

/-- Byte range of an entry's stored content, after its local header, in a room that ends at
`boundary`. -/
def contentRange (bytes : List UInt8) (entry : CdEntry) (boundary : Nat) : Except Error Range := do
  let lh := entry.localHeaderOffset
  let sig ← readU32 bytes lh
  failIf (sig ≠ localHeaderSig) .truncated
  let localFlags ← readU16 bytes (lh + 6)
  -- The local header must agree in the flags; its method, CRC and sizes are not compared here.
  failIf (localFlags ≠ entry.flags) .badOffset
  let nameLen ← readU16 bytes (lh + 26)
  let extraLen ← readU16 bytes (lh + 28)
  let start := lh + localHeaderFixedLen + nameLen.toNat + extraLen.toNat
  let stop := start + entry.compressedSize
  failIf (stop > boundary) .badOffset
  failIf (stop > bytes.length) .truncated
  return { start := start, stop := stop }

/-- Byte range of entry `i`'s stored content, after its local header. -/
def entryContentRange (bytes : List UInt8) (layout : ZipLayout) (i : Nat) : Except Error Range :=
  contentRange bytes layout.entries[i]! (entryBoundary layout i)

/-- The `if` of `entry_binding_range`: the end of the binding range of an entry whose content ends
at `stop`. -/
def bindingEnd (bytes : List UInt8) (entry : CdEntry) (boundary stop : Nat) : Except Error Nat :=
  if entry.flags &&& 0x0008 ≠ 0 then do
    -- The signature of a descriptor is optional.
    let stop := if readU32 bytes stop = .ok dataDescriptorSig then stop + 4 else stop
    let descriptorEnd := stop + 12
    failIf (descriptorEnd > boundary) .malformedDataDescriptor
    -- The three comparisons are one `||` chain in the source: a later field is read only
    -- where the earlier ones agree.
    let crc ← readU32 bytes stop
    failIf (crc ≠ entry.crc32) .malformedDataDescriptor
    let compressed ← readU32 bytes (stop + 4)
    failIf (compressed.toNat ≠ entry.compressedSize) .malformedDataDescriptor
    let uncompressed ← readU32 bytes (stop + 8)
    failIf (uncompressed.toNat ≠ entry.uncompressedSize) .malformedDataDescriptor
    return descriptorEnd
  else do
    -- Without bit 3 the local header itself records CRC and sizes.
    let crc ← readU32 bytes (entry.localHeaderOffset + 14)
    failIf (crc ≠ entry.crc32) .badOffset
    let compressed ← readU32 bytes (entry.localHeaderOffset + 18)
    failIf (compressed.toNat ≠ entry.compressedSize) .badOffset
    let uncompressed ← readU32 bytes (entry.localHeaderOffset + 22)
    failIf (uncompressed.toNat ≠ entry.uncompressedSize) .badOffset
    return stop

/-- The member binding range of an entry in a room that ends at `boundary`: local header,
name/extra fields, compressed file data, and the data descriptor when general-purpose bit 3 is
set. -/
def bindingRange (bytes : List UInt8) (entry : CdEntry) (boundary : Nat) : Except Error Range := do
  let content ← contentRange bytes entry boundary
  let stop ← bindingEnd bytes entry boundary content.stop
  return { start := entry.localHeaderOffset, stop := stop }

/-- The member binding range of entry `i`. -/
def entryBindingRange (bytes : List UInt8) (layout : ZipLayout) (i : Nat) : Except Error Range :=
  bindingRange bytes layout.entries[i]! (entryBoundary layout i)

end C2paZip
