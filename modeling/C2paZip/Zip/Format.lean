import C2paZip.Library.LittleEndian

/-!
# The ZIP records the crate reads

Errors, constants, checked field readers and the parsed layout of `zip.rs` and `error.rs`. A byte
slice is a `List UInt8`, and a position, a length or a size (`usize`) is a `Nat`: a slice never
exceeds `isize::MAX` bytes and every field is at most 32 bits wide, so on a 64-bit target the
checked `usize` additions of the parser cannot fail, and they are written as `+`.
-/

set_option autoImplicit false

namespace C2paZip

open Library

/-- Errors from reading or writing a ZIP-based document. -/
inductive Error where
  | noEocd
  | truncated
  | zip64Unsupported
  | badOffset
  | nonUtf8Name
  | invalidMemberPath (name : String)
  | malformedDataDescriptor
  | nonContiguousCentralDirectoryHash
  | manifestEntryNotStoredOrEncrypted
  deriving DecidableEq

/-! ## Constants -/

def eocdSig : UInt32 := 0x06054b50
def cdHeaderSig : UInt32 := 0x02014b50
def localHeaderSig : UInt32 := 0x04034b50
def dataDescriptorSig : UInt32 := 0x08074b50

/-- Minimum end-of-central-directory record length (no comment). -/
def eocdMinLen : Nat := 22

/-- Fixed central-directory-header length (before variable name/extra/comment). -/
def cdHeaderFixedLen : Nat := 46

/-- Fixed local-file-header length (before variable name/extra). -/
def localHeaderFixedLen : Nat := 30

/-- Sentinel values indicating a ZIP64 field is in use. -/
def zip64SentinelU32 : UInt32 := 0xFFFFFFFF
def zip64SentinelU16 : UInt16 := 0xFFFF

/-- Location and filename of the manifest store in a ZIP container. -/
def zipManifestPath : String := "META-INF/content_credential.c2pa"

/-! ## Results -/

/-- `return Err(e)` under the condition `c`. -/
def failIf (c : Prop) [Decidable c] (e : Error) : Except Error Unit :=
  if c then .error e else .ok ()

/-- `Option::ok_or`. -/
def okOr {α : Type} (o : Option α) (e : Error) : Except Error α :=
  match o with
  | some a => .ok a
  | none => .error e

/-- `u16::try_from`, with the error the caller maps its failure to. -/
def u16TryFrom (n : Nat) (e : Error) : Except Error UInt16 :=
  if n < 2 ^ 16 then .ok (UInt16.ofNat n) else .error e

/-- `u32::try_from`, with the error the caller maps its failure to. -/
def u32TryFrom (n : Nat) (e : Error) : Except Error UInt32 :=
  if n < 2 ^ 32 then .ok (UInt32.ofNat n) else .error e

section

variable {α β : Type}

@[simp] theorem failIf_eq_ok {c : Prop} [Decidable c] {e : Error} {u : Unit} :
    failIf c e = .ok u ↔ ¬ c := by
  by_cases h : c <;> simp [failIf, h]

@[simp] theorem okOr_eq_ok {o : Option α} {e : Error} {a : α} : okOr o e = .ok a ↔ o = some a := by
  cases o <;> simp [okOr]

@[simp] theorem u16TryFrom_eq_ok {n : Nat} {e : Error} {x : UInt16} :
    u16TryFrom n e = .ok x ↔ n < 2 ^ 16 ∧ UInt16.ofNat n = x := by
  unfold u16TryFrom
  split <;> simp_all

@[simp] theorem u32TryFrom_eq_ok {n : Nat} {e : Error} {x : UInt32} :
    u32TryFrom n e = .ok x ↔ n < 2 ^ 32 ∧ UInt32.ofNat n = x := by
  unfold u32TryFrom
  split <;> simp_all

@[simp] theorem bind_eq_ok {x : Except Error α} {f : α → Except Error β} {b : β} :
    (x >>= f) = .ok b ↔ ∃ a, x = .ok a ∧ f a = .ok b := by
  cases x <;> simp [bind, Except.bind]

@[simp] theorem pure_eq_ok {a b : α} : (pure a : Except Error α) = .ok b ↔ a = b := by
  simp [pure, Except.pure]

end

/-! ## Narrowing -/

theorem u16_toNat_ofNat {n : Nat} (h : n < 2 ^ 16) : (UInt16.ofNat n).toNat = n :=
  UInt16.toNat_ofNat_of_lt' h

theorem u32_toNat_ofNat {n : Nat} (h : n < 2 ^ 32) : (UInt32.ofNat n).toNat = n :=
  UInt32.toNat_ofNat_of_lt' h

/-- A narrowed count is the ZIP64 sentinel only at the limit. -/
theorem u16OfNat_ne_sentinel {n : Nat} (h : n < 2 ^ 16) :
    UInt16.ofNat n ≠ zip64SentinelU16 ↔ n < 65535 := by
  have hmax : zip64SentinelU16.toNat = 65535 := rfl
  rw [ne_eq, ← UInt16.toNat_inj, u16_toNat_ofNat h]
  omega

/-- A narrowed size or offset is the ZIP64 sentinel only at the limit. -/
theorem u32OfNat_ne_sentinel {n : Nat} (h : n < 2 ^ 32) :
    UInt32.ofNat n ≠ zip64SentinelU32 ↔ n < 2 ^ 32 - 1 := by
  have hmax : zip64SentinelU32.toNat = 2 ^ 32 - 1 := rfl
  rw [ne_eq, ← UInt32.toNat_inj, u32_toNat_ofNat h]
  omega

/-! ## Field readers -/

/-- The little-endian `u16` at `pos`. -/
def readU16 (buf : List UInt8) (pos : Nat) : Except Error UInt16 :=
  okOr ((getRange buf pos (pos + 2)).map u16FromLe) .truncated

/-- The little-endian `u32` at `pos`. -/
def readU32 (buf : List UInt8) (pos : Nat) : Except Error UInt32 :=
  okOr ((getRange buf pos (pos + 4)).map u32FromLe) .truncated

@[simp] theorem readU16_eq_ok {buf : List UInt8} {pos : Nat} {x : UInt16} :
    readU16 buf pos = .ok x ↔ pos + 2 ≤ buf.length ∧ u16At buf pos = x := by
  simp [readU16, getRange_eq_some, u16At]

@[simp] theorem readU32_eq_ok {buf : List UInt8} {pos : Nat} {x : UInt32} :
    readU32 buf pos = .ok x ↔ pos + 4 ≤ buf.length ∧ u32At buf pos = x := by
  simp [readU32, getRange_eq_some, u32At]

/-- `str::from_utf8`, as an owned string. -/
def fromUtf8 (bs : List UInt8) : Option String := String.fromUTF8? ⟨bs.toArray⟩

/-- `str::as_bytes`. -/
def asBytes (s : String) : List UInt8 := s.toByteArray.data.toList

theorem fromUtf8_eq_some {bs : List UInt8} {s : String} :
    fromUtf8 bs = some s ↔ asBytes s = bs := by
  unfold fromUtf8 String.fromUTF8? asBytes
  constructor
  · intro h
    split at h
    · obtain rfl := Option.some.inj h
      simp [String.fromUTF8]
    · cases h
  · rintro rfl
    have hs : (⟨s.toByteArray.data.toList.toArray⟩ : ByteArray) = s.toByteArray := by simp
    simp only [hs]
    rw [dif_pos s.isValidUTF8]
    rfl

theorem asBytes_injective : Function.Injective asBytes := by
  intro s t h
  have hs := fromUtf8_eq_some.2 h
  rw [fromUtf8_eq_some.2 (rfl : asBytes t = asBytes t)] at hs
  exact (Option.some.inj hs).symm

theorem length_manifestPath : (asBytes zipManifestPath).length = 32 := by decide +kernel

theorem manifestPath_lt : (asBytes zipManifestPath).length < 2 ^ 16 := by
  rw [length_manifestPath]
  decide

/-! ## The parsed layout -/

/-- A half-open byte range. -/
structure Range where
  start : Nat
  stop : Nat
  deriving DecidableEq

/-- A parsed central-directory entry: its name, local-header offset, and the byte range of its own
central-directory header. -/
structure CdEntry where
  name : String
  flags : UInt16
  method : UInt16
  crc32 : UInt32
  compressedSize : Nat
  uncompressedSize : Nat
  localHeaderOffset : Nat
  cdHeaderOffset : Nat
  cdHeaderLen : Nat
  deriving DecidableEq, Inhabited

/-- Parsed ZIP layout: entries (sorted by local-header offset) and the offsets of the central
directory and the end-of-central-directory record. -/
structure ZipLayout where
  entries : List CdEntry
  cdStart : Nat
  eocdOffset : Nat
  deriving DecidableEq

end C2paZip
