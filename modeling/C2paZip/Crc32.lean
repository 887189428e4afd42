import C2paZip.Library.Crc
import C2paZip.Zip.Edit

/-!
# The CRC of an entry

`crc32` keeps its remainder in a reflected register and starts from all ones. Its inner loop is a
step of the shift register with taps `0xEDB88320` (`crc32Bit_toBitVec`) and its outer loop feeds one
byte, lowest bit first (`crc32Byte_toBitVec`), so the function divides the message by
`crcGenerator`.

- `crc32_eq_remainder`: the checksum is the complement of the reversed remainder.
-/

set_option autoImplicit false

namespace C2paZip

open Library Polynomial

/-- The generator polynomial of the ZIP checksum. -/
noncomputable def crcGenerator : (ZMod 2)[X] :=
  X ^ 32 + X ^ 26 + X ^ 23 + X ^ 22 + X ^ 16 + X ^ 12 + X ^ 11 + X ^ 10 + X ^ 8 + X ^ 7 + X ^ 5 +
    X ^ 4 + X ^ 2 + X + 1

/-- The bits of a message, each byte's lowest bit first. -/
def messageBits (data : List UInt8) : List Bool :=
  data.flatMap fun byte => lowBitsFirst byte.toBitVec

/-- The taps `0xEDB88320` are the generator without its leading term, highest coefficient first. -/
theorem crcGenerator_eq : crcGenerator = generator 0xEDB88320#32 := by
  have hrev : (0xEDB88320#32).reverse = 0x04C11DB7#32 := by decide +kernel
  have htaps : wordPoly 0x04C11DB7#32 = 1 + X + X ^ 2 + X ^ 4 + X ^ 5 + X ^ 7 + X ^ 8 + X ^ 10 +
      X ^ 11 + X ^ 12 + X ^ 16 + X ^ 22 + X ^ 23 + X ^ 26 := by
    simp [wordPoly, Finset.sum_range_succ, ← C_mul_X_pow_eq_monomial]
  rw [crcGenerator, generator, registerPoly, hrev, htaps]
  ring

theorem monic_crcGenerator : crcGenerator.Monic := crcGenerator_eq ▸ monic_generator _

/-! ## The loops of `crc32` -/

/-- The mask of the inner loop selects the taps exactly when the low bit is set. -/
theorem taps_and_mask (crc : BitVec 32) :
    0xEDB88320#32 &&& -(crc &&& 1#32) = if crc.getLsbD 0 then 0xEDB88320#32 else 0#32 := by
  rw [BitVec.and_one_eq_setWidth_ofBool_getLsbD]
  cases crc.getLsbD 0 <;> rfl

theorem crc32Bit_toBitVec (crc : UInt32) :
    (crc32Bit crc).toBitVec = lfsrStep 0xEDB88320#32 crc.toBitVec := by
  rw [lfsrStep, ← taps_and_mask]
  rfl

theorem crc32Byte_toBitVec (crc : UInt32) (byte : UInt8) :
    (crc32Byte crc byte).toBitVec = lfsrChunk 0xEDB88320#32 crc.toBitVec byte.toBitVec := by
  have hstep : Function.Semiconj UInt32.toBitVec crc32Bit (lfsrStep 0xEDB88320#32) :=
    crc32Bit_toBitVec
  rw [crc32Byte, hstep.iterate_right 8, lfsrChunk, UInt32.toBitVec_xor, UInt8.toBitVec_toUInt32]

theorem foldl_crc32Byte_toBitVec (data : List UInt8) (crc : UInt32) :
    (data.foldl crc32Byte crc).toBitVec =
      (data.map UInt8.toBitVec).foldl (lfsrChunk 0xEDB88320#32) crc.toBitVec := by
  induction data generalizing crc with
  | nil => rfl
  | cons byte data ih =>
      rw [List.foldl_cons, ih, crc32Byte_toBitVec, List.map_cons, List.foldl_cons]

/-! ## The checksum -/

/-- **The checksum of `data` is the complement of the reversed remainder** of the message shifted by
32 plus the initial ones shifted by the length of the message. -/
theorem crc32_eq_remainder (data : List UInt8) :
    (crc32 data).toBitVec =
      ~~~(coeffWord 32 ((bitsPoly (messageBits data) * X ^ 32 +
        X ^ (8 * data.length) * ∑ i ∈ Finset.range 32, X ^ i) %ₘ crcGenerator)).reverse := by
  have hones : (0xFFFFFFFF : UInt32).toBitVec = BitVec.allOnes 32 := rfl
  rw [crc32, UInt32.toBitVec_not, foldl_crc32Byte_toBitVec, foldl_lfsrChunk _ (by decide), hones,
    registerPoly_allOnes, List.flatMap_map, List.length_map, crcGenerator_eq, messageBits]

/-- The check value of CRC-32, the checksum of the digits from 1 to 9. -/
example : crc32 [0x31, 0x32, 0x33, 0x34, 0x35, 0x36, 0x37, 0x38, 0x39] = 0xCBF43926 := by
  decide +kernel

end C2paZip
