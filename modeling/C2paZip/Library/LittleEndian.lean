import C2paZip.Library.Slice
import Mathlib.Tactic.Ring

/-!
# Little-endian fields

Sixteen- and thirty-two-bit words as little-endian bytes. `u16At bs pos` and `u32At bs pos` are
total readers: the value of the bytes standing at `pos`, meaningful where the field lies inside
`bs`. A field depends on its own slice only (`u16At_congr`, `u32At_congr`), so a reader moves
through concatenations, slices and writes together with `slice`.
-/

set_option autoImplicit false

namespace C2paZip.Library

/-- The number with the given little-endian bytes. -/
def fromLe : List UInt8 → Nat
  | [] => 0
  | b :: bs => b.toNat + 256 * fromLe bs

/-- The `w` low bytes of `n`, least significant first. -/
def toLe : Nat → Nat → List UInt8
  | 0, _ => []
  | w + 1, n => UInt8.ofNat n :: toLe w (n / 256)

theorem length_toLe (w n : Nat) : (toLe w n).length = w := by
  induction w generalizing n with
  | zero => rfl
  | succ w ih => rw [toLe, List.length_cons, ih]

theorem fromLe_lt (bs : List UInt8) : fromLe bs < 256 ^ bs.length := by
  induction bs with
  | nil => exact Nat.one_pos
  | cons b bs ih =>
      have hb : b.toNat < 256 := b.toNat_lt
      rw [fromLe, List.length_cons, Nat.pow_succ]
      omega

theorem fromLe_toLe (w n : Nat) : fromLe (toLe w n) = n % 256 ^ w := by
  induction w generalizing n with
  | zero => rw [toLe, fromLe, Nat.pow_zero, Nat.mod_one]
  | succ w ih =>
      have hb : (UInt8.ofNat n).toNat = n % 256 := UInt8.toNat_ofNat'
      rw [toLe, fromLe, ih, hb, Nat.pow_succ, Nat.mul_comm (256 ^ w), Nat.mod_mul]

theorem toLe_fromLe (bs : List UInt8) : toLe bs.length (fromLe bs) = bs := by
  induction bs with
  | nil => rfl
  | cons b bs ih =>
      have hb : b.toNat < 256 := b.toNat_lt
      -- The low byte and the rest, separated.
      have hdiv : (b.toNat + 256 * fromLe bs) / 256 = fromLe bs := by omega
      have hmod : (b.toNat + 256 * fromLe bs) % 256 = b.toNat := by omega
      have hbyte : UInt8.ofNat (b.toNat + 256 * fromLe bs) = b :=
        UInt8.toNat_inj.1 (by rw [UInt8.toNat_ofNat', hmod])
      rw [List.length_cons, fromLe, toLe, hdiv, ih, hbyte]

/-! ## Words -/

/-- `u16::to_le_bytes`. -/
def u16ToLe (x : UInt16) : List UInt8 := toLe 2 x.toNat

/-- `u32::to_le_bytes`. -/
def u32ToLe (x : UInt32) : List UInt8 := toLe 4 x.toNat

/-- `u16::from_le_bytes`. -/
def u16FromLe (bs : List UInt8) : UInt16 := UInt16.ofNat (fromLe bs)

/-- `u32::from_le_bytes`. -/
def u32FromLe (bs : List UInt8) : UInt32 := UInt32.ofNat (fromLe bs)

/-- The sixteen-bit field at `pos`. -/
def u16At (bs : List UInt8) (pos : Nat) : UInt16 := u16FromLe (slice bs pos 2)

/-- The thirty-two-bit field at `pos`. -/
def u32At (bs : List UInt8) (pos : Nat) : UInt32 := u32FromLe (slice bs pos 4)

@[simp] theorem length_u16ToLe (x : UInt16) : (u16ToLe x).length = 2 := length_toLe 2 _

@[simp] theorem length_u32ToLe (x : UInt32) : (u32ToLe x).length = 4 := length_toLe 4 _

@[simp] theorem u16FromLe_u16ToLe (x : UInt16) : u16FromLe (u16ToLe x) = x := by
  have hx : x.toNat < 256 ^ 2 := x.toNat_lt
  rw [u16FromLe, u16ToLe, fromLe_toLe, Nat.mod_eq_of_lt hx, UInt16.ofNat_toNat]

@[simp] theorem u32FromLe_u32ToLe (x : UInt32) : u32FromLe (u32ToLe x) = x := by
  have hx : x.toNat < 256 ^ 4 := x.toNat_lt
  rw [u32FromLe, u32ToLe, fromLe_toLe, Nat.mod_eq_of_lt hx, UInt32.ofNat_toNat]

theorem u32ToLe_u32FromLe {bs : List UInt8} (h : bs.length = 4) : u32ToLe (u32FromLe bs) = bs := by
  have hlt : fromLe bs < 2 ^ 32 := by
    have := fromLe_lt bs
    rwa [h] at this
  have hbs := toLe_fromLe bs
  rw [h] at hbs
  rw [u32ToLe, u32FromLe, UInt32.toNat_ofNat_of_lt' hlt, hbs]

/-! ## Fields of slices, concatenations and writes -/

section Fields

variable {xs ys zs : List UInt8} {p q n : Nat}

theorem u16At_congr (h : slice xs p 2 = slice ys q 2) : u16At xs p = u16At ys q := by
  rw [u16At, h, u16At]

theorem u32At_congr (h : slice xs p 4 = slice ys q 4) : u32At xs p = u32At ys q := by
  rw [u32At, h, u32At]

theorem u16At_slice {i : Nat} (h : i + 2 ≤ n) : u16At (slice xs p n) i = u16At xs (p + i) :=
  u16At_congr (slice_slice h)

theorem u32At_slice {i : Nat} (h : i + 4 ≤ n) : u32At (slice xs p n) i = u32At xs (p + i) :=
  u32At_congr (slice_slice h)

theorem u16At_drop (k i : Nat) : u16At (xs.drop k) i = u16At xs (k + i) :=
  u16At_congr (slice_drop xs k i 2)

theorem u32At_drop (k i : Nat) : u32At (xs.drop k) i = u32At xs (k + i) :=
  u32At_congr (slice_drop xs k i 4)

theorem u16At_append_left (h : p + 2 ≤ xs.length) : u16At (xs ++ ys) p = u16At xs p :=
  u16At_congr (slice_append_left h)

theorem u32At_append_left (h : p + 4 ≤ xs.length) : u32At (xs ++ ys) p = u32At xs p :=
  u32At_congr (slice_append_left h)

theorem u16At_append_right : u16At (xs ++ ys) (xs.length + p) = u16At ys p :=
  u16At_congr (slice_append_right xs ys p 2)

theorem u32At_append_right : u32At (xs ++ ys) (xs.length + p) = u32At ys p :=
  u32At_congr (slice_append_right xs ys p 4)

theorem u16At_append_of_le (h : xs.length ≤ p) : u16At (xs ++ ys) p = u16At ys (p - xs.length) :=
  u16At_congr (slice_append_of_le 2 h)

theorem u32At_append_of_le (h : xs.length ≤ p) : u32At (xs ++ ys) p = u32At ys (p - xs.length) :=
  u32At_congr (slice_append_of_le 4 h)

@[simp] theorem u16At_u16ToLe_append (x : UInt16) : u16At (u16ToLe x ++ ys) 0 = x := by
  have h := slice_append_zero (u16ToLe x) ys
  rw [length_u16ToLe] at h
  rw [u16At, h, u16FromLe_u16ToLe]

theorem u32At_u32ToLe_append (x : UInt32) : u32At (u32ToLe x ++ ys) 0 = x := by
  have h := slice_append_zero (u32ToLe x) ys
  rw [length_u32ToLe] at h
  rw [u32At, h, u32FromLe_u32ToLe]

theorem u16At_u16ToLe (x : UInt16) : u16At (u16ToLe x) 0 = x := by
  have h : u16At (u16ToLe x ++ []) 0 = x := u16At_u16ToLe_append x
  rwa [List.append_nil] at h

/-- The second byte counts 256 times. -/
theorem le_u16At {b : UInt8} (h : xs[p + 1]? = some b) : 256 * b.toNat ≤ (u16At xs p).toNat := by
  obtain ⟨hlt, hb⟩ := List.getElem?_eq_some_iff.1 h
  have hslice : slice xs p 2 = [xs[p], b] := by
    rw [slice, List.drop_eq_getElem_cons (by omega), List.drop_eq_getElem_cons hlt, hb]
    rfl
  have ha := (xs[p]).toNat_lt
  have hb' := b.toNat_lt
  rw [u16At, hslice, u16FromLe, UInt16.toNat_ofNat', fromLe, fromLe, fromLe]
  omega

theorem u16At_overwrite_self {x : UInt16} (h : p ≤ xs.length) :
    u16At (overwrite xs p (u16ToLe x)) p = x := by
  have hs : slice (overwrite xs p (u16ToLe x)) p (u16ToLe x).length = _ := slice_overwrite_self h
  rw [length_u16ToLe] at hs
  rw [u16At, hs, u16FromLe_u16ToLe]

theorem u32At_overwrite_self {x : UInt32} (h : p ≤ xs.length) :
    u32At (overwrite xs p (u32ToLe x)) p = x := by
  have hs : slice (overwrite xs p (u32ToLe x)) p (u32ToLe x).length = _ := slice_overwrite_self h
  rw [length_u32ToLe] at hs
  rw [u32At, hs, u32FromLe_u32ToLe]

/-- The four bytes of a field are the little-endian bytes of its value. -/
theorem u32ToLe_u32At (h : p + 4 ≤ xs.length) : u32ToLe (u32At xs p) = slice xs p 4 :=
  u32ToLe_u32FromLe (length_slice h)

end Fields

end C2paZip.Library
