import C2paZip.Zip.Build
import C2paZip.Archive.Directory

/-!
# The backward scan

What `find_eocd` returns, over the whole input, and what follows for a comment put behind an
archive without one: the layout stays unless the comment completes a record behind the true one
(`scan_complete`).
-/

set_option autoImplicit false

namespace C2paZip

open Library

/-- The input `z` with the comment `c` behind its EOCD record at `eocd`, and the comment length of
the record set. -/
def withComment (z : List UInt8) (eocd : Nat) (c : List UInt8) : List UInt8 :=
  overwrite z (eocd + 20) (u16ToLe (UInt16.ofNat c.length)) ++ c

/-- A comment goes into the record of an archive and nowhere else. -/
theorem withComment_bytes (A : Archive) (c : List UInt8) :
    withComment A.bytes A.eocdOffset c =
      (A.data ++ (dirBytes A.headers ++ A.gap)) ++ withComment A.eocd 0 c := by
  have hlen : (A.data ++ (dirBytes A.headers ++ A.gap)).length = A.eocdOffset := by
    simp only [List.length_append, Archive.eocdOffset, Nat.add_assoc]
  rw [withComment, A.bytes_eq_append_eocd, ← hlen, overwrite_append_right, List.append_assoc,
    withComment, Nat.zero_add]

/-- The fields in front of the comment length stay. -/
theorem slice_withComment {e c : List UInt8} {p n : Nat} (hlen : e.length = 22) (hp : p + n ≤ 20) :
    slice (withComment e 0 c) p n = slice e p n := by
  have hover : (overwrite e (0 + 20) (u16ToLe (UInt16.ofNat c.length))).length = 22 := by
    rw [length_overwrite (by rw [length_u16ToLe, hlen]), hlen]
  rw [withComment, slice_append_left (by omega)]
  exact slice_overwrite_before (by omega) (by omega)

/-- A record without a comment is one with the comment, too. -/
theorem isEocdAt_withComment {e c : List UInt8} (he : IsEocdAt e 0) (hlen : e.length = 22)
    (hc : c.length ≤ 65535) : IsEocdAt (withComment e 0 c) 0 := by
  have hover : (overwrite e 20 (u16ToLe (UInt16.ofNat c.length))).length = 22 := by
    rw [length_overwrite (by rw [length_u16ToLe, hlen]), hlen]
  have hsig : u32At (withComment e 0 c) 0 = u32At e 0 :=
    u32At_congr (slice_withComment hlen (by omega))
  have hlen16 : u16At (withComment e 0 c) 20 = UInt16.ofNat c.length := by
    rw [withComment, u16At_append_left (by rw [hover])]
    exact u16At_overwrite_self (by omega)
  have hall : (withComment e 0 c).length = 22 + c.length := by
    rw [withComment, List.length_append, hover]
  refine ⟨?_, hsig.trans he.2.1, ?_⟩
  · rw [hall]
    exact Nat.le_add_right 22 _
  · rw [hlen16, u16_toNat_ofNat (by omega), hall]
    rfl

/-- **A comment keeps the layout of an archive** exactly where it completes no later record. -/
theorem parseLayout_withComment (A : Archive) {c : List UInt8} (hlen : A.eocd.length = 22)
    (hc : c.length ≤ 65535) :
    parseLayout (withComment A.bytes A.eocdOffset c) = .ok A.layout ↔
      ∀ q, A.eocdOffset < q → ¬ IsEocdAt (withComment A.bytes A.eocdOffset c) q := by
  have hfront : (A.data ++ (dirBytes A.headers ++ A.gap)).length = A.eocdOffset := by
    simp only [List.length_append, Archive.eocdOffset, Nat.add_assoc]
  constructor
  · -- The layout names the record the scan found, the last one.
    intro hparse
    obtain ⟨eocd, es, hfind, -, -, -, -, -, hL⟩ := parseLayout_eq_ok.1 hparse
    have heq : A.eocdOffset = eocd := congrArg ZipLayout.eocdOffset hL
    rw [← heq] at hfind
    exact (findEocd_eq_ok.1 hfind).2
  · intro hlast
    -- Fields in front of the comment length are those of the old record.
    have h10 : u16At (withComment A.eocd 0 c) 10 = u16At A.eocd 10 :=
      u16At_congr (slice_withComment hlen (by omega))
    have h12 : u32At (withComment A.eocd 0 c) 12 = u32At A.eocd 12 :=
      u32At_congr (slice_withComment hlen (by omega))
    have h16 : u32At (withComment A.eocd 0 c) 16 = u32At A.eocd 16 :=
      u32At_congr (slice_withComment hlen (by omega))
    have hrec : ∀ q, 0 < q → ¬ IsEocdAt (withComment A.eocd 0 c) q := by
      intro q hq hrec
      rw [withComment_bytes] at hlast
      refine hlast (A.eocdOffset + q) (by omega) ?_
      rw [← hfront, isEocdAt_append]
      exact hrec
    let B : Archive :=
      { A with
        eocd := withComment A.eocd 0 c
        eocd_at := isEocdAt_withComment A.eocd_at hlen hc
        eocd_last := hrec
        total_eq := by rw [h10]; exact A.total_eq
        total_ne := by rw [h10]; exact A.total_ne
        size_ne := by rw [h12]; exact A.size_ne
        offset_eq := by rw [h16]; exact A.offset_eq
        offset_ne := by rw [h16]; exact A.offset_ne }
    have hB : B.bytes = withComment A.bytes A.eocdOffset c := by
      rw [withComment_bytes]
      exact B.bytes_eq_append_eocd
    rw [← hB]
    exact B.parseLayout_bytes

/-- **The bounded backward scan misses nothing.** It returns the greatest position of the whole
input at which a record ends with the input, and fails with `noEocd` exactly where there is none. A
comment of up to 65535 bytes behind an archive without one leaves the layout alone unless some
position behind the EOCD record is a record position then. -/
theorem scan_complete (z : List UInt8) :
    (∀ p, findEocd z = .ok p ↔ IsEocdAt z p ∧ ∀ q, p < q → ¬ IsEocdAt z q) ∧
      (findEocd z = .error .noEocd ↔ ∀ p, ¬ IsEocdAt z p) ∧
      (∀ e, findEocd z = .error e → e = .noEocd) ∧
      ∀ L c, parseLayout z = .ok L → L.eocdOffset + eocdMinLen = z.length → c.length ≤ 65535 →
        (parseLayout (withComment z L.eocdOffset c) = .ok L ↔
          ∀ q, L.eocdOffset < q → ¬ IsEocdAt (withComment z L.eocdOffset c) q) := by
  refine ⟨fun p => findEocd_eq_ok, ?_, fun e h => (findEocd_eq_error.1 h).1, ?_⟩
  · rw [findEocd_eq_error]
    exact and_iff_right rfl
  · intro L c hparse hbare hc
    obtain ⟨A, rfl, rfl⟩ := exists_archive_of_parseLayout hparse
    have hsum := A.eocdOffset_add_length
    have hlen : A.eocd.length = 22 := by
      rw [Archive.layout_eocdOffset, eocdMinLen] at hbare
      omega
    exact parseLayout_withComment A hlen hc

/-- One comment byte behind the empty archive. -/
theorem scan_complete_one_byte :
    parseLayout (withComment (writeEocd [] 0 0 0) 0 [7]) = .ok ⟨[], 0, 0⟩ := by
  obtain ⟨-, -, -, hcomment⟩ := scan_complete (writeEocd [] 0 0 0)
  refine (hcomment ⟨[], 0, 0⟩ [7] (by decide +kernel) (by decide +kernel) (by decide)).2 ?_
  intro q hq hrec
  have hlen : (withComment (writeEocd [] 0 0 0) 0 [7]).length = 23 := by decide +kernel
  have hle : q + 22 ≤ 23 := hlen ▸ hrec.1
  -- Only the position 1 is left, and the second byte of the signature stands there.
  have hq1 : q = 1 := by
    simp only at hq
    omega
  rw [hq1] at hrec
  exact absurd hrec (by decide +kernel)

end C2paZip
