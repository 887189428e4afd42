import C2paZip.Zip.Layout

/-!
# The end-of-central-directory record

`IsEocdAt bytes pos` is the condition the backward scan tests: the record signature at `pos` and a
comment that ends with the input. The scan returns the greatest such position of the whole input
(`findEocd_eq_ok`), although it looks at the last 65557 bytes only: a comment length is a
sixteen-bit field, so no earlier position can meet the condition. The condition at `pos` depends on
the bytes from `pos` on and on nothing before (`isEocdAt_append`).
-/

set_option autoImplicit false

namespace C2paZip

open Library

/-- An end-of-central-directory record stands at `pos` and its comment ends with `bytes`. -/
def IsEocdAt (bytes : List UInt8) (pos : Nat) : Prop :=
  pos + eocdMinLen ≤ bytes.length ∧ u32At bytes pos = eocdSig ∧
    pos + eocdMinLen + (u16At bytes (pos + 20)).toNat = bytes.length

instance (bytes : List UInt8) (pos : Nat) : Decidable (IsEocdAt bytes pos) := by
  unfold IsEocdAt
  infer_instance

/-- The record condition does not look at the bytes before the record. -/
theorem isEocdAt_append (xs ys : List UInt8) (pos : Nat) :
    IsEocdAt (xs ++ ys) (xs.length + pos) ↔ IsEocdAt ys pos := by
  have h16 : u16At (xs ++ ys) (xs.length + pos + 20) = u16At ys (pos + 20) := by
    rw [Nat.add_assoc, u16At_append_right]
  unfold IsEocdAt
  rw [u32At_append_right, h16, List.length_append]
  refine and_congr ?_ (and_congr Iff.rfl ?_) <;> omega

/-- **An EOCD record is the last suffix of its kind**, so equal inputs end with equal records. -/
theorem eocd_unique {xs ys e e' : List UInt8} (he : IsEocdAt e 0)
    (hlast : ∀ q, 0 < q → ¬ IsEocdAt e q) (he' : IsEocdAt e' 0)
    (hlast' : ∀ q, 0 < q → ¬ IsEocdAt e' q) (heq : xs ++ e = ys ++ e') : e = e' ∧ xs = ys := by
  rcases List.append_eq_append_iff.1 heq with ⟨zs, rfl, h⟩ | ⟨zs, rfl, h⟩
  · cases zs with
    | nil => exact ⟨by simpa using h, by simp⟩
    | cons z zs =>
        -- The shorter record would stand inside the longer one.
        have hrec := (isEocdAt_append (z :: zs) e' 0).2 he'
        rw [← h] at hrec
        exact absurd hrec (hlast _ (by simp))
  · cases zs with
    | nil => exact ⟨by simpa using h.symm, by simp⟩
    | cons z zs =>
        have hrec := (isEocdAt_append (z :: zs) e 0).2 he
        rw [← h] at hrec
        exact absurd hrec (hlast' _ (by simp))

/-- One round of the scan: it stops at a record and passes on otherwise. -/
theorem scanEocd_succ {bytes : List UInt8} {scanStart k : Nat}
    (hk : scanStart + k + eocdMinLen ≤ bytes.length) :
    scanEocd bytes scanStart (k + 1) =
      if IsEocdAt bytes (scanStart + k) then .ok (scanStart + k)
      else scanEocd bytes scanStart k := by
  have hk' : scanStart + k + 22 ≤ bytes.length := hk
  have hsig : readU32 bytes (scanStart + k) = .ok (u32At bytes (scanStart + k)) :=
    readU32_eq_ok.2 ⟨by omega, rfl⟩
  have hlen : readU16 bytes (scanStart + k + 20) = .ok (u16At bytes (scanStart + k + 20)) :=
    readU16_eq_ok.2 ⟨by omega, rfl⟩
  -- A signature with another comment length is passed over like any other byte.
  rw [scanEocd, hsig]
  by_cases h1 : u32At bytes (scanStart + k) = eocdSig
  · by_cases h2 : scanStart + k + eocdMinLen + (u16At bytes (scanStart + k + 20)).toNat =
        bytes.length
    · rw [if_pos ⟨hk, h1, h2⟩]
      simp [bind, Except.bind, pure, Except.pure, hlen, h1, h2]
    · rw [if_neg fun h => h2 h.2.2]
      simp [bind, Except.bind, hlen, h1, h2]
  · rw [if_neg fun h => h1 h.2.1]
    simp [bind, Except.bind, h1]

/-- The scan over `k` positions returns the last of them that holds a record. -/
theorem scanEocd_eq_ok {bytes : List UInt8} {scanStart p : Nat} :
    ∀ {k : Nat}, (∀ q, q < scanStart + k → q + eocdMinLen ≤ bytes.length) →
      (scanEocd bytes scanStart k = .ok p ↔ IsEocdAt bytes p ∧ scanStart ≤ p ∧ p < scanStart + k ∧
        ∀ q, p < q → q < scanStart + k → ¬ IsEocdAt bytes q)
  | 0, _ => by
      simp only [scanEocd, reduceCtorEq, Nat.add_zero, false_iff]
      rintro ⟨-, h1, h2, -⟩
      omega
  | k + 1, hk => by
      have ih : scanEocd bytes scanStart k = .ok p ↔ _ := scanEocd_eq_ok fun q hq => hk q (by omega)
      rw [scanEocd_succ (hk _ (by omega))]
      -- The scan goes down, so the last position is tried first.
      by_cases h : IsEocdAt bytes (scanStart + k)
      · rw [if_pos h, Except.ok.injEq]
        constructor
        · rintro rfl
          exact ⟨h, by omega, by omega, fun q h1 h2 => absurd h2 (by omega)⟩
        · rintro ⟨-, -, h1, h2⟩
          by_contra hne
          exact h2 _ (by omega) (by omega) h
      · rw [if_neg h, ih]
        constructor
        · rintro ⟨h1, h2, h3, h4⟩
          refine ⟨h1, h2, by omega, fun q hq1 hq2 => ?_⟩
          by_cases hq : q = scanStart + k
          · rw [hq]
            exact h
          · exact h4 q hq1 (by omega)
        · rintro ⟨h1, h2, h3, h4⟩
          have hp : p ≠ scanStart + k := by
            rintro rfl
            exact h h1
          exact ⟨h1, h2, by omega, fun q hq1 hq2 => h4 q hq1 (by omega)⟩

/-- Inside the window no read is past the end, so the scan fails in one way only. -/
theorem scanEocd_error {bytes : List UInt8} {scanStart : Nat} {e : Error} :
    ∀ {k : Nat}, (∀ q, q < scanStart + k → q + eocdMinLen ≤ bytes.length) →
      scanEocd bytes scanStart k = .error e → e = .noEocd
  | 0, _, h => (Except.error.inj h).symm
  | k + 1, hk, h => by
      rw [scanEocd_succ (hk _ (by omega))] at h
      split at h
      · cases h
      · exact scanEocd_error (fun q hq => hk q (by omega)) h

/-- **`findEocd` returns the greatest record position of the whole input.** -/
theorem findEocd_eq_ok {bytes : List UInt8} {p : Nat} :
    findEocd bytes = .ok p ↔ IsEocdAt bytes p ∧ ∀ q, p < q → ¬ IsEocdAt bytes q := by
  unfold findEocd
  by_cases hlen : bytes.length < eocdMinLen
  · rw [if_pos hlen]
    simp only [reduceCtorEq, false_iff]
    rintro ⟨⟨h, -, -⟩, -⟩
    omega
  · have h22 : eocdMinLen = 22 := rfl
    rw [if_neg hlen, scanEocd_eq_ok (by intro q hq; omega)]
    constructor
    · rintro ⟨h1, -, -, h2⟩
      refine ⟨h1, fun q hq hrec => h2 q hq ?_ hrec⟩
      have := hrec.1
      omega
    · rintro ⟨h1, h2⟩
      -- The comment length is below `2 ^ 16`, so the record starts inside the window.
      have hc := (u16At bytes (p + 20)).toNat_lt
      have h3 := h1.1
      have h4 := h1.2.2
      rw [h22] at h3 h4 ⊢
      exact ⟨h1, by omega, by omega, fun q hq _ => h2 q hq⟩

/-- **`findEocd` fails where the input holds no record at all**, and in no other way. -/
theorem findEocd_eq_error {bytes : List UInt8} {e : Error} :
    findEocd bytes = .error e ↔ e = .noEocd ∧ ∀ p, ¬ IsEocdAt bytes p := by
  have hkind : ∀ e', findEocd bytes = .error e' → e' = .noEocd := by
    intro e' h
    unfold findEocd at h
    split at h
    · exact (Except.error.inj h).symm
    · have h22 : eocdMinLen = 22 := rfl
      exact scanEocd_error (by intro q hq; omega) h
  constructor
  · intro h
    refine ⟨hkind e h, fun p hp => ?_⟩
    -- The greatest record position would have been returned.
    have hle : p ≤ bytes.length := Nat.le_trans (Nat.le_add_right _ _) hp.1
    have hlast : ∀ q, Nat.findGreatest (IsEocdAt bytes) bytes.length < q → ¬ IsEocdAt bytes q :=
      fun q hq hrec => Nat.findGreatest_is_greatest hq
        (Nat.le_trans (Nat.le_add_right _ _) hrec.1) hrec
    rw [findEocd_eq_ok.2 ⟨Nat.findGreatest_spec hle hp, hlast⟩] at h
    cases h
  · rintro ⟨rfl, hnone⟩
    cases hfind : findEocd bytes with
    | ok p => exact absurd (findEocd_eq_ok.1 hfind).1 (hnone p)
    | error e' => rw [hkind e' hfind]

end C2paZip
