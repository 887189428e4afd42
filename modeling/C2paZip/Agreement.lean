import C2paZip.Archive.Member
import C2paZip.Zip.Machine

/-!
# The parser on a `w`-bit target

The `w`-bit parser and the operations that only read agree with the model over unbounded positions,
wherever the input leaves room for a record behind it (`Roomy`). Every position the source adds to
without a check lies inside the input: a parsed input is an `Archive`, whose entries point before
the directory and whose headers stand inside it, and this carries over from `parse_layout` to the
functions that use its result (`agrees_of_parse`).
-/

set_option autoImplicit false

namespace C2paZip

open Library
open Library.Outcome (add_of_lt sub_of_le checkedAdd_of_lt index_of_lt)

/-- Behind `n` bytes there is room for any header: `usize` reaches `2 ^ 31` positions further. -/
def Roomy (w n : Nat) : Prop := n + 2 ^ 31 ≤ 2 ^ w

section

variable {w : Nat} {z : List UInt8}

/-! ## Field readers -/

theorem agrees_readU16 {pos : Nat} (h : pos + 2 < 2 ^ w) :
    Agrees (Machine.readU16 w z pos) (readU16 z pos) := by
  rw [Machine.readU16, readU16]
  refine .step (add_of_lt h) ?_
  cases hb : getRange z pos (pos + 2) with
  | none => exact .error _ _
  | some b =>
      obtain ⟨-, hle, rfl⟩ := getRange_eq_some.1 hb
      have hlen : (slice z pos 2).length = 2 := length_slice hle
      obtain ⟨x, y, hxy⟩ := List.length_eq_two.1 hlen
      rw [Nat.add_sub_cancel_left, hxy]
      exact .pure _

theorem agrees_readU32 {pos : Nat} (h : pos + 4 < 2 ^ w) :
    Agrees (Machine.readU32 w z pos) (readU32 z pos) := by
  rw [Machine.readU32, readU32]
  refine .step (add_of_lt h) ?_
  cases hb : getRange z pos (pos + 4) with
  | none => exact .error _ _
  | some b =>
      obtain ⟨-, hle, rfl⟩ := getRange_eq_some.1 hb
      have hlen : (slice z pos 4).length = 4 := length_slice hle
      obtain ⟨x₀, x₁, x₂, x₃, hxs⟩ := List.length_eq_four.1 hlen
      rw [Nat.add_sub_cancel_left, hxs]
      exact .pure _

section Binds

variable {β : Type} {pos i : Nat}

/-- A read at a sum of positions, and the rest. -/
theorem agrees_readU16_add {f : UInt16 → Outcome Error β} {g : UInt16 → Except Error β}
    (h : pos + i + 2 < 2 ^ w) (hrest : ∀ x, Agrees (f x) (g x)) :
    Agrees (Outcome.add w pos i >>= fun p => Machine.readU16 w z p >>= f)
      (readU16 z (pos + i) >>= g) :=
  .step (add_of_lt (by omega)) (.bind (agrees_readU16 h) fun x _ => hrest x)

theorem agrees_readU32_add {f : UInt32 → Outcome Error β} {g : UInt32 → Except Error β}
    (h : pos + i + 4 < 2 ^ w) (hrest : ∀ x, Agrees (f x) (g x)) :
    Agrees (Outcome.add w pos i >>= fun p => Machine.readU32 w z p >>= f)
      (readU32 z (pos + i) >>= g) :=
  .step (add_of_lt (by omega)) (.bind (agrees_readU32 h) fun x _ => hrest x)

/-- A check, and the rest where it passes. -/
theorem agrees_failIf {c : Prop} [Decidable c] {e : Error} {f : Unit → Outcome Error β}
    {g : Unit → Except Error β} (hrest : ¬ c → Agrees (f ()) (g ())) :
    Agrees (liftM (failIf c e) >>= f) (failIf c e >>= g) :=
  .bind (.lift _) fun _ h => hrest (failIf_eq_ok.1 h)

end Binds

/-! ## Locating and walking the central directory -/

theorem agrees_scanEocd {scanStart k : Nat} (hz : Roomy w z.length)
    (hk : scanStart + k ≤ z.length) :
    Agrees (Machine.scanEocd w z scanStart k) (scanEocd z scanStart k) := by
  unfold Roomy at hz
  induction k with
  | zero => exact .error _ _
  | succ k ih =>
      have hrest := ih (by omega)
      rw [Machine.scanEocd, scanEocd]
      refine .bind (agrees_readU32 (by omega)) fun sig _ => ?_
      by_cases hsig : sig = eocdSig
      · simp only [if_pos hsig]
        refine agrees_readU16_add (by omega) fun commentLen => ?_
        have hcomment := commentLen.toNat_lt
        have hmin : eocdMinLen = 22 := rfl
        refine .step (add_of_lt (by omega)) (.step (add_of_lt (by omega)) ?_)
        by_cases hend : scanStart + k + eocdMinLen + commentLen.toNat = z.length
        · simp only [if_pos hend]
          exact .pure _
        · simp only [if_neg hend]
          exact hrest
      · simp only [if_neg hsig]
        exact hrest

theorem agrees_findEocd (hz : Roomy w z.length) :
    Agrees (Machine.findEocd w z) (findEocd z) := by
  have hroom : z.length + 2 ^ 31 ≤ 2 ^ w := hz
  have hmin : eocdMinLen = 22 := rfl
  have hadd : (Outcome.add w eocdMinLen 0xFFFF : Outcome Error Nat) = .ok (eocdMinLen + 0xFFFF) :=
    add_of_lt (by omega)
  unfold Machine.findEocd findEocd
  rw [hadd, Outcome.ok_bind]
  -- From here on the literal stays folded.
  generalize eocdMinLen + 0xFFFF = window
  by_cases hlen : z.length < eocdMinLen
  · rw [if_pos hlen, if_pos hlen]
    exact .error _ _
  · rw [if_neg hlen, if_neg hlen]
    refine .step (sub_of_le (by omega)) ?_
    exact agrees_scanEocd hz (by omega)

theorem agrees_readCdHeader {eocd cdStart cursor : Nat} (hz : Roomy w z.length)
    (hcur : cursor ≤ z.length) :
    Agrees (Machine.readCdHeader w z eocd cdStart cursor) (readCdHeader z eocd cdStart cursor) := by
  unfold Roomy at hz
  rw [Machine.readCdHeader, readCdHeader]
  refine .bind (agrees_readU32 (by omega)) fun sig _ => agrees_failIf fun _ => ?_
  refine agrees_readU16_add (by omega) fun nameLen => ?_
  refine agrees_readU16_add (by omega) fun extraLen => ?_
  refine agrees_readU16_add (by omega) fun comment => ?_
  refine agrees_readU32_add (by omega) fun localOff => ?_
  refine agrees_readU16_add (by omega) fun flags => ?_
  refine agrees_readU16_add (by omega) fun method => ?_
  refine agrees_readU32_add (by omega) fun crc32 => ?_
  refine agrees_readU32_add (by omega) fun compressedSize => ?_
  refine agrees_readU32_add (by omega) fun uncompressedSize => ?_
  refine agrees_failIf fun _ => agrees_failIf fun _ => ?_
  -- The three lengths are sixteen bits wide, so every end of a header fits.
  have hname := nameLen.toNat_lt
  have hextra := extraLen.toNat_lt
  have hcomment := comment.toNat_lt
  have hfixed : cdHeaderFixedLen = 46 := rfl
  refine .step (checkedAdd_of_lt (by omega)) (.step (checkedAdd_of_lt (by omega)) ?_)
  refine .bind (.lift _) fun nameBytes _ => .bind (.lift _) fun name _ => ?_
  refine agrees_failIf fun _ => ?_
  refine .step (checkedAdd_of_lt (by omega)) (.step (checkedAdd_of_lt (by omega)) ?_)
  refine agrees_failIf fun _ => .step (sub_of_le (by omega)) ?_
  exact .pure _

theorem agrees_walkHeaders {eocd cdStart n cursor : Nat} (hz : Roomy w z.length)
    (heocd : eocd ≤ z.length) (hcd : cdStart < 2 ^ 32) (hcur : cursor ≤ eocd) :
    Agrees (Machine.walkHeaders w z eocd cdStart n cursor)
      (walkHeaders z eocd cdStart n cursor) := by
  induction n generalizing cursor with
  | zero => exact .pure _
  | succ n ih =>
      rw [Machine.walkHeaders, walkHeaders]
      refine .bind (agrees_readCdHeader hz (by omega)) ?_
      rintro ⟨entry, next⟩ hread
      -- The walk never leaves the EOCD behind.
      obtain ⟨h, -, hnext, -⟩ := (readCdHeader_eq_ok heocd hcd).1 hread
      exact .bind (ih hnext) fun entries _ => .pure _

theorem agrees_parseLayout (hz : Roomy w z.length) :
    Agrees (Machine.parseLayout w z) (parseLayout z) := by
  have hroom : z.length + 2 ^ 31 ≤ 2 ^ w := hz
  rw [Machine.parseLayout, parseLayout]
  refine .bind (agrees_findEocd hz) fun eocd hfind => ?_
  have hmin : eocdMinLen = 22 := rfl
  obtain ⟨hlen, -⟩ := (findEocd_eq_ok.1 hfind).1
  refine agrees_readU16_add (by omega) fun totalEntries => ?_
  refine agrees_readU32_add (by omega) fun cdSize => ?_
  refine agrees_readU32_add (by omega) fun cdOffset => ?_
  refine agrees_readU16_add (by omega) fun commentLen => ?_
  have hcomment := commentLen.toNat_lt
  refine agrees_failIf fun _ => ?_
  refine .step (checkedAdd_of_lt (by omega)) (.step (checkedAdd_of_lt (by omega)) ?_)
  refine agrees_failIf fun hcheck => ?_
  refine .bind (agrees_walkHeaders hz (by omega) cdOffset.toNat_lt (by omega)) fun entries _ => ?_
  exact .pure _

end

/-! ## Entry ranges -/

section Ranges

variable {w : Nat} {A : Archive} {i : Nat}

theorem Archive.getElem_mem_entries (hi : i < A.layout.entries.length) :
    A.layout.entries[i]! ∈ A.entries := by
  rw [getElem!_pos A.layout.entries i hi]
  exact List.getElem_mem hi

/-- Where the record of an entry starts, far from the end of the positions. -/
theorem localHeaderOffset_room (hz : Roomy w A.bytes.length)
    (hi : i < A.layout.entries.length) :
    A.layout.entries[i]!.localHeaderOffset + 2 ^ 31 ≤ 2 ^ w := by
  have hlh := A.localHeaderOffset_lt (A.getElem_mem_entries hi)
  have hlen := A.length_bytes
  unfold Roomy at hz
  omega

theorem entryBoundary_machine (hz : Roomy w A.bytes.length) (hi : i < A.layout.entries.length) :
    Machine.entryBoundary w A.layout i = .ok (entryBoundary A.layout i) := by
  have hlen := A.length_entries
  have hcount := A.headers_length_lt
  unfold Roomy at hz
  rw [Archive.layout_entries] at hi
  rw [Machine.entryBoundary, add_of_lt (by omega), Outcome.ok_bind]
  rfl

theorem agrees_entryContentRange (hz : Roomy w A.bytes.length)
    (hi : i < A.layout.entries.length) :
    Agrees (Machine.entryContentRange w A.bytes A.layout i)
      (entryContentRange A.bytes A.layout i) := by
  have hlh := localHeaderOffset_room hz hi
  unfold Roomy at hz
  rw [Machine.entryContentRange, entryContentRange, contentRange]
  refine .step (index_of_lt hi) ?_
  refine .bind (agrees_readU32 (by omega)) fun sig _ => agrees_failIf fun _ => ?_
  refine .step (index_of_lt hi) ?_
  refine agrees_readU16_add (by omega) fun localFlags => agrees_failIf fun _ => ?_
  refine agrees_readU16_add (by omega) fun nameLen => ?_
  refine agrees_readU16_add (by omega) fun extraLen => ?_
  have hname := nameLen.toNat_lt
  have hextra := extraLen.toNat_lt
  have hfixed : localHeaderFixedLen = 30 := rfl
  refine .step (checkedAdd_of_lt (by omega)) (.step (checkedAdd_of_lt (by omega)) ?_)
  refine .step (checkedAdd_of_lt (by omega)) (.checkedAdd ?_ ?_)
  · refine .step (entryBoundary_machine hz hi) ?_
    exact agrees_failIf fun _ => agrees_failIf fun _ => .pure _
  · -- A content that does not fit the positions does not fit the input either.
    intro hover r hr
    simp only [bind_eq_ok, failIf_eq_ok] at hr
    obtain ⟨-, -, -, hle, -⟩ := hr
    omega

theorem descriptorStart_machine {z : List UInt8} {stop : Nat} (hz : Roomy w z.length)
    (hstop : stop ≤ z.length) : Machine.descriptorStart w z stop =
      .ok (if readU32 z stop = .ok dataDescriptorSig then stop + 4 else stop) := by
  unfold Roomy at hz
  have hread : Agrees (Machine.readU32 w z stop) (readU32 z stop) := agrees_readU32 (by omega)
  have hsig : (readU32 z stop).toOption = some dataDescriptorSig ↔
      readU32 z stop = .ok dataDescriptorSig := by
    cases readU32 z stop <;> simp [Except.toOption]
  rw [Machine.descriptorStart, hread.toOption, Outcome.ok_bind]
  by_cases h : readU32 z stop = .ok dataDescriptorSig
  · rw [if_pos (hsig.2 h), if_pos h, checkedAdd_of_lt (by omega)]
  · rw [if_neg fun hs => h (hsig.1 hs), if_neg h, Outcome.pure_eq]

theorem agrees_bindingEnd {stop : Nat} (hz : Roomy w A.bytes.length)
    (hi : i < A.layout.entries.length) (hstop : stop ≤ A.bytes.length) :
    Agrees (Machine.bindingEnd w A.bytes A.layout i A.layout.entries[i]! stop)
      (bindingEnd A.bytes A.layout.entries[i]! (entryBoundary A.layout i) stop) := by
  have hlh := localHeaderOffset_room hz hi
  have hroom : A.bytes.length + 2 ^ 31 ≤ 2 ^ w := hz
  rw [Machine.bindingEnd, bindingEnd]
  by_cases hbit : A.layout.entries[i]!.flags &&& 0x0008 ≠ 0
  · rw [if_pos hbit, if_pos hbit]
    refine .step (descriptorStart_machine hz hstop) ?_
    -- With or without signature, the fields start at most four bytes on.
    have hstart : (if readU32 A.bytes stop = .ok dataDescriptorSig then stop + 4 else stop) ≤
        stop + 4 := by
      split <;> omega
    generalize (if readU32 A.bytes stop = .ok dataDescriptorSig then stop + 4 else stop) = start
      at hstart ⊢
    refine .step (checkedAdd_of_lt (by omega)) (.step (entryBoundary_machine hz hi) ?_)
    refine agrees_failIf fun _ => ?_
    refine .bind (agrees_readU32 (by omega)) fun crc _ => agrees_failIf fun _ => ?_
    refine agrees_readU32_add (by omega) fun compressed => agrees_failIf fun _ => ?_
    refine agrees_readU32_add (by omega) fun uncompressed => agrees_failIf fun _ => ?_
    exact .pure _
  · rw [if_neg hbit, if_neg hbit]
    refine agrees_readU32_add (by omega) fun crc => agrees_failIf fun _ => ?_
    refine agrees_readU32_add (by omega) fun compressed => agrees_failIf fun _ => ?_
    refine agrees_readU32_add (by omega) fun uncompressed => agrees_failIf fun _ => ?_
    exact .pure _

theorem agrees_entryBindingRange (hz : Roomy w A.bytes.length)
    (hi : i < A.layout.entries.length) :
    Agrees (Machine.entryBindingRange w A.bytes A.layout i)
      (entryBindingRange A.bytes A.layout i) := by
  rw [Machine.entryBindingRange, entryBindingRange, bindingRange]
  refine .step (index_of_lt hi) ?_
  refine .bind (agrees_entryContentRange hz hi) fun content hcontent => ?_
  obtain ⟨-, -, -, -, -, hle⟩ := contentRange_eq_ok.1 hcontent
  refine .bind (agrees_bindingEnd hz hi hle) fun stop _ => ?_
  exact .pure _

end Ranges

/-! ## Reading -/

section Reading

variable {w : Nat} {z : List UInt8} {name : String}

/-- An operation that starts by parsing agrees where it does on every archive. -/
theorem agrees_of_parse {β : Type} {f : ZipLayout → Outcome Error β}
    {g : ZipLayout → Except Error β} (hz : Roomy w z.length)
    (h : ∀ A : Archive, A.bytes = z → Agrees (f A.layout) (g A.layout)) :
    Agrees (Machine.parseLayout w z >>= f) (parseLayout z >>= g) := by
  refine .bind (agrees_parseLayout hz) fun L hL => ?_
  obtain ⟨A, hA, rfl⟩ := exists_archive_of_parseLayout hL
  exact h A hA

theorem entryIndex_lt {L : ZipLayout} {i : Nat} (hi : Zip.entryIndex L name = some i) :
    i < L.entries.length := by
  obtain ⟨hlt, -⟩ := List.findIdx?_eq_some_iff_getElem.1 hi
  exact hlt

theorem agrees_readManifestEntry (hz : Roomy w z.length) :
    Agrees (Machine.Zip.readManifestEntry w z name) (Zip.readManifestEntry z name) := by
  refine agrees_of_parse hz ?_
  rintro A rfl
  cases hi : Zip.entryIndex A.layout name with
  | none => exact .pure _
  | some i =>
      refine agrees_failIf fun _ => ?_
      refine .bind (agrees_entryContentRange hz (entryIndex_lt hi)) fun range _ => ?_
      exact .bind (.lift _) fun content _ => .pure _

theorem agrees_readZipEntryContent (hz : Roomy w z.length) :
    Agrees (Machine.Zip.readZipEntryContent w z name) (Zip.readZipEntryContent z name) := by
  refine agrees_of_parse hz ?_
  rintro A rfl
  cases hi : Zip.entryIndex A.layout name with
  | none => exact .pure _
  | some i =>
      refine .bind (agrees_entryContentRange hz (entryIndex_lt hi)) fun range _ => ?_
      exact .bind (.lift _) fun content _ => .pure _

theorem agrees_memberRanges (hz : Roomy w z.length) :
    Agrees (Machine.Zip.memberRanges w z) (Zip.memberRanges z) := by
  refine agrees_of_parse hz ?_
  rintro A rfl
  refine .mapM fun i hi => ?_
  have hlt : i < A.layout.entries.length := List.mem_range.1 hi
  refine .step (index_of_lt hlt) (.bind (.lift _) fun _ _ => .step (index_of_lt hlt) ?_)
  exact .bind (agrees_entryBindingRange hz hlt) fun range _ => .pure _

theorem agrees_centralDirectoryRanges (hz : Roomy w z.length) :
    Agrees (Machine.Zip.centralDirectoryRanges w z) (Zip.centralDirectoryRanges z) := by
  refine agrees_of_parse hz ?_
  rintro A rfl
  have hroom : A.bytes.length + 2 ^ 31 ≤ 2 ^ w := hz
  refine agrees_failIf fun _ => ?_
  cases hfind : A.layout.entries.find? fun e => e.name = zipManifestPath with
  | none => exact .pure _
  | some e =>
      obtain ⟨-, -, hend⟩ := A.cdHeader_bounds (List.mem_of_find?_eq_some hfind)
      have hlen := A.eocdOffset_add_le
      refine .step (add_of_lt (by omega)) (.step (add_of_lt (by omega)) ?_)
      exact .pure _

theorem agrees_centralDirectoryRange (hz : Roomy w z.length) :
    Agrees (Machine.Zip.centralDirectoryRange w z) (Zip.centralDirectoryRange z) := by
  refine .bind (agrees_centralDirectoryRanges hz) fun ranges _ => agrees_failIf fun hlen => ?_
  -- The check leaves one range, so there is a first one.
  obtain ⟨r, rfl⟩ := List.length_eq_one_iff.1 (not_not.1 hlen)
  exact .pure r

end Reading

end C2paZip
