import C2paZip.Archive.Member

/-!
# Locating the manifest

Reading and filling look up the first entry of a name, check that it is stored and unencrypted, and
take its content range. `Locates A name p r` says what that lookup finds; both operations are
described through it (`readManifestEntry_eq_some`, `fillManifest_eq_ok`), so they agree on the entry
they work on.
-/

set_option autoImplicit false

namespace C2paZip

open Library

/-- The three writes of `fill_manifest`: the content and the CRC fields of both headers. -/
def fillBytes (bytes : List UInt8) (entry : CdEntry) (range : Range) (newContent : List UInt8) :
    List UInt8 :=
  overwrite (overwrite (overwrite bytes range.start newContent)
    (entry.localHeaderOffset + 14) (u32ToLe (crc32 newContent)))
    (entry.cdHeaderOffset + 16) (u32ToLe (crc32 newContent))

namespace Archive

variable (A : Archive) {name : String}

/-- The first entry called `name` and the end of its room. -/
def room? (name : String) : Option (CdEntry × Nat) := A.rooms.find? fun p => p.1.name = name

theorem room?_name {p : CdEntry × Nat} (hp : A.room? name = some p) : p.1.name = name := by
  simpa using List.find?_some hp

theorem room?_mem {p : CdEntry × Nat} (hp : A.room? name = some p) : p ∈ A.rooms :=
  List.mem_of_find?_eq_some hp

theorem room?_eq_none : A.room? name = none ↔ ∀ e ∈ A.entries, e.name ≠ name := by
  rw [room?, List.find?_eq_none, ← A.map_fst_rooms]
  simp only [rooms, decide_eq_true_eq, List.mem_map]
  constructor
  · rintro h e ⟨p, hp, rfl⟩
    exact h p hp
  · intro h p hp
    exact h p.1 ⟨p, hp, rfl⟩

/-- The index of the source selects the same entry and room. -/
theorem room?_eq_map_entryIndex (name : String) :
    A.room? name = (Zip.entryIndex A.layout name).map fun i =>
      (A.layout.entries[i]!, entryBoundary A.layout i) := by
  -- Rooms and entries have the same names at the same indices.
  have hindex : A.rooms.findIdx? (fun p => p.1.name = name) = Zip.entryIndex A.layout name := by
    rw [Zip.entryIndex, layout_entries, ← A.map_fst_rooms,
      List.findIdx?_map]
    rfl
  have hroom : ∀ i, A.rooms[i]? = A.layout.entries[i]?.map fun e => (e, entryBoundary A.layout i) :=
    getElem?_rooms A.layout
  rw [room?, List.find?_eq_bind_findIdx?_getElem?, hindex]
  cases hi : Zip.entryIndex A.layout name with
  | none => rfl
  | some i =>
      obtain ⟨hlt, -⟩ := List.findIdx?_eq_some_iff_getElem.1 hi
      rw [Option.bind_some, hroom, List.getElem?_eq_getElem hlt, Option.map_some, Option.map_some,
        getElem!_pos A.layout.entries i hlt]

/-- The lookup of `name` finds the entry and room `p` and the stored content `r`. -/
structure Locates (name : String) (p : CdEntry × Nat) (r : Range) : Prop where
  room : A.room? name = some p
  stored : p.1.method = 0
  unencrypted : p.1.flags &&& 1 = 0
  content : contentRange A.bytes p.1 p.2 = .ok r

theorem readManifestEntry_eq_none :
    Zip.readManifestEntry A.bytes name = .ok none ↔ A.room? name = none := by
  rw [A.room?_eq_map_entryIndex, Zip.readManifestEntry]
  simp only [bind_eq_ok, A.parseLayout_bytes, Except.ok.injEq, exists_eq_left']
  cases Zip.entryIndex A.layout name with
  | none => simp only [pure_eq_ok, Option.map_none]
  | some i =>
      simp only [bind_eq_ok, pure_eq_ok, reduceCtorEq, and_false, exists_false, Option.map_some]

theorem readManifestEntry_eq_some {content : List UInt8} :
    Zip.readManifestEntry A.bytes name = .ok (some content) ↔
      ∃ p r, A.Locates name p r ∧ slice A.bytes r.start (r.stop - r.start) = content := by
  have hroom := A.room?_eq_map_entryIndex name
  rw [Zip.readManifestEntry]
  simp only [bind_eq_ok, A.parseLayout_bytes, Except.ok.injEq, exists_eq_left']
  cases hi : Zip.entryIndex A.layout name with
  | none =>
      rw [hi] at hroom
      simp only [pure_eq_ok, reduceCtorEq, false_iff]
      rintro ⟨p, r, hloc, -⟩
      rw [hloc.room] at hroom
      cases hroom
  | some i =>
      rw [hi, Option.map_some] at hroom
      simp only [bind_eq_ok, failIf_eq_ok, okOr_eq_ok, getRange_eq_some, pure_eq_ok,
        Option.some.injEq, exists_and_left, exists_const, not_or, not_not, entryContentRange, ne_eq]
      constructor
      · rintro ⟨⟨hm, hf⟩, r, hr, c, ⟨-, -, hc⟩, rfl⟩
        exact ⟨_, r, ⟨hroom, hm, hf, hr⟩, hc⟩
      · rintro ⟨p, r, hloc, rfl⟩
        -- The room is determined by the lookup.
        obtain rfl := Option.some.inj (hroom.symm.trans hloc.room)
        obtain ⟨-, -, -, hstop, -, hlen⟩ := contentRange_eq_ok.1 hloc.content
        exact ⟨⟨hloc.stored, hloc.unencrypted⟩, r, hloc.content, _,
          ⟨by omega, hlen, rfl⟩, rfl⟩

/-- **Filling overwrites the located content and the CRC fields of the two headers of its entry.**
-/
theorem fillManifest_eq_ok {newContent out : List UInt8} :
    Zip.fillManifest A.bytes name newContent = .ok out ↔
      ∃ p r, A.Locates name p r ∧ newContent.length = r.stop - r.start ∧
        out = fillBytes A.bytes p.1 r newContent := by
  have hroom := A.room?_eq_map_entryIndex name
  rw [Zip.fillManifest]
  simp only [bind_eq_ok, A.parseLayout_bytes, Except.ok.injEq, exists_eq_left', okOr_eq_ok]
  cases hi : Zip.entryIndex A.layout name with
  | none =>
      rw [hi] at hroom
      simp only [reduceCtorEq, false_and, exists_false, false_iff]
      rintro ⟨p, r, hloc, -⟩
      rw [hloc.room] at hroom
      cases hroom
  | some i =>
      rw [hi, Option.map_some] at hroom
      simp only [Option.some.injEq, exists_eq_left', failIf_eq_ok, pure_eq_ok, exists_and_left,
        exists_const, not_or, not_not, entryContentRange, ne_eq]
      constructor
      · rintro ⟨⟨hm, hf⟩, r, hr, hlen, rfl⟩
        exact ⟨_, r, ⟨hroom, hm, hf, hr⟩, hlen, rfl⟩
      · rintro ⟨p, r, hloc, hlen, rfl⟩
        obtain rfl := Option.some.inj (hroom.symm.trans hloc.room)
        exact ⟨⟨hloc.stored, hloc.unencrypted⟩, r, hloc.content, hlen, rfl⟩

namespace Locates

variable {A} {p : CdEntry × Nat} {r : Range}

/-- The content lies behind the fixed local header and inside the room, which ends before the
directory. -/
theorem bounds (h : A.Locates name p r) :
    p.1.localHeaderOffset + 30 ≤ r.start ∧ r.start ≤ r.stop ∧ r.stop ≤ p.2 ∧
      p.2 ≤ A.data.length := by
  obtain ⟨-, -, hstart, hstop, hroom, -⟩ := contentRange_eq_ok.1 h.content
  have hle := A.room_le (A.room?_mem h.room)
  simp only [localHeaderFixedLen] at hstart
  omega

theorem length_slice (h : A.Locates name p r) :
    (slice A.bytes r.start (r.stop - r.start)).length = r.stop - r.start := by
  have hb := h.bounds
  have hlen := A.length_bytes
  exact Library.length_slice (by omega)

end Locates

end Archive

end C2paZip
