import C2paZip.Library.LastWrite
import C2paZip.Library.Patch
import C2paZip.Store

/-!
# Repeated fills

A fill is a patch of three writes, and the patches of two entries do not meet. So fills are writes
to keys of which the last accepted one wins: the archive after any list of fills is determined by
the content last accepted for each name, whatever was filled or refused before and in whatever order
(`fills_last_wins`). A fill that changes nothing is one with the content that is there, under a CRC
that is right in both headers (`fill_noop_iff`).
-/

set_option autoImplicit false

namespace C2paZip

open Library

/-! ## A fill as a patch -/

/-- The writes of a fill. -/
def fillWrites (entry : CdEntry) (range : Range) (newContent : List UInt8) :
    List (Nat × List UInt8) :=
  [(range.start, newContent), (entry.localHeaderOffset + 14, u32ToLe (crc32 newContent)),
    (entry.cdHeaderOffset + 16, u32ToLe (crc32 newContent))]

theorem fillBytes_eq_applyPatch (z : List UInt8) (e : CdEntry) (r : Range) (f : List UInt8) :
    fillBytes z e r f = applyPatch z (fillWrites e r f) := rfl

theorem mem_fillWrites {e : CdEntry} {r : Range} {f : List UInt8} {w : Nat × List UInt8} :
    w ∈ fillWrites e r f ↔ w = (r.start, f) ∨
      w = (e.localHeaderOffset + 14, u32ToLe (crc32 f)) ∨
      w = (e.cdHeaderOffset + 16, u32ToLe (crc32 f)) := by
  simp [fillWrites]

namespace Archive

variable {A B : Archive} {name other : String} {p q : CdEntry × Nat} {r s : Range}
  {f g : List UInt8}

namespace Locates

theorem inBounds (h : A.Locates name p r) (hlen : f.length = r.stop - r.start) :
    InBounds A.bytes.length (fillWrites p.1 r f) := by
  have hb := h.bounds
  have hcd := h.cdHeaderOffset_bounds
  have hbytes := A.length_bytes
  intro w hw
  rcases mem_fillWrites.1 hw with rfl | rfl | rfl
  · simp only
    omega
  · simp only [length_u32ToLe]
    omega
  · simp only [length_u32ToLe]
    omega

/-- The three writes of a fill do not meet. -/
theorem pairwise_apart (h : A.Locates name p r) (hlen : f.length = r.stop - r.start) :
    (fillWrites p.1 r f).Pairwise Apart := by
  have hb := h.bounds
  have hcd := h.cdHeaderOffset_bounds
  simp only [fillWrites, List.pairwise_cons, List.mem_cons, List.not_mem_nil, or_false,
    forall_eq_or_imp, forall_eq, Apart, length_u32ToLe, List.Pairwise.nil, and_true, false_implies,
    implies_true]
  omega

/-- The writes of fills of two names do not meet. -/
theorem apart (h : A.Locates name p r) (h' : A.Locates other q s) (hne : name ≠ other)
    (hlen : f.length = r.stop - r.start) (hlen' : g.length = s.stop - s.start) :
    ∀ v ∈ fillWrites p.1 r f, ∀ w ∈ fillWrites q.1 s g, Apart v w := by
  have hb := h.bounds
  have hb' := h'.bounds
  have hpe := A.room_fst_mem (A.room?_mem h.room)
  have hqe := A.room_fst_mem (A.room?_mem h'.room)
  have hcd := A.cdHeader_bounds hpe
  have hcd' := A.cdHeader_bounds hqe
  -- The rooms and the directory headers of the two entries lie beside each other.
  have hpq : q ≠ p := by
    rintro rfl
    exact hne ((A.room?_name h.room).symm.trans (A.room?_name h'.room))
  obtain ⟨hcdne, hbeside⟩ := (h.room_cases (A.room?_mem h'.room)).resolve_left hpq
  have hdisjoint := A.cdHeader_disjoint hqe hpe hcdne
  intro v hv w hw
  rcases mem_fillWrites.1 hv with rfl | rfl | rfl <;>
    rcases mem_fillWrites.1 hw with rfl | rfl | rfl <;>
    simp only [Apart, length_u32ToLe] <;> omega

end Locates

/-! ## The filled archive -/

namespace IsFilled

variable (hB : IsFilled A B p.1 r f) (h : A.Locates name p r) (hlen : f.length = r.stop - r.start)

include hB h hlen

/-- Every entry has its content where it had it. -/
theorem contentRange_iff (hq : q ∈ A.rooms) :
    contentRange B.bytes (setEntryCrc p.1.cdHeaderOffset (crc32 f) q.1) q.2 = .ok s ↔
      contentRange A.bytes q.1 q.2 = .ok s := by
  rcases h.room_cases hq with rfl | ⟨hne, hbeside⟩
  · have hcontent := (hB.locates h hlen).content
    simp only at hcontent
    rw [hcontent, h.content]
  · have hb := h.bounds
    have hcd := h.cdHeaderOffset_bounds
    have hroom := A.room_le hq
    have hbytes := A.room_le_bytes hq
    have hbytes' : q.2 ≤ B.bytes.length := by
      rw [hB.bytes, h.length_fillBytes hlen]
      exact hbytes
    rw [setEntryCrc_of_ne _ hne]
    refine contentRange_congr hbytes' hbytes fun i hi hiq => ?_
    rw [hB.bytes]
    exact h.getElem?_fillBytes hlen (by omega) (by omega) (by omega)

/-- The lookups find the same entries with the same contents. -/
theorem locates_iff {q' : CdEntry × Nat} : B.Locates other q' s ↔
    ∃ q, A.Locates other q s ∧ q' = (setEntryCrc p.1.cdHeaderOffset (crc32 f) q.1, q.2) := by
  constructor
  · intro hq'
    have hroom := hq'.room
    rw [hB.room?, Option.map_eq_some_iff] at hroom
    obtain ⟨q, hq, rfl⟩ := hroom
    exact ⟨q, ⟨hq, hq'.stored, hq'.unencrypted,
      (hB.contentRange_iff h hlen (A.room?_mem hq)).1 hq'.content⟩, rfl⟩
  · rintro ⟨q, hq, rfl⟩
    exact ⟨by rw [hB.room?, hq.room]; rfl, hq.stored, hq.unencrypted,
      (hB.contentRange_iff h hlen (A.room?_mem hq.room)).2 hq.content⟩

/-- **A fill of the filled archive** makes the writes that it would make in the archive itself. -/
theorem fillManifest_eq_ok {out : List UInt8} : Zip.fillManifest B.bytes other g = .ok out ↔
    ∃ q s, A.Locates other q s ∧ g.length = s.stop - s.start ∧
      out = applyPatch B.bytes (fillWrites q.1 s g) := by
  rw [B.fillManifest_eq_ok]
  constructor
  · rintro ⟨q', s, hq', hg, rfl⟩
    obtain ⟨q, hq, rfl⟩ := (hB.locates_iff h hlen).1 hq'
    exact ⟨q, s, hq, hg, rfl⟩
  · rintro ⟨q, s, hq, hg, rfl⟩
    exact ⟨_, s, (hB.locates_iff h hlen).2 ⟨q, hq, rfl⟩, hg, rfl⟩

end IsFilled

/-- A lookup has one result. -/
theorem Locates.unique (h : A.Locates name p r) (h' : A.Locates name q s) : q = p ∧ s = r := by
  obtain rfl := Option.some.inj (h'.room.symm.trans h.room)
  exact ⟨rfl, Except.ok.inj (h'.content.symm.trans h.content)⟩

end Archive

/-! ## Fills as writes to names -/

/-- The fill of a name with a content. -/
def fillOf (w : String × List UInt8) : Store.Call := .fill w.1 w.2

/-- The archive accepts a fill. -/
def fillable (z : List UInt8) (w : String × List UInt8) : Bool :=
  (Zip.fillManifest z w.1 w.2).isOk

theorem fillable_iff {z : List UInt8} {w : String × List UInt8} :
    fillable z w = true ↔ ∃ out, Zip.fillManifest z w.1 w.2 = .ok out := by
  rw [fillable]
  cases Zip.fillManifest z w.1 w.2 with
  | error e => simp [Except.toBool]
  | ok out => simp [Except.toBool]

/-- An accepted fill is the fill of an archive. -/
theorem exists_isFilled_of_fillable {z : List UInt8} {w : String × List UInt8}
    (h : fillable z w = true) : ∃ (A B : Archive) (p : CdEntry × Nat) (r : Range), A.bytes = z ∧
      B.bytes = (Store.call z (fillOf w)).1 ∧ A.Locates w.1 p r ∧ w.2.length = r.stop - r.start ∧
      A.IsFilled B p.1 r w.2 := by
  obtain ⟨out, hout⟩ := fillable_iff.1 h
  obtain ⟨A, rfl⟩ := exists_archive_of_bind hout
  obtain ⟨p, r, hloc, hlen, rfl⟩ := A.fillManifest_eq_ok.1 hout
  obtain ⟨B, hB⟩ := hloc.exists_filled hlen
  refine ⟨A, B, p, r, rfl, ?_, hloc, hlen, hB⟩
  rw [fillOf, Store.call, hout, hB.bytes]
  rfl

/-- **Fills are writes to names of which the last accepted one wins.** -/
theorem keyedWrites_fill : KeyedWrites (fun z w => (Store.call z (fillOf w)).1) fillable := by
  have hcall : ∀ {z out : List UInt8} {w : String × List UInt8},
      Zip.fillManifest z w.1 w.2 = .ok out → (Store.call z (fillOf w)).1 = out := by
    intro z out w hout
    rw [fillOf, Store.call, hout]
    rfl
  have hrefused : ∀ {z : List UInt8} {w : String × List UInt8}, fillable z w = false →
      (Store.call z (fillOf w)).1 = z := by
    intro z w hw
    cases hout : Zip.fillManifest z w.1 w.2 with
    | error e =>
        rw [fillOf, Store.call, hout]
        rfl
    | ok out => simp [fillable_iff.2 ⟨out, hout⟩] at hw
  refine ⟨hrefused, fun z w => ?_, ?_, ?_⟩
  · cases hw : fillable z w with
    | false => rw [hrefused hw]
    | true =>
        obtain ⟨A, B, p, r, rfl, hBz, hloc, hlen, hB⟩ := exists_isFilled_of_fillable hw
        rw [← hBz]
        funext v
        rw [Bool.eq_iff_iff, fillable_iff, fillable_iff]
        constructor
        · rintro ⟨out, hout⟩
          obtain ⟨q, s, hq, hv, -⟩ := (hB.fillManifest_eq_ok hloc hlen).1 hout
          exact ⟨_, A.fillManifest_eq_ok.2 ⟨q, s, hq, hv, rfl⟩⟩
        · rintro ⟨out, hout⟩
          obtain ⟨q, s, hq, hv, -⟩ := A.fillManifest_eq_ok.1 hout
          exact ⟨_, (hB.fillManifest_eq_ok hloc hlen).2 ⟨q, s, hq, hv, rfl⟩⟩
  · intro z name f g hf hg
    obtain ⟨A, B, p, r, rfl, hBz, hloc, hlen, hB⟩ := exists_isFilled_of_fillable hf
    obtain ⟨out, hout⟩ := fillable_iff.1 hg
    obtain ⟨q, s, hq, hlen', rfl⟩ := A.fillManifest_eq_ok.1 hout
    obtain ⟨rfl, rfl⟩ := hloc.unique hq
    have htwice := (hB.fillManifest_eq_ok hloc hlen).2 ⟨q, s, hq, hlen', rfl⟩
    rw [hcall hout, ← hBz, hcall htwice, hB.bytes, fillBytes_eq_applyPatch, fillBytes_eq_applyPatch]
    refine applyPatch_covered (hloc.inBounds hlen) ?_ (hloc.pairwise_apart hlen)
    exact List.Forall₂.cons ⟨rfl, hlen'.trans hlen.symm⟩ (List.Forall₂.cons ⟨rfl, rfl⟩
      (List.Forall₂.cons ⟨rfl, rfl⟩ List.Forall₂.nil))
  · intro z v w hne hv hw
    obtain ⟨A, B, p, r, rfl, hBz, hlocp, hlenp, hB⟩ := exists_isFilled_of_fillable hv
    obtain ⟨out, hout⟩ := fillable_iff.1 hw
    obtain ⟨q, s, hlocq, hlenq, rfl⟩ := A.fillManifest_eq_ok.1 hout
    obtain ⟨C, hC⟩ := hlocq.exists_filled hlenq
    have hvw := (hB.fillManifest_eq_ok hlocp hlenp).2 ⟨q, s, hlocq, hlenq, rfl⟩
    have hwv := (hC.fillManifest_eq_ok hlocq hlenq).2 ⟨p, r, hlocp, hlenp, rfl⟩
    rw [hcall hout, ← hBz, hcall hvw, ← hC.bytes, hcall hwv, hB.bytes, hC.bytes,
      fillBytes_eq_applyPatch, fillBytes_eq_applyPatch]
    exact applyPatch_comm (hlocp.inBounds hlenp) (hlocq.inBounds hlenq)
      (hlocp.apart hlocq hne hlenp hlenq)

/-- **Only the last accepted content of each name counts**: lists of fills that end with the same
ones leave the same archive, byte for byte. -/
theorem fills_last_wins {z : List UInt8} {ws ws' : List (String × List UInt8)}
    (hlast : ∀ name, lastWrite (fillable z) name ws = lastWrite (fillable z) name ws') :
    (runCalls Store.call z (ws.map fillOf)).1 = (runCalls Store.call z (ws'.map fillOf)).1 := by
  rw [runCalls_fst, runCalls_fst, List.foldl_map, List.foldl_map]
  exact keyedWrites_fill.foldl_eq hlast

/-- Two entries are filled in either order, one of them twice and once with a content that does not
fit. -/
theorem fills_last_wins_two :
    (runCalls Store.call (buildZip [("a", [7]), ("b", [8])])
        ([("a", [1]), ("b", [2]), ("a", [4, 4]), ("a", [3])].map fillOf)).1 =
      (runCalls Store.call (buildZip [("a", [7]), ("b", [8])])
        ([("a", [3]), ("b", [2])].map fillOf)).1 := by
  apply fills_last_wins
  intro name
  have h1 : fillable (buildZip [("a", [7]), ("b", [8])]) ("a", [1]) = true := by decide +kernel
  have h2 : fillable (buildZip [("a", [7]), ("b", [8])]) ("b", [2]) = true := by decide +kernel
  have h3 : fillable (buildZip [("a", [7]), ("b", [8])]) ("a", [4, 4]) = false := by decide +kernel
  have h4 : fillable (buildZip [("a", [7]), ("b", [8])]) ("a", [3]) = true := by decide +kernel
  by_cases ha : "a" = name
  · subst ha
    simp [lastWrite, h1, h3, h4]
  · simp [lastWrite, ha, h2]

/-! ## Fills that change nothing -/

/-- **A fill changes nothing exactly where it writes what is there**: the content that is read,
whose CRC both headers already have. -/
theorem fill_noop_iff {z f : List UInt8} {name : String} {L : ZipLayout}
    (hL : parseLayout z = .ok L) :
    Zip.fillManifest z name f = .ok z ↔ Zip.readManifestEntry z name = .ok (some f) ∧
      ∃ i, Zip.entryIndex L name = some i ∧ L.entries[i]!.crc32 = crc32 f ∧
        u32At z (L.entries[i]!.localHeaderOffset + 14) = crc32 f := by
  obtain ⟨A, rfl, rfl⟩ := exists_archive_of_parseLayout hL
  -- The entry that is filled is the one that is looked up.
  have hindex : ∀ {p : CdEntry × Nat} {r : Range}, A.Locates name p r →
      ∃ i, Zip.entryIndex A.layout name = some i ∧ A.layout.entries[i]! = p.1 := by
    intro p r hloc
    have hroom := hloc.room
    rw [A.room?_eq_map_entryIndex, Option.map_eq_some_iff] at hroom
    obtain ⟨i, hi, rfl⟩ := hroom
    exact ⟨i, hi, rfl⟩
  rw [A.fillManifest_eq_ok, A.readManifestEntry_eq_some]
  constructor
  · rintro ⟨p, r, hloc, hlen, heq⟩
    obtain ⟨i, hi, hentry⟩ := hindex hloc
    have hcd := hloc.cdHeaderOffset_bounds
    obtain ⟨-, hwrites⟩ := hloc.length_writes hlen
    have hfields := A.fields_of_entry (A.room_fst_mem (A.room?_mem hloc.room))
    refine ⟨⟨p, r, hloc, ?_⟩, i, hi, ?_, ?_⟩
    · have hcontent := hloc.slice_fillBytes_content hlen
      rwa [← heq] at hcontent
    · have hcrc : u32At (fillBytes A.bytes p.1 r f) (p.1.cdHeaderOffset + 16) = crc32 f := by
        rw [fillBytes]
        exact u32At_overwrite_self (by omega)
      rw [← heq] at hcrc
      rw [hentry, hfields.2.2.2.2.1, hcrc]
    · rw [hentry]
      have hcrc := hloc.u32At_fillBytes_crc hlen
      rwa [← heq] at hcrc
  · rintro ⟨⟨p, r, hloc, hcontent⟩, i, hi, hcrc, hlocal⟩
    obtain ⟨j, hj, hentry⟩ := hindex hloc
    obtain rfl := Option.some.inj (hj.symm.trans hi)
    have hb := hloc.bounds
    have hcd := hloc.cdHeaderOffset_bounds
    have hbytes := A.length_bytes
    have hlen : f.length = r.stop - r.start := by rw [← hcontent, hloc.length_slice]
    have hfields := A.fields_of_entry (A.room_fst_mem (A.room?_mem hloc.room))
    rw [hentry] at hcrc hlocal
    rw [hfields.2.2.2.2.1] at hcrc
    have h1 : overwrite A.bytes r.start f = A.bytes := by
      rw [← hcontent]
      exact overwrite_slice (by omega)
    have h2 : overwrite A.bytes (p.1.localHeaderOffset + 14) (u32ToLe (crc32 f)) = A.bytes := by
      rw [← hlocal, u32ToLe_u32At (by omega)]
      exact overwrite_slice (by omega)
    have h3 : overwrite A.bytes (p.1.cdHeaderOffset + 16) (u32ToLe (crc32 f)) = A.bytes := by
      rw [← hcrc, u32ToLe_u32At (by omega)]
      exact overwrite_slice (by omega)
    exact ⟨p, r, hloc, hlen, by rw [fillBytes, h1, h2, h3]⟩

/-- The fill of a member with its own content. -/
theorem fill_noop_iff_member :
    Zip.fillManifest (buildZip [("a", [7])]) "a" [7] = .ok (buildZip [("a", [7])]) :=
  (fill_noop_iff
    (L := { entries := [⟨"a", 0, 0, crc32 [7], 1, 1, 0, 32, 47⟩], cdStart := 32, eocdOffset := 79 })
    (by decide +kernel)).2
    ⟨by decide +kernel, 0, by decide +kernel, rfl, by decide +kernel⟩

end C2paZip
