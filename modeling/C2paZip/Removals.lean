import C2paZip.Archive.Carried

/-!
# Failing and repeated removals

Away from the 32-bit limits, removing a present name either packs the other members or fails with
the error of the first entry, by local-header offset, that does not bind; which name is removed does
not matter (`removal_fails_iff`). So removing several names gives the same result in any order, the
errors included (`removals_any_order`).
-/

set_option autoImplicit false

namespace C2paZip

open Library

/-! ## What the first loop fails with -/

section FirstLoop

variable {z : List UInt8} {name : String} {cdStart : Nat}

/-- The loop fails where the entries are bound one by one, and with the same error: the records
copied so far stay below the next local header, so no other check of the loop fails. -/
theorem foldlM_retainRoom_eq_error (hcd : cdStart < 2 ^ 32) (hz : cdStart ≤ z.length)
    {ps : List (CdEntry × Nat)} (hroom : ∀ p ∈ ps, p.2 ≤ cdStart)
    (hpair : ps.Pairwise fun p q => p.2 ≤ q.1.localHeaderOffset)
    {st : List UInt8 × List (CdEntry × UInt32)}
    (hlow : ∀ p ∈ ps, st.1.length ≤ p.1.localHeaderOffset) {e : Error} :
    ps.foldlM (retainRoom z name) st = .error e ↔
      ps.mapM (fun p => bindingRange z p.1 p.2) = .error e := by
  induction ps generalizing st with
  | nil => simp [pure, Except.pure]
  | cons p ps ih =>
      obtain ⟨hnext, hpair'⟩ := List.pairwise_cons.1 hpair
      have hroom' := fun q hq => hroom q (List.mem_cons_of_mem p hq)
      have hp := hroom p List.mem_cons_self
      have hlowp := hlow p List.mem_cons_self
      rw [List.foldlM_cons, List.mapM_cons]
      cases hr : bindingRange z p.1 p.2 with
      | error e' =>
          have hstep : retainRoom z name st p = .error e' := by rw [retainRoom, hr]; rfl
          rw [hstep, error_bind_eq_error, error_bind_eq_error]
      | ok r =>
          obtain ⟨hstart, hle, hstop, -⟩ := (bindingRange_eq_ok (by omega)).1 hr
          have hlen : (slice z r.start (r.stop - r.start)).length = r.stop - r.start :=
            length_slice (by omega)
          -- The round succeeds, and its output ends before the room does.
          obtain ⟨st', hstep, hst'⟩ : ∃ st', retainRoom z name st p = .ok st' ∧
              st'.1.length ≤ r.stop := by
            by_cases hn : p.1.name = name
            · refine ⟨st, ?_, by omega⟩
              simp only [retainRoom, hr, bind_eq_ok, Except.ok.injEq, exists_eq_left', if_pos hn,
                pure_eq_ok]
            · refine ⟨(st.1 ++ slice z r.start (r.stop - r.start),
                st.2 ++ [(p.1, UInt32.ofNat st.1.length)]), ?_, ?_⟩
              · simp only [retainRoom, hr, bind_eq_ok, Except.ok.injEq, exists_eq_left', if_neg hn,
                  pure_eq_ok, okOr_eq_ok, getRange_eq_some, u32TryFrom_eq_ok]
                exact ⟨_, ⟨hle, by omega, rfl⟩, _, ⟨by omega, rfl⟩, rfl⟩
              · rw [List.length_append, hlen]
                omega
          have hlow' : ∀ q ∈ ps, st'.1.length ≤ q.1.localHeaderOffset := fun q hq => by
            have := hnext q hq
            omega
          have hrest := ih hroom' hpair' hlow'
          rw [hstep]
          refine hrest.trans ?_
          cases ps.mapM (fun p => bindingRange z p.1 p.2) with
          | error e' => simp [bind, Except.bind]
          | ok rs => simp [bind, Except.bind, pure, Except.pure]

end FirstLoop

/-! ## Removing one name -/

namespace Archive

variable {A : Archive} {name : String}

/-- Every entry binds, or the first one that does not has an error. -/
theorem carries_or_error (A : Archive) : (∃ items, A.Carries items) ∨
    ∃ e, A.rooms.mapM (fun p => bindingRange A.bytes p.1 p.2) = .error e := by
  cases h : A.rooms.mapM (fun p => bindingRange A.bytes p.1 p.2) with
  | error e => exact Or.inr ⟨e, rfl⟩
  | ok rs =>
      refine Or.inl (A.exists_carries fun p hp => ?_)
      obtain ⟨r, -, hr⟩ := exists_right_of_forall₂ (mapM_eq_ok.1 h) hp
      exact ⟨r, hr⟩

theorem removeZipEntry_of_error {e : Error} (hname : ∃ d ∈ A.entries, d.name = name)
    (h : A.rooms.mapM (fun p => bindingRange A.bytes p.1 p.2) = .error e) :
    Zip.removeZipEntry A.bytes name = .error e := by
  have hdata := A.data_length_lt
  have hbytes := A.length_bytes
  have hany : ¬ ¬ A.layout.entries.any (fun d => d.name = name) := by simpa using hname
  have hloop : A.rooms.foldlM (retainRoom A.bytes name) ([], []) = .error e :=
    (foldlM_retainRoom_eq_error (by omega) (by omega) (fun p hp => A.room_le hp) A.pairwise_rooms
      fun p _ => Nat.zero_le _).2 h
  rw [Zip.removeZipEntry, A.parseLayout_bytes]
  show (if ¬ A.layout.entries.any (fun d => d.name = name) then _ else
    (A.layout.entries.zipIdx.foldlM _ _ >>= _)) = _
  rw [if_neg hany, foldlM_retainEntry, hloop]
  rfl

/-- Where every entry binds, the kept items are packed. -/
theorem Carries.removeZipEntry {items : List Item} (hA : A.Carries items)
    (hz : A.bytes.length < 2 ^ 32 - 1) (hname : ∃ d ∈ A.entries, d.name = name) :
    Fits (kept name items) ∧
      Zip.removeZipEntry A.bytes name = .ok (assembled (kept name items)) := by
  have hfits : Fits (kept name items) := fits_kept hA hz
  have hdir := hfits.directory
  exact ⟨hfits, (removeZipEntry_eq_ok hA hname).2 ⟨by omega, rfl⟩⟩

end Archive

/-- **A removal fails with the error of the first entry that does not bind**, and only with that. -/
theorem removal_fails_iff {z : List UInt8} {name : String} {L : ZipLayout} {e : Error}
    (hz : z.length < 2 ^ 32 - 1) (hL : parseLayout z = .ok L)
    (hname : ∃ d ∈ L.entries, d.name = name) :
    Zip.removeZipEntry z name = .error e ↔ ∃ i < L.entries.length,
      (∀ j < i, ∃ r, entryBindingRange z L j = .ok r) ∧ entryBindingRange z L i = .error e := by
  obtain ⟨A, rfl, rfl⟩ := exists_archive_of_parseLayout hL
  -- The traversal of the rooms, by index.
  have hrooms : A.rooms = (List.range A.layout.entries.length).map fun i =>
      (A.layout.entries[i]!, entryBoundary A.layout i) := rooms_eq_map_range A.layout
  have hindex : A.rooms.mapM (fun p => bindingRange A.bytes p.1 p.2) =
      (List.range A.layout.entries.length).mapM (entryBindingRange A.bytes A.layout) := by
    rw [hrooms, List.mapM_map]
    rfl
  rw [← mapM_range_eq_error, ← hindex]
  constructor
  · intro hrem
    rcases A.carries_or_error with ⟨items, hA⟩ | ⟨e', he'⟩
    · rw [(hA.removeZipEntry hz hname).2] at hrem
      cases hrem
    · rw [A.removeZipEntry_of_error hname he', Except.error.injEq] at hrem
      rw [he', hrem]
  · exact A.removeZipEntry_of_error hname

/-- Removing the first member fails with the error of the second one, whose CRC is wrong in the
local header. -/
theorem removal_fails_other_entry :
    Zip.removeZipEntry (overwrite (buildZip [("a", []), ("b", [])]) 45 [1]) "a" =
      .error .badOffset :=
  (removal_fails_iff (L := { entries := [⟨"a", 0, 0, 0, 0, 0, 0, 62, 47⟩,
                               ⟨"b", 0, 0, 0, 0, 0, 31, 109, 47⟩]
                             cdStart := 62
                             eocdOffset := 156 })
    (by decide +kernel) (by decide +kernel) (by decide)).2
    ⟨1, by decide, fun j hj => ⟨⟨0, 31⟩, by
      obtain rfl : j = 0 := Nat.lt_one_iff.1 hj
      decide +kernel⟩, by decide +kernel⟩

/-! ## What the member loop fails with -/

/-- Entry `i` has a name without dot segments, and binds. -/
def PassesAt (z : List UInt8) (L : ZipLayout) (i : Nat) : Prop :=
  Zip.validateMemberUri L.entries[i]!.name = .ok () ∧ ∃ r, entryBindingRange z L i = .ok r

/-- **The members fail with the error of the first entry that has a dot segment in its name or does
not bind**, the name first. -/
theorem members_fail_iff {z : List UInt8} {L : ZipLayout} {e : Error}
    (hL : parseLayout z = .ok L) : Binding.collectionMembers z = .error e ↔
      ∃ i < L.entries.length, (∀ j < i, PassesAt z L j) ∧
        (Zip.validateMemberUri L.entries[i]!.name = .error e ∨
          Zip.validateMemberUri L.entries[i]!.name = .ok () ∧
            entryBindingRange z L i = .error e) := by
  have hranges : Binding.collectionMembers z = .error e ↔ Zip.memberRanges z = .error e := by
    rw [Binding.collectionMembers]
    cases Zip.memberRanges z with
    | error e' => rw [error_bind_eq_error, Except.error.injEq]
    | ok rs => simp [bind, Except.bind, pure, Except.pure]
  -- One round succeeds where both of its checks do, and has the error of the first that fails.
  have hround : ∀ i, (∃ v, (do
      Zip.validateMemberUri L.entries[i]!.name
      let range ← entryBindingRange z L i
      return (L.entries[i]!.name, range) : Except Error (String × Range)) = .ok v) ↔
      PassesAt z L i := by
    intro i
    simp only [bind_eq_ok, pure_eq_ok, PassesAt]
    constructor
    · rintro ⟨v, u, hv, r, hr, -⟩
      exact ⟨hv, r, hr⟩
    · rintro ⟨hv, r, hr⟩
      exact ⟨_, (), hv, r, hr, rfl⟩
  have herror : ∀ i, (do
      Zip.validateMemberUri L.entries[i]!.name
      let range ← entryBindingRange z L i
      return (L.entries[i]!.name, range) : Except Error (String × Range)) = .error e ↔
      Zip.validateMemberUri L.entries[i]!.name = .error e ∨
        Zip.validateMemberUri L.entries[i]!.name = .ok () ∧
          entryBindingRange z L i = .error e := by
    intro i
    cases Zip.validateMemberUri L.entries[i]!.name with
    | error e' => simp [bind, Except.bind]
    | ok u =>
        cases entryBindingRange z L i with
        | error e' => simp [bind, Except.bind]
        | ok r => simp [bind, Except.bind, pure, Except.pure]
  rw [hranges, Zip.memberRanges, hL]
  show (List.range L.entries.length).mapM _ = _ ↔ _
  rw [mapM_range_eq_error]
  simp only [hround, herror]

/-- A path is rejected behind a member. -/
theorem members_fail_dot_segment :
    Binding.collectionMembers (buildZip [("a", []), ("x/../b", [])]) =
      .error (.invalidMemberPath "x/../b") :=
  (members_fail_iff (L := { entries := [⟨"a", 0, 0, 0, 0, 0, 0, 67, 47⟩,
                              ⟨"x/../b", 0, 0, 0, 0, 0, 31, 114, 52⟩]
                            cdStart := 67
                            eocdOffset := 166 }) (by decide +kernel)).2
    ⟨1, by decide, fun j hj => by
      obtain rfl : j = 0 := Nat.lt_one_iff.1 hj
      exact ⟨by decide +kernel, ⟨0, 31⟩, by decide +kernel⟩, Or.inl (by decide +kernel)⟩

/-- **Hashing and editing check the same entries**: the members can be hashed exactly where no name
has a dot segment and an entry can be removed, whichever it is. -/
theorem members_iff_removable {z : List UInt8} {name : String} {L : ZipLayout}
    (hz : z.length < 2 ^ 32 - 1) (hL : parseLayout z = .ok L)
    (hname : ∃ d ∈ L.entries, d.name = name) :
    (∃ ms, Binding.collectionMembers z = .ok ms) ↔
      (∀ d ∈ L.entries, Zip.validateMemberUri d.name = .ok ()) ∧
        ∃ out, Zip.removeZipEntry z name = .ok out := by
  obtain ⟨A, rfl, rfl⟩ := exists_archive_of_parseLayout hL
  constructor
  · rintro ⟨ms, hms⟩
    obtain ⟨rs, hrs, -⟩ := collectionMembers_eq_ok.1 hms
    have hrooms := A.memberRanges_eq_ok.1 hrs
    refine ⟨fun d hd => ?_, ?_⟩
    · rw [Archive.layout_entries, ← A.map_fst_rooms] at hd
      obtain ⟨p, hp, rfl⟩ := List.mem_map.1 hd
      obtain ⟨m, -, hv, -⟩ := exists_right_of_forall₂ hrooms hp
      exact hv
    · obtain ⟨items, hA⟩ := A.exists_carries fun p hp => by
        obtain ⟨m, -, -, hr, -⟩ := exists_right_of_forall₂ hrooms hp
        exact ⟨m.2, hr⟩
      exact ⟨_, (hA.removeZipEntry hz hname).2⟩
  · rintro ⟨hvalid, out, hrem⟩
    obtain ⟨items, hA⟩ := exists_carries_of_removeZipEntry hname hrem
    have hrooms : ∀ p ∈ A.rooms, ∃ m : String × Range, Zip.validateMemberUri p.1.name = .ok () ∧
        bindingRange A.bytes p.1 p.2 = .ok m.2 ∧ m.1 = p.1.name := by
      intro p hp
      obtain ⟨r, hr⟩ := hA.binds hp
      exact ⟨(p.1.name, r), hvalid p.1 (A.room_fst_mem hp), hr, rfl⟩
    obtain ⟨rs, hrs⟩ := exists_forall₂_of_forall hrooms
    exact ⟨_, collectionMembers_eq_ok.2 ⟨rs, A.memberRanges_eq_ok.2 hrs, rfl⟩⟩

/-- Either member of an archive without dot segments. -/
theorem members_iff_removable_first :
    (∃ ms, Binding.collectionMembers (buildZip [("a", []), ("b", [])]) = .ok ms) ↔
      (∀ d ∈ [(⟨"a", 0, 0, 0, 0, 0, 0, 62, 47⟩ : CdEntry), ⟨"b", 0, 0, 0, 0, 0, 31, 109, 47⟩],
        Zip.validateMemberUri d.name = .ok ()) ∧
      ∃ out, Zip.removeZipEntry (buildZip [("a", []), ("b", [])]) "a" = .ok out :=
  members_iff_removable (L := { entries := [⟨"a", 0, 0, 0, 0, 0, 0, 62, 47⟩,
                                  ⟨"b", 0, 0, 0, 0, 0, 31, 109, 47⟩]
                                cdStart := 62
                                eocdOffset := 156 })
    (by decide +kernel) (by decide +kernel) (by decide)

/-! ## Removing several names -/

theorem kept_comm (a b : String) (items : List Item) :
    kept a (kept b items) = kept b (kept a items) :=
  List.filter_comm _ _ _

/-- **Two removals commute**, also where one of them fails. -/
theorem Archive.removeZipEntry_comm (A : Archive) (hz : A.bytes.length < 2 ^ 32 - 1)
    (a b : String) :
    (Zip.removeZipEntry A.bytes a >>= fun y => Zip.removeZipEntry y b) =
      (Zip.removeZipEntry A.bytes b >>= fun y => Zip.removeZipEntry y a) := by
  -- Where `n` is absent, removing it changes nothing.
  have habsent : ∀ n, ¬ (∃ d ∈ A.entries, d.name = n) →
      Zip.removeZipEntry A.bytes n = .ok A.bytes :=
    fun n hn => removeZipEntry_of_absent fun d hd hdn => hn ⟨d, hd, hdn⟩
  rcases A.carries_or_error with ⟨items, hA⟩ | ⟨e, he⟩
  · -- What one present and any other name leave, in either order.
    have hpresent : ∀ n m, (∃ d ∈ A.entries, d.name = n) →
        (Zip.removeZipEntry A.bytes n >>= fun y => Zip.removeZipEntry y m) =
          .ok (assembled (kept m (kept n items))) := by
      intro n m hn
      obtain ⟨hfits, hrem⟩ := hA.removeZipEntry hz hn
      rw [hrem]
      exact removeZipEntry_assembled hfits m
    have hpacked : ∀ n m, (∃ d ∈ A.entries, d.name = n) → ¬ (∃ d ∈ A.entries, d.name = m) →
        Zip.removeZipEntry A.bytes n = .ok (assembled (kept m (kept n items))) := by
      intro n m hn hm
      have hself : kept m items = items := hA.kept_of_absent fun d hd hdm => hm ⟨d, hd, hdm⟩
      rw [kept_comm, hself, (hA.removeZipEntry hz hn).2]
    by_cases ha : ∃ d ∈ A.entries, d.name = a <;> by_cases hb : ∃ d ∈ A.entries, d.name = b
    · rw [hpresent a b ha, hpresent b a hb, kept_comm]
    · rw [hpresent a b ha, habsent b hb]
      exact (hpacked a b ha hb).symm
    · rw [hpresent b a hb, habsent a ha]
      exact hpacked b a hb ha
    · rw [habsent a ha, habsent b hb]
      show Zip.removeZipEntry A.bytes b = Zip.removeZipEntry A.bytes a
      rw [habsent a ha, habsent b hb]
  · have hfail : ∀ n, (∃ d ∈ A.entries, d.name = n) → Zip.removeZipEntry A.bytes n = .error e :=
      fun n hn => A.removeZipEntry_of_error hn he
    by_cases ha : ∃ d ∈ A.entries, d.name = a <;> by_cases hb : ∃ d ∈ A.entries, d.name = b
    · rw [hfail a ha, hfail b hb]
      rfl
    · rw [hfail a ha, habsent b hb]
      exact (hfail a ha).symm
    · rw [hfail b hb, habsent a ha]
      exact hfail b hb
    · rw [habsent a ha, habsent b hb]
      show Zip.removeZipEntry A.bytes b = Zip.removeZipEntry A.bytes a
      rw [habsent a ha, habsent b hb]

/-- **Names can be removed in any order**: the bytes that are left and the error of a failure are
the same. -/
theorem removals_any_order {z : List UInt8} {names names' : List String}
    (hz : z.length < 2 ^ 32 - 1) (hnames : names.Perm names') :
    names.foldlM Zip.removeZipEntry z = names'.foldlM Zip.removeZipEntry z := by
  refine foldlM_perm (I := fun y => y.length < 2 ^ 32 - 1) ?_ ?_ hnames hz
  · intro y out name hy hrem
    obtain ⟨A, rfl⟩ := exists_archive_of_bind hrem
    exact Nat.lt_of_le_of_lt (length_removeZipEntry_le hrem) hy
  · intro y a b hy
    cases hparse : parseLayout y with
    | error e =>
        have hfail : ∀ n, Zip.removeZipEntry y n = .error e := by
          intro n
          rw [Zip.removeZipEntry, hparse]
          rfl
        rw [hfail, hfail]
        rfl
    | ok L =>
        obtain ⟨A, rfl, -⟩ := exists_archive_of_parseLayout hparse
        exact A.removeZipEntry_comm hy a b

/-- Two of three members, in either order. -/
theorem removals_any_order_two :
    ["a", "c"].foldlM Zip.removeZipEntry (buildZip [("a", [7]), ("b", [1]), ("c", [])]) =
      ["c", "a"].foldlM Zip.removeZipEntry (buildZip [("a", [7]), ("b", [1]), ("c", [])]) :=
  removals_any_order (by decide +kernel) (List.Perm.swap "c" "a" [])

end C2paZip
