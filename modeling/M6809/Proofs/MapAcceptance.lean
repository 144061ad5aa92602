import M6809.Proofs.MapRouting

namespace M6809

namespace AddressRange

variable {range other : AddressRange} {taken : List AddressRange}

/-- Some address lies in both ranges. -/
def Meets (range other : AddressRange) : Prop :=
  ∃ address, range.contains address = true ∧ other.contains address = true

theorem Meets.symm (h : range.Meets other) : other.Meets range := by
  obtain ⟨address, hrange, hother⟩ := h
  exact ⟨address, hother, hrange⟩

theorem meets_iff_overlaps (hrange : range.first ≤ range.last) (hother : other.first ≤ other.last) :
    range.Meets other ↔ range.overlaps other = true := by
  simp only [Meets, contains_eq_true_iff, overlaps, Bool.and_eq_true, decide_eq_true_eq]
  constructor
  · rintro ⟨address, ⟨hfirst, hlast⟩, hfirst', hlast'⟩
    exact ⟨BitVec.le_trans hfirst hlast', BitVec.le_trans hfirst' hlast⟩
  · rintro ⟨hbelow, habove⟩
    -- the higher of the two starts is in both
    rcases BitVec.le_total range.first other.first with hle | hle
    · exact ⟨other.first, ⟨hle, habove⟩, BitVec.le_refl _, hother⟩
    · exact ⟨range.first, ⟨BitVec.le_refl _, hrange⟩, hle, hbelow⟩

/-- The range has an address, and none that is taken. -/
def Fits (range : AddressRange) (taken : List AddressRange) : Prop :=
  range.first ≤ range.last ∧ ∀ other ∈ taken, ¬range.Meets other

theorem Fits.cons (h : range.Fits taken) (hother : ¬range.Meets other) :
    range.Fits (other :: taken) :=
  ⟨h.1, List.forall_mem_cons.mpr ⟨hother, h.2⟩⟩

theorem fits_iff_of_perm {taken' : List AddressRange} (h : taken.Perm taken') :
    range.Fits taken ↔ range.Fits taken' := by
  simp only [Fits, h.mem_iff]

/-- The lowest of the taken ranges that the range meets. -/
def FirstMet (range : AddressRange) (taken : List AddressRange) (other : AddressRange) : Prop :=
  other ∈ taken ∧ range.Meets other ∧ ∀ lower ∈ taken, range.Meets lower → other.first ≤ lower.first

end AddressRange

open AddressRange

namespace Ascending

variable {ranges : List AddressRange} {range other : AddressRange}

theorem find?_overlaps_eq_some_iff (h : Ascending ranges) (hvalid : range.first ≤ range.last) :
    ranges.find? range.overlaps = some other ↔ range.FirstMet ranges other := by
  induction ranges with
  | nil => simp [FirstMet]
  | cons low rest ih =>
      obtain ⟨hlow, hrest⟩ := List.forall_mem_cons.mp h.valid
      obtain ⟨hbelow, -⟩ := List.pairwise_cons.mp h.first_lt
      have hup : Ascending rest := ⟨hrest, h.separate.of_cons⟩
      have hmeets := meets_iff_overlaps hvalid hlow
      cases htest : range.overlaps low with
      | true =>
          rw [List.find?_cons_of_pos htest, Option.some.injEq]
          constructor
          · rintro rfl
            refine ⟨List.mem_cons_self, hmeets.mpr htest, ?_⟩
            intro lower hlower _
            rcases List.mem_cons.mp hlower with rfl | hlower
            · exact BitVec.le_refl _
            · exact BitVec.le_of_lt (hbelow lower hlower)
          · rintro ⟨hother, -, hlowest⟩
            rcases List.mem_cons.mp hother with rfl | hother
            · rfl
            · have hle := hlowest low List.mem_cons_self (hmeets.mpr htest)
              exact absurd (hbelow other hother) (BitVec.not_lt.mpr hle)
      | false =>
          have hmissed : ¬range.Meets low := by simp [hmeets, htest]
          rw [List.find?_cons_of_neg (by simp [htest]), ih hup]
          simp only [FirstMet, List.mem_cons, forall_eq_or_imp, hmissed, false_imp_iff, true_and]
          constructor
          · rintro ⟨hother, hmet, hlowest⟩
            exact ⟨.inr hother, hmet, hlowest⟩
          · rintro ⟨rfl | hother, hmet, hlowest⟩
            · exact absurd hmet hmissed
            · exact ⟨hother, hmet, hlowest⟩

end Ascending

namespace MemoryMap

variable {δ : Type} {map : MemoryMap δ}

theorem Routed.eq_of_perm {map' : MemoryMap δ} {unmapped : Byte} (h : Routed unmapped map)
    (h' : Routed unmapped map') (hperm : map.mappings.Perm map'.mappings) : map = map' := by
  have hup := List.pairwise_map.mp h.ascending.first_lt
  have hup' := List.pairwise_map.mp h'.ascending.first_lt
  have hmappings : map.mappings = map'.mappings := by
    refine List.Perm.eq_of_pairwise ?_ hup hup' hperm
    intro a b _ _ hab hba
    exact absurd hab (BitVec.lt_asymm hba)
  have hunmapped : map.unmapped = map'.unmapped := h.unmapped_eq.trans h'.unmapped_eq.symm
  rcases map with ⟨value, mappings⟩
  rcases map' with ⟨value', mappings'⟩
  exact congr (congrArg MemoryMap.mk hunmapped) hmappings

section
variable {range : AddressRange} {device : δ}

theorem attach_eq_invalidRange_iff :
    map.attach range device = .error (.invalidRange range) ↔ range.last < range.first := by
  simp only [attach]
  split
  · rename_i hinvalid
    exact iff_of_true rfl hinvalid
  · rename_i hvalid
    apply iff_of_false _ hvalid
    split <;> simp

section
variable (h : Ascending map.ranges)
include h

theorem exists_attach_iff :
    (∃ after, map.attach range device = .ok after) ↔ range.Fits map.ranges := by
  simp only [attach_eq_ok_iff, Fits, ranges, List.forall_mem_map]
  constructor
  · rintro ⟨after, hvalid, hfree, -⟩
    refine ⟨hvalid, ?_⟩
    intro mapping hmapping
    have hother := h.valid _ (List.mem_map_of_mem hmapping)
    rw [meets_iff_overlaps hvalid hother, hfree mapping hmapping]
    simp
  · rintro ⟨hvalid, hfree⟩
    refine ⟨_, hvalid, ?_, rfl⟩
    intro mapping hmapping
    have hother := h.valid _ (List.mem_map_of_mem hmapping)
    simpa [meets_iff_overlaps hvalid hother] using hfree mapping hmapping

theorem attach_eq_overlap_iff {other : AddressRange} :
    map.attach range device = .error (.overlap range other) ↔
      range.first ≤ range.last ∧ range.FirstMet map.ranges other := by
  simp only [attach]
  split
  · rename_i hinvalid
    simp [BitVec.not_le.mpr hinvalid]
  · rename_i hvalid
    rw [BitVec.not_lt] at hvalid
    have hfound : (map.mappings.find? (range.overlaps ·.range)).map (·.range) = some other ↔ _ :=
      List.find?_map (p := range.overlaps) ▸ h.find?_overlaps_eq_some_iff hvalid
    simp only [hvalid, true_and, ← hfound]
    cases map.mappings.find? (range.overlaps ·.range) <;> simp

end

theorem mappings_attach_perm {after : MemoryMap δ} (h : map.attach range device = .ok after) :
    after.mappings.Perm (⟨range, device⟩ :: map.mappings) := by
  obtain ⟨-, -, rfl⟩ := attach_eq_ok_iff.mp h
  rw [← map.upTo_append_beyond range.first]
  exact List.perm_middle

end

/-- Those of the mappings that are taken when each is attached in turn. -/
def accepted (map : MemoryMap δ) : List (Mapping δ) → List (Mapping δ)
  | [] => []
  | mapping :: rest =>
    match map.attach mapping.range mapping.device with
    | .ok after => mapping :: after.accepted rest
    | .error _ => map.accepted rest

variable [Device δ]

def attachEach (map : MemoryMap δ) (mappings : List (Mapping δ)) : MemoryMap δ :=
  map.run (mappings.map fun mapping => .attach mapping.range mapping.device)

theorem attachEach_cons_of_ok {mapping : Mapping δ} {after : MemoryMap δ}
    (h : map.attach mapping.range mapping.device = .ok after) (rest : List (Mapping δ)) :
    map.attachEach (mapping :: rest) = after.attachEach rest := by
  simp only [attachEach, run, List.map_cons, List.foldl_cons, obey, h]

theorem attachEach_cons_of_error {mapping : Mapping δ} {error : MapError}
    (h : map.attach mapping.range mapping.device = .error error) (rest : List (Mapping δ)) :
    map.attachEach (mapping :: rest) = map.attachEach rest := by
  simp only [attachEach, run, List.map_cons, List.foldl_cons, obey, h]

theorem accepted_append (front back : List (Mapping δ)) :
    map.accepted (front ++ back) = map.accepted front ++ (map.attachEach front).accepted back := by
  induction front generalizing map with
  | nil => rfl
  | cons mapping rest ih =>
      rw [List.cons_append]
      cases hattach : map.attach mapping.range mapping.device with
      | ok after =>
          simp only [accepted, hattach, attachEach_cons_of_ok hattach, ih, List.cons_append]
      | error error => simp only [accepted, hattach, attachEach_cons_of_error hattach, ih]

theorem mappings_attachEach_perm (mappings : List (Mapping δ)) :
    (map.attachEach mappings).mappings.Perm (map.mappings ++ map.accepted mappings) := by
  induction mappings generalizing map with
  | nil => simp [attachEach, run, accepted]
  | cons mapping rest ih =>
      cases hattach : map.attach mapping.range mapping.device with
      | ok after =>
          simp only [accepted, hattach, attachEach_cons_of_ok hattach]
          have htaken := (mappings_attach_perm hattach).append_right (after.accepted rest)
          exact (ih.trans htaken).trans List.perm_middle.symm
      | error error =>
          simp only [accepted, hattach, attachEach_cons_of_error hattach]
          exact ih

theorem ranges_attachEach_perm (mappings : List (Mapping δ)) :
    (map.attachEach mappings).ranges.Perm
      (map.ranges ++ (map.accepted mappings).map (·.range)) := by
  simpa [ranges] using (map.mappings_attachEach_perm mappings).map (·.range)

section
variable {unmapped : Byte} (h : Routed unmapped map)
include h

theorem accepted_concat (front : List (Mapping δ)) (mapping : Mapping δ) :
    let taken := map.ranges ++ (map.accepted front).map (·.range)
    (mapping.range.Fits taken →
      map.accepted (front ++ [mapping]) = map.accepted front ++ [mapping]) ∧
    (¬mapping.range.Fits taken → map.accepted (front ++ [mapping]) = map.accepted front) := by
  intro taken
  have hfits : (∃ after, (map.attachEach front).attach mapping.range mapping.device = .ok after) ↔
      mapping.range.Fits taken := by
    have hup : Ascending (map.attachEach front).ranges := (h.run _).ascending
    rw [exists_attach_iff hup]
    exact fits_iff_of_perm (map.ranges_attachEach_perm front)
  rw [accepted_append, ← hfits]
  cases hattach : (map.attachEach front).attach mapping.range mapping.device with
  | ok after => simp [accepted, hattach]
  | error error => simp [accepted, hattach]

omit [Device δ] in
theorem accepted_eq_self {wanted : List (Mapping δ)}
    (hfit : ∀ mapping ∈ wanted, mapping.range.Fits map.ranges)
    (hapart : wanted.Pairwise fun mapping other => ¬mapping.range.Meets other.range) :
    map.accepted wanted = wanted := by
  induction wanted generalizing map with
  | nil => rfl
  | cons mapping rest ih =>
      obtain ⟨hfirst, hrest⟩ := List.forall_mem_cons.mp hfit
      obtain ⟨hclear, hapart⟩ := List.pairwise_cons.mp hapart
      obtain ⟨after, hattach⟩ :
          ∃ after, map.attach mapping.range mapping.device = .ok after :=
        (exists_attach_iff h.ascending).mpr hfirst
      have hperm := (mappings_attach_perm hattach).map (·.range)
      have hfit : ∀ other ∈ rest, other.range.Fits after.ranges := by
        intro other hother
        have hmissed : ¬other.range.Meets mapping.range := fun hmet => hclear other hother hmet.symm
        exact (fits_iff_of_perm hperm).mpr ((hrest other hother).cons hmissed)
      simp only [accepted, hattach, ih (h.attach hattach) hfit hapart]

theorem attachEach_eq_of_perm {wanted order : List (Mapping δ)}
    (hfit : ∀ mapping ∈ wanted, mapping.range.Fits map.ranges)
    (hapart : wanted.Pairwise fun mapping other => ¬mapping.range.Meets other.range)
    (hperm : order.Perm wanted) :
    map.accepted order = order ∧ map.attachEach order = map.attachEach wanted := by
  have hfit' : ∀ mapping ∈ order, mapping.range.Fits map.ranges :=
    fun mapping hmapping => hfit mapping (hperm.mem_iff.mp hmapping)
  have hapart' := (hperm.pairwise_iff fun hclear hmet => hclear hmet.symm).mpr hapart
  have horder := accepted_eq_self h hfit' hapart'
  have hwanted := accepted_eq_self h hfit hapart
  refine ⟨horder, ?_⟩
  refine Routed.eq_of_perm (h.run _) (h.run _) ?_
  have hleft := map.mappings_attachEach_perm order
  have hright := map.mappings_attachEach_perm wanted
  rw [horder] at hleft
  rw [hwanted] at hright
  exact (hleft.trans (hperm.append_left map.mappings)).trans hright.symm

end

/-- At any time a device is refused exactly for a range that ends before it starts or for one that
meets a range of the map, the lowest of which is named, and a refusal leaves the map as it is. Of a
list of devices those are taken that meet none taken before, so where none meets another all are
taken, in every order, to the same map. -/
theorem ranges_decide_acceptance (unmapped : Byte) (commands : List (Command δ)) :
    let map := (empty unmapped).run commands
    (∀ range device,
      (map.attach range device = .error (.invalidRange range) ↔ range.last < range.first) ∧
      (∀ other, map.attach range device = .error (.overlap range other) ↔
        range.first ≤ range.last ∧ range.FirstMet map.ranges other) ∧
      ((∃ after, map.attach range device = .ok after) ↔ range.Fits map.ranges) ∧
      (∀ error, map.attach range device = .error error → map.obey (.attach range device) = map) ∧
      ∀ after, map.attach range device = .ok after →
        map.obey (.attach range device) = after ∧ after.unmapped = map.unmapped ∧
        after.mappings.Perm (⟨range, device⟩ :: map.mappings) ∧ after.size = map.size + 1) ∧
    (∀ wanted order : List (Mapping δ), (∀ mapping ∈ wanted, mapping.range.Fits map.ranges) →
      wanted.Pairwise (fun mapping other => ¬mapping.range.Meets other.range) →
      order.Perm wanted →
        map.accepted order = order ∧ map.attachEach order = map.attachEach wanted) ∧
    ∀ front mapping,
      (map.attachEach front).mappings.Perm (map.mappings ++ map.accepted front) ∧
      (mapping.range.Fits (map.ranges ++ (map.accepted front).map (·.range)) →
        map.accepted (front ++ [mapping]) = map.accepted front ++ [mapping]) ∧
      (¬mapping.range.Fits (map.ranges ++ (map.accepted front).map (·.range)) →
        map.accepted (front ++ [mapping]) = map.accepted front) := by
  intro map
  have hrouted : Routed unmapped map := routed_run unmapped commands
  refine ⟨?_, ?_, ?_⟩
  · intro range device
    refine ⟨attach_eq_invalidRange_iff, fun other => attach_eq_overlap_iff hrouted.ascending,
      exists_attach_iff hrouted.ascending, ?_, ?_⟩
    · intro error herror
      simp only [obey, herror]
    · intro after hafter
      have hperm := mappings_attach_perm hafter
      have hunmapped := (hrouted.attach hafter).unmapped_eq.trans hrouted.unmapped_eq.symm
      refine ⟨?_, hunmapped, hperm, hperm.length_eq⟩
      simp only [obey, hafter]
  · intro wanted order hfit hapart hperm
    exact attachEach_eq_of_perm hrouted hfit hapart hperm
  · intro front mapping
    obtain ⟨htaken, hrefused⟩ := accepted_concat hrouted front mapping
    exact ⟨map.mappings_attachEach_perm front, htaken, hrefused⟩

/-- A gap is filled up to its ends, before or after the byte at the top of memory. -/
theorem gap_and_top_in_either_order :
    let map := (empty 0xEE : MemoryMap Counter).run
      [.attach ⟨0x8000, 0x80FF⟩ ⟨2⟩, .attach ⟨0x4000, 0x4FFF⟩ ⟨1⟩, .read 0x4000]
    let gap : Mapping Counter := ⟨⟨0x5000, 0x7FFF⟩, ⟨3⟩⟩
    let top : Mapping Counter := ⟨⟨0xFFFF, 0xFFFF⟩, ⟨4⟩⟩
    let wide : AddressRange := ⟨0x4FFF, 0x8000⟩
    wide.FirstMet map.ranges ⟨0x4000, 0x4FFF⟩ ∧ map.obey (.attach wide ⟨5⟩) = map ∧
      (∀ after, map.attach gap.range gap.device = .ok after → after.size = 3) ∧
      gap.range.Fits map.ranges ∧ top.range.Fits map.ranges ∧
      map.accepted [top, gap] = [top, gap] ∧
      map.attachEach [top, gap] = map.attachEach [gap, top] ∧
      map.accepted ([top, gap] ++ [⟨wide, ⟨5⟩⟩]) = [top, gap] := by
  intro map gap top wide
  obtain ⟨hone, hany, heach⟩ := ranges_decide_acceptance (δ := Counter) 0xEE
    [.attach ⟨0x8000, 0x80FF⟩ ⟨2⟩, .attach ⟨0x4000, 0x4FFF⟩ ⟨1⟩, .read 0x4000]
  obtain ⟨-, hoverlap, -, hkept, -⟩ := hone wide ⟨5⟩
  have hrefused : map.attach wide ⟨5⟩ = .error (.overlap wide ⟨0x4000, 0x4FFF⟩) := rfl
  have hmet := ((hoverlap _).mp hrefused).2
  obtain ⟨-, -, hgap, -, htaken⟩ := hone gap.range gap.device
  obtain ⟨-, -, htop, -, -⟩ := hone top.range top.device
  have hfit : ∀ mapping ∈ [gap, top], mapping.range.Fits map.ranges := by
    simp only [List.forall_mem_cons]
    exact ⟨hgap.mp ⟨_, rfl⟩, htop.mp ⟨_, rfl⟩, by simp⟩
  have hapart : ¬gap.range.Meets top.range := by
    rw [meets_iff_overlaps (by decide) (by decide)]
    decide
  obtain ⟨haccepted, hsame⟩ := hany [gap, top] [top, gap] hfit (by simpa using hapart)
    (.swap gap top [])
  refine ⟨hmet, hkept _ hrefused, ?_, hgap.mp ⟨_, rfl⟩, htop.mp ⟨_, rfl⟩, haccepted, hsame, ?_⟩
  · intro after hafter
    exact (htaken after hafter).2.2.2
  · have hwide : ¬wide.Fits (map.ranges ++ (map.accepted [top, gap]).map (·.range)) := by
      rintro ⟨-, hclear⟩
      exact hclear ⟨0x4000, 0x4FFF⟩ (List.mem_append_left _ hmet.1) hmet.2.1
    exact (heach [top, gap] ⟨wide, ⟨5⟩⟩).2.2 hwide |>.trans haccepted

end MemoryMap

end M6809
