import M6809.MemoryMap
import Mathlib.Data.List.TakeWhile

/-!
Routing. Whatever was attached, refused, read and written before, the ranges of a memory map lie
one above another; so the last mapping that starts at or below an address is the only one that
can hold it. The main statement says so of every run, and what an access changes.
-/
namespace M6809

namespace AddressRange

theorem contains_eq_true_iff (range : AddressRange) (address : Word) :
    range.contains address = true ↔ range.first ≤ address ∧ address ≤ range.last := by
  simp only [contains, Bool.and_eq_true, decide_eq_true_eq]

theorem lt_or_lt_of_overlaps_eq_false {range other : AddressRange}
    (h : range.overlaps other = false) : other.last < range.first ∨ range.last < other.first := by
  simp only [overlaps, Bool.and_eq_false_iff, decide_eq_false_iff_not, BitVec.not_le] at h
  exact h

theorem toNat_offset {range : AddressRange} {address : Word}
    (h : range.contains address = true) :
    (address - range.first).toNat = address.toNat - range.first.toNat ∧
      address - range.first ≤ range.last - range.first := by
  obtain ⟨hfirst, hlast⟩ := (contains_eq_true_iff range address).mp h
  constructor <;> bv_omega

end AddressRange

/-- Ranges that hold an address each and lie one above another. -/
structure Ascending (ranges : List AddressRange) : Prop where
  valid : ∀ range ∈ ranges, range.first ≤ range.last
  separate : ranges.Pairwise fun lower upper => lower.last < upper.first

namespace Ascending

variable {ranges : List AddressRange}

theorem nil : Ascending [] := ⟨by simp, .nil⟩

theorem first_lt (h : Ascending ranges) :
    ranges.Pairwise fun lower upper => lower.first < upper.first := by
  apply h.separate.imp_of_mem
  intro lower upper hlower _ hbelow
  have := h.valid lower hlower
  bv_omega

theorem place_eq (h : Ascending ranges) {i j : Nat} {range other : AddressRange} {address : Word}
    (hi : ranges[i]? = some range) (hj : ranges[j]? = some other)
    (hrange : range.contains address = true) (hother : other.contains address = true) :
    i = j := by
  obtain ⟨hiLength, rfl⟩ := List.getElem?_eq_some_iff.mp hi
  obtain ⟨hjLength, rfl⟩ := List.getElem?_eq_some_iff.mp hj
  rw [AddressRange.contains_eq_true_iff] at hrange hother
  have hbelow := List.pairwise_iff_getElem.mp h.separate
  rcases Nat.lt_trichotomy i j with hlt | heq | hgt
  · have := hbelow i j hiLength hjLength hlt
    bv_omega
  · exact heq
  · have := hbelow j i hjLength hiLength hgt
    bv_omega

theorem insert {range : AddressRange} {lower upper : List AddressRange}
    (h : Ascending (lower ++ upper)) (hvalid : range.first ≤ range.last)
    (hfree : ∀ other ∈ lower ++ upper, range.overlaps other = false)
    (hlower : ∀ other ∈ lower, other.first ≤ range.first)
    (hupper : ∀ other ∈ upper, range.first < other.first) :
    Ascending (lower ++ range :: upper) := by
  obtain ⟨hlowers, huppers, hbetween⟩ := List.pairwise_append.mp h.separate
  constructor
  · intro other hother
    rw [List.perm_middle.mem_iff, List.mem_cons] at hother
    rcases hother with rfl | hother
    · exact hvalid
    · exact h.valid other hother
  · refine List.pairwise_append.mpr ⟨hlowers, List.pairwise_cons.mpr ⟨?_, huppers⟩, ?_⟩
    · intro other hother
      have hmem := List.mem_append_right lower hother
      have hstart := hupper other hother
      have := h.valid other hmem
      rcases AddressRange.lt_or_lt_of_overlaps_eq_false (hfree other hmem) with hbelow | habove
      · bv_omega
      · exact habove
    · intro other hother above habove
      have hmem := List.mem_append_left upper hother
      rcases List.mem_cons.mp habove with rfl | habove
      · have hstart := hlower other hother
        rcases AddressRange.lt_or_lt_of_overlaps_eq_false (hfree other hmem) with hbelow | hover
        · exact hbelow
        · bv_omega
      · exact hbetween other hother above habove

end Ascending

theorem eq_false_of_mem_dropWhile {α : Type} {p : α → Bool} {l : List α}
    (h : l.Pairwise fun a b => p b = true → p a = true) {a : α} (ha : a ∈ l.dropWhile p) :
    p a = false := by
  induction l with
  | nil => cases ha
  | cons first rest ih =>
      obtain ⟨hfirst, hrest⟩ := List.pairwise_cons.mp h
      rw [List.dropWhile_cons] at ha
      split at ha
      · exact ih hrest ha
      · rename_i hfails
        rcases List.mem_cons.mp ha with rfl | ha
        · simpa using hfails
        · apply Bool.eq_false_iff.mpr
          intro hpasses
          exact hfails (hfirst a ha hpasses)

namespace MemoryMap

variable {δ : Type} {map : MemoryMap δ}

def ranges (map : MemoryMap δ) : List AddressRange := map.mappings.map (·.range)

/-- The order by which a device finds its place among the others. -/
def startsBelow (mapping other : Mapping δ) : Bool := mapping.range.first ≤ other.range.first

theorem getElem?_ranges {place : Nat} {mapping : Mapping δ}
    (h : map.mappings[place]? = some mapping) : map.ranges[place]? = some mapping.range := by
  rw [ranges, List.getElem?_map, h, Option.map_some]

theorem upTo_append_beyond (map : MemoryMap δ) (address : Word) :
    map.upTo address ++ map.beyond address = map.mappings :=
  List.takeWhile_append_dropWhile

theorem first_le_of_mem_upTo {address : Word} {mapping : Mapping δ}
    (h : mapping ∈ map.upTo address) : mapping.range.first ≤ address := by
  simpa using List.mem_takeWhile_imp h

section
variable (h : Ascending map.ranges)
include h

theorem lt_first_of_mem_beyond {address : Word} {mapping : Mapping δ}
    (hmapping : mapping ∈ map.beyond address) : address < mapping.range.first := by
  have hsorted := List.pairwise_map.mp h.first_lt
  have hdivided : map.mappings.Pairwise fun a b =>
      decide (b.range.first ≤ address) = true → decide (a.range.first ≤ address) = true := by
    apply hsorted.imp
    intro a b hlt hle
    simp only [decide_eq_true_eq] at hle ⊢
    bv_omega
  simpa using eq_false_of_mem_dropWhile hdivided hmapping

theorem first_le_iff_lt_length_upTo {address : Word} {i : Nat} {mapping : Mapping δ}
    (hi : map.mappings[i]? = some mapping) :
    mapping.range.first ≤ address ↔ i < (map.upTo address).length := by
  -- the starts go up, so those at or below the address are the front of the list
  rw [← map.upTo_append_beyond address, List.getElem?_append] at hi
  split at hi
  · rename_i hlt
    exact iff_of_true (first_le_of_mem_upTo (List.mem_of_getElem? hi)) hlt
  · rename_i hge
    have habove := lt_first_of_mem_beyond h (List.mem_of_getElem? hi)
    exact iff_of_false (BitVec.not_le.mpr habove) hge

theorem owner?_eq_some_iff {address : Word} {place : Nat} {mapping : Mapping δ} :
    map.owner? address = some (place, mapping) ↔
      map.mappings[place]? = some mapping ∧ mapping.range.contains address = true := by
  rw [AddressRange.contains_eq_true_iff]
  constructor
  · intro howner
    unfold owner? at howner
    cases hlast : (map.upTo address).getLast? with
    | none => simp [hlast] at howner
    | some last =>
        simp only [hlast, Option.ite_none_right_eq_some, Option.some.injEq, Prod.mk.injEq]
          at howner
        obtain ⟨hle, rfl, rfl⟩ := howner
        obtain ⟨front, hfront⟩ := List.getLast?_eq_some_iff.mp hlast
        refine ⟨?_, first_le_of_mem_upTo (List.mem_of_getLast? hlast), hle⟩
        rw [← map.upTo_append_beyond address, hfront]
        simp
  · rintro ⟨hplace, hfirst, hle⟩
    have hlt := (first_le_iff_lt_length_upTo h hplace).mp hfirst
    have hlast : map.upTo address ≠ [] := List.ne_nil_of_length_pos (by omega)
    obtain ⟨front, last, hfront⟩ := List.eq_nil_or_concat (map.upTo address) |>.resolve_left hlast
    -- a mapping behind the owner would start above the address
    have hplaceLast : place = front.length := by
      have hlength : (map.upTo address).length = front.length + 1 := by simp [hfront]
      by_contra hne
      have hbefore : place < front.length := by omega
      have hat : map.mappings[front.length]? = some last := by
        rw [← map.upTo_append_beyond address, hfront]
        simp
      have hseparate := List.pairwise_map.mp h.separate
      obtain ⟨hi, rfl⟩ := List.getElem?_eq_some_iff.mp hplace
      obtain ⟨hj, rfl⟩ := List.getElem?_eq_some_iff.mp hat
      have hbelow := List.pairwise_iff_getElem.mp hseparate place front.length hi hj hbefore
      have hlast : front.length < (map.upTo address).length := by omega
      have hstart := (first_le_iff_lt_length_upTo h hat).mpr hlast
      bv_omega
    subst hplaceLast
    have hmapping : last = mapping := by
      rw [← map.upTo_append_beyond address, hfront] at hplace
      simpa using hplace
    unfold owner?
    simp [hfront, hmapping, hle]

theorem owner?_eq_none_iff {address : Word} :
    map.owner? address = none ↔
      ∀ mapping ∈ map.mappings, mapping.range.contains address = false := by
  constructor
  · intro hnone mapping hmapping
    obtain ⟨place, hplace⟩ := List.mem_iff_getElem?.mp hmapping
    apply Bool.eq_false_iff.mpr
    intro hcontains
    rw [(owner?_eq_some_iff h).mpr ⟨hplace, hcontains⟩] at hnone
    cases hnone
  · intro hfree
    cases howner : map.owner? address with
    | none => rfl
    | some found =>
        obtain ⟨hplace, hcontains⟩ := (owner?_eq_some_iff h).mp howner
        rw [hfree _ (List.mem_of_getElem? hplace)] at hcontains
        cases hcontains

theorem map_owner?_eq_find? (address : Word) :
    (map.owner? address).map (·.2) = map.mappings.find? (·.range.contains address) := by
  cases howner : map.owner? address with
  | none =>
      symm
      apply List.find?_eq_none.mpr
      intro mapping hmapping
      simpa using (owner?_eq_none_iff h).mp howner mapping hmapping
  | some found =>
      obtain ⟨place, mapping⟩ := found
      obtain ⟨hplace, hcontains⟩ := (owner?_eq_some_iff h).mp howner
      obtain ⟨hlt, hat⟩ := List.getElem?_eq_some_iff.mp hplace
      symm
      apply List.find?_eq_some_iff_getElem.mpr
      refine ⟨hcontains, place, hlt, hat, ?_⟩
      intro j hj
      rw [Bool.not_eq_true', Bool.eq_false_iff]
      intro hother
      have hjth := List.getElem?_eq_getElem (Nat.lt_trans hj hlt)
      have := h.place_eq (getElem?_ranges hjth) (getElem?_ranges hplace) hother hcontains
      omega

end

section
variable {range : AddressRange} {device : δ} {after : MemoryMap δ}

theorem attach_eq_ok_iff :
    map.attach range device = .ok after ↔ range.first ≤ range.last ∧
      (∀ mapping ∈ map.mappings, range.overlaps mapping.range = false) ∧
        after = { map with
          mappings := map.upTo range.first ++ ⟨range, device⟩ :: map.beyond range.first } := by
  unfold attach
  split
  · rename_i hinvalid
    have hnot : ¬range.first ≤ range.last := BitVec.not_le.mpr hinvalid
    simp [hnot]
  · rename_i hvalid
    rw [BitVec.not_lt] at hvalid
    cases hfind : map.mappings.find? (range.overlaps ·.range) with
    | some other =>
        have hother := List.mem_of_find?_eq_some hfind
        have hoverlaps := List.find?_some hfind
        simp only [reduceCtorEq, false_iff]
        rintro ⟨-, hfree, -⟩
        rw [hfree other hother] at hoverlaps
        cases hoverlaps
    | none =>
        have hfree : ∀ mapping ∈ map.mappings, range.overlaps mapping.range = false := by
          simpa using List.find?_eq_none.mp hfind
        constructor
        · intro hafter
          exact ⟨hvalid, hfree, (Except.ok.inj hafter).symm⟩
        · rintro ⟨-, -, rfl⟩
          rfl

theorem ascending_attach (h : Ascending map.ranges)
    (hattach : map.attach range device = .ok after) : Ascending after.ranges := by
  obtain ⟨hvalid, hfree, rfl⟩ := attach_eq_ok_iff.mp hattach
  rw [ranges, ← map.upTo_append_beyond range.first, List.map_append] at h
  rw [← map.upTo_append_beyond range.first] at hfree
  rw [ranges, List.map_append, List.map_cons]
  refine h.insert hvalid ?_ ?_ ?_ <;> simp only [← List.map_append, List.forall_mem_map]
  · exact hfree
  · intro mapping hmapping
    exact first_le_of_mem_upTo hmapping
  · intro mapping hmapping
    rw [← List.map_append, map.upTo_append_beyond] at h
    exact lt_first_of_mem_beyond h hmapping

/-- A device is put where sorting by the starts would put it. -/
theorem mappings_attach_eq_mergeSort (h : Ascending map.ranges)
    (hattach : map.attach range device = .ok after) :
    after.mappings = (map.mappings ++ [⟨range, device⟩] : List (Mapping δ)).mergeSort
      startsBelow := by
  have hafter := ascending_attach h hattach
  have hsorted : after.mappings.Pairwise fun a b => startsBelow a b = true := by
    apply (List.pairwise_map.mp hafter.first_lt).imp
    intro a b hlt
    simpa [startsBelow] using BitVec.le_of_lt hlt
  have hperm : after.mappings.Perm (map.mappings ++ [⟨range, device⟩]) := by
    obtain ⟨-, -, rfl⟩ := attach_eq_ok_iff.mp hattach
    refine List.perm_middle.trans ?_
    rw [map.upTo_append_beyond]
    exact (List.perm_append_singleton _ _).symm
  have hsort := List.mergeSort_perm (map.mappings ++ [⟨range, device⟩]) startsBelow
  refine List.Perm.eq_of_pairwise ?_ hsorted ?_ (hperm.trans hsort.symm)
  · -- equal starts make equal places, so there are no ties to keep in order
    intro a b ha hb hab hba
    obtain ⟨i, hi⟩ := List.mem_iff_getElem?.mp ha
    obtain ⟨j, hj⟩ := List.mem_iff_getElem?.mp (hsort.trans hperm.symm |>.mem_iff.mp hb)
    simp only [startsBelow, decide_eq_true_eq] at hab hba
    have hvalid := hafter.valid _ (List.mem_of_getElem? (getElem?_ranges hi))
    have hvalid' := hafter.valid _ (List.mem_of_getElem? (getElem?_ranges hj))
    have hplace := hafter.place_eq (getElem?_ranges hi) (getElem?_ranges hj)
      ((AddressRange.contains_eq_true_iff _ a.range.first).mpr ⟨BitVec.le_refl _, hvalid⟩)
      ((AddressRange.contains_eq_true_iff _ a.range.first).mpr
        ⟨hba, BitVec.le_trans hab hvalid'⟩)
    subst hplace
    exact Option.some.inj (hi.symm.trans hj)
  · apply List.pairwise_mergeSort
    · intro a b c hab hbc
      simp only [startsBelow, decide_eq_true_eq] at hab hbc ⊢
      exact BitVec.le_trans hab hbc
    · intro a b
      simpa [startsBelow] using BitVec.le_total a.range.first b.range.first

end

theorem ranges_replace {place : Nat} {mapping : Mapping δ}
    (h : map.mappings[place]? = some mapping) (device : δ) :
    (map.replace place mapping device).ranges = map.ranges := by
  obtain ⟨hlength, hrange⟩ := List.getElem?_eq_some_iff.mp (getElem?_ranges h)
  have hset : (map.replace place mapping device).ranges = map.ranges.set place mapping.range :=
    List.map_set
  rw [hset, ← hrange, List.set_getElem_self]

theorem getElem?_mappings_replace {place : Nat} {mapping : Mapping δ}
    (h : map.mappings[place]? = some mapping) (device : δ) (i : Nat) :
    (map.replace place mapping device).mappings[i]? =
      if i = place then some { mapping with device } else map.mappings[i]? := by
  obtain ⟨hlength, rfl⟩ := List.getElem?_eq_some_iff.mp h
  unfold replace
  rw [List.getElem?_set]
  simp only [hlength, if_true, eq_comm]

variable [Device δ]

theorem read_of_owner? {address : Word} {place : Nat} {mapping : Mapping δ}
    (h : map.owner? address = some (place, mapping)) :
    map.read address =
      ((Device.read mapping.device (address - mapping.range.first)).1,
        map.replace place mapping
          (Device.read mapping.device (address - mapping.range.first)).2) := by
  unfold read
  rw [h]

theorem write_of_owner? {address : Word} {place : Nat} {mapping : Mapping δ}
    (h : map.owner? address = some (place, mapping)) (value : Byte) :
    map.write address value = map.replace place mapping
      (Device.write mapping.device (address - mapping.range.first) value) := by
  unfold write
  rw [h]

theorem read_of_owner?_eq_none {address : Word} (h : map.owner? address = none) :
    map.read address = (map.unmapped, map) := by
  unfold read
  rw [h]

theorem write_of_owner?_eq_none {address : Word} (h : map.owner? address = none) (value : Byte) :
    map.write address value = map := by
  unfold write
  rw [h]

/-- What is done with a memory map. -/
inductive Command (δ : Type) where
  | attach (range : AddressRange) (device : δ)
  | read (address : Word)
  | write (address : Word) (value : Byte)

/-- A device that is refused leaves the map as it is. -/
def obey (map : MemoryMap δ) : Command δ → MemoryMap δ
  | .attach range device =>
    match map.attach range device with
    | .ok after => after
    | .error _ => map
  | .read address => (map.read address).2
  | .write address value => map.write address value

def run (map : MemoryMap δ) (commands : List (Command δ)) : MemoryMap δ := commands.foldl obey map

/-- What every command keeps. -/
structure Routed (unmapped : Byte) (map : MemoryMap δ) : Prop where
  ascending : Ascending map.ranges
  unmapped_eq : map.unmapped = unmapped

namespace Routed

variable {unmapped : Byte}

omit [Device δ] in
theorem replace (h : Routed unmapped map) {place : Nat} {mapping : Mapping δ}
    (hplace : map.mappings[place]? = some mapping) (device : δ) :
    Routed unmapped (map.replace place mapping device) where
  ascending := by
    rw [ranges_replace hplace]
    exact h.ascending
  unmapped_eq := h.unmapped_eq

omit [Device δ] in
theorem attach (h : Routed unmapped map) {range : AddressRange} {device : δ}
    {after : MemoryMap δ} (hattach : map.attach range device = .ok after) :
    Routed unmapped after where
  ascending := ascending_attach h.ascending hattach
  unmapped_eq := by
    obtain ⟨-, -, rfl⟩ := attach_eq_ok_iff.mp hattach
    exact h.unmapped_eq

theorem read (h : Routed unmapped map) (address : Word) :
    Routed unmapped (map.read address).2 := by
  cases howner : map.owner? address with
  | none =>
      rw [read_of_owner?_eq_none howner]
      exact h
  | some found =>
      rw [read_of_owner? howner]
      exact h.replace ((owner?_eq_some_iff h.ascending).mp howner).1 _

theorem write (h : Routed unmapped map) (address : Word) (value : Byte) :
    Routed unmapped (map.write address value) := by
  cases howner : map.owner? address with
  | none =>
      rw [write_of_owner?_eq_none howner]
      exact h
  | some found =>
      rw [write_of_owner? howner]
      exact h.replace ((owner?_eq_some_iff h.ascending).mp howner).1 _

theorem obey (h : Routed unmapped map) (command : Command δ) :
    Routed unmapped (map.obey command) := by
  cases command with
  | attach range device =>
      simp only [MemoryMap.obey]
      split
      · rename_i after hattach
        exact h.attach hattach
      · exact h
  | read address => exact h.read address
  | write address value => exact h.write address value

theorem run (h : Routed unmapped map) (commands : List (Command δ)) :
    Routed unmapped (map.run commands) := by
  induction commands generalizing map with
  | nil => exact h
  | cons command rest ih => exact ih (h.obey command)

end Routed

theorem routed_run (unmapped : Byte) (commands : List (Command δ)) :
    Routed unmapped ((empty unmapped).run commands) := by
  have hempty : Routed unmapped (empty unmapped : MemoryMap δ) := ⟨Ascending.nil, rfl⟩
  exact hempty.run commands

/-- After every run the ranges lie one above another, where sorting by their starts puts them. So
an access reaches the one device whose range holds its address, at an offset within that range,
and moves nothing else; outside of all ranges it moves nothing and reads the value set for this. -/
theorem routes_to_the_only_owner (unmapped : Byte) (commands : List (Command δ)) :
    let map := (empty unmapped).run commands
    (∀ mapping ∈ map.mappings, mapping.range.first ≤ mapping.range.last) ∧
    map.mappings.Pairwise (fun lower upper => lower.range.last < upper.range.first) ∧
    (∀ range device after, map.attach range device = .ok after → after.mappings =
      (map.mappings ++ [⟨range, device⟩] : List (Mapping δ)).mergeSort startsBelow) ∧
    ∀ address,
      (∀ i mapping, map.mappings[i]? = some mapping →
        (mapping.range.first ≤ address ↔ i < (map.upTo address).length)) ∧
      (map.owner? address).map (·.2) = map.mappings.find? (·.range.contains address) ∧
      (∀ place mapping, map.mappings[place]? = some mapping →
        mapping.range.contains address = true →
          let offset := address - mapping.range.first
          map.owner? address = some (place, mapping) ∧
          offset.toNat = address.toNat - mapping.range.first.toNat ∧
          mapping.range.first ≤ address ∧ offset ≤ mapping.range.last - mapping.range.first ∧
          (map.read address).1 = (Device.read mapping.device offset).1 ∧
          (∀ i, (map.read address).2.mappings[i]? =
            if i = place then
              some { mapping with device := (Device.read mapping.device offset).2 }
            else map.mappings[i]?) ∧
          ∀ value i, (map.write address value).mappings[i]? =
            if i = place then
              some { mapping with device := Device.write mapping.device offset value }
            else map.mappings[i]?) ∧
      ((∀ mapping ∈ map.mappings, mapping.range.contains address = false) →
        map.owner? address = none ∧ map.read address = (unmapped, map) ∧
        ∀ value, map.write address value = map) := by
  intro map
  have hrouted : Routed unmapped map := routed_run unmapped commands
  have hascending := hrouted.ascending
  refine ⟨?_, List.pairwise_map.mp hascending.separate, ?_, ?_⟩
  · intro mapping hmapping
    exact hascending.valid _ (List.mem_map_of_mem hmapping)
  · intro range device after hattach
    exact mappings_attach_eq_mergeSort hascending hattach
  · intro address
    refine ⟨?_, map_owner?_eq_find? hascending address, ?_, ?_⟩
    · intro i mapping hi
      exact first_le_iff_lt_length_upTo hascending hi
    · intro place mapping hplace hcontains offset
      have howner := (owner?_eq_some_iff hascending).mpr ⟨hplace, hcontains⟩
      obtain ⟨hoffset, hwithin⟩ := AddressRange.toNat_offset hcontains
      obtain ⟨hfirst, -⟩ := (AddressRange.contains_eq_true_iff _ _).mp hcontains
      rw [read_of_owner? howner]
      refine ⟨howner, hoffset, hfirst, hwithin, rfl, getElem?_mappings_replace hplace _, ?_⟩
      intro value
      rw [write_of_owner? howner]
      exact getElem?_mappings_replace hplace _
    · intro hfree
      have hnone := (owner?_eq_none_iff hascending).mpr hfree
      rw [read_of_owner?_eq_none hnone, hrouted.unmapped_eq]
      exact ⟨hnone, rfl, write_of_owner?_eq_none hnone⟩

/-- One byte at the top of memory above two ranges that touch, with a refusal on the way. -/
theorem counter_at_the_top_is_routed :
    let commands : List (Command Counter) := [.attach ⟨0x8000, 0x8FFF⟩ ⟨1⟩,
      .attach ⟨0x7000, 0x8000⟩ ⟨2⟩, .attach ⟨0xFFFF, 0xFFFF⟩ ⟨3⟩, .attach ⟨0x0000, 0x7FFF⟩ ⟨4⟩,
      .read 0xFFFF, .write 0x9000 5]
    let map := (empty 0xEE).run commands
    let top : Mapping Counter := ⟨⟨0xFFFF, 0xFFFF⟩, ⟨4⟩⟩
    map.mappings[2]? = some top ∧ top.range.contains 0xFFFF = true ∧
      map.owner? 0xFFFF = some (2, top) ∧ (map.read 0xFFFF).1 = 4 ∧
      (map.read 0xFFFF).2.mappings[1]? = map.mappings[1]? ∧
      (∀ mapping ∈ map.mappings, mapping.range.contains 0x9000 = false) ∧
      map.read 0x9000 = (0xEE, map) := by
  intro commands map top
  have hplace : map.mappings[2]? = some top := rfl
  have hcontains : top.range.contains 0xFFFF = true := rfl
  have hfree : ∀ mapping ∈ map.mappings, mapping.range.contains 0x9000 = false := by
    decide
  obtain ⟨-, -, -, hroutes⟩ := routes_to_the_only_owner 0xEE commands
  obtain ⟨-, -, howned, -⟩ := hroutes 0xFFFF
  obtain ⟨howner, -, -, -, hvalue, hothers, -⟩ := howned 2 top hplace hcontains
  obtain ⟨-, -, -, hunowned⟩ := hroutes 0x9000
  have hread : (Device.read top.device (0xFFFF - top.range.first)).1 = 4 := by decide
  exact ⟨hplace, hcontains, howner, hvalue.trans hread, hothers 1, hfree, (hunowned hfree).2.1⟩

end MemoryMap

end M6809
