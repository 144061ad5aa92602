import M6809.Proofs.Lockstep
import M6809.Proofs.MapRouting

namespace M6809

/-- How many addresses the range holds. -/
def AddressRange.size (range : AddressRange) : Nat := range.last.toNat - range.first.toNat + 1

theorem Ram.read_write_of_lt (ram : Ram) {a b : Word} (ha : a.toNat < ram.size)
    (hb : b.toNat < ram.size) (value : Byte) :
    (ram.write a value).read b = if a = b then value else ram.read b := by
  simp only [read_write, Nat.mod_eq_of_lt ha, Nat.mod_eq_of_lt hb, BitVec.toNat_inj]

namespace MemoryMap

theorem replace_self {δ : Type} {map : MemoryMap δ} {place : Nat} {mapping : Mapping δ}
    (h : map.mappings[place]? = some mapping) : map.replace place mapping mapping.device = map := by
  obtain ⟨hlength, rfl⟩ := List.getElem?_eq_some_iff.mp h
  unfold replace
  rw [List.set_getElem_self]

theorem exists_owner?_of_contains {δ : Type} {map : MemoryMap δ} (h : Ascending map.ranges)
    {address : Word} (hcontains : ∃ range ∈ map.ranges, range.contains address = true) :
    ∃ place mapping, map.mappings[place]? = some mapping ∧
      mapping.range.contains address = true ∧ map.owner? address = some (place, mapping) := by
  obtain ⟨_, hrange, hcontains⟩ := hcontains
  obtain ⟨mapping, hmem, rfl⟩ := List.mem_map.mp hrange
  obtain ⟨place, hplace⟩ := List.mem_iff_getElem?.mp hmem
  exact ⟨place, mapping, hplace, hcontains, (owner?_eq_some_iff h).mpr ⟨hplace, hcontains⟩⟩

/-- What the map reads at an address. -/
def peek (map : MemoryMap Ram) (address : Word) : Byte := (map.read address).1

theorem peek_of_owner? {map : MemoryMap Ram} {address : Word} {place : Nat} {mapping : Mapping Ram}
    (h : map.owner? address = some (place, mapping)) :
    map.peek address = mapping.device.read (address - mapping.range.first) := by
  unfold peek
  rw [read_of_owner? h]
  rfl

/-- RAMs that hold every address, none smaller than its range, with the bytes of a flat memory. -/
structure Mirrors (map : MemoryMap Ram) (m : Memory) : Prop where
  ascending : Ascending map.ranges
  covers : ∀ address, ∃ range ∈ map.ranges, range.contains address = true
  large : ∀ mapping ∈ map.mappings, mapping.range.size ≤ mapping.device.size
  peek_eq : ∀ address, map.peek address = m.read address

namespace Mirrors

variable {map : MemoryMap Ram} {m : Memory}

theorem exists_owner (h : Mirrors map m) (address : Word) : ∃ place mapping,
    map.mappings[place]? = some mapping ∧ mapping.range.contains address = true ∧
      map.owner? address = some (place, mapping) ∧
      (address - mapping.range.first).toNat < mapping.device.size := by
  obtain ⟨place, mapping, hplace, hcontains, howner⟩ :=
    exists_owner?_of_contains h.ascending (h.covers address)
  have hlarge := h.large mapping (List.mem_of_getElem? hplace)
  obtain ⟨hoffset, -⟩ := AddressRange.toNat_offset hcontains
  obtain ⟨-, hlast⟩ := (AddressRange.contains_eq_true_iff _ _).mp hcontains
  rw [BitVec.le_def] at hlast
  refine ⟨place, mapping, hplace, hcontains, howner, ?_⟩
  rw [hoffset]
  unfold AddressRange.size at hlarge
  omega

theorem read_eq (h : Mirrors map m) (address : Word) :
    map.read address = (m.read address, map) := by
  obtain ⟨place, mapping, hplace, -, howner, -⟩ := h.exists_owner address
  have hread := read_of_owner? howner
  have hsame : (map.read address).2 = map := by
    rw [hread]
    exact replace_self hplace
  exact Prod.ext (h.peek_eq address) hsame

theorem peek_write (h : Mirrors map m) (address other : Word) (value : Byte) :
    (map.write address value).peek other = if address = other then value else map.peek other := by
  obtain ⟨place, mapping, hplace, hcontains, howner, hfits⟩ := h.exists_owner address
  obtain ⟨place', mapping', hplace', hcontains', howner', hfits'⟩ := h.exists_owner other
  rw [write_of_owner? howner]
  set device : Ram := Device.write mapping.device (address - mapping.range.first) value
  have hascending : Ascending (map.replace place mapping device).ranges := by
    rw [ranges_replace hplace]
    exact h.ascending
  have hafter := getElem?_mappings_replace hplace device place'
  by_cases hsame : place' = place
  · subst hsame
    obtain rfl : mapping = mapping' := Option.some.inj (hplace.symm.trans hplace')
    rw [if_pos rfl] at hafter
    rw [peek_of_owner? ((owner?_eq_some_iff hascending).mpr ⟨hafter, hcontains'⟩),
      peek_of_owner? howner']
    have hoffset : address - mapping.range.first = other - mapping.range.first ↔
        address = other := BitVec.sub_left_inj _
    have hwritten := mapping.device.read_write_of_lt hfits hfits' value
    simp only [hoffset] at hwritten
    exact hwritten
  · have hne : address ≠ other := by
      rintro rfl
      exact hsame (h.ascending.place_eq (getElem?_ranges hplace') (getElem?_ranges hplace)
        hcontains' hcontains)
    rw [if_neg hsame, hplace'] at hafter
    rw [peek_of_owner? ((owner?_eq_some_iff hascending).mpr ⟨hafter, hcontains'⟩),
      peek_of_owner? howner', if_neg hne]

theorem write (h : Mirrors map m) (address : Word) (value : Byte) :
    Mirrors (map.write address value) (m.write address value) := by
  obtain ⟨place, mapping, hplace, -, howner, -⟩ := h.exists_owner address
  have hpeek : ∀ other, (map.write address value).peek other =
      (m.write address value).read other := by
    intro other
    rw [h.peek_write, Memory.read_write, h.peek_eq]
  rw [write_of_owner? howner] at hpeek ⊢
  have hranges := ranges_replace hplace
    (Device.write mapping.device (address - mapping.range.first) value)
  refine ⟨?_, ?_, ?_, hpeek⟩
  · rw [hranges]
    exact h.ascending
  · rw [hranges]
    exact h.covers
  · intro other hother
    rcases List.mem_or_eq_of_mem_set hother with hmem | rfl
    · exact h.large other hmem
    · exact h.large mapping (List.mem_of_getElem? hplace)

end Mirrors

theorem agree_mirrors : Bus.Agree Mirrors where
  read := by
    intro map m h address
    have hread : Bus.read map address = (m.read address, map) := h.read_eq address
    rw [hread]
    exact ⟨rfl, h⟩
  write h address value := h.write address value
  readNotice := by
    intro map m h address
    obtain ⟨place, mapping, -, -, howner, -⟩ := h.exists_owner address
    change map.readNotice? address = none
    unfold readNotice?
    rw [howner]
  writeNotice := by
    intro map m h address value
    obtain ⟨place, mapping, -, -, howner, -⟩ := h.exists_owner address
    change map.writeNotice? address value = none
    unfold writeNotice?
    rw [howner]
    rfl

/-- RAMs attached in any order, none smaller than its range, that together hold every address run
as flat memory does: computations give the same results by the same accesses, processors answer
every command alike and stay equal, and the bytes stay equal at every address. -/
theorem runs_as_memory (unmapped : Byte) (building : List (Command Ram)) (m : Memory)
    (hcovers : ∀ address, ∃ range ∈ ((empty unmapped).run building).ranges,
      range.contains address = true)
    (hlarge : ∀ mapping ∈ ((empty unmapped).run building).mappings,
      mapping.range.size ≤ mapping.device.size)
    (hequal : ∀ address, ((empty unmapped).run building).peek address = m.read address) :
    let map := (empty unmapped).run building
    (∀ (α : Type) (p : BusM α), (p.run map).result = (p.run m).result ∧
      (p.run map).events = (p.run m).events ∧
      ∀ address, (p.run map).bus.peek address = (p.run m).bus.read address) ∧
    ∀ (p : Processor) (commands : List (M6809.Command Empty)),
      let mapped := (⟨p, map⟩ : Machine (MemoryMap Ram)).run (commands.map .onBus)
      let flat := (⟨p, m⟩ : Machine Memory).run (commands.map .onBus)
      (∀ next : M6809.Command Empty, mapped.response next.onBus = flat.response next.onBus) ∧
      mapped.processor = flat.processor ∧
      ∀ address, mapped.bus.peek address = flat.bus.read address := by
  intro map
  have hascending : Ascending map.ranges := (routed_run unmapped building).ascending
  have hmirrors : Mirrors map m := ⟨hascending, hcovers, hlarge, hequal⟩
  constructor
  · intro α p
    obtain ⟨hresult, hevents, hbus⟩ :=
      (BusM.Alike.refl (fun _ => rfl) p).run (R := Eq) agree_mirrors hmirrors
    exact ⟨hresult, hevents, hbus.peek_eq⟩
  · intro p commands mapped flat
    have hstart : Machine.Lockstep Eq Mirrors ⟨p, map⟩ ⟨p, m⟩ := ⟨rfl, hmirrors⟩
    have hrun : Machine.Lockstep Eq Mirrors mapped flat :=
      hstart.run Processor.agree_eq agree_mirrors commands
    refine ⟨?_, hrun.processor, hrun.bus.peek_eq⟩
    intro next
    exact (hrun.obey Processor.agree_eq agree_mirrors next).1

/-- An NMI stacks its frame across the border of two chips. -/
theorem frame_across_two_chips :
    let building : List (Command Ram) := [.attach ⟨0x8000, 0xFFFF⟩ (Ram.ofSize 0x8000),
      .attach ⟨0x0000, 0x7FFF⟩ (Ram.ofSize 0x9000)]
    let map := (empty 0xFF).run building
    let regs : Registers := { Registers.zero with x := 0xABCD, y := 0x1122, s := 0x8006 }
    let p : Processor := { Processor.initial with regs }
    let commands : List (M6809.Command Empty) := [.assertLine .nmi, .step]
    let mapped := (⟨p, map⟩ : Machine (MemoryMap Ram)).run (commands.map .onBus)
    (∀ address, ∃ range ∈ map.ranges, range.contains address = true) ∧
      (∀ mapping ∈ map.mappings, mapping.range.size ≤ mapping.device.size) ∧
      (∀ address, map.peek address = Memory.zero.read address) ∧
      mapped.processor.regs.s = 0x7FFA ∧ mapped.bus.peek 0x7FFF = 0xCD ∧
      mapped.bus.peek 0x8000 = 0x11 := by
  intro building map regs p commands mapped
  have hmappings : map.mappings = [⟨⟨0x0000, 0x7FFF⟩, Ram.ofSize 0x9000⟩,
      ⟨⟨0x8000, 0xFFFF⟩, Ram.ofSize 0x8000⟩] := rfl
  have hlarge : ∀ mapping ∈ map.mappings, mapping.range.size ≤ mapping.device.size := by
    rw [hmappings]
    simp [AddressRange.size, Ram.ofSize]
  have hcovers : ∀ address, ∃ range ∈ map.ranges, range.contains address = true := by
    intro address
    rw [ranges, hmappings]
    by_cases hlow : address ≤ 0x7FFF
    · refine ⟨⟨0x0000, 0x7FFF⟩, by simp, ?_⟩
      exact (AddressRange.contains_eq_true_iff _ _).mpr ⟨by bv_omega, hlow⟩
    · refine ⟨⟨0x8000, 0xFFFF⟩, by simp, ?_⟩
      exact (AddressRange.contains_eq_true_iff _ _).mpr ⟨by bv_omega, by bv_omega⟩
  have hblank : ∀ mapping ∈ map.mappings, ∀ offset, mapping.device.read offset = 0 := by
    rw [hmappings]
    simp [Ram.ofSize, Ram.read, Memory.zero]
  have hequal : ∀ address, map.peek address = Memory.zero.read address := by
    intro address
    obtain ⟨place, mapping, hplace, -, howner⟩ :=
      exists_owner?_of_contains (routed_run 0xFF building).ascending (hcovers address)
    rw [peek_of_owner? howner, hblank mapping (List.mem_of_getElem? hplace)]
    exact (Memory.read_filled 0 address).symm
  obtain ⟨-, hruns⟩ := runs_as_memory 0xFF building Memory.zero hcovers hlarge hequal
  let flat := (⟨p, Memory.zero⟩ : Machine Memory).run (commands.map .onBus)
  have hprocessor : mapped.processor = flat.processor := (hruns p commands).2.1
  have hbytes : ∀ address, mapped.bus.peek address = flat.bus.read address :=
    (hruns p commands).2.2
  rw [hprocessor, hbytes, hbytes]
  exact ⟨hcovers, hlarge, hequal, by decide +kernel, by decide +kernel, by decide +kernel⟩

end MemoryMap

end M6809
