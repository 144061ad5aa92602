import M6809.Proofs.Lockstep
import M6809.Proofs.MapRouting
import Mathlib.Data.List.Induction

namespace M6809

/-- Accesses with the bytes that a bus gives for the reads, and the bus behind them. -/
inductive Bus.Answers {β : Type} [Bus β] : β → List BusAccess → β → Prop
  | nil (bus : β) : Answers bus [] bus
  | read {bus after : β} {address : Word} {value : Byte} {rest : List BusAccess}
      (hvalue : (Bus.read bus address).1 = value)
      (hrest : Answers (Bus.read bus address).2 rest after) :
      Answers bus (.read address value :: rest) after
  | write {bus after : β} {address : Word} {value : Byte} {rest : List BusAccess}
      (hrest : Answers (Bus.write bus address value) rest after) :
      Answers bus (.write address value :: rest) after

section
variable {β : Type} [Bus β]

theorem Bus.Answers.append {bus middle after : β} {front back : List BusAccess}
    (h : Answers bus front middle) (h' : Answers middle back after) :
    Answers bus (front ++ back) after := by
  induction h with
  | nil => exact h'
  | read hvalue _ ih => exact .read hvalue (ih h')
  | write _ ih => exact .write (ih h')

theorem BusM.answers_run {α : Type} (p : BusM α) (bus : β) :
    Bus.Answers bus (p.run bus).accesses (p.run bus).bus := by
  rw [accesses_run]
  induction p generalizing bus with
  | done result => exact .nil bus
  | read address next ih => exact .read rfl (ih _ _)
  | write address value next ih => exact .write (ih _)
  | say message next ih => exact ih bus

end

namespace Machine

variable {β : Type} [Bus β]

/-- The bus accesses of a run, in order. -/
def accesses (m : Machine β) : List (Command β) → List BusAccess
  | [] => []
  | command :: rest =>
    (m.response command).events.filterMap Event.access? ++ (m.obey command).accesses rest

theorem answers_run (m : Machine β) (commands : List (Command Empty)) :
    Bus.Answers m.bus (m.accesses (commands.map Command.onBus))
      (m.run (commands.map Command.onBus)).bus := by
  induction commands generalizing m with
  | nil => exact .nil m.bus
  | cons command rest ih =>
      refine Bus.Answers.append ?_ (ih (m.obey command.onBus))
      cases command with
      | step => exact m.processor.step.answers_run m.bus
      | reset => exact m.processor.reset.answers_run m.bus
      | assertLine _ | releaseFirq | releaseIrq | setRegisters _ => exact .nil m.bus
      | setBus bus => exact bus.elim

end Machine

namespace MemoryMap

variable {δ : Type} [Device δ]

def Command.ofAccess : BusAccess → Command δ
  | .read address _ => .read address
  | .write address value => .write address value

section
variable {map after : MemoryMap δ}

theorem run_of_answers {accesses : List BusAccess} (h : Bus.Answers map accesses after) :
    map.run (accesses.map .ofAccess) = after := by
  induction h with
  | nil => rfl
  | read _ _ ih => exact ih
  | write _ ih => exact ih

theorem read_of_answers {front back : List BusAccess} {address : Word} {value : Byte}
    (h : Bus.Answers map (front ++ .read address value :: back) after) :
    ((map.run (front.map .ofAccess)).read address).1 = value := by
  induction front generalizing map with
  | nil =>
      cases h with
      | read hvalue _ => exact hvalue
  | cons access front ih =>
      cases h with
      | read _ hrest => exact ih hrest
      | write hrest => exact ih hrest

end

/-- What a device in a range makes of a command to the map. -/
def serve (range : AddressRange) (device : δ) : Command δ → δ
  | .attach _ _ => device
  | .read address =>
    if range.contains address then (Device.read device (address - range.first)).2 else device
  | .write address value =>
    if range.contains address then Device.write device (address - range.first) value else device

section
variable {map : MemoryMap δ} (h : Ascending map.ranges)
include h

omit [Device δ] in
theorem mem_update {mapping : Mapping δ} (hmem : mapping ∈ map.mappings) {address : Word}
    (work : Mapping δ → δ) {after : MemoryMap δ}
    (howned : ∀ place owner, map.owner? address = some (place, owner) →
      after = map.replace place owner (work owner))
    (hunowned : map.owner? address = none → after = map) :
    { mapping with
      device := if mapping.range.contains address then work mapping else mapping.device } ∈
        after.mappings := by
  obtain ⟨i, hi⟩ := List.mem_iff_getElem?.mp hmem
  split
  · rename_i hcontains
    rw [howned i mapping ((owner?_eq_some_iff h).mpr ⟨hi, hcontains⟩)]
    apply List.mem_of_getElem? (i := i)
    rw [getElem?_mappings_replace hi, if_pos rfl]
  · rename_i hcontains
    cases howner : map.owner? address with
    | none =>
        rw [hunowned howner]
        exact hmem
    | some found =>
        obtain ⟨place, owner⟩ := found
        obtain ⟨hplace, howns⟩ := (owner?_eq_some_iff h).mp howner
        have hne : i ≠ place := by
          rintro rfl
          obtain rfl : mapping = owner := Option.some.inj (hi.symm.trans hplace)
          exact hcontains howns
        rw [howned place owner howner]
        apply List.mem_of_getElem? (i := i)
        rw [getElem?_mappings_replace hplace, if_neg hne, hi]

theorem read_of_mem {mapping : Mapping δ} (hmem : mapping ∈ map.mappings) {address : Word}
    (hcontains : mapping.range.contains address = true) :
    (map.read address).1 = (Device.read mapping.device (address - mapping.range.first)).1 := by
  obtain ⟨place, hplace⟩ := List.mem_iff_getElem?.mp hmem
  rw [read_of_owner? ((owner?_eq_some_iff h).mpr ⟨hplace, hcontains⟩)]

theorem mem_obey {mapping : Mapping δ} (hmem : mapping ∈ map.mappings) (command : Command δ) :
    { mapping with device := serve mapping.range mapping.device command } ∈
      (map.obey command).mappings := by
  cases command with
  | attach range device =>
      simp only [obey]
      split
      · rename_i after hattach
        obtain ⟨-, -, rfl⟩ := attach_eq_ok_iff.mp hattach
        rw [← map.upTo_append_beyond range.first] at hmem
        exact List.perm_middle.mem_iff.mpr (List.mem_cons_of_mem _ hmem)
      · exact hmem
  | read address =>
      apply mem_update h hmem fun owner =>
        (Device.read owner.device (address - owner.range.first)).2
      · intro place owner howner
        exact congrArg Prod.snd (read_of_owner? howner)
      · intro howner
        exact congrArg Prod.snd (read_of_owner?_eq_none howner)
  | write address value =>
      apply mem_update h hmem fun owner =>
        Device.write owner.device (address - owner.range.first) value
      · intro place owner howner
        exact write_of_owner? howner value
      · intro howner
        exact write_of_owner?_eq_none howner value

end

/-- A device has seen what was done in its range, and nothing else. -/
theorem Routed.mem_run {unmapped : Byte} {map : MemoryMap δ} (h : Routed unmapped map)
    {mapping : Mapping δ} (hmem : mapping ∈ map.mappings) (commands : List (Command δ)) :
    { mapping with device := commands.foldl (serve mapping.range) mapping.device } ∈
      (map.run commands).mappings := by
  induction commands generalizing map mapping with
  | nil => exact hmem
  | cons command rest ih => exact ih (h.obey command) (mem_obey h.ascending hmem command)

theorem read_of_attach {unmapped : Byte} {before after : List (Command δ)} {map : MemoryMap δ}
    {range : AddressRange} {device : δ}
    (hattach : ((empty unmapped).run before).attach range device = .ok map) {address : Word}
    (hcontains : range.contains address = true) :
    ((map.run after).read address).1 =
      (Device.read (after.foldl (serve range) device) (address - range.first)).1 := by
  have hrouted : Routed unmapped map := (routed_run unmapped before).attach hattach
  have hmem : ⟨range, device⟩ ∈ map.mappings := by
    obtain ⟨-, -, rfl⟩ := attach_eq_ok_iff.mp hattach
    exact List.mem_append_right _ List.mem_cons_self
  exact read_of_mem (hrouted.run after).ascending (hrouted.mem_run hmem after) hcontains

/-- The byte that a command writes to the cell of an address, in a RAM of a size at a range. -/
def writtenAt? (range : AddressRange) (size : Nat) (address : Word) : Command Chip → Option Byte
  | .write place value =>
    if range.contains place ∧ (place.toNat - range.first.toNat) % size =
        (address.toNat - range.first.toNat) % size then some value else none
  | .attach _ _ | .read _ => none

theorem foldl_serve_ram (range : AddressRange) (ram : Ram) (commands : List (Command Chip)) :
    ∃ after : Ram, commands.foldl (serve range) (.ram ram) = .ram after ∧ after.size = ram.size ∧
      ∀ address, range.contains address = true → after.read (address - range.first) =
        (commands.reverse.findSome? (writtenAt? range ram.size address)).getD
          (ram.read (address - range.first)) := by
  induction commands using List.reverseRecOn with
  | nil => exact ⟨ram, rfl, rfl, fun _ _ => rfl⟩
  | append_singleton commands command ih =>
      obtain ⟨middle, hmiddle, hsize, hread⟩ := ih
      simp only [List.foldl_append, List.foldl_cons, List.foldl_nil, hmiddle, List.reverse_concat,
        List.findSome?_cons]
      cases command with
      | attach _ _ => exact ⟨middle, rfl, hsize, hread⟩
      | read _ => exact ⟨middle, ite_self _, hsize, hread⟩
      | write place value =>
          by_cases hplace : range.contains place = true
          · refine ⟨middle.write (place - range.first) value, if_pos hplace, hsize, ?_⟩
            intro address haddress
            rw [Ram.read_write, (AddressRange.toNat_offset hplace).1,
              (AddressRange.toNat_offset haddress).1, hsize, hread address haddress]
            simp only [writtenAt?, hplace, true_and]
            split <;> rfl
          · refine ⟨middle, if_neg hplace, hsize, ?_⟩
            intro address haddress
            have helsewhere : writtenAt? range ram.size address (.write place value) = none :=
              if_neg fun h => hplace h.1
            rw [helsewhere]
            exact hread address haddress

theorem foldl_serve_rom (range : AddressRange) (rom : Rom) (commands : List (Command Chip)) :
    commands.foldl (serve range) (.rom rom) = .rom rom := by
  induction commands with
  | nil => rfl
  | cons command rest ih =>
      refine Eq.trans (congrArg (rest.foldl (serve range)) ?_) ih
      cases command with
      | attach _ _ => rfl
      | read _ | write _ _ => exact ite_self _

/-- What a counter in a range holds after a command, from what it held before. -/
def countAfter (range : AddressRange) (count : Byte) : Command Chip → Byte
  | .attach _ _ => count
  | .read place => if range.contains place then count + 1 else count
  | .write place value =>
    if range.contains place then value + (place - range.first).lowByte else count

theorem foldl_serve_counter (range : AddressRange) (count : Byte) (commands : List (Command Chip)) :
    commands.foldl (serve range) (.counter ⟨count⟩) =
      .counter ⟨commands.foldl (countAfter range) count⟩ := by
  induction commands generalizing count with
  | nil => rfl
  | cons command rest ih =>
      refine Eq.trans (congrArg (rest.foldl (serve range)) ?_) (ih (countAfter range count command))
      cases command with
      | attach _ _ => rfl
      | read _ | write _ _ =>
          simp only [serve, countAfter]
          split <;> rfl

def readsIn (range : AddressRange) : Command Chip → Bool
  | .read place => range.contains place
  | .attach _ _ | .write _ _ => false

def writesIn (range : AddressRange) : Command Chip → Bool
  | .write place _ => range.contains place
  | .attach _ _ | .read _ => false

theorem foldl_countAfter_of_unwritten {range : AddressRange} {commands : List (Command Chip)}
    (h : ∀ command ∈ commands, writesIn range command = false) (count : Byte) :
    commands.foldl (countAfter range) count =
      count + BitVec.ofNat 8 (commands.countP (readsIn range)) := by
  induction commands generalizing count with
  | nil => exact (BitVec.add_zero count).symm
  | cons command rest ih =>
      obtain ⟨hfirst, hrest⟩ := List.forall_mem_cons.mp h
      rw [List.foldl_cons, ih hrest, List.countP_cons]
      cases command with
      | attach _ _ => rfl
      | write place value =>
          have hplace : range.contains place = false := hfirst
          simp [countAfter, readsIn, hplace]
      | read place =>
          cases hplace : range.contains place with
          | false => simp [countAfter, readsIn, hplace]
          | true =>
              have hnext : BitVec.ofNat 8 (rest.countP (readsIn range) + 1) =
                  1 + BitVec.ofNat 8 (rest.countP (readsIn range)) := by
                rw [Nat.add_comm, BitVec.ofNat_add]
                rfl
              simp [countAfter, readsIn, hplace, hnext, BitVec.add_assoc]

/-- A counter gives, mixed with the offset, how often its range was read since it was attached or
last written. -/
theorem counter_counts_reads {unmapped count : Byte} {before : List (Command Chip)}
    {map : MemoryMap Chip} {range : AddressRange}
    (hattach : ((empty unmapped).run before).attach range (.counter ⟨count⟩) = .ok map)
    {address : Word} (hcontains : range.contains address = true) {since : List (Command Chip)}
    (hunwritten : ∀ command ∈ since, writesIn range command = false) :
    let reads := BitVec.ofNat 8 (since.countP (readsIn range))
    let offset := (address - range.first).lowByte
    ((map.run since).read address).1 = (count + reads) ^^^ offset ∧
      ∀ front place value, range.contains place = true →
        ((map.run (front ++ .write place value :: since)).read address).1 =
          (value + (place - range.first).lowByte + reads) ^^^ offset := by
  intro reads offset
  constructor
  · rw [read_of_attach hattach hcontains, foldl_serve_counter,
      foldl_countAfter_of_unwritten hunwritten]
    rfl
  · intro front place value hplace
    rw [read_of_attach hattach hcontains, foldl_serve_counter, List.foldl_append, List.foldl_cons,
      foldl_countAfter_of_unwritten hunwritten, countAfter, if_pos hplace]
    rfl

/-- Since a chip was attached, whatever was attached beside it and written elsewhere: a RAM gives
the latest byte that was written to the cell of the address, and zero if there was none; a ROM gives
its image over and over; and outside of all ranges the value set for this is read. A run of a
processor is such a history, with its reads answered in this way. -/
theorem reads_follow_history (unmapped : Byte) (before : List (Command Chip))
    (range : AddressRange) (map : MemoryMap Chip) (address : Word) :
    let start : MemoryMap Chip := (empty unmapped).run before
    (∀ size after, start.attach range (.ram (.ofSize size)) = .ok map →
      range.contains address = true → ((map.run after).read address).1 =
        (after.reverse.findSome? (writtenAt? range (max size 1) address)).getD 0) ∧
    (∀ image after, start.attach range (.rom ⟨image⟩) = .ok map →
      range.contains address = true →
      let value := ((map.run after).read address).1
      (image = #[] → value = 0xFF) ∧
      (image ≠ #[] →
        image[(address.toNat - range.first.toNat) % image.size]? = some value)) ∧
    ((∀ mapping ∈ start.mappings, mapping.range.contains address = false) →
      (start.read address).1 = unmapped) ∧
    ∀ (p : Processor) (commands : List (M6809.Command Empty)),
      let m : Machine (MemoryMap Chip) := ⟨p, map⟩
      let accesses := m.accesses (commands.map .onBus)
      (m.run (commands.map .onBus)).bus = map.run (accesses.map .ofAccess) ∧
      ∀ front place value back, accesses = front ++ .read place value :: back →
        ((map.run (front.map .ofAccess)).read place).1 = value := by
  intro start
  refine ⟨?_, ?_, ?_, ?_⟩
  · intro size after hattach hcontains
    obtain ⟨ram, hserved, -, hread⟩ := foldl_serve_ram range (.ofSize size) after
    have hblank : (Ram.ofSize size).read (address - range.first) = 0 := Memory.read_filled 0 _
    rw [read_of_attach hattach hcontains, hserved]
    refine (hread address hcontains).trans ?_
    rw [hblank]
    rfl
  · intro image after hattach hcontains
    have hread : ((map.run after).read address).1 =
        image[(address.toNat - range.first.toNat) % image.size]?.getD 0xFF := by
      rw [read_of_attach hattach hcontains, foldl_serve_rom,
        ← (AddressRange.toNat_offset hcontains).1]
      rfl
    rw [hread]
    constructor
    · rintro rfl
      rfl
    · intro hfilled
      have hlt := Nat.mod_lt (address.toNat - range.first.toNat) (Array.size_pos_iff.mpr hfilled)
      rw [Array.getElem?_eq_getElem hlt]
      rfl
  · intro hfree
    have hrouted : Routed unmapped start := routed_run unmapped before
    rw [read_of_owner?_eq_none ((owner?_eq_none_iff hrouted.ascending).mpr hfree)]
    exact hrouted.unmapped_eq
  · intro p commands m accesses
    have hanswers : Bus.Answers map accesses (m.run (commands.map .onBus)).bus :=
      m.answers_run commands
    refine ⟨(run_of_answers hanswers).symm, ?_⟩
    intro front place value back hsplit
    rw [hsplit] at hanswers
    exact read_of_answers hanswers

/-- LDA #$2A, STA $CB05 and LDA $CE05 from a ROM, where both addresses are the sixth cell of a RAM
with 768 bytes. What was written to this cell before, to the ROM and where no device is does not
count. -/
theorem store_is_read_in_another_copy :
    let image : Array Byte := #[0x86, 0x2A, 0xB7, 0xCB, 0x05, 0xB6, 0xCE, 0x05]
    let start : MemoryMap Chip := empty 0xFF
    let loaded := start.run [.attach ⟨0x0000, 0x7FFF⟩ (.rom ⟨image⟩)]
    let map := loaded.run [.attach ⟨0xC800, 0xCFFF⟩ (.ram (.ofSize 0x300))]
    let earlier : List (Command Chip) := [.write 0xC805 1, .write 0x0001 2, .write 0xD000 3]
    let regs : Registers := { Registers.initial with pc := 0x0000 }
    let m : Machine (MemoryMap Chip) := ⟨{ Processor.initial with regs }, map.run earlier⟩
    let commands : List (M6809.Command Empty) := [.step, .step, .step]
    let fetches : List BusAccess := [.read 0 0x86, .read 1 0x2A, .read 2 0xB7, .read 3 0xCB,
      .read 4 0x05, .write 0xCB05 0x2A, .read 5 0xB6, .read 6 0xCE, .read 7 0x05]
    start.attach ⟨0x0000, 0x7FFF⟩ (.rom ⟨image⟩) = .ok loaded ∧
      loaded.attach ⟨0xC800, 0xCFFF⟩ (.ram (.ofSize 0x300)) = .ok map ∧
      image[1]? = some ((loaded.run earlier).read 0x7FF9).1 ∧ (loaded.read 0xC805).1 = 0xFF ∧
      m.accesses (commands.map .onBus) = fetches ++ [.read 0xCE05 0x2A] ∧
      (((map.run earlier).run (fetches.map .ofAccess)).read 0xCE05).1 = 0x2A ∧
      ((map.run (earlier ++ fetches.map .ofAccess)).read 0xCE05).1 = 0x2A := by
  intro image start loaded map earlier regs m commands fetches
  have hrom : start.attach ⟨0x0000, 0x7FFF⟩ (.rom ⟨image⟩) = .ok loaded := rfl
  have hram : loaded.attach ⟨0xC800, 0xCFFF⟩ (.ram (.ofSize 0x300)) = .ok map := rfl
  have haccesses : m.accesses (commands.map .onBus) = fetches ++ [.read 0xCE05 0x2A] := by
    decide +kernel
  have hfree : ∀ mapping ∈ loaded.mappings, mapping.range.contains 0xC805 = false := by decide
  have hindex : ((0x7FF9 : Word).toNat - (0x0000 : Word).toNat) % image.size = 1 := by decide
  have himage := ((reads_follow_history 0xFF [] ⟨0x0000, 0x7FFF⟩ loaded 0x7FF9).2.1 image earlier
    hrom rfl).2 (by decide)
  dsimp only at himage
  rw [hindex] at himage
  have hunmapped := (reads_follow_history 0xFF [.attach ⟨0x0000, 0x7FFF⟩ (.rom ⟨image⟩)]
    ⟨0x0000, 0x7FFF⟩ loaded 0xC805).2.2.1 hfree
  have hcell := (reads_follow_history 0xFF [.attach ⟨0x0000, 0x7FFF⟩ (.rom ⟨image⟩)]
    ⟨0xC800, 0xCFFF⟩ map 0xCE05).1 0x300 (earlier ++ fetches.map .ofAccess) hram rfl
  have hrun := (reads_follow_history 0xFF [] ⟨0xC800, 0xCFFF⟩ (map.run earlier) 0xCE05).2.2.2
    { Processor.initial with regs } commands
  refine ⟨hrom, hram, himage, hunmapped, haccesses, ?_, hcell.trans ?_⟩
  · exact hrun.2 fetches 0xCE05 0x2A [] haccesses
  · decide

end MemoryMap

end M6809
