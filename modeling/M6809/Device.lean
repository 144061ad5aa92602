import M6809.Memory

namespace M6809

/-- A state machine that sees offsets from the start of its range. -/
class Device (δ : Type) where
  /-- The byte at an offset, and the device after the read. -/
  read : δ → Word → Byte × δ
  write : δ → Word → Byte → δ
  /-- What the device has to say about a write. -/
  writeNotice? : δ → Word → Byte → Option Notice := fun _ _ _ => none

/-- Read/write memory, which repeats beyond its size. -/
structure Ram where
  size : Nat
  cells : Memory
  size_pos : 0 < size

namespace Ram

def ofSize (size : Nat) : Ram := ⟨max size 1, Memory.zero, by omega⟩

def cell (ram : Ram) (offset : Word) : Word := BitVec.ofNat 16 (offset.toNat % ram.size)

theorem toNat_cell (ram : Ram) (offset : Word) :
    (ram.cell offset).toNat = offset.toNat % ram.size := by
  rw [cell, BitVec.toNat_ofNat, Nat.mod_eq_of_lt]
  exact Nat.lt_of_le_of_lt (Nat.mod_le offset.toNat ram.size) offset.isLt

def read (ram : Ram) (offset : Word) : Byte := ram.cells.read (ram.cell offset)

def write (ram : Ram) (offset : Word) (value : Byte) : Ram :=
  { ram with cells := ram.cells.write (ram.cell offset) value }

theorem read_write (ram : Ram) (a b : Word) (value : Byte) :
    (ram.write a value).read b =
      if a.toNat % ram.size = b.toNat % ram.size then value else ram.read b := by
  have hcell : ram.cell a = ram.cell b ↔ a.toNat % ram.size = b.toNat % ram.size := by
    rw [← BitVec.toNat_inj, toNat_cell, toNat_cell]
  have hread : (ram.write a value).read b =
      (ram.cells.write (ram.cell a) value).read (ram.cell b) := rfl
  rw [hread, Memory.read_write]
  simp only [hcell, read]

instance : Device Ram where
  read ram offset := (ram.read offset, ram)
  write := write

end Ram

/-- Read-only memory, which repeats beyond its image. -/
structure Rom where
  image : Array Byte
deriving DecidableEq, Repr

namespace Rom

/-- An empty image reads as all ones. -/
def read (rom : Rom) (offset : Word) : Byte :=
  rom.image[offset.toNat % rom.image.size]?.getD 0xFF

instance : Device Rom where
  read rom offset := (rom.read offset, rom)
  write rom _ _ := rom
  writeNotice? _ offset value := some (.romWrite offset value)

end Rom

structure Counter where
  value : Byte
deriving DecidableEq, Repr

namespace Counter

/-- The count, mixed with the offset that it is read at. -/
def read (counter : Counter) (offset : Word) : Byte := counter.value ^^^ offset.lowByte

instance : Device Counter where
  read counter offset := (counter.read offset, ⟨counter.value + 1⟩)
  write _ offset value := ⟨value + offset.lowByte⟩

end Counter

inductive Chip where
  | ram (ram : Ram)
  | rom (rom : Rom)
  | counter (counter : Counter)

namespace Chip

def read (chip : Chip) (offset : Word) : Byte × Chip :=
  match chip with
  | ram r => (Device.read r offset).map id ram
  | rom r => (Device.read r offset).map id rom
  | counter c => (Device.read c offset).map id counter

def write (chip : Chip) (offset : Word) (value : Byte) : Chip :=
  match chip with
  | ram r => ram (Device.write r offset value)
  | rom r => rom (Device.write r offset value)
  | counter c => counter (Device.write c offset value)

def writeNotice? (chip : Chip) (offset : Word) (value : Byte) : Option Notice :=
  match chip with
  | ram r => Device.writeNotice? r offset value
  | rom r => Device.writeNotice? r offset value
  | counter c => Device.writeNotice? c offset value

instance : Device Chip where
  read := read
  write := write
  writeNotice? := writeNotice?

end Chip

end M6809
