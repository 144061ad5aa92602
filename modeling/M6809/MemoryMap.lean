import M6809.Device

/-!
A memory map routes each access to the device whose range holds the address. Its mappings are kept
in address order and never overlap, so the only candidate for an address is the last mapping that
starts at or below it.
-/
namespace M6809

/-- The addresses from `first` to `last`, both included. -/
structure AddressRange where
  first : Word
  last : Word
deriving DecidableEq, Repr

namespace AddressRange

def contains (range : AddressRange) (address : Word) : Bool :=
  range.first ≤ address && address ≤ range.last

/-- Some address lies in both. -/
def overlaps (range other : AddressRange) : Bool :=
  range.first ≤ other.last && other.first ≤ range.last

def text (range : AddressRange) : String :=
  s!"${Hex.word range.first}-${Hex.word range.last}"

end AddressRange

inductive MapError where
  | invalidRange (range : AddressRange)
  /-- Another device, the lowest of several, is already in the range. -/
  | overlap (range other : AddressRange)
deriving DecidableEq, Repr

def MapError.message : MapError → String
  | invalidRange range => s!"invalid range {range.text}"
  | overlap range other => s!"range {range.text} overlaps {other.text}"

structure Mapping (δ : Type) where
  range : AddressRange
  device : δ

structure MemoryMap (δ : Type) where
  /-- What reads outside all ranges give. -/
  unmapped : Byte
  /-- In the order of their first addresses. -/
  mappings : List (Mapping δ)

namespace MemoryMap

variable {δ : Type}

def empty (unmapped : Byte) : MemoryMap δ := ⟨unmapped, []⟩

def size (map : MemoryMap δ) : Nat := map.mappings.length

def isEmpty (map : MemoryMap δ) : Bool := map.mappings.isEmpty

def upTo (map : MemoryMap δ) (address : Word) : List (Mapping δ) :=
  map.mappings.takeWhile (·.range.first ≤ address)

def beyond (map : MemoryMap δ) (address : Word) : List (Mapping δ) :=
  map.mappings.dropWhile (·.range.first ≤ address)

/-- Places a device in a range that is free. -/
def attach (map : MemoryMap δ) (range : AddressRange) (device : δ) :
    Except MapError (MemoryMap δ) :=
  if range.last < range.first then .error (.invalidRange range)
  else match map.mappings.find? (range.overlaps ·.range) with
    | some other => .error (.overlap range other.range)
    | none =>
      .ok { map with mappings := map.upTo range.first ++ ⟨range, device⟩ :: map.beyond range.first }

/-- The mapping that holds an address, with its place in the list. -/
def owner? (map : MemoryMap δ) (address : Word) : Option (Nat × Mapping δ) :=
  match (map.upTo address).getLast? with
  | some mapping =>
    if address ≤ mapping.range.last then some ((map.upTo address).length - 1, mapping) else none
  | none => none

def replace (map : MemoryMap δ) (place : Nat) (mapping : Mapping δ) (device : δ) : MemoryMap δ :=
  { map with mappings := map.mappings.set place { mapping with device } }

variable [Device δ]

def read (map : MemoryMap δ) (address : Word) : Byte × MemoryMap δ :=
  match map.owner? address with
  | some (place, mapping) =>
    let (value, device) := Device.read mapping.device (address - mapping.range.first)
    (value, map.replace place mapping device)
  | none => (map.unmapped, map)

def write (map : MemoryMap δ) (address : Word) (value : Byte) : MemoryMap δ :=
  match map.owner? address with
  | some (place, mapping) =>
    map.replace place mapping
      (Device.write mapping.device (address - mapping.range.first) value)
  | none => map

def readNotice? (map : MemoryMap δ) (address : Word) : Option Notice :=
  match map.owner? address with
  | some _ => none
  | none => some (.unmappedRead address)

def writeNotice? (map : MemoryMap δ) (address : Word) (value : Byte) : Option Notice :=
  match map.owner? address with
  | some (_, mapping) =>
    Device.writeNotice? mapping.device (address - mapping.range.first) value
  | none => some (.unmappedWrite address value)

instance : Bus (MemoryMap δ) where
  read := read
  write := write
  readNotice? := readNotice?
  writeNotice? := writeNotice?

end MemoryMap

end M6809
