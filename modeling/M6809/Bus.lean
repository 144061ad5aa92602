import M6809.Hex

namespace M6809

/-- What a bus reports of an access that found nothing to read or to change. -/
inductive Notice where
  | unmappedRead (address : Word)
  | unmappedWrite (address : Word) (value : Byte)
  | romWrite (offset : Word) (value : Byte)
deriving DecidableEq, Repr

def Notice.text : Notice → String
  | unmappedRead address => s!"read from unmapped ${Hex.word address}"
  | unmappedWrite address value =>
    s!"write ${Hex.byte value} to unmapped ${Hex.word address} dropped"
  | romWrite offset value => s!"write ${Hex.byte value} to ROM offset ${Hex.word offset} ignored"

/-- A state machine behind the sixteen address lines. -/
class Bus (β : Type) where
  /-- The byte at an address, and the bus after the read. -/
  read : β → Word → Byte × β
  write : β → Word → Byte → β
  /-- What the bus has to say about a read in its present state. -/
  readNotice? : β → Word → Option Notice := fun _ _ => none
  writeNotice? : β → Word → Byte → Option Notice := fun _ _ _ => none

end M6809
