import M6809.Hex
import M6809.Opcode

namespace M6809

/-- Carries the address of the instruction's first byte, a page prefix included. -/
inductive Fault where
  | illegalOpcode (address : Word) (page : Page) (code : Byte)
  | illegalPostbyte (address : Word) (postbyte : Byte)
deriving DecidableEq, Repr

namespace Fault

def address : Fault → Word
  | illegalOpcode address _ _ => address
  | illegalPostbyte address _ => address

def message : Fault → String
  | illegalOpcode address page code =>
    s!"illegal opcode ${Hex.byte code} on page {page.number} at ${Hex.word address}"
  | illegalPostbyte address postbyte =>
    s!"illegal indexed postbyte ${Hex.byte postbyte} at ${Hex.word address}"

end Fault

/-- A fault, with the registers as they were when it was found. -/
structure Trap where
  fault : Fault
  regs : Registers
deriving DecidableEq, Repr

end M6809
