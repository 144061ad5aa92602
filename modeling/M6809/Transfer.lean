import M6809.Registers

namespace M6809

inductive TransferRegister where
  | d
  | x
  | y
  | u
  | s
  | pc
  | a
  | b
  | cc
  | dp
deriving DecidableEq, Repr

namespace TransferRegister

/-- Only the low nibble of a code counts. -/
def ofCode? (code : Byte) : Option TransferRegister :=
  match code.toNat % 16 with
  | 0x0 => some d
  | 0x1 => some x
  | 0x2 => some y
  | 0x3 => some u
  | 0x4 => some s
  | 0x5 => some pc
  | 0x8 => some a
  | 0x9 => some b
  | 0xA => some cc
  | 0xB => some dp
  | _ => none

def name : TransferRegister → String
  | d => "D"
  | x => "X"
  | y => "Y"
  | u => "U"
  | s => "S"
  | pc => "PC"
  | a => "A"
  | b => "B"
  | cc => "CC"
  | dp => "DP"

end TransferRegister

namespace Registers

/-- A byte register is read with ones above it. -/
def widened (b : Byte) : Word := Word.ofBytes 0xFF b

def get (r : Registers) : TransferRegister → Word
  | .d => r.d
  | .x => r.x
  | .y => r.y
  | .u => r.u
  | .s => r.s
  | .pc => r.pc
  | .a => widened r.a
  | .b => widened r.b
  | .cc => widened r.cc.bits
  | .dp => widened r.dp

/-- A byte register takes the low byte. -/
def set (r : Registers) (reg : TransferRegister) (value : Word) : Registers :=
  match reg with
  | .d => r.setD value
  | .x => { r with x := value }
  | .y => { r with y := value }
  | .u => { r with u := value }
  | .s => { r with s := value }
  | .pc => { r with pc := value }
  | .a => { r with a := value.lowByte }
  | .b => { r with b := value.lowByte }
  | .cc => { r with cc := ⟨value.lowByte⟩ }
  | .dp => { r with dp := value.lowByte }

/-- A code without a register reads as all ones. -/
def getCoded (r : Registers) (code : Byte) : Word :=
  match TransferRegister.ofCode? code with
  | some reg => r.get reg
  | none => 0xFFFF

/-- A code without a register ignores what is written to it. -/
def setCoded (r : Registers) (code : Byte) (value : Word) : Registers :=
  match TransferRegister.ofCode? code with
  | some reg => r.set reg value
  | none => r

/-- The high nibble of a postbyte names the source and the low nibble the destination. -/
def transfer (r : Registers) (postbyte : Byte) : Registers :=
  r.setCoded postbyte (r.getCoded (postbyte >>> 4))

/-- Both registers are read before either is written; the high nibble's is written first. -/
def exchange (r : Registers) (postbyte : Byte) : Registers :=
  let first := r.getCoded (postbyte >>> 4)
  let second := r.getCoded postbyte
  (r.setCoded (postbyte >>> 4) second).setCoded postbyte first

end Registers

end M6809
