import M6809.BusM
import M6809.Indexed

/-!
Finding an instruction's operand. Whatever the addressing mode, an operand is an address: that of
the bytes behind the opcode in immediate mode, and the target of a branch. A reserved postbyte is
found here, before the operation has touched anything.
-/
namespace M6809

namespace Registers

def fetchByte (r : Registers) : BusM (Byte × Registers) := do
  let value ← BusM.readByte r.pc
  pure (value, { r with pc := r.pc + 1 })

def fetchWord (r : Registers) : BusM (Word × Registers) := do
  let (high, r) ← r.fetchByte
  let (low, r) ← r.fetchByte
  pure (Word.ofBytes high low, r)

/-- The bytes behind a postbyte as a word; there are none, one or two. -/
def fetchExtra (r : Registers) : Nat → BusM (Word × Registers)
  | 0 => pure (0, r)
  | 1 => do
    let (low, r) ← r.fetchByte
    pure (Word.ofBytes 0 low, r)
  | _ => r.fetchWord

end Registers

/-- An operand's address, the cycles of an indexed form, and the registers with PC past the
instruction. -/
structure Operand where
  address : Word
  extraCycles : Nat
  regs : Registers
deriving DecidableEq, Repr

namespace Operand

def ofMode (mode : IndexedMode) (fetched : Word) (r : Registers) : BusM Operand := do
  let place := mode.address r fetched
  let r := mode.moveBase r
  let address ← if mode.indirect then BusM.readWord place else pure place
  pure ⟨address, mode.extraCycles, r⟩

/-- The operand of the indexed instruction at `start`, with PC on its postbyte. -/
def indexed (start : Word) (r : Registers) : BusM (Except Trap Operand) := do
  let (postbyte, r) ← r.fetchByte
  match IndexedMode.ofPostbyte? postbyte with
  | none => pure (.error ⟨.illegalPostbyte start postbyte, r⟩)
  | some mode => do
    let (fetched, r) ← r.fetchExtra mode.extraBytes
    let operand ← ofMode mode fetched r
    pure (.ok operand)

/-- The operand of the instruction at `start`, with PC behind its opcode. -/
def find (opcode : Opcode) (start : Word) (r : Registers) : BusM (Except Trap Operand) :=
  match opcode.mode with
  | .inherent => pure (.ok ⟨r.pc, 0, r⟩)
  | .immediate =>
    let next := r.pc + BitVec.ofNat 16 opcode.operation.immediateWidth
    pure (.ok ⟨r.pc, 0, { r with pc := next }⟩)
  | .direct => do
    let (low, r) ← r.fetchByte
    pure (.ok ⟨Word.ofBytes r.dp low, 0, r⟩)
  | .extended => do
    let (address, r) ← r.fetchWord
    pure (.ok ⟨address, 0, r⟩)
  | .indexed => indexed start r
  | .relative => do
    let (offset, r) ← r.fetchByte
    pure (.ok ⟨r.pc + offset.displacement, 0, r⟩)
  | .longRelative => do
    let (offset, r) ← r.fetchWord
    pure (.ok ⟨r.pc + offset, 0, r⟩)

end Operand

end M6809
