import M6809.Arithmetic
import M6809.Frame
import M6809.Opcode.Table
import M6809.Operand
import M6809.Transfer

namespace M6809

inductive RunState where
  | running
  /-- Stopped by SYNC until an interrupt line is asserted. -/
  | sync
  /-- Stopped by CWAI with the entire frame stacked. -/
  | wait
deriving DecidableEq, Repr

namespace Modification

def compute (op : Modification) (value : Byte) (carry : Bool) : FlaggedValue 8 :=
  match op with
  | neg => Arithmetic.neg value
  | com => Arithmetic.com value
  | lsr => Arithmetic.lsr value
  | ror => Arithmetic.ror value carry
  | asr => Arithmetic.asr value
  | asl => Arithmetic.asl value
  | rol => Arithmetic.rol value carry
  | dec => Arithmetic.dec value
  | inc => Arithmetic.inc value
  | tst => Arithmetic.logic value
  | clr => Arithmetic.clr

/-- A test leaves memory unwritten. -/
def writesBack : Modification → Bool
  | tst => false
  | _ => true

end Modification

namespace ByteOperation

def compute (op : ByteOperation) (value operand : Byte) (carry : Bool) : FlaggedValue 8 :=
  match op with
  | sub | cmp => Arithmetic.sub value operand false
  | sbc => Arithmetic.sub value operand carry
  | and | bit => Arithmetic.logic (value &&& operand)
  | ld => Arithmetic.logic operand
  | eor => Arithmetic.logic (value ^^^ operand)
  | adc => Arithmetic.addByte value operand carry
  | or => Arithmetic.logic (value ||| operand)
  | add => Arithmetic.addByte value operand false

/-- Comparisons keep the flags only. -/
def keepsResult : ByteOperation → Bool
  | cmp | bit => false
  | _ => true

end ByteOperation

namespace WordOperation

def compute (op : WordOperation) (value operand : Word) : FlaggedValue 16 :=
  match op with
  | sub | cmp => Arithmetic.sub value operand false
  | add => Arithmetic.add value operand false
  | ld => Arithmetic.logic operand

/-- Comparisons keep the flags only. -/
def keepsResult : WordOperation → Bool
  | cmp => false
  | _ => true

end WordOperation

/-- What an operation leaves behind. -/
structure Effect where
  regs : Registers
  state : RunState
  /-- Cycles beyond the opcode's count. -/
  extraCycles : Nat
deriving DecidableEq, Repr

namespace Effect

def ofRegisters (regs : Registers) : Effect := ⟨regs, .running, 0⟩

end Effect

namespace Registers

def updateFlags {w : Nat} (r : Registers) (result : FlaggedValue w) : Registers :=
  { r with cc := result.updateFlags r.cc }

def call (r : Registers) (address : Word) : BusM Registers := do
  let r ← r.pushWord .s r.pc
  pure { r with pc := address }

/-- Goes to the handler whose address is at a vector. -/
def enterHandler (r : Registers) (vector : Word) : BusM Registers := do
  let pc ← BusM.readWord vector
  pure { r with pc }

/-- Stacks every register, with the flag set that says so. -/
def pushEntire (r : Registers) : BusM Registers :=
  { r with cc := r.cc.set Flag.entire }.push .s entireFrame

end Registers

namespace Operation

/-- The pulled CC tells how much of the frame is left to pull. -/
def returnFromInterrupt (r : Registers) : BusM Effect := do
  let (bits, r) ← r.pullByte .s
  let r := { r with cc := ⟨bits⟩ }
  if r.cc.entire then do
    let r ← r.pull .s entireFrameBehindCc
    BusM.report (.returned true r.pc)
    pure ⟨r, .running, 9⟩
  else do
    let (pc, r) ← r.pullWord .s
    BusM.report (.returned false pc)
    pure (.ofRegisters { r with pc })

def softwareInterrupt (kind : SoftwareInterrupt) (r : Registers) : BusM Effect := do
  let r ← r.pushEntire
  let r ← { r with cc := r.cc.set kind.masks }.enterHandler kind.vector
  BusM.report (.softwareInterruptEntered kind r.pc)
  pure (.ofRegisters r)

/-- Performs an operation on the operand at an address, with PC behind the instruction. `page`
matters to a branch alone: a long conditional one costs a cycle more when taken. -/
def perform (page : Page) (address : Word) (r : Registers) : Operation → BusM Effect
  | modify op .memory => do
    let value ← BusM.readByte address
    let result := op.compute value r.cc.carry
    BusM.when op.writesBack (BusM.writeByte address result.value)
    pure (.ofRegisters (r.updateFlags result))
  | modify op (.accumulator reg) =>
    let result := op.compute (r.acc reg) r.cc.carry
    pure (.ofRegisters ((r.updateFlags result).setAcc reg result.value))
  | byte op reg => do
    let operand ← BusM.readByte address
    let result := op.compute (r.acc reg) operand r.cc.carry
    let r := r.updateFlags result
    pure (.ofRegisters (if op.keepsResult then r.setAcc reg result.value else r))
  | storeByte reg => do
    let result := Arithmetic.logic (r.acc reg)
    BusM.writeByte address result.value
    pure (.ofRegisters (r.updateFlags result))
  | word op reg => do
    let operand ← BusM.readWord address
    let result := op.compute (r.wide reg) operand
    let r := r.updateFlags result
    pure (.ofRegisters (if op.keepsResult then r.setWide reg result.value else r))
  | storeWord reg => do
    let result := Arithmetic.logic (r.wide reg)
    BusM.writeWord address result.value
    pure (.ofRegisters (r.updateFlags result))
  | lea reg =>
    let r := r.setIndex reg address
    match reg with
    | .x | .y =>
      pure (.ofRegisters { r with cc := r.cc.assign Flag.zero (address == 0) })
    | .u | .s => pure (.ofRegisters r)
  | branch condition =>
    if condition.holds r.cc then
      pure ⟨{ r with pc := address }, .running, if page = .one then 1 else 0⟩
    else pure (.ofRegisters r)
  | bsr | jsr => do
    let r ← r.call address
    pure (.ofRegisters r)
  | jmp => pure (.ofRegisters { r with pc := address })
  | rts => do
    let (pc, r) ← r.pullWord .s
    pure (.ofRegisters { r with pc })
  | rti => returnFromInterrupt r
  | push stack => do
    let mask ← BusM.readByte address
    let r ← r.push stack mask
    pure ⟨r, .running, frameSize mask⟩
  | pull stack => do
    let mask ← BusM.readByte address
    let r ← r.pull stack mask
    pure ⟨r, .running, frameSize mask⟩
  | tfr => do
    let postbyte ← BusM.readByte address
    pure (.ofRegisters (r.transfer postbyte))
  | exg => do
    let postbyte ← BusM.readByte address
    pure (.ofRegisters (r.exchange postbyte))
  | orcc => do
    let mask ← BusM.readByte address
    pure (.ofRegisters { r with cc := ⟨r.cc.bits ||| mask⟩ })
  | andcc => do
    let mask ← BusM.readByte address
    pure (.ofRegisters { r with cc := ⟨r.cc.bits &&& mask⟩ })
  | cwai => do
    let mask ← BusM.readByte address
    let r ← { r with cc := ⟨r.cc.bits &&& mask⟩ }.pushEntire
    BusM.report (.waiting r.s)
    pure ⟨r, .wait, 0⟩
  | sync => do
    BusM.report .syncing
    pure ⟨r, .sync, 0⟩
  | swi kind => softwareInterrupt kind r
  | nop => pure (.ofRegisters r)
  | daa =>
    let result := Arithmetic.daa r.a r.cc
    pure (.ofRegisters { r.updateFlags result with a := result.value })
  | sex =>
    let result := Arithmetic.sex r.b
    pure (.ofRegisters ((r.updateFlags result).setD result.value))
  | abx => pure (.ofRegisters { r with x := r.x + r.b.setWidth 16 })
  | mul =>
    let result := Arithmetic.mul r.a r.b
    pure (.ofRegisters ((r.updateFlags result).setD result.value))

end Operation

structure Execution where
  opcode : Opcode
  regs : Registers
  state : RunState
  cycles : Nat
deriving DecidableEq, Repr

namespace Registers

/-- Reads the page and the code of the instruction at PC, and moves PC past them. -/
def fetchCode (r : Registers) : BusM (Page × Byte × Registers) := do
  let (first, r) ← r.fetchByte
  match Page.ofPrefixByte? first with
  | some page => do
    let (code, r) ← r.fetchByte
    pure (page, code, r)
  | none => pure (.zero, first, r)

/-- Executes an opcode, with PC behind it. `start` is the address of the instruction. -/
def executeOpcode (r : Registers) (opcode : Opcode) (start : Word) :
    BusM (Except Trap Execution) := do
  match ← Operand.find opcode start r with
  | .error trap => pure (.error trap)
  | .ok operand => do
    let effect ← opcode.operation.perform opcode.page operand.address operand.regs
    let cycles := opcode.cycles + operand.extraCycles + effect.extraCycles
    pure (.ok ⟨opcode, effect.regs, effect.state, cycles⟩)

def execute (r : Registers) : BusM (Except Trap Execution) := do
  let (page, code, fetched) ← r.fetchCode
  match Opcode.ofCode? page code with
  | none => pure (.error ⟨.illegalOpcode r.pc page code, fetched⟩)
  | some opcode => fetched.executeOpcode opcode r.pc

end Registers

end M6809
