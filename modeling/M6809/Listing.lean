import M6809.Frame
import M6809.Indexed
import M6809.Opcode.Table
import M6809.Transfer

namespace M6809

/-- The operand of an instruction as its bytes give it. -/
inductive OperandForm where
  | implied
  | registers (stack : Stack) (mask : Byte)
  | transfer (postbyte : Byte)
  | immediateByte (value : Byte)
  | immediateWord (value : Word)
  | direct (low : Byte)
  | extended (address : Word)
  | indexed (mode : IndexedMode) (fetched : Word)
  | target (address : Word)
deriving DecidableEq, Repr

namespace AutoStep

def signs (sign : String) : AutoStep → String
  | one => sign
  | two => sign ++ sign

end AutoStep

namespace OffsetWidth

/-- A byte offset is written with its sign, a word offset as it stands. -/
def text (width : OffsetWidth) (fetched : Word) : String :=
  match width with
  | byte => Hex.signed fetched.lowByte
  | word => s!"${Hex.word fetched}"

end OffsetWidth

namespace IndexForm

/-- A form on a base register, without the brackets of an indirection. -/
def text (form : IndexForm) (base : String) (fetched : Word) : String :=
  match form with
  | short n => s!"{Hex.signed (n.signExtend 8)},{base}"
  | increment step => s!",{base}" ++ step.signs "+"
  | decrement step => "," ++ step.signs "-" ++ base
  | plain => s!",{base}"
  | accumulator reg => s!"{reg.name},{base}"
  | pair => s!"D,{base}"
  | offset width => s!"{width.text fetched},{base}"
  | pcOffset width => s!"{width.text fetched},PCR"
  | absolute => s!"${Hex.word fetched}"

end IndexForm

namespace IndexedMode

def text (mode : IndexedMode) (fetched : Word) : String :=
  let inner := mode.form.text mode.register.name fetched
  if mode.indirect then s!"[{inner}]" else inner

end IndexedMode

namespace TransferRegister

/-- The name of a transfer code, with a question mark for a code without a register. -/
def codeText (code : Byte) : String := ((ofCode? code).map (·.name)).getD "?"

end TransferRegister

namespace OperandForm

def text : OperandForm → String
  | implied => ""
  | registers stack mask =>
    ",".intercalate ((FrameRegister.selected mask).map (·.name stack))
  | transfer postbyte =>
    s!"{TransferRegister.codeText (postbyte >>> 4)},{TransferRegister.codeText postbyte}"
  | immediateByte value => s!"#${Hex.byte value}"
  | immediateWord value => s!"#${Hex.word value}"
  | direct low => s!"<${Hex.byte low}"
  | extended address => s!"${Hex.word address}"
  | indexed mode fetched => mode.text fetched
  | target address => s!"${Hex.word address}"

end OperandForm

structure Listing where
  address : Word
  bytes : List Byte
  opcode : Opcode
  operand : OperandForm
deriving DecidableEq, Repr

/-- A place in memory, with the bytes read on the way there. -/
structure Cursor where
  next : Word
  bytes : List Byte
deriving DecidableEq, Repr

namespace Cursor

def byte (c : Cursor) : BusM (Byte × Cursor) := do
  let value ← BusM.readByte c.next
  pure (value, ⟨c.next + 1, c.bytes ++ [value]⟩)

def word (c : Cursor) : BusM (Word × Cursor) := do
  let (high, c) ← c.byte
  let (low, c) ← c.byte
  pure (Word.ofBytes high low, c)

def code (c : Cursor) : BusM (Page × Byte × Cursor) := do
  let (first, c) ← c.byte
  match Page.ofPrefixByte? first with
  | some page => do
    let (code, c) ← c.byte
    pure (page, code, c)
  | none => pure (.zero, first, c)

def byteOperand (c : Cursor) (form : Byte → OperandForm) : BusM (OperandForm × Cursor) := do
  let (value, c) ← c.byte
  pure (form value, c)

def wordOperand (c : Cursor) (form : Word → OperandForm) : BusM (OperandForm × Cursor) := do
  let (value, c) ← c.word
  pure (form value, c)

/-- An immediate operand: a register mask, a pair of transfer codes or a value. -/
def immediate (c : Cursor) (operation : Operation) : BusM (OperandForm × Cursor) :=
  match operation with
  | .push stack | .pull stack => c.byteOperand (.registers stack)
  | .tfr | .exg => c.byteOperand .transfer
  | .word _ _ => c.wordOperand .immediateWord
  | _ => c.byteOperand .immediateByte

def indexed (c : Cursor) (start : Word) : BusM (Except Fault (OperandForm × Cursor)) := do
  let (postbyte, c) ← c.byte
  match IndexedMode.ofPostbyte? postbyte with
  | none => pure (.error (.illegalPostbyte start postbyte))
  | some mode =>
    match mode.form with
    | .offset .byte | .pcOffset .byte =>
      Except.ok <$> c.byteOperand fun low => .indexed mode (Word.ofBytes 0 low)
    | .offset .word | .pcOffset .word | .absolute => Except.ok <$> c.wordOperand (.indexed mode)
    | _ => pure (.ok (.indexed mode 0, c))

/-- The operand behind the opcode of the instruction at `start`. -/
def operand (c : Cursor) (opcode : Opcode) (start : Word) :
    BusM (Except Fault (OperandForm × Cursor)) :=
  match opcode.mode with
  | .inherent => pure (.ok (.implied, c))
  | .immediate => Except.ok <$> c.immediate opcode.operation
  | .direct => Except.ok <$> c.byteOperand .direct
  | .extended => Except.ok <$> c.wordOperand .extended
  | .indexed => c.indexed start
  | .relative => do
    let (offset, c) ← c.byte
    pure (.ok (.target (c.next + offset.displacement), c))
  | .longRelative => do
    let (offset, c) ← c.word
    pure (.ok (.target (c.next + offset), c))

end Cursor

namespace Listing

/-- Lists the instruction at an address. A bus whose reads have effects sees each of them. -/
def read (address : Word) : BusM (Except Fault Listing) := do
  let (page, code, c) ← Cursor.code ⟨address, []⟩
  match Opcode.ofCode? page code with
  | none => pure (.error (.illegalOpcode address page code))
  | some opcode => do
    match ← c.operand opcode address with
    | .error fault => pure (.error fault)
    | .ok (operand, c) => pure (.ok ⟨address, c.bytes, opcode, operand⟩)

def length (l : Listing) : Nat := l.bytes.length

def isEmpty (l : Listing) : Bool := l.bytes.isEmpty

def nextAddress (l : Listing) : Word := l.address + BitVec.ofNat 16 l.length

/-- The mnemonic, padded to a column of six when an operand follows. -/
def text (l : Listing) : String :=
  let operand := l.operand.text
  if operand.isEmpty then l.opcode.mnemonic else l.opcode.mnemonicColumn 6 ++ operand

end Listing

end M6809
