import M6809.ConditionCodes

namespace M6809

structure Registers where
  a : Byte
  b : Byte
  x : Word
  y : Word
  u : Word
  s : Word
  pc : Word
  dp : Byte
  cc : ConditionCodes
deriving DecidableEq, Repr

inductive Accumulator where
  | a
  | b
deriving DecidableEq, Repr

/-- A register that indexed addressing may use as its base. -/
inductive IndexRegister where
  | x
  | y
  | u
  | s
deriving DecidableEq, Repr

inductive WideRegister where
  | d
  | x
  | y
  | u
  | s
deriving DecidableEq, Repr

/-- A stack, named by its pointer. -/
inductive Stack where
  | s
  | u
deriving DecidableEq, Repr

namespace Accumulator

def name : Accumulator → String
  | a => "A"
  | b => "B"

end Accumulator

namespace IndexRegister

/-- The register's number in bits 6 and 5 of a postbyte. -/
def number : IndexRegister → Nat
  | x => 0
  | y => 1
  | u => 2
  | s => 3

def ofPostbyte (postbyte : Byte) : IndexRegister :=
  match postbyte.toNat / 32 % 4 with
  | 0 => x
  | 1 => y
  | 2 => u
  | _ => s

def name : IndexRegister → String
  | x => "X"
  | y => "Y"
  | u => "U"
  | s => "S"

end IndexRegister

namespace WideRegister

def name : WideRegister → String
  | d => "D"
  | x => "X"
  | y => "Y"
  | u => "U"
  | s => "S"

end WideRegister

namespace Stack

/-- The stack whose pointer a push or pull can carry. -/
def other : Stack → Stack
  | s => u
  | u => s

def name : Stack → String
  | s => "S"
  | u => "U"

end Stack

namespace Registers

def zero : Registers := ⟨0, 0, 0, 0, 0, 0, 0, 0, ⟨0⟩⟩

/-- All zero but the two interrupt masks. -/
def initial : Registers := { zero with cc := ⟨Flag.irqMask ||| Flag.firqMask⟩ }

def d (r : Registers) : Word := Word.ofBytes r.a r.b

def setD (r : Registers) (value : Word) : Registers :=
  { r with a := value.highByte, b := value.lowByte }

def acc (r : Registers) : Accumulator → Byte
  | .a => r.a
  | .b => r.b

def setAcc (r : Registers) (acc : Accumulator) (value : Byte) : Registers :=
  match acc with
  | .a => { r with a := value }
  | .b => { r with b := value }

def index (r : Registers) : IndexRegister → Word
  | .x => r.x
  | .y => r.y
  | .u => r.u
  | .s => r.s

def setIndex (r : Registers) (reg : IndexRegister) (value : Word) : Registers :=
  match reg with
  | .x => { r with x := value }
  | .y => { r with y := value }
  | .u => { r with u := value }
  | .s => { r with s := value }

def wide (r : Registers) : WideRegister → Word
  | .d => r.d
  | .x => r.x
  | .y => r.y
  | .u => r.u
  | .s => r.s

def setWide (r : Registers) (reg : WideRegister) (value : Word) : Registers :=
  match reg with
  | .d => r.setD value
  | .x => { r with x := value }
  | .y => { r with y := value }
  | .u => { r with u := value }
  | .s => { r with s := value }

/-- The stack pointer, which addresses the last byte pushed. -/
def stackPointer (r : Registers) : Stack → Word
  | .s => r.s
  | .u => r.u

def setStackPointer (r : Registers) (stack : Stack) (value : Word) : Registers :=
  match stack with
  | .s => { r with s := value }
  | .u => { r with u := value }

@[simp] theorem d_setD (r : Registers) (value : Word) : (r.setD value).d = value := by
  simp [d, setD]

@[simp] theorem setD_d (r : Registers) : r.setD r.d = r := by
  simp [d, setD]

@[simp] theorem stackPointer_setStackPointer (r : Registers) (stack : Stack) (value : Word) :
    (r.setStackPointer stack value).stackPointer stack = value := by
  cases stack <;> rfl

@[simp] theorem stackPointer_other_setStackPointer (r : Registers) (stack : Stack) (value : Word) :
    (r.setStackPointer stack value).stackPointer stack.other = r.stackPointer stack.other := by
  cases stack <;> rfl

end Registers

end M6809
