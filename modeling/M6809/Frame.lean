import M6809.BusM

/-!
Stacks and the frames on them. Both stacks grow downward and their pointer addresses the last byte
pushed. A mask selects the registers of a frame, which lie in memory in the order of the mask bits
from bit 0 up, words high byte first; so a push works from the last of these bytes down and a pull
from the first up.
-/
namespace M6809

/-- What a frame can hold, in the order of the mask bits. -/
inductive FrameRegister where
  | cc
  | a
  | b
  | dp
  | x
  | y
  /-- The pointer of the stack that the frame is not on. -/
  | otherStack
  | pc
deriving DecidableEq, Repr

namespace FrameRegister

def all : List FrameRegister := [cc, a, b, dp, x, y, otherStack, pc]

def bit : FrameRegister → Nat
  | cc => 0
  | a => 1
  | b => 2
  | dp => 3
  | x => 4
  | y => 5
  | otherStack => 6
  | pc => 7

/-- The registers of a mask in memory order. -/
def selected (mask : Byte) : List FrameRegister := all.filter fun reg => mask.getLsbD reg.bit

def width : FrameRegister → Nat
  | cc | a | b | dp => 1
  | x | y | otherStack | pc => 2

def totalWidth : List FrameRegister → Nat
  | [] => 0
  | reg :: rest => reg.width + totalWidth rest

def name (stack : Stack) : FrameRegister → String
  | cc => "CC"
  | a => "A"
  | b => "B"
  | dp => "DP"
  | x => "X"
  | y => "Y"
  | otherStack => stack.other.name
  | pc => "PC"

/-- The bytes that a register puts into a frame, in memory order. -/
def bytes (stack : Stack) (r : Registers) : FrameRegister → List Byte
  | cc => [r.cc.bits]
  | a => [r.a]
  | b => [r.b]
  | dp => [r.dp]
  | x => r.x.bytes
  | y => r.y.bytes
  | otherStack => (r.stackPointer stack.other).bytes
  | pc => r.pc.bytes

theorem length_bytes (stack : Stack) (r : Registers) (reg : FrameRegister) :
    (reg.bytes stack r).length = reg.width := by
  cases reg <;> rfl

theorem length_flatMap_bytes (stack : Stack) (r : Registers) (regs : List FrameRegister) :
    (regs.flatMap (·.bytes stack r)).length = totalWidth regs := by
  induction regs with
  | nil => rfl
  | cons reg rest ih => rw [List.flatMap_cons, List.length_append, length_bytes, ih, totalWidth]

end FrameRegister

def entireFrame : Byte := 0xFF

/-- Every register but CC, which a return has pulled by then. -/
def entireFrameBehindCc : Byte := 0xFE

/-- PC and CC. -/
def fastFrame : Byte := 0x81

def frameSize (mask : Byte) : Nat := FrameRegister.totalWidth (FrameRegister.selected mask)

namespace Registers

/-- The bytes of a frame, in memory order. -/
def frame (r : Registers) (stack : Stack) (mask : Byte) : List Byte :=
  (FrameRegister.selected mask).flatMap (·.bytes stack r)

theorem length_frame (r : Registers) (stack : Stack) (mask : Byte) :
    (r.frame stack mask).length = frameSize mask :=
  FrameRegister.length_flatMap_bytes stack r _

def pushByte (r : Registers) (stack : Stack) (value : Byte) : BusM Registers := do
  let pointer := r.stackPointer stack - 1
  BusM.writeByte pointer value
  pure (r.setStackPointer stack pointer)

/-- Pushes bytes so that they lie in memory in the order of the list. -/
def pushBytes (r : Registers) (stack : Stack) : List Byte → BusM Registers
  | [] => pure r
  | value :: rest => do
    let r ← r.pushBytes stack rest
    r.pushByte stack value

def pushWord (r : Registers) (stack : Stack) (value : Word) : BusM Registers :=
  r.pushBytes stack value.bytes

def push (r : Registers) (stack : Stack) (mask : Byte) : BusM Registers :=
  r.pushBytes stack (r.frame stack mask)

def pullByte (r : Registers) (stack : Stack) : BusM (Byte × Registers) := do
  let pointer := r.stackPointer stack
  let value ← BusM.readByte pointer
  pure (value, r.setStackPointer stack (pointer + 1))

def pullWord (r : Registers) (stack : Stack) : BusM (Word × Registers) := do
  let (high, r) ← r.pullByte stack
  let (low, r) ← r.pullByte stack
  pure (Word.ofBytes high low, r)

def pullRegister (r : Registers) (stack : Stack) : FrameRegister → BusM Registers
  | .cc => do
    let (value, r) ← r.pullByte stack
    pure { r with cc := ⟨value⟩ }
  | .a => do
    let (value, r) ← r.pullByte stack
    pure { r with a := value }
  | .b => do
    let (value, r) ← r.pullByte stack
    pure { r with b := value }
  | .dp => do
    let (value, r) ← r.pullByte stack
    pure { r with dp := value }
  | .x => do
    let (value, r) ← r.pullWord stack
    pure { r with x := value }
  | .y => do
    let (value, r) ← r.pullWord stack
    pure { r with y := value }
  | .otherStack => do
    let (value, r) ← r.pullWord stack
    pure (r.setStackPointer stack.other value)
  | .pc => do
    let (value, r) ← r.pullWord stack
    pure { r with pc := value }

def pullEach (r : Registers) (stack : Stack) : List FrameRegister → BusM Registers
  | [] => pure r
  | reg :: rest => do
    let r ← r.pullRegister stack reg
    r.pullEach stack rest

def pull (r : Registers) (stack : Stack) (mask : Byte) : BusM Registers :=
  r.pullEach stack (FrameRegister.selected mask)

end Registers

end M6809
