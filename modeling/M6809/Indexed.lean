import M6809.Registers

/-!
Indexed addressing. A postbyte selects a form, a base register and an optional indirection.

```text
0RRnnnnn  n5,R        1RRI0110  A,R
1RR00000  ,R+         1RRI1000  n8,R
1RRI0001  ,R++        1RRI1001  n16,R
1RR00010  ,-R         1RRI1011  D,R
1RRI0011  ,--R        1RRI1100  n8,PCR
1RRI0100  ,R          1RRI1101  n16,PCR
1RRI0101  B,R         1RR11111  [n16]
```
-/
namespace M6809

/-- How far an automatic form moves its base register. -/
inductive AutoStep where
  | one
  | two
deriving DecidableEq, Repr

namespace AutoStep

def distance : AutoStep → Word
  | one => 1
  | two => 2

end AutoStep

inductive OffsetWidth where
  | byte
  | word
deriving DecidableEq, Repr

namespace OffsetWidth

def bytes : OffsetWidth → Nat
  | byte => 1
  | word => 2

/-- A byte offset is signed; it is the low byte of what was fetched. -/
def extend (width : OffsetWidth) (fetched : Word) : Word :=
  match width with
  | byte => fetched.lowByte.displacement
  | word => fetched

end OffsetWidth

/-- What is added to the base register, or stands in its place. -/
inductive IndexForm where
  | short (n : BitVec 5)
  | increment (step : AutoStep)
  | decrement (step : AutoStep)
  | plain
  | accumulator (reg : Accumulator)
  | pair
  | offset (width : OffsetWidth)
  | pcOffset (width : OffsetWidth)
  | absolute
deriving DecidableEq, Repr

namespace IndexForm

/-- The form in the low nibble of a postbyte whose top bit is set. Single steps have no indirect
form, and the absolute address has no other. -/
def ofNibble? (nibble : Nat) (indirect : Bool) : Option IndexForm :=
  match nibble with
  | 0x0 => if indirect then none else some (increment .one)
  | 0x1 => some (increment .two)
  | 0x2 => if indirect then none else some (decrement .one)
  | 0x3 => some (decrement .two)
  | 0x4 => some plain
  | 0x5 => some (accumulator .b)
  | 0x6 => some (accumulator .a)
  | 0x8 => some (offset .byte)
  | 0x9 => some (offset .word)
  | 0xB => some pair
  | 0xC => some (pcOffset .byte)
  | 0xD => some (pcOffset .word)
  | 0xF => if indirect then some absolute else none
  | _ => none

def extraBytes : IndexForm → Nat
  | offset width | pcOffset width => width.bytes
  | absolute => 2
  | _ => 0

def cycles : IndexForm → Nat
  | plain => 0
  | short _ | accumulator _ | offset .byte | pcOffset .byte => 1
  | increment .one | decrement .one | absolute => 2
  | increment .two | decrement .two => 3
  | offset .word | pair => 4
  | pcOffset .word => 5

/-- The address, from the registers with PC past the operand bytes, the value of the base register
and the bytes fetched behind the postbyte. -/
def address (form : IndexForm) (r : Registers) (base fetched : Word) : Word :=
  match form with
  | short n => base + n.signExtend 16
  | plain | increment _ => base
  | decrement step => base - step.distance
  | accumulator reg => base + (r.acc reg).displacement
  | pair => base + r.d
  | offset width => base + width.extend fetched
  | pcOffset width => r.pc + width.extend fetched
  | absolute => fetched

/-- What the base register becomes, in the forms that move it. -/
def newBase? (form : IndexForm) (base : Word) : Option Word :=
  match form with
  | increment step => some (base + step.distance)
  | decrement step => some (base - step.distance)
  | _ => none

end IndexForm

structure IndexedMode where
  form : IndexForm
  register : IndexRegister
  /-- The operand is where the word at the address points. -/
  indirect : Bool
deriving DecidableEq, Repr

namespace IndexedMode

/-- The mode of a postbyte; `none` for the reserved ones. -/
def ofPostbyte? (postbyte : Byte) : Option IndexedMode :=
  let register := IndexRegister.ofPostbyte postbyte
  if postbyte.getLsbD 7 then
    let indirect := postbyte.getLsbD 4
    (IndexForm.ofNibble? (postbyte.toNat % 16) indirect).map fun form =>
      ⟨form, register, indirect⟩
  else some ⟨.short (postbyte.setWidth 5), register, false⟩

def extraBytes (mode : IndexedMode) : Nat := mode.form.extraBytes

/-- Cycles on top of the instruction's own; following a pointer takes three. -/
def extraCycles (mode : IndexedMode) : Nat :=
  mode.form.cycles + if mode.indirect then 3 else 0

/-- The address of the operand, or of the pointer to it. -/
def address (mode : IndexedMode) (r : Registers) (fetched : Word) : Word :=
  mode.form.address r (r.index mode.register) fetched

def newBase? (mode : IndexedMode) (r : Registers) : Option Word :=
  mode.form.newBase? (r.index mode.register)

/-- The registers once an automatic form has moved its base. -/
def moveBase (mode : IndexedMode) (r : Registers) : Registers :=
  match mode.newBase? r with
  | some base => r.setIndex mode.register base
  | none => r

end IndexedMode

end M6809
