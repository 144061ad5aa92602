import M6809.Word

namespace M6809

-- bit masks of the flags
namespace Flag

/-- Carry out of, or borrow into, the top bit. -/
def carry : Byte := 0x01

def overflow : Byte := 0x02

def zero : Byte := 0x04

def negative : Byte := 0x08

/-- While set, IRQ is ignored. -/
def irqMask : Byte := 0x10

/-- Carry out of bit 3 of a byte addition. -/
def halfCarry : Byte := 0x20

/-- While set, FIRQ is ignored. -/
def firqMask : Byte := 0x40

/-- The stacked frame holds every register. -/
def entire : Byte := 0x80

/-- Every flag, lowest bit first. -/
def all : List Byte :=
  [carry, overflow, zero, negative, irqMask, halfCarry, firqMask, entire]

end Flag

structure ConditionCodes where
  bits : Byte
deriving DecidableEq, Repr

namespace ConditionCodes

def isSet (cc : ConditionCodes) (mask : Byte) : Bool := cc.bits &&& mask != 0

def set (cc : ConditionCodes) (mask : Byte) : ConditionCodes := ⟨cc.bits ||| mask⟩

def clear (cc : ConditionCodes) (mask : Byte) : ConditionCodes := ⟨cc.bits &&& ~~~mask⟩

def assign (cc : ConditionCodes) (mask : Byte) (on : Bool) : ConditionCodes :=
  if on then cc.set mask else cc.clear mask

/-- The flags under `mask` take their bits from `flags`, and the others stay. -/
def update (cc : ConditionCodes) (mask flags : Byte) : ConditionCodes :=
  ⟨(cc.bits &&& ~~~mask) ||| (flags &&& mask)⟩

def carry (cc : ConditionCodes) : Bool := cc.isSet Flag.carry

def overflow (cc : ConditionCodes) : Bool := cc.isSet Flag.overflow

def zero (cc : ConditionCodes) : Bool := cc.isSet Flag.zero

def negative (cc : ConditionCodes) : Bool := cc.isSet Flag.negative

def irqMask (cc : ConditionCodes) : Bool := cc.isSet Flag.irqMask

def halfCarry (cc : ConditionCodes) : Bool := cc.isSet Flag.halfCarry

def firqMask (cc : ConditionCodes) : Bool := cc.isSet Flag.firqMask

def entire (cc : ConditionCodes) : Bool := cc.isSet Flag.entire

theorem getLsbD_update (cc : ConditionCodes) (mask flags : Byte) (i : Nat) :
    (cc.update mask flags).bits.getLsbD i =
      if mask.getLsbD i then flags.getLsbD i else cc.bits.getLsbD i := by
  by_cases hi : i < 8
  · cases h : mask.getLsbD i <;> simp_all [update]
  · have h8 : 8 ≤ i := by omega
    simp [BitVec.getLsbD_of_ge _ i h8]

end ConditionCodes

end M6809
