import M6809.ConditionCodes

namespace M6809

/-- A computed value with its flags, of which only those under `mask` count. -/
structure FlaggedValue (w : Nat) where
  value : BitVec w
  flags : Byte
  mask : Byte
deriving DecidableEq, Repr

def FlaggedValue.updateFlags {w : Nat} (r : FlaggedValue w) (cc : ConditionCodes) :
    ConditionCodes :=
  cc.update r.mask r.flags

namespace Arithmetic

variable {w : Nat}

def flagIf (flag : Byte) (on : Bool) : Byte := if on then flag else 0

def maskNZ : Byte := Flag.negative ||| Flag.zero

def maskNZV : Byte := maskNZ ||| Flag.overflow

def maskNZC : Byte := maskNZ ||| Flag.carry

def maskNZVC : Byte := maskNZV ||| Flag.carry

/-- N is the top bit of the value, and Z says that the value is zero. -/
def signAndZero (value : BitVec w) : Byte :=
  flagIf Flag.negative value.msb ||| flagIf Flag.zero (value == 0)

/-- Addition with carry. V: two operands of one sign gave a value of the other. -/
def add (a b : BitVec w) (carry : Bool) : FlaggedValue w :=
  let sum := a.toNat + b.toNat + carry.toNat
  let value := BitVec.ofNat w sum
  { value
    flags := signAndZero value |||
      flagIf Flag.overflow ((a ^^^ value) &&& (b ^^^ value)).msb |||
      flagIf Flag.carry (value.toNat < sum)
    mask := maskNZVC }

/-- Byte addition also owns H, the carry out of bit 3. -/
def addByte (a b : Byte) (carry : Bool) : FlaggedValue 8 :=
  let sum := add a b carry
  let half := 15 < a.toNat % 16 + b.toNat % 16 + carry.toNat
  { sum with
    flags := sum.flags ||| flagIf Flag.halfCarry half
    mask := sum.mask ||| Flag.halfCarry }

/-- Subtraction with borrow. C is the borrow into the top bit. -/
def sub (a b : BitVec w) (borrow : Bool) : FlaggedValue w :=
  let value := a - b - BitVec.ofNat w borrow.toNat
  { value
    flags := signAndZero value |||
      flagIf Flag.overflow ((a ^^^ b) &&& (a ^^^ value)).msb |||
      flagIf Flag.carry (a.toNat < b.toNat + borrow.toNat)
    mask := maskNZVC }

/-- A value that is only moved or combined bit by bit: V is cleared. -/
def logic (value : BitVec w) : FlaggedValue w :=
  { value, flags := signAndZero value, mask := maskNZV }

/-- C is set unless the value is zero. -/
def neg (a : Byte) : FlaggedValue 8 :=
  let value := -a
  { value
    flags := signAndZero value ||| flagIf Flag.overflow (a == 0x80) |||
      flagIf Flag.carry (value != 0)
    mask := maskNZVC }

/-- C is always set and V cleared. -/
def com (a : Byte) : FlaggedValue 8 :=
  let value := ~~~a
  { value, flags := signAndZero value ||| Flag.carry, mask := maskNZVC }

def clr : FlaggedValue 8 :=
  { value := 0, flags := Flag.zero, mask := maskNZVC }

/-- C is left alone. -/
def inc (a : Byte) : FlaggedValue 8 :=
  let value := a + 1
  { value
    flags := signAndZero value ||| flagIf Flag.overflow (a == 0x7F)
    mask := maskNZV }

/-- C is left alone. -/
def dec (a : Byte) : FlaggedValue 8 :=
  let value := a - 1
  { value
    flags := signAndZero value ||| flagIf Flag.overflow (a == 0x80)
    mask := maskNZV }

/-- Bit 0 goes to C and a zero comes in; V is left alone. -/
def lsr (a : Byte) : FlaggedValue 8 :=
  let value := a >>> 1
  { value
    flags := signAndZero value ||| flagIf Flag.carry (a.getLsbD 0)
    mask := maskNZC }

/-- Bit 0 goes to C and the sign stays; V says that the two differ. -/
def asr (a : Byte) : FlaggedValue 8 :=
  let value := (a &&& 0x80) ||| (a >>> 1)
  { value
    flags := signAndZero value ||| flagIf Flag.overflow (a.msb != a.getLsbD 0) |||
      flagIf Flag.carry (a.getLsbD 0)
    mask := maskNZVC }

/-- Bit 0 goes to C and the old C comes in at the top; V is left alone. -/
def ror (a : Byte) (carry : Bool) : FlaggedValue 8 :=
  let value := flagIf 0x80 carry ||| (a >>> 1)
  { value
    flags := signAndZero value ||| flagIf Flag.carry (a.getLsbD 0)
    mask := maskNZC }

/-- Bit 7 goes to C and the old C comes in at the bottom; V says that the sign changed. -/
def rol (a : Byte) (carry : Bool) : FlaggedValue 8 :=
  let value := (a <<< 1) ||| flagIf 0x01 carry
  { value
    flags := signAndZero value ||| flagIf Flag.overflow (a ^^^ value).msb |||
      flagIf Flag.carry a.msb
    mask := maskNZVC }

/-- The rotation that takes in a zero. -/
def asl (a : Byte) : FlaggedValue 8 := rol a false

/-- What makes packed decimal of a binary sum: 6 for each digit that passed 9. -/
def decimalCorrection (a : Byte) (cc : ConditionCodes) : Byte :=
  let low := a.toNat % 16
  let high := a.toNat / 16
  flagIf 0x06 (cc.halfCarry || 9 < low) |||
    flagIf 0x60 (cc.carry || 9 < high || (8 < high && 9 < low))

/-- C may be set here and is never cleared; V is left alone. -/
def daa (a : Byte) (cc : ConditionCodes) : FlaggedValue 8 :=
  let sum := a.toNat + (decimalCorrection a cc).toNat
  let value := BitVec.ofNat 8 sum
  { value
    flags := signAndZero value ||| flagIf Flag.carry (cc.carry || 255 < sum)
    mask := maskNZC }

/-- Unsigned product. C is its bit 7. -/
def mul (a b : Byte) : FlaggedValue 16 :=
  let value := BitVec.ofNat 16 (a.toNat * b.toNat)
  { value
    flags := flagIf Flag.zero (value == 0) ||| flagIf Flag.carry (value.getLsbD 7)
    mask := Flag.zero ||| Flag.carry }

def sex (b : Byte) : FlaggedValue 16 :=
  let value := b.displacement
  { value, flags := signAndZero value, mask := maskNZ }

end Arithmetic

end M6809
