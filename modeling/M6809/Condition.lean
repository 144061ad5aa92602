import M6809.ConditionCodes

namespace M6809

inductive Condition where
  | always
  | never
  | higher
  | lowerOrSame
  | carryClear
  | carrySet
  | notEqual
  | equal
  | overflowClear
  | overflowSet
  | plus
  | minus
  | greaterOrEqual
  | lessThan
  | greaterThan
  | lessOrEqual
deriving DecidableEq, Repr

namespace Condition

def all : List Condition :=
  [always, never, higher, lowerOrSame, carryClear, carrySet, notEqual, equal, overflowClear,
    overflowSet, plus, minus, greaterOrEqual, lessThan, greaterThan, lessOrEqual]

/-- The code in the low nibble of a branch opcode. -/
def code : Condition → Nat
  | always => 0x0
  | never => 0x1
  | higher => 0x2
  | lowerOrSame => 0x3
  | carryClear => 0x4
  | carrySet => 0x5
  | notEqual => 0x6
  | equal => 0x7
  | overflowClear => 0x8
  | overflowSet => 0x9
  | plus => 0xA
  | minus => 0xB
  | greaterOrEqual => 0xC
  | lessThan => 0xD
  | greaterThan => 0xE
  | lessOrEqual => 0xF

/-- The condition of a code, of which only the low nibble counts. -/
def ofCode (code : Nat) : Condition :=
  match code % 16 with
  | 0x0 => always
  | 0x1 => never
  | 0x2 => higher
  | 0x3 => lowerOrSame
  | 0x4 => carryClear
  | 0x5 => carrySet
  | 0x6 => notEqual
  | 0x7 => equal
  | 0x8 => overflowClear
  | 0x9 => overflowSet
  | 0xA => plus
  | 0xB => minus
  | 0xC => greaterOrEqual
  | 0xD => lessThan
  | 0xE => greaterThan
  | _ => lessOrEqual

@[simp] theorem ofCode_code (c : Condition) : ofCode c.code = c := by
  cases c <;> rfl

/-- The two letters behind the B of a branch mnemonic. -/
def suffix : Condition → String
  | always => "RA"
  | never => "RN"
  | higher => "HI"
  | lowerOrSame => "LS"
  | carryClear => "CC"
  | carrySet => "CS"
  | notEqual => "NE"
  | equal => "EQ"
  | overflowClear => "VC"
  | overflowSet => "VS"
  | plus => "PL"
  | minus => "MI"
  | greaterOrEqual => "GE"
  | lessThan => "LT"
  | greaterThan => "GT"
  | lessOrEqual => "LE"

def holds (c : Condition) (cc : ConditionCodes) : Bool :=
  match c with
  | always => true
  | never => false
  | higher => !(cc.carry || cc.zero)
  | lowerOrSame => cc.carry || cc.zero
  | carryClear => !cc.carry
  | carrySet => cc.carry
  | notEqual => !cc.zero
  | equal => cc.zero
  | overflowClear => !cc.overflow
  | overflowSet => cc.overflow
  | plus => !cc.negative
  | minus => cc.negative
  | greaterOrEqual => cc.negative == cc.overflow
  | lessThan => cc.negative != cc.overflow
  | greaterThan => !cc.zero && cc.negative == cc.overflow
  | lessOrEqual => cc.zero || cc.negative != cc.overflow

end Condition

end M6809
