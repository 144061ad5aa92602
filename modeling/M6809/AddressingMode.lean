namespace M6809

inductive AddressingMode where
  | inherent
  | immediate
  | direct
  | extended
  | indexed
  | relative
  | longRelative
deriving DecidableEq, Repr

namespace AddressingMode

/-- A branch is long when its displacement is a word. -/
def isLong : AddressingMode → Bool
  | longRelative => true
  | _ => false

/-- Cycles spent on reaching the operand, those of the indexed forms apart. -/
def cycles : AddressingMode → Nat
  | inherent | immediate | relative => 0
  | direct | indexed | longRelative => 2
  | extended => 3

end AddressingMode

end M6809
