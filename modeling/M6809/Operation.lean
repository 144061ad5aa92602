import M6809.AddressingMode
import M6809.Condition
import M6809.Interrupt
import M6809.Registers

namespace M6809

inductive Target where
  | memory
  | accumulator (reg : Accumulator)
deriving DecidableEq, Repr

namespace Target

def suffix : Target → String
  | .memory => ""
  | .accumulator reg => reg.name

end Target

inductive Modification where
  | neg
  | com
  | lsr
  | ror
  | asr
  | asl
  | rol
  | dec
  | inc
  | tst
  | clr
deriving DecidableEq, Repr

namespace Modification

def name : Modification → String
  | neg => "NEG"
  | com => "COM"
  | lsr => "LSR"
  | ror => "ROR"
  | asr => "ASR"
  | asl => "ASL"
  | rol => "ROL"
  | dec => "DEC"
  | inc => "INC"
  | tst => "TST"
  | clr => "CLR"

end Modification

inductive ByteOperation where
  | sub
  | cmp
  | sbc
  | and
  | bit
  | ld
  | eor
  | adc
  | or
  | add
deriving DecidableEq, Repr

namespace ByteOperation

def name : ByteOperation → String
  | sub => "SUB"
  | cmp => "CMP"
  | sbc => "SBC"
  | and => "AND"
  | bit => "BIT"
  | ld => "LD"
  | eor => "EOR"
  | adc => "ADC"
  | or => "OR"
  | add => "ADD"

end ByteOperation

inductive WordOperation where
  | sub
  | add
  | cmp
  | ld
deriving DecidableEq, Repr

namespace WordOperation

def name : WordOperation → String
  | sub => "SUB"
  | add => "ADD"
  | cmp => "CMP"
  | ld => "LD"

end WordOperation

inductive Operation where
  | modify (op : Modification) (target : Target)
  | byte (op : ByteOperation) (acc : Accumulator)
  | storeByte (acc : Accumulator)
  | word (op : WordOperation) (reg : WideRegister)
  | storeWord (reg : WideRegister)
  | lea (reg : IndexRegister)
  | branch (condition : Condition)
  | bsr
  | jmp
  | jsr
  | rts
  | rti
  | push (stack : Stack)
  | pull (stack : Stack)
  | tfr
  | exg
  | orcc
  | andcc
  | cwai
  | sync
  | swi (kind : SoftwareInterrupt)
  | nop
  | daa
  | sex
  | abx
  | mul
deriving DecidableEq, Repr

namespace Operation

def immediateWidth : Operation → Nat
  | word _ _ => 2
  | _ => 1

/-- Cycles of the operation itself, without its addressing and its page. -/
def cycles : Operation → Nat
  | modify _ .memory => 4
  | modify _ (.accumulator _) => 2
  | byte _ _ => 2
  | storeByte _ => 2
  | word .ld _ => 3
  | word _ _ => 4
  | storeWord _ => 3
  | lea _ => 2
  | branch _ => 3
  | bsr => 7
  | jmp => 1
  | jsr => 5
  | rts => 5
  | rti => 6
  | push _ => 5
  | pull _ => 5
  | tfr => 6
  | exg => 8
  | orcc => 3
  | andcc => 3
  | cwai => 20
  | sync => 2
  | swi _ => 19
  | nop => 2
  | daa => 2
  | sex => 2
  | abx => 3
  | mul => 11

/-- Cycles for the prefix byte; a long branch pays for it only when taken. -/
def prefixCycles : Operation → Nat
  | branch _ => 0
  | _ => 1

def mnemonic (mode : AddressingMode) : Operation → String
  | modify op target => op.name ++ target.suffix
  | byte op acc => op.name ++ acc.name
  | storeByte acc => "ST" ++ acc.name
  | word op reg => op.name ++ reg.name
  | storeWord reg => "ST" ++ reg.name
  | lea reg => "LEA" ++ reg.name
  | branch condition => (if mode.isLong then "LB" else "B") ++ condition.suffix
  | bsr => if mode.isLong then "LBSR" else "BSR"
  | jmp => "JMP"
  | jsr => "JSR"
  | rts => "RTS"
  | rti => "RTI"
  | push stack => "PSH" ++ stack.name
  | pull stack => "PUL" ++ stack.name
  | tfr => "TFR"
  | exg => "EXG"
  | orcc => "ORCC"
  | andcc => "ANDCC"
  | cwai => "CWAI"
  | sync => "SYNC"
  | swi kind => kind.mnemonic
  | nop => "NOP"
  | daa => "DAA"
  | sex => "SEX"
  | abx => "ABX"
  | mul => "MUL"

end Operation

end M6809
