import M6809.Bus
import M6809.Fault
import M6809.Interrupt

namespace M6809

inductive Level where
  | trace
  | debug
  | warn
deriving DecidableEq, Repr

namespace Level

def name : Level → String
  | trace => "TRACE"
  | debug => "DEBUG"
  | warn => "WARN"

end Level

inductive Message where
  | bus (notice : Notice)
  | executed (address : Word) (mnemonic : String) (cycles : Nat)
  | fault (f : Fault)
  | interruptEntered (kind : Interrupt) (handler stackPointer : Word)
  | softwareInterruptEntered (kind : SoftwareInterrupt) (handler : Word)
  | returned (entire : Bool) (address : Word)
  | waiting (stackPointer : Word)
  | syncing
  | syncReleased (address : Word)
  | reset (address : Word)
deriving DecidableEq, Repr

namespace Message

def level : Message → Level
  | bus _ | executed _ _ _ => .trace
  | fault _ => .warn
  | _ => .debug

def text : Message → String
  | bus notice => notice.text
  | executed address mnemonic cycles => s!"${Hex.word address} {mnemonic} ({cycles} cycles)"
  | .fault f => f.message
  | interruptEntered kind handler stackPointer =>
    s!"{kind.name} -> ${Hex.word handler} (S=${Hex.word stackPointer})"
  | softwareInterruptEntered kind handler => s!"{kind.name} -> ${Hex.word handler}"
  | returned true address => s!"RTI (entire) -> ${Hex.word address}"
  | returned false address => s!"RTI (fast) -> ${Hex.word address}"
  | waiting stackPointer => s!"CWAI: waiting with S=${Hex.word stackPointer}"
  | syncing => "SYNC: waiting for an interrupt line"
  | syncReleased address => s!"SYNC released at ${Hex.word address}"
  | reset address => s!"reset -> ${Hex.word address}"

/-- The message behind its level, as a log shows it. -/
def line (m : Message) : String := s!"{m.level.name}: {m.text}"

end Message

end M6809
