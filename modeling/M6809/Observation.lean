import M6809.Processor

namespace M6809

inductive Value where
  | bool (value : Bool)
  | byte (value : Byte)
  | word (value : Word)
  | long (value : BitVec 32)
  | count (value : Nat)
  | text (value : String)
deriving DecidableEq, Repr

namespace Value

/-- Bit patterns are written in hexadecimal, counts in decimal. -/
def render : Value → String
  | bool true => "true"
  | bool false => "false"
  | byte value => s!"${Hex.byte value}"
  | word value => s!"${Hex.word value}"
  | long value => s!"${Hex.long value}"
  | count value => s!"{value}"
  | text value => value

end Value

namespace RunState

def name : RunState → String
  | running => "running"
  | sync => "sync"
  | wait => "wait"

end RunState

namespace Processor

/-- Every path, with the way to its value. -/
def observables : List (String × (Processor → Value)) :=
  [("a", fun p => .byte p.regs.a),
    ("b", fun p => .byte p.regs.b),
    ("d", fun p => .word p.regs.d),
    ("x", fun p => .word p.regs.x),
    ("y", fun p => .word p.regs.y),
    ("u", fun p => .word p.regs.u),
    ("s", fun p => .word p.regs.s),
    ("pc", fun p => .word p.regs.pc),
    ("dp", fun p => .byte p.regs.dp),
    ("cc", fun p => .byte p.regs.cc.bits),
    ("cc.c", fun p => .bool p.regs.cc.carry),
    ("cc.v", fun p => .bool p.regs.cc.overflow),
    ("cc.z", fun p => .bool p.regs.cc.zero),
    ("cc.n", fun p => .bool p.regs.cc.negative),
    ("cc.i", fun p => .bool p.regs.cc.irqMask),
    ("cc.h", fun p => .bool p.regs.cc.halfCarry),
    ("cc.f", fun p => .bool p.regs.cc.firqMask),
    ("cc.e", fun p => .bool p.regs.cc.entire),
    ("state", fun p => .text p.state.name),
    ("nmi", fun p => .bool p.latches.nmi),
    ("firq", fun p => .bool p.latches.firq),
    ("irq", fun p => .bool p.latches.irq),
    ("cycles", fun p => .count p.cycles),
    ("instructions", fun p => .count p.instructions)]

def paths : List String := observables.map (·.1)

/-- The value at a path, if the path names one. -/
def query (p : Processor) (path : String) : Option Value := (observables.lookup path).map (· p)

end Processor

end M6809
