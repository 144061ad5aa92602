import M6809.Execution
import M6809.History

/-!
The processor. A step enters a pending interrupt, stays halted, or executes one instruction. The
totals, the latches and the history are kept here, out of the reach of instructions.
-/
namespace M6809

structure Retired where
  address : Word
  opcode : Opcode
  cycles : Nat
  regs : Registers
deriving DecidableEq, Repr

namespace Retired

def text (e : Retired) : String :=
  let r := e.regs
  let mnemonic := e.opcode.mnemonicColumn 5
  s!"{Hex.word e.address}  {mnemonic} A={Hex.byte r.a} B={Hex.byte r.b} X={Hex.word r.x} " ++
    s!"Y={Hex.word r.y} U={Hex.word r.u} S={Hex.word r.s} DP={Hex.byte r.dp} " ++
    s!"CC={Hex.byte r.cc.bits} ({e.cycles})"

end Retired

structure Processor where
  regs : Registers
  state : RunState
  latches : Latches
  cycles : Nat
  /-- Instructions completed; an interrupt entry is none. -/
  instructions : Nat
  /-- The last instructions, while they are being recorded. -/
  history : Option (History Retired)
deriving DecidableEq, Repr

/-- The processor after a step, and the cycles of the step or its fault. -/
structure Step where
  processor : Processor
  cycles : Except Fault Nat

namespace Registers

/-- Stacks what an interrupt saves, with E telling how much that is. -/
def pushFrame (r : Registers) (kind : Interrupt) : BusM Registers :=
  if kind.stacksEntire then r.pushEntire
  else { r with cc := r.cc.clear Flag.entire }.push .s fastFrame

end Registers

namespace Processor

def initial : Processor := ⟨Registers.initial, .running, Latches.clear, 0, 0, none⟩

def isHalted (p : Processor) : Bool := p.state != .running

/-- Asks for an interrupt, which stays latched until it is entered. -/
def assertLine (p : Processor) (kind : Interrupt) : Processor :=
  { p with latches := p.latches.set kind true }

def releaseFirq (p : Processor) : Processor := { p with latches := p.latches.set .firq false }

def releaseIrq (p : Processor) : Processor := { p with latches := p.latches.set .irq false }

def recordHistory (p : Processor) (capacity : Nat) : Processor :=
  { p with history := some (History.ofCapacity capacity) }

def dropHistory (p : Processor) : Processor := { p with history := none }

/-- The recorded instructions, oldest first. -/
def recorded (p : Processor) : List Retired := (p.history.map (·.toList)).getD []

/-- Stacks the frame of an interrupt. After CWAI it is already stacked. -/
def stackFrame (p : Processor) (kind : Interrupt) : BusM Registers :=
  if p.state = .wait then pure p.regs else p.regs.pushFrame kind

/-- The cycles of an interrupt entry, which CWAI has paid for. -/
def entryCycles (p : Processor) (kind : Interrupt) : Nat :=
  if p.state = .wait then 0 else kind.cycles

def enterInterrupt (p : Processor) (kind : Interrupt) : BusM Step := do
  let r ← p.stackFrame kind
  let r ← { r with cc := r.cc.set kind.masks }.enterHandler kind.vector
  BusM.report (.interruptEntered kind r.pc r.s)
  let spent := p.entryCycles kind
  let entered := { p with
    regs := r
    state := .running
    latches := p.latches.set kind false
    cycles := p.cycles + spent }
  pure ⟨entered, .ok spent⟩

def retire (p : Processor) (done : Execution) : Processor :=
  let entry : Retired := ⟨p.regs.pc, done.opcode, done.cycles, done.regs⟩
  { p with
    regs := done.regs
    state := done.state
    cycles := p.cycles + done.cycles
    instructions := p.instructions + 1
    history := p.history.map (·.record entry) }

/-- Executes the instruction at PC. A fault takes PC back to the first byte. -/
def executeInstruction (p : Processor) : BusM Step := do
  match ← p.regs.execute with
  | .error trap => do
    BusM.report (.fault trap.fault)
    pure ⟨{ p with regs := { trap.regs with pc := p.regs.pc } }, .error trap.fault⟩
  | .ok done => do
    BusM.report (.executed p.regs.pc done.opcode.mnemonic done.cycles)
    pure ⟨p.retire done, .ok done.cycles⟩

/-- A step outside SYNC. -/
def proceed (p : Processor) : BusM Step :=
  match p.latches.pending? p.regs.cc with
  | some kind => p.enterInterrupt kind
  | none => if p.state = .wait then pure ⟨p, .ok 0⟩ else p.executeInstruction

/-- Any latch ends SYNC; when all that are set are masked, execution just goes on. -/
def step (p : Processor) : BusM Step :=
  if p.state = .sync then
    if p.latches.any then do
      BusM.report (.syncReleased p.regs.pc)
      { p with state := .running }.proceed
    else pure ⟨p, .ok 0⟩
  else p.proceed

/-- Hardware reset: DP is cleared, the interrupts are masked, and PC comes from the vector. -/
def reset (p : Processor) : BusM Processor := do
  let r ← { p.regs with dp := 0, cc := Registers.initial.cc }.enterHandler resetVector
  BusM.report (.reset r.pc)
  pure { p with regs := r, state := .running, latches := Latches.clear }

end Processor

end M6809
