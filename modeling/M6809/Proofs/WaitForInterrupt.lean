import M6809.Proofs.InterruptEntry
import M6809.Proofs.InterruptNesting

namespace M6809

namespace Opcode

def andcc : Opcode := ⟨.zero, 0x1C, .andcc, .immediate⟩

def cwai : Opcode := ⟨.zero, 0x3C, .cwai, .immediate⟩

end Opcode

namespace Registers

/-- The registers behind a two-byte instruction that clears flags. -/
def masked (r : Registers) (mask : Byte) : Registers :=
  { r with pc := r.pc + 2, cc := ⟨r.cc.bits &&& mask⟩ }

/-- The registers that CWAI saves. -/
def awaiting (r : Registers) (mask : Byte) : Registers :=
  { r.masked mask with cc := (r.masked mask).cc.set Flag.entire }

end Registers

namespace Command

variable {β : Type}

/-- What a command does to the latches of a processor that stays where it is. -/
def latch (latches : Latches) : Command β → Latches
  | assertLine kind => latches.set kind true
  | releaseFirq => latches.set .firq false
  | releaseIrq => latches.set .irq false
  | reset => Latches.clear
  | step | setRegisters _ | setBus _ => latches

def isLine : Command β → Bool
  | assertLine _ | releaseFirq | releaseIrq => true
  | _ => false

end Command

namespace Machine

section
variable {β : Type} [Bus β] {m : Machine β}

def withLatches (m : Machine β) (latches : Latches) : Machine β :=
  { m with processor := { m.processor with latches } }

theorem obey_of_isLine {command : Command β} (h : command.isLine = true) :
    m.obey command = m.withLatches (command.latch m.processor.latches) := by
  cases command with
  | assertLine kind | releaseFirq | releaseIrq => rfl
  | step | reset | setRegisters regs | setBus bus => cases h

theorem run_of_isLine {lines : List (Command β)}
    (h : ∀ command ∈ lines, command.isLine = true) :
    m.run lines = m.withLatches (lines.foldl Command.latch m.processor.latches) := by
  induction lines using List.reverseRecOn with
  | nil => rfl
  | append_singleton lines command ih =>
      rw [run_concat, ih fun command hmem => h command (by simp [hmem]),
        obey_of_isLine (h command (by simp)), List.foldl_append]
      rfl

end

section
variable {m : Machine Memory} {mask : Byte} {kind : Interrupt}

/-- The machine once CWAI has stacked its frame. -/
def waiting (m : Machine Memory) (mask : Byte) : Machine Memory where
  processor := m.processor.retire
    ⟨.cwai, { m.processor.regs.awaiting mask with s := m.processor.regs.s - 12 }, .wait, 20⟩
  bus := m.bus.load (m.processor.regs.s - 12) (m.processor.regs.masked mask).entireBytes

/-- The machine once an interrupt has ended the wait. -/
def woken (m : Machine Memory) (kind : Interrupt) : Machine Memory where
  processor := { m.processor with
    regs := { m.processor.regs with
      pc := m.bus.readWord kind.vector
      cc := m.processor.regs.cc.set kind.masks }
    state := .running
    latches := m.processor.latches.set kind false }
  bus := m.bus

section
variable {lines : List (Command Memory)} (hlines : ∀ command ∈ lines, command.isLine = true)
  (hkind : (lines.foldl Command.latch m.processor.latches).pending?
    (m.processor.regs.awaiting mask).cc = some kind)
include hlines hkind

end

end

end Machine

end M6809
