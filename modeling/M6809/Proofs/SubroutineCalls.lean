import M6809.Proofs.AddressingColumns
import M6809.Proofs.InterruptNesting

namespace M6809

namespace Operation

end Operation

namespace Registers

end Registers

namespace Opcode

def rts : Opcode := ⟨.zero, 0x39, .rts, .inherent⟩

end Opcode

namespace Machine

variable {m m' : Machine Memory} {l : Listing}

/-- The machine with the operand of an instruction found, and nothing else done yet. -/
def located (m : Machine Memory) (l : Listing) : Machine Memory :=
  { m with processor := { m.processor with regs := l.operandRegisters m.processor.regs } }

/-- A call stacks the address behind it, and goes where its operand was before that. -/
def Calls (m : Machine Memory) (l : Listing) : Prop :=
  let located := l.operandRegisters m.processor.regs
  ∃ cycles, m.Does cycles
    { located with s := located.s - 2, pc := l.operandAddress m.processor.regs m.bus }
    (m.bus.load (located.s - 2) l.nextAddress.bytes)

/-- A return goes to the word that S is at, and takes it off the stack. -/
def Returns (m : Machine Memory) (next : Word) : Prop :=
  m.Does 5 { m.processor.regs with s := m.processor.regs.s + 2, pc := next } m.bus

theorem AtBytes.returns (h : m.AtBytes [0x39]) {next : Word}
    (hstacked : m.bus.bytesFrom m.processor.regs.s 2 = next.bytes) : m.Returns next := by
  let behind : Registers := { m.processor.regs with pc := m.processor.regs.pc + 1 }
  have hpulled : (behind.pullWord .s).Yields m.bus
      (next, behind.setStackPointer .s (behind.s + 2)) :=
    Registers.yields_pullWord hstacked
  have hyields : (Opcode.rts.operation.perform Opcode.rts.page behind.pc behind).Yields m.bus
      (.ofRegisters { m.processor.regs with s := m.processor.regs.s + 2, pc := next }) :=
    hpulled.bind (BusM.yields_pure m.bus _)
  exact AtBytes.does (o := Opcode.rts) rfl h rfl rfl hyields rfl

theorem Calls.bytesFrom_s (h : m.Calls l) :
    m.step.bus.bytesFrom m.step.processor.regs.s 2 = l.nextAddress.bytes := by
  have hfew : l.nextAddress.bytes.length ≤ 65536 := by simp [Word.bytes]
  obtain ⟨cycles, hdoes⟩ := h
  rw [hdoes.bus, hdoes.regs]
  exact Memory.bytesFrom_load m.bus _ hfew

theorem Calls.bytesFrom_above (h : m.Calls l) {live : Nat} (hroom : 2 + live ≤ 65536) :
    let s := (m.located l).processor.regs.s
    m.step.bus.bytesFrom s live = m.bus.bytesFrom s live := by
  intro s
  have hs : s - 2 + BitVec.ofNat 16 l.nextAddress.bytes.length = s := BitVec.sub_add_cancel s 2
  have hfew : l.nextAddress.bytes.length + live ≤ 65536 := hroom
  have habove := m.bus.bytesFrom_load_above (s - 2) hfew
  rw [hs] at habove
  obtain ⟨cycles, hdoes⟩ := h
  rw [hdoes.bus]
  exact habove

/-- The return addresses of open calls are on the stack, the innermost at S. -/
structure HoldsReturns (s : Word) (returns : List Word) (m : Machine Memory) : Prop where
  s : m.processor.regs.s + BitVec.ofNat 16 (2 * returns.length) = s
  bytes : m.bus.bytesFrom m.processor.regs.s (2 * returns.length) = returns.flatMap Word.bytes

section
variable {s : Word} {pending : List Word}

theorem HoldsReturns.work (h : HoldsReturns s pending m)
    (hkept : m.KeepsStack (2 * pending.length) m') : HoldsReturns s pending m' where
  s := by rw [hkept.s, h.s]
  bytes := by rw [hkept.s, hkept.bytes, h.bytes]

theorem HoldsReturns.call (h : HoldsReturns s pending (m.located l)) (hcalls : m.Calls l)
    (hroom : pending.length < 32768) :
    HoldsReturns s (l.nextAddress :: pending) m.step := by
  have hs : m.step.processor.regs.s + 2 = (m.located l).processor.regs.s := by
    obtain ⟨cycles, hdoes⟩ := hcalls
    rw [hdoes.regs]
    exact BitVec.sub_add_cancel _ _
  have hlength : 2 * (l.nextAddress :: pending).length = 2 + 2 * pending.length := by
    rw [List.length_cons]
    omega
  constructor
  · rw [hlength, BitVec.ofNat_add, ← BitVec.add_assoc]
    exact (congrArg (· + _) hs).trans h.s
  · rw [hlength, Memory.bytesFrom_add, hcalls.bytesFrom_s, List.flatMap_cons]
    refine congrArg _ ?_
    rw [show m.step.processor.regs.s + BitVec.ofNat 16 2 = _ from hs,
      hcalls.bytesFrom_above (by omega)]
    exact h.bytes

theorem HoldsReturns.returns {next : Word} (h : HoldsReturns s (next :: pending) m)
    (hrts : m.AtBytes [0x39]) : m.Returns next ∧ HoldsReturns s pending m.step := by
  have hlength : 2 * (next :: pending).length = 2 + 2 * pending.length := by
    rw [List.length_cons]
    omega
  have hbytes := h.bytes
  rw [hlength, Memory.bytesFrom_add, List.flatMap_cons] at hbytes
  obtain ⟨hfirst, hrest⟩ := List.append_inj hbytes (Memory.length_bytesFrom _ _ _)
  have hreturns := hrts.returns hfirst
  refine ⟨hreturns, ?_, ?_⟩
  · rw [hreturns.regs, ← h.s, hlength, BitVec.ofNat_add, ← BitVec.add_assoc]
    rfl
  · rw [hreturns.regs, hreturns.bus]
    exact hrest

end

end Machine

end M6809
