import M6809.Proofs.ListingInMemory
import M6809.Proofs.Machine

namespace M6809

namespace Listing

section
variable {m : Memory} {address : Word} {o : Opcode} (ho : Opcode.ofCode? o.page o.code = some o)
include ho

theorem yields_read_inherent (hmode : o.mode = .inherent)
    (h : m.bytesFrom address o.codeBytes.length = o.codeBytes) :
    (read address).Yields m (.ok ⟨address, o.codeBytes, o, .implied⟩) := by
  let l : Listing := ⟨address, o.codeBytes, o, .implied⟩
  have hwell : l.WellFormed := ⟨ho, [], (List.append_nil _).symm, .implied hmode⟩
  exact hwell.yields_read h

end

theorem carryOut_implied {l : Listing} (h : l.operand = .implied) (r : Registers) :
    l.carryOut r =
      l.opcode.operation.perform l.opcode.page l.nextAddress { r with pc := l.nextAddress } >>=
        fun effect => pure ⟨l.opcode, effect.regs, effect.state,
          l.opcode.cycles + effect.extraCycles⟩ := by
  unfold carryOut Registers.carryOut
  rw [h]
  exact congrArg (· >>= _) (BusM.supply_nil _)

end Listing

namespace Machine

section
variable {m : Machine Memory} {work : BusM Effect} (hrun : m.processor.state = .running)
  (hpending : m.processor.latches.pending? m.processor.regs.cc = none)
include hrun hpending

theorem step_of_yields_read {l : Listing}
    (hread : (Listing.read m.processor.regs.pc).Yields m.bus (.ok l)) :
    let carried := (l.carryOut m.processor.regs).run m.bus
    m.stepOutcome.result = ⟨m.processor.retire carried.result, .ok carried.result.cycles⟩ ∧
      m.step.bus = carried.bus := by
  have hexecuting : m.executing? = some l :=
    executing?_eq_some_iff.mpr ⟨hpending, Processor.not_idles_of_running hrun, hread.result⟩
  have hresult := (stepOutcome_of_executing? hexecuting).2
  have hbus := bus_step_of_executing? hexecuting
  rw [hread.bus] at hresult hbus
  exact ⟨hresult, hbus⟩

theorem step_listed {l : Listing}
    (hread : (Listing.read m.processor.regs.pc).Yields m.bus (.ok l))
    (hcarry : l.carryOut m.processor.regs = work >>= fun effect =>
      pure ⟨l.opcode, effect.regs, effect.state, l.opcode.cycles + effect.extraCycles⟩) :
    let done : Execution := ⟨l.opcode, (work.run m.bus).result.regs,
      (work.run m.bus).result.state, l.opcode.cycles + (work.run m.bus).result.extraCycles⟩
    m.stepOutcome.result = ⟨m.processor.retire done, .ok done.cycles⟩ ∧
      m.step.bus = (work.run m.bus).bus := by
  obtain ⟨hresult, hbus⟩ := step_of_yields_read hrun hpending hread
  rw [hcarry, BusM.result_bind] at hresult
  rw [hcarry, BusM.bus_bind] at hbus
  exact ⟨hresult, hbus⟩

theorem does_of_yields_read {l : Listing} {done : Execution} {bus : Memory}
    (hread : (Listing.read m.processor.regs.pc).Yields m.bus (.ok l))
    (hcarried : ((l.carryOut m.processor.regs).run m.bus).result = done ∧
      ((l.carryOut m.processor.regs).run m.bus).bus = bus)
    (hdone : done.state = .running) : m.Does done.cycles done.regs bus := by
  obtain ⟨hresult, hbus⟩ := step_of_yields_read hrun hpending hread
  rw [hcarried.1] at hresult
  exact does_of_retire hresult (hbus.trans hcarried.2) hdone

end

/-- The next step executes what the bytes at PC say. -/
structure AtBytes (m : Machine Memory) (bytes : List Byte) : Prop where
  running : m.processor.state = .running
  pending : m.processor.latches.pending? m.processor.regs.cc = none
  bytes : m.bus.bytesFrom m.processor.regs.pc bytes.length = bytes

instance (m : Machine Memory) (bytes : List Byte) : Decidable (m.AtBytes bytes) :=
  decidable_of_iff (m.processor.state = .running ∧
      m.processor.latches.pending? m.processor.regs.cc = none ∧
      m.bus.bytesFrom m.processor.regs.pc bytes.length = bytes)
    ⟨fun ⟨running, pending, bytes⟩ => ⟨running, pending, bytes⟩,
      fun h => ⟨h.running, h.pending, h.bytes⟩⟩

namespace AtBytes

variable {m : Machine Memory} {work : BusM Effect} {o : Opcode} {next : Word}
  (ho : Opcode.ofCode? o.page o.code = some o)
include ho

theorem step_inherent (h : m.AtBytes o.codeBytes) (hmode : o.mode = .inherent)
    (hnext : m.processor.regs.pc + BitVec.ofNat 16 o.codeBytes.length = next)
    (hwork : o.operation.perform o.page next { m.processor.regs with pc := next } = work) :
    let done : Execution := ⟨o, (work.run m.bus).result.regs, (work.run m.bus).result.state,
      o.cycles + (work.run m.bus).result.extraCycles⟩
    m.stepOutcome.result = ⟨m.processor.retire done, .ok done.cycles⟩ ∧
      m.step.bus = (work.run m.bus).bus := by
  refine step_listed h.running h.pending (Listing.yields_read_inherent ho hmode h.bytes) ?_
  rw [← hwork, ← hnext]
  exact Listing.carryOut_implied rfl _

theorem does {effect : Effect} (h : m.AtBytes o.codeBytes) (hmode : o.mode = .inherent)
    (hnext : m.processor.regs.pc + BitVec.ofNat 16 o.codeBytes.length = next)
    (hyields : (o.operation.perform o.page next { m.processor.regs with pc := next }).Yields m.bus
      effect)
    (hstate : effect.state = .running) :
    m.Does (o.cycles + effect.extraCycles) effect.regs m.bus := by
  obtain ⟨hresult, hbus⟩ := h.step_inherent ho hmode hnext rfl
  rw [hyields.result] at hresult
  rw [hyields.bus] at hbus
  exact does_of_retire hresult hbus hstate

end AtBytes

end Machine

end M6809
