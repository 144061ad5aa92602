import M6809.Proofs.ControlFlow
import M6809.Proofs.Machine
import M6809.Proofs.MemoryBus
import Mathlib.Logic.Function.Iterate

namespace M6809

theorem Latches.pending?_eq_none {latches : Latches} (h : latches.any = false)
    (cc : ConditionCodes) : latches.pending? cc = none := by
  rw [Option.eq_none_iff_forall_ne_some]
  intro kind hkind
  rw [Latches.any_of_pending? hkind] at h
  cases h

theorem Listing.ensures_carryOut_sync {l : Listing} (hop : l.opcode.operation = .sync)
    (r : Registers) : (l.carryOut r).Ensures fun _ done => done.state = .sync := by
  unfold carryOut Registers.carryOut
  rw [BusM.ensures_bind]
  apply BusM.ensures_of_forall
  intro _ operand
  rw [hop, BusM.ensures_bind]
  have hperform : (Operation.sync.perform l.opcode.page operand.address operand.regs).Ensures
      fun _ effect => effect.state = .sync := rfl
  exact BusM.Ensures.supply _ hperform fun _ _ _ _ => id

namespace Processor

/-- The processor as it would be if SYNC had not stopped it. -/
def unhalted (p : Processor) : Processor := { p with state := .running }

theorem step_of_sync {p : Processor} (hsync : p.state = .sync) (hany : p.latches.any = true) :
    p.step = BusM.report (.syncReleased p.regs.pc) >>= fun _ => p.unhalted.step := by
  have hunhalted : p.unhalted.step = p.unhalted.proceed := step_of_running rfl
  rw [hunhalted, step, if_pos hsync, if_pos hany]
  rfl

end Processor

namespace Machine

variable {β : Type} [Bus β] {m : Machine β}

def unhalted (m : Machine β) : Machine β := { m with processor := m.processor.unhalted }

section
variable (hsync : m.processor.state = .sync)
include hsync

theorem stepOutcome_of_sync_unlatched (hany : m.processor.latches.any = false) :
    m.stepOutcome = ⟨⟨m.processor, .ok 0⟩, m.bus, []⟩ :=
  stepOutcome_of_idles (Latches.pending?_eq_none hany _) (.inr ⟨hsync, hany⟩)

theorem step_of_sync_unlatched (hany : m.processor.latches.any = false) : m.step = m := by
  unfold step
  rw [stepOutcome_of_sync_unlatched hsync hany]

theorem run_replicate_step (hany : m.processor.latches.any = false) (n : Nat)
    (rest : List (Command β)) : m.run (List.replicate n .step ++ rest) = m.run rest := by
  induction n with
  | zero => rfl
  | succ n ih =>
      rw [List.replicate_succ, List.cons_append]
      change m.step.run (List.replicate n .step ++ rest) = m.run rest
      rw [step_of_sync_unlatched hsync hany, ih]

theorem stepOutcome_of_sync_latched (hany : m.processor.latches.any = true) :
    m.stepOutcome = { m.unhalted.stepOutcome with
      events := .message (.syncReleased m.processor.regs.pc) ::
        m.unhalted.stepOutcome.events } := by
  unfold stepOutcome
  rw [Processor.step_of_sync hsync hany]
  rfl

end

theorem step_of_executing?_sync {l : Listing} (hexecuting : m.executing? = some l)
    (hop : l.opcode.operation = .sync) :
    m.step.processor.state = .sync ∧ m.step.processor.latches = m.processor.latches := by
  obtain ⟨-, hresult⟩ := stepOutcome_of_executing? hexecuting
  unfold step
  rw [hresult]
  exact ⟨(Listing.ensures_carryOut_sync hop m.processor.regs).run _, rfl⟩

/-- As long as no line is asserted, a processor in SYNC does nothing at all. Once one is, masked
or not, the next step is that of a processor that was not stopped, behind a message. So what
follows a SYNC is the same however many steps the line is waited for. -/
theorem sync_is_pure_wait (m : Machine β) :
    (m.processor.state = .sync → m.processor.latches.any = false →
      m.stepOutcome = ⟨⟨m.processor, .ok 0⟩, m.bus, []⟩ ∧ ∀ n, step^[n] m = m) ∧
    (m.processor.state = .sync → m.processor.latches.any = true →
      m.stepOutcome.result = m.unhalted.stepOutcome.result ∧ m.step = m.unhalted.step ∧
      m.stepOutcome.accesses = m.unhalted.stepOutcome.accesses ∧
      m.stepOutcome.events = .message (.syncReleased m.processor.regs.pc) ::
        m.unhalted.stepOutcome.events) ∧
    ∀ l, m.executing? = some l → l.opcode.operation = .sync →
      m.step.processor.state = .sync ∧ m.step.processor.latches = m.processor.latches ∧
      (m.processor.latches.any = false → ∀ n kind rest,
        m.step.run (List.replicate n .step ++ .assertLine kind :: rest) =
          m.step.run (.assertLine kind :: rest)) := by
  refine ⟨?_, ?_, ?_⟩
  · intro hsync hany
    exact ⟨stepOutcome_of_sync_unlatched hsync hany,
      Function.iterate_fixed (step_of_sync_unlatched hsync hany)⟩
  · intro hsync hany
    unfold step
    rw [stepOutcome_of_sync_latched hsync hany]
    exact ⟨rfl, rfl, rfl, rfl⟩
  · intro l hexecuting hop
    obtain ⟨hsync, hlatches⟩ := step_of_executing?_sync hexecuting hop
    refine ⟨hsync, hlatches, ?_⟩
    intro hany n kind rest
    rw [← hlatches] at hany
    exact run_replicate_step hsync hany n _

/-- A masked IRQ ends a wait of a thousand steps, and the instruction behind SYNC is executed. -/
theorem masked_irq_ends_sync :
    let bus := Memory.zero.load 0x2000 [0x13, 0x12]
    let regs : Registers := { Registers.initial with pc := 0x2000 }
    let m : Machine Memory := ⟨{ Processor.initial with regs }, bus⟩
    let woken := m.step.run (List.replicate 1000 .step ++ [.assertLine .irq])
    (∃ l, m.executing? = some l ∧ l.opcode.operation = .sync) ∧
      m.processor.latches.any = false ∧ m.step.processor.state = .sync ∧
      step^[1000] m.step = m.step ∧
      woken.processor.state = .sync ∧ woken.processor.latches.any = true ∧
      woken.step = woken.unhalted.step ∧ woken.step.processor.regs.pc = 0x2002 := by
  intro bus regs m woken
  have hsync : ∃ l, m.executing? = some l ∧ l.opcode.operation = .sync := by
    rw [← Option.map_eq_some_iff]
    decide +kernel
  obtain ⟨l, hexecuting, hop⟩ := hsync
  obtain ⟨-, -, hwaits⟩ := sync_is_pure_wait m
  obtain ⟨hstate, hlatches, hskips⟩ := hwaits l hexecuting hop
  obtain ⟨hidles, -, -⟩ := sync_is_pure_wait m.step
  have hwoken : woken = m.step.run [.assertLine .irq] := hskips rfl 1000 .irq []
  have hstill : woken.processor.state = .sync := by
    simp only [hwoken, run, List.foldl, obey, Processor.assertLine]
    exact hstate
  have hany : woken.processor.latches.any = true := by
    rw [hwoken]
    decide +kernel
  obtain ⟨-, hwakes, -⟩ := sync_is_pure_wait woken
  have hpc : woken.step.processor.regs.pc = 0x2002 := by
    rw [hwoken]
    decide +kernel
  have hnone : m.step.processor.latches.any = false := by
    rw [hlatches]
    rfl
  exact ⟨⟨l, hexecuting, hop⟩, rfl, hstate, (hidles hstate hnone).2 1000, hstill, hany,
    (hwakes hstill hany).2.1, hpc⟩

end Machine

end M6809
