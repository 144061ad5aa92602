import M6809.Memory
import M6809.Observation
import M6809.Proofs.Lockstep

namespace M6809

/-- The registers after a reset whose vector holds `pc`. -/
def Registers.afterReset (r : Registers) (pc : Word) : Registers :=
  { r with dp := 0, cc := Registers.initial.cc, pc }

namespace Processor

/-- Since two earlier processors the totals have grown by the same amounts. -/
def AdvancedBy (p₀ q₀ p q : Processor) (cycles instructions : Nat) : Prop :=
  p.cycles = p₀.cycles + cycles ∧ q.cycles = q₀.cycles + cycles ∧
    p.instructions = p₀.instructions + instructions ∧
    q.instructions = q₀.instructions + instructions

/-- The same in everything that matters for what they do, after advancing from two earlier
processors by the same amounts. -/
structure Abreast (p₀ q₀ p q : Processor) : Prop where
  regs : p.regs = q.regs
  state : p.state = q.state
  latches : p.latches = q.latches
  advanced : ∃ cycles instructions, AdvancedBy p₀ q₀ p q cycles instructions

variable {p₀ q₀ r₀ p q r : Processor}

theorem advancedBy_zero (p q : Processor) : AdvancedBy p q p q 0 0 := ⟨rfl, rfl, rfl, rfl⟩

theorem AdvancedBy.add {cycles instructions : Nat} (h : AdvancedBy p₀ q₀ p q cycles instructions)
    {p' q' : Processor} {more completed : Nat} (h' : AdvancedBy p q p' q' more completed) :
    AdvancedBy p₀ q₀ p' q' (cycles + more) (instructions + completed) := by
  unfold AdvancedBy at *
  omega

namespace Abreast

theorem symm (h : Abreast p₀ q₀ p q) : Abreast q₀ p₀ q p where
  regs := h.regs.symm
  state := h.state.symm
  latches := h.latches.symm
  advanced := by
    obtain ⟨cycles, instructions, hp, hq, hp', hq'⟩ := h.advanced
    exact ⟨cycles, instructions, hq, hp, hq', hp'⟩

theorem trans (h : Abreast p₀ q₀ p q) (h' : Abreast q₀ r₀ q r) : Abreast p₀ r₀ p r where
  regs := h.regs.trans h'.regs
  state := h.state.trans h'.state
  latches := h.latches.trans h'.latches
  advanced := by
    obtain ⟨cycles, instructions, hgrown⟩ := h.advanced
    obtain ⟨cycles', instructions', hgrown'⟩ := h'.advanced
    refine ⟨cycles, instructions, ?_⟩
    unfold AdvancedBy at *
    omega

theorem move (h : Abreast p₀ q₀ p q) {p' q' : Processor} (hregs : p'.regs = q'.regs)
    (hstate : p'.state = q'.state) (hlatches : p'.latches = q'.latches) {cycles instructions : Nat}
    (hgrown : AdvancedBy p q p' q' cycles instructions) : Abreast p₀ q₀ p' q' := by
  obtain ⟨_, _, hsofar⟩ := h.advanced
  exact ⟨hregs, hstate, hlatches, _, _, hsofar.add hgrown⟩

open BusM in
theorem enterInterrupt (h : Abreast p₀ q₀ p q) (kind : Interrupt) :
    Alike (Step.Agree (Abreast p₀ q₀)) (p.enterInterrupt kind) (q.enterInterrupt kind) := by
  have hframe : p.stackFrame kind = q.stackFrame kind := by
    unfold stackFrame
    rw [h.regs, h.state]
  have hspent : p.entryCycles kind = q.entryCycles kind := by
    unfold entryCycles
    rw [h.state]
  unfold Processor.enterInterrupt
  rw [hframe, hspent]
  refine Alike.bind_same _ fun stacked => Alike.bind_same _ fun entered => ?_
  have hlatches := congrArg (·.set kind false) h.latches
  have hgrown : AdvancedBy p q { p with cycles := p.cycles + q.entryCycles kind }
      { q with cycles := q.cycles + q.entryCycles kind } (q.entryCycles kind) 0 :=
    ⟨rfl, rfl, rfl, rfl⟩
  exact .say (.done ⟨h.move rfl rfl hlatches hgrown, rfl⟩)

open BusM in
theorem executeInstruction (h : Abreast p₀ q₀ p q) :
    Alike (Step.Agree (Abreast p₀ q₀)) p.executeInstruction q.executeInstruction := by
  unfold Processor.executeInstruction
  rw [h.regs]
  refine Alike.bind_same _ ?_
  rintro (trap | done)
  · exact .say (.done ⟨h.move rfl h.state h.latches (advancedBy_zero p q), rfl⟩)
  · exact .say (.done ⟨h.move rfl rfl h.latches ⟨rfl, rfl, rfl, rfl⟩, rfl⟩)

theorem proceed (h : Abreast p₀ q₀ p q) :
    BusM.Alike (Step.Agree (Abreast p₀ q₀)) p.proceed q.proceed := by
  unfold Processor.proceed
  rw [h.regs, h.latches, h.state]
  cases q.latches.pending? q.regs.cc with
  | some kind => exact h.enterInterrupt kind
  | none =>
      dsimp only
      split
      · exact .done ⟨h, rfl⟩
      · exact h.executeInstruction

theorem step (h : Abreast p₀ q₀ p q) :
    BusM.Alike (Step.Agree (Abreast p₀ q₀)) p.step q.step := by
  have hawake : Abreast p₀ q₀ { p with state := .running } { q with state := .running } :=
    h.move h.regs rfl h.latches (advancedBy_zero p q)
  obtain ⟨regs, state, latches, cycles, instructions, history⟩ := p
  obtain ⟨_, _, _, cycles', instructions', history'⟩ := q
  obtain ⟨rfl : regs = _, rfl : state = _, rfl : latches = _, -⟩ := id h
  unfold Processor.step
  dsimp only
  split
  · split
    · exact .say hawake.proceed
    · exact .done ⟨h, rfl⟩
  · exact h.proceed

end Abreast

theorem reset_eq (p : Processor) :
    p.reset = BusM.readWord resetVector >>= fun pc => BusM.report (.reset pc) >>= fun _ =>
      pure { p with regs := p.regs.afterReset pc, state := .running, latches := Latches.clear } :=
  rfl

theorem alike_reset (hregs : ∀ pc, p.regs.afterReset pc = q.regs.afterReset pc)
    (hadvanced : ∃ cycles instructions, AdvancedBy p₀ q₀ p q cycles instructions) :
    BusM.Alike (Abreast p₀ q₀) p.reset q.reset := by
  rw [reset_eq, reset_eq]
  refine BusM.Alike.bind_same _ fun pc => ?_
  exact .say (.done ⟨hregs pc, rfl, rfl, hadvanced⟩)

theorem agree_abreast (p₀ q₀ : Processor) : Processor.Agree (Abreast p₀ q₀) where
  step h := h.step
  reset h := alike_reset (fun pc => congrArg (·.afterReset pc) h.regs) h.advanced
  assertLine {p q} h kind :=
    h.move h.regs h.state (congrArg (·.set kind true) h.latches) (advancedBy_zero p q)
  releaseFirq {p q} h :=
    h.move h.regs h.state (congrArg (·.set .firq false) h.latches) (advancedBy_zero p q)
  releaseIrq {p q} h :=
    h.move h.regs h.state (congrArg (·.set .irq false) h.latches) (advancedBy_zero p q)
  setRegisters {p q} h _ := h.move rfl h.state h.latches (advancedBy_zero p q)

end Processor

/-- What can be done with a processor, or asked of it. -/
inductive Call where
  | command (command : Command Empty)
  | recordHistory (capacity : Nat)
  | dropHistory
  | query (path : String)
  | recorded

namespace Call

/-- The command of a call that does not just observe. -/
def command? : Call → Option (Command Empty)
  | command c => some c
  | _ => none

/-- The processor after a call that observes. -/
def observe (p : Processor) : Call → Processor
  | recordHistory capacity => p.recordHistory capacity
  | dropHistory => p.dropHistory
  | _ => p

end Call

namespace Machine

variable {β : Type} [Bus β]

def make (m : Machine β) : Call → Machine β
  | .command command => m.obey command.onBus
  | call => { m with processor := call.observe m.processor }

def makeAll (m : Machine β) (calls : List Call) : Machine β := calls.foldl make m

section
variable {p₀ q₀ : Processor} {m n : Machine β}

omit [Bus β] in
theorem Lockstep.observe (h : Lockstep (Processor.Abreast p₀ q₀) Eq m n) (call : Call) :
    Lockstep (Processor.Abreast p₀ q₀) Eq { m with processor := call.observe m.processor } n := by
  refine ⟨?_, h.bus⟩
  cases call <;> exact h.processor.move h.processor.regs h.processor.state h.processor.latches
    (Processor.advancedBy_zero m.processor n.processor)

theorem Lockstep.makeAll (h : Lockstep (Processor.Abreast p₀ q₀) Eq m n) (calls : List Call) :
    Lockstep (Processor.Abreast p₀ q₀) Eq (m.makeAll calls)
      (n.run ((calls.filterMap Call.command?).map Command.onBus)) := by
  induction calls generalizing m n with
  | nil => exact h
  | cons call rest ih =>
      cases call with
      | command command =>
          exact ih (h.obey (Processor.agree_abreast p₀ q₀) Bus.agree_eq command).2
      | recordHistory _ | dropHistory | query _ | recorded => exact ih (h.observe _)

theorem Lockstep.makeAll_both (h : Lockstep (Processor.Abreast p₀ q₀) Eq m n)
    {calls calls' : List Call}
    (hcalls : calls.filterMap Call.command? = calls'.filterMap Call.command?) :
    Lockstep (Processor.Abreast p₀ q₀) Eq (m.makeAll calls) (n.makeAll calls') := by
  have hself : Lockstep (Processor.Abreast q₀ q₀) Eq n n :=
    ⟨h.processor.symm.trans h.processor, rfl⟩
  have hleft := h.makeAll calls
  have hright := hself.makeAll calls'
  rw [hcalls] at hleft
  exact ⟨hleft.processor.trans hright.processor.symm, hleft.bus.trans hright.bus.symm⟩

end

/-- A reset leaves nothing of the past but six registers and the totals: two processors that agree
on these registers answer it alike, and from then on, on buses in the same state, they answer the
same commands alike and stay the same, with the totals growing by the same amounts, whatever is
looked at or recorded in between. -/
theorem reset_forgets (p q : Processor) (bus : β) (ha : p.regs.a = q.regs.a)
    (hb : p.regs.b = q.regs.b) (hx : p.regs.x = q.regs.x) (hy : p.regs.y = q.regs.y)
    (hu : p.regs.u = q.regs.u) (hs : p.regs.s = q.regs.s) (calls calls' : List Call)
    (hcalls : calls.filterMap Call.command? = calls'.filterMap Call.command?) :
    let m : Machine β := ⟨p, bus⟩
    let n : Machine β := ⟨q, bus⟩
    let m' := m.reset.makeAll calls
    let n' := n.reset.makeAll calls'
    m.response .reset = n.response .reset ∧
    (∀ next : Command Empty, m'.response next.onBus = n'.response next.onBus) ∧
    m'.processor.regs = n'.processor.regs ∧ m'.processor.state = n'.processor.state ∧
    m'.processor.latches = n'.processor.latches ∧ m'.bus = n'.bus ∧
    ∃ cycles instructions, m'.processor.cycles = p.cycles + cycles ∧
      n'.processor.cycles = q.cycles + cycles ∧
      m'.processor.instructions = p.instructions + instructions ∧
      n'.processor.instructions = q.instructions + instructions := by
  intro m n m' n'
  have hregs : ∀ pc, p.regs.afterReset pc = q.regs.afterReset pc := by
    intro pc
    simp only [Registers.afterReset, ha, hb, hx, hy, hu, hs]
  have hreset := (Processor.alike_reset hregs ⟨0, 0, Processor.advancedBy_zero p q⟩).run
    Bus.agree_eq (rfl : bus = bus)
  have hlockstep : Lockstep (Processor.Abreast p q) Eq m.reset n.reset := ⟨hreset.1, hreset.2.2⟩
  have hrun : Lockstep (Processor.Abreast p q) Eq m' n' := hlockstep.makeAll_both hcalls
  have hevents : m.response .reset = n.response .reset := by
    simp only [response, m, n, hreset.2.1]
  refine ⟨hevents, ?_, hrun.processor.regs, hrun.processor.state, hrun.processor.latches,
    hrun.bus, hrun.processor.advanced⟩
  intro next
  exact (hrun.obey (Processor.agree_abreast p q) Bus.agree_eq next).1

/-- A processor left waiting with a line latched, and a new one, are the same after a reset. -/
theorem waiting_processor_forgets :
    let bus := (Memory.zero.load 0xFFFE [0x30, 0x00]).load 0x3000 [0x3C, 0xEF, 0x12]
    let p : Processor := ⟨{ Registers.initial with pc := 0x1234, dp := 5, cc := ⟨0⟩ }, .wait,
      ⟨true, true, true⟩, 70, 20, none⟩
    let q := Processor.initial
    let calls : List Call := [.recordHistory 1, .command .step, .query "cycles",
      .command (.assertLine .irq), .recorded, .command .step]
    let calls' : List Call := [.command .step, .dropHistory, .command (.assertLine .irq),
      .command .step, .query "pc"]
    let m := (⟨p, bus⟩ : Machine Memory).reset.makeAll calls
    let n := (⟨q, bus⟩ : Machine Memory).reset.makeAll calls'
    calls.filterMap Call.command? = calls'.filterMap Call.command? ∧
      m.processor.regs = n.processor.regs ∧ m.processor.state = n.processor.state ∧
      m.bus = n.bus ∧ m.processor.cycles = 90 ∧ n.processor.cycles = 20 ∧
      m.processor.recorded.length = 1 ∧ n.processor.recorded = [] := by
  intro bus p q calls calls' m n
  have hcalls : calls.filterMap Call.command? = calls'.filterMap Call.command? := rfl
  obtain ⟨-, -, hregs, hstate, -, hbus, -⟩ :=
    reset_forgets p q bus rfl rfl rfl rfl rfl rfl calls calls' hcalls
  exact ⟨hcalls, hregs, hstate, hbus, by decide +kernel, by decide +kernel, by decide +kernel,
    by decide +kernel⟩

end Machine

end M6809
