import M6809.Processor
import M6809.Proofs.CarryOut

namespace M6809

theorem Latches.pending?_congr {cc cc' : ConditionCodes} (hfirq : cc'.firqMask = cc.firqMask)
    (hirq : cc'.irqMask = cc.irqMask) (latches : Latches) :
    latches.pending? cc' = latches.pending? cc := by
  have henabled : ∀ kind : Interrupt, kind.isEnabled cc' = kind.isEnabled cc := by
    intro kind
    cases kind with
    | nmi => rfl
    | firq => exact congrArg (!·) hfirq
    | irq => exact congrArg (!·) hirq
  unfold pending?
  simp only [henabled]

theorem Latches.any_of_pending? {latches : Latches} {cc : ConditionCodes} {kind : Interrupt}
    (h : latches.pending? cc = some kind) : latches.any = true := by
  have hkind := List.find?_some h
  simp only [Bool.and_eq_true] at hkind
  exact latches.any_eq_true_iff.mpr ⟨kind, hkind.1⟩

namespace Processor

/-- A step has nothing to do, unless an interrupt is pending. -/
def Idles (p : Processor) : Prop := p.state = .wait ∨ p.state = .sync ∧ p.latches.any = false

instance (p : Processor) : Decidable p.Idles :=
  inferInstanceAs (Decidable (p.state = .wait ∨ p.state = .sync ∧ p.latches.any = false))

/-- The processor as a step works on it, out of SYNC. -/
def awake (p : Processor) : Processor :=
  if p.state = .sync then { p with state := .running } else p

theorem awake_eq (p : Processor) : p.awake = { p with state := p.awake.state } := by
  unfold awake
  split <;> rfl

theorem regs_awake (p : Processor) : p.awake.regs = p.regs := by
  rw [awake_eq]

/-- Says that SYNC is over, where it is. -/
def reportAwake (p : Processor) : BusM Unit :=
  if p.state = .sync then BusM.report (.syncReleased p.regs.pc) else pure ()

section
variable {p : Processor}

theorem awake_of_not_idles (h : ¬p.Idles) : p.awake = { p with state := .running } := by
  obtain ⟨regs, state, latches, cycles, instructions, history⟩ := p
  cases state with
  | running | sync => rfl
  | wait => exact absurd (.inl rfl) h

theorem running_or_sync_of_not_idles (h : ¬p.Idles) :
    p.state = .running ∨ p.state = .sync ∧ p.latches.any = true := by
  unfold Idles at h
  cases hstate : p.state with
  | running => exact .inl rfl
  | sync => exact .inr ⟨rfl, by simpa [hstate] using h⟩
  | wait => simp [hstate] at h

theorem not_idles_of_running (h : p.state = .running) : ¬p.Idles := by
  simp [Idles, h]

theorem step_of_running (h : p.state = .running) : p.step = p.proceed := by
  unfold step
  rw [if_neg (by simp [h])]

theorem step_of_pending {kind : Interrupt} (h : p.latches.pending? p.regs.cc = some kind) :
    p.step = p.reportAwake >>= fun _ => p.awake.enterInterrupt kind := by
  unfold step reportAwake awake
  split
  · rw [if_pos (Latches.any_of_pending? h)]
    unfold proceed
    simp only [h]
  · simp [proceed, h]

theorem step_of_idles (h : p.latches.pending? p.regs.cc = none) (hidle : p.Idles) :
    p.step = pure ⟨p, .ok 0⟩ := by
  unfold step proceed
  rcases hidle with hwait | ⟨hsync, hany⟩
  · simp [h, hwait]
  · simp [hsync, hany]

theorem step_of_not_idles (h : p.latches.pending? p.regs.cc = none) (hidle : ¬p.Idles) :
    p.step = p.reportAwake >>= fun _ => p.awake.executeInstruction := by
  unfold step reportAwake awake proceed
  rcases running_or_sync_of_not_idles hidle with hrun | ⟨hsync, hany⟩
  · simp [hrun, h]
  · simp [hsync, hany, h]

end

/-- The end of a step that executes, by what came of the instruction. -/
def conclude (p : Processor) : Except Fault Execution → BusM Step
  | .error fault => do
    BusM.report (.fault fault)
    pure ⟨p, .error fault⟩
  | .ok done => do
    BusM.report (.executed p.regs.pc done.opcode.mnemonic done.cycles)
    pure ⟨p.retire done, .ok done.cycles⟩

theorem executeInstruction_eq_conclude (p : Processor) :
    p.executeInstruction = (Except.mapError Trap.fault <$> p.regs.execute) >>= p.conclude := by
  unfold executeInstruction
  rw [bind_map_left]
  apply BusM.bind_congr_of_ensures
  refine p.regs.ensures_execute_trap.imp ?_
  rintro - (trap | done) htrap
  · simp only [htrap trap rfl, mapError_error, conclude]
  · rfl

theorem executeInstruction_eq (p : Processor) :
    p.executeInstruction = Listing.read p.regs.pc >>= fun x => match x with
      | .error fault => p.conclude (.error fault)
      | .ok l => l.carryOut p.regs >>= fun done => p.conclude (.ok done) := by
  rw [executeInstruction_eq_conclude, Registers.execute_eq, bind_assoc]
  congr 1
  funext x
  cases x with
  | error fault => rfl
  | ok l => exact bind_map_left ..

section
variable {β : Type} [Bus β] {p : Processor} {bus : β}

theorem executeInstruction_of_error {f : Fault}
    (h : ((Listing.read p.regs.pc).run bus).result = .error f) :
    let listed := (Listing.read p.regs.pc).run bus
    let executed := p.executeInstruction.run bus
    executed.result = ⟨p, .error f⟩ ∧ executed.bus = listed.bus ∧
      executed.accesses = listed.accesses := by
  dsimp only
  rw [executeInstruction_eq, BusM.result_bind, BusM.bus_bind, BusM.accesses_bind, h]
  exact ⟨rfl, rfl, List.append_nil _⟩

theorem executeInstruction_of_ok {l : Listing}
    (h : ((Listing.read p.regs.pc).run bus).result = .ok l) :
    let listed := (Listing.read p.regs.pc).run bus
    let carried := (l.carryOut p.regs).run listed.bus
    let executed := p.executeInstruction.run bus
    executed.result = ⟨p.retire carried.result, .ok carried.result.cycles⟩ ∧
      executed.bus = carried.bus ∧ executed.accesses = listed.accesses ++ carried.accesses := by
  dsimp only
  rw [executeInstruction_eq, BusM.result_bind, BusM.bus_bind, BusM.accesses_bind, h]
  dsimp only
  rw [BusM.result_bind, BusM.bus_bind, BusM.accesses_bind]
  exact ⟨rfl, rfl, congrArg _ (List.append_nil _)⟩

theorem executeInstruction_eq_error_iff {f : Fault} :
    (p.executeInstruction.run bus).result.cycles = .error f ↔
      ((Listing.read p.regs.pc).run bus).result = .error f := by
  cases h : ((Listing.read p.regs.pc).run bus).result with
  | error f' =>
      rw [(executeInstruction_of_error h).1]
      simp
  | ok l =>
      rw [(executeInstruction_of_ok h).1]
      simp

theorem run_reportAwake :
    (p.reportAwake.run bus).bus = bus ∧ (p.reportAwake.run bus).accesses = [] := by
  unfold reportAwake
  split <;> exact ⟨rfl, rfl⟩

theorem run_step_of_not_idles (h : p.latches.pending? p.regs.cc = none) (hidle : ¬p.Idles) :
    let stepped := p.step.run bus
    let executed := p.awake.executeInstruction.run bus
    stepped.result = executed.result ∧ stepped.bus = executed.bus ∧
      stepped.accesses = executed.accesses := by
  dsimp only
  rw [step_of_not_idles h hidle, BusM.result_bind, BusM.bus_bind, BusM.accesses_bind,
    run_reportAwake.1, run_reportAwake.2]
  exact ⟨rfl, rfl, rfl⟩

end

end Processor

structure Machine (β : Type) where
  processor : Processor
  bus : β

/-- What is done with a machine. -/
inductive Command (β : Type) where
  | step
  | assertLine (kind : Interrupt)
  | releaseFirq
  | releaseIrq
  | reset
  /-- Registers and the bus may be changed at will between steps. -/
  | setRegisters (regs : Registers)
  | setBus (bus : β)

namespace Machine

variable {β : Type} [Bus β]

/-- A new processor on a bus. -/
def initial (bus : β) : Machine β := ⟨Processor.initial, bus⟩

def stepOutcome (m : Machine β) : Outcome β Step := m.processor.step.run m.bus

def step (m : Machine β) : Machine β := ⟨m.stepOutcome.result.processor, m.stepOutcome.bus⟩

def reset (m : Machine β) : Machine β :=
  ⟨(m.processor.reset.run m.bus).result, (m.processor.reset.run m.bus).bus⟩

def obey (m : Machine β) : Command β → Machine β
  | .step => m.step
  | .assertLine kind => { m with processor := m.processor.assertLine kind }
  | .releaseFirq => { m with processor := m.processor.releaseFirq }
  | .releaseIrq => { m with processor := m.processor.releaseIrq }
  | .reset => m.reset
  | .setRegisters regs => { m with processor := { m.processor with regs } }
  | .setBus bus => { m with bus }

def run (m : Machine β) (commands : List (Command β)) : Machine β := commands.foldl obey m

theorem run_concat (m : Machine β) (commands : List (Command β)) (command : Command β) :
    m.run (commands ++ [command]) = (m.run commands).obey command := by
  simp [run]

theorem stepOutcome_of_idles {m : Machine β}
    (h : m.processor.latches.pending? m.processor.regs.cc = none)
    (hidle : m.processor.Idles) : m.stepOutcome = ⟨⟨m.processor, .ok 0⟩, m.bus, []⟩ := by
  unfold stepOutcome
  rw [Processor.step_of_idles h hidle]
  rfl

/-- What a step that executes leaves, and what it takes. -/
structure Does (m : Machine β) (spent : Nat) (regs : Registers) (bus : β) : Prop where
  cycles : m.stepOutcome.result.cycles = .ok spent
  total : m.step.processor.cycles = m.processor.cycles + spent
  regs : m.step.processor.regs = regs
  bus : m.step.bus = bus
  state : m.step.processor.state = .running
  latches : m.step.processor.latches = m.processor.latches

theorem does_of_retire {m : Machine β} {bus : β} {done : Execution}
    (hresult : m.stepOutcome.result = ⟨m.processor.retire done, .ok done.cycles⟩)
    (hbus : m.step.bus = bus) (hstate : done.state = .running) :
    m.Does done.cycles done.regs bus where
  cycles := congrArg Step.cycles hresult
  total := congrArg (·.processor.cycles) hresult
  regs := congrArg (·.processor.regs) hresult
  bus := hbus
  state := (congrArg (·.processor.state) hresult).trans hstate
  latches := congrArg (·.processor.latches) hresult

/-- The instruction that the next step executes, as it is listed at PC. -/
def executing? (m : Machine β) : Option Listing :=
  if (m.processor.latches.pending? m.processor.regs.cc).isSome ∨ m.processor.Idles then none
  else ((Listing.read m.processor.regs.pc).run m.bus).result.toOption

section
variable {m : Machine β}

theorem executing?_eq_some_iff {l : Listing} :
    m.executing? = some l ↔ m.processor.latches.pending? m.processor.regs.cc = none ∧
      ¬m.processor.Idles ∧ ((Listing.read m.processor.regs.pc).run m.bus).result = .ok l := by
  unfold executing?
  cases m.processor.latches.pending? m.processor.regs.cc with
  | some kind => simp
  | none =>
      by_cases hidle : m.processor.Idles
      · simp [hidle]
      · cases ((Listing.read m.processor.regs.pc).run m.bus).result <;>
          simp [hidle, Except.toOption]

/-- A step that executes carries out the instruction that is listed at PC. -/
theorem stepOutcome_of_executing? {l : Listing} (h : m.executing? = some l) :
    let listed := (Listing.read m.processor.regs.pc).run m.bus
    let carried := (l.carryOut m.processor.regs).run listed.bus
    l.WellFormed ∧ m.stepOutcome.result =
      ⟨m.processor.retire carried.result, .ok carried.result.cycles⟩ := by
  obtain ⟨hpending, hidle, hlisted⟩ := executing?_eq_some_iff.mp h
  obtain ⟨-, hwell, -⟩ := Listing.run_read_of_ok hlisted
  have hretire : ∀ done, m.processor.awake.retire done = m.processor.retire done := by
    intro done
    rw [m.processor.awake_eq]
    rfl
  have hexecuted : m.stepOutcome.result = _ :=
    (Processor.run_step_of_not_idles hpending hidle).1
  rw [← m.processor.regs_awake] at hlisted
  rw [hexecuted, (Processor.executeInstruction_of_ok hlisted).1, hretire, m.processor.regs_awake]
  exact ⟨hwell, rfl⟩

theorem bus_step_of_executing? {l : Listing} (h : m.executing? = some l) :
    m.step.bus = ((l.carryOut m.processor.regs).run
      ((Listing.read m.processor.regs.pc).run m.bus).bus).bus := by
  obtain ⟨hpending, hidle, hlisted⟩ := executing?_eq_some_iff.mp h
  have hexecuted : m.step.bus = _ := (Processor.run_step_of_not_idles hpending hidle).2.1
  rw [← m.processor.regs_awake] at hlisted ⊢
  exact hexecuted.trans (Processor.executeInstruction_of_ok hlisted).2.1

theorem accesses_stepOutcome_of_executing? {l : Listing} (h : m.executing? = some l) :
    let listed := (Listing.read m.processor.regs.pc).run m.bus
    m.stepOutcome.accesses =
      listed.accesses ++ ((l.carryOut m.processor.regs).run listed.bus).accesses := by
  obtain ⟨hpending, hidle, hlisted⟩ := executing?_eq_some_iff.mp h
  have hexecuted : m.stepOutcome.accesses = _ :=
    (Processor.run_step_of_not_idles hpending hidle).2.2
  rw [← m.processor.regs_awake] at hlisted ⊢
  exact hexecuted.trans (Processor.executeInstruction_of_ok hlisted).2.2

theorem regs_step_of_executing?_eq_none
    (hpending : m.processor.latches.pending? m.processor.regs.cc = none)
    (h : m.executing? = none) : m.step.processor.regs = m.processor.regs := by
  unfold step stepOutcome
  by_cases hidle : m.processor.Idles
  · rw [Processor.step_of_idles hpending hidle]
    rfl
  · rw [(Processor.run_step_of_not_idles hpending hidle).1]
    cases hlisted : ((Listing.read m.processor.regs.pc).run m.bus).result with
    | ok l =>
        rw [executing?_eq_some_iff.mpr ⟨hpending, hidle, hlisted⟩] at h
        cases h
    | error f =>
        rw [← m.processor.regs_awake] at hlisted
        rw [(Processor.executeInstruction_of_error hlisted).1, m.processor.regs_awake]

end

end Machine

end M6809
