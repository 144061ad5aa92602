import M6809.Proofs.LineHistory
import M6809.Proofs.MemoryBus
import M6809.Proofs.QuietInstructions

namespace M6809

namespace Interrupt

/-- The priority of NMI over FIRQ over IRQ. -/
def outranks : Interrupt → Interrupt → Bool
  | nmi, firq | nmi, irq | firq, irq => true
  | _, _ => false

theorem isEnabled_iff (kind : Interrupt) (cc : ConditionCodes) :
    kind.isEnabled cc = true ↔
      kind = nmi ∨ kind = firq ∧ cc.firqMask = false ∨ kind = irq ∧ cc.irqMask = false := by
  cases kind <;> simp [isEnabled]

end Interrupt

theorem Latches.pending?_eq_some_iff (latches : Latches) (cc : ConditionCodes)
    (kind : Interrupt) :
    latches.pending? cc = some kind ↔
      latches.get kind = true ∧ kind.isEnabled cc = true ∧
        ∀ other, other.outranks kind = true → latches.get other = true →
          other.isEnabled cc = false := by
  obtain ⟨nmi, firq, irq⟩ := latches
  have hall : ∀ P : Interrupt → Prop, (∀ k, P k) ↔ P .nmi ∧ P .firq ∧ P .irq := by
    intro P
    exact ⟨fun h => ⟨h _, h _, h _⟩, fun ⟨h, h', h''⟩ k => by cases k <;> assumption⟩
  rw [hall]
  cases kind <;> cases nmi <;> cases firq <;> cases irq <;>
    simp [pending?, Interrupt.priority, get, Interrupt.outranks, Interrupt.isEnabled,
      and_comm]

open BusM

namespace Processor

theorem ensures_conclude (p : Processor) (outcome : Except Fault Execution) :
    (p.conclude outcome).Ensures fun events stepped =>
      events.filterMap Event.entered? = [] ∧ stepped.processor.latches = p.latches := by
  cases outcome <;> exact ⟨rfl, rfl⟩

theorem ensures_executeInstruction (p : Processor) :
    p.executeInstruction.Ensures fun events stepped =>
      events.filterMap Event.entered? = [] ∧ stepped.processor.latches = p.latches := by
  rw [executeInstruction_eq, ensures_bind]
  refine (Listing.plain_read p.regs.pc).quiet.ensures.imp ?_
  rintro events (fault | l) hevents
  · refine (p.ensures_conclude (.error fault)).imp ?_
    rintro rest _ ⟨hrest, hlatches⟩
    exact ⟨by rw [List.filterMap_append, hevents, hrest, List.append_nil], hlatches⟩
  · dsimp only
    rw [ensures_bind]
    refine (l.plain_carryOut p.regs).quiet.ensures.imp ?_
    intro middle done hmiddle
    refine (p.ensures_conclude (.ok done)).imp ?_
    rintro rest _ ⟨hrest, hlatches⟩
    refine ⟨?_, hlatches⟩
    rw [List.filterMap_append, List.filterMap_append, hevents, hmiddle, hrest]
    rfl

theorem plain_stackFrame (p : Processor) (kind : Interrupt) : (p.stackFrame kind).Plain := by
  unfold stackFrame Registers.pushFrame
  split
  · exact plain_pure p.regs
  · split
    · exact p.regs.plain_pushEntire
    · exact Registers.plain_push _ .s fastFrame

/-- An entry settles its own line, and goes where the vector points. -/
structure Enters (kind : Interrupt) (latches : Latches) (events : List Event) (stepped : Step) :
    Prop where
  entered : events.filterMap Event.entered? = [kind]
  latches_eq : stepped.processor.latches = latches.set kind false
  handler : ∃ high low,
    [.read kind.vector high, .read (kind.vector + 1) low] <:+ events.filterMap Event.access? ∧
      stepped.processor.regs.pc = Word.ofBytes high low

theorem ensures_enterInterrupt (p : Processor) (kind : Interrupt) :
    (p.enterInterrupt kind).Ensures (Enters kind p.latches) := by
  unfold enterInterrupt Registers.enterHandler
  simp only [ensures_bind, ensures_readWord, ensures_report, ensures_pure]
  refine (p.plain_stackFrame kind).quiet.ensures.imp ?_
  intro events r hquiet high low
  refine ⟨?_, rfl, high, low, ?_, rfl⟩
  · rw [List.filterMap_append, hquiet]
    rfl
  · rw [List.filterMap_append]
    exact List.suffix_append _ _

theorem Enters.prepend {kind : Interrupt} {latches : Latches} {events rest : List Event}
    {stepped : Step} (h : Enters kind latches rest stepped)
    (hevents : events.filterMap Event.entered? = []) :
    Enters kind latches (events ++ rest) stepped where
  entered := by rw [List.filterMap_append, hevents, h.entered, List.nil_append]
  latches_eq := h.latches_eq
  handler := by
    obtain ⟨high, low, hreads, hpc⟩ := h.handler
    refine ⟨high, low, ?_, hpc⟩
    rw [List.filterMap_append]
    exact hreads.trans (List.suffix_append _ _)

theorem latches_awake (p : Processor) : p.awake.latches = p.latches := by
  unfold awake
  split <;> rfl

theorem quiet_reportAwake (p : Processor) : p.reportAwake.Quiet := by
  unfold reportAwake
  split
  · exact quiet_report rfl
  · exact quiet_pure ()

theorem ensures_step_of_pending {p : Processor} {kind : Interrupt}
    (h : p.latches.pending? p.regs.cc = some kind) :
    p.step.Ensures (Enters kind p.latches) := by
  rw [step_of_pending h, ensures_bind]
  refine p.quiet_reportAwake.ensures.imp ?_
  intro events _ hevents
  rw [← p.latches_awake]
  refine (p.awake.ensures_enterInterrupt kind).imp ?_
  intro rest stepped hrest
  exact hrest.prepend hevents

theorem ensures_step_of_not_pending {p : Processor} (h : p.latches.pending? p.regs.cc = none) :
    p.step.Ensures fun events stepped =>
      events.filterMap Event.entered? = [] ∧ stepped.processor.latches = p.latches := by
  by_cases hidle : p.Idles
  · rw [step_of_idles h hidle]
    exact ⟨rfl, rfl⟩
  · rw [step_of_not_idles h hidle, ensures_bind]
    refine p.quiet_reportAwake.ensures.imp ?_
    intro events _ hevents
    refine p.awake.ensures_executeInstruction.imp ?_
    rintro rest stepped ⟨hrest, hlatches⟩
    exact ⟨by rw [List.filterMap_append, hevents, hrest, List.append_nil],
      hlatches.trans p.latches_awake⟩

theorem ensures_reset (p : Processor) :
    p.reset.Ensures fun _ after => after.latches = Latches.clear := by
  intro high low
  rfl

end Processor

namespace Machine

variable {β : Type} [Bus β]

def entered (m : Machine β) : List Interrupt := m.stepOutcome.entered

/-- What a command means for the lines. -/
def lineEvents (m : Machine β) : Command β → List LineEvent
  | .step => m.entered.map .entered
  | .assertLine kind => [.asserted kind]
  | .releaseFirq => [.released .firq]
  | .releaseIrq => [.released .irq]
  | .reset => [.reset]
  | .setRegisters _ | .setBus _ => []

/-- The line events of a run. -/
def history (m : Machine β) : List (Command β) → List LineEvent
  | [] => []
  | command :: rest => m.lineEvents command ++ (m.obey command).history rest

theorem history_concat (m : Machine β) (commands : List (Command β)) (command : Command β) :
    m.history (commands ++ [command]) =
      m.history commands ++ (m.run commands).lineEvents command := by
  induction commands generalizing m with
  | nil => simp [history, run]
  | cons first rest ih =>
      simp only [List.cons_append, history, ih, List.append_assoc]
      rfl

theorem entered_eq (m : Machine β) :
    m.entered = (m.processor.latches.pending? m.processor.regs.cc).toList := by
  unfold entered stepOutcome
  rw [entered_run]
  cases h : m.processor.latches.pending? m.processor.regs.cc with
  | some kind => exact ((Processor.ensures_step_of_pending h).run m.bus).entered
  | none => exact ((Processor.ensures_step_of_not_pending h).run m.bus).1

theorem mem_entered_iff (m : Machine β) (kind : Interrupt) :
    kind ∈ m.entered ↔ m.processor.latches.pending? m.processor.regs.cc = some kind := by
  rw [entered_eq, Option.mem_toList]

theorem lineInvariant_obey {m : Machine β} {events : List LineEvent}
    (h : LineInvariant m.processor.latches events) (command : Command β) :
    LineInvariant (m.obey command).processor.latches (events ++ m.lineEvents command) := by
  cases command with
  | assertLine kind => exact h.concat (e := .asserted kind) (by simp)
  | releaseFirq => exact h.concat (e := .released .firq) (by simp)
  | releaseIrq => exact h.concat (e := .released .irq) (by simp)
  | reset =>
      have hclear : m.reset.processor.latches = Latches.clear :=
        m.processor.ensures_reset.run m.bus
      simp only [obey, hclear, lineEvents]
      exact h.concat (e := .reset) (by simp)
  | setRegisters regs | setBus bus => simpa [obey, lineEvents] using h
  | step =>
      simp only [obey, lineEvents, entered_eq]
      cases hpending : m.processor.latches.pending? m.processor.regs.cc with
      | none =>
          have hlatches : m.step.processor.latches = m.processor.latches :=
            ((Processor.ensures_step_of_not_pending hpending).run m.bus).2
          simpa [hlatches] using h
      | some kind =>
          have hlatches : m.step.processor.latches = m.processor.latches.set kind false :=
            ((Processor.ensures_step_of_pending hpending).run m.bus).latches_eq
          have hlatched := ((Latches.pending?_eq_some_iff _ _ _).mp hpending).1
          rw [hlatches]
          refine h.concat (e := .entered kind) ?_
          rintro other ⟨⟩
          exact hlatched

theorem lineInvariant_run (bus : β) (commands : List (Command β)) :
    LineInvariant ((initial bus).run commands).processor.latches
      ((initial bus).history commands) := by
  induction commands using List.reverseRecOn with
  | nil => exact LineInvariant.initial
  | append_singleton commands command ih =>
      rw [run_concat, history_concat]
      exact lineInvariant_obey ih command

/-- Over every run an interrupt is latched as long as it was asserted and neither released nor
entered since, and a step enters the first one in priority that is latched and enabled. So it is
entered at most once for each time that it was asserted. -/
theorem interrupts_entered_once_asserted (bus : β) (commands : List (Command β))
    (kind : Interrupt) :
    let m := (initial bus).run commands
    let events := (initial bus).history commands
    let cc := m.processor.regs.cc
    let unmasked (kind : Interrupt) : Prop :=
      kind = .nmi ∨ kind = .firq ∧ cc.firqMask = false ∨ kind = .irq ∧ cc.irqMask = false
    (m.processor.latches.get kind = true ↔ Outstanding kind events) ∧
    (kind ∈ m.entered ↔ m.processor.latches.get kind = true ∧ unmasked kind ∧
      ∀ other, other.outranks kind = true → m.processor.latches.get other = true →
        ¬unmasked other) ∧
    (kind ∈ m.entered → m.entered = [kind] ∧
      m.step.processor.latches = m.processor.latches.set kind false ∧
      ∃ high low, [.read kind.vector high, .read (kind.vector + 1) low] <:+
        m.stepOutcome.accesses ∧ m.step.processor.regs.pc = Word.ofBytes high low) ∧
    (m.entered = [] → m.step.processor.latches = m.processor.latches) ∧
    events.count (.entered kind) ≤ events.count (.asserted kind) ∧
    ∀ before between after,
      events = before ++ .entered kind :: (between ++ .entered kind :: after) →
        .asserted kind ∈ between := by
  intro m events cc unmasked
  have hinvariant : LineInvariant m.processor.latches events := lineInvariant_run bus commands
  refine ⟨hinvariant.latched_iff kind, ?_, ?_, ?_, ?_, hinvariant.separated kind⟩
  · have henabled (k : Interrupt) : unmasked k ↔ k.isEnabled cc = true :=
      (k.isEnabled_iff cc).symm
    simp only [mem_entered_iff, Latches.pending?_eq_some_iff, henabled, Bool.not_eq_true]
    rfl
  · rw [mem_entered_iff]
    intro hpending
    have henters := (Processor.ensures_step_of_pending hpending).run m.bus
    obtain ⟨high, low, hreads, hpc⟩ := henters.handler
    rw [← BusM.accesses_run] at hreads
    exact ⟨by rw [entered_eq, hpending]; rfl, henters.latches_eq, high, low, hreads, hpc⟩
  · rw [entered_eq, Option.toList_eq_nil_iff]
    intro hpending
    exact ((Processor.ensures_step_of_not_pending hpending).run m.bus).2
  · have hcount := hinvariant.count_le kind
    omega

/-- Two NMIs before an IRQ, which is latched throughout and waits on, masked, once they are
entered. -/
theorem irq_entered_behind_nmis :
    let early : List (Command Memory) := [.assertLine .irq, .assertLine .nmi, .step,
      .assertLine .nmi, .step]
    let commands := early ++ [.step, .setRegisters Registers.zero]
    let masked := (initial Memory.zero).run early
    let m := (initial Memory.zero).run commands
    masked.processor.latches = ⟨false, false, true⟩ ∧ .irq ∉ masked.entered ∧
      .irq ∈ m.entered ∧ m.step.processor.latches = Latches.clear ∧ m.step.entered = [] ∧
      m.step.step.processor.latches = Latches.clear ∧
      (initial Memory.zero).history commands = [.asserted .irq, .asserted .nmi] ++ .entered .nmi ::
        ([.asserted .nmi] ++ .entered .nmi :: []) ∧
      .asserted .nmi ∈ [LineEvent.asserted .nmi] := by
  intro early commands masked m
  have hlatched : masked.processor.latches = ⟨false, false, true⟩ := by decide +kernel
  have hentered : .irq ∈ m.entered := by decide +kernel
  have hempty : m.step.entered = [] := by decide +kernel
  have hhistory : (initial Memory.zero).history commands = [.asserted .irq, .asserted .nmi] ++
      .entered .nmi :: ([.asserted .nmi] ++ .entered .nmi :: []) := by decide +kernel
  have hwaits := interrupts_entered_once_asserted Memory.zero early .irq
  have hmask : masked.processor.regs.cc.irqMask = true := by decide +kernel
  have hirq := interrupts_entered_once_asserted Memory.zero commands .irq
  have hnmi := interrupts_entered_once_asserted Memory.zero commands .nmi
  have hstep := interrupts_entered_once_asserted Memory.zero (commands ++ [.step]) .irq
  rw [run_concat] at hstep
  have hlatches : m.step.processor.latches = Latches.clear :=
    (hirq.2.2.1 hentered).2.1.trans (by decide +kernel)
  refine ⟨hlatched, fun h => ?_, hentered, hlatches, hempty,
    (hstep.2.2.2.1 hempty).trans hlatches, hhistory, hnmi.2.2.2.2.2 _ _ _ hhistory⟩
  obtain ⟨-, hunmasked, -⟩ := hwaits.2.1.mp h
  simp only [reduceCtorEq, false_and, false_or, true_and] at hunmasked
  exact Bool.false_ne_true (hunmasked.symm.trans hmask)

end Machine

end M6809
