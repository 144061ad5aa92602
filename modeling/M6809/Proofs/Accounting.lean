import M6809.Proofs.CycleBounds
import M6809.Proofs.InterruptEntry
import M6809.Proofs.ListingAgreement

namespace M6809

namespace Message

/-- An instruction was completed. -/
def isExecuted : Message → Bool
  | executed _ _ _ => true
  | _ => false

end Message

def Event.executed? (e : Event) : Option Message :=
  e.message?.bind (Option.guard Message.isExecuted)

/-- The reports of completed instructions in a run. -/
def Outcome.executed {α β : Type} (o : Outcome β α) : List Message :=
  o.messages.filter Message.isExecuted

/-- How the completed instruction is reported. -/
def Retired.report (e : Retired) : Message := .executed e.address e.opcode.mnemonic e.cycles

namespace BusM

variable {α β γ : Type} [Bus β]

theorem executed_run (p : BusM α) (bus : β) :
    (p.run bus).executed = (p.actions bus).filterMap Event.executed? := by
  rw [Outcome.executed, ← List.filterMap_eq_filter, Outcome.messages_eq, List.filterMap_filterMap]
  exact filterMap_events_run Event.executed? (fun _ => rfl) p bus

theorem executed_bind (p : BusM α) (f : α → BusM γ) (bus : β) :
    ((p >>= f).run bus).executed =
      (p.run bus).executed ++ ((f (p.run bus).result).run (p.run bus).bus).executed := by
  simp only [Outcome.executed, Outcome.messages_eq, events_bind, List.filterMap_append,
    List.filter_append]

theorem Plain.executed_eq_nil {p : BusM α} (h : p.Plain) (bus : β) :
    (p.run bus).executed = [] := by
  rw [executed_run]
  refine (h.filterMap_eq_nil ?_).run bus
  intro message hmessage
  cases message <;> first | rfl | cases hmessage

end BusM

/-- The cycles of a step that succeeds. -/
def Step.spent (s : Step) : Nat :=
  match s.cycles with
  | .ok cycles => cycles
  | .error _ => 0

namespace Processor

/-- What a step does to the totals and the history, and what it reports, when it completes this
instruction or none. -/
structure Accounts (p : Processor) (stepped : Step) (reports : List Message)
    (completed : Option Retired) : Prop where
  total : stepped.processor.cycles = p.cycles + stepped.spent
  instructions : stepped.processor.instructions = p.instructions + completed.toList.length
  history : stepped.processor.history =
    p.history.map fun h => completed.toList.foldl History.record h
  reports_eq : reports = completed.toList.map Retired.report

section
variable {β : Type} [Bus β] {p : Processor} {bus : β}

theorem Accounts.of_awake {stepped : Step} {reports : List Message} {completed : Option Retired}
    (h : p.awake.Accounts stepped reports completed) : p.Accounts stepped reports completed := by
  rw [p.awake_eq] at h
  exact ⟨h.total, h.instructions, h.history, h.reports_eq⟩

theorem run_behind_reportAwake (work : BusM Step) :
    ((p.reportAwake >>= fun _ => work).run bus).result = (work.run bus).result ∧
      ((p.reportAwake >>= fun _ => work).run bus).executed = (work.run bus).executed := by
  have hsilent : (p.reportAwake.run bus).executed = [] := by
    unfold reportAwake
    split <;> rfl
  rw [BusM.result_bind, BusM.executed_bind, run_reportAwake.1, hsilent]
  exact ⟨rfl, rfl⟩

theorem accounts_enterInterrupt (kind : Interrupt) :
    let entered := (p.enterInterrupt kind).run bus
    p.Accounts entered.result entered.executed none ∧
      entered.result.cycles = .ok (p.entryCycles kind) := by
  have hsilent : ((p.enterInterrupt kind).run bus).executed = [] := by
    unfold enterInterrupt
    rw [BusM.executed_bind, (p.plain_stackFrame kind).executed_eq_nil, BusM.executed_bind,
      (Registers.plain_enterHandler _ _).executed_eq_nil]
    rfl
  have hresult : (p.enterInterrupt kind).Ensures fun _ stepped =>
      stepped.processor.cycles = p.cycles + stepped.spent ∧
        stepped.processor.instructions = p.instructions ∧
        stepped.processor.history = p.history ∧ stepped.cycles = .ok (p.entryCycles kind) := by
    unfold enterInterrupt
    simp only [BusM.ensures_bind]
    apply BusM.ensures_of_forall
    intro _ stacked
    apply BusM.ensures_of_forall
    intro _ entered
    exact ⟨rfl, rfl, rfl, rfl⟩
  obtain ⟨htotal, hinstructions, hhistory, hcycles⟩ := hresult.run bus
  exact ⟨⟨htotal, hinstructions, hhistory.trans Option.map_id'.symm, hsilent⟩, hcycles⟩

theorem accounts_executeInstruction_of_error {f : Fault}
    (h : ((Listing.read p.regs.pc).run bus).result = .error f) :
    let executed := p.executeInstruction.run bus
    p.Accounts executed.result executed.executed none := by
  have hsilent : (p.executeInstruction.run bus).executed = [] := by
    rw [executeInstruction_eq, BusM.executed_bind, (Listing.plain_read _).executed_eq_nil, h]
    rfl
  dsimp only
  rw [hsilent, (executeInstruction_of_error h).1]
  exact ⟨rfl, rfl, Option.map_id'.symm, rfl⟩

theorem accounts_executeInstruction_of_ok {l : Listing}
    (h : ((Listing.read p.regs.pc).run bus).result = .ok l) :
    let done := ((l.carryOut p.regs).run ((Listing.read p.regs.pc).run bus).bus).result
    let executed := p.executeInstruction.run bus
    p.Accounts executed.result executed.executed
      (some ⟨p.regs.pc, l.opcode, done.cycles, done.regs⟩) := by
  intro done
  have hopcode : done.opcode = l.opcode := (l.ensures_carryOut_opcode p.regs).run _
  have hreported : (p.executeInstruction.run bus).executed =
      [.executed p.regs.pc done.opcode.mnemonic done.cycles] := by
    rw [executeInstruction_eq, BusM.executed_bind, (Listing.plain_read _).executed_eq_nil, h]
    dsimp only
    rw [BusM.executed_bind, (l.plain_carryOut p.regs).executed_eq_nil]
    rfl
  dsimp only
  rw [hreported, (executeInstruction_of_ok h).1, ← hopcode]
  exact ⟨rfl, rfl, rfl, rfl⟩

theorem cycles_step_of_pending {kind : Interrupt}
    (h : p.latches.pending? p.regs.cc = some kind) :
    (p.step.run bus).result.cycles = .ok (p.entryCycles kind) := by
  have hcycles : ((p.awake.enterInterrupt kind).run bus).result.cycles = _ :=
    (p.awake.accounts_enterInterrupt kind).2
  have hentry : p.awake.entryCycles kind = p.entryCycles kind := by
    unfold awake entryCycles
    split <;> simp_all
  rw [step_of_pending h, (run_behind_reportAwake _).1, hcycles, hentry]

end

end Processor

/-- What is done with a machine and with the record of its past. -/
inductive Control (β : Type) where
  | command (command : Command β)
  | recordHistory (capacity : Nat)
  | dropHistory

def Control.isHistory {β : Type} : Control β → Bool
  | command _ => false
  | recordHistory _ | dropHistory => true

namespace Machine

variable {β : Type} [Bus β]

/-- The instruction that a step completes, as it is listed at PC. -/
def retired? (m : Machine β) : Option Retired :=
  if (m.processor.latches.pending? m.processor.regs.cc).isSome ∨ m.processor.Idles then none
  else
    match ((Listing.read m.processor.regs.pc).run m.bus).result, m.stepOutcome.result.cycles with
    | .ok l, .ok cycles => some ⟨m.processor.regs.pc, l.opcode, cycles, m.step.processor.regs⟩
    | _, _ => none

/-- The next step completes an instruction, and what is kept of it is true. -/
structure Completes (m : Machine β) (e : Retired) : Prop where
  pending : m.processor.latches.pending? m.processor.regs.cc = none
  not_idles : ¬m.processor.Idles
  listed : ∃ l, ((Listing.read m.processor.regs.pc).run m.bus).result = .ok l ∧ e.opcode = l.opcode
  defined : Opcode.ofCode? e.opcode.page e.opcode.code = some e.opcode
  address : e.address = m.processor.regs.pc
  cycles : m.stepOutcome.result.cycles = .ok e.cycles
  bounds : 2 ≤ e.cycles ∧ e.cycles ≤ 20
  regs : e.regs = m.step.processor.regs

/-- The next step completes no instruction: it enters an interrupt, does nothing or faults. -/
def CompletesNone (m : Machine β) : Prop :=
  (∃ kind, m.processor.latches.pending? m.processor.regs.cc = some kind) ∨ m.processor.Idles ∨
    ∃ f, m.stepOutcome.result.cycles = .error f

section
variable {m : Machine β}

/-- The next step is accounted for by this instruction, or by none. -/
def AccountsFor (m : Machine β) (completed : Option Retired) : Prop :=
  m.processor.Accounts m.stepOutcome.result m.stepOutcome.executed completed

theorem accountsFor_of_awake {work : BusM Step} {completed : Option Retired}
    (hstep : m.processor.step = m.processor.reportAwake >>= fun _ => work)
    (h : m.processor.awake.Accounts (work.run m.bus).result (work.run m.bus).executed completed) :
    m.AccountsFor completed := by
  unfold AccountsFor stepOutcome
  rw [hstep, (Processor.run_behind_reportAwake work).1, (Processor.run_behind_reportAwake work).2]
  exact h.of_awake

theorem accounts_of_pending {kind : Interrupt}
    (h : m.processor.latches.pending? m.processor.regs.cc = some kind) :
    m.retired? = none ∧ m.AccountsFor none := by
  constructor
  · apply if_pos
    rw [h]
    exact .inl rfl
  · apply accountsFor_of_awake (Processor.step_of_pending h)
    exact (m.processor.awake.accounts_enterInterrupt kind).1

section
variable (hpending : m.processor.latches.pending? m.processor.regs.cc = none)
include hpending

theorem accounts_of_idles (hidle : m.processor.Idles) :
    m.retired? = none ∧ m.AccountsFor none := by
  constructor
  · exact if_pos (.inr hidle)
  · unfold AccountsFor stepOutcome
    rw [Processor.step_of_idles hpending hidle]
    exact ⟨rfl, rfl, Option.map_id'.symm, rfl⟩

variable (hidle : ¬m.processor.Idles)
include hidle

theorem retired?_of_not_idles : m.retired? =
    match ((Listing.read m.processor.regs.pc).run m.bus).result, m.stepOutcome.result.cycles with
    | .ok l, .ok cycles => some ⟨m.processor.regs.pc, l.opcode, cycles, m.step.processor.regs⟩
    | _, _ => none :=
  if_neg (by simp [hpending, hidle])

theorem accounts_of_error {f : Fault}
    (h : ((Listing.read m.processor.regs.pc).run m.bus).result = .error f) :
    m.retired? = none ∧ m.stepOutcome.result.cycles = .error f ∧ m.AccountsFor none := by
  rw [retired?_of_not_idles hpending hidle, h]
  rw [← m.processor.regs_awake] at h
  have hresult : m.stepOutcome.result = _ :=
    (Processor.run_step_of_not_idles hpending hidle).1
  refine ⟨rfl, ?_, ?_⟩
  · exact (congrArg Step.cycles hresult).trans (Processor.executeInstruction_eq_error_iff.mpr h)
  · apply accountsFor_of_awake (Processor.step_of_not_idles hpending hidle)
    exact Processor.accounts_executeInstruction_of_error h

theorem accounts_of_ok {l : Listing}
    (h : ((Listing.read m.processor.regs.pc).run m.bus).result = .ok l) :
    ∃ e, m.retired? = some e ∧ m.Completes e ∧ m.AccountsFor (some e) := by
  obtain ⟨-, hwell, -⟩ := Listing.run_read_of_ok h
  have hlisted := h
  rw [← m.processor.regs_awake] at h
  have hexecuted : m.stepOutcome.result = _ :=
    (Processor.run_step_of_not_idles hpending hidle).1.trans
      (Processor.executeInstruction_of_ok h).1
  let done := ((l.carryOut m.processor.awake.regs).run
    ((Listing.read m.processor.awake.regs.pc).run m.bus).bus).result
  refine ⟨⟨m.processor.regs.pc, l.opcode, done.cycles, done.regs⟩, ?_, ?_, ?_⟩
  · rw [retired?_of_not_idles hpending hidle, hlisted, step, hexecuted]
    rfl
  · refine ⟨hpending, hidle, ⟨l, hlisted, rfl⟩, hwell.defined, rfl, ?_, ?_, ?_⟩
    · rw [hexecuted]
    · exact (hwell.ensures_carryOut_cycles _).run _
    · rw [step, hexecuted]
      rfl
  · rw [← m.processor.regs_awake]
    apply accountsFor_of_awake (Processor.step_of_not_idles hpending hidle)
    exact Processor.accounts_executeInstruction_of_ok h

end

theorem completes_or_not (m : Machine β) :
    (∃ e, m.retired? = some e ∧ m.Completes e ∧ m.AccountsFor (some e)) ∨
      m.retired? = none ∧ m.CompletesNone ∧ m.AccountsFor none := by
  cases hpending : m.processor.latches.pending? m.processor.regs.cc with
  | some kind =>
      obtain ⟨hretired, haccounts⟩ := accounts_of_pending hpending
      exact .inr ⟨hretired, .inl ⟨kind, hpending⟩, haccounts⟩
  | none =>
      by_cases hidle : m.processor.Idles
      · obtain ⟨hretired, haccounts⟩ := accounts_of_idles hpending hidle
        exact .inr ⟨hretired, .inr (.inl hidle), haccounts⟩
      · cases hlisted : ((Listing.read m.processor.regs.pc).run m.bus).result with
        | error f =>
            obtain ⟨hretired, hfault, haccounts⟩ := accounts_of_error hpending hidle hlisted
            exact .inr ⟨hretired, .inr (.inr ⟨f, hfault⟩), haccounts⟩
        | ok l => exact .inl (accounts_of_ok hpending hidle hlisted)

theorem accounts (m : Machine β) : m.AccountsFor m.retired? := by
  rcases m.completes_or_not with ⟨e, hretired, -, haccounts⟩ | ⟨hretired, -, haccounts⟩
  · rw [hretired]
    exact haccounts
  · rw [hretired]
    exact haccounts

theorem Completes.not_completesNone {e : Retired} (h : m.Completes e) : ¬m.CompletesNone := by
  rintro (⟨kind, hkind⟩ | hidle | ⟨f, hfault⟩)
  · rw [h.pending] at hkind
    cases hkind
  · exact h.not_idles hidle
  · rw [h.cycles] at hfault
    cases hfault

theorem retired?_eq_none_iff : m.retired? = none ↔ m.CompletesNone := by
  rcases m.completes_or_not with ⟨e, hretired, hcompletes, -⟩ | ⟨hretired, hnone, -⟩
  · simp [hretired, hcompletes.not_completesNone]
  · simp [hretired, hnone]

theorem completes_of_retired? {e : Retired} (h : m.retired? = some e) : m.Completes e := by
  rcases m.completes_or_not with ⟨e', hretired, hcompletes, -⟩ | ⟨hretired, -, -⟩
  · rw [hretired] at h
    cases h
    exact hcompletes
  · rw [hretired] at h
    cases h

end

def follow (m : Machine β) : Control β → Machine β
  | .command command => m.obey command
  | .recordHistory capacity => { m with processor := m.processor.recordHistory capacity }
  | .dropHistory => { m with processor := m.processor.dropHistory }

def followAll (m : Machine β) (controls : List (Control β)) : Machine β := controls.foldl follow m

/-- The machine about to step, if that is what the control says. -/
def start? (m : Machine β) : Control β → Option (Machine β)
  | .command .step => some m
  | _ => none

/-- The machine at the start of each step of a run. -/
def starts (m : Machine β) : List (Control β) → List (Machine β)
  | [] => []
  | control :: rest => (m.start? control).toList ++ (m.follow control).starts rest

/-- The instructions that the steps of a run complete. -/
def completed (m : Machine β) (controls : List (Control β)) : List Retired :=
  (m.starts controls).filterMap retired?

/-- The sum of the values that the successful steps of a run return. -/
def spent (m : Machine β) (controls : List (Control β)) : Nat :=
  (m.starts controls).foldr (fun start total => start.stepOutcome.result.spent + total) 0

theorem processor_reset (m : Machine β) :
    m.reset.processor.cycles = m.processor.cycles ∧
      m.reset.processor.instructions = m.processor.instructions ∧
      m.reset.processor.history = m.processor.history := by
  have hreset : m.processor.reset.Ensures fun _ after => after.cycles = m.processor.cycles ∧
      after.instructions = m.processor.instructions ∧ after.history = m.processor.history := by
    intro high low
    exact ⟨rfl, rfl, rfl⟩
  exact hreset.run m.bus

theorem completed_cons (m : Machine β) (control : Control β) (rest : List (Control β)) :
    m.completed (control :: rest) =
      ((m.start? control).bind retired?).toList ++ (m.follow control).completed rest := by
  rw [completed, starts, List.filterMap_append]
  cases m.start? control with
  | none => rfl
  | some start => cases h : start.retired? <;> simp [h, completed]

theorem spent_cons (m : Machine β) (control : Control β) (rest : List (Control β)) :
    m.spent (control :: rest) =
      ((m.start? control).map fun start => start.stepOutcome.result.spent).getD 0 +
        (m.follow control).spent rest := by
  rw [spent, starts]
  cases m.start? control <;> simp [spent]

theorem totals_follow (m : Machine β) (control : Control β) :
    (m.follow control).processor.cycles = m.processor.cycles +
        ((m.start? control).map fun start => start.stepOutcome.result.spent).getD 0 ∧
      (m.follow control).processor.instructions =
        m.processor.instructions + ((m.start? control).bind retired?).toList.length := by
  cases control with
  | recordHistory capacity | dropHistory => exact ⟨rfl, rfl⟩
  | command command =>
      cases command with
      | step => exact ⟨m.accounts.total, m.accounts.instructions⟩
      | reset => exact ⟨m.processor_reset.1, m.processor_reset.2.1⟩
      | assertLine _ | releaseFirq | releaseIrq | setRegisters _ | setBus _ => exact ⟨rfl, rfl⟩

theorem totals_followAll (m : Machine β) (controls : List (Control β)) :
    (m.followAll controls).processor.cycles = m.processor.cycles + m.spent controls ∧
      (m.followAll controls).processor.instructions =
        m.processor.instructions + (m.completed controls).length := by
  induction controls generalizing m with
  | nil => exact ⟨rfl, rfl⟩
  | cons control rest ih =>
      obtain ⟨hcycles, hinstructions⟩ := m.totals_follow control
      obtain ⟨hcycles', hinstructions'⟩ := ih (m.follow control)
      rw [spent_cons, completed_cons, List.length_append, ← Nat.add_assoc, ← Nat.add_assoc,
        ← hcycles, ← hinstructions]
      exact ⟨hcycles', hinstructions'⟩

theorem history_follow (m : Machine β) {control : Control β} (h : control.isHistory = false) :
    (m.follow control).processor.history =
      m.processor.history.map fun record =>
        ((m.start? control).bind retired?).toList.foldl History.record record := by
  cases control with
  | recordHistory capacity | dropHistory => cases h
  | command command =>
      cases command with
      | step => exact m.accounts.history
      | reset => exact m.processor_reset.2.2.trans Option.map_id'.symm
      | assertLine _ | releaseFirq | releaseIrq | setRegisters _ | setBus _ =>
          exact Option.map_id'.symm

theorem history_followAll (m : Machine β) {controls : List (Control β)}
    (h : ∀ control ∈ controls, control.isHistory = false) :
    (m.followAll controls).processor.history =
      m.processor.history.map fun record => (m.completed controls).foldl History.record record := by
  -- the history after the first control is the one that the rest is recorded into
  induction controls generalizing m with
  | nil => exact Option.map_id'.symm
  | cons control rest ih =>
      have hfirst := m.history_follow (h control (by simp))
      have hrest := ih (m.follow control) fun control hmem => h control (by simp [hmem])
      rw [hfirst, Option.map_map] at hrest
      refine hrest.trans (congrArg (Option.map · m.processor.history) ?_)
      funext record
      rw [completed_cons, List.foldl_append]
      rfl

theorem followAll_append (m : Machine β) (front back : List (Control β)) :
    m.followAll (front ++ back) = (m.followAll front).followAll back :=
  List.foldl_append

section
variable (m : Machine β) (before : List (Control β)) {after : List (Control β)}
  (h : ∀ control ∈ after, control.isHistory = false)
include h

theorem recorded_of_on (n : Nat) :
    let done := (m.followAll (before ++ [.recordHistory n])).completed after
    (m.followAll (before ++ .recordHistory n :: after)).processor.recorded =
      done.drop (done.length - n) := by
  intro done
  have hsplit : before ++ .recordHistory n :: after = (before ++ [.recordHistory n]) ++ after := by
    simp
  have hon : (m.followAll (before ++ [.recordHistory n])).processor.history =
      some (History.ofCapacity n) := by
    rw [followAll_append]
    rfl
  rw [Processor.recorded, hsplit, followAll_append, history_followAll _ h, hon]
  change ((done.foldl History.record (History.ofCapacity n)).toList) = _
  rw [History.toList_foldl_record]
  simp

theorem recorded_of_off :
    (m.followAll (before ++ .dropHistory :: after)).processor.recorded = [] := by
  have hsplit : before ++ .dropHistory :: after = (before ++ [.dropHistory]) ++ after := by
    simp
  have hoff : (m.followAll (before ++ [.dropHistory])).processor.history = none := by
    rw [followAll_append]
    rfl
  rw [Processor.recorded, hsplit, followAll_append, history_followAll _ h, hoff]
  rfl

end

/-- Over every run from a new processor the cycles are the sum of what the steps returned, the
instructions are counted that were completed, and the history holds the last of those completed
since recording was switched on. Every step reports the instruction that it completes and no other;
such an instruction takes two to twenty cycles, and an interrupt entry as many as it has to
stack. -/
theorem totals_and_history_of_steps (bus : β) (controls : List (Control β)) :
    let last := (initial bus).followAll controls
    (last.processor.cycles = (initial bus).spent controls ∧
      last.processor.instructions = ((initial bus).completed controls).length) ∧
    (∀ before n after, controls = before ++ .recordHistory n :: after →
      (∀ control ∈ after, control.isHistory = false) →
      let done := ((initial bus).followAll (before ++ [.recordHistory n])).completed after
      last.processor.recorded = done.drop (done.length - n)) ∧
    (∀ before after, controls = before ++ .dropHistory :: after →
      (∀ control ∈ after, control.isHistory = false) → last.processor.recorded = []) ∧
    ((∀ control ∈ controls, control.isHistory = false) → last.processor.recorded = []) ∧
    ∀ m : Machine β,
      m.stepOutcome.messages.filter Message.isExecuted = m.retired?.toList.map Retired.report ∧
      (m.retired? = none ↔ m.CompletesNone) ∧ (∀ e, m.retired? = some e → m.Completes e) ∧
      ∀ kind, m.processor.latches.pending? m.processor.regs.cc = some kind →
        m.stepOutcome.result.cycles =
          .ok (if m.processor.state = .wait then 0 else if kind = .firq then 10 else 19) := by
  intro last
  refine ⟨?_, ?_, ?_, ?_, ?_⟩
  · obtain ⟨hcycles, hinstructions⟩ := (initial bus).totals_followAll controls
    exact ⟨hcycles.trans (Nat.zero_add _), hinstructions.trans (Nat.zero_add _)⟩
  · rintro before n after rfl h
    exact recorded_of_on _ before h n
  · rintro before after rfl h
    exact recorded_of_off _ before h
  · intro h
    have hnever := (initial bus).history_followAll h
    rw [Processor.recorded, hnever]
    rfl
  · intro m
    refine ⟨m.accounts.reports_eq, retired?_eq_none_iff, fun e => completes_of_retired?, ?_⟩
    intro kind hkind
    refine (Processor.cycles_step_of_pending hkind).trans ?_
    cases kind <;> rfl

/-- NOP and CLRA behind it, with room for one of them. -/
theorem last_of_two_is_recorded :
    let r : Registers := { Registers.zero with a := 5, pc := 0x2000 }
    let bus := Memory.zero.load 0x2000 [0x12, 0x4F]
    let controls : List (Control Memory) := [.command (.setRegisters r)] ++ .recordHistory 1 ::
      [.command .step, .command .step]
    let last := (initial bus).followAll controls
    last.processor.cycles = 4 ∧ last.processor.instructions = 2 ∧ last.processor.recorded =
      [⟨0x2001, ⟨.zero, 0x4F, .modify .clr (.accumulator .a), .inherent⟩, 2,
        { Registers.zero with pc := 0x2002, cc := ⟨0x04⟩ }⟩] := by
  intro r bus controls last
  obtain ⟨⟨hcycles, hinstructions⟩, hrecorded, -⟩ := totals_and_history_of_steps bus controls
  have hspent : (initial bus).spent controls = 4 := by decide +kernel
  have hcompleted : ((initial bus).completed controls).length = 2 := by decide +kernel
  have hlast := hrecorded [.command (.setRegisters r)] 1 [.command .step, .command .step] rfl
    (by simp [Control.isHistory])
  refine ⟨hcycles.trans hspent, hinstructions.trans hcompleted, hlast.trans ?_⟩
  decide +kernel

end Machine

end M6809
