import M6809.Proofs.Machine

/-!
Two machines side by side. The main statement says that machines which are related stay related
over every run, and answer every command alike, if their buses read alike and their processors
access the bus alike.
-/
namespace M6809

/-- Related buses read and report the same, and accesses leave them related. -/
structure Bus.Agree {β γ : Type} [Bus β] [Bus γ] (S : β → γ → Prop) : Prop where
  read : ∀ {b c}, S b c → ∀ address,
    (Bus.read b address).1 = (Bus.read c address).1 ∧
      S (Bus.read b address).2 (Bus.read c address).2
  write : ∀ {b c}, S b c → ∀ address value,
    S (Bus.write b address value) (Bus.write c address value)
  readNotice : ∀ {b c}, S b c → ∀ address,
    Bus.readNotice? b address = Bus.readNotice? c address
  writeNotice : ∀ {b c}, S b c → ∀ address value,
    Bus.writeNotice? b address value = Bus.writeNotice? c address value

theorem Bus.agree_eq {β : Type} [Bus β] : Bus.Agree (Eq : β → β → Prop) where
  read := by
    rintro b _ rfl address
    exact ⟨rfl, rfl⟩
  write := by
    rintro b _ rfl address value
    rfl
  readNotice := by
    rintro b _ rfl address
    rfl
  writeNotice := by
    rintro b _ rfl address value
    rfl

namespace BusM

/-- The same accesses and messages, with related results at the end. -/
inductive Alike {α γ : Type} (R : α → γ → Prop) : BusM α → BusM γ → Prop where
  | done {a : α} {c : γ} (result : R a c) : Alike R (.done a) (.done c)
  | read {address : Word} {next : Byte → BusM α} {next' : Byte → BusM γ}
      (rest : ∀ value, Alike R (next value) (next' value)) :
      Alike R (.read address next) (.read address next')
  | write {address : Word} {value : Byte} {next : BusM α} {next' : BusM γ}
      (rest : Alike R next next') : Alike R (.write address value next) (.write address value next')
  | say {message : Message} {next : BusM α} {next' : BusM γ} (rest : Alike R next next') :
      Alike R (.say message next) (.say message next')

variable {α γ δ ε : Type} {R : α → γ → Prop}

theorem Alike.refl {R : α → α → Prop} (h : ∀ a, R a a) (p : BusM α) : Alike R p p := by
  induction p with
  | done a => exact .done (h a)
  | read _ _ ih => exact .read ih
  | write _ _ _ ih => exact .write ih
  | say _ _ ih => exact .say ih

theorem Alike.bind {p : BusM α} {q : BusM γ} (h : Alike R p q) {T : δ → ε → Prop}
    {f : α → BusM δ} {g : γ → BusM ε} (hfg : ∀ a c, R a c → Alike T (f a) (g c)) :
    Alike T (p >>= f) (q >>= g) := by
  induction h with
  | done result => exact hfg _ _ result
  | read _ ih => exact .read ih
  | write _ ih => exact .write ih
  | say _ ih => exact .say ih

theorem Alike.bind_same (p : BusM α) {T : δ → ε → Prop} {f : α → BusM δ} {g : α → BusM ε}
    (hfg : ∀ a, Alike T (f a) (g a)) : Alike T (p >>= f) (p >>= g) := by
  refine (Alike.refl (R := Eq) (fun _ => rfl) p).bind ?_
  rintro a _ rfl
  exact hfg a

section
variable {β β' : Type} [Bus β] [Bus β'] {S : β → β' → Prop}

/-- On related buses, computations that are alike have related outcomes with the same events. -/
theorem Alike.run {p : BusM α} {q : BusM γ} (h : Alike R p q) (hagree : Bus.Agree S)
    {b : β} {c : β'} (hbus : S b c) :
    R (p.run b).result (q.run c).result ∧ (p.run b).events = (q.run c).events ∧
      S (p.run b).bus (q.run c).bus := by
  induction h generalizing b c with
  | done result => exact ⟨result, rfl, hbus⟩
  | @read address _ _ _ ih =>
      obtain ⟨hvalue, hafter⟩ := hagree.read hbus address
      simp only [BusM.run, hvalue, hagree.readNotice hbus]
      obtain ⟨hresult, hevents, hend⟩ := ih (Bus.read c address).1 hafter
      rw [hevents]
      exact ⟨hresult, rfl, hend⟩
  | write _ ih =>
      simp only [BusM.run, hagree.writeNotice hbus]
      obtain ⟨hresult, hevents, hend⟩ := ih (hagree.write hbus _ _)
      rw [hevents]
      exact ⟨hresult, rfl, hend⟩
  | say _ ih =>
      simp only [BusM.run]
      obtain ⟨hresult, hevents, hend⟩ := ih hbus
      rw [hevents]
      exact ⟨hresult, rfl, hend⟩

end

end BusM

/-- A command that leaves the bus alone, for a machine with any bus. -/
def Command.onBus {β : Type} : Command Empty → Command β
  | step => .step
  | assertLine kind => .assertLine kind
  | releaseFirq => .releaseFirq
  | releaseIrq => .releaseIrq
  | reset => .reset
  | setRegisters regs => .setRegisters regs

/-- The same cycles or fault, with related processors. -/
def Step.Agree (P : Processor → Processor → Prop) (s t : Step) : Prop :=
  P s.processor t.processor ∧ s.cycles = t.cycles

/-- A relation between processors that every command keeps, with the same accesses and results. -/
structure Processor.Agree (P : Processor → Processor → Prop) : Prop where
  step : ∀ {p q}, P p q → BusM.Alike (Step.Agree P) p.step q.step
  reset : ∀ {p q}, P p q → BusM.Alike P p.reset q.reset
  assertLine : ∀ {p q}, P p q → ∀ kind, P (p.assertLine kind) (q.assertLine kind)
  releaseFirq : ∀ {p q}, P p q → P p.releaseFirq q.releaseFirq
  releaseIrq : ∀ {p q}, P p q → P p.releaseIrq q.releaseIrq
  setRegisters : ∀ {p q}, P p q → ∀ regs, P { p with regs } { q with regs }

theorem Processor.agree_eq : Processor.Agree Eq where
  step := by
    rintro p _ rfl
    exact BusM.Alike.refl (fun _ => ⟨rfl, rfl⟩) p.step
  reset := by
    rintro p _ rfl
    exact BusM.Alike.refl (fun _ => rfl) p.reset
  assertLine h kind := congrArg (·.assertLine kind) h
  releaseFirq h := congrArg Processor.releaseFirq h
  releaseIrq h := congrArg Processor.releaseIrq h
  setRegisters h regs := congrArg (fun p : Processor => { p with regs }) h

/-- What a command gives back: the cycles of a step or its fault, and the events. -/
structure Response where
  cycles? : Option (Except Fault Nat)
  events : List Event

namespace Machine

variable {β β' : Type} [Bus β] [Bus β']

def response (m : Machine β) : Command β → Response
  | .step => ⟨some m.stepOutcome.result.cycles, m.stepOutcome.events⟩
  | .reset => ⟨none, (m.processor.reset.run m.bus).events⟩
  | _ => ⟨none, []⟩

/-- Related processors on related buses. -/
structure Lockstep (P : Processor → Processor → Prop) (S : β → β' → Prop) (m : Machine β)
    (n : Machine β') : Prop where
  processor : P m.processor n.processor
  bus : S m.bus n.bus

variable {P : Processor → Processor → Prop} {S : β → β' → Prop} (hP : Processor.Agree P)
  (hS : Bus.Agree S)
include hP hS

theorem Lockstep.obey {m : Machine β} {n : Machine β'} (h : Lockstep P S m n)
    (command : Command Empty) :
    m.response command.onBus = n.response command.onBus ∧
      Lockstep P S (m.obey command.onBus) (n.obey command.onBus) := by
  cases command with
  | step =>
      obtain ⟨⟨hprocessor, hcycles⟩, hevents, hbus⟩ := (hP.step h.processor).run hS h.bus
      refine ⟨?_, hprocessor, hbus⟩
      simp only [Command.onBus, response, stepOutcome, hcycles, hevents]
  | reset =>
      obtain ⟨hprocessor, hevents, hbus⟩ := (hP.reset h.processor).run hS h.bus
      refine ⟨?_, hprocessor, hbus⟩
      simp only [Command.onBus, response, hevents]
  | assertLine kind => exact ⟨rfl, hP.assertLine h.processor kind, h.bus⟩
  | releaseFirq => exact ⟨rfl, hP.releaseFirq h.processor, h.bus⟩
  | releaseIrq => exact ⟨rfl, hP.releaseIrq h.processor, h.bus⟩
  | setRegisters regs => exact ⟨rfl, hP.setRegisters h.processor regs, h.bus⟩
  | setBus bus => exact bus.elim

theorem Lockstep.run {m : Machine β} {n : Machine β'} (h : Lockstep P S m n)
    (commands : List (Command Empty)) :
    Lockstep P S (m.run (commands.map Command.onBus)) (n.run (commands.map Command.onBus)) := by
  induction commands generalizing m n with
  | nil => exact h
  | cons command rest ih => exact ih (h.obey hP hS command).2

end Machine

end M6809
