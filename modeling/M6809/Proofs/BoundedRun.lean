import M6809.Proofs.Accounting
import M6809.Run
import Mathlib.Logic.Function.Iterate

namespace M6809

namespace Run

variable {β : Type} [Bus β]

def machine (run : Run β) : Machine β := ⟨run.processor, run.bus⟩

/-- No further step is taken from here. -/
def Ended (stop : Option Word) (run : Run β) : Prop :=
  run.fault.isSome = true ∨ stop = some run.processor.regs.pc

/-- A run holds what so many steps of a machine have come to. Only the last of them may be a
fault. -/
structure Records (m : Machine β) (taken : Nat) (run : Run β) : Prop where
  machine : run.machine = Machine.step^[taken] m
  cycles : m.processor.cycles + run.cycles = run.processor.cycles
  steps : run.steps + run.fault.toList.length = taken
  events : run.events =
    (List.range taken).flatMap fun k => (Machine.step^[k] m).stepOutcome.events
  fault : ∀ f, run.fault = some f ↔
    ∃ k, taken = k + 1 ∧ (Machine.step^[k] m).stepOutcome.result.cycles = .error f

section
variable {run : Run β}

theorem machine_step (run : Run β) : run.step.machine = run.machine.step := by
  unfold machine step
  dsimp only
  split <;> rfl

theorem events_step (run : Run β) :
    run.step.events = run.events ++ run.machine.stepOutcome.events := by
  have hrecent : run.step.recent = run.machine.stepOutcome.events.reverse ++ run.recent := by
    unfold step
    dsimp only
    split <;> rfl
  rw [events, hrecent, List.reverse_append, List.reverse_reverse]
  rfl

theorem step_of_ok {cycles : Nat} (h : run.machine.stepOutcome.result.cycles = .ok cycles) :
    run.step.steps = run.steps + 1 ∧ run.step.cycles = run.cycles + cycles ∧
      run.step.fault = run.fault := by
  have hcycles : (run.processor.step.run run.bus).result.cycles = .ok cycles := h
  simp only [step, hcycles, true_and]

theorem step_of_error {f : Fault} (h : run.machine.stepOutcome.result.cycles = .error f) :
    run.step.steps = run.steps ∧ run.step.cycles = run.cycles ∧ run.step.fault = some f := by
  have hcycles : (run.processor.step.run run.bus).result.cycles = .error f := h
  simp only [step, hcycles, true_and]

theorem Records.start (p : Processor) (bus : β) : Records ⟨p, bus⟩ 0 (start p bus) where
  machine := rfl
  cycles := rfl
  steps := rfl
  events := rfl
  fault := by simp [Run.start]

variable {m : Machine β} {taken : Nat} (h : Records m taken run)
include h

theorem Records.step (hfault : run.fault = none) : Records m (taken + 1) run.step := by
  have hmachine : run.step.machine = Machine.step^[taken + 1] m := by
    rw [machine_step, h.machine, Function.iterate_succ_apply']
  have htotal : run.step.processor.cycles =
      run.processor.cycles + run.machine.stepOutcome.result.spent := by
    rw [show run.step.processor = run.machine.step.processor from
      congrArg (·.processor) run.machine_step]
    exact run.machine.accounts.total
  have hevents : run.step.events = (List.range (taken + 1)).flatMap fun k =>
      (Machine.step^[k] m).stepOutcome.events := by
    rw [events_step, h.events, h.machine, List.range_succ, List.flatMap_append,
      List.flatMap_singleton]
  have hcycles := h.cycles
  have hsteps := h.steps
  rw [hfault] at hsteps
  cases hresult : run.machine.stepOutcome.result.cycles with
  | ok cycles =>
      obtain ⟨hcount, hspent, hkept⟩ := step_of_ok hresult
      have hvalue : run.machine.stepOutcome.result.spent = cycles := by
        rw [Step.spent, hresult]
      refine ⟨hmachine, by omega, ?_, hevents, ?_⟩
      · rw [hkept, hfault, hcount, ← hsteps]
        rfl
      · rw [hkept, hfault]
        rw [h.machine] at hresult
        simp [hresult]
  | error f =>
      obtain ⟨hcount, hspent, hkept⟩ := step_of_error hresult
      have hvalue : run.machine.stepOutcome.result.spent = 0 := by
        rw [Step.spent, hresult]
      refine ⟨hmachine, by omega, ?_, hevents, ?_⟩
      · rw [hkept, hcount, ← hsteps]
        rfl
      · rw [hkept]
        rw [h.machine] at hresult
        simp [hresult]

theorem Records.upTo (stop : Option Word) (limit : Nat) :
    ∃ further ≤ limit, Records m (taken + further) (run.upTo stop limit) ∧
      (further < limit → (run.upTo stop limit).Ended stop) ∧
      ∀ k, taken ≤ k → k < taken + further →
        stop ≠ some (Machine.step^[k] m).processor.regs.pc ∧
        ∀ j f, k = j + 1 → (Machine.step^[j] m).stepOutcome.result.cycles ≠ .error f := by
  induction limit generalizing taken run with
  | zero => exact ⟨0, Nat.le_refl 0, h, by simp, by omega⟩
  | succ limit ih =>
      -- where the run goes on it is neither at the stop nor behind a fault
      by_cases hended : run.Ended stop
      · have hlast : run.upTo stop (limit + 1) = run := by
          rw [Run.upTo, if_pos (by simpa [Ended] using hended)]
        rw [hlast]
        exact ⟨0, Nat.zero_le _, h, fun _ => hended, by omega⟩
      · have hlast : run.upTo stop (limit + 1) = run.step.upTo stop limit := by
          rw [Run.upTo, if_neg (by simpa [Ended] using hended)]
        obtain ⟨hfault, hstop⟩ := not_or.mp hended
        rw [Option.not_isSome_iff_eq_none] at hfault
        obtain ⟨further, hle, hrecords, hends, hbetween⟩ := ih (h.step hfault)
        rw [hlast]
        rw [Nat.add_assoc, Nat.add_comm 1] at hrecords
        refine ⟨further + 1, by omega, hrecords, fun hlt => hends (by omega), ?_⟩
        intro k hfirst hlt
        rcases Nat.eq_or_lt_of_le hfirst with rfl | hafter
        · rw [← h.machine]
          refine ⟨hstop, ?_⟩
          rintro j f rfl herror
          have hfaulted := (h.fault f).mpr ⟨j, rfl, herror⟩
          rw [hfault] at hfaulted
          cases hfaulted
        · exact hbetween k hafter (by omega)

end

/-- A bounded run takes the steps of the machine in their order, and ends with the first that
faults, in front of the first at the address to stop at, or at the limit. -/
theorem upTo_takes_steps (p : Processor) (bus : β) (stop : Option Word) (limit : Nat) :
    let m : Machine β := ⟨p, bus⟩
    let last := (start p bus).upTo stop limit
    ∃ taken ≤ limit, Records m taken last ∧ (taken < limit → last.Ended stop) ∧
      (∀ k < taken, stop ≠ some (Machine.step^[k] m).processor.regs.pc) ∧
      ∀ k f, k + 1 < taken → (Machine.step^[k] m).stepOutcome.result.cycles ≠ .error f := by
  intro m last
  obtain ⟨taken, hle, hrecords, hends, hbetween⟩ := (Records.start p bus).upTo stop limit
  rw [Nat.zero_add] at hrecords hbetween
  refine ⟨taken, hle, hrecords, hends, fun k hk => (hbetween k (Nat.zero_le k) hk).1, ?_⟩
  intro k f hk
  exact (hbetween (k + 1) (Nat.zero_le _) hk).2 k f rfl

end Run

end M6809
