import M6809.Processor

namespace M6809

structure Run (β : Type) where
  processor : Processor
  bus : β
  steps : Nat
  cycles : Nat
  fault : Option Fault
  /-- Newest first. -/
  recent : List Event

namespace Run

variable {β : Type}

def start (p : Processor) (bus : β) : Run β := ⟨p, bus, 0, 0, none, []⟩

def events (run : Run β) : List Event := run.recent.reverse

variable [Bus β]

def step (run : Run β) : Run β :=
  let o := run.processor.step.run run.bus
  let after := { run with
    processor := o.result.processor
    bus := o.bus
    recent := o.events.reverse ++ run.recent }
  match o.result.cycles with
  | .ok cycles => { after with steps := run.steps + 1, cycles := run.cycles + cycles }
  | .error fault => { after with fault := some fault }

/-- Steps at most `limit` times, and no further than a fault or the address `stop`. -/
def upTo (stop : Option Word) : Nat → Run β → Run β
  | 0, run => run
  | limit + 1, run =>
    if run.fault.isSome || stop == some run.processor.regs.pc then run
    else upTo stop limit run.step

end Run

end M6809
