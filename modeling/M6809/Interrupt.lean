import M6809.ConditionCodes

namespace M6809

/-- The address that holds the address of the first instruction after a reset. -/
def resetVector : Word := 0xFFFE

inductive Interrupt where
  | nmi
  | firq
  | irq
deriving DecidableEq, Repr

namespace Interrupt

def name : Interrupt → String
  | nmi => "Nmi"
  | firq => "Firq"
  | irq => "Irq"

def vector : Interrupt → Word
  | firq => 0xFFF6
  | irq => 0xFFF8
  | nmi => 0xFFFC

def masks : Interrupt → Byte
  | nmi | firq => Flag.irqMask ||| Flag.firqMask
  | irq => Flag.irqMask

/-- FIRQ is fast: its frame holds PC and CC only. -/
def stacksEntire : Interrupt → Bool
  | nmi | irq => true
  | firq => false

/-- Cycles of an entry that stacks its frame. -/
def cycles : Interrupt → Nat
  | nmi | irq => 19
  | firq => 10

/-- NMI has no mask. -/
def isEnabled (kind : Interrupt) (cc : ConditionCodes) : Bool :=
  match kind with
  | nmi => true
  | firq => !cc.firqMask
  | irq => !cc.irqMask

/-- From the highest priority down. -/
def priority : List Interrupt := [nmi, firq, irq]

end Interrupt

inductive SoftwareInterrupt where
  | swi
  | swi2
  | swi3
deriving DecidableEq, Repr

namespace SoftwareInterrupt

def mnemonic : SoftwareInterrupt → String
  | swi => "SWI"
  | swi2 => "SWI2"
  | swi3 => "SWI3"

def name : SoftwareInterrupt → String
  | swi => "Swi"
  | swi2 => "Swi2"
  | swi3 => "Swi3"

def vector : SoftwareInterrupt → Word
  | swi3 => 0xFFF2
  | swi2 => 0xFFF4
  | swi => 0xFFFA

/-- The flags set once the frame is stacked: SWI alone masks interrupts. -/
def masks : SoftwareInterrupt → Byte
  | swi => Flag.irqMask ||| Flag.firqMask
  | swi2 | swi3 => 0

end SoftwareInterrupt

structure Latches where
  nmi : Bool
  firq : Bool
  irq : Bool
deriving DecidableEq, Repr

namespace Latches

def clear : Latches := ⟨false, false, false⟩

def get (latches : Latches) : Interrupt → Bool
  | .nmi => latches.nmi
  | .firq => latches.firq
  | .irq => latches.irq

def set (latches : Latches) (kind : Interrupt) (on : Bool) : Latches :=
  match kind with
  | .nmi => { latches with nmi := on }
  | .firq => { latches with firq := on }
  | .irq => { latches with irq := on }

def any (latches : Latches) : Bool := latches.nmi || latches.firq || latches.irq

/-- The interrupt to enter: the first in priority that is latched and not masked. -/
def pending? (latches : Latches) (cc : ConditionCodes) : Option Interrupt :=
  Interrupt.priority.find? fun kind => latches.get kind && kind.isEnabled cc

@[simp] theorem get_set (latches : Latches) (kind other : Interrupt) (on : Bool) :
    (latches.set kind on).get other = if other = kind then on else latches.get other := by
  cases kind <;> cases other <;> rfl

theorem any_eq_true_iff (latches : Latches) :
    latches.any = true ↔ ∃ kind, latches.get kind = true := by
  simp only [any, Bool.or_eq_true]
  constructor
  · rintro ((h | h) | h)
    · exact ⟨.nmi, h⟩
    · exact ⟨.firq, h⟩
    · exact ⟨.irq, h⟩
  · rintro ⟨kind, h⟩
    cases kind with
    | nmi => exact .inl (.inl h)
    | firq => exact .inl (.inr h)
    | irq => exact .inr h

end Latches

end M6809
