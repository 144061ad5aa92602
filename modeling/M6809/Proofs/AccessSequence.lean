import M6809.Proofs.ListingAgreement
import M6809.Proofs.StackAccesses

namespace M6809

open BusAccess

namespace Registers

section
variable (r : Registers) (reg : IndexRegister)

theorem index_setPc (pc : Word) : ({ r with pc } : Registers).index reg = r.index reg := by
  cases reg <;> rfl

theorem index_setIndex (value : Word) : (r.setIndex reg value).index reg = value := by
  cases reg <;> rfl

theorem setIndex_index : r.setIndex reg (r.index reg) = r := by
  cases reg <;> rfl

end

end Registers

namespace IndexForm

/-- How far a form moves its base register. -/
def motion : IndexForm → Int
  | increment .one => 1
  | increment .two => 2
  | decrement .one => -1
  | decrement .two => -2
  | _ => 0

theorem ofInt_motion_increment (step : AutoStep) :
    BitVec.ofInt 16 (increment step).motion = step.distance := by
  cases step <;> rfl

theorem ofInt_motion_decrement (step : AutoStep) :
    BitVec.ofInt 16 (decrement step).motion = -step.distance := by
  cases step <;> rfl

end IndexForm

namespace OperandForm

/-- The address of an operand, with the accesses on the way to it and PC behind the instruction.
An immediate or implied operand has none that matters. -/
def Locates (r : Registers) (accesses : List BusAccess) (address : Word) : OperandForm → Prop
  | direct low => accesses = [] ∧ address = Word.ofBytes r.dp low
  | extended stated | target stated => accesses = [] ∧ address = stated
  | indexed mode fetched =>
      if mode.indirect then
        ∃ high low, accesses = readsFrom (mode.address r fetched) [high, low] ∧
          address = Word.ofBytes high low
      else accesses = [] ∧ address = mode.address r fetched
  | _ => accesses = []

/-- The registers once the operand is found. -/
def moved (r : Registers) : OperandForm → Registers
  | indexed mode _ =>
      r.setIndex mode.register (r.index mode.register + BitVec.ofInt 16 mode.form.motion)
  | _ => r

theorem moved_of_motion_eq_zero {mode : IndexedMode} (h : mode.form.motion = 0) (fetched : Word)
    (r : Registers) : (indexed mode fetched).moved r = r := by
  have hzero : BitVec.ofInt 16 0 = 0#16 := rfl
  rw [moved, h, hzero, BitVec.add_zero, Registers.setIndex_index]

theorem moved_eq_moveBase (mode : IndexedMode) (fetched : Word) (r : Registers) :
    (indexed mode fetched).moved r = mode.moveBase r := by
  obtain ⟨form, register, indirect⟩ := mode
  cases form with
  | increment step =>
      rw [moved, IndexForm.ofInt_motion_increment]
      rfl
  | decrement step =>
      rw [moved, IndexForm.ofInt_motion_decrement, ← BitVec.sub_eq_add_neg]
      rfl
  | _ => exact moved_of_motion_eq_zero rfl fetched r

theorem ensures_locate_accesses (form : OperandForm) (r : Registers) :
    (form.locate r).Ensures fun events operand =>
      form.Locates r (events.filterMap Event.access?) operand.address ∧
        operand.regs = form.moved r := by
  cases form with
  | indexed mode fetched =>
      cases h : mode.indirect with
      | false => simp [locate, Operand.ofMode, Locates, moved_eq_moveBase, h]
      | true =>
          simp only [locate, Operand.ofMode, Locates, moved_eq_moveBase, h, if_true,
            BusM.ensures_bind, BusM.ensures_readWord, BusM.ensures_pure]
          intro high low
          exact ⟨⟨high, low, rfl, rfl⟩, trivial⟩
  | direct low => exact ⟨⟨rfl, rfl⟩, rfl⟩
  | extended address | target address => exact ⟨⟨rfl, rfl⟩, rfl⟩
  | implied | registers stack mask | transfer postbyte | immediateByte value
  | immediateWord value => exact ⟨rfl, rfl⟩

end OperandForm

namespace Listing

end Listing

namespace Registers

end Registers

namespace Operation

end Operation

namespace Listing

end Listing

namespace Processor

section
variable {β : Type} [Bus β] {p : Processor} {bus : β}

end

end Processor

end M6809
