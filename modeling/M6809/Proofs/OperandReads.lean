import M6809.Proofs.FlagOwnership
import M6809.Proofs.OperandAddress
import Mathlib.Data.List.DropRight

namespace M6809

open BusAccess

/-- The byte that goes over the bus. -/
def BusAccess.value : BusAccess → Byte
  | read _ value => value
  | write _ value => value

theorem BusAccess.map_value_readsFrom (address : Word) (bytes : List Byte) :
    (readsFrom address bytes).map value = bytes := by
  induction bytes generalizing address with
  | nil => rfl
  | cons first rest ih => exact congrArg (List.cons first) (ih _)

theorem BusAccess.eq_of_readsFrom {address : Word} {bytes : List Byte}
    {accesses : List BusAccess} (h : accesses = readsFrom address bytes) :
    accesses.map value = bytes := by
  rw [h, map_value_readsFrom]

theorem Word.ofBigEndian_singleton (value : Byte) :
    (ofBigEndian [value]).lowByte = value := by
  simp [ofBigEndian]

namespace Operation

/-- Operations on a value that they leave where it is. -/
def onlyReads : Operation → Bool
  | modify .tst _ | byte _ _ | word _ _ => true
  | _ => false

/-- The bytes of an operand that is not in the instruction's own register. -/
def operandWidth : Operation → Nat
  | modify _ .memory | byte _ _ => 1
  | word _ _ => 2
  | _ => 0

/-- The flags that the result comes with, of which the operation owns some. -/
def resultFlags (r : Registers) (operand : Word) : Operation → Byte
  | modify op .memory => (op.compute operand.lowByte r.cc.carry).flags
  | modify op (.accumulator acc) => (op.compute (r.acc acc) r.cc.carry).flags
  | byte op acc => (op.compute (r.acc acc) operand.lowByte r.cc.carry).flags
  | word op reg => (op.compute (r.wide reg) operand).flags
  | _ => 0

def flagsAfter (op : Operation) (r : Registers) (operand : Word) : ConditionCodes :=
  r.cc.update op.ownedFlags (op.resultFlags r operand)

/-- Keeps a result in its register, where the operation keeps one. -/
def keep (r : Registers) (value : Word) : Operation → Registers
  | byte op acc => if op.keepsResult then r.setAcc acc value.lowByte else r
  | word op reg => if op.keepsResult then r.setWide reg value else r
  | _ => r

/-- The registers behind an operation that found an operand. -/
def Combines (op : Operation) (r : Registers) (operand : List Byte) (after : Registers) : Prop :=
  operand.length = op.operandWidth ∧ ∃ value, after =
    op.keep { r with cc := op.flagsAfter r (Word.ofBigEndian operand) } value

section
variable {op : Operation}

theorem keep_pc (r : Registers) (value pc : Word) :
    op.keep { r with pc } value = { op.keep r value with pc } := by
  cases op with
  | byte op acc => cases op <;> cases acc <;> rfl
  | word op reg => cases op <;> cases reg <;> rfl
  | _ => rfl

theorem ensures_perform_combines (h : op.onlyReads = true) (page : Page) (address : Word)
    (r : Registers) :
    (op.perform page address r).Ensures fun events effect => ∃ operand,
      events.filterMap Event.access? = readsFrom address operand ∧
        effect.state = .running ∧ op.Combines r operand effect.regs := by
  cases op with
  | modify op target =>
      cases op with
      | tst =>
          cases target with
          | memory =>
              intro value
              refine ⟨[value], rfl, rfl, rfl, 0, ?_⟩
              rw [flagsAfter, resultFlags, Word.ofBigEndian_singleton]
              rfl
          | accumulator acc => exact ⟨[], rfl, rfl, rfl, 0, by cases acc <;> rfl⟩
      | _ => cases h
  | byte op acc =>
      intro value
      have hmask := op.mask_compute (r.acc acc) value r.cc.carry
      refine ⟨[value], rfl, rfl, rfl, Word.ofBytes 0
        (op.compute (r.acc acc) value r.cc.carry).value, ?_⟩
      rw [flagsAfter, resultFlags, Word.ofBigEndian_singleton, ownedFlags, ← hmask, keep,
        Word.lowByte_ofBytes]
      rfl
  | word op reg =>
      intro high low
      have hmask := op.mask_compute (r.wide reg) (Word.ofBytes high low)
      refine ⟨[high, low], rfl, rfl, rfl,
        (op.compute (r.wide reg) (Word.ofBytes high low)).value, ?_⟩
      rw [flagsAfter, resultFlags, Word.ofBigEndian_pair, ownedFlags, ← hmask, keep]
      rfl
  | _ => cases h

end

end Operation

namespace BusAccess

/-- Reads alone, the last of them for the bytes of an operand. -/
def ReadsLast (operand : List Byte) (accesses : List BusAccess) : Prop :=
  ∃ front address, accesses = front ++ readsFrom address operand ∧
    front.filterMap write? = []

theorem ReadsLast.writes_eq_nil {operand : List Byte} {accesses : List BusAccess}
    (h : ReadsLast operand accesses) : accesses.filterMap write? = [] := by
  obtain ⟨front, address, rfl, hfront⟩ := h
  rw [List.filterMap_append, hfront, filterMap_write?_readsFrom]
  rfl

theorem ReadsLast.rtake_values {operand : List Byte} {accesses : List BusAccess}
    (h : ReadsLast operand accesses) :
    (accesses.map value).rtake operand.length = operand := by
  obtain ⟨front, address, rfl, -⟩ := h
  rw [List.map_append, map_value_readsFrom, List.rtake, List.length_append, Nat.add_sub_cancel,
    List.drop_left]

end BusAccess

namespace OperandForm

theorem Locates.writes_eq_nil {form : OperandForm} {r : Registers} {accesses : List BusAccess}
    {address : Word} (h : form.Locates r accesses address) :
    accesses.filterMap write? = [] := by
  cases form with
  | indexed mode fetched =>
      by_cases hindirect : mode.indirect = true
      · simp only [Locates, if_pos hindirect] at h
        obtain ⟨high, low, rfl, -⟩ := h
        exact filterMap_write?_readsFrom _ _
      · simp only [Locates, if_neg hindirect] at h
        rw [h.1]
        rfl
  | direct low | extended stated | target stated =>
      rw [h.1]
      rfl
  | implied | registers stack mask | transfer postbyte | immediateByte value
  | immediateWord value =>
      rw [show accesses = [] from h]
      rfl

theorem Encodes.locates_immediate {o : Opcode} {next : Word} {bytes : List Byte}
    {form : OperandForm} (h : form.Encodes o next bytes) (hmode : o.mode = .immediate)
    {r : Registers} {accesses : List BusAccess} {address : Word}
    (hlocates : form.Locates r accesses address) : accesses = [] := by
  cases h with
  | registers | transfer | immediateByte | immediateWord => exact hlocates
  | _ => simp_all

theorem Encodes.ensures_supply_combines {o : Opcode} {next : Word} {bytes : List Byte}
    {form : OperandForm} (h : form.Encodes o next bytes) (hop : o.operation.onlyReads = true)
    (address : Word) (r : Registers) :
    ((o.operation.perform o.page address r).supply form.immediateBytes).Ensures
      fun events effect => ∃ operand,
        effect.state = .running ∧ o.operation.Combines r operand effect.regs ∧
        if o.mode = .immediate then events.filterMap Event.access? = [] ∧ operand = bytes
        else events.filterMap Event.access? = readsFrom address operand := by
  have hperform := Operation.ensures_perform_combines hop o.page address r
  -- in immediate mode the operand is at hand, in any other it is read at its address
  by_cases hmode : o.mode = .immediate
  · simp only [if_pos hmode]
    cases h with
    | immediateByte value _ hbyte =>
        rcases hbyte with ⟨op, acc, heq⟩ | heq | heq | heq
        · rw [heq] at hperform ⊢
          obtain ⟨operand, haccesses, hstate, hcombines⟩ := hperform value
          rw [← eq_of_readsFrom haccesses] at hcombines
          exact ⟨[value], hstate, hcombines, rfl, rfl⟩
        all_goals
          rw [heq] at hop
          cases hop
    | immediateWord high low _ hword =>
        obtain ⟨op, reg, heq⟩ := hword
        rw [heq] at hperform ⊢
        obtain ⟨operand, haccesses, hstate, hcombines⟩ := hperform high low
        rw [← eq_of_readsFrom haccesses] at hcombines
        simp only [OperandForm.immediateBytes, Word.bytes, Word.highByte_ofBytes,
          Word.lowByte_ofBytes]
        exact ⟨[high, low], hstate, hcombines, rfl, rfl⟩
    | registers stack mask _ hregisters | transfer postbyte _ hregisters =>
        rcases hregisters with heq | heq <;> rw [heq] at hop <;> cases hop
    | _ => simp_all
  · simp only [if_neg hmode]
    rw [h.immediateBytes_eq_nil hmode, BusM.supply_nil]
    refine hperform.imp ?_
    rintro events effect ⟨operand, haccesses, hstate, hcombines⟩
    exact ⟨operand, hstate, hcombines, haccesses⟩

end OperandForm

namespace Listing

theorem WellFormed.ensures_carryOut_combines {l : Listing} (h : l.WellFormed)
    (hop : l.opcode.operation.onlyReads = true) (r : Registers) :
    (l.carryOut r).Ensures fun events done => ∃ operand,
      done.state = .running ∧
        l.opcode.operation.Combines (l.operandRegisters r) operand done.regs ∧
        ReadsLast operand (readsFrom l.address l.bytes ++ events.filterMap Event.access?) := by
  obtain ⟨bytes, hspelling, hspelled⟩ := h.spelled
  unfold carryOut Registers.carryOut
  rw [BusM.ensures_bind]
  refine (l.operand.ensures_locate_accesses _).imp ?_
  rintro pointer operand ⟨hlocates, hmoved⟩
  rw [BusM.ensures_bind]
  refine (hspelled.ensures_supply_combines hop operand.address operand.regs).imp ?_
  rintro data effect ⟨value, hstate, hcombines, hdata⟩
  rw [hmoved] at hcombines
  refine ⟨value, hstate, hcombines, ?_⟩
  rw [List.append_nil, List.filterMap_append]
  by_cases hmode : l.opcode.mode = .immediate
  · rw [if_pos hmode] at hdata
    obtain ⟨hdata, rfl⟩ := hdata
    rw [hspelled.locates_immediate hmode hlocates, hdata, hspelling, readsFrom_append]
    exact ⟨_, _, (List.append_nil _), filterMap_write?_readsFrom _ _⟩
  · rw [if_neg hmode] at hdata
    refine ⟨readsFrom l.address l.bytes ++ pointer.filterMap Event.access?, operand.address,
      ?_, ?_⟩
    · rw [hdata, List.append_assoc]
    · rw [List.filterMap_append, filterMap_write?_readsFrom, hlocates.writes_eq_nil]
      rfl

end Listing

namespace Machine

variable {β : Type} [Bus β]

/-- The word that the last accesses of a step carry: the operand of an instruction that reads it
last. Of an immediate operand these are the last bytes of the instruction. -/
def operandRead (m : Machine β) (width : Nat) : Word :=
  Word.ofBigEndian ((m.stepOutcome.accesses.map value).rtake width)

section
variable {m : Machine β} {l : Listing} (h : m.executing? = some l)
include h

theorem step_combines (hop : l.opcode.operation.onlyReads = true) :
    ∃ operand, l.opcode.operation.Combines (l.operandRegisters m.processor.regs) operand
        m.step.processor.regs ∧
      m.operandRead l.opcode.operation.operandWidth = Word.ofBigEndian operand ∧
      m.stepOutcome.writes = [] ∧ m.step.processor.state = .running ∧
      m.step.processor.latches = m.processor.latches ∧
      ∃ cycles, m.stepOutcome.result.cycles = .ok cycles := by
  obtain ⟨hpending, hidle, hlisted⟩ := executing?_eq_some_iff.mp h
  obtain ⟨hwell, hresult⟩ := stepOutcome_of_executing? h
  obtain ⟨haddress, -, hread⟩ := Listing.run_read_of_ok hlisted
  obtain ⟨operand, hstate, hcombines, hlast⟩ :=
    (hwell.ensures_carryOut_combines hop m.processor.regs).run
      ((Listing.read m.processor.regs.pc).run m.bus).bus
  rw [← BusM.accesses_run, haddress, ← hread, ← accesses_stepOutcome_of_executing? h] at hlast
  have hwidth := hlast.rtake_values
  rw [hcombines.1] at hwidth
  refine ⟨operand, ?_, ?_, hlast.writes_eq_nil, ?_, ?_, ?_⟩
  · rw [step, hresult]
    exact hcombines
  · rw [operandRead, hwidth]
  · rw [step, hresult]
    exact hstate
  · rw [step, hresult]
    rfl
  · rw [hresult]
    exact ⟨_, rfl⟩

end

theorem step_combines_bytesFrom {m : Machine Memory} {l : Listing} (h : m.executing? = some l)
    (hop : l.opcode.operation.onlyReads = true) :
    l.opcode.operation.Combines (l.operandRegisters m.processor.regs)
      (m.bus.bytesFrom (l.operandAddress m.processor.regs m.bus)
        l.opcode.operation.operandWidth) m.step.processor.regs := by
  cases huses : l.opcode.operation.usesAddress with
  | true =>
      obtain ⟨-, hregs, -⟩ := step_at_operand h huses
      obtain ⟨operand, haccesses, -, hcombines⟩ :=
        (Operation.ensures_perform_combines hop l.opcode.page
          (l.operandAddress m.processor.regs m.bus)
          (l.operandRegisters m.processor.regs)).run m.bus
      rw [← BusM.accesses_run] at haccesses
      rw [hregs, ← hcombines.1, BusM.bytesFrom_of_accesses haccesses]
      exact hcombines
  | false =>
      have hwidth : l.opcode.operation.operandWidth = 0 := by
        cases heq : l.opcode.operation with
        | modify op target =>
            cases target with
            | memory => simp [heq, Operation.usesAddress] at huses
            | accumulator acc => rfl
        | byte _ _ | word _ _ => simp [heq, Operation.usesAddress] at huses
        | _ => rfl
      obtain ⟨operand, hcombines, -⟩ := step_combines h hop
      have hnil : operand = [] := List.eq_nil_of_length_eq_zero (hcombines.1.trans hwidth)
      rw [hwidth]
      rw [hnil] at hcombines
      exact hcombines

end Machine

end M6809
