import M6809.Proofs.OperandAddress
import M6809.Proofs.StackMemory

namespace M6809

namespace Opcode

/-- Rows that hold the same operations, each row under an addressing mode of its own. -/
inductive RowGroup where
  | memory
  | lower
  | upper
deriving DecidableEq, Repr

def rowGroup? (code : Byte) : Option RowGroup :=
  match code.toNat / 16 with
  | 0x0 | 0x6 | 0x7 => some .memory
  | 0x8 | 0x9 | 0xA | 0xB => some .lower
  | 0xC | 0xD | 0xE | 0xF => some .upper
  | _ => none

def SameColumn (code code' : Byte) : Prop :=
  code.toNat % 16 = code'.toNat % 16 ∧
    ∃ group, rowGroup? code = some group ∧ rowGroup? code' = some group

namespace RowGroup

/-- The code of a column in the row of the extended mode, the last of each group. -/
def extendedCode (group : RowGroup) (column : Nat) : Byte :=
  match group with
  | memory => BitVec.ofNat 8 (0x70 + column)
  | lower => BitVec.ofNat 8 (0xB0 + column)
  | upper => BitVec.ofNat 8 (0xF0 + column)

end RowGroup

theorem operation_extended_of_mem_all :
    ∀ o ∈ all, ∀ group ∈ rowGroup? o.code, o.operation ≠ .bsr →
      o.operation.usesAddress = true ∧
        (ofCode? o.page (group.extendedCode (o.code.toNat % 16))).map (·.operation) =
          some o.operation := by
  decide +kernel

theorem operation_eq_of_sameColumn {o o' : Opcode} (ho : ofCode? o.page o.code = some o)
    (ho' : ofCode? o'.page o'.code = some o') (hpage : o'.page = o.page)
    (hcolumn : SameColumn o.code o'.code) (hbsr : o.operation ≠ .bsr)
    (hbsr' : o'.operation ≠ .bsr) :
    o.operation.usesAddress = true ∧ o'.operation = o.operation := by
  obtain ⟨hnibble, group, hgroup, hgroup'⟩ := hcolumn
  -- both places are compared with the extended one, so that the table is gone through once
  obtain ⟨huses, hextended⟩ :=
    operation_extended_of_mem_all o (mem_all_iff.mpr ho) group hgroup hbsr
  obtain ⟨-, hextended'⟩ :=
    operation_extended_of_mem_all o' (mem_all_iff.mpr ho') group hgroup' hbsr'
  rw [hpage, ← hnibble, hextended] at hextended'
  exact ⟨huses, (Option.some.inj hextended').symm⟩

end Opcode

namespace OperandForm

/-- A form that moves its base register. -/
def isAutomatic : OperandForm → Bool
  | indexed ⟨.increment _, _, _⟩ _ | indexed ⟨.decrement _, _, _⟩ _ => true
  | _ => false

theorem moved_of_not_automatic {form : OperandForm} (h : form.isAutomatic = false)
    (r : Registers) : form.moved r = r := by
  rcases form with _ | _ | _ | _ | _ | _ | _ | ⟨⟨form, register, indirect⟩, fetched⟩ | _
  case indexed =>
    cases form with
    | increment step | decrement step => cases h
    | _ => exact moved_of_motion_eq_zero rfl fetched r
  all_goals rfl

end OperandForm

namespace Registers

/-- The same in all registers but PC. -/
def SameButPc (r r' : Registers) : Prop := r' = { r with pc := r'.pc }

theorem bus_run_call (r : Registers) (address : Word) (m : Memory) :
    ((r.call address).run m).bus = m.load (r.s - 2) r.pc.bytes := by
  have hfew : r.pc.bytes.length ≤ 65536 := by simp [Word.bytes]
  exact r.bus_run_pushBytes .s m hfew

end Registers

namespace Operation

section
variable {op : Operation} (hop : op.usesAddress = true) (page : Page) (address : Word)
  (r : Registers) (m : Memory)
include hop

theorem sameButPc_run_perform (next : Word) :
    Registers.SameButPc ((op.perform page address r).run m).result.regs
      ((op.perform page address { r with pc := next }).run m).result.regs := by
  -- of these operations only JSR looks at PC, and only to stack it
  cases op with
  | modify op target =>
      cases target with
      | memory => cases op <;> rfl
      | accumulator reg => cases hop
  | byte op reg => cases reg <;> cases op <;> rfl
  | word op reg => cases reg <;> cases op <;> rfl
  | storeByte reg | storeWord reg => cases reg <;> rfl
  | jmp | jsr => rfl
  | _ => cases hop

theorem bus_run_perform_of_ne_jsr (hjsr : op ≠ .jsr) (next : Word) :
    ((op.perform page address { r with pc := next }).run m).bus =
      ((op.perform page address r).run m).bus := by
  cases op with
  | modify op target =>
      cases target with
      | memory => cases op <;> rfl
      | accumulator reg => cases hop
  | byte op reg | word op reg | jmp => rfl
  | storeByte reg | storeWord reg => cases reg <;> rfl
  | jsr => contradiction
  | _ => cases hop

theorem pc_run_perform :
    ((op.perform page address r).run m).result.regs.pc =
      if op = .jmp ∨ op = .jsr then address else r.pc := by
  split
  · rename_i hjump
    rcases hjump with rfl | rfl <;> rfl
  · rename_i hjump
    have hsequential : op.isSequential = true := by
      cases op <;> simp_all [usesAddress, isSequential]
    exact (ensures_perform_pc page address r hsequential).run m

end

end Operation

namespace Machine

variable {m m' : Machine Memory} {l l' : Listing}

/-- Of two places in a column, what matters is where they find their operand. -/
theorem columns_are_interchangeable (hbus : m'.bus = m.bus)
    (hregs : m.processor.regs.SameButPc m'.processor.regs)
    (h : m.executing? = some l) (h' : m'.executing? = some l')
    (hpage : l'.opcode.page = l.opcode.page)
    (hcolumn : Opcode.SameColumn l.opcode.code l'.opcode.code)
    (hbsr : l.opcode.operation ≠ .bsr) (hbsr' : l'.opcode.operation ≠ .bsr)
    (hfixed : l.operand.isAutomatic = false) (hfixed' : l'.operand.isAutomatic = false)
    (haddress : l'.operandAddress m'.processor.regs m'.bus =
      l.operandAddress m.processor.regs m.bus) :
    (∃ cycles, m.stepOutcome.result.cycles = .ok cycles) ∧
    (∃ cycles, m'.stepOutcome.result.cycles = .ok cycles) ∧
    l'.opcode.operation = l.opcode.operation ∧
    m.step.processor.regs.SameButPc m'.step.processor.regs ∧
    (if l.opcode.operation = .jsr then
      m.step.bus = m.bus.load (m.processor.regs.s - 2) l.nextAddress.bytes ∧
        m'.step.bus = m.bus.load (m.processor.regs.s - 2) l'.nextAddress.bytes
    else m'.step.bus = m.step.bus) ∧
    if l.opcode.operation = .jmp ∨ l.opcode.operation = .jsr then
      m.step.processor.regs.pc = l.operandAddress m.processor.regs m.bus ∧
        m'.step.processor.regs.pc = m.step.processor.regs.pc
    else m.step.processor.regs.pc = l.nextAddress ∧ m'.step.processor.regs.pc = l'.nextAddress := by
  obtain ⟨hwell, -⟩ := stepOutcome_of_executing? h
  obtain ⟨hwell', -⟩ := stepOutcome_of_executing? h'
  obtain ⟨hop, heq⟩ :=
    Opcode.operation_eq_of_sameColumn hwell.defined hwell'.defined hpage hcolumn hbsr hbsr'
  obtain ⟨hok, hdone, -, -, hafter⟩ := step_at_operand h hop
  obtain ⟨hok', hdone', -, -, hafter'⟩ := step_at_operand h' (heq ▸ hop)
  -- both steps perform one operation, at one address and with the registers of `m` but for PC
  rw [haddress, hpage, heq, hbus] at hdone' hafter'
  simp only [Listing.operandRegisters, OperandForm.moved_of_not_automatic hfixed] at hdone hafter
  simp only [Listing.operandRegisters, OperandForm.moved_of_not_automatic hfixed'] at hdone' hafter'
  rw [hregs] at hdone' hafter'
  generalize l.operandAddress m.processor.regs m.bus = address at *
  have hpc := Operation.pc_run_perform hop l.opcode.page address
  refine ⟨hok, hok', heq, ?_, ?_, ?_⟩
  · rw [hdone, hdone']
    exact Operation.sameButPc_run_perform hop _ _ _ _ l'.nextAddress
  · split
    · rename_i hjsr
      rw [hafter, hafter', hjsr]
      exact ⟨Registers.bus_run_call _ address _, Registers.bus_run_call _ address _⟩
    · rename_i hjsr
      rw [hafter, hafter']
      exact Operation.bus_run_perform_of_ne_jsr hop _ address
        { m.processor.regs with pc := l.nextAddress } _ hjsr l'.nextAddress
  · rw [hdone, hdone', hpc, hpc]
    split
    · exact ⟨rfl, rfl⟩
    · exact ⟨rfl, rfl⟩

/-- JSR through X and to the address that X holds. -/
theorem indexed_and_extended_calls :
    let bus := (Memory.zero.load 0x2000 [0xAD, 0x84]).load 0x3000 [0xBD, 0x40, 0x00]
    let regs : Registers := { Registers.initial with x := 0x4000, s := 0x8000, pc := 0x2000 }
    let m : Machine Memory := ⟨{ Processor.initial with regs := regs }, bus⟩
    let m' : Machine Memory := ⟨{ Processor.initial with regs := { regs with pc := 0x3000 } }, bus⟩
    let l : Listing := ⟨0x2000, [0xAD, 0x84], ⟨.zero, 0xAD, .jsr, .indexed⟩,
      .indexed ⟨.plain, .x, false⟩ 0⟩
    let l' : Listing := ⟨0x3000, [0xBD, 0x40, 0x00], ⟨.zero, 0xBD, .jsr, .extended⟩,
      .extended 0x4000⟩
    m.executing? = some l ∧ m'.executing? = some l' ∧
      Opcode.SameColumn l.opcode.code l'.opcode.code ∧
      m.step.processor.regs.SameButPc m'.step.processor.regs ∧
      m.step.bus = bus.load 0x7FFE [0x20, 0x02] ∧ m'.step.bus = bus.load 0x7FFE [0x30, 0x03] ∧
      m.step.processor.regs.pc = 0x4000 ∧ m'.step.processor.regs.pc = 0x4000 := by
  intro bus regs m m' l l'
  have h : m.executing? = some l := by decide +kernel
  have h' : m'.executing? = some l' := by decide +kernel
  have hcolumn : Opcode.SameColumn l.opcode.code l'.opcode.code :=
    ⟨by decide, .lower, by decide, by decide⟩
  have hbus : m'.bus = m.bus := rfl
  have hsame : m.processor.regs.SameButPc m'.processor.regs := rfl
  obtain ⟨-, -, -, hregs, ⟨hstacked, hstacked'⟩, hpc, hpc'⟩ :=
    columns_are_interchangeable hbus hsame h h' rfl hcolumn (by decide) (by decide) rfl rfl rfl
  have htop : m.processor.regs.s - 2 = 0x7FFE := by decide
  have hnext : l.nextAddress.bytes = [0x20, 0x02] := by decide
  have hnext' : l'.nextAddress.bytes = [0x30, 0x03] := by decide
  rw [htop, hnext] at hstacked
  rw [htop, hnext'] at hstacked'
  exact ⟨h, h', hcolumn, hregs, hstacked, hstacked', hpc, hpc'.trans hpc⟩

end Machine

end M6809
