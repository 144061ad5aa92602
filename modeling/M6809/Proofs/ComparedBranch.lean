import M6809.Proofs.ByteChains
import M6809.Proofs.FlagOwnership
import M6809.Proofs.OperandAddress
import M6809.Proofs.WaitForInterrupt

namespace M6809

namespace Operation

/-- What a branch code says of the register and the operand of a subtraction. -/
def comparison? (op : Operation) (code : Nat) (address : Word) (r : Registers) (m : Memory) :
    Option Bool :=
  match op with
  | byte .sub acc | byte .cmp acc => Condition.comparison? (r.acc acc) (m.read address) code
  | word .sub reg | word .cmp reg => Condition.comparison? (r.wide reg) (m.readWord address) code
  | _ => none

section
variable {op : Operation} {code : Nat} {address : Word} {r : Registers} {m : Memory}
  {answer : Bool} (h : op.comparison? code address r m = some answer)
include h

theorem usesAddress_of_comparison : op.usesAddress = true := by
  cases op with
  | byte op acc | word op reg => rfl
  | _ => cases h

theorem code_lt_of_comparison : 0 < code ∧ code < 16 := by
  cases op with
  | byte op acc | word op reg =>
      cases op with
      | sub | cmp => exact Condition.code_lt_of_comparison h
      | _ => cases h
  | _ => cases h

theorem run_perform_of_comparison (page : Page) :
    let performed := (op.perform page address r).run m
    (Condition.ofCode code).holds performed.result.regs.cc = answer ∧
      performed.result.regs.pc = r.pc ∧ performed.result.state = .running ∧
      performed.bus = m := by
  cases op with
  | byte op acc =>
      cases op with
      | sub =>
          have hholds := Condition.holds_sub_of_comparison _ _ r.cc h
          refine ⟨Eq.trans (congrArg (Condition.ofCode code).holds ?_) hholds,
            Registers.pc_setAcc _ acc _, rfl, rfl⟩
          exact Registers.cc_setAcc _ acc _
      | cmp => exact ⟨Condition.holds_sub_of_comparison _ _ r.cc h, rfl, rfl, rfl⟩
      | _ => cases h
  | word op reg =>
      cases op with
      | sub =>
          have hholds := Condition.holds_sub_of_comparison _ _ r.cc h
          refine ⟨Eq.trans (congrArg (Condition.ofCode code).holds ?_) hholds,
            Registers.pc_setWide _ reg _, rfl, rfl⟩
          exact Registers.cc_setWide _ reg _
      | cmp => exact ⟨Condition.holds_sub_of_comparison _ _ r.cc h, rfl, rfl, rfl⟩
      | _ => cases h
  | _ => cases h

end

end Operation

/-- The bytes of a branch on a code, and how far it goes from behind them. -/
inductive BranchBytes (code : Nat) : List Byte → Int → Prop
  | short (offset : Byte) : BranchBytes code [0x20 + BitVec.ofNat 8 code, offset] offset.toInt
  | long (high low : Byte) :
      BranchBytes code [0x10, 0x20 + BitVec.ofNat 8 code, high, low]
        (256 * high.toInt + low.toNat)

namespace Opcode

theorem ofCode?_shortBranch : ∀ code < 16, ofCode? .zero (0x20 + BitVec.ofNat 8 code) =
    some ⟨.zero, 0x20 + BitVec.ofNat 8 code, .branch (Condition.ofCode code), .relative⟩ := by
  decide

theorem ofCode?_longBranch : ∀ code < 16, 0 < code →
    ofCode? .one (0x20 + BitVec.ofNat 8 code) =
      some ⟨.one, 0x20 + BitVec.ofNat 8 code, .branch (Condition.ofCode code), .longRelative⟩ := by
  decide

end Opcode

namespace Listing

/-- What a branch code says of the register that the instruction compares and of its operand. -/
def comparison? (l : Listing) (code : Nat) (r : Registers) (m : Memory) : Option Bool :=
  l.opcode.operation.comparison? code (l.operandAddress r m) (l.operandRegisters r) m

theorem exists_of_branchBytes {code : Nat} {bytes : List Byte} {distance : Int}
    (h : BranchBytes code bytes distance) (hpos : 0 < code) (hlt : code < 16) (address : Word) :
    ∃ b : Listing, b.WellFormed ∧ b.address = address ∧ b.bytes = bytes ∧
      b.opcode.operation = .branch (Condition.ofCode code) ∧
      b.operand = .target (b.nextAddress + BitVec.ofInt 16 distance) := by
  cases h with
  | short offset =>
      let b : Listing := ⟨address, [0x20 + BitVec.ofNat 8 code, offset],
        ⟨.zero, 0x20 + BitVec.ofNat 8 code, .branch (Condition.ofCode code), .relative⟩,
        .target (address + 2 + offset.displacement)⟩
      exact ⟨b, ⟨Opcode.ofCode?_shortBranch code hlt, [offset], rfl, .relative offset rfl⟩,
        rfl, rfl, rfl, rfl⟩
  | long high low =>
      let b : Listing := ⟨address, [0x10, 0x20 + BitVec.ofNat 8 code, high, low],
        ⟨.one, 0x20 + BitVec.ofNat 8 code, .branch (Condition.ofCode code), .longRelative⟩,
        .target (address + 4 + Word.ofBytes high low)⟩
      rw [← Word.toInt_ofBytes, BitVec.ofInt_toInt]
      exact ⟨b, ⟨Opcode.ofCode?_longBranch code hlt hpos, [high, low], rfl,
        .longRelative high low rfl⟩, rfl, rfl, rfl, rfl⟩

end Listing

namespace Machine

section
variable {β : Type} [Bus β] {m : Machine β}

theorem step_of_branch {b : Listing} {c : Condition} {target : Word} (h : m.executing? = some b)
    (hbranch : b.opcode.operation = .branch c) (htarget : b.operand = .target target) :
    (∃ cycles, m.stepOutcome.result.cycles = .ok cycles) ∧
      m.step.processor.regs.pc =
        if c.holds m.processor.regs.cc then target else b.nextAddress := by
  obtain ⟨hwell, hresult⟩ := stepOutcome_of_executing? h
  simp only [step, hresult]
  refine ⟨⟨_, rfl⟩, ?_⟩
  split
  · rename_i hholds
    have hjump : b.jumps m.processor.regs.cc = true := by
      simpa only [Listing.jumps, hbranch] using hholds
    exact (Listing.ensures_carryOut_jump hjump (.inl htarget)).run _
  · rename_i hholds
    have hcontrol : b.transfersControl m.processor.regs.cc = false := by
      simpa only [Listing.transfersControl, hbranch] using Bool.eq_false_iff.mpr hholds
    exact (hwell.ensures_carryOut_pc hcontrol).run _

end

section
variable {m : Machine Memory} {l b : Listing} {code : Nat} {answer : Bool}
  (h : m.executing? = some l)
  (hanswer : l.comparison? code m.processor.regs m.bus = some answer)
include h hanswer

theorem step_of_comparison :
    (Condition.ofCode code).holds m.step.processor.regs.cc = answer ∧
      m.step.processor.regs.pc = l.nextAddress ∧ m.step.processor.state = .running ∧
      m.step.bus = m.bus := by
  obtain ⟨-, hregs, hstate, -, hbus⟩ :=
    step_at_operand h (Operation.usesAddress_of_comparison hanswer)
  obtain ⟨hholds, hpc, hrunning, hkept⟩ :=
    Operation.run_perform_of_comparison hanswer l.opcode.page
  rw [hregs, hstate, hbus]
  exact ⟨hholds, hpc.trans (l.pc_operandRegisters _), hrunning, hkept⟩

theorem executing?_of_comparison {lines : List (Command Memory)}
    (hlisted : ((Listing.read l.nextAddress).run m.bus).result = .ok b)
    (hlines : ∀ command ∈ lines, command.isLine = true)
    (hpending : (m.step.run lines).processor.latches.pending?
      (m.step.run lines).processor.regs.cc = none) :
    (m.step.run lines).executing? = some b := by
  obtain ⟨-, hpc, hrunning, hbus⟩ := step_of_comparison h hanswer
  refine executing?_eq_some_iff.mpr ⟨hpending, ?_, ?_⟩
  · rw [run_of_isLine hlines]
    exact Processor.not_idles_of_running hrunning
  · rw [run_of_isLine hlines]
    simp only [withLatches, hpc, hbus]
    exact hlisted

end

/-- Of a register and an operand that are subtracted, the branch codes say how they compare. -/
theorem branch_follows_comparison :
    (∀ (w : Nat) (a b : BitVec (w + 1)) (cc : ConditionCodes),
      (∀ code answer, Condition.comparison? a b code = some answer →
        (Condition.ofCode code).holds ((Arithmetic.sub a b false).updateFlags cc) = answer) ∧
      ∀ borrow, let after := (Arithmetic.sub a b borrow).updateFlags cc
        (Condition.ofCode 0x5).holds after =
            decide ((a.toNat : Int) - b.toNat - borrow.toNat < 0) ∧
          (Condition.ofCode 0xD).holds after =
            decide (a.toInt - b.toInt - borrow.toNat < 0)) ∧
    ∀ (m : Machine Memory) (l : Listing) (code : Nat) (answer : Bool)
      (lines : List (Command Memory)) (branch : List Byte) (distance : Int),
      m.executing? = some l → l.comparison? code m.processor.regs m.bus = some answer →
      BranchBytes code branch distance →
      m.bus.bytesFrom l.nextAddress branch.length = branch →
      (∀ command ∈ lines, command.isLine = true) →
      let compared := m.step.run lines
      compared.processor.latches.pending? compared.processor.regs.cc = none →
      let behind := l.nextAddress + BitVec.ofNat 16 branch.length
      let target := behind + BitVec.ofInt 16 distance
      ∃ b cycles, compared.executing? = some b ∧ b.bytes = branch ∧
        b.opcode.operation = .branch (Condition.ofCode code) ∧ b.operand = .target target ∧
        compared.stepOutcome.result.cycles = .ok cycles ∧
        compared.step.processor.regs.pc = if answer then target else behind := by
  refine ⟨?_, ?_⟩
  · intro w a b cc
    refine ⟨fun code answer h => Condition.holds_sub_of_comparison a b cc h, ?_⟩
    intro borrow
    exact ⟨Condition.carrySet_holds_sub a b cc borrow, Condition.lessThan_holds_sub a b cc borrow⟩
  · intro m l code answer lines branch distance h hanswer hbranch hbytes hlines compared hpending
      behind target
    obtain ⟨hpos, hlt⟩ := Operation.code_lt_of_comparison hanswer
    obtain ⟨b, hwell, haddress, rfl, hop, htarget⟩ :=
      Listing.exists_of_branchBytes hbranch hpos hlt l.nextAddress
    have hbehind : b.nextAddress = behind := by
      rw [Listing.nextAddress, haddress]
      rfl
    rw [← haddress] at hbytes
    have hlisted : ((Listing.read l.nextAddress).run m.bus).result = .ok b :=
      Listing.result_read_eq_ok_iff.mpr ⟨haddress, hwell, hbytes⟩
    have hnext : compared.executing? = some b :=
      executing?_of_comparison h hanswer hlisted hlines hpending
    obtain ⟨⟨cycles, hcycles⟩, hpc⟩ := step_of_branch hnext hop htarget
    -- asserting and releasing lines leaves the flags of the comparison
    have hcc : compared.processor.regs.cc = m.step.processor.regs.cc := by
      simp only [compared, run_of_isLine hlines]
      rfl
    rw [hcc, (step_of_comparison h hanswer).1] at hpc
    rw [hbehind] at htarget hpc
    exact ⟨b, cycles, hnext, rfl, hop, htarget, hcycles, hpc⟩

/-- CMPX ,X++ and BLT back or LBLT forth, where X is negative once it has moved and the difference
overflows. IRQ is asserted between the two, and masked. -/
theorem moved_pointer_is_compared :
    let bus (branch : List Byte) :=
      ((Memory.zero.load 0x2000 [0xAC, 0x81]).load 0x2002 branch).load 0x7FFE [0x00, 0x01]
    let regs : Registers := { Registers.initial with x := 0x7FFE, pc := 0x2000 }
    let m (branch : List Byte) : Machine Memory :=
      ⟨{ Processor.initial with regs := regs }, bus branch⟩
    let l : Listing := ⟨0x2000, [0xAC, 0x81], ⟨.zero, 0xAC, .word .cmp .x, .indexed⟩,
      .indexed ⟨.increment .two, .x, false⟩ 0⟩
    let short := m [0x2D, 0xF0]
    let long := m [0x10, 0x2D, 0x00, 0x10]
    short.executing? = some l ∧ l.comparison? 0xD regs short.bus = some true ∧
      long.executing? = some l ∧ l.comparison? 0xD regs long.bus = some true ∧
      (short.step.run [.assertLine .irq]).step.processor.regs.pc = 0x1FF4 ∧
      (long.step.run [.assertLine .irq]).step.processor.regs.pc = 0x2016 := by
  intro bus regs m l short long
  have hshort : short.executing? = some l := by decide +kernel
  have hlong : long.executing? = some l := by decide +kernel
  have hanswer : l.comparison? 0xD regs short.bus = some true := by decide +kernel
  have hanswer' : l.comparison? 0xD regs long.bus = some true := by decide +kernel
  obtain ⟨b, -, -, -, -, -, -, hpc⟩ :=
    branch_follows_comparison.2 short l 0xD true [.assertLine .irq] _ _ hshort hanswer
      (.short 0xF0) (by decide +kernel) (by decide) (by decide +kernel)
  obtain ⟨b', -, -, -, -, -, -, hpc'⟩ :=
    branch_follows_comparison.2 long l 0xD true [.assertLine .irq] _ _ hlong hanswer'
      (.long 0x00 0x10) (by decide +kernel) (by decide) (by decide +kernel)
  exact ⟨hshort, hanswer, hlong, hanswer', hpc.trans (by decide), hpc'.trans (by decide)⟩

end Machine

end M6809
