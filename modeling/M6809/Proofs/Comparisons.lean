import M6809.Proofs.AddressingColumns
import M6809.Proofs.OperandReads
import M6809.Proofs.ResultFlags

namespace M6809

theorem ConditionCodes.update_update (cc : ConditionCodes) (mask flags : Byte) :
    (cc.update mask flags).update mask flags = cc.update mask flags := by
  have hbits : ((cc.update mask flags).update mask flags).bits = (cc.update mask flags).bits := by
    apply BitVec.eq_of_getLsbD_eq
    intro i _
    rw [getLsbD_update, getLsbD_update]
    split
    · rfl
    · rfl
  exact congrArg ConditionCodes.mk hbits

theorem Registers.sameButPc_of_eq {r r' : Registers} {pc : Word} (h : r' = { r with pc }) :
    r.SameButPc r' := by
  subst h
  rfl

namespace Operation

def isComparison : Operation → Bool
  | modify .tst _ | byte .cmp _ | byte .bit _ | word .cmp _ => true
  | _ => false

/-- The comparisons that are subtractions. -/
def isCompare : Operation → Bool
  | byte .cmp _ | word .cmp _ => true
  | _ => false

/-- The bytes of the register that takes part. -/
def subject (r : Registers) : Operation → List Byte
  | modify _ (.accumulator acc) | byte _ acc => [r.acc acc]
  | word _ reg => (r.wide reg).bytes
  | _ => []

/-- The subtraction whose flags a comparison leaves. -/
def subtraction? : Operation → Option Operation
  | byte .cmp acc => some (byte .sub acc)
  | word .cmp .d => some (word .sub .d)
  | _ => none

section
variable {op : Operation}

theorem onlyReads_of_isComparison (h : op.isComparison = true) : op.onlyReads = true := by
  cases op with
  | modify op target => cases op <;> first | rfl | cases h
  | byte op acc => rfl
  | word op reg => rfl
  | _ => cases h

theorem keep_of_isComparison (h : op.isComparison = true) (r : Registers) (value : Word) :
    op.keep r value = r := by
  cases op with
  | byte op acc => cases op <;> first | rfl | cases h
  | word op reg => cases op <;> first | rfl | cases h
  | _ => rfl

theorem Combines.eq_of_isComparison {r after : Registers} {operand : List Byte}
    (h : op.Combines r operand after) (hop : op.isComparison = true) :
    after = { r with cc := op.flagsAfter r (Word.ofBigEndian operand) } := by
  obtain ⟨-, value, rfl⟩ := h
  exact keep_of_isComparison hop _ value

theorem resultFlags_congr (h : op.isComparison = true) {r r' : Registers}
    (hsubject : op.subject r' = op.subject r) (operand : Word) :
    op.resultFlags r' operand = op.resultFlags r operand := by
  cases op with
  | modify op target =>
      cases op with
      | tst =>
          cases target with
          | memory => rfl
          | accumulator acc =>
              obtain ⟨hacc, -⟩ := List.cons.inj hsubject
              exact congrArg (fun value => (Modification.tst.compute value false).flags) hacc
      | _ => cases h
  | byte op acc =>
      obtain ⟨hacc, -⟩ := List.cons.inj hsubject
      cases op with
      | cmp | bit =>
          simp only [resultFlags, ByteOperation.compute]
          rw [hacc]
      | _ => cases h
  | word op reg =>
      obtain ⟨hhigh, hrest⟩ := List.cons.inj hsubject
      obtain ⟨hlow, -⟩ := List.cons.inj hrest
      have hwide : r'.wide reg = r.wide reg := by
        rw [← Word.ofBytes_highByte_lowByte (r'.wide reg), hhigh, hlow,
          Word.ofBytes_highByte_lowByte]
      simp only [resultFlags]
      rw [hwide]
  | _ => cases h

theorem subject_eq (r : Registers) (pc : Word) (cc : ConditionCodes) :
    op.subject { r with pc := pc, cc := cc } = op.subject r := by
  cases op with
  | modify op target =>
      cases target with
      | memory => rfl
      | accumulator acc => cases acc <;> rfl
  | byte op acc => cases acc <;> rfl
  | word op reg => cases reg <;> rfl
  | _ => rfl

theorem flagsAfter_pc (h : op.isComparison = true) (r : Registers) (pc operand : Word) :
    op.flagsAfter { r with pc } operand = op.flagsAfter r operand :=
  congrArg (r.cc.update op.ownedFlags) (resultFlags_congr h (subject_eq r pc r.cc) operand)

theorem flagsAfter_again (h : op.isComparison = true) (r : Registers) (pc operand : Word) :
    op.flagsAfter { r with pc := pc, cc := op.flagsAfter r operand } operand =
      op.flagsAfter r operand := by
  unfold flagsAfter
  rw [resultFlags_congr h (subject_eq r pc _)]
  exact r.cc.update_update _ _

theorem isSet_flagsAfter {flag : Byte} (h : op.ownedFlags &&& flag = flag) (r : Registers)
    (operand : Word) : (op.flagsAfter r operand).isSet flag =
      (⟨op.resultFlags r operand⟩ : ConditionCodes).isSet flag :=
  ConditionCodes.isSet_update h r.cc _

theorem ownedFlags_of_isComparison (h : op.isComparison = true) :
    op.ownedFlags = if op.isCompare then Arithmetic.maskNZVC else Arithmetic.maskNZV := by
  cases op with
  | modify op target => cases op <;> first | rfl | cases h
  | byte op acc => cases op <;> first | rfl | cases h
  | word op reg => cases op <;> first | rfl | cases h
  | _ => cases h

theorem owns_of_isComparison (h : op.isComparison = true) :
    ∀ flag ∈ [Flag.negative, Flag.zero, Flag.overflow], op.ownedFlags &&& flag = flag := by
  rw [ownedFlags_of_isComparison h]
  cases op.isCompare <;> decide

theorem owns_carry_of_isCompare (h : op.isComparison = true) (hop : op.isCompare = true) :
    op.ownedFlags &&& Flag.carry = Flag.carry := by
  rw [ownedFlags_of_isComparison h, if_pos hop]
  rfl

section
variable {difference : Operation} (h : op.subtraction? = some difference)
include h

theorem eq_of_subtraction : (∃ acc, op = byte .cmp acc ∧ difference = byte .sub acc) ∨
    op = word .cmp .d ∧ difference = word .sub .d := by
  cases op with
  | byte op acc =>
      cases op <;> cases h
      exact .inl ⟨acc, rfl, rfl⟩
  | word op reg =>
      cases op <;> cases reg <;> cases h
      exact .inr ⟨rfl, rfl⟩
  | _ => cases h

theorem onlyReads_of_subtraction :
    difference.onlyReads = true ∧ difference.operandWidth = op.operandWidth := by
  rcases eq_of_subtraction h with ⟨acc, rfl, rfl⟩ | ⟨rfl, rfl⟩
  · exact ⟨rfl, rfl⟩
  · exact ⟨rfl, rfl⟩

theorem flagsAfter_subtraction (r : Registers) (operand : Word) :
    difference.flagsAfter r operand = op.flagsAfter r operand := by
  rcases eq_of_subtraction h with ⟨acc, rfl, rfl⟩ | ⟨rfl, rfl⟩
  · rfl
  · rfl

end

end

end Operation

namespace Listing

theorem operandAddress_eq (l : Listing) (r : Registers) (pc : Word) (cc : ConditionCodes)
    (m : Memory) : l.operandAddress { r with pc := pc, cc := cc } m = l.operandAddress r m := by
  rcases l with ⟨address, bytes, opcode, form⟩
  rcases form with _ | _ | _ | _ | _ | _ | _ | ⟨⟨form, register, indirect⟩, fetched⟩ | _
  case indexed =>
    cases form with
    | accumulator acc => cases register <;> cases acc <;> rfl
    | _ => cases register <;> rfl
  all_goals rfl

end Listing

namespace Machine

variable {β : Type} [Bus β]

theorem step_comparison {m : Machine β} {l : Listing} (h : m.executing? = some l)
    (hop : l.opcode.operation.isComparison = true) :
    let found := l.operandRegisters m.processor.regs
    m.step.processor.regs = { found with
      cc := l.opcode.operation.flagsAfter found
        (m.operandRead l.opcode.operation.operandWidth) } := by
  obtain ⟨operand, hcombines, hread, -⟩ :=
    step_combines h (Operation.onlyReads_of_isComparison hop)
  dsimp only
  rw [hread]
  exact hcombines.eq_of_isComparison hop

section
variable {m : Machine β} {l : Listing} (h : m.executing? = some l)
  (hop : l.opcode.operation.isComparison = true)
include h hop

theorem step_comparison_indexed {mode : IndexedMode} {fetched : Word}
    (hoperand : l.operand = .indexed mode fetched) : ∃ base, m.step.processor.regs =
      { m.processor.regs.setIndex mode.register base with
        pc := l.nextAddress, cc := m.step.processor.regs.cc } := by
  have hregs := step_comparison h hop
  simp only [Listing.operandRegisters, hoperand, OperandForm.moved_pc] at hregs
  rw [hregs]
  exact ⟨_, rfl⟩

theorem step_comparison_fixed (hfixed : l.operand.isAutomatic = false) :
    m.step.processor.regs = { m.processor.regs with
      pc := l.nextAddress, cc := m.step.processor.regs.cc } := by
  have hregs := step_comparison h hop
  simp only [Listing.operandRegisters, OperandForm.moved_of_not_automatic hfixed] at hregs
  rw [hregs]

section
variable {γ : Type} [Bus γ] {m' : Machine γ} {l' : Listing} (h' : m'.executing? = some l')
  (hread : m'.operandRead l.opcode.operation.operandWidth =
    m.operandRead l.opcode.operation.operandWidth)
include h' hread

theorem flags_step_comparison (heq : l'.opcode.operation = l.opcode.operation)
    (hsubject : l.opcode.operation.subject (l'.operandRegisters m'.processor.regs) =
      l.opcode.operation.subject (l.operandRegisters m.processor.regs)) (flag : Byte)
    (hflag : l.opcode.operation.ownedFlags &&& flag = flag) :
    m'.step.processor.regs.cc.isSet flag = m.step.processor.regs.cc.isSet flag := by
  have hregs := step_comparison h hop
  have hregs' := step_comparison h' (heq ▸ hop)
  rw [hregs, hregs', heq, hread]
  dsimp only
  rw [Operation.isSet_flagsAfter hflag, Operation.isSet_flagsAfter hflag,
    Operation.resultFlags_congr hop hsubject]

theorem sameButPc_step_again (heq : l'.opcode.operation = l.opcode.operation)
    (hfixed : l'.operand.isAutomatic = false)
    (hsame : m.step.processor.regs.SameButPc m'.processor.regs) :
    m.step.processor.regs.SameButPc m'.step.processor.regs := by
  have hregs := step_comparison h hop
  have hregs' := step_comparison_fixed h' (heq ▸ hop) hfixed
  have hfound : l'.operandRegisters m'.processor.regs =
      { l.operandRegisters m.processor.regs with
        pc := l'.nextAddress, cc := m.step.processor.regs.cc } := by
    rw [Listing.operandRegisters, OperandForm.moved_of_not_automatic hfixed, hsame, hregs]
  have hcc : m'.step.processor.regs.cc = m.step.processor.regs.cc := by
    rw [step_comparison h' (heq ▸ hop), hfound, heq, hread, hregs]
    exact Operation.flagsAfter_again hop _ _ _
  rw [hsame, hcc] at hregs'
  exact Registers.sameButPc_of_eq hregs'

theorem sameButPc_step_subtraction
    (hdifference : l.opcode.operation.subtraction? = some l'.opcode.operation)
    (hsame : m.processor.regs.SameButPc m'.processor.regs)
    (hmoved : ∀ r, l'.operand.moved r = l.operand.moved r) :
    ∃ value, (l'.opcode.operation.keep m.step.processor.regs value).SameButPc
      m'.step.processor.regs := by
  obtain ⟨honly, hwidth⟩ := Operation.onlyReads_of_subtraction hdifference
  obtain ⟨operand, ⟨-, value, hregs'⟩, hread', -⟩ := step_combines h' honly
  have hfound : l'.operandRegisters m'.processor.regs =
      { l.operandRegisters m.processor.regs with pc := l'.nextAddress } := by
    rw [Listing.operandRegisters, hmoved, hsame]
    simp only [Listing.operandRegisters, OperandForm.moved_pc]
  refine ⟨value, ?_⟩
  rw [hwidth, hread] at hread'
  rw [hfound, Operation.flagsAfter_subtraction hdifference, ← hread',
    Operation.flagsAfter_pc hop] at hregs'
  rw [hregs', step_comparison h hop]
  generalize l.operandRegisters m.processor.regs = found
  exact Registers.sameButPc_of_eq (Operation.keep_pc { found with cc := _ } value l'.nextAddress)

end

end

section
variable {m : Machine Memory} {l : Listing} (h : m.executing? = some l)
  (hop : l.opcode.operation.isComparison = true)
include h hop

theorem executing?_comparison_again (hfixed : l.operand.isAutomatic = false) :
    let again := m.step.obey (.setRegisters { m.step.processor.regs with pc := l.address })
    m.step.bus = m.bus ∧ again.executing? = some l := by
  obtain ⟨hpending, -, hlisted⟩ := executing?_eq_some_iff.mp h
  obtain ⟨-, -, -, hwrites, hstate, hlatches, -⟩ :=
    step_combines h (Operation.onlyReads_of_isComparison hop)
  have hbus : m.step.bus = m.bus := BusM.bus_run_of_writes_eq_nil hwrites
  have hregs := step_comparison h hop
  have hmasks : ∀ flag ∈ [Flag.firqMask, Flag.irqMask],
      m.step.processor.regs.cc.isSet flag = m.processor.regs.cc.isSet flag := by
    intro flag hflag
    simp only [Listing.operandRegisters, OperandForm.moved_of_not_automatic hfixed] at hregs
    rw [hregs]
    apply (ConditionCodes.sameOutside_update _ _ _).isSet
    rw [Operation.ownedFlags_of_isComparison hop]
    revert flag
    cases l.opcode.operation.isCompare <;> decide
  refine ⟨hbus, executing?_eq_some_iff.mpr ⟨?_, ?_, ?_⟩⟩
  · rw [← hpending]
    simp only [obey, hlatches]
    exact Latches.pending?_congr (hmasks _ (by simp)) (hmasks _ (by simp)) _
  · exact Processor.not_idles_of_running hstate
  · simp only [obey, hbus, (Listing.run_read_of_ok hlisted).1]
    exact hlisted

theorem step_comparison_again (hfixed : l.operand.isAutomatic = false) :
    let again := m.step.obey (.setRegisters { m.step.processor.regs with pc := l.address })
    again.step.processor.regs = m.step.processor.regs ∧ again.step.bus = m.bus := by
  intro again
  obtain ⟨hbus, hagain⟩ := executing?_comparison_again h hop hfixed
  have honly := Operation.onlyReads_of_isComparison hop
  obtain ⟨-, -, -, hwrites, -⟩ := step_combines hagain honly
  have hbus' : again.step.bus = again.bus := BusM.bus_run_of_writes_eq_nil hwrites
  refine ⟨?_, hbus'.trans hbus⟩
  have hfound : l.operandRegisters m.processor.regs =
      { m.processor.regs with pc := l.nextAddress } := by
    rw [Listing.operandRegisters, OperandForm.moved_of_not_automatic hfixed]
  have hregs := (step_combines_bytesFrom h honly).eq_of_isComparison hop
  have hregs' := (step_combines_bytesFrom hagain honly).eq_of_isComparison hop
  -- the second comparison starts with the registers of the first but for its flags
  have hstart : again.processor.regs =
      { m.processor.regs with pc := l.address, cc := m.step.processor.regs.cc } := by
    simp only [again, obey]
    rw [hregs, hfound]
  have hfound' : l.operandRegisters again.processor.regs =
      { m.processor.regs with pc := l.nextAddress, cc := m.step.processor.regs.cc } := by
    rw [Listing.operandRegisters, OperandForm.moved_of_not_automatic hfixed, hstart]
  have haddress : l.operandAddress again.processor.regs again.bus =
      l.operandAddress m.processor.regs m.bus := by
    rw [hstart, Listing.operandAddress_eq]
    exact congrArg _ hbus
  rw [haddress, hfound', show again.bus = m.bus from hbus] at hregs'
  rw [hfound] at hregs
  generalize Word.ofBigEndian _ = operand at hregs hregs'
  rw [hregs', hregs]
  exact congrArg (fun cc => { m.processor.regs with pc := l.nextAddress, cc := cc })
    (Operation.flagsAfter_again hop { m.processor.regs with pc := l.nextAddress } _ operand)

end

/-- What a step on a comparison may change, and what its flags depend on. -/
structure OnlyCompares (m : Machine β) (l : Listing) : Prop where
  completes : ∃ cycles, m.stepOutcome.result.cycles = .ok cycles
  writes : m.stepOutcome.writes = []
  regs : m.step.processor.regs =
    { l.operandRegisters m.processor.regs with cc := m.step.processor.regs.cc }
  fixed : l.operand.isAutomatic = false → m.step.processor.regs =
    { m.processor.regs with pc := l.nextAddress, cc := m.step.processor.regs.cc }
  automatic : ∀ mode fetched, l.operand = .indexed mode fetched → ∃ base,
    m.step.processor.regs = { m.processor.regs.setIndex mode.register base with
      pc := l.nextAddress, cc := m.step.processor.regs.cc }
  /-- The flags come from the register, once the operand is found, and from the operand. -/
  flags : ∀ {γ : Type} [Bus γ] (m' : Machine γ) (l' : Listing), m'.executing? = some l' →
    l'.opcode.operation = l.opcode.operation →
    l.opcode.operation.subject (l'.operandRegisters m'.processor.regs) =
      l.opcode.operation.subject (l.operandRegisters m.processor.regs) →
    m'.operandRead l.opcode.operation.operandWidth =
      m.operandRead l.opcode.operation.operandWidth →
    let cc := m.step.processor.regs.cc
    let cc' := m'.step.processor.regs.cc
    cc'.negative = cc.negative ∧ cc'.zero = cc.zero ∧ cc'.overflow = cc.overflow ∧
      (l.opcode.operation.isCompare = true → cc'.carry = cc.carry)
  /-- The same comparison again leaves everything but PC. -/
  again : ∀ {γ : Type} [Bus γ] (m' : Machine γ) (l' : Listing), m'.executing? = some l' →
    l'.opcode.operation = l.opcode.operation → l'.operand.isAutomatic = false →
    m.step.processor.regs.SameButPc m'.processor.regs →
    m'.operandRead l.opcode.operation.operandWidth =
      m.operandRead l.opcode.operation.operandWidth →
    m.step.processor.regs.SameButPc m'.step.processor.regs
  /-- The subtraction from the same registers differs in PC and in the register of its result. -/
  subtraction : ∀ {γ : Type} [Bus γ] (m' : Machine γ) (l' : Listing), m'.executing? = some l' →
    l.opcode.operation.subtraction? = some l'.opcode.operation →
    m.processor.regs.SameButPc m'.processor.regs →
    (∀ r, l'.operand.moved r = l.operand.moved r) →
    m'.operandRead l.opcode.operation.operandWidth =
      m.operandRead l.opcode.operation.operandWidth →
    ∃ value, (l'.opcode.operation.keep m.step.processor.regs value).SameButPc
      m'.step.processor.regs

/-- Comparisons leave everything but the flags, which depend on what is compared. -/
theorem comparisons_only_set_flags :
    (∀ {β : Type} [Bus β] (m : Machine β) (l : Listing), m.executing? = some l →
      l.opcode.operation.isComparison = true → m.OnlyCompares l) ∧
    ∀ (m : Machine Memory) (l : Listing), m.executing? = some l →
      l.opcode.operation.isComparison = true → l.operand.isAutomatic = false →
      let again := m.step.obey (.setRegisters { m.step.processor.regs with pc := l.address })
      m.step.bus = m.bus ∧ again.executing? = some l ∧
        again.step.processor.regs = m.step.processor.regs ∧ again.step.bus = m.bus := by
  constructor
  · intro β _ m l h hop
    obtain ⟨-, -, -, hwrites, -, -, hcycles⟩ :=
      step_combines h (Operation.onlyReads_of_isComparison hop)
    constructor
    case completes => exact hcycles
    case writes => exact hwrites
    case regs => rw [step_comparison h hop]
    case fixed => exact step_comparison_fixed h hop
    case automatic =>
      intro mode fetched hoperand
      exact step_comparison_indexed h hop hoperand
    case flags =>
      intro γ _ m' l' h' heq hsubject hread
      have hflag := flags_step_comparison h hop h' hread heq hsubject
      have howns := Operation.owns_of_isComparison hop
      have hresult : ∀ flag ∈ [Flag.negative, Flag.zero, Flag.overflow],
          m'.step.processor.regs.cc.isSet flag = m.step.processor.regs.cc.isSet flag := by
        intro flag hmem
        exact hflag flag (howns flag hmem)
      refine ⟨hresult _ (by simp), hresult _ (by simp), hresult _ (by simp), ?_⟩
      intro hcompare
      exact hflag _ (Operation.owns_carry_of_isCompare hop hcompare)
    case again =>
      intro γ _ m' l' h' heq hfixed hsame hread
      exact sameButPc_step_again h hop h' hread heq hfixed hsame
    case subtraction =>
      intro γ _ m' l' h' hdifference hsame hmoved hread
      exact sameButPc_step_subtraction h hop h' hread hdifference hsame hmoved
  · intro m l h hop hfixed
    obtain ⟨hbus, hagain⟩ := executing?_comparison_again h hop hfixed
    obtain ⟨hregs, hbus'⟩ := step_comparison_again h hop hfixed
    exact ⟨hbus, hagain, hregs, hbus'⟩

/-- CMPA ,X+ and SUBA ,X+ in one memory, and CMPB through a pointer, twice. -/
theorem comparison_beside_subtraction :
    let bus := ((Memory.zero.load 0x2000 [0xA1, 0x80]).load 0x3000 [0xA0, 0x80]).load 0x2002
      [0xE1, 0x94]
    let regs : Registers := { Registers.initial with a := 0x10, x := 0x3000, pc := 0x2000 }
    let m : Machine Memory := ⟨{ Processor.initial with regs := regs }, bus⟩
    let m' : Machine Memory := ⟨{ Processor.initial with regs := { regs with pc := 0x3000 } }, bus⟩
    let l : Listing := ⟨0x2000, [0xA1, 0x80], ⟨.zero, 0xA1, .byte .cmp .a, .indexed⟩,
      .indexed ⟨.increment .one, .x, false⟩ 0⟩
    let l' : Listing := ⟨0x3000, [0xA0, 0x80], ⟨.zero, 0xA0, .byte .sub .a, .indexed⟩,
      .indexed ⟨.increment .one, .x, false⟩ 0⟩
    let b : Listing := ⟨0x2002, [0xE1, 0x94], ⟨.zero, 0xE1, .byte .cmp .b, .indexed⟩,
      .indexed ⟨.plain, .x, true⟩ 0⟩
    m.executing? = some l ∧ m'.executing? = some l' ∧ m.OnlyCompares l ∧
      (∃ value, (m.step.processor.regs.setAcc .a value).SameButPc m'.step.processor.regs) ∧
      m.step.executing? = some b ∧ m.step.step.bus = m.step.bus := by
  intro bus regs m m' l l' b
  have h : m.executing? = some l := by decide +kernel
  have h' : m'.executing? = some l' := by decide +kernel
  have hb : m.step.executing? = some b := by decide +kernel
  have hread : m'.operandRead 1 = m.operandRead 1 := by decide +kernel
  have hcompares := comparisons_only_set_flags.1 m l h rfl
  obtain ⟨value, hsame⟩ := hcompares.subtraction m' l' h' rfl rfl (fun _ => rfl) hread
  have hkept := (comparisons_only_set_flags.2 m.step b hb rfl rfl).1
  exact ⟨h, h', hcompares, ⟨value.lowByte, hsame⟩, hb, hkept⟩

end Machine

end M6809
