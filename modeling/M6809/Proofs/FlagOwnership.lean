import M6809.Proofs.ControlFlow

namespace M6809

namespace ConditionCodes

section
variable (cc : ConditionCodes)

theorem isSet_set (mask flag : Byte) :
    (cc.set mask).isSet flag = (cc.isSet flag || (⟨mask⟩ : ConditionCodes).isSet flag) := by
  have hbits : (cc.bits ||| mask) &&& flag = 0#8 ↔
      cc.bits &&& flag = 0#8 ∧ mask &&& flag = 0#8 := by
    rw [BitVec.and_or_distrib_right, BitVec.or_eq_zero_iff]
  rw [Bool.eq_iff_iff]
  simp [isSet, set, hbits, Decidable.imp_iff_not_or]

theorem entire_set : (cc.set Flag.entire).entire = true := by
  rw [entire, isSet_set]
  exact Bool.or_true _

theorem entire_clear : (cc.clear Flag.entire).entire = false := by
  have h : (cc.bits &&& ~~~Flag.entire) &&& Flag.entire = 0 := by
    rw [BitVec.and_assoc]
    simp
  simp only [entire, isSet, clear, h]
  rfl

section
variable {mask flag : Byte} (h : mask &&& flag = 0)
include h

theorem isSet_set_of_disjoint : (cc.set mask).isSet flag = cc.isSet flag := by
  have hmask : (⟨mask⟩ : ConditionCodes).isSet flag = false := by simp [isSet, h]
  rw [isSet_set, hmask, Bool.or_false]

theorem isSet_clear_of_disjoint : (cc.clear mask).isSet flag = cc.isSet flag := by
  have hbits : (cc.bits &&& ~~~mask) &&& flag = cc.bits &&& flag := by
    ext i hi
    have hzero : (mask[i] && flag[i]) = false := by simpa using congrArg (·[i]) h
    rw [BitVec.getElem_and, BitVec.getElem_and, BitVec.getElem_not, BitVec.getElem_and]
    cases hflag : flag[i] with
    | false => simp
    | true => simp_all
  simp only [isSet, clear, hbits]

end

end

/-- The flags outside of a mask are the same. -/
def SameOutside (mask : Byte) (cc cc' : ConditionCodes) : Prop := cc'.clear mask = cc.clear mask

section
variable {cc cc' : ConditionCodes} {mask : Byte}

theorem sameOutside_of_eq (mask : Byte) (h : cc' = cc) : SameOutside mask cc cc' :=
  congrArg (clear · mask) h

theorem SameOutside.eq (h : SameOutside 0 cc cc') : cc' = cc := by
  have hclear : ∀ cc : ConditionCodes, cc.clear 0 = cc := by
    intro cc
    exact congrArg ConditionCodes.mk BitVec.and_allOnes
  rw [SameOutside, hclear, hclear] at h
  exact h

theorem sameOutside_all (cc cc' : ConditionCodes) : SameOutside 0xFF cc cc' := by
  simp [SameOutside, clear]

theorem SameOutside.isSet (h : SameOutside mask cc cc') {flag : Byte}
    (hflag : mask &&& flag = 0) : cc'.isSet flag = cc.isSet flag := by
  rw [← cc'.isSet_clear_of_disjoint hflag, h, cc.isSet_clear_of_disjoint hflag]

theorem sameOutside_update (cc : ConditionCodes) (mask flags : Byte) :
    SameOutside mask cc (cc.update mask flags) := by
  have hbits : ((cc.bits &&& ~~~mask) ||| (flags &&& mask)) &&& ~~~mask = cc.bits &&& ~~~mask := by
    rw [BitVec.and_or_distrib_right, BitVec.and_assoc, BitVec.and_assoc]
    simp
  exact congrArg ConditionCodes.mk hbits

theorem sameOutside_set (cc : ConditionCodes) (mask : Byte) :
    SameOutside mask cc (cc.set mask) := by
  have hbits : (cc.bits ||| mask) &&& ~~~mask = cc.bits &&& ~~~mask := by
    rw [BitVec.and_or_distrib_right]
    simp
  exact congrArg ConditionCodes.mk hbits

theorem sameOutside_assign (cc : ConditionCodes) (mask : Byte) (on : Bool) :
    SameOutside mask cc (cc.assign mask on) := by
  cases on with
  | true => exact cc.sameOutside_set mask
  | false =>
      have hbits : (cc.bits &&& ~~~mask) &&& ~~~mask = cc.bits &&& ~~~mask := by
        rw [BitVec.and_assoc, BitVec.and_self]
      exact congrArg ConditionCodes.mk hbits

end

end ConditionCodes

open ConditionCodes

theorem FlaggedValue.sameOutside_updateFlags {w : Nat} (result : FlaggedValue w)
    (cc : ConditionCodes) : SameOutside result.mask cc (result.updateFlags cc) :=
  cc.sameOutside_update result.mask result.flags

/-! The flags that a computation owns, whatever it computes with. -/

namespace Modification

def ownedFlags : Modification → Byte
  | neg | com | asr | asl | rol | clr => Arithmetic.maskNZVC
  | lsr | ror => Arithmetic.maskNZC
  | dec | inc | tst => Arithmetic.maskNZV

theorem mask_compute (op : Modification) (value : Byte) (carry : Bool) :
    (op.compute value carry).mask = op.ownedFlags := by
  cases op <;> rfl

end Modification

namespace ByteOperation

def ownedFlags : ByteOperation → Byte
  | sub | cmp | sbc => Arithmetic.maskNZVC
  | and | bit | ld | eor | or => Arithmetic.maskNZV
  | adc | add => Arithmetic.maskNZVC ||| Flag.halfCarry

theorem mask_compute (op : ByteOperation) (value operand : Byte) (carry : Bool) :
    (op.compute value operand carry).mask = op.ownedFlags := by
  cases op <;> rfl

end ByteOperation

namespace WordOperation

def ownedFlags : WordOperation → Byte
  | sub | cmp | add => Arithmetic.maskNZVC
  | ld => Arithmetic.maskNZV

theorem mask_compute (op : WordOperation) (value operand : Word) :
    (op.compute value operand).mask = op.ownedFlags := by
  cases op <;> rfl

end WordOperation

namespace Registers

section
variable (r : Registers)

@[simp] theorem cc_setD (value : Word) : (r.setD value).cc = r.cc := rfl

@[simp] theorem cc_setAcc (acc : Accumulator) (value : Byte) : (r.setAcc acc value).cc = r.cc := by
  cases acc <;> rfl

@[simp] theorem cc_setWide (reg : WideRegister) (value : Word) :
    (r.setWide reg value).cc = r.cc := by
  cases reg <;> rfl

@[simp] theorem cc_setStackPointer (stack : Stack) (value : Word) :
    (r.setStackPointer stack value).cc = r.cc := by
  cases stack <;> rfl

theorem ensures_push_cc (stack : Stack) (mask : Byte) :
    (r.push stack mask).Ensures fun _ pushed => pushed.cc = r.cc := by
  refine (r.ensures_push stack mask).imp ?_
  rintro _ _ ⟨-, rfl⟩
  exact r.cc_setStackPointer stack _

theorem ensures_call_cc (address : Word) :
    (r.call address).Ensures fun _ called => called.cc = r.cc := by
  unfold call pushWord
  rw [BusM.ensures_bind]
  refine (r.ensures_pushBytes .s _).imp ?_
  rintro _ _ ⟨-, rfl⟩
  exact r.cc_setStackPointer .s (r.s - 2)

theorem ensures_pull_cc (stack : Stack) {mask : Byte}
    (hmask : mask.getLsbD FrameRegister.cc.bit = false) :
    (r.pull stack mask).Ensures fun _ pulled => pulled.cc = r.cc := by
  refine (r.ensures_pull_bytes stack hmask).imp ?_
  intro _ pulled hbytes
  exact congrArg ConditionCodes.mk (List.cons_eq_cons.mp hbytes).1

end

theorem ensures_pushEntire_cc {r : Registers} {p : BusM Registers} (h : r.pushEntire = p) :
    p.Ensures fun _ pushed => pushed.cc = r.cc.set Flag.entire := by
  -- the push stands behind an equation, or its known mask would be unfolded byte by byte
  subst p
  unfold pushEntire
  generalize entireFrame = mask
  exact ensures_push_cc _ .s mask

end Registers

namespace Operation

/-- The flags that an operation may change, as long as its operand does not name CC. -/
def ownedFlags : Operation → Byte
  | modify op _ => op.ownedFlags
  | byte op _ => op.ownedFlags
  | word op _ => op.ownedFlags
  | storeByte _ | storeWord _ => Arithmetic.maskNZV
  | lea .x | lea .y => Flag.zero
  | daa => Arithmetic.maskNZC
  | sex => Arithmetic.maskNZ
  | mul => Flag.zero ||| Flag.carry
  | swi kind => Flag.entire ||| kind.masks
  | orcc | andcc | cwai | rti => 0xFF
  | lea .u | lea .s | branch _ | bsr | jmp | jsr | rts | push _ | pull _ | tfr | exg | sync | nop
  | abx => 0

/-- Operations on a postbyte that can name CC as a register to write. -/
def loadsRegisters : Operation → Bool
  | pull _ | tfr | exg => true
  | _ => false

theorem ensures_softwareInterrupt_cc {kind : SoftwareInterrupt} {r : Registers} {p : BusM Effect}
    (h : softwareInterrupt kind r = p) :
    p.Ensures fun _ effect => effect.regs.cc = (r.cc.set Flag.entire).set kind.masks := by
  subst p
  unfold softwareInterrupt Registers.enterHandler
  simp only [BusM.ensures_bind, BusM.ensures_readWord, BusM.ensures_report, BusM.ensures_pure]
  generalize hpushed : r.pushEntire = pushed
  refine (Registers.ensures_pushEntire_cc hpushed).imp ?_
  intro _ _ hcc _ _
  exact congrArg (·.set kind.masks) hcc

theorem ensures_perform_flags (page : Page) (address : Word) (r : Registers) {op : Operation}
    (hop : op.loadsRegisters = false) :
    (op.perform page address r).Ensures fun _ effect =>
      SameOutside op.ownedFlags r.cc effect.regs.cc := by
  cases op with
  | modify op target =>
      cases target with
      | memory =>
          simp only [perform, BusM.ensures_bind, BusM.ensures_readByte, BusM.ensures_pure]
          intro value
          have hflags := (op.compute value r.cc.carry).sameOutside_updateFlags r.cc
          rw [op.mask_compute] at hflags
          exact BusM.ensures_of_forall _ fun _ _ => hflags
      | accumulator reg =>
          have hflags := (op.compute (r.acc reg) r.cc.carry).sameOutside_updateFlags r.cc
          rw [op.mask_compute] at hflags
          simp only [perform, BusM.ensures_pure, Effect.ofRegisters, Registers.cc_setAcc]
          exact hflags
  | byte op reg =>
      simp only [perform, BusM.ensures_bind, BusM.ensures_readByte, BusM.ensures_pure]
      intro operand
      have hflags := (op.compute (r.acc reg) operand r.cc.carry).sameOutside_updateFlags r.cc
      rw [op.mask_compute] at hflags
      split
      · simp only [Effect.ofRegisters, Registers.cc_setAcc]
        exact hflags
      · exact hflags
  | word op reg =>
      simp only [perform, BusM.ensures_bind, BusM.ensures_readWord, BusM.ensures_pure]
      intro high low
      have hflags := (op.compute (r.wide reg) (Word.ofBytes high low)).sameOutside_updateFlags r.cc
      rw [op.mask_compute] at hflags
      split
      · simp only [Effect.ofRegisters, Registers.cc_setWide]
        exact hflags
      · exact hflags
  | storeByte reg | storeWord reg | daa | sex | mul =>
      exact FlaggedValue.sameOutside_updateFlags _ r.cc
  | lea reg =>
      cases reg with
      | x | y => exact r.cc.sameOutside_assign Flag.zero _
      | u | s => exact sameOutside_of_eq 0 rfl
  | branch condition =>
      cases h : condition.holds r.cc <;> simp [perform, h, Effect.ofRegisters, sameOutside_of_eq]
  | bsr | jsr =>
      simp only [perform, BusM.ensures_bind, BusM.ensures_pure]
      exact (r.ensures_call_cc address).imp fun _ _ => sameOutside_of_eq 0
  | rts => exact fun _ _ => sameOutside_of_eq 0 rfl
  | push stack =>
      simp only [perform, BusM.ensures_bind, BusM.ensures_readByte, BusM.ensures_pure]
      intro mask
      exact (r.ensures_push_cc stack mask).imp fun _ _ => sameOutside_of_eq 0
  | swi kind =>
      have hset : (r.cc.set Flag.entire).set kind.masks = r.cc.set (Flag.entire ||| kind.masks) :=
        congrArg ConditionCodes.mk (BitVec.or_assoc ..)
      simp only [perform, ownedFlags]
      generalize hentered : softwareInterrupt kind r = entered
      refine (ensures_softwareInterrupt_cc hentered).imp ?_
      intro _ effect heffect
      rw [heffect, hset]
      exact r.cc.sameOutside_set _
  | orcc | andcc | cwai | rti =>
      generalize perform page address r _ = work
      exact BusM.ensures_of_forall work fun _ _ => sameOutside_all r.cc _
  | jmp | sync | nop | abx => exact sameOutside_of_eq 0 rfl
  | pull _ | tfr | exg => cases hop

end Operation

namespace Listing

/-- The instruction may clear any flag: it takes CC from memory or from another register, or says
which flags to clear. -/
def loadsFlags (l : Listing) : Bool :=
  match l.opcode.operation with
  | .andcc | .cwai | .rti => true
  | .pull _ => l.operand.postbyte.getLsbD FrameRegister.cc.bit
  | .tfr => TransferRegister.ofCode? l.operand.postbyte == some .cc
  | .exg =>
    TransferRegister.ofCode? (l.operand.postbyte >>> 4) == some .cc ||
      TransferRegister.ofCode? l.operand.postbyte == some .cc
  | _ => false

section
variable {l : Listing} (h : l.WellFormed) (hloads : l.loadsFlags = false)
  {R : ConditionCodes → ConditionCodes → Prop}
  (hkept : l.opcode.operation.loadsRegisters = true → ∀ cc, R cc cc)
  (hperform : l.opcode.operation.loadsRegisters = false → ∀ page address r,
    (l.opcode.operation.perform page address r).Ensures fun _ effect => R r.cc effect.regs.cc)
include h hloads hkept hperform

theorem WellFormed.ensures_supply_cc (r : Registers) (address : Word) :
    ((l.opcode.operation.perform l.opcode.page address r).supply
      l.operand.immediateBytes).Ensures fun _ effect => R r.cc effect.regs.cc := by
  obtain ⟨bytes, -, hspelled⟩ := h.spelled
  have hpostbyte := hspelled.immediateBytes_eq_postbyte (Opcode.mode_mem_modes h.defined)
  unfold loadsFlags at hloads
  cases hop : l.opcode.operation.loadsRegisters with
  | false => exact (hperform hop l.opcode.page address r).supply _ fun _ _ _ _ => id
  | true =>
      have hsame : ∀ {cc' : ConditionCodes}, cc' = r.cc → R r.cc cc' := by
        rintro _ rfl
        exact hkept hop r.cc
      cases heq : l.opcode.operation with
      | pull stack =>
          simp only [heq] at hloads
          rw [hpostbyte (by rw [heq]; rfl)]
          change (r.pull stack l.operand.postbyte >>= fun r => _).Ensures _
          rw [BusM.ensures_bind]
          exact (r.ensures_pull_cc stack hloads).imp fun _ _ => hsame
      | tfr =>
          simp only [heq, beq_eq_false_iff_ne] at hloads
          rw [hpostbyte (by rw [heq]; rfl)]
          exact hsame (r.cc_setCoded _ _ hloads)
      | exg =>
          simp only [heq, Bool.or_eq_false_iff, beq_eq_false_iff_ne] at hloads
          rw [hpostbyte (by rw [heq]; rfl)]
          exact hsame ((Registers.cc_setCoded _ _ _ hloads.2).trans (r.cc_setCoded _ _ hloads.1))
      | _ => simp [heq, Operation.loadsRegisters] at hop

theorem WellFormed.ensures_carryOut_cc (r : Registers) :
    (l.carryOut r).Ensures fun _ done => R r.cc done.regs.cc := by
  unfold carryOut Registers.carryOut
  rw [BusM.ensures_bind]
  -- the operand is found without a look at the flags
  refine (l.operand.ensures_locate _).imp ?_
  rintro _ operand ⟨-, hcc, -⟩
  rw [BusM.ensures_bind]
  refine (h.ensures_supply_cc hloads hkept hperform operand.regs operand.address).imp ?_
  intro _ effect heffect
  rw [hcc] at heffect
  exact heffect

end

theorem WellFormed.ensures_carryOut_flags {l : Listing} (h : l.WellFormed)
    (hloads : l.loadsFlags = false) (r : Registers) :
    (l.carryOut r).Ensures fun _ done =>
      SameOutside l.opcode.operation.ownedFlags r.cc done.regs.cc :=
  h.ensures_carryOut_cc hloads (fun _ _ => sameOutside_of_eq _ rfl)
    (fun hop page address r => Operation.ensures_perform_flags page address r hop) r

end Listing

end M6809
