import M6809.Memory
import M6809.Proofs.InterruptMasking

namespace M6809

open ConditionCodes

namespace Operation

def changesHalfCarry : Operation → Bool
  | byte .add _ | byte .adc _ => true
  | _ => false

def changesCarry : Operation → Bool
  | byte .add _ | byte .adc _ | byte .sub _ | byte .sbc _ | byte .cmp _ => true
  | word .add .d | word .sub .d | word .cmp _ => true
  | modify .neg _ | modify .com _ | modify .clr _ => true
  | modify .asl _ | modify .rol _ | modify .lsr _ | modify .ror _ | modify .asr _ => true
  | daa | mul => true
  | _ => false

def changesOverflow : Operation → Bool
  | byte _ _ | word _ _ | storeByte _ | storeWord _ => true
  | modify .lsr _ | modify .ror _ => false
  | modify _ _ => true
  | _ => false

def changesNegative : Operation → Bool
  | modify .lsr _ | modify .ror _ | daa | sex => true
  | op => op.changesOverflow

/-- Operations that move data, addresses or PC, and look at no result. -/
def keepsFlags : Operation → Bool
  | lea .s | lea .u | abx | nop | sync | branch _ | bsr | jmp | jsr | rts => true
  | push _ | pull _ | tfr | exg => true
  | _ => false

/-- The flags that an operation owns are among those listed for it. -/
def OwnsListed (op : Operation) : Prop :=
  (∀ flag ∈ [Flag.entire, Flag.firqMask, Flag.irqMask], op.ownedFlags &&& flag = 0) ∧
    (op.changesHalfCarry = false → op.ownedFlags &&& Flag.halfCarry = 0) ∧
    (op.changesCarry = false → op.ownedFlags &&& Flag.carry = 0) ∧
    (op.changesOverflow = false → op.ownedFlags &&& Flag.overflow = 0) ∧
    (op.changesNegative = false → op.ownedFlags &&& Flag.negative = 0) ∧
    (op.keepsFlags = true → op.ownedFlags = 0)

/-- Words are added to D and taken from D alone. -/
def sumsInD : Operation → Bool
  | word .add reg | word .sub reg => reg == .d
  | _ => true

theorem ownsListed {op : Operation} (hflags : op.writesMasks = false) (hsums : op.sumsInD = true) :
    op.OwnsListed := by
  unfold OwnsListed
  cases op with
  | modify op _ | byte op _ =>
      cases op <;> simp [ownedFlags, Modification.ownedFlags, ByteOperation.ownedFlags,
        changesHalfCarry, changesCarry, changesOverflow, changesNegative, keepsFlags] <;> decide
  | word op reg =>
      cases op with
      | add | sub =>
          obtain rfl : reg = .d := beq_iff_eq.mp hsums
          decide
      | cmp | ld =>
          simp [ownedFlags, WordOperation.ownedFlags, changesHalfCarry, changesCarry,
            changesOverflow, changesNegative, keepsFlags]
          decide
  | lea reg => cases reg <;> decide
  | orcc | andcc | cwai | rti | swi kind => cases hflags
  | storeByte _ | storeWord _ | branch _ | push _ | pull _ =>
      simp [ownedFlags, changesHalfCarry, changesCarry, changesOverflow, changesNegative,
        keepsFlags] <;> decide
  | _ => decide

end Operation

theorem Opcode.sumsInD_of_mem_all : ∀ o ∈ all, o.operation.sumsInD = true := by
  decide +kernel

theorem Listing.WellFormed.ownsListed {l : Listing} (h : l.WellFormed)
    (hflags : l.opcode.operation.writesMasks = false) : l.opcode.operation.OwnsListed :=
  Operation.ownsListed hflags (Opcode.sumsInD_of_mem_all _ (Opcode.mem_all_iff.mpr h.defined))

/-- CC is an operand of the instruction, by its opcode or as a register of its postbyte. -/
def Listing.writesFlags (l : Listing) : Bool := l.opcode.operation.writesMasks || l.loadsFlags

namespace Machine

section
variable {β : Type} [Bus β] {m : Machine β} {l : Listing} (h : m.executing? = some l)
include h

theorem sameOutside_step (hloads : l.loadsFlags = false) :
    SameOutside l.opcode.operation.ownedFlags m.processor.regs.cc m.step.processor.regs.cc := by
  obtain ⟨hwell, hresult⟩ := stepOutcome_of_executing? h
  simp only [step, hresult]
  exact (hwell.ensures_carryOut_flags hloads m.processor.regs).run _

/-- A step on an instruction that does not name CC changes no flag but those of its operation. -/
theorem flags_changed_by_listed (hflags : l.writesFlags = false) :
    let op := l.opcode.operation
    let before := m.processor.regs.cc
    let after := m.step.processor.regs.cc
    (after.entire = before.entire ∧ after.firqMask = before.firqMask ∧
      after.irqMask = before.irqMask) ∧
    (after.halfCarry ≠ before.halfCarry → op.changesHalfCarry = true) ∧
    (after.carry ≠ before.carry → op.changesCarry = true) ∧
    (after.overflow ≠ before.overflow → op.changesOverflow = true) ∧
    (after.negative ≠ before.negative → op.changesNegative = true) ∧
    (op = .lea .x ∨ op = .lea .y → SameOutside Flag.zero before after) ∧
    (op.keepsFlags = true → after = before) := by
  intro op before after
  obtain ⟨hop, hloads⟩ := Bool.or_eq_false_iff.mp hflags
  have hsame : SameOutside op.ownedFlags before after := sameOutside_step h hloads
  obtain ⟨hmasks, hhalf, hcarry, hoverflow, hnegative, hkeeps⟩ :=
    (stepOutcome_of_executing? h).1.ownsListed hop
  have hlisted {flag : Byte} {listed : Bool}
      (hdisjoint : listed = false → op.ownedFlags &&& flag = 0)
      (hchanged : after.isSet flag ≠ before.isSet flag) : listed = true := by
    cases listed with
    | true => rfl
    | false => exact absurd (hsame.isSet (hdisjoint rfl)) hchanged
  refine ⟨⟨?_, ?_, ?_⟩, hlisted hhalf, hlisted hcarry, hlisted hoverflow, hlisted hnegative, ?_, ?_⟩
  · exact hsame.isSet (hmasks _ (by simp))
  · exact hsame.isSet (hmasks _ (by simp))
  · exact hsame.isSet (hmasks _ (by simp))
  · rintro (hlea | hlea)
    · rwa [hlea] at hsame
    · rwa [hlea] at hsame
  · intro hkept
    rw [hkeeps hkept] at hsame
    exact hsame.eq

end

/-- DEC ,-X between the bytes of a long sum: C and H are there for the next one. -/
theorem carry_survives_decrement :
    let regs : Registers := { Registers.initial with x := 0x4001, pc := 0x2000, cc := ⟨0x21⟩ }
    let m : Machine Memory :=
      ⟨{ Processor.initial with regs := regs }, Memory.zero.load 0x2000 [0x6A, 0x82]⟩
    let l : Listing := ⟨0x2000, [0x6A, 0x82], ⟨.zero, 0x6A, .modify .dec .memory, .indexed⟩,
      .indexed ⟨.decrement .one, .x, false⟩ 0⟩
    m.executing? = some l ∧ l.writesFlags = false ∧
      m.step.processor.regs.cc.carry = true ∧ m.step.processor.regs.cc.halfCarry = true := by
  intro regs m l
  have h : m.executing? = some l := by decide +kernel
  have hflags : l.writesFlags = false := by decide
  obtain ⟨-, hhalf, hcarry, -⟩ := flags_changed_by_listed h hflags
  have hcarrySame : m.step.processor.regs.cc.carry = regs.cc.carry :=
    Decidable.of_not_not fun hne => absurd (hcarry hne) (by decide)
  have hhalfSame : m.step.processor.regs.cc.halfCarry = regs.cc.halfCarry :=
    Decidable.of_not_not fun hne => absurd (hhalf hne) (by decide)
  exact ⟨h, hflags, hcarrySame.trans (by decide), hhalfSame.trans (by decide)⟩

end Machine

end M6809
