import M6809.Proofs.CarryOut
import M6809.Proofs.StackFrames

namespace M6809

theorem Word.bytes_injective {v w : Word} (h : v.bytes = w.bytes) : v = w := by
  rw [← Word.ofBytes_highByte_lowByte v, (List.cons_eq_cons.mp h).1,
    (List.cons_eq_cons.mp (List.cons_eq_cons.mp h).2).1, Word.ofBytes_highByte_lowByte]

section
variable (r : Registers)

@[simp] theorem Registers.pc_setD (value : Word) : (r.setD value).pc = r.pc := rfl

@[simp] theorem Registers.pc_setAcc (acc : Accumulator) (value : Byte) :
    (r.setAcc acc value).pc = r.pc := by
  cases acc <;> rfl

@[simp] theorem Registers.pc_setIndex (reg : IndexRegister) (value : Word) :
    (r.setIndex reg value).pc = r.pc := by
  cases reg <;> rfl

@[simp] theorem Registers.cc_setIndex (reg : IndexRegister) (value : Word) :
    (r.setIndex reg value).cc = r.cc := by
  cases reg <;> rfl

@[simp] theorem Registers.pc_setWide (reg : WideRegister) (value : Word) :
    (r.setWide reg value).pc = r.pc := by
  cases reg <;> rfl

@[simp] theorem Registers.pc_updateFlags {w : Nat} (result : FlaggedValue w) :
    (r.updateFlags result).pc = r.pc :=
  rfl

theorem Registers.setCoded_keeps {γ : Type} {f : Registers → γ} {own : TransferRegister}
    (hview : ∀ reg ≠ own, ∀ value, f (r.set reg value) = f r) {code : Byte}
    (hcode : TransferRegister.ofCode? code ≠ some own) (value : Word) :
    f (r.setCoded code value) = f r := by
  unfold setCoded
  split
  · rename_i reg hreg
    refine hview reg ?_ value
    rintro rfl
    exact hcode hreg
  · rfl

theorem Registers.pc_setCoded (code : Byte) (value : Word)
    (hcode : TransferRegister.ofCode? code ≠ some .pc) : (r.setCoded code value).pc = r.pc := by
  refine r.setCoded_keeps (f := Registers.pc) ?_ hcode value
  intro reg hreg _
  cases reg <;> first | rfl | contradiction

theorem Registers.cc_setCoded (code : Byte) (value : Word)
    (hcode : TransferRegister.ofCode? code ≠ some .cc) : (r.setCoded code value).cc = r.cc := by
  refine r.setCoded_keeps (f := Registers.cc) ?_ hcode value
  intro reg hreg _
  cases reg <;> first | rfl | contradiction

@[simp] theorem IndexedMode.pc_moveBase (mode : IndexedMode) : (mode.moveBase r).pc = r.pc := by
  unfold moveBase
  split <;> simp

@[simp] theorem IndexedMode.cc_moveBase (mode : IndexedMode) : (mode.moveBase r).cc = r.cc := by
  unfold moveBase
  split <;> simp

end

namespace BusM

variable {α : Type} {p : BusM α} {post : List Event → α → Prop}

theorem Ensures.supply (bytes : List Byte) (h : p.Ensures post)
    (hread : ∀ address value events a,
      post (.access (.read address value) :: events) a → post events a) :
    (p.supply bytes).Ensures post := by
  induction bytes generalizing p with
  | nil => simpa using h
  | cons value rest ih =>
      cases p with
      | read address next => exact ih ((h value).imp (hread address value))
      | done _ | write _ _ _ | say _ _ => exact h

end BusM

theorem FrameRegister.bytes_setStackPointer (reg : FrameRegister) (stack : Stack) (r : Registers)
    (value : Word) : reg.bytes stack (r.setStackPointer stack value) = reg.bytes stack r := by
  cases stack <;> cases reg <;> rfl

namespace Registers

theorem ensures_pullRegister_bytes (r : Registers) (stack : Stack) {reg other : FrameRegister}
    (hother : other ≠ reg) :
    (r.pullRegister stack reg).Ensures fun _ pulled =>
      other.bytes stack pulled = other.bytes stack r := by
  -- the stack pointer moves first, past one byte or two
  let past := r.setStackPointer stack (r.stackPointer stack + 1)
  have hpast : other.bytes stack past = other.bytes stack r := other.bytes_setStackPointer stack r _
  have hpast' := other.bytes_setStackPointer stack past (past.stackPointer stack + 1)
  cases reg with
  | cc | a | b | dp =>
      intro value
      rw [← hpast]
      cases other <;> first | rfl | exact absurd rfl hother
  | x | y | pc =>
      intro high low
      rw [← hpast, ← hpast']
      cases other <;> first | rfl | exact absurd rfl hother
  | otherStack =>
      intro high low
      rw [← hpast, ← hpast']
      cases stack <;> cases other <;> first | rfl | exact absurd rfl hother

theorem ensures_pullEach_bytes (r : Registers) (stack : Stack) {regs : List FrameRegister}
    {other : FrameRegister} (hregs : other ∉ regs) :
    (r.pullEach stack regs).Ensures fun _ pulled =>
      other.bytes stack pulled = other.bytes stack r := by
  induction regs generalizing r with
  | nil => rfl
  | cons reg rest ih =>
      simp only [List.mem_cons, not_or] at hregs
      unfold pullEach
      rw [BusM.ensures_bind]
      refine (r.ensures_pullRegister_bytes stack hregs.1).imp ?_
      intro _ pulled hfirst
      refine (ih pulled hregs.2).imp ?_
      intro _ _ hrest
      exact hrest.trans hfirst

theorem ensures_pull_bytes (r : Registers) (stack : Stack) {mask : Byte} {other : FrameRegister}
    (hmask : mask.getLsbD other.bit = false) :
    (r.pull stack mask).Ensures fun _ pulled =>
      other.bytes stack pulled = other.bytes stack r := by
  refine r.ensures_pullEach_bytes stack ?_
  simp [FrameRegister.selected, hmask]

theorem ensures_pull_pc (r : Registers) (stack : Stack) {mask : Byte}
    (hmask : mask.getLsbD FrameRegister.pc.bit = false) :
    (r.pull stack mask).Ensures fun _ pulled => pulled.pc = r.pc :=
  (r.ensures_pull_bytes stack hmask).imp fun _ _ => Word.bytes_injective

end Registers

namespace Operation

/-- Operations that leave PC alone whatever their operand is. -/
def isSequential : Operation → Bool
  | branch _ | bsr | jmp | jsr | rts | rti | swi _ | pull _ | tfr | exg => false
  | _ => true

/-- Operations with registers named by the byte behind the opcode. -/
def takesPostbyte : Operation → Bool
  | push _ | pull _ | tfr | exg => true
  | _ => false

theorem ensures_perform_pc (page : Page) (address : Word) (r : Registers) {op : Operation}
    (hop : op.isSequential = true) :
    (op.perform page address r).Ensures fun _ effect => effect.regs.pc = r.pc := by
  cases op with
  | modify op target => cases target <;> simp [perform, Effect.ofRegisters]
  | byte op reg => cases hkeep : op.keepsResult <;> simp [perform, hkeep, Effect.ofRegisters]
  | word op reg => cases hkeep : op.keepsResult <;> simp [perform, hkeep, Effect.ofRegisters]
  | lea reg => cases reg <;> simp [perform, Effect.ofRegisters]
  | push stack =>
      simp only [perform, BusM.ensures_bind, BusM.ensures_readByte, BusM.ensures_pure]
      intro mask
      refine (r.ensures_push stack mask).imp ?_
      rintro _ _ ⟨-, rfl⟩
      exact r.pc_setStackPointer stack _
  | cwai =>
      simp only [perform, Registers.pushEntire, BusM.ensures_bind, BusM.ensures_readByte,
        BusM.ensures_report, BusM.ensures_pure]
      -- the push of a known mask would be unfolded byte by byte
      generalize entireFrame = frameMask
      intro mask
      refine (Registers.ensures_push _ .s frameMask).imp ?_
      rintro _ _ ⟨-, rfl⟩
      exact Registers.pc_setStackPointer _ .s _
  | storeByte _ | storeWord _ | orcc | andcc | sync | nop | daa | sex | abx | mul =>
      simp [perform, Effect.ofRegisters]
  | _ => cases hop

end Operation

theorem Opcode.mode_eq_immediate {o : Opcode} (hmodes : o.mode ∈ o.operation.modes)
    (hop : o.operation.takesPostbyte = true) : o.mode = .immediate := by
  revert hmodes hop
  cases o.operation <;> simp [Operation.modes, Operation.takesPostbyte]

namespace OperandForm

/-- The byte behind the opcode of a push, a pull, a transfer or an exchange. -/
def postbyte : OperandForm → Byte
  | registers _ mask => mask
  | transfer postbyte => postbyte
  | _ => 0

theorem Encodes.immediateBytes_eq_postbyte {o : Opcode} {next : Word} {bytes : List Byte}
    {form : OperandForm} (h : form.Encodes o next bytes) (hmodes : o.mode ∈ o.operation.modes)
    (hop : o.operation.takesPostbyte = true) : form.immediateBytes = [form.postbyte] := by
  have hmode := Opcode.mode_eq_immediate hmodes hop
  cases h with
  | registers | transfer => rfl
  | immediateByte value _ hvalue =>
      rcases hvalue with ⟨_, _, heq⟩ | heq | heq | heq <;>
        simp [heq, Operation.takesPostbyte] at hop
  | immediateWord high low _ hword =>
      obtain ⟨_, _, heq⟩ := hword
      simp [heq, Operation.takesPostbyte] at hop
  | _ => simp_all

theorem ensures_locate (form : OperandForm) (r : Registers) :
    (form.locate r).Ensures fun events operand => operand.regs.pc = r.pc ∧
      operand.regs.cc = r.cc ∧ events.filterMap Event.write? = [] := by
  cases form with
  | indexed mode fetched =>
      cases h : mode.indirect <;>
        simp [locate, Operand.ofMode, h, Event.write?, Event.access?, BusAccess.write?]
  | _ => simp [locate]

end OperandForm

namespace Listing

/-- The instruction may leave PC elsewhere than behind it. -/
def transfersControl (l : Listing) (cc : ConditionCodes) : Bool :=
  match l.opcode.operation with
  | .branch condition => condition.holds cc
  | .bsr | .jmp | .jsr | .rts | .rti | .swi _ => true
  | .pull _ => l.operand.postbyte.getLsbD FrameRegister.pc.bit
  | .tfr => TransferRegister.ofCode? l.operand.postbyte == some .pc
  | .exg =>
    TransferRegister.ofCode? (l.operand.postbyte >>> 4) == some .pc ||
      TransferRegister.ofCode? l.operand.postbyte == some .pc
  | _ => false

/-- The stack that the instruction puts its return address on. -/
def stackOfPc? (l : Listing) : Option Stack :=
  match l.opcode.operation with
  | .bsr | .jsr | .swi _ | .cwai => some .s
  | .push stack =>
    if l.operand.postbyte.getLsbD FrameRegister.pc.bit then some stack else none
  | _ => none

theorem WellFormed.ensures_supply_pc {l : Listing} (h : l.WellFormed) {r : Registers}
    (hcontrol : l.transfersControl r.cc = false) (address : Word) :
    ((l.opcode.operation.perform l.opcode.page address r).supply
      l.operand.immediateBytes).Ensures fun _ effect => effect.regs.pc = r.pc := by
  obtain ⟨bytes, -, hspelled⟩ := h.spelled
  have hpostbyte := hspelled.immediateBytes_eq_postbyte (Opcode.mode_mem_modes h.defined)
  unfold transfersControl at hcontrol
  by_cases hop : l.opcode.operation.isSequential = true
  · exact (Operation.ensures_perform_pc _ _ _ hop).supply _ fun _ _ _ _ => id
  · cases heq : l.opcode.operation with
    | branch condition =>
        simp only [heq] at hcontrol
        refine BusM.Ensures.supply _ ?_ fun _ _ _ _ => id
        simp [Operation.perform, hcontrol, Effect.ofRegisters]
    | pull stack =>
        simp only [heq] at hcontrol
        rw [hpostbyte (by rw [heq]; rfl)]
        change (r.pull stack l.operand.postbyte >>= fun r => _).Ensures _
        rw [BusM.ensures_bind]
        exact r.ensures_pull_pc stack hcontrol
    | tfr =>
        simp only [heq, beq_eq_false_iff_ne] at hcontrol
        rw [hpostbyte (by rw [heq]; rfl)]
        exact r.pc_setCoded _ _ hcontrol
    | exg =>
        simp only [heq, Bool.or_eq_false_iff, beq_eq_false_iff_ne] at hcontrol
        rw [hpostbyte (by rw [heq]; rfl)]
        exact (Registers.pc_setCoded _ _ _ hcontrol.2).trans (r.pc_setCoded _ _ hcontrol.1)
    | bsr | jmp | jsr | rts | rti | swi kind => simp [heq] at hcontrol
    | _ => exact absurd (by rw [heq]; rfl) hop

theorem WellFormed.ensures_carryOut_pc {l : Listing} (h : l.WellFormed) {r : Registers}
    (hcontrol : l.transfersControl r.cc = false) :
    (l.carryOut r).Ensures fun _ done => done.regs.pc = l.nextAddress := by
  unfold carryOut Registers.carryOut
  rw [BusM.ensures_bind]
  refine (l.operand.ensures_locate _).imp ?_
  rintro _ operand ⟨hpc, hcc, -⟩
  rw [BusM.ensures_bind]
  refine (h.ensures_supply_pc (hcc ▸ hcontrol) operand.address).imp ?_
  intro _ effect heffect
  exact heffect.trans hpc

theorem WellFormed.ensures_supply_first {l : Listing} (h : l.WellFormed) {r : Registers}
    {stack : Stack} (hstack : l.stackOfPc? = some stack) (address : Word) :
    ((l.opcode.operation.perform l.opcode.page address r).supply
      l.operand.immediateBytes).Ensures fun events effect =>
        PushesFirst r.pc (effect.regs.stackPointer stack) (events.filterMap Event.write?) := by
  obtain ⟨bytes, -, hspelled⟩ := h.spelled
  have hpostbyte := hspelled.immediateBytes_eq_postbyte (Opcode.mode_mem_modes h.defined)
  have hentire : entireFrame.getLsbD FrameRegister.pc.bit = true := by decide
  unfold stackOfPc? at hstack
  cases heq : l.opcode.operation with
  | push stack' =>
      simp only [heq, Option.ite_none_right_eq_some, Option.some.injEq] at hstack
      obtain ⟨hmask, rfl⟩ := hstack
      rw [hpostbyte (by rw [heq]; rfl)]
      change (r.push _ l.operand.postbyte >>= fun r => _).Ensures _
      rw [BusM.ensures_bind]
      refine (r.ensures_push_first _ hmask).imp ?_
      intro events pushed hpushed
      exact hpushed.append rfl
  | bsr | jsr =>
      simp only [heq, Option.some.injEq] at hstack
      subst hstack
      refine BusM.Ensures.supply _ ?_ fun _ _ _ _ => id
      simp only [Operation.perform, Registers.call, Registers.pushWord, BusM.ensures_bind,
        BusM.ensures_pure]
      refine (r.ensures_pushBytes_first .s [] r.pc).imp ?_
      intro events pushed hpushed
      exact (hpushed.append rfl).append rfl
  | swi kind =>
      simp only [heq, Option.some.injEq] at hstack
      subst hstack
      refine BusM.Ensures.supply _ ?_ fun _ _ _ _ => id
      simp only [Operation.perform, Operation.softwareInterrupt, Registers.pushEntire,
        Registers.enterHandler, BusM.ensures_bind, BusM.ensures_readWord, BusM.ensures_report,
        BusM.ensures_pure]
      generalize entireFrame = frameMask at hentire ⊢
      refine (Registers.ensures_push_first _ .s hentire).imp ?_
      intro events pushed hpushed high low
      exact hpushed.append rfl
  | cwai =>
      simp only [heq, Option.some.injEq] at hstack
      subst hstack
      refine BusM.Ensures.supply _ ?_ fun _ _ _ _ => id
      simp only [Operation.perform, Registers.pushEntire, BusM.ensures_bind,
        BusM.ensures_readByte, BusM.ensures_report, BusM.ensures_pure]
      generalize entireFrame = frameMask at hentire ⊢
      intro mask
      refine (Registers.ensures_push_first _ .s hentire).imp ?_
      intro events pushed hpushed
      exact (hpushed.append rfl).prepend rfl
  | _ => simp [heq] at hstack

theorem WellFormed.ensures_carryOut_first {l : Listing} (h : l.WellFormed) (r : Registers)
    {stack : Stack} (hstack : l.stackOfPc? = some stack) :
    (l.carryOut r).Ensures fun events done =>
      PushesFirst l.nextAddress (done.regs.stackPointer stack)
        (events.filterMap Event.write?) := by
  unfold carryOut Registers.carryOut
  rw [BusM.ensures_bind]
  refine (l.operand.ensures_locate _).imp ?_
  rintro events operand ⟨hpc, -, hlocate⟩
  rw [BusM.ensures_bind]
  refine (h.ensures_supply_first hstack operand.address).imp ?_
  intro rest effect heffect
  rw [hpc] at heffect
  refine PushesFirst.prepend ?_ hlocate
  exact heffect.append rfl

/-- The instruction goes to its operand. -/
def jumps (l : Listing) (cc : ConditionCodes) : Bool :=
  match l.opcode.operation with
  | .branch condition => condition.holds cc
  | .bsr | .jmp | .jsr => true
  | _ => false

theorem ensures_supply_jump {l : Listing} {r : Registers} (hjump : l.jumps r.cc = true)
    (address : Word) :
    ((l.opcode.operation.perform l.opcode.page address r).supply
      l.operand.immediateBytes).Ensures fun _ effect => effect.regs.pc = address := by
  refine BusM.Ensures.supply _ ?_ fun _ _ _ _ => id
  unfold jumps at hjump
  cases heq : l.opcode.operation with
  | branch condition =>
      simp only [heq] at hjump
      simp [Operation.perform, hjump]
  | bsr | jsr =>
      simp only [Operation.perform, Registers.call, BusM.ensures_bind, BusM.ensures_pure]
      exact BusM.ensures_of_forall _ fun _ _ => rfl
  | jmp => simp [Operation.perform, Effect.ofRegisters]
  | _ => simp [heq] at hjump

theorem ensures_carryOut_jump {l : Listing} {r : Registers} (hjump : l.jumps r.cc = true)
    {address : Word} (hoperand : l.operand = .target address ∨ l.operand = .extended address) :
    (l.carryOut r).Ensures fun _ done => done.regs.pc = address := by
  have hlocate : l.operand.locate { r with pc := l.nextAddress } =
      pure ⟨address, 0, { r with pc := l.nextAddress }⟩ := by
    rcases hoperand with heq | heq <;> rw [heq] <;> rfl
  have hsupply := ensures_supply_jump (l := l) (r := { r with pc := l.nextAddress }) hjump address
  unfold carryOut Registers.carryOut
  rw [hlocate, pure_bind, BusM.ensures_bind]
  exact hsupply

theorem WellFormed.exists_operand_eq_target {l : Listing} (h : l.WellFormed)
    (hmode : l.opcode.mode = .relative ∨ l.opcode.mode = .longRelative) :
    ∃ address, l.operand = .target address := by
  obtain ⟨bytes, -, hspelled⟩ := h.spelled
  generalize l.operand = form at hspelled
  cases hspelled with
  | relative | longRelative => exact ⟨_, rfl⟩
  | _ => simp_all

theorem WellFormed.exists_operand_eq_extended {l : Listing} (h : l.WellFormed)
    (hmode : l.opcode.mode = .extended) : ∃ address, l.operand = .extended address := by
  obtain ⟨bytes, -, hspelled⟩ := h.spelled
  generalize l.operand = form at hspelled
  cases hspelled with
  | extended => exact ⟨_, rfl⟩
  | _ => simp_all

end Listing

end M6809
