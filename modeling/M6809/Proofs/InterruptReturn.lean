import M6809.Proofs.FlagOwnership
import M6809.Proofs.InherentInstructions
import M6809.Proofs.StackMemory

namespace M6809

namespace SoftwareInterrupt

def opcode : SoftwareInterrupt → Opcode
  | swi => ⟨.zero, 0x3F, .swi swi, .inherent⟩
  | swi2 => ⟨.one, 0x3F, .swi swi2, .inherent⟩
  | swi3 => ⟨.two, 0x3F, .swi swi3, .inherent⟩

/-- The bytes of the instruction. -/
def codeBytes : SoftwareInterrupt → List Byte
  | swi => [0x3F]
  | swi2 => [0x10, 0x3F]
  | swi3 => [0x11, 0x3F]

theorem codeBytes_opcode (kind : SoftwareInterrupt) : kind.opcode.codeBytes = kind.codeBytes := by
  cases kind <;> rfl

theorem ofCode?_opcode (kind : SoftwareInterrupt) :
    Opcode.ofCode? kind.opcode.page kind.opcode.code = some kind.opcode := by
  cases kind <;> rfl

theorem mode_opcode (kind : SoftwareInterrupt) : kind.opcode.mode = .inherent := by
  cases kind <;> rfl

theorem operation_opcode (kind : SoftwareInterrupt) : kind.opcode.operation = .swi kind := by
  cases kind <;> rfl

end SoftwareInterrupt

/-- What makes a processor stack a frame and go to a handler. -/
inductive Entry where
  | hardware (kind : Interrupt)
  | software (kind : SoftwareInterrupt)
deriving DecidableEq, Repr

namespace Entry

/-- Only the frame of a FIRQ is short. -/
def stacksEntire : Entry → Bool
  | hardware .firq => false
  | hardware .nmi | hardware .irq | software _ => true

def vector : Entry → Word
  | hardware .nmi => 0xFFFC
  | software .swi => 0xFFFA
  | hardware .irq => 0xFFF8
  | hardware .firq => 0xFFF6
  | software .swi2 => 0xFFF4
  | software .swi3 => 0xFFF2

def masks : Entry → Byte
  | hardware .nmi | hardware .firq | software .swi => Flag.irqMask ||| Flag.firqMask
  | hardware .irq => Flag.irqMask
  | software .swi2 | software .swi3 => 0

@[simp] theorem stacksEntire_hardware (kind : Interrupt) :
    (hardware kind).stacksEntire = kind.stacksEntire := by
  cases kind <;> rfl

@[simp] theorem vector_hardware (kind : Interrupt) : (hardware kind).vector = kind.vector := by
  cases kind <;> rfl

@[simp] theorem vector_software (kind : SoftwareInterrupt) :
    (software kind).vector = kind.vector := by
  cases kind <;> rfl

@[simp] theorem masks_hardware (kind : Interrupt) : (hardware kind).masks = kind.masks := by
  cases kind <;> rfl

@[simp] theorem masks_software (kind : SoftwareInterrupt) :
    (software kind).masks = kind.masks := by
  cases kind <;> rfl

/-- The register mask of the frame. -/
def frameMask (e : Entry) : Byte := if e.stacksEntire then entireFrame else fastFrame

/-- The bytes of the frame. -/
def size (e : Entry) : Nat := if e.stacksEntire then 12 else 3

/-- The flags that the frame holds. -/
def stackedCc (e : Entry) (cc : ConditionCodes) : ConditionCodes :=
  if e.stacksEntire then cc.set Flag.entire else cc.clear Flag.entire

/-- The registers to come back to, from the registers before. -/
def saved (e : Entry) (r : Registers) : Registers :=
  match e with
  | hardware _ => r
  | software kind => { r with pc := r.pc + BitVec.ofNat 16 kind.codeBytes.length }

def frame (e : Entry) (saved : Registers) : List Byte :=
  ({ saved with cc := e.stackedCc saved.cc } : Registers).frame .s e.frameMask

/-- The registers at the start of the handler. -/
def arrived (e : Entry) (saved : Registers) (handler : Word) : Registers :=
  { saved with
    s := saved.s - BitVec.ofNat 16 e.size
    pc := handler
    cc := (e.stackedCc saved.cc).set e.masks }

/-- The registers after the return. A fast frame holds no more than PC and CC. -/
def restored (e : Entry) (saved later : Registers) : Registers :=
  if e.stacksEntire then { saved with cc := saved.cc.set Flag.entire }
  else { later with s := saved.s, pc := saved.pc, cc := saved.cc.clear Flag.entire }

def returnCycles (e : Entry) : Nat := if e.stacksEntire then 15 else 6

theorem frameSize_frameMask (e : Entry) : frameSize e.frameMask = e.size := by
  unfold frameMask size
  cases e.stacksEntire <;> rfl

theorem length_frame (e : Entry) (saved : Registers) : (e.frame saved).length = e.size := by
  rw [frame, Registers.length_frame, frameSize_frameMask]

section
variable {e : Entry} (h : e.stacksEntire = true)
include h

end

theorem pc_restored (e : Entry) (saved later : Registers) :
    (e.restored saved later).pc = saved.pc := by
  unfold restored
  split <;> rfl

theorem s_restored (e : Entry) (saved later : Registers) :
    (e.restored saved later).s = saved.s := by
  unfold restored
  split <;> rfl

theorem cc_restored (e : Entry) (saved later : Registers) :
    (e.restored saved later).cc = e.stackedCc saved.cc := by
  unfold restored stackedCc
  split <;> rfl

theorem isSet_stackedCc (e : Entry) (cc : ConditionCodes) {mask : Byte}
    (h : Flag.entire &&& mask = 0) : (e.stackedCc cc).isSet mask = cc.isSet mask := by
  unfold stackedCc
  split
  · exact cc.isSet_set_of_disjoint h
  · exact cc.isSet_clear_of_disjoint h

theorem pending?_stackedCc (e : Entry) (latches : Latches) (cc : ConditionCodes) :
    latches.pending? (e.stackedCc cc) = latches.pending? cc :=
  latches.pending?_congr (e.isSet_stackedCc cc rfl) (e.isSet_stackedCc cc rfl)

theorem s_saved (e : Entry) (r : Registers) : (e.saved r).s = r.s := by
  cases e <;> rfl

/-- What every entry does, whatever makes it. -/
def enter (e : Entry) (saved : Registers) : BusM Registers := do
  let r ← { saved with cc := e.stackedCc saved.cc }.push .s e.frameMask
  { r with cc := r.cc.set e.masks }.enterHandler e.vector

theorem run_enter (e : Entry) (saved : Registers) (m : Memory) :
    let entered := (e.enter saved).run m
    entered.result = e.arrived saved (entered.bus.readWord e.vector) ∧
      entered.bus = m.load (saved.s - BitVec.ofNat 16 e.size) (e.frame saved) := by
  obtain ⟨hresult, hbus⟩ := Registers.run_push { saved with cc := e.stackedCc saved.cc } .s m
    e.frameMask
  rw [frameSize_frameMask] at hresult hbus
  intro entered
  have hentered : entered.bus = m.load (saved.s - BitVec.ofNat 16 e.size) (e.frame saved) := by
    rw [← show _ = m.load (saved.s - BitVec.ofNat 16 e.size) (e.frame saved) from hbus]
    exact BusM.bus_bind ..
  refine ⟨?_, hentered⟩
  rw [hentered]
  change ((e.enter saved).run m).result = _
  unfold enter
  rw [BusM.result_bind, hresult, hbus]
  rfl

theorem enterInterrupt_eq {p : Processor} (h : p.state = .running) (kind : Interrupt) :
    p.enterInterrupt kind = (hardware kind).enter p.regs >>= fun regs =>
      BusM.report (.interruptEntered kind regs.pc regs.s) >>= fun _ =>
        pure ⟨{ p with
          regs
          state := .running
          latches := p.latches.set kind false
          cycles := p.cycles + kind.cycles }, .ok kind.cycles⟩ := by
  have hstack : p.stackFrame kind = { p.regs with cc := (hardware kind).stackedCc p.regs.cc }.push
      .s (hardware kind).frameMask := by
    unfold Processor.stackFrame
    rw [if_neg (by simp [h])]
    unfold Registers.pushFrame stackedCc frameMask
    rw [stacksEntire_hardware]
    cases kind.stacksEntire <;> rfl
  have hcycles : p.entryCycles kind = kind.cycles := by
    unfold Processor.entryCycles
    rw [if_neg (by simp [h])]
  unfold Processor.enterInterrupt enter
  rw [hstack, hcycles, bind_assoc, vector_hardware, masks_hardware]

theorem softwareInterrupt_eq (kind : SoftwareInterrupt) (r : Registers) :
    Operation.softwareInterrupt kind r = (software kind).enter r >>= fun regs =>
      BusM.report (.softwareInterruptEntered kind regs.pc) >>= fun _ =>
        pure (.ofRegisters regs) := by
  unfold Operation.softwareInterrupt enter
  rw [bind_assoc, vector_software, masks_software]
  rfl

theorem step_hardware {m : Machine Memory} {kind : Interrupt} (hrun : m.processor.state = .running)
    (hpending : m.processor.latches.pending? m.processor.regs.cc = some kind) :
    let entered := ((hardware kind).enter m.processor.regs).run m.bus
    m.stepOutcome.result = ⟨{ m.processor with
        regs := entered.result
        state := .running
        latches := m.processor.latches.set kind false
        cycles := m.processor.cycles + kind.cycles }, .ok kind.cycles⟩ ∧
      m.step.bus = entered.bus := by
  have hstep : m.processor.step = m.processor.enterInterrupt kind := by
    rw [Processor.step_of_running hrun]
    unfold Processor.proceed
    simp only [hpending]
  unfold Machine.step Machine.stepOutcome
  rw [hstep, enterInterrupt_eq hrun, BusM.result_bind, BusM.bus_bind]
  exact ⟨rfl, rfl⟩

/-- The next step takes the entry. -/
def Starts (e : Entry) (m : Machine Memory) : Prop :=
  match e with
  | hardware kind => m.processor.state = .running ∧
      m.processor.latches.pending? m.processor.regs.cc = some kind
  | software kind => m.AtBytes kind.codeBytes

instance (m : Machine Memory) : (e : Entry) → Decidable (e.Starts m)
  | hardware _ => inferInstanceAs (Decidable (_ ∧ _))
  | software kind => inferInstanceAs (Decidable (m.AtBytes kind.codeBytes))

theorem Starts.step {e : Entry} {m : Machine Memory} (h : e.Starts m) :
    let saved := e.saved m.processor.regs
    m.step.processor.regs = e.arrived saved (m.step.bus.readWord e.vector) ∧
      m.step.bus = m.bus.load (saved.s - BitVec.ofNat 16 e.size) (e.frame saved) ∧
      m.step.processor.state = .running := by
  intro saved
  have hentered := e.run_enter saved m.bus
  suffices hstep : m.step.processor.regs = ((e.enter saved).run m.bus).result ∧
      m.step.bus = ((e.enter saved).run m.bus).bus ∧ m.step.processor.state = .running by
    rw [hstep.1, hstep.2.1]
    exact ⟨hentered.1, hentered.2, hstep.2.2⟩
  cases e with
  | hardware kind =>
      obtain ⟨hresult, hbus⟩ := step_hardware h.1 h.2
      exact ⟨congrArg (·.processor.regs) hresult, hbus, congrArg (·.processor.state) hresult⟩
  | software kind =>
      have hat : m.AtBytes kind.codeBytes := h
      rw [← kind.codeBytes_opcode] at hat
      have hnext : m.processor.regs.pc + BitVec.ofNat 16 kind.opcode.codeBytes.length =
          saved.pc := by
        rw [kind.codeBytes_opcode]
        rfl
      have hperform : kind.opcode.operation.perform kind.opcode.page saved.pc saved = _ :=
        (congrArg _ kind.operation_opcode).trans (softwareInterrupt_eq kind saved)
      obtain ⟨hresult, hbus⟩ :=
        hat.step_inherent kind.ofCode?_opcode kind.mode_opcode hnext hperform
      rw [BusM.result_bind] at hresult
      rw [BusM.bus_bind] at hbus
      unfold Machine.step at hbus ⊢
      rw [hresult]
      exact ⟨rfl, hbus, rfl⟩

end Entry

namespace Operation

section
variable {r saved : Registers} {m : Memory}

theorem yields_returnFromInterrupt_entire (hentire : saved.cc.entire = true)
    (h : m.bytesFrom r.s 12 = saved.frame .s entireFrame) :
    (returnFromInterrupt r).Yields m ⟨{ saved with s := r.s + 12 }, .running, 9⟩ := by
  have hframe : saved.frame .s entireFrame =
      [saved.cc.bits] ++ saved.frame .s entireFrameBehindCc := rfl
  have hpointer : r.s + 1 + BitVec.ofNat 16 11 = r.s + 12 := by bv_omega
  rw [hframe, m.bytesFrom_add r.s 1 11] at h
  obtain ⟨hcc, hrest⟩ := List.append_inj h rfl
  refine (Registers.yields_pullByte (hcc : m.bytesFrom (r.stackPointer .s) 1 = _)).bind ?_
  dsimp only
  rw [if_pos hentire, ← hpointer]
  exact (Registers.yields_pull hrest).bind ⟨rfl, rfl⟩

theorem yields_returnFromInterrupt_fast (hentire : saved.cc.entire = false)
    (h : m.bytesFrom r.s 3 = saved.frame .s fastFrame) :
    (returnFromInterrupt r).Yields m
      ⟨{ r with s := r.s + 3, pc := saved.pc, cc := saved.cc }, .running, 0⟩ := by
  have hframe : saved.frame .s fastFrame = [saved.cc.bits] ++ saved.pc.bytes := rfl
  have hpointer : r.s + 1 + 2 = r.s + 3 := by bv_omega
  rw [hframe, m.bytesFrom_add r.s 1 2] at h
  obtain ⟨hcc, hrest⟩ := List.append_inj h rfl
  refine (Registers.yields_pullByte (hcc : m.bytesFrom (r.stackPointer .s) 1 = _)).bind ?_
  dsimp only
  rw [if_neg (by simpa using hentire), ← hpointer]
  exact (Registers.yields_pullWord hrest).bind ⟨rfl, rfl⟩

end

end Operation

namespace Opcode

def rti : Opcode := ⟨.zero, 0x3B, .rti, .inherent⟩

end Opcode

namespace Entry

/-- The next step gives the registers back that an entry saved. -/
def Undone (e : Entry) (saved : Registers) (m : Machine Memory) : Prop :=
  m.Does e.returnCycles (e.restored saved m.processor.regs) m.bus

theorem yields_returnFromInterrupt (e : Entry) {saved later : Registers} {m : Memory}
    (next : Word) (hs : saved.s = later.s + BitVec.ofNat 16 e.size)
    (h : m.bytesFrom later.s e.size = e.frame saved) :
    (Operation.returnFromInterrupt { later with pc := next }).Yields m
      ⟨e.restored saved later, .running, e.returnCycles - 6⟩ := by
  unfold size at h hs
  unfold frame stackedCc frameMask at h
  unfold restored returnCycles
  cases he : e.stacksEntire with
  | true =>
      simp only [he, if_true] at h hs ⊢
      have hyields := Operation.yields_returnFromInterrupt_entire
        (r := { later with pc := next }) (saved.cc.entire_set) h
      rwa [show later.s + 12 = saved.s from hs.symm] at hyields
  | false =>
      simp only [he, Bool.false_eq_true, if_false] at h hs ⊢
      have hyields := Operation.yields_returnFromInterrupt_fast
        (r := { later with pc := next }) (saved.cc.entire_clear) h
      rwa [show later.s + 3 = saved.s from hs.symm] at hyields

theorem undone_of_frame {e : Entry} {saved : Registers} {m : Machine Memory} (hm : m.AtBytes [0x3B])
    (hs : saved.s = m.processor.regs.s + BitVec.ofNat 16 e.size)
    (hframe : m.bus.bytesFrom m.processor.regs.s e.size = e.frame saved) :
    e.Undone saved m := by
  have hyields := e.yields_returnFromInterrupt (m.processor.regs.pc + 1) hs hframe
  have hcycles : Opcode.rti.cycles + (e.returnCycles - 6) = e.returnCycles := by
    unfold returnCycles
    cases e.stacksEntire <;> rfl
  have hdoes := Machine.AtBytes.does (o := Opcode.rti) rfl hm rfl rfl hyields rfl
  rwa [hcycles] at hdoes

end Entry

end M6809
