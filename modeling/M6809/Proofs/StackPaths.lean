import M6809.Proofs.OperandAddress
import M6809.Proofs.StackMemory

namespace M6809

theorem ConditionCodes.entire_mk (bits : Byte) :
    (⟨bits⟩ : ConditionCodes).entire = bits.getLsbD 7 := by
  revert bits
  decide +kernel

/-- A run to an effect has the registers, the accesses and the bus of another run. -/
structure Outcome.SameRegisters {β : Type} (o : Outcome β Effect) (o' : Outcome β Registers) :
    Prop where
  regs : o.result.regs = o'.result
  accesses : o.accesses = o'.accesses
  bus : o.bus = o'.bus

section
variable {β : Type} [Bus β] {bus : β}

theorem BusM.sameRegisters_read {address : Word} {p : Byte → BusM Effect}
    {q : Byte → BusM Registers}
    (h : ((p (Bus.read bus address).1).run (Bus.read bus address).2).SameRegisters
      ((q (Bus.read bus address).1).run (Bus.read bus address).2)) :
    ((BusM.read address p).run bus).SameRegisters ((BusM.read address q).run bus) where
  regs := h.regs
  accesses := by
    have haccesses := h.accesses
    simp only [Outcome.accesses_eq, BusM.run, List.filterMap_cons, List.filterMap_append] at *
    rw [haccesses]
  bus := h.bus

theorem BusM.sameRegisters_bind (q : BusM Registers) {f : Registers → BusM Effect}
    (hf : ∀ r, ((f r).run (q.run bus).bus).SameRegisters ⟨r, (q.run bus).bus, []⟩) :
    ((q >>= f).run bus).SameRegisters (q.run bus) where
  regs := by rw [BusM.result_bind, (hf _).regs]
  accesses := by
    rw [BusM.accesses_bind, (hf _).accesses]
    exact List.append_nil _
  bus := by rw [BusM.bus_bind, (hf _).bus]

end

namespace Registers

/-- The same in all registers but PC and CC. -/
def SameButPcCc (r r' : Registers) : Prop := r' = { r with pc := r'.pc, cc := r'.cc }

theorem pull_cc {mask : Byte} {rest : List FrameRegister}
    (h : FrameRegister.selected mask = .cc :: rest) (r : Registers) :
    r.pull .s mask = BusM.read r.s fun value =>
      ({ r with s := r.s + 1, cc := ⟨value⟩ } : Registers).pullEach .s rest := by
  unfold pull
  rw [h]
  rfl

end Registers

namespace Operation

section
variable {β : Type} [Bus β] (bus : β) (r : Registers)

theorem sameRegisters_returnFromInterrupt :
    ((returnFromInterrupt r).run bus).SameRegisters
      ((r.pull .s (if (Bus.read bus r.s).1.getLsbD 7 then 0xFF else 0x81)).run bus) := by
  have hentire : FrameRegister.selected 0xFF =
      .cc :: FrameRegister.selected entireFrameBehindCc := by
    decide
  have hfast : FrameRegister.selected 0x81 = [.cc, .pc] := by decide
  cases hbit : (Bus.read bus r.s).1.getLsbD 7 with
  | true =>
      rw [if_pos rfl, Registers.pull_cc hentire]
      apply BusM.sameRegisters_read
      rw [← ConditionCodes.entire_mk] at hbit
      change ((if (⟨(Bus.read bus r.s).1⟩ : ConditionCodes).entire then _ else _ :
        BusM Effect).run _).SameRegisters _
      rw [if_pos hbit]
      -- under a known mask the pull would be unfolded byte by byte
      generalize entireFrameBehindCc = mask
      exact BusM.sameRegisters_bind (Registers.pull _ .s mask)
        (f := fun r => BusM.report (.returned true r.pc) >>= fun _ => pure ⟨r, .running, 9⟩)
        fun _ => ⟨rfl, rfl, rfl⟩
  | false =>
      rw [if_neg Bool.false_ne_true, Registers.pull_cc hfast]
      apply BusM.sameRegisters_read
      rw [← ConditionCodes.entire_mk] at hbit
      change ((if (⟨(Bus.read bus r.s).1⟩ : ConditionCodes).entire then _ else _ :
        BusM Effect).run _).SameRegisters _
      rw [hbit]
      exact BusM.sameRegisters_bind (Registers.pullEach _ .s [.pc])
        (f := fun r => BusM.report (.returned false r.pc) >>= fun _ => pure (.ofRegisters r))
        fun _ => ⟨rfl, rfl, rfl⟩

theorem sameRegisters_rts (page : Page) (address : Word) :
    ((rts.perform page address r).run bus).SameRegisters ((r.pull .s 0x80).run bus) := by
  have hpc : FrameRegister.selected 0x80 = [.pc] := by decide
  unfold Registers.pull
  rw [hpc]
  exact BusM.sameRegisters_bind (r.pullEach .s [.pc])
    (f := fun r => pure (.ofRegisters r)) fun _ => ⟨rfl, rfl, rfl⟩

end

end Operation

/-- What an instruction can store and load and a stack can carry under a mask of its own. -/
inductive Stackable where
  | accumulator (acc : Accumulator)
  | d
  | x
  | y
  | otherPointer
deriving DecidableEq, Repr

namespace Stack

/-- The pointer of a stack as a base of indexed addressing. -/
def index : Stack → IndexRegister
  | s => .s
  | u => .u

/-- The pointer of a stack as a register of its own. -/
def wide : Stack → WideRegister
  | s => .s
  | u => .u

end Stack

namespace Stackable

def mask : Stackable → Byte
  | accumulator .a => 0x02
  | accumulator .b => 0x04
  | d => 0x06
  | x => 0x10
  | y => 0x20
  | otherPointer => 0x40

def fields : Stackable → List FrameRegister
  | accumulator .a => [.a]
  | accumulator .b => [.b]
  | d => [.a, .b]
  | x => [.x]
  | y => [.y]
  | otherPointer => [.otherStack]

def step : Stackable → AutoStep
  | accumulator _ => .one
  | _ => .two

def store (stack : Stack) : Stackable → Operation
  | accumulator acc => .storeByte acc
  | d => .storeWord .d
  | x => .storeWord .x
  | y => .storeWord .y
  | otherPointer => .storeWord stack.other.wide

def load (stack : Stack) : Stackable → Operation
  | accumulator acc => .byte .ld acc
  | d => .word .ld .d
  | x => .word .ld .x
  | y => .word .ld .y
  | otherPointer => .word .ld stack.other.wide

theorem selected_mask (q : Stackable) : FrameRegister.selected q.mask = q.fields := by
  rcases q with (_ | _) | _ | _ | _ | _ <;> decide

theorem exists_opcode (stack : Stack) (q : Stackable) {op : Operation}
    (hop : op = q.store stack ∨ op = q.load stack) :
    ∃ o ∈ Opcode.all, o.mode = .indexed ∧ o.operation = op := by
  have hindexed : ∀ op ∈ [Operation.storeByte .a, .storeByte .b, .storeWord .d, .storeWord .x,
      .storeWord .y, .storeWord .u, .storeWord .s, .byte .ld .a, .byte .ld .b, .word .ld .d,
      .word .ld .x, .word .ld .y, .word .ld .u, .word .ld .s],
      ∃ o ∈ Opcode.all, o.mode = .indexed ∧ o.operation = op := by
    decide +kernel
  apply hindexed
  rcases hop with rfl | rfl <;> rcases stack with _ | _ <;>
    rcases q with (_ | _) | _ | _ | _ | _ <;> simp [store, load, Stack.other, Stack.wide]

theorem usesAddress (stack : Stack) (q : Stackable) :
    (q.store stack).usesAddress = true ∧ (q.load stack).usesAddress = true := by
  cases q <;> exact ⟨rfl, rfl⟩

/-- The bytes in memory order. -/
def bytes (stack : Stack) (r : Registers) : Stackable → List Byte
  | accumulator acc => [r.acc acc]
  | d => r.d.bytes
  | x => r.x.bytes
  | y => r.y.bytes
  | otherPointer => (r.stackPointer stack.other).bytes

def size (q : Stackable) : Nat := FrameRegister.totalWidth q.fields

theorem ofNat_size (q : Stackable) : BitVec.ofNat 16 q.size = q.step.distance := by
  rcases q with (_ | _) | _ | _ | _ | _ <;> rfl

theorem frameSize_mask (q : Stackable) : frameSize q.mask = q.size := by
  rw [frameSize, selected_mask, size]

theorem frame_mask (stack : Stack) (r : Registers) (q : Stackable) :
    r.frame stack q.mask = q.bytes stack r := by
  rw [Registers.frame, selected_mask]
  rcases q with (_ | _) | _ | _ | _ | _
  case d => simp [fields, FrameRegister.bytes, bytes, Registers.d, Word.bytes]
  all_goals rfl

theorem bytes_setStackPointer (stack : Stack) (q : Stackable) (r : Registers) (value pc : Word) :
    q.bytes stack { r.setStackPointer stack value with pc := pc } = q.bytes stack r := by
  cases q with
  | accumulator acc => cases acc <;> cases stack <;> rfl
  | d | x | y | otherPointer => cases stack <;> rfl

section
variable (stack : Stack) (q : Stackable) (page : Page) (address : Word) (r : Registers)
  (m : Memory)

theorem run_store :
    let stored := ((q.store stack).perform page address r).run m
    stored.bus = m.load address (q.bytes stack r) ∧ r.SameButPcCc stored.result.regs := by
  cases q with
  | otherPointer => cases stack <;> exact ⟨rfl, rfl⟩
  | _ => exact ⟨rfl, rfl⟩

theorem run_load :
    let loaded := ((q.load stack).perform page address r).run m
    loaded.bus = m ∧ q.bytes stack loaded.result.regs = m.bytesFrom address q.size ∧
      ∀ pc, (FrameRegister.copyEach stack loaded.result.regs { r with pc } q.fields).SameButPcCc
        loaded.result.regs := by
  have hword : ∀ high low : Byte, (Word.ofBytes high low).bytes = [high, low] := by
    intro high low
    simp [Word.bytes]
  cases q with
  | accumulator acc => cases acc <;> exact ⟨rfl, rfl, fun _ => rfl⟩
  | d => exact ⟨rfl, (congrArg Word.bytes (Registers.d_setD _ _)).trans (hword _ _), fun _ => rfl⟩
  | x | y => exact ⟨rfl, hword _ _, fun _ => rfl⟩
  | otherPointer => cases stack <;> exact ⟨rfl, hword _ _, fun _ => rfl⟩

end

end Stackable

namespace Listing

theorem decrement_operand {l : Listing} {stack : Stack} {step : AutoStep} {fetched : Word}
    (h : l.operand = .indexed ⟨.decrement step, stack.index, false⟩ fetched) (r : Registers)
    (m : Memory) :
    l.operandAddress r m = r.stackPointer stack - step.distance ∧ l.operandRegisters r =
      { r.setStackPointer stack (r.stackPointer stack - step.distance) with
        pc := l.nextAddress } := by
  simp only [operandAddress, operandRegisters, OperandForm.moved_eq_moveBase, h]
  cases stack <;> exact ⟨rfl, rfl⟩

theorem increment_operand {l : Listing} {stack : Stack} {step : AutoStep} {fetched : Word}
    (h : l.operand = .indexed ⟨.increment step, stack.index, false⟩ fetched) (r : Registers)
    (m : Memory) :
    l.operandAddress r m = r.stackPointer stack ∧ l.operandRegisters r =
      { r.setStackPointer stack (r.stackPointer stack + step.distance) with
        pc := l.nextAddress } := by
  simp only [operandAddress, operandRegisters, OperandForm.moved_eq_moveBase, h]
  cases stack <;> exact ⟨rfl, rfl⟩

end Listing

namespace Machine

variable {m : Machine Memory} {l : Listing} {stack : Stack} {q : Stackable} {fetched : Word}

theorem step_store (h : m.executing? = some l) (hop : l.opcode.operation = q.store stack)
    (hoperand : l.operand = .indexed ⟨.decrement q.step, stack.index, false⟩ fetched) :
    let pushed := (m.processor.regs.push stack q.mask).run m.bus
    m.step.bus = pushed.bus ∧ pushed.result.SameButPcCc m.step.processor.regs := by
  intro pushed
  obtain ⟨hresult, hbus⟩ : pushed.result = _ ∧ pushed.bus = _ :=
    m.processor.regs.run_push stack m.bus q.mask
  -- the pointer has moved before the store, as it has in a push
  obtain ⟨haddress, hfound⟩ := Listing.decrement_operand hoperand m.processor.regs m.bus
  obtain ⟨-, hregs, -, -, hafter⟩ := step_at_operand h (hop ▸ (q.usesAddress stack).1)
  rw [haddress, hfound, hop] at hregs hafter
  rw [q.frameSize_mask, q.ofNat_size] at hresult hbus
  obtain ⟨hstored, hsame⟩ := q.run_store stack l.opcode.page
    (m.processor.regs.stackPointer stack - q.step.distance)
    { m.processor.regs.setStackPointer stack
        (m.processor.regs.stackPointer stack - q.step.distance) with pc := l.nextAddress } m.bus
  rw [q.bytes_setStackPointer stack, ← q.frame_mask stack] at hstored
  rw [← hregs] at hsame
  refine ⟨(hafter.trans hstored).trans hbus.symm, ?_⟩
  rw [hresult]
  exact hsame

theorem step_load (h : m.executing? = some l) (hop : l.opcode.operation = q.load stack)
    (hoperand : l.operand = .indexed ⟨.increment q.step, stack.index, false⟩ fetched) :
    let pulled := (m.processor.regs.pull stack q.mask).run m.bus
    m.step.bus = pulled.bus ∧ pulled.result.SameButPcCc m.step.processor.regs := by
  intro pulled
  obtain ⟨haddress, hfound⟩ := Listing.increment_operand hoperand m.processor.regs m.bus
  obtain ⟨-, hregs, -, -, hafter⟩ := step_at_operand h (hop ▸ (q.usesAddress stack).2)
  rw [haddress, hfound, hop] at hregs hafter
  obtain ⟨hkept, hbytes, hsame⟩ := q.run_load stack l.opcode.page
    (m.processor.regs.stackPointer stack)
    { m.processor.regs.setStackPointer stack
        (m.processor.regs.stackPointer stack + q.step.distance) with pc := l.nextAddress } m.bus
  rw [← hregs] at hbytes hsame
  rw [← q.frame_mask, ← q.frameSize_mask] at hbytes
  have hyields := Registers.yields_pull hbytes.symm
  rw [q.frameSize_mask, q.ofNat_size, q.selected_mask] at hyields
  refine ⟨(hafter.trans hkept).trans hyields.bus.symm, ?_⟩
  rw [show pulled.result = _ from hyields.result]
  exact hsame (m.processor.regs.setStackPointer stack _).pc

/-- One stack layout for pushes and pulls under a mask, for returns, and for stores and loads
through the stack pointer. -/
theorem stack_paths_agree :
    (∀ {β : Type} [Bus β] (bus : β) (r : Registers) (page : Page) (address : Word),
      ((Operation.rti.perform page address r).run bus).SameRegisters
          ((r.pull .s (if (Bus.read bus r.s).1.getLsbD 7 then 0xFF else 0x81)).run bus) ∧
        ((Operation.rts.perform page address r).run bus).SameRegisters
          ((r.pull .s 0x80).run bus)) ∧
    ∀ (stack : Stack) (q : Stackable),
      (∃ o ∈ Opcode.all, o.mode = .indexed ∧ o.operation = q.store stack) ∧
      (∃ o ∈ Opcode.all, o.mode = .indexed ∧ o.operation = q.load stack) ∧
      ∀ (m : Machine Memory) (l : Listing) (fetched : Word), m.executing? = some l →
        (l.opcode.operation = q.store stack →
          l.operand = .indexed ⟨.decrement q.step, stack.index, false⟩ fetched →
          let pushed := (m.processor.regs.push stack q.mask).run m.bus
          m.step.bus = pushed.bus ∧ pushed.result.SameButPcCc m.step.processor.regs) ∧
        (l.opcode.operation = q.load stack →
          l.operand = .indexed ⟨.increment q.step, stack.index, false⟩ fetched →
          let pulled := (m.processor.regs.pull stack q.mask).run m.bus
          m.step.bus = pulled.bus ∧ pulled.result.SameButPcCc m.step.processor.regs) := by
  constructor
  · intro β _ bus r page address
    exact ⟨Operation.sameRegisters_returnFromInterrupt bus r,
      Operation.sameRegisters_rts bus r page address⟩
  · intro stack q
    refine ⟨q.exists_opcode stack (.inl rfl), q.exists_opcode stack (.inr rfl), ?_⟩
    intro m l fetched h
    exact ⟨step_store h, step_load h⟩

/-- STD ,--U and LDD ,U++ across the top of memory, beside PSHU and PULU of A and B. -/
theorem store_and_load_of_d_on_u :
    let bus := Memory.zero.load 0x2000 [0xED, 0xC3, 0xEC, 0xC1]
    let regs : Registers := ⟨1, 2, 3, 4, 0x0001, 5, 0x2000, 6, ⟨0⟩⟩
    let m : Machine Memory := ⟨{ Processor.initial with regs := regs }, bus⟩
    let l : Listing := ⟨0x2000, [0xED, 0xC3], ⟨.zero, 0xED, .storeWord .d, .indexed⟩,
      .indexed ⟨.decrement .two, .u, false⟩ 0⟩
    let l' : Listing := ⟨0x2002, [0xEC, 0xC1], ⟨.zero, 0xEC, .word .ld .d, .indexed⟩,
      .indexed ⟨.increment .two, .u, false⟩ 0⟩
    let pushed := (regs.push .u 0x06).run bus
    let pulled := (m.step.processor.regs.pull .u 0x06).run m.step.bus
    m.executing? = some l ∧ m.step.executing? = some l' ∧ m.step.bus = pushed.bus ∧
      pushed.result.SameButPcCc m.step.processor.regs ∧ m.step.step.bus = pulled.bus ∧
      pulled.result.SameButPcCc m.step.step.processor.regs := by
  intro bus regs m l l' pushed pulled
  have h : m.executing? = some l := by decide +kernel
  have h' : m.step.executing? = some l' := by decide +kernel
  obtain ⟨-, -, hpaths⟩ := stack_paths_agree.2 .u .d
  obtain ⟨hbus, hregs⟩ := (hpaths m l 0 h).1 rfl rfl
  obtain ⟨hbus', hregs'⟩ := (hpaths m.step l' 0 h').2 rfl rfl
  exact ⟨h, h', hbus, hregs, hbus', hregs'⟩

end Machine

end M6809
