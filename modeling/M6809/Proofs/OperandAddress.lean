import M6809.Proofs.AccessSequence
import M6809.Proofs.ListingInMemory

namespace M6809

theorem BusM.bytesFrom_of_accesses {α : Type} {p : BusM α} {m : Memory} {address : Word}
    {bytes : List Byte} (h : (p.run m).accesses = BusAccess.readsFrom address bytes) :
    m.bytesFrom address bytes.length = bytes := by
  rw [accesses_run] at h
  induction p generalizing address bytes with
  | done result =>
      rcases bytes with _ | ⟨first, rest⟩
      · rfl
      · cases h
  | read place next ih =>
      rcases bytes with _ | ⟨first, rest⟩
      · rfl
      · obtain ⟨hfirst, hrest⟩ := List.cons.inj h
        obtain ⟨rfl, rfl⟩ := BusAccess.read.inj hfirst
        exact congrArg (List.cons _) (ih _ hrest)
  | write place value next ih =>
      rcases bytes with _ | ⟨first, rest⟩
      · rfl
      · cases h
  | say message next ih => exact ih h

namespace Operation

/-- Operations at the address of an operand: those in the columns of the opcode map that go through
the addressing modes row by row. -/
def usesAddress : Operation → Bool
  | modify _ .memory | byte _ _ | storeByte _ | word _ _ | storeWord _ | jmp | jsr => true
  | _ => false

theorem inherent_not_mem_modes {op : Operation} (h : op.usesAddress = true) :
    .inherent ∉ op.modes := by
  cases op with
  | modify op target => cases target <;> simp_all [usesAddress, modes]
  | byte _ _ | storeByte _ | word _ _ | storeWord _ | jmp | jsr => simp [modes]
  | _ => cases h

end Operation

theorem OperandForm.Encodes.run_supply {o : Opcode} {next address : Word} {bytes : List Byte}
    {form : OperandForm} {m : Memory} (h : form.Encodes o next bytes) (hmode : o.mode = .immediate)
    (hop : o.operation.usesAddress = true) (hbytes : m.bytesFrom address bytes.length = bytes)
    (r : Registers) (other : Word) :
    let supplied := ((o.operation.perform o.page other r).supply form.immediateBytes).run m
    let read := (o.operation.perform o.page address r).run m
    supplied.result = read.result ∧ supplied.bus = read.bus := by
  cases h with
  | immediateByte value _ hbyte =>
      rcases hbyte with ⟨op, acc, heq⟩ | heq | heq | heq
      · obtain ⟨hvalue, -⟩ := List.cons.inj hbytes
        rw [heq, ← hvalue]
        exact ⟨rfl, rfl⟩
      all_goals
        rw [heq] at hop
        cases hop
  | immediateWord high low _ hword =>
      obtain ⟨op, reg, heq⟩ := hword
      obtain ⟨hhigh, hrest⟩ := List.cons.inj hbytes
      obtain ⟨hlow, -⟩ := List.cons.inj hrest
      rw [heq, ← hhigh, ← hlow]
      simp only [OperandForm.immediateBytes, Word.bytes, Word.highByte_ofBytes,
        Word.lowByte_ofBytes]
      exact ⟨rfl, rfl⟩
  | registers stack mask _ hregisters | transfer postbyte _ hregisters =>
      rcases hregisters with heq | heq <;> rw [heq] at hop <;> cases hop
  | _ => simp_all

theorem OperandForm.Encodes.locate_immediate {o : Opcode} {next : Word} {bytes : List Byte}
    {form : OperandForm} (h : form.Encodes o next bytes) (hmode : o.mode = .immediate)
    (r : Registers) : form.locate r = pure ⟨r.pc, 0, r⟩ ∧ form.moved r = r := by
  cases h with
  | registers | transfer | immediateByte | immediateWord => exact ⟨rfl, rfl⟩
  | _ => simp_all

theorem OperandForm.moved_pc (form : OperandForm) (r : Registers) (pc : Word) :
    form.moved { r with pc } = { form.moved r with pc } := by
  rcases form with _ | _ | _ | _ | _ | _ | _ | ⟨⟨form, register, indirect⟩, fetched⟩ | _
  case indexed => cases register <;> rfl
  all_goals rfl

namespace Listing

/-- Where the operand of an instruction is, by the registers in front of it. An immediate operand
is behind the code bytes. -/
def operandAddress (l : Listing) (r : Registers) (m : Memory) : Word :=
  match l.operand with
  | .direct low => Word.ofBytes r.dp low
  | .extended address | .target address => address
  | .indexed mode fetched =>
    let place := mode.address { r with pc := l.nextAddress } fetched
    if mode.indirect then m.readWord place else place
  | _ => l.address + BitVec.ofNat 16 l.opcode.length

/-- The registers that an operation finds, with PC behind the instruction and the base of an
automatic form moved. -/
def operandRegisters (l : Listing) (r : Registers) : Registers :=
  l.operand.moved { r with pc := l.nextAddress }

theorem pc_operandRegisters (l : Listing) (r : Registers) :
    (l.operandRegisters r).pc = l.nextAddress := by
  rw [operandRegisters, OperandForm.moved_pc]

section
variable {l : Listing} {m : Memory} {address : Word}

theorem inMemory_of_read (h : ((read address).run m).result = .ok l) :
    l.address = address ∧ l.WellFormed ∧ m.bytesFrom l.address l.length = l.bytes ∧
      ((read address).run m).bus = m := by
  obtain ⟨rfl, hwell, haccesses⟩ := run_read_of_ok h
  refine ⟨rfl, hwell, BusM.bytesFrom_of_accesses haccesses, BusM.bus_run_of_writes_eq_nil ?_⟩
  rw [Outcome.writes, haccesses, BusAccess.filterMap_write?_readsFrom]

/-- A memory lists an instruction where its bytes are. -/
theorem result_read_eq_ok_iff {address : Word} :
    ((read address).run m).result = .ok l ↔
      l.address = address ∧ l.WellFormed ∧ m.bytesFrom l.address l.length = l.bytes := by
  constructor
  · intro h
    obtain ⟨haddress, hwell, hbytes, -⟩ := inMemory_of_read h
    exact ⟨haddress, hwell, hbytes⟩
  · rintro ⟨rfl, hwell, hbytes⟩
    exact (hwell.yields_read hbytes).result

theorem yields_locate {next : Word} {bytes : List Byte}
    (h : l.operand.Encodes l.opcode next bytes) (himmediate : l.opcode.mode ≠ .immediate)
    (hinherent : l.opcode.mode ≠ .inherent) (r : Registers) :
    ∃ extra, (l.operand.locate { r with pc := l.nextAddress }).Yields m
      ⟨l.operandAddress r m, extra, l.operandRegisters r⟩ := by
  rcases l with ⟨start, spelling, o, form⟩
  cases h with
  | direct low | extended high low | relative offset | longRelative high low => exact ⟨0, rfl, rfl⟩
  | indexed postbyte mode extra =>
      simp only [OperandForm.locate, Operand.ofMode, operandAddress, operandRegisters,
        OperandForm.moved_eq_moveBase]
      refine ⟨mode.extraCycles, ?_⟩
      cases mode.indirect with
      | true => exact ⟨rfl, rfl⟩
      | false => exact ⟨rfl, rfl⟩
  | _ => contradiction

theorem operandAddress_immediate {next : Word} {bytes : List Byte}
    (h : l.operand.Encodes l.opcode next bytes) (hmode : l.opcode.mode = .immediate)
    (r : Registers) : l.operandAddress r m = l.address + BitVec.ofNat 16 l.opcode.length := by
  rcases l with ⟨start, spelling, o, form⟩
  cases h with
  | registers | transfer | immediateByte | immediateWord => rfl
  | _ => simp_all

theorem WellFormed.run_carryOut_located (h : l.WellFormed) (himmediate : l.opcode.mode ≠ .immediate)
    (hinherent : l.opcode.mode ≠ .inherent) (r : Registers) :
    let performed := (l.opcode.operation.perform l.opcode.page (l.operandAddress r m)
      (l.operandRegisters r)).run m
    ((l.carryOut r).run m).result.regs = performed.result.regs ∧
      ((l.carryOut r).run m).result.state = performed.result.state ∧
      ((l.carryOut r).run m).bus = performed.bus := by
  obtain ⟨bytes, -, hspelled⟩ := h.spelled
  obtain ⟨extra, hresult, hbus⟩ := yields_locate (m := m) hspelled himmediate hinherent r
  simp only [carryOut, Registers.carryOut, hspelled.immediateBytes_eq_nil himmediate,
    BusM.supply_nil, BusM.result_bind, BusM.bus_bind, hresult, hbus]
  exact ⟨rfl, rfl, rfl⟩

theorem WellFormed.run_carryOut (h : l.WellFormed) (hop : l.opcode.operation.usesAddress = true)
    (hbytes : m.bytesFrom l.address l.length = l.bytes) (r : Registers) :
    let performed := (l.opcode.operation.perform l.opcode.page (l.operandAddress r m)
      (l.operandRegisters r)).run m
    ((l.carryOut r).run m).result.regs = performed.result.regs ∧
      ((l.carryOut r).run m).result.state = performed.result.state ∧
      ((l.carryOut r).run m).bus = performed.bus := by
  obtain ⟨bytes, hspelling, hspelled⟩ := h.spelled
  by_cases hmode : l.opcode.mode = .immediate
  · have hbehind : m.bytesFrom (l.operandAddress r m) bytes.length = bytes := by
      rw [length, hspelling, List.length_append, Memory.bytesFrom_add] at hbytes
      rw [operandAddress_immediate hspelled hmode, ← Opcode.length_codeBytes]
      exact (List.append_inj hbytes (Memory.length_bytesFrom _ _ _)).2
    obtain ⟨hlocate, hmoved⟩ := hspelled.locate_immediate hmode { r with pc := l.nextAddress }
    obtain ⟨hresult, hbus⟩ := hspelled.run_supply hmode hop hbehind { r with pc := l.nextAddress }
      l.nextAddress
    simp only [carryOut, Registers.carryOut, operandRegisters, hlocate, hmoved, pure_bind,
      BusM.result_bind, BusM.bus_bind, hresult, hbus]
    exact ⟨rfl, rfl, rfl⟩
  · have hmodes := Opcode.mode_mem_modes h.defined
    apply h.run_carryOut_located hmode
    intro heq
    rw [heq] at hmodes
    exact Operation.inherent_not_mem_modes hop hmodes

end

end Listing

namespace Machine

variable {m : Machine Memory} {l : Listing}

theorem step_of_run_carryOut (h : m.executing? = some l) {performed : Outcome Memory Effect}
    (hcarried : ((l.carryOut m.processor.regs).run m.bus).result.regs = performed.result.regs ∧
      ((l.carryOut m.processor.regs).run m.bus).result.state = performed.result.state ∧
      ((l.carryOut m.processor.regs).run m.bus).bus = performed.bus) :
    (∃ cycles, m.stepOutcome.result.cycles = .ok cycles) ∧
      m.step.processor.regs = performed.result.regs ∧
      m.step.processor.state = performed.result.state ∧
      m.step.processor.latches = m.processor.latches ∧ m.step.bus = performed.bus := by
  obtain ⟨hpending, hidle, hlisted⟩ := executing?_eq_some_iff.mp h
  obtain ⟨hwell, hresult⟩ := stepOutcome_of_executing? h
  obtain ⟨haddress, -, hbytes, hread⟩ := Listing.inMemory_of_read hlisted
  have hbus := bus_step_of_executing? h
  rw [hread] at hresult hbus
  obtain ⟨hregs, hstate, hafter⟩ := hcarried
  simp only [step, hresult] at hbus ⊢
  exact ⟨⟨_, rfl⟩, hregs, hstate, rfl, hbus.trans hafter⟩

theorem step_at_operand (h : m.executing? = some l)
    (hop : l.opcode.operation.usesAddress = true) :
    let performed := (l.opcode.operation.perform l.opcode.page
      (l.operandAddress m.processor.regs m.bus) (l.operandRegisters m.processor.regs)).run m.bus
    (∃ cycles, m.stepOutcome.result.cycles = .ok cycles) ∧
      m.step.processor.regs = performed.result.regs ∧
      m.step.processor.state = performed.result.state ∧
      m.step.processor.latches = m.processor.latches ∧ m.step.bus = performed.bus := by
  obtain ⟨-, -, hlisted⟩ := executing?_eq_some_iff.mp h
  obtain ⟨-, hwell, hbytes, -⟩ := Listing.inMemory_of_read hlisted
  exact step_of_run_carryOut h (hwell.run_carryOut hop hbytes m.processor.regs)

end Machine

end M6809
