import M6809.Proofs.ControlFlow
import M6809.Proofs.Machine
import M6809.Proofs.MemoryBus
import Mathlib.Control.Monad.Basic

namespace M6809

theorem IndexedMode.extraBytes_le (mode : IndexedMode) : mode.extraBytes ≤ 2 := by
  unfold extraBytes IndexForm.extraBytes
  cases mode.form with
  | offset width | pcOffset width => cases width <;> simp [OffsetWidth.bytes]
  | _ => simp

theorem Opcode.size_bounds (o : Opcode) :
    1 ≤ o.size ∧ o.size ≤ 4 ∧ (o.mode = .indexed → o.size ≤ 3) := by
  have hlength : 1 ≤ o.length ∧ o.length ≤ 2 := by
    unfold length
    cases o.page <;> simp
  have hwidth : o.operation.immediateWidth ≤ 2 := by
    unfold Operation.immediateWidth
    split <;> simp
  unfold size operandBytes
  cases o.mode <;> simp <;> omega

namespace Listing

/-- The bytes that the postbyte of an indexed operand asks for. -/
def extraBytes (l : Listing) : Nat :=
  if l.opcode.mode = .indexed then
    (((l.bytes[l.opcode.length]?).bind IndexedMode.ofPostbyte?).map (·.extraBytes)).getD 0
  else 0

theorem extraBytes_eq_zero {l : Listing} (hmode : l.opcode.mode ≠ .indexed) :
    l.extraBytes = 0 :=
  if_neg hmode

theorem extraBytes_le (l : Listing) : l.extraBytes ≤ 2 := by
  unfold extraBytes
  split
  · cases (l.bytes[l.opcode.length]?).bind IndexedMode.ofPostbyte? with
    | none => exact Nat.zero_le 2
    | some mode => exact mode.extraBytes_le
  · exact Nat.zero_le 2

theorem WellFormed.length_eq {l : Listing} (h : l.WellFormed) :
    l.length = l.opcode.size + l.extraBytes := by
  obtain ⟨operandBytes, hbytes, hspelled⟩ := h.spelled
  have hlength : l.length = l.opcode.length + operandBytes.length := by
    rw [length, hbytes, List.length_append, Opcode.length_codeBytes]
  unfold extraBytes Opcode.size Opcode.operandBytes
  rw [hlength, hbytes]
  generalize l.operand = form at hspelled
  cases hspelled with
  | indexed postbyte mode extra hmode hpostbyte hextra =>
      have hat : (l.opcode.codeBytes ++ postbyte :: extra)[l.opcode.length]? = some postbyte := by
        rw [← Opcode.length_codeBytes, List.getElem?_append_right (Nat.le_refl _)]
        simp
      simp [hmode, hat, hpostbyte, hextra]
      omega
  | registers _ _ hmode hop | transfer _ hmode hop =>
      rcases hop with hop | hop <;> simp [hmode, hop, Operation.immediateWidth]
  | immediateByte value hmode hop =>
      rcases hop with ⟨_, _, hop⟩ | hop | hop | hop <;> simp [hmode, hop, Operation.immediateWidth]
  | immediateWord high low hmode hop =>
      obtain ⟨_, _, hop⟩ := hop
      simp [hmode, hop, Operation.immediateWidth]
  | implied hmode | direct low hmode | extended high low hmode | relative offset hmode
  | longRelative high low hmode => simp [hmode]

theorem WellFormed.length_bounds {l : Listing} (h : l.WellFormed) :
    1 ≤ l.length ∧ l.length ≤ 5 := by
  obtain ⟨hpositive, hshort, hindexed⟩ := l.opcode.size_bounds
  rw [h.length_eq]
  by_cases hmode : l.opcode.mode = .indexed
  · have hextra := l.extraBytes_le
    have hsize := hindexed hmode
    omega
  · rw [extraBytes_eq_zero hmode]
    omega

/-- What a listing says of the instruction that is executed. -/
structure Describes (l : Listing) (before : Registers) (done : Execution)
    (writes : List (Word × Byte)) : Prop where
  opcode_eq : done.opcode = l.opcode
  pc_eq : l.transfersControl before.cc = false → done.regs.pc = l.nextAddress
  stacked : ∀ stack, l.stackOfPc? = some stack →
    PushesFirst l.nextAddress (done.regs.stackPointer stack) writes
  target : l.jumps before.cc = true →
    l.opcode.mode = .relative ∨ l.opcode.mode = .longRelative → l.operand = .target done.regs.pc
  extended : l.jumps before.cc = true → l.opcode.mode = .extended →
    l.operand = .extended done.regs.pc

theorem ensures_carryOut_opcode (l : Listing) (r : Registers) :
    (l.carryOut r).Ensures fun _ done => done.opcode = l.opcode := by
  unfold carryOut Registers.carryOut
  simp only [BusM.ensures_bind]
  exact BusM.ensures_of_forall _ fun _ _ => BusM.ensures_of_forall _ fun _ _ => rfl

theorem WellFormed.describes {l : Listing} (h : l.WellFormed) (r : Registers) {β : Type} [Bus β]
    (bus : β) :
    l.Describes r ((l.carryOut r).run bus).result ((l.carryOut r).run bus).writes where
  opcode_eq := (l.ensures_carryOut_opcode r).run bus
  pc_eq hcontrol := (h.ensures_carryOut_pc hcontrol).run bus
  stacked stack hstack := by
    rw [BusM.writes_run]
    exact (h.ensures_carryOut_first r hstack).run bus
  target hjump hmode := by
    obtain ⟨address, haddress⟩ := h.exists_operand_eq_target hmode
    rw [(ensures_carryOut_jump hjump (.inl haddress)).run bus, haddress]
  extended hjump hmode := by
    obtain ⟨address, haddress⟩ := h.exists_operand_eq_extended hmode
    rw [(ensures_carryOut_jump hjump (.inr haddress)).run bus, haddress]

end Listing

namespace Processor

section
variable {β : Type} [Bus β] {p : Processor} {bus : β}

theorem result_execute_of_ok {l : Listing}
    (h : ((Listing.read p.regs.pc).run bus).result = .ok l) :
    (p.regs.execute.run bus).result =
      .ok ((l.carryOut p.regs).run ((Listing.read p.regs.pc).run bus).bus).result := by
  have hexecute : ((Except.mapError Trap.fault <$> p.regs.execute).run bus).result = _ :=
    congrArg (fun q => (BusM.run q bus).result) p.regs.execute_eq
  rw [BusM.result_map, BusM.result_bind, h, BusM.result_map] at hexecute
  cases hresult : (p.regs.execute.run bus).result with
  | error trap => simp [hresult] at hexecute
  | ok done => simpa [hresult] using hexecute

end

/-- A step of a running processor executes what is listed at PC. -/
theorem step_executes_listing {β : Type} [Bus β] (p : Processor) (bus : β)
    (hrun : p.state = .running) (hpending : p.latches.pending? p.regs.cc = none) :
    let listed := (Listing.read p.regs.pc).run bus
    let stepped := p.step.run bus
    (∃ bytes, listed.accesses = BusAccess.readsFrom p.regs.pc bytes ∧
      ∀ l, listed.result = .ok l → l.address = p.regs.pc ∧ l.bytes = bytes) ∧
    listed.accesses <+: stepped.accesses ∧
    (∀ f, listed.result = .error f ↔ stepped.result.cycles = .error f) ∧
    ∀ l, listed.result = .ok l →
      l.length = l.opcode.size + l.extraBytes ∧ 1 ≤ l.length ∧ l.length ≤ 5 ∧
      ∃ done, (p.regs.execute.run bus).result = .ok done ∧
        stepped.result = ⟨p.retire done, .ok done.cycles⟩ ∧
        l.Describes p.regs done stepped.writes := by
  have hstep : p.step = p.executeInstruction := by
    rw [step_of_running hrun, proceed]
    simp [hpending, hrun]
  obtain ⟨bytes, hactions, hread⟩ := (Listing.ensures_read p.regs.pc).run bus
  have hlisted : ((Listing.read p.regs.pc).run bus).accesses =
      BusAccess.readsFrom p.regs.pc bytes := by
    rw [BusM.accesses_run, hactions, Event.filterMap_access?_map]
  dsimp only
  rw [hstep]
  refine ⟨⟨bytes, hlisted, ?_⟩, ?_, fun f => executeInstruction_eq_error_iff.symm, ?_⟩
  · intro l hl
    rw [hl] at hread
    exact ⟨hread.1, hread.2.1⟩
  · cases hresult : ((Listing.read p.regs.pc).run bus).result with
    | error f =>
        obtain ⟨-, -, haccesses⟩ := executeInstruction_of_error hresult
        exact haccesses ▸ List.prefix_rfl
    | ok l =>
        rw [(executeInstruction_of_ok hresult).2.2]
        exact List.prefix_append _ _
  · intro l hl
    rw [hl] at hread
    obtain ⟨-, -, hwell⟩ := hread
    obtain ⟨hdone, -, haccesses⟩ := executeInstruction_of_ok hl
    have hwrites : (p.executeInstruction.run bus).writes =
        ((l.carryOut p.regs).run ((Listing.read p.regs.pc).run bus).bus).writes := by
      rw [Outcome.writes, haccesses, hlisted, List.filterMap_append,
        BusAccess.filterMap_write?_readsFrom]
      rfl
    refine ⟨hwell.length_eq, hwell.length_bounds.1, hwell.length_bounds.2, _,
      result_execute_of_ok hl, hdone, ?_⟩
    rw [hwrites]
    exact hwell.describes p.regs _

/-- LBSR over the top of memory. -/
theorem long_call_executes_listing :
    let p : Processor := { Processor.initial with
      regs := { Registers.initial with pc := 0xFFFE, s := 0x8000 } }
    let m := Memory.zero.load 0xFFFE [0x17, 0x00, 0x10]
    let l : Listing := ⟨0xFFFE, [0x17, 0x00, 0x10], ⟨.zero, 0x17, .bsr, .longRelative⟩,
      .target 0x0011⟩
    p.state = .running ∧ p.latches.pending? p.regs.cc = none ∧
      ((Listing.read p.regs.pc).run m).result = .ok l ∧
      ∃ done, (p.step.run m).result = ⟨p.retire done, .ok done.cycles⟩ ∧
        l.Describes p.regs done (p.step.run m).writes ∧
        PushesFirst 0x0001 done.regs.s (p.step.run m).writes ∧ done.regs.pc = 0x0011 := by
  intro p m l
  have hlisted : ((Listing.read p.regs.pc).run m).result = .ok l := by decide +kernel
  obtain ⟨-, -, -, hexecutes⟩ := step_executes_listing p m rfl rfl
  obtain ⟨-, -, -, done, -, hstep, hdescribes⟩ := hexecutes l hlisted
  have htarget := hdescribes.target rfl (.inr rfl)
  have hnext : l.nextAddress = 0x0001 := by decide
  refine ⟨rfl, rfl, hlisted, done, hstep, hdescribes, hnext ▸ hdescribes.stacked .s rfl, ?_⟩
  simpa [l] using htarget.symm

end Processor

end M6809
