import M6809.Proofs.ControlFlow

namespace M6809

theorem IndexedMode.extraCycles_le (mode : IndexedMode) : mode.extraCycles ≤ 8 := by
  have hform : mode.form.cycles ≤ 5 := by
    unfold IndexForm.cycles
    split <;> omega
  unfold extraCycles
  split <;> omega

namespace Operation

/-- The most that an operation adds to the cycles of its opcode. -/
def maxExtraCycles : Operation → Nat
  | branch _ => 1
  | rti => 9
  | push _ | pull _ => 12
  | _ => 0

theorem ensures_returnFromInterrupt_cycles (r : Registers) :
    (returnFromInterrupt r).Ensures fun _ effect => effect.extraCycles ≤ 9 := by
  unfold returnFromInterrupt
  rw [BusM.ensures_bind]
  refine BusM.ensures_of_forall _ ?_
  rintro - ⟨bits, pulled⟩
  dsimp only
  split
  · simp only [BusM.ensures_bind, BusM.ensures_report, BusM.ensures_pure]
    exact BusM.ensures_of_forall _ fun _ _ => Nat.le_refl 9
  · simp only [BusM.ensures_bind, BusM.ensures_report, BusM.ensures_pure]
    exact BusM.ensures_of_forall _ fun _ _ => Nat.zero_le 9

theorem ensures_perform_cycles (op : Operation) (page : Page) (address : Word) (r : Registers) :
    (op.perform page address r).Ensures fun _ effect =>
      effect.extraCycles ≤ op.maxExtraCycles := by
  cases op with
  | modify op target => cases target <;> simp [perform, Effect.ofRegisters]
  | lea reg => cases reg <;> simp [perform, Effect.ofRegisters]
  | branch condition =>
      cases h : condition.holds r.cc with
      | true =>
          simp only [perform, h, if_true, BusM.ensures_pure, maxExtraCycles]
          split <;> omega
      | false => simp [perform, h, Effect.ofRegisters]
  | bsr | jsr | rts =>
      simp only [perform, BusM.ensures_bind, BusM.ensures_pure]
      exact BusM.ensures_of_forall _ fun _ _ => Nat.le_refl 0
  | rti => exact ensures_returnFromInterrupt_cycles r
  | push stack | pull stack =>
      simp only [perform, BusM.ensures_bind, BusM.ensures_readByte, BusM.ensures_pure]
      intro mask
      exact BusM.ensures_of_forall _ fun _ _ => frameSize_le mask
  | cwai =>
      simp only [perform, BusM.ensures_bind, BusM.ensures_readByte, BusM.ensures_report,
        BusM.ensures_pure]
      intro mask
      -- the push of a known mask would be unfolded byte by byte
      generalize Registers.pushEntire _ = pushed
      exact BusM.ensures_of_forall _ fun _ _ => Nat.le_refl 0
  | swi kind =>
      simp only [perform, softwareInterrupt, Registers.enterHandler, BusM.ensures_bind,
        BusM.ensures_readWord, BusM.ensures_report, BusM.ensures_pure]
      generalize r.pushEntire = pushed
      exact BusM.ensures_of_forall _ fun _ _ _ _ => Nat.le_refl 0
  | _ => simp [perform, Effect.ofRegisters]

end Operation

namespace Opcode

/-- The most that finding an operand adds to the cycles of the opcode. -/
def maxOperandCycles (o : Opcode) : Nat := if o.mode = .indexed then 8 else 0

theorem cycle_bounds_of_mem_all : ∀ o ∈ all,
    2 ≤ o.cycles ∧ o.cycles + o.maxOperandCycles + o.operation.maxExtraCycles ≤ 20 := by
  decide +kernel

theorem cycle_bounds {o : Opcode} (h : ofCode? o.page o.code = some o) :
    2 ≤ o.cycles ∧ o.cycles + o.maxOperandCycles + o.operation.maxExtraCycles ≤ 20 :=
  cycle_bounds_of_mem_all o (mem_all_iff.mpr h)

end Opcode

theorem OperandForm.Encodes.ensures_locate_cycles {o : Opcode} {next : Word} {bytes : List Byte}
    {form : OperandForm} (h : form.Encodes o next bytes) (r : Registers) :
    (form.locate r).Ensures fun _ operand => operand.extraCycles ≤ o.maxOperandCycles := by
  cases h with
  | indexed postbyte mode extra hmode =>
      have hextra : mode.extraCycles ≤ o.maxOperandCycles := by
        rw [Opcode.maxOperandCycles, if_pos hmode]
        exact mode.extraCycles_le
      cases hindirect : mode.indirect <;> simp [locate, Operand.ofMode, hindirect, hextra]
  | _ => exact Nat.zero_le _

namespace Listing

theorem WellFormed.ensures_carryOut_cycles {l : Listing} (h : l.WellFormed) (r : Registers) :
    (l.carryOut r).Ensures fun _ done => 2 ≤ done.cycles ∧ done.cycles ≤ 20 := by
  obtain ⟨hlower, hupper⟩ := Opcode.cycle_bounds h.defined
  obtain ⟨bytes, -, hspelled⟩ := h.spelled
  unfold carryOut Registers.carryOut
  rw [BusM.ensures_bind]
  refine (hspelled.ensures_locate_cycles _).imp ?_
  intro _ operand hoperand
  rw [BusM.ensures_bind]
  refine ((l.opcode.operation.ensures_perform_cycles _ _ _).supply _ fun _ _ _ _ => id).imp ?_
  intro _ effect heffect
  constructor
  · change 2 ≤ l.opcode.cycles + operand.extraCycles + effect.extraCycles
    omega
  · calc
      l.opcode.cycles + operand.extraCycles + effect.extraCycles ≤
          l.opcode.cycles + l.opcode.maxOperandCycles + l.opcode.operation.maxExtraCycles := by
        omega
      _ ≤ 20 := hupper

end Listing

end M6809
