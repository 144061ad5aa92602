import M6809.Execution
import M6809.Proofs.ListingRead

/-!
Executing an instruction is reading its listing and then carrying out what is listed. The main
statement is this equation between computations; it makes every bus access of the decoder one of
the listing's, in the same order.
-/
namespace M6809

section
variable {ε ε' α : Type}

@[simp] theorem mapError_ok (f : ε → ε') (a : α) : (Except.ok a).mapError f = .ok a := rfl

@[simp] theorem mapError_error (f : ε → ε') (e : ε) :
    (Except.error e : Except ε α).mapError f = .error (f e) :=
  rfl

end

namespace BusM

variable {α : Type}

/-- Gives the bytes of a list to the first reads of a computation. -/
def supply : List Byte → BusM α → BusM α
  | [], p => p
  | value :: rest, read _ next => (next value).supply rest
  | _ :: _, p => p

@[simp] theorem supply_nil (p : BusM α) : p.supply [] = p := by
  cases p <;> rfl

@[simp] theorem supply_readByte (value : Byte) (address : Word) (next : Byte → BusM α) :
    (readByte address >>= next).supply [value] = next value :=
  supply_nil (next value)

end BusM

namespace OperandForm

/-- The bytes of an immediate operand. -/
def immediateBytes : OperandForm → List Byte
  | registers _ mask => [mask]
  | transfer postbyte => [postbyte]
  | immediateByte value => [value]
  | immediateWord value => value.bytes
  | _ => []

/-- The operand that a form names, with PC behind the instruction. -/
def locate (form : OperandForm) (r : Registers) : BusM Operand :=
  match form with
  | direct low => pure ⟨Word.ofBytes r.dp low, 0, r⟩
  | extended address | target address => pure ⟨address, 0, r⟩
  | indexed mode fetched => Operand.ofMode mode fetched r
  | _ => pure ⟨r.pc, 0, r⟩

theorem Encodes.immediateBytes_eq_nil {o : Opcode} {next : Word} {bytes : List Byte}
    {form : OperandForm} (h : form.Encodes o next bytes) (hmode : o.mode ≠ .immediate) :
    form.immediateBytes = [] := by
  cases h <;> first | rfl | contradiction

end OperandForm

namespace Registers

/-- Carries out an opcode with a listed operand, whose bytes are not read again. `next` is the
address behind the instruction. -/
def carryOut (r : Registers) (o : Opcode) (form : OperandForm) (next : Word) :
    BusM Execution := do
  let operand ← form.locate { r with pc := next }
  let effect ← (o.operation.perform o.page operand.address operand.regs).supply form.immediateBytes
  pure ⟨o, effect.regs, effect.state, o.cycles + operand.extraCycles + effect.extraCycles⟩

theorem fetchCode_eq (r : Registers) (bytes : List Byte) :
    r.fetchCode = (fun x => (x.1, x.2.1, { r with pc := x.2.2.next })) <$>
      Cursor.code ⟨r.pc, bytes⟩ := by
  refine congrArg (BusM.read r.pc) (funext fun first => ?_)
  simp only [BusM.bind, pure]
  cases Page.ofPrefixByte? first with
  | none => rfl
  | some page => rfl

theorem find_eq (r : Registers) (c : Cursor) {o : Opcode} (hmode : o.mode ≠ .immediate)
    (start : Word) :
    Except.mapError Trap.fault <$> Operand.find o start { r with pc := c.next } =
      c.operand o start >>= fun x => match x with
        | .error fault => pure (.error fault)
        | .ok (form, after) => Except.ok <$> form.locate { r with pc := after.next } := by
  have hofMode : ∀ p : BusM Operand, Except.mapError Trap.fault <$>
      (p >>= fun operand => pure (.ok operand)) = Except.ok <$> p := by
    intro p
    simp
  unfold Operand.find Cursor.operand
  cases hm : o.mode with
  | inherent | direct | extended | relative | longRelative => rfl
  | immediate => exact absurd hm hmode
  | indexed =>
      refine congrArg (BusM.read c.next) (funext fun postbyte => ?_)
      simp only [BusM.bind, pure]
      cases IndexedMode.ofPostbyte? postbyte with
      | none => rfl
      | some mode =>
          obtain ⟨form, register, indirect⟩ := mode
          cases form with
          | offset width | pcOffset width =>
              cases width with
              | byte => exact congrArg (BusM.read _) (funext fun low => hofMode _)
              | word =>
                  refine congrArg (BusM.read _) (funext fun high => ?_)
                  exact congrArg (BusM.read _) (funext fun low => hofMode _)
          | absolute =>
              refine congrArg (BusM.read _) (funext fun high => ?_)
              exact congrArg (BusM.read _) (funext fun low => hofMode _)
          | _ => exact hofMode _

theorem executeOpcode_located (r : Registers) (c : Cursor) {o : Opcode}
    (hmodes : o.mode ∈ o.operation.modes) (hmode : o.mode ≠ .immediate) (start : Word) :
    Except.mapError Trap.fault <$> ({ r with pc := c.next } : Registers).executeOpcode o start =
      c.operand o start >>= fun x => match x with
        | .error fault => pure (.error fault)
        | .ok (form, after) => Except.ok <$> r.carryOut o form after.next := by
  let finish : Except Fault Operand → BusM (Except Fault Execution)
    | .error fault => pure (.error fault)
    | .ok operand => do
      let effect ← o.operation.perform o.page operand.address operand.regs
      let cycles := o.cycles + operand.extraCycles + effect.extraCycles
      pure (.ok ⟨o, effect.regs, effect.state, cycles⟩)
  calc
    _ = (Except.mapError Trap.fault <$> Operand.find o start { r with pc := c.next }) >>=
        finish := by
      unfold executeOpcode
      rw [map_bind, bind_map_left]
      congr 1
      funext x
      cases x <;> simp
    _ = _ := by
      rw [find_eq r c hmode start, bind_assoc]
      apply BusM.bind_congr_of_ensures
      refine (Cursor.ensures_operand hmodes).imp ?_
      rintro events (fault | ⟨form, after⟩) hread
      · rfl
      · obtain ⟨bytes, -, hspelled⟩ := hread
        simp [finish, carryOut, hspelled.immediateBytes_eq_nil hmode]

section
variable (r : Registers) (c : Cursor) {o : Opcode} (hmode : o.mode = .immediate) (start : Word)
include hmode

theorem executeOpcode_immediateByte {form : Byte → OperandForm} {work : Byte → BusM Effect}
    (hwidth : o.operation.immediateWidth = 1)
    (hform : ∀ value, (form value).immediateBytes = [value] ∧
      ∀ r : Registers, (form value).locate r = pure ⟨r.pc, 0, r⟩)
    (hwork : ∀ address, o.operation.perform o.page address { r with pc := c.next + 1 } =
      BusM.readByte address >>= work) :
    Except.mapError Trap.fault <$> ({ r with pc := c.next } : Registers).executeOpcode o start =
      c.byteOperand form >>= fun x => Except.ok <$> r.carryOut o x.1 x.2.next := by
  have hnext : c.next + BitVec.ofNat 16 1 = c.next + 1 := rfl
  unfold executeOpcode Operand.find
  rw [hmode, hwidth]
  simp only [pure_bind, hnext, hwork]
  refine congrArg (BusM.read c.next) (funext fun value => ?_)
  change Except.mapError Trap.fault <$> (work value >>= fun effect => pure (.ok _)) =
    Except.ok <$> r.carryOut o (form value) (c.next + 1)
  simp only [carryOut, (hform value).1, (hform value).2, pure_bind, hwork, BusM.readByte,
    BusM.read_bind, BusM.done_bind, BusM.supply]
  simp

theorem executeOpcode_immediateWord {work : Word → BusM Effect}
    (hwidth : o.operation.immediateWidth = 2)
    (hwork : ∀ address, o.operation.perform o.page address { r with pc := c.next + 1 + 1 } =
      BusM.readWord address >>= work) :
    Except.mapError Trap.fault <$> ({ r with pc := c.next } : Registers).executeOpcode o start =
      c.wordOperand .immediateWord >>= fun x => Except.ok <$> r.carryOut o x.1 x.2.next := by
  have hnext : c.next + BitVec.ofNat 16 2 = c.next + 1 + 1 := by
    rw [BitVec.add_assoc]
    rfl
  unfold executeOpcode Operand.find
  rw [hmode, hwidth]
  simp only [pure_bind, hnext, hwork]
  refine congrArg (BusM.read c.next) (funext fun high => ?_)
  refine congrArg (BusM.read (c.next + 1)) (funext fun low => ?_)
  change Except.mapError Trap.fault <$> (work (Word.ofBytes high low) >>= fun effect =>
    pure (.ok _)) = Except.ok <$> r.carryOut o (.immediateWord (Word.ofBytes high low)) _
  simp only [carryOut, OperandForm.locate, OperandForm.immediateBytes, Word.bytes, pure_bind,
    hwork, BusM.readWord, BusM.read_bind, BusM.done_bind, BusM.supply, Word.highByte_ofBytes,
    Word.lowByte_ofBytes]
  simp

theorem executeOpcode_immediate (hmodes : o.mode ∈ o.operation.modes) :
    Except.mapError Trap.fault <$> ({ r with pc := c.next } : Registers).executeOpcode o start =
      c.immediate o.operation >>= fun x => Except.ok <$> r.carryOut o x.1 x.2.next := by
  rw [hmode] at hmodes
  cases hop : o.operation with
  | push stack | pull stack | tfr | exg | byte op acc | orcc | andcc | cwai =>
      exact executeOpcode_immediateByte r c hmode start (by rw [hop]; rfl)
        (fun value => ⟨rfl, fun _ => rfl⟩) (fun address => by rw [hop]; rfl)
  | word op reg =>
      exact executeOpcode_immediateWord r c hmode start (by rw [hop]; rfl)
        (fun address => by rw [hop]; rfl)
  | modify op target => cases target <;> simp [hop, Operation.modes] at hmodes
  | _ => simp [hop, Operation.modes] at hmodes

end

theorem executeOpcode_eq (r : Registers) (c : Cursor) {o : Opcode}
    (hmodes : o.mode ∈ o.operation.modes) (start : Word) :
    Except.mapError Trap.fault <$> ({ r with pc := c.next } : Registers).executeOpcode o start =
      c.operand o start >>= fun x => match x with
        | .error fault => pure (.error fault)
        | .ok (form, after) => Except.ok <$> r.carryOut o form after.next := by
  by_cases hmode : o.mode = .immediate
  · rw [executeOpcode_immediate r c hmode start hmodes]
    unfold Cursor.operand
    rw [hmode]
    simp
  · exact executeOpcode_located r c hmodes hmode start

end Registers

/-- Carries a listed instruction out. -/
def Listing.carryOut (l : Listing) (r : Registers) : BusM Execution :=
  r.carryOut l.opcode l.operand l.nextAddress

namespace Registers

theorem execute_eq (r : Registers) :
    Except.mapError Trap.fault <$> r.execute =
      Listing.read r.pc >>= fun x => match x with
        | .error fault => pure (.error fault)
        | .ok l => Except.ok <$> l.carryOut r := by
  unfold execute Listing.read
  rw [fetchCode_eq r [], map_bind, bind_map_left, bind_assoc]
  apply BusM.bind_congr_of_ensures
  refine (Cursor.ensures_code ⟨r.pc, []⟩).imp ?_
  rintro events ⟨page, code, c⟩ hcode
  dsimp only at hcode ⊢
  cases ho : Opcode.ofCode? page code with
  | none => simp
  | some o =>
      dsimp only
      rw [executeOpcode_eq r c (Opcode.mode_mem_modes ho), bind_assoc]
      apply BusM.bind_congr_of_ensures
      refine (Cursor.ensures_operand (Opcode.mode_mem_modes ho)).imp ?_
      rintro rest (fault | ⟨form, after⟩) hread
      · rfl
      · obtain ⟨bytes, hfetch, -⟩ := hread
        have hafter := (hcode.append hfetch).2
        rw [hafter]
        rfl

theorem ensures_find_trap (r : Registers) (o : Opcode) (start : Word) :
    (Operand.find o start r).Ensures fun _ result =>
      ∀ trap, result = .error trap → { trap.regs with pc := r.pc } = r := by
  unfold Operand.find
  cases o.mode with
  | inherent | immediate => rintro trap ⟨⟩
  | direct | relative => rintro value trap ⟨⟩
  | extended | longRelative => rintro high low trap ⟨⟩
  | indexed =>
      unfold Operand.indexed fetchByte
      simp only [BusM.ensures_bind, BusM.ensures_readByte, BusM.ensures_pure]
      intro postbyte
      cases IndexedMode.ofPostbyte? postbyte with
      | none =>
          rintro trap ⟨⟩
          rfl
      | some mode =>
          simp only [BusM.ensures_bind]
          refine BusM.ensures_of_forall _ fun _ _ => BusM.ensures_of_forall _ fun _ _ => ?_
          rintro trap ⟨⟩

theorem ensures_execute_trap (r : Registers) :
    r.execute.Ensures fun _ result =>
      ∀ trap, result = .error trap → { trap.regs with pc := r.pc } = r := by
  -- fetching moves nothing but PC, and once the operand is found nothing traps
  unfold execute
  rw [fetchCode_eq r [], bind_map_left, BusM.ensures_bind]
  refine BusM.ensures_of_forall _ ?_
  rintro - ⟨page, code, c⟩
  dsimp only
  cases Opcode.ofCode? page code with
  | none =>
      rintro trap ⟨⟩
      rfl
  | some o =>
      unfold executeOpcode
      dsimp only
      rw [BusM.ensures_bind]
      refine (ensures_find_trap _ o r.pc).imp ?_
      rintro - (trap | operand) htrap
      · rintro _ ⟨⟩
        exact congrArg (fun q : Registers => { q with pc := r.pc }) (htrap trap rfl)
      · simp only [BusM.ensures_bind]
        refine BusM.ensures_of_forall _ fun events effect => ?_
        rintro trap ⟨⟩

end Registers

end M6809
