import M6809.Proofs.CarryOut
import M6809.Proofs.PostbyteTable

namespace M6809

/-- Forms that reckon from a base register. -/
def IndexForm.usesBase : IndexForm → Bool
  | pcOffset _ | absolute => false
  | _ => true

namespace IndexedMode

/-- Modes that differ at most in a register that they do not use. -/
structure Alike (mode mode' : IndexedMode) : Prop where
  form : mode.form = mode'.form
  indirect : mode.indirect = mode'.indirect
  register : mode.form.usesBase = true → mode.register = mode'.register

/-- Where the base register ends up, in the modes that move it. -/
def writeback? (mode : IndexedMode) (r : Registers) : Option (IndexRegister × Word) :=
  (mode.newBase? r).map fun base => (mode.register, base)

/-- Modes that resolve to the same operand, whatever the registers and the bytes fetched are. -/
structure SameResolution (mode mode' : IndexedMode) : Prop where
  extraBytes : mode.extraBytes = mode'.extraBytes
  extraCycles : mode.extraCycles = mode'.extraCycles
  indirect : mode.indirect = mode'.indirect
  address : ∀ r fetched, mode.address r fetched = mode'.address r fetched
  writeback? : ∀ r, mode.writeback? r = mode'.writeback? r

section
variable {mode mode' : IndexedMode}

theorem Alike.eq_of_usesBase (h : mode.Alike mode') (hbase : mode.form.usesBase = true) :
    mode = mode' := by
  have hregister := h.register hbase
  obtain ⟨form, register, indirect⟩ := mode
  obtain ⟨form', register', indirect'⟩ := mode'
  obtain ⟨rfl, rfl, -⟩ := h
  exact congrArg (fun reg => IndexedMode.mk form reg indirect) hregister

theorem Alike.sameResolution (h : mode.Alike mode') : mode.SameResolution mode' := by
  cases hbase : mode.form.usesBase with
  | true =>
      obtain rfl := h.eq_of_usesBase hbase
      exact ⟨rfl, rfl, rfl, fun _ _ => rfl, fun _ => rfl⟩
  | false =>
      obtain ⟨form, register, indirect⟩ := mode
      obtain ⟨form', register', indirect'⟩ := mode'
      obtain ⟨rfl, rfl, -⟩ := h
      cases form with
      | pcOffset _ | absolute => exact ⟨rfl, rfl, rfl, fun _ _ => rfl, fun _ => rfl⟩
      | _ => cases hbase

theorem moveBase_eq_writeback? (mode : IndexedMode) (r : Registers) :
    mode.moveBase r =
      ((mode.writeback? r).map fun moved => r.setIndex moved.1 moved.2).getD r := by
  unfold moveBase writeback?
  cases mode.newBase? r <;> rfl

theorem SameResolution.ofMode (h : mode.SameResolution mode') (fetched : Word) (r : Registers) :
    Operand.ofMode mode fetched r = Operand.ofMode mode' fetched r := by
  unfold Operand.ofMode
  rw [h.address, h.indirect, h.extraCycles, moveBase_eq_writeback?, moveBase_eq_writeback?,
    h.writeback?]

theorem ofPostbyte?_and : ∀ b : Byte,
    ofPostbyte? (b &&& 0x9F) = (ofPostbyte? b).map fun mode => { mode with register := .x } := by
  decide +kernel

section
variable {postbyte postbyte' : Byte} (h : ofPostbyte? postbyte = some mode)
include h

theorem postbyte_and_eq :
    ({ mode with register := .x } : IndexedMode).postbyte = postbyte &&& 0x9F := by
  apply (ofPostbyte?_eq_some_iff.mp _).2
  rw [ofPostbyte?_and, h, Option.map_some]

theorem Alike.postbyte_and (h' : ofPostbyte? postbyte' = some mode') (halike : mode.Alike mode') :
    postbyte &&& 0x9F = postbyte' &&& 0x9F := by
  rw [← postbyte_and_eq h, ← postbyte_and_eq h', halike.form, halike.indirect]

theorem exists_alike_of_postbyte_and (hbase : mode.form.usesBase = false)
    (hbits : postbyte &&& 0x9F = postbyte' &&& 0x9F) :
    ∃ mode', ofPostbyte? postbyte' = some mode' ∧ mode.Alike mode' := by
  -- with the bits of the base cleared, both postbytes are those of one mode
  have hcleared := ofPostbyte?_and postbyte'
  rw [← hbits, ofPostbyte?_and, h, Option.map_some] at hcleared
  obtain ⟨mode', hmode', heq⟩ := Option.map_eq_some_iff.mp hcleared.symm
  have hfields := IndexedMode.mk.inj heq
  refine ⟨mode', hmode', hfields.1.symm, hfields.2.2.symm, fun huse => ?_⟩
  rw [hbase] at huse
  cases huse

end

end

end IndexedMode

namespace TransferRegister

/-- The codes without a register. -/
def undefinedCodes : List Nat := [0x6, 0x7, 0xC, 0xD, 0xE, 0xF]

/-- Codes that are the same, or both without a register. -/
def SameCode (code code' : Nat) : Prop :=
  code = code' ∨ code ∈ undefinedCodes ∧ code' ∈ undefinedCodes

instance (code code' : Nat) : Decidable (SameCode code code') :=
  inferInstanceAs (Decidable (_ ∨ _))

theorem ofCode?_ofNat_mod (code : Byte) :
    ofCode? (BitVec.ofNat 8 (code.toNat % 16)) = ofCode? code := by
  have hmod : code.toNat % 16 % 256 % 16 = code.toNat % 16 := by omega
  unfold ofCode?
  rw [BitVec.toNat_ofNat, hmod]

theorem toNat_shiftRight_mod (postbyte : Byte) :
    (postbyte >>> 4).toNat % 16 = postbyte.toNat / 16 := by
  have hlt := postbyte.isLt
  rw [BitVec.toNat_ushiftRight, Nat.shiftRight_eq_div_pow]
  omega

theorem sameCode_of_ofCode?_eq {code code' : Byte} (h : ofCode? code = ofCode? code') :
    SameCode (code.toNat % 16) (code'.toNat % 16) := by
  have hall : ∀ n < 16, ∀ n' < 16, ofCode? (BitVec.ofNat 8 n) = ofCode? (BitVec.ofNat 8 n') →
      SameCode n n' := by
    decide +kernel
  rw [← ofCode?_ofNat_mod code, ← ofCode?_ofNat_mod code'] at h
  exact hall _ (Nat.mod_lt _ (by decide)) _ (Nat.mod_lt _ (by decide)) h

theorem ofCode?_eq_none {code : Byte} (h : code.toNat % 16 ∈ undefinedCodes) :
    ofCode? code = none := by
  have hall : ∀ n ∈ undefinedCodes, ofCode? (BitVec.ofNat 8 n) = none := by decide
  rw [← ofCode?_ofNat_mod]
  exact hall _ h

end TransferRegister

namespace Registers

theorem getCoded_congr (r : Registers) {code code' : Byte}
    (h : TransferRegister.ofCode? code = TransferRegister.ofCode? code') :
    r.getCoded code = r.getCoded code' := by
  unfold getCoded
  rw [h]

theorem setCoded_congr (r : Registers) {code code' : Byte}
    (h : TransferRegister.ofCode? code = TransferRegister.ofCode? code') (value : Word) :
    r.setCoded code value = r.setCoded code' value := by
  unfold setCoded
  rw [h]

theorem carryOut_indexed_congr {mode mode' : IndexedMode} (h : mode.SameResolution mode')
    (r : Registers) (o : Opcode) (fetched next : Word) :
    r.carryOut o (.indexed mode fetched) next = r.carryOut o (.indexed mode' fetched) next := by
  have hlocate : ∀ r, (OperandForm.indexed mode fetched).locate r =
      (OperandForm.indexed mode' fetched).locate r := h.ofMode fetched
  unfold carryOut
  rw [hlocate]
  rfl

theorem carryOut_transfer_congr {postbyte postbyte' : Byte} {o : Opcode}
    (hop : o.operation = .tfr ∨ o.operation = .exg)
    (hsource : TransferRegister.ofCode? (postbyte >>> 4) =
      TransferRegister.ofCode? (postbyte' >>> 4))
    (hdestination : TransferRegister.ofCode? postbyte = TransferRegister.ofCode? postbyte')
    (r : Registers) (next : Word) :
    r.carryOut o (.transfer postbyte) next = r.carryOut o (.transfer postbyte') next := by
  have htransfer : ∀ r : Registers, r.transfer postbyte = r.transfer postbyte' := by
    intro r
    unfold transfer
    rw [r.getCoded_congr hsource, r.setCoded_congr hdestination]
  have hexchange : ∀ r : Registers, r.exchange postbyte = r.exchange postbyte' := by
    intro r
    unfold exchange
    simp only
    rw [r.getCoded_congr hsource, r.getCoded_congr hdestination, r.setCoded_congr hsource,
      setCoded_congr _ hdestination]
  unfold carryOut OperandForm.locate OperandForm.immediateBytes
  rcases hop with hop | hop
  · simp only [hop, Operation.perform, pure_bind, BusM.supply_readByte, htransfer]
  · simp only [hop, Operation.perform, pure_bind, BusM.supply_readByte, hexchange]

end Registers

/-- Operand bytes of an opcode that differ at most in bits that do not matter. -/
inductive Opcode.SpelledAlike (o : Opcode) : List Byte → List Byte → Prop
  | same (operand : List Byte) : SpelledAlike o operand operand
  | base {postbyte postbyte' : Byte} {mode : IndexedMode} (extra : List Byte)
      (hmode : o.mode = .indexed) (hpostbyte : IndexedMode.ofPostbyte? postbyte = some mode)
      (hbase : mode.form.usesBase = false) (hbits : postbyte &&& 0x9F = postbyte' &&& 0x9F) :
      SpelledAlike o (postbyte :: extra) (postbyte' :: extra)
  | codes {postbyte postbyte' : Byte} (hop : o.operation = .tfr ∨ o.operation = .exg)
      (hhigh : TransferRegister.SameCode (postbyte.toNat / 16) (postbyte'.toNat / 16))
      (hlow : TransferRegister.SameCode (postbyte.toNat % 16) (postbyte'.toNat % 16)) :
      SpelledAlike o [postbyte] [postbyte']

theorem Opcode.spelledAlike_of_modes {o : Opcode} {postbyte postbyte' : Byte}
    {mode mode' : IndexedMode} (hmode : o.mode = .indexed)
    (hpostbyte : IndexedMode.ofPostbyte? postbyte = some mode)
    (hpostbyte' : IndexedMode.ofPostbyte? postbyte' = some mode') (halike : mode.Alike mode')
    (extra : List Byte) : o.SpelledAlike (postbyte :: extra) (postbyte' :: extra) := by
  cases hbase : mode.form.usesBase with
  | true =>
      obtain rfl := halike.eq_of_usesBase hbase
      rw [← (IndexedMode.ofPostbyte?_eq_some_iff.mp hpostbyte).2,
        ← (IndexedMode.ofPostbyte?_eq_some_iff.mp hpostbyte').2]
      exact .same _
  | false => exact .base extra hmode hpostbyte hbase (halike.postbyte_and hpostbyte hpostbyte')

theorem Opcode.spelledAlike_of_codes {o : Opcode} {postbyte postbyte' : Byte}
    (hop : o.operation = .tfr ∨ o.operation = .exg)
    (hsource : TransferRegister.ofCode? (postbyte >>> 4) =
      TransferRegister.ofCode? (postbyte' >>> 4))
    (hdestination : TransferRegister.ofCode? postbyte = TransferRegister.ofCode? postbyte') :
    o.SpelledAlike [postbyte] [postbyte'] := by
  apply SpelledAlike.codes hop
  · rw [← TransferRegister.toNat_shiftRight_mod, ← TransferRegister.toNat_shiftRight_mod]
    exact TransferRegister.sameCode_of_ofCode?_eq hsource
  · exact TransferRegister.sameCode_of_ofCode?_eq hdestination

end M6809
