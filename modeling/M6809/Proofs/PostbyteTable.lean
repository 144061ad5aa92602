import M6809.Indexed

namespace M6809

/-- The bits of a form in a postbyte, apart from those of the register and the indirection. -/
def IndexForm.bits : IndexForm → Nat
  | short n => n.toNat
  | increment .one => 0x80
  | increment .two => 0x81
  | decrement .one => 0x82
  | decrement .two => 0x83
  | plain => 0x84
  | accumulator .b => 0x85
  | accumulator .a => 0x86
  | offset .byte => 0x88
  | offset .word => 0x89
  | pair => 0x8B
  | pcOffset .byte => 0x8C
  | pcOffset .word => 0x8D
  | absolute => 0x8F

/-- Forms that move their base by one and offsets of five bits are never indirect, and an absolute
address always is. -/
def IndexForm.allows (form : IndexForm) (indirect : Bool) : Bool :=
  match form with
  | short _ | increment .one | decrement .one => !indirect
  | absolute => indirect
  | _ => true

namespace IndexedMode

/-- The postbyte of a mode, which has one if it is legal. -/
def postbyte (mode : IndexedMode) : Byte :=
  BitVec.ofNat 8 (mode.form.bits + 32 * mode.register.number + if mode.indirect then 16 else 0)

def IsLegal (mode : IndexedMode) : Prop := mode.form.allows mode.indirect = true

instance (mode : IndexedMode) : Decidable mode.IsLegal := inferInstanceAs (Decidable (_ = true))

theorem isLegal_of_ofPostbyte? :
    ∀ b : Byte, ∀ mode ∈ ofPostbyte? b, mode.IsLegal ∧ mode.postbyte = b := by
  decide +kernel

theorem ofPostbyte?_postbyte_short (register : IndexRegister) : ∀ n : BitVec 5,
    ofPostbyte? (postbyte ⟨.short n, register, false⟩) = some ⟨.short n, register, false⟩ := by
  cases register <;> decide

theorem ofPostbyte?_postbyte {mode : IndexedMode} (h : mode.IsLegal) :
    ofPostbyte? mode.postbyte = some mode := by
  obtain ⟨form, register, indirect⟩ := mode
  cases form with
  | short n =>
      obtain rfl : indirect = false := by simpa [IsLegal, IndexForm.allows] using h
      exact ofPostbyte?_postbyte_short register n
  | increment step | decrement step =>
      cases step with
      | one =>
          obtain rfl : indirect = false := by simpa [IsLegal, IndexForm.allows] using h
          cases register <;> rfl
      | two => cases register <;> cases indirect <;> rfl
  | accumulator reg => cases reg <;> cases register <;> cases indirect <;> rfl
  | offset width | pcOffset width => cases width <;> cases register <;> cases indirect <;> rfl
  | plain | pair => cases register <;> cases indirect <;> rfl
  | absolute =>
      obtain rfl : indirect = true := h
      cases register <;> rfl

theorem ofPostbyte?_eq_some_iff {b : Byte} {mode : IndexedMode} :
    ofPostbyte? b = some mode ↔ mode.IsLegal ∧ mode.postbyte = b := by
  constructor
  · intro h
    exact isLegal_of_ofPostbyte? b mode h
  · rintro ⟨hlegal, rfl⟩
    exact ofPostbyte?_postbyte hlegal

end IndexedMode

end M6809
