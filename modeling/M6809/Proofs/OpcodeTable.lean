import M6809.Opcode.Table

namespace M6809

/-- The modes that an operation finds its operand in. -/
def Operation.modes : Operation → List AddressingMode
  | modify _ (.accumulator _) | rts | rti | sync | swi _ | nop | daa | sex | abx | mul =>
      [.inherent]
  | modify _ .memory | storeByte _ | storeWord _ | jmp | jsr => [.direct, .indexed, .extended]
  | byte _ _ | word _ _ => [.immediate, .direct, .indexed, .extended]
  | lea _ => [.indexed]
  | branch _ | bsr => [.relative, .longRelative]
  | push _ | pull _ | tfr | exg | orcc | andcc | cwai => [.immediate]

namespace Opcode

theorem mode_mem_modes_of_mem_all : ∀ o ∈ all, o.mode ∈ o.operation.modes := by
  decide +kernel

theorem mode_mem_modes {page : Page} {code : Byte} {o : Opcode} (h : ofCode? page code = some o) :
    o.mode ∈ o.operation.modes := by
  apply mode_mem_modes_of_mem_all
  obtain ⟨rfl, rfl⟩ := page_code_of_ofCode? h
  exact mem_all_iff.mpr h

end Opcode

end M6809
