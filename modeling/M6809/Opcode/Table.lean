import M6809.Opcode

/-!
The opcode map. A page is a grid of sixteen rows and columns, the two nibbles of the code; most
rows hold one addressing mode and most columns one operation. The main statements say that the
table describes a code under its own page and number, and that the listing of the table holds
exactly the defined codes.
-/
namespace M6809

/-- The operation and addressing mode at one place of a page. -/
abbrev Slot := Operation × AddressingMode

namespace Modification

def ofColumn? : Nat → Option Modification
  | 0x0 => some neg
  | 0x3 => some com
  | 0x4 => some lsr
  | 0x6 => some ror
  | 0x7 => some asr
  | 0x8 => some asl
  | 0x9 => some rol
  | 0xA => some dec
  | 0xC => some inc
  | 0xD => some tst
  | 0xF => some clr
  | _ => none

end Modification

namespace ByteOperation

def ofColumn? : Nat → Option ByteOperation
  | 0x0 => some sub
  | 0x1 => some cmp
  | 0x2 => some sbc
  | 0x4 => some and
  | 0x5 => some bit
  | 0x6 => some ld
  | 0x8 => some eor
  | 0x9 => some adc
  | 0xA => some or
  | 0xB => some add
  | _ => none

end ByteOperation

namespace Slot

/-- Rows 0, 6 and 7: the memory forms of the read-modify-write operations, and JMP. -/
def memory? (mode : AddressingMode) (column : Nat) : Option Slot :=
  if column = 0xE then some (.jmp, mode)
  else (Modification.ofColumn? column).map fun op => (.modify op .memory, mode)

def accumulator? (acc : Accumulator) (column : Nat) : Option Slot :=
  (Modification.ofColumn? column).map fun op => (.modify op (.accumulator acc), .inherent)

def control? : Nat → Option Slot
  | 0x2 => some (.nop, .inherent)
  | 0x3 => some (.sync, .inherent)
  | 0x6 => some (.branch .always, .longRelative)
  | 0x7 => some (.bsr, .longRelative)
  | 0x9 => some (.daa, .inherent)
  | 0xA => some (.orcc, .immediate)
  | 0xC => some (.andcc, .immediate)
  | 0xD => some (.sex, .inherent)
  | 0xE => some (.exg, .immediate)
  | 0xF => some (.tfr, .immediate)
  | _ => none

def stackControl? : Nat → Option Slot
  | 0x0 => some (.lea .x, .indexed)
  | 0x1 => some (.lea .y, .indexed)
  | 0x2 => some (.lea .s, .indexed)
  | 0x3 => some (.lea .u, .indexed)
  | 0x4 => some (.push .s, .immediate)
  | 0x5 => some (.pull .s, .immediate)
  | 0x6 => some (.push .u, .immediate)
  | 0x7 => some (.pull .u, .immediate)
  | 0x9 => some (.rts, .inherent)
  | 0xA => some (.abx, .inherent)
  | 0xB => some (.rti, .inherent)
  | 0xC => some (.cwai, .immediate)
  | 0xD => some (.mul, .inherent)
  | 0xF => some (.swi .swi, .inherent)
  | _ => none

def operandMode (row : Nat) : AddressingMode :=
  match row % 4 with
  | 0 => .immediate
  | 1 => .direct
  | 2 => .indexed
  | _ => .extended

/-- A store has no immediate form. -/
def store? (operation : Operation) (mode : AddressingMode) : Option Slot :=
  if mode = .immediate then none else some (operation, mode)

def byte? (acc : Accumulator) (mode : AddressingMode) (column : Nat) : Option Slot :=
  (ByteOperation.ofColumn? column).map fun op => (.byte op acc, mode)

/-- Rows 8 to B of page zero: A, X and the subroutine calls. -/
def lower? (mode : AddressingMode) (column : Nat) : Option Slot :=
  match column with
  | 0x3 => some (.word .sub .d, mode)
  | 0x7 => store? (.storeByte .a) mode
  | 0xC => some (.word .cmp .x, mode)
  | 0xD => if mode = .immediate then some (.bsr, .relative) else some (.jsr, mode)
  | 0xE => some (.word .ld .x, mode)
  | 0xF => store? (.storeWord .x) mode
  | _ => byte? .a mode column

/-- Rows C to F of page zero: B, D and U. -/
def upper? (mode : AddressingMode) (column : Nat) : Option Slot :=
  match column with
  | 0x3 => some (.word .add .d, mode)
  | 0x7 => store? (.storeByte .b) mode
  | 0xC => some (.word .ld .d, mode)
  | 0xD => store? (.storeWord .d) mode
  | 0xE => some (.word .ld .u, mode)
  | 0xF => store? (.storeWord .u) mode
  | _ => byte? .b mode column

def pageZero? (row column : Nat) : Option Slot :=
  match row with
  | 0x0 => memory? .direct column
  | 0x1 => control? column
  | 0x2 => some (.branch (Condition.ofCode column), .relative)
  | 0x3 => stackControl? column
  | 0x4 => accumulator? .a column
  | 0x5 => accumulator? .b column
  | 0x6 => memory? .indexed column
  | 0x7 => memory? .extended column
  | 0x8 | 0x9 | 0xA | 0xB => lower? (operandMode row) column
  | _ => upper? (operandMode row) column

def pageOne? (row column : Nat) : Option Slot :=
  match row, column with
  | 0x2, 0x0 => none
  | 0x2, _ => some (.branch (Condition.ofCode column), .longRelative)
  | 0x3, 0xF => some (.swi .swi2, .inherent)
  | 0x8, 0x3 | 0x9, 0x3 | 0xA, 0x3 | 0xB, 0x3 => some (.word .cmp .d, operandMode row)
  | 0x8, 0xC | 0x9, 0xC | 0xA, 0xC | 0xB, 0xC => some (.word .cmp .y, operandMode row)
  | 0x8, 0xE | 0x9, 0xE | 0xA, 0xE | 0xB, 0xE => some (.word .ld .y, operandMode row)
  | 0x8, 0xF | 0x9, 0xF | 0xA, 0xF | 0xB, 0xF => store? (.storeWord .y) (operandMode row)
  | 0xC, 0xE | 0xD, 0xE | 0xE, 0xE | 0xF, 0xE => some (.word .ld .s, operandMode row)
  | 0xC, 0xF | 0xD, 0xF | 0xE, 0xF | 0xF, 0xF => store? (.storeWord .s) (operandMode row)
  | _, _ => none

def pageTwo? (row column : Nat) : Option Slot :=
  match row, column with
  | 0x3, 0xF => some (.swi .swi3, .inherent)
  | 0x8, 0x3 | 0x9, 0x3 | 0xA, 0x3 | 0xB, 0x3 => some (.word .cmp .u, operandMode row)
  | 0x8, 0xC | 0x9, 0xC | 0xA, 0xC | 0xB, 0xC => some (.word .cmp .s, operandMode row)
  | _, _ => none

end Slot

namespace Opcode

/-- The opcode of a code on a page; `none` where the page defines none. -/
def ofCode? (page : Page) (code : Byte) : Option Opcode :=
  let row := code.toNat / 16
  let column := code.toNat % 16
  let slot? := match page with
    | .zero => Slot.pageZero? row column
    | .one => Slot.pageOne? row column
    | .two => Slot.pageTwo? row column
  slot?.map fun slot => ⟨page, code, slot.1, slot.2⟩

/-- Every defined opcode, page by page and by code. -/
def all : List Opcode :=
  Page.all.flatMap fun page =>
    (List.range 256).filterMap fun code => ofCode? page (BitVec.ofNat 8 code)

theorem page_code_of_ofCode? {page : Page} {code : Byte} {o : Opcode}
    (h : ofCode? page code = some o) : o.page = page ∧ o.code = code := by
  obtain ⟨slot, _, rfl⟩ := Option.map_eq_some_iff.mp h
  exact ⟨rfl, rfl⟩

theorem mem_all_iff {o : Opcode} : o ∈ all ↔ ofCode? o.page o.code = some o := by
  simp only [all, List.mem_flatMap, List.mem_filterMap, List.mem_range]
  constructor
  · rintro ⟨page, _, code, _, h⟩
    obtain ⟨rfl, hcode⟩ := page_code_of_ofCode? h
    rw [hcode, h]
  · intro h
    refine ⟨o.page, by cases o.page <;> simp [Page.all], o.code.toNat, o.code.isLt, ?_⟩
    simpa using h

end Opcode

end M6809
