namespace M6809

/-- Eight bits: a memory cell, an accumulator, an opcode. -/
abbrev Byte := BitVec 8

/-- Sixteen bits: an address or one of the wide registers. -/
abbrev Word := BitVec 16

namespace Word

/-- The word whose bytes are `high` and `low`, in memory order. -/
def ofBytes (high low : Byte) : Word := BitVec.ofNat 16 (high.toNat * 256 + low.toNat)

def highByte (w : Word) : Byte := BitVec.ofNat 8 (w.toNat / 256)

def lowByte (w : Word) : Byte := BitVec.ofNat 8 w.toNat

def bytes (w : Word) : List Byte := [w.highByte, w.lowByte]

theorem toNat_ofBytes (high low : Byte) :
    (ofBytes high low).toNat = high.toNat * 256 + low.toNat := by
  have := high.isLt
  have := low.isLt
  simp only [ofBytes, BitVec.toNat_ofNat]
  omega

theorem toNat_highByte (w : Word) : (highByte w).toNat = w.toNat / 256 := by
  have := w.isLt
  simp only [highByte, BitVec.toNat_ofNat]
  omega

theorem toNat_lowByte (w : Word) : (lowByte w).toNat = w.toNat % 256 := by
  simp [lowByte]

@[simp] theorem ofBytes_highByte_lowByte (w : Word) : ofBytes (highByte w) (lowByte w) = w := by
  apply BitVec.eq_of_toNat_eq
  rw [toNat_ofBytes, toNat_highByte, toNat_lowByte]
  omega

@[simp] theorem highByte_ofBytes (high low : Byte) : highByte (ofBytes high low) = high := by
  apply BitVec.eq_of_toNat_eq
  have := low.isLt
  rw [toNat_highByte, toNat_ofBytes]
  omega

@[simp] theorem lowByte_ofBytes (high low : Byte) : lowByte (ofBytes high low) = low := by
  apply BitVec.eq_of_toNat_eq
  have := low.isLt
  rw [toNat_lowByte, toNat_ofBytes]
  omega

theorem add_one_add_ofNat (address : Word) (n : Nat) :
    address + 1 + BitVec.ofNat 16 n = address + BitVec.ofNat 16 (n + 1) := by
  rw [BitVec.add_assoc, Nat.add_comm n 1, BitVec.ofNat_add]
  rfl

theorem sub_ofNat_sub_one (address : Word) (n : Nat) :
    address - BitVec.ofNat 16 n - 1 = address - BitVec.ofNat 16 (n + 1) := by
  rw [BitVec.sub_sub, BitVec.ofNat_add]
  rfl

end Word

/-- A byte taken as a signed displacement. -/
def Byte.displacement (b : Byte) : Word := b.signExtend 16

end M6809
