import M6809.Arithmetic
import M6809.Condition
import Mathlib.Algebra.Ring.Int.Defs
import Mathlib.Algebra.Ring.Nat

namespace M6809

namespace ConditionCodes

theorem isSet_update {mask flag : Byte} (h : mask &&& flag = flag) (cc : ConditionCodes)
    (flags : Byte) : (cc.update mask flags).isSet flag = (⟨flags⟩ : ConditionCodes).isSet flag := by
  have hkept : cc.bits &&& ~~~mask &&& flag = 0 := by
    rw [← h, BitVec.and_assoc, ← BitVec.and_assoc (~~~mask) mask]
    simp
  have hbits : ((cc.bits &&& ~~~mask) ||| (flags &&& mask)) &&& flag = flags &&& flag := by
    rw [BitVec.and_or_distrib_right, hkept, BitVec.and_assoc, h]
    exact BitVec.zero_or
  simp only [isSet, update, hbits]

/-- N, Z, V and C as they are read. -/
structure Reads (cc : ConditionCodes) (n z v c : Bool) : Prop where
  negative : cc.negative = n
  zero : cc.zero = z
  overflow : cc.overflow = v
  carry : cc.carry = c

theorem reads_update (cc : ConditionCodes) (n z v c : Bool) :
    (cc.update Arithmetic.maskNZVC
      (Arithmetic.flagIf Flag.negative n ||| Arithmetic.flagIf Flag.zero z |||
        Arithmetic.flagIf Flag.overflow v ||| Arithmetic.flagIf Flag.carry c)).Reads n z v c := by
  constructor
  case negative | zero | overflow | carry =>
    refine (isSet_update (by decide) cc _).trans ?_
    cases n <;> cases z <;> cases v <;> cases c <;> rfl

theorem reads_update_halfCarry (cc : ConditionCodes) (n z v c half : Bool) :
    let after := cc.update (Arithmetic.maskNZVC ||| Flag.halfCarry)
      (Arithmetic.flagIf Flag.negative n ||| Arithmetic.flagIf Flag.zero z |||
        Arithmetic.flagIf Flag.overflow v ||| Arithmetic.flagIf Flag.carry c |||
        Arithmetic.flagIf Flag.halfCarry half)
    after.Reads n z v c ∧ after.halfCarry = half := by
  refine ⟨⟨?_, ?_, ?_, ?_⟩, ?_⟩
  all_goals
    refine (isSet_update (by decide) cc _).trans ?_
    cases n <;> cases z <;> cases v <;> cases c <;> cases half <;> rfl

/-- N is the sign of a value, V says that the exact result is out of its range, and so the two
differ where the exact result is negative. -/
structure TellsSign {w : Nat} (cc : ConditionCodes) (value : BitVec w) (exact : Int) : Prop where
  negative : cc.negative = value.msb
  overflow : cc.overflow = true ↔ exact < -2 ^ (w - 1) ∨ 2 ^ (w - 1) ≤ exact
  sign : (cc.negative != cc.overflow) = decide (exact < 0)

/-- Where V is set, the value is off by the modulus, and N shows in which direction. -/
theorem Reads.tellsSign {w : Nat} {cc : ConditionCodes} {value : BitVec (w + 1)} {z v c : Bool}
    (h : cc.Reads value.msb z v c) {exact : Int}
    (hexact : exact = value.toInt +
      if v then if value.msb then 2 * 2 ^ w else -(2 * 2 ^ w) else 0) :
    cc.TellsSign value exact := by
  have hlow := value.le_toInt
  have hhigh := value.toInt_lt
  have hsign := value.msb_eq_toInt
  refine ⟨h.negative, ?_, ?_⟩
  · rw [h.overflow]
    simp only [Nat.add_sub_cancel] at hlow hhigh ⊢
    generalize (2 ^ w : Int) = half at *
    cases v <;> cases hmsb : value.msb <;> simp [hmsb] at hexact hsign ⊢ <;> omega
  · rw [h.negative, h.overflow]
    simp only [Nat.add_sub_cancel] at hlow hhigh
    generalize (2 ^ w : Int) = half at *
    cases v <;> cases hmsb : value.msb <;> simp [hmsb] at hexact hsign ⊢ <;> omega

end ConditionCodes

namespace Arithmetic

section
variable {w : Nat} (a b : BitVec (w + 1)) (carry : Bool) (cc : ConditionCodes)

theorem reads_add :
    ((add a b carry).updateFlags cc).Reads (add a b carry).value.msb
      ((add a b carry).value == 0)
      ((a.msb ^^ (add a b carry).value.msb) && (b.msb ^^ (add a b carry).value.msb))
      (decide ((add a b carry).value.toNat < a.toNat + b.toNat + carry.toNat)) := by
  rw [← BitVec.msb_xor, ← BitVec.msb_xor, ← BitVec.msb_and]
  exact cc.reads_update _ _ _ _

theorem reads_sub :
    ((sub a b carry).updateFlags cc).Reads (sub a b carry).value.msb
      ((sub a b carry).value == 0)
      ((a.msb ^^ b.msb) && (a.msb ^^ (sub a b carry).value.msb))
      (decide (a.toNat < b.toNat + carry.toNat)) := by
  rw [← BitVec.msb_xor, ← BitVec.msb_xor, ← BitVec.msb_and]
  exact cc.reads_update _ _ _ _

theorem reads_addByte (a b : Byte) :
    ((addByte a b carry).updateFlags cc).Reads (add a b carry).value.msb
      ((add a b carry).value == 0)
      ((a.msb ^^ (add a b carry).value.msb) && (b.msb ^^ (add a b carry).value.msb))
      (decide ((add a b carry).value.toNat < a.toNat + b.toNat + carry.toNat)) ∧
    ((addByte a b carry).updateFlags cc).halfCarry =
      decide (15 < a.toNat % 16 + b.toNat % 16 + carry.toNat) := by
  rw [← BitVec.msb_xor, ← BitVec.msb_xor, ← BitVec.msb_and]
  exact cc.reads_update_halfCarry _ _ _ _ _

theorem toNat_add_value :
    (add a b carry).value.toNat + 2 ^ (w + 1) *
        (decide ((add a b carry).value.toNat < a.toNat + b.toNat + carry.toNat)).toNat =
      a.toNat + b.toNat + carry.toNat := by
  have ha := a.isLt
  have hb := b.isLt
  have hcarry := carry.toNat_le
  have hvalue : (add a b carry).value.toNat =
      (a.toNat + b.toNat + carry.toNat) % 2 ^ (w + 1) := by
    simp [add]
  generalize 2 ^ (w + 1) = modulus at *
  generalize (add a b carry).value.toNat = value at *
  by_cases h : a.toNat + b.toNat + carry.toNat < modulus
  · rw [Nat.mod_eq_of_lt h] at hvalue
    simp [hvalue]
  · rw [Nat.mod_eq_sub_mod (by omega), Nat.mod_eq_of_lt (by omega)] at hvalue
    have hwraps : value < a.toNat + b.toNat + carry.toNat := by omega
    simp only [hwraps, decide_true, Bool.toNat_true]
    omega

theorem add_sub_value : (add (sub a b carry).value b carry).value = a := by
  simp only [add, sub, BitVec.ofNat_add, BitVec.ofNat_toNat, BitVec.setWidth_eq]
  rw [BitVec.add_assoc, BitVec.add_comm b, ← BitVec.add_assoc, BitVec.sub_add_cancel,
    BitVec.sub_add_cancel]

theorem toNat_sub_value :
    a.toNat + 2 ^ (w + 1) * (decide (a.toNat < b.toNat + carry.toNat)).toNat =
      (sub a b carry).value.toNat + b.toNat + carry.toNat := by
  have hsum := toNat_add_value (sub a b carry).value b carry
  rw [add_sub_value] at hsum
  have hvalue := (sub a b carry).value.isLt
  have hborrow : decide (a.toNat < (sub a b carry).value.toNat + b.toNat + carry.toNat) =
      decide (a.toNat < b.toNat + carry.toNat) := by
    rw [decide_eq_decide]
    constructor
    · intro h
      simp only [h, decide_true, Bool.toNat_true] at hsum
      omega
    · intro h
      omega
  rw [← hborrow]
  exact hsum

theorem toInt_eq_sub_msb : a.toInt = a.toNat - 2 * 2 ^ w * (a.msb.toNat : Int) := by
  rw [BitVec.toInt_eq_msb_cond]
  cases a.msb <;> simp [Int.pow_succ, Int.mul_comm]

variable {a b carry} in
/-- A sum that wraps as a number without sign tells how it wraps in two's complement. -/
theorem toInt_add_toInt {value : BitVec (w + 1)} {wraps : Bool}
    (h : value.toNat + 2 ^ (w + 1) * wraps.toNat = a.toNat + b.toNat + carry.toNat) :
    a.toInt + b.toInt + carry.toNat = value.toInt +
      if (a.msb ^^ value.msb) && (b.msb ^^ value.msb) then
        if value.msb then 2 * 2 ^ w else -(2 * 2 ^ w)
      else 0 := by
  have ha := a.isLt
  have hb := b.isLt
  have hvalue := value.isLt
  have hcarry := carry.toNat_le
  have hsignA := a.msb_eq_decide
  have hsignB := b.msb_eq_decide
  have hsignV := value.msb_eq_decide
  have hhalf : (2 ^ w : Int) = (2 ^ w : Nat) := (Int.natCast_pow 2 w).symm
  rw [toInt_eq_sub_msb, toInt_eq_sub_msb, toInt_eq_sub_msb, hhalf]
  clear hhalf
  simp only [Nat.add_sub_cancel, Nat.pow_succ] at *
  generalize 2 ^ w = half at *
  cases wraps <;> cases hsa : a.msb <;> cases hsb : b.msb <;> cases hsv : value.msb <;>
    simp [hsa, hsb, hsv] at hsignA hsignB hsignV h ⊢ <;> omega

theorem tellsSign_add :
    ((add a b carry).updateFlags cc).TellsSign (add a b carry).value
      (a.toInt + b.toInt + carry.toNat) :=
  (reads_add a b carry cc).tellsSign (toInt_add_toInt (toNat_add_value a b carry))

theorem tellsSign_addByte (a b : Byte) :
    ((addByte a b carry).updateFlags cc).TellsSign (add a b carry).value
      (a.toInt + b.toInt + carry.toNat) :=
  (reads_addByte carry cc a b).1.tellsSign (toInt_add_toInt (toNat_add_value a b carry))

theorem tellsSign_sub :
    ((sub a b carry).updateFlags cc).TellsSign (sub a b carry).value
      (a.toInt - b.toInt - carry.toNat) := by
  refine (reads_sub a b carry cc).tellsSign ?_
  have hsum := toInt_add_toInt (toNat_sub_value a b carry)
  generalize (sub a b carry).value = value at *
  cases hsa : a.msb <;> cases hsb : b.msb <;> cases hsv : value.msb <;>
    simp [hsa, hsb, hsv] at hsum ⊢ <;> omega

theorem sub_value_eq_zero : ((sub a b false).value == 0) = decide (a = b) := by
  have hvalue : (sub a b false).value = a - b := BitVec.sub_zero _
  have hzero : a - b = 0#(w + 1) ↔ a = b := by
    rw [eq_comm, BitVec.eq_sub_iff_add_eq, BitVec.zero_add, eq_comm]
  rw [Bool.eq_iff_iff, beq_iff_eq, decide_eq_true_iff, hvalue]
  exact hzero

end

end Arithmetic

namespace Condition

/-- The relation of two values that a branch code stands for after their subtraction. -/
def comparison? {w : Nat} (a b : BitVec w) : Nat → Option Bool
  | 0x2 => some (decide (a.toNat > b.toNat))
  | 0x3 => some (decide (a.toNat ≤ b.toNat))
  | 0x4 => some (decide (a.toNat ≥ b.toNat))
  | 0x5 => some (decide (a.toNat < b.toNat))
  | 0x6 => some (decide (a ≠ b))
  | 0x7 => some (decide (a = b))
  | 0xC => some (decide (a.toInt ≥ b.toInt))
  | 0xD => some (decide (a.toInt < b.toInt))
  | 0xE => some (decide (a.toInt > b.toInt))
  | 0xF => some (decide (a.toInt ≤ b.toInt))
  | _ => none

section
variable {w : Nat} (a b : BitVec (w + 1)) (cc : ConditionCodes)

theorem carrySet_holds_sub (borrow : Bool) :
    carrySet.holds ((Arithmetic.sub a b borrow).updateFlags cc) =
      decide ((a.toNat : Int) - b.toNat - borrow.toNat < 0) := by
  rw [holds, (Arithmetic.reads_sub a b borrow cc).carry]
  apply decide_eq_decide.mpr
  omega

theorem lessThan_holds_sub (borrow : Bool) :
    lessThan.holds ((Arithmetic.sub a b borrow).updateFlags cc) =
      decide (a.toInt - b.toInt - borrow.toNat < 0) := by
  rw [holds, (Arithmetic.tellsSign_sub a b borrow cc).sign]

theorem code_lt_of_comparison {a b : BitVec w} {code : Nat} {answer : Bool}
    (h : comparison? a b code = some answer) : 0 < code ∧ code < 16 := by
  unfold comparison? at h
  split at h <;> first | omega | cases h

theorem holds_sub_of_comparison {code : Nat} {answer : Bool}
    (h : comparison? a b code = some answer) :
    (ofCode code).holds ((Arithmetic.sub a b false).updateFlags cc) = answer := by
  have hcarry := carrySet_holds_sub a b cc false
  have hless := lessThan_holds_sub a b cc false
  have hzero := (Arithmetic.reads_sub a b false cc).zero.trans (Arithmetic.sub_value_eq_zero a b)
  generalize (Arithmetic.sub a b false).updateFlags cc = after at *
  have hnotLess : (after.negative == after.overflow) = !lessThan.holds after := by
    simp only [holds, bne, Bool.not_not]
  rw [hless] at hnotLess
  simp only [holds] at hcarry hless
  -- Z says that the two are equal, beside C as unsigned numbers and beside N and V as signed ones
  match code, h with
  | 0x2, h | 0x3, h | 0x4, h | 0x5, h =>
      obtain rfl := Option.some.inj h
      simp only [ofCode, holds, hcarry, hzero, ← BitVec.toNat_inj, Bool.toNat_false,
        ← Bool.decide_or, ← decide_not, decide_eq_decide]
      omega
  | 0x6, h =>
      obtain rfl := Option.some.inj h
      exact (congrArg (!·) hzero).trans (decide_not ..).symm
  | 0x7, h =>
      obtain rfl := Option.some.inj h
      exact hzero
  | 0xC, h | 0xD, h | 0xE, h | 0xF, h =>
      obtain rfl := Option.some.inj h
      simp only [ofCode, holds, hnotLess, hless, hzero, ← BitVec.toInt_inj, Bool.toNat_false,
        ← Bool.decide_or, ← Bool.decide_and, ← decide_not, decide_eq_decide]
      omega

end

end Condition

end M6809
