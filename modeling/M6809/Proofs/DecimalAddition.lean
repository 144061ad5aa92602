import M6809.Proofs.ByteChains
import M6809.Proofs.FlagOwnership
import Mathlib.Tactic.LinearCombination

namespace M6809

/-- Each half of the byte is a decimal digit. -/
def Byte.IsDecimal (b : Byte) : Prop := b.toNat / 16 ≤ 9 ∧ b.toNat % 16 ≤ 9

instance (b : Byte) : Decidable b.IsDecimal := inferInstanceAs (Decidable (_ ∧ _))

def Byte.decimal (b : Byte) : Nat := 10 * (b.toNat / 16) + b.toNat % 16

/-- The number that packed decimal bytes denote, lowest first. -/
def decimalNumber (bytes : List Byte) : Nat := Nat.ofDigits 100 (bytes.map Byte.decimal)

theorem decimalNumber_cons (b : Byte) (rest : List Byte) :
    decimalNumber (b :: rest) = b.decimal + 100 * decimalNumber rest := by
  rw [decimalNumber, List.map_cons, Nat.ofDigits_cons]
  rfl

theorem ConditionCodes.reads_update_keepingOverflow (cc : ConditionCodes) (n z c : Bool) :
    let after := cc.update Arithmetic.maskNZC
      (Arithmetic.flagIf Flag.negative n ||| Arithmetic.flagIf Flag.zero z |||
        Arithmetic.flagIf Flag.carry c)
    after.Reads n z cc.overflow c ∧ after.halfCarry = cc.halfCarry := by
  have hkept := cc.sameOutside_update Arithmetic.maskNZC
    (Arithmetic.flagIf Flag.negative n ||| Arithmetic.flagIf Flag.zero z |||
      Arithmetic.flagIf Flag.carry c)
  refine ⟨⟨?_, ?_, hkept.isSet (by decide), ?_⟩, hkept.isSet (by decide)⟩
  all_goals
    refine (isSet_update (by decide) cc _).trans ?_
    cases n <;> cases z <;> cases c <;> rfl

namespace Arithmetic

theorem toNat_decimalCorrection (a : Byte) (cc : ConditionCodes) :
    (decimalCorrection a cc).toNat =
      6 * (cc.halfCarry || 9 < a.toNat % 16).toNat +
        96 * (cc.carry || 9 < a.toNat / 16 || (8 < a.toNat / 16 && 9 < a.toNat % 16)).toNat := by
  simp only [decimalCorrection]
  generalize (cc.halfCarry || _) = low
  generalize (cc.carry || _ || _) = high
  cases low <;> cases high <;> rfl

theorem reads_daa (a : Byte) (cc : ConditionCodes) :
    ((daa a cc).updateFlags cc).Reads (daa a cc).value.msb ((daa a cc).value == 0) cc.overflow
      (cc.carry || 255 < a.toNat + (decimalCorrection a cc).toNat) ∧
    ((daa a cc).updateFlags cc).halfCarry = cc.halfCarry :=
  cc.reads_update_keepingOverflow _ _ _

/-- Adds two bytes under the carry that is set, and adjusts the sum. -/
def addDecimal (p : Byte × Byte) (cc : ConditionCodes) : Byte × ConditionCodes :=
  let sum := (addByte p.1 p.2 cc.carry).apply cc
  (daa sum.1 sum.2).apply sum.2

section
variable (a b : Byte) (cc : ConditionCodes)

theorem toNat_addByte_apply :
    let sum := (addByte a b cc.carry).apply cc
    sum.1.toNat + 256 * sum.2.carry.toNat = a.toNat + b.toNat + cc.carry.toNat := by
  have hvalue := toNat_add_value a b cc.carry
  rw [← (reads_addByte cc.carry cc a b).1.carry] at hvalue
  exact hvalue

def lowDigits (a b : Byte) (carry : Bool) : Nat := a.toNat % 16 + b.toNat % 16 + carry.toNat

/-- The sum of the high digits and the carry out of the low ones. -/
def highDigits (a b : Byte) (carry : Bool) : Nat :=
  a.toNat / 16 + b.toNat / 16 + (decide (9 < lowDigits a b carry)).toNat

section
variable {a b} (ha : a.IsDecimal) (hb : b.IsDecimal)
include ha hb

theorem digit_sums (carry : Bool) :
    let low := lowDigits a b carry
    let high := highDigits a b carry
    low ≤ 19 ∧ high ≤ 19 ∧
      a.toNat + b.toNat + carry.toNat + 16 * (decide (9 < low)).toNat = 16 * high + low ∧
      a.decimal + b.decimal + carry.toNat + 10 * (decide (9 < low)).toNat = 10 * high + low := by
  have hone := carry.toNat_le
  have hcarries := (decide (9 < lowDigits a b carry)).toNat_le
  obtain ⟨ha, ha'⟩ := ha
  obtain ⟨hb, hb'⟩ := hb
  simp only [highDigits, lowDigits, Byte.decimal] at *
  omega

theorem decimalCorrection_sum :
    let sum := (addByte a b cc.carry).apply cc
    (decimalCorrection sum.1 sum.2).toNat =
      6 * (decide (9 < lowDigits a b cc.carry)).toNat +
        96 * (decide (9 < highDigits a b cc.carry)).toNat := by
  intro sum
  obtain ⟨hlowLe, hhighLe, hbinary, -⟩ := digit_sums ha hb cc.carry
  have hhalf : sum.2.halfCarry = decide (15 < lowDigits a b cc.carry) :=
    (reads_addByte cc.carry cc a b).2
  have hvalue : sum.1.toNat + 256 * sum.2.carry.toNat = _ := toNat_addByte_apply a b cc
  have hbound := sum.1.isLt
  generalize highDigits a b cc.carry = high, lowDigits a b cc.carry = low at *
  rw [← hvalue] at hbinary
  have hlow : (sum.2.halfCarry || decide (9 < sum.1.toNat % 16)) = decide (9 < low) := by
    rw [hhalf, ← Bool.decide_or, decide_eq_decide]
    omega
  have hhigh : (sum.2.carry || decide (9 < sum.1.toNat / 16) ||
      (decide (8 < sum.1.toNat / 16) && decide (9 < sum.1.toNat % 16))) = decide (9 < high) := by
    rw [← Bool.decide_and, Bool.or_assoc, ← Bool.decide_or, Bool.eq_iff_iff]
    cases hwraps : sum.2.carry <;> by_cases hcarries : 9 < low <;>
      simp [hwraps, hcarries] at hbinary ⊢ <;> omega
  rw [toNat_decimalCorrection, hlow, hhigh]

theorem toNat_addDecimal :
    let result := addDecimal (a, b) cc
    result.1.toNat = 16 * (highDigits a b cc.carry % 10) + lowDigits a b cc.carry % 10 ∧
      result.2.carry = decide (9 < highDigits a b cc.carry) := by
  intro result
  let sum := (addByte a b cc.carry).apply cc
  obtain ⟨hlowLe, hhighLe, hbinary, -⟩ := digit_sums ha hb cc.carry
  have hcorrection : (decimalCorrection sum.1 sum.2).toNat = _ := decimalCorrection_sum cc ha hb
  have hsum : sum.1.toNat + 256 * sum.2.carry.toNat = _ := toNat_addByte_apply a b cc
  have hbound := sum.1.isLt
  have hvalue : result.1.toNat = (sum.1.toNat + (decimalCorrection sum.1 sum.2).toNat) % 256 :=
    BitVec.toNat_ofNat _ _
  have hcarry : result.2.carry = _ := (reads_daa sum.1 sum.2).1.carry
  rw [hvalue, hcarry, hcorrection]
  clear hvalue hcarry hcorrection
  generalize highDigits a b cc.carry = high, lowDigits a b cc.carry = low at *
  rw [← hsum] at hbinary
  -- where the binary sum wraps, the high digits have passed 9 already
  by_cases hlow : 9 < low <;> by_cases hhigh : 9 < high <;> cases hwraps : sum.2.carry <;>
    simp [hwraps, hlow, hhigh] at hbinary ⊢ <;> omega

theorem decimal_addDecimal :
    let result := addDecimal (a, b) cc
    result.1.IsDecimal ∧
      result.1.decimal + 100 * result.2.carry.toNat = a.decimal + b.decimal + cc.carry.toNat := by
  intro result
  obtain ⟨hvalue, hcarry⟩ := toNat_addDecimal cc ha hb
  obtain ⟨hlowLe, hhighLe, -, hdecimal⟩ := digit_sums ha hb cc.carry
  simp only [Byte.IsDecimal, Byte.decimal, result, hvalue, hcarry] at hdecimal ⊢
  generalize highDigits a b cc.carry = high, lowDigits a b cc.carry = low at *
  refine ⟨by omega, ?_⟩
  by_cases hlow : 9 < low <;> by_cases hhigh : 9 < high <;>
    simp [hlow, hhigh] at hdecimal ⊢ <;> omega

end

theorem reads_addDecimal :
    let result := addDecimal (a, b) cc
    result.2.zero = (result.1 == 0) ∧ result.2.negative = result.1.msb ∧
      result.2.halfCarry = decide (15 < a.toNat % 16 + b.toNat % 16 + cc.carry.toNat) := by
  let sum := (addByte a b cc.carry).apply cc
  obtain ⟨hreads, hhalf⟩ := reads_daa sum.1 sum.2
  exact ⟨hreads.zero, hreads.negative, hhalf.trans (reads_addByte cc.carry cc a b).2⟩

end

theorem decimal_chain {pairs : List (Byte × Byte)}
    (h : ∀ p ∈ pairs, p.1.IsDecimal ∧ p.2.IsDecimal) (cc : ConditionCodes) :
    let sum := chain addDecimal pairs cc
    (∀ value ∈ sum.1, value.IsDecimal) ∧
      decimalNumber sum.1 + 100 ^ pairs.length * sum.2.carry.toNat =
        decimalNumber (pairs.map Prod.fst) + decimalNumber (pairs.map Prod.snd) +
          cc.carry.toNat := by
  induction pairs generalizing cc with
  | nil => simp [chain, decimalNumber]
  | cons p rest ih =>
      have hp := h p List.mem_cons_self
      obtain ⟨hfirst, hvalue⟩ := decimal_addDecimal cc hp.1 hp.2
      obtain ⟨hothers, hnumber⟩ :=
        ih (fun q hq => h q (List.mem_cons_of_mem p hq)) (addDecimal p cc).2
      refine ⟨List.forall_mem_cons.mpr ⟨hfirst, hothers⟩, ?_⟩
      simp only [chain, List.map_cons, decimalNumber_cons, List.length_cons, Nat.pow_succ]
      linear_combination hvalue + 100 * hnumber

/-- Adding with carry and adjusting, byte after byte, adds decimal numbers of any length. -/
theorem decimal_addition_exact {n : Nat} {a b : List Byte} (ha : a.length = n)
    (hb : b.length = n) (hdecimalA : ∀ x ∈ a, x.IsDecimal) (hdecimalB : ∀ y ∈ b, y.IsDecimal)
    (cc : ConditionCodes) :
    let sum := chain addDecimal (a.zip b) cc
    sum.1.length = n ∧ (∀ value ∈ sum.1, value.IsDecimal) ∧
    decimalNumber sum.1 + 100 ^ n * sum.2.carry.toNat =
      decimalNumber a + decimalNumber b + cc.carry.toNat ∧
    ∀ (i : Nat) (x y : Byte), a[i]? = some x → b[i]? = some y →
      let before := (chain addDecimal ((a.zip b).take i) cc).2
      let after := (chain addDecimal ((a.zip b).take (i + 1)) cc).2
      ∃ value, sum.1[i]? = some value ∧ after.zero = (value == 0) ∧
        after.negative = value.msb ∧
        after.halfCarry = decide (15 < x.toNat % 16 + y.toNat % 16 + before.carry.toNat) := by
  intro sum
  have hzip : (a.zip b).length = n := by simp [ha, hb]
  have hpairs : ∀ p ∈ a.zip b, p.1.IsDecimal ∧ p.2.IsDecimal := fun p hp =>
    ⟨hdecimalA _ (List.of_mem_zip hp).1, hdecimalB _ (List.of_mem_zip hp).2⟩
  obtain ⟨hdecimal, hnumber⟩ := decimal_chain hpairs cc
  rw [List.map_fst_zip (by omega), List.map_snd_zip (by omega), hzip] at hnumber
  refine ⟨(length_chain _ _ _).trans hzip, hdecimal, hnumber, ?_⟩
  intro i x y hx hy before after
  have hpair : (a.zip b)[i]? = some (x, y) := List.getElem?_zip_eq_some.mpr ⟨hx, hy⟩
  obtain ⟨hvalue, hafter⟩ := chain_getElem? addDecimal (a.zip b) cc hpair
  have hflags : after = (addDecimal (x, y) before).2 := hafter
  rw [hflags]
  exact ⟨_, hvalue, reads_addDecimal x y before⟩

/-- 9999 and 1: the low byte passes 9 in both digits, and the high one by the carry alone. -/
theorem decimal_carry_runs_through :
    let sum := chain addDecimal ([0x99, 0x99].zip [0x01, 0x00]) ⟨0⟩
    sum.1 = [0x00, 0x00] ∧
      decimalNumber sum.1 + 100 ^ 2 * sum.2.carry.toNat = 10000 ∧ sum.2.halfCarry = false := by
  intro sum
  obtain ⟨-, -, hnumber, hflags⟩ := decimal_addition_exact (n := 2) (a := [0x99, 0x99])
    (b := [0x01, 0x00]) rfl rfl (by decide) (by decide) ⟨0⟩
  obtain ⟨-, -, -, -, hhalf⟩ := hflags 1 0x99 0x00 rfl rfl
  exact ⟨by decide +kernel, hnumber.trans (by decide +kernel), hhalf.trans (by decide +kernel)⟩

end Arithmetic

end M6809
