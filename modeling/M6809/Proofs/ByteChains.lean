import M6809.Proofs.ResultFlags
import Mathlib.Data.Nat.Digits.Defs

namespace M6809

/-- The number that bytes denote, lowest first. -/
def number (bytes : List Byte) : BitVec (8 * bytes.length) :=
  BitVec.ofNat _ (Nat.ofDigits 256 (bytes.map BitVec.toNat))

section
variable (b : Byte) {rest : List Byte}

theorem lt_of_mem_map_toNat (bytes : List Byte) : ∀ d ∈ bytes.map BitVec.toNat, d < 256 := by
  intro d hd
  obtain ⟨b, -, rfl⟩ := List.mem_map.mp hd
  exact b.isLt

theorem toNat_number (bytes : List Byte) :
    (number bytes).toNat = Nat.ofDigits 256 (bytes.map BitVec.toNat) := by
  have hlt := Nat.ofDigits_lt_base_pow_length (by decide) (lt_of_mem_map_toNat bytes)
  rw [List.length_map] at hlt
  rw [number, BitVec.toNat_ofNat, Nat.pow_mul]
  exact Nat.mod_eq_of_lt hlt

theorem toNat_number_cons (rest : List Byte) :
    (number (b :: rest)).toNat = b.toNat + 256 * (number rest).toNat := by
  rw [toNat_number, toNat_number, List.map_cons, Nat.ofDigits_cons]

theorem number_singleton : number [b] = b := by
  apply BitVec.eq_of_toNat_eq
  rw [toNat_number]
  exact Nat.ofDigits_singleton

theorem number_pair (low high : Byte) : number [low, high] = Word.ofBytes high low := by
  apply BitVec.eq_of_toNat_eq
  rw [toNat_number_cons, number_singleton, Word.toNat_ofBytes]
  omega

section
variable (h : rest ≠ [])
include h

theorem two_pow_half_cons : 2 ^ (8 * (b :: rest).length - 1) = 256 * 2 ^ (8 * rest.length - 1) := by
  have hlength := List.length_pos_iff.mpr h
  rw [show 8 * (b :: rest).length - 1 = 8 + (8 * rest.length - 1) by grind, Nat.pow_add]

theorem msb_number_cons : (number (b :: rest)).msb = (number rest).msb := by
  have hb := b.isLt
  rw [BitVec.msb_eq_decide, BitVec.msb_eq_decide, toNat_number_cons, two_pow_half_cons b h,
    decide_eq_decide]
  omega

theorem toInt_number_cons :
    (number (b :: rest)).toInt = b.toNat + 256 * (number rest).toInt := by
  rw [BitVec.toInt_eq_msb_cond, BitVec.toInt_eq_msb_cond, msb_number_cons b h, toNat_number_cons]
  cases (number rest).msb with
  | false => simp
  | true =>
      simp [Nat.mul_add, Int.pow_add]
      omega

end

end

theorem Word.toInt_ofBytes (high low : Byte) :
    (Word.ofBytes high low).toInt = 256 * high.toInt + low.toNat := by
  have hpair := toInt_number_cons low (List.cons_ne_nil high [])
  rwa [number_singleton, number_pair, Int.add_comm] at hpair

/-- The value, with the flags updated. -/
def FlaggedValue.apply {w : Nat} (r : FlaggedValue w) (cc : ConditionCodes) :
    BitVec w × ConditionCodes :=
  (r.value, r.updateFlags cc)

section
variable {α : Type}

/-- Makes a byte of each element, under the flags that the one before left. -/
def chain (step : α → ConditionCodes → Byte × ConditionCodes) :
    List α → ConditionCodes → List Byte × ConditionCodes
  | [], cc => ([], cc)
  | x :: rest, cc =>
    let first := step x cc
    let others := chain step rest first.2
    (first.1 :: others.1, others.2)

variable (step : α → ConditionCodes → Byte × ConditionCodes)

theorem length_chain (xs : List α) (cc : ConditionCodes) :
    (chain step xs cc).1.length = xs.length := by
  induction xs generalizing cc with
  | nil => rfl
  | cons x rest ih => exact congrArg (· + 1) (ih _)

theorem chain_getElem? (xs : List α) (cc : ConditionCodes) {i : Nat} {x : α} (h : xs[i]? = some x) :
    let before := (chain step (xs.take i) cc).2
    (chain step xs cc).1[i]? = some (step x before).1 ∧
      (chain step (xs.take (i + 1)) cc).2 = (step x before).2 := by
  induction xs generalizing cc i with
  | nil => simp at h
  | cons y rest ih =>
      cases i with
      | zero =>
          obtain rfl : y = x := by simpa using h
          exact ⟨rfl, rfl⟩
      | succ i => exact ih _ (by simpa using h)

end

end M6809
