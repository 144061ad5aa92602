import M6809.Proofs.ByteChains
import Mathlib.Tactic.LinearCombination
import Mathlib.Tactic.Linarith

namespace M6809

namespace Arithmetic

/-- An operation that adds a number and a carry or, with the sign `-1`, takes them off. -/
structure Carries {w : Nat} (sign : Int) (op : BitVec w → BitVec w → Bool → FlaggedValue w) :
    Prop where
  value : ∀ (a b : BitVec w) (carry : Bool) (cc : ConditionCodes),
    ((op a b carry).value.toNat : Int) = a.toNat + sign *
      (b.toNat + carry.toNat - 2 ^ w * ((op a b carry).updateFlags cc).carry.toNat)
  tellsSign : ∀ (a b : BitVec w) (carry : Bool) (cc : ConditionCodes),
    ((op a b carry).updateFlags cc).TellsSign (op a b carry).value
      (a.toInt + sign * (b.toInt + carry.toNat))
  zero : ∀ (a b : BitVec w) (carry : Bool) (cc : ConditionCodes),
    ((op a b carry).updateFlags cc).zero = ((op a b carry).value == 0)

theorem carries_addByte : Carries 1 addByte where
  value a b carry cc := by
    have hsum := toNat_add_value a b carry
    rw [← (reads_addByte carry cc a b).1.carry] at hsum
    change ((add a b carry).value.toNat : Int) = _
    push_cast at hsum ⊢
    omega
  tellsSign a b carry cc := by
    rw [Int.one_mul, ← Int.add_assoc]
    exact tellsSign_addByte carry cc a b
  zero a b carry cc := (reads_addByte carry cc a b).1.zero

theorem carries_add (w : Nat) : Carries 1 (add (w := w + 1)) where
  value a b carry cc := by
    have hsum := toNat_add_value a b carry
    rw [← (reads_add a b carry cc).carry] at hsum
    zify at hsum
    linarith
  tellsSign a b carry cc := by
    rw [Int.one_mul, ← Int.add_assoc]
    exact tellsSign_add a b carry cc
  zero a b carry cc := (reads_add a b carry cc).zero

theorem carries_sub (w : Nat) : Carries (-1) (sub (w := w + 1)) where
  value a b carry cc := by
    have hsum := toNat_sub_value a b carry
    rw [← (reads_sub a b carry cc).carry] at hsum
    zify at hsum
    linarith
  tellsSign a b carry cc := by
    rw [Int.neg_mul, Int.one_mul, ← Int.sub_eq_add_neg, ← Int.sub_sub]
    exact tellsSign_sub a b carry cc
  zero a b carry cc := (reads_sub a b carry cc).zero

/-- Performs an operation on two bytes under the carry that is set. -/
def underCarry (op : Byte → Byte → Bool → FlaggedValue 8) (p : Byte × Byte)
    (cc : ConditionCodes) : Byte × ConditionCodes :=
  (op p.1 p.2 cc.carry).apply cc

/-- A result on words is the one on their bytes, and Z looks at both of these. -/
structure MatchesBytes (word : Word × ConditionCodes) (bytes : List Byte × ConditionCodes) :
    Prop where
  value : bytes.1 = [word.1.lowByte, word.1.highByte]
  negative : word.2.negative = bytes.2.negative
  overflow : word.2.overflow = bytes.2.overflow
  carry : word.2.carry = bytes.2.carry
  zero : word.2.zero = true ↔ bytes.1 = [0, 0]

end Arithmetic

open Arithmetic

theorem ConditionCodes.TellsSign.cons {cc : ConditionCodes} {rest : List Byte} {exact : Int}
    (h : cc.TellsSign (number rest) exact) (hrest : rest ≠ []) (b : Byte) :
    cc.TellsSign (number (b :: rest)) (b.toNat + 256 * exact) := by
  have hb := b.isLt
  have hhalf : (2 ^ (8 * (b :: rest).length - 1) : Int) = 256 * 2 ^ (8 * rest.length - 1) := by
    exact_mod_cast two_pow_half_cons b hrest
  refine ⟨?_, ?_, ?_⟩
  · rw [msb_number_cons b hrest]
    exact h.negative
  · rw [h.overflow, hhalf]
    omega
  · rw [h.sign, decide_eq_decide]
    omega

theorem word_unique_of_exact {sign exact : Int} (hsign : sign = 1 ∨ sign = -1) {x y : Word}
    {c d : Bool} (hx : (x.toNat : Int) = exact - sign * (2 ^ 16 * c.toNat))
    (hy : (y.toNat : Int) = exact - sign * (2 ^ 16 * d.toNat)) : x = y ∧ c = d := by
  have hxLt := x.isLt
  have hyLt := y.isLt
  rw [← BitVec.toNat_inj]
  rcases hsign with rfl | rfl <;> cases c <;> cases d <;> simp at hx hy ⊢ <;> omega

namespace Arithmetic.Carries

variable {sign : Int} {op : Byte → Byte → Bool → FlaggedValue 8} (h : Carries sign op)
include h

theorem value_chain (pairs : List (Byte × Byte)) (cc : ConditionCodes) :
    ((number (chain (underCarry op) pairs cc).1).toNat : Int) =
      (number (pairs.map Prod.fst)).toNat + sign *
        ((number (pairs.map Prod.snd)).toNat + cc.carry.toNat -
          256 ^ pairs.length * (chain (underCarry op) pairs cc).2.carry.toNat) := by
  induction pairs generalizing cc with
  | nil => simp [chain, toNat_number]
  | cons p rest ih =>
      have hfirst := h.value p.1 p.2 cc.carry cc
      have hrest := ih ((op p.1 p.2 cc.carry).updateFlags cc)
      simp only [chain]
      rw [List.map_cons, List.map_cons, toNat_number_cons, toNat_number_cons, toNat_number_cons,
        List.length_cons]
      push_cast
      simp only [underCarry, FlaggedValue.apply]
      linear_combination hfirst + 256 * hrest

theorem tellsSign_chain {pairs : List (Byte × Byte)} (hpairs : pairs ≠ []) (cc : ConditionCodes) :
    (chain (underCarry op) pairs cc).2.TellsSign (number (chain (underCarry op) pairs cc).1)
      ((number (pairs.map Prod.fst)).toInt + sign *
        ((number (pairs.map Prod.snd)).toInt + cc.carry.toNat)) := by
  -- the flags are those of the last byte, so the induction starts at a single one
  induction pairs generalizing cc with
  | nil => contradiction
  | cons p rest ih =>
      let first := op p.1 p.2 cc.carry
      let others := chain (underCarry op) rest (first.updateFlags cc)
      change others.2.TellsSign (number (first.value :: others.1)) _
      by_cases hrest : rest = []
      · subst hrest
        change (first.updateFlags cc).TellsSign (number [first.value])
          ((number [p.1]).toInt + sign * ((number [p.2]).toInt + cc.carry.toNat))
        rw [number_singleton, number_singleton, number_singleton]
        exact h.tellsSign p.1 p.2 cc.carry cc
      · have hothers : others.1 ≠ [] := by
          rw [← List.length_pos_iff, length_chain]
          exact List.length_pos_iff.mpr hrest
        have htells := (ih hrest (first.updateFlags cc)).cons hothers first.value
        rw [List.map_cons, List.map_cons, toInt_number_cons _ (by simpa using hrest),
          toInt_number_cons _ (by simpa using hrest)]
        refine Eq.subst ?_ htells
        linear_combination h.value p.1 p.2 cc.carry cc

theorem chain_zip {n : Nat} (hn : 0 < n) {a b : List Byte} (ha : a.length = n) (hb : b.length = n)
    (cc : ConditionCodes) :
    let result := chain (underCarry op) (a.zip b) cc
    result.1.length = n ∧
    ((number result.1).toNat : Int) = (number a).toNat + sign *
      ((number b).toNat + cc.carry.toNat - 256 ^ n * result.2.carry.toNat) ∧
    result.2.TellsSign (number result.1)
      ((number a).toInt + sign * ((number b).toInt + cc.carry.toNat)) := by
  have hzip : (a.zip b).length = n := by simp [ha, hb]
  have hpairs : a.zip b ≠ [] := List.length_pos_iff.mp (hzip ▸ hn)
  have hfst : (a.zip b).map Prod.fst = a := List.map_fst_zip (by omega)
  have hsnd : (a.zip b).map Prod.snd = b := List.map_snd_zip (by omega)
  have hvalue := h.value_chain (a.zip b) cc
  have htells := h.tellsSign_chain hpairs cc
  rw [hfst, hsnd] at hvalue htells
  exact ⟨(length_chain _ _ _).trans hzip, hzip ▸ hvalue, htells⟩

theorem matchesBytes {wide : Word → Word → Bool → FlaggedValue 16} (hwide : Carries sign wide)
    (hsign : sign = 1 ∨ sign = -1) (u v : Word) {start : ConditionCodes}
    (hstart : start.carry = false) (cc : ConditionCodes) :
    MatchesBytes ((wide u v false).apply cc)
      (chain (underCarry op) [(u.lowByte, v.lowByte), (u.highByte, v.highByte)] start) := by
  obtain ⟨low, high, after, hchain⟩ : ∃ low high after,
      chain (underCarry op) [(u.lowByte, v.lowByte), (u.highByte, v.highByte)] start =
        ([low, high], after) := ⟨_, _, _, rfl⟩
  have hvalue := h.value_chain [(u.lowByte, v.lowByte), (u.highByte, v.highByte)] start
  have htells := h.tellsSign_chain
    (List.cons_ne_nil (u.lowByte, v.lowByte) [(u.highByte, v.highByte)]) start
  rw [hchain, hstart] at hvalue htells
  rw [hchain]
  change ((number [low, high]).toNat : Int) = (number [u.lowByte, u.highByte]).toNat + sign *
    ((number [v.lowByte, v.highByte]).toNat + false.toNat - 256 ^ 2 * after.carry.toNat) at hvalue
  change after.TellsSign (number [low, high]) ((number [u.lowByte, u.highByte]).toInt + sign *
    ((number [v.lowByte, v.highByte]).toInt + false.toNat)) at htells
  simp only [number_pair, Word.ofBytes_highByte_lowByte] at hvalue htells
  have hwideTells := hwide.tellsSign u v false cc
  have hwideExact : ((wide u v false).value.toNat : Int) =
      u.toNat + sign * (v.toNat + false.toNat) -
        sign * (2 ^ 16 * ((wide u v false).updateFlags cc).carry.toNat) := by
    linear_combination hwide.value u v false cc
  have hexact : ((Word.ofBytes high low).toNat : Int) =
      u.toNat + sign * (v.toNat + false.toNat) - sign * (2 ^ 16 * after.carry.toNat) := by
    linear_combination hvalue
  have hsame := word_unique_of_exact hsign hwideExact hexact
  refine ⟨?_, ?_, ?_, hsame.2, ?_⟩
  · simp [FlaggedValue.apply, hsame.1]
  · exact hwideTells.negative.trans ((congrArg _ hsame.1).trans htells.negative.symm)
  · rw [Bool.eq_iff_iff]
    exact hwideTells.overflow.trans htells.overflow.symm
  · change ((wide u v false).updateFlags cc).zero = true ↔ _
    rw [hwide.zero, beq_iff_eq, hsame.1]
    simp [← BitVec.toNat_inj, Word.toNat_ofBytes]
    omega

end Arithmetic.Carries

namespace Arithmetic

/-- Sums and differences of numbers of any length are chains of those of bytes. -/
theorem carry_chains_exact {n : Nat} (hn : 0 < n) {a b : List Byte} (ha : a.length = n)
    (hb : b.length = n) (cc : ConditionCodes) :
    let sum := chain (underCarry addByte) (a.zip b) cc
    let difference := chain (underCarry sub) (a.zip b) cc
    (sum.1.length = n ∧
      (number sum.1).toNat + 256 ^ n * sum.2.carry.toNat =
        (number a).toNat + (number b).toNat + cc.carry.toNat ∧
      sum.2.TellsSign (number sum.1) ((number a).toInt + (number b).toInt + cc.carry.toNat)) ∧
    (difference.1.length = n ∧
      ((number difference.1).toNat : Int) - 256 ^ n * difference.2.carry.toNat =
        (number a).toNat - (number b).toNat - cc.carry.toNat ∧
      difference.2.TellsSign (number difference.1)
        ((number a).toInt - (number b).toInt - cc.carry.toNat)) ∧
    ∀ (u v : Word) (start before : ConditionCodes), start.carry = false →
      let pairs := [(u.lowByte, v.lowByte), (u.highByte, v.highByte)]
      MatchesBytes ((add u v false).apply before) (chain (underCarry addByte) pairs start) ∧
      MatchesBytes ((sub u v false).apply before) (chain (underCarry sub) pairs start) := by
  intro sum difference
  obtain ⟨hsumLength, hsum, hsumTells⟩ := carries_addByte.chain_zip hn ha hb cc
  obtain ⟨hdifferenceLength, hdifference, hdifferenceTells⟩ :=
    (carries_sub 7).chain_zip hn ha hb cc
  refine ⟨⟨hsumLength, ?_, ?_⟩, ⟨hdifferenceLength, ?_, ?_⟩, ?_⟩
  · zify
    linear_combination hsum
  · convert hsumTells using 1
    ring
  · linear_combination hdifference
  · convert hdifferenceTells using 1
    ring
  · intro u v start before hstart pairs
    exact ⟨carries_addByte.matchesBytes (carries_add 15) (.inl rfl) u v hstart before,
      (carries_sub 7).matchesBytes (carries_sub 15) (.inr rfl) u v hstart before⟩

/-- The sum of `$7FFFFF` and 1 is out of range in three bytes and negative in them, and that of the
words `$7FFF` and 1 in two. -/
theorem carry_into_the_sign :
    let sum := chain (underCarry addByte) ([0xFF, 0xFF, 0x7F].zip [0x01, 0x00, 0x00]) ⟨0⟩
    (number sum.1).toNat + 256 ^ 3 * sum.2.carry.toNat = 0x800000 ∧
      sum.2.overflow = true ∧ (sum.2.negative != sum.2.overflow) = false ∧
      chain (underCarry addByte) [(0xFF, 0x01), (0x7F, 0x00)] ⟨0⟩ = ([0x00, 0x80], ⟨0x2A⟩) ∧
      ((add (w := 16) 0x7FFF 0x0001 false).apply ⟨0⟩).2.overflow = true := by
  intro sum
  obtain ⟨⟨-, hvalue, htells⟩, -, hwords⟩ := carry_chains_exact (n := 3) (by decide)
    (a := [0xFF, 0xFF, 0x7F]) (b := [0x01, 0x00, 0x00]) rfl rfl ⟨0⟩
  have hpair := (hwords 0x7FFF 0x0001 ⟨0⟩ ⟨0⟩ (by decide)).1
  refine ⟨hvalue.trans (by decide +kernel), ?_, ?_, by decide +kernel, ?_⟩
  · exact htells.overflow.mpr (.inr (by decide +kernel))
  · exact htells.sign.trans (by decide +kernel)
  · exact hpair.overflow.trans (by decide +kernel)

end Arithmetic

end M6809
