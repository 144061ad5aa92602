import M6809.Execution
import M6809.Proofs.CarryChains
import Mathlib.Data.Nat.ModEq
import Mathlib.Tactic.Ring

namespace M6809

namespace Modification

/-- Modifies a byte under the flags that are set. -/
def apply (op : Modification) (b : Byte) (cc : ConditionCodes) : Byte × ConditionCodes :=
  (op.compute b cc.carry).apply cc

/-- The bit that comes in at the far end: C in a rotation, the sign in an arithmetic shift
downward. -/
def bitIn (op : Modification) (carry sign : Bool) : Bool :=
  match op with
  | .rol | .ror => carry
  | .asr => sign
  | _ => false

theorem compute_downward : ∀ op ∈ [Modification.ror, .lsr, .asr], ∀ (b : Byte) (carry : Bool),
    let result := op.compute b carry
    result.mask &&& Flag.carry = Flag.carry ∧
      2 * result.value.toNat + (⟨result.flags⟩ : ConditionCodes).carry.toNat =
        b.toNat + 256 * (op.bitIn carry b.msb).toNat := by
  decide +kernel

theorem apply_downward {op : Modification} (h : op ∈ [Modification.ror, .lsr, .asr]) (b : Byte)
    (cc : ConditionCodes) :
    2 * (op.apply b cc).1.toNat + (op.apply b cc).2.carry.toNat =
      b.toNat + 256 * (op.bitIn cc.carry b.msb).toNat := by
  obtain ⟨hmask, hvalue⟩ := compute_downward op h b cc.carry
  have hcarry : (op.apply b cc).2.carry = _ := cc.isSet_update hmask _
  rw [hcarry]
  exact hvalue

end Modification

/-- Modifies the lowest byte by an operation of its own, and those above it by rotation. -/
def shiftUp (first : Modification) (s : List Byte × ConditionCodes) :
    List Byte × ConditionCodes :=
  match s with
  | ([], cc) => ([], cc)
  | (b :: rest, cc) =>
    let low := first.apply b cc
    let others := chain Modification.rol.apply rest low.2
    (low.1 :: others.1, others.2)

/-- Modifies the highest byte by an operation of its own, and those below it by rotation. The bytes
are in the order of the list from the lowest. -/
def shiftDown (first : Modification) (s : List Byte × ConditionCodes) :
    List Byte × ConditionCodes :=
  match s.1.reverse with
  | [] => s
  | b :: rest =>
    let high := first.apply b s.2
    let others := chain Modification.ror.apply rest high.2
    ((high.1 :: others.1).reverse, others.2)

namespace ConditionCodes

theorem update_clear (cc : ConditionCodes) (mask flags : Byte) :
    (cc.clear mask).update mask flags = cc.update mask flags := by
  simp only [update, clear, BitVec.and_assoc, BitVec.and_self]

theorem carry_clear (cc : ConditionCodes) : (cc.clear Arithmetic.maskNZVC).carry = false := by
  have hcarry : ~~~Arithmetic.maskNZVC &&& Flag.carry = 0 := by decide
  simp [carry, isSet, clear, BitVec.and_assoc, hcarry]

end ConditionCodes

theorem Arithmetic.rol_eq_add : ∀ (b : Byte) (carry : Bool), rol b carry = add b b carry := by
  decide +kernel

section
variable (bytes : List Byte) (b : Byte)

theorem toNat_number_concat {n : Nat} (h : bytes.length = n) :
    (number (bytes ++ [b])).toNat = (number bytes).toNat + 256 ^ n * b.toNat := by
  rw [toNat_number, toNat_number, List.map_append, Nat.ofDigits_append, List.length_map, h]
  simp

theorem msb_number_concat : (number (bytes ++ [b])).msb = b.msb := by
  induction bytes with
  | nil => rw [List.nil_append, number_singleton]
  | cons low rest ih =>
      have hrest : rest ++ [b] ≠ [] := List.append_ne_nil_of_right_ne_nil _ (by simp)
      rw [List.cons_append, msb_number_cons low hrest, ih]

theorem eq_of_toNat_number_eq {other : List Byte} (hlength : bytes.length = other.length)
    (h : (number bytes).toNat = (number other).toNat) : bytes = other := by
  rw [toNat_number, toNat_number] at h
  have hsame := Nat.ofDigits_inj_of_len_eq (by decide) (by simpa using hlength)
    (lt_of_mem_map_toNat bytes) (lt_of_mem_map_toNat other) h
  exact (List.map_inj_right fun _ _ => BitVec.eq_of_toNat_eq).mp hsame

end

section
variable (bytes : List Byte) (cc : ConditionCodes)

theorem chain_map {α γ : Type} (step : α → ConditionCodes → Byte × ConditionCodes) (f : γ → α)
    (xs : List γ) : chain step (xs.map f) cc = chain (fun x => step (f x)) xs cc := by
  induction xs generalizing cc with
  | nil => rfl
  | cons x rest ih => simp only [List.map_cons, chain, ih]

theorem chain_rol : chain Modification.rol.apply bytes cc =
    chain (Arithmetic.underCarry Arithmetic.add) (bytes.zip bytes) cc := by
  have hzip : bytes.map (fun b => (b, b)) = bytes.zip bytes :=
    (List.map_prod_left_eq_zip (f := id)).trans (congrArg _ (List.map_id bytes))
  rw [← hzip, chain_map]
  congr 1
  funext b cc
  exact congrArg (FlaggedValue.apply · cc) (Arithmetic.rol_eq_add b cc.carry)

theorem chain_ror {n : Nat} (hn : bytes.length = n) :
    let down := chain Modification.ror.apply bytes cc
    2 * (number down.1.reverse).toNat + down.2.carry.toNat =
      (number bytes.reverse).toNat + 256 ^ n * cc.carry.toNat := by
  subst hn
  induction bytes generalizing cc with
  | nil => simp [chain, toNat_number]
  | cons b rest ih =>
      let first := Modification.ror.apply b cc
      let others := chain Modification.ror.apply rest first.2
      have hfirst : 2 * first.1.toNat + first.2.carry.toNat = b.toNat + 256 * cc.carry.toNat :=
        Modification.apply_downward (by decide) b cc
      have hothers : 2 * (number others.1.reverse).toNat + others.2.carry.toNat =
        (number rest.reverse).toNat + 256 ^ rest.length * first.2.carry.toNat := ih first.2
      have hlength : others.1.reverse.length = rest.length :=
        List.length_reverse.trans (length_chain _ _ _)
      change 2 * (number (first.1 :: others.1).reverse).toNat + others.2.carry.toNat = _
      rw [List.reverse_cons, List.reverse_cons, toNat_number_concat _ _ hlength,
        toNat_number_concat _ _ List.length_reverse, List.length_cons]
      linear_combination hothers + 256 ^ rest.length * hfirst

end

section
variable {s : List Byte × ConditionCodes} (hs : s.1 ≠ []) (first : Modification)
include hs

theorem exists_shiftUp_eq (hfirst : first ∈ [Modification.rol, .asl]) :
    ∃ start : ConditionCodes, start.carry = first.bitIn s.2.carry (number s.1).msb ∧
      shiftUp first s = chain Modification.rol.apply s.1 start := by
  obtain ⟨_ | ⟨b, rest⟩, cc⟩ := s
  · contradiction
  have hkind : first = .rol ∨ first = .asl := by simpa using hfirst
  rcases hkind with rfl | rfl
  · exact ⟨cc, rfl, rfl⟩
  · have hlow : Modification.asl.apply b cc =
        Modification.rol.apply b (cc.clear Arithmetic.maskNZVC) := by
      unfold Modification.apply
      rw [cc.carry_clear]
      exact congrArg (Prod.mk _) (cc.update_clear _ _).symm
    refine ⟨cc.clear Arithmetic.maskNZVC, cc.carry_clear, ?_⟩
    simp only [shiftUp, hlow]
    rfl

theorem shiftUp_exact (hfirst : first ∈ [Modification.rol, .asl]) :
    let up := shiftUp first s
    let carry := first.bitIn s.2.carry (number s.1).msb
    up.1.length = s.1.length ∧
      (number up.1).toNat + 256 ^ s.1.length * up.2.carry.toNat =
        2 * (number s.1).toNat + carry.toNat ∧
      up.2.TellsSign (number up.1) (2 * (number s.1).toInt + carry.toNat) := by
  intro up carry
  obtain ⟨start, hcarry, hup⟩ := exists_shiftUp_eq hs first hfirst
  obtain ⟨hlength, hvalue, htells⟩ :=
    (Arithmetic.carries_add 7).chain_zip (List.length_pos_iff.mpr hs) rfl rfl start
  rw [← chain_rol, ← hup] at hlength
  rw [← chain_rol, ← hup, hcarry] at hvalue htells
  refine ⟨hlength, ?_, ?_⟩
  · zify
    linear_combination hvalue
  · rw [Int.one_mul, ← Int.add_assoc, ← Int.two_mul] at htells
    exact htells

theorem shiftDown_exact (hfirst : first ∈ [Modification.ror, .lsr, .asr]) :
    let down := shiftDown first s
    down.1.length = s.1.length ∧
      2 * (number down.1).toNat + down.2.carry.toNat =
        (number s.1).toNat +
          256 ^ s.1.length * (first.bitIn s.2.carry (number s.1).msb).toNat := by
  obtain ⟨bytes, cc⟩ := s
  obtain ⟨rest, b, rfl⟩ := (List.eq_nil_or_concat bytes).resolve_left hs
  let high := first.apply b cc
  let others := chain Modification.ror.apply rest.reverse high.2
  have hdown : shiftDown first (rest ++ [b], cc) = ((high.1 :: others.1).reverse, others.2) := by
    simp only [shiftDown, List.reverse_append, List.reverse_singleton, List.singleton_append]
    rfl
  have hhigh : 2 * high.1.toNat + high.2.carry.toNat = _ :=
    Modification.apply_downward hfirst b cc
  have hothers : 2 * (number others.1.reverse).toNat + others.2.carry.toNat = _ :=
    chain_ror rest.reverse high.2 List.length_reverse
  have hlength : others.1.reverse.length = rest.length := by
    rw [List.length_reverse, length_chain, List.length_reverse]
  rw [List.reverse_reverse] at hothers
  rw [List.concat_eq_append, hdown]
  refine ⟨by simp [others, length_chain], ?_⟩
  change 2 * (number (high.1 :: others.1).reverse).toNat + others.2.carry.toNat = _
  rw [List.reverse_cons, toNat_number_concat _ _ hlength, toNat_number_concat _ _ rfl,
    msb_number_concat, List.length_append, List.length_singleton]
  linear_combination hothers + 256 ^ rest.length * hhigh

end

section
variable {n : Nat} {bytes : List Byte} (h : bytes.length = n)
include h

theorem two_pow_eq : 2 ^ (8 * bytes.length) = 256 ^ n := by
  rw [h]
  exact Nat.pow_mul 2 8 n

theorem number_lt : (number bytes).toNat < 256 ^ n := two_pow_eq h ▸ (number bytes).isLt

theorem toInt_number : (number bytes).toInt =
    if 2 * (number bytes).toNat < 256 ^ n then ((number bytes).toNat : Int)
    else (number bytes).toNat - (256 ^ n : Nat) := by
  rw [BitVec.toInt_eq_toNat_cond, two_pow_eq h]

theorem msb_number : (number bytes).msb = decide (256 ^ n ≤ 2 * (number bytes).toNat) := by
  rw [Bool.eq_iff_iff, decide_eq_true_iff, BitVec.msb_eq_true_iff_two_mul_ge, two_pow_eq h]

end

theorem toInt_shiftDown_asr {s : List Byte × ConditionCodes} (hs : s.1 ≠ []) :
    (number (shiftDown .asr s).1).toInt = (number s.1).toInt / 2 := by
  obtain ⟨hlength, hvalue⟩ := shiftDown_exact hs .asr (by decide)
  have hcarry := (shiftDown .asr s).2.carry.toNat_le
  have hsource : (number s.1).toNat < _ := number_lt rfl
  have hresult := number_lt hlength
  rw [toInt_number hlength, toInt_number rfl]
  simp only [Modification.bitIn, msb_number rfl] at hvalue
  by_cases hsign : 256 ^ s.1.length ≤ 2 * (number s.1).toNat <;> simp [hsign] at hvalue
  all_goals
    split <;> split <;> omega

/-- The bits that a chain of rotations turns: C and the bytes. -/
def carried (s : List Byte × ConditionCodes) : Bool × List Byte := (s.2.carry, s.1)

/-- The number of `n` bytes with C above them. -/
def withCarry (n : Nat) (s : List Byte × ConditionCodes) : Nat :=
  (number s.1).toNat + 256 ^ n * s.2.carry.toNat

/-- Two states of `n` bytes, of which the second is the first doubled, and the C that was above
the bytes is below them. -/
structure Turned (n : Nat) (s t : List Byte × ConditionCodes) : Prop where
  left : s.1.length = n
  right : t.1.length = n
  value : withCarry n t = 2 * (number s.1).toNat + s.2.carry.toNat

section
variable (s : List Byte × ConditionCodes)

theorem length_iterate {f : List Byte × ConditionCodes → List Byte × ConditionCodes}
    (h : ∀ s, (f s).1.length = s.1.length) (k : Nat) : (f^[k] s).1.length = s.1.length := by
  induction k with
  | zero => rfl
  | succ k ih => rw [Function.iterate_succ_apply', h, ih]

theorem turned_shiftUp : Turned s.1.length s (shiftUp .rol s) := by
  by_cases hs : s.1 = []
  · obtain ⟨bytes, cc⟩ := s
    obtain rfl : bytes = [] := hs
    exact ⟨rfl, rfl, by simp [withCarry, shiftUp, toNat_number]⟩
  · obtain ⟨hlength, hvalue, -⟩ := shiftUp_exact hs .rol (by decide)
    exact ⟨rfl, hlength, hvalue⟩

theorem turned_shiftDown : Turned s.1.length (shiftDown .ror s) s := by
  by_cases hs : s.1 = []
  · obtain ⟨bytes, cc⟩ := s
    obtain rfl : bytes = [] := hs
    exact ⟨rfl, rfl, by simp [withCarry, shiftDown, toNat_number]⟩
  · obtain ⟨hlength, hvalue⟩ := shiftDown_exact hs .ror (by decide)
    exact ⟨hlength, rfl, hvalue.symm⟩

end

section
variable {n : Nat} {s t u : List Byte × ConditionCodes}

theorem withCarry_le (h : s.1.length = n) : withCarry n s ≤ 2 * 256 ^ n - 1 := by
  have hnumber := number_lt h
  have hcarry := Nat.mul_le_mul_left (256 ^ n) s.2.carry.toNat_le
  rw [withCarry]
  omega

theorem carried_eq (hs : s.1.length = n) (ht : t.1.length = n)
    (hvalue : (number s.1).toNat = (number t.1).toNat)
    (hcarry : s.2.carry = t.2.carry) : carried s = carried t :=
  Prod.ext hcarry (eq_of_toNat_number_eq _ (hs.trans ht.symm) hvalue)

theorem carried_eq_of_withCarry_eq (hs : s.1.length = n) (ht : t.1.length = n)
    (h : withCarry n s = withCarry n t) : carried s = carried t := by
  have hparts (c d : Bool) (hc : s.2.carry = c) (hd : t.2.carry = d) :
      (number s.1).toNat = (number t.1).toNat ∧ c = d := by
    have hsLt := number_lt hs
    have htLt := number_lt ht
    simp only [withCarry, hc, hd] at h
    cases c <;> cases d <;> simp at h ⊢ <;> omega
  obtain ⟨hvalue, hcarry⟩ := hparts _ _ rfl rfl
  exact carried_eq hs ht hvalue hcarry

namespace Turned

theorem carried_left (h : Turned n s u) (h' : Turned n t u) : carried s = carried t := by
  have hvalue := h.value.symm.trans h'.value
  have hparts (c d : Bool) (hsame : 2 * (number s.1).toNat + c.toNat =
      2 * (number t.1).toNat + d.toNat) : (number s.1).toNat = (number t.1).toNat ∧ c = d := by
    cases c <;> cases d <;> simp at hsame ⊢ <;> omega
  obtain ⟨hnumber, hcarry⟩ := hparts _ _ hvalue
  exact carried_eq h.left h'.left hnumber hcarry

theorem carried_right (h : Turned n s t) (h' : Turned n s u) : carried t = carried u :=
  carried_eq_of_withCarry_eq h.right h'.right (h.value.trans h'.value.symm)

theorem doubles (h : Turned n s t) :
    withCarry n t + (2 * 256 ^ n - 1) * s.2.carry.toNat = 2 * withCarry n s := by
  have hpos : 0 < 256 ^ n := Nat.pow_pos (by decide)
  rw [h.value, withCarry]
  cases s.2.carry with
  | false => simp
  | true =>
      simp
      omega

theorem zero_iff (h : Turned n s t) : withCarry n t = 0 ↔ withCarry n s = 0 := by
  have hpos : 0 < 256 ^ n := Nat.pow_pos (by decide)
  rw [h.value, withCarry]
  cases s.2.carry <;> simp

/-- The number after `k` turns, and that only zero becomes zero. -/
theorem iterated {x : Nat → List Byte × ConditionCodes} {k : Nat}
    (h : ∀ j < k, Turned n (x j) (x (j + 1))) :
    withCarry n (x k) ≡ 2 ^ k * withCarry n (x 0) [MOD 2 * 256 ^ n - 1] ∧
      (withCarry n (x k) = 0 ↔ withCarry n (x 0) = 0) := by
  induction k with
  | zero => exact ⟨by simp [Nat.ModEq], Iff.rfl⟩
  | succ k ih =>
      obtain ⟨hvalue, hzero⟩ := ih fun j hj => h j (Nat.lt_succ_of_lt hj)
      have hturned := h k (Nat.lt_succ_self k)
      refine ⟨?_, hturned.zero_iff.trans hzero⟩
      calc withCarry n (x (k + 1))
        _ ≡ withCarry n (x (k + 1)) + (2 * 256 ^ n - 1) * (x k).2.carry.toNat
            [MOD 2 * 256 ^ n - 1] := by simp [Nat.ModEq]
        _ = 2 * withCarry n (x k) := hturned.doubles
        _ ≡ 2 * (2 ^ k * withCarry n (x 0)) [MOD 2 * 256 ^ n - 1] := hvalue.mul_left 2
        _ = 2 ^ (k + 1) * withCarry n (x 0) := by rw [Nat.pow_succ]; ring

theorem comes_round {x : Nat → List Byte × ConditionCodes}
    (h : ∀ j < 8 * n + 1, Turned n (x j) (x (j + 1))) :
    carried (x (8 * n + 1)) = carried (x 0) := by
  obtain ⟨hvalue, hzero⟩ := iterated h
  have hfirst := (h 0 (Nat.succ_pos _)).left
  have hlast := (h (8 * n) (Nat.lt_succ_self _)).right
  have hpos : 0 < 256 ^ n := Nat.pow_pos (by decide)
  have hround : 2 ^ (8 * n + 1) ≡ 1 [MOD 2 * 256 ^ n - 1] := by
    have hpow : 2 ^ (8 * n + 1) = (2 * 256 ^ n - 1) + 1 := by
      have hbytes : 2 ^ (8 * n) = 256 ^ n := Nat.pow_mul 2 8 n
      omega
    simp [hpow, Nat.ModEq]
  have hsame : withCarry n (x (8 * n + 1)) ≡ withCarry n (x 0) [MOD 2 * 256 ^ n - 1] := by
    simpa using hvalue.trans (hround.mul_right _)
  refine carried_eq_of_withCarry_eq hlast hfirst ?_
  -- the residues are one number except at the modulus itself, which is no zero
  rcases (withCarry_le hlast).lt_or_eq with hlt | hmodulus
  · rcases (withCarry_le hfirst).lt_or_eq with hlt' | hmodulus'
    · exact hsame.eq_of_lt_of_lt hlt hlt'
    · have hresidue : withCarry n (x (8 * n + 1)) = 0 := by
        simpa [Nat.ModEq, hmodulus', Nat.mod_eq_of_lt hlt] using hsame
      omega
  · by_contra hne
    have hlt' := lt_of_le_of_ne (withCarry_le hfirst) fun h => hne (hmodulus.trans h.symm)
    have hresidue : withCarry n (x 0) = 0 := by
      simpa [Nat.ModEq, hmodulus, Nat.mod_eq_of_lt hlt'] using hsame.symm
    omega

end Turned

end

/-- Chains of shifts are shifts of the whole number. Upward, what comes in below is C or zero;
downward, what comes in above is C, zero or the sign. The rotations undo each other, and come round
after as many turns as C and the bytes have bits. -/
theorem shift_chains_exact {s : List Byte × ConditionCodes} (hs : s.1 ≠ []) :
    let n := s.1.length
    (∀ first ∈ [Modification.rol, .asl],
      let up := shiftUp first s
      let carry := first.bitIn s.2.carry (number s.1).msb
      up.1.length = n ∧
      (number up.1).toNat + 256 ^ n * up.2.carry.toNat = 2 * (number s.1).toNat + carry.toNat ∧
      up.2.TellsSign (number up.1) (2 * (number s.1).toInt + carry.toNat)) ∧
    (∀ first ∈ [Modification.ror, .lsr, .asr],
      let down := shiftDown first s
      let carry := first.bitIn s.2.carry (number s.1).msb
      down.1.length = n ∧
      2 * (number down.1).toNat + down.2.carry.toNat =
        (number s.1).toNat + 256 ^ n * carry.toNat) ∧
    (number (shiftDown .asr s).1).toInt = (number s.1).toInt / 2 ∧
    carried (shiftDown .ror (shiftUp .rol s)) = carried s ∧
    carried (shiftUp .rol (shiftDown .ror s)) = carried s ∧
    carried ((shiftUp .rol)^[8 * n + 1] s) = carried s ∧
    carried ((shiftDown .ror)^[8 * n + 1] s) = carried s := by
  intro n
  have hup := length_iterate s fun s => (turned_shiftUp s).right
  have hdown := length_iterate s fun s => (turned_shiftDown s).left
  refine ⟨shiftUp_exact hs, shiftDown_exact hs, toInt_shiftDown_asr hs, ?_, ?_, ?_, ?_⟩
  · have hturned := turned_shiftDown (shiftUp .rol s)
    rw [(turned_shiftUp s).right] at hturned
    exact hturned.carried_left (turned_shiftUp s)
  · have hturned := turned_shiftUp (shiftDown .ror s)
    rw [(turned_shiftDown s).left] at hturned
    exact hturned.carried_right (turned_shiftDown s)
  · refine Turned.comes_round (n := n) (x := fun k => (shiftUp .rol)^[k] s) fun k _ => ?_
    have hturned := turned_shiftUp ((shiftUp .rol)^[k] s)
    rw [hup k, ← Function.iterate_succ_apply' (shiftUp .rol)] at hturned
    exact hturned
  · -- the turns downward, read from the last one, are turns upward
    have hback : ∀ k < 8 * n + 1, Turned n ((shiftDown .ror)^[8 * n + 1 - k] s)
        ((shiftDown .ror)^[8 * n + 1 - (k + 1)] s) := by
      intro k hk
      have hturned := turned_shiftDown ((shiftDown .ror)^[8 * n + 1 - (k + 1)] s)
      rw [hdown, ← Function.iterate_succ_apply' (shiftDown .ror)] at hturned
      rwa [show 8 * n + 1 - k = (8 * n + 1 - (k + 1)).succ by omega]
    have hround := Turned.comes_round (x := fun k => (shiftDown .ror)^[8 * n + 1 - k] s) hback
    simpa using hround.symm

/-- Three bytes: the bit that C brings in goes through them in 25 turns, and half of `$FFFFFB`,
which is minus 5, is `$FFFFFD`, minus 3. -/
theorem sign_runs_through :
    let s : List Byte × ConditionCodes := ([0xFB, 0xFF, 0xFF], ⟨Flag.carry⟩)
    (number (shiftDown .asr s).1).toInt = -3 ∧ (shiftUp .rol s).2.overflow = false ∧
      carried ((shiftUp .rol)^[25] s) = (true, [0xFB, 0xFF, 0xFF]) := by
  intro s
  obtain ⟨hup, -, hfloor, -, -, hround, -⟩ :=
    shift_chains_exact (s := ([0xFB, 0xFF, 0xFF], ⟨Flag.carry⟩)) (by simp)
  refine ⟨hfloor.trans (by decide +kernel), ?_, hround⟩
  have hoverflow := (hup .rol (by simp)).2.2.overflow
  rw [← Bool.not_eq_true, hoverflow]
  decide +kernel

end M6809
