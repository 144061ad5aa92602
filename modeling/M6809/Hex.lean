import M6809.Word

namespace M6809.Hex

def digit (n : Nat) : Char :=
  if n < 10 then Char.ofNat (48 + n) else Char.ofNat (55 + n)

/-- The lowest `count` digits of a number, highest first. -/
def digits : Nat → Nat → List Char
  | 0, _ => []
  | count + 1, n => digits count (n / 16) ++ [digit (n % 16)]

theorem length_digits (count n : Nat) : (digits count n).length = count := by
  induction count generalizing n with
  | zero => rfl
  | succ count ih => simp [digits, ih]

theorem digit_injective {m n : Nat} (hm : m < 16) (hn : n < 16) (h : digit m = digit n) :
    m = n := by
  have hall : ∀ i : Fin 16, ∀ j : Fin 16, digit i = digit j → i = j := by decide
  exact congrArg Fin.val (hall ⟨m, hm⟩ ⟨n, hn⟩ h)

theorem mod_eq_of_digits_eq {count m n : Nat} (h : digits count m = digits count n) :
    m % Nat.pow 16 count = n % Nat.pow 16 count := by
  induction count generalizing m n with
  | zero => rw [Nat.pow, Nat.mod_one, Nat.mod_one]
  | succ count ih =>
    obtain ⟨hinit, hlast⟩ := List.append_inj h (by simp [length_digits])
    have hq := ih hinit
    have hr : m % 16 = n % 16 :=
      digit_injective (Nat.mod_lt _ (by decide)) (Nat.mod_lt _ (by decide)) (by simpa using hlast)
    have hpow : Nat.pow 16 (count + 1) = 16 * Nat.pow 16 count := Nat.mul_comm (Nat.pow 16 count) 16
    rw [hpow, Nat.mod_mul, Nat.mod_mul, hq, hr]

def byte (b : Byte) : String := String.ofList (digits 2 b.toNat)

def word (w : Word) : String := String.ofList (digits 4 w.toNat)

def long (n : BitVec 32) : String := String.ofList (digits 8 n.toNat)

/-- A signed byte: the sign, then the magnitude. -/
def signed (b : Byte) : String :=
  if b.msb then s!"-${byte (-b)}" else s!"${byte b}"

end M6809.Hex
