import M6809.Bus

/-!
Flat memory: a byte for each of the 65536 addresses. It is a complete binary tree, so that a write
shares all but one path with the memory before it. The main statements say that a read gives the
latest byte written, that memories with equal reads are equal, and that a block is laid out byte
after byte.
-/
namespace M6809

/-- A complete binary tree of bytes; the address bits select the way from the top bit down. -/
inductive ByteTree : Nat → Type where
  | cell (value : Byte) : ByteTree 0
  | fork {n : Nat} (low high : ByteTree n) : ByteTree (n + 1)

namespace ByteTree

def fill (value : Byte) : (n : Nat) → ByteTree n
  | 0 => cell value
  | n + 1 =>
    let half := fill value n
    fork half half

def read : {n : Nat} → ByteTree n → Word → Byte
  | _, cell value, _ => value
  | n + 1, fork low high, address =>
    if address.getLsbD n then high.read address else low.read address

def write : {n : Nat} → ByteTree n → Word → Byte → ByteTree n
  | _, cell _, _, value => cell value
  | n + 1, fork low high, address, value =>
    if address.getLsbD n then fork low (high.write address value)
    else fork (low.write address value) high

@[simp] theorem read_fill (value : Byte) (n : Nat) (address : Word) :
    (fill value n).read address = value := by
  induction n with
  | zero => rfl
  | succ n ih => simp [fill, read, ih]

theorem read_congr {n : Nat} (t : ByteTree n) {a b : Word}
    (h : ∀ i < n, a.getLsbD i = b.getLsbD i) : t.read a = t.read b := by
  induction t with
  | cell value => rfl
  | @fork n low high ihLow ihHigh =>
    have hbelow : ∀ i < n, a.getLsbD i = b.getLsbD i := fun i hi => h i (by omega)
    simp only [read, h n (by omega), ihLow hbelow, ihHigh hbelow]

theorem read_write_self {n : Nat} (t : ByteTree n) (a : Word) (value : Byte) :
    (t.write a value).read a = value := by
  induction t with
  | cell => rfl
  | @fork n low high ihLow ihHigh =>
    by_cases h : a.getLsbD n <;> simp [write, read, h, ihLow, ihHigh]

theorem read_write_of_ne {n : Nat} (t : ByteTree n) {a b : Word} (value : Byte)
    (h : ∃ i < n, a.getLsbD i ≠ b.getLsbD i) : (t.write a value).read b = t.read b := by
  induction t with
  | cell => obtain ⟨i, hi, _⟩ := h; omega
  | @fork n low high ihLow ihHigh =>
    obtain ⟨i, hi, hne⟩ := h
    by_cases hin : i = n
    · subst hin
      cases ha : a.getLsbD i <;> cases hb : b.getLsbD i <;> simp_all [write, read]
    · have hbelow : ∃ i < n, a.getLsbD i ≠ b.getLsbD i := ⟨i, by omega, hne⟩
      cases ha : a.getLsbD n <;> cases hb : b.getLsbD n <;>
        simp [write, read, ha, hb, ihLow hbelow, ihHigh hbelow]

theorem eq_of_read_eq {n : Nat} (hn : n ≤ 16) {t t' : ByteTree n}
    (h : ∀ address, t.read address = t'.read address) : t = t' := by
  induction t with
  | cell value =>
    cases t' with
    | cell value' => rw [show value = value' from h 0]
  | @fork n low high ihLow ihHigh =>
    cases t' with
    | fork low' high' =>
      have hlow : ∀ address, low.read address = low'.read address := by
        intro address
        have hat := h (address &&& ~~~BitVec.twoPow 16 n)
        have hbelow : ∀ i < n, (address &&& ~~~BitVec.twoPow 16 n).getLsbD i =
            address.getLsbD i := by
          intro i hi
          simp [show i < 16 by omega, show ¬i = n by omega]
        have htop : (address &&& ~~~BitVec.twoPow 16 n).getLsbD n = false := by
          simp [show n < 16 by omega]
        simpa [read, htop, read_congr _ hbelow] using hat
      have hhigh : ∀ address, high.read address = high'.read address := by
        intro address
        have hat := h (address ||| BitVec.twoPow 16 n)
        have hbelow : ∀ i < n, (address ||| BitVec.twoPow 16 n).getLsbD i =
            address.getLsbD i := by
          intro i hi
          simp [BitVec.getLsbD_twoPow, show ¬n = i by omega]
        have htop : (address ||| BitVec.twoPow 16 n).getLsbD n = true := by
          simp [show n < 16 by omega]
        simpa [read, htop, read_congr _ hbelow] using hat
      rw [ihLow (by omega) hlow, ihHigh (by omega) hhigh]

end ByteTree

structure Memory where
  bytes : ByteTree 16

namespace Memory

def filled (value : Byte) : Memory := ⟨ByteTree.fill value 16⟩

def zero : Memory := filled 0

def read (m : Memory) (address : Word) : Byte := m.bytes.read address

/-- The word at an address, high byte first. -/
def readWord (m : Memory) (address : Word) : Word :=
  Word.ofBytes (m.read address) (m.read (address + 1))

def write (m : Memory) (address : Word) (value : Byte) : Memory := ⟨m.bytes.write address value⟩

/-- Lays a block out from an address up, wrapping at the top of memory. -/
def load (m : Memory) (base : Word) : List Byte → Memory
  | [] => m
  | value :: rest => (m.write base value).load (base + 1) rest

@[simp] theorem read_filled (value : Byte) (address : Word) :
    (filled value).read address = value :=
  ByteTree.read_fill value 16 address

theorem read_write (m : Memory) (a b : Word) (value : Byte) :
    (m.write a value).read b = if a = b then value else m.read b := by
  by_cases h : a = b
  · subst h
    simp [read, write, ByteTree.read_write_self]
  · rw [if_neg h]
    apply ByteTree.read_write_of_ne
    apply Classical.byContradiction
    intro hall
    apply h
    apply BitVec.eq_of_getLsbD_eq
    intro i hi
    apply Classical.byContradiction
    exact fun hne => hall ⟨i, hi, hne⟩

theorem eq_of_read_eq {m m' : Memory} (h : ∀ address, m.read address = m'.read address) :
    m = m' :=
  congrArg Memory.mk (ByteTree.eq_of_read_eq (Nat.le_refl 16) h)

theorem load_append (m : Memory) (base : Word) (front back : List Byte) :
    m.load base (front ++ back) =
      (m.load base front).load (base + BitVec.ofNat 16 front.length) back := by
  induction front generalizing m base with
  | nil => simp [load]
  | cons value front ih =>
    rw [List.cons_append, load, load, ih, Word.add_one_add_ofNat, List.length_cons]

instance : Bus Memory where
  read m address := (m.read address, m)
  write m address value := m.write address value

end Memory

end M6809
