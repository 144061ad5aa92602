import M6809.Memory
import M6809.Proofs.BusLogic

namespace M6809

namespace BusM

variable {α : Type}

theorem bus_run_of_writes_eq_nil {p : BusM α} {m : Memory} (h : (p.run m).writes = []) :
    (p.run m).bus = m := by
  rw [writes_run] at h
  induction p with
  | done result => rfl
  | read address next ih => exact ih _ h
  | write address value next ih => cases h
  | say message next ih => exact ih h

/-- On a memory the computation gives a result, and leaves the memory as it is. -/
structure Yields (p : BusM α) (m : Memory) (a : α) : Prop where
  result : (p.run m).result = a
  bus : (p.run m).bus = m

theorem yields_pure (m : Memory) (a : α) : (pure a : BusM α).Yields m a := ⟨rfl, rfl⟩

theorem Yields.bind {γ : Type} {p : BusM α} {f : α → BusM γ} {m : Memory} {a : α} {b : γ}
    (hp : p.Yields m a) (hf : (f a).Yields m b) : (p >>= f).Yields m b where
  result := by rw [result_bind, hp.result, hp.bus, hf.result]
  bus := by rw [bus_bind, hp.result, hp.bus, hf.bus]

end BusM

namespace Memory

/-- The bytes from an address up. -/
def bytesFrom (m : Memory) (address : Word) : Nat → List Byte
  | 0 => []
  | n + 1 => m.read address :: m.bytesFrom (address + 1) n

theorem length_bytesFrom (m : Memory) (address : Word) (n : Nat) :
    (m.bytesFrom address n).length = n := by
  induction n generalizing address with
  | zero => rfl
  | succ n ih => simp [bytesFrom, ih]

theorem bytesFrom_add (m : Memory) (address : Word) (n k : Nat) :
    m.bytesFrom address (n + k) =
      m.bytesFrom address n ++ m.bytesFrom (address + BitVec.ofNat 16 n) k := by
  induction n generalizing address with
  | zero => simp [bytesFrom]
  | succ n ih =>
      rw [Nat.add_right_comm, bytesFrom, bytesFrom, ih, List.cons_append,
        Word.add_one_add_ofNat]

theorem bytesFrom_split {m m' : Memory} {address : Word} {n k : Nat}
    (h : m'.bytesFrom address (n + k) = m.bytesFrom address (n + k)) :
    m'.bytesFrom address n = m.bytesFrom address n ∧
      m'.bytesFrom (address + BitVec.ofNat 16 n) k =
        m.bytesFrom (address + BitVec.ofNat 16 n) k := by
  rw [bytesFrom_add, bytesFrom_add] at h
  exact List.append_inj h (by rw [length_bytesFrom, length_bytesFrom])

theorem bytesFrom_congr {m m' : Memory} {address : Word} {n : Nat}
    (h : ∀ i < n, m'.read (address + BitVec.ofNat 16 i) = m.read (address + BitVec.ofNat 16 i)) :
    m'.bytesFrom address n = m.bytesFrom address n := by
  induction n generalizing address with
  | zero => rfl
  | succ n ih =>
      have hfirst := h 0 (by omega)
      simp only [BitVec.add_zero] at hfirst
      rw [bytesFrom, bytesFrom, hfirst, ih]
      intro i hi
      rw [Word.add_one_add_ofNat]
      exact h (i + 1) (by omega)

theorem toNat_sub_add_one {address base : Word} (h : 0 < (address - base).toNat) :
    (address - (base + 1)).toNat = (address - base).toNat - 1 := by
  bv_omega

theorem toNat_sub_add_one_self (base : Word) : (base - (base + 1)).toNat = 65535 := by
  bv_omega

theorem read_load_of_outside (m : Memory) {base address : Word} {bytes : List Byte}
    (h : bytes.length ≤ (address - base).toNat) :
    (m.load base bytes).read address = m.read address := by
  induction bytes generalizing m base with
  | nil => rfl
  | cons value rest ih =>
      rw [List.length_cons] at h
      have hne : base ≠ address := by
        rintro rfl
        simp at h
      rw [load, ih, read_write, if_neg hne]
      rw [toNat_sub_add_one (by omega)]
      omega

theorem bytesFrom_load (m : Memory) (base : Word) {bytes : List Byte}
    (h : bytes.length ≤ 65536) : (m.load base bytes).bytesFrom base bytes.length = bytes := by
  induction bytes generalizing m base with
  | nil => rfl
  | cons value rest ih =>
      rw [List.length_cons] at h
      rw [List.length_cons, load, bytesFrom, ih _ _ (by omega), read_load_of_outside,
        read_write, if_pos rfl]
      rw [toNat_sub_add_one_self]
      omega

theorem bytesFrom_load_above (m : Memory) (base : Word) {bytes : List Byte} {n : Nat}
    (h : bytes.length + n ≤ 65536) :
    (m.load base bytes).bytesFrom (base + BitVec.ofNat 16 bytes.length) n =
      m.bytesFrom (base + BitVec.ofNat 16 bytes.length) n := by
  apply bytesFrom_congr
  intro i hi
  apply read_load_of_outside
  have hoffset : base + BitVec.ofNat 16 bytes.length + BitVec.ofNat 16 i - base =
      BitVec.ofNat 16 (bytes.length + i) := by
    rw [BitVec.ofNat_add]
    bv_omega
  rw [hoffset, BitVec.toNat_ofNat, Nat.mod_eq_of_lt (by omega)]
  omega

theorem write_comm (m : Memory) {a b : Word} (v w : Byte) (h : a ≠ b) :
    (m.write a v).write b w = (m.write b w).write a v := by
  apply eq_of_read_eq
  intro address
  simp only [read_write]
  grind

theorem write_load (m : Memory) {base address : Word} {bytes : List Byte} (value : Byte)
    (h : bytes.length ≤ (address - base).toNat) :
    (m.load base bytes).write address value = (m.write address value).load base bytes := by
  induction bytes generalizing m base with
  | nil => rfl
  | cons first rest ih =>
      rw [List.length_cons] at h
      have hne : address ≠ base := by
        rintro rfl
        simp at h
      rw [load, load, write_comm _ _ _ hne, ih]
      rw [toNat_sub_add_one (by omega)]
      omega

end Memory

end M6809
