import M6809.Block
import M6809.Proofs.MemoryBus
import Mathlib.Data.List.Induction
import Mathlib.Order.Bounds.Basic

namespace M6809

theorem BusM.runEach_concat {α β : Type} [Bus β] (front : List (BusM α)) (last : BusM α)
    (bus : β) :
    let o := runEach front bus
    let next := last.run o.bus
    runEach (front ++ [last]) bus =
      ⟨o.result ++ [next.result], next.bus, o.events ++ next.events⟩ := by
  simp [runEach]

namespace Bus

theorem addressesFrom_succ (base : Word) (count : Nat) :
    addressesFrom base (count + 1) =
      addressesFrom base count ++ [base + BitVec.ofNat 16 count] := by
  rw [addressesFrom, List.range_succ, List.map_append]
  rfl

theorem length_addressesFrom (base : Word) (count : Nat) :
    (addressesFrom base count).length = count := by
  rw [addressesFrom, List.length_map, List.length_range]

variable (m : Memory) (base : Word)

theorem bus_writeBlock_memory (data : List Byte) :
    (writeBlock m base data).bus = m.load base data := by
  unfold writeBlock
  induction data using List.reverseRecOn with
  | nil => rfl
  | append_singleton front last ih =>
      have hlength := length_addressesFrom base front.length
      rw [List.length_append, List.length_singleton, addressesFrom_succ,
        List.zipWith_append hlength, Memory.load_append, ← ih]
      exact congrArg Outcome.bus (BusM.runEach_concat _ _ m)

theorem readBlock_memory (count : Nat) :
    (readBlock m base count).result = m.bytesFrom base count ∧
      (readBlock m base count).bus = m := by
  unfold readBlock
  induction count with
  | zero => exact ⟨rfl, rfl⟩
  | succ count ih =>
      obtain ⟨hresult, hbus⟩ := ih
      rw [addressesFrom_succ, List.map_append, Memory.bytesFrom_add, ← hresult]
      have hlast := BusM.runEach_concat ((addressesFrom base count).map BusM.readByte)
        (BusM.readByte (base + BitVec.ofNat 16 count)) m
      simp only [hbus] at hlast
      exact ⟨congrArg Outcome.result hlast, congrArg Outcome.bus hlast⟩

theorem result_readBlock_writeBlock {data : List Byte} (h : data.length ≤ 65536) :
    (readBlock (writeBlock m base data).bus base data.length).result = data := by
  rw [(readBlock_memory _ base data.length).1, bus_writeBlock_memory]
  exact Memory.bytesFrom_load m base h

end Bus

namespace Memory

theorem read_load_concat (m : Memory) (base address : Word) (front : List Byte) (last : Byte) :
    (m.load base (front ++ [last])).read address =
      if base + BitVec.ofNat 16 front.length = address then last
      else (m.load base front).read address := by
  rw [load_append, load, load, read_write]

theorem getElem?_eq_some_read_load (m : Memory) {base address : Word} {data : List Byte} {i : Nat}
    (h : IsGreatest {i | i < data.length ∧ base + BitVec.ofNat 16 i = address} i) :
    data[i]? = some ((m.load base data).read address) := by
  induction data using List.reverseRecOn with
  | nil => exact absurd h.1.1 (Nat.not_lt_zero i)
  | append_singleton front last ih =>
      obtain ⟨⟨hi, hplace⟩, hgreatest⟩ := h
      rw [List.length_append, List.length_singleton] at hi hgreatest
      rw [read_load_concat]
      by_cases hlast : base + BitVec.ofNat 16 front.length = address
      · have hle : front.length ≤ i := hgreatest ⟨Nat.lt_succ_self _, hlast⟩
        obtain rfl : i = front.length := by omega
        rw [if_pos hlast, List.getElem?_concat_length]
      · have hne : i ≠ front.length := by
          rintro rfl
          exact hlast hplace
        have hlt : i < front.length := by omega
        rw [if_neg hlast, List.getElem?_append_left hlt]
        exact ih ⟨⟨hlt, hplace⟩, fun j hj => hgreatest ⟨Nat.lt_succ_of_lt hj.1, hj.2⟩⟩

theorem length_le_offset {base address : Word} {length : Nat}
    (h : ∀ i < length, base + BitVec.ofNat 16 i ≠ address) : length ≤ (address - base).toNat := by
  by_contra hlt
  apply h (address - base).toNat (by omega)
  rw [BitVec.ofNat_toNat, BitVec.setWidth_eq]
  bv_omega

theorem load_comm (m : Memory) {base base' : Word} {data data' : List Byte}
    (h : ∀ i < data.length, ∀ j < data'.length,
      base + BitVec.ofNat 16 i ≠ base' + BitVec.ofNat 16 j) :
    (m.load base data).load base' data' = (m.load base' data').load base data := by
  induction data' generalizing m base' with
  | nil => rfl
  | cons first rest ih =>
      have hfirst : data.length ≤ (base' - base).toNat := by
        apply length_le_offset
        intro i hi
        have hne := h i hi 0 (Nat.zero_lt_succ _)
        rwa [BitVec.add_zero] at hne
      have hrest : ∀ i < data.length, ∀ j < rest.length,
          base + BitVec.ofNat 16 i ≠ base' + 1 + BitVec.ofNat 16 j := by
        intro i hi j hj
        rw [Word.add_one_add_ofNat]
        exact h i hi (j + 1) (Nat.succ_lt_succ hj)
      calc (m.load base data).load base' (first :: rest)
        _ = ((m.load base data).write base' first).load (base' + 1) rest := rfl
        _ = ((m.write base' first).load base data).load (base' + 1) rest := by
            rw [write_load m first hfirst]
        _ = ((m.write base' first).load (base' + 1) rest).load base data := ih _ hrest

/-- Behind a block an address holds the latest of the bytes that fall on it, and what it held before
if none does. A block may be laid out in two parts, the second from where the first ends, and two
blocks that do not meet in either order. -/
theorem last_bytes_stay (m : Memory) (base : Word) (data : List Byte) :
    let after := m.load base data
    (∀ address i, IsGreatest {i | i < data.length ∧ base + BitVec.ofNat 16 i = address} i →
      data[i]? = some (after.read address)) ∧
    (∀ address, (∀ i < data.length, base + BitVec.ofNat 16 i ≠ address) →
      after.read address = m.read address) ∧
    (∀ more, m.load base (data ++ more) =
      after.load (base + BitVec.ofNat 16 data.length) more) ∧
    ∀ base' data', (∀ i < data.length, ∀ j < data'.length,
        base + BitVec.ofNat 16 i ≠ base' + BitVec.ofNat 16 j) →
      after.load base' data' = (m.load base' data').load base data := by
  intro after
  refine ⟨?_, ?_, m.load_append base data, ?_⟩
  · intro address i hgreatest
    exact m.getElem?_eq_some_read_load hgreatest
  · intro address hunreached
    exact m.read_load_of_outside (length_le_offset hunreached)
  · intro base' data' hapart
    exact m.load_comm hapart

/-- A block one byte longer than memory covers its first byte and no other. A block over the top of
memory leaves the address behind it alone, and may be laid out before or behind one from there. -/
theorem block_covers_its_beginning :
    let long : List Byte := List.replicate 65536 0x11 ++ [0x22]
    let wrapped := Memory.zero.load 0xFFFF [0x12, 0x34]
    (Memory.zero.load 0xC000 long).read 0xC000 = 0x22 ∧
      (Memory.zero.load 0xC000 long).read 0xC001 = 0x11 ∧
      wrapped.read 0x0001 = 0x00 ∧
      wrapped.load 0x0001 [0x56] = (Memory.zero.load 0x0001 [0x56]).load 0xFFFF [0x12, 0x34] := by
  intro long wrapped
  have hlength : long.length = 65537 := by
    rw [List.length_append, List.length_replicate, List.length_singleton]
  obtain ⟨hlatest, -⟩ := last_bytes_stay Memory.zero 0xC000 long
  obtain ⟨-, hkept, -, hcomm⟩ := last_bytes_stay Memory.zero 0xFFFF [0x12, 0x34]
  have hcovered : IsGreatest
      {i | i < long.length ∧ (0xC000 : Word) + BitVec.ofNat 16 i = 0xC000} 65536 := by
    rw [hlength]
    exact ⟨⟨by decide, by decide⟩, fun j hj => Nat.le_of_lt_succ hj.1⟩
  have huncovered : IsGreatest
      {i | i < long.length ∧ (0xC000 : Word) + BitVec.ofNat 16 i = 0xC001} 1 := by
    rw [hlength]
    refine ⟨⟨by decide, by decide⟩, ?_⟩
    rintro j ⟨hj, hplace⟩
    bv_omega
  have hlast : long[65536]? = some 0x22 := by
    rw [List.getElem?_append_right (by rw [List.length_replicate]), List.length_replicate]
    rfl
  have hsecond : long[1]? = some 0x11 := by
    rw [List.getElem?_append_left (by rw [List.length_replicate]; decide)]
    exact List.getElem?_replicate_of_lt (by decide)
  refine ⟨?_, ?_, (hkept 0x0001 (by decide)).trans (read_filled 0 0x0001),
    hcomm 0x0001 [0x56] (by decide)⟩
  · exact Option.some.inj ((hlatest 0xC000 65536 hcovered).symm.trans hlast)
  · exact Option.some.inj ((hlatest 0xC001 1 huncovered).symm.trans hsecond)

end Memory

end M6809
