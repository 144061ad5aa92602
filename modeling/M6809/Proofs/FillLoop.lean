import M6809.Proofs.Accounting
import M6809.Proofs.FlagOwnership
import M6809.Proofs.InherentInstructions
import M6809.Proofs.ResultFlags

namespace M6809

namespace FillLoop

def code : List Byte := [0xE7, 0x80, 0x5A, 0x26, 0xFB]

/-- How often the loop is run through. B is decremented before it is tested. -/
def count (b : Byte) : Nat := if b = 0 then 256 else b.toNat

def store (address : Word) : Listing :=
  ⟨address, [0xE7, 0x80], ⟨.zero, 0xE7, .storeByte .b, .indexed⟩,
    .indexed ⟨.increment .one, .x, false⟩ 0⟩

def decrement (address : Word) : Listing :=
  ⟨address, [0x5A], ⟨.zero, 0x5A, .modify .dec (.accumulator .b), .inherent⟩, .implied⟩

def branch (address : Word) : Listing :=
  ⟨address, [0x26, 0xFB], ⟨.zero, 0x26, .branch .notEqual, .relative⟩,
    .target (address + 2 + Byte.displacement 0xFB)⟩

section
variable {m : Memory} {p : Word} (h : m.bytesFrom p code.length = code)
include h

theorem bytesFrom_parts : m.bytesFrom p 2 = [0xE7, 0x80] ∧ m.bytesFrom (p + 2) 1 = [0x5A] ∧
    m.bytesFrom (p + 3) 2 = [0x26, 0xFB] := by
  have hlast : p + 2 + 1 = p + 3 := BitVec.add_assoc p 2 1
  have hlength : code.length = 2 + (1 + 2) := rfl
  rw [hlength, Memory.bytesFrom_add, Memory.bytesFrom_add] at h
  have hparts : m.bytesFrom p 2 ++ (m.bytesFrom (p + 2) 1 ++ m.bytesFrom (p + 2 + 1) 2) =
    [0xE7, 0x80] ++ ([0x5A] ++ [0x26, 0xFB]) := h
  obtain ⟨hstore, hrest⟩ := List.append_inj hparts (Memory.length_bytesFrom _ _ _)
  obtain ⟨hdecrement, hbranch⟩ := List.append_inj hrest (Memory.length_bytesFrom _ _ _)
  exact ⟨hstore, hdecrement, hlast ▸ hbranch⟩

theorem yields_store : (Listing.read p).Yields m (.ok (store p)) := by
  have hdefined : Opcode.ofCode? .zero 0xE7 = some (store p).opcode := rfl
  have hwell : (store p).WellFormed :=
    ⟨hdefined, [0x80], rfl, .indexed 0x80 ⟨.increment .one, .x, false⟩ [] rfl rfl rfl⟩
  exact hwell.yields_read (bytesFrom_parts h).1

theorem yields_decrement : (Listing.read (p + 2)).Yields m (.ok (decrement (p + 2))) := by
  have hdefined : Opcode.ofCode? .zero 0x5A = some (decrement (p + 2)).opcode := rfl
  have hwell : (decrement (p + 2)).WellFormed := ⟨hdefined, [], rfl, .implied rfl⟩
  exact hwell.yields_read (bytesFrom_parts h).2.1

theorem yields_branch : (Listing.read (p + 3)).Yields m (.ok (branch (p + 3))) := by
  have hdefined : Opcode.ofCode? .zero 0x26 = some (branch (p + 3)).opcode := rfl
  have hwell : (branch (p + 3)).WellFormed := ⟨hdefined, [0xFB], rfl, .relative 0xFB rfl⟩
  exact hwell.yields_read (bytesFrom_parts h).2.2

end

section
variable (r : Registers) (m : Memory) (p : Word)

theorem run_store :
    let run := ((store p).carryOut r).run m
    run.result = ⟨(store p).opcode, { r with
        pc := p + 2, x := r.x + 1, cc := (Arithmetic.logic r.b).updateFlags r.cc }, .running, 6⟩ ∧
      run.bus = m.write r.x r.b :=
  ⟨rfl, rfl⟩

theorem run_decrement :
    let run := ((decrement p).carryOut r).run m
    run.result = ⟨(decrement p).opcode, { r with
        pc := p + 1, b := r.b - 1, cc := (Arithmetic.dec r.b).updateFlags r.cc }, .running, 2⟩ ∧
      run.bus = m :=
  ⟨rfl, rfl⟩

theorem perform_branch : Operation.perform .zero p r (.branch .notEqual) =
    pure ⟨{ r with pc := if r.cc.zero then r.pc else p }, .running, 0⟩ := by
  by_cases hzero : r.cc.zero = true
  · simp [Operation.perform, Condition.holds, hzero, Effect.ofRegisters]
  · simp [Operation.perform, Condition.holds, hzero]

theorem run_branch :
    let run := ((branch (p + 3)).carryOut r).run m
    run.result = ⟨(branch (p + 3)).opcode, { r with
        pc := if r.cc.zero then p + 5 else p }, .running, 3⟩ ∧
      run.bus = m := by
  have hback : p + 3 + 2 + Byte.displacement 0xFB = p := by
    have hoffset : Byte.displacement 0xFB = -5 := by decide
    rw [hoffset]
    bv_omega
  have hnext : p + 3 + 2 = p + 5 := BitVec.add_assoc p 3 2
  have hwork : (branch (p + 3)).carryOut r = Operation.perform .zero
      (p + 3 + 2 + Byte.displacement 0xFB) { r with pc := p + 3 + 2 } (.branch .notEqual) >>=
        fun effect => pure ⟨(branch (p + 3)).opcode, effect.regs, effect.state,
          3 + effect.extraCycles⟩ := by
    unfold Listing.carryOut Registers.carryOut
    exact congrArg (· >>= _) (BusM.supply_nil _)
  rw [hwork, hback, hnext, perform_branch]
  exact ⟨rfl, rfl⟩

end

theorem zero_dec (b : Byte) (cc : ConditionCodes) :
    ((Arithmetic.dec b).updateFlags cc).zero = (b - 1 == 0) := by
  have hmask : Arithmetic.maskNZV &&& Flag.zero = Flag.zero := by decide
  refine (cc.isSet_update hmask _).trans ?_
  revert b
  decide +kernel

theorem sub_one_eq_zero_iff {b : Byte} {k : Nat} (h : k < count b) :
    b - BitVec.ofNat 8 k - 1 = 0 ↔ k + 1 = count b := by
  unfold count at *
  split at h
  · simp_all
    bv_omega
  · rename_i hb
    rw [if_neg hb]
    bv_omega

theorem count_pos (b : Byte) : 0 < count b := by
  unfold count
  split <;> bv_omega

theorem count_le (b : Byte) : count b ≤ 256 := by
  unfold count
  split <;> bv_omega

theorem sub_count (b : Byte) : b - BitVec.ofNat 8 (count b) = 0 := by
  unfold count
  split
  · subst b
    rfl
  · simp

end FillLoop

open FillLoop

/-- In front of the loop, with no interrupt to take and the block outside of the loop. -/
structure Machine.AtFillLoop (m : Machine Memory) : Prop extends m.AtBytes FillLoop.code where
  apart : ∀ i < count m.processor.regs.b, ∀ j < FillLoop.code.length,
    m.processor.regs.x + BitVec.ofNat 16 i ≠ m.processor.regs.pc + BitVec.ofNat 16 j

/-- What has changed since the loop began, when so many bytes are stored and B was decremented so
often. -/
structure Machine.Fills (m : Machine Memory) (stored decremented : Nat) (pc : Word)
    (m' : Machine Memory) : Prop where
  state : m'.processor.state = .running
  latches : m'.processor.latches = m.processor.latches
  pc : m'.processor.regs.pc = pc
  b : m'.processor.regs.b = m.processor.regs.b - BitVec.ofNat 8 decremented
  x : m'.processor.regs.x = m.processor.regs.x + BitVec.ofNat 16 stored
  others : { m'.processor.regs with
    pc := m.processor.regs.pc, b := m.processor.regs.b, x := m.processor.regs.x
    cc := m.processor.regs.cc } = m.processor.regs
  flags : ConditionCodes.SameOutside Arithmetic.maskNZV m.processor.regs.cc m'.processor.regs.cc
  block : ∀ i < stored, m'.bus.read (m.processor.regs.x + BitVec.ofNat 16 i) =
    m.processor.regs.b - BitVec.ofNat 8 i
  kept : ∀ address, (∀ i < stored, m.processor.regs.x + BitVec.ofNat 16 i ≠ address) →
    m'.bus.read address = m.bus.read address

namespace Machine

variable {m m' : Machine Memory}

theorem Fills.refl (hrun : m.processor.state = .running) :
    m.Fills 0 0 m.processor.regs.pc m where
  state := hrun
  latches := rfl
  pc := rfl
  b := (BitVec.sub_zero _).symm
  x := (BitVec.add_zero _).symm
  others := rfl
  flags := rfl
  block := fun i hi => absurd hi (Nat.not_lt_zero i)
  kept := fun _ _ => rfl

theorem Fills.step {stored decremented stored' decremented' cycles : Nat} {pc pc' : Word}
    {regs : Registers} {bus : Memory} (hfills : m.Fills stored decremented pc m')
    (hdoes : m'.Does cycles regs bus) (hpc : regs.pc = pc')
    (hb : regs.b = m.processor.regs.b - BitVec.ofNat 8 decremented')
    (hx : regs.x = m.processor.regs.x + BitVec.ofNat 16 stored')
    (hothers : { regs with
      pc := m'.processor.regs.pc, b := m'.processor.regs.b, x := m'.processor.regs.x
      cc := m'.processor.regs.cc } = m'.processor.regs)
    (hflags : ConditionCodes.SameOutside Arithmetic.maskNZV m'.processor.regs.cc regs.cc)
    (hblock : ∀ i < stored', bus.read (m.processor.regs.x + BitVec.ofNat 16 i) =
      m.processor.regs.b - BitVec.ofNat 8 i)
    (hkept : ∀ address, (∀ i < stored', m.processor.regs.x + BitVec.ofNat 16 i ≠ address) →
      bus.read address = m.bus.read address) :
    m.Fills stored' decremented' pc' m'.step := by
  obtain ⟨-, -, hregs, hbus, hstate, hlatches⟩ := hdoes
  subst hregs hbus
  let put (r : Registers) : Registers := { r with
    pc := m.processor.regs.pc, b := m.processor.regs.b, x := m.processor.regs.x
    cc := m.processor.regs.cc }
  exact ⟨hstate, hlatches.trans hfills.latches, hpc, hb, hx,
    (congrArg put hothers).trans hfills.others, hflags.trans hfills.flags, hblock, hkept⟩

namespace AtFillLoop

variable (h : m.AtFillLoop)
include h

section
variable {stored decremented : Nat} {pc : Word} (hfills : m.Fills stored decremented pc m')
include hfills

theorem pending_of_fills : m'.processor.latches.pending? m'.processor.regs.cc = none := by
  rw [hfills.latches, Latches.pending?_congr (hfills.flags.isSet (by decide))
    (hfills.flags.isSet (by decide))]
  exact h.pending

theorem code_of_fills (hstored : stored ≤ count m.processor.regs.b) :
    m'.bus.bytesFrom m.processor.regs.pc FillLoop.code.length = FillLoop.code := by
  refine (Memory.bytesFrom_congr ?_).trans h.bytes
  intro j hj
  exact hfills.kept _ fun i hi => h.apart i (by omega) j hj

theorem does_of_fills {l : Listing} {done : Execution} {bus : Memory}
    (hread : (Listing.read pc).Yields m'.bus (.ok l))
    (hcarried : ((l.carryOut m'.processor.regs).run m'.bus).result = done ∧
      ((l.carryOut m'.processor.regs).run m'.bus).bus = bus)
    (hdone : done.state = .running) : m'.Does done.cycles done.regs bus := by
  rw [← hfills.pc] at hread
  exact does_of_yields_read hfills.state (h.pending_of_fills hfills) hread hcarried hdone

end

section
variable {k : Nat} (hk : k < count m.processor.regs.b)
include hk

theorem store (hfills : m.Fills k k m.processor.regs.pc m') :
    m'.stepOutcome.result.cycles = .ok 6 ∧
      m.Fills (k + 1) k (m.processor.regs.pc + 2) m'.step := by
  have hdoes := h.does_of_fills hfills (yields_store (h.code_of_fills hfills (Nat.le_of_lt hk)))
    (run_store m'.processor.regs m'.bus m.processor.regs.pc) rfl
  have hread (address : Word) :
      (m'.bus.write m'.processor.regs.x m'.processor.regs.b).read address =
        if m.processor.regs.x + BitVec.ofNat 16 k = address then
          m.processor.regs.b - BitVec.ofNat 8 k
        else m'.bus.read address := by
    rw [Memory.read_write, hfills.x, hfills.b]
  have hle := count_le m.processor.regs.b
  refine ⟨hdoes.cycles, hfills.step hdoes rfl hfills.b ?_ rfl
    (ConditionCodes.sameOutside_update _ _ _) ?_ ?_⟩
  · rw [BitVec.ofNat_add, ← BitVec.add_assoc, ← hfills.x]
    rfl
  · intro i hi
    rw [hread]
    rcases Nat.lt_succ_iff_lt_or_eq.mp hi with hlt | rfl
    · rw [if_neg (by bv_omega), hfills.block i hlt]
    · rw [if_pos rfl]
  · intro address houtside
    rw [hread, if_neg (houtside k (Nat.lt_succ_self k))]
    exact hfills.kept address fun i hi => houtside i (Nat.lt_succ_of_lt hi)

theorem decrement (hfills : m.Fills (k + 1) k (m.processor.regs.pc + 2) m') :
    m'.stepOutcome.result.cycles = .ok 2 ∧
      m.Fills (k + 1) (k + 1) (m.processor.regs.pc + 3) m'.step ∧
      m'.step.processor.regs.cc.zero = decide (k + 1 = count m.processor.regs.b) := by
  have hdoes := h.does_of_fills hfills (yields_decrement (h.code_of_fills hfills hk))
    (run_decrement m'.processor.regs m'.bus (m.processor.regs.pc + 2)) rfl
  have hnext : m.processor.regs.pc + 2 + 1 = m.processor.regs.pc + 3 := BitVec.add_assoc _ 2 1
  have hb : m'.processor.regs.b - 1 = m.processor.regs.b - BitVec.ofNat 8 (k + 1) := by
    rw [hfills.b]
    bv_omega
  refine ⟨hdoes.cycles, hfills.step hdoes hnext hb hfills.x rfl
    (ConditionCodes.sameOutside_update _ _ _) hfills.block hfills.kept, ?_⟩
  rw [hdoes.regs]
  dsimp only
  rw [zero_dec, hfills.b, Bool.eq_iff_iff, beq_iff_eq, decide_eq_true_iff]
  exact sub_one_eq_zero_iff hk

theorem branch (hfills : m.Fills (k + 1) (k + 1) (m.processor.regs.pc + 3) m')
    (hzero : m'.processor.regs.cc.zero = decide (k + 1 = count m.processor.regs.b)) :
    m'.stepOutcome.result.cycles = .ok 3 ∧
      m.Fills (k + 1) (k + 1) (if k + 1 = count m.processor.regs.b then m.processor.regs.pc + 5
        else m.processor.regs.pc) m'.step ∧
      m'.step.processor.regs.cc = m'.processor.regs.cc := by
  have hdoes := h.does_of_fills hfills (yields_branch (h.code_of_fills hfills hk))
    (run_branch m'.processor.regs m'.bus m.processor.regs.pc) rfl
  refine ⟨hdoes.cycles, hfills.step hdoes ?_ hfills.b hfills.x rfl rfl hfills.block hfills.kept, ?_⟩
  · simp [hzero]
  · rw [hdoes.regs]

end

end AtFillLoop

/-- The three steps of a round from the head of the loop. -/
structure Round (head : Word) (m : Machine Memory) : Prop where
  store : m.processor.regs.pc = head ∧ m.stepOutcome.result.cycles = .ok 6
  decrement : m.step.processor.regs.pc = head + 2 ∧ m.step.stepOutcome.result.cycles = .ok 2
  branch : m.step.step.processor.regs.pc = head + 3 ∧
    m.step.step.stepOutcome.result.cycles = .ok 3

theorem Round.step {head : Word} (h : Round head m) {j : Nat} (hj : j < 3) :
    (Machine.step^[j] m).processor.regs.pc ∈ [head, head + 2, head + 3] ∧
      ∃ cycles, (Machine.step^[j] m).stepOutcome.result.cycles = .ok cycles := by
  match j, hj with
  | 0, _ => exact ⟨by simp [h.store.1], 6, h.store.2⟩
  | 1, _ => exact ⟨by simp [h.decrement.1], 2, h.decrement.2⟩
  | 2, _ => exact ⟨by simp [h.branch.1], 3, h.branch.2⟩

theorem iterate_round (m : Machine Memory) (k : Nat) :
    Machine.step^[3 * (k + 1)] m = (Machine.step^[3 * k] m).step.step.step := by
  rw [Nat.mul_succ, Function.iterate_succ_apply', Function.iterate_succ_apply',
    Function.iterate_succ_apply']

/-- The sum of the cycles that the first steps return. -/
def spentIn (m : Machine Memory) (steps : Nat) : Nat :=
  ((List.range steps).map fun j => (Machine.step^[j] m).stepOutcome.result.spent).sum

theorem spentIn_succ (m : Machine Memory) (steps : Nat) : m.spentIn (steps + 1) =
    m.spentIn steps + (Machine.step^[steps] m).stepOutcome.result.spent := by
  simp [spentIn, List.range_succ]

theorem spentIn_rounds {head : Word} {n : Nat}
    (h : ∀ k < n, Round head (Machine.step^[3 * k] m)) : m.spentIn (3 * n) = 11 * n := by
  induction n with
  | zero => rfl
  | succ n ih =>
      have hround := h n (Nat.lt_succ_self n)
      have hspent (m : Machine Memory) {cycles : Nat}
          (h : m.stepOutcome.result.cycles = .ok cycles) : m.stepOutcome.result.spent = cycles := by
        rw [Step.spent, h]
      rw [Nat.mul_succ, spentIn_succ, spentIn_succ, spentIn_succ,
        ih fun k hk => h k (Nat.lt_succ_of_lt hk), Function.iterate_succ_apply' _ (3 * n + 1),
        Function.iterate_succ_apply', hspent _ hround.store.2, hspent _ hround.decrement.2,
        hspent _ hround.branch.2]
      omega

namespace AtFillLoop

variable (h : m.AtFillLoop)
include h

theorem round {k : Nat} (hk : k < count m.processor.regs.b)
    (hfills : m.Fills k k m.processor.regs.pc m') :
    Round m.processor.regs.pc m' ∧
      m.Fills (k + 1) (k + 1) (if k + 1 = count m.processor.regs.b then m.processor.regs.pc + 5
        else m.processor.regs.pc) m'.step.step.step ∧
      m'.step.step.step.processor.regs.cc.zero = decide (k + 1 = count m.processor.regs.b) := by
  obtain ⟨hstore, hstored⟩ := h.store hk hfills
  obtain ⟨hdecrement, hdecremented, hzero⟩ := h.decrement hk hstored
  obtain ⟨hbranch, hbranched, hcc⟩ := h.branch hk hdecremented hzero
  refine ⟨⟨⟨hfills.pc, hstore⟩, ⟨hstored.pc, hdecrement⟩, ⟨hdecremented.pc, hbranch⟩⟩,
    hbranched, ?_⟩
  rw [hcc]
  exact hzero

theorem rounds {k : Nat} (hk : k ≤ count m.processor.regs.b) :
    let after := Machine.step^[3 * k] m
    m.Fills k k (if k = count m.processor.regs.b then m.processor.regs.pc + 5
        else m.processor.regs.pc) after ∧
      (k = count m.processor.regs.b → after.processor.regs.cc.zero = true) ∧
      ∀ i < k, Round m.processor.regs.pc (Machine.step^[3 * i] m) := by
  -- short of the count a round ends at the head of the loop, where `Fills` holds of one byte more
  induction k with
  | zero =>
      have hpos := count_pos m.processor.regs.b
      rw [if_neg (by omega)]
      exact ⟨Fills.refl h.running, by omega, by omega⟩
  | succ k ih =>
      obtain ⟨hfills, -, hbefore⟩ := ih (Nat.le_of_lt hk)
      rw [if_neg (Nat.ne_of_lt hk)] at hfills
      obtain ⟨hround, hafter, hzero⟩ := h.round hk hfills
      rw [← iterate_round] at hafter hzero
      refine ⟨hafter, fun hlast => hzero.trans (decide_eq_true hlast), ?_⟩
      intro i hi
      rcases Nat.lt_succ_iff_lt_or_eq.mp hi with hlt | rfl
      · exact hbefore i hlt
      · exact hround

end AtFillLoop

/-- The loop runs to its end. It stores the count and the numbers below it, one byte after the other
from X up, and leaves B zero and the other memory and registers as they were. A byte takes eleven
cycles. -/
theorem fill_loop_completes (h : m.AtFillLoop) :
    let before := m.processor.regs
    let n := count before.b
    let last := Machine.step^[3 * n] m
    let after := last.processor.regs
    (∀ j < 3 * n,
      (Machine.step^[j] m).processor.regs.pc ∈ [before.pc, before.pc + 2, before.pc + 3] ∧
      ∃ cycles, (Machine.step^[j] m).stepOutcome.result.cycles = .ok cycles) ∧
    after.pc = before.pc + 5 ∧ after.b = 0 ∧ after.cc.zero = true ∧
    after.x = before.x + BitVec.ofNat 16 n ∧
    (∀ i < n, last.bus.read (before.x + BitVec.ofNat 16 i) = before.b - BitVec.ofNat 8 i) ∧
    (∀ address, (∀ i < n, before.x + BitVec.ofNat 16 i ≠ address) →
      last.bus.read address = m.bus.read address) ∧
    (after.a = before.a ∧ after.y = before.y ∧ after.u = before.u ∧ after.s = before.s ∧
      after.dp = before.dp) ∧
    (∀ flag ∈ [Flag.carry, Flag.halfCarry, Flag.irqMask, Flag.firqMask, Flag.entire],
      after.cc.isSet flag = before.cc.isSet flag) ∧
    m.spentIn (3 * n) = 11 * n := by
  intro before n last after
  obtain ⟨hfills, hzero, hrounds⟩ := h.rounds (Nat.le_refl n)
  rw [if_pos rfl] at hfills
  refine ⟨?_, hfills.pc, ?_, hzero rfl, hfills.x, hfills.block, hfills.kept, ?_, ?_,
    spentIn_rounds hrounds⟩
  · intro j hj
    have hsplit : j = j % 3 + 3 * (j / 3) := by omega
    rw [hsplit, Function.iterate_add_apply]
    exact (hrounds (j / 3) (by omega)).step (Nat.mod_lt j (by decide))
  · exact hfills.b.trans (sub_count before.b)
  · obtain ⟨ha, -, -, hy, hu, hs, -, hdp, -⟩ := Registers.mk.inj hfills.others
    exact ⟨ha, hy, hu, hs, hdp⟩
  · intro flag hflag
    apply hfills.flags.isSet
    revert flag
    decide

/-- B is zero, and the block behind the loop goes over the top of memory: 256 bytes are stored. -/
theorem page_filled_over_the_top :
    let regs : Registers := { Registers.initial with x := 0xFF85, pc := 0xFF80 }
    let m : Machine Memory :=
      ⟨{ Processor.initial with regs := regs }, Memory.zero.load 0xFF80 FillLoop.code⟩
    m.AtFillLoop ∧ (Machine.step^[768] m).processor.regs.pc = 0xFF85 ∧
      (Machine.step^[768] m).bus.read 0xFF85 = 0x00 ∧
      (Machine.step^[768] m).bus.read 0x0084 = 0x01 ∧
      (Machine.step^[768] m).bus.read 0xFF80 = 0xE7 ∧ m.spentIn 768 = 2816 := by
  intro regs m
  have hn : count m.processor.regs.b = 256 := by decide
  have h : m.AtFillLoop := by
    refine ⟨⟨rfl, by decide, by decide +kernel⟩, ?_⟩
    rw [hn]
    decide +kernel
  obtain ⟨-, hpc, -, -, -, hblock, hkept, -, -, hspent⟩ := fill_loop_completes h
  have hsteps : 3 * count m.processor.regs.b = 768 := by decide
  rw [hsteps] at hpc hblock hkept hspent
  rw [hn] at hblock hkept hspent
  have hcode := hkept 0xFF80 (by decide +kernel)
  have hfirst := hblock 0 (by decide)
  have hlast := hblock 255 (by decide)
  rw [show m.processor.regs.x + BitVec.ofNat 16 0 = 0xFF85 by decide] at hfirst
  rw [show m.processor.regs.x + BitVec.ofNat 16 255 = 0x0084 by decide] at hlast
  exact ⟨h, hpc.trans (by decide), hfirst.trans (by decide), hlast.trans (by decide),
    hcode.trans (by decide +kernel), hspent⟩

end Machine

end M6809
