import M6809.Proofs.InterruptReturn
import Mathlib.Logic.Function.Iterate

/-!
Interrupts inside handlers. The main statement says that a return undoes its entry, whatever came
in between and however deeply that was nested, as long as the stack does not run into itself.
-/
namespace M6809

namespace Machine

/-- S and some bytes from there up are as they were. What was done in between is left open. -/
structure KeepsStack (live : Nat) (m m' : Machine Memory) : Prop where
  s : m'.processor.regs.s = m.processor.regs.s
  bytes : m'.bus.bytesFrom m.processor.regs.s live = m.bus.bytesFrom m.processor.regs.s live

theorem KeepsStack.refl (live : Nat) (m : Machine Memory) : KeepsStack live m m := ⟨rfl, rfl⟩

theorem KeepsStack.trans {live : Nat} {m m' m'' : Machine Memory} (h : KeepsStack live m m')
    (h' : KeepsStack live m' m'') : KeepsStack live m m'' where
  s := h'.s.trans h.s
  bytes := by
    have hbytes := h'.bytes
    rw [h.s] at hbytes
    exact hbytes.trans h.bytes

end Machine

namespace Entry

section
variable {e : Entry} {m : Machine Memory}

theorem size_le (e : Entry) : e.size ≤ 12 := by
  unfold size
  split <;> omega

theorem Starts.s_eq (h : e.Starts m) :
    m.processor.regs.s = m.step.processor.regs.s + BitVec.ofNat 16 e.size := by
  have hs : m.step.processor.regs.s = (e.saved m.processor.regs).s - BitVec.ofNat 16 e.size :=
    congrArg Registers.s h.step.1
  rw [hs, s_saved, BitVec.sub_add_cancel]

theorem Starts.bus_eq (h : e.Starts m) :
    m.step.bus = m.bus.load m.step.processor.regs.s (e.frame (e.saved m.processor.regs)) := by
  have hs : m.step.processor.regs.s = (e.saved m.processor.regs).s - BitVec.ofNat 16 e.size :=
    congrArg Registers.s h.step.1
  rw [h.step.2.1, ← hs]

theorem Starts.bytesFrom_frame (h : e.Starts m) :
    m.step.bus.bytesFrom m.step.processor.regs.s e.size = e.frame (e.saved m.processor.regs) := by
  have hsize := e.size_le
  rw [h.bus_eq, ← e.length_frame (e.saved m.processor.regs)]
  exact Memory.bytesFrom_load _ _ (by rw [e.length_frame]; omega)

theorem Starts.bytesFrom_above (h : e.Starts m) {live : Nat} (hroom : e.size + live ≤ 65536) :
    m.step.bus.bytesFrom m.processor.regs.s live = m.bus.bytesFrom m.processor.regs.s live := by
  have hlength := e.length_frame (e.saved m.processor.regs)
  rw [h.bus_eq, h.s_eq, ← hlength]
  exact Memory.bytesFrom_load_above _ _ (by rw [hlength]; omega)

theorem Starts.undone (h : e.Starts m) {later : Machine Memory}
    (hkept : m.step.KeepsStack e.size later) (hreturn : later.AtBytes [0x3B]) :
    e.Undone (e.saved m.processor.regs) later := by
  apply undone_of_frame hreturn
  · rw [s_saved, hkept.s]
    exact h.s_eq
  · rw [hkept.s, hkept.bytes]
    exact h.bytesFrom_frame

end

end Entry

namespace Machine

/-- Work that keeps the stacked bytes, with entries and their returns in it, one inside another or
one after another. The second number is the room that their frames take. -/
inductive Nested : Nat → Nat → Machine Memory → Machine Memory → Prop
  | work {live : Nat} {m m' : Machine Memory} (h : m.KeepsStack live m') : Nested live 0 m m'
  | handled {e : Entry} {live room : Nat} {m last : Machine Memory} (hstart : e.Starts m)
      (hinner : Nested (e.size + live) room m.step last) (hreturn : last.AtBytes [0x3B]) :
      Nested live (e.size + room) m last.step
  | append {live room room' : Nat} {m m' m'' : Machine Memory} (h : Nested live room m m')
      (h' : Nested live room' m' m'') : Nested live (max room room') m m''

theorem Nested.keepsStack {live room : Nat} {m m' : Machine Memory} (h : Nested live room m m')
    (hroom : live + room ≤ 65536) : m.KeepsStack live m' := by
  induction h with
  | work h => exact h
  | append _ _ ih ih' => exact (ih (by omega)).trans (ih' (by omega))
  | @handled e live room m last hstart _ hreturn ih =>
      -- inside the handler the frame is live too, right below what was live before
      have hkept := ih (by omega)
      obtain ⟨hframe, habove⟩ := Memory.bytesFrom_split hkept.bytes
      have hundone := hstart.undone ⟨hkept.s, hframe⟩ hreturn
      rw [← hstart.s_eq] at habove
      constructor
      · rw [hundone.regs, e.s_restored, e.s_saved]
      · rw [hundone.bus, habove]
        exact hstart.bytesFrom_above (by omega)

/-- The registers after returns from entries, given from the outermost on. -/
def resumed (levels : List (Entry × Registers)) (current : Registers) : Registers :=
  levels.foldr (fun level later => level.1.restored level.2 later) current

def framesSize : List (Entry × Registers) → Nat
  | [] => 0
  | (e, _) :: rest => e.size + framesSize rest

def returnCycles : List (Entry × Registers) → Nat
  | [] => 0
  | (e, _) :: rest => e.returnCycles + returnCycles rest

/-- Entries taken one inside another, each with the registers that it saves. Before each of them
and after the last there may be other work, as long as it keeps S and the stacked bytes. -/
inductive Descends : Nat → List (Entry × Registers) → Machine Memory → Machine Memory → Prop
  | work {live : Nat} {m m' : Machine Memory} (h : m.KeepsStack live m') : Descends live [] m m'
  | entry {e : Entry} {live : Nat} {levels : List (Entry × Registers)} {m at' m' : Machine Memory}
      (hwork : m.KeepsStack live at') (hstart : e.Starts at')
      (hrest : Descends (e.size + live) levels at'.step m') :
      Descends live ((e, e.saved at'.processor.regs) :: levels) m m'

theorem Descends.bytes_eq {live : Nat} {levels : List (Entry × Registers)} {m m' : Machine Memory}
    (h : Descends live levels m m') (hroom : live + framesSize levels ≤ 65536) :
    m'.bus.bytesFrom m.processor.regs.s live = m.bus.bytesFrom m.processor.regs.s live := by
  induction h with
  | work h => exact h.bytes
  | @entry e live levels m before m' hwork hstart _ ih =>
      rw [framesSize] at hroom
      obtain ⟨-, habove⟩ := Memory.bytesFrom_split (ih (by omega))
      rw [← hstart.s_eq, hstart.bytesFrom_above (by omega), hwork.s] at habove
      exact habove.trans hwork.bytes

/-- As many steps as there were entries have returned from all of them. -/
structure Unwound (levels : List (Entry × Registers)) (m : Machine Memory) : Prop where
  regs : (step^[levels.length] m).processor.regs = resumed levels m.processor.regs
  state : (step^[levels.length] m).processor.state = .running
  latches : (step^[levels.length] m).processor.latches = m.processor.latches
  total : (step^[levels.length] m).processor.cycles =
    m.processor.cycles + returnCycles levels
  bus : (step^[levels.length] m).bus = m.bus

theorem Unwound.atReturn {levels : List (Entry × Registers)} {m : Machine Memory}
    (h : Unwound levels m) (hreturn : m.AtBytes [0x3B])
    (hlevels : ∀ level ∈ levels, m.bus.read level.2.pc = 0x3B ∧
      m.processor.latches.pending? level.2.cc = none) :
    (step^[levels.length] m).AtBytes [0x3B] := by
  cases levels with
  | nil => exact hreturn
  | cons level rest =>
      obtain ⟨hcode, hpending⟩ := hlevels level List.mem_cons_self
      refine ⟨h.state, ?_, ?_⟩
      · rw [h.latches, h.regs, resumed, List.foldr_cons, Entry.cc_restored,
          Entry.pending?_stackedCc]
        exact hpending
      · rw [h.bus, h.regs, resumed, List.foldr_cons, Entry.pc_restored]
        exact congrArg (fun code => [code]) hcode

theorem Descends.unwound {live : Nat} {levels : List (Entry × Registers)} {m m' : Machine Memory}
    (h : Descends live levels m m') (hroom : live + framesSize levels ≤ 65536)
    (hreturn : m'.AtBytes [0x3B])
    (hlevels : ∀ level ∈ levels.tail, m'.bus.read level.2.pc = 0x3B ∧
      m'.processor.latches.pending? level.2.cc = none) :
    Unwound levels m' ∧ (resumed levels m'.processor.regs).s = m.processor.regs.s := by
  induction h with
  | @work live m m' h =>
      exact ⟨⟨rfl, hreturn.running, rfl, rfl, rfl⟩, h.s⟩
  | @entry e live levels m before m' hwork hstart hrest ih =>
      rw [framesSize] at hroom
      -- the inner levels are left first, and S is back at the frame of this one
      obtain ⟨hunwound, hs⟩ := ih (by omega) hreturn
        fun level hlevel => hlevels level (List.mem_of_mem_tail hlevel)
      have hagain := hunwound.atReturn hreturn hlevels
      obtain ⟨hframe, -⟩ := Memory.bytesFrom_split (hrest.bytes_eq (by omega))
      have hkept : before.step.KeepsStack e.size (step^[levels.length] m') :=
        ⟨by rw [hunwound.regs, hs], by rw [hunwound.bus, hframe]⟩
      have hundone := hstart.undone hkept hagain
      have hstep : step^[levels.length + 1] m' = (step^[levels.length] m').step :=
        Function.iterate_succ_apply' ..
      refine ⟨?_, ?_⟩
      · constructor <;> rw [List.length_cons, hstep]
        · rw [hundone.regs, hunwound.regs]
          rfl
        · exact hundone.state
        · rw [hundone.latches, hunwound.latches]
        · rw [hundone.total, hunwound.total, returnCycles, Nat.add_assoc,
            Nat.add_comm e.returnCycles]
        · rw [hundone.bus, hunwound.bus]
      · rw [resumed, List.foldr_cons, Entry.s_restored, Entry.s_saved, hwork.s]

/-- A return undoes the entry whose frame S is back at, whatever was done in between. So handlers
may be interrupted to any depth that the stack has room for, and returns in a row lead out of all
of them. -/
theorem returns_undo_entries (e : Entry) (m : Machine Memory) (h : e.Starts m) :
    let saved := e.saved m.processor.regs
    m.step.processor.regs = e.arrived saved (m.step.bus.readWord e.vector) ∧
    (∀ later, m.step.KeepsStack e.size later → later.AtBytes [0x3B] → e.Undone saved later) ∧
    (∀ room last, Nested e.size room m.step last → e.size + room ≤ 65536 → last.AtBytes [0x3B] →
      e.Undone saved last) ∧
    ∀ levels m', Descends e.size levels m.step m' → e.size + framesSize levels ≤ 65536 →
      m'.AtBytes [0x3B] →
      (∀ level ∈ levels, m'.bus.read level.2.pc = 0x3B ∧
        m'.processor.latches.pending? level.2.cc = none) →
      Unwound ((e, saved) :: levels) m' := by
  intro saved
  refine ⟨h.step.1, fun later => h.undone, ?_, ?_⟩
  · intro room last hnested hroom hreturn
    exact h.undone (hnested.keepsStack hroom) hreturn
  · intro levels m' hrest hroom hreturn hlevels
    have hdescends : Descends 0 ((e, saved) :: levels) m m' :=
      .entry (KeepsStack.refl 0 m) h hrest
    refine (hdescends.unwound ?_ hreturn hlevels).1
    rw [framesSize]
    omega

/-- An NMI in the handler of a SWI2 in the handler of a FIRQ, with the stack across the top of
memory. -/
theorem nmi_in_swi2_in_firq_unwinds :
    let firqHandler := Memory.zero.load 0x2000 [0x10, 0x3F, 0x3B]
    let handlers := (firqHandler.load 0x3000 [0x3B]).load 0x4000 [0x3B]
    let bus := (handlers.load 0xFFF4 [0x30, 0x00, 0x20, 0x00]).load 0xFFFC [0x40, 0x00]
    let r : Registers := ⟨1, 2, 3, 4, 5, 0x0019, 0x1000, 6, ⟨0⟩⟩
    let m : Machine Memory := ⟨⟨r, .running, ⟨false, true, false⟩, 0, 0, none⟩, bus⟩
    let asserted := m.step.step.obey (.assertLine .nmi)
    let inner := asserted.step
    let last := step^[3] inner
    (Entry.hardware .firq).Starts m ∧ (Entry.software .swi2).Starts m.step ∧
      (Entry.hardware .nmi).Starts asserted ∧ inner.AtBytes [0x3B] ∧
      inner.processor.regs.s = 0xFFFE ∧ inner.step.processor.regs = asserted.processor.regs ∧
      inner.stepOutcome.result.cycles = .ok 15 ∧ last.processor.regs = r ∧
      last.processor.cycles = inner.processor.cycles + 36 ∧ last.bus = inner.bus := by
  intro firqHandler handlers bus r m asserted inner last
  have hfirq : (Entry.hardware .firq).Starts m := by decide +kernel
  have hswi2 : (Entry.software .swi2).Starts m.step := by decide +kernel
  have hnmi : (Entry.hardware .nmi).Starts asserted := by decide +kernel
  have hreturn : inner.AtBytes [0x3B] := by decide +kernel
  let levels : List (Entry × Registers) :=
    [(.software .swi2, (Entry.software .swi2).saved m.step.processor.regs),
      (.hardware .nmi, asserted.processor.regs)]
  have hassert : m.step.step.KeepsStack 15 asserted := ⟨rfl, rfl⟩
  have hdescends : Descends 3 levels m.step inner :=
    .entry (KeepsStack.refl 3 m.step) hswi2 (.entry hassert hnmi (.work (KeepsStack.refl 27 inner)))
  have hlevels : ∀ level ∈ levels, inner.bus.read level.2.pc = 0x3B ∧
      inner.processor.latches.pending? level.2.cc = none := by
    decide +kernel
  obtain ⟨-, -, -, hall⟩ := returns_undo_entries (.hardware .firq) m hfirq
  have hunwound := hall levels inner hdescends (by decide) hreturn hlevels
  obtain ⟨-, hlater, -⟩ := returns_undo_entries (.hardware .nmi) asserted hnmi
  have hundone := hlater inner (KeepsStack.refl 12 inner) hreturn
  have hrestored : (Entry.hardware .nmi).restored asserted.processor.regs inner.processor.regs =
      asserted.processor.regs := by
    decide +kernel
  have hresumed : resumed ((.hardware .firq, r) :: levels) inner.processor.regs = r := by
    decide +kernel
  exact ⟨hfirq, hswi2, hnmi, hreturn, by decide +kernel, hundone.regs.trans hrestored,
    hundone.cycles, hunwound.regs.trans hresumed, hunwound.total, hunwound.bus⟩

end Machine

end M6809
