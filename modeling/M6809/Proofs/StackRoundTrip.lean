import M6809.Proofs.ControlFlow
import M6809.Proofs.StackAccesses
import M6809.Proofs.StackMemory

namespace M6809

theorem frameSize_eq_cpop :
    ∀ mask, frameSize mask = (mask &&& 0x0F).cpop.toNat + 2 * (mask &&& 0xF0).cpop.toNat := by
  decide +kernel

theorem flatMap_filter_eq {α γ : Type} (p : α → Bool) (f : α → List γ) (l : List α) :
    (l.filter p).flatMap f = l.flatMap fun a => if p a then f a else [] := by
  induction l with
  | nil => rfl
  | cons a rest ih =>
      rw [List.filter_cons, List.flatMap_cons, ← ih]
      split <;> rfl

namespace FrameRegister

variable {stack : Stack} {source : Registers}

theorem mem_selected_iff {mask : Byte} (reg : FrameRegister) :
    reg ∈ selected mask ↔ mask.getLsbD reg.bit = true := by
  cases reg <;> simp [selected, all]

theorem bytes_copy_self (target : Registers) (reg : FrameRegister) :
    reg.bytes stack (reg.copy stack source target) = reg.bytes stack source := by
  cases stack <;> cases reg <;> rfl

theorem bytes_copy_of_ne (target : Registers) {reg other : FrameRegister} (h : other ≠ reg) :
    other.bytes stack (reg.copy stack source target) = other.bytes stack target := by
  cases stack <;> cases reg <;> cases other <;> first | rfl | contradiction

theorem bytes_copyEach (target : Registers) (regs : List FrameRegister) (reg : FrameRegister) :
    reg.bytes stack (copyEach stack source target regs) =
      reg.bytes stack (if reg ∈ regs then source else target) := by
  induction regs generalizing target with
  | nil => rfl
  | cons first rest ih =>
      rw [copyEach, List.foldl_cons]
      apply (ih (first.copy stack source target)).trans
      by_cases hfirst : reg = first
      · subst hfirst
        rw [if_pos List.mem_cons_self]
        split
        · rfl
        · exact bytes_copy_self target reg
      · simp only [List.mem_cons, hfirst, false_or]
        split
        · rfl
        · exact bytes_copy_of_ne target hfirst

theorem stackPointer_copyEach (target : Registers) (regs : List FrameRegister) :
    (copyEach stack source target regs).stackPointer stack = target.stackPointer stack := by
  induction regs generalizing target with
  | nil => rfl
  | cons first rest ih =>
      rw [copyEach, List.foldl_cons]
      exact (ih _).trans (stackPointer_copy stack source target first)

end FrameRegister

namespace Registers

/-- The bytes of a push from the highest address down. -/
def pushedBytes (r : Registers) (stack : Stack) (mask : Byte) : List Byte :=
  (if mask.getLsbD 7 then [r.pc.lowByte, r.pc.highByte] else []) ++
  (if mask.getLsbD 6 then
    [(r.stackPointer stack.other).lowByte, (r.stackPointer stack.other).highByte] else []) ++
  (if mask.getLsbD 5 then [r.y.lowByte, r.y.highByte] else []) ++
  (if mask.getLsbD 4 then [r.x.lowByte, r.x.highByte] else []) ++
  (if mask.getLsbD 3 then [r.dp] else []) ++
  (if mask.getLsbD 2 then [r.b] else []) ++
  (if mask.getLsbD 1 then [r.a] else []) ++
  (if mask.getLsbD 0 then [r.cc.bits] else [])

theorem reverse_frame (r : Registers) (stack : Stack) (mask : Byte) :
    (r.frame stack mask).reverse = r.pushedBytes stack mask := by
  simp only [frame, FrameRegister.selected, flatMap_filter_eq, FrameRegister.all, List.flatMap_cons,
    List.flatMap_nil, List.append_nil, List.reverse_append, apply_ite List.reverse,
    List.reverse_nil, FrameRegister.bytes, FrameRegister.bit, Word.bytes, List.reverse_cons,
    List.nil_append, List.cons_append, pushedBytes]

/-- The selected registers are those saved, and the others are the current ones. -/
structure Restored (stack : Stack) (mask : Byte) (saved current restored : Registers) : Prop where
  pointer : restored.stackPointer stack = saved.stackPointer stack
  pc : restored.pc = (if mask.getLsbD 7 then saved else current).pc
  other : restored.stackPointer stack.other =
    (if mask.getLsbD 6 then saved else current).stackPointer stack.other
  y : restored.y = (if mask.getLsbD 5 then saved else current).y
  x : restored.x = (if mask.getLsbD 4 then saved else current).x
  dp : restored.dp = (if mask.getLsbD 3 then saved else current).dp
  b : restored.b = (if mask.getLsbD 2 then saved else current).b
  a : restored.a = (if mask.getLsbD 1 then saved else current).a
  cc : restored.cc = (if mask.getLsbD 0 then saved else current).cc

section
variable (r : Registers) (stack : Stack) (mask : Byte)

theorem restored_copyEach (current : Registers) :
    Restored stack mask r current (FrameRegister.copyEach stack r
      (current.setStackPointer stack (r.stackPointer stack)) (FrameRegister.selected mask)) := by
  have hbytes : ∀ reg : FrameRegister, reg.bytes stack (FrameRegister.copyEach stack r
      (current.setStackPointer stack (r.stackPointer stack)) (FrameRegister.selected mask)) =
        reg.bytes stack (if mask.getLsbD reg.bit then r else current) := by
    intro reg
    simp only [FrameRegister.bytes_copyEach, FrameRegister.mem_selected_iff]
    split
    · rfl
    · exact reg.bytes_setStackPointer stack current _
  constructor
  · rw [FrameRegister.stackPointer_copyEach, stackPointer_setStackPointer]
  · exact Word.bytes_injective (hbytes .pc)
  · exact Word.bytes_injective (hbytes .otherStack)
  · exact Word.bytes_injective (hbytes .y)
  · exact Word.bytes_injective (hbytes .x)
  · exact (List.cons_eq_cons.mp (hbytes .dp)).1
  · exact (List.cons_eq_cons.mp (hbytes .b)).1
  · exact (List.cons_eq_cons.mp (hbytes .a)).1
  · exact congrArg ConditionCodes.mk (List.cons_eq_cons.mp (hbytes .cc)).1

theorem writes_run_pull {β : Type} [Bus β] (bus : β) :
    ((r.pull stack mask).run bus).writes = [] := by
  obtain ⟨⟨values, -, haccesses⟩, -⟩ := (r.ensures_pull_accesses stack mask).run bus
  rw [Outcome.writes, BusM.accesses_run, haccesses, BusAccess.filterMap_write?_readsFrom]

/-- A push works down from below the stack pointer and leaves everything else alone. A pull under
the same mask, by whatever registers, takes the selected ones out of these bytes, puts the stack
pointer back and keeps the others. Both answer how many bytes there are. -/
theorem pull_undoes_push (m : Memory) :
    let top := r.stackPointer stack
    let n := (mask &&& 0x0F).cpop.toNat + 2 * (mask &&& 0xF0).cpop.toNat
    let base := top - BitVec.ofNat 16 n
    let pushed := (r.push stack mask).run m
    ((r.pushedBytes stack mask).length = n ∧
      pushed.accesses = BusAccess.writesDown top (r.pushedBytes stack mask) ∧
      pushed.bus.bytesFrom base n = (r.pushedBytes stack mask).reverse ∧
      (∀ address, n ≤ (address - base).toNat → pushed.bus.read address = m.read address) ∧
      pushed.result = r.setStackPointer stack base ∧
      ∀ page address, m.read address = mask →
        let done := ((Operation.push stack).perform page address r).run m
        done.result = ⟨pushed.result, .running, n⟩ ∧ done.bus = pushed.bus) ∧
    ∀ (current : Registers) (after : Memory), current.stackPointer stack = base →
      after.bytesFrom base n = pushed.bus.bytesFrom base n →
        let pulled := (current.pull stack mask).run after
        Restored stack mask r current pulled.result ∧ pulled.bus = after ∧ pulled.writes = [] ∧
        ∀ page address, after.read address = mask →
          let done := ((Operation.pull stack).perform page address current).run after
          done.result = ⟨pulled.result, .running, n⟩ ∧ done.bus = after := by
  intro top n base pushed
  have hsize : frameSize mask = n := frameSize_eq_cpop mask
  have hle := frameSize_le mask
  have hlength : (r.frame stack mask).length = n := (r.length_frame stack mask).trans hsize
  obtain ⟨hresult, hbus⟩ := r.run_push stack m mask
  rw [hsize] at hresult hbus
  have hbytes : pushed.bus.bytesFrom base n = r.frame stack mask := by
    have hfew : (r.frame stack mask).length ≤ 65536 := by omega
    have hloaded := m.bytesFrom_load base hfew
    rwa [hlength, ← hbus] at hloaded
  refine ⟨⟨?_, ?_, ?_, ?_, hresult, ?_⟩, ?_⟩
  · rw [← reverse_frame, List.length_reverse, hlength]
  · rw [← reverse_frame, BusM.accesses_run]
    exact (r.ensures_push_accesses stack mask).run m
  · rw [← reverse_frame, List.reverse_reverse, hbytes]
  · intro address houtside
    rw [hbus]
    apply m.read_load_of_outside
    rwa [hlength]
  · rintro page address rfl
    simp only [Operation.perform, BusM.result_bind, BusM.bus_bind, ← hsize]
    exact ⟨rfl, rfl⟩
  · intro current after hpointer hagree
    have hframe : after.bytesFrom (current.stackPointer stack) (frameSize mask) =
        r.frame stack mask := by
      rw [hpointer, hsize, hagree, hbytes]
    have hback : current.stackPointer stack + BitVec.ofNat 16 (frameSize mask) = top := by
      rw [hpointer, hsize]
      exact BitVec.sub_add_cancel top _
    have hpulled := yields_pull hframe
    rw [hback] at hpulled
    refine ⟨?_, hpulled.bus, current.writes_run_pull stack mask after, ?_⟩
    · rw [hpulled.result]
      exact r.restored_copyEach stack mask current
    · rintro page address rfl
      simp only [Operation.perform, BusM.result_bind, BusM.bus_bind, ← hsize]
      exact ⟨rfl, hpulled.bus⟩

end

/-- PSHU with PC, S, B and A over the bottom of memory, pulled by other registers. -/
theorem pull_over_the_bottom_of_memory :
    let r : Registers := ⟨1, 2, 3, 4, 0x0003, 0x5678, 0x9ABC, 5, ⟨6⟩⟩
    let current : Registers := ⟨7, 8, 9, 10, 0xFFFD, 11, 12, 13, ⟨14⟩⟩
    let pushed := (r.push .u 0xC6).run Memory.zero
    let after := pushed.bus.write 0x4000 0xFF
    let pulled := (current.pull .u 0xC6).run after
    current.u = r.u - 6 ∧ after.bytesFrom 0xFFFD 6 = pushed.bus.bytesFrom 0xFFFD 6 ∧
      pushed.accesses = [.write 0x0002 0xBC, .write 0x0001 0x9A, .write 0x0000 0x78,
        .write 0xFFFF 0x56, .write 0xFFFE 2, .write 0xFFFD 1] ∧
      Restored .u 0xC6 r current pulled.result ∧ pulled.result.s = 0x5678 ∧
      pulled.result.x = 9 ∧ pulled.bus = after := by
  intro r current pushed after pulled
  obtain ⟨⟨-, hpushed, -⟩, hpull⟩ := r.pull_undoes_push .u 0xC6 Memory.zero
  obtain ⟨hrestored, hbus, -⟩ := hpull current after (by decide +kernel) (by decide +kernel)
  exact ⟨by decide, by decide +kernel, hpushed.trans (by decide +kernel), hrestored,
    hrestored.other, hrestored.x, hbus⟩

end Registers

end M6809
