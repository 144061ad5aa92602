import M6809.Proofs.MemoryBus
import M6809.Proofs.StackFrames

namespace M6809

namespace FrameRegister

/-- The registers with the value that the frame register has in others. -/
def copy (stack : Stack) (source target : Registers) : FrameRegister → Registers
  | cc => { target with cc := source.cc }
  | a => { target with a := source.a }
  | b => { target with b := source.b }
  | dp => { target with dp := source.dp }
  | x => { target with x := source.x }
  | y => { target with y := source.y }
  | otherStack => target.setStackPointer stack.other (source.stackPointer stack.other)
  | pc => { target with pc := source.pc }

theorem stackPointer_copy (stack : Stack) (source target : Registers) (reg : FrameRegister) :
    (reg.copy stack source target).stackPointer stack = target.stackPointer stack := by
  cases reg <;> cases stack <;> rfl

theorem setStackPointer_copy (stack : Stack) (source target : Registers) (reg : FrameRegister)
    (value : Word) : (reg.copy stack source target).setStackPointer stack value =
      reg.copy stack source (target.setStackPointer stack value) := by
  cases reg <;> cases stack <;> rfl

/-- Copies registers one after the other. -/
def copyEach (stack : Stack) (source target : Registers) (regs : List FrameRegister) : Registers :=
  regs.foldl (copy stack source) target

end FrameRegister

namespace Registers

variable (r : Registers) (stack : Stack) (m : Memory)

theorem bus_run_pushBytes {bytes : List Byte} (h : bytes.length ≤ 65536) :
    ((r.pushBytes stack bytes).run m).bus =
      m.load (r.stackPointer stack - BitVec.ofNat 16 bytes.length) bytes := by
  induction bytes with
  | nil => rfl
  | cons value rest ih =>
      rw [List.length_cons] at h
      have hpushed := ((r.ensures_pushBytes stack rest).run m).2
      have hpointer : r.stackPointer stack - BitVec.ofNat 16 rest.length =
          r.stackPointer stack - BitVec.ofNat 16 (rest.length + 1) + 1 := by
        rw [BitVec.ofNat_add]
        bv_omega
      rw [pushBytes, BusM.bus_bind, hpushed, ih (by omega)]
      change (m.load _ rest).write (Registers.stackPointer _ stack - 1) value = _
      rw [stackPointer_setStackPointer, hpointer, BitVec.add_sub_cancel, List.length_cons,
        Memory.load, Memory.write_load]
      rw [Memory.toNat_sub_add_one_self]
      omega

theorem run_push (mask : Byte) :
    ((r.push stack mask).run m).result =
        r.setStackPointer stack (r.stackPointer stack - BitVec.ofNat 16 (frameSize mask)) ∧
      ((r.push stack mask).run m).bus =
        m.load (r.stackPointer stack - BitVec.ofNat 16 (frameSize mask)) (r.frame stack mask) := by
  have hsize := frameSize_le mask
  have hlength := r.length_frame stack mask
  refine ⟨((r.ensures_push stack mask).run m).2, ?_⟩
  rw [← hlength]
  exact r.bus_run_pushBytes stack m (by omega)

variable {r stack m} {source : Registers}

theorem yields_pullByte {value : Byte} (h : m.bytesFrom (r.stackPointer stack) 1 = [value]) :
    (r.pullByte stack).Yields m
      (value, r.setStackPointer stack (r.stackPointer stack + 1)) := by
  simp only [Memory.bytesFrom, List.cons.injEq, and_true] at h
  refine ⟨?_, rfl⟩
  rw [← h]
  rfl

theorem yields_pullWord {w : Word} (h : m.bytesFrom (r.stackPointer stack) 2 = w.bytes) :
    (r.pullWord stack).Yields m
      (w, r.setStackPointer stack (r.stackPointer stack + 2)) := by
  have hbytes : w.bytes = [w.highByte] ++ [w.lowByte] := rfl
  have hpointer : (r.setStackPointer stack (r.stackPointer stack + 1)).stackPointer stack =
      r.stackPointer stack + 1 :=
    r.stackPointer_setStackPointer stack _
  have htwo : r.stackPointer stack + 1 + 1 = r.stackPointer stack + 2 := by bv_omega
  rw [hbytes, m.bytesFrom_add _ 1 1] at h
  obtain ⟨hhigh, hlow⟩ := List.append_inj h rfl
  refine (yields_pullByte hhigh).bind ?_
  have hlast := yields_pullByte (hpointer ▸ hlow)
  rw [hpointer, setStackPointer_setStackPointer, htwo] at hlast
  refine hlast.bind ?_
  dsimp only
  rw [Word.ofBytes_highByte_lowByte]
  exact BusM.yields_pure m _

theorem yields_pullRegister {reg : FrameRegister}
    (h : m.bytesFrom (r.stackPointer stack) reg.width = reg.bytes stack source) :
    (r.pullRegister stack reg).Yields m (reg.copy stack source
      (r.setStackPointer stack (r.stackPointer stack + BitVec.ofNat 16 reg.width))) := by
  cases reg with
  | cc | a | b | dp => exact (yields_pullByte h).bind ⟨rfl, rfl⟩
  | x | y | otherStack | pc => exact (yields_pullWord h).bind ⟨rfl, rfl⟩

theorem yields_pullEach {regs : List FrameRegister}
    (h : m.bytesFrom (r.stackPointer stack) (FrameRegister.totalWidth regs) =
      regs.flatMap (·.bytes stack source)) :
    (r.pullEach stack regs).Yields m (FrameRegister.copyEach stack source
      (r.setStackPointer stack
        (r.stackPointer stack + BitVec.ofNat 16 (FrameRegister.totalWidth regs))) regs) := by
  induction regs generalizing r with
  | nil =>
      have hstay : r.setStackPointer stack (r.stackPointer stack + 0) = r := by simp
      exact hstay.symm ▸ BusM.yields_pure m r
  | cons reg rest ih =>
      rw [FrameRegister.totalWidth, Memory.bytesFrom_add, List.flatMap_cons] at h
      obtain ⟨hfirst, hrest⟩ := List.append_inj h
        (by rw [Memory.length_bytesFrom, FrameRegister.length_bytes])
      have hpointer : (reg.copy stack source (r.setStackPointer stack
          (r.stackPointer stack + BitVec.ofNat 16 reg.width))).stackPointer stack =
          r.stackPointer stack + BitVec.ofNat 16 reg.width := by
        rw [FrameRegister.stackPointer_copy, stackPointer_setStackPointer]
      rw [← hpointer] at hrest
      have hpulled := ih hrest
      rw [hpointer, FrameRegister.setStackPointer_copy, setStackPointer_setStackPointer,
        BitVec.add_assoc, ← BitVec.ofNat_add] at hpulled
      exact (yields_pullRegister hfirst).bind hpulled

theorem yields_pull {mask : Byte}
    (h : m.bytesFrom (r.stackPointer stack) (frameSize mask) = source.frame stack mask) :
    (r.pull stack mask).Yields m (FrameRegister.copyEach stack source
      (r.setStackPointer stack (r.stackPointer stack + BitVec.ofNat 16 (frameSize mask)))
      (FrameRegister.selected mask)) :=
  yields_pullEach h

end Registers

end M6809
