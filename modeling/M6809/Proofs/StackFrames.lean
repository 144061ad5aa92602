import M6809.Frame
import M6809.Proofs.BusLogic

namespace M6809

theorem FrameRegister.totalWidth_filter_le (p : FrameRegister → Bool) (regs : List FrameRegister) :
    totalWidth (regs.filter p) ≤ totalWidth regs := by
  induction regs with
  | nil => exact Nat.le_refl 0
  | cons reg rest ih =>
      rw [List.filter_cons, totalWidth]
      split
      · rw [totalWidth]
        omega
      · omega

theorem frameSize_le (mask : Byte) : frameSize mask ≤ 12 :=
  FrameRegister.totalWidth_filter_le _ FrameRegister.all

/-- The writes that push bytes below an address, so that they lie in the order of the list. -/
def pushWrites (top : Word) : List Byte → List (Word × Byte)
  | [] => []
  | value :: rest =>
    pushWrites top rest ++ [(top - BitVec.ofNat 16 (rest.length + 1), value)]

theorem length_pushWrites (top : Word) (bytes : List Byte) :
    (pushWrites top bytes).length = bytes.length := by
  induction bytes with
  | nil => rfl
  | cons value rest ih => simp [pushWrites, ih]

theorem pushWrites_append (top : Word) (front back : List Byte) :
    pushWrites top (front ++ back) =
      pushWrites top back ++ pushWrites (top - BitVec.ofNat 16 back.length) front := by
  induction front with
  | nil => simp [pushWrites]
  | cons value front ih =>
      have htop : top - BitVec.ofNat 16 ((front ++ back).length + 1) =
          top - BitVec.ofNat 16 back.length - BitVec.ofNat 16 (front.length + 1) := by
        rw [BitVec.sub_sub, ← BitVec.ofNat_add, List.length_append]
        congr 2
        omega
      rw [List.cons_append, pushWrites, pushWrites, ih, htop, List.append_assoc]

/-- The writes begin with a push of a word and end at `pointer`. -/
def PushesFirst (w pointer : Word) (writes : List (Word × Byte)) : Prop :=
  ∃ top rest, writes = (top - 1, w.lowByte) :: (top - 2, w.highByte) :: rest ∧
    pointer = top - BitVec.ofNat 16 writes.length

section
variable {w pointer : Word} {events rest : List Event}

theorem PushesFirst.append (h : PushesFirst w pointer (events.filterMap Event.write?))
    (hrest : rest.filterMap Event.write? = []) :
    PushesFirst w pointer ((events ++ rest).filterMap Event.write?) := by
  rwa [List.filterMap_append, hrest, List.append_nil]

theorem PushesFirst.prepend (h : PushesFirst w pointer (rest.filterMap Event.write?))
    (hevents : events.filterMap Event.write? = []) :
    PushesFirst w pointer ((events ++ rest).filterMap Event.write?) := by
  rwa [List.filterMap_append, hevents, List.nil_append]

end

namespace Registers

@[simp] theorem setStackPointer_stackPointer (r : Registers) (stack : Stack) :
    r.setStackPointer stack (r.stackPointer stack) = r := by
  cases stack <;> rfl

@[simp] theorem setStackPointer_setStackPointer (r : Registers) (stack : Stack) (v w : Word) :
    (r.setStackPointer stack v).setStackPointer stack w = r.setStackPointer stack w := by
  cases stack <;> rfl

@[simp] theorem pc_setStackPointer (r : Registers) (stack : Stack) (value : Word) :
    (r.setStackPointer stack value).pc = r.pc := by
  cases stack <;> rfl

theorem ensures_pushBytes (r : Registers) (stack : Stack) (bytes : List Byte) :
    (r.pushBytes stack bytes).Ensures fun events pushed =>
      events = (pushWrites (r.stackPointer stack) bytes).map Event.ofWrite ∧
        pushed = r.setStackPointer stack (r.stackPointer stack - BitVec.ofNat 16 bytes.length) := by
  induction bytes with
  | nil => simp [pushBytes, pushWrites]
  | cons value rest ih =>
      unfold pushBytes
      rw [BusM.ensures_bind]
      refine ih.imp ?_
      rintro events _ ⟨rfl, rfl⟩
      simp only [pushByte, stackPointer_setStackPointer, setStackPointer_setStackPointer,
        Word.sub_ofNat_sub_one, BusM.ensures_bind, BusM.ensures_writeByte, BusM.ensures_pure]
      simp [pushWrites, Event.ofWrite]

theorem ensures_push (r : Registers) (stack : Stack) (mask : Byte) :
    (r.push stack mask).Ensures fun events pushed =>
      events = (pushWrites (r.stackPointer stack) (r.frame stack mask)).map Event.ofWrite ∧
        pushed = r.setStackPointer stack
          (r.stackPointer stack - BitVec.ofNat 16 (frameSize mask)) := by
  rw [← length_frame r stack mask]
  exact r.ensures_pushBytes stack (r.frame stack mask)

/-- What is stacked to save every register: the entire frame, with the flag set that says so. -/
def entireBytes (r : Registers) : List Byte :=
  ({ r with cc := r.cc.set Flag.entire } : Registers).frame .s entireFrame

theorem ensures_pushBytes_first (r : Registers) (stack : Stack) (front : List Byte) (w : Word) :
    (r.pushBytes stack (front ++ w.bytes)).Ensures fun events pushed =>
      PushesFirst w (pushed.stackPointer stack) (events.filterMap Event.write?) := by
  refine (r.ensures_pushBytes stack _).imp ?_
  rintro _ _ ⟨rfl, rfl⟩
  rw [Event.filterMap_write?_map]
  refine ⟨r.stackPointer stack, pushWrites (r.stackPointer stack - 2) front, ?_, ?_⟩
  · exact pushWrites_append _ front w.bytes
  · rw [stackPointer_setStackPointer, length_pushWrites]

theorem frame_eq_append_pc (r : Registers) (stack : Stack) {mask : Byte}
    (hmask : mask.getLsbD FrameRegister.pc.bit = true) :
    ∃ front, r.frame stack mask = front ++ r.pc.bytes := by
  obtain ⟨others, hall⟩ : ∃ others, FrameRegister.all = others ++ [.pc] :=
    ⟨FrameRegister.all.dropLast, rfl⟩
  refine ⟨(others.filter fun reg => mask.getLsbD reg.bit).flatMap (·.bytes stack r), ?_⟩
  rw [frame, FrameRegister.selected, hall, List.filter_append, List.flatMap_append,
    List.filter_cons_of_pos (by simpa using hmask), List.filter_nil]
  rfl

theorem ensures_push_first (r : Registers) (stack : Stack) {mask : Byte}
    (hmask : mask.getLsbD FrameRegister.pc.bit = true) :
    (r.push stack mask).Ensures fun events pushed =>
      PushesFirst r.pc (pushed.stackPointer stack) (events.filterMap Event.write?) := by
  obtain ⟨front, hframe⟩ := r.frame_eq_append_pc stack hmask
  unfold push
  rw [hframe]
  exact r.ensures_pushBytes_first stack front r.pc

end Registers

end M6809
