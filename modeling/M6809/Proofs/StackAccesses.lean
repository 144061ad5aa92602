import M6809.Proofs.ListingRead
import M6809.Proofs.StackFrames

namespace M6809

namespace BusAccess

/-- The writes that put bytes below an address, each under the one before. -/
def writesDown (top : Word) : List Byte → List BusAccess
  | [] => []
  | value :: rest => .write (top - 1) value :: writesDown (top - 1) rest

theorem writesDown_append (top : Word) (front back : List Byte) :
    writesDown top (front ++ back) =
      writesDown top front ++ writesDown (top - BitVec.ofNat 16 front.length) back := by
  induction front generalizing top with
  | nil => simp [writesDown]
  | cons value front ih =>
      have htop : top - 1 - BitVec.ofNat 16 front.length =
          top - BitVec.ofNat 16 (front.length + 1) := by
        rw [BitVec.sub_sub, Nat.add_comm, BitVec.ofNat_add]
        rfl
      rw [List.cons_append, writesDown, writesDown, ih, htop]
      rfl

/-- Reads of so many bytes from an address up. -/
def ReadsUp (address : Word) (n : Nat) (accesses : List BusAccess) : Prop :=
  ∃ values, values.length = n ∧ accesses = readsFrom address values

theorem ReadsUp.append {address : Word} {n k : Nat} {front back : List BusAccess}
    (h : ReadsUp address n front) (h' : ReadsUp (address + BitVec.ofNat 16 n) k back) :
    ReadsUp address (n + k) (front ++ back) := by
  obtain ⟨values, rfl, rfl⟩ := h
  obtain ⟨values', rfl, rfl⟩ := h'
  refine ⟨values ++ values', List.length_append, ?_⟩
  rw [readsFrom_append]

end BusAccess

theorem filterMap_access?_pushWrites (top : Word) (bytes : List Byte) :
    ((pushWrites top bytes).map Event.ofWrite).filterMap Event.access? =
      BusAccess.writesDown top bytes.reverse := by
  induction bytes with
  | nil => rfl
  | cons value rest ih =>
      rw [pushWrites, List.map_append, List.filterMap_append, ih, List.reverse_cons,
        BusAccess.writesDown_append, List.length_reverse, ← Word.sub_ofNat_sub_one]
      rfl

namespace Registers

open BusAccess

variable (r : Registers) (stack : Stack)

theorem ensures_pushBytes_accesses (bytes : List Byte) :
    (r.pushBytes stack bytes).Ensures fun events _ =>
      events.filterMap Event.access? = writesDown (r.stackPointer stack) bytes.reverse := by
  refine (r.ensures_pushBytes stack bytes).imp ?_
  rintro _ _ ⟨rfl, -⟩
  exact filterMap_access?_pushWrites _ bytes

theorem ensures_push_accesses (mask : Byte) :
    (r.push stack mask).Ensures fun events _ =>
      events.filterMap Event.access? =
        writesDown (r.stackPointer stack) (r.frame stack mask).reverse :=
  r.ensures_pushBytes_accesses stack _

/-- So many bytes are pulled, and the stack pointer is past them. -/
def Pulls (n : Nat) (events : List Event) (pulled : Registers) : Prop :=
  ReadsUp (r.stackPointer stack) n (events.filterMap Event.access?) ∧
    pulled.stackPointer stack = r.stackPointer stack + BitVec.ofNat 16 n

variable {r stack}

theorem Pulls.append {n k : Nat} {events rest : List Event} {middle pulled : Registers}
    (h : r.Pulls stack n events middle) (h' : middle.Pulls stack k rest pulled) :
    r.Pulls stack (n + k) (events ++ rest) pulled := by
  obtain ⟨hevents, hmiddle⟩ := h
  obtain ⟨hrest, hpulled⟩ := h'
  rw [hmiddle] at hrest hpulled
  constructor
  · rw [List.filterMap_append]
    exact hevents.append hrest
  · rw [hpulled, BitVec.add_assoc, ← BitVec.ofNat_add]

theorem Pulls.put {n : Nat} {events : List Event} {pulled put : Registers}
    (h : r.Pulls stack n events pulled)
    (hput : put.stackPointer stack = pulled.stackPointer stack) :
    r.Pulls stack n (events ++ []) put := by
  rw [List.append_nil]
  exact ⟨h.1, hput.trans h.2⟩

variable (r stack)

theorem ensures_pullByte_accesses :
    (r.pullByte stack).Ensures fun events p => r.Pulls stack 1 events p.2 := by
  intro value
  exact ⟨⟨[value], rfl, rfl⟩, r.stackPointer_setStackPointer stack _⟩

theorem ensures_pullWord_accesses :
    (r.pullWord stack).Ensures fun events p => r.Pulls stack 2 events p.2 := by
  unfold pullWord
  rw [BusM.ensures_bind]
  refine (r.ensures_pullByte_accesses stack).imp ?_
  rintro events ⟨high, middle⟩ hhigh
  dsimp only at hhigh ⊢
  rw [BusM.ensures_bind]
  refine (middle.ensures_pullByte_accesses stack).imp ?_
  rintro rest ⟨low, pulled⟩ hlow
  simp only [BusM.ensures_pure, List.append_nil]
  exact hhigh.append hlow

theorem ensures_pullRegister_accesses (reg : FrameRegister) :
    (r.pullRegister stack reg).Ensures (r.Pulls stack reg.width) := by
  cases reg with
  | cc | a | b | dp =>
      unfold pullRegister
      rw [BusM.ensures_bind]
      refine (r.ensures_pullByte_accesses stack).imp ?_
      rintro events ⟨value, pulled⟩ hpulled
      exact hpulled.put (by cases stack <;> rfl)
  | x | y | otherStack | pc =>
      unfold pullRegister
      rw [BusM.ensures_bind]
      refine (r.ensures_pullWord_accesses stack).imp ?_
      rintro events ⟨value, pulled⟩ hpulled
      exact hpulled.put (by cases stack <;> rfl)

theorem ensures_pullEach_accesses (regs : List FrameRegister) :
    (r.pullEach stack regs).Ensures (r.Pulls stack (FrameRegister.totalWidth regs)) := by
  induction regs generalizing r with
  | nil => exact ⟨⟨[], rfl, rfl⟩, (BitVec.add_zero _).symm⟩
  | cons reg rest ih =>
      unfold pullEach
      rw [BusM.ensures_bind]
      refine (r.ensures_pullRegister_accesses stack reg).imp ?_
      intro events middle hfirst
      refine (ih middle).imp ?_
      intro others pulled hrest
      exact hfirst.append hrest

theorem ensures_pull_accesses (mask : Byte) :
    (r.pull stack mask).Ensures (r.Pulls stack (frameSize mask)) :=
  r.ensures_pullEach_accesses stack _

end Registers

end M6809
