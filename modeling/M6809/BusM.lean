import M6809.Message

/-!
Computations that reach the machine only through bus accesses. A computation is the tree of its
accesses, so the same computation runs on every bus, and a run lists what happened in order. The
main statement says that running one computation after another joins their records.
-/
namespace M6809

inductive BusAccess where
  | read (address : Word) (value : Byte)
  | write (address : Word) (value : Byte)
deriving DecidableEq, Repr

inductive Event where
  | access (access : BusAccess)
  | message (message : Message)
deriving DecidableEq, Repr

inductive BusM (α : Type) where
  | done (result : α)
  | read (address : Word) (next : Byte → BusM α)
  | write (address : Word) (value : Byte) (next : BusM α)
  | say (message : Message) (next : BusM α)

/-- What a run leaves behind: its result, the bus after it, and what happened in order. -/
structure Outcome (β α : Type) where
  result : α
  bus : β
  events : List Event

/-- A notice as the event that follows the access it is about. -/
def Event.ofNotice? (notice : Option Notice) : List Event :=
  notice.toList.map fun n => .message (.bus n)

namespace Outcome

variable {α β : Type}

def accesses (o : Outcome β α) : List BusAccess :=
  o.events.filterMap fun
    | .access access => some access
    | .message _ => none

def messages (o : Outcome β α) : List Message :=
  o.events.filterMap fun
    | .access _ => none
    | .message message => some message

end Outcome

namespace BusM

variable {α β γ : Type}

def bind : BusM α → (α → BusM γ) → BusM γ
  | done result, f => f result
  | read address next, f => read address fun value => (next value).bind f
  | write address value next, f => write address value (next.bind f)
  | say message next, f => say message (next.bind f)

instance : Monad BusM where
  pure := done
  bind := bind

@[simp] theorem done_bind (result : α) (f : α → BusM γ) : done result >>= f = f result := rfl

@[simp] theorem pure_bind (result : α) (f : α → BusM γ) : (pure result : BusM α) >>= f = f result :=
  rfl

@[simp] theorem read_bind (address : Word) (next : Byte → BusM α) (f : α → BusM γ) :
    read address next >>= f = read address fun value => next value >>= f :=
  rfl

@[simp] theorem write_bind (address : Word) (value : Byte) (next : BusM α) (f : α → BusM γ) :
    write address value next >>= f = write address value (next >>= f) :=
  rfl

@[simp] theorem say_bind (message : Message) (next : BusM α) (f : α → BusM γ) :
    say message next >>= f = say message (next >>= f) :=
  rfl

instance : LawfulMonad BusM :=
  LawfulMonad.mk' BusM
    (fun p => by
      induction p with
      | done result => rfl
      | read address next ih => exact congrArg (read address) (funext ih)
      | write address value next ih => exact congrArg (write address value) ih
      | say message next ih => exact congrArg (say message) ih)
    (fun _ _ => rfl)
    (fun p f g => by
      induction p with
      | done result => rfl
      | read address next ih => exact congrArg (read address) (funext ih)
      | write address value next ih => exact congrArg (write address value) ih
      | say message next ih => exact congrArg (say message) ih)

def readByte (address : Word) : BusM Byte := read address done

def writeByte (address : Word) (value : Byte) : BusM Unit := write address value (done ())

def report (message : Message) : BusM Unit := say message (done ())

/-- The word at an address, high byte first. -/
def readWord (address : Word) : BusM Word :=
  read address fun high => read (address + 1) fun low => done (Word.ofBytes high low)

def writeWord (address value : Word) : BusM Unit :=
  write address value.highByte (write (address + 1) value.lowByte (done ()))

def when (condition : Bool) (work : BusM Unit) : BusM Unit := if condition then work else done ()

def run [Bus β] : BusM α → β → Outcome β α
  | done result, bus => ⟨result, bus, []⟩
  | read address next, bus =>
    let (value, after) := Bus.read bus address
    let rest := (next value).run after
    { rest with
      events := .access (.read address value) ::
        (Event.ofNotice? (Bus.readNotice? bus address) ++ rest.events) }
  | write address value next, bus =>
    let rest := next.run (Bus.write bus address value)
    { rest with
      events := .access (.write address value) ::
        (Event.ofNotice? (Bus.writeNotice? bus address value) ++ rest.events) }
  | say message next, bus =>
    let rest := next.run bus
    { rest with events := .message message :: rest.events }

theorem run_bind [Bus β] (p : BusM α) (f : α → BusM γ) (bus : β) :
    (p >>= f).run bus =
      { (f (p.run bus).result).run (p.run bus).bus with
        events := (p.run bus).events ++ ((f (p.run bus).result).run (p.run bus).bus).events } := by
  induction p generalizing bus with
  | done result => rfl
  | read address next ih => simp [run, ih]
  | write address value next ih => simp [run, ih]
  | say message next ih => simp [run, ih]

end BusM

end M6809
