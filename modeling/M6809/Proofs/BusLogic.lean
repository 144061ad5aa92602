import M6809.BusM

/-!
Statements about a computation that hold on every bus. `Ensures` quantifies over all bytes that
the reads may give; the main statement says that a run on any bus meets what the computation
ensures.
-/
namespace M6809

namespace BusAccess

/-- The address and the value of a write. -/
def write? : BusAccess → Option (Word × Byte)
  | read _ _ => none
  | write address value => some (address, value)

end BusAccess

namespace Event

def access? : Event → Option BusAccess
  | access a => some a
  | message _ => none

def message? : Event → Option Message
  | access _ => none
  | message m => some m

def write? (e : Event) : Option (Word × Byte) := e.access?.bind BusAccess.write?

def ofWrite (w : Word × Byte) : Event := access (.write w.1 w.2)

theorem filterMap_access?_map (accesses : List BusAccess) :
    (accesses.map access).filterMap access? = accesses := by
  rw [List.filterMap_map]
  exact List.filterMap_some

theorem filterMap_write?_map (writes : List (Word × Byte)) :
    (writes.map ofWrite).filterMap write? = writes := by
  rw [List.filterMap_map]
  exact List.filterMap_some

end Event

namespace Outcome

variable {α β : Type}

def writes (o : Outcome β α) : List (Word × Byte) := o.accesses.filterMap BusAccess.write?

theorem accesses_eq (o : Outcome β α) : o.accesses = o.events.filterMap Event.access? := rfl

theorem messages_eq (o : Outcome β α) : o.messages = o.events.filterMap Event.message? := rfl

theorem writes_eq (o : Outcome β α) : o.writes = o.events.filterMap Event.write? :=
  List.filterMap_filterMap

end Outcome

namespace BusM

variable {α β γ : Type}

/-- What the computation itself does in a run: the events without the notices of the bus. -/
def actions [Bus β] : BusM α → β → List Event
  | done _, _ => []
  | read address next, bus =>
      .access (.read address (Bus.read bus address).1) ::
        (next (Bus.read bus address).1).actions (Bus.read bus address).2
  | write address value next, bus =>
      .access (.write address value) :: next.actions (Bus.write bus address value)
  | say message next, bus => .message message :: next.actions bus

/-- Whatever bytes the reads give, the actions and the result satisfy `post`. -/
def Ensures : BusM α → (List Event → α → Prop) → Prop
  | done result, post => post [] result
  | read address next, post =>
      ∀ value, (next value).Ensures fun events => post (.access (.read address value) :: events)
  | write address value next, post =>
      next.Ensures fun events => post (.access (.write address value) :: events)
  | say message next, post => next.Ensures fun events => post (.message message :: events)

section
variable [Bus β]

theorem result_bind (p : BusM α) (f : α → BusM γ) (bus : β) :
    ((p >>= f).run bus).result = ((f (p.run bus).result).run (p.run bus).bus).result := by
  rw [run_bind]

theorem result_map (f : α → γ) (p : BusM α) (bus : β) :
    ((f <$> p).run bus).result = f (p.run bus).result := by
  rw [map_eq_pure_bind, result_bind]
  rfl

theorem bus_bind (p : BusM α) (f : α → BusM γ) (bus : β) :
    ((p >>= f).run bus).bus = ((f (p.run bus).result).run (p.run bus).bus).bus := by
  rw [run_bind]

theorem events_bind (p : BusM α) (f : α → BusM γ) (bus : β) :
    ((p >>= f).run bus).events =
      (p.run bus).events ++ ((f (p.run bus).result).run (p.run bus).bus).events := by
  rw [run_bind]

theorem accesses_bind (p : BusM α) (f : α → BusM γ) (bus : β) :
    ((p >>= f).run bus).accesses =
      (p.run bus).accesses ++ ((f (p.run bus).result).run (p.run bus).bus).accesses := by
  simp only [Outcome.accesses_eq, events_bind, List.filterMap_append]

theorem filterMap_events_run {δ : Type} (view : Event → Option δ)
    (hview : ∀ notice, view (.message (.bus notice)) = none) (p : BusM α) (bus : β) :
    (p.run bus).events.filterMap view = (p.actions bus).filterMap view := by
  have hnotice : ∀ notice, (Event.ofNotice? notice).filterMap view = [] := by
    intro notice
    cases notice <;> simp [Event.ofNotice?, hview]
  induction p generalizing bus with
  | done result => rfl
  | read address next ih =>
      simp only [run, actions, List.filterMap_cons, List.filterMap_append, hnotice,
        List.nil_append, ih]
  | write address value next ih =>
      simp only [run, actions, List.filterMap_cons, List.filterMap_append, hnotice,
        List.nil_append, ih]
  | say message next ih => simp only [run, actions, List.filterMap_cons, ih]

theorem accesses_run (p : BusM α) (bus : β) :
    (p.run bus).accesses = (p.actions bus).filterMap Event.access? :=
  filterMap_events_run Event.access? (fun _ => rfl) p bus

theorem writes_run (p : BusM α) (bus : β) :
    (p.run bus).writes = (p.actions bus).filterMap Event.write? := by
  rw [Outcome.writes_eq, filterMap_events_run Event.write? (fun _ => rfl)]

/-- What a computation ensures holds of its run on every bus. -/
theorem Ensures.run {p : BusM α} {post : List Event → α → Prop} (h : p.Ensures post)
    (bus : β) : post (p.actions bus) (p.run bus).result := by
  induction p generalizing post bus with
  | done result => exact h
  | read address next ih =>
      exact ih (Bus.read bus address).1 (h (Bus.read bus address).1) (Bus.read bus address).2
  | write address value next ih => exact ih h (Bus.write bus address value)
  | say message next ih => exact ih h bus

end

theorem Ensures.imp {p : BusM α} {post post' : List Event → α → Prop}
    (h : p.Ensures post) (himp : ∀ events a, post events a → post' events a) :
    p.Ensures post' := by
  induction p generalizing post post' with
  | done result => exact himp _ _ h
  | read address next ih => exact fun value => ih value (h value) fun _ _ => himp _ _
  | write address value next ih => exact ih h fun _ _ => himp _ _
  | say message next ih => exact ih h fun _ _ => himp _ _

theorem Ensures.and {p : BusM α} {post post' : List Event → α → Prop}
    (h : p.Ensures post) (h' : p.Ensures post') :
    p.Ensures fun events a => post events a ∧ post' events a := by
  induction p generalizing post post' with
  | done result => exact ⟨h, h'⟩
  | read address next ih => exact fun value => ih value (h value) (h' value)
  | write address value next ih => exact ih h h'
  | say message next ih => exact ih h h'

theorem ensures_of_forall (p : BusM α) {post : List Event → α → Prop}
    (h : ∀ events a, post events a) : p.Ensures post := by
  induction p generalizing post with
  | done result => exact h _ _
  | read address next ih => exact fun value => ih value fun _ _ => h _ _
  | write address value next ih => exact ih fun _ _ => h _ _
  | say message next ih => exact ih fun _ _ => h _ _

@[simp] theorem ensures_done (a : α) (post : List Event → α → Prop) :
    (done a).Ensures post ↔ post [] a :=
  Iff.rfl

@[simp] theorem ensures_pure (a : α) (post : List Event → α → Prop) :
    (pure a : BusM α).Ensures post ↔ post [] a :=
  Iff.rfl

@[simp] theorem ensures_bind (p : BusM α) (f : α → BusM γ) (post : List Event → γ → Prop) :
    (p >>= f).Ensures post ↔
      p.Ensures fun events a => (f a).Ensures fun rest => post (events ++ rest) := by
  induction p generalizing post with
  | done result => rfl
  | read address next ih => exact forall_congr' fun value => ih value _
  | write address value next ih => exact ih _
  | say message next ih => exact ih _

@[simp] theorem ensures_map (f : α → γ) (p : BusM α) (post : List Event → γ → Prop) :
    (f <$> p).Ensures post ↔ p.Ensures fun events a => post events (f a) := by
  rw [map_eq_pure_bind, ensures_bind]
  simp only [ensures_pure, List.append_nil]

@[simp] theorem ensures_readByte (address : Word) (post : List Event → Byte → Prop) :
    (readByte address).Ensures post ↔ ∀ value, post [.access (.read address value)] value :=
  Iff.rfl

@[simp] theorem ensures_writeByte (address : Word) (value : Byte)
    (post : List Event → Unit → Prop) :
    (writeByte address value).Ensures post ↔ post [.access (.write address value)] () :=
  Iff.rfl

@[simp] theorem ensures_report (message : Message) (post : List Event → Unit → Prop) :
    (report message).Ensures post ↔ post [.message message] () :=
  Iff.rfl

@[simp] theorem ensures_readWord (address : Word) (post : List Event → Word → Prop) :
    (readWord address).Ensures post ↔ ∀ high low,
      post [.access (.read address high), .access (.read (address + 1) low)]
        (Word.ofBytes high low) :=
  Iff.rfl

@[simp] theorem ensures_writeWord (address value : Word) (post : List Event → Unit → Prop) :
    (writeWord address value).Ensures post ↔
      post [.access (.write address value.highByte),
        .access (.write (address + 1) value.lowByte)] () :=
  Iff.rfl

@[simp] theorem ensures_when (condition : Bool) (work : BusM Unit)
    (post : List Event → Unit → Prop) :
    (when condition work).Ensures post ↔
      if condition then work.Ensures post else post [] () := by
  cases condition <;> rfl

theorem bind_congr_of_ensures {p : BusM α} {f g : α → BusM γ}
    (h : p.Ensures fun _ a => f a = g a) : p >>= f = p >>= g := by
  induction p with
  | done result => exact h
  | read address next ih => exact congrArg (read address) (funext fun value => ih value (h value))
  | write address value next ih => exact congrArg (write address value) (ih h)
  | say message next ih => exact congrArg (say message) (ih h)

end BusM

end M6809
