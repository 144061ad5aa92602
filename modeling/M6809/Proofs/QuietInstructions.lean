import M6809.Proofs.ControlFlow
import M6809.Proofs.Machine

namespace M6809

def Message.entered? : Message → Option Interrupt
  | interruptEntered kind _ _ => some kind
  | _ => none

/-- The messages that an operation has for itself. -/
def Message.isOperational : Message → Bool
  | softwareInterruptEntered _ _ | returned _ _ | waiting _ | syncing => true
  | _ => false

def Event.entered? (e : Event) : Option Interrupt := e.message?.bind Message.entered?

/-- The interrupts that are entered in a run. -/
def Outcome.entered {β α : Type} (o : Outcome β α) : List Interrupt :=
  o.messages.filterMap Message.entered?

namespace BusM

variable {α β γ : Type}

theorem entered_run [Bus β] (p : BusM α) (bus : β) :
    (p.run bus).entered = (p.actions bus).filterMap Event.entered? := by
  rw [Outcome.entered, Outcome.messages_eq, List.filterMap_filterMap]
  exact filterMap_events_run Event.entered? (fun _ => rfl) p bus

/-- Nothing is said but by operations. -/
structure Plain (p : BusM α) : Prop where
  ensures : p.Ensures fun events _ =>
    ∀ message ∈ events.filterMap Event.message?, message.isOperational = true

theorem Plain.bind {p : BusM α} {f : α → BusM γ} (hp : p.Plain) (hf : ∀ a, (f a).Plain) :
    (p >>= f).Plain := by
  constructor
  rw [ensures_bind]
  refine hp.ensures.imp ?_
  intro events a hevents
  refine (hf a).ensures.imp ?_
  intro rest _ hrest message hmessage
  rw [List.filterMap_append, List.mem_append] at hmessage
  rcases hmessage with hmessage | hmessage
  · exact hevents message hmessage
  · exact hrest message hmessage

theorem plain_of_silent {p : BusM α}
    (h : p.Ensures fun events _ => events.filterMap Event.message? = []) : p.Plain := by
  refine ⟨h.imp ?_⟩
  intro events _ hevents
  simp [hevents]

theorem plain_pure (a : α) : (pure a : BusM α).Plain := plain_of_silent rfl

theorem plain_readByte (address : Word) : (readByte address).Plain :=
  plain_of_silent fun _ => rfl

theorem plain_writeByte (address : Word) (value : Byte) : (writeByte address value).Plain :=
  plain_of_silent rfl

theorem plain_readWord (address : Word) : (readWord address).Plain :=
  plain_of_silent fun _ _ => rfl

theorem plain_writeWord (address value : Word) : (writeWord address value).Plain :=
  plain_of_silent rfl

theorem plain_report {message : Message} (h : message.isOperational = true) :
    (report message).Plain := by
  constructor
  simp [Event.message?, h]

theorem plain_when (condition : Bool) {work : BusM Unit} (h : work.Plain) :
    (when condition work).Plain := by
  cases condition with
  | false => exact plain_pure ()
  | true => exact h

theorem Plain.supply {p : BusM α} (h : p.Plain) (bytes : List Byte) : (p.supply bytes).Plain :=
  ⟨h.ensures.supply bytes fun _ _ _ _ => id⟩

theorem Plain.filterMap_eq_nil {δ : Type} {view : Message → Option δ} {p : BusM α} (h : p.Plain)
    (hview : ∀ message, message.isOperational = true → view message = none) :
    p.Ensures fun events _ => events.filterMap (fun e => e.message?.bind view) = [] := by
  refine h.ensures.imp ?_
  intro events _ hevents
  rw [← List.filterMap_filterMap]
  apply List.filterMap_eq_nil_iff.mpr
  intro message hmessage
  exact hview message (hevents message hmessage)

/-- No interrupt is entered. -/
structure Quiet (p : BusM α) : Prop where
  ensures : p.Ensures fun events _ => events.filterMap Event.entered? = []

theorem quiet_pure (a : α) : (pure a : BusM α).Quiet := ⟨rfl⟩

theorem quiet_report {message : Message} (h : message.entered? = none) :
    (report message).Quiet := by
  constructor
  simp [Event.entered?, Event.message?, h]

theorem Plain.quiet {p : BusM α} (h : p.Plain) : p.Quiet := by
  refine ⟨h.filterMap_eq_nil ?_⟩
  intro message hmessage
  cases message <;> first | rfl | cases hmessage

end BusM

open BusM

namespace Registers

variable (r : Registers) (stack : Stack)

theorem plain_pushBytes (bytes : List Byte) : (r.pushBytes stack bytes).Plain := by
  induction bytes with
  | nil => exact plain_pure r
  | cons value rest ih =>
      exact ih.bind fun _ => (plain_writeByte _ _).bind fun _ => plain_pure _

theorem plain_push (mask : Byte) : (r.push stack mask).Plain := r.plain_pushBytes stack _

theorem plain_pullByte : (r.pullByte stack).Plain :=
  (plain_readByte _).bind fun _ => plain_pure _

theorem plain_pullWord : (r.pullWord stack).Plain :=
  (r.plain_pullByte stack).bind fun _ =>
    (plain_pullByte _ stack).bind fun _ => plain_pure _

theorem plain_pullRegister (reg : FrameRegister) : (r.pullRegister stack reg).Plain := by
  cases reg with
  | cc | a | b | dp => exact (r.plain_pullByte stack).bind fun _ => plain_pure _
  | x | y | otherStack | pc => exact (r.plain_pullWord stack).bind fun _ => plain_pure _

theorem plain_pullEach (regs : List FrameRegister) : (r.pullEach stack regs).Plain := by
  induction regs generalizing r with
  | nil => exact plain_pure r
  | cons reg rest ih => exact (r.plain_pullRegister stack reg).bind fun pulled => ih pulled

theorem plain_pull (mask : Byte) : (r.pull stack mask).Plain := r.plain_pullEach stack _

theorem plain_call (address : Word) : (r.call address).Plain :=
  (r.plain_pushBytes .s _).bind fun _ => plain_pure _

theorem plain_enterHandler (vector : Word) : (r.enterHandler vector).Plain :=
  (plain_readWord vector).bind fun _ => plain_pure _

theorem plain_pushEntire : r.pushEntire.Plain := plain_push _ .s _

end Registers

namespace Operation

theorem plain_returnFromInterrupt (r : Registers) : (returnFromInterrupt r).Plain := by
  refine (r.plain_pullByte .s).bind fun pulled => ?_
  dsimp only
  split
  · exact (Registers.plain_pull _ .s _).bind fun _ =>
      (plain_report rfl).bind fun _ => plain_pure _
  · exact (Registers.plain_pullWord _ .s).bind fun _ =>
      (plain_report rfl).bind fun _ => plain_pure _

theorem plain_perform (op : Operation) (page : Page) (address : Word) (r : Registers) :
    (op.perform page address r).Plain := by
  cases op with
  | modify op target =>
      cases target with
      | memory =>
          exact (plain_readByte _).bind fun _ =>
            (plain_when _ (plain_writeByte _ _)).bind fun _ => plain_pure _
      | accumulator reg => exact plain_pure _
  | byte op reg | tfr | exg | orcc | andcc =>
      exact (plain_readByte _).bind fun _ => plain_pure _
  | word op reg => exact (plain_readWord _).bind fun _ => plain_pure _
  | storeByte reg => exact (plain_writeByte _ _).bind fun _ => plain_pure _
  | storeWord reg => exact (plain_writeWord _ _).bind fun _ => plain_pure _
  | lea reg => cases reg <;> exact plain_pure _
  | branch condition => cases h : condition.holds r.cc <;> simp [perform, h, plain_pure]
  | bsr | jsr => exact (r.plain_call _).bind fun _ => plain_pure _
  | rts => exact (r.plain_pullWord .s).bind fun _ => plain_pure _
  | rti => exact plain_returnFromInterrupt r
  | push stack =>
      exact (plain_readByte _).bind fun mask => (r.plain_push stack mask).bind fun _ =>
        plain_pure _
  | pull stack =>
      exact (plain_readByte _).bind fun mask => (r.plain_pull stack mask).bind fun _ =>
        plain_pure _
  | cwai =>
      exact (plain_readByte _).bind fun _ => (Registers.plain_pushEntire _).bind fun _ =>
        (plain_report rfl).bind fun _ => plain_pure _
  | sync => exact (plain_report rfl).bind fun _ => plain_pure _
  | swi kind =>
      exact r.plain_pushEntire.bind fun _ => (Registers.plain_enterHandler _ _).bind fun _ =>
        (plain_report rfl).bind fun _ => plain_pure _
  | jmp | nop | daa | sex | abx | mul => exact plain_pure _

end Operation

theorem OperandForm.plain_locate (form : OperandForm) (r : Registers) :
    (form.locate r).Plain := by
  cases form with
  | indexed mode fetched =>
      cases h : mode.indirect with
      | false => simp [locate, Operand.ofMode, h, plain_pure]
      | true =>
          simp only [locate, Operand.ofMode, h, if_true]
          exact (plain_readWord _).bind fun _ => plain_pure _
  | _ => exact plain_pure _

theorem Listing.plain_carryOut (l : Listing) (r : Registers) : (l.carryOut r).Plain :=
  (l.operand.plain_locate _).bind fun _ =>
    ((l.opcode.operation.plain_perform _ _ _).supply _).bind fun _ => plain_pure _

theorem Listing.plain_read (address : Word) : (Listing.read address).Plain := by
  refine plain_of_silent ((Listing.ensures_read address).imp ?_)
  rintro _ _ ⟨bytes, rfl, -⟩
  rw [List.filterMap_map]
  exact List.filterMap_eq_nil_iff.mpr fun _ _ => rfl

end M6809
