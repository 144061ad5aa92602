import M6809.Proofs.Machine
import M6809.Proofs.MemoryBus
import Mathlib.Control.Monad.Basic
import Mathlib.Logic.Function.Iterate

namespace M6809

/-- The bytes that reads at consecutive addresses give. -/
def Bus.fetched {β : Type} [Bus β] (bus : β) (address : Word) : Nat → Byte
  | 0 => (Bus.read bus address).1
  | n + 1 => fetched (Bus.read bus address).2 (address + 1) n

namespace Fault

/-- The fault of a code and the byte behind it. -/
def ofCode? (address : Word) (page : Page) (code next : Byte) : Option Fault :=
  match Opcode.ofCode? page code with
  | none => some (.illegalOpcode address page code)
  | some o =>
    if o.mode = .indexed ∧ IndexedMode.ofPostbyte? next = none then
      some (.illegalPostbyte address next)
    else none

/-- The fault of the bytes at an address. -/
def ofBytes? (address : Word) (bytes : Nat → Byte) : Option Fault :=
  match Page.ofPrefixByte? (bytes 0) with
  | some page => ofCode? address page (bytes 1) (bytes 2)
  | none => ofCode? address .zero (bytes 0) (bytes 1)

end Fault

namespace Cursor

variable {β : Type} [Bus β] {c : Cursor} {bus : β}

theorem result_indexed_eq_error_iff {start : Word} {f : Fault} :
    ((c.indexed start).run bus).result = .error f ↔
      IndexedMode.ofPostbyte? (Bus.read bus c.next).1 = none ∧
        Fault.illegalPostbyte start (Bus.read bus c.next).1 = f := by
  have hbyte : (c.byte.run bus).result.1 = (Bus.read bus c.next).1 := rfl
  unfold indexed
  rw [BusM.result_bind]
  dsimp only
  rw [hbyte]
  cases IndexedMode.ofPostbyte? (Bus.read bus c.next).1 with
  | none => simp [BusM.run, pure]
  | some mode =>
      obtain ⟨form, register, indirect⟩ := mode
      cases form with
      | offset width | pcOffset width => cases width <;> simp [BusM.result_map]
      | absolute => simp [BusM.result_map]
      | _ => simp [BusM.run, pure]

theorem result_operand_eq_error_iff {o : Opcode} {start : Word} {f : Fault} :
    ((c.operand o start).run bus).result = .error f ↔
      o.mode = .indexed ∧ IndexedMode.ofPostbyte? (Bus.read bus c.next).1 = none ∧
        Fault.illegalPostbyte start (Bus.read bus c.next).1 = f := by
  unfold operand
  cases o.mode with
  | indexed => simpa using result_indexed_eq_error_iff
  | _ => simp [BusM.result_map, BusM.result_bind, BusM.run, pure]

theorem ofBytes?_fetched (c : Cursor) (bus : β) (address : Word) :
    Fault.ofBytes? address (Bus.fetched bus c.next) =
      let o := c.code.run bus
      Fault.ofCode? address o.result.1 o.result.2.1 (Bus.read o.bus o.result.2.2.next).1 := by
  have hbyte : (c.byte.run bus).result.1 = (Bus.read bus c.next).1 := rfl
  unfold Fault.ofBytes? code
  rw [BusM.run_bind]
  dsimp only
  rw [hbyte, show Bus.fetched bus c.next 0 = (Bus.read bus c.next).1 from rfl]
  cases Page.ofPrefixByte? (Bus.read bus c.next).1 <;> rfl

end Cursor

theorem Listing.result_read_eq_error_iff {β : Type} [Bus β] {bus : β} {address : Word}
    {f : Fault} :
    ((Listing.read address).run bus).result = .error f ↔
      Fault.ofBytes? address (Bus.fetched bus address) = some f := by
  rw [Cursor.ofBytes?_fetched ⟨address, []⟩ bus address]
  unfold Listing.read Fault.ofCode?
  rw [BusM.result_bind]
  obtain ⟨⟨page, code, c⟩, after, events⟩ := (Cursor.code ⟨address, []⟩).run bus
  dsimp only
  cases Opcode.ofCode? page code with
  | none => simp [BusM.run, pure]
  | some o =>
      dsimp only
      rw [BusM.result_bind]
      have hoperand : ((c.operand o address).run after).result = .error f ↔ _ :=
        Cursor.result_operand_eq_error_iff
      refine Iff.trans ?_ (hoperand.trans ?_)
      · cases ((c.operand o address).run after).result <;> simp [BusM.run, pure]
      · split <;> simp_all

namespace Processor

section
variable {β : Type} [Bus β] {p : Processor} {bus : β} {f : Fault}

theorem cycles_step_eq_error_iff :
    (p.step.run bus).result.cycles = .error f ↔
      p.latches.pending? p.regs.cc = none ∧ ¬p.Idles ∧
        Fault.ofBytes? p.regs.pc (Bus.fetched bus p.regs.pc) = some f := by
  cases hpending : p.latches.pending? p.regs.cc with
  | some kind =>
      rw [step_of_pending hpending, BusM.result_bind]
      simp [enterInterrupt, BusM.result_bind, BusM.run, pure]
  | none =>
      by_cases hidle : p.Idles
      · simp [step_of_idles hpending hidle, hidle, BusM.run, pure]
      · rw [(run_step_of_not_idles hpending hidle).1, executeInstruction_eq_error_iff,
          awake_of_not_idles hidle, Listing.result_read_eq_error_iff]
        simp [hidle]

theorem step_of_error (h : (p.step.run bus).result.cycles = .error f) :
    (p.step.run bus).result = ⟨{ p with state := .running }, .error f⟩ ∧
      (p.state = .running ∨ p.state = .sync ∧ p.latches.any = true) ∧
      f.address = p.regs.pc ∧
      ∃ bytes, (p.step.run bus).accesses = BusAccess.readsFrom p.regs.pc bytes ∧
        bytes.length ≤ 3 := by
  obtain ⟨hpending, hidle, -⟩ := cycles_step_eq_error_iff.mp h
  obtain ⟨hresult, -, haccesses⟩ : (p.step.run bus).result = _ ∧ _ :=
    run_step_of_not_idles hpending hidle
  rw [hresult, executeInstruction_eq_error_iff] at h
  obtain ⟨herror, -, hreads⟩ := executeInstruction_of_error h
  rw [awake_of_not_idles hidle] at h hreads herror
  obtain ⟨bytes, hactions, hread⟩ := (Listing.ensures_read p.regs.pc).run bus
  rw [h] at hread
  refine ⟨?_, running_or_sync_of_not_idles hidle, hread.1, bytes, ?_, hread.2⟩
  · rw [hresult, awake_of_not_idles hidle, herror]
  · rw [haccesses, awake_of_not_idles hidle, hreads, BusM.accesses_run, hactions,
      Event.filterMap_access?_map]

theorem writes_step_of_error (h : (p.step.run bus).result.cycles = .error f) :
    (p.step.run bus).writes = [] := by
  obtain ⟨-, -, -, bytes, haccesses, -⟩ := step_of_error h
  rw [Outcome.writes, haccesses, BusAccess.filterMap_write?_readsFrom]

end

theorem step_step_of_error {p : Processor} {m : Memory} {f : Fault}
    (h : (p.step.run m).result.cycles = .error f) :
    let faulted : Machine Memory := ⟨{ p with state := .running }, m⟩
    Machine.step ⟨p, m⟩ = faulted ∧ faulted.step = faulted ∧
      faulted.stepOutcome.result.cycles = .error f := by
  have hstep : ∀ {q : Processor}, (q.step.run m).result.cycles = .error f →
      Machine.step ⟨q, m⟩ = ⟨{ q with state := .running }, m⟩ := by
    intro q hq
    have hbus := BusM.bus_run_of_writes_eq_nil (writes_step_of_error hq)
    simp only [Machine.step, Machine.stepOutcome, (step_of_error hq).1, hbus]
  obtain ⟨hpending, -, hbytes⟩ := cycles_step_eq_error_iff.mp h
  -- memory is as it was, so the same bytes are fetched again
  have hagain : (({ p with state := .running } : Processor).step.run m).result.cycles = .error f :=
    cycles_step_eq_error_iff.mpr ⟨hpending, not_idles_of_running rfl, hbytes⟩
  exact ⟨hstep h, hstep hagain, hagain⟩

/-- A step faults where no interrupt is pending, the processor does not wait, and the bytes at PC
are no instruction. It then gives up SYNC and nothing else, and all later steps do the same. -/
theorem fault_iff_and_lasts {β : Type} [Bus β] (p : Processor) (bus : β) (m : Memory) (f : Fault) :
    ((p.step.run bus).result.cycles = .error f ↔
      p.latches.pending? p.regs.cc = none ∧ ¬p.Idles ∧
        Fault.ofBytes? p.regs.pc (Bus.fetched bus p.regs.pc) = some f) ∧
    ((p.step.run bus).result.cycles = .error f →
      (p.step.run bus).result.processor = { p with state := .running } ∧
      (p.state = .running ∨ p.state = .sync ∧ p.latches.any = true) ∧
      (p.step.run bus).writes = [] ∧ (p.step.run bus).accesses.length ≤ 3 ∧
      f.address = p.regs.pc) ∧
    ((p.step.run m).result.cycles = .error f → ∀ n,
      Machine.step^[n + 1] ⟨p, m⟩ = ⟨{ p with state := .running }, m⟩ ∧
      (Machine.step^[n + 1] ⟨p, m⟩).stepOutcome.result.cycles = .error f) := by
  refine ⟨cycles_step_eq_error_iff, ?_, ?_⟩
  · intro h
    obtain ⟨hresult, hstate, haddress, bytes, haccesses, hlength⟩ := step_of_error h
    refine ⟨by rw [hresult], hstate, writes_step_of_error h, ?_, haddress⟩
    rwa [haccesses, BusAccess.length_readsFrom]
  · intro h n
    obtain ⟨hfirst, hfixed, hagain⟩ := step_step_of_error h
    rw [Function.iterate_succ_apply, hfirst, Function.iterate_fixed hfixed n]
    exact ⟨rfl, hagain⟩

/-- LDY with a reserved postbyte, reached out of SYNC by a masked IRQ. -/
theorem reserved_postbyte_faults_for_ever :
    let p : Processor := { Processor.initial with
      regs := { Registers.initial with pc := 0xFFFE }
      state := .sync
      latches := ⟨false, false, true⟩ }
    let m := Memory.zero.load 0xFFFE [0x10, 0xAE, 0x87]
    let f : Fault := .illegalPostbyte 0xFFFE 0x87
    (p.step.run m).result.cycles = .error f ∧
      (p.step.run m).result.processor = { p with state := .running } ∧
      ∀ n, (Machine.step^[n + 1] ⟨p, m⟩).stepOutcome.result.cycles = .error f := by
  intro p m f
  have h : (p.step.run m).result.cycles = .error f := by decide +kernel
  have hfault := fault_iff_and_lasts p m m f
  exact ⟨h, (hfault.2.1 h).1, fun n => (hfault.2.2 h n).2⟩

end Processor

end M6809
