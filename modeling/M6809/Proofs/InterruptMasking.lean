import M6809.Proofs.FlagOwnership
import M6809.Proofs.InterruptEntry

namespace M6809

/-- The masks of the lines that have one. -/
def Flag.interruptMasks : List Byte := [irqMask, firqMask]

theorem Interrupt.isEnabled_masked {kind : Interrupt} (hkind : kind ≠ .nmi) :
    kind.isEnabled ⟨Flag.irqMask ||| Flag.firqMask⟩ = false := by
  cases kind with
  | nmi => exact absurd rfl hkind
  | firq | irq => rfl

namespace ConditionCodes

/-- The interrupt masks that are set before are set after. -/
def KeepsMasks (cc cc' : ConditionCodes) : Prop :=
  ∀ flag ∈ Flag.interruptMasks, cc.isSet flag = true → cc'.isSet flag = true

variable {cc cc' cc'' : ConditionCodes}

theorem KeepsMasks.refl (cc : ConditionCodes) : KeepsMasks cc cc := fun _ _ h => h

theorem KeepsMasks.trans (h : KeepsMasks cc cc') (h' : KeepsMasks cc' cc'') :
    KeepsMasks cc cc'' :=
  fun flag hflag hset => h' flag hflag (h flag hflag hset)

theorem keepsMasks_set (cc : ConditionCodes) (mask : Byte) : KeepsMasks cc (cc.set mask) := by
  intro flag _ hset
  rw [isSet_set, hset, Bool.true_or]

theorem keepsMasks_set_of_mask (cc : ConditionCodes) (mask : Byte) :
    KeepsMasks ⟨mask⟩ (cc.set mask) := by
  intro flag _ hset
  rw [isSet_set, hset, Bool.or_true]

theorem SameOutside.keepsMasks {mask : Byte} (h : SameOutside mask cc cc')
    (hmask : ∀ flag ∈ Flag.interruptMasks, mask &&& flag = 0) : KeepsMasks cc cc' := by
  intro flag hflag hset
  rw [h.isSet (hmask flag hflag), hset]

theorem KeepsMasks.isEnabled (h : KeepsMasks cc cc') {kind : Interrupt}
    (hbarred : kind.isEnabled cc = false) : kind.isEnabled cc' = false := by
  cases kind with
  | nmi => cases hbarred
  | firq | irq =>
      simp only [Interrupt.isEnabled, Bool.not_eq_false', firqMask, irqMask] at hbarred ⊢
      exact h _ (by decide) hbarred

theorem keepsMasks_clear_entire (cc : ConditionCodes) : KeepsMasks cc (cc.clear Flag.entire) := by
  have hsame : SameOutside Flag.entire cc (cc.clear Flag.entire) :=
    cc.sameOutside_assign Flag.entire false
  exact hsame.keepsMasks (by decide)

end ConditionCodes

open ConditionCodes

namespace Operation

/-- Operations that may write an interrupt mask although their operand does not name CC. -/
def writesMasks : Operation → Bool
  | orcc | andcc | cwai | rti | swi _ => true
  | _ => false

theorem ownedFlags_and_masks {op : Operation} (hop : op.writesMasks = false) :
    op.ownedFlags &&& (Flag.irqMask ||| Flag.firqMask) = 0 := by
  cases op with
  | modify op _ | byte op _ | word op _ =>
      change op.ownedFlags &&& (Flag.irqMask ||| Flag.firqMask) = 0
      cases op <;> rfl
  | lea reg => cases reg <;> rfl
  | storeByte _ | storeWord _ =>
      change Arithmetic.maskNZV &&& (Flag.irqMask ||| Flag.firqMask) = 0
      rfl
  | branch _ | push _ | pull _ => exact BitVec.zero_and
  | orcc | andcc | cwai | rti | swi _ => cases hop
  | _ => rfl

theorem ownedFlags_and_eq_zero {op : Operation} (hop : op.writesMasks = false) :
    ∀ flag ∈ Flag.interruptMasks, op.ownedFlags &&& flag = 0 := by
  have hmasks := ownedFlags_and_masks hop
  rw [BitVec.and_or_distrib_left] at hmasks
  obtain ⟨hirq, hfirq⟩ := BitVec.or_eq_zero_iff.mp hmasks
  simp only [Flag.interruptMasks, List.forall_mem_cons]
  exact ⟨hirq, hfirq, List.forall_mem_nil _⟩

theorem ensures_perform_masks (page : Page) (address : Word) (r : Registers) {op : Operation}
    (hop : op.loadsRegisters = false) (hclears : op ≠ .andcc ∧ op ≠ .cwai ∧ op ≠ .rti) :
    (op.perform page address r).Ensures fun _ effect => KeepsMasks r.cc effect.regs.cc := by
  -- most operations own no mask, and of the others these can only set it
  by_cases hwrites : op.writesMasks = false
  · refine (ensures_perform_flags page address r hop).imp ?_
    intro _ _ hsame
    exact hsame.keepsMasks (ownedFlags_and_eq_zero hwrites)
  · cases op with
    | orcc => exact fun mask => r.cc.keepsMasks_set mask
    | swi kind =>
        simp only [perform]
        generalize hentered : softwareInterrupt kind r = entered
        refine (ensures_softwareInterrupt_cc hentered).imp ?_
        intro _ effect hcc
        rw [hcc]
        exact (r.cc.keepsMasks_set Flag.entire).trans (keepsMasks_set _ kind.masks)
    | andcc | cwai | rti => simp at hclears
    | _ => exact absurd rfl hwrites

end Operation

namespace Listing

theorem WellFormed.ensures_carryOut_masks {l : Listing} (h : l.WellFormed)
    (hloads : l.loadsFlags = false) (r : Registers) :
    (l.carryOut r).Ensures fun _ done => KeepsMasks r.cc done.regs.cc := by
  apply h.ensures_carryOut_cc hloads (fun _ => KeepsMasks.refl)
  intro hop page address r
  apply Operation.ensures_perform_masks page address r hop
  refine ⟨?_, ?_, ?_⟩ <;> intro heq <;> simp [loadsFlags, heq] at hloads

theorem WellFormed.ensures_carryOut_swi {l : Listing} (h : l.WellFormed)
    {kind : SoftwareInterrupt} (hop : l.opcode.operation = .swi kind) (r : Registers) :
    (l.carryOut r).Ensures fun _ done =>
      ∃ cc : ConditionCodes, done.regs.cc = cc.set kind.masks := by
  have hloads : l.loadsFlags = false := by simp [loadsFlags, hop]
  refine h.ensures_carryOut_cc hloads
    (R := fun _ cc' => ∃ cc : ConditionCodes, cc' = cc.set kind.masks) ?_ ?_ r
  · intro hregs
    simp [hop, Operation.loadsRegisters] at hregs
  · intro _ page address r
    rw [hop]
    simp only [Operation.perform]
    generalize hentered : Operation.softwareInterrupt kind r = entered
    exact (Operation.ensures_softwareInterrupt_cc hentered).imp fun _ _ hcc => ⟨_, hcc⟩

end Listing

namespace Processor

theorem ensures_stackFrame_masks (p : Processor) (kind : Interrupt) :
    (p.stackFrame kind).Ensures fun _ r => KeepsMasks p.regs.cc r.cc := by
  unfold stackFrame Registers.pushFrame
  split
  · exact KeepsMasks.refl p.regs.cc
  · split
    · generalize hpushed : p.regs.pushEntire = pushed
      refine (Registers.ensures_pushEntire_cc hpushed).imp ?_
      intro _ r hcc
      rw [hcc]
      exact p.regs.cc.keepsMasks_set Flag.entire
    · generalize fastFrame = mask
      refine (Registers.ensures_push_cc _ .s mask).imp ?_
      intro _ r hcc
      rw [hcc]
      exact p.regs.cc.keepsMasks_clear_entire

theorem ensures_enterInterrupt_masks (p : Processor) (kind : Interrupt) :
    (p.enterInterrupt kind).Ensures fun _ stepped => ∃ cc,
      KeepsMasks p.regs.cc cc ∧ stepped.processor.regs.cc = cc.set kind.masks := by
  unfold enterInterrupt Registers.enterHandler
  simp only [BusM.ensures_bind, BusM.ensures_readWord, BusM.ensures_report, BusM.ensures_pure]
  refine (p.ensures_stackFrame_masks kind).imp ?_
  intro _ r hkept _ _
  exact ⟨r.cc, hkept, rfl⟩

end Processor

namespace Machine

variable {β : Type} [Bus β] {m : Machine β}

theorem step_of_entered {kind : Interrupt} (h : kind ∈ m.entered) :
    ∃ cc, KeepsMasks m.processor.regs.cc cc ∧ m.step.processor.regs.cc = cc.set kind.masks := by
  rw [mem_entered_iff] at h
  have hentered := (m.processor.awake.ensures_enterInterrupt_masks kind).run
    (m.processor.reportAwake.run m.bus).bus
  rw [m.processor.regs_awake] at hentered
  unfold step stepOutcome
  rw [Processor.step_of_pending h, BusM.result_bind]
  exact hentered

theorem keepsMasks_step (h : ∀ l, m.executing? = some l → l.loadsFlags = false) :
    KeepsMasks m.processor.regs.cc m.step.processor.regs.cc := by
  cases hpending : m.processor.latches.pending? m.processor.regs.cc with
  | some kind =>
      obtain ⟨cc, hkept, hcc⟩ := step_of_entered ((m.mem_entered_iff kind).mpr hpending)
      rw [hcc]
      exact hkept.trans (cc.keepsMasks_set kind.masks)
  | none =>
      cases hexecuting : m.executing? with
      | none =>
          rw [regs_step_of_executing?_eq_none hpending hexecuting]
          exact KeepsMasks.refl _
      | some l =>
          obtain ⟨hwell, hresult⟩ := stepOutcome_of_executing? hexecuting
          unfold step
          rw [hresult]
          exact (hwell.ensures_carryOut_masks (h l hexecuting) m.processor.regs).run _

theorem cc_reset (m : Machine β) :
    m.reset.processor.regs.cc = ⟨Flag.irqMask ||| Flag.firqMask⟩ := rfl

theorem keepsMasks_reset (m : Machine β) :
    KeepsMasks m.processor.regs.cc m.reset.processor.regs.cc := by
  have hset : ∀ flag ∈ Flag.interruptMasks,
      (⟨Flag.irqMask ||| Flag.firqMask⟩ : ConditionCodes).isSet flag = true := by decide
  rw [cc_reset]
  exact fun flag hflag _ => hset flag hflag

/-- Some step of the commands executes an instruction that loads flags. -/
def LoadsFlags (m : Machine β) (commands : List (Command β)) : Prop :=
  ∃ before after l, commands = before ++ .step :: after ∧
    (m.run before).executing? = some l ∧ l.loadsFlags = true

theorem LoadsFlags.concat {commands : List (Command β)} (h : m.LoadsFlags commands)
    (command : Command β) : m.LoadsFlags (commands ++ [command]) := by
  obtain ⟨before, after, l, rfl, hexecuting, hloads⟩ := h
  exact ⟨before, after ++ [command], l, by simp, hexecuting, hloads⟩

theorem keepsMasks_run {commands : List (Command β)}
    (hcommands : ∀ regs, .setRegisters regs ∉ commands) (hloads : ¬m.LoadsFlags commands) :
    KeepsMasks m.processor.regs.cc (m.run commands).processor.regs.cc := by
  -- from the end, since whether the last command loads flags depends on what came before
  induction commands using List.reverseRecOn with
  | nil => exact KeepsMasks.refl _
  | append_singleton commands command ih =>
      have hkept := ih (fun regs hmem => hcommands regs (by simp [hmem]))
        (fun h => hloads (h.concat command))
      rw [run_concat]
      refine hkept.trans ?_
      cases command with
      | step =>
          apply keepsMasks_step
          intro l hexecuting
          by_contra hl
          rw [Bool.not_eq_false] at hl
          exact hloads ⟨commands, [], l, rfl, hexecuting, hl⟩
      | reset => exact (m.run commands).keepsMasks_reset
      | setRegisters regs => exact absurd (by simp) (hcommands regs)
      | assertLine _ | releaseFirq | releaseIrq | setBus _ => exact KeepsMasks.refl _

theorem barred_of_entered {entry kind : Interrupt} (hentry : entry ∈ m.entered)
    (hmasks : kind.isEnabled ⟨entry.masks⟩ = false) :
    kind.isEnabled m.step.processor.regs.cc = false := by
  obtain ⟨cc, -, hcc⟩ := step_of_entered hentry
  rw [hcc]
  exact (cc.keepsMasks_set_of_mask entry.masks).isEnabled hmasks

theorem barred_of_swi {l : Listing} (hexecuting : m.executing? = some l)
    {software : SoftwareInterrupt} (hop : l.opcode.operation = .swi software) {kind : Interrupt}
    (hmasks : kind.isEnabled ⟨software.masks⟩ = false) :
    kind.isEnabled m.step.processor.regs.cc = false := by
  obtain ⟨hwell, hresult⟩ := stepOutcome_of_executing? hexecuting
  obtain ⟨cc, hcc⟩ := (hwell.ensures_carryOut_swi hop m.processor.regs).run
    ((Listing.read m.processor.regs.pc).run m.bus).bus
  have hstep : m.step.processor.regs.cc = cc.set software.masks := by
    unfold step
    rw [hresult]
    exact hcc
  rw [hstep]
  exact (cc.keepsMasks_set_of_mask software.masks).isEnabled hmasks

theorem loadsFlags_of_entered {commands : List (Command β)}
    (hcommands : ∀ regs, .setRegisters regs ∉ commands) {kind : Interrupt}
    (hbarred : kind.isEnabled m.processor.regs.cc = false)
    (hentered : kind ∈ (m.run commands).entered) : m.LoadsFlags commands := by
  by_contra hloads
  have hstill := (keepsMasks_run hcommands hloads).isEnabled hbarred
  rw [mem_entered_iff, Latches.pending?_eq_some_iff] at hentered
  rw [hentered.2.1] at hstill
  cases hstill

/-- After a reset, an SWI, or the entry of an NMI or FIRQ, neither FIRQ nor IRQ is entered until a
step has executed an instruction that loads flags, and after the entry of an IRQ no IRQ is. No
other step clears a mask. -/
theorem masked_until_flags_loaded (m : Machine β) (commands : List (Command β))
    (hcommands : ∀ regs, .setRegisters regs ∉ commands) :
    (∀ start, start = m.reset ∨ start = m.step ∧ (.nmi ∈ m.entered ∨ .firq ∈ m.entered ∨
        ∃ l, m.executing? = some l ∧ l.opcode.operation = .swi .swi) →
      ∀ kind, kind ≠ .nmi → kind ∈ (start.run commands).entered → start.LoadsFlags commands) ∧
    (.irq ∈ m.entered → .irq ∈ (m.step.run commands).entered → m.step.LoadsFlags commands) ∧
    ((∀ l, m.executing? = some l → l.loadsFlags = false) → ∀ flag ∈ Flag.interruptMasks,
      m.processor.regs.cc.isSet flag = true → m.step.processor.regs.cc.isSet flag = true) := by
  refine ⟨?_, ?_, keepsMasks_step⟩
  · intro start hstart kind hkind
    apply loadsFlags_of_entered hcommands
    rcases hstart with rfl | ⟨rfl, hnmi | hfirq | ⟨l, hexecuting, hop⟩⟩
    · rw [cc_reset]
      exact Interrupt.isEnabled_masked hkind
    · exact barred_of_entered hnmi (Interrupt.isEnabled_masked hkind)
    · exact barred_of_entered hfirq (Interrupt.isEnabled_masked hkind)
    · exact barred_of_swi hexecuting hop (Interrupt.isEnabled_masked hkind)
  · intro hirq
    exact loadsFlags_of_entered hcommands (barred_of_entered hirq rfl)

/-- FIRQ waits through SWI, SYNC, SWI2 and an NMI, until the last handler clears its mask. -/
theorem firq_entered_once_unmasked :
    let bus := (Memory.zero.load 0x2000 [0x3F, 0x13, 0x10, 0x3F, 0x1C, 0xAF]).load 0xFFF4
      [0x30, 0x00, 0x00, 0x00, 0x00, 0x00, 0x20, 0x01, 0x20, 0x04]
    let m : Machine Memory :=
      ⟨{ Processor.initial with regs := { Registers.zero with pc := 0x2000, s := 0x1000 } }, bus⟩
    let commands : List (Command Memory) :=
      [.assertLine .firq, .step, .step, .assertLine .nmi, .step, .step]
    (∃ l, m.executing? = some l ∧ l.opcode.operation = .swi .swi) ∧
      .firq ∈ (m.step.run commands).entered ∧ m.step.LoadsFlags commands := by
  intro bus m commands
  have hswi : ∃ l, m.executing? = some l ∧ l.opcode.operation = .swi .swi := by
    rw [← Option.map_eq_some_iff]
    decide +kernel
  have hentered : .firq ∈ (m.step.run commands).entered := by
    rw [mem_entered_iff]
    decide +kernel
  have hmasked := masked_until_flags_loaded m commands (by simp [commands])
  exact ⟨hswi, hentered,
    hmasked.1 m.step (.inr ⟨rfl, .inr (.inr hswi)⟩) .firq (by decide) hentered⟩

end Machine

end M6809
