import M6809.Memory
import M6809.Proofs.Machine
import M6809.Proofs.SpareBits

namespace M6809

namespace TransferRegister

/-- The registers of sixteen bits. -/
def isWide : TransferRegister → Bool
  | d | x | y | u | s | pc => true
  | a | b | cc | dp => false

/-- The registers that a register is made of. -/
def parts : TransferRegister → List TransferRegister
  | d => [a, b]
  | reg => [reg]

/-- The two have a part in common. -/
def overlaps (reg other : TransferRegister) : Bool := reg.parts.any other.parts.contains

/-- What a register reads as when a value has been written to it. -/
def held (reg : TransferRegister) (value : Word) : Word :=
  if reg.isWide then value else 0xFF00 ||| value.lowByte.setWidth 16

theorem exists_code (reg : TransferRegister) : ∃ code, ofCode? code = some reg := by
  have hcodes : ∀ reg ∈ [d, x, y, u, s, pc, a, b, cc, dp], ∃ n < 16,
      ofCode? (BitVec.ofNat 8 n) = some reg := by
    decide
  obtain ⟨n, -, hn⟩ := hcodes reg (by cases reg <;> decide)
  exact ⟨_, hn⟩

theorem overlaps_iff {reg other : TransferRegister} : reg.overlaps other = true ↔
    reg = other ∨ reg = d ∧ (other = a ∨ other = b) ∨ other = d ∧ (reg = a ∨ reg = b) := by
  cases reg <;> cases other <;> decide

theorem overlaps_comm (reg other : TransferRegister) : reg.overlaps other = other.overlaps reg := by
  cases reg <;> cases other <;> rfl

theorem overlaps_eq_false_of_isWide_eq {reg other : TransferRegister} (hne : reg ≠ other)
    (hwide : reg.isWide = other.isWide) : reg.overlaps other = false := by
  cases reg <;> cases other <;> first | rfl | contradiction

/-- The postbyte of two codes, of which only the low nibbles count. -/
def pair (high low : Byte) : Byte := BitVec.ofNat 8 (high.toNat % 16 * 16 + low.toNat % 16)

theorem toNat_pair (high low : Byte) :
    (pair high low).toNat = high.toNat % 16 * 16 + low.toNat % 16 := by
  rw [pair, BitVec.toNat_ofNat]
  omega

theorem ofCode?_of_toNat_mod {code code' : Byte} (h : code.toNat % 16 = code'.toNat % 16) :
    ofCode? code = ofCode? code' := by
  unfold ofCode?
  rw [h]

theorem ofCode?_pair_high (high low : Byte) : ofCode? (pair high low >>> 4) = ofCode? high := by
  apply ofCode?_of_toNat_mod
  rw [toNat_shiftRight_mod, toNat_pair]
  omega

theorem ofCode?_pair_low (high low : Byte) : ofCode? (pair high low) = ofCode? low := by
  apply ofCode?_of_toNat_mod
  rw [toNat_pair]
  omega

theorem pair_nibbles (postbyte : Byte) : pair (postbyte >>> 4) postbyte = postbyte := by
  apply BitVec.eq_of_toNat_eq
  rw [toNat_pair, toNat_shiftRight_mod]
  omega

/-- What a code reads as when a value has been written to it. -/
def heldAt (code : Byte) (value : Word) : Word :=
  match ofCode? code with
  | some reg => reg.held value
  | none => 0xFFFF

/-- Both codes name registers, and these overlap. -/
def codesOverlap (code other : Byte) : Bool :=
  match ofCode? code, ofCode? other with
  | some reg, some reg' => reg.overlaps reg'
  | _, _ => false

theorem codesOverlap_of_some {code other : Byte} {reg reg' : TransferRegister}
    (h : ofCode? code = some reg) (h' : ofCode? other = some reg') :
    codesOverlap code other = reg.overlaps reg' := by
  simp only [codesOverlap, h, h']

theorem codesOverlap_comm (code other : Byte) :
    codesOverlap code other = codesOverlap other code := by
  unfold codesOverlap
  cases ofCode? code <;> cases ofCode? other <;> simp only [overlaps_comm]

end TransferRegister

open TransferRegister

namespace Registers

section
variable (r : Registers) (reg : TransferRegister) (value : Word)

theorem widened_eq (b : Byte) : widened b = 0xFF00 ||| b.setWidth 16 := by
  revert b
  decide +kernel

theorem widened_injective {b b' : Byte} (h : widened b = widened b') : b = b' := by
  have hlow := congrArg Word.lowByte h
  rwa [widened, widened, Word.lowByte_ofBytes, Word.lowByte_ofBytes] at hlow

theorem get_set : (r.set reg value).get reg = reg.held value := by
  cases reg with
  | d => exact r.d_setD value
  | x | y | u | s | pc => rfl
  | a | b | cc | dp => exact widened_eq value.lowByte

theorem get_set_of_overlaps {other : TransferRegister} (h : reg.overlaps other = false) :
    (r.set reg value).get other = r.get other := by
  cases reg <;> cases other <;> first | contradiction | rfl

theorem set_get : r.set reg (r.get reg) = r := by
  cases reg with
  | d => exact r.setD_d
  | x | y | u | s | pc => rfl
  | a | b | cc | dp => simp [set, get, widened]

end

theorem held_get (r : Registers) {reg other : TransferRegister} (h : reg.isWide = other.isWide) :
    reg.held (r.get other) = r.get other := by
  cases hwide : reg.isWide with
  | true => simp [held, hwide]
  | false =>
      rw [hwide] at h
      have hread : ∃ b, r.get other = widened b := by
        cases other <;> first | contradiction | exact ⟨_, rfl⟩
      obtain ⟨b, hb⟩ := hread
      simp only [held, hwide, hb, ← widened_eq]
      simp [widened]

theorem get_part_of_get {r r' : Registers} {reg part : TransferRegister}
    (h : r'.get reg = r.get reg) (hpart : part ∈ reg.parts) : r'.get part = r.get part := by
  cases reg with
  | d =>
      have ha : r'.a = r.a := by simpa [get, d] using congrArg Word.highByte h
      have hb : r'.b = r.b := by simpa [get, d] using congrArg Word.lowByte h
      have hhalf : part = .a ∨ part = .b := by simpa [parts] using hpart
      rcases hhalf with rfl | rfl
      · exact congrArg widened ha
      · exact congrArg widened hb
  | _ =>
      obtain rfl := List.mem_singleton.mp hpart
      exact h

theorem ext_of_get {r r' : Registers}
    (h : ∀ reg : TransferRegister, reg.parts = [reg] → r'.get reg = r.get reg) : r' = r := by
  obtain ⟨a, b, x, y, u, s, pc, dp, ⟨cc⟩⟩ := r
  obtain ⟨a', b', x', y', u', s', pc', dp', ⟨cc'⟩⟩ := r'
  obtain rfl := widened_injective (h .a rfl)
  obtain rfl := widened_injective (h .b rfl)
  obtain rfl := widened_injective (h .cc rfl)
  obtain rfl := widened_injective (h .dp rfl)
  obtain rfl : x' = x := h .x rfl
  obtain rfl : y' = y := h .y rfl
  obtain rfl : u' = u := h .u rfl
  obtain rfl : s' = s := h .s rfl
  obtain rfl : pc' = pc := h .pc rfl
  rfl

section
variable (r : Registers) {code other : Byte} (value : Word)

theorem getCoded_setCoded (code : Byte) :
    (r.setCoded code value).getCoded code = heldAt code value := by
  unfold setCoded getCoded heldAt
  cases ofCode? code with
  | some reg => exact r.get_set reg value
  | none => rfl

theorem getCoded_setCoded_of_overlap (h : codesOverlap code other = false) :
    (r.setCoded code value).getCoded other = r.getCoded other := by
  unfold setCoded getCoded
  cases hcode : ofCode? code with
  | none => rfl
  | some reg =>
      cases hother : ofCode? other with
      | none => rfl
      | some reg' =>
          rw [codesOverlap_of_some hcode hother] at h
          exact r.get_set_of_overlaps reg value h

end

/-- Two codes have taken each other's value, and what overlaps neither of them is as it was. -/
structure Exchanged (r : Registers) (first second : Byte) (after : Registers) : Prop where
  atFirst : after.getCoded first = heldAt first (r.getCoded second)
  atSecond : after.getCoded second = heldAt second (r.getCoded first)
  elsewhere : ∀ code, codesOverlap first code = false → codesOverlap second code = false →
    after.getCoded code = r.getCoded code

section
variable {r after after' : Registers} {first second : Byte}

theorem get_eq_of_codesOverlap {code : Byte} {part : TransferRegister}
    (h : after'.getCoded first = after.getCoded first) (hcode : ofCode? code = some part)
    (hpart : part.parts = [part]) (hoverlap : codesOverlap first code = true) :
    after'.get part = after.get part := by
  cases hfirst : ofCode? first with
  | none => simp [codesOverlap, hfirst] at hoverlap
  | some reg =>
      rw [codesOverlap_of_some hfirst hcode] at hoverlap
      simp only [getCoded, hfirst] at h
      apply get_part_of_get h
      simpa [overlaps, hpart] using hoverlap

/-- There is one way to exchange: what is read at every code tells the registers. -/
theorem Exchanged.unique (h : r.Exchanged first second after)
    (h' : r.Exchanged first second after') : after' = after := by
  apply ext_of_get
  intro part hpart
  obtain ⟨code, hcode⟩ := exists_code part
  by_cases hfirst : codesOverlap first code = true
  · exact get_eq_of_codesOverlap (h'.atFirst.trans h.atFirst.symm) hcode hpart hfirst
  by_cases hsecond : codesOverlap second code = true
  · exact get_eq_of_codesOverlap (h'.atSecond.trans h.atSecond.symm) hcode hpart hsecond
  rw [Bool.not_eq_true] at hfirst hsecond
  have hread := (h'.elsewhere code hfirst hsecond).trans (h.elsewhere code hfirst hsecond).symm
  simpa [getCoded, hcode] using hread

theorem Exchanged.symm (h : r.Exchanged first second after) : r.Exchanged second first after :=
  ⟨h.atSecond, h.atFirst, fun code hsecond hfirst => h.elsewhere code hfirst hsecond⟩

theorem exchange_pair (r : Registers) (first second : Byte) : r.exchange (pair first second) =
    (r.setCoded first (r.getCoded second)).setCoded second (r.getCoded first) := by
  unfold exchange
  dsimp only
  rw [r.getCoded_congr (ofCode?_pair_high first second),
    r.getCoded_congr (ofCode?_pair_low first second),
    r.setCoded_congr (ofCode?_pair_high first second),
    setCoded_congr _ (ofCode?_pair_low first second)]

theorem exchange_pair_of_ofCode?_eq (r : Registers) (h : ofCode? first = ofCode? second) :
    r.exchange (pair first second) = r := by
  have hkept : r.setCoded second (r.getCoded second) = r := by
    unfold setCoded getCoded
    cases ofCode? second with
    | some reg => exact r.set_get reg
    | none => rfl
  rw [exchange_pair, r.getCoded_congr h, r.setCoded_congr h, hkept, hkept]

theorem exchanged_iff (h : codesOverlap first second = false) :
    r.Exchanged first second after ↔ after = r.exchange (pair first second) := by
  have hswapped : codesOverlap second first = false := (codesOverlap_comm second first).trans h
  have hexchange : r.Exchanged first second (r.exchange (pair first second)) := by
    rw [exchange_pair]
    refine ⟨?_, ?_, ?_⟩
    · rw [getCoded_setCoded_of_overlap _ _ hswapped, getCoded_setCoded]
    · rw [getCoded_setCoded]
    · intro code hfirst hsecond
      rw [getCoded_setCoded_of_overlap _ _ hsecond, getCoded_setCoded_of_overlap _ _ hfirst]
  constructor
  · intro hafter
    exact hexchange.unique hafter
  · rintro rfl
    exact hexchange

theorem exchange_comm (r : Registers) (h : codesOverlap first second = false) :
    r.exchange (pair second first) = r.exchange (pair first second) := by
  apply (exchanged_iff h).mp
  exact ((exchanged_iff ((codesOverlap_comm second first).trans h)).mpr rfl).symm

section
variable (r : Registers) {reg reg' : TransferRegister} (hfirst : ofCode? first = some reg)
  (hsecond : ofCode? second = some reg')
include hfirst hsecond

theorem heldAt_getCoded (hwide : reg.isWide = reg'.isWide) :
    heldAt first (r.getCoded second) = r.getCoded second := by
  simp only [heldAt, getCoded, hfirst, hsecond]
  exact r.held_get hwide

theorem exchange_of_isWide_eq (hwide : reg.isWide = reg'.isWide) :
    let after := r.exchange (pair first second)
    after.getCoded first = r.getCoded second ∧ after.getCoded second = r.getCoded first ∧
      after.exchange (pair first second) = r := by
  intro after
  by_cases hsame : reg = reg'
  · subst hsame
    have hcode : ofCode? first = ofCode? second := hfirst.trans hsecond.symm
    have hkept : after = r := exchange_pair_of_ofCode?_eq r hcode
    rw [hkept]
    exact ⟨r.getCoded_congr hcode, r.getCoded_congr hcode.symm, hkept⟩
  · have hoverlap : codesOverlap first second = false :=
      (codesOverlap_of_some hfirst hsecond).trans (overlaps_eq_false_of_isWide_eq hsame hwide)
    have hafter : r.Exchanged first second after := (exchanged_iff hoverlap).mpr rfl
    have hswap : after.getCoded first = r.getCoded second :=
      hafter.atFirst.trans (r.heldAt_getCoded hfirst hsecond hwide)
    have hswap' : after.getCoded second = r.getCoded first :=
      hafter.atSecond.trans (r.heldAt_getCoded hsecond hfirst hwide.symm)
    refine ⟨hswap, hswap', ((exchanged_iff hoverlap).mp ⟨?_, ?_, ?_⟩).symm⟩
    · rw [hswap', r.heldAt_getCoded hfirst hfirst rfl]
    · rw [hswap, r.heldAt_getCoded hsecond hsecond rfl]
    · intro code hnot hnot'
      exact (hafter.elsewhere code hnot hnot').symm

theorem exchange_exchange_of_byte (hbyte : reg.isWide = false) (hwide : reg'.isWide = true)
    (hoverlap : codesOverlap first second = false) :
    (r.exchange (pair first second)).exchange (pair first second) =
      r.setCoded second (0xFF00 ||| (r.getCoded second).lowByte.setWidth 16) := by
  have hswapped : codesOverlap second first = false :=
    (codesOverlap_comm second first).trans hoverlap
  have hafter : r.Exchanged first second (r.exchange (pair first second)) :=
    (exchanged_iff hoverlap).mpr rfl
  -- a byte comes to the wide register with ones above it
  have hlow : ∀ value, heldAt first value = 0xFF00 ||| value.lowByte.setWidth 16 := by
    intro value
    simp [heldAt, hfirst, held, hbyte]
  have hall : ∀ value, heldAt second value = value := by
    intro value
    simp [heldAt, hsecond, held, hwide]
  symm
  apply (exchanged_iff hoverlap).mp
  refine ⟨?_, ?_, ?_⟩
  · rw [getCoded_setCoded_of_overlap _ _ hswapped, hafter.atSecond, hall,
      r.heldAt_getCoded hfirst hfirst rfl]
  · rw [getCoded_setCoded, hafter.atFirst, hlow]
  · intro code hnot hnot'
    rw [getCoded_setCoded_of_overlap _ _ hnot', hafter.elsewhere code hnot hnot']

end

end

end Registers

namespace Listing

theorem WellFormed.exists_operand_eq_transfer {l : Listing} (h : l.WellFormed)
    (hop : l.opcode.operation = .tfr ∨ l.opcode.operation = .exg) :
    ∃ postbyte, l.operand = .transfer postbyte := by
  obtain ⟨bytes, -, hspelled⟩ := h.spelled
  have hmodes := Opcode.mode_mem_modes h.defined
  have hmode : l.opcode.mode = .immediate := by
    rcases hop with hop | hop <;> simpa [hop, Operation.modes] using hmodes
  generalize l.operand = form at hspelled
  cases hspelled with
  | transfer postbyte => exact ⟨postbyte, rfl⟩
  | _ => rcases hop with hop | hop <;> simp_all

theorem regs_carryOut_transfer {β : Type} [Bus β] {l : Listing} {postbyte : Byte}
    (h : l.operand = .transfer postbyte) (r : Registers) (bus : β) :
    (l.opcode.operation = .tfr → ((l.carryOut r).run bus).result.regs =
      ({ r with pc := l.nextAddress } : Registers).transfer postbyte) ∧
    (l.opcode.operation = .exg → ((l.carryOut r).run bus).result.regs =
      ({ r with pc := l.nextAddress } : Registers).exchange postbyte) := by
  unfold carryOut Registers.carryOut
  rw [h]
  constructor <;> intro hop <;> rw [hop] <;> rfl

end Listing

namespace Machine

theorem step_of_transfer {β : Type} [Bus β] {m : Machine β} {l : Listing}
    (h : m.executing? = some l)
    (hop : l.opcode.operation = .tfr ∨ l.opcode.operation = .exg) :
    ∃ first second cycles, l.operand = .transfer (pair first second) ∧
      m.stepOutcome.result.cycles = .ok cycles ∧
      let behind : Registers := { m.processor.regs with pc := l.nextAddress }
      (l.opcode.operation = .tfr →
        m.step.processor.regs = behind.setCoded second (behind.getCoded first)) ∧
      (l.opcode.operation = .exg →
        m.step.processor.regs = behind.exchange (pair first second)) := by
  obtain ⟨hwell, hresult⟩ := stepOutcome_of_executing? h
  obtain ⟨postbyte, hoperand⟩ := hwell.exists_operand_eq_transfer hop
  have hregs := l.regs_carryOut_transfer hoperand m.processor.regs
    ((Listing.read m.processor.regs.pc).run m.bus).bus
  simp only [step, hresult]
  refine ⟨postbyte >>> 4, postbyte, _, ?_, rfl, hregs.1, ?_⟩
  · rw [pair_nibbles, hoperand]
  · rw [pair_nibbles]
    exact hregs.2

/-- A write to a code is an assignment to what it names, and an exchange a simultaneous assignment
of two codes, for which their order does not matter. A second exchange undoes it if the registers
are of one width, and else all but the high byte of the wide one. -/
theorem transfers_assign_and_exchanges_swap :
    (∀ reg other : TransferRegister, reg.overlaps other = true ↔
      reg = other ∨ reg = .d ∧ (other = .a ∨ other = .b) ∨ other = .d ∧ (reg = .a ∨ reg = .b)) ∧
    (∀ (r : Registers) (code : Byte) (value : Word),
      (r.setCoded code value).getCoded code = heldAt code value ∧
      (∀ other, codesOverlap code other = false →
        (r.setCoded code value).getCoded other = r.getCoded other) ∧
      (ofCode? code = none → r.setCoded code value = r)) ∧
    (∀ (r : Registers) (first second : Byte),
      r.exchange (pair first first) = r ∧
      (codesOverlap first second = false →
        (∀ after, r.Exchanged first second after ↔ after = r.exchange (pair first second)) ∧
        r.exchange (pair second first) = r.exchange (pair first second)) ∧
      ∀ reg reg', ofCode? first = some reg → ofCode? second = some reg' →
        (reg.isWide = reg'.isWide →
          let after := r.exchange (pair first second)
          after.getCoded first = r.getCoded second ∧ after.getCoded second = r.getCoded first ∧
            after.exchange (pair first second) = r) ∧
        (reg.isWide = false → reg'.isWide = true → codesOverlap first second = false →
          ∀ postbyte ∈ [pair first second, pair second first],
            (r.exchange postbyte).exchange postbyte =
              r.setCoded second (0xFF00 ||| (r.getCoded second).lowByte.setWidth 16))) ∧
    ∀ {β : Type} [Bus β] (m : Machine β) (l : Listing), m.executing? = some l →
      l.opcode.operation = .tfr ∨ l.opcode.operation = .exg →
      ∃ first second cycles, l.operand = .transfer (pair first second) ∧
        m.stepOutcome.result.cycles = .ok cycles ∧
        let behind : Registers := { m.processor.regs with pc := l.nextAddress }
        (∀ code, ofCode? code = some .pc → behind.getCoded code = l.nextAddress) ∧
        (l.opcode.operation = .tfr →
          m.step.processor.regs = behind.setCoded second (behind.getCoded first)) ∧
        (l.opcode.operation = .exg →
          m.step.processor.regs = behind.exchange (pair first second)) := by
  refine ⟨fun _ _ => overlaps_iff, ?_, ?_, ?_⟩
  · intro r code value
    refine ⟨r.getCoded_setCoded value code, ?_, ?_⟩
    · intro other hoverlap
      exact r.getCoded_setCoded_of_overlap value hoverlap
    · intro hundefined
      unfold Registers.setCoded
      rw [hundefined]
  · intro r first second
    refine ⟨Registers.exchange_pair_of_ofCode?_eq r rfl, ?_, ?_⟩
    · intro hoverlap
      exact ⟨fun _ => Registers.exchanged_iff hoverlap, r.exchange_comm hoverlap⟩
    · intro reg reg' hfirst hsecond
      refine ⟨r.exchange_of_isWide_eq hfirst hsecond, ?_⟩
      intro hbyte hwide hoverlap
      have hlost := r.exchange_exchange_of_byte hfirst hsecond hbyte hwide hoverlap
      rintro postbyte hpostbyte
      have hpair : postbyte = pair first second ∨ postbyte = pair second first := by
        simpa using hpostbyte
      rcases hpair with rfl | rfl
      · exact hlost
      · rw [r.exchange_comm hoverlap, Registers.exchange_comm _ hoverlap]
        exact hlost
  · intro β _ m l h hop
    obtain ⟨first, second, cycles, hoperand, hcycles, hregs⟩ := step_of_transfer h hop
    refine ⟨first, second, cycles, hoperand, hcycles, ?_, hregs⟩
    intro code hcode
    simp only [Registers.getCoded, hcode]
    rfl

/-- EXG PC,X goes where X points and leaves in X the address behind it. Two of EXG A,X fill the high
byte of X with ones. -/
theorem exchange_with_pc :
    let regs : Registers := { Registers.initial with x := 0x3045, a := 0x12, pc := 0x2000 }
    let m : Machine Memory := ⟨{ Processor.initial with regs := regs },
      Memory.zero.load 0x2000 [0x1E, 0x51]⟩
    let l : Listing := ⟨0x2000, [0x1E, 0x51], ⟨.zero, 0x1E, .exg, .immediate⟩, .transfer 0x51⟩
    let behind : Registers := { regs with pc := 0x2002 }
    m.executing? = some l ∧ behind.Exchanged 0x5 0x1 m.step.processor.regs ∧
      m.step.processor.regs.x = 0x2002 ∧ m.step.processor.regs.exchange (pair 0x5 0x1) = behind ∧
      (regs.exchange (pair 0x8 0x1)).exchange (pair 0x8 0x1) = { regs with x := 0xFF45 } ∧
      (regs.setCoded 0x8 0x3456).getCoded 0x9 = regs.getCoded 0x9 ∧
      regs.setCoded 0x6 0x3456 = regs := by
  intro regs m l behind
  have h : m.executing? = some l := by decide +kernel
  obtain ⟨-, hassign, hexchange, hstep⟩ := transfers_assign_and_exchanges_swap
  obtain ⟨first, second, cycles, hoperand, -, hpc, -, hexg⟩ := hstep m l h (.inr rfl)
  have hpostbyte : pair first second = pair 0x5 0x1 := (OperandForm.transfer.inj hoperand).symm
  have hregs : m.step.processor.regs = behind.exchange (pair 0x5 0x1) :=
    hpostbyte ▸ hexg rfl
  obtain ⟨-, hdisjoint, hwidths⟩ := hexchange behind 0x5 0x1
  obtain ⟨-, hswap, hback⟩ := (hwidths .pc .x rfl rfl).1 rfl
  obtain ⟨-, -, hlost⟩ := hexchange regs 0x8 0x1
  refine ⟨h, ?_, ?_, ?_, ?_, (hassign regs 0x8 0x3456).2.1 0x9 rfl,
    (hassign regs 0x6 0x3456).2.2 rfl⟩
  · exact ((hdisjoint rfl).1 _).mpr hregs
  · rw [hregs]
    exact hswap.trans (hpc 0x5 rfl)
  · rw [hregs]
    exact hback
  · refine ((hlost .a .x rfl rfl).2 rfl rfl rfl _ List.mem_cons_self).trans ?_
    decide

end Machine

end M6809
