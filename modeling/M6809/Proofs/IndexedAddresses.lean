import M6809.Memory
import M6809.Proofs.AccessSequence
import M6809.Proofs.ByteChains
import M6809.Proofs.PostbyteTable

/-!
Where indexed operands are. `Selects` says what the bytes behind PC select, in integers; the main
statement says that every legal postbyte selects this on every bus, and what follows for offsets of
several widths and for an address that is stepped forth and back.
-/
namespace M6809

open BusAccess

namespace IndexForm

/-- How many bytes there are behind the postbyte. -/
def offsetLength : IndexForm → Nat
  | short _ | increment _ | decrement _ | plain | accumulator _ | pair => 0
  | offset .byte | pcOffset .byte => 1
  | offset .word | pcOffset .word | absolute => 2

theorem offsetLength_eq (form : IndexForm) : form.offsetLength = form.extraBytes := by
  cases form with
  | offset width | pcOffset width => cases width <;> rfl
  | _ => rfl

/-- The forms of a constant displacement, each with the bytes behind its postbyte. -/
inductive Displaces (k : Int) : IndexForm → List Byte → Prop
  | plain (h : k = 0) : Displaces k .plain []
  | short (hlow : -16 ≤ k) (hhigh : k < 16) : Displaces k (.short (BitVec.ofInt 5 k)) []
  | byte (hlow : -128 ≤ k) (hhigh : k < 128) : Displaces k (.offset .byte) [BitVec.ofInt 8 k]
  | word (hlow : -32768 ≤ k) (hhigh : k < 32768) :
      Displaces k (.offset .word) [BitVec.ofInt 8 (k / 256), BitVec.ofInt 8 k]
  | pcByte (hlow : -128 ≤ k) (hhigh : k < 128) : Displaces k (.pcOffset .byte) [BitVec.ofInt 8 k]
  | pcWord (hlow : -32768 ≤ k) (hhigh : k < 32768) :
      Displaces k (.pcOffset .word) [BitVec.ofInt 8 (k / 256), BitVec.ofInt 8 k]

end IndexForm

namespace IndexedMode

/-- PC behind the postbyte and what follows it. -/
def next (mode : IndexedMode) (r : Registers) : Word :=
  r.pc + BitVec.ofNat 16 (1 + mode.form.offsetLength)

/-- The number in two's complement that bytes denote, high byte first. -/
def signed (extra : List Byte) : Int := (number extra.reverse).toInt

/-- The address that a mode selects, before it wraps and before indirection. -/
def reach (mode : IndexedMode) (r : Registers) (extra : List Byte) : Int :=
  let base := (r.index mode.register).toNat
  match mode.form with
  | .short n => base + n.toInt
  | .increment _ | .plain => base
  | .decrement .one => base - 1
  | .decrement .two => base - 2
  | .accumulator .a => base + r.a.toInt
  | .accumulator .b => base + r.b.toInt
  | .pair => base + (256 * r.a.toNat + r.b.toNat)
  | .offset _ => base + signed extra
  | .pcOffset _ => (mode.next r).toNat + signed extra
  | .absolute => signed extra

def place (mode : IndexedMode) (r : Registers) (extra : List Byte) : Word :=
  BitVec.ofInt 16 (mode.reach r extra)

/-- The registers once an operand is found: PC has passed it, and the base has moved. -/
def registersAfter (mode : IndexedMode) (r : Registers) : Registers :=
  { r with pc := mode.next r }.setIndex mode.register
    (BitVec.ofInt 16 ((r.index mode.register).toNat + mode.form.motion))

theorem signed_singleton (b : Byte) : signed [b] = b.toInt :=
  congrArg BitVec.toInt (number_singleton b)

theorem signed_pair (high low : Byte) : signed [high, low] = (Word.ofBytes high low).toInt :=
  congrArg BitVec.toInt (number_pair low high)

theorem signed_byte {k : Int} (hlow : -128 ≤ k) (hhigh : k < 128) :
    signed [BitVec.ofInt 8 k] = k := by
  rw [signed_singleton]
  exact BitVec.toInt_ofInt_eq_self (by decide) hlow hhigh

theorem signed_word {k : Int} (hlow : -32768 ≤ k) (hhigh : k < 32768) :
    signed [BitVec.ofInt 8 (k / 256), BitVec.ofInt 8 k] = k := by
  have hhead : (BitVec.ofInt 8 (k / 256)).toInt = k / 256 :=
    BitVec.toInt_ofInt_eq_self (by decide) (by omega) (by omega)
  rw [signed_pair, Word.toInt_ofBytes, hhead, BitVec.toNat_ofInt]
  omega

theorem extend_ofBigEndian (width : OffsetWidth) {extra : List Byte}
    (h : extra.length = width.bytes) :
    width.extend (Word.ofBigEndian extra) = BitVec.ofInt 16 (signed extra) := by
  cases width with
  | byte =>
      obtain ⟨b, rfl⟩ := List.length_eq_one_iff.mp h
      have hlow : (Word.ofBigEndian [b]).lowByte = b := Word.lowByte_ofBytes _ b
      rw [signed_singleton, OffsetWidth.extend, hlow]
      rfl
  | word =>
      match extra, h with
      | [high, low], _ =>
          rw [signed_pair, OffsetWidth.extend, Word.ofBigEndian_pair, BitVec.ofInt_toInt]

theorem ofInt_toNat_add (w : Word) (k : Int) :
    BitVec.ofInt 16 (w.toNat + k) = w + BitVec.ofInt 16 k := by
  rw [BitVec.ofInt_add, BitVec.ofInt_natCast, BitVec.ofNat_toNat, BitVec.setWidth_eq]

theorem ofInt_d (r : Registers) : BitVec.ofInt 16 (256 * r.a.toNat + r.b.toNat) = r.d := by
  have hd : (256 * r.a.toNat + r.b.toNat : Int) = ((r.a.toNat * 256 + r.b.toNat : Nat) : Int) := by
    push_cast
    omega
  rw [hd, BitVec.ofInt_natCast]
  rfl

theorem address_eq_place {mode : IndexedMode} {extra : List Byte}
    (h : extra.length = mode.form.offsetLength) (r : Registers) :
    mode.address { r with pc := mode.next r } (Word.ofBigEndian extra) = mode.place r extra := by
  obtain ⟨form, register, indirect⟩ := mode
  rw [IndexForm.offsetLength_eq] at h
  simp only [address, place, reach, IndexForm.address, Registers.index_setPc]
  cases form with
  | short n => exact (ofInt_toNat_add _ _).symm
  | plain | increment step => simp
  | decrement step => cases step <;> simp [Int.sub_eq_add_neg, ofInt_toNat_add, AutoStep.distance,
      BitVec.sub_eq_add_neg]
  | accumulator reg => cases reg <;> exact (ofInt_toNat_add _ _).symm
  | pair =>
      simp only [ofInt_toNat_add, ofInt_d]
      rfl
  | offset width | pcOffset width => simp only [ofInt_toNat_add, extend_ofBigEndian width h]
  | absolute => exact extend_ofBigEndian .word h

theorem moved_next (mode : IndexedMode) (fetched : Word) (r : Registers) :
    (OperandForm.indexed mode fetched).moved { r with pc := mode.next r } =
      mode.registersAfter r := by
  rw [OperandForm.moved, registersAfter, Registers.index_setPc, ofInt_toNat_add]

theorem registersAfter_of_motion_eq_zero {mode : IndexedMode} (h : mode.form.motion = 0)
    (r : Registers) : mode.registersAfter r = { r with pc := mode.next r } := by
  rw [← moved_next mode 0, OperandForm.moved_of_motion_eq_zero h]

/-- Where a constant displacement is counted from. -/
def origin (mode : IndexedMode) (r : Registers) : Word :=
  match mode.form with
  | .pcOffset _ => mode.next r
  | _ => r.index mode.register

/-- Where a form counts a constant displacement from, and the displacement. -/
def displacement? (mode : IndexedMode) (r : Registers) (extra : List Byte) : Option (Word × Int) :=
  match mode.form with
  | .short n => some (mode.origin r, n.toInt)
  | .plain => some (mode.origin r, 0)
  | .offset _ | .pcOffset _ => some (mode.origin r, signed extra)
  | _ => none

theorem place_of_displacement? {mode : IndexedMode} {r : Registers} {extra : List Byte}
    {origin : Word} {k : Int} (h : mode.displacement? r extra = some (origin, k)) :
    mode.form.motion = 0 ∧ mode.place r extra = BitVec.ofInt 16 (origin.toNat + k) := by
  obtain ⟨form, register, indirect⟩ := mode
  cases form with
  | short n | plain | offset width | pcOffset width =>
      obtain ⟨rfl, rfl⟩ := Prod.mk.inj (Option.some.inj h)
      simp [IndexForm.motion, place, reach, origin]
  | _ => cases h

theorem displacement?_of_displaces {mode : IndexedMode} {k : Int} {extra : List Byte}
    (h : mode.form.Displaces k extra) (r : Registers) :
    extra.length = mode.form.offsetLength ∧
      mode.displacement? r extra = some (mode.origin r, k) := by
  obtain ⟨form, register, indirect⟩ := mode
  cases h with
  | plain hzero => exact ⟨rfl, by simp only [displacement?, hzero]⟩
  | short hlow hhigh =>
      have hvalue : (BitVec.ofInt 5 k).toInt = k :=
        BitVec.toInt_ofInt_eq_self (by decide) hlow hhigh
      exact ⟨rfl, by simp only [displacement?, hvalue]⟩
  | byte hlow hhigh | pcByte hlow hhigh =>
      exact ⟨rfl, by simp only [displacement?, signed_byte hlow hhigh]⟩
  | word hlow hhigh | pcWord hlow hhigh =>
      exact ⟨rfl, by simp only [displacement?, signed_word hlow hhigh]⟩

theorem place_of_step_back {mode mode' : IndexedMode} {step : AutoStep}
    (hforth : mode.form = .increment step) (hback : mode'.form = .decrement step)
    {r r' : Registers} (h : r'.index mode'.register = (mode.registersAfter r).index mode.register)
    (extra extra' : List Byte) :
    (mode'.registersAfter r').index mode'.register = r.index mode.register ∧
      mode'.place r' extra' = mode.place r extra := by
  have hbase : r'.index mode'.register = r.index mode.register + step.distance := by
    rw [h, registersAfter, Registers.index_setIndex, ofInt_toNat_add, hforth,
      IndexForm.ofInt_motion_increment]
  have hstep : BitVec.ofInt 16 ((r'.index mode'.register).toNat + mode'.form.motion) =
      r.index mode.register := by
    rw [ofInt_toNat_add, hbase, hback, IndexForm.ofInt_motion_decrement,
      ← BitVec.sub_eq_add_neg, BitVec.add_sub_cancel]
  refine ⟨(Registers.index_setIndex _ _ _).trans hstep, ?_⟩
  have hplace : mode.place r extra = r.index mode.register := by
    simp [place, reach, hforth]
  rw [hplace, ← hstep, place, reach, hback]
  cases step <;> rfl

/-- What the bytes from PC on select: those behind the postbyte, and the word that an indirect mode
then reads at the place. -/
structure Selects {β : Type} (mode : IndexedMode) (r : Registers) (extra : List Byte)
    (operand : Operand) (o : Outcome β (Except Trap Operand)) : Prop where
  result : o.result = .ok operand
  length : extra.length = mode.form.offsetLength
  regs : operand.regs = mode.registersAfter r
  accesses : ∃ behind, o.accesses = readsFrom r.pc (mode.postbyte :: extra) ++ behind ∧
    if mode.indirect then
      ∃ high low, behind = readsFrom (mode.place r extra) [high, low] ∧
        operand.address = Word.ofBytes high low
    else behind = [] ∧ operand.address = mode.place r extra

theorem Selects.address_of_direct {β : Type} {mode : IndexedMode} {r : Registers}
    {extra : List Byte} {operand : Operand} {o : Outcome β (Except Trap Operand)}
    (h : mode.Selects r extra operand o) (hdirect : mode.indirect = false) :
    operand.address = mode.place r extra := by
  obtain ⟨behind, -, haddress⟩ := h.accesses
  rw [hdirect] at haddress
  exact haddress.2

end IndexedMode

theorem Registers.ensures_fetchExtra (r : Registers) {n : Nat} (hn : n ≤ 2) :
    (r.fetchExtra n).Ensures fun events x => ∃ extra : List Byte, extra.length = n ∧
      events.filterMap Event.access? = readsFrom r.pc extra ∧
      x = (Word.ofBigEndian extra, { r with pc := r.pc + BitVec.ofNat 16 n }) := by
  match n, hn with
  | 0, _ => exact ⟨[], rfl, rfl, by simp [Word.ofBigEndian]⟩
  | 1, _ => exact fun low => ⟨[low], rfl, rfl, rfl⟩
  | 2, _ =>
      intro high low
      refine ⟨[high, low], rfl, rfl, ?_⟩
      simp [Word.ofBigEndian_pair, BitVec.add_assoc]

namespace Operand

/-- The operand of a mode, with PC behind the postbyte. -/
def ofDecoded (mode : IndexedMode) (r : Registers) : BusM (Except Trap Operand) := do
  let (fetched, r) ← r.fetchExtra mode.extraBytes
  let operand ← ofMode mode fetched r
  pure (.ok operand)

theorem ensures_ofDecoded (mode : IndexedMode) (r : Registers) :
    (ofDecoded mode { r with pc := r.pc + 1 }).Ensures fun events result =>
      ∃ extra operand, result = .ok operand ∧ extra.length = mode.form.offsetLength ∧
        operand.regs = mode.registersAfter r ∧
        ∃ behind, events.filterMap Event.access? = readsFrom (r.pc + 1) extra ++ behind ∧
          if mode.indirect then
            ∃ high low, behind = readsFrom (mode.place r extra) [high, low] ∧
              operand.address = Word.ofBytes high low
          else behind = [] ∧ operand.address = mode.place r extra := by
  have hbytes : mode.extraBytes = mode.form.offsetLength := mode.form.offsetLength_eq.symm
  have hfew := mode.extraBytes_le
  unfold ofDecoded
  rw [BusM.ensures_bind]
  rw [hbytes] at hfew ⊢
  refine (Registers.ensures_fetchExtra _ hfew).imp ?_
  rintro events ⟨fetched, behind⟩ ⟨extra, hlength, hextra, hfetched⟩
  obtain ⟨rfl, rfl⟩ := Prod.mk.inj hfetched
  have hnext : r.pc + 1 + BitVec.ofNat 16 mode.form.offsetLength = mode.next r := by
    rw [IndexedMode.next, BitVec.ofNat_add, BitVec.add_assoc]
    rfl
  rw [BusM.ensures_bind]
  refine ((OperandForm.indexed mode _).ensures_locate_accesses _).imp ?_
  rintro rest operand ⟨hlocates, hregs⟩
  simp only [hnext, OperandForm.Locates, IndexedMode.moved_next,
    IndexedMode.address_eq_place hlength] at hlocates hregs
  refine ⟨extra, operand, rfl, hlength, hregs, _, ?_, hlocates⟩
  rw [List.append_nil, List.filterMap_append, hextra]

theorem selects_of_ofPostbyte? {β : Type} [Bus β] {bus : β} {r : Registers} {mode : IndexedMode}
    (h : IndexedMode.ofPostbyte? (Bus.read bus r.pc).1 = some mode) (start : Word) :
    ∃ extra operand, mode.Selects r extra operand ((indexed start r).run bus) := by
  -- the postbyte is what this bus reads, so the mode is known only behind that read
  obtain ⟨next, hread, hdecoded⟩ : ∃ next : Byte → BusM (Except Trap Operand),
      indexed start r = BusM.read r.pc next ∧
        next (Bus.read bus r.pc).1 = ofDecoded mode { r with pc := r.pc + 1 } := by
    refine ⟨_, rfl, ?_⟩
    simp only [BusM.bind, pure, h]
    rfl
  obtain ⟨extra, operand, hresult, hlength, hregs, behind, haccesses, haddress⟩ :=
    (ensures_ofDecoded mode r).run (Bus.read bus r.pc).2
  rw [← hdecoded] at hresult haccesses
  rw [hread]
  refine ⟨extra, operand, hresult, hlength, hregs, behind, ?_, haddress⟩
  rw [BusM.accesses_run, BusM.actions, List.filterMap_cons, haccesses,
    (IndexedMode.ofPostbyte?_eq_some_iff.mp h).2]
  rfl

/-- Every legal postbyte selects a place and moves at most its base. Forms with one displacement
agree on the place and move nothing; a step back undoes a step forth. -/
theorem indexed_addresses {β γ : Type} [Bus β] [Bus γ] {bus : β} {r : Registers}
    {mode : IndexedMode} (h : IndexedMode.ofPostbyte? (Bus.read bus r.pc).1 = some mode)
    (start : Word) :
    (∀ b m, IndexedMode.ofPostbyte? b = some m ↔ m.IsLegal ∧ m.postbyte = b) ∧
    (∀ m : IndexedMode, m.extraBytes = m.form.offsetLength) ∧
    (∀ (m : IndexedMode) (k : Int) (extra : List Byte), m.form.Displaces k extra →
      ∀ r, extra.length = m.form.offsetLength ∧ m.displacement? r extra = some (m.origin r, k)) ∧
    ∃ extra operand, mode.Selects r extra operand ((indexed start r).run bus) ∧
      (mode.form.motion = 0 → operand.regs = { r with pc := mode.next r }) ∧
      ∀ (bus' : γ) (start' : Word) (r' : Registers) (mode' : IndexedMode) (extra' : List Byte)
        (operand' : Operand), mode'.Selects r' extra' operand' ((indexed start' r').run bus') →
        (∀ d, mode.displacement? r extra = some d → mode'.displacement? r' extra' = some d →
          mode'.place r' extra' = mode.place r extra ∧
          operand.regs = { r with pc := mode.next r } ∧
          operand'.regs = { r' with pc := mode'.next r' } ∧
          (mode.indirect = false → mode'.indirect = false → operand'.address = operand.address)) ∧
        (∀ step, mode.form = .increment step → mode'.form = .decrement step →
          r'.index mode'.register = operand.regs.index mode.register →
          mode'.place r' extra' = mode.place r extra ∧
          operand'.regs.index mode'.register = r.index mode.register ∧
          (mode.indirect = false → mode'.indirect = false →
            operand'.address = operand.address)) := by
  refine ⟨fun b m => IndexedMode.ofPostbyte?_eq_some_iff, fun m => m.form.offsetLength_eq.symm,
    fun m k extra hk r => IndexedMode.displacement?_of_displaces hk r, ?_⟩
  obtain ⟨extra, operand, hfirst⟩ := selects_of_ofPostbyte? h start
  have hunmoved : mode.form.motion = 0 → operand.regs = { r with pc := mode.next r } := by
    intro hmotion
    rw [hfirst.regs, IndexedMode.registersAfter_of_motion_eq_zero hmotion]
  refine ⟨extra, operand, hfirst, hunmoved, ?_⟩
  intro bus' start' r' mode' extra' operand' hsecond
  have haddress (hplace : mode'.place r' extra' = mode.place r extra)
      (hdirect : mode.indirect = false) (hdirect' : mode'.indirect = false) :
      operand'.address = operand.address := by
    rw [hfirst.address_of_direct hdirect, hsecond.address_of_direct hdirect', hplace]
  constructor
  · rintro ⟨origin, k⟩ hd hd'
    obtain ⟨hmotion, hplace⟩ := IndexedMode.place_of_displacement? hd
    obtain ⟨hmotion', hplace'⟩ := IndexedMode.place_of_displacement? hd'
    have hsame : mode'.place r' extra' = mode.place r extra := hplace'.trans hplace.symm
    refine ⟨hsame, hunmoved hmotion, ?_, haddress hsame⟩
    rw [hsecond.regs, IndexedMode.registersAfter_of_motion_eq_zero hmotion']
  · intro step hforth hback hbase
    rw [hfirst.regs] at hbase
    obtain ⟨hindex, hplace⟩ := IndexedMode.place_of_step_back hforth hback hbase extra extra'
    refine ⟨hplace, ?_, haddress hplace⟩
    rw [hsecond.regs, hindex]

/-- A displacement of -1 in each width, with X at the bottom of memory, and `,X++` with X at the
top and then `,--X`. -/
theorem displaced_and_stepped_across_the_top :
    let offsets := ((Memory.zero.load 0x2000 [0x1F]).load 0x2100 [0x88, 0xFF]).load 0x2200
      [0x89, 0xFF, 0xFF]
    let bus := (offsets.load 0x3000 [0x81]).load 0x3100 [0x83]
    let regs (pc x : Word) : Registers := { Registers.initial with pc, x }
    let found (pc x : Word) := ((indexed (pc - 1) (regs pc x)).run bus).result
    ∃ short byte word forth back, found 0x2000 0x0000 = .ok short ∧
      found 0x2100 0x0000 = .ok byte ∧ found 0x2200 0x0000 = .ok word ∧
      short.regs = regs 0x2001 0x0000 ∧ byte.regs = regs 0x2102 0x0000 ∧
      word.regs = regs 0x2203 0x0000 ∧ short.address = 0xFFFF ∧
      byte.address = short.address ∧ word.address = short.address ∧
      found 0x3000 0xFFFF = .ok forth ∧ found 0x3100 0x0001 = .ok back ∧
      forth.regs = regs 0x3001 0x0001 ∧ back.regs.x = 0xFFFF ∧ back.address = forth.address := by
  intro offsets bus regs found
  let mode (form : IndexForm) : IndexedMode := ⟨form, .x, false⟩
  have hshort : IndexedMode.ofPostbyte? (Bus.read bus 0x2000).1 = some (mode (.short (-1))) := by
    decide +kernel
  have hforth : IndexedMode.ofPostbyte? (Bus.read bus 0x3000).1 =
      some (mode (.increment .two)) := by
    decide +kernel
  have hback : IndexedMode.ofPostbyte? (Bus.read bus 0x3100).1 =
      some (mode (.decrement .two)) := by
    decide +kernel
  have hbyte : (mode (.offset .byte)).Selects (regs 0x2100 0x0000) [0xFF]
      ⟨0xFFFF, 1, regs 0x2102 0x0000⟩ ((indexed 0x20FF (regs 0x2100 0x0000)).run bus) :=
    ⟨by decide +kernel, rfl, by decide +kernel, [], by decide +kernel, rfl, by decide +kernel⟩
  have hword : (mode (.offset .word)).Selects (regs 0x2200 0x0000) [0xFF, 0xFF]
      ⟨0xFFFF, 4, regs 0x2203 0x0000⟩ ((indexed 0x21FF (regs 0x2200 0x0000)).run bus) :=
    ⟨by decide +kernel, rfl, by decide +kernel, [], by decide +kernel, rfl, by decide +kernel⟩
  obtain ⟨-, -, hwidths, extra, short, hfirst, -, hboth⟩ :=
    indexed_addresses (γ := Memory) (r := regs 0x2000 0x0000) hshort 0x1FFF
  obtain rfl := List.length_eq_zero_iff.mp hfirst.length
  have hdisplaced := hwidths (mode (.short (-1))) (-1) [] (.short (by decide) (by decide))
  have hdisplaced' := hwidths (mode (.offset .byte)) (-1) [0xFF] (.byte (by decide) (by decide))
  have hdisplaced'' := hwidths (mode (.offset .word)) (-1) [0xFF, 0xFF]
    (.word (by decide) (by decide))
  obtain ⟨-, hregs, -, haddress⟩ :=
    (hboth bus 0x20FF _ _ _ _ hbyte).1 (0, -1) (hdisplaced _).2 (hdisplaced' _).2
  obtain ⟨-, -, -, haddress'⟩ :=
    (hboth bus 0x21FF _ _ _ _ hword).1 (0, -1) (hdisplaced _).2 (hdisplaced'' _).2
  have hplace : (mode (.short (-1))).place (regs 0x2000 0x0000) [] = 0xFFFF := by decide +kernel
  obtain ⟨-, -, -, extra, forth, hforward, -, hsteps⟩ :=
    indexed_addresses (γ := Memory) (r := regs 0x3000 0xFFFF) hforth 0x2FFF
  obtain ⟨extra', back, hbackward⟩ :=
    selects_of_ofPostbyte? (r := regs 0x3100 0x0001) hback 0x30FF
  have hmoved : forth.regs = regs 0x3001 0x0001 := by
    rw [hforward.regs]
    decide +kernel
  have hbase : (regs 0x3100 0x0001).index .x = forth.regs.index .x := by
    rw [hmoved]
    rfl
  obtain ⟨-, hx, hsame⟩ := (hsteps bus 0x30FF _ _ extra' back hbackward).2 .two rfl rfl hbase
  exact ⟨short, _, _, forth, back, hfirst.result, hbyte.result, hword.result, hregs, rfl, rfl,
    (hfirst.address_of_direct rfl).trans hplace, haddress rfl rfl, haddress' rfl rfl,
    hforward.result, hbackward.result, hmoved, hx, hsame rfl rfl⟩

end Operand

end M6809
