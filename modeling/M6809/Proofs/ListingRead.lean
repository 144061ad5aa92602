import M6809.Listing
import M6809.Proofs.BusLogic
import M6809.Proofs.OpcodeTable

/-!
What a listing is read from. `Encodes` is the grammar of operands; the main statement says that
reading a listing makes reads only, at one address after the other, and that a listed instruction
is spelled by the bytes read.
-/
namespace M6809

/-- The reads that fetch bytes from an address up. -/
def BusAccess.readsFrom (address : Word) : List Byte → List BusAccess
  | [] => []
  | value :: rest => .read address value :: readsFrom (address + 1) rest

theorem BusAccess.length_readsFrom (address : Word) (bytes : List Byte) :
    (readsFrom address bytes).length = bytes.length := by
  induction bytes generalizing address with
  | nil => rfl
  | cons value rest ih => simp [readsFrom, ih]

theorem BusAccess.readsFrom_append (address : Word) (front back : List Byte) :
    readsFrom address (front ++ back) =
      readsFrom address front ++ readsFrom (address + BitVec.ofNat 16 front.length) back := by
  induction front generalizing address with
  | nil => simp [readsFrom]
  | cons value front ih =>
      rw [List.cons_append, readsFrom, readsFrom, ih, Word.add_one_add_ofNat, List.length_cons,
        List.cons_append]

theorem BusAccess.filterMap_write?_readsFrom (address : Word) (bytes : List Byte) :
    (readsFrom address bytes).filterMap write? = [] := by
  induction bytes generalizing address with
  | nil => rfl
  | cons value rest ih => exact (List.filterMap_cons_none rfl).trans (ih (address + 1))

/-- The word whose last bytes, high byte first, are those of a list. -/
def Word.ofBigEndian (bytes : List Byte) : Word :=
  bytes.foldl (fun w value => Word.ofBytes w.lowByte value) 0

theorem Word.ofBigEndian_pair (high low : Byte) : ofBigEndian [high, low] = ofBytes high low := by
  simp only [ofBigEndian, List.foldl_cons, List.foldl_nil, lowByte_ofBytes]

/-- The bytes that select a code of a page. -/
def Page.codeBytes (page : Page) (code : Byte) : List Byte := page.prefixByte?.toList ++ [code]

theorem Page.length_codeBytes_le (page : Page) (code : Byte) :
    (page.codeBytes code).length ≤ 2 := by
  cases page <;> simp [codeBytes, prefixByte?]

/-- The bytes in front of an operand. -/
def Opcode.codeBytes (o : Opcode) : List Byte := o.page.codeBytes o.code

theorem Opcode.length_codeBytes (o : Opcode) : o.codeBytes.length = o.length := by
  unfold codeBytes length
  cases o.page <;> rfl

/-- The operand forms of an opcode with the bytes that give them. `next` is the address behind
these bytes. -/
inductive OperandForm.Encodes (o : Opcode) (next : Word) : List Byte → OperandForm → Prop
  | implied (hmode : o.mode = .inherent) : Encodes o next [] .implied
  | registers (stack : Stack) (mask : Byte) (hmode : o.mode = .immediate)
      (hop : o.operation = .push stack ∨ o.operation = .pull stack) :
      Encodes o next [mask] (.registers stack mask)
  | transfer (postbyte : Byte) (hmode : o.mode = .immediate)
      (hop : o.operation = .tfr ∨ o.operation = .exg) :
      Encodes o next [postbyte] (.transfer postbyte)
  | immediateByte (value : Byte) (hmode : o.mode = .immediate)
      (hop : (∃ op acc, o.operation = .byte op acc) ∨ o.operation = .orcc ∨
        o.operation = .andcc ∨ o.operation = .cwai) :
      Encodes o next [value] (.immediateByte value)
  | immediateWord (high low : Byte) (hmode : o.mode = .immediate)
      (hop : ∃ op reg, o.operation = .word op reg) :
      Encodes o next [high, low] (.immediateWord (Word.ofBytes high low))
  | direct (low : Byte) (hmode : o.mode = .direct) : Encodes o next [low] (.direct low)
  | extended (high low : Byte) (hmode : o.mode = .extended) :
      Encodes o next [high, low] (.extended (Word.ofBytes high low))
  | indexed (postbyte : Byte) (mode : IndexedMode) (extra : List Byte)
      (hmode : o.mode = .indexed) (hpostbyte : IndexedMode.ofPostbyte? postbyte = some mode)
      (hextra : extra.length = mode.extraBytes) :
      Encodes o next (postbyte :: extra) (.indexed mode (Word.ofBigEndian extra))
  | relative (offset : Byte) (hmode : o.mode = .relative) :
      Encodes o next [offset] (.target (next + offset.displacement))
  | longRelative (high low : Byte) (hmode : o.mode = .longRelative) :
      Encodes o next [high, low] (.target (next + Word.ofBytes high low))

namespace Cursor

/-- The cursor behind further bytes. -/
def past (c : Cursor) (bytes : List Byte) : Cursor :=
  ⟨c.next + BitVec.ofNat 16 bytes.length, c.bytes ++ bytes⟩

theorem past_singleton (c : Cursor) (value : Byte) :
    c.past [value] = ⟨c.next + 1, c.bytes ++ [value]⟩ :=
  rfl

theorem past_pair (c : Cursor) (high low : Byte) :
    c.past [high, low] = ⟨c.next + 1 + 1, c.bytes ++ [high] ++ [low]⟩ := by
  simp only [past, List.length_cons, List.length_nil, List.append_assoc, BitVec.add_assoc]
  rfl

theorem past_past (c : Cursor) (front back : List Byte) :
    (c.past front).past back = c.past (front ++ back) := by
  simp only [past, List.append_assoc, List.length_append, BitVec.add_assoc, BitVec.ofNat_add]

/-- Reads of the bytes behind a cursor, which is moved past them. -/
def Fetches (c : Cursor) (bytes : List Byte) (events : List Event) (after : Cursor) : Prop :=
  events = (BusAccess.readsFrom c.next bytes).map .access ∧ after = c.past bytes

theorem ensures_byte (c : Cursor) :
    c.byte.Ensures fun events r => c.Fetches [r.1] events r.2 := by
  intro value
  exact ⟨rfl, c.past_singleton value⟩

theorem Fetches.append {c : Cursor} {front back : List Byte} {events rest : List Event}
    {middle after : Cursor} (h : c.Fetches front events middle)
    (h' : middle.Fetches back rest after) :
    c.Fetches (front ++ back) (events ++ rest) after := by
  obtain ⟨rfl, rfl⟩ := h
  obtain ⟨rfl, rfl⟩ := h'
  refine ⟨?_, past_past c front back⟩
  rw [← List.map_append, BusAccess.readsFrom_append]
  rfl

theorem prefixByte?_of_ofPrefixByte? {page : Page} {first : Byte}
    (h : Page.ofPrefixByte? first = some page) : page.prefixByte? = some first := by
  unfold Page.ofPrefixByte? at h
  split at h
  · cases h
    simp_all [Page.prefixByte?]
  · split at h <;> cases h
    simp_all [Page.prefixByte?]

theorem ensures_code (c : Cursor) :
    c.code.Ensures fun events r => c.Fetches (r.1.codeBytes r.2.1) events r.2.2 := by
  unfold code
  rw [BusM.ensures_bind]
  refine c.ensures_byte.imp ?_
  rintro events ⟨first, middle⟩ hfirst
  dsimp only at hfirst ⊢
  cases hpage : Page.ofPrefixByte? first with
  | some page =>
      rw [BusM.ensures_bind]
      refine middle.ensures_byte.imp ?_
      rintro rest ⟨code, after⟩ hcode
      simp only [BusM.ensures_pure, Page.codeBytes, prefixByte?_of_ofPrefixByte? hpage,
        Option.toList_some, List.append_nil]
      exact hfirst.append hcode
  | none => simpa [Page.codeBytes, Page.prefixByte?] using hfirst

/-- What reading the operand behind a cursor may do and give. -/
def ReadsOperand (c : Cursor) (o : Opcode) (start : Word) (events : List Event) :
    Except Fault (OperandForm × Cursor) → Prop
  | .error fault => ∃ postbyte after, c.Fetches [postbyte] events after ∧ o.mode = .indexed ∧
      IndexedMode.ofPostbyte? postbyte = none ∧ fault = .illegalPostbyte start postbyte
  | .ok (form, after) => ∃ bytes, c.Fetches bytes events after ∧ form.Encodes o after.next bytes

section
variable {c : Cursor} {o : Opcode} {start : Word}

theorem ensures_byteOperand {form : Byte → OperandForm}
    (hform : ∀ value next, (form value).Encodes o next [value]) :
    (c.byteOperand form).Ensures fun events r => c.ReadsOperand o start events (.ok r) := by
  intro value
  exact ⟨[value], ⟨rfl, c.past_singleton value⟩, hform value _⟩

theorem ensures_wordOperand {form : Word → OperandForm}
    (hform : ∀ high low next, (form (Word.ofBytes high low)).Encodes o next [high, low]) :
    (c.wordOperand form).Ensures fun events r => c.ReadsOperand o start events (.ok r) := by
  intro high low
  exact ⟨[high, low], ⟨rfl, (c.past_pair high low).symm⟩, hform high low _⟩

theorem ensures_immediate (hmode : o.mode = .immediate) (hmodes : o.mode ∈ o.operation.modes) :
    (c.immediate o.operation).Ensures fun events r => c.ReadsOperand o start events (.ok r) := by
  rw [hmode] at hmodes
  cases hop : o.operation with
  | push stack =>
      exact ensures_byteOperand fun mask _ => .registers stack mask hmode (.inl hop)
  | pull stack =>
      exact ensures_byteOperand fun mask _ => .registers stack mask hmode (.inr hop)
  | tfr => exact ensures_byteOperand fun postbyte _ => .transfer postbyte hmode (.inl hop)
  | exg => exact ensures_byteOperand fun postbyte _ => .transfer postbyte hmode (.inr hop)
  | word op reg =>
      exact ensures_wordOperand fun high low _ => .immediateWord high low hmode ⟨op, reg, hop⟩
  | byte op acc =>
      exact ensures_byteOperand fun value _ => .immediateByte value hmode (.inl ⟨op, acc, hop⟩)
  | orcc | andcc | cwai =>
      exact ensures_byteOperand fun value _ => .immediateByte value hmode (.inr (by simp [hop]))
  | modify op target => cases target <;> simp [hop, Operation.modes] at hmodes
  | _ => simp [hop, Operation.modes] at hmodes

section
variable {middle : Cursor} {events : List Event} {postbyte : Byte} {mode : IndexedMode}
  (hmode : o.mode = .indexed) (hpostbyte : IndexedMode.ofPostbyte? postbyte = some mode)
  (hfetch : c.Fetches [postbyte] events middle)
include hmode hpostbyte hfetch

theorem ensures_indexed_byte (hbytes : mode.extraBytes = 1) :
    (middle.byteOperand fun low => .indexed mode (Word.ofBytes 0 low)).Ensures
      fun rest r => c.ReadsOperand o start (events ++ rest) (.ok r) := by
  intro low
  have hrest : middle.Fetches [low] _ _ := ⟨rfl, rfl⟩
  exact ⟨postbyte :: [low], hfetch.append hrest,
    .indexed postbyte mode [low] hmode hpostbyte hbytes.symm⟩

theorem ensures_indexed_word (hbytes : mode.extraBytes = 2) :
    (middle.wordOperand (.indexed mode)).Ensures
      fun rest r => c.ReadsOperand o start (events ++ rest) (.ok r) := by
  intro high low
  have hrest : middle.Fetches [high, low] _ _ := ⟨rfl, (middle.past_pair high low).symm⟩
  refine ⟨postbyte :: [high, low], hfetch.append hrest, ?_⟩
  rw [← Word.ofBigEndian_pair]
  exact .indexed postbyte mode [high, low] hmode hpostbyte hbytes.symm

theorem ensures_indexed_none (hbytes : mode.extraBytes = 0) :
    (BusM.done (.ok (.indexed mode 0, middle))).Ensures
      fun rest r => c.ReadsOperand o start (events ++ rest) r := by
  have hrest : middle.Fetches [] [] middle := ⟨rfl, by simp [past]⟩
  exact ⟨postbyte :: [], hfetch.append hrest,
    .indexed postbyte mode [] hmode hpostbyte hbytes.symm⟩

end

theorem ensures_indexed (hmode : o.mode = .indexed) :
    (c.indexed start).Ensures (c.ReadsOperand o start) := by
  unfold indexed
  rw [BusM.ensures_bind]
  refine c.ensures_byte.imp ?_
  rintro events ⟨postbyte, middle⟩ hfetch
  dsimp only at hfetch ⊢
  split
  · rename_i hpostbyte
    refine ⟨postbyte, middle, ?_, hmode, hpostbyte, rfl⟩
    simpa using hfetch
  · rename_i mode hpostbyte
    -- the number of bytes that follow is read off the form on both sides
    obtain ⟨form, register, indirect⟩ := mode
    cases form with
    | offset width | pcOffset width =>
        cases width with
        | byte =>
            rw [BusM.ensures_map]
            exact ensures_indexed_byte hmode hpostbyte hfetch rfl
        | word =>
            rw [BusM.ensures_map]
            exact ensures_indexed_word hmode hpostbyte hfetch rfl
    | absolute =>
        rw [BusM.ensures_map]
        exact ensures_indexed_word hmode hpostbyte hfetch rfl
    | _ => exact ensures_indexed_none hmode hpostbyte hfetch rfl

theorem ensures_operand (hmodes : o.mode ∈ o.operation.modes) :
    (c.operand o start).Ensures (c.ReadsOperand o start) := by
  unfold operand
  split
  · rename_i hmode
    exact ⟨[], ⟨rfl, by simp [past]⟩, .implied hmode⟩
  · rename_i hmode
    rw [BusM.ensures_map]
    exact ensures_immediate hmode hmodes
  · rename_i hmode
    rw [BusM.ensures_map]
    exact ensures_byteOperand fun low _ => .direct low hmode
  · rename_i hmode
    rw [BusM.ensures_map]
    exact ensures_wordOperand fun high low _ => .extended high low hmode
  · rename_i hmode
    exact ensures_indexed hmode
  · rename_i hmode
    intro offset
    exact ⟨[offset], ⟨rfl, c.past_singleton offset⟩, .relative offset hmode⟩
  · rename_i hmode
    intro high low
    refine ⟨[high, low], ⟨rfl, (c.past_pair high low).symm⟩, .longRelative high low hmode⟩

end

end Cursor

namespace Listing

/-- The opcode is in the table, and the bytes spell it and the operand. -/
structure WellFormed (l : Listing) : Prop where
  defined : Opcode.ofCode? l.opcode.page l.opcode.code = some l.opcode
  spelled : ∃ operandBytes, l.bytes = l.opcode.codeBytes ++ operandBytes ∧
    l.operand.Encodes l.opcode l.nextAddress operandBytes

/-- What reading the instruction at an address may do and give. -/
def Reads (address : Word) (events : List Event) (result : Except Fault Listing) : Prop :=
  ∃ bytes, events = (BusAccess.readsFrom address bytes).map .access ∧
    match result with
    | .error fault => fault.address = address ∧ bytes.length ≤ 3
    | .ok l => l.address = address ∧ l.bytes = bytes ∧ l.WellFormed

theorem ensures_read (address : Word) : (read address).Ensures (Reads address) := by
  unfold read
  rw [BusM.ensures_bind]
  refine (Cursor.ensures_code ⟨address, []⟩).imp ?_
  rintro events ⟨page, code, c⟩ hcode
  dsimp only at hcode ⊢
  cases ho : Opcode.ofCode? page code with
  | none =>
      have hlength := page.length_codeBytes_le code
      exact ⟨page.codeBytes code, by simpa using hcode.1, rfl, by omega⟩
  | some o =>
      obtain ⟨rfl, rfl⟩ := Opcode.page_code_of_ofCode? ho
      rw [BusM.ensures_bind]
      refine (Cursor.ensures_operand (Opcode.mode_mem_modes ho)).imp ?_
      rintro rest (fault | ⟨operand, after⟩) hread
      · obtain ⟨postbyte, after, hfetch, -, -, rfl⟩ := hread
        have hread : Cursor.Fetches _ (o.codeBytes ++ [postbyte]) _ after := hcode.append hfetch
        have hlength := o.page.length_codeBytes_le o.code
        refine ⟨o.codeBytes ++ [postbyte], by simpa using hread.1, rfl, ?_⟩
        simp only [Opcode.codeBytes, List.length_append, List.length_singleton]
        omega
      · obtain ⟨bytes, hfetch, hspelled⟩ := hread
        have hread : Cursor.Fetches _ (o.codeBytes ++ bytes) _ after := hcode.append hfetch
        obtain ⟨hevents, rfl⟩ := hread
        exact ⟨o.codeBytes ++ bytes, by simpa using hevents, rfl, rfl, ho, bytes, rfl, hspelled⟩

theorem run_read_of_ok {β : Type} [Bus β] {bus : β} {address : Word} {l : Listing}
    (h : ((read address).run bus).result = .ok l) :
    l.address = address ∧ l.WellFormed ∧
      ((read address).run bus).accesses = BusAccess.readsFrom address l.bytes := by
  obtain ⟨bytes, hactions, hread⟩ := (ensures_read address).run bus
  rw [h] at hread
  obtain ⟨haddress, rfl, hwell⟩ := hread
  refine ⟨haddress, hwell, ?_⟩
  rw [BusM.accesses_run, hactions, Event.filterMap_access?_map]

end Listing

end M6809
