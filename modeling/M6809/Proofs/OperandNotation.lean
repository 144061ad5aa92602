import M6809.Proofs.SpareBits
import M6809.Proofs.StackRoundTrip
import Mathlib.Data.List.Nodup

/-!
What the text of an operand tells. A number, a list of registers and an indexed mode are each told
by their text; the main statement says that operands of one opcode, one length and one text differ
only in bits that do not matter.
-/
namespace M6809

/-- A text is cut in one way in front of the first character that is not allowed in its front. -/
theorem cut_unique {α : Type} {allowed : α → Prop} {front front' back back' : List α}
    (hfront : ∀ c ∈ front, allowed c) (hfront' : ∀ c ∈ front', allowed c)
    (hback : ∀ c ∈ back.head?, ¬allowed c) (hback' : ∀ c ∈ back'.head?, ¬allowed c)
    (h : front ++ back = front' ++ back') : front = front' ∧ back = back' := by
  classical
  have htake : ∀ {l r : List α}, (∀ c ∈ l, allowed c) → (∀ c ∈ r.head?, ¬allowed c) →
      (l ++ r).takeWhile (allowed ·) = l := by
    intro l r hl hr
    rw [List.takeWhile_append_of_pos (by simpa using hl)]
    cases r with
    | nil => exact List.append_nil l
    | cons c r => simp_all
  obtain rfl : front = front' := by rw [← htake hfront hback, h, htake hfront' hback']
  exact ⟨rfl, List.append_cancel_left h⟩

theorem intercalate_unique {α : Type} [DecidableEq α] {sep : α} {parts parts' : List (List α)}
    (hparts : ∀ l ∈ parts, l ≠ [] ∧ sep ∉ l) (hparts' : ∀ l ∈ parts', l ≠ [] ∧ sep ∉ l)
    (h : [sep].intercalate parts = [sep].intercalate parts') : parts = parts' := by
  -- splitting the text at the separator gives the parts back
  have hsplit : ∀ {ls : List (List α)}, (∀ l ∈ ls, l ≠ [] ∧ sep ∉ l) →
      ls = (([sep].intercalate ls).splitOn sep).filter (· ≠ []) := by
    intro ls hls
    by_cases hnil : ls = []
    · subst hnil
      rfl
    · rw [List.splitOn_intercalate sep (fun l hl => (hls l hl).2) hnil]
      exact (List.filter_eq_self.mpr fun l hl => by simpa using (hls l hl).1).symm
  rw [hsplit hparts, h, ← hsplit hparts']

theorem Word.bytes_eq_of_ofBytes_eq {high low high' low' : Byte}
    (h : ofBytes high low = ofBytes high' low') : [high, low] = [high', low'] := by
  have hbytes := congrArg Word.bytes h
  simpa [bytes] using hbytes

/-- A text as a number in base 128, which is quicker to compare than a text. -/
def textNumber (text : String) : Nat := text.toList.foldl (fun n c => 128 * n + c.toNat) 0

namespace Hex

/-- The characters of numbers. -/
def symbols : List Char := "$-0123456789ABCDEF".toList

theorem mem_symbols_of_mem_digits {count n : Nat} {c : Char} (h : c ∈ digits count n) :
    c ∈ symbols := by
  have hdigit : ∀ d : Fin 16, digit d ∈ symbols := by decide
  induction count generalizing n with
  | zero => cases h
  | succ count ih =>
      rcases List.mem_append.mp h with h | h
      · exact ih h
      · obtain rfl := List.mem_singleton.mp h
        exact hdigit ⟨n % 16, Nat.mod_lt n (by decide)⟩

theorem eq_of_digits_eq (count : Nat) {width : Nat} {v v' : BitVec width}
    (hwidth : Nat.pow 2 width = Nat.pow 16 count)
    (h : digits count v.toNat = digits count v'.toNat) : v = v' := by
  apply BitVec.eq_of_toNat_eq
  have hlt : ∀ v : BitVec width, v.toNat < Nat.pow 2 width := fun v => v.isLt
  have hmod := mod_eq_of_digits_eq h
  rwa [← hwidth, Nat.mod_eq_of_lt (hlt v), Nat.mod_eq_of_lt (hlt v')] at hmod

theorem byte_injective : Function.Injective byte := fun _ _ h =>
  eq_of_digits_eq 2 rfl (String.ofList_injective h)

theorem word_injective : Function.Injective word := fun _ _ h =>
  eq_of_digits_eq 4 rfl (String.ofList_injective h)

theorem toList_byte (b : Byte) : (byte b).toList = digits 2 b.toNat := String.toList_ofList

theorem toList_word (w : Word) : (word w).toList = digits 4 w.toNat := String.toList_ofList

theorem toList_signed (b : Byte) : (signed b).toList =
    if b.msb then '-' :: '$' :: digits 2 (-b).toNat else '$' :: digits 2 b.toNat := by
  unfold signed
  split
  · exact String.toList_append.trans (congrArg _ (toList_byte _))
  · exact String.toList_append.trans (congrArg _ (toList_byte _))

theorem signed_injective : Function.Injective signed := by
  intro b b' h
  have htext := congrArg String.toList h
  rw [toList_signed, toList_signed] at htext
  by_cases hb : b.msb = true <;> by_cases hb' : b'.msb = true
  · rw [if_pos hb, if_pos hb'] at htext
    have hneg : -b = -b' := eq_of_digits_eq 2 rfl (by simpa using htext)
    exact BitVec.neg_inj.mp hneg
  · simp [hb, hb'] at htext
  · simp [hb, hb'] at htext
  · rw [if_neg hb, if_neg hb'] at htext
    exact eq_of_digits_eq 2 rfl (by simpa using htext)

theorem mem_symbols_of_mem_signed {b : Byte} {c : Char} (h : c ∈ (signed b).toList) :
    c ∈ symbols := by
  have hsigns : '-' ∈ symbols ∧ '$' ∈ symbols := by decide
  rw [toList_signed] at h
  split at h
  · rcases List.mem_cons.mp h with rfl | h
    · exact hsigns.1
    · rcases List.mem_cons.mp h with rfl | h
      · exact hsigns.2
      · exact mem_symbols_of_mem_digits h
  · rcases List.mem_cons.mp h with rfl | h
    · exact hsigns.2
    · exact mem_symbols_of_mem_digits h

end Hex

namespace OffsetWidth

theorem mem_symbols_of_mem_text {width : OffsetWidth} {fetched : Word} {c : Char}
    (h : c ∈ (width.text fetched).toList) : c ∈ Hex.symbols := by
  cases width with
  | byte => exact Hex.mem_symbols_of_mem_signed h
  | word =>
      rw [text, String.toList_append] at h
      rcases List.mem_append.mp h with h | h
      · have hdollar : '$' ∈ Hex.symbols := by decide
        obtain rfl : c = '$' := List.mem_singleton.mp h
        exact hdollar
      · change c ∈ (Hex.word fetched).toList at h
        rw [Hex.toList_word] at h
        exact Hex.mem_symbols_of_mem_digits h

theorem eq_of_text_eq {width : OffsetWidth} {extra extra' : List Byte}
    (hextra : extra.length = width.bytes) (hextra' : extra'.length = width.bytes)
    (h : width.text (Word.ofBigEndian extra) = width.text (Word.ofBigEndian extra')) :
    extra = extra' := by
  cases width with
  | byte =>
      obtain ⟨b, rfl⟩ := List.length_eq_one_iff.mp hextra
      obtain ⟨b', rfl⟩ := List.length_eq_one_iff.mp hextra'
      have hlow : ∀ b : Byte, (Word.ofBigEndian [b]).lowByte = b :=
        fun b => Word.lowByte_ofBytes _ b
      rw [text, text, hlow, hlow] at h
      rw [Hex.signed_injective h]
  | word =>
      obtain ⟨high, low, rfl⟩ := List.length_eq_two.mp hextra
      obtain ⟨high', low', rfl⟩ := List.length_eq_two.mp hextra'
      rw [Word.ofBigEndian_pair, Word.ofBigEndian_pair] at h
      have hword := Hex.word_injective ((String.append_right_inj "$").mp h)
      exact Word.bytes_eq_of_ofBytes_eq hword

end OffsetWidth

namespace IndexForm

/-- The width of the number that is fetched for a form. -/
def width? : IndexForm → Option OffsetWidth
  | offset width | pcOffset width => some width
  | absolute => some .word
  | _ => none

/-- What a form shows behind its number. -/
def tail (form : IndexForm) (base : String) : List Char :=
  match form with
  | pcOffset _ => [',', 'P', 'C', 'R']
  | absolute => []
  | _ => ',' :: base.toList

theorem extraBytes_eq (form : IndexForm) :
    form.extraBytes = (form.width?.map OffsetWidth.bytes).getD 0 := by
  cases form <;> rfl

theorem width?_eq_of_extraBytes_eq {form form' : IndexForm}
    (h : form.extraBytes = form'.extraBytes) : form.width? = form'.width? := by
  rw [extraBytes_eq, extraBytes_eq] at h
  generalize form.width? = width at h ⊢
  generalize form'.width? = width' at h ⊢
  rcases width with _ | _ | _ <;> rcases width' with _ | _ | _ <;> first | rfl | cases h

section
variable {form : IndexForm} {width : OffsetWidth} (h : form.width? = some width)
include h

theorem eq_of_width? :
    form = .offset width ∨ form = .pcOffset width ∨ form = .absolute ∧ width = .word := by
  cases form with
  | offset _ | pcOffset _ | absolute =>
      cases h
      simp
  | _ => cases h

theorem toList_text_of_width? (base : String) (fetched : Word) :
    (form.text base fetched).toList = (width.text fetched).toList ++ form.tail base := by
  obtain rfl | rfl | ⟨rfl, rfl⟩ := eq_of_width? h
  · simp [text, tail, toString]
  · simp [text, tail, toString]
  · simp [text, tail, OffsetWidth.text, toString]

end

end IndexForm

namespace IndexRegister

theorem length_name (reg : IndexRegister) : reg.name.toList.length = 1 := by
  cases reg <;> rfl

theorem name_injective : Function.Injective name := by
  intro reg reg' h
  cases reg <;> cases reg' <;> first | rfl | exact absurd h (by decide)

end IndexRegister

namespace IndexedMode

def opening (mode : IndexedMode) : List Char := if mode.indirect then ['['] else []

/-- What is shown behind the number. -/
def closing (mode : IndexedMode) : List Char :=
  mode.form.tail mode.register.name ++ if mode.indirect then [']'] else []

theorem toList_text_of_width? {mode : IndexedMode} {width : OffsetWidth}
    (h : mode.form.width? = some width) (fetched : Word) :
    (mode.text fetched).toList =
      (mode.opening ++ (width.text fetched).toList) ++ mode.closing := by
  have hform := IndexForm.toList_text_of_width? h mode.register.name fetched
  unfold text opening closing
  cases mode.indirect <;> simp [toString, hform]

theorem mem_front (mode : IndexedMode) {width : OffsetWidth} {fetched : Word} :
    ∀ c ∈ mode.opening ++ (width.text fetched).toList, c ∈ '[' :: Hex.symbols := by
  intro c hc
  rcases List.mem_append.mp hc with hc | hc
  · unfold opening at hc
    split at hc
    · exact List.mem_cons.mpr (.inl (List.mem_singleton.mp hc))
    · cases hc
  · exact List.mem_cons_of_mem _ (OffsetWidth.mem_symbols_of_mem_text hc)

section
variable {mode mode' : IndexedMode} {width : OffsetWidth} (h : mode.form.width? = some width)
  (h' : mode'.form.width? = some width) (hlegal : mode.IsLegal) (hlegal' : mode'.IsLegal)
include h

include hlegal in
theorem head?_closing : ∀ c ∈ mode.closing.head?, c ∉ '[' :: Hex.symbols := by
  obtain ⟨form, register, indirect⟩ := mode
  obtain rfl | rfl | ⟨rfl, rfl⟩ := IndexForm.eq_of_width? h
  · rintro c ⟨⟩
    decide
  · rintro c ⟨⟩
    decide
  · obtain rfl : indirect = true := hlegal
    rintro c ⟨⟩
    decide

include h'

theorem form_indirect_of_length (hlength : mode.closing.length = mode'.closing.length) :
    mode.form = mode'.form ∧ mode.indirect = mode'.indirect := by
  obtain ⟨form, register, indirect⟩ := mode
  obtain ⟨form', register', indirect'⟩ := mode'
  -- the five lengths are 2 and 3, 4 and 5, and 1
  obtain rfl | rfl | ⟨rfl, rfl⟩ := IndexForm.eq_of_width? h <;>
    obtain rfl | rfl | ⟨rfl, -⟩ := IndexForm.eq_of_width? h' <;>
    cases indirect <;> cases indirect' <;>
    simp [closing, IndexForm.tail, IndexRegister.length_name] at hlength ⊢

theorem alike_of_closing_eq (hclosing : mode.closing = mode'.closing) : mode.Alike mode' := by
  obtain ⟨hform, hindirect⟩ := form_indirect_of_length h h' (congrArg List.length hclosing)
  rw [closing, closing, ← hform, ← hindirect] at hclosing
  have htail := List.append_cancel_right hclosing
  refine ⟨hform, hindirect, fun hbase => ?_⟩
  obtain hoffset | hoffset | ⟨hoffset, -⟩ := IndexForm.eq_of_width? h
  · rw [hoffset] at htail
    exact IndexRegister.name_injective (String.toList_inj.mp (List.cons.inj htail).2)
  · rw [hoffset] at hbase
    cases hbase
  · rw [hoffset] at hbase
    cases hbase

include hlegal hlegal'

theorem alike_of_numbered_text {fetched fetched' : Word}
    (htext : mode.text fetched = mode'.text fetched') :
    mode.Alike mode' ∧ width.text fetched = width.text fetched' := by
  have hlists := congrArg String.toList htext
  rw [toList_text_of_width? h, toList_text_of_width? h'] at hlists
  obtain ⟨hfront, hclosing⟩ := cut_unique (mem_front mode) (mem_front mode')
    (head?_closing h hlegal) (head?_closing h' hlegal') hlists
  have halike := alike_of_closing_eq h h' hclosing
  rw [opening, opening, halike.indirect] at hfront
  exact ⟨halike, String.toList_inj.mp (List.append_cancel_left hfront)⟩

end

/-- The modes whose text has no number that is fetched. -/
def unnumbered : List IndexedMode :=
  (List.range 256).filterMap fun b =>
    (ofPostbyte? (BitVec.ofNat 8 b)).filter (·.form.width? = none)

theorem mem_unnumbered {mode : IndexedMode} (hlegal : mode.IsLegal)
    (h : mode.form.width? = none) : mode ∈ unnumbered := by
  apply List.mem_filterMap.mpr
  refine ⟨mode.postbyte.toNat, List.mem_range.mpr mode.postbyte.isLt, ?_⟩
  rw [BitVec.ofNat_toNat, BitVec.setWidth_eq, ofPostbyte?_postbyte hlegal]
  simp [h]

theorem nodup_text_unnumbered : (unnumbered.map fun mode => textNumber (mode.text 0)).Nodup := by
  decide +kernel

theorem alike_of_text {mode mode' : IndexedMode} (hlegal : mode.IsLegal) (hlegal' : mode'.IsLegal)
    {extra extra' : List Byte} (hextra : extra.length = mode.extraBytes)
    (hextra' : extra'.length = mode'.extraBytes) (hlength : extra.length = extra'.length)
    (htext : mode.text (Word.ofBigEndian extra) = mode'.text (Word.ofBigEndian extra')) :
    mode.Alike mode' ∧ extra = extra' := by
  have hbytes : mode.extraBytes = mode'.extraBytes := by rw [← hextra, hlength, hextra']
  have hwidth := IndexForm.width?_eq_of_extraBytes_eq hbytes
  rw [hbytes, extraBytes, IndexForm.extraBytes_eq] at hextra
  rw [extraBytes, IndexForm.extraBytes_eq] at hextra'
  cases h' : mode'.form.width? with
  | none =>
      have h : mode.form.width? = none := hwidth.trans h'
      rw [h'] at hextra hextra'
      obtain rfl := List.length_eq_zero_iff.mp hextra
      obtain rfl := List.length_eq_zero_iff.mp hextra'
      obtain rfl := List.inj_on_of_nodup_map nodup_text_unnumbered (mem_unnumbered hlegal h)
        (mem_unnumbered hlegal' h') (congrArg textNumber htext)
      exact ⟨⟨rfl, rfl, fun _ => rfl⟩, rfl⟩
  | some width =>
      obtain ⟨halike, hnumber⟩ := alike_of_numbered_text (hwidth.trans h') h' hlegal hlegal' htext
      rw [h'] at hextra hextra'
      exact ⟨halike, OffsetWidth.eq_of_text_eq hextra hextra' hnumber⟩

end IndexedMode

namespace FrameRegister

theorem name_injective (stack : Stack) : Function.Injective (name stack) := by
  intro reg reg' h
  cases stack <;> cases reg <;> cases reg' <;> first | rfl | exact absurd h (by decide)

theorem toList_name (stack : Stack) (reg : FrameRegister) :
    (reg.name stack).toList ≠ [] ∧ ',' ∉ (reg.name stack).toList := by
  cases stack <;> cases reg <;> decide

theorem mask_unique {stack : Stack} {mask mask' : Byte}
    (h : (OperandForm.registers stack mask).text = (OperandForm.registers stack mask').text) :
    mask = mask' := by
  have hlists := congrArg String.toList h
  rw [OperandForm.text, OperandForm.text, String.toList_intercalate,
    String.toList_intercalate] at hlists
  have hnames : ∀ mask, ∀ l ∈ ((selected mask).map (name stack)).map String.toList,
      l ≠ [] ∧ ',' ∉ l := by
    intro mask l hl
    rw [List.map_map] at hl
    obtain ⟨reg, -, rfl⟩ := List.mem_map.mp hl
    exact toList_name stack reg
  have hmap := intercalate_unique (hnames mask) (hnames mask') hlists
  have hselected : selected mask = selected mask' :=
    (List.map_injective_iff.mpr (name_injective stack))
      (List.map_injective_iff.mpr (fun _ _ => String.toList_inj.mp) hmap)
  apply BitVec.eq_of_getLsbD_eq
  intro i hi
  have hbit : ∀ i < 8, ∃ reg ∈ all, reg.bit = i := by decide
  obtain ⟨reg, -, rfl⟩ := hbit i hi
  rw [Bool.eq_iff_iff, ← mem_selected_iff, ← mem_selected_iff, hselected]

end FrameRegister

namespace TransferRegister

theorem name_injective : Function.Injective name := by
  intro reg reg' h
  cases reg <;> cases reg' <;> first | rfl | exact absurd h (by decide)

theorem ofCode?_eq_of_codeText_eq {code code' : Byte} (h : codeText code = codeText code') :
    ofCode? code = ofCode? code' := by
  have hname : ∀ reg : TransferRegister, reg.name ≠ "?" := by
    intro reg
    cases reg <;> decide
  unfold codeText at h
  cases hcode : ofCode? code with
  | none =>
      cases hcode' : ofCode? code' with
      | none => rfl
      | some reg' =>
          rw [hcode, hcode'] at h
          exact absurd h.symm (hname reg')
  | some reg =>
      cases hcode' : ofCode? code' with
      | none =>
          rw [hcode, hcode'] at h
          exact absurd h (hname reg)
      | some reg' =>
          rw [hcode, hcode'] at h
          exact congrArg some (name_injective h)

theorem comma_notMem_codeText (code : Byte) : ',' ∉ (codeText code).toList := by
  unfold codeText
  cases ofCode? code with
  | none => decide
  | some reg => cases reg <;> decide

theorem codes_unique {postbyte postbyte' : Byte}
    (h : (OperandForm.transfer postbyte).text = (OperandForm.transfer postbyte').text) :
    ofCode? (postbyte >>> 4) = ofCode? (postbyte' >>> 4) ∧
      ofCode? postbyte = ofCode? postbyte' := by
  have hlists := congrArg String.toList h
  simp only [OperandForm.text, toString, String.toList_append, List.append_assoc] at hlists
  have hback : ∀ code, ∀ c ∈ (",".toList ++ (codeText code).toList).head?, ¬c ≠ ',' := by
    rintro code c ⟨⟩ hc
    exact hc rfl
  obtain ⟨hsource, hrest⟩ := cut_unique
    (fun c hc => ne_of_mem_of_not_mem hc (comma_notMem_codeText _))
    (fun c hc => ne_of_mem_of_not_mem hc (comma_notMem_codeText _)) (hback _) (hback _) hlists
  have hdestination := List.append_cancel_left hrest
  exact ⟨ofCode?_eq_of_codeText_eq (String.toList_inj.mp hsource),
    ofCode?_eq_of_codeText_eq (String.toList_inj.mp hdestination)⟩

end TransferRegister

theorem Byte.displacement_injective : Function.Injective displacement := by
  intro b b' h
  have hlow : ∀ b : Byte, b.displacement.lowByte = b := by decide +kernel
  rw [← hlow b, h, hlow]

namespace OperandForm

/-- An operand without its bytes. -/
def blank : OperandForm → OperandForm
  | implied => implied
  | registers stack _ => registers stack 0
  | transfer _ => transfer 0
  | immediateByte _ => immediateByte 0
  | immediateWord _ => immediateWord 0
  | direct _ => direct 0
  | extended _ => extended 0
  | indexed _ _ => indexed ⟨.plain, .x, false⟩ 0
  | target _ => target 0

/-- The operand of an opcode, without its bytes. -/
def blankOf (o : Opcode) : OperandForm :=
  match o.mode with
  | .inherent => implied
  | .immediate =>
    match o.operation with
    | .push stack | .pull stack => registers stack 0
    | .tfr | .exg => transfer 0
    | .word _ _ => immediateWord 0
    | _ => immediateByte 0
  | .direct => direct 0
  | .extended => extended 0
  | .indexed => indexed ⟨.plain, .x, false⟩ 0
  | .relative | .longRelative => target 0

section
variable {o : Opcode} {next : Word} {bytes bytes' : List Byte} {form form' : OperandForm}

theorem Encodes.blank_eq (h : form.Encodes o next bytes) : form.blank = blankOf o := by
  cases h with
  | registers stack mask hmode hop =>
      rcases hop with hop | hop <;> simp [blankOf, blank, hmode, hop]
  | transfer postbyte hmode hop =>
      rcases hop with hop | hop <;> simp [blankOf, blank, hmode, hop]
  | immediateByte value hmode hop =>
      rcases hop with ⟨_, _, hop⟩ | hop | hop | hop <;> simp [blankOf, blank, hmode, hop]
  | immediateWord high low hmode hop =>
      obtain ⟨_, _, hop⟩ := hop
      simp [blankOf, blank, hmode, hop]
  | implied hmode | direct low hmode | extended high low hmode | indexed _ _ _ hmode
  | relative offset hmode | longRelative high low hmode => simp [blankOf, blank, hmode]

theorem Encodes.alike_of_text (h : form.Encodes o next bytes) (h' : form'.Encodes o next bytes')
    (hlength : bytes.length = bytes'.length) (htext : form.text = form'.text) :
    o.SpelledAlike bytes bytes' ∧
      ∀ (r : Registers) (next : Word), r.carryOut o form next = r.carryOut o form' next := by
  have hblank : form.blank = form'.blank := h.blank_eq.trans h'.blank_eq.symm
  cases h with
  | implied hmode =>
      cases h' with
      | implied => exact ⟨.same [], fun _ _ => rfl⟩
      | _ => cases hblank
  | registers stack mask hmode hop =>
      cases h' with
      | registers stack' mask' =>
          cases hblank
          obtain rfl := FrameRegister.mask_unique htext
          exact ⟨.same _, fun _ _ => rfl⟩
      | _ => cases hblank
  | transfer postbyte hmode hop =>
      cases h' with
      | transfer postbyte' =>
          obtain ⟨hsource, hdestination⟩ := TransferRegister.codes_unique htext
          exact ⟨Opcode.spelledAlike_of_codes hop hsource hdestination,
            fun r next => r.carryOut_transfer_congr hop hsource hdestination next⟩
      | _ => cases hblank
  | immediateByte value hmode hop =>
      cases h' with
      | immediateByte value' =>
          obtain rfl := Hex.byte_injective ((String.append_right_inj "#$").mp htext)
          exact ⟨.same _, fun _ _ => rfl⟩
      | _ => cases hblank
  | immediateWord high low hmode hop =>
      cases h' with
      | immediateWord high' low' =>
          have hword := Hex.word_injective ((String.append_right_inj "#$").mp htext)
          rw [hword, Word.bytes_eq_of_ofBytes_eq hword]
          exact ⟨.same _, fun _ _ => rfl⟩
      | _ => cases hblank
  | direct low hmode =>
      cases h' with
      | direct low' =>
          obtain rfl := Hex.byte_injective ((String.append_right_inj "<$").mp htext)
          exact ⟨.same _, fun _ _ => rfl⟩
      | _ => cases hblank
  | extended high low hmode =>
      cases h' with
      | extended high' low' =>
          have hword := Hex.word_injective ((String.append_right_inj "$").mp htext)
          rw [hword, Word.bytes_eq_of_ofBytes_eq hword]
          exact ⟨.same _, fun _ _ => rfl⟩
      | _ => cases hblank
  | indexed postbyte mode extra hmode hpostbyte hextra =>
      cases h' with
      | indexed postbyte' mode' extra' _ hpostbyte' hextra' =>
          obtain ⟨hlegal, -⟩ := IndexedMode.ofPostbyte?_eq_some_iff.mp hpostbyte
          obtain ⟨hlegal', -⟩ := IndexedMode.ofPostbyte?_eq_some_iff.mp hpostbyte'
          obtain ⟨halike, rfl⟩ := IndexedMode.alike_of_text hlegal hlegal' hextra hextra'
            (Nat.succ.inj hlength) htext
          exact ⟨Opcode.spelledAlike_of_modes hmode hpostbyte hpostbyte' halike extra,
            fun r next => r.carryOut_indexed_congr halike.sameResolution o _ next⟩
      | _ => cases hblank
  | relative offset hmode =>
      cases h' with
      | relative offset' =>
          have hword := Hex.word_injective ((String.append_right_inj "$").mp htext)
          obtain rfl := Byte.displacement_injective (BitVec.add_right_inj next |>.mp hword)
          exact ⟨.same _, fun _ _ => rfl⟩
      | longRelative => cases hlength
      | _ => cases hblank
  | longRelative high low hmode =>
      cases h' with
      | relative offset' => cases hlength
      | longRelative high' low' =>
          have hword := Hex.word_injective ((String.append_right_inj "$").mp htext)
          have hoffset := (BitVec.add_right_inj next).mp hword
          rw [hoffset, Word.bytes_eq_of_ofBytes_eq hoffset]
          exact ⟨.same _, fun _ _ => rfl⟩
      | _ => cases hblank

end

end OperandForm

end M6809
