import M6809.Proofs.OperandNotation

namespace M6809

/-- The mode whose notation an operand is written in: a branch shows its target as an address. -/
def AddressingMode.shown : AddressingMode → AddressingMode
  | relative | longRelative => extended
  | mode => mode

/-- The mode that the text of an operand shows, unless it lists registers. -/
def shownMode (text : List Char) : AddressingMode :=
  if ',' ∈ text ∨ '[' ∈ text then .indexed
  else if '#' ∈ text then .immediate
  else if '<' ∈ text then .direct
  else if text = [] then .inherent
  else .extended

theorem Hex.notMem_digits {c : Char} (hc : c ∉ symbols) (count n : Nat) : c ∉ digits count n :=
  fun h => hc (mem_symbols_of_mem_digits h)

theorem shownMode_number (sign : String) {text : String} {count n : Nat}
    (htext : text.toList = Hex.digits count n)
    (hsign : ',' ∉ sign.toList ∧ '[' ∉ sign.toList ∧ sign.toList ≠ []) :
    shownMode (sign ++ text).toList = shownMode sign.toList := by
  have hnot := fun c hc => Hex.notMem_digits (c := c) hc count n
  simp [shownMode, htext, hnot ',' (by decide), hnot '[' (by decide), hnot '#' (by decide),
    hnot '<' (by decide), hsign]

namespace IndexedMode

theorem comma_mem_text {form : IndexForm} (h : form ≠ .absolute) (base : String) (fetched : Word) :
    ',' ∈ (form.text base fetched).toList := by
  cases form with
  | absolute => exact absurd rfl h
  | _ => simp [IndexForm.text, toString]

theorem shownMode_text {mode : IndexedMode} (h : mode.IsLegal) (fetched : Word) :
    shownMode (mode.text fetched).toList = .indexed := by
  apply if_pos
  unfold text
  cases hindirect : mode.indirect with
  | true => simp [toString]
  | false =>
      left
      apply comma_mem_text
      intro hform
      rw [IsLegal, hform, hindirect] at h
      cases h

end IndexedMode

theorem OperandForm.Encodes.shownMode_eq {o : Opcode} {next : Word} {bytes : List Byte}
    {form : OperandForm} (h : form.Encodes o next bytes)
    (hop : o.operation.takesPostbyte = false) : shownMode form.text.toList = o.mode.shown := by
  cases h with
  | registers stack mask hmode hregisters =>
      rcases hregisters with heq | heq <;> rw [heq] at hop <;> cases hop
  | transfer postbyte hmode htransfer =>
      rcases htransfer with heq | heq <;> rw [heq] at hop <;> cases hop
  | implied hmode =>
      rw [hmode]
      rfl
  | immediateByte value hmode =>
      rw [hmode]
      exact shownMode_number "#$" (Hex.toList_byte value) (by decide)
  | immediateWord high low hmode =>
      rw [hmode]
      exact shownMode_number "#$" (Hex.toList_word _) (by decide)
  | direct low hmode =>
      rw [hmode]
      exact shownMode_number "<$" (Hex.toList_byte low) (by decide)
  | extended high low hmode =>
      rw [hmode]
      exact shownMode_number "$" (Hex.toList_word _) (by decide)
  | indexed postbyte mode extra hmode hpostbyte =>
      rw [hmode]
      exact IndexedMode.shownMode_text (IndexedMode.ofPostbyte?_eq_some_iff.mp hpostbyte).1 _
  | relative offset hmode | longRelative high low hmode =>
      rw [hmode]
      exact shownMode_number "$" (Hex.toList_word _) (by decide)

namespace Opcode

/-- The mnemonics of the operations with a list or a pair of registers. -/
def registerMnemonics : List String := ["PSHS", "PSHU", "PULS", "PULU", "TFR", "EXG"]

theorem mnemonic_facts : ∀ o ∈ all, o.mnemonic.length < 6 ∧ ' ' ∉ o.mnemonic.toList ∧
    o.operation.takesPostbyte = registerMnemonics.contains o.mnemonic := by
  decide +kernel

theorem nodup_mnemonic :
    ∀ mode ∈ [AddressingMode.inherent, .immediate, .direct, .extended, .indexed],
      ((all.filter (·.mode.shown = mode)).map fun o => textNumber o.mnemonic).Nodup := by
  decide +kernel

theorem eq_of_mnemonic_eq {o o' : Opcode} (h : o ∈ all) (h' : o' ∈ all)
    (hmnemonic : o.mnemonic = o'.mnemonic) (hshown : o.mode.shown = o'.mode.shown) : o = o' := by
  have hmode : o.mode.shown ∈
      [AddressingMode.inherent, .immediate, .direct, .extended, .indexed] := by
    cases o.mode <;> decide
  -- the opcodes of one shown mode have different mnemonics
  apply List.inj_on_of_nodup_map (nodup_mnemonic _ hmode)
  · simp [h]
  · simp [h', hshown]
  · exact congrArg textNumber hmnemonic

end Opcode

namespace Listing

/-- The blanks and the operand behind a mnemonic. -/
def column (l : Listing) : List Char :=
  if l.operand.text.isEmpty then []
  else List.replicate (6 - l.opcode.mnemonic.length) ' ' ++ l.operand.text.toList

theorem toList_text (l : Listing) : l.text.toList = l.opcode.mnemonic.toList ++ l.column := by
  unfold text column
  split <;> simp_all [Opcode.mnemonicColumn]

theorem head?_column {l : Listing} (h : l.opcode ∈ Opcode.all) :
    ∀ c ∈ l.column.head?, ¬c ≠ ' ' := by
  have hlength := (Opcode.mnemonic_facts l.opcode h).1
  unfold column
  split
  · rintro c ⟨⟩
  · obtain ⟨n, hn⟩ := Nat.exists_eq_succ_of_ne_zero (Nat.sub_ne_zero_of_lt hlength)
    rw [hn]
    rintro c ⟨⟩
    simp

theorem column_eq_nil_iff {l : Listing} : l.column = [] ↔ l.operand.text = "" := by
  unfold column
  split <;> simp_all

theorem operandText_eq_of_column_eq {l l' : Listing}
    (hmnemonic : l.opcode.mnemonic = l'.opcode.mnemonic) (h : l.column = l'.column) :
    l.operand.text = l'.operand.text := by
  by_cases hempty : l.operand.text = ""
  · rw [hempty, column_eq_nil_iff.mp (h.symm.trans (column_eq_nil_iff.mpr hempty))]
  · have hempty' : l'.operand.text ≠ "" := by
      intro heq
      exact hempty (column_eq_nil_iff.mp (h.trans (column_eq_nil_iff.mpr heq)))
    rw [column, column, if_neg (String.isEmpty_iff.not.mpr hempty),
      if_neg (String.isEmpty_iff.not.mpr hempty'), hmnemonic] at h
    exact String.toList_inj.mp (List.append_cancel_left h)

theorem parts_of_text_eq {l l' : Listing} (h : l.opcode ∈ Opcode.all) (h' : l'.opcode ∈ Opcode.all)
    (htext : l.text = l'.text) :
    l.opcode.mnemonic = l'.opcode.mnemonic ∧ l.operand.text = l'.operand.text := by
  have hlists := congrArg String.toList htext
  rw [toList_text, toList_text] at hlists
  obtain ⟨htoList, hcolumn⟩ := cut_unique
    (fun c hc => ne_of_mem_of_not_mem hc (Opcode.mnemonic_facts _ h).2.1)
    (fun c hc => ne_of_mem_of_not_mem hc (Opcode.mnemonic_facts _ h').2.1)
    (head?_column h) (head?_column h') hlists
  have hmnemonic := String.toList_inj.mp htoList
  exact ⟨hmnemonic, operandText_eq_of_column_eq hmnemonic hcolumn⟩

theorem WellFormed.notation_unique {l l' : Listing} (h : l.WellFormed) (h' : l'.WellFormed)
    (htext : l.text = l'.text) : l.opcode = l'.opcode ∧ l.operand.text = l'.operand.text := by
  have hall := Opcode.mem_all_iff.mpr h.defined
  have hall' := Opcode.mem_all_iff.mpr h'.defined
  obtain ⟨hmnemonic, hoperand⟩ := parts_of_text_eq hall hall' htext
  have hop : l.opcode.operation.takesPostbyte = l'.opcode.operation.takesPostbyte := by
    rw [(Opcode.mnemonic_facts _ hall).2.2, (Opcode.mnemonic_facts _ hall').2.2, hmnemonic]
  refine ⟨Opcode.eq_of_mnemonic_eq hall hall' hmnemonic ?_, hoperand⟩
  obtain ⟨operand, -, hspelled⟩ := h.spelled
  obtain ⟨operand', -, hspelled'⟩ := h'.spelled
  cases htakes : l.opcode.operation.takesPostbyte with
  | true =>
      rw [Opcode.mode_eq_immediate (Opcode.mode_mem_modes h.defined) htakes,
        Opcode.mode_eq_immediate (Opcode.mode_mem_modes h'.defined) (hop ▸ htakes)]
  | false =>
      rw [← hspelled.shownMode_eq htakes, hoperand, hspelled'.shownMode_eq (hop ▸ htakes)]

/-- The text of an instruction of known length at a known address identifies it, but for the bits of
a base register that is not used and for codes without a register. These bits do not matter: such
modes resolve to the same operand, and such a code reads as all ones and ignores what is written
to it. -/
theorem text_identifies_instruction :
    (∀ {β γ : Type} [Bus β] [Bus γ] (bus : β) (bus' : γ) (address : Word) (l l' : Listing),
      ((read address).run bus).result = .ok l → ((read address).run bus').result = .ok l' →
      l.length = l'.length → l.text = l'.text →
        l.opcode = l'.opcode ∧
        (∃ operand operand', l.bytes = l.opcode.codeBytes ++ operand ∧
          l'.bytes = l.opcode.codeBytes ++ operand' ∧ l.opcode.SpelledAlike operand operand') ∧
        ∀ r, l.carryOut r = l'.carryOut r) ∧
    (∀ (postbyte postbyte' : Byte) (mode : IndexedMode),
      IndexedMode.ofPostbyte? postbyte = some mode → mode.form.usesBase = false →
      postbyte &&& 0x9F = postbyte' &&& 0x9F →
        ∃ mode', IndexedMode.ofPostbyte? postbyte' = some mode' ∧ mode.SameResolution mode') ∧
    ∀ code : Byte, code.toNat % 16 ∈ TransferRegister.undefinedCodes →
      ∀ r : Registers, r.getCoded code = 0xFFFF ∧ ∀ value, r.setCoded code value = r := by
  refine ⟨?_, ?_, ?_⟩
  · intro β γ _ _ bus bus' address l l' hread hread' hlength htext
    obtain ⟨haddress, hwell, -⟩ := run_read_of_ok hread
    obtain ⟨haddress', hwell', -⟩ := run_read_of_ok hread'
    obtain ⟨hopcode, hoperand⟩ := hwell.notation_unique hwell' htext
    obtain ⟨operand, hbytes, hspelled⟩ := hwell.spelled
    obtain ⟨operand', hbytes', hspelled'⟩ := hwell'.spelled
    have hnext : l.nextAddress = l'.nextAddress := by
      rw [nextAddress, nextAddress, haddress, haddress', hlength]
    rw [← hopcode, ← hnext] at hspelled'
    rw [← hopcode] at hbytes'
    have hoperands : operand.length = operand'.length := by
      rw [length, length, hbytes, hbytes', List.length_append, List.length_append] at hlength
      exact Nat.add_left_cancel hlength
    obtain ⟨halike, hcarry⟩ := hspelled.alike_of_text hspelled' hoperands hoperand
    refine ⟨hopcode, ⟨operand, operand', hbytes, hbytes', halike⟩, fun r => ?_⟩
    rw [carryOut, carryOut, ← hopcode, ← hnext]
    exact hcarry r l.nextAddress
  · intro postbyte postbyte' mode hpostbyte hbase hbits
    obtain ⟨mode', hpostbyte', halike⟩ :=
      IndexedMode.exists_alike_of_postbyte_and hpostbyte hbase hbits
    exact ⟨mode', hpostbyte', halike.sameResolution⟩
  · intro code hcode r
    have hnone := TransferRegister.ofCode?_eq_none hcode
    unfold Registers.getCoded Registers.setCoded
    rw [hnone]
    exact ⟨rfl, fun value => rfl⟩

/-- LDA with an offset from PC, under two postbytes. -/
theorem text_of_two_spellings :
    let m := Memory.zero.load 0x2000 [0xA6, 0x8C, 0x05]
    let m' := Memory.zero.load 0x2000 [0xA6, 0xEC, 0x05]
    (∃ l l', ((read 0x2000).run m).result = .ok l ∧ ((read 0x2000).run m').result = .ok l' ∧
      l.text = "LDA   $05,PCR" ∧ l'.text = "LDA   $05,PCR" ∧ l.bytes ≠ l'.bytes ∧
      ∀ r, l.carryOut r = l'.carryOut r) ∧
    (∃ mode', IndexedMode.ofPostbyte? 0xEC = some mode' ∧
      IndexedMode.SameResolution ⟨.pcOffset .byte, .x, false⟩ mode') ∧
    Registers.initial.getCoded 0x07 = 0xFFFF := by
  intro m m'
  let l : Listing := ⟨0x2000, [0xA6, 0x8C, 0x05], ⟨.zero, 0xA6, .byte .ld .a, .indexed⟩,
    .indexed ⟨.pcOffset .byte, .x, false⟩ 5⟩
  let l' : Listing := ⟨0x2000, [0xA6, 0xEC, 0x05], ⟨.zero, 0xA6, .byte .ld .a, .indexed⟩,
    .indexed ⟨.pcOffset .byte, .s, false⟩ 5⟩
  have hread : ((read 0x2000).run m).result = .ok l := by decide +kernel
  have hread' : ((read 0x2000).run m').result = .ok l' := by decide +kernel
  have htext : l.text = "LDA   $05,PCR" := by decide +kernel
  have htext' : l'.text = "LDA   $05,PCR" := by decide +kernel
  obtain ⟨hidentifies, hmodes, hcodes⟩ := text_identifies_instruction
  obtain ⟨-, -, hcarry⟩ := hidentifies m m' 0x2000 l l' hread hread' rfl
    (htext.trans htext'.symm)
  exact ⟨⟨l, l', hread, hread', htext, htext', by decide, hcarry⟩,
    hmodes 0x8C 0xEC _ rfl rfl (by decide), (hcodes 0x07 (by decide) _).1⟩

end Listing

end M6809
