import M6809.Proofs.ListingRead
import M6809.Proofs.MemoryBus
import Mathlib.Data.List.Basic

namespace M6809

theorem Page.ofPrefixByte?_eq_none {code : Byte} {o : Opcode}
    (h : Opcode.ofCode? .zero code = some o) : ofPrefixByte? code = none := by
  unfold ofPrefixByte?
  split
  · subst code
    cases h
  · split
    · subst code
      cases h
    · rfl

theorem BusM.Yields.map {α γ : Type} {p : BusM α} {m : Memory} {a : α} (h : p.Yields m a)
    (f : α → γ) : (f <$> p).Yields m (f a) := by
  rw [map_eq_pure_bind]
  exact h.bind (yields_pure m _)

namespace Cursor

variable {m : Memory} {c : Cursor}

theorem yields_byte {value : Byte} (h : m.read c.next = value) :
    c.byte.Yields m (value, c.past [value]) := by
  subst h
  exact ⟨rfl, rfl⟩

theorem yields_code {o : Opcode} (ho : Opcode.ofCode? o.page o.code = some o)
    (h : m.bytesFrom c.next o.codeBytes.length = o.codeBytes) :
    c.code.Yields m (o.page, o.code, c.past o.codeBytes) := by
  obtain ⟨page, code, operation, mode⟩ := o
  dsimp only at ho
  unfold Cursor.code
  cases page with
  | zero =>
      obtain ⟨hcode, -⟩ := List.cons_eq_cons.mp h
      refine (yields_byte hcode).bind ?_
      dsimp only
      rw [Page.ofPrefixByte?_eq_none ho]
      exact BusM.yields_pure m _
  | one | two =>
      obtain ⟨hpage, hrest⟩ := List.cons_eq_cons.mp h
      obtain ⟨hcode, -⟩ := List.cons_eq_cons.mp hrest
      refine (yields_byte hpage).bind ?_
      refine (yields_byte (hcode : m.read (c.past [_]).next = code)).bind ?_
      rw [past_past]
      exact BusM.yields_pure m _

theorem yields_byteOperand {value : Byte} (h : m.bytesFrom c.next 1 = [value])
    (form : Byte → OperandForm) :
    (c.byteOperand form).Yields m (form value, c.past [value]) :=
  (yields_byte (List.cons_eq_cons.mp h).1).bind (BusM.yields_pure m _)

theorem yields_wordOperand {high low : Byte} (h : m.bytesFrom c.next 2 = [high, low])
    (form : Word → OperandForm) :
    (c.wordOperand form).Yields m (form (Word.ofBytes high low), c.past [high, low]) := by
  obtain ⟨hhigh, hrest⟩ := List.cons_eq_cons.mp h
  obtain ⟨hlow, -⟩ := List.cons_eq_cons.mp hrest
  rw [past_pair, ← hhigh, ← hlow]
  exact ⟨rfl, rfl⟩

theorem yields_indexed {postbyte : Byte} {mode : IndexedMode} {extra : List Byte}
    (hpostbyte : IndexedMode.ofPostbyte? postbyte = some mode)
    (hextra : extra.length = mode.extraBytes)
    (h : m.bytesFrom c.next (postbyte :: extra).length = postbyte :: extra) (start : Word) :
    (c.indexed start).Yields m
      (.ok (.indexed mode (Word.ofBigEndian extra), c.past (postbyte :: extra))) := by
  obtain ⟨hfirst, hrest⟩ := List.cons_eq_cons.mp h
  unfold indexed
  refine (yields_byte hfirst).bind ?_
  dsimp only
  rw [hpostbyte, show c.past (postbyte :: extra) = (c.past [postbyte]).past extra from
    (past_past c [postbyte] extra).symm]
  have hrest : m.bytesFrom (c.past [postbyte]).next extra.length = extra := hrest
  generalize c.past [postbyte] = middle at *
  obtain ⟨form, register, indirect⟩ := mode
  cases form with
  | offset width | pcOffset width =>
      cases width with
      | byte =>
          obtain ⟨low, rfl⟩ := List.length_eq_one_iff.mp hextra
          exact (yields_byteOperand hrest _).map _
      | word =>
          obtain ⟨high, low, rfl⟩ := List.length_eq_two.mp hextra
          rw [Word.ofBigEndian_pair]
          exact (yields_wordOperand hrest _).map _
  | absolute =>
      obtain ⟨high, low, rfl⟩ := List.length_eq_two.mp hextra
      rw [Word.ofBigEndian_pair]
      exact (yields_wordOperand hrest _).map _
  | _ =>
      obtain rfl := List.length_eq_zero_iff.mp hextra
      simp only [past, List.append_nil, List.length_nil, BitVec.add_zero]
      exact BusM.yields_pure m _

theorem yields_operand {o : Opcode} {next : Word} {bytes : List Byte} {form : OperandForm}
    (hspelled : form.Encodes o next bytes) (hnext : (c.past bytes).next = next)
    (h : m.bytesFrom c.next bytes.length = bytes) (start : Word) :
    (c.operand o start).Yields m (.ok (form, c.past bytes)) := by
  subst hnext
  unfold operand
  cases hspelled with
  | implied hmode =>
      rw [hmode]
      simp only [past, List.append_nil, List.length_nil, BitVec.add_zero]
      exact BusM.yields_pure m _
  | registers stack mask hmode hop =>
      rw [hmode]
      rcases hop with hop | hop <;> rw [hop] <;> exact (yields_byteOperand h _).map _
  | transfer postbyte hmode hop =>
      rw [hmode]
      rcases hop with hop | hop <;> rw [hop] <;> exact (yields_byteOperand h _).map _
  | immediateByte value hmode hop =>
      rw [hmode]
      rcases hop with ⟨op, reg, hop⟩ | hop | hop | hop <;> rw [hop] <;>
        exact (yields_byteOperand h _).map _
  | immediateWord high low hmode hop =>
      obtain ⟨op, reg, hop⟩ := hop
      rw [hmode, hop]
      exact (yields_wordOperand h _).map _
  | direct low hmode =>
      rw [hmode]
      exact (yields_byteOperand h _).map _
  | extended high low hmode =>
      rw [hmode]
      exact (yields_wordOperand h _).map _
  | indexed postbyte mode extra hmode hpostbyte hextra =>
      rw [hmode]
      exact yields_indexed hpostbyte hextra h start
  | relative offset hmode =>
      rw [hmode]
      exact (yields_byte (List.cons_eq_cons.mp h).1).bind (BusM.yields_pure m _)
  | longRelative high low hmode =>
      obtain ⟨hhigh, hrest⟩ := List.cons_eq_cons.mp h
      obtain ⟨hlow, -⟩ := List.cons_eq_cons.mp hrest
      rw [hmode, past_pair, ← hhigh, ← hlow]
      exact ⟨rfl, rfl⟩

end Cursor

namespace Listing

variable {m : Memory} {l : Listing}

theorem WellFormed.yields_read (hwell : l.WellFormed)
    (h : m.bytesFrom l.address l.length = l.bytes) : (read l.address).Yields m (.ok l) := by
  obtain ⟨address, spelling, o, form⟩ := l
  obtain ⟨ho, bytes, hspelling, hspelled⟩ := hwell
  dsimp only at ho hspelling hspelled h
  subst hspelling
  rw [length, List.length_append, Memory.bytesFrom_add] at h
  obtain ⟨hcode, hoperand⟩ := List.append_inj h (Memory.length_bytesFrom _ _ _)
  unfold read
  refine (Cursor.yields_code ho hcode).bind ?_
  dsimp only
  rw [ho]
  refine (Cursor.yields_operand hspelled ?_ hoperand _).bind (BusM.yields_pure m _)
  rw [Cursor.past_past]
  rfl

end Listing

end M6809
