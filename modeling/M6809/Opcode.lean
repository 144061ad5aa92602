import M6809.Operation

namespace M6809

inductive Page where
  | zero
  | one
  | two
deriving DecidableEq, Repr

namespace Page

def all : List Page := [zero, one, two]

def number : Page → Nat
  | zero => 0
  | one => 1
  | two => 2

def prefixByte? : Page → Option Byte
  | zero => none
  | one => some 0x10
  | two => some 0x11

/-- The page that a first instruction byte selects, if it is a page prefix. -/
def ofPrefixByte? (b : Byte) : Option Page :=
  if b = 0x10 then some one else if b = 0x11 then some two else none

end Page

structure Opcode where
  page : Page
  code : Byte
  operation : Operation
  mode : AddressingMode
deriving DecidableEq, Repr

namespace Opcode

def mnemonic (o : Opcode) : String := o.operation.mnemonic o.mode

/-- The mnemonic, filled up with blanks to a width. -/
def mnemonicColumn (o : Opcode) (width : Nat) : String :=
  o.mnemonic ++ String.ofList (List.replicate (width - o.mnemonic.length) ' ')

/-- Code bytes, a page prefix included. -/
def length (o : Opcode) : Nat :=
  match o.page with
  | .zero => 1
  | .one | .two => 2

/-- Bytes behind the opcode, those that follow an indexed postbyte apart. -/
def operandBytes (o : Opcode) : Nat :=
  match o.mode with
  | .inherent => 0
  | .immediate => o.operation.immediateWidth
  | .direct | .indexed | .relative => 1
  | .extended | .longRelative => 2

def size (o : Opcode) : Nat := o.length + o.operandBytes

def cycles (o : Opcode) : Nat :=
  o.operation.cycles + o.mode.cycles +
    match o.page with
    | .zero => 0
    | .one | .two => o.operation.prefixCycles

/-- The code bytes read as one number. -/
def encoding (o : Opcode) : Word := Word.ofBytes (o.page.prefixByte?.getD 0) o.code

def immediateWidth? (o : Opcode) : Option Nat :=
  if o.mode = .immediate then some o.operation.immediateWidth else none

end Opcode

end M6809
