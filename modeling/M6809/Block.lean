import M6809.BusM

namespace M6809

namespace BusM

variable {α β : Type} [Bus β]

def runEach (computations : List (BusM α)) (bus : β) : Outcome β (List α) :=
  let last := computations.foldl
    (fun (o : Outcome β (List α)) computation =>
      let next := computation.run o.bus
      ⟨next.result :: o.result, next.bus, next.events.reverse ++ o.events⟩)
    ⟨[], bus, []⟩
  ⟨last.result.reverse, last.bus, last.events.reverse⟩

end BusM

namespace Bus

variable {β : Type} [Bus β]

def addressesFrom (base : Word) (count : Nat) : List Word :=
  (List.range count).map fun i => base + BitVec.ofNat 16 i

def readBlock (bus : β) (base : Word) (count : Nat) : Outcome β (List Byte) :=
  BusM.runEach ((addressesFrom base count).map BusM.readByte) bus

def writeBlock (bus : β) (base : Word) (data : List Byte) : Outcome β (List Unit) :=
  BusM.runEach (List.zipWith BusM.writeByte (addressesFrom base data.length) data) bus

end Bus

end M6809
