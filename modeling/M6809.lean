import M6809.Listing
import M6809.MemoryMap
import M6809.Observation
import M6809.Proofs.AccessSequence
import M6809.Proofs.AddressingColumns
import M6809.Proofs.BoundedRun
import M6809.Proofs.CarryChains
import M6809.Proofs.ComparedBranch
import M6809.Proofs.Comparisons
import M6809.Proofs.CycleBounds
import M6809.Proofs.DecimalAddition
import M6809.Proofs.DeviceHistory
import M6809.Proofs.Faults
import M6809.Proofs.FillLoop
import M6809.Proofs.FlagChanges
import M6809.Proofs.IndexedAddresses
import M6809.Proofs.InterruptEntry
import M6809.Proofs.InterruptMasking
import M6809.Proofs.InterruptNesting
import M6809.Proofs.ListingAgreement
import M6809.Proofs.ListingNotation
import M6809.Proofs.Lockstep
import M6809.Proofs.MapAcceptance
import M6809.Proofs.MapRouting
import M6809.Proofs.MappedMemory
import M6809.Proofs.MemoryBlocks
import M6809.Proofs.RegisterTransfers
import M6809.Proofs.ResetForgets
import M6809.Proofs.RotateChains
import M6809.Proofs.StackPaths
import M6809.Proofs.StackRoundTrip
import M6809.Proofs.SubroutineCalls
import M6809.Proofs.SyncWait
import M6809.Proofs.WaitForInterrupt
