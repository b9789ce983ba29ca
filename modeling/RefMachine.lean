import RefMachine.Binary64
import RefMachine.Codec.Decode
import RefMachine.Codec.Encode
import RefMachine.Heap.Basic
import RefMachine.Heap.Dump
import RefMachine.Heap.Release
import RefMachine.Heap.Store
import RefMachine.Instruction
import RefMachine.Machine
import RefMachine.Machine.Action
import RefMachine.Machine.Evaluate
import RefMachine.Names
import RefMachine.Opcode
import RefMachine.Scope
import RefMachine.Ty
import RefMachine.Value
import RefMachine.Proofs.Outcome
import RefMachine.Proofs.Codec.Reader
import RefMachine.Proofs.Codec.Grammar
import RefMachine.Proofs.Codec.Writer
import RefMachine.Proofs.RoundTrip
import RefMachine.Proofs.Heap.Slots
import RefMachine.Proofs.Heap.Contents
import RefMachine.Proofs.Heap.Reach
import RefMachine.Proofs.Heap.Accounts
import RefMachine.Proofs.Heap.Objects
import RefMachine.Proofs.Heap.Unfold
import RefMachine.Proofs.Machine.Roots
import RefMachine.Proofs.Machine.Resolve
import RefMachine.Proofs.Machine.Perform
import RefMachine.Proofs.Machine.Evaluate
import RefMachine.Proofs.Machine.Calls
import RefMachine.Proofs.Machine.Host
import RefMachine.Proofs.Session
import RefMachine.Proofs.LeakFree
import RefMachine.Proofs.Tree.Machine
import RefMachine.Proofs.Tree.Mirror
import RefMachine.Proofs.Tree.Refinement
import RefMachine.Proofs.Machine.Draws
import RefMachine.Proofs.Machine.History
import RefMachine.Proofs.Machine.Floor
import RefMachine.Proofs.Frames
import RefMachine.Proofs.CallStack
import RefMachine.Proofs.Machine.Clean
import RefMachine.Proofs.Diagnosis
import RefMachine.Proofs.Heap.Calls
import RefMachine.Proofs.Consistency
import RefMachine.Proofs.Interning
import RefMachine.Proofs.Machine.Lift
import RefMachine.Proofs.Noninterference
import RefMachine.Proofs.Machine.Quotation
import RefMachine.Proofs.Machine.Changes
import RefMachine.Proofs.Machine.Preservation
import RefMachine.Proofs.Permanence
import RefMachine.Proofs.Streaming
import RefMachine.Proofs.Interruption
import RefMachine.Proofs.RecursiveRelease
import RefMachine.Proofs.Cascade
import RefMachine.Proofs.Heap.Restore
import RefMachine.Proofs.Reflection
import RefMachine.Proofs.Machine.Reframe
import RefMachine.Proofs.Inlining
import RefMachine.Proofs.DepthLimit
import RefMachine.Proofs.Rejection
import RefMachine.Proofs.Encodability
import RefMachine.Proofs.Display
import RefMachine.Proofs.UniqueReading
import RefMachine.Proofs.Heap.Tableless
import RefMachine.Proofs.Heap.Building
import RefMachine.Proofs.TakingDiagnostics
import RefMachine.Proofs.ScopeGrowth
import RefMachine.Proofs.ListBuilding
import RefMachine.Proofs.NearTexts
import RefMachine.Proofs.Numbering
