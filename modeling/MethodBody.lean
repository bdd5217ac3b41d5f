import MethodBody.BigEndian
import MethodBody.Hex
import MethodBody.LocalInstruction
import MethodBody.Label
import MethodBody.Offset
import MethodBody.Opcode
import MethodBody.Action
import MethodBody.Buffer
import MethodBody.Format
import MethodBody.FlowGraph
import MethodBody.FlowGraph.StackHeight
import MethodBody.FlowGraph.Subroutine
import MethodBody.Walk
import MethodBody.Assembler
import MethodBody.Assembler.Finish
import MethodBody.Assembler.Operation
import MethodBody.Proofs.Bytes
import MethodBody.Proofs.Listing
import MethodBody.Proofs.Outcome
import MethodBody.Proofs.Text
import MethodBody.Proofs.Effects
import MethodBody.Proofs.Growth
import MethodBody.Proofs.Relocation
import MethodBody.Proofs.Transcript
import MethodBody.Proofs.Changes
import MethodBody.Proofs.Finishing
import MethodBody.Proofs.Distances
import MethodBody.Proofs.Performance
import MethodBody.Proofs.Layout
import MethodBody.Proofs.Blocks
import MethodBody.Proofs.Anchors
import MethodBody.Proofs.Atomicity
import MethodBody.Proofs.Exploration
import MethodBody.Proofs.Heights
import MethodBody.Proofs.Handlers
import MethodBody.Proofs.Completion
import MethodBody.Proofs.Evolution
import MethodBody.Proofs.Execution
import MethodBody.Proofs.Decoding
import MethodBody.Proofs.Agreement
import MethodBody.Proofs.Marking
import MethodBody.Proofs.Calls
import MethodBody.Proofs.Returns
import MethodBody.Proofs.Consistency
import MethodBody.Proofs.Regions
import MethodBody.Proofs.Membership
import MethodBody.Proofs.Refusals
import MethodBody.Proofs.Placing
import MethodBody.Proofs.Transitions
import MethodBody.Proofs.Wiring
import MethodBody.Proofs.Contract
import MethodBody.Proofs.Containment
import MethodBody.Proofs.BlockOrder
import MethodBody.Proofs.Protection
import MethodBody.Proofs.LateRefusals
import MethodBody.Proofs.Positions
import MethodBody.Proofs.Formats
import MethodBody.Proofs.Tables
import MethodBody.Proofs.Ranges
import MethodBody.Proofs.Stability
import MethodBody.Proofs.Widening
import MethodBody.Proofs.UnsignedForms
import MethodBody.Proofs.ReturnBlocks
import MethodBody.Proofs.Routes
import MethodBody.Proofs.RecordedHeights
import MethodBody.Proofs.MarkedRegions
import MethodBody.Proofs.Tours
import MethodBody.Proofs.ReturnEdges
import MethodBody.Proofs.JumpMeaning
import MethodBody.Proofs.Records
import MethodBody.Proofs.BackwardJumps
import MethodBody.Proofs.Patching
import MethodBody.Proofs.Binding
import MethodBody.Proofs.Separation
import MethodBody.Proofs.PlacingOrder
import MethodBody.Proofs.SwitchMeaning
import MethodBody.Proofs.Dispatch
import MethodBody.Proofs.ClassFile
import MethodBody.Proofs.LocalForms
import MethodBody.Proofs.Lockstep
import MethodBody.Proofs.FlowDependence
import MethodBody.Proofs.IdleLabels
import MethodBody.Proofs.HiddenLabels
import MethodBody.Proofs.DebugLabels
import MethodBody.Proofs.HeightsInPlace
import MethodBody.Proofs.Storing
import MethodBody.Proofs.MarkingInPlace
