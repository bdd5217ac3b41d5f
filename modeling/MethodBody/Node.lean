import MethodBody.Edge
import MethodBody.Reference

/-!
# Nodes of a flow graph

A node is what is known about one label: whether it has an offset yet or only references that wait
for one, what it is used for and, if a block starts there, the edges and stack heights of the block.
Edges are kept with the newest first. A block that calls a subroutine has the edge to its
continuation first and the edge into the subroutine second.
-/

namespace MethodBody

/-- What a label is used for, and what the analyses found out about its block. -/
structure Flags where
  /-- Only debug information refers to the label, so no block starts there. -/
  debugOnly : Bool := false
  /-- Control can be transferred to the label. -/
  jumpTarget : Bool := false
  /-- The block can be reached from the first one. -/
  reachable : Bool := false
  /-- The block ends with the call of a subroutine. -/
  callsSubroutine : Bool := false
  /-- A subroutine starts with the block. -/
  startsSubroutine : Bool := false
  /-- The block ends with the return from a subroutine. -/
  endsSubroutine : Bool := false
deriving DecidableEq, Repr

namespace Flags

/-- The flags as bits of a number. -/
def bits (flags : Flags) : Nat :=
  flags.debugOnly.toNat + 2 * flags.jumpTarget.toNat + 8 * flags.reachable.toNat
    + 16 * flags.callsSubroutine.toNat + 32 * flags.startsSubroutine.toNat
    + 64 * flags.endsSubroutine.toNat

/-- The flags whose bits a number has. -/
def ofBits (bits : Nat) : Flags where
  debugOnly := bits.testBit 0
  jumpTarget := bits.testBit 1
  reachable := bits.testBit 3
  callsSubroutine := bits.testBit 4
  startsSubroutine := bits.testBit 5
  endsSubroutine := bits.testBit 6

/-- Combine two sets of flags one by one. -/
def zipWith (combine : Bool → Bool → Bool) (left right : Flags) : Flags where
  debugOnly := combine left.debugOnly right.debugOnly
  jumpTarget := combine left.jumpTarget right.jumpTarget
  reachable := combine left.reachable right.reachable
  callsSubroutine := combine left.callsSubroutine right.callsSubroutine
  startsSubroutine := combine left.startsSubroutine right.startsSubroutine
  endsSubroutine := combine left.endsSubroutine right.endsSubroutine

/-- The flags of either. -/
def union (left right : Flags) : Flags := zipWith (· || ·) left right

/-- The flags of the first that are not flags of the second. -/
def diff (left right : Flags) : Flags := zipWith (fun has lacks => has && !lacks) left right

/-- The bits of a set of flags determine it. -/
theorem ofBits_bits (flags : Flags) : ofBits flags.bits = flags := by
  obtain ⟨debugOnly, jumpTarget, reachable, calls, starts, ends⟩ := flags
  cases debugOnly <;> cases jumpTarget <;> cases reachable <;> cases calls <;> cases starts <;>
    cases ends <;> rfl

end Flags

/-- Whether a label has an offset. -/
inductive Placement where
  /-- It has none, and these references wait for it. -/
  | pending (ledger : Ledger)
  /-- It has this offset. -/
  | placed (offset : Nat)
deriving DecidableEq, Repr

/-- What is known about one label. -/
structure Node where
  /-- The label. -/
  label : Label
  /-- What the label is used for. -/
  flags : Flags := {}
  /-- Whether the label has an offset. -/
  placement : Placement := .pending .empty
  /-- The source lines attached to the label, in the order in which they were added. -/
  lines : Array UInt16 := #[]
  /-- The subroutine that the block belongs to. -/
  subroutine : Option SubroutineId := none
  /-- The stack height at the start of the block. -/
  inputHeight : Int32 := 0
  /-- The stack height at the end of the block, above its start. -/
  outputHeight : Int32 := 0
  /-- The largest stack height in the block, above its start. -/
  peakHeight : Int32 := 0
  /-- The edges that leave the block, newest first. -/
  edges : List Edge := []
deriving DecidableEq, Repr

namespace Node

/-- The offset, if the label has one. -/
def offset? (node : Node) : Option Nat :=
  match node.placement with
  | .pending _ => none
  | .placed offset => some offset

/-- The label has an offset. -/
def isPlaced (node : Node) : Bool := node.offset?.isSome

/-- The offset, which the label must have. -/
def offset (node : Node) : Except Error Nat :=
  match node.offset? with
  | some offset => .ok offset
  | none => .error (.unplaced node.label)

/-- The references that wait for the offset. -/
def pending (node : Node) : Nat :=
  match node.placement with
  | .pending ledger => ledger.size
  | .placed _ => 0

/-- Write the distance from an instruction to the label at the cursor: a placeholder, if the label
has no offset yet. The answer is what is known about the label afterwards. -/
def refer (node : Node) (source : Nat) (width : Width) : Action Buffer Node :=
  match node.placement with
  | .pending ledger => do
    let ledger ← ledger.refer source width
    pure { node with placement := .pending ledger }
  | .placed target => do
    let distance := Offset.distance target source
    unless width.Fits distance do throw (.distanceOverflow source target)
    modify (·.append (width.operand distance))
    pure node

/-- Give the label its offset and fill in the references that wait for it. The answer is what is
known about the label afterwards, and whether some branch was given its unsigned form. -/
def place (node : Node) (offset : Nat) : Action Buffer (Node × Bool) :=
  match node.placement with
  | .pending ledger => do
    let rewritten ← ledger.resolve offset
    pure ({ node with placement := .placed offset }, rewritten)
  | .placed _ => throw (.placedTwice node.label)

/-- Attach a source line. -/
def addLine (node : Node) (line : UInt16) : Node :=
  { node with lines := node.lines.push line }

/-- Add an edge in front of the others. -/
def prepend (node : Node) (edge : Edge) : Node :=
  { node with edges := edge :: node.edges }

/-- The refusal of a block without the two edges of a call. -/
def malformed (node : Node) : Error :=
  .malformedCaller node.label node.edges.length

/-- The edges of a call: to the continuation, and into the subroutine. -/
def callEdges (node : Node) : Except Error (Edge × Edge) :=
  match node.flags.callsSubroutine, node.edges with
  | true, continuation :: entry :: _ => .ok (continuation, entry)
  | _, _ => .error node.malformed

/-- Add an edge to a handler, behind the edges of a call and in front of all others. -/
def addHandler (node : Node) (handler : Label) : Except Error Node :=
  let edge : Edge := ⟨.exception, handler⟩
  match node.flags.callsSubroutine, node.edges with
  | false, _ => .ok (node.prepend edge)
  | true, continuation :: entry :: others =>
    .ok { node with edges := continuation :: entry :: edge :: others }
  | true, _ => .error node.malformed

/-- The successors of a block within its subroutine: what it calls is left out. -/
def bodySuccessors (node : Node) : Except Error (List Label) :=
  if node.flags.callsSubroutine then do
    let _ ← node.callEdges
    pure ((node.edges.eraseIdx 1).map (·.successor))
  else .ok (node.edges.map (·.successor))

/-- The edges that control really takes: the continuation of a call is reached from the return of
the subroutine and not from the call. -/
def flowEdges (node : Node) : List Edge :=
  if node.flags.callsSubroutine then node.edges.drop 1 else node.edges

/-- Successors within a subroutine are successors. -/
theorem mem_of_mem_bodySuccessors (node : Node) {labels : List Label}
    (found : node.bodySuccessors = .ok labels) {label : Label} (member : label ∈ labels) :
    label ∈ node.edges.map (·.successor) := by
  unfold bodySuccessors at found
  split at found
  · cases called : node.callEdges with
    | error cause => simp [called, bind, Except.bind] at found
    | ok _ =>
      rw [called] at found
      obtain rfl := Except.ok.inj found
      obtain ⟨edge, kept, same⟩ := List.mem_map.mp member
      exact List.mem_map.mpr ⟨edge, List.mem_of_mem_eraseIdx kept, same⟩
  · obtain rfl := Except.ok.inj found
    exact member

/-- The edges that control really takes are edges. -/
theorem mem_of_mem_flowEdges (node : Node) {edge : Edge} (taken : edge ∈ node.flowEdges) :
    edge ∈ node.edges := by
  unfold flowEdges at taken
  split at taken
  · exact List.mem_of_mem_drop taken
  · exact taken

end Node

end MethodBody
