import MethodBody.Action
import MethodBody.Node

/-!
# Flow graphs

The labels of one method and the control flow between their blocks. A label is a block if it is
listed among the blocks, which are kept in the order of their offsets.
-/

namespace MethodBody

/-- The labels of a method, and its blocks. -/
structure FlowGraph where
  /-- What is known about each label, in order of creation. -/
  nodes : Array Node := #[]
  /-- The blocks, in the order in which they were placed. -/
  blocks : Array Label := #[]
deriving DecidableEq, Repr, Inhabited

namespace FlowGraph

/-- A graph without labels. -/
def empty : FlowGraph := {}

/-- The label that will be created next. -/
def nextLabel (graph : FlowGraph) : Label := ⟨graph.nodes.size⟩

/-- Create a label with the given flags. -/
def create (graph : FlowGraph) (flags : Flags) : FlowGraph :=
  { graph with nodes := graph.nodes.push { label := graph.nextLabel, flags } }

/-- What is known about a label. -/
def node? (graph : FlowGraph) (label : Label) : Option Node :=
  graph.nodes[label.index]?

/-- What is known about a label that must exist. -/
def node (graph : FlowGraph) (label : Label) : Except Error Node :=
  match graph.node? label with
  | some node => .ok node
  | none => .error (.unknownLabel label)

/-- Change what is known about a label. -/
def update (graph : FlowGraph) (label : Label) (change : Node → Node) : FlowGraph :=
  { graph with nodes := graph.nodes.modify label.index change }

/-- Change what is known about each of the labels, in order. -/
def updateAll (graph : FlowGraph) (labels : List Label) (change : Node → Node) : FlowGraph :=
  labels.foldl (fun graph label => graph.update label change) graph

/-- The first block. -/
def firstBlock? (graph : FlowGraph) : Option Label := graph.blocks[0]?

/-- Record that a block starts at the label, after all other blocks. -/
def pushBlock (graph : FlowGraph) (label : Label) : FlowGraph :=
  { graph with blocks := graph.blocks.push label }

/-- Add an edge in front of the edges of a block. -/
def prepend (graph : FlowGraph) (block : Label) (edge : Edge) : FlowGraph :=
  graph.update block (·.prepend edge)

/-- Every label of the graph and every label that an edge leads to. -/
def mentioned (graph : FlowGraph) : List Label :=
  (List.range graph.nodes.size).map Label.mk
    ++ graph.nodes.toList.flatMap fun node => node.edges.map (·.successor)

/-- Changing what is known about a label adds no label. -/
@[simp]
theorem size_update (graph : FlowGraph) (label : Label) (change : Node → Node) :
    (graph.update label change).nodes.size = graph.nodes.size :=
  Array.size_modify

/-- Changing what is known about a label keeps the blocks. -/
@[simp]
theorem blocks_update (graph : FlowGraph) (label : Label) (change : Node → Node) :
    (graph.update label change).blocks = graph.blocks := rfl

/-- A change is seen at its own label and nowhere else. -/
theorem node?_update (graph : FlowGraph) (changed label : Label) (change : Node → Node) :
    (graph.update changed change).node? label =
      if changed = label then (graph.node? label).map change else graph.node? label := by
  obtain ⟨changed⟩ := changed
  obtain ⟨label⟩ := label
  simp only [node?, update, Array.getElem?_modify, Label.mk.injEq]

/-- A label is known if it was created, and nothing but its flags is known at first. -/
theorem node?_create (graph : FlowGraph) (label : Label) (flags : Flags) :
    (graph.create flags).node? label =
      if label = graph.nextLabel then some { label, flags } else graph.node? label := by
  obtain ⟨label⟩ := label
  simp only [node?, create, nextLabel, Array.getElem?_push, Label.mk.injEq]
  split
  · rename_i last
    rw [last]
  · rfl

/-- Recording a block changes nothing about its label. -/
@[simp]
theorem node?_pushBlock (graph : FlowGraph) (block label : Label) :
    (graph.pushBlock block).node? label = graph.node? label := rfl

/-- Whatever leads to a label of an edge, the label is mentioned. -/
theorem successor_mem_mentioned {graph : FlowGraph} {label : Label} {node : Node}
    (known : graph.node? label = some node) {edge : Edge} (member : edge ∈ node.edges) :
    edge.successor ∈ graph.mentioned := by
  apply List.mem_append_right
  refine List.mem_flatMap.mpr ⟨node, ?_, List.mem_map.mpr ⟨edge, member, rfl⟩⟩
  exact Array.mem_toList_iff.mpr (Array.mem_of_getElem? known)

/-- What is known about a label that must exist. -/
def getNode (label : Label) : Action FlowGraph Node :=
  Action.read (·.node label)

/-- Change what is known about a label that must exist, unless the change is refused. -/
def revise (label : Label) (revision : Node → Except Error Node) : Action FlowGraph Unit := do
  let revised ← Action.read fun graph => graph.node label >>= revision
  modify (·.update label fun _ => revised)

/-- Add an edge from a block to a handler. -/
def addHandler (block handler : Label) : Action FlowGraph Unit :=
  revise block (·.addHandler handler)

end FlowGraph

end MethodBody
