import Std.Data.HashMap

/-!
# The dependency graph

Which node reads which. Values never live here: a node carries its kind, a mark that says
how far it can be trusted, an epoch that advances with its observable value, and its edges
in both directions, each in the order in which they came about.
-/

namespace Rivulet

/-- The identity of a node. -/
structure NodeId where
  /-- The number given at creation; no number is given twice. -/
  index : Nat
  deriving DecidableEq, Hashable, Repr, Inhabited

namespace Graph

/-- What a node stands for. -/
inductive Kind where
  /-- A signal: read by others, reading none. -/
  | source
  /-- A computed value: reads others and may be read. -/
  | derived
  /-- An effect: reads others and is read by none. -/
  | effect
  deriving DecidableEq, Repr

/-- How far a node can be trusted to be up to date. -/
inductive Mark where
  /-- Nothing it read has changed. -/
  | clean
  /-- Something further up changed; what it read has still to be compared. -/
  | maybeDirty
  /-- Something it read itself changed. -/
  | dirty
  deriving DecidableEq, Repr

/-- A node that was read, with the epoch it had at that time. -/
structure Observed where
  /-- The node that was read. -/
  node : NodeId
  /-- Its epoch when it was read. -/
  epoch : UInt64
  deriving DecidableEq, Repr

/-- A node and its edges. -/
structure Node where
  /-- What the node stands for. -/
  kind : Kind
  /-- How far it can be trusted. -/
  mark : Mark
  /-- How often the observable value has changed. -/
  changes : Nat
  /-- What it read in its last run, in the order of reading. -/
  dependencies : List Observed
  /-- Who read it, in the order of subscription. -/
  dependents : List NodeId
  deriving DecidableEq, Repr

/-- Advances each time the observable value changes; it has 64 bits. -/
def Node.epoch (n : Node) : UInt64 := .ofNat n.changes

/-- A new node. All but sources start dirty, so that their first run is due. -/
def Node.new (kind : Kind) : Node where
  kind
  mark := match kind with
    | .source => .clean
    | .derived | .effect => .dirty
  changes := 0
  dependencies := []
  dependents := []

/-- Raises a mark to at least maybe dirty. -/
def Mark.raise : Mark → Mark
  | .clean => .maybeDirty
  | mark => mark

/-- Asks for a mark: being maybe dirty never lowers a dirty one. -/
def Mark.request (current wanted : Mark) : Mark :=
  match wanted with
  | .clean => .clean
  | .maybeDirty => current.raise
  | .dirty => .dirty

/-- The node with its mark changed as asked. -/
def Node.request (n : Node) (wanted : Mark) : Node := { n with mark := n.mark.request wanted }

/-- The node with its epoch advanced. -/
def Node.bump (n : Node) : Node := { n with changes := n.changes + 1 }

/-- The node with one more reader, who keeps an earlier place. -/
def Node.addDependent (n : Node) (reader : NodeId) : Node :=
  if reader ∈ n.dependents then n else { n with dependents := n.dependents ++ [reader] }

/-- The node without a reader. -/
def Node.removeDependent (n : Node) (reader : NodeId) : Node :=
  { n with dependents := n.dependents.filter (· ≠ reader) }

/-- The node without any observation of another one. -/
def Node.forget (n : Node) (source : NodeId) : Node :=
  { n with dependencies := n.dependencies.filter (·.node ≠ source) }

end Graph

/-- The live nodes by their identity. -/
structure Graph where
  /-- The nodes that were added and not removed. -/
  nodes : Std.HashMap NodeId Graph.Node := ∅

namespace Graph

/-- A live node. -/
def find? (g : Graph) (id : NodeId) : Option Node := g.nodes[id]?

/-- Whether a node is live. -/
def contains (g : Graph) (id : NodeId) : Bool := g.nodes.contains id

/-- The number of live nodes. -/
def size (g : Graph) : Nat := g.nodes.size

/-- The epoch of a live node. -/
def epoch? (g : Graph) (id : NodeId) : Option UInt64 := (g.find? id).map (·.epoch)

/-- The mark of a live node. -/
def mark? (g : Graph) (id : NodeId) : Option Mark := (g.find? id).map (·.mark)

/-- How many nodes read this one. -/
def dependentCount (g : Graph) (id : NodeId) : Nat :=
  ((g.find? id).map (·.dependents.length)).getD 0

/-- How many nodes this one read in its last run. -/
def dependencyCount (g : Graph) (id : NodeId) : Nat :=
  ((g.find? id).map (·.dependencies.length)).getD 0

/-- Adds a node. -/
def insert (g : Graph) (id : NodeId) (n : Node) : Graph := ⟨g.nodes.insert id n⟩

/-- Changes a node, if it is live. -/
def modify (g : Graph) (id : NodeId) (f : Node → Node) : Graph := ⟨g.nodes.modify id f⟩

/-- Removes a node with every edge that touches it, and says what it was. -/
def remove (g : Graph) (id : NodeId) : Graph × Option Node :=
  match g.find? id with
  | none => (g, none)
  | some n =>
    let g : Graph := ⟨g.nodes.erase id⟩
    let g := n.dependencies.foldl (fun g seen => g.modify seen.node (·.removeDependent id)) g
    let g := n.dependents.foldl (fun g reader => g.modify reader (·.forget id)) g
    (g, some n)

/-- Replaces what a node reads. The epochs are those of this moment, sources that are gone
are left out, and a source that was read before keeps the reader's place. -/
def setDependencies (g : Graph) (reader : NodeId) (sources : List NodeId) : Graph :=
  match g.find? reader with
  | none => g
  | some n =>
    let observed := sources.filterMap fun s => (g.epoch? s).map fun e => ⟨s, e⟩
    let g := g.modify reader fun n => { n with dependencies := observed }
    let left := n.dependencies.filter fun seen => seen.node ∉ sources
    let g := left.foldl (fun g seen => g.modify seen.node (·.removeDependent reader)) g
    sources.foldl (fun g s => g.modify s (·.addDependent reader)) g

/-- Changes the mark of a node, if it is live. -/
def request (g : Graph) (id : NodeId) (wanted : Mark) : Graph := g.modify id (·.request wanted)

/-- Advances the epoch of a node, if it is live. -/
def bump (g : Graph) (id : NodeId) : Graph := g.modify id Node.bump

end Graph

end Rivulet
