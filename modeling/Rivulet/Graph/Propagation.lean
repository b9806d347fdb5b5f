import Rivulet.Graph.Basic

/-!
# Propagating a change

A change of a node marks those who read it as dirty and everything further down as maybe
dirty, level by level. Only derived nodes pass a change on; the effects that are reached
have to run again.
-/

namespace Rivulet.Graph

/-- A step of the walk: a node, and whether it reads the changed node itself. -/
structure Visit where
  /-- The node that is reached. -/
  node : NodeId
  /-- Whether the changed node is the one it was reached from. -/
  direct : Bool
  deriving DecidableEq, Repr

/-- Where the walk goes on from a node. -/
def Node.onward (n : Node) : List Visit :=
  match n.kind with
  | .derived => n.dependents.map (⟨·, false⟩)
  | .source | .effect => []

/-- Visits the queued nodes and all that follows from them, breadth first, each live node
once. Nodes that are still `unseen` can only be visited once, so the walk ends. -/
def walk (unseen : Std.HashMap NodeId Node) (queue : List Visit) : List Visit :=
  match queue with
  | [] => []
  | visit :: rest =>
    if h : visit.node ∈ unseen then
      visit :: walk (unseen.erase visit.node) (rest ++ unseen[visit.node].onward)
    else walk unseen rest
termination_by (unseen.size, queue.length)
decreasing_by
  · apply Prod.Lex.left
    have := Std.HashMap.size_erase (m := unseen) (k := visit.node)
    have : unseen.size ≠ 0 := by
      intro hz
      have := Std.HashMap.isEmpty_eq_size_eq_zero (m := unseen)
      rw [hz] at this
      exact Std.HashMap.not_mem_of_isEmpty (by simpa using this) h
    simp_all
    omega
  · exact Prod.Lex.right _ (by simp)

/-- Marks a node that the walk reached. -/
def markVisit (g : Graph) (visit : Visit) : Graph :=
  g.request visit.node (if visit.direct then .dirty else .maybeDirty)

/-- Whether a live node is an effect. -/
def isEffect (g : Graph) (id : NodeId) : Bool :=
  match g.find? id with
  | some n => n.kind = .effect
  | none => false

/-- Whether a live node is a derived one. -/
def isDerived (g : Graph) (id : NodeId) : Bool :=
  match g.find? id with
  | some n => n.kind = .derived
  | none => false

/-- Records a change of a node: its epoch advances, and what depends on it is marked. Gives
the effects that were reached, in the order of the walk. -/
def markChanged (g : Graph) (source : NodeId) : Graph × List NodeId :=
  match g.find? source with
  | none => (g, [])
  | some n =>
    let g := g.bump source
    let visits := walk g.nodes (n.dependents.map (⟨·, true⟩))
    (visits.foldl markVisit g, (visits.map (·.node)).filter g.isEffect)

end Rivulet.Graph
