import Rivulet.Engine.Machine

/-!
# Who keeps what alive

A node lives as long as something refers to it: a name, a use in progress, a fetch that will
write it, or, for an effect, the graph. The query data of an application lives as long as its
handle, a render in progress, or an effect or a boundary that will draw with it. What nothing
refers to any longer leaves at once.
-/

namespace Rivulet.Engine

/-- The node behind a handle. -/
def Handle.node? : Handle → Option NodeId
  | signal id | pair id | computed id | effect id | query id _ => some id
  | _ => none

/-- The query data behind a handle. -/
def Handle.client? : Handle → Option ClientId
  | mount m => some m.client
  | _ => none

/-- The nodes that wait for the fetches of an application. -/
def Client.waiting (c : Client) : List NodeId := c.pending.flatMap (·.consumers.map (·.node))

namespace State

/-- Whether a fetch will write a node. -/
def isAwaited (s : State) (id : NodeId) : Bool :=
  s.clients.toList.any fun (_, c) => c.waiting.contains id

/-- Whether an effect is part of the graph. -/
def isLiveEffect (s : State) (id : NodeId) : Bool :=
  (s.effect? id).isSome && s.graph.contains id

/-- Whether something refers to a node. -/
def keepsNode (s : State) (id : NodeId) : Bool :=
  s.names.any (·.2.node? == some id) || s.held.contains (.node id) || s.isLiveEffect id ||
    s.isAwaited id

/-- Takes a node out of the graph and the queue. -/
def detach (s : State) (id : NodeId) : State :=
  { s with queue := s.queue.remove id, graph := (s.graph.remove id).1 }

/-- Drops a node that nothing refers to. -/
def dropNode (s : State) (id : NodeId) : State :=
  if s.keepsNode id then s else { s.detach id with cells := s.cells.erase id }

/-- The query data that a boundary will draw with. -/
def boundaryClient? (s : State) (b : BoundaryId) : Option ClientId := do
  (← (← s.boundary? b).supply).client?

/-- The query data that the switch of a boundary will draw with. -/
def deferredClient? (s : State) : Deferred → Option ClientId
  | .uncaught _ => none
  | .fallback b _ => s.boundaryClient? b

/-- The query data that the handler of a scope will draw with. -/
def scopeClient? (s : State) (scope : Scopes.Scope Cleanup Handler) : Option ClientId :=
  match scope.handler with
  | some (.boundary b) => s.boundaryClient? b
  | _ => none

/-- The query data that an effect will draw with. -/
def cellClient? : Cell → Option ClientId
  | .effect e => e.supply.bind (·.client?)
  | _ => none

/-- Whether something refers to the query data of an application. -/
def keepsClient (s : State) (id : ClientId) : Bool :=
  s.names.any (·.2.client? == some id) || s.held.contains (.client id) ||
    s.supplies.contains (.client id) ||
    s.deferred.any (s.deferredClient? · == some id) ||
    s.cells.toList.any (cellClient? ·.2 == some id) ||
    s.scopes.live.toList.any (s.scopeClient? ·.2 == some id)

/-- Drops the query data of an application if nothing refers to it. -/
def dropClient (s : State) (id : ClientId) : State :=
  match s.clients[id]? with
  | none => s
  | some c =>
    if s.keepsClient id then s
    else c.waiting.foldl dropNode { s with clients := s.clients.erase id }

/-- Drops all query data that nothing refers to. -/
def sweep (s : State) : State :=
  if s.clients.isEmpty then s else (s.clients.toList.map (·.1)).foldl dropClient s

/-- Drops a node that nothing refers to, with the query data that only it referred to. -/
def releaseNode (s : State) (id : NodeId) : State :=
  match (s.cells[id]?).bind cellClient? with
  | none => s.dropNode id
  | some _ => (s.dropNode id).sweep

/-- Lets go of what a handle stands for. -/
def releaseHandle (s : State) (h : Handle) : State :=
  match h.node?, h.client? with
  | some id, _ => s.releaseNode id
  | none, some client => s.dropClient client
  | none, none => s

/-- Lets a name stand for nothing. -/
def unbind (s : State) (name : String) : State :=
  match s.handle? name with
  | none => s
  | some h => { s with names := s.names.filter (·.1 ≠ name) }.releaseHandle h

/-- Lets a name stand for something, in place of what it stood for. -/
def rebind (s : State) (name : String) (h : Handle) : State :=
  let old := s.handle? name
  let s := { s with names := (name, h) :: s.names.filter (·.1 ≠ name) }
  match old with
  | none => s
  | some old => s.releaseHandle old

/-- Lets a name stand for something, if there is a name. -/
def bindName (s : State) (name : Option String) (h : Handle) : State :=
  match name with
  | none => s.releaseHandle h
  | some name => s.rebind name h

/-- Starts a use. -/
def hold (s : State) (h : Hold) : State := { s with held := h :: s.held }

/-- Ends a use. -/
def unhold (s : State) (h : Hold) : State :=
  let s := { s with held := s.held.erase h }
  match h with
  | .node id => s.releaseNode id
  | .client id => s.dropClient id

/-- Leaves the innermost supply. -/
def leaveSupply (s : State) : State := { s with supplies := s.supplies.tail }.sweep

end State

/-- Runs something with a node in use. -/
def holding {α : Type} (id : NodeId) (body : Run α) : Run α := do
  modify (·.hold (.node id))
  guarding (·.unhold (.node id)) body

/-- Runs something with the query data of an application in use. -/
def holdingClient {α : Type} (id : ClientId) (body : Run α) : Run α := do
  modify (·.hold (.client id))
  guarding (·.unhold (.client id)) body

/-- Runs something with queries finding their data in one place, if one is given. -/
def withSupply {α : Type} (supply : Option Supply) (body : Run α) : Run α := do
  match supply with
  | none => body
  | some supply =>
    modify fun s => { s with supplies := supply :: s.supplies }
    guarding State.leaveSupply body

/-- Adds a node to the graph with something behind it. -/
def addNode (kind : Graph.Kind) (cell : Cell) : Run NodeId :=
  modifyGet fun s =>
    let id : NodeId := ⟨s.kinds.size⟩
    (id, { s with
      kinds := s.kinds.push kind
      graph := s.graph.insert id (.new kind)
      cells := s.cells.insert id cell })

end Rivulet.Engine
