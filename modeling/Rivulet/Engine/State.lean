import Rivulet.Graph.Propagation
import Rivulet.Graph.Queue
import Rivulet.Tracking
import Rivulet.Scopes
import Rivulet.Query.Cache
import Rivulet.Program

/-!
# The state of the engine

All that a run can change. The graph, the queue, the tracking stack and the scopes each have
their own rules; the state joins them with what lies behind the nodes, the documents and the
walks over them, the data of queries, and the handles that a program holds by name.
-/

namespace Rivulet.Engine

/-- A document of the engine. -/
structure DocumentId where
  /-- Its place among the documents. -/
  index : Nat
  deriving DecidableEq, Repr

/-- The account of a walk, which several walks may share. -/
structure ReportId where
  /-- Its place among the accounts. -/
  index : Nat
  deriving DecidableEq, Repr

/-- The mark that a walk is unresolved, which several walks may share. -/
structure FlagId where
  /-- Its place among the marks. -/
  index : Nat
  deriving DecidableEq, Repr

/-- A boundary of a document. -/
structure BoundaryId where
  /-- Its place among the boundaries. -/
  index : Nat
  deriving DecidableEq, Repr

/-- A pass of a server render. -/
structure PassId where
  /-- Its place among the passes. -/
  index : Nat
  deriving DecidableEq, Repr

/-- The query data of a mounted application. -/
structure ClientId where
  /-- The number given at creation; no number is given twice. -/
  index : Nat
  deriving DecidableEq, Hashable, Repr

/-- A cache of late results. -/
structure CacheId where
  /-- Its place among the caches. -/
  index : Nat
  deriving DecidableEq, Repr

/-- Where the queries of a render find their data. -/
inductive Supply where
  /-- With a pass of a server render. -/
  | server (pass : PassId)
  /-- With a mounted application. -/
  | client (client : ClientId)
  deriving DecidableEq, Repr

/-- The client behind a supply. -/
def Supply.client? : Supply → Option ClientId
  | server _ => none
  | client c => some c

/-- What the first run of a region takes over from the walk that put it there. -/
structure Handover where
  /-- What is done with the nodes inside. -/
  mode : Hydration.Mode
  /-- The account. -/
  report : ReportId
  /-- The mark. -/
  flag : FlagId
  deriving DecidableEq, Repr

/-- What an effect does. -/
inductive Reaction where
  /-- It runs a program, whose failure may count as an error. -/
  | body (p : Program) (fallible : Bool)
  /-- It keeps a text in step with a program. -/
  | text (document : DocumentId) (node : DomId) (p : Program)
  /-- It keeps an attribute in step with a program. -/
  | attr (document : DocumentId) (node : DomId) (name : String) (p : Program)
  /-- It draws the inside of a wrapper, from what is there in its first run. -/
  | region (document : DocumentId) (wrapper : DomId) (p : Program) (first : Option Handover)
  /-- It builds fragments inside a wrapper; its first run is accounted for. -/
  | insert (document : DocumentId) (wrapper : DomId) (p : Program) (first : Option ReportId)

/-- An effect. -/
structure Effect where
  /-- What it does. -/
  reaction : Reaction
  /-- The scope that is current while it runs. -/
  scope : ScopeId
  /-- Where the queries of its program find their data. -/
  supply : Option Supply := none
  /-- Whether it must not run any more. -/
  disposed : Bool := false
  /-- How often it has run. -/
  runs : Nat := 0

/-- What lies behind a node. -/
inductive Cell where
  /-- The value of a signal. -/
  | signal (v : Json)
  /-- The value of a query, once it has one. -/
  | query (v : Option Json)
  /-- A computed value: how to compute it, and what came out the last time. -/
  | computed (p : Program) (v : Option Json)
  /-- An effect. -/
  | effect (e : Effect)

/-- What is undone when a scope ends. -/
inductive Cleanup where
  /-- A program runs. -/
  | program (p : Program)
  /-- A listener is removed. -/
  | unlisten (document : DocumentId) (node : DomId) (listener : Nat)

/-- Who takes an error. -/
inductive Handler where
  /-- A program, given the text of the error. -/
  | program (p : Json → Program)
  /-- A boundary. -/
  | boundary (b : BoundaryId)

/-- What is put off until a flush is over. -/
inductive Deferred where
  /-- An error that no one took. -/
  | uncaught (error : String)
  /-- The switch of a boundary to its fallback. -/
  | fallback (b : BoundaryId) (error : String)

/-- A boundary and what is drawn between its ends. -/
structure Boundary where
  /-- The document. -/
  document : DocumentId
  /-- The account of the walk that put it there. -/
  report : ReportId
  /-- The node that its ends are children of. -/
  parent : DomId
  /-- Where it starts. -/
  opening : DomId
  /-- Where it ends. -/
  closing : DomId
  /-- The scope it was put in. -/
  owner : Option ScopeId
  /-- Where its queries find their data. -/
  supply : Option Supply
  /-- What it shows. -/
  content : Program
  /-- What it shows instead of its content when an error is raised there. -/
  fallback : Option (Json → Program)
  /-- The scope of what it shows at present. -/
  scope : Option ScopeId := none
  /-- Whether its first drawing is over; until then errors are collected. -/
  armed : Bool := false
  /-- Whether it shows its fallback. -/
  showing : Bool := false
  /-- The errors that were collected. -/
  errors : List String := []

/-- A cursor at work. -/
structure Drawing where
  /-- The document. -/
  document : DocumentId
  /-- The account. -/
  report : ReportId
  /-- The mark. -/
  flag : FlagId
  /-- The place. -/
  cursor : Hydration.Cursor

/-- A query that waits for the result of a fetch. -/
structure Consumer where
  /-- The node of the query. -/
  node : NodeId
  /-- The scope that was current when it was made. -/
  scope : Option ScopeId
  /-- The shape of its values. -/
  shape : Query.Shape

/-- A fetch that was put off, with all who wait for it. -/
structure PendingFetch where
  /-- The key. -/
  key : String
  /-- The fetch. -/
  fetch : Query.Fetch
  /-- Who waits for it, first come first served. -/
  consumers : List Consumer

/-- The query data of a mounted application. -/
structure Client where
  /-- The values that the server has sent. -/
  payload : Query.Payload
  /-- The fetches that were put off. -/
  pending : List PendingFetch := []

/-- What a pass of a server render knows and learns about queries. -/
inductive Pass where
  /-- The first pass learns which fetches there are, each key once, in order. -/
  | discovery (fetches : List (String × Query.Fetch))
  /-- The last pass knows what became of them and learns which keys are asked for. -/
  | final (verdicts : List (String × Query.Verdict)) (requested : List String)

/-- A mounted application. -/
structure Mount where
  /-- The document. -/
  document : DocumentId
  /-- The node that it was mounted below. -/
  target : DomId
  /-- Its scope. -/
  scope : ScopeId
  /-- Its query data. -/
  client : ClientId
  /-- The account of the walk. -/
  report : ReportId
  /-- The states that it went through. -/
  phases : List Hydration.Phase

/-- A coordinator of server renders. -/
structure Coordinator where
  /-- Its options. -/
  options : Query.Options
  /-- Its cache. -/
  cache : CacheId

/-- What a name may stand for. -/
inductive Handle where
  /-- A signal. -/
  | signal (id : NodeId)
  /-- The two halves of a signal. -/
  | pair (id : NodeId)
  /-- A computed value. -/
  | computed (id : NodeId)
  /-- An effect. -/
  | effect (id : NodeId)
  /-- A query with its key. -/
  | query (id : NodeId) (key : String)
  /-- A scope. -/
  | scope (id : ScopeId)
  /-- A node of a document. -/
  | node (document : DocumentId) (node : DomId)
  /-- A mounted application. -/
  | mount (m : Mount)
  /-- A coordinator. -/
  | coordinator (c : Coordinator)

/-- Something that is in use and must not go away. -/
inductive Hold where
  /-- A node. -/
  | node (id : NodeId)
  /-- The query data of an application. -/
  | client (id : ClientId)
  deriving DecidableEq, Repr

/-- A value that comes too late for those who asked, and is kept in a cache. -/
structure Late where
  /-- The moment at which it is there. -/
  due : Nat
  /-- The cache it goes to. -/
  cache : CacheId
  /-- The key. -/
  key : String
  /-- The value. -/
  value : Json

/-- A procedure, given the variables it sees and whether it may use the cursor. -/
abbrev Procedure := List (String × Json) → Bool → Program

/-- The state of the engine. -/
structure State where
  /-- Who reads whom. -/
  graph : Graph := {}
  /-- The effects that wait. -/
  queue : Queue := {}
  /-- The computations that run. -/
  tracking : Tracking := {}
  /-- What lies behind the nodes. -/
  cells : Std.HashMap NodeId Cell := ∅
  /-- What each node was created as. The number of a node is its place here. -/
  kinds : Array Graph.Kind := #[]
  /-- The scopes. -/
  scopes : Scopes Cleanup Handler := {}
  /-- What is put off until the flush is over, in order. -/
  deferred : List Deferred := []
  /-- Who takes the errors that no one else takes. -/
  uncaught : Option (Json → Program) := none
  /-- The documents. -/
  documents : Array (Document (Json → Program)) := #[]
  /-- The accounts of walks. -/
  reports : Array Hydration.Report := #[]
  /-- The marks of walks. -/
  flags : Array Bool := #[]
  /-- The cursors at work, innermost first. -/
  drawings : List Drawing := []
  /-- The boundaries. -/
  boundaries : Array Boundary := #[]
  /-- Where queries find their data, innermost first. -/
  supplies : List Supply := []
  /-- The passes of server renders. -/
  passes : Array Pass := #[]
  /-- The query data of applications. -/
  clients : Std.HashMap ClientId Client := ∅
  /-- The number of the next client. -/
  nextClient : Nat := 0
  /-- The data that a fetch is being started for, innermost first. -/
  starting : List Supply := []
  /-- The caches of late results. -/
  caches : Array Query.Cache := #[]
  /-- The time, in milliseconds. -/
  clock : Nat := 0
  /-- The late values on their way. -/
  late : List Late := []
  /-- What the names stand for, each name once. -/
  names : List (String × Handle) := []
  /-- The scopes that programs keep current, each by a name of its own. -/
  guards : List (String × ScopeId) := []
  /-- What is in use. -/
  held : List Hold := []
  /-- The procedures. -/
  procedures : Std.HashMap String Procedure := ∅
  /-- What was logged, the latest first. -/
  log : List Json := []

namespace State

/-- What a name stands for. -/
def handle? (s : State) (name : String) : Option Handle := s.names.lookup name

/-- A document. -/
def document (s : State) (id : DocumentId) : Document (Json → Program) :=
  s.documents[id.index]?.getD default

/-- Changes a document. -/
def modifyDocument (s : State) (id : DocumentId)
    (f : Document (Json → Program) → Document (Json → Program)) : State :=
  { s with documents := s.documents.modify id.index f }

/-- An account. -/
def report (s : State) (id : ReportId) : Hydration.Report := s.reports[id.index]?.getD {}

/-- Changes an account. -/
def modifyReport (s : State) (id : ReportId) (f : Hydration.Report → Hydration.Report) : State :=
  { s with reports := s.reports.modify id.index f }

/-- Whether a walk is marked as unresolved. -/
def flag (s : State) (id : FlagId) : Bool := s.flags[id.index]?.getD false

/-- A boundary. -/
def boundary? (s : State) (id : BoundaryId) : Option Boundary := s.boundaries[id.index]?

/-- Changes a boundary. -/
def modifyBoundary (s : State) (id : BoundaryId) (f : Boundary → Boundary) : State :=
  { s with boundaries := s.boundaries.modify id.index f }

/-- A cache. -/
def cache (s : State) (id : CacheId) : Query.Cache := s.caches[id.index]?.getD {}

/-- Changes a cache. -/
def modifyCache (s : State) (id : CacheId) (f : Query.Cache → Query.Cache) : State :=
  { s with caches := s.caches.modify id.index f }

/-- Changes the graph. -/
def modifyGraph (s : State) (f : Graph → Graph) : State := { s with graph := f s.graph }

/-- Changes the queue. -/
def modifyQueue (s : State) (f : Queue → Queue) : State := { s with queue := f s.queue }

/-- Changes the tracking stack. -/
def modifyTracking (s : State) (f : Tracking → Tracking) : State :=
  { s with tracking := f s.tracking }

/-- Changes the scopes. -/
def modifyScopes (s : State) (f : Scopes Cleanup Handler → Scopes Cleanup Handler) : State :=
  { s with scopes := f s.scopes }

/-- Puts something behind a node. -/
def setCell (s : State) (id : NodeId) (c : Cell) : State :=
  { s with cells := s.cells.insert id c }

/-- Changes an effect. -/
def modifyEffect (s : State) (id : NodeId) (f : Effect → Effect) : State :=
  { s with cells := s.cells.modify id fun
      | .effect e => .effect (f e)
      | c => c }

/-- The effect behind a node. -/
def effect? (s : State) (id : NodeId) : Option Effect :=
  match s.cells[id]? with
  | some (.effect e) => some e
  | _ => none

/-- Changes the query data of an application. -/
def modifyClient (s : State) (id : ClientId) (f : Client → Client) : State :=
  { s with clients := s.clients.modify id f }

/-- Logs a value. -/
def addLog (s : State) (v : Json) : State := { s with log := v :: s.log }

/-- Where queries find their data at present. -/
def supply? (s : State) : Option Supply := s.supplies.head?

end State

end Rivulet.Engine
