import Rivulet.Engine.Refresh

/-!
# Queries

A query is a signal that is loading until its value is there. Where the value comes from
depends on the render that the query is made in: the first pass of a server render only
learns of the fetch, the last pass knows what became of it, and an application takes what
the server has sent or puts the fetch off. Outside of any render a query stays loading.
While a fetch is being started, the data that it is started for takes no other query.
-/

namespace Rivulet.Engine

open Query

/-- Starts a fetch. Its value is evaluated at once, though the fetch yields it later. -/
def startFetch (κ : Kernel) (key : String) (shape : Shape) (plan : Plan) (value : Program) :
    Run Fetch := do
  modify (·.addLog (.ofFields [("fetch", .str key)]))
  return { plan, shape, value := ← κ.eval value }

/-- Gives a query its value. -/
def resolveQuery (κ : Kernel) (id : NodeId) (v : Json) : Run Unit := do
  ensureWritable
  match (← get).cells[id]? with
  | some (.query old) => unless isCurrent old v do replaceValue κ id (.query (some v))
  | _ => return

/-- What a failure on the server means: an error for the boundary around, if there is one. -/
def failOnServer (κ : Kernel) (failure : Failure) : Run Unit := do
  let s ← get
  match s.scopes.current? with
  | none => return
  | some scope =>
    if (s.scopes.findHandler scope).isSome then κ.report (some scope) failure.display

/-- What a change of data says while a fetch is being started for it. -/
def lockedForChange : String := "RefCell already borrowed"

/-- What a look at data says while a fetch is being started for it. -/
def lockedForLook : String := "RefCell already mutably borrowed"

/-- Breaks down if a fetch is being started for the data. -/
def ensureUnlocked (supply : Supply) (message : String) : Run Unit := do
  if (← get).starting.contains supply then panicWith message

/-- Starts a fetch for some data, which must be left alone meanwhile. -/
def locking (supply : Supply) (start : Run Fetch) : Run Fetch := do
  modify fun s => { s with starting := supply :: s.starting }
  guarding (fun s => { s with starting := s.starting.tail }) start

/-- Learns of a fetch; of several for one key the first one counts. -/
def recordFetch (pass : PassId) (fetches : List (String × Fetch)) (key : String)
    (start : Run Fetch) : Run Unit := do
  ensureUnlocked (.server pass) lockedForChange
  unless fetches.any (·.1 = key) do
    let fetch ← locking (.server pass) start
    modify fun s => { s with
      passes := s.passes.setIfInBounds pass.index (.discovery (fetches ++ [(key, fetch)])) }

/-- Adds a key to those that were asked for. -/
def request (key : String) (requested : List String) : List String :=
  if key ∈ requested then requested else requested ++ [key]

/-- Answers a query of the last pass. -/
def answerFinal (κ : Kernel) (id : NodeId) (shape : Shape) : Option Verdict → Run Unit
  | some (.resolved v) =>
    match shape.check v with
    | .ok v => resolveQuery κ id v
    | .error message => failOnServer κ (.decode message)
  | some (.failed message) => failOnServer κ (.fetch message)
  | some .pending | none => return

/-- The fetches that are put off, with one more consumer for a key, if it is there. -/
def joinPending (key : String) (consumer : Consumer) :
    List PendingFetch → Option (List PendingFetch)
  | [] => none
  | p :: rest =>
    if p.key = key then some ({ p with consumers := p.consumers ++ [consumer] } :: rest)
    else (joinPending key consumer rest).map (p :: ·)

/-- Puts a fetch off. A key that waits already only gains a consumer. -/
def deferFetch (client : ClientId) (key : String) (consumer : Consumer) (start : Run Fetch) :
    Run Unit := do
  ensureUnlocked (.client client) lockedForChange
  let pending := (((← get).clients[client]?).map (·.pending)).getD []
  match joinPending key consumer pending with
  | some pending => modify (·.modifyClient client ({ · with pending }))
  | none =>
    let fetch ← locking (.client client) start
    modify (·.modifyClient client fun c =>
      { c with pending := c.pending ++ [⟨key, fetch, [consumer]⟩] })

/-- Answers a query of an application from what the server has sent, or puts its fetch
off. -/
def answerClient (κ : Kernel) (id : NodeId) (client : ClientId) (key : String) (shape : Shape)
    (start : Run Fetch) : Run Unit := do
  let s ← get
  let consumer : Consumer := { node := id, scope := s.scopes.current?, shape }
  match ((s.clients[client]?).bind (·.payload.get? key)).map shape.check with
  | some (.ok v) => resolveQuery κ id v
  | some (.error _) | none => deferFetch client key consumer start

/-- Creates a query and lets a name stand for it. -/
def createQuery (κ : Kernel) (name : Option String) (key : String) (shape : Shape) (plan : Plan)
    (value : Program) : Run Unit := do
  let id ← addNode .source (.query none)
  let start := startFetch κ key shape plan value
  holding id do
    let s ← get
    match s.supply? with
    | none => pure ()
    | some (.client client) => answerClient κ id client key shape start
    | some (.server pass) =>
      match s.passes[pass.index]? with
      | some (.discovery fetches) => recordFetch pass fetches key start
      | some (.final verdicts requested) =>
        set { s with
          passes := s.passes.setIfInBounds pass.index (.final verdicts (request key requested)) }
        answerFinal κ id shape (verdicts.lookup key)
      | none => pure ()
    modify (·.bindName name (.query id key))

end Rivulet.Engine
