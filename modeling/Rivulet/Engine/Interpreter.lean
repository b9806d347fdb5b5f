import Rivulet.Engine.Mounting
import Rivulet.Engine.Server

/-!
# Running programs

A program makes one call after the other, and each goes on with the answer. A name that
stands for nothing, or for something of another kind, makes a call do nothing.
-/

namespace Rivulet.Engine

open Hydration

/-- The node of a signal or of its two halves. -/
def Handle.signal? : Handle → Option NodeId
  | signal id | pair id => some id
  | _ => none

/-- The node of a query. -/
def Handle.query? : Handle → Option NodeId
  | query id _ => some id
  | _ => none

/-- A node of a document. -/
def Handle.domNode? : Handle → Option (DocumentId × DomId)
  | node document dom => some (document, dom)
  | _ => none

/-- A coordinator. -/
def Handle.coordinator? : Handle → Option Coordinator
  | coordinator c => some c
  | _ => none

/-- The scope of a handle; effects and applications have one too. -/
def State.scopeOf? (s : State) : Handle → Option ScopeId
  | .scope id => some id
  | .effect id => (s.effect? id).map (·.scope)
  | .mount m => some m.scope
  | _ => none

/-- Looks up what a name stands for, and goes on if it is of the right kind. -/
def withHandle {α : Type} (name : String) (kind? : Handle → Option α)
    (body : α → Run (Option Json)) : Run (Option Json) := do
  match ((← get).handle? name).bind kind? with
  | some a => body a
  | none => return none

/-- Looks up a scope, and goes on if there is one. -/
def withScopeOf (name : String) (body : ScopeId → Run (Option Json)) : Run (Option Json) := do
  let s ← get
  match (s.handle? name).bind s.scopeOf? with
  | some scope => body scope
  | none => return none

/-- No answer. -/
def noAnswer (body : Run Unit) : Run (Option Json) := do
  body
  return none

/-- Creates a signal. -/
def createSignal (name : Option String) (handle : NodeId → Handle) (v : Json) : Run Unit := do
  let id ← addNode .source (.signal v)
  modify (·.bindName name (handle id))

/-- Records a read. -/
def recordRead (id : NodeId) : Run Unit := modify (·.modifyTracking (·.record id))

/-- The value of a query, `null` while it is loading. -/
def State.queryValue (s : State) (id : NodeId) : Option Json :=
  match s.cells[id]? with
  | some (.query v) => v
  | _ => none

/-- Reads what a name stands for. -/
def read (κ : Kernel) (name : String) : Run (Option Json) := do
  match (← get).handle? name with
  | some (.signal id) | some (.pair id) =>
    recordRead id
    return some ((← get).signalValue id)
  | some (.computed id) => return some (← κ.read id)
  | some (.query id _) =>
    recordRead id
    return some (.orNull ((← get).queryValue id))
  | _ => return none

/-- The size of the text of what a name stands for, in bytes; queries have none. -/
def readSize (κ : Kernel) (name : String) : Run (Option Json) := do
  match (← get).handle? name with
  | some (.query _ _) => return none
  | _ => return (← read κ name).map fun v => .ofNat (Text.byteLength v.print)

/-- Reads the state of a query. -/
def readQuery (name : String) (view : Option Json → Json) : Run (Option Json) :=
  withHandle name Handle.query? fun id => do
    recordRead id
    return some (view ((← get).queryValue id))

/-- The state of a query as a value. -/
def queryState (v : Option Json) : Json :=
  v.elim (.str "loading") fun v => .ofFields [("ready", v)]

/-- Gives a signal that is in use a value, which lets everyone know unless it is the same;
whether it was another one. -/
def replaceOld (κ : Kernel) (id : NodeId) (v : Json) : Run Bool := do
  if (← get).signalValue id == v then return false
  replaceValue κ id (.signal v)
  return true

/-- Writes a signal; whether its value was another one. -/
def write (κ : Kernel) (id : NodeId) (v : Json) : Run Bool := holding id (replaceOld κ id v)

/-- Writes a signal and lets everyone know in any case. -/
def overwrite (κ : Kernel) (id : NodeId) (v : Json) : Run Unit :=
  holding id (replaceValue κ id (.signal v))

/-- What a change shows. -/
def changedValue (changed : Bool) : Json := .ofFields [("changed", .bool changed)]

/-- Makes a change, unless a computed value is being evaluated. -/
def ifWritable (body : Run Bool) : Run (Option Json) := do
  if (← get).tracking.inDerived then
    return some (.ofFields [("error", .str "WriteInComputed")])
  return some (changedValue (← body))

/-- Ends being current for what a guard has kept so. -/
def dropGuard (name : String) : Run (Option ScopeId) :=
  modifyGet fun s =>
    match s.guards.lookup name with
    | none => (none, s)
    | some scope =>
      (some scope, { s with
        guards := s.guards.filter (·.1 ≠ name)
        scopes := s.scopes.leave scope })

/-- Makes a scope current until its guard is given up. -/
def keepCurrent (scope : ScopeId) (guard : Option String) : Run Unit :=
  modify fun s =>
    match guard with
    | none => s
    | some name =>
      let scopes := s.scopes.enter scope
      let scopes := (s.guards.lookup name).elim scopes scopes.leave
      { s with scopes, guards := (name, scope) :: s.guards.filter (·.1 ≠ name) }

/-- What shows when a cleanup has no scope to be registered on. -/
def noScopeValue : Json :=
  .ofFields [("error", .str "DisposalScopeError"),
    ("message", .str "on_cleanup called outside of any disposal scope")]

/-- Registers a cleanup on the current scope. -/
def addCleanup (p : Program) : Run (Option Json) :=
  modifyGet fun s =>
    match s.scopes.addCleanup? (.program p) with
    | some scopes => (none, { s with scopes })
    | none => (some noScopeValue, s)

/-- Looks up a node of a document, and goes on if there is one. -/
def withNode (name : String) (body : DocumentId → DomId → Run (Option Json)) :
    Run (Option Json) :=
  withHandle name Handle.domNode? fun (document, node) => body document node

/-- Shows something of a node. -/
def showNode (name : String) (view : Document (Json → Program) → DomId → Json) :
    Run (Option Json) :=
  withNode name fun document node => return some (view ((← get).document document) node)

/-- Reads markup into a new document. -/
def openDocument (name : Option String) (markup : String) : Run (Option Json) := do
  match Document.parse markup with
  | .error e => return some e.value
  | .ok d =>
    let document ← newDocument d
    modify (·.bindName name (.node document Document.root))
    return none

/-- Sends an event to a node and counts the listeners that it reached. -/
def dispatch (κ : Kernel) (document : DocumentId) (node : DomId) (event : String) : Run Nat := do
  let listeners := ((← get).document document).listenersFor node event
  listeners.forM fun p => κ.perform (p (.arr [.str event, .str node.display]))
  return listeners.length

/-- The tree below a node and the count of created nodes, as a value. -/
def outlineValue (d : Document (Json → Program)) (node : DomId) : Json :=
  .arr [d.treeValue node, .ofNat d.created]

/-- Looks for a node below another one and lets a name stand for it. -/
def findNode (node tag : String) (k : Nat) (name : Option String) : Run (Option Json) :=
  withNode node fun document node => do
    match (((← get).document document).findAll node tag)[k]? with
    | none => return some .null
    | some found =>
      modify (·.bindName name (.node document found))
      return some (.str found.display)

/-- Replaces what is below a node by markup; what is wrong with it, if anything. -/
def setInner (document : DocumentId) (node : DomId) (markup : String) : Run (Option Json) :=
  modifyGet fun s =>
    let (d, fault) := (s.document document).setInner node markup
    (fault.map (·.value), s.modifyDocument document fun _ => d)

/-! ## Coordinators -/

/-- Creates a coordinator. -/
def createCoordinator (name : Option String) (options : Query.Options) (other : Option String) :
    Run Json :=
  modifyGet fun s =>
    let shared := (other.bind s.handle?).bind Handle.coordinator?
    let (cache, s) : CacheId × State := match shared with
      | some c => (c.cache, s)
      | none => (⟨s.caches.size⟩, { s with caches := s.caches.push {} })
    (.arr [.ofNat (options.timeout / 1000000), .str options.variableName,
        .bool options.includePayload],
      s.bindName name (.coordinator { options, cache }))

/-- Makes a call that takes no program. -/
def performOp (κ : Kernel) : Op → Run (Option Json)
  | .log v => noAnswer (modify (·.addLog v))
  | .get name => read κ name
  | .peek name => untracked (read κ name)
  | .size name => readSize κ name
  | .state name => readQuery name queryState
  | .loading name => readQuery name fun v => .bool v.isNone
  | .signal name v => noAnswer (createSignal name .signal v)
  | .pair name v => noAnswer (createSignal name .pair v)
  | .set name v => withHandle name Handle.signal? fun id => noAnswer do
      ensureWritable
      let _ ← write κ id v
  | .trySet name v => withHandle name Handle.signal? fun id => ifWritable (write κ id v)
  | .update name v => withHandle name Handle.signal? fun id => noAnswer do
      ensureWritable
      overwrite κ id v
  | .tryUpdate name v =>
    withHandle name (fun | .signal id => some id | _ => none) fun id => ifWritable do
      overwrite κ id v
      return true
  | .stop name =>
    withHandle name (fun | .effect id => some id | _ => none) fun id =>
      noAnswer (stopEffect κ id)
  | .schedule name =>
    withHandle name (fun | .effect id => some id | _ => none) fun id => noAnswer do
      match (← get).effect? id with
      | some e => unless e.disposed do holding id (scheduleEffect κ id)
      | none => return
  | .drop name => noAnswer (modify (·.unbind name))
  | .inspect name => return some (((← get).handle? name).elim .null (← get).handleValue)
  | .debug name =>
    return some (.str (((← get).handle? name).elim State.noSummary (← get).handleSummary))
  | .stats => return some (← get).statsValue
  | .pushScope name => noAnswer do
      let scope ← createScope (← get).scopes.current?
      keepCurrent scope name
      modify (·.bindName name (.scope scope))
  | .enterScope scope guard => withScopeOf scope fun id => noAnswer (keepCurrent id guard)
  | .popScope guard => do
      match ← dropGuard guard with
      | none => return none
      | some scope => return some (.str ((← get).scopeName scope))
  | .dropGuard guard => noAnswer do let _ ← dropGuard guard
  | .createScope name => noAnswer do
      let scope ← createScope (← get).scopes.current?
      modify (·.bindName name (.scope scope))
  | .createRoot name => noAnswer do
      let scope ← createScope none
      modify (·.bindName name (.scope scope))
  | .createChild name parent => withScopeOf parent fun parent => noAnswer do
      let scope ← createScope (some parent)
      modify (·.bindName name (.scope scope))
  | .dispose scope => withScopeOf scope fun id => noAnswer (κ.dispose id)
  | .reportError none failure => noAnswer (κ.report none failure.display)
  | .reportError (some scope) failure =>
    withScopeOf scope fun id => noAnswer (κ.report (some id) failure.display)
  | .forgetUncaught => noAnswer (modify ({ · with uncaught := none }))
  | .document name markup => openDocument name markup
  | .html node => showNode node fun d n => .str (d.inner n)
  | .outer node => showNode node fun d n => .arr [.str n.display, .str (d.outer n)]
  | .outline node => showNode node outlineValue
  | .find node tag k name => findNode node tag k name
  | .dispatch node event => withNode node fun document node => do
      return some (.ofFields [("ran", .ofNat (← dispatch κ document node event))])
  | .listeners node => showNode node fun d n => .ofNat (d.listenerCount n)
  | .setInner node markup => withNode node fun document node => setInner document node markup
  | .mounted name =>
    withHandle name (fun | .mount m => some m | _ => none) fun m => do
      ensureUnlocked (.client m.client) lockedForLook
      return some ((← get).mountValue m)
  | .unmount name =>
    withHandle name (fun | .mount m => some m | _ => none) fun m => noAnswer (unmount κ name m)
  | .coordinator name options other => return some (← createCoordinator name options other)
  | .cachePut name key v => withHandle name Handle.coordinator? fun c =>
      noAnswer (modify (·.modifyCache c.cache (·.insert key v)))
  | .cacheGet name key => withHandle name Handle.coordinator? fun c => do
      let cache := (← get).cache c.cache
      return some (.ofFields [("len", .ofNat cache.size), ("value", .ofOption (cache.get? key))])
  | .claim expected attrs name => noAnswer do let _ ← claimAs name (Walk.claim expected attrs)
  | .enter => noAnswer (walking Walk.enterChildren)
  | .exit => noAnswer (walking Walk.exitChildren)
  | .finish => noAnswer (walking (modify Walk.finish))
  | .staticText content name => noAnswer do let _ ← claimAs name (Walk.staticText content)
  | .append fragment name => noAnswer do let _ ← claimAs name (Walk.append fragment)
  | .cursor => do
      let mode ← walking Walk.mode
      let d ← currentDrawing
      return some ((← get).cursorValue d mode)

/-- Runs a program inside a call. -/
def enclose (κ : Kernel) (e : Enclosure) (body : Program) : Run (Outcome × Option Json) := do
  match e with
  | .plain => return (← κ.exec body, none)
  | .batch => return (← batch κ (κ.exec body), none)
  | .untrack => return (← untracked (κ.exec body), none)
  | .scope name =>
    let s ← get
    match (s.handle? name).bind s.scopeOf? with
    | none => return (.value .null, none)
    | some scope => return (← withScope scope (κ.exec body), none)
  | .walk mode name =>
    match ((← get).handle? name).bind Handle.domNode? with
    | none => return (.value .null, none)
    | some (document, node) =>
      let d ← newDrawing document node mode
      let outcome ← drawing d (κ.exec body)
      let s ← get
      return (outcome, some (.ofFields [("report", (s.report d.report).value),
        ("unresolved", .bool (s.flag d.flag))]))

/-- Makes a call that keeps a program. -/
def performInstall (κ : Kernel) (body : Json → Program) : Install → Run (Option Json)
  | .computed name => noAnswer (createComputed name (body .null))
  | .effect name fallible => noAnswer (createEffect κ (.body (body .null) fallible) none name)
  | .cleanup => addCleanup (body .null)
  | .onError scope => withScopeOf scope fun id => noAnswer do
      modify (·.modifyScopes (·.setHandler id (.program body)))
  | .uncaught => noAnswer (modify ({ · with uncaught := some body }))
  | .dynText name => noAnswer (dynText κ name (body .null))
  | .attr node name => withNode node fun _ n => noAnswer (bindAttr κ n name (body .null))
  | .listener node event => withNode node fun _ n => do
      return if ← listen n event body then none else some noScopeValue
  | .region name => noAnswer (region κ name (body .null))
  | .insert name => noAnswer (insert κ name (body .null))
  | .boundary => noAnswer (boundary κ (body .null) none)
  | .mount name node mode payload notice => withNode node fun document target => do
      modify fun s => notice.elim s s.addLog
      return some (← mount κ name document target mode payload (body .null))
  | .discover coordinator route => withHandle coordinator Handle.coordinator? fun _ => do
      let fetches ← discover κ (body (.str route))
      return some (.ofFields [("keys", .ofTexts (fetches.map (·.1)))])

/-- Runs a program. -/
def exec (κ : Kernel) : Program → Run Outcome
  | .stop o => return o
  | .panic message => panicWith message
  | .op o next => do
    let answer ← performOp κ o
    exec κ (next answer)
  | .within e body next => do
    let (outcome, answer) ← enclose κ e body
    exec κ (next outcome answer)
  | .install i body next => do
    let answer ← performInstall κ body i
    exec κ (next answer)
  | .guarded fallback content next => do
    boundary κ content (some fallback)
    exec κ next
  | .query name key shape plan value next => do
    createQuery κ name key shape plan value
    exec κ next
  | .call name seen drawing next => do
    match (← get).procedures[name]? with
    | none => exec κ (next (.value .null))
    | some p =>
      let outcome ← κ.exec (p seen drawing)
      exec κ (next outcome)

/-- Answers a call, asking the kernel for what goes deeper. -/
def answer (κ : Kernel) : Call → Run Outcome
  | .exec p => exec κ p
  | .refresh id => do
    refresh κ id
    return .value .null
  | .read id => return .value (← readComputed κ id)
  | .dispose scope => do
    disposeScope κ scope
    return .value .null
  | .drain => do
    drain κ
    return .value .null
  | .report scope error => do
    reportError κ scope error
    return .value .null

/-- The kernel that goes no deeper than the given number of calls. -/
def kernel : Nat → Kernel
  | 0 => fun _ => throw .outOfFuel
  | n + 1 => fun c => answer (kernel n) c

end Rivulet.Engine
