import Rivulet.Proofs.Watching.Drawing

/-!
# Programs under observation

Queries, applications and programs conduct themselves, if the calls that they make do. So the calls
of the kernel that has an observer do, at any depth.
-/

namespace Rivulet.Engine

open Hydration

section

variable {C : Conduct} {κ : Notes → Kernel} (hκ : CallsConduct C κ)
  {s : State}

include hκ in
private theorem conducts_startFetch (key : String) (shape : Query.Shape) (plan : Query.Plan)
    (value : Program) : Conducts C (fun notes => startFetch (κ notes) key shape plan value) s :=
  (Conducts.log _).bind fun _ _ => (conducts_eval hκ value).bind fun _ _ => .ret _

include hκ in
/-- Resolving a query of a server render goes by the conduct. -/
theorem conducts_resolveQuery (id : NodeId) (v : Json) :
    Conducts C (fun notes => resolveQuery (κ notes) id v) s := by
  refine conducts_ensureWritable.bind fun _ _ => .look ?_ fun _ _ => rfl
  split
  · exact .ite (fun _ => .ret ()) fun _ => conducts_replaceValue hκ id _
  · exact .ret ()

include hκ in
private theorem conducts_failOnServer (failure : Query.Failure) :
    Conducts C (fun notes => failOnServer (κ notes) failure) s := by
  refine .look ?_ fun _ _ => rfl
  cases s.scopes.current? with
  | none => exact .ret ()
  | some scope => exact .ite (fun _ => conducts_callReport hκ _ _) fun _ => .ret ()

/-- The check that nothing is locked goes by the conduct. -/
theorem conducts_ensureUnlocked (supply : Supply) (message : String) :
    Conducts C (fun _ => ensureUnlocked supply message) s :=
  .look (.ite (fun _ => .raise _) fun _ => .ret ()) fun _ _ => rfl

/-- Doing something while it is locked goes by the conduct. -/
theorem conducts_locking (supply : Supply) {x : Watch Query.Fetch}
    (h : ∀ s, Conducts C x s) :
    Conducts C (fun notes => locking supply (x notes)) s :=
  .change (C.aside rfl rfl rfl rfl) ((h _).guarding (fun _ => C.aside rfl rfl rfl rfl)
    fun _ _ => rfl) fun _ => rfl

private theorem conducts_recordFetch (pass : PassId) (fetches : List (String × Query.Fetch))
    (key : String)
    {x : Watch Query.Fetch} (h : ∀ s, Conducts C x s) :
    Conducts C (fun notes => recordFetch pass fetches key (x notes)) s := by
  refine (conducts_ensureUnlocked _ _).bind fun _ _ => .ite (fun _ => .ret ()) fun _ => ?_
  exact (conducts_locking _ h).bind fun _ _ => .step (C.aside rfl rfl rfl rfl) fun _ => rfl

include hκ in
/-- Answering a query in the final pass goes by the conduct. -/
theorem conducts_answerFinal (id : NodeId) (shape : Query.Shape) (verdict : Option Query.Verdict) :
    Conducts C (fun notes => answerFinal (κ notes) id shape verdict) s := by
  unfold answerFinal
  split
  · split
    · exact conducts_resolveQuery hκ id _
    · exact conducts_failOnServer hκ _
  · exact conducts_failOnServer hκ _
  · exact .ret ()
  · exact .ret ()

private theorem conducts_deferFetch (client : ClientId) (key : String) (consumer : Consumer)
    {x : Watch Query.Fetch} (h : ∀ s, Conducts C x s) :
    Conducts C (fun notes => deferFetch client key consumer (x notes)) s := by
  refine (conducts_ensureUnlocked _ _).bind fun _ s' => .look ?_ fun _ _ => rfl
  simp only
  split
  · exact .step (C.aside rfl rfl rfl rfl) fun _ => rfl
  · exact (conducts_locking _ h).bind fun _ s' => .step (C.aside rfl rfl rfl rfl) fun _ => rfl

include hκ in
private theorem conducts_answerClient (id : NodeId) (client : ClientId) (key : String)
    (shape : Query.Shape) {x : Watch Query.Fetch} (h : ∀ s, Conducts C x s) :
    Conducts C (fun notes => answerClient (κ notes) id client key shape (x notes)) s := by
  refine .look ?_ fun _ _ => rfl
  simp only
  split
  · exact conducts_resolveQuery hκ id _
  · exact conducts_deferFetch client key _ h
  · exact conducts_deferFetch client key _ h

include hκ in
/-- Making a query goes by the conduct. -/
theorem conducts_createQuery (name : Option String) (key : String) (shape : Query.Shape)
    (plan : Query.Plan) (value : Program) :
    Conducts C (fun notes => createQuery (κ notes) name key shape plan value) s := by
  refine (conducts_addNode .source _ nofun).bind fun id _ => conducts_holding fun s => ?_
  have hstart (s : State) := conducts_startFetch hκ (s := s) key shape plan value
  have hname (s : State) :
      Conducts C (fun _ => (modify (·.bindName name (.query id key)) : Run Unit)) s :=
    conducts_bindName name (.query id key)
  have hread (log : List Json) : (s.relogged log).supply? = s.supply? := rfl
  have hpass (log : List Json) : (s.relogged log).passes = s.passes := rfl
  cases hsupply : s.supply? with
  | none =>
    refine Seen.of_eq (hname s) fun notes log => ?_
    simp only [run_get, hread, hsupply]
  | some supply =>
    cases supply with
    | client client =>
      refine Seen.of_eq ((conducts_answerClient hκ id client key shape hstart).bind fun _ => hname)
        fun notes log => ?_
      simp only [run_get, hread, hsupply]
    | server pass =>
      cases hpasses : s.passes[pass.index]? with
      | none =>
        refine Seen.of_eq (hname s) fun notes log => ?_
        simp only [run_get, hread, hsupply, hpass, hpasses]
      | some p =>
        cases p with
        | discovery fetches =>
          refine Seen.of_eq ((conducts_recordFetch pass fetches key hstart).bind fun _ => hname)
            fun notes log => ?_
          simp only [run_get, hread, hsupply, hpass, hpasses]
        | final verdicts requested =>
          let rest (notes : Notes) (_ : Unit) : Run Unit := do
            answerFinal (κ notes) id shape (verdicts.lookup key)
            modify (·.bindName name (.query id key))
          have hrest (s : State) : Conducts C (fun notes => rest notes ()) s :=
            (conducts_answerFinal hκ id shape _).bind fun _ => hname
          let asked (s : State) : State := { s with
            passes := s.passes.setIfInBounds pass.index (.final verdicts (request key requested)) }
          have hasked : C.Rel s [] (asked s) := C.aside rfl rfl rfl rfl
          refine Seen.of_eq (Conducts.change (k := rest) hasked (hrest _) fun _ => rfl)
            fun notes log => ?_
          simp only [run_get, hread, hsupply, hpass, hpasses]
          rfl

private theorem conducts_newPass (p : Pass) : Conducts C (fun _ => newPass p) s :=
  .stepGet (C.aside rfl rfl rfl rfl) fun _ => rfl

include hκ in
private theorem conducts_drawPass (template : Program) (pass : PassId) :
    Conducts C (fun notes => drawPass (κ notes) template pass) s := by
  refine (conducts_newDocument _).bind fun document _ => ?_
  refine (conducts_createScope none).bind fun scope _ => Conducts.bind ?_ fun _ _ => ?_
  · exact conducts_withScope fun _ => conducts_withSupply fun _ =>
      (conducts_newDrawing _ _ _).bind fun d _ => conducts_drawing fun _ =>
        conducts_perform hκ template
  · exact .look ((conducts_callDispose hκ scope).bind fun _ _ => .ret _) fun _ _ => rfl

include hκ in
private theorem conducts_discover (template : Program) :
    Conducts C (fun notes => discover (κ notes) template) s := by
  refine (conducts_newPass _).bind fun pass _ => ?_
  refine (conducts_drawPass hκ template pass).bind fun _ _ => .look ?_ fun _ _ => rfl
  split
  · exact .change (C.aside rfl rfl rfl rfl) (.ret _) fun _ => rfl
  · exact .ret []

private theorem conducts_newClient (payload : Query.Payload) :
    Conducts C (fun _ => newClient payload) s := .stepGet (C.aside rfl rfl rfl rfl) fun _ => rfl

/-- Forgetting what is pending goes by the conduct. -/
theorem conducts_clearPending (client : ClientId) :
    Conducts C (fun _ => clearPending client) s := by
  refine (conducts_ensureUnlocked _ _).bind fun _ s' => .step ?_ fun log => ?_
  · have hcleared : C.Rel s' [] (s'.modifyClient client ({ · with pending := [] })) :=
      C.aside rfl rfl rfl rfl
    exact C.after hcleared (C.rel_foldl _ C.rel_dropNode _)
  · exact State.foldl_relogged (s'.modifyClient client ({ · with pending := [] }))
      State.dropNode_relogged _ log

/-- Clearing what stands below a node goes by the conduct. -/
theorem conducts_clearBelow (document : DocumentId) (node : DomId) :
    Conducts C (fun _ => clearBelow document node) s :=
  .stepGet (C.aside rfl rfl rfl rfl) fun _ => rfl

include hκ in
/-- Drawing an application goes by the conduct. -/
theorem conducts_drawApp (app : Program) (document : DocumentId) (target : DomId) (mode : Mode) :
    Conducts C (fun notes => drawApp (κ notes) app document target mode) s := by
  refine (conducts_createScope none).bind fun scope _ => ?_
  refine (conducts_newDrawing _ _ _).bind fun d _ => Conducts.bind ?_ fun _ _ => .ret _
  exact conducts_withScope fun _ => conducts_drawing fun _ => conducts_perform hκ app

include hκ in
/-- Claiming the markup of an application goes by the conduct. -/
theorem conducts_claimApp (app : Program) (document : DocumentId) (target : DomId)
    (client : ClientId) :
    Conducts C (fun notes => claimApp (κ notes) app document target client) s := by
  refine (conducts_drawApp hκ app document target .hydrate).bind fun r _ => .look ?_ fun _ _ => rfl
  refine .ite (fun _ => ?_) fun _ => .ret _
  refine (conducts_callDispose hκ _).bind fun _ _ => ?_
  refine (conducts_clearPending client).bind fun _ _ => ?_
  refine (conducts_clearBelow document target).bind fun removed _ => ?_
  refine (conducts_drawApp hκ app document target .create).bind fun r' _ => ?_
  exact .change (C.aside rfl rfl rfl rfl) (.ret _) fun _ => rfl

include hκ in
private theorem conducts_replaceApp (app : Program) (document : DocumentId) (target : DomId) :
    Conducts C (fun notes => replaceApp (κ notes) app document target) s := by
  refine (conducts_clearBelow document target).bind fun removed _ => ?_
  refine (conducts_drawApp hκ app document target .create).bind fun r _ => ?_
  exact .change (C.aside rfl rfl rfl rfl) (.ret _) fun _ => rfl

include hκ in
/-- Mounting an application goes by the conduct. -/
theorem conducts_mount (name : Option String) (document : DocumentId) (target : DomId)
    (mode : Option MountMode) (payload : Query.Payload) (app : Program) :
    Conducts C (fun notes => mount (κ notes) name document target mode payload app) s := by
  refine .look ((conducts_newClient payload).bind fun client _ =>
    conducts_holdingClient fun _ => ?_) fun _ _ => rfl
  refine Conducts.bind (conducts_withSupply fun _ => ?_) fun m s' => ?_
  · cases mode.getD (automaticMode s document target) with
    | tolerant => exact (conducts_claimApp hκ app document target client).bind fun _ _ => .ret _
    | replace => exact (conducts_replaceApp hκ app document target).bind fun _ _ => .ret _
  · exact .change (C.rel_bindName s' name (.mount m)) (.look (.ret _) fun _ _ => rfl)
      (s'.bindName_relogged name (.mount m))

include hκ in
private theorem conducts_unmount (name : String) (m : Mount) :
    Conducts C (fun notes => unmount (κ notes) name m) s := by
  refine conducts_holdingClient fun s => .change (C.rel_unbind s name) ?_ (s.unbind_relogged name)
  refine (conducts_callDispose hκ m.scope).bind fun _ _ => ?_
  refine (conducts_clearPending m.client).bind fun _ _ => ?_
  exact (conducts_clearBelow _ _).bind fun _ _ => .ret ()

/-- Doing something with what a name stands for goes by the conduct. -/
theorem conducts_withHandle {α : Type} (name : String) (kind? : Handle → Option α)
    {f : Notes → α → Run (Option Json)} (h : ∀ a s, Conducts C (fun notes => f notes a) s) :
    Conducts C (fun notes => withHandle name kind? (f notes)) s := by
  refine .look ?_ fun _ _ => rfl
  cases (s.handle? name).bind kind? with
  | none => exact .ret none
  | some a => exact h a s

/-- Doing something in the scope of a name goes by the conduct. -/
theorem conducts_withScopeOf (name : String) {f : Notes → ScopeId → Run (Option Json)}
    (h : ∀ id s, Conducts C (fun notes => f notes id) s) :
    Conducts C (fun notes => withScopeOf name (f notes)) s := by
  refine .look ?_ fun _ _ => rfl
  cases (s.handle? name).bind s.scopeOf? with
  | none => exact .ret none
  | some id => exact h id s

/-- Doing something that gives no answer goes by the conduct. -/
theorem conducts_noAnswer {x : Watch Unit} (h : Conducts C x s) :
    Conducts C (fun notes => noAnswer (x notes)) s := h.bind fun _ _ => .ret none

private theorem conducts_createSignal (name : Option String) (handle : NodeId → Handle) (v : Json) :
    Conducts C (fun _ => createSignal name handle v) s :=
  (conducts_addNode .source _ nofun).bind fun id _ => conducts_bindName name (handle id)

/-- Recording a read goes by the conduct. -/
theorem conducts_recordRead (id : NodeId) :
    Conducts C (fun _ => recordRead id) s := .step (C.aside rfl rfl rfl rfl) fun _ => rfl

include hκ in
/-- Reading what a name stands for goes by the conduct. -/
theorem conducts_read (name : String) : Conducts C (fun notes => read (κ notes) name) s := by
  refine .look ?_ fun _ _ => rfl
  split
  · exact (conducts_recordRead _).bind fun _ _ => .look (.ret _) fun _ _ => rfl
  · exact (conducts_recordRead _).bind fun _ _ => .look (.ret _) fun _ _ => rfl
  · exact (conducts_callRead hκ _).bind fun _ _ => .ret _
  · exact (conducts_recordRead _).bind fun _ _ => .look (.ret _) fun _ _ => rfl
  · exact .ret none

include hκ in
private theorem conducts_readSize (name : String) :
    Conducts C (fun notes => readSize (κ notes) name) s := by
  refine .look ?_ fun _ _ => rfl
  split
  · exact .ret none
  · exact (conducts_read hκ name).bind fun _ _ => .ret _

private theorem conducts_readQuery (name : String) (view : Option Json → Json) :
    Conducts C (fun _ => readQuery name view) s :=
  conducts_withHandle name _ fun id _ => (conducts_recordRead id).bind fun _ _ => .look (.ret _)
    fun _ _ => rfl

include hκ in
private theorem conducts_write (id : NodeId) (v : Json) :
    Conducts C (fun notes => write (κ notes) id v) s :=
  conducts_holding fun _ => .look (.ite (fun _ => .ret false) fun _ =>
    (conducts_replaceValue hκ id _).bind fun _ _ => .ret true) fun _ _ => rfl

include hκ in
private theorem conducts_overwrite (id : NodeId) (v : Json) :
    Conducts C (fun notes => overwrite (κ notes) id v) s :=
  conducts_holding fun _ => conducts_replaceValue hκ id _

private theorem conducts_ifWritable {x : Watch Bool} (h : Conducts C x s) :
    Conducts C (fun notes => ifWritable (x notes)) s :=
  .look (.ite (fun _ => .ret _) fun _ => h.bind fun _ _ => .ret _) fun _ _ => rfl

/-! ## Scopes -/

private theorem conducts_dropGuard (name : String) :
    Conducts C (fun _ => dropGuard name) s := by
  refine .stepGet ?_ fun log => ?_
  · cases s.guards.lookup name with
    | none => exact C.refl s
    | some scope => exact C.aside rfl rfl rfl rfl
  · simp only [show (s.relogged log).guards = s.guards from rfl]
    split <;> rfl

private theorem conducts_keepCurrent (scope : ScopeId) (guard : Option String) :
    Conducts C (fun _ => keepCurrent scope guard) s := by
  cases guard with
  | none => exact .step (C.refl s) fun _ => rfl
  | some name => exact .step (C.aside rfl rfl rfl rfl) fun _ => rfl

private theorem conducts_addCleanup (p : Program) :
    Conducts C (fun _ => addCleanup p) s := by
  refine .stepGet ?_ fun log => ?_
  · cases s.scopes.addCleanup? (.program p) with
    | none => exact C.refl s
    | some scopes => exact C.aside rfl rfl rfl rfl
  · simp only [show (s.relogged log).scopes = s.scopes from rfl]
    split <;> rfl

private theorem conducts_createNamedScope (parent : Option ScopeId) (name : Option String) :
    Conducts C (fun _ => do
      let scope ← createScope parent
      modify (·.bindName name (.scope scope))) s :=
  (conducts_createScope parent).bind fun scope _ => conducts_bindName name (.scope scope)

private theorem conducts_showNode (name : String) (view : Document (Json → Program) →
    DomId → Json) :
    Conducts C (fun _ => showNode name view) s :=
  conducts_withHandle name _ fun _ _ => .look (.ret _) fun _ _ => rfl

/-- Opening a document goes by the conduct. -/
theorem conducts_openDocument (name : Option String) (markup : String) :
    Conducts C (fun _ => openDocument name markup) s := by
  unfold openDocument
  cases Document.parse markup with
  | error e => exact .ret _
  | ok d =>
    exact (conducts_newDocument d).bind fun document s' =>
      .change (C.rel_bindName s' name (.node document Document.root)) (.ret none)
        (s'.bindName_relogged name _)

include hκ in
private theorem conducts_dispatch (document : DocumentId) (node : DomId) (event : String) :
    Conducts C (fun notes => dispatch (κ notes) document node event) s :=
  .look ((Conducts.forM (fun _ _ => conducts_perform hκ _) _).bind fun _ _ => .ret _) fun _ _ => rfl

private theorem conducts_findNode (node tag : String) (k : Nat) (name : Option String) :
    Conducts C (fun _ => findNode node tag k name) s := by
  refine conducts_withHandle node _ fun p s => .look ?_ fun _ _ => rfl
  cases ((s.document p.1).findAll p.2 tag)[k]? with
  | none => exact .ret _
  | some found =>
    exact .change (C.rel_bindName s name (.node p.1 found)) (.ret _) (s.bindName_relogged name _)

private theorem conducts_setInner (document : DocumentId) (node : DomId) (markup : String) :
    Conducts C (fun _ => setInner document node markup) s :=
  .stepGet (C.aside rfl rfl rfl rfl) fun _ => rfl

/-- Creating a coordinator goes by the conduct. -/
theorem conducts_createCoordinator (name : Option String) (options : Query.Options)
    (other : Option String) : Conducts C (fun _ => createCoordinator name options other) s := by
  refine .stepGet ?_ fun log => ?_
  · simp only
    split
    · exact C.rel_bindName s name _
    · have hcache : C.Rel s [] { s with caches := s.caches.push {} } := C.aside rfl rfl rfl rfl
      exact C.after hcache (C.rel_bindName _ name _)
  · have hhandle : (s.relogged log).handle? = s.handle? := rfl
    simp only [hhandle]
    cases (other.bind s.handle?).bind Handle.coordinator? with
    | some c => exact congrArg (Prod.mk _) (s.bindName_relogged name _ log)
    | none =>
      exact congrArg (Prod.mk _)
        (State.bindName_relogged { s with caches := s.caches.push {} } name _ log)

include hκ in
/-- Every call of a program goes by the conduct. -/
theorem conducts_performOp (o : Op) :
    Conducts C (fun notes => performOp (κ notes) o) s := by
  cases o with
  | log v => exact conducts_noAnswer (.log v)
  | get name => exact conducts_read hκ name
  | peek name => exact conducts_untracked fun _ => conducts_read hκ name
  | size name => exact conducts_readSize hκ name
  | state name => exact conducts_readQuery name _
  | loading name => exact conducts_readQuery name fun v => .bool v.isNone
  | signal name v => exact conducts_noAnswer (conducts_createSignal name _ v)
  | pair name v => exact conducts_noAnswer (conducts_createSignal name _ v)
  | set name v =>
    exact conducts_withHandle name _ fun id _ => conducts_noAnswer
      (conducts_ensureWritable.bind fun _ _ => (conducts_write hκ id v).bind fun _ _ => .ret ())
  | trySet name v =>
    exact conducts_withHandle name _ fun id _ => conducts_ifWritable (conducts_write hκ id v)
  | update name v =>
    exact conducts_withHandle name _ fun id _ => conducts_noAnswer
      (conducts_ensureWritable.bind fun _ _ => conducts_overwrite hκ id v)
  | tryUpdate name v =>
    exact conducts_withHandle name _ fun id _ => conducts_ifWritable
      ((conducts_overwrite hκ id v).bind fun _ _ => .ret true)
  | stop name =>
    exact conducts_withHandle name _ fun id _ => conducts_noAnswer (conducts_stopEffect hκ id)
  | schedule name =>
    refine conducts_withHandle name _ fun id s => conducts_noAnswer (.look ?_ fun _ _ => rfl)
    cases s.effect? id with
    | none => exact .ret ()
    | some e =>
      exact .ite (fun _ => .ret ()) fun _ => conducts_holding fun _ => conducts_scheduleEffect hκ id
  | drop name => exact conducts_noAnswer (.step (C.rel_unbind s name) (s.unbind_relogged name))
  | inspect name => exact .look (.look (.ret _) fun _ _ => rfl) fun _ _ => rfl
  | debug name => exact .look (.look (.ret _) fun _ _ => rfl) fun _ _ => rfl
  | stats => exact .look (.ret _) fun _ _ => rfl
  | pushScope name =>
    exact conducts_noAnswer (.look ((conducts_createScope _).bind fun scope _ =>
      (conducts_keepCurrent scope name).bind fun _ _ => conducts_bindName name (.scope scope))
        fun _ _ => rfl)
  | enterScope scope guard =>
    exact conducts_withScopeOf scope fun id _ => conducts_noAnswer (conducts_keepCurrent id guard)
  | popScope guard =>
    refine (conducts_dropGuard guard).bind fun popped _ => ?_
    cases popped with
    | none => exact .ret none
    | some scope => exact .look (.ret _) fun _ _ => rfl
  | dropGuard guard =>
    exact conducts_noAnswer ((conducts_dropGuard guard).bind fun _ _ => .ret ())
  | createScope name => exact conducts_noAnswer (.look (conducts_createNamedScope _ name)
      fun _ _ => rfl)
  | createRoot name => exact conducts_noAnswer (conducts_createNamedScope none name)
  | createChild name parent =>
    exact conducts_withScopeOf parent fun id _ =>
      conducts_noAnswer (conducts_createNamedScope (some id) name)
  | dispose scope =>
    exact conducts_withScopeOf scope fun id _ => conducts_noAnswer (conducts_callDispose hκ id)
  | reportError scope failure =>
    cases scope with
    | none => exact conducts_noAnswer (conducts_callReport hκ none _)
    | some scope =>
      exact conducts_withScopeOf scope fun id _ =>
        conducts_noAnswer (conducts_callReport hκ (some id) _)
  | forgetUncaught => exact conducts_noAnswer (.step (C.aside rfl rfl rfl rfl) fun _ => rfl)
  | document name markup => exact conducts_openDocument name markup
  | html node => exact conducts_showNode node fun d n => .str (d.inner n)
  | outer node => exact conducts_showNode node fun d n => .arr [.str n.display, .str (d.outer n)]
  | outline node => exact conducts_showNode node _
  | find node tag k name => exact conducts_findNode node tag k name
  | dispatch node event =>
    exact conducts_withHandle node _ fun p _ =>
      (conducts_dispatch hκ p.1 p.2 event).bind fun _ _ => .ret _
  | listeners node => exact conducts_showNode node fun d n => .ofNat (d.listenerCount n)
  | setInner node markup =>
    exact conducts_withHandle node _ fun p _ => conducts_setInner p.1 p.2 markup
  | mounted name =>
    exact conducts_withHandle name _ fun _ _ =>
      (conducts_ensureUnlocked _ _).bind fun _ _ => .look (.ret _) fun _ _ => rfl
  | unmount name =>
    exact conducts_withHandle name _ fun m _ => conducts_noAnswer (conducts_unmount hκ name m)
  | coordinator name options other =>
    exact (conducts_createCoordinator name options other).bind fun _ _ => .ret _
  | cachePut name key v =>
    exact conducts_withHandle name _ fun _ _ => conducts_noAnswer
      (.step (C.aside rfl rfl rfl rfl) fun _ => rfl)
  | cacheGet name key => exact conducts_withHandle name _ fun _ _ => .look (.ret _) fun _ _ => rfl
  | claim expected attrs name =>
    exact conducts_noAnswer ((conducts_claimAs name _).bind fun _ _ => .ret ())
  | enter => exact conducts_noAnswer (conducts_walking _)
  | exit => exact conducts_noAnswer (conducts_walking _)
  | finish => exact conducts_noAnswer (conducts_walking _)
  | staticText content name =>
    exact conducts_noAnswer ((conducts_claimAs name _).bind fun _ _ => .ret ())
  | append fragment name =>
    exact conducts_noAnswer ((conducts_claimAs name _).bind fun _ _ => .ret ())
  | cursor =>
    exact (conducts_walking _).bind fun _ _ => conducts_currentDrawing.bind fun _ _ =>
      .look (.ret _) fun _ _ => rfl

include hκ in
/-- Every enclosure of a program goes by the conduct. -/
theorem conducts_enclose (e : Enclosure) (body : Program) :
    Conducts C (fun notes => enclose (κ notes) e body) s := by
  have hexec (s : State) : Conducts C (fun notes => (κ notes).exec body) s := hκ.exec body s
  cases e with
  | plain => exact (hexec s).bind fun _ _ => .ret _
  | batch => exact (conducts_batch hκ hexec).bind fun _ _ => .ret _
  | untrack => exact (conducts_untracked hexec).bind fun _ _ => .ret _
  | scope name =>
    refine .look ?_ fun _ _ => rfl
    cases (s.handle? name).bind s.scopeOf? with
    | none => exact .ret _
    | some scope => exact (conducts_withScope hexec).bind fun _ _ => .ret _
  | walk mode name =>
    refine .look ?_ fun _ _ => rfl
    cases (s.handle? name).bind Handle.domNode? with
    | none => exact .ret _
    | some p =>
      refine (conducts_newDrawing p.1 p.2 mode).bind fun d _ => ?_
      exact (conducts_drawing hexec).bind fun _ _ => .look (.ret _) fun _ _ => rfl

include hκ in
/-- Every installation of a program goes by the conduct. -/
theorem conducts_performInstall (body : Json → Program) (i : Install) :
    Conducts C (fun notes => performInstall (κ notes) body i) s := by
  cases i with
  | computed name => exact conducts_noAnswer (conducts_createComputed name _)
  | effect name fallible => exact conducts_noAnswer (conducts_createEffect hκ _ _ name)
  | cleanup => exact conducts_addCleanup _
  | onError scope =>
    exact conducts_withScopeOf scope fun _ _ => conducts_noAnswer
      (.step (C.aside rfl rfl rfl rfl) fun _ => rfl)
  | uncaught => exact conducts_noAnswer (.step (C.aside rfl rfl rfl rfl) fun _ => rfl)
  | dynText name => exact conducts_noAnswer (conducts_dynText hκ name _)
  | attr node name =>
    exact conducts_withHandle node _ fun p _ => conducts_noAnswer (conducts_bindAttr hκ p.2 name _)
  | listener node event =>
    exact conducts_withHandle node _ fun p _ =>
      (conducts_listen p.2 event body).bind fun _ _ => .ret _
  | region name => exact conducts_noAnswer (conducts_region hκ name _)
  | insert name => exact conducts_noAnswer (conducts_insert hκ name _)
  | boundary => exact conducts_noAnswer (conducts_boundary hκ _ none)
  | mount name node mode payload notice =>
    refine conducts_withHandle node _ fun p s => ?_
    have hmount (s : State) := conducts_mount hκ (s := s) name p.1 p.2 mode payload (body .null)
    cases notice with
    | none => exact .change (C.refl s) ((hmount s).bind fun _ _ => .ret _) fun _ => rfl
    | some v => exact (Conducts.log v).bind fun _ s' => (hmount s').bind fun _ _ => .ret _
  | discover coordinator route =>
    exact conducts_withHandle coordinator _ fun _ _ =>
      (conducts_discover hκ _).bind fun _ _ => .ret _

include hκ in
/-- A program closes what it opens, if its calls do. -/
theorem conducts_exec (p : Program) : Conducts C (fun notes => exec (κ notes) p) s := by
  induction p generalizing s with
  | stop o => exact .ret o
  | panic message => exact .raise _
  | op o next ih => exact (conducts_performOp hκ o).bind fun a _ => ih a
  | within e body next ihbody ih => exact (conducts_enclose hκ e body).bind fun r _ => ih r.1 r.2
  | install i body next ihbody ih =>
    exact (conducts_performInstall hκ body i).bind fun a _ => ih a
  | guarded fallback content next ihfallback ihcontent ih =>
    exact (conducts_boundary hκ content (some fallback)).bind fun _ _ => ih
  | query name key shape plan value next ihvalue ih =>
    exact (conducts_createQuery hκ name key shape plan value).bind fun _ _ => ih
  | call name seen drawing next ih =>
    simp only [exec]
    refine .look ?_ fun _ _ => rfl
    cases s.procedures[name]? with
    | none => exact ih _
    | some p => exact (hκ.exec _ s).bind fun o _ => ih o

end

/-- Calls of any depth conduct themselves. -/
theorem callsConduct_overseen (C : Conduct) :
    ∀ n, CallsConduct C fun notes => overseen notes n
  | 0 => {
      exec := fun _ _ => .raise _
      refresh := fun _ s => .raise (C.loose (C.refl s))
      read := fun _ _ => .raise _
      dispose := fun _ _ => .raise _
      drain := fun _ _ => .raise _
      report := fun _ _ _ => .raise _ }
  | n + 1 => by
    have hκ := callsConduct_overseen C n
    constructor
    · exact fun p s => .change (C.refl s) (conducts_exec hκ p) fun _ => rfl
    · exact fun id s =>
        .change (.bind (refreshes_refresh hκ id) (fun _ _ _ h => .ret h) fun h => h) fun _ => rfl
    · exact fun id s => .change (C.refl s)
        ((conducts_readComputed hκ id).bind fun _ _ => .ret _) fun _ => rfl
    · exact fun id s => .change (C.refl s)
        ((conducts_disposeScope hκ id).bind fun _ _ => .ret _) fun _ => rfl
    · intro s hs
      have hdrain := (conducts_drain hκ hs).bind fun _ _ => .ret (Outcome.value .null)
      simp only [bind_assoc] at hdrain
      exact hdrain
    · intro scope error s
      have hreport := (conducts_reportError hκ scope error (s := s)).bind
        fun _ _ => .ret (Outcome.value .null)
      simp only [bind_assoc] at hreport
      exact hreport

end Rivulet.Engine
