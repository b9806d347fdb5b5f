import Rivulet.Proofs.Invariants.Sessions
import Rivulet.Proofs.Unwinding.Drawing

/-!
# Programs close what they open

A program has only one way to open something that it does not close: it may form a guard, which
keeps a scope current, and it may give up a guard that was there. All else that queries,
applications and programs open is closed behind them. So the calls of the usual kernel, at any
depth, end like those of the kernel that raises an alarm.
-/

namespace Rivulet.Engine

open Hydration

section

variable {w : NodeId} {alarm : Interrupt} {κ κ' : Kernel} (hκ : CallsUnwind w alarm κ κ')
  {s : State}

include hκ in
private theorem unwinds_startFetch (key : String) (shape : Query.Shape) (plan : Query.Plan)
    (value : Program) : Unwinds w alarm (startFetch κ key shape plan value)
      (startFetch κ' key shape plan value) s :=
  .change (.same rfl rfl rfl rfl) ((unwinds_eval hκ value).bind fun _ _ => .ret _)

include hκ in
/-- Resolving a query of a server render ends alike with both kernels. -/
theorem unwinds_resolveQuery (id : NodeId) (v : Json) :
    Unwinds w alarm (resolveQuery κ id v) (resolveQuery κ' id v) s := by
  refine unwinds_ensureWritable.bind fun _ _ => .look ?_
  split
  · exact .ite (fun _ => .ret ()) fun _ => unwinds_replaceValue hκ id _
  · exact .ret ()

include hκ in
private theorem unwinds_failOnServer (failure : Query.Failure) :
    Unwinds w alarm (failOnServer κ failure) (failOnServer κ' failure) s := by
  refine .look ?_
  cases s.scopes.current? with
  | none => exact .ret ()
  | some scope => exact .ite (fun _ => unwinds_callReport hκ _ _) fun _ => .ret ()

/-- The check that nothing is locked ends alike with both kernels. -/
theorem unwinds_ensureUnlocked (supply : Supply) (message : String) :
    Unwinds w alarm (ensureUnlocked supply message) (ensureUnlocked supply message) s :=
  .look (.ite (fun _ => .raise _) fun _ => .ret ())

/-- Doing something while it is locked ends alike with both kernels. -/
theorem unwinds_locking (supply : Supply) {x y : Run Query.Fetch}
    (h : ∀ s, Unwinds w alarm x y s) :
    Unwinds w alarm (locking supply x) (locking supply y) s :=
  .change (.same rfl rfl rfl rfl) ((h _).tidying fun _ =>
    State.tidied_same rfl rfl rfl rfl rfl rfl rfl)

private theorem unwinds_recordFetch (pass : PassId) (fetches : List (String × Query.Fetch))
    (key : String)
    {x y : Run Query.Fetch} (h : ∀ s, Unwinds w alarm x y s) :
    Unwinds w alarm (recordFetch pass fetches key x) (recordFetch pass fetches key y) s := by
  refine (unwinds_ensureUnlocked _ _).bind fun _ _ => .ite (fun _ => .ret ()) fun _ => ?_
  exact (unwinds_locking _ h).bind fun _ _ => .step (.same rfl rfl rfl rfl)

include hκ in
/-- Answering a query in the final pass ends alike with both kernels. -/
theorem unwinds_answerFinal (id : NodeId) (shape : Query.Shape) (verdict : Option Query.Verdict) :
    Unwinds w alarm (answerFinal κ id shape verdict) (answerFinal κ' id shape verdict) s := by
  unfold answerFinal
  split
  · split
    · exact unwinds_resolveQuery hκ id _
    · exact unwinds_failOnServer hκ _
  · exact unwinds_failOnServer hκ _
  · exact .ret ()
  · exact .ret ()

theorem steady_modifyClient (s : State) (id : ClientId) (f : Client → Client) :
    s.Steady (s.modifyClient id f) := .same rfl rfl rfl rfl

private theorem unwinds_deferFetch (client : ClientId) (key : String) (consumer : Consumer)
    {x y : Run Query.Fetch} (h : ∀ s, Unwinds w alarm x y s) :
    Unwinds w alarm (deferFetch client key consumer x) (deferFetch client key consumer y) s := by
  refine (unwinds_ensureUnlocked _ _).bind fun _ s' => .look ?_
  simp only
  split
  · exact .step (steady_modifyClient s' client _)
  · exact (unwinds_locking _ h).bind fun _ s' => .step (steady_modifyClient s' client _)

include hκ in
private theorem unwinds_answerClient (id : NodeId) (client : ClientId) (key : String)
    (shape : Query.Shape) {x y : Run Query.Fetch} (h : ∀ s, Unwinds w alarm x y s) :
    Unwinds w alarm (answerClient κ id client key shape x)
      (answerClient κ' id client key shape y) s := by
  refine .look ?_
  simp only
  split
  · exact unwinds_resolveQuery hκ id _
  · exact unwinds_deferFetch client key _ h
  · exact unwinds_deferFetch client key _ h

include hκ in
/-- Making a query ends alike with both kernels. -/
theorem unwinds_createQuery (name : Option String) (key : String) (shape : Query.Shape)
    (plan : Query.Plan) (value : Program) :
    Unwinds w alarm (createQuery κ name key shape plan value)
      (createQuery κ' name key shape plan value) s := by
  refine (unwinds_addNode _ _).bind fun id _ => unwinds_holding fun s => .look ?_
  have hstart (s : State) := unwinds_startFetch hκ (s := s) key shape plan value
  have hname (s : State) : Unwinds w alarm (modify (·.bindName name (.query id key)) : Run Unit)
      (modify (·.bindName name (.query id key))) s := unwinds_bindName name (.query id key)
  cases s.supply? with
  | none => exact hname s
  | some supply =>
    cases supply with
    | client client =>
      exact (unwinds_answerClient hκ id client key shape hstart).bind fun _ => hname
    | server pass =>
      simp only
      cases s.passes[pass.index]? with
      | none => exact hname s
      | some p =>
        cases p with
        | discovery fetches =>
          exact (unwinds_recordFetch pass fetches key hstart).bind fun _ => hname
        | final verdicts requested =>
          simp only [set_eq]
          refine .change (.same rfl rfl rfl rfl) ?_
          exact (unwinds_answerFinal hκ id shape _).bind fun _ => hname

/-- A new pass over a template ends alike with both kernels. -/
theorem unwinds_newPass (p : Pass) : Unwinds w alarm (newPass p) (newPass p) s :=
  .stepGet (.same rfl rfl rfl rfl)

include hκ in
/-- Drawing a template in a pass ends alike with both kernels. -/
theorem unwinds_drawPass (template : Program) (pass : PassId) :
    Unwinds w alarm (drawPass κ template pass) (drawPass κ' template pass) s := by
  refine (unwinds_newDocument _).bind fun document _ => ?_
  refine (unwinds_createScope none).bind fun scope _ => Unwinds.bind ?_ fun _ _ => ?_
  · exact unwinds_withScope fun _ => unwinds_withSupply fun _ =>
      (unwinds_newDrawing _ _ _).bind fun d _ => unwinds_drawing fun _ =>
        unwinds_perform hκ template
  · exact .look ((unwinds_callDispose hκ scope).bind fun _ _ => .ret _)

include hκ in
/-- Discovering the queries of a template ends alike with both kernels. -/
theorem unwinds_discover (template : Program) :
    Unwinds w alarm (discover κ template) (discover κ' template) s := by
  refine (unwinds_newPass _).bind fun pass _ => ?_
  refine (unwinds_drawPass hκ template pass).bind fun _ _ => .look ?_
  split
  · exact .change (.same rfl rfl rfl rfl) (.ret _)
  · exact .ret []

include hκ in
private theorem unwinds_drawFinal (template : Program) (verdicts : List (String × Query.Verdict)) :
    Unwinds w alarm (drawFinal κ template verdicts) (drawFinal κ' template verdicts) s :=
  (unwinds_newPass _).bind fun pass _ =>
    (unwinds_drawPass hκ template pass).bind fun _ _ => .look (.ret _)

private theorem unwinds_newClient (payload : Query.Payload) :
    Unwinds w alarm (newClient payload) (newClient payload) s := .stepGet (.same rfl rfl rfl rfl)

/-- Forgetting what is pending ends alike with both kernels. -/
theorem unwinds_clearPending (client : ClientId) :
    Unwinds w alarm (clearPending client) (clearPending client) s := by
  refine (unwinds_ensureUnlocked _ _).bind fun _ s' => .step ?_
  exact (steady_modifyClient s' client _).trans
    (State.Tidied.foldl State.tidied_dropNode _ _).steady

/-- Clearing what stands below a node ends alike with both kernels. -/
theorem unwinds_clearBelow (document : DocumentId) (node : DomId) :
    Unwinds w alarm (clearBelow document node) (clearBelow document node) s :=
  .stepGet (.same rfl rfl rfl rfl)

include hκ in
/-- Drawing an application ends alike with both kernels. -/
theorem unwinds_drawApp (app : Program) (document : DocumentId) (target : DomId) (mode : Mode) :
    Unwinds w alarm (drawApp κ app document target mode)
      (drawApp κ' app document target mode) s := by
  refine (unwinds_createScope none).bind fun scope _ => ?_
  refine (unwinds_newDrawing _ _ _).bind fun d _ => Unwinds.bind ?_ fun _ _ => .ret _
  exact unwinds_withScope fun _ => unwinds_drawing fun _ => unwinds_perform hκ app

include hκ in
/-- Claiming the markup of an application ends alike with both kernels. -/
theorem unwinds_claimApp (app : Program) (document : DocumentId) (target : DomId)
    (client : ClientId) : Unwinds w alarm (claimApp κ app document target client)
      (claimApp κ' app document target client) s := by
  refine (unwinds_drawApp hκ app document target .hydrate).bind fun r _ => .look ?_
  refine .ite (fun _ => ?_) fun _ => .ret _
  refine (unwinds_callDispose hκ _).bind fun _ _ => ?_
  refine (unwinds_clearPending client).bind fun _ _ => ?_
  refine (unwinds_clearBelow document target).bind fun removed _ => ?_
  refine (unwinds_drawApp hκ app document target .create).bind fun r' _ => ?_
  exact .change (.same rfl rfl rfl rfl) (.ret _)

include hκ in
private theorem unwinds_replaceApp (app : Program) (document : DocumentId) (target : DomId) :
    Unwinds w alarm (replaceApp κ app document target) (replaceApp κ' app document target) s := by
  refine (unwinds_clearBelow document target).bind fun removed _ => ?_
  refine (unwinds_drawApp hκ app document target .create).bind fun r _ => ?_
  exact .change (.same rfl rfl rfl rfl) (.ret _)

include hκ in
private theorem unwinds_mount (name : Option String) (document : DocumentId) (target : DomId)
    (mode : Option MountMode) (payload : Query.Payload) (app : Program) :
    Unwinds w alarm (mount κ name document target mode payload app)
      (mount κ' name document target mode payload app) s := by
  refine .look ((unwinds_newClient payload).bind fun client _ => unwinds_holdingClient fun _ => ?_)
  refine Unwinds.bind (unwinds_withSupply fun _ => ?_) fun m s' => ?_
  · cases mode.getD (automaticMode s document target) with
    | tolerant => exact (unwinds_claimApp hκ app document target client).bind fun _ _ => .ret _
    | replace => exact (unwinds_replaceApp hκ app document target).bind fun _ _ => .ret _
  · exact .change (State.tidied_bindName s' name (.mount m)).steady (.look (.ret _))

include hκ in
private theorem unwinds_unmount (name : String) (m : Mount) :
    Unwinds w alarm (unmount κ name m) (unmount κ' name m) s := by
  refine unwinds_holdingClient fun s => .change (State.tidied_unbind s name).steady ?_
  refine (unwinds_callDispose hκ m.scope).bind fun _ _ => ?_
  refine (unwinds_clearPending m.client).bind fun _ _ => ?_
  exact (unwinds_clearBelow _ _).bind fun _ _ => .ret ()

/-- Doing something with what a name stands for ends alike with both kernels. -/
theorem unwinds_withHandle {α : Type} (name : String) (kind? : Handle → Option α)
    {f g : α → Run (Option Json)} (h : ∀ a s, Unwinds w alarm (f a) (g a) s) :
    Unwinds w alarm (withHandle name kind? f) (withHandle name kind? g) s := by
  refine .look ?_
  cases (s.handle? name).bind kind? with
  | none => exact .ret none
  | some a => exact h a s

/-- Doing something in the scope of a name ends alike with both kernels. -/
theorem unwinds_withScopeOf (name : String) {f g : ScopeId → Run (Option Json)}
    (h : ∀ id s, Unwinds w alarm (f id) (g id) s) :
    Unwinds w alarm (withScopeOf name f) (withScopeOf name g) s := by
  refine .look ?_
  cases (s.handle? name).bind s.scopeOf? with
  | none => exact .ret none
  | some id => exact h id s

/-- Doing something that gives no answer ends alike with both kernels. -/
theorem unwinds_noAnswer {x y : Run Unit} (h : Unwinds w alarm x y s) :
    Unwinds w alarm (noAnswer x) (noAnswer y) s := h.bind fun _ _ => .ret none

/-! ## Signals and computed values -/

private theorem unwinds_createSignal (name : Option String) (handle : NodeId → Handle) (v : Json) :
    Unwinds w alarm (createSignal name handle v) (createSignal name handle v) s :=
  (unwinds_addNode _ _).bind fun id _ => unwinds_bindName name (handle id)

/-- Recording a read ends alike with both kernels. -/
theorem unwinds_recordRead (id : NodeId) :
    Unwinds w alarm (recordRead id) (recordRead id) s := .step (State.steady_record s id)

include hκ in
/-- Reading what a name stands for ends alike with both kernels. -/
theorem unwinds_read (name : String) : Unwinds w alarm (read κ name) (read κ' name) s := by
  refine .look ?_
  split
  · exact (unwinds_recordRead _).bind fun _ _ => .look (.ret _)
  · exact (unwinds_recordRead _).bind fun _ _ => .look (.ret _)
  · exact (unwinds_callRead hκ _).bind fun _ _ => .ret _
  · exact (unwinds_recordRead _).bind fun _ _ => .look (.ret _)
  · exact .ret none

include hκ in
private theorem unwinds_readSize (name : String) :
    Unwinds w alarm (readSize κ name) (readSize κ' name) s := by
  refine .look ?_
  split
  · exact .ret none
  · exact (unwinds_read hκ name).bind fun _ _ => .ret _

private theorem unwinds_readQuery (name : String) (view : Option Json → Json) :
    Unwinds w alarm (readQuery name view) (readQuery name view) s :=
  unwinds_withHandle name _ fun id _ => (unwinds_recordRead id).bind fun _ _ => .look (.ret _)

include hκ in
private theorem unwinds_write (id : NodeId) (v : Json) :
    Unwinds w alarm (write κ id v) (write κ' id v) s :=
  unwinds_holding fun _ => .look (.ite (fun _ => .ret false) fun _ =>
    (unwinds_replaceValue hκ id _).bind fun _ _ => .ret true)

include hκ in
private theorem unwinds_overwrite (id : NodeId) (v : Json) :
    Unwinds w alarm (overwrite κ id v) (overwrite κ' id v) s :=
  unwinds_holding fun _ => unwinds_replaceValue hκ id _

private theorem unwinds_ifWritable {x y : Run Bool} (h : Unwinds w alarm x y s) :
    Unwinds w alarm (ifWritable x) (ifWritable y) s :=
  .look (.ite (fun _ => .ret _) fun _ => h.bind fun _ _ => .ret _)

private theorem unwinds_dropGuard (name : String) :
    Unwinds w alarm (dropGuard name) (dropGuard name) s := by
  refine .stepGet ?_
  cases hguard : s.guards.lookup name with
  | none => exact .refl s
  | some scope => exact State.steady_dropGuard hguard

private theorem unwinds_keepCurrent (scope : ScopeId) (guard : Option String) :
    Unwinds w alarm (keepCurrent scope guard) (keepCurrent scope guard) s := by
  refine .step ?_
  cases guard with
  | none => exact .refl s
  | some name => exact State.steady_keepCurrent s scope name

private theorem unwinds_addCleanup (p : Program) :
    Unwinds w alarm (addCleanup p) (addCleanup p) s := by
  refine .stepGet ?_
  cases hadded : s.scopes.addCleanup? (.program p) with
  | none => exact .refl s
  | some scopes => exact .same rfl rfl (stack_addCleanup? hadded) rfl

private theorem unwinds_createNamedScope (parent : Option ScopeId) (name : Option String) :
    Unwinds w alarm
      (do let scope ← createScope parent; modify (·.bindName name (.scope scope)))
      (do let scope ← createScope parent; modify (·.bindName name (.scope scope))) s :=
  (unwinds_createScope parent).bind fun scope _ => unwinds_bindName name (.scope scope)

private theorem unwinds_showNode (name : String) (view : Document (Json → Program) → DomId → Json) :
    Unwinds w alarm (showNode name view) (showNode name view) s :=
  unwinds_withHandle name _ fun _ _ => .look (.ret _)

private theorem unwinds_openDocument (name : Option String) (markup : String) :
    Unwinds w alarm (openDocument name markup) (openDocument name markup) s := by
  unfold openDocument
  cases Document.parse markup with
  | error e => exact .ret _
  | ok d =>
    exact (unwinds_newDocument d).bind fun document s' =>
      .change (State.tidied_bindName s' name (.node document Document.root)).steady (.ret none)

include hκ in
private theorem unwinds_dispatch (document : DocumentId) (node : DomId) (event : String) :
    Unwinds w alarm (dispatch κ document node event) (dispatch κ' document node event) s :=
  .look ((Unwinds.forM (fun _ _ => unwinds_perform hκ _) _).bind fun _ _ => .ret _)

private theorem unwinds_findNode (node tag : String) (k : Nat) (name : Option String) :
    Unwinds w alarm (findNode node tag k name) (findNode node tag k name) s := by
  refine unwinds_withHandle node _ fun p s => .look ?_
  cases ((s.document p.1).findAll p.2 tag)[k]? with
  | none => exact .ret _
  | some found =>
    exact .change (State.tidied_bindName s name (.node p.1 found)).steady (.ret _)

private theorem unwinds_setInner (document : DocumentId) (node : DomId) (markup : String) :
    Unwinds w alarm (setInner document node markup) (setInner document node markup) s :=
  .stepGet (.same rfl rfl rfl rfl)

private theorem unwinds_createCoordinator (name : Option String) (options : Query.Options)
    (other : Option String) : Unwinds w alarm (createCoordinator name options other)
      (createCoordinator name options other) s := by
  refine .stepGet ?_
  simp only
  split
  · exact (State.tidied_bindName s name (.coordinator _)).steady
  · have hcache : s.Steady { s with caches := s.caches.push {} } := .same rfl rfl rfl rfl
    exact hcache.trans (State.tidied_bindName _ name (.coordinator _)).steady

include hκ in
/-- Every call of a program ends alike with both kernels. -/
theorem unwinds_performOp (o : Op) :
    Unwinds w alarm (performOp κ o) (performOp κ' o) s := by
  cases o with
  | log v => exact unwinds_noAnswer (.step (.same rfl rfl rfl rfl))
  | get name => exact unwinds_read hκ name
  | peek name => exact unwinds_untracked fun _ => unwinds_read hκ name
  | size name => exact unwinds_readSize hκ name
  | state name => exact unwinds_readQuery name _
  | loading name => exact unwinds_readQuery name fun v => .bool v.isNone
  | signal name v => exact unwinds_noAnswer (unwinds_createSignal name _ v)
  | pair name v => exact unwinds_noAnswer (unwinds_createSignal name _ v)
  | set name v =>
    exact unwinds_withHandle name _ fun id _ => unwinds_noAnswer
      (unwinds_ensureWritable.bind fun _ _ => (unwinds_write hκ id v).bind fun _ _ => .ret ())
  | trySet name v =>
    exact unwinds_withHandle name _ fun id _ => unwinds_ifWritable (unwinds_write hκ id v)
  | update name v =>
    exact unwinds_withHandle name _ fun id _ => unwinds_noAnswer
      (unwinds_ensureWritable.bind fun _ _ => unwinds_overwrite hκ id v)
  | tryUpdate name v =>
    exact unwinds_withHandle name _ fun id _ => unwinds_ifWritable
      ((unwinds_overwrite hκ id v).bind fun _ _ => .ret true)
  | stop name =>
    exact unwinds_withHandle name _ fun id _ => unwinds_noAnswer (unwinds_stopEffect hκ id)
  | schedule name =>
    refine unwinds_withHandle name _ fun id s => unwinds_noAnswer (.look ?_)
    cases s.effect? id with
    | none => exact .ret ()
    | some e =>
      exact .ite (fun _ => .ret ()) fun _ => unwinds_holding fun _ => unwinds_scheduleEffect hκ id
  | drop name => exact unwinds_noAnswer (.step (State.tidied_unbind s name).steady)
  | inspect name => exact .look (.look (.ret _))
  | debug name => exact .look (.look (.ret _))
  | stats => exact .look (.ret _)
  | pushScope name =>
    exact unwinds_noAnswer (.look ((unwinds_createScope _).bind fun scope _ =>
      (unwinds_keepCurrent scope name).bind fun _ _ => unwinds_bindName name (.scope scope)))
  | enterScope scope guard =>
    exact unwinds_withScopeOf scope fun id _ => unwinds_noAnswer (unwinds_keepCurrent id guard)
  | popScope guard =>
    refine (unwinds_dropGuard guard).bind fun popped _ => ?_
    cases popped with
    | none => exact .ret none
    | some scope => exact .look (.ret _)
  | dropGuard guard =>
    exact unwinds_noAnswer ((unwinds_dropGuard guard).bind fun _ _ => .ret ())
  | createScope name => exact unwinds_noAnswer (.look (unwinds_createNamedScope _ name))
  | createRoot name => exact unwinds_noAnswer (unwinds_createNamedScope none name)
  | createChild name parent =>
    exact unwinds_withScopeOf parent fun id _ =>
      unwinds_noAnswer (unwinds_createNamedScope (some id) name)
  | dispose scope =>
    exact unwinds_withScopeOf scope fun id _ => unwinds_noAnswer (unwinds_callDispose hκ id)
  | reportError scope failure =>
    cases scope with
    | none => exact unwinds_noAnswer (unwinds_callReport hκ none _)
    | some scope =>
      exact unwinds_withScopeOf scope fun id _ =>
        unwinds_noAnswer (unwinds_callReport hκ (some id) _)
  | forgetUncaught => exact unwinds_noAnswer (.step (.same rfl rfl rfl rfl))
  | document name markup => exact unwinds_openDocument name markup
  | html node => exact unwinds_showNode node fun d n => .str (d.inner n)
  | outer node => exact unwinds_showNode node fun d n => .arr [.str n.display, .str (d.outer n)]
  | outline node => exact unwinds_showNode node _
  | find node tag k name => exact unwinds_findNode node tag k name
  | dispatch node event =>
    exact unwinds_withHandle node _ fun p _ =>
      (unwinds_dispatch hκ p.1 p.2 event).bind fun _ _ => .ret _
  | listeners node => exact unwinds_showNode node fun d n => .ofNat (d.listenerCount n)
  | setInner node markup =>
    exact unwinds_withHandle node _ fun p _ => unwinds_setInner p.1 p.2 markup
  | mounted name =>
    exact unwinds_withHandle name _ fun _ _ =>
      (unwinds_ensureUnlocked _ _).bind fun _ _ => .look (.ret _)
  | unmount name =>
    exact unwinds_withHandle name _ fun m _ => unwinds_noAnswer (unwinds_unmount hκ name m)
  | coordinator name options other =>
    exact (unwinds_createCoordinator name options other).bind fun _ _ => .ret _
  | cachePut name key v =>
    exact unwinds_withHandle name _ fun _ _ => unwinds_noAnswer (.step (.same rfl rfl rfl rfl))
  | cacheGet name key => exact unwinds_withHandle name _ fun _ _ => .look (.ret _)
  | claim expected attrs name =>
    exact unwinds_noAnswer ((unwinds_claimAs name _).bind fun _ _ => .ret ())
  | enter => exact unwinds_noAnswer (unwinds_walking _)
  | exit => exact unwinds_noAnswer (unwinds_walking _)
  | finish => exact unwinds_noAnswer (unwinds_walking _)
  | staticText content name =>
    exact unwinds_noAnswer ((unwinds_claimAs name _).bind fun _ _ => .ret ())
  | append fragment name =>
    exact unwinds_noAnswer ((unwinds_claimAs name _).bind fun _ _ => .ret ())
  | cursor =>
    exact (unwinds_walking _).bind fun _ _ => unwinds_currentDrawing.bind fun _ _ =>
      .look (.ret _)

include hκ in
/-- Every enclosure of a program ends alike with both kernels. -/
theorem unwinds_enclose (e : Enclosure) (body : Program) :
    Unwinds w alarm (enclose κ e body) (enclose κ' e body) s := by
  have hexec (s : State) : Unwinds w alarm (κ.exec body) (κ'.exec body) s := hκ (.exec body) s
  cases e with
  | plain => exact (hexec s).bind fun _ _ => .ret _
  | batch => exact (unwinds_batch hκ hexec).bind fun _ _ => .ret _
  | untrack => exact (unwinds_untracked hexec).bind fun _ _ => .ret _
  | scope name =>
    refine .look ?_
    cases (s.handle? name).bind s.scopeOf? with
    | none => exact .ret _
    | some scope => exact (unwinds_withScope hexec).bind fun _ _ => .ret _
  | walk mode name =>
    refine .look ?_
    cases (s.handle? name).bind Handle.domNode? with
    | none => exact .ret _
    | some p =>
      refine (unwinds_newDrawing p.1 p.2 mode).bind fun d _ => ?_
      exact (unwinds_drawing hexec).bind fun _ _ => .look (.ret _)

include hκ in
/-- Every installation of a program ends alike with both kernels. -/
theorem unwinds_performInstall (body : Json → Program) (i : Install) :
    Unwinds w alarm (performInstall κ body i) (performInstall κ' body i) s := by
  cases i with
  | computed name => exact unwinds_noAnswer (unwinds_createComputed name _)
  | effect name fallible => exact unwinds_noAnswer (unwinds_createEffect hκ _ _ name)
  | cleanup => exact unwinds_addCleanup _
  | onError scope =>
    exact unwinds_withScopeOf scope fun _ _ => unwinds_noAnswer (.step (.same rfl rfl rfl rfl))
  | uncaught => exact unwinds_noAnswer (.step (.same rfl rfl rfl rfl))
  | dynText name => exact unwinds_noAnswer (unwinds_dynText hκ name _)
  | attr node name =>
    exact unwinds_withHandle node _ fun p _ => unwinds_noAnswer (unwinds_bindAttr hκ p.2 name _)
  | listener node event =>
    exact unwinds_withHandle node _ fun p _ =>
      (unwinds_listen p.2 event body).bind fun _ _ => .ret _
  | region name => exact unwinds_noAnswer (unwinds_region hκ name _)
  | insert name => exact unwinds_noAnswer (unwinds_insert hκ name _)
  | boundary => exact unwinds_noAnswer (unwinds_boundary hκ _ none)
  | mount name node mode payload notice =>
    refine unwinds_withHandle node _ fun p s => .change ?_
      ((unwinds_mount hκ name p.1 p.2 mode payload _).bind fun _ _ => .ret _)
    cases notice <;> exact .same rfl rfl rfl rfl
  | discover coordinator route =>
    exact unwinds_withHandle coordinator _ fun _ _ =>
      (unwinds_discover hκ _).bind fun _ _ => .ret _

include hκ in
/-- A program closes what it opens, if its calls do. -/
theorem unwinds_exec (p : Program) : Unwinds w alarm (exec κ p) (exec κ' p) s := by
  induction p generalizing s with
  | stop o => exact .ret o
  | panic message => exact .raise _
  | op o next ih => exact (unwinds_performOp hκ o).bind fun a _ => ih a
  | within e body next ihbody ih => exact (unwinds_enclose hκ e body).bind fun r _ => ih r.1 r.2
  | install i body next ihbody ih =>
    exact (unwinds_performInstall hκ body i).bind fun a _ => ih a
  | guarded fallback content next ihfallback ihcontent ih =>
    exact (unwinds_boundary hκ content (some fallback)).bind fun _ _ => ih
  | query name key shape plan value next ihvalue ih =>
    exact (unwinds_createQuery hκ name key shape plan value).bind fun _ _ => ih
  | call name seen drawing next ih =>
    rw [exec, exec]
    refine .look ?_
    cases s.procedures[name]? with
    | none => exact ih _
    | some p => exact (hκ (.exec _) s).bind fun o _ => ih o

include hκ in
/-- Answering a query ends alike with both kernels. -/
theorem unwinds_answer (c : Call) : Unwinds w alarm (answer κ c) (answer κ' c) s := by
  cases c with
  | exec p => exact unwinds_exec hκ p
  | refresh id => exact (unwinds_refresh hκ id).bind fun _ _ => .ret _
  | read id => exact (unwinds_readComputed hκ id).bind fun _ _ => .ret _
  | dispose scope => exact (unwinds_disposeScope hκ scope).bind fun _ _ => .ret _
  | drain => exact (unwinds_drain hκ).bind fun _ _ => .ret _
  | report scope error => exact (unwinds_reportError hκ scope error).bind fun _ _ => .ret _

end

/-! ## Kernels of any depth -/

/-- What an alarm is raised for is still so behind it. -/
theorem Unwinds.spotting {w : NodeId} {alarm : Interrupt} {x y : Run Outcome} {s : State}
    (h : Unwinds w alarm x y s) :
    Unwinds w alarm x (spotting (fun u => u.awaits w) alarm y) s := by
  unfold Unwinds at h ⊢
  cases hr : x s with
  | ok o s' =>
    rw [hr] at h
    exact ⟨by rw [Engine.spotting, h.1], h.2⟩
  | error e s' =>
    rw [hr] at h
    refine ⟨?_, h.2⟩
    rw [Engine.spotting]
    rcases h.1 with hsame | ⟨halarm, hwaits⟩
    · rw [hsame]
      by_cases hwaits : s'.awaits w = true
      · exact .inr ⟨by simp [hwaits], hwaits⟩
      · exact .inl (by simp [hwaits])
    · rw [halarm]
      exact .inr ⟨by simp, hwaits⟩

/-- Calls of any depth close what they open, and an effect that waits while one of them is broken
off waits on. -/
theorem callsUnwind_kernel (w : NodeId) (alarm : Interrupt) :
    ∀ n, CallsUnwind w alarm (kernel n) (spotted (fun u => u.awaits w) alarm n)
  | 0 => fun _ _ => (Unwinds.raise _).spotting
  | n + 1 => fun c _ => (unwinds_answer (callsUnwind_kernel w alarm n) c).spotting

theorem Concur.spotting {law : Law} {J J' : State → Bool} (hJ : ∀ s, law.Holds s → J s = J' s)
    {alarm : Interrupt} {x y : Run Outcome} {s : State} (h : Concur law Whatever x y s) :
    Concur law Whatever (spotting J alarm x) (spotting J' alarm y) s := by
  intro hs
  obtain ⟨heq, hpost⟩ := h hs
  rw [Engine.spotting, Engine.spotting, ← heq]
  cases hr : x s with
  | ok o s' =>
    rw [hr] at hpost
    exact ⟨rfl, hpost⟩
  | error e s' =>
    rw [hr] at hpost
    have hagree := hJ s' (law.path hs hpost.1)
    exact ⟨by simp only [hagree], hpost⟩

/-- It makes no difference what an alarm is raised for, if it is the same in lawful states. -/
theorem interchangeable_spotted (law : Law) {J J' : State → Bool}
    (hJ : ∀ s, law.Holds s → J s = J' s) (alarm : Interrupt) :
    ∀ n, Interchangeable law (spotted J alarm n) (spotted J' alarm n)
  | 0 => fun _ _ _ => (Concur.raise _).spotting hJ
  | n + 1 => fun _ _ hc => (concur_answer (interchangeable_spotted law hJ alarm n) hc).spotting hJ

end Rivulet.Engine

namespace Rivulet.Script

open Engine

section

variable {w : NodeId} {alarm : Interrupt} {κ κ' : Kernel} (hκ : CallsUnwind w alarm κ κ')
  {s : State}

private theorem steady_advanceTo (s : State) (moment : Nat) (through : Bool) :
    s.Steady (s.advanceTo moment through) := by
  have harrive (s : State) (l : Late) : s.Tidied (s.arrive l) :=
    State.tidied_same rfl rfl rfl rfl rfl rfl rfl
  exact (State.Tidied.foldl harrive _ s).steady.trans (.same rfl rfl rfl rfl)

/-- Letting time pass ends alike with both kernels. -/
theorem unwinds_wait (ms : Nat) (through : Bool) :
    Unwinds w alarm (wait ms through) (wait ms through) s :=
  .step (steady_advanceTo s _ through)

/-- Starting all fetches ends alike with both kernels. -/
theorem unwinds_startAll (cache : CacheId) (limit : Nat) (fetches : List (String × Query.Fetch)) :
    Unwinds w alarm (startAll cache limit fetches) (startAll cache limit fetches) s :=
  .look (.step (.same rfl rfl rfl rfl))

private theorem unwinds_resolveAll (cache : CacheId) (limit : Nat)
    (fetches : List (String × Query.Fetch)) :
    Unwinds w alarm (resolveAll cache limit fetches) (resolveAll cache limit fetches) s :=
  (unwinds_startAll cache limit fetches).bind fun _ _ =>
    (unwinds_wait _ _).bind fun _ _ => .ret _

include hκ in
private theorem unwinds_render (c : Coordinator) (template : Program) (timeout : Nat) :
    Unwinds w alarm (render κ c template timeout) (render κ' c template timeout) s := by
  refine .ite (fun _ => ?_) fun _ => ?_
  · exact (Unwinds.ret _).bind fun verdicts _ => (unwinds_drawFinal hκ template _).bind fun _ _ =>
      .ite (fun _ => .ret _) fun _ => .ret _
  · refine (unwinds_discover hκ template).bind fun fetches _ => ?_
    refine (unwinds_resolveAll _ _ fetches).bind fun verdicts _ => ?_
    exact (unwinds_drawFinal hκ template _).bind fun _ _ => .ite (fun _ => .ret _) fun _ => .ret _

private theorem unwinds_takeLate (cache : CacheId) (fetches : List (String × Query.Fetch)) :
    Unwinds w alarm (takeLate cache fetches) (takeLate cache fetches) s := by
  induction fetches generalizing s with
  | nil => exact .ret _
  | cons f rest ih =>
    refine (Unwinds.stepGet (.same rfl rfl rfl rfl)).bind fun taken _ => ih.bind fun r _ => ?_
    cases taken <;> exact .ret _

include hκ in
private theorem unwinds_prefetch (c : Coordinator) (template : Program) (ms : Nat) :
    Unwinds w alarm (prefetch κ c template ms) (prefetch κ' c template ms) s := by
  refine .ite (fun _ => .ret _) fun _ => ?_
  refine (unwinds_discover hκ template).bind fun fetches _ => ?_
  refine (unwinds_takeLate _ fetches).bind fun r _ => ?_
  exact (unwinds_startAll _ _ _).bind fun _ _ => (unwinds_wait _ _).bind fun _ _ => .ret _

include hκ in
/-- Handing a result to its query ends alike with both kernels. -/
theorem unwinds_applyResult (result : Query.Result) (c : Consumer) :
    Unwinds w alarm (applyResult κ result c) (applyResult κ' result c) s := by
  cases result with
  | value v =>
    simp only [applyResult]
    cases c.shape.check v with
    | ok v => exact unwinds_resolveQuery hκ c.node v
    | error message => exact unwinds_callReport hκ c.scope _
  | failure f => exact unwinds_callReport hκ c.scope _
  | panic message => exact .raise _

include hκ in
private theorem unwinds_applyAll (results : List (Query.Result × Consumer)) :
    Unwinds w alarm (applyAll κ results) (applyAll κ' results) s := by
  induction results generalizing s with
  | nil => exact .ret ()
  | cons r rest ih =>
    refine Unwinds.givingUp ?_ (fun u => ?_) fun _ _ => ih
    · exact (unwinds_applyResult hκ r.1 r.2).tidying (State.tidied_unhold · _)
    · exact .foldl (fun s r => State.tidied_unhold s (.node r.2.node)) rest u

include hκ in
/-- Resolving what is pending ends alike with both kernels. -/
theorem unwinds_resolvePending (client : ClientId) :
    Unwinds w alarm (resolvePending κ client) (resolvePending κ' client) s := by
  refine unwinds_holdingClient fun s => .look (.ite (fun _ => .ret 0) fun _ => ?_)
  refine .change (.same rfl rfl rfl rfl) (Unwinds.givingUp ?_ (fun u => ?_) fun _ _ => ?_)
  · split
    · exact (unwinds_wait _ _).bind fun _ _ => .raise _
    · exact .ite (fun _ => (Unwinds.raise _).bind fun _ _ => unwinds_wait _ _) fun _ =>
        unwinds_wait _ _
  · exact .foldl (fun s (c : Consumer) => State.tidied_unhold s (.node c.node)) _ u
  · exact (unwinds_batch hκ fun _ => unwinds_applyAll hκ _).bind fun _ _ => .ret _

private theorem steady_addLog (s : State) (v : Json) : s.Steady (s.addLog v) :=
    .same rfl rfl rfl rfl

include hκ in
/-- A step of a session closes what it opens, if its calls do. -/
theorem unwinds_runWith (step : Step) :
    Unwinds w alarm (step.runWith κ) (step.runWith κ') s := by
  cases step with
  | statement stmt => exact unwinds_exec hκ stmt.program
  | render name route ms body =>
    refine Unwinds.bind (.look (.ret _)) fun c _ => ?_
    cases c with
    | none => exact .ret _
    | some c =>
      exact (unwinds_render hκ c _ _).bind fun page s' => .change (steady_addLog s' _) (.ret _)
  | prefetch name route ms body =>
    refine Unwinds.bind (.look (.ret _)) fun c _ => ?_
    cases c with
    | none => exact .ret _
    | some c =>
      exact (unwinds_prefetch hκ c _ ms).bind fun events s' => .change (steady_addLog s' _) (.ret _)
  | resolve name =>
    refine .look ?_
    cases (s.handle? name).bind mount? with
    | none => exact .ret _
    | some m =>
      exact (unwinds_resolvePending hκ m.client).bind fun count s' =>
        .change (steady_addLog s' _) (.ret _)
  | advance ms => exact (unwinds_wait ms false).bind fun _ _ => .ret _

end

end Rivulet.Script
