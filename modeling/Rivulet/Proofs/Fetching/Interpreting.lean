import Rivulet.Proofs.Fetching.Querying

/-!
# Programs of any depth mind the queries that wait

Names of signals stand for signals, so no program writes a query; and nobody but an error handler
runs while results are handed out. All calls of the library, and so all programs, of any depth,
leave alone what is old.
-/

namespace Rivulet.Engine

open Hydration

variable {old : NodeId → Prop} {client : Ward} {s : State}

private theorem mem_names_of_handle? {name : String} {h : Handle}
    (hname : s.handle? name = some h) :
    (name, h) ∈ s.names := by
  obtain ⟨before, after, hnames, -⟩ := List.lookup_eq_some_iff.1 hname
  rw [hnames]
  simp

/-- Doing something with what a name stands for leaves alone what is old. -/
theorem mindful_withHandle {α : Type} (name : String) (kind? : Handle → Option α)
    {f : α → Run (Option Json)}
    (h : ∀ x a, kind? x = some a → s.Carries client → (name, x) ∈ s.names →
      Mindful old client (f a) s) : Mindful old client (withHandle name kind? f) s := by
  refine .look fun hs => ?_
  cases hname : (s.handle? name).bind kind? with
  | none => exact .ret _
  | some a =>
    obtain ⟨x, hx, ha⟩ := Option.bind_eq_some_iff.1 hname
    exact h x a ha hs (mem_names_of_handle? hx)

/-- Doing something in the scope of a name leaves alone what is old. -/
theorem mindful_withScopeOf (name : String) {f : ScopeId → Run (Option Json)}
    (h : ∀ a, Mindful old client (f a) s) : Mindful old client (withScopeOf name f) s := by
  refine .look fun _ => ?_
  cases (s.handle? name).bind s.scopeOf? with
  | none => exact .ret _
  | some scope => exact h scope

/-- Doing something that gives no answer leaves alone what is old. -/
theorem mindful_noAnswer {x : Run Unit} (h : Mindful old client x s) :
    Mindful old client (noAnswer x) s := h.bind fun _ _ _ => .ret _

section

variable {κ : Kernel} (hκ : ∀ old, κ.Mindful old client)

include hκ

omit hκ in
/-- Creating a signal leaves alone what is old. -/
theorem mindful_createSignal (name : Option String) {handle : NodeId → Handle}
    (hsuits : ∀ id kinds, (handle id).Suits kinds ↔ kinds[id.index]? = some .source)
    (hsignal : ∀ id, (handle id).signal? = some id) (v : Json) :
    Mindful old client (createSignal name handle v) s := by
  refine .changeGet (State.minding_newSource (c := .signal v) rfl) fun _ => ?_
  refine .step (State.minding_bindName name ((hsuits _ _).2 ?_) (fun n hn => ⟨v, ?_⟩)
    fun _ hclient => ?_)
  · show (s.kinds.push Graph.Kind.source)[s.kinds.size]? = some .source
    rw [Array.getElem?_push, if_pos rfl]
  · obtain rfl : (⟨s.kinds.size⟩ : NodeId) = n := Option.some.inj ((hsignal _).symm.trans hn)
    exact Std.HashMap.getElem?_insert_self
  · have hsome := hsignal ⟨s.kinds.size⟩
    revert hsome hclient
    cases handle ⟨s.kinds.size⟩ <;> simp [Handle.signal?, Handle.client?]

omit hκ in
/-- Recording a read leaves alone what is old. -/
theorem mindful_recordRead {id : NodeId} (h : s.kinds[id.index]? = some .source) :
    Mindful old client (recordRead id) s :=
  .step (State.minding_change (.record id ⟨_, h, by simp⟩) rfl)

/-- Reading what a name stands for leaves alone what is old. -/
theorem mindful_read (name : String) : Mindful old client (read κ name) s := by
  refine .look fun hs => ?_
  have hsource (id : NodeId) (view : State → Json) (h : s.kinds[id.index]? = some .source) :
      Mindful old client (do recordRead id; return some (view (← get))) s :=
    (mindful_recordRead h).bind fun _ _ _ => .look fun _ => .ret _
  cases hname : s.handle? name with
  | none => exact .ret _
  | some x =>
    have hfits := suits_of_handle? hs.typed hname
    cases x with
    | signal id => exact hsource id _ hfits
    | pair id => exact hsource id _ hfits
    | computed id => exact (mindful_callRead (hκ old) hfits).bind fun _ _ _ => .ret _
    | query id key => exact hsource id _ hfits
    | _ => exact .ret _

/-- Reading the size of what a name stands for leaves alone what is old. -/
theorem mindful_readSize (name : String) : Mindful old client (readSize κ name) s := by
  refine .look fun _ => ?_
  have hsize : Mindful old client
      (do return (← read κ name).map fun v => Json.ofNat (Text.byteLength v.print)) s :=
    (mindful_read hκ name).bind fun _ _ _ => .ret _
  cases s.handle? name with
  | none => exact hsize
  | some x =>
    cases x with
    | query id key => exact .ret _
    | _ => exact hsize

omit hκ in
private theorem mindful_readQuery (name : String) (view : Option Json → Json) :
    Mindful old client (readQuery name view) s := by
  refine mindful_withHandle name Handle.query? fun x id hid hs hmem => ?_
  have hsuits := hs.typed.names _ hmem
  have hkind : s.kinds[id.index]? = some .source := by
    cases x <;> simp only [Handle.query?, Option.some.injEq, reduceCtorEq] at hid
    exact hid ▸ hsuits
  exact (mindful_recordRead hkind).bind fun _ _ _ => .look fun _ => .ret _

omit hκ in
/-- A signal is written. -/
theorem State.minding_write {id : NodeId} (h : ∃ w, s.cells[id]? = some (.signal w)) (v : Json) :
    s.Minding old client (s.setCell id (.signal v)) := by
  intro hs
  obtain ⟨w, hw⟩ := h
  have hkind : s.kinds[id.index]? = some .source := hs.typed.cells id _ hw
  exact State.minding_replaced (Leads.one (.write id v hkind)).path rfl
    ⟨rfl, rfl, rfl, rfl, rfl, rfl, rfl⟩ (fun _ u hu => by simp [hw] at hu)
    (fun _ _ _ _ => ⟨v, rfl⟩) (by simp [Cell.kind]) hs

private theorem mindful_write {id : NodeId} (h : ∃ w, s.cells[id]? = some (.signal w)) (v : Json) :
    Mindful old client (write κ id v) s := by
  refine mindful_holding (.look fun _ => .ite (fun _ => .ret _) fun _ => ?_)
  refine (mindful_replaceValue (hκ old) (State.minding_write ?_ v)).bind fun _ _ _ => .ret _
  exact h

private theorem mindful_overwrite {id : NodeId} (h : ∃ w, s.cells[id]? = some (.signal w))
    (v : Json) :
    Mindful old client (overwrite κ id v) s := by
  refine mindful_holding (mindful_replaceValue (hκ old) (State.minding_write ?_ v))
  exact h

omit hκ in
private theorem mindful_ifWritable {x : Run Bool} (h : Mindful old client x s) :
    Mindful old client (ifWritable x) s :=
  .look fun _ => .ite (fun _ => .ret _) fun _ => h.bind fun _ _ _ => .ret _

omit hκ in
theorem State.minding_leaveGuard (s : State) (scope : ScopeId)
    (guards : List (String × ScopeId)) :
    s.Minding old client { s with guards, scopes := s.scopes.leave scope } := by
  have hleave : s.Minding old client (s.modifyScopes (·.leave scope)) :=
    State.minding_change (.leaveScope scope) rfl
  exact hleave.trans (State.Aside.minding rfl)

omit hκ in
private theorem mindful_dropGuard (name : String) : Mindful old client (dropGuard name) s := by
  refine .stepGet ?_
  split
  · exact .refl s
  · exact State.minding_leaveGuard s _ _

omit hκ in
/-- Keeping the current supply leaves alone what is old. -/
theorem mindful_keepCurrent (scope : ScopeId) (guard : Option String) :
    Mindful old client (keepCurrent scope guard) s := by
  refine .step ?_
  cases guard with
  | none => exact .refl s
  | some name =>
    have henter : s.Minding old client (s.modifyScopes (·.enter scope)) :=
      State.minding_change (.enterScope scope) rfl
    simp only
    cases s.guards.lookup name with
    | none => exact henter.trans (State.Aside.minding rfl)
    | some last => exact henter.trans (State.minding_leaveGuard _ last _)

omit hκ in
private theorem mindful_addCleanup (p : Program) : Mindful old client (addCleanup p) s := by
  refine .stepGet ?_
  cases h : s.scopes.addCleanup? (.program p) with
  | none => exact .refl s
  | some scopes => exact State.minding_change (.cleanup _ h) rfl

omit hκ in
private theorem mindful_showNode (name : String) (view : Document (Json → Program) → DomId → Json) :
    Mindful old client (showNode name view) s :=
  mindful_withHandle name Handle.domNode? fun _ _ _ _ _ => .look fun _ => .ret _

omit hκ in
/-- Opening a document leaves alone what is old. -/
theorem mindful_openDocument (name : Option String) (markup : String) :
    Mindful old client (openDocument name markup) s := by
  rw [openDocument]
  cases Document.parse markup with
  | error e => exact .ret _
  | ok d =>
    exact (mindful_newDocument d).bind fun document s' _ =>
      (mindful_bindOther (h := .node document Document.root) name trivial rfl rfl).bind
        fun _ _ _ => .ret _

private theorem mindful_dispatch (document : DocumentId) (node : DomId) (event : String) :
    Mindful old client (dispatch κ document node event) s :=
  .look fun _ => (Mindful.forM (fun _ _ => mindful_perform (hκ old) _) _).bind
    fun _ _ _ => .ret _

omit hκ in
private theorem mindful_findNode (node tag : String) (k : Nat) (name : Option String) :
    Mindful old client (findNode node tag k name) s := by
  refine mindful_withHandle node Handle.domNode? fun x p _ _ _ => .look fun _ => ?_
  cases ((s.document p.1).findAll p.2 tag)[k]? with
  | none => exact .ret _
  | some found =>
    exact (mindful_bindOther (h := .node p.1 found) name trivial rfl rfl).bind fun _ _ _ => .ret _

omit hκ in
private theorem mindful_setInner (document : DocumentId) (node : DomId) (markup : String) :
    Mindful old client (setInner document node markup) s := .stepGet (State.Aside.minding rfl)

omit hκ in
/-- Creating a coordinator leaves alone what is old. -/
theorem mindful_createCoordinator (name : Option String) (options : Query.Options)
    (other : Option String) : Mindful old client (createCoordinator name options other) s := by
  refine .stepGet ?_
  simp only
  have hname (s : State) (c : Coordinator) :
      s.Minding old client (s.bindName name (.coordinator c)) :=
    State.minding_bindName name trivial (fun n hn => by cases hn) fun _ h => by cases h
  split
  · exact hname s _
  · have hcache : s.Minding old client { s with caches := s.caches.push {} } :=
      State.Aside.minding rfl
    exact hcache.trans (hname _ _)

/-! ## Calls -/

private theorem mindful_scheduleOp {id : NodeId} (h : s.kinds[id.index]? = some .effect) :
    Mindful old client (do
      match (← get).effect? id with
      | some e => unless e.disposed do holding id (scheduleEffect κ id)
      | none => return) s := by
  refine .look fun _ => ?_
  cases s.effect? id with
  | none => exact .ret ()
  | some e =>
    refine .ite (fun _ => .ret ()) fun _ => mindful_holding (mindful_scheduleEffect (hκ old) ?_)
    exact h

omit hκ in
private theorem mindful_createNamedScope (parent : Option ScopeId) (name : Option String) :
    Mindful old client
      (do let scope ← createScope parent; modify (·.bindName name (.scope scope))) s :=
  (mindful_createScope parent).bind fun scope _ _ =>
    mindful_bindOther (h := .scope scope) name trivial rfl rfl

/-- Every call of a program leaves alone what is old. -/
theorem mindful_performOp (o : Op) : Mindful old client (performOp κ o) s := by
  cases o with
  | log v => exact mindful_noAnswer (.step (State.Aside.minding rfl))
  | get name => exact mindful_read hκ name
  | peek name => exact mindful_untracked fun _ => mindful_read hκ name
  | size name => exact mindful_readSize hκ name
  | state name => exact mindful_readQuery name _
  | loading name => exact mindful_readQuery name fun v => .bool v.isNone
  | signal name v =>
    exact mindful_noAnswer (mindful_createSignal name (fun _ _ => Iff.rfl) (fun _ => rfl) v)
  | pair name v =>
    exact mindful_noAnswer (mindful_createSignal name (fun _ _ => Iff.rfl) (fun _ => rfl) v)
  | set name v =>
    refine mindful_withHandle name Handle.signal? fun x id hid hs hmem =>
      mindful_noAnswer (mindful_ensureWritable ?_)
    exact (mindful_write hκ (hs.signals _ hmem id hid) v).bind fun _ _ _ => .ret ()
  | trySet name v =>
    refine mindful_withHandle name Handle.signal? fun x id hid hs hmem => mindful_ifWritable ?_
    exact mindful_write hκ (hs.signals _ hmem id hid) v
  | update name v =>
    refine mindful_withHandle name Handle.signal? fun x id hid hs hmem =>
      mindful_noAnswer (mindful_ensureWritable ?_)
    exact mindful_overwrite hκ (hs.signals _ hmem id hid) v
  | tryUpdate name v =>
    refine mindful_withHandle name _ fun x id hid hs hmem => mindful_ifWritable ?_
    have hid' : x.signal? = some id := by
      cases x <;> simp only [Option.some.injEq, reduceCtorEq] at hid
      exact congrArg some hid
    exact (mindful_overwrite hκ (hs.signals _ hmem id hid') v).bind fun _ _ _ => .ret _
  | stop name =>
    exact mindful_withHandle name _ fun _ id _ _ _ =>
      mindful_noAnswer (mindful_stopEffect (hκ old) id)
  | schedule name =>
    exact mindful_withHandle name _ fun x id hid hs hmem =>
      mindful_noAnswer (mindful_scheduleOp hκ (effect_of_handle hid (hs.typed.names _ hmem)))
  | drop name => exact mindful_noAnswer (.step (State.minding_unbind s name))
  | inspect name => exact .look fun _ => .look fun _ => .ret _
  | debug name => exact .look fun _ => .look fun _ => .ret _
  | stats => exact .look fun _ => .ret _
  | pushScope name =>
    refine mindful_noAnswer (.look fun _ => (mindful_createScope _).bind fun scope _ _ => ?_)
    exact (mindful_keepCurrent scope name).bind fun _ _ _ =>
      mindful_bindOther (h := .scope scope) name trivial rfl rfl
  | enterScope scope guard =>
    exact mindful_withScopeOf scope fun id => mindful_noAnswer (mindful_keepCurrent id guard)
  | popScope guard =>
    refine (mindful_dropGuard guard).bind fun popped _ _ => ?_
    cases popped with
    | none => exact .ret _
    | some scope => exact .look fun _ => .ret _
  | dropGuard guard =>
    exact mindful_noAnswer ((mindful_dropGuard guard).bind fun _ _ _ => .ret ())
  | createScope name => exact mindful_noAnswer (.look fun _ => mindful_createNamedScope _ name)
  | createRoot name => exact mindful_noAnswer (mindful_createNamedScope none name)
  | createChild name parent =>
    exact mindful_withScopeOf parent fun id =>
      mindful_noAnswer (mindful_createNamedScope (some id) name)
  | dispose scope =>
    exact mindful_withScopeOf scope fun id => mindful_noAnswer (mindful_callDispose (hκ old) id)
  | reportError scope failure =>
    cases scope with
    | none => exact mindful_noAnswer (mindful_callReport (hκ old) none _)
    | some scope =>
      exact mindful_withScopeOf scope fun id =>
        mindful_noAnswer (mindful_callReport (hκ old) (some id) _)
  | forgetUncaught => exact mindful_noAnswer (.step (State.Aside.minding rfl))
  | document name markup => exact mindful_openDocument name markup
  | html node => exact mindful_showNode node fun d n => .str (d.inner n)
  | outer node => exact mindful_showNode node fun d n => .arr [.str n.display, .str (d.outer n)]
  | outline node => exact mindful_showNode node _
  | find node tag k name => exact mindful_findNode node tag k name
  | dispatch node event =>
    exact mindful_withHandle node Handle.domNode? fun _ p _ _ _ =>
      (mindful_dispatch hκ p.1 p.2 event).bind fun _ _ _ => .ret _
  | listeners node => exact mindful_showNode node fun d n => .ofNat (d.listenerCount n)
  | setInner node markup =>
    exact mindful_withHandle node Handle.domNode? fun _ p _ _ _ => mindful_setInner p.1 p.2 markup
  | mounted name =>
    exact mindful_withHandle name _ fun _ m _ _ _ =>
      mindful_ensureUnlocked fun _ => .look fun _ => .ret _
  | unmount name =>
    refine mindful_withHandle name _ fun x m hm _ hmem => mindful_noAnswer ?_
    cases x <;> simp only [Option.some.injEq, reduceCtorEq] at hm
    exact mindful_unmount hκ (hm ▸ hmem)
  | coordinator name options other =>
    exact (mindful_createCoordinator name options other).bind fun _ _ _ => .ret _
  | cachePut name key v =>
    exact mindful_withHandle name Handle.coordinator? fun _ c _ _ _ =>
      mindful_noAnswer (.step (State.Aside.minding rfl))
  | cacheGet name key =>
    exact mindful_withHandle name Handle.coordinator? fun _ c _ _ _ => .look fun _ => .ret _
  | claim expected attrs name =>
    exact mindful_noAnswer ((mindful_claimAs name _).bind fun _ _ _ => .ret ())
  | enter => exact mindful_noAnswer (mindful_walking _)
  | exit => exact mindful_noAnswer (mindful_walking _)
  | finish => exact mindful_noAnswer (mindful_walking _)
  | staticText content name =>
    exact mindful_noAnswer ((mindful_claimAs name _).bind fun _ _ _ => .ret ())
  | append fragment name =>
    exact mindful_noAnswer ((mindful_claimAs name _).bind fun _ _ _ => .ret ())
  | cursor =>
    exact (mindful_walking _).bind fun _ _ _ => mindful_currentDrawing.bind fun _ _ _ =>
      .look fun _ => .ret _

/-- Every enclosure of a program leaves alone what is old. -/
theorem mindful_enclose (e : Enclosure) (body : Program) :
    Mindful old client (enclose κ e body) s := by
  have hexec (s : State) := mindful_callExec (hκ old) (s := s) body
  cases e with
  | plain => exact (hexec s).bind fun _ _ _ => .ret _
  | batch => exact (mindful_batch (hκ old) hexec).bind fun _ _ _ => .ret _
  | untrack => exact (mindful_untracked hexec).bind fun _ _ _ => .ret _
  | scope name =>
    refine .look fun _ => ?_
    cases (s.handle? name).bind s.scopeOf? with
    | none => exact .ret _
    | some scope => exact (mindful_withScope hexec).bind fun _ _ _ => .ret _
  | walk mode name =>
    refine .look fun _ => ?_
    cases (s.handle? name).bind Handle.domNode? with
    | none => exact .ret _
    | some p =>
      refine (mindful_newDrawing p.1 p.2 mode).bind fun d _ _ => ?_
      exact (mindful_drawing hexec).bind fun _ _ _ => .look fun _ => .ret _

/-- Every installation of a program leaves alone what is old. -/
theorem mindful_performInstall (body : Json → Program) (i : Install) :
    Mindful old client (performInstall κ body i) s := by
  cases i with
  | computed name => exact mindful_noAnswer (mindful_createComputed name _)
  | effect name fallible => exact mindful_noAnswer (mindful_createEffect (hκ old) _ _ name)
  | cleanup => exact mindful_addCleanup _
  | onError scope =>
    exact mindful_withScopeOf scope fun id =>
      mindful_noAnswer (.step (State.minding_change (.handler id _) rfl))
  | uncaught => exact mindful_noAnswer (.step (State.Aside.minding rfl))
  | dynText name => exact mindful_noAnswer (mindful_dynText (hκ old) name _)
  | attr node name =>
    exact mindful_withHandle node Handle.domNode? fun _ p _ _ _ =>
      mindful_noAnswer (mindful_bindAttr (hκ old) p.2 name _)
  | listener node event =>
    exact mindful_withHandle node Handle.domNode? fun _ p _ _ _ =>
      (mindful_listen p.2 event body).bind fun _ _ _ => .ret _
  | region name => exact mindful_noAnswer (mindful_region (hκ old) name _)
  | insert name => exact mindful_noAnswer (mindful_insert (hκ old) name _)
  | boundary => exact mindful_noAnswer (mindful_boundary (hκ old) _ none)
  | mount name node mode payload notice =>
    refine mindful_withHandle node Handle.domNode? fun _ p _ _ _ => ?_
    refine .change ?_ fun _ => (mindful_mount hκ name p.1 p.2 mode payload _).bind
      fun _ _ _ => .ret _
    cases notice with
    | none => exact .refl s
    | some v => exact State.Aside.minding rfl
  | discover coordinator route =>
    exact mindful_withHandle coordinator Handle.coordinator? fun _ _ _ _ _ =>
      (mindful_discover hκ _).bind fun _ _ _ => .ret _

/-- Programs mind what is old. -/
theorem mindful_program (p : Program) : Mindful old client (exec κ p) s := by
  induction p generalizing s with
  | stop o => exact .ret o
  | panic message => exact .raise _
  | op o next ih => exact (mindful_performOp hκ o).bind fun a _ _ => ih a
  | within e body next ihbody ih => exact (mindful_enclose hκ e body).bind fun r _ _ => ih r.1 r.2
  | install i body next ihbody ih =>
    exact (mindful_performInstall hκ body i).bind fun a _ _ => ih a
  | guarded fallback content next ihfallback ihcontent ih =>
    exact (mindful_boundary (hκ old) content (some fallback)).bind fun _ _ _ => ih
  | query name key shape plan value next ihvalue ih =>
    exact (mindful_createQuery hκ name key shape plan value).bind fun _ _ _ => ih
  | call name seen drawing next ih =>
    rw [exec]
    refine .look fun _ => ?_
    cases s.procedures[name]? with
    | none => exact ih _
    | some p => exact (mindful_callExec (hκ old) _).bind fun o _ _ => ih o

/-- Answering a query leaves alone what is old. -/
theorem mindful_answer {c : Call} (hc : c.Gentle old s) : Mindful old client (answer κ c) s := by
  cases c with
  | exec p => exact mindful_program hκ p
  | refresh id => exact (mindful_refresh (hκ old) hc).bind fun _ _ _ => .ret _
  | read id => exact (mindful_readComputed (hκ old) hc).bind fun _ _ _ => .ret _
  | dispose scope => exact (mindful_disposeScope (hκ old) scope).bind fun _ _ _ => .ret _
  | drain => exact (mindful_drain (hκ old)).bind fun _ _ _ => .ret _
  | report scope error =>
    exact (mindful_reportError (hκ old) scope error).bind fun _ _ _ => .ret _

end

/-- Calls of any depth mind what is old. -/
theorem mindful_kernel : ∀ n old, (kernel n).Mindful old client
  | 0, _ => fun _ _ _ => .raise _
  | n + 1, _ => fun _ _ hc => mindful_answer (mindful_kernel n) hc

end Rivulet.Engine
