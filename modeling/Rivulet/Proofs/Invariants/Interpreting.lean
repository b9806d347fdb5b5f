import Rivulet.Proofs.Invariants.Mounting

/-!
# Programs as chains of steps

Names stand for nodes that were created as what the name is for, so a program reads what may be
read and writes what may be written. A kernel that looks for a law at the beginning and at the end
of every call never finds it broken.
-/

namespace Rivulet.Engine

open Hydration

/-- What a name stands for suits. -/
theorem suits_of_handle? {s : State} (hs : s.Typed) {name : String} {h : Handle}
    (hname : s.handle? name = some h) : h.Suits s.kinds := by
  have hmem : (name, h) ∈ s.names := by
    rw [State.handle?] at hname
    generalize s.names = names at hname
    induction names with
    | nil => simp at hname
    | cons p names ih =>
      obtain ⟨x, a⟩ := p
      rw [List.lookup_cons] at hname
      cases hx : name == x with
      | true =>
        rw [hx] at hname
        simp only [Option.some.injEq] at hname
        obtain rfl : name = x := by simpa using hx
        exact hname ▸ List.mem_cons_self
      | false =>
        rw [hx] at hname
        exact List.mem_cons_of_mem _ (ih hname)
  exact hs.names _ hmem

section

variable {law : Law} {κ κ' : Kernel} (hκ : Interchangeable law κ κ') {s : State}

/-- Doing something with what a name stands for is the same with both kernels. -/
theorem concur_withHandle {α : Type} (name : String) (kind? : Handle → Option α)
    {f g : α → Run (Option Json)}
    (h : ∀ x a, kind? x = some a → x.Suits s.kinds → Concur law Whatever (f a) (g a) s) :
    Concur law Whatever (withHandle name kind? f) (withHandle name kind? g) s := by
  refine .look fun hs => ?_
  cases hname : (s.handle? name).bind kind? with
  | none => exact .ret trivial
  | some a =>
    obtain ⟨x, hx, ha⟩ := Option.bind_eq_some_iff.1 hname
    exact h x a ha (suits_of_handle? (law.typed hs) hx)

/-- Doing something in the scope of a name is the same with both kernels. -/
theorem concur_withScopeOf (name : String) {f g : ScopeId → Run (Option Json)}
    (h : ∀ a, Concur law Whatever (f a) (g a) s) :
    Concur law Whatever (withScopeOf name f) (withScopeOf name g) s := by
  refine .look fun _ => ?_
  cases (s.handle? name).bind s.scopeOf? with
  | none => exact .ret trivial
  | some scope => exact h scope

/-- Doing something that gives no answer is the same with both kernels. -/
theorem concur_noAnswer {x y : Run Unit} (h : Concur law Whatever x y s) :
    Concur law Whatever (noAnswer x) (noAnswer y) s := h.bind fun _ _ _ _ => .ret trivial

theorem kinds_of_signal? {x : Handle} {id : NodeId} (h : x.signal? = some id)
    (suits : x.Suits s.kinds) : s.kinds[id.index]? = some .source := by
  cases x <;> simp only [Handle.signal?, Option.some.injEq, reduceCtorEq] at h <;>
    exact h ▸ suits

private theorem concur_createSignal (name : Option String) {handle : NodeId → Handle}
    (hh : ∀ id kinds, (handle id).Suits kinds ↔ kinds[id.index]? = some .source) (v : Json) :
    Concur law Whatever (createSignal name handle v) (createSignal name handle v) s := by
  refine Concur.bind (P := fun id s' => s'.kinds[id.index]? = some .source)
    (.stepGet (fun _ => .one (.newSource (.signal v) rfl)) fun _ => ?_) fun id s' _ hid => ?_
  · show (s.kinds.push Graph.Kind.source)[s.kinds.size]? = some .source
    rw [Array.getElem?_push, if_pos rfl]
  · exact concur_bindName ((hh id _).2 hid)

/-- Recording a read is the same with both kernels. -/
theorem concur_recordRead {id : NodeId} (h : s.kinds[id.index]? = some .source) :
    Concur law Whatever (recordRead id) (recordRead id) s :=
  .step fun _ => .one (.record id ⟨_, h, by simp⟩)

include hκ in
/-- Reading what a name stands for is the same with both kernels. -/
theorem concur_read (name : String) : Concur law Whatever (read κ name) (read κ' name) s := by
  refine .look fun hs => ?_
  have hsource (id : NodeId) (view : State → Json) (h : s.kinds[id.index]? = some .source) :
      Concur law Whatever (do recordRead id; return some (view (← get)))
        (do recordRead id; return some (view (← get))) s :=
    (concur_recordRead h).bind fun _ _ _ _ => .look fun _ => .ret trivial
  cases hname : s.handle? name with
  | none => exact .ret trivial
  | some x =>
    have hfits := suits_of_handle? (law.typed hs) hname
    cases x with
    | signal id => exact hsource id _ hfits
    | pair id => exact hsource id _ hfits
    | computed id => exact (concur_callRead hκ hfits).bind fun _ _ _ _ => .ret trivial
    | query id key => exact hsource id _ hfits
    | _ => exact .ret trivial

include hκ in
/-- Reading the size of what a name stands for is the same with both kernels. -/
theorem concur_readSize (name : String) :
    Concur law Whatever (readSize κ name) (readSize κ' name) s := by
  refine .look fun _ => ?_
  have hsize : Concur law Whatever
      (do return (← read κ name).map fun v => Json.ofNat (Text.byteLength v.print))
      (do return (← read κ' name).map fun v => Json.ofNat (Text.byteLength v.print)) s :=
    (concur_read hκ name).bind fun _ _ _ _ => .ret trivial
  cases s.handle? name with
  | none => exact hsize
  | some x =>
    cases x with
    | query id key => exact .ret trivial
    | _ => exact hsize

private theorem concur_readQuery (name : String) (view : Option Json → Json) :
    Concur law Whatever (readQuery name view) (readQuery name view) s := by
  refine concur_withHandle name Handle.query? fun x id hid suits => ?_
  have hkind : s.kinds[id.index]? = some .source := by
    cases x <;> simp only [Handle.query?, Option.some.injEq, reduceCtorEq] at hid
    exact hid ▸ suits
  exact (concur_recordRead hkind).bind fun _ _ _ _ => .look fun _ => .ret trivial

include hκ in
private theorem concur_write {id : NodeId} (h : s.kinds[id.index]? = some .source) (v : Json) :
    Concur law Whatever (write κ id v) (write κ' id v) s := by
  refine concur_holding fun s' hb => .look fun _ => .ite (fun _ => .ret trivial) fun _ => ?_
  exact (concur_replaceValue hκ (.write id v (hb.kinds _ _ h))).bind fun _ _ _ _ => .ret trivial

include hκ in
private theorem concur_overwrite {id : NodeId} (h : s.kinds[id.index]? = some .source) (v : Json) :
    Concur law Whatever (overwrite κ id v) (overwrite κ' id v) s :=
  concur_holding fun _ hb => concur_replaceValue hκ (.write id v (hb.kinds _ _ h))

private theorem concur_ifWritable {x y : Run Bool} (h : Concur law Whatever x y s) :
    Concur law Whatever (ifWritable x) (ifWritable y) s :=
  .look fun _ => .ite (fun _ => .ret trivial) fun _ => h.bind fun _ _ _ _ => .ret trivial

theorem leads_leave_guard (s : State) (scope : ScopeId) (guards : List (String × ScopeId)) :
    Leads s { s with guards, scopes := s.scopes.leave scope } := by
  have hleave : Leads s (s.modifyScopes (·.leave scope)) := .one (.leaveScope scope)
  exact hleave.trans (Leads.aside (by constructor <;> rfl))

private theorem concur_dropGuard (name : String) :
    Concur law Whatever (dropGuard name) (dropGuard name) s := by
  refine .stepGet (fun _ => ?_) fun _ => trivial
  split
  · exact .refl
  · exact leads_leave_guard s _ _

/-- Keeping the current supply is the same with both kernels. -/
theorem concur_keepCurrent (scope : ScopeId) (guard : Option String) :
    Concur law Whatever (keepCurrent scope guard) (keepCurrent scope guard) s := by
  refine .step fun _ => ?_
  cases guard with
  | none => exact .refl
  | some name =>
    have henter : Leads s (s.modifyScopes (·.enter scope)) := .one (.enterScope scope)
    simp only
    cases s.guards.lookup name with
    | none => exact henter.trans (Leads.aside (by constructor <;> rfl))
    | some old => exact henter.trans (leads_leave_guard _ old _)

private theorem concur_addCleanup (p : Program) :
    Concur law Whatever (addCleanup p) (addCleanup p) s := by
  refine .stepGet (fun _ => ?_) fun _ => trivial
  cases h : s.scopes.addCleanup? (.program p) with
  | none => exact .refl
  | some scopes => exact .one (.cleanup _ h)

private theorem concur_showNode (name : String) (view : Document (Json → Program) → DomId → Json) :
    Concur law Whatever (showNode name view) (showNode name view) s :=
  concur_withHandle name Handle.domNode? fun _ _ _ _ => .look fun _ => .ret trivial

/-- Opening a document is the same with both kernels. -/
theorem concur_openDocument (name : Option String) (markup : String) :
    Concur law Whatever (openDocument name markup) (openDocument name markup) s := by
  rw [openDocument]
  cases Document.parse (α := Json → Program) markup with
  | error e => exact .ret trivial
  | ok d =>
    refine (concur_newDocument d).bind fun document s' _ _ => ?_
    exact .change (fun _ => State.leads_bindName (h := .node document Document.root) name trivial)
      fun _ => .ret trivial

include hκ in
private theorem concur_dispatch (document : DocumentId) (node : DomId) (event : String) :
    Concur law Whatever (dispatch κ document node event) (dispatch κ' document node event) s :=
  .look fun _ => (Concur.forM fun _ _ _ => concur_perform hκ _).bind fun _ _ _ _ => .ret trivial

private theorem concur_findNode (node tag : String) (k : Nat) (name : Option String) :
    Concur law Whatever (findNode node tag k name) (findNode node tag k name) s := by
  refine concur_withHandle node Handle.domNode? fun x p _ _ => .look fun _ => ?_
  cases ((s.document p.1).findAll p.2 tag)[k]? with
  | none => exact .ret trivial
  | some found =>
    exact .change (fun _ => State.leads_bindName (h := .node p.1 found) name trivial)
      fun _ => .ret trivial

private theorem concur_setInner (document : DocumentId) (node : DomId) (markup : String) :
    Concur law Whatever (setInner document node markup) (setInner document node markup) s :=
  .stepGet (fun _ => Leads.aside (by constructor <;> rfl)) fun _ => trivial

/-- Creating a coordinator is the same with both kernels. -/
theorem concur_createCoordinator (name : Option String) (options : Query.Options)
    (other : Option String) : Concur law Whatever (createCoordinator name options other)
      (createCoordinator name options other) s := by
  refine .stepGet (fun _ => ?_) fun _ => trivial
  simp only
  split
  · exact State.leads_bindName (h := .coordinator _) name trivial
  · have hcache : Leads s { s with caches := s.caches.push {} } :=
      Leads.aside (by constructor <;> rfl)
    exact hcache.trans (State.leads_bindName (h := .coordinator _) name trivial)

/-! ## Calls -/

theorem effect_of_handle {x : Handle} {id : NodeId}
    (h : (match x with | .effect id => some id | _ => none) = some id)
    (suits : x.Suits s.kinds) : s.kinds[id.index]? = some .effect := by
  cases x <;> simp only [Option.some.injEq, reduceCtorEq] at h
  exact h ▸ suits

include hκ in
private theorem concur_scheduleOp {id : NodeId} (h : s.kinds[id.index]? = some .effect) :
    Concur law Whatever
      (do
        match (← get).effect? id with
        | some e => unless e.disposed do holding id (scheduleEffect κ id)
        | none => return)
      (do
        match (← get).effect? id with
        | some e => unless e.disposed do holding id (scheduleEffect κ' id)
        | none => return) s := by
  refine .look fun _ => ?_
  cases s.effect? id with
  | none => exact .ret trivial
  | some e =>
    refine .ite (fun _ => .ret trivial) fun _ => ?_
    exact concur_holding fun _ hb => concur_scheduleEffect hκ (hb.kinds _ _ h)

private theorem concur_createNamedScope (parent : Option ScopeId) (name : Option String) :
    Concur law Whatever
      (do let scope ← createScope parent; modify (·.bindName name (.scope scope)))
      (do let scope ← createScope parent; modify (·.bindName name (.scope scope))) s :=
  (concur_createScope parent).bind fun scope _ _ _ => concur_bindName (h := .scope scope) trivial

include hκ in
/-- Every call of a program is the same with both kernels. -/
theorem concur_performOp (o : Op) :
    Concur law Whatever (performOp κ o) (performOp κ' o) s := by
  cases o with
  | log v => exact concur_noAnswer (.step fun _ => Leads.aside (by constructor <;> rfl))
  | get name => exact concur_read hκ name
  | peek name => exact concur_untracked fun _ _ => concur_read hκ name
  | size name => exact concur_readSize hκ name
  | state name => exact concur_readQuery name _
  | loading name => exact concur_readQuery name fun v => .bool v.isNone
  | signal name v => exact concur_noAnswer (concur_createSignal name (fun _ _ => Iff.rfl) v)
  | pair name v => exact concur_noAnswer (concur_createSignal name (fun _ _ => Iff.rfl) v)
  | set name v =>
    refine concur_withHandle name Handle.signal? fun x id hid suits => concur_noAnswer ?_
    refine concur_ensureWritable.bind fun _ s' hb _ => ?_
    exact (concur_write hκ (hb.kinds _ _ (kinds_of_signal? hid suits)) v).bind
      fun _ _ _ _ => .ret trivial
  | trySet name v =>
    refine concur_withHandle name Handle.signal? fun x id hid suits => concur_ifWritable ?_
    exact concur_write hκ (kinds_of_signal? hid suits) v
  | update name v =>
    refine concur_withHandle name Handle.signal? fun x id hid suits => concur_noAnswer ?_
    exact concur_ensureWritable.bind fun _ s' hb _ =>
      concur_overwrite hκ (hb.kinds _ _ (kinds_of_signal? hid suits)) v
  | tryUpdate name v =>
    refine concur_withHandle name _ fun x id hid suits => concur_ifWritable ?_
    have hkind : s.kinds[id.index]? = some .source := by
      cases x <;> simp only [Option.some.injEq, reduceCtorEq] at hid
      exact hid ▸ suits
    exact (concur_overwrite hκ hkind v).bind fun _ _ _ _ => .ret trivial
  | stop name =>
    exact concur_withHandle name _ fun _ id _ _ => concur_noAnswer (concur_stopEffect hκ id)
  | schedule name =>
    exact concur_withHandle name _ fun x id hid suits =>
      concur_noAnswer (concur_scheduleOp hκ (effect_of_handle hid suits))
  | drop name => exact concur_noAnswer (.step fun _ => State.leads_unbind s name)
  | inspect name => exact .look fun _ => .look fun _ => .ret trivial
  | debug name => exact .look fun _ => .look fun _ => .ret trivial
  | stats => exact .look fun _ => .ret trivial
  | pushScope name =>
    refine concur_noAnswer (.look fun _ => (concur_createScope _).bind fun scope _ _ _ => ?_)
    exact (concur_keepCurrent scope name).bind fun _ _ _ _ =>
      concur_bindName (h := .scope scope) trivial
  | enterScope scope guard =>
    exact concur_withScopeOf scope fun id => concur_noAnswer (concur_keepCurrent id guard)
  | popScope guard =>
    refine (concur_dropGuard guard).bind fun popped _ _ _ => ?_
    cases popped with
    | none => exact .ret trivial
    | some scope => exact .look fun _ => .ret trivial
  | dropGuard guard =>
    exact concur_noAnswer ((concur_dropGuard guard).bind fun _ _ _ _ => .ret trivial)
  | createScope name => exact concur_noAnswer (.look fun _ => concur_createNamedScope _ name)
  | createRoot name => exact concur_noAnswer (concur_createNamedScope none name)
  | createChild name parent =>
    exact concur_withScopeOf parent fun id =>
      concur_noAnswer (concur_createNamedScope (some id) name)
  | dispose scope =>
    exact concur_withScopeOf scope fun id => concur_noAnswer (concur_callDispose hκ id)
  | reportError scope failure =>
    cases scope with
    | none => exact concur_noAnswer (concur_callReport hκ none _)
    | some scope =>
      exact concur_withScopeOf scope fun id => concur_noAnswer (concur_callReport hκ (some id) _)
  | forgetUncaught =>
    exact concur_noAnswer (.step fun _ => Leads.aside (by constructor <;> rfl))
  | document name markup => exact concur_openDocument name markup
  | html node => exact concur_showNode node fun d n => .str (d.inner n)
  | outer node =>
    exact concur_showNode node fun d n => .arr [.str n.display, .str (d.outer n)]
  | outline node => exact concur_showNode node _
  | find node tag k name => exact concur_findNode node tag k name
  | dispatch node event =>
    exact concur_withHandle node Handle.domNode? fun _ p _ _ =>
      (concur_dispatch hκ p.1 p.2 event).bind fun _ _ _ _ => .ret trivial
  | listeners node => exact concur_showNode node fun d n => .ofNat (d.listenerCount n)
  | setInner node markup =>
    exact concur_withHandle node Handle.domNode? fun _ p _ _ => concur_setInner p.1 p.2 markup
  | mounted name =>
    exact concur_withHandle name _ fun _ m _ _ =>
      (concur_ensureUnlocked _ _).bind fun _ _ _ _ => .look fun _ => .ret trivial
  | unmount name =>
    exact concur_withHandle name _ fun _ m _ _ => concur_noAnswer (concur_unmount hκ name m)
  | coordinator name options other =>
    exact (concur_createCoordinator name options other).bind fun _ _ _ _ => .ret trivial
  | cachePut name key v =>
    exact concur_withHandle name Handle.coordinator? fun _ c _ _ =>
      concur_noAnswer (.step fun _ => Leads.aside (by constructor <;> rfl))
  | cacheGet name key =>
    exact concur_withHandle name Handle.coordinator? fun _ c _ _ => .look fun _ => .ret trivial
  | claim expected attrs name =>
    exact concur_noAnswer ((concur_claimAs name _).bind fun _ _ _ _ => .ret trivial)
  | enter => exact concur_noAnswer (concur_walking _)
  | exit => exact concur_noAnswer (concur_walking _)
  | finish => exact concur_noAnswer (concur_walking _)
  | staticText content name =>
    exact concur_noAnswer ((concur_claimAs name _).bind fun _ _ _ _ => .ret trivial)
  | append fragment name =>
    exact concur_noAnswer ((concur_claimAs name _).bind fun _ _ _ _ => .ret trivial)
  | cursor =>
    exact (concur_walking _).bind fun _ _ _ _ => concur_currentDrawing.bind fun _ _ _ _ =>
      .look fun _ => .ret trivial

include hκ in
/-- Every enclosure of a program is the same with both kernels. -/
theorem concur_enclose (e : Enclosure) (body : Program) :
    Concur law Whatever (enclose κ e body) (enclose κ' e body) s := by
  have hexec (s : State) := concur_exec hκ (s := s) body
  cases e with
  | plain => exact (hexec s).bind fun _ _ _ _ => .ret trivial
  | batch => exact (concur_batch hκ hexec).bind fun _ _ _ _ => .ret trivial
  | untrack => exact (concur_untracked fun s' _ => hexec s').bind fun _ _ _ _ => .ret trivial
  | scope name =>
    refine .look fun _ => ?_
    cases (s.handle? name).bind s.scopeOf? with
    | none => exact .ret trivial
    | some scope => exact (concur_withScope hexec).bind fun _ _ _ _ => .ret trivial
  | walk mode name =>
    refine .look fun _ => ?_
    cases (s.handle? name).bind Handle.domNode? with
    | none => exact .ret trivial
    | some p =>
      refine (concur_newDrawing p.1 p.2 mode).bind fun d _ _ _ => ?_
      exact (concur_drawing fun s' _ => hexec s').bind fun _ _ _ _ => .look fun _ => .ret trivial

include hκ in
/-- Every installation of a program is the same with both kernels. -/
theorem concur_performInstall (body : Json → Program) (i : Install) :
    Concur law Whatever (performInstall κ body i) (performInstall κ' body i) s := by
  cases i with
  | computed name => exact concur_noAnswer (concur_createComputed name _)
  | effect name fallible => exact concur_noAnswer (concur_createEffect hκ _ _ name)
  | cleanup => exact concur_addCleanup _
  | onError scope =>
    exact concur_withScopeOf scope fun id => concur_noAnswer (.step fun _ => .one (.handler id _))
  | uncaught => exact concur_noAnswer (.step fun _ => Leads.aside (by constructor <;> rfl))
  | dynText name => exact concur_noAnswer (concur_dynText hκ name _)
  | attr node name =>
    exact concur_withHandle node Handle.domNode? fun _ p _ _ =>
      concur_noAnswer (concur_bindAttr hκ p.2 name _)
  | listener node event =>
    exact concur_withHandle node Handle.domNode? fun _ p _ _ =>
      (concur_listen p.2 event body).bind fun _ _ _ _ => .ret trivial
  | region name => exact concur_noAnswer (concur_region hκ name _)
  | insert name => exact concur_noAnswer (concur_insert hκ name _)
  | boundary => exact concur_noAnswer (concur_boundary hκ _ none)
  | mount name node mode payload notice =>
    refine concur_withHandle node Handle.domNode? fun _ p _ _ => ?_
    refine .change (fun _ => ?_) fun _ =>
      (concur_mount hκ name p.1 p.2 mode payload _).bind fun _ _ _ _ => .ret trivial
    cases notice with
    | none => exact .refl
    | some v => exact Leads.aside (by constructor <;> rfl)
  | discover coordinator route =>
    exact concur_withHandle coordinator Handle.coordinator? fun _ _ _ _ =>
      (concur_discover hκ _).bind fun _ _ _ _ => .ret trivial

include hκ in
/-- What a program does depends on the kernel through its answers in lawful states only, and is a
chain of steps. -/
theorem concur_program (p : Program) : Concur law Whatever (exec κ p) (exec κ' p) s := by
  induction p generalizing s with
  | stop o => exact .ret trivial
  | panic message => exact .raise _
  | op o next ih => exact (concur_performOp hκ o).bind fun a _ _ _ => ih a
  | within e body next ihbody ih => exact (concur_enclose hκ e body).bind fun r _ _ _ => ih r.1 r.2
  | install i body next ihbody ih =>
    exact (concur_performInstall hκ body i).bind fun a _ _ _ => ih a
  | guarded fallback content next ihfallback ihcontent ih =>
    exact (concur_boundary hκ content (some fallback)).bind fun _ _ _ _ => ih
  | query name key shape plan value next ihvalue ih =>
    exact (concur_createQuery hκ name key shape plan value).bind fun _ _ _ _ => ih
  | call name seen drawing next ih =>
    rw [exec, exec]
    refine .look fun _ => ?_
    cases s.procedures[name]? with
    | none => exact ih _
    | some p => exact (concur_exec hκ _).bind fun o _ _ _ => ih o

include hκ in
/-- Answering a query is the same with both kernels. -/
theorem concur_answer {c : Call} (hc : c.Apt s) :
    Concur law Whatever (answer κ c) (answer κ' c) s := by
  cases c with
  | exec p => exact concur_program hκ p
  | refresh id => exact (concur_refresh hκ id).bind fun _ _ _ _ => .ret trivial
  | read id => exact (concur_readComputed hκ hc).bind fun _ _ _ _ => .ret trivial
  | dispose scope => exact (concur_disposeScope hκ scope).bind fun _ _ _ _ => .ret trivial
  | drain => exact (concur_drain hκ).bind fun _ _ _ _ => .ret trivial
  | report scope error =>
    exact (concur_reportError hκ scope error).bind fun _ _ _ _ => .ret trivial

end

/-- Calls of any depth are chains of steps. -/
theorem interchangeable_kernel (law : Law) : ∀ n, Interchangeable law (kernel n) (kernel n)
  | 0 => fun _ _ _ => .raise _
  | n + 1 => fun _ _ hc => concur_answer (interchangeable_kernel law n) hc

open Classical in
/-- Runs a call and raises an alarm if a property does not hold where the call begins, or where it
ends or is interrupted. -/
noncomputable def watching (J : State → Prop) (alarm : Interrupt) (body : Run Outcome) :
    Run Outcome := fun s =>
  if J s then
    match body s with
    | .ok o s' => if J s' then .ok o s' else .error alarm s'
    | .error e s' => if J s' then .error e s' else .error alarm s'
  else .error alarm s

/-- The kernel that raises an alarm at the first call, of any depth, at whose beginning or end a
property does not hold, and is the usual one otherwise. -/
noncomputable def watched (J : State → Prop) (alarm : Interrupt) : Nat → Kernel
  | 0 => fun _ => throw .outOfFuel
  | n + 1 => fun c => watching J alarm (answer (watched J alarm n) c)

/-- A law is never found broken. -/
theorem interchangeable_watched (law : Law) {J : State → Prop} (hJ : ∀ s, law.Holds s → J s)
    (alarm : Interrupt) : ∀ n, Interchangeable law (kernel n) (watched J alarm n)
  | 0 => fun _ _ _ => .raise _
  | n + 1 => by
    intro c s hc hs
    obtain ⟨heq, hpost⟩ := concur_answer (interchangeable_watched law hJ alarm n) hc hs
    have hkernel : kernel (n + 1) c s = answer (kernel n) c s := rfl
    rw [hkernel]
    refine ⟨?_, hpost⟩
    simp only [watched, watching, if_pos (hJ s hs), ← heq]
    cases he : answer (kernel n) c s with
    | ok o s' =>
      rw [he] at hpost
      have hs' := hJ s' (law.path hs hpost.1)
      simp only [if_pos hs']
    | error e s' =>
      rw [he] at hpost
      have hs' := hJ s' (law.path hs hpost.1)
      simp only [if_pos hs']

end Rivulet.Engine
