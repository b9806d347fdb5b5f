import Rivulet.Proofs.Invariants.Creating

/-!
# Queries and applications as chains of steps

What is known and wanted of queries lies outside the core. A query itself is a node like a signal,
and it is only ever given a value while it still is one.
-/

namespace Rivulet.Engine

open Hydration

/-- What is done for a query that has been created. -/
def placeQuery (κ : Kernel) (name : Option String) (key : String) (shape : Query.Shape)
    (start : Run Query.Fetch) (id : NodeId) : Run Unit := do
  let s ← get
  match s.supply? with
  | none => pure ()
  | some (.client client) => answerClient κ id client key shape start
  | some (.server pass) =>
    match s.passes[pass.index]? with
    | some (.discovery fetches) => recordFetch pass fetches key start
    | some (.final verdicts requested) =>
      set { s with
        passes := s.passes.setIfInBounds pass.index
          (.final verdicts (Engine.request key requested)) }
      answerFinal κ id shape (verdicts.lookup key)
    | none => pure ()
  modify (·.bindName name (.query id key))

/-- A query is created, and held while it is answered. -/
theorem createQuery_eq (κ : Kernel) (name : Option String) (key : String) (shape : Query.Shape)
    (plan : Query.Plan) (value : Program) : createQuery κ name key shape plan value =
      ((modifyGet fun s => (⟨s.kinds.size⟩, s.withNode .source (.query none)) : Run NodeId) >>=
        fun id => holding id
          (placeQuery κ name key shape (startFetch κ key shape plan value) id)) := rfl

section

variable {law : Law} {κ κ' : Kernel} (hκ : Interchangeable law κ κ') {s : State}

/-- A change of the query data of an application, in which only nodes like signals come to be
waited for. -/
theorem leads_modifyClient {id : ClientId} {f : Client → Client}
    (h : ∀ c, s.clients[id]? = some c → ∀ n ∈ (f c).waiting,
      n ∈ c.waiting ∨ s.kinds[n.index]? = some .source) : Leads s (s.modifyClient id f) := by
  refine .one (.clients _ fun j c' hc' n hn => ?_)
  rw [Std.HashMap.getElem?_modify] at hc'
  split at hc'
  · rename_i hj
    obtain rfl : id = j := by simpa using hj
    obtain ⟨c, hc, rfl⟩ := Option.map_eq_some_iff.1 hc'
    exact (h c hc n hn).imp_left fun hold => ⟨c, hc, hold⟩
  · exact .inl ⟨c', hc', hn⟩

/-- A query joins the fetch that waits for its key, behind all others. -/
theorem joinPending_some {key : String} {x : Consumer} {l l' : List PendingFetch}
    (h : joinPending key x l = some l') : ∃ before p after, l = before ++ p :: after ∧
      p.key = key ∧ l' = before ++ { p with consumers := p.consumers ++ [x] } :: after := by
  induction l generalizing l' with
  | nil => simp [joinPending] at h
  | cons p rest ih =>
    rw [joinPending] at h
    split at h
    · rename_i hkey
      exact ⟨[], p, rest, rfl, hkey, (Option.some.inj h).symm⟩
    · obtain ⟨rest', hrest, rfl⟩ := Option.map_eq_some_iff.1 h
      obtain ⟨before, q, after, rfl, hkey, rfl⟩ := ih hrest
      exact ⟨p :: before, q, after, rfl, hkey, rfl⟩

/-- Who joins a fetch that waits is the only one to wait anew. -/
theorem mem_joinPending {key : String} {consumer : Consumer} {l l' : List PendingFetch}
    (h : joinPending key consumer l = some l') {n : NodeId}
    (hn : n ∈ l'.flatMap (·.consumers.map (·.node))) :
    n ∈ l.flatMap (·.consumers.map (·.node)) ∨ n = consumer.node := by
  obtain ⟨before, p, after, rfl, -, rfl⟩ := joinPending_some h
  simp only [List.flatMap_append, List.flatMap_cons, List.mem_append, List.map_append,
    List.map_cons, List.map_nil, List.mem_singleton] at hn ⊢
  tauto

include hκ in
private theorem concur_startFetch (key : String) (shape : Query.Shape) (plan : Query.Plan)
    (value : Program) : Concur law Whatever (startFetch κ key shape plan value)
      (startFetch κ' key shape plan value) s :=
  .change (fun _ => Leads.aside (by constructor <;> rfl)) fun _ =>
    (concur_eval hκ value).bind fun _ _ _ _ => .ret trivial

include hκ in
/-- Resolving a query of a server render is the same with both kernels. -/
theorem concur_resolveQuery (id : NodeId) (v : Json) :
    Concur law Whatever (resolveQuery κ id v) (resolveQuery κ' id v) s := by
  refine concur_ensureWritable.bind fun _ s' _ _ => .look fun hs => ?_
  split
  · rename_i old hcell
    have hkind : s'.kinds[id.index]? = some .source := (law.typed hs).cells id _ hcell
    exact .ite (fun _ => .ret trivial) fun _ =>
      concur_replaceValue hκ (.resolve id v hkind)
  · exact .ret trivial

include hκ in
private theorem concur_failOnServer (failure : Query.Failure) :
    Concur law Whatever (failOnServer κ failure) (failOnServer κ' failure) s := by
  refine .look fun _ => ?_
  cases s.scopes.current? with
  | none => exact .ret trivial
  | some scope => exact .ite (fun _ => concur_callReport hκ _ _) fun _ => .ret trivial

/-- The check that nothing is locked is the same with both kernels. -/
theorem concur_ensureUnlocked (supply : Supply) (message : String) :
    Concur law Whatever (ensureUnlocked supply message) (ensureUnlocked supply message) s :=
  .look fun _ => .ite (fun _ => .raise _) fun _ => .ret trivial

/-- Doing something while it is locked is the same with both kernels. -/
theorem concur_locking (supply : Supply) {x y : Run Query.Fetch}
    (h : ∀ s, Concur law Whatever x y s) :
    Concur law Whatever (locking supply x) (locking supply y) s :=
  .change (fun _ => Leads.aside (by constructor <;> rfl)) fun _ =>
    (h _).guarding fun _ => Leads.aside (by constructor <;> rfl)

private theorem concur_recordFetch (pass : PassId) (fetches : List (String × Query.Fetch))
    (key : String)
    {x y : Run Query.Fetch} (h : ∀ s, Concur law Whatever x y s) :
    Concur law Whatever (recordFetch pass fetches key x) (recordFetch pass fetches key y) s := by
  refine (concur_ensureUnlocked _ _).bind fun _ _ _ _ => .ite (fun _ => .ret trivial) fun _ => ?_
  exact (concur_locking _ h).bind fun _ _ _ _ =>
    .step fun _ => Leads.aside (by constructor <;> rfl)

include hκ in
/-- Answering a query in the final pass is the same with both kernels. -/
theorem concur_answerFinal (id : NodeId) (shape : Query.Shape) (verdict : Option Query.Verdict) :
    Concur law Whatever (answerFinal κ id shape verdict) (answerFinal κ' id shape verdict) s := by
  cases verdict with
  | none => exact .ret trivial
  | some verdict =>
    cases verdict with
    | resolved v =>
      simp only [answerFinal]
      cases shape.check v with
      | ok v => exact concur_resolveQuery hκ id v
      | error message => exact concur_failOnServer hκ _
    | failed message => exact concur_failOnServer hκ _
    | pending => exact .ret trivial

/-- Putting a fetch off is the same with both kernels. -/
theorem concur_deferFetch (client : ClientId) (key : String) {consumer : Consumer}
    (hsource : s.kinds[consumer.node.index]? = some .source) {x y : Run Query.Fetch}
    (h : ∀ s, Concur law Whatever x y s) :
    Concur law Whatever (deferFetch client key consumer x) (deferFetch client key consumer y)
      s := by
  refine (concur_ensureUnlocked _ _).bind fun _ s' hb _ => .look fun _ => ?_
  have hsource' := hb.kinds _ _ hsource
  simp only
  split
  · rename_i pending hjoin
    refine .step fun _ => leads_modifyClient fun c hc n hn => ?_
    simp only [hc, Option.map_some, Option.getD_some] at hjoin
    rcases mem_joinPending hjoin hn with hold | rfl
    · exact .inl hold
    · exact .inr hsource'
  · refine (concur_locking _ h).bind fun fetch s'' hb' _ =>
      .step fun _ => leads_modifyClient fun c hc n hn => ?_
    rw [Client.waiting, List.flatMap_append, List.mem_append] at hn
    rcases hn with hold | hnew
    · exact .inl hold
    · obtain rfl : n = consumer.node := by simpa using hnew
      exact .inr (hb'.kinds _ _ hsource')

include hκ in
private theorem concur_answerClient {id : NodeId} (hsource : s.kinds[id.index]? = some .source)
    (client : ClientId) (key : String) (shape : Query.Shape)
    {x y : Run Query.Fetch} (h : ∀ s, Concur law Whatever x y s) :
    Concur law Whatever (answerClient κ id client key shape x)
      (answerClient κ' id client key shape y) s := by
  refine .look fun _ => ?_
  simp only
  split
  · exact concur_resolveQuery hκ id _
  · exact concur_deferFetch client key hsource h
  · exact concur_deferFetch client key hsource h

include hκ in
/-- Making a query is the same with both kernels. -/
theorem concur_createQuery (name : Option String) (key : String) (shape : Query.Shape)
    (plan : Query.Plan) (value : Program) :
    Concur law Whatever (createQuery κ name key shape plan value)
      (createQuery κ' name key shape plan value) s := by
  refine Concur.bind (P := fun id s' => s'.kinds[id.index]? = some .source)
    (.stepGet (fun _ => .one (.newSource (.query none) rfl)) fun _ => ?_) fun id s₁ _ hid => ?_
  · show (s.kinds.push Graph.Kind.source)[s.kinds.size]? = some .source
    rw [Array.getElem?_push, if_pos rfl]
  have hstart (s : State) := concur_startFetch hκ (s := s) key shape plan value
  refine concur_holding fun s₂ hb₂ => .look fun _ => ?_
  have hname (s' : State) (hb : s₂.Before s') : Concur law Whatever
      (modify (·.bindName name (.query id key)) : Run Unit)
      (modify (·.bindName name (.query id key))) s' :=
    concur_bindName (h := .query id key) (hb.kinds _ _ (hb₂.kinds _ _ hid))
  cases s₂.supply? with
  | none => exact hname s₂ (.refl s₂)
  | some supply =>
    cases supply with
    | client client =>
      exact (concur_answerClient hκ (hb₂.kinds _ _ hid) client key shape hstart).bind
        fun _ s' hb _ => hname s' hb
    | server pass =>
      simp only
      cases s₂.passes[pass.index]? with
      | none => exact hname s₂ (.refl s₂)
      | some p =>
        cases p with
        | discovery fetches =>
          exact (concur_recordFetch pass fetches key hstart).bind fun _ s' hb _ => hname s' hb
        | final verdicts requested =>
          simp only [set_eq]
          refine .change (fun _ => Leads.aside (by constructor <;> rfl)) fun hb => ?_
          exact (concur_answerFinal hκ id shape _).bind fun _ s' hb' _ =>
            hname s' (hb.trans hb')

/-- A new pass over a template is the same with both kernels. -/
theorem concur_newPass (p : Pass) : Concur law Whatever (newPass p) (newPass p) s :=
  .stepGet (fun _ => Leads.aside (by constructor <;> rfl)) fun _ => trivial

include hκ in
/-- Drawing a template in a pass is the same with both kernels. -/
theorem concur_drawPass (template : Program) (pass : PassId) :
    Concur law Whatever (drawPass κ template pass) (drawPass κ' template pass) s := by
  refine (concur_newDocument _).bind fun document _ _ _ => ?_
  refine (concur_createScope none).bind fun scope _ _ _ => ?_
  refine Concur.bind (P := Whatever) ?_ fun _ _ _ _ => ?_
  · exact concur_withScope fun _ => concur_withSupply fun _ _ =>
      (concur_newDrawing _ _ _).bind fun d _ _ _ => concur_drawing fun _ _ =>
        concur_perform hκ template
  · exact .look fun _ => (concur_callDispose hκ scope).bind fun _ _ _ _ => .ret trivial

include hκ in
/-- Discovering the queries of a template is the same with both kernels. -/
theorem concur_discover (template : Program) :
    Concur law Whatever (discover κ template) (discover κ' template) s := by
  refine (concur_newPass _).bind fun pass _ _ _ => ?_
  refine (concur_drawPass hκ template pass).bind fun _ _ _ _ => .look fun _ => ?_
  split
  · exact .change (fun _ => Leads.aside (by constructor <;> rfl)) fun _ => .ret trivial
  · exact .ret trivial

include hκ in
/-- Drawing the final pass is the same with both kernels. -/
theorem concur_drawFinal (template : Program) (verdicts : List (String × Query.Verdict)) :
    Concur law Whatever (drawFinal κ template verdicts) (drawFinal κ' template verdicts) s :=
  (concur_newPass _).bind fun pass _ _ _ =>
    (concur_drawPass hκ template pass).bind fun _ _ _ _ => .look fun _ => .ret trivial

/-- New query data is the same with both kernels. -/
theorem concur_newClient (payload : Query.Payload) :
    Concur law Whatever (newClient payload) (newClient payload) s := by
  refine .stepGet (fun _ => ?_) fun _ => trivial
  have hclient : Leads s { s with
      clients := s.clients.insert ⟨s.nextClient⟩ { payload } } := by
    refine .one (.clients _ fun j c' hc' n hn => ?_)
    rw [Std.HashMap.getElem?_insert] at hc'
    split at hc'
    · obtain rfl := Option.some.inj hc'
      simp [Client.waiting] at hn
    · exact .inl ⟨c', hc', hn⟩
  exact hclient.trans (Leads.aside (by constructor <;> rfl))

/-- Forgetting what is pending is the same with both kernels. -/
theorem concur_clearPending (client : ClientId) :
    Concur law Whatever (clearPending client) (clearPending client) s := by
  refine (concur_ensureUnlocked _ _).bind fun _ s' _ _ => .step fun _ => ?_
  have hclear : Leads s' (s'.modifyClient client ({ · with pending := [] })) :=
    leads_modifyClient fun _ _ _ hn => by simp [Client.waiting] at hn
  exact hclear.trans (State.leads_foldl State.leads_dropNode _ _)

/-- Clearing what stands below a node is the same with both kernels. -/
theorem concur_clearBelow (document : DocumentId) (node : DomId) :
    Concur law Whatever (clearBelow document node) (clearBelow document node) s :=
  .stepGet (fun _ => Leads.aside (by constructor <;> rfl)) fun _ => trivial

include hκ in
/-- Drawing an application is the same with both kernels. -/
theorem concur_drawApp (app : Program) (document : DocumentId) (target : DomId) (mode : Mode) :
    Concur law Whatever (drawApp κ app document target mode)
      (drawApp κ' app document target mode) s := by
  refine (concur_createScope none).bind fun scope _ _ _ => ?_
  refine (concur_newDrawing _ _ _).bind fun d _ _ _ => ?_
  refine Concur.bind (P := Whatever) ?_ fun _ _ _ _ => .ret trivial
  exact concur_withScope fun _ => concur_drawing fun _ _ => concur_perform hκ app

include hκ in
/-- Claiming the markup of an application is the same with both kernels. -/
theorem concur_claimApp (app : Program) (document : DocumentId) (target : DomId)
    (client : ClientId) : Concur law Whatever (claimApp κ app document target client)
      (claimApp κ' app document target client) s := by
  refine (concur_drawApp hκ app document target .hydrate).bind fun r _ _ _ => .look fun _ => ?_
  refine .ite (fun _ => ?_) fun _ => .ret trivial
  refine (concur_callDispose hκ _).bind fun _ _ _ _ => ?_
  refine (concur_clearPending client).bind fun _ _ _ _ => ?_
  refine (concur_clearBelow document target).bind fun removed _ _ _ => ?_
  refine (concur_drawApp hκ app document target .create).bind fun r' _ _ _ => ?_
  exact .change (fun _ => Leads.aside (by constructor <;> rfl)) fun _ => .ret trivial

include hκ in
private theorem concur_replaceApp (app : Program) (document : DocumentId) (target : DomId) :
    Concur law Whatever (replaceApp κ app document target)
      (replaceApp κ' app document target) s := by
  refine (concur_clearBelow document target).bind fun removed _ _ _ => ?_
  refine (concur_drawApp hκ app document target .create).bind fun r _ _ _ => ?_
  exact .change (fun _ => Leads.aside (by constructor <;> rfl)) fun _ => .ret trivial

include hκ in
/-- Mounting an application is the same with both kernels. -/
theorem concur_mount (name : Option String) (document : DocumentId) (target : DomId)
    (mode : Option MountMode) (payload : Query.Payload) (app : Program) :
    Concur law Whatever (mount κ name document target mode payload app)
      (mount κ' name document target mode payload app) s := by
  refine .look fun _ => ?_
  refine (concur_newClient payload).bind fun client _ _ _ => concur_holdingClient fun _ => ?_
  refine Concur.bind (P := Whatever) (concur_withSupply fun _ _ => ?_) fun m s' _ _ => ?_
  · cases mode.getD (automaticMode s document target) with
    | tolerant =>
      exact (concur_claimApp hκ app document target client).bind fun _ _ _ _ => .ret trivial
    | replace =>
      exact (concur_replaceApp hκ app document target).bind fun _ _ _ _ => .ret trivial
  · exact .change (fun _ => State.leads_bindName (h := .mount m) name trivial) fun _ =>
      .look fun _ => .ret trivial

include hκ in
/-- Unmounting an application is the same with both kernels. -/
theorem concur_unmount (name : String) (m : Mount) :
    Concur law Whatever (unmount κ name m) (unmount κ' name m) s := by
  refine concur_holdingClient fun s => ?_
  refine .change (fun _ => State.leads_unbind s name) fun _ => ?_
  refine (concur_callDispose hκ m.scope).bind fun _ _ _ _ => ?_
  refine (concur_clearPending m.client).bind fun _ _ _ _ => ?_
  exact (concur_clearBelow _ _).bind fun _ _ _ _ => .ret trivial

end

end Rivulet.Engine
