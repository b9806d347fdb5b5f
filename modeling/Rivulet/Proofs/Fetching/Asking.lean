import Rivulet.Proofs.Disposal.Writing
import Rivulet.Proofs.Fetching.Interpreting

/-!
# What becomes of a query

A query takes the value that the server has sent. Without one it joins those who wait for its key,
behind all of them; or it is the first for its key, and its fetch is put off behind all others. No
fetch is started but for the first query of a key.
-/

namespace Rivulet.Engine

variable {old : NodeId → Prop} {client : Ward} {s s' s'' : State} {payload : Query.Payload}

/-- The fetches that are put off for an application. -/
def State.fetches (s : State) (id : ClientId) : List PendingFetch :=
  ((s.clients[id]?).map (·.pending)).getD []

/-- The queries that wait for them. -/
def State.waiters (s : State) (id : ClientId) : List NodeId :=
  (s.fetches id).flatMap (·.consumers.map (·.node))

/-- The fetches of query data that is there. -/
theorem State.fetches_of {id : ClientId} {c : Client} (h : s.clients[id]? = some c) :
    s.fetches id = c.pending := by
  rw [fetches, h]
  rfl

/-- Those who wait for query data that is there. -/
theorem State.waiters_of {id : ClientId} {c : Client} (h : s.clients[id]? = some c) :
    s.waiters id = c.waiting := by
  rw [waiters, fetches_of h]
  rfl

/-- The fetches depend only on the query data. -/
theorem State.fetches_congr {id : ClientId} (h : s'.clients[id]? = s.clients[id]?) :
    s'.fetches id = s.fetches id := by
  rw [fetches, h]
  rfl

/-- A state between two calls, in which the query data of an application is in use. -/
structure State.Hosts (s : State) (client : Ward) (payload : Query.Payload) : Prop where
  /-- The data is in order. -/
  carries : s.Carries client
  /-- No fetch is being started. -/
  unlocked : s.starting = []
  /-- No computed value is being evaluated. -/
  writable : s.tracking.inDerived = false
  /-- This is what the server has sent. -/
  payload : ∀ c, s.clients[client.id]? = some c → c.payload = payload

namespace State.Hosts

/-- What the data of an application is like. -/
theorem data (hs : s.Hosts client payload) : ∃ c, s.clients[client.id]? = some c ∧
    s.fetches client.id = c.pending ∧ s.waiters client.id = c.waiting ∧ c.payload = payload ∧
      c.Orderly ∧ ∀ n ∈ c.waiting, s.cells[n]? = some (.query none) := by
  obtain ⟨c, hc, horderly, hloading⟩ := hs.carries.data
  exact ⟨c, hc, fetches_of hc, waiters_of hc, hs.payload c hc, horderly, hloading⟩

/-- Behind something that minds the data, it is as before a state between two calls. -/
theorem behind (hs : s.Hosts client payload) (hcarries : s'.Carries client)
    (hminds : s.Minds old client s') (honward : s.Onward s') : s'.Hosts client payload where
  carries := hcarries
  unlocked := hminds.starting.trans hs.unlocked
  writable := (inDerived_congr honward.observers).trans hs.writable
  payload c' hc' := by
    obtain ⟨c, hc, -⟩ := hs.carries.data
    obtain ⟨d, hd, hpayload, -⟩ := hminds.data c hc
    obtain rfl : d = c' := Option.some.inj (hd.symm.trans hc')
    exact hpayload.trans (hs.payload c hc)

/-- A change that minds what is old leaves the application at home. -/
theorem step (hs : s.Hosts client payload)
    (h : s.Minding (fun n => n.index < s.kinds.size) client s') (honward : s.Onward s') :
    s'.Hosts client payload ∧ s.Minds (fun n => n.index < s.kinds.size) client s' := by
  obtain ⟨hcarries, hminds⟩ := h hs.carries fun _ h => h
  exact ⟨hs.behind hcarries hminds honward, hminds⟩

/-- So does a run that minds what is old. -/
theorem run {α : Type} {x : Run α} (hs : s.Hosts client payload)
    (h : Mindful (fun n => n.index < s.kinds.size) client x s)
    (hconcur : Concur typing Whatever x x s) :
    (finalState (x s)).Hosts client payload ∧
      s.Minds (fun n => n.index < s.kinds.size) client (finalState (x s)) := by
  refine hs.step h ?_
  obtain ⟨-, hpost⟩ := hconcur hs.carries.typed
  cases hx : x s with
  | ok a s' =>
    rw [hx] at hpost
    exact hpost.2.2.onward
  | error e s' =>
    rw [hx] at hpost
    exact hpost.2

end State.Hosts

/-- No query that was there before comes to wait. -/
theorem State.Minds.waiters (h : s.Minds (fun n => n.index < s.kinds.size) client s')
    (hs : s.Hosts client payload) {n : NodeId} (hn : n ∈ s'.waiters client.id)
    (hlt : n.index < s.kinds.size) : n ∈ s.waiters client.id := by
  obtain ⟨c, hc, -, hwaiters, -⟩ := hs.data
  obtain ⟨c', hc', -, hwaiting, -⟩ := h.data c hc
  rw [waiters_of hc'] at hn
  exact hwaiters ▸ hwaiting n hn hlt

/-- Nobody who waits is lost. -/
theorem State.Minds.lasts (h : s.Minds old client s') (hs : s.Hosts client payload)
    (hapart : client.apart) : Lasts (s.fetches client.id) (s'.fetches client.id) := by
  obtain ⟨c, hc, hfetches, -⟩ := hs.data
  obtain ⟨c', hc', -, -, hlasts⟩ := h.data c hc
  rw [hfetches, fetches_of hc']
  exact hlasts hapart

/-- Data that is in use stays as it is, and in use. -/
def State.SparesData (id : ClientId) (s s' : State) : Prop :=
  .client id ∈ s.held → .client id ∈ s'.held ∧ s'.clients[id]? = s.clients[id]?

namespace State

variable {id : ClientId}

theorem SparesData.refl (s : State) : s.SparesData id s := fun h => ⟨h, rfl⟩

theorem SparesData.trans (h : s.SparesData id s') (h' : s'.SparesData id s'') :
    s.SparesData id s'' := fun hheld =>
  ⟨(h' (h hheld).1).1, (h' (h hheld).1).2.trans (h hheld).2⟩

/-- Doing the same for all of a list. -/
theorem SparesData.foldl {β : Type} {f : State → β → State}
    (h : ∀ (s : State) b, s.SparesData id (f s b)) (l : List β) (s : State) :
    s.SparesData id (l.foldl f s) := by
  induction l generalizing s with
  | nil => exact .refl s
  | cons b l ih => exact (h s b).trans (ih _)

/-- Dropping what lies behind a node. -/
theorem sparesData_dropNode (s : State) (n : NodeId) : s.SparesData id (s.dropNode n) := by
  rw [dropNode]
  split
  · exact .refl s
  · exact fun hheld => ⟨hheld, rfl⟩

/-- Dropping other query data. -/
theorem sparesData_dropClient (s : State) (c : ClientId) : s.SparesData id (s.dropClient c) := by
  rw [dropClient]
  split
  · exact .refl s
  · split
    · exact .refl s
    · rename_i hkept
      have hgone : s.SparesData id { s with clients := s.clients.erase c } := by
        refine fun hheld => ⟨hheld, ?_⟩
        have hne : c ≠ id := by
          rintro rfl
          exact hkept (by simp [keepsClient, hheld])
        exact Std.HashMap.getElem?_erase.trans (if_neg (by simpa using hne))
      exact hgone.trans (.foldl sparesData_dropNode _ _)

/-- Dropping the query data that nothing refers to. -/
theorem sparesData_sweep (s : State) : s.SparesData id s.sweep := by
  rw [sweep]
  split
  · exact .refl s
  · exact .foldl sparesData_dropClient _ s

/-- Releasing a node. -/
theorem sparesData_releaseNode (s : State) (n : NodeId) : s.SparesData id (s.releaseNode n) := by
  rw [releaseNode]
  split
  · exact sparesData_dropNode s n
  · exact (sparesData_dropNode s n).trans (sparesData_sweep _)

private theorem sparesData_releaseHandle (s : State) (h : Handle) :
    s.SparesData id (s.releaseHandle h) := by
  rw [releaseHandle]
  split
  · exact sparesData_releaseNode s _
  · exact sparesData_dropClient s _
  · exact .refl s

/-- Giving something a name. -/
theorem sparesData_bindName (s : State) (name : Option String) (h : Handle) :
    s.SparesData id (s.bindName name h) := by
  cases name with
  | none => exact sparesData_releaseHandle s h
  | some name =>
    have hnamed : s.SparesData id (s.named name h) := fun hheld => ⟨hheld, rfl⟩
    rw [bindName, rebind]
    split
    · exact hnamed
    · exact hnamed.trans (sparesData_releaseHandle _ _)

/-- Letting go of a node that was in use. -/
theorem sparesData_unhold (s : State) (n : NodeId) : s.SparesData id (s.unhold (.node n)) := by
  have hless : s.SparesData id { s with held := s.held.erase (.node n) } := fun hheld =>
    ⟨(List.mem_erase_of_ne (by simp)).2 hheld, rfl⟩
  exact hless.trans (sparesData_releaseNode _ n)

/-- The end of a supply. -/
theorem sparesData_leaveSupply (s : State) : s.SparesData id s.leaveSupply := by
  have hless : s.SparesData id { s with supplies := s.supplies.tail } := fun hheld => ⟨hheld, rfl⟩
  exact hless.trans (sparesData_sweep _)

/-- Query data that is in use keeps its fetches. -/
theorem SparesData.fetches (h : s.SparesData id s') (hheld : .client id ∈ s.held) :
    s'.fetches id = s.fetches id := fetches_congr (h hheld).2

end State

/-! ## A query -/

/-- A query is made in an application. -/
def askQuery (κ : Kernel) (id : ClientId) (name : Option String) (key : String)
    (shape : Query.Shape) (plan : Query.Plan) (value : Program) : Run Unit :=
  withSupply (some (.client id)) (createQuery κ name key shape plan value)

/-- What it comes to when there is a value. -/
def readyQuery (κ : Kernel) (id : ClientId) (name : Option String) (key : String) (v : Json) :
    Run Unit :=
  withSupply (some (.client id)) do
    let node ← addNode .source (.query none)
    holding node do
      resolveQuery κ node v
      modify (·.bindName name (.query node key))

/-- The new query, should it have to wait. -/
def State.newcomer (s : State) (shape : Query.Shape) : Consumer :=
  { node := ⟨s.kinds.size⟩, scope := s.scopes.current?, shape }

/-- The state in which it asks for its value. -/
def State.asking (s : State) (id : ClientId) : State :=
  ({ s with supplies := .client id :: s.supplies }.withNode .source (.query none)).hold
    (.node ⟨s.kinds.size⟩)

/-- The state in which its fetch is started. -/
def State.locked (s : State) (id : ClientId) : State :=
  { s.asking id with starting := .client id :: s.starting }

/-- The state in which it has got its name, or none. -/
def State.placed (s : State) (node : NodeId) (name : Option String) (key : String) : State :=
  ((s.bindName name (.query node key)).unhold (.node node)).leaveSupply

/-- A query that breaks down gets no name. -/
def State.withdrawn (s : State) (node : NodeId) : State := (s.unhold (.node node)).leaveSupply

section

variable {κ : Kernel} {id : ClientId} {name : Option String} {key : String} {shape : Query.Shape}
  {plan : Query.Plan} {value : Program} {t : State}

/-- A query is asked with its node in use, and then gets its name. -/
theorem askQuery_eq : askQuery κ id name key shape plan value s =
    guarding State.leaveSupply (guarding (·.unhold (.node ⟨s.kinds.size⟩)) do
      answerClient κ ⟨s.kinds.size⟩ id key shape (startFetch κ key shape plan value)
      modify (·.bindName name (.query ⟨s.kinds.size⟩ key))) (s.asking id) := rfl

private theorem readyQuery_eq {v : Json} : readyQuery κ id name key v s =
    guarding State.leaveSupply (guarding (·.unhold (.node ⟨s.kinds.size⟩)) do
      resolveQuery κ ⟨s.kinds.size⟩ v
      modify (·.bindName name (.query ⟨s.kinds.size⟩ key))) (s.asking id) := rfl

/-- What is restored does not depend on how the run went. -/
theorem guarding_congr {α : Type} {x y : Run α} (h : x s = y t) (restore : State → State) :
    guarding restore x s = guarding restore y t := by
  rw [guarding, guarding, h]

private theorem askQuery_ok (h : answerClient κ ⟨s.kinds.size⟩ id key shape
    (startFetch κ key shape plan value) (s.asking id) = .ok () t) :
    askQuery κ id name key shape plan value s = .ok () (t.placed ⟨s.kinds.size⟩ name key) := by
  have hnamed : (do
      answerClient κ ⟨s.kinds.size⟩ id key shape (startFetch κ key shape plan value)
      modify (·.bindName name (.query ⟨s.kinds.size⟩ key)) : Run Unit) (s.asking id) =
        .ok () (t.bindName name (.query ⟨s.kinds.size⟩ key)) := run_bind_ok h
  rw [askQuery_eq]
  exact guarding_ok (guarding_ok hnamed _) _

private theorem askQuery_error {e : Interrupt} (h : answerClient κ ⟨s.kinds.size⟩ id key shape
    (startFetch κ key shape plan value) (s.asking id) = .error e t) :
    askQuery κ id name key shape plan value s = .error e (t.withdrawn ⟨s.kinds.size⟩) := by
  rw [askQuery_eq]
  exact guarding_error (guarding_error (run_bind_error h _) _) _

private theorem fetches_placed (h : .client id ∈ t.held) (node : NodeId) :
    (t.placed node name key).fetches id = t.fetches id :=
  ((t.sparesData_bindName name (.query node key)).trans ((State.sparesData_unhold _ node).trans
    (State.sparesData_leaveSupply _))).fetches h

private theorem fetches_withdrawn (h : .client id ∈ t.held) (node : NodeId) :
    (t.withdrawn node).fetches id = t.fetches id :=
  ((State.sparesData_unhold t node).trans (State.sparesData_leaveSupply _)).fetches h

variable {c : Client} {start : Run Query.Fetch} {node : NodeId}

/-- A query takes what the server has sent. -/
theorem answerClient_ready (hc : t.clients[id]? = some c) {v : Json}
    (h : (c.payload.get? key).map shape.check = some (.ok v)) :
    answerClient κ node id key shape start t = resolveQuery κ node v t := by
  rw [answerClient, run_get]
  simp only [hc, Option.bind_some, h]

/-- A query that the server has sent nothing for waits for a fetch. -/
theorem answerClient_lacks (hc : t.clients[id]? = some c)
    (h : ∀ v, (c.payload.get? key).map shape.check ≠ some (.ok v)) :
    answerClient κ node id key shape start t =
      deferFetch id key ⟨node, t.scopes.current?, shape⟩ start t := by
  rw [answerClient, run_get]
  simp only [hc, Option.bind_some]
  cases hcheck : (c.payload.get? key).map shape.check with
  | none => rfl
  | some r =>
    cases r with
    | error message => rfl
    | ok v => exact absurd hcheck (h v)

/-- A supply that does not start is not locked. -/
theorem ensureUnlocked_ok {supply : Supply} (h : supply ∉ t.starting) (message : String) :
    ensureUnlocked supply message t = .ok () t := by
  rw [ensureUnlocked, run_get, if_neg (by simpa using h)]
  rfl

private theorem fetches_modifyClient (hc : t.clients[id]? = some c) (f : Client → Client) :
    (t.modifyClient id f).fetches id = (f c).pending := by
  refine State.fetches_of ?_
  rw [State.modifyClient, Std.HashMap.getElem?_modify_self, hc, Option.map_some]

/-- A query joins the fetch for its key. -/
theorem deferFetch_join (hunlocked : .client id ∉ t.starting) {x : Consumer}
    {pending : List PendingFetch} (h : joinPending key x (t.fetches id) = some pending) :
    deferFetch id key x start t = .ok () (t.modifyClient id ({ · with pending })) := by
  rw [deferFetch, run_bind_ok (ensureUnlocked_ok hunlocked _), run_get]
  simp only [show joinPending key x (((t.clients[id]?).map (·.pending)).getD []) = _ from h]
  rfl

/-- A query is the first for its key. -/
theorem deferFetch_start (hunlocked : .client id ∉ t.starting) {x : Consumer}
    (h : key ∉ (t.fetches id).map (·.key)) : deferFetch id key x start t =
      (locking (.client id) start >>= fun fetch => modify (·.modifyClient id fun c =>
        { c with pending := c.pending ++ [⟨key, fetch, [x]⟩] })) t := by
  rw [deferFetch, run_bind_ok (ensureUnlocked_ok hunlocked _), run_get]
  simp only [show joinPending key x (((t.clients[id]?).map (·.pending)).getD []) = none from
    joinPending_eq_none.2 h]

/-- What is done while a supply is locked. -/
theorem locking_ok {supply : Supply} {fetch : Query.Fetch} {u : State}
    (h : locking supply start t = .ok fetch u) :
    ∃ v, start { t with starting := supply :: t.starting } = .ok fetch v := by
  change guarding _ start { t with starting := supply :: t.starting } = _ at h
  rw [guarding] at h
  cases hx : start { t with starting := supply :: t.starting } with
  | error e v => simp [hx] at h
  | ok a v =>
    rw [hx] at h
    obtain ⟨rfl, -⟩ := EStateM.Result.ok.inj h
    exact ⟨v, rfl⟩

/-- What fails while a supply is locked. -/
theorem locking_error {supply : Supply} {e : Interrupt} {u : State}
    (h : locking supply start t = .error e u) :
    ∃ v, start { t with starting := supply :: t.starting } = .error e v := by
  change guarding _ start { t with starting := supply :: t.starting } = _ at h
  rw [guarding] at h
  cases hx : start { t with starting := supply :: t.starting } with
  | ok a v => simp [hx] at h
  | error e' v =>
    rw [hx] at h
    obtain ⟨rfl, -⟩ := EStateM.Result.error.inj h
    exact ⟨v, rfl⟩

/-- The one who joins comes last. -/
theorem joinPending_middle {x : Consumer} {before after : List PendingFetch} {p : PendingFetch}
    (hkey : p.key = key) (hbefore : ∀ q ∈ before, q.key ≠ key) :
    joinPending key x (before ++ p :: after) =
      some (before ++ { p with consumers := p.consumers ++ [x] } :: after) := by
  induction before with
  | nil => rw [List.nil_append, joinPending, if_pos hkey, List.nil_append]
  | cons q before ih =>
    rw [List.cons_append, joinPending, if_neg (hbefore q List.mem_cons_self),
      ih fun r hr => hbefore r (List.mem_cons_of_mem _ hr)]
    rfl

end

/-- What a query of an application comes to. -/
structure State.Asks (s : State) (κ : Kernel) (id : ClientId) (payload : Query.Payload)
    (name : Option String) (key : String) (shape : Query.Shape) (plan : Query.Plan)
    (value : Program) : Prop where
  /-- If the server has sent a value that can be decoded, the query has it at once, and nothing is
  fetched. -/
  ready : ∀ v, (payload.get? key).map shape.check = some (.ok v) →
    askQuery κ id name key shape plan value s = readyQuery κ id name key v s
  /-- If its key waits, it waits with it, as the last one, for the fetch that is there. -/
  joins : (∀ v, (payload.get? key).map shape.check ≠ some (.ok v)) →
    ∀ before p after, s.fetches id = before ++ p :: after → p.key = key →
      ∃ t, (∀ plan' value', askQuery κ id name key shape plan' value' s = .ok () t) ∧
        t.fetches id =
          before ++ { p with consumers := p.consumers ++ [s.newcomer shape] } :: after
  /-- Otherwise its own fetch is put off, behind all others, unless it breaks down when it is
  started. -/
  starts : (∀ v, (payload.get? key).map shape.check ≠ some (.ok v)) →
    key ∉ (s.fetches id).map (·.key) →
      (∃ fetch t u, startFetch κ key shape plan value (s.locked id) = .ok fetch t ∧
        askQuery κ id name key shape plan value s = .ok () u ∧
        u.fetches id = s.fetches id ++ [⟨key, fetch, [s.newcomer shape]⟩]) ∨
      ∃ e t u, startFetch κ key shape plan value (s.locked id) = .error e t ∧
        askQuery κ id name key shape plan value s = .error e u ∧ u.fetches id = s.fetches id

section

variable {κ : Kernel} (hκ : ∀ old, κ.Mindful old client)

/-- The state in which a query asks for its value carries the data. -/
theorem State.Carries.asking (hs : s.Carries client) :
    (s.asking client.id).Carries client ∧
      s.Minds (fun n => n.index < s.kinds.size) client
        (State.withNode { s with supplies := .client client.id :: s.supplies } .source
          (.query none)) := by
  have hsupply : s.Minding (fun n => n.index < s.kinds.size) client
      { s with supplies := .client client.id :: s.supplies } := State.Aside.minding rfl
  have hcreate : State.Minding (fun n => n.index < s.kinds.size) client
      { s with supplies := .client client.id :: s.supplies }
      (State.withNode { s with supplies := .client client.id :: s.supplies } .source
        (.query none)) := State.minding_newSource rfl
  obtain ⟨hs', hminds⟩ := (hsupply.trans hcreate) hs fun _ h => h
  exact ⟨hs'.hold _, hminds⟩

include hκ

/-- A query does what it should do on an application that is at home. -/
theorem asks (hs : s.Hosts client payload) (name : Option String) (key : String)
    (shape : Query.Shape) (plan : Query.Plan) (value : Program) :
    s.Asks κ client.id payload name key shape plan value := by
  obtain ⟨c, hc, hfetches, -, hpayload, horderly, -⟩ := hs.data
  rw [← hpayload]
  have hclients : (s.asking client.id).clients[client.id]? = some c := hc
  have hpending : (s.asking client.id).fetches client.id = s.fetches client.id := rfl
  have hunlocked : .client client.id ∉ (s.asking client.id).starting := by
    rw [show (s.asking client.id).starting = s.starting from rfl, hs.unlocked]
    exact List.not_mem_nil
  have hheld : .client client.id ∈ (s.asking client.id).held :=
    List.mem_cons_of_mem _ hs.carries.held
  refine ⟨fun v hv => ?_, fun hlacks before p after hmiddle hkey => ?_, fun hlacks hkey => ?_⟩
  · have hrun : answerClient κ ⟨s.kinds.size⟩ client.id key shape
        (startFetch κ key shape plan value) (s.asking client.id) =
          resolveQuery κ ⟨s.kinds.size⟩ v (s.asking client.id) := answerClient_ready hclients hv
    rw [askQuery_eq, readyQuery_eq]
    exact guarding_congr (guarding_congr (run_bind_congr hrun _) _) _
  · have hbefore : ∀ q ∈ before, q.key ≠ key := by
      have hkeys := horderly.keys
      rw [← hfetches, hmiddle, List.map_append, List.nodup_append] at hkeys
      intro q hq he
      exact hkeys.2.2 _ (List.mem_map_of_mem hq) p.key (by simp) (he.trans hkey.symm)
    have hjoin : joinPending key (s.newcomer shape) ((s.asking client.id).fetches client.id) =
        some (before ++ { p with consumers := p.consumers ++ [s.newcomer shape] } :: after) := by
      rw [hpending, hmiddle]
      exact joinPending_middle hkey hbefore
    have hanswer (start : Run Query.Fetch) :
        answerClient κ ⟨s.kinds.size⟩ client.id key shape start (s.asking client.id) = _ :=
      (answerClient_lacks hclients hlacks).trans (deferFetch_join hunlocked hjoin)
    refine ⟨_, fun plan' value' => askQuery_ok (hanswer _), ?_⟩
    rw [fetches_placed, fetches_modifyClient hclients]
    exact hheld
  · obtain ⟨hasking, -⟩ := hs.carries.asking
    let start := startFetch κ key shape plan value
    have hanswer : answerClient κ ⟨s.kinds.size⟩ client.id key shape start (s.asking client.id) =
        (locking (.client client.id) start >>= fun fetch => modify (·.modifyClient client.id
          fun c => { c with pending := c.pending ++ [⟨key, fetch, [s.newcomer shape]⟩] }))
            (s.asking client.id) :=
      (answerClient_lacks hclients hlacks).trans (deferFetch_start hunlocked (hpending ▸ hkey))
    have hstart : Mindful (fun n => n.index < (s.asking client.id).kinds.size) client start
        (s.locked client.id) := mindful_startFetch hκ key shape plan value
    have hdata := clients_locking hstart hasking fun _ h => h
    obtain ⟨-, hminds⟩ := mindful_locking hstart hasking fun _ h => h
    cases hrun : locking (.client client.id) start (s.asking client.id) with
    | ok fetch u =>
      rw [hrun] at hminds hdata
      obtain ⟨t, ht⟩ := locking_ok hrun
      refine .inl ⟨fetch, t, _, ht, askQuery_ok (hanswer.trans (run_bind_ok hrun)), ?_⟩
      have hu : u.clients[client.id]? = some c := hdata.trans hclients
      rw [fetches_placed (hminds.held ▸ hheld)]
      exact (fetches_modifyClient hu _).trans (by rw [hfetches])
    | error e u =>
      rw [hrun] at hminds hdata
      obtain ⟨t, ht⟩ := locking_error hrun
      refine .inr ⟨e, t, _, ht, askQuery_error (hanswer.trans (run_bind_error hrun _)), ?_⟩
      rw [fetches_withdrawn (hminds.held ▸ hheld)]
      exact (State.fetches_congr hdata).trans hpending

end

end Rivulet.Engine
