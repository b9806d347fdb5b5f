import Rivulet.Proofs.Errors.Delivering
import Rivulet.Proofs.Fetching.Resolving

/-!
# Sequences of calls

Queries are made, fetches are forgotten and resolved, and other programs run, in any order. Behind
every such sequence the fetches that wait are in order, and the next call does with them what it
should: a query with a value from the server fetches nothing, each key is fetched once, everyone who
waits is served in turn before the effects run, and behind it only new queries wait. Only if the
handler of an error breaks down, some may be left behind.
-/

namespace Rivulet.Engine

variable {s t : State} {payload : Query.Payload} {κ : Kernel} {id : ClientId}

/-- A call that has to do with the query data of an application. -/
inductive DataCall where
  /-- A query is made in the application. -/
  | query (name : Option String) (key : String) (shape : Query.Shape) (plan : Query.Plan)
      (value : Program)
  /-- The fetches that wait are forgotten. -/
  | forget
  /-- The fetches that wait are resolved. -/
  | resolve
  /-- Something else runs, in this application or elsewhere. -/
  | other (supply : Option Supply) (p : Program)

/-- Makes a call. -/
def DataCall.run (κ : Kernel) (id : ClientId) : DataCall → Run Unit
  | query name key shape plan value => askQuery κ id name key shape plan value
  | forget => clearPending id
  | resolve => do let _ ← resolvePending κ id
  | other supply p => withSupply supply (κ.perform p)

/-- The state behind a call, whether or not it broke down. -/
def DataCall.after (κ : Kernel) (id : ClientId) (s : State) (call : DataCall) : State :=
  finalState (call.run κ id s)

/-- The fetches that wait are in order. -/
structure State.Queued (s : State) (id : ClientId) (payload : Query.Payload) : Prop where
  /-- Each key waits once. -/
  keys : ((s.fetches id).map (·.key)).Nodup
  /-- Each query waits once. -/
  once : (s.waiters id).Nodup
  /-- It is loading as long as it waits. -/
  loading : ∀ n ∈ s.waiters id, s.cells[n]? = some (.query none)
  /-- It waits for a key that the server has sent nothing for which it could decode. -/
  wanting : ∀ p ∈ s.fetches id, ∀ c ∈ p.consumers, ∀ v,
    (payload.get? p.key).map c.shape.check ≠ some (.ok v)
  /-- No fetch waits for nobody. -/
  awaited : ∀ p ∈ s.fetches id, p.consumers ≠ []

/-- From one state to another, nobody who waits is lost, and only new queries come to wait. -/
structure State.WaitsOn (id : ClientId) (s s' : State) : Prop where
  /-- Nobody is lost, and each fetch stays in its place. -/
  lasts : Lasts (s.fetches id) (s'.fetches id)
  /-- Who comes to wait is new. -/
  later : ∀ n ∈ s'.waiters id, n ∈ s.waiters id ∨ s.kinds.size ≤ n.index

/-- What a call does with the fetches that wait. -/
def DataCall.Meets (κ : Kernel) (id : ClientId) (payload : Query.Payload) (s : State)
    (call : DataCall) : Prop :=
  match call with
  | query name key shape plan value =>
    s.Asks κ id payload name key shape plan value ∧ s.WaitsOn id (call.after κ id s)
  | forget => ∃ t, clearPending id s = .ok () t ∧ t.fetches id = []
  | resolve => s.Resolves κ id
  | other _ _ => s.WaitsOn id (call.after κ id s)

section

variable {client : Ward} (hκ : ∀ old, κ.Mindful old client) (hκ' : Interchangeable typing κ κ)
  (hapart : client.apart)

theorem State.Hosts.queued (hs : s.Hosts client payload) : s.Queued client.id payload := by
  obtain ⟨c, -, hfetches, hwaiters, hpayload, horderly, hloading⟩ := hs.data
  refine ⟨?_, ?_, ?_, ?_, ?_⟩
  · rw [hfetches]
    exact horderly.keys
  · rw [hwaiters]
    exact horderly.once
  · rw [hwaiters]
    exact hloading
  · rw [hfetches, ← hpayload]
    exact horderly.wanting
  · rw [hfetches]
    exact horderly.awaited

/-- The fetches that wait are forgotten. -/
theorem clearPending_ok (hs : s.Hosts client payload) :
    ∃ t, clearPending client.id s = .ok () t ∧ t.Hosts client payload ∧
      t.fetches client.id = [] := by
  have hunlocked : .client client.id ∉ s.starting := by
    rw [hs.unlocked]
    exact List.not_mem_nil
  obtain ⟨hcleared, hnone⟩ := hs.cleared
  let t := (((s.clients[client.id]?).map (·.waiting)).getD []).foldl State.dropNode
    (s.cleared client.id)
  have hrun : clearPending client.id s = .ok () t := run_bind_ok (ensureUnlocked_ok hunlocked _)
  have hdrop (old : NodeId → Prop) : (s.cleared client.id).Minding old client t :=
    .foldl State.minding_dropNode _ _
  have honward : (s.cleared client.id).Onward t :=
    (State.leads_foldl State.leads_dropNode _ _).onward.1
  obtain ⟨hosts, -⟩ := hcleared.step (hdrop _) honward
  have hspares : (s.cleared client.id).SparesData client.id t :=
    .foldl State.sparesData_dropNode _ _
  exact ⟨t, hrun, hosts, (hspares.fetches hcleared.carries.held).trans hnone⟩

include hκ hκ' hapart

/-- A call keeps the fetches in order and does what it should. -/
theorem DataCall.meets (hs : s.Hosts client payload) (call : DataCall) :
    (call.after κ client.id s).Hosts client payload ∧ call.Meets κ client.id payload s := by
  have hwaits {x : Run Unit} (hx : Mindful (fun n => n.index < s.kinds.size) client x s)
      (hx' : Concur typing Whatever x x s) : (finalState (x s)).Hosts client payload ∧
        s.WaitsOn client.id (finalState (x s)) := by
    obtain ⟨hosts, hminds⟩ := hs.run hx hx'
    refine ⟨hosts, hminds.lasts hs hapart, fun n hn => ?_⟩
    rcases Nat.lt_or_ge n.index s.kinds.size with hlt | hge
    · exact .inl (hminds.waiters hs hn hlt)
    · exact .inr hge
  cases call with
  | query name key shape plan value =>
    obtain ⟨hosts, hwaitsOn⟩ := hwaits (x := askQuery κ client.id name key shape plan value)
      (mindful_withSupply fun _ => mindful_createQuery hκ name key shape plan value)
      (concur_withSupply fun _ _ => concur_createQuery hκ' name key shape plan value)
    exact ⟨hosts, asks hκ hs name key shape plan value, hwaitsOn⟩
  | forget =>
    obtain ⟨t, hrun, hosts, hnone⟩ := clearPending_ok hs
    refine ⟨?_, t, hrun, hnone⟩
    rw [DataCall.after, DataCall.run, hrun]
    exact hosts
  | resolve =>
    obtain ⟨hresolves, n, rest, hhanding⟩ := resolves hκ hκ' hapart hs
    refine ⟨?_, hresolves⟩
    have hfinal : DataCall.resolve.after κ client.id s =
        finalState (resolvePending κ client.id s) := by
      change finalState (EStateM.bind (resolvePending κ client.id) (fun _ => pure ()) s) = _
      rw [EStateM.bind]
      cases resolvePending κ client.id s <;> rfl
    rw [hfinal]
    exact hhanding.hosts
  | other supply p =>
    exact hwaits (mindful_withSupply fun _ => mindful_perform (hκ _) p)
      (concur_withSupply fun _ _ => concur_perform hκ' p)

/-- Behind every sequence of calls the fetches are in order. -/
theorem DataCall.hosts (hs : s.Hosts client payload) (calls : List DataCall) :
    (calls.foldl (DataCall.after κ client.id) s).Hosts client payload := by
  induction calls generalizing s with
  | nil => exact hs
  | cons call calls ih => exact ih (call.meets hκ hκ' hapart hs).1

end

/-- A state between two calls: nodes are used as what they are, names stand for what there is, and
nothing is under way. -/
structure State.Proper (s : State) : Prop where
  /-- Nodes are used as what they are. -/
  typed : s.Typed
  /-- Names of signals stand for signals. -/
  signals : ∀ p ∈ s.names, ∀ n, p.2.signal? = some n → ∃ v, s.cells[n]? = some (.signal v)
  /-- Names of applications stand for some that there are. -/
  clients : ∀ p ∈ s.names, ∀ id, p.2.client? = some id → id.index < s.nextClient
  /-- No fetch is being started. -/
  unlocked : s.starting = []
  /-- No computed value is being evaluated. -/
  writable : s.tracking.inDerived = false

/-- The state in which new query data is in use. -/
def State.withClient (s : State) (payload : Query.Payload) : State :=
  (finalState (newClient payload s)).hold (.client ⟨s.nextClient⟩)

theorem State.Proper.hosts (hs : s.Proper) (payload : Query.Payload) :
    (s.withClient payload).Hosts ⟨⟨s.nextClient⟩, True⟩ payload := by
  have hclient : (s.withClient payload).clients[(⟨s.nextClient⟩ : ClientId)]? =
      some { payload } := Std.HashMap.getElem?_insert_self
  have hpath : Path s (s.withClient payload) := by
    have hconcur : Concur typing Whatever (newClient payload) (newClient payload) s :=
      concur_newClient payload
    exact (hconcur hs.typed).2.1.trans (State.leads_hold _ _).path
  refine ⟨⟨typing.path hs.typed hpath, hs.signals, fun _ p hp he => ?_, List.mem_cons_self,
    Nat.lt_succ_self _, _, hclient, .empty payload, by simp [Client.waiting]⟩, hs.unlocked,
    hs.writable, fun c hc => ?_⟩
  · exact Nat.lt_irrefl _ (hs.clients p hp _ he)
  · obtain rfl := Option.some.inj (hclient.symm.trans hc)
    rfl

/-- The state behind a sequence of calls that have to do with new query data. -/
def State.behind (s : State) (κ : Kernel) (payload : Query.Payload) (calls : List DataCall) :
    State := calls.foldl (DataCall.after κ ⟨s.nextClient⟩) (s.withClient payload)

/-- Whatever is asked of the query data of an application, and whatever else runs meanwhile, the
fetches that wait are in order, and the next call does with them what it should. -/
theorem fetches_are_served (hs : s.Proper) (payload : Query.Payload) (depth : Nat)
    (calls : List DataCall) (call : DataCall) :
    (s.behind (kernel depth) payload calls).Queued ⟨s.nextClient⟩ payload ∧
      call.Meets (kernel depth) ⟨s.nextClient⟩ payload (s.behind (kernel depth) payload calls) := by
  have hκ (old : NodeId → Prop) : (kernel depth).Mindful old ⟨⟨s.nextClient⟩, True⟩ :=
    mindful_kernel depth old
  have hκ' := interchangeable_kernel typing depth
  have hosts := DataCall.hosts hκ hκ' trivial (hs.hosts payload) calls
  exact ⟨hosts.queued, (call.meets hκ hκ' trivial hosts).2⟩

private theorem proper_start : ({} : State).Proper :=
  ⟨typed_start ∅, by simp, by simp, rfl, rfl⟩

/-- Two queries of one key, and one of another for which the server has sent a value. -/
def threeQueries : List DataCall :=
  [.query (some "a") "x" .text ⟨0, .value⟩ .done, .query (some "b") "y" .text ⟨0, .value⟩ .done,
    .query (some "c") "x" .any ⟨0, .value⟩ .done]

/-- From the very beginning. -/
theorem fetches_are_served_start :
    let payload : Query.Payload := ⟨[⟨"y", .str "ada"⟩]⟩
    let s := ({} : State).behind (kernel 2) payload threeQueries
    ({} : State).Proper ∧ s.Queued ⟨0⟩ payload ∧
      DataCall.resolve.Meets (kernel 2) ⟨0⟩ payload s :=
  ⟨proper_start, fetches_are_served proper_start _ 2 threeQueries .resolve⟩

/-- Query data for which two queries wait, the fetch of the first of which fails. -/
def halfFailing : Client where
  payload := {}
  pending := [⟨"x", ⟨⟨0, .failure (.fetch "offline")⟩, .null, .any⟩, [⟨⟨0⟩, some ⟨1⟩, .any⟩]⟩,
    ⟨"y", ⟨⟨0, .value⟩, .str "ada", .any⟩, [⟨⟨1⟩, none, .any⟩]⟩]

private theorem orderly_halfFailing : halfFailing.Orderly := by
  refine ⟨by decide, by decide, ?_, ?_⟩
  · simp [halfFailing]
  · simp [halfFailing, Query.Payload.get?]

/-- They wait in a scope whose handler of errors breaks down, and the second one is in use. -/
def deserted : State :=
  { ((sheltered fun _ => .panic "boom").withNode .source (.query none)).withNode .source
      (.query none) with
    clients := (∅ : Std.HashMap ClientId Client).insert ⟨0⟩ halfFailing
    nextClient := 1
    held := [.client ⟨0⟩, .node ⟨1⟩] }

theorem clients_deserted : deserted.clients[(⟨0⟩ : ClientId)]? = some halfFailing :=
  Std.HashMap.getElem?_insert_self

theorem cells_deserted {n : NodeId} (hn : n ∈ halfFailing.waiting) :
    deserted.cells[n]? = some (.query none) ∧ deserted.kinds[n.index]? = some .source := by
  have hn : n = ⟨0⟩ ∨ n = ⟨1⟩ := by simpa [Client.waiting, halfFailing] using hn
  rcases hn with rfl | rfl
  · exact ⟨Std.HashMap.getElem?_insert.trans ((if_neg (by decide)).trans
      Std.HashMap.getElem?_insert_self), rfl⟩
  · exact ⟨Std.HashMap.getElem?_insert_self, rfl⟩

theorem reached_deserted : deserted.Reached := by
  let s := ((sheltered fun _ => .panic "boom").withNode .source (.query none)).withNode .source
    (.query none)
  have hnodes : Leads (sheltered fun _ => .panic "boom") s :=
    (Leads.one (.newSource (.query none) rfl)).tail (.newSource (.query none) rfl)
  have hqueued : Leads s { s with clients := deserted.clients } := by
    refine .one (.clients _ fun id c hc n hn => .inr ?_)
    by_cases hid : id = ⟨0⟩
    · subst hid
      obtain rfl := Option.some.inj (clients_deserted.symm.trans hc)
      exact (cells_deserted hn).2
    · rw [deserted, Std.HashMap.getElem?_insert, if_neg (by simpa using Ne.symm hid)] at hc
      simp at hc
  obtain ⟨procedures, hpath⟩ := reached_sheltered fun _ => .panic "boom"
  exact ⟨procedures, hpath.trans (Leads.path ((hnodes.trans hqueued).trans
    (Leads.aside (by constructor <;> rfl))))⟩

theorem hosts_deserted : deserted.Hosts ⟨⟨0⟩, True⟩ {} := by
  obtain ⟨procedures, hpath⟩ := reached_deserted
  refine ⟨⟨typing.path (typed_start procedures) hpath, fun p hp => ?_, fun _ p hp => ?_,
    List.mem_cons_self, Nat.zero_lt_one, halfFailing, clients_deserted, orderly_halfFailing,
    fun n hn => (cells_deserted hn).1⟩, rfl, rfl, fun c hc => ?_⟩
  · exact absurd hp List.not_mem_nil
  · exact absurd hp List.not_mem_nil
  · obtain rfl := Option.some.inj (clients_deserted.symm.trans hc)
    rfl

/-- A query that waits may be left behind, without its value and without waiting any more. -/
theorem left_behind : deserted.Hosts ⟨⟨0⟩, True⟩ {} ∧ (∀ p ∈ deserted.fetches ⟨0⟩, p.Ends) ∧
    ⟨1⟩ ∈ deserted.waiters ⟨0⟩ ∧ ∃ e t, resolvePending (kernel 2) ⟨0⟩ deserted = .error e t ∧
      t.cells[(⟨1⟩ : NodeId)]? = some (.query none) ∧ ⟨1⟩ ∉ t.waiters ⟨0⟩ := by
  have hfetches : deserted.fetches ⟨0⟩ = halfFailing.pending := State.fetches_of clients_deserted
  have hends : ∀ p ∈ deserted.fetches ⟨0⟩, p.Ends := by
    rw [hfetches]
    simp only [halfFailing, List.forall_mem_cons, List.not_mem_nil, false_imp_iff, implies_true,
      and_true]
    exact ⟨⟨_, rfl, by simp⟩, ⟨_, rfl, by simp⟩⟩
  have hwaits : ⟨1⟩ ∈ deserted.waiters ⟨0⟩ := by
    rw [State.waiters_of clients_deserted]
    exact List.mem_cons_of_mem _ List.mem_cons_self
  have hscopes : (deserted.fetched ⟨0⟩).scopes = (sheltered fun _ => .panic "boom").scopes := rfl
  have hreport (text : String) : (kernel 2).report (some ⟨1⟩) text (deserted.fetched ⟨0⟩) =
      .error (.panic "boom") (deserted.fetched ⟨0⟩) := by
    have hhanded : reportError (kernel 1) (some ⟨1⟩) text (deserted.fetched ⟨0⟩) =
        .error (.panic "boom") (deserted.fetched ⟨0⟩) :=
      (reportError_nearest (hscopes ▸ (reached_sheltered _).descending)
        (hscopes ▸ nearest_sheltered _) _ _).trans rfl
    exact run_bind_error (run_bind_error hhanded _) _
  -- Nobody can be served, since the first one is not.
  have hnobody {r : Query.Result × Consumer} {results : List (Query.Result × Consumer)} {u : State}
      (hr : r = (.failure (.fetch "offline"), ⟨⟨0⟩, some ⟨1⟩, .any⟩)) :
      ¬ HandsOut (kernel 2) ⟨0⟩ (r :: results) (deserted.fetched ⟨0⟩) u := by
    subst hr
    rintro (_ | ⟨-, -, hhanded, -⟩)
    cases hhanded with
    | value hanswer => cases hanswer
    | error _ h _ => cases (hreport _).symm.trans h
  have hresults : resultsOf (deserted.fetches ⟨0⟩) = resultsOf halfFailing.pending :=
    congrArg resultsOf hfetches
  obtain ⟨⟨-, hserves, -, hlater⟩, -⟩ := resolves (mindful_kernel 2)
    (interchangeable_kernel typing 2) trivial hosts_deserted
  rcases hserves (hfetches ▸ List.cons_ne_nil _ _) hends with ⟨u, hands, -⟩ |
    ⟨e, behind, t, ⟨done, result, c, rest, text, u, t', hsplit, hands, -, -, rfl⟩, hrun, hbehind⟩
  · exact (hnobody rfl (hresults ▸ hands)).elim
  · refine ⟨hosts_deserted, hends, hwaits, e, t, hrun, ?_, fun hmem => ?_⟩
    · cases done with
      | nil =>
        have hrest : rest.map (·.2) = [⟨⟨1⟩, none, .any⟩] :=
          congrArg (·.map (·.2)) (List.cons.inj (hsplit.symm.trans hresults)).2
        exact hbehind ⟨⟨1⟩, none, .any⟩ (hrest ▸ List.mem_cons_self)
          (List.mem_cons_of_mem _ List.mem_cons_self)
      | cons r done =>
        exact (hnobody (List.cons.inj (hsplit.symm.trans hresults)).1 hands).elim
    · rw [hrun] at hlater
      exact absurd (hlater _ hmem) (by decide)

end Rivulet.Engine
