import Rivulet.Proofs.Fetching.Running

/-!
# Programs mind the queries that wait

A query is put off with the fetch of the first one for its key, or joins those that wait for it, in
the order in which they come; and it is new when it does so. While its fetch is being started nobody
else can be put off for the same data, so each key waits once.
-/

namespace Rivulet.Engine

open Hydration

variable {old : NodeId → Prop} {client : Ward} {s s' : State}

/-- There is a fetch to join if the key waits. -/
theorem joinPending_eq_none {key : String} {x : Consumer} {l : List PendingFetch} :
    joinPending key x l = none ↔ key ∉ l.map (·.key) := by
  induction l with
  | nil => simp [joinPending]
  | cons p rest ih =>
    rw [joinPending, List.map_cons, List.mem_cons, not_or, ← ih]
    split
    · rename_i hkey
      simp [hkey]
    · rename_i hkey
      simp [Ne.symm hkey]

/-- Who waits already waits on. -/
theorem lasts_joinPending {key : String} {x : Consumer} {l l' : List PendingFetch}
    (h : joinPending key x l = some l') : Lasts l l' := by
  induction l generalizing l' with
  | nil => simp [joinPending] at h
  | cons p rest ih =>
    rw [joinPending] at h
    split at h
    · obtain rfl := Option.some.inj h
      rintro (_ | i) q hq
      · obtain rfl := Option.some.inj hq
        exact ⟨_, rfl, rfl, rfl, List.prefix_append _ _⟩
      · exact ⟨q, hq, rfl, rfl, List.prefix_refl _⟩
    · obtain ⟨rest', hrest, rfl⟩ := Option.map_eq_some_iff.1 h
      rintro (_ | i) q hq
      · exact ⟨q, hq, rfl, rfl, List.prefix_refl _⟩
      · exact ih hrest i q hq

private theorem Lasts.append (l l' : List PendingFetch) : Lasts l (l ++ l') := fun _ p hp =>
  ⟨p, (List.getElem?_append_left (List.getElem?_eq_some_iff.1 hp).1).trans hp, rfl, rfl,
    List.prefix_refl _⟩

/-- What waits for fetches is what waits for each of them. -/
theorem waiting_append {l l' : List PendingFetch} {payload : Query.Payload} :
    Client.waiting { payload, pending := l ++ l' } =
      Client.waiting { payload, pending := l } ++ Client.waiting { payload, pending := l' } :=
  List.flatMap_append

private theorem waiting_cons {p : PendingFetch} {l : List PendingFetch} {payload : Query.Payload} :
    Client.waiting { payload, pending := p :: l } =
      p.consumers.map (·.node) ++ Client.waiting { payload, pending := l } :=
  List.flatMap_cons

/-- Whether what the server has sent is of no use to a query. -/
def Client.Lacks (c : Client) (key : String) (x : Consumer) : Prop :=
  ∀ v, (c.payload.get? key).map x.shape.check ≠ some (.ok v)

namespace Client.Orderly

variable {c : Client} {key : String} {x : Consumer}

theorem empty (payload : Query.Payload) : Client.Orderly { payload } :=
  ⟨by simp, by simp [Client.waiting], by simp, by simp⟩

/-- A query that joins those who wait comes last. -/
theorem join (h : c.Orderly) {l : List PendingFetch}
    (hjoin : joinPending key x c.pending = some l) (hnew : x.node ∉ c.waiting)
    (hlacks : c.Lacks key x) : Client.Orderly { c with pending := l } ∧
      (Client.waiting { c with pending := l }).Perm (x.node :: c.waiting) := by
  obtain ⟨payload, pending⟩ := c
  obtain ⟨before, p, after, rfl, hkey, rfl⟩ := joinPending_some hjoin
  have hperm : (Client.waiting ⟨payload, before ++ { p with
      consumers := p.consumers ++ [x] } :: after⟩).Perm
        (x.node :: Client.waiting ⟨payload, before ++ p :: after⟩) := by
    have hmiddle : ((Client.waiting ⟨payload, before⟩ ++ p.consumers.map (·.node)) ++
        x.node :: Client.waiting ⟨payload, after⟩).Perm (x.node ::
          ((Client.waiting ⟨payload, before⟩ ++ p.consumers.map (·.node)) ++
            Client.waiting ⟨payload, after⟩)) := List.perm_middle
    simpa [waiting_append, waiting_cons] using hmiddle
  refine ⟨⟨?_, hperm.nodup_iff.2 (List.nodup_cons.2 ⟨hnew, h.once⟩), ?_, ?_⟩, hperm⟩
  · simpa using h.keys
  · intro q hq
    rcases List.mem_append.1 hq with hq | hq
    · exact h.awaited q (by simp [hq])
    · rcases List.mem_cons.1 hq with rfl | hq
      · simp
      · exact h.awaited q (by simp [hq])
  · intro q hq y hy v
    rcases List.mem_append.1 hq with hq | hq
    · exact h.wanting q (by simp [hq]) y hy v
    · rcases List.mem_cons.1 hq with rfl | hq
      · rcases List.mem_append.1 hy with hy | hy
        · exact h.wanting p (by simp) y hy v
        · obtain rfl := List.mem_singleton.1 hy
          exact hkey ▸ hlacks v
      · exact h.wanting q (by simp [hq]) y hy v

/-- A fetch for a new key comes behind all others. -/
theorem append (h : c.Orderly) (hkey : key ∉ c.pending.map (·.key)) (fetch : Query.Fetch)
    (hnew : x.node ∉ c.waiting) (hlacks : c.Lacks key x) :
    Client.Orderly { c with pending := c.pending ++ [⟨key, fetch, [x]⟩] } ∧
      Client.waiting { c with pending := c.pending ++ [⟨key, fetch, [x]⟩] } =
        c.waiting ++ [x.node] := by
  have hwaiting : Client.waiting { c with pending := c.pending ++ [⟨key, fetch, [x]⟩] } =
      c.waiting ++ [x.node] := by
    simp [Client.waiting]
  refine ⟨⟨?_, ?_, ?_, ?_⟩, hwaiting⟩
  · rw [List.map_append]
    exact List.nodup_append.2 ⟨h.keys, by simp, by simpa using hkey⟩
  · rw [hwaiting]
    refine List.nodup_append.2 ⟨h.once, by simp, fun n hn m hm => ?_⟩
    rintro rfl
    exact hnew (List.mem_singleton.1 hm ▸ hn)
  · intro q hq
    rcases List.mem_append.1 hq with hq | hq
    · exact h.awaited q hq
    · obtain rfl := List.mem_singleton.1 hq
      simp
  · intro q hq y hy v
    rcases List.mem_append.1 hq with hq | hq
    · exact h.wanting q hq y hy v
    · obtain rfl := List.mem_singleton.1 hq
      obtain rfl := List.mem_singleton.1 hy
      exact hlacks v

end Client.Orderly

/-- The data of an application changes, but neither what the server has sent nor what it is that old
queries wait for. -/
theorem State.minding_modifyClient {id : ClientId} {f : Client → Client}
    (hpath : Path s (s.modifyClient id f)) (hunlocked : .client id ∉ s.starting)
    (h : id = client.id → ∀ d, s.clients[client.id]? = some d → d.Orderly →
      (f d).payload = d.payload ∧ (f d).Orderly ∧ (client.apart → Lasts d.pending (f d).pending) ∧
        ∀ n ∈ (f d).waiting, n ∈ d.waiting ∨ (¬ old n ∧ s.cells[n]? = some (.query none))) :
    s.Minding old client (s.modifyClient id f) := by
  intro hs _
  obtain ⟨d, hd, horderly, hloading⟩ := hs.data
  by_cases hid : id = client.id
  · subst hid
    obtain ⟨hpayload, horderly', hlasts, hwaiting⟩ := h rfl d hd horderly
    have hself : (s.modifyClient client.id f).clients[client.id]? = some (f d) := by
      rw [State.modifyClient, Std.HashMap.getElem?_modify_self, hd, Option.map_some]
    constructor
    · exact ⟨typing.path hs.typed hpath, hs.signals, hs.apart, hs.held, hs.known, f d, hself,
        horderly', fun n hn => (hwaiting n hn).elim (hloading n) (·.2)⟩
    · refine ⟨hpath, rfl, rfl, rfl, ?data, fun hl => absurd hl hunlocked, fun _ _ _ _ h => h,
        fun _ _ e' _ he' => ⟨e', he', rfl⟩⟩
      intro c hc
      obtain rfl : d = c := Option.some.inj (hd.symm.trans hc)
      exact ⟨f d, hself, hpayload,
        fun n hn ho => (hwaiting n hn).resolve_right fun h => h.1 ho, hlasts⟩
  · have hother : (s.modifyClient id f).clients[client.id]? = s.clients[client.id]? := by
      rw [State.modifyClient, Std.HashMap.getElem?_modify, if_neg (by simpa using hid)]
    constructor
    · exact ⟨typing.path hs.typed hpath, hs.signals, hs.apart, hs.held, hs.known, d,
        hother.trans hd, horderly, hloading⟩
    · exact ⟨hpath, rfl, rfl, rfl, State.data_same hother, fun _ => hother, fun _ _ _ _ h => h,
        fun _ _ e' _ he' => ⟨e', he', rfl⟩⟩

/-! ## Queries -/

/-- A query that is being made: it is loading, nobody knows it yet, and it waits for nothing. -/
structure State.Newborn (old : NodeId → Prop) (client : Ward) (s : State) (id : NodeId) :
    Prop where
  kind : s.kinds[id.index]? = some .source
  loading : s.cells[id]? = some (.query none)
  held : .node id ∈ s.held
  new : ¬ old id
  free : ∀ d, s.clients[client.id]? = some d → id ∉ d.waiting

/-- More can be called old. -/
theorem State.Minds.mono {old' : NodeId → Prop} (h : s.Minds old' client s')
    (hold : ∀ n, old n → old' n) : s.Minds old client s' where
  path := h.path
  batches := h.batches
  held := h.held
  starting := h.starting
  data c hc := by
    obtain ⟨c', hc', hpayload, hwaiting, hlasts⟩ := h.data c hc
    exact ⟨c', hc', hpayload, fun n hn ho => hwaiting n hn (hold n ho), hlasts⟩
  locked := h.locked
  cells n v ho := h.cells n v (hold n ho)
  calm hb n e' ho := h.calm hb n e' (hold n ho)

private theorem Mindful.mono {α : Type} {old' : NodeId → Prop} {x : Run α}
    (h : Mindful old' client x s) (hold : ∀ n, old n → old' n)
    (ho' : ∀ n, old' n → n.index < s.kinds.size) : Mindful old client x s := fun hs _ =>
  ⟨(h hs ho').1, (h hs ho').2.mono hold⟩

/-- A query that is being made stays as it is. -/
theorem State.Newborn.minds {id : NodeId} (h : s.Newborn old client id) (hs : s.Carries client)
    (hminds : s.Minds (fun n => n.index < s.kinds.size) client s') : s'.Newborn old client id := by
  have hlt : id.index < s.kinds.size := (Array.getElem?_eq_some_iff.1 h.kind).1
  refine ⟨hminds.path.before.kinds _ _ h.kind, hminds.cells id none hlt h.held h.loading,
    hminds.held ▸ h.held, h.new, fun d' hd' hmem => ?_⟩
  obtain ⟨d, hd, -⟩ := hs.data
  obtain ⟨d'', hd'', -, hwaiting, -⟩ := hminds.data d hd
  obtain rfl : d'' = d' := Option.some.inj (hd''.symm.trans hd')
  exact h.free d hd (hwaiting id hmem hlt)

section

variable {κ : Kernel} (hκ : ∀ old, κ.Mindful old client)

include hκ

/-- Starting a fetch leaves alone what is old. -/
theorem mindful_startFetch (key : String) (shape : Query.Shape) (plan : Query.Plan)
    (value : Program) : Mindful old client (startFetch κ key shape plan value) s :=
  .change (State.Aside.minding rfl) fun _ =>
    (mindful_eval (hκ old) value).bind fun _ _ _ => .ret _

/-- Resolving a query of a server render leaves alone what is old. -/
theorem mindful_resolveQuery {id : NodeId} (hnew : ¬ old id)
    (hfree : ∀ d, s.clients[client.id]? = some d → id ∉ d.waiting) (v : Json) :
    Mindful old client (resolveQuery κ id v) s := by
  refine mindful_ensureWritable (.look fun hs => ?_)
  split
  · rename_i last hcell
    have hkind : s.kinds[id.index]? = some .source := hs.typed.cells id _ hcell
    refine .ite (fun _ => .ret ()) fun _ => mindful_replaceValue (hκ old) ?_
    refine State.minding_replaced (Leads.one (.resolve id v hkind)).path rfl
      ⟨rfl, rfl, rfl, rfl, rfl, rfl, rfl⟩ (fun _ _ _ => ⟨hnew, hfree⟩) (fun hs p hp hn => ?_)
      (by simp [Cell.kind])
    obtain ⟨w, hw⟩ := hs.signals p hp id hn
    simp [hcell] at hw
  · exact .ret ()

private theorem mindful_failOnServer (failure : Query.Failure) :
    Mindful old client (failOnServer κ failure) s := by
  refine .look fun _ => ?_
  cases s.scopes.current? with
  | none => exact .ret ()
  | some scope =>
    exact .ite (fun _ => mindful_callReport (hκ old) _ _) fun _ => .ret ()

omit hκ in
/-- Where data is locked, a run breaks down. -/
theorem mindful_ensureUnlocked {α : Type} {supply : Supply} {message : String} {k : Unit → Run α}
    (h : supply ∉ s.starting → Mindful old client (k ()) s) :
    Mindful old client (ensureUnlocked supply message >>= k) s := by
  change Mindful old client (get >>= fun s => (if s.starting.contains supply then
    panicWith message else pure ()) >>= k) s
  refine .look fun _ => ?_
  split
  · exact .raise _
  · rename_i hunlocked
    exact h (by simpa using hunlocked)

omit hκ in
theorem State.Carries.lock (hs : s.Carries client) (starting : List Supply) :
    ({ s with starting } : State).Carries client := by
  have hpath : Path s { s with starting } :=
    Leads.path (Leads.aside (by constructor <;> rfl))
  exact ⟨typing.path hs.typed hpath, hs.signals, hs.apart, hs.held, hs.known, hs.data⟩

omit hκ in
/-- While a fetch is being started, its data is locked. -/
theorem mindful_locking {supply : Supply} {x : Run Query.Fetch}
    (h : Mindful old client x { s with starting := supply :: s.starting }) :
    Mindful old client (locking supply x) s := by
  refine .within h (fun hs => ⟨hs.lock _, rfl⟩) fun s' hs' hminds hs _ => ⟨hs'.lock _, ?_⟩
  have hopen : Path s { s with starting := supply :: s.starting } :=
    Leads.path (Leads.aside (by constructor <;> rfl))
  have hclose : Path s' { s' with starting := s'.starting.tail } :=
    Leads.path (Leads.aside (by constructor <;> rfl))
  exact ⟨(hopen.trans hminds.path).trans hclose, hminds.batches, hminds.held,
    congrArg List.tail hminds.starting, hminds.data,
    fun hl => hminds.locked (List.mem_cons_of_mem _ hl), hminds.cells, hminds.calm⟩

omit hκ in
/-- What is locked stays as it is. -/
theorem clients_locking {x : Run Query.Fetch}
    (h : Mindful old client x { s with starting := .client client.id :: s.starting })
    (hs : s.Carries client) (ho : ∀ n, old n → n.index < s.kinds.size) :
    (finalState (locking (.client client.id) x s)).clients[client.id]? = s.clients[client.id]? := by
  obtain ⟨-, hminds⟩ := h (hs.lock _) ho
  have hfinal : (finalState (locking (.client client.id) x s)).clients =
      (finalState (x { s with starting := .client client.id :: s.starting })).clients := by
    let t : State := { s with starting := .client client.id :: s.starting }
    change (finalState (guarding _ x t)).clients = (finalState (x t)).clients
    rw [guarding]
    cases x t <;> rfl
  rw [hfinal]
  exact hminds.locked List.mem_cons_self

omit hκ in
/-- A query is put off for some data, maybe that of another application. -/
theorem mindful_deferFetch {id : ClientId} {key : String} {x : Consumer} {start : Run Query.Fetch}
    (hstart : ∀ old s, Mindful old client start s) (hx : s.Newborn old client x.node)
    (hlacks : id = client.id → ∀ d, s.clients[client.id]? = some d → d.Lacks key x) :
    Mindful old client (deferFetch id key x start) s := by
  have hwaits (f : Client → Client) (s : State) (hkind : s.kinds[x.node.index]? = some .source)
      (h : ∀ c, s.clients[id]? = some c → ∀ n ∈ (f c).waiting, n ∈ c.waiting ∨ n = x.node) :
      Path s (s.modifyClient id f) := by
    refine (leads_modifyClient fun c hc n hn => (h c hc n hn).imp_right ?_).path
    rintro rfl
    exact hkind
  refine mindful_ensureUnlocked fun hunlocked => .look fun hs => ?_
  simp only
  split
  · rename_i pending hjoin
    have hjoin' (c : Client) (hc : s.clients[id]? = some c) :
        joinPending key x c.pending = some pending := by simpa [hc] using hjoin
    refine .step (State.minding_modifyClient (hwaits _ s hx.kind fun c hc n hn =>
      mem_joinPending (hjoin' c hc) hn) hunlocked fun hid d hd horderly => ?_)
    subst hid
    obtain ⟨horderly', hperm⟩ := horderly.join (hjoin' d hd) (hx.free d hd) (hlacks rfl d hd)
    refine ⟨rfl, horderly', fun _ => lasts_joinPending (hjoin' d hd), fun n hn => ?_⟩
    rcases List.mem_cons.1 (hperm.subset hn) with rfl | hn
    · exact .inr ⟨hx.new, hx.loading⟩
    · exact .inl hn
  · rename_i hjoin
    have hlock : Mindful (fun n => n.index < s.kinds.size) client (locking (.client id) start) s :=
      mindful_locking (hstart _ _)
    refine .shielded fun ho => (hlock.mono ho fun _ h => h).bindOk fun fetch t hrun hminds ht => ?_
    obtain ⟨-, hall⟩ := hlock hs fun _ h => h
    rw [hrun] at hall
    have hx' := hx.minds hs hall
    refine .step (State.minding_modifyClient (hwaits _ t hx'.kind fun c _ n hn => ?_)
      (hminds.starting ▸ hunlocked) fun hid d hd horderly => ?_)
    · rw [waiting_append, List.mem_append] at hn
      exact hn.imp_right fun hn => by simpa [Client.waiting] using hn
    · subst hid
      have hsame := clients_locking (x := start) (hstart (fun n => n.index < s.kinds.size) _) hs
        fun _ h => h
      rw [hrun] at hsame
      have hd' : s.clients[client.id]? = some d := hsame.symm.trans hd
      have hkey : key ∉ d.pending.map (·.key) :=
        joinPending_eq_none.1 (by simpa [hd'] using hjoin)
      obtain ⟨horderly', hwaiting⟩ := horderly.append hkey fetch (hx'.free d hd) (hlacks rfl d hd')
      refine ⟨rfl, horderly', fun _ => .append _ _, fun n hn => ?_⟩
      rcases List.mem_append.1 (hwaiting ▸ hn) with hn | hn
      · exact .inl hn
      · obtain rfl := List.mem_singleton.1 hn
        exact .inr ⟨hx'.new, hx'.loading⟩

/-- Answering a query on the client leaves alone what is old. -/
theorem mindful_answerClient {id : NodeId} (hid : s.Newborn old client id) (data : ClientId)
    (key : String) (shape : Query.Shape) {start : Run Query.Fetch}
    (hstart : ∀ old s, Mindful old client start s) :
    Mindful old client (answerClient κ id data key shape start) s := by
  refine .look fun _ => ?_
  have hlacks (h : ∀ v, ((s.clients[data]?).bind (·.payload.get? key)).map shape.check ≠
      some (.ok v)) (x : Consumer) (hx : x.shape = shape) : data = client.id →
        ∀ d, s.clients[client.id]? = some d → d.Lacks key x := by
    rintro rfl d hd v hv
    exact h v (by simpa [hd, hx] using hv)
  simp only
  split
  · exact mindful_resolveQuery hκ hid.new hid.free _
  · rename_i message hcheck
    exact mindful_deferFetch hstart hid (hlacks (fun v hv => by simp [hcheck] at hv) _ rfl)
  · rename_i hcheck
    exact mindful_deferFetch hstart hid (hlacks (fun v hv => by simp [hcheck] at hv) _ rfl)

omit hκ in
private theorem mindful_recordFetch (pass : PassId) (fetches : List (String × Query.Fetch))
    (key : String)
    {start : Run Query.Fetch} (hstart : ∀ s, Mindful old client start s) :
    Mindful old client (recordFetch pass fetches key start) s := by
  refine mindful_ensureUnlocked fun _ => .ite (fun _ => .ret ()) fun _ => ?_
  exact (mindful_locking (hstart _)).bind fun _ _ _ => .step (State.Aside.minding rfl)

/-- Answering a query in the final pass leaves alone what is old. -/
theorem mindful_answerFinal {id : NodeId} (hid : s.Newborn old client id) (shape : Query.Shape)
    (verdict : Option Query.Verdict) : Mindful old client (answerFinal κ id shape verdict) s := by
  cases verdict with
  | none => exact .ret ()
  | some verdict =>
    cases verdict with
    | resolved v =>
      simp only [answerFinal]
      cases shape.check v with
      | ok v => exact mindful_resolveQuery hκ hid.new hid.free v
      | error message => exact mindful_failOnServer hκ _
    | failed message => exact mindful_failOnServer hκ _
    | pending => exact .ret ()

omit hκ in
/-- A query that has been created and is held is being made. -/
theorem State.Carries.newborn (hs : s.Carries client) (ho : ∀ n, old n → n.index < s.kinds.size) :
    ((s.withNode .source (.query none)).hold (.node ⟨s.kinds.size⟩)).Newborn old client
      ⟨s.kinds.size⟩ where
  kind := by
    change (s.kinds.push Graph.Kind.source)[s.kinds.size]? = some .source
    rw [Array.getElem?_push, if_pos rfl]
  loading := Std.HashMap.getElem?_insert_self
  held := List.mem_cons_self
  new hn := Nat.lt_irrefl _ (ho _ hn)
  free d hd hmem := by
    obtain ⟨d', hd', -, hloading⟩ := hs.data
    obtain rfl : d' = d := Option.some.inj (hd'.symm.trans hd)
    have hkind := hs.typed.cells _ _ (hloading _ hmem)
    exact Nat.lt_irrefl _ (Array.getElem?_eq_some_iff.1 hkind).1

/-- Placing a query on the client leaves alone what is old. -/
theorem mindful_placeQuery {id : NodeId} (hid : s.Newborn old client id) (name : Option String)
    (key : String) (shape : Query.Shape) {start : Run Query.Fetch}
    (hstart : ∀ old s, Mindful old client start s) :
    Mindful old client (placeQuery κ name key shape start id) s := by
  have hname (s' : State) (hminds : s.Minds old client s') : Mindful old client
      (modify (·.bindName name (.query id key)) : Run Unit) s' :=
    mindful_bindOther (h := .query id key) name (hminds.path.before.kinds _ _ hid.kind) rfl rfl
  refine .look fun _ => ?_
  cases s.supply? with
  | none => exact hname s (.refl s)
  | some supply =>
    cases supply with
    | client data =>
      exact (mindful_answerClient hκ hid data key shape hstart).bind fun _ s' => hname s'
    | server pass =>
      simp only
      cases s.passes[pass.index]? with
      | none => exact hname s (.refl s)
      | some p =>
        cases p with
        | discovery fetches =>
          exact (mindful_recordFetch pass fetches key (hstart old)).bind fun _ s' => hname s'
        | final verdicts requested =>
          simp only [set_eq]
          refine .change (State.Aside.minding rfl) fun hminds => ?_
          refine (mindful_answerFinal hκ ?_ shape _).bind fun _ s' hminds' =>
            hname s' (hminds.trans hminds')
          exact ⟨hid.kind, hid.loading, hid.held, hid.new, hid.free⟩

/-- Making a query leaves alone what is old. -/
theorem mindful_createQuery (name : Option String) (key : String) (shape : Query.Shape)
    (plan : Query.Plan) (value : Program) :
    Mindful old client (createQuery κ name key shape plan value) s := by
  rw [createQuery_eq]
  refine .shielded fun ho hs => ?_
  refine Mindful.changeGet (State.minding_newSource rfl) (fun _ => mindful_holding ?_) hs
  exact mindful_placeQuery hκ (hs.newborn ho) name key shape
    fun _ _ => mindful_startFetch hκ key shape plan value

omit hκ in
private theorem mindful_newPass (p : Pass) : Mindful old client (newPass p) s :=
  .stepGet (State.Aside.minding rfl)

private theorem mindful_drawPass (template : Program) (pass : PassId) :
    Mindful old client (drawPass κ template pass) s := by
  refine (mindful_newDocument _).bind fun document _ _ => ?_
  refine (mindful_createScope none).bind fun scope _ _ => ?_
  refine (mindful_withScope fun _ => mindful_withSupply fun _ =>
    (mindful_newDrawing _ _ _).bind fun d _ _ => mindful_drawing fun _ =>
      mindful_perform (hκ old) template).bind fun _ _ _ => .look fun _ => ?_
  exact (mindful_callDispose (hκ old) scope).bind fun _ _ _ => .ret _

/-- Discovering the queries of a template leaves alone what is old. -/
theorem mindful_discover (template : Program) : Mindful old client (discover κ template) s := by
  refine (mindful_newPass _).bind fun pass _ _ => ?_
  refine (mindful_drawPass hκ template pass).bind fun _ _ _ => .look fun _ => ?_
  split
  · exact .change (State.Aside.minding rfl) fun _ => .ret _
  · exact .ret _

omit hκ in
theorem ne_nextClient {id : ClientId} (h : id.index < s.nextClient) : id ≠ ⟨s.nextClient⟩ := by
  rintro rfl
  exact Nat.lt_irrefl _ h

omit hκ in
/-- New data gets a number of its own. -/
theorem mindful_newClient (payload : Query.Payload) :
    Mindful old client (newClient payload) s := by
  refine .stepGet fun hs _ => ?_
  have hne : client.id ≠ ⟨s.nextClient⟩ := ne_nextClient hs.known
  have hother : (s.clients.insert ⟨s.nextClient⟩ ({ payload } : Client))[client.id]? =
      s.clients[client.id]? := by
    rw [Std.HashMap.getElem?_insert, if_neg (by simpa using hne.symm)]
  have hpath : Path s { s with
      clients := s.clients.insert ⟨s.nextClient⟩ { payload }, nextClient := s.nextClient + 1 } := by
    have hconcur : Concur typing Whatever (newClient payload) (newClient payload) s :=
      concur_newClient payload
    exact (hconcur hs.typed).2.1
  obtain ⟨d, hd, hrest⟩ := hs.data
  constructor
  · exact ⟨typing.path hs.typed hpath, hs.signals, hs.apart, hs.held, Nat.lt_succ_of_lt hs.known,
      d, hother.trans hd, hrest⟩
  · exact ⟨hpath, rfl, rfl, rfl, State.data_same hother, fun _ => hother, fun _ _ _ _ h => h,
      fun _ _ e' _ he' => ⟨e', he', rfl⟩⟩

omit hκ in
/-- Fetches are forgotten, but not those of data that is apart. -/
theorem mindful_clearPending {id : ClientId} (hid : client.apart → id ≠ client.id) :
    Mindful old client (clearPending id) s := by
  refine mindful_ensureUnlocked fun hunlocked => .step ?_
  have hclear : Path s (s.modifyClient id ({ · with pending := [] })) :=
    (leads_modifyClient fun _ _ _ hn => by simp [Client.waiting] at hn).path
  have hcleared : s.Minding old client (s.modifyClient id ({ · with pending := [] })) := by
    refine State.minding_modifyClient hclear hunlocked fun he d _ _ =>
      ⟨rfl, .empty d.payload, fun hapart => absurd he (hid hapart), fun n hn => ?_⟩
    simp [Client.waiting] at hn
  exact hcleared.trans (.foldl State.minding_dropNode _ _)

omit hκ in
/-- Clearing what stands below a node leaves alone what is old. -/
theorem mindful_clearBelow (document : DocumentId) (node : DomId) :
    Mindful old client (clearBelow document node) s := .stepGet (State.Aside.minding rfl)

/-- Drawing an application leaves alone what is old. -/
theorem mindful_drawApp (app : Program) (document : DocumentId) (target : DomId) (mode : Mode) :
    Mindful old client (drawApp κ app document target mode) s := by
  refine (mindful_createScope none).bind fun scope _ _ => ?_
  refine (mindful_newDrawing _ _ _).bind fun d _ _ => ?_
  exact (mindful_withScope fun _ => mindful_drawing fun _ => mindful_perform (hκ old) app).bind
    fun _ _ _ => .ret _

/-- Claiming the markup of an application leaves alone what is old. -/
theorem mindful_claimApp (app : Program) (document : DocumentId) (target : DomId)
    {id : ClientId} (hid : client.apart → id ≠ client.id) :
    Mindful old client (claimApp κ app document target id) s := by
  refine (mindful_drawApp hκ app document target .hydrate).bind fun r _ _ => .look fun _ => ?_
  refine .ite (fun _ => ?_) fun _ => .ret _
  refine (mindful_callDispose (hκ old) _).bind fun _ _ _ => ?_
  refine (mindful_clearPending hid).bind fun _ _ _ => ?_
  refine (mindful_clearBelow document target).bind fun removed _ _ => ?_
  refine (mindful_drawApp hκ app document target .create).bind fun r' _ _ => ?_
  exact .change (State.Aside.minding rfl) fun _ => .ret _

private theorem mindful_replaceApp (app : Program) (document : DocumentId) (target : DomId) :
    Mindful old client (replaceApp κ app document target) s := by
  refine (mindful_clearBelow document target).bind fun removed _ _ => ?_
  refine (mindful_drawApp hκ app document target .create).bind fun r _ _ => ?_
  exact .change (State.Aside.minding rfl) fun _ => .ret _

omit hκ in
/-- What comes out of a run in a supply is what the run makes of its result. -/
theorem withSupply_eq_ok {α β : Type} {supply : Supply} {x : Run β} {f : β → α} {a : α}
    {s' : State} (h : withSupply (some supply) (do return f (← x)) s = .ok a s') :
    ∃ b, f b = a := by
  change guarding State.leaveSupply (EStateM.bind x fun b => pure (f b))
    { s with supplies := supply :: s.supplies } = .ok a s' at h
  rw [guarding, EStateM.bind] at h
  cases hx : x { s with supplies := supply :: s.supplies } with
  | error e t => simp [hx] at h
  | ok b t =>
    rw [hx] at h
    exact ⟨b, (EStateM.Result.ok.inj h).1⟩

omit hκ in
/-- A name comes to stand for an application, with other data if that is apart. -/
theorem mindful_bindMount {m : Mount} (name : Option String)
    (hid : client.apart → m.client ≠ client.id) :
    Mindful old client (modify (·.bindName name (.mount m)) : Run Unit) s :=
  .step (State.minding_bindName name trivial (fun _ hn => by cases hn) fun hapart he =>
    hid hapart (Option.some.inj he))

/-- Mounting an application leaves alone what is old. -/
theorem mindful_mount (name : Option String) (document : DocumentId) (target : DomId)
    (mode : Option MountMode) (payload : Query.Payload) (app : Program) :
    Mindful old client (mount κ name document target mode payload app) s := by
  refine .look fun hs => (mindful_newClient payload).bindOk fun id _ hnew _ _ =>
    mindful_holdingClient ?_
  have hid : id ≠ client.id := by
    obtain rfl : (⟨s.nextClient⟩ : ClientId) = id := (EStateM.Result.ok.inj hnew).1
    exact (ne_nextClient hs.known).symm
  cases mode.getD (automaticMode s document target) with
  | tolerant =>
    refine (mindful_withSupply fun _ => (mindful_claimApp hκ app document target
      fun _ => hid).bind fun _ _ _ => .ret _).bindOk fun m _ hm _ _ => ?_
    obtain ⟨c, rfl⟩ := withSupply_eq_ok hm
    exact (mindful_bindMount name fun _ => hid).bind fun _ _ _ => .look fun _ => .ret _
  | replace =>
    refine (mindful_withSupply fun _ => (mindful_replaceApp hκ app document target).bind
      fun _ _ _ => .ret _).bindOk fun m _ hm _ _ => ?_
    obtain ⟨c, rfl⟩ := withSupply_eq_ok hm
    exact (mindful_bindMount name fun _ => hid).bind fun _ _ _ => .look fun _ => .ret _

/-- Unmounting an application leaves alone what is old. -/
theorem mindful_unmount {name : String} {m : Mount} (hmem : (name, .mount m) ∈ s.names) :
    Mindful old client (unmount κ name m) s := by
  refine Mindful.known fun hs => ?_
  have hid (hapart : client.apart) (he : m.client = client.id) : False :=
    hs.apart hapart _ hmem (congrArg some he)
  refine mindful_holdingClient (.change (State.minding_unbind _ name) fun _ => ?_)
  refine (mindful_callDispose (hκ old) m.scope).bind fun _ _ _ => ?_
  refine (mindful_clearPending hid).bind fun _ _ _ => ?_
  exact (mindful_clearBelow _ _).bind fun _ _ _ => .ret ()

end

end Rivulet.Engine
