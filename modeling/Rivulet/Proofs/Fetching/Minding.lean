import Rivulet.Proofs.Invariants.Sessions

/-!
# Minding what was there before

While something runs, the query data of an application stays in order: each key waits once, each
query waits once, and is loading as long as it does. A run may put fetches off and forget them, but
it touches neither queries that are in use nor, while a batch is open, effects that were there
before. All this is said once of each way in which the engine changes the state.
-/

namespace Rivulet.Engine

/-- Query data that is in order. -/
structure Client.Orderly (c : Client) : Prop where
  /-- Each key waits once. -/
  keys : (c.pending.map (·.key)).Nodup
  /-- Each query waits once. -/
  once : c.waiting.Nodup
  /-- For each fetch there is somebody who waits. -/
  awaited : ∀ p ∈ c.pending, p.consumers ≠ []
  /-- What the server has sent is of no use to those who wait. -/
  wanting : ∀ p ∈ c.pending, ∀ x ∈ p.consumers, ∀ v,
    (c.payload.get? p.key).map x.shape.check ≠ some (.ok v)

/-- A fetch that waits on, for those who have waited for it and maybe for more. -/
structure PendingFetch.Grows (p q : PendingFetch) : Prop where
  /-- It is for the same key. -/
  key : q.key = p.key
  /-- It is the same fetch. -/
  fetch : q.fetch = p.fetch
  /-- Those who wait longer come first. -/
  consumers : p.consumers <+: q.consumers

/-- Nobody who waits is lost, and each fetch stays in its place. -/
def Lasts (l l' : List PendingFetch) : Prop :=
  ∀ (i : Nat) p, l[i]? = some p → ∃ q, l'[i]? = some q ∧ p.Grows q

private theorem Lasts.refl (l : List PendingFetch) : Lasts l l :=
  fun _ p hp => ⟨p, hp, rfl, rfl, List.prefix_refl _⟩

private theorem Lasts.trans {l l' l'' : List PendingFetch} (h : Lasts l l') (h' : Lasts l' l'') :
    Lasts l l'' := by
  intro i p hp
  obtain ⟨q, hq, hkey, hfetch, hprefix⟩ := h i p hp
  obtain ⟨r, hr, hkey', hfetch', hprefix'⟩ := h' i q hq
  exact ⟨r, hr, hkey'.trans hkey, hfetch'.trans hfetch, hprefix.trans hprefix'⟩

/-- The query data of an application, which is watched. -/
structure Ward where
  /-- The data. -/
  id : ClientId
  /-- Whether no application that is mounted has it. If one has, its end forgets the fetches. -/
  apart : Prop

/-- A state that carries the query data of an application, which is in use. -/
structure State.Carries (s : State) (client : Ward) : Prop where
  /-- Nodes are used as what they are. -/
  typed : s.Typed
  /-- Names of signals stand for signals, not for queries. -/
  signals : ∀ p ∈ s.names, ∀ n, p.2.signal? = some n → ∃ v, s.cells[n]? = some (.signal v)
  /-- No name stands for an application that has the data, if it is apart. -/
  apart : client.apart → ∀ p ∈ s.names, p.2.client? ≠ some client.id
  /-- The data is in use. -/
  held : .client client.id ∈ s.held
  /-- Its number has been given. -/
  known : client.id.index < s.nextClient
  /-- It is there and in order, and queries are loading as long as they wait. -/
  data : ∃ c, s.clients[client.id]? = some c ∧ c.Orderly ∧
    ∀ n ∈ c.waiting, s.cells[n]? = some (.query none)

/-- What a run leaves alone, of the nodes that are called old and of the query data of an
application. -/
structure State.Minds (old : NodeId → Prop) (client : Ward) (s s' : State) : Prop where
  /-- It is a chain of steps. -/
  path : Path s s'
  /-- The same batches are open. -/
  batches : s'.queue.batches = s.queue.batches
  /-- The same is in use. -/
  held : s'.held = s.held
  /-- Fetches are being started for the same data. -/
  starting : s'.starting = s.starting
  /-- What the server has sent stays, no old query comes to wait, and none that waits is lost. -/
  data : ∀ c, s.clients[client.id]? = some c → ∃ c', s'.clients[client.id]? = some c' ∧
    c'.payload = c.payload ∧ (∀ n ∈ c'.waiting, old n → n ∈ c.waiting) ∧
      (client.apart → Lasts c.pending c'.pending)
  /-- While a fetch is being started for it, the data stays as it is. -/
  locked : .client client.id ∈ s.starting → s'.clients[client.id]? = s.clients[client.id]?
  /-- An old query in use stays as it is. -/
  cells : ∀ n v, old n → .node n ∈ s.held → s.cells[n]? = some (.query v) →
    s'.cells[n]? = some (.query v)
  /-- While a batch is open, no old effect runs. -/
  calm : 0 < s.queue.batches → ∀ n e', old n → s'.effect? n = some e' →
    ∃ e, s.effect? n = some e ∧ e'.runs = e.runs

/-- A change that keeps the query data of an application in order and leaves alone what is old. -/
def State.Minding (old : NodeId → Prop) (client : Ward) (s s' : State) : Prop :=
  s.Carries client → (∀ n, old n → n.index < s.kinds.size) →
    s'.Carries client ∧ s.Minds old client s'

/-- A run that keeps the query data of an application in order and leaves alone what is old,
whether or not it is interrupted. -/
def Mindful (old : NodeId → Prop) (client : Ward) {α : Type} (x : Run α) (s : State) : Prop :=
  s.Minding old client (finalState (x s))

variable {old : NodeId → Prop} {client : Ward} {s s' s'' : State}

namespace State

/-- The data stays as it is. -/
theorem data_same (h : s'.clients[client.id]? = s.clients[client.id]?) (c : Client)
    (hc : s.clients[client.id]? = some c) : ∃ c', s'.clients[client.id]? = some c' ∧
      c'.payload = c.payload ∧ (∀ n ∈ c'.waiting, old n → n ∈ c.waiting) ∧
        (client.apart → Lasts c.pending c'.pending) :=
  ⟨c, h.trans hc, rfl, fun _ hn _ => hn, fun _ => .refl _⟩

theorem Minds.refl (s : State) : s.Minds old client s where
  path := .refl
  batches := rfl
  held := rfl
  starting := rfl
  data := data_same rfl
  locked _ := rfl
  cells _ _ _ _ h := h
  calm _ _ e' _ h := ⟨e', h, rfl⟩

theorem Minds.trans (h : s.Minds old client s') (h' : s'.Minds old client s'') :
    s.Minds old client s'' where
  path := h.path.trans h'.path
  batches := h'.batches.trans h.batches
  held := h'.held.trans h.held
  starting := h'.starting.trans h.starting
  data c hc := by
    obtain ⟨c', hc', hpayload, hwaiting, hlasts⟩ := h.data c hc
    obtain ⟨c'', hc'', hpayload', hwaiting', hlasts'⟩ := h'.data c' hc'
    exact ⟨c'', hc'', hpayload'.trans hpayload, fun n hn ho =>
      hwaiting n (hwaiting' n hn ho) ho, fun hapart => (hlasts hapart).trans (hlasts' hapart)⟩
  locked hl := (h'.locked (h.starting ▸ hl)).trans (h.locked hl)
  cells n v ho hheld hc := h'.cells n v ho (h.held ▸ hheld) (h.cells n v ho hheld hc)
  calm hb n e'' ho he'' := by
    obtain ⟨e', he', hruns'⟩ := h'.calm (h.batches ▸ hb) n e'' ho he''
    obtain ⟨e, he, hruns⟩ := h.calm hb n e' ho he'
    exact ⟨e, he, hruns'.trans hruns⟩

/-- What is old stays old. -/
theorem Minds.shields (h : s.Minds old client s') (ho : ∀ n, old n → n.index < s.kinds.size) :
    ∀ n, old n → n.index < s'.kinds.size :=
  fun n hn => Nat.lt_of_lt_of_le (ho n hn) h.path.before.size

theorem Minding.refl (s : State) : s.Minding old client s := fun hs _ => ⟨hs, .refl s⟩

theorem Minding.trans (h : s.Minding old client s') (h' : s'.Minding old client s'') :
    s.Minding old client s'' := by
  intro hs ho
  obtain ⟨hs', hminds⟩ := h hs ho
  obtain ⟨hs'', hminds'⟩ := h' hs' (hminds.shields ho)
  exact ⟨hs'', hminds.trans hminds'⟩

/-- Doing the same for all of a list. -/
theorem Minding.foldl {β : Type} {f : State → β → State}
    (h : ∀ (s : State) b, s.Minding old client (f s b)) (l : List β) (s : State) :
    s.Minding old client (l.foldl f s) := by
  induction l generalizing s with
  | nil => exact .refl s
  | cons b l ih => exact (h s b).trans (ih _)

/-! ## Changes of the state -/

/-- Two states with the same in all that has to do with queries. -/
structure SameData (s s' : State) : Prop where
  batches : s'.queue.batches = s.queue.batches
  cells : s'.cells = s.cells
  clients : s'.clients = s.clients
  names : s'.names = s.names
  held : s'.held = s.held
  starting : s'.starting = s.starting
  nextClient : s'.nextClient = s.nextClient

/-- A change of what has nothing to do with queries. -/
theorem SameData.minding (h : s.SameData s') (hpath : Path s s') : s.Minding old client s' := by
  intro hs _
  have hcarries : s'.Carries client :=
    { typed := typing.path hs.typed hpath
      signals := by
        rw [h.names, h.cells]
        exact hs.signals
      apart := by
        rw [h.names]
        exact hs.apart
      held := by
        rw [h.held]
        exact hs.held
      known := by
        rw [h.nextClient]
        exact hs.known
      data := by
        rw [h.clients, h.cells]
        exact hs.data }
  have hminds : s.Minds old client s' :=
    { path := hpath
      batches := h.batches
      held := h.held
      starting := h.starting
      data := data_same (by rw [h.clients])
      locked := fun _ => by rw [h.clients]
      cells := by
        rw [h.cells]
        exact fun _ _ _ _ hc => hc
      calm := by
        intro _ n e' _ he'
        rw [effect?, h.cells] at he'
        exact ⟨e', he', rfl⟩ }
  exact ⟨hcarries, hminds⟩

/-- Two states that differ at most in what lies outside the graph, the scopes and the data. -/
def Aside (s s' : State) : Prop :=
  s' = { s with
    deferred := s'.deferred, uncaught := s'.uncaught, documents := s'.documents,
    reports := s'.reports, flags := s'.flags, drawings := s'.drawings,
    boundaries := s'.boundaries, supplies := s'.supplies, passes := s'.passes,
    caches := s'.caches, clock := s'.clock, late := s'.late, guards := s'.guards,
    procedures := s'.procedures, log := s'.log }

/-- A change aside of nodes and query data. -/
theorem Aside.minding (h : s.Aside s') : s.Minding old client s' := by
  rw [h]
  exact SameData.minding ⟨rfl, rfl, rfl, rfl, rfl, rfl, rfl⟩
    (Leads.path (Leads.aside (by constructor <;> rfl)))

/-- A change of the graph, the queue, the sections or the scopes. -/
theorem minding_change (h : Change s s')
    (hsame : s' = { s with
      graph := s'.graph, queue := s'.queue, tracking := s'.tracking, scopes := s'.scopes }) :
    s.Minding old client s' := by
  have hbatches : s'.queue.batches = s.queue.batches := h.onward.1.batches
  refine SameData.minding ?_ (Leads.one h).path
  rw [hsame]
  exact ⟨hbatches, rfl, rfl, rfl, rfl, rfl, rfl⟩

/-- Something comes to lie behind a node in place of what was there, which was no query that is old
or waits. -/
theorem minding_replaced {id : NodeId} {c : Cell} (hpath : Path s s')
    (hcells : s'.cells = s.cells.insert id c)
    (hsame : s.SameData { s' with cells := s.cells })
    (hquery : s.Carries client → ∀ v, s.cells[id]? = some (.query v) →
      ¬ old id ∧ ∀ d, s.clients[client.id]? = some d → id ∉ d.waiting)
    (hsignal : s.Carries client → ∀ p ∈ s.names, p.2.signal? = some id → ∃ v, c = .signal v)
    (heffect : c.kind ≠ .effect) : s.Minding old client s' := by
  intro hs _
  have hself : s'.cells[id]? = some c := by rw [hcells, Std.HashMap.getElem?_insert_self]
  have hother (n : NodeId) (hn : id ≠ n) : s'.cells[n]? = s.cells[n]? := by
    rw [hcells, Std.HashMap.getElem?_insert, if_neg (by simpa using hn)]
  have hclients : s'.clients = s.clients := hsame.clients
  have hnames : s'.names = s.names := hsame.names
  have hheld : s'.held = s.held := hsame.held
  have hnext : s'.nextClient = s.nextClient := hsame.nextClient
  have hquery := hquery hs
  have hcarries : s'.Carries client := by
    refine ⟨typing.path hs.typed hpath, ?signals, hnames ▸ hs.apart, hheld ▸ hs.held,
      hnext ▸ hs.known, ?data⟩
    case signals =>
      intro p hp n hn
      rw [hnames] at hp
      by_cases hid : id = n
      · subst hid
        obtain ⟨v, rfl⟩ := hsignal hs p hp hn
        exact ⟨v, hself⟩
      · rw [hother n hid]
        exact hs.signals p hp n hn
    case data =>
      obtain ⟨d, hd, horderly, hloading⟩ := hs.data
      refine ⟨d, hclients ▸ hd, horderly, fun n hn => ?_⟩
      by_cases hid : id = n
      · subst hid
        exact absurd hn ((hquery none (hloading id hn)).2 d hd)
      · rw [hother n hid]
        exact hloading n hn
  have hminds : s.Minds old client s' := by
    refine ⟨hpath, hsame.batches, hheld, hsame.starting, data_same (by rw [hclients]),
      fun _ => by rw [hclients], ?cells, ?calm⟩
    case cells =>
      intro n v ho _ hc
      by_cases hid : id = n
      · subst hid
        exact absurd ho (hquery v hc).1
      · rw [hother n hid]
        exact hc
    case calm =>
      intro _ n e' _ he'
      have hset : (s.setCell id c).effect? n = some e' := by
        rw [effect?, hcells] at he'
        exact he'
      exact ⟨e', effect?_setCell heffect hset, rfl⟩
  exact ⟨hcarries, hminds⟩

/-- Something about an effect changes, which does not run meanwhile unless it may. -/
theorem minding_modifyEffect {id : NodeId} {f : Effect → Effect}
    (h : ∀ e, (f e).scope = e.scope ∧ (e.disposed = true → (f e).disposed = true))
    (hruns : 0 < s.queue.batches → old id → ∀ e, (f e).runs = e.runs) :
    s.Minding old client (s.modifyEffect id f) := by
  intro hs _
  have hpath : Path s (s.modifyEffect id f) := (Leads.one (.effect id f h)).path
  have hsame (n : NodeId) (c : Cell) (hc : c.kind ≠ .effect) (hn : s.cells[n]? = some c) :
      (s.modifyEffect id f).cells[n]? = some c := by
    rw [modifyEffect, Std.HashMap.getElem?_modify]
    split
    · rename_i hid
      obtain rfl : id = n := by simpa using hid
      rw [hn]
      cases c <;> first | rfl | exact absurd rfl hc
    · exact hn
  have hcarries : (s.modifyEffect id f).Carries client := by
    refine ⟨typing.path hs.typed hpath, ?signals, hs.apart, hs.held, hs.known, ?data⟩
    case signals =>
      intro p hp n hn
      obtain ⟨v, hv⟩ := hs.signals p hp n hn
      exact ⟨v, hsame n _ (by simp [Cell.kind]) hv⟩
    case data =>
      obtain ⟨d, hd, horderly, hloading⟩ := hs.data
      exact ⟨d, hd, horderly, fun n hn => hsame n _ (by simp [Cell.kind]) (hloading n hn)⟩
  have hminds : s.Minds old client (s.modifyEffect id f) := by
    refine ⟨hpath, rfl, rfl, rfl, data_same rfl, fun _ => rfl,
      fun n v _ _ hc => hsame n _ (by simp [Cell.kind]) hc, ?calm⟩
    case calm =>
      intro hb n e' ho he'
      obtain ⟨e, he, rfl⟩ := effect?_modifyEffect he'
      refine ⟨e, he, ?_⟩
      split
      · rename_i hid
        exact hruns hb (hid ▸ ho) e
      · rfl
  exact ⟨hcarries, hminds⟩

/-- Something new comes to lie behind a new node. -/
theorem minding_created {c : Cell} (hpath : Path s s')
    (hcells : s'.cells = s.cells.insert ⟨s.kinds.size⟩ c)
    (hsame : s.SameData { s' with cells := s.cells }) : s.Minding old client s' := by
  intro hs ho
  have hother (n : NodeId) (hn : n.index < s.kinds.size) : s'.cells[n]? = s.cells[n]? := by
    rw [hcells, Std.HashMap.getElem?_insert, if_neg]
    simp only [beq_iff_eq]
    rintro rfl
    exact Nat.lt_irrefl _ hn
  have hlt (n : NodeId) (c : Cell) (hc : s.cells[n]? = some c) : n.index < s.kinds.size :=
    (Array.getElem?_eq_some_iff.1 (hs.typed.cells n c hc)).1
  have hclients : s'.clients = s.clients := hsame.clients
  have hnames : s'.names = s.names := hsame.names
  have hheld : s'.held = s.held := hsame.held
  have hnext : s'.nextClient = s.nextClient := hsame.nextClient
  have hcarries : s'.Carries client := by
    refine ⟨typing.path hs.typed hpath, ?signals, hnames ▸ hs.apart, hheld ▸ hs.held,
      hnext ▸ hs.known, ?data⟩
    case signals =>
      intro p hp n hn
      obtain ⟨v, hv⟩ := hs.signals p (hnames ▸ hp) n hn
      exact ⟨v, (hother n (hlt n _ hv)).trans hv⟩
    case data =>
      obtain ⟨d, hd, horderly, hloading⟩ := hs.data
      exact ⟨d, hclients ▸ hd, horderly, fun n hn =>
        (hother n (hlt n _ (hloading n hn))).trans (hloading n hn)⟩
  have hminds : s.Minds old client s' := by
    refine ⟨hpath, hsame.batches, hheld, hsame.starting, data_same (by rw [hclients]),
      fun _ => by rw [hclients], fun n v hn _ hc => (hother n (ho n hn)).trans hc, ?calm⟩
    case calm =>
      intro _ n e' hn he'
      rw [effect?_congr (s := s) (hother n (ho n hn))] at he'
      exact ⟨e', he', rfl⟩
  exact ⟨hcarries, hminds⟩

/-- A signal or a query is created. -/
theorem minding_newSource {c : Cell} (h : c.kind = .source) :
    s.Minding old client (s.withNode .source c) :=
  minding_created (Leads.one (.newSource c h)).path rfl ⟨rfl, rfl, rfl, rfl, rfl, rfl, rfl⟩

/-- A computation is created, which the current scope may own. -/
theorem minding_newComputation {c : Cell} {id : NodeId} (hpath : Path s (s'.adopted id))
    (hcells : s'.cells = s.cells.insert ⟨s.kinds.size⟩ c)
    (hsame : s.SameData { s' with cells := s.cells }) : s.Minding old client (s'.adopted id) := by
  cases howner : s'.scopes.current? with
  | none =>
    simp only [adopted, howner] at hpath ⊢
    exact minding_created hpath hcells hsame
  | some owner =>
    simp only [adopted, howner] at hpath ⊢
    exact minding_created hpath hcells ⟨hsame.batches, rfl, hsame.clients, hsame.names,
      hsame.held, hsame.starting, hsame.nextClient⟩

/-- A node that nothing keeps has no name, is not in use, and does not wait. -/
theorem of_not_keepsNode (client : Ward) {id : NodeId} (h : ¬ s.keepsNode id = true) :
    (∀ p ∈ s.names, p.2.node? ≠ some id) ∧ .node id ∉ s.held ∧
      ∀ d, s.clients[client.id]? = some d → id ∉ d.waiting := by
  simp only [keepsNode, Bool.or_eq_true, not_or] at h
  obtain ⟨⟨⟨hnames, hheld⟩, -⟩, hawaited⟩ := h
  refine ⟨fun p hp hnode => hnames ?_, fun hmem => hheld ?_, fun d hd hmem => hawaited ?_⟩
  · exact List.any_eq_true.2 ⟨p, hp, by simp [hnode]⟩
  · exact List.contains_iff_mem.2 hmem
  · refine List.any_eq_true.2 ⟨(client.id, d), Std.HashMap.mem_toList_iff_getElem?_eq_some.2 hd, ?_⟩
    exact List.contains_iff_mem.2 hmem

private theorem node?_of_signal? {h : Handle} {id : NodeId} (hid : h.signal? = some id) :
    h.node? = some id := by
  cases h <;> first | exact hid | cases hid

/-- Dropping what lies behind a node. -/
theorem minding_dropNode (s : State) (id : NodeId) : s.Minding old client (s.dropNode id) := by
  have hpath : Path s (s.dropNode id) := (leads_dropNode s id).path
  rw [dropNode] at hpath ⊢
  split
  · exact .refl s
  rename_i hkept
  rw [if_neg hkept] at hpath
  obtain ⟨hnames, hheld, hwaiting⟩ := of_not_keepsNode client hkept
  intro hs _
  have hother (n : NodeId) (hn : id ≠ n) : (s.cells.erase id)[n]? = s.cells[n]? := by
    rw [Std.HashMap.getElem?_erase, if_neg (by simpa using hn)]
  constructor
  · refine ⟨typing.path hs.typed hpath, ?signals, hs.apart, hs.held, hs.known, ?data⟩
    case signals =>
      intro p hp n hn
      obtain ⟨v, hv⟩ := hs.signals p hp n hn
      refine ⟨v, (hother n ?_).trans hv⟩
      rintro rfl
      exact hnames p hp (node?_of_signal? hn)
    case data =>
      obtain ⟨d, hd, horderly, hloading⟩ := hs.data
      refine ⟨d, hd, horderly, fun n hn => (hother n ?_).trans (hloading n hn)⟩
      rintro rfl
      exact hwaiting d hd hn
  · refine ⟨hpath, rfl, rfl, rfl, data_same rfl, fun _ => rfl, ?cells, ?calm⟩
    case cells =>
      intro n v _ hn hc
      refine (hother n ?_).trans hc
      rintro rfl
      exact hheld hn
    case calm =>
      intro _ n e' _ he'
      have hdrop : (s.dropNode id).effect? n = some e' := by
        rw [dropNode, if_neg hkept]
        exact he'
      exact ⟨e', effect?_dropNode hdrop, rfl⟩

/-- Dropping query data that nothing refers to. -/
theorem minding_dropClient (s : State) (id : ClientId) :
    s.Minding old client (s.dropClient id) := by
  rw [dropClient]
  split
  · exact .refl s
  · rename_i c hc
    split
    · exact .refl s
    · rename_i hkept
      have hgone : s.Minding old client { s with clients := s.clients.erase id } := by
        intro hs _
        have hne : id ≠ client.id := by
          rintro rfl
          exact hkept (by simp [keepsClient, hs.held])
        have hclient : (s.clients.erase id)[client.id]? = s.clients[client.id]? := by
          rw [Std.HashMap.getElem?_erase, if_neg (by simpa using hne)]
        have hpath : Path s { s with clients := s.clients.erase id } := by
          refine (Leads.one (.clients _ fun j c' hc' n hn => .inl ⟨c', ?_, hn⟩)).path
          rw [Std.HashMap.getElem?_erase] at hc'
          split at hc'
          · simp at hc'
          · exact hc'
        constructor
        · obtain ⟨d, hd, hrest⟩ := hs.data
          exact ⟨typing.path hs.typed hpath, hs.signals, hs.apart, hs.held, hs.known, d,
            hclient.trans hd, hrest⟩
        · exact ⟨hpath, rfl, rfl, rfl, data_same hclient, fun _ => hclient, fun _ _ _ _ h => h,
            fun _ _ e' _ he' => ⟨e', he', rfl⟩⟩
      exact hgone.trans (.foldl minding_dropNode _ _)

/-- Dropping all query data that nothing refers to. -/
theorem minding_sweep (s : State) : s.Minding old client s.sweep := by
  rw [sweep]
  split
  · exact .refl s
  · exact .foldl minding_dropClient _ s

/-- Releasing a node. -/
theorem minding_releaseNode (s : State) (id : NodeId) :
    s.Minding old client (s.releaseNode id) := by
  rw [releaseNode]
  split
  · exact minding_dropNode s id
  · exact (minding_dropNode s id).trans (minding_sweep _)

/-- Releasing what a name stood for. -/
theorem minding_releaseHandle (s : State) (h : Handle) :
    s.Minding old client (s.releaseHandle h) := by
  rw [releaseHandle]
  split
  · exact minding_releaseNode s _
  · exact minding_dropClient s _
  · exact .refl s

/-- Names come to stand for something else, those of signals for signals, and none for an
application that has the data. -/
theorem minding_names {names : List (String × Handle)} (hpath : Path s { s with names })
    (h : ∀ p ∈ names, p ∈ s.names ∨
      (∀ n, p.2.signal? = some n → ∃ v, s.cells[n]? = some (.signal v)) ∧
        (client.apart → p.2.client? ≠ some client.id)) :
    s.Minding old client { s with names } := by
  intro hs _
  constructor
  · refine ⟨typing.path hs.typed hpath, ?signals, ?apart, hs.held, hs.known, hs.data⟩
    case signals => exact fun p hp => (h p hp).elim (hs.signals p) (·.1)
    case apart => exact fun hapart p hp => (h p hp).elim (hs.apart hapart p) (·.2 hapart)
  · exact ⟨hpath, rfl, rfl, rfl, data_same rfl, fun _ => rfl, fun _ _ _ _ h => h,
      fun _ _ e' _ he' => ⟨e', he', rfl⟩⟩

/-- Taking a name away. -/
theorem minding_unbind (s : State) (name : String) : s.Minding old client (s.unbind name) := by
  rw [unbind]
  split
  · exact .refl s
  · have hunnamed : s.Minding old client (s.unnamed name) :=
      minding_names (Leads.one (.unname name)).path fun p hp => .inl (List.mem_filter.1 hp).1
    exact hunnamed.trans (minding_releaseHandle _ _)

/-- Giving something a name, but no other name to query data that is set apart. -/
theorem minding_bindName {h : Handle} (name : Option String) (suits : h.Suits s.kinds)
    (hsignal : ∀ n, h.signal? = some n → ∃ v, s.cells[n]? = some (.signal v))
    (hclient : client.apart → h.client? ≠ some client.id) :
    s.Minding old client (s.bindName name h) := by
  cases name with
  | none => exact minding_releaseHandle s h
  | some name =>
    have hnamed : s.Minding old client (s.named name h) := by
      refine minding_names (Leads.one (.name name h suits)).path fun p hp => ?_
      rcases List.mem_cons.1 hp with rfl | hp
      · exact .inr ⟨hsignal, hclient⟩
      · exact .inl (List.mem_filter.1 hp).1
    rw [bindName, rebind]
    split
    · exact hnamed
    · exact hnamed.trans (minding_releaseHandle _ _)

end State

/-! ## Runs -/

namespace Mindful

variable {α β : Type} {x : Run α}

/-- A run that only gives a result. -/
theorem ret (a : α) : Mindful old client (pure a : Run α) s := State.Minding.refl s

/-- A run that only fails. -/
theorem raise (e : Interrupt) : Mindful old client (throw e : Run α) s := State.Minding.refl s

/-- A change of the state that gives a result. -/
theorem stepGet {f : State → α × State} (h : s.Minding old client (f s).2) :
    Mindful old client (modifyGet f : Run α) s := h

/-- A change of the state. -/
theorem step {f : State → State} (h : s.Minding old client (f s)) :
    Mindful old client (modify f : Run Unit) s := h

/-- One run after the other. -/
theorem bindOk {f : α → Run β} (hx : Mindful old client x s)
    (hf : ∀ a s', x s = .ok a s' → s.Minds old client s' → s'.Carries client →
      Mindful old client (f a) s') : Mindful old client (x >>= f) s := by
  intro hs ho
  obtain ⟨hs', hminds⟩ := hx hs ho
  change (finalState (EStateM.bind x f s)).Carries client ∧
    s.Minds old client (finalState (EStateM.bind x f s))
  rw [EStateM.bind]
  cases he : x s with
  | error e s' =>
    rw [he] at hs' hminds
    exact ⟨hs', hminds⟩
  | ok a s' =>
    rw [he] at hs' hminds
    obtain ⟨hs'', hminds'⟩ := hf a s' he hminds hs' hs' (hminds.shields ho)
    exact ⟨hs'', hminds.trans hminds'⟩

/-- Two runs one after the other. -/
theorem bind {f : α → Run β} (hx : Mindful old client x s)
    (hf : ∀ a s', s.Minds old client s' → Mindful old client (f a) s') :
    Mindful old client (x >>= f) s := hx.bindOk fun a s' _ hminds _ => hf a s' hminds

/-- A change of the state, behind which a run starts. -/
theorem change {f : State → State} {k : Unit → Run β} (h : s.Minding old client (f s))
    (hk : s.Minds old client (f s) → Mindful old client (k ()) (f s)) :
    Mindful old client (modify f >>= k) s := by
  intro hs ho
  obtain ⟨hs', hminds⟩ := h hs ho
  obtain ⟨hs'', hminds'⟩ := hk hminds hs' (hminds.shields ho)
  exact ⟨hs'', hminds.trans hminds'⟩

/-- A change of the state with a result, behind which a run starts. -/
theorem changeGet {f : State → α × State} {k : α → Run β} (h : s.Minding old client (f s).2)
    (hk : s.Minds old client (f s).2 → Mindful old client (k (f s).1) (f s).2) :
    Mindful old client (modifyGet f >>= k) s := by
  intro hs ho
  obtain ⟨hs', hminds⟩ := h hs ho
  obtain ⟨hs'', hminds'⟩ := hk hminds hs' (hminds.shields ho)
  exact ⟨hs'', hminds.trans hminds'⟩

/-- What is old was there before. -/
theorem shielded (h : (∀ n, old n → n.index < s.kinds.size) → Mindful old client x s) :
    Mindful old client x s := fun hs ho => h ho hs ho

/-- The data is carried at the beginning. -/
theorem known (h : s.Carries client → Mindful old client x s) : Mindful old client x s :=
  fun hs ho => h hs hs ho

/-- A look at the state. -/
theorem look {f : State → Run β} (h : s.Carries client → Mindful old client (f s) s) :
    Mindful old client (get >>= f) s := fun hs ho => h hs hs ho

/-- A run behind which something is restored, however it ends. -/
theorem guarding {restore : State → State} (hx : Mindful old client x s)
    (hr : ∀ s' : State, s'.Minding old client (restore s')) :
    Mindful old client (guarding restore x) s := by
  have hfinal : finalState (Engine.guarding restore x s) = restore (finalState (x s)) := by
    rw [Engine.guarding]
    cases x s <;> rfl
  rw [Mindful, hfinal]
  exact State.Minding.trans hx (hr _)

/-- A run behind which something is restored if it fails. -/
theorem onInterrupt {restore : State → State} (hx : Mindful old client x s)
    (hr : ∀ s' : State, s'.Minding old client (restore s')) :
    Mindful old client (onInterrupt restore x) s := by
  rw [Mindful, Engine.onInterrupt]
  rw [Mindful] at hx
  cases he : x s with
  | ok a s' =>
    rw [he] at hx
    exact hx
  | error e s' =>
    rw [he] at hx
    exact State.Minding.trans hx (hr _)

/-- A run in one of two cases. -/
theorem ite {c : Prop} [Decidable c] {x y : Run α} (h : c → Mindful old client x s)
    (h' : ¬ c → Mindful old client y s) : Mindful old client (if c then x else y) s := by
  by_cases hc : c
  · rw [if_pos hc]
    exact h hc
  · rw [if_neg hc]
    exact h' hc

/-- Doing the same for all of a list. -/
theorem forM {f : β → Run Unit} (h : ∀ b s, Mindful old client (f b) s) (l : List β) :
    Mindful old client (l.forM f) s := by
  induction l generalizing s with
  | nil => exact .ret ()
  | cons b l ih => exact (h b s).bind fun _ _ _ => ih

/-- Something is opened, and closed again in the end, whether or not the run is interrupted. -/
theorem within {enter leave : State → State} (hx : Mindful old client x (enter s))
    (hopen : s.Carries client → (enter s).Carries client ∧ (enter s).kinds = s.kinds)
    (hclose : ∀ s', s'.Carries client → (enter s).Minds old client s' →
      s.Carries client → (∀ n, old n → n.index < s.kinds.size) →
        (leave s').Carries client ∧ s.Minds old client (leave s')) :
    Mindful old client (modify enter >>= fun _ => Engine.guarding leave x) s := by
  intro hs ho
  obtain ⟨hentered, hkinds⟩ := hopen hs
  obtain ⟨hs', hminds⟩ := hx hentered (hkinds ▸ ho)
  have hfinal : finalState ((modify enter >>= fun _ => Engine.guarding leave x : Run α) s) =
      leave (finalState (x (enter s))) := by
    change finalState (Engine.guarding leave x (enter s)) = _
    rw [Engine.guarding]
    cases x (enter s) <;> rfl
  rw [hfinal]
  exact hclose _ hs' hminds hs ho

end Mindful

/-- Letting go of what was in use while something was done. -/
theorem State.minding_unhold {h : Hold} {s' : State} (hs : s.Carries client)
    (hs' : s'.Carries client) (ho : ∀ n, old n → n.index < s.kinds.size)
    (hminds : (s.hold h).Minds old client s') :
    (s'.unhold h).Carries client ∧ s.Minds old client (s'.unhold h) := by
  have hheld : s'.held.erase h = s.held := by
    rw [hminds.held, State.hold, List.erase_cons_head]
  have hback : Path s { s' with held := s.held } :=
    ((State.leads_hold s h).path.trans hminds.path).trans
      (Leads.path (Leads.aside (by constructor <;> rfl)))
  have hcarries : ({ s' with held := s.held } : State).Carries client :=
    ⟨typing.path hs.typed hback, hs'.signals, hs'.apart, hs.held, hs'.known, hs'.data⟩
  have hless : s.Minds old client { s' with held := s.held } :=
    ⟨hback, hminds.batches, rfl, hminds.starting, hminds.data, hminds.locked,
      fun n v hn hmem => hminds.cells n v hn (List.mem_cons_of_mem _ hmem), hminds.calm⟩
  have hrelease : ({ s' with held := s.held } : State).Minding old client (s'.unhold h) := by
    rw [← hheld]
    cases h with
    | node id => exact State.minding_releaseNode _ id
    | client id => exact State.minding_dropClient _ id
  obtain ⟨hcarries', hminds'⟩ := hrelease hcarries (hless.shields ho)
  exact ⟨hcarries', hless.trans hminds'⟩

/-- Taking something in use. -/
theorem State.Carries.hold (hs : s.Carries client) (h : Hold) : (s.hold h).Carries client :=
  ⟨typing.path hs.typed (State.leads_hold s h).path, hs.signals, hs.apart,
    List.mem_cons_of_mem _ hs.held, hs.known, hs.data⟩

section

variable {α : Type} {x : Run α}

/-- Doing something while a node is in use leaves alone what is old. -/
theorem mindful_holding {id : NodeId} (h : Mindful old client x (s.hold (.node id))) :
    Mindful old client (holding id x) s :=
  .within h (fun hs => ⟨hs.hold _, rfl⟩)
    fun _ hs' hminds hs ho => State.minding_unhold hs hs' ho hminds

/-- Doing something while query data is in use leaves alone what is old. -/
theorem mindful_holdingClient {id : ClientId} (h : Mindful old client x (s.hold (.client id))) :
    Mindful old client (holdingClient id x) s :=
  .within h (fun hs => ⟨hs.hold _, rfl⟩)
    fun _ hs' hminds hs ho => State.minding_unhold hs hs' ho hminds

private theorem State.minding_leaveSupply (s : State) : s.Minding old client s.leaveSupply := by
  have hless : s.Minding old client { s with supplies := s.supplies.tail } :=
    State.Aside.minding rfl
  exact hless.trans (State.minding_sweep _)

/-- Doing something with query data at hand leaves alone what is old. -/
theorem mindful_withSupply {supply : Option Supply} (h : ∀ s, Mindful old client x s) :
    Mindful old client (withSupply supply x) s := by
  cases supply with
  | none => exact h s
  | some supply =>
    exact .change (State.Aside.minding rfl) fun _ =>
      (h _).guarding State.minding_leaveSupply

/-- Doing something in a scope leaves alone what is old. -/
theorem mindful_withScope {id : ScopeId} (h : ∀ s, Mindful old client x s) :
    Mindful old client (withScope id x) s :=
  .change (State.minding_change (.enterScope id) rfl) fun _ =>
    (h _).guarding fun _ => State.minding_change (.leaveScope id) rfl

/-- A section is opened or closed. -/
theorem State.minding_section (h : Passage s s')
    (hsame : s' = { s with graph := s'.graph, tracking := s'.tracking }) :
    s.Minding old client s' := by
  refine State.SameData.minding ?_ (.single (.inr h))
  rw [hsame]
  exact ⟨rfl, rfl, rfl, rfl, rfl, rfl, rfl⟩

/-- An untracked section leaves alone what is old. -/
theorem mindful_untracked (h : ∀ s, Mindful old client x s) :
    Mindful old client (untracked x) s :=
  .change (State.minding_section (.openSection .untracked) rfl) fun _ =>
    (h _).guarding fun _ => State.minding_section .dropSection rfl

/-- A tracked section leaves alone what is old. -/
theorem mindful_tracked {id : NodeId} {o : Tracking.Observer} (hid : MayRead s.kinds id)
    (h : ∀ s', s.Minds old client s' → Mindful old client x s') :
    Mindful old client (tracked id o x) s := by
  refine .change (State.minding_section (.openSection o) rfl) fun hminds => ?_
  refine ((h _ hminds).onInterrupt fun _ => State.minding_section .dropSection rfl).bind
    fun a s' hminds' => ?_
  have hid' : MayRead s'.kinds id := (hminds.trans hminds').path.before.mayRead hid
  exact .change (State.minding_section (.endRun id hid') rfl) fun _ => .ret a

end

end Rivulet.Engine
