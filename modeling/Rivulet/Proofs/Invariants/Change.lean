import Mathlib.Logic.Relation
import Rivulet.Engine.Interpreter
import Rivulet.Engine.Rendering
import Rivulet.Engine.Resolving
import Rivulet.Proofs.Graph.Wiring
import Rivulet.Proofs.Reactive.Acting
import Rivulet.Proofs.Reactive.Persistence
import Rivulet.Proofs.Scopes.Forest

/-!
# What a single step does to the state

The engine changes its state in a few ways only. They are listed here once, with what is known
when they are made. Steps that let effects wait, or that open or close a batch, a flush or a
section of reads, are passages, which a run only makes in its balance; all others are changes. A
law is a property that each step keeps, so that every run keeps it.
-/

namespace Rivulet.Engine

/-- The kind of node that something lies behind. -/
def Cell.kind : Cell → Graph.Kind
  | signal _ | query _ => .source
  | computed _ _ => .derived
  | effect _ => .effect

/-- A handle stands for a node that was created as what the handle is for. -/
def Handle.Suits (kinds : Array Graph.Kind) : Handle → Prop
  | signal id | pair id | query id _ => kinds[id.index]? = some .source
  | computed id => kinds[id.index]? = some .derived
  | effect id => kinds[id.index]? = some .effect
  | scope _ | node _ _ | mount _ | coordinator _ => True

/-- A node that may be read: it was created, and not as an effect. -/
def MayBeRead (kinds : Array Graph.Kind) (id : NodeId) : Prop :=
  ∃ k, kinds[id.index]? = some k ∧ k ≠ .effect

/-- A node that may read: it was created, and not as a signal. -/
def MayRead (kinds : Array Graph.Kind) (id : NodeId) : Prop :=
  ∃ k, kinds[id.index]? = some k ∧ k ≠ .source

/-- A state in which nodes are only used as what they were created as. -/
structure State.Typed (s : State) : Prop where
  /-- In the graph. -/
  nodes : ∀ (id : NodeId) (n : Graph.Node), s.graph.find? id = some n →
    s.kinds[id.index]? = some n.kind
  /-- By what lies behind them. -/
  cells : ∀ (id : NodeId) (c : Cell), s.cells[id]? = some c → s.kinds[id.index]? = some c.kind
  /-- By the names that stand for them. -/
  names : ∀ p ∈ s.names, p.2.Suits s.kinds
  /-- By the computations that have read them. -/
  reads : ∀ sec ∈ s.tracking.sections, ∀ id ∈ sec.reads, MayBeRead s.kinds id
  /-- By the fetches that will write them. -/
  waiting : ∀ (id : ClientId) (c : Client), s.clients[id]? = some c → ∀ n ∈ c.waiting,
    s.kinds[n.index]? = some .source

/-- Two states that differ at most in what lies outside the graph, its nodes, the scopes, the
names and the data of applications. -/
structure State.SameCore (s s' : State) : Prop where
  graph : s'.graph = s.graph
  queue : s'.queue = s.queue
  tracking : s'.tracking = s.tracking
  cells : s'.cells = s.cells
  kinds : s'.kinds = s.kinds
  scopes : s'.scopes = s.scopes
  names : s'.names = s.names
  clients : s'.clients = s.clients

namespace State

/-- Takes out the effect that has waited longest. -/
def popQueue (s : State) : State := { s with queue := s.queue.pop.2 }

/-- Has an effect wait, if it is live. -/
def scheduled (s : State) (id : NodeId) : State :=
  if s.graph.contains id then
    { s with graph := s.graph.request id .dirty, queue := s.queue.schedule id }
  else s

/-- A new computed value, which the current scope owns. -/
def withComputed (s : State) (p : Program) : State :=
  (s.withNode .derived (.computed p none)).adopted ⟨s.kinds.size⟩

/-- A new scope. -/
def withScope (s : State) (parent : Option ScopeId) : State :=
  { s with scopes := (s.scopes.create parent).2 }

/-- A new effect, which the current scope owns, with a scope of its own. -/
def withReaction (s : State) (reaction : Reaction) (supply : Option Supply) : State :=
  ((s.withScope s.scopes.current?).withNode .effect
    (.effect { reaction, scope := ⟨s.scopes.next⟩, supply })).adopted ⟨s.kinds.size⟩

/-- Lets a name stand for something, before what it stood for is let go. -/
def named (s : State) (name : String) (h : Handle) : State :=
  { s with names := (name, h) :: s.names.filter (·.1 ≠ name) }

/-- Lets a name stand for nothing, before what it stood for is let go. -/
def unnamed (s : State) (name : String) : State :=
  { s with names := s.names.filter (·.1 ≠ name) }

end State

open State in
/-- What one step of the engine can do to the state. -/
inductive Change : State → State → Prop
  /-- Something outside the core changes. -/
  | aside {s s' : State} (h : s.SameCore s') : Change s s'
  /-- Fetches are put off and forgotten. -/
  | clients {s : State} (clients : Std.HashMap ClientId Client)
      (h : ∀ (id : ClientId) (c' : Client), clients[id]? = some c' → ∀ n ∈ c'.waiting,
        (∃ c, s.clients[id]? = some c ∧ n ∈ c.waiting) ∨ s.kinds[n.index]? = some .source) :
      Change s { s with clients }
  /-- A read is recorded. -/
  | record {s : State} (id : NodeId) (h : MayBeRead s.kinds id) :
      Change s (s.modifyTracking (·.record id))
  /-- The effect that has waited longest is taken. -/
  | pop {s : State} : Change s s.popQueue
  /-- No effect waits any more. -/
  | clear {s : State} : Change s (s.modifyQueue Queue.clear)
  /-- A node counts as up to date. -/
  | trust {s : State} (id : NodeId) : Change s (s.modifyGraph (·.request id .clean))
  /-- A signal is written. -/
  | write {s : State} (id : NodeId) (v : Json) (h : s.kinds[id.index]? = some .source) :
      Change s (s.setCell id (.signal v))
  /-- A query gets its value. -/
  | resolve {s : State} (id : NodeId) (v : Json) (h : s.kinds[id.index]? = some .source) :
      Change s (s.setCell id (.query (some v)))
  /-- A computed value that has left the graph is computed. -/
  | compute {s : State} (id : NodeId) (p : Program) (v : Json)
      (h : s.kinds[id.index]? = some .derived) : Change s (s.setCell id (.computed p (some v)))
  /-- A computed value is kept. -/
  | keep {s : State} (id : NodeId) (v : Json) : Change s (s.keepValue id v)
  /-- Something about an effect changes; it keeps its scope, and stays disposed if it was. -/
  | effect {s : State} (id : NodeId) (f : Effect → Effect)
      (h : ∀ e, (f e).scope = e.scope ∧ (e.disposed = true → (f e).disposed = true)) :
      Change s (s.modifyEffect id f)
  /-- A node is taken out of the graph and the queue. -/
  | detach {s : State} (id : NodeId) : Change s (s.detach id)
  /-- A node that nothing refers to is dropped. -/
  | drop {s : State} (id : NodeId) : Change s (s.dropNode id)
  /-- A signal or a query is created. -/
  | newSource {s : State} (c : Cell) (h : c.kind = .source) : Change s (s.withNode .source c)
  /-- A computed value is created. -/
  | newComputed {s : State} (p : Program) : Change s (s.withComputed p)
  /-- An effect is created. -/
  | newEffect {s : State} (reaction : Reaction) (supply : Option Supply) :
      Change s (s.withReaction reaction supply)
  /-- A scope is created. -/
  | newScope {s : State} (parent : Option ScopeId) : Change s (s.withScope parent)
  /-- A scope is made current. -/
  | enterScope {s : State} (id : ScopeId) : Change s (s.modifyScopes (·.enter id))
  /-- A scope is current no longer. -/
  | leaveScope {s : State} (id : ScopeId) : Change s (s.modifyScopes (·.leave id))
  /-- A cleanup is registered. -/
  | cleanup {s : State} (c : Cleanup) {scopes : Scopes Cleanup Handler}
      (h : s.scopes.addCleanup? c = some scopes) : Change s { s with scopes }
  /-- A scope takes errors. -/
  | handler {s : State} (id : ScopeId) (h : Handler) :
      Change s (s.modifyScopes (·.setHandler id h))
  /-- A scope is taken away. -/
  | removeScope {s : State} (id : ScopeId) : Change s { s with scopes := (s.scopes.remove id).2 }
  /-- A scope loses what it owns. -/
  | stripScope {s : State} (id : ScopeId) : Change s { s with scopes := (s.scopes.strip id).2 }
  /-- A name stands for something else. -/
  | name {s : State} (name : String) (h : Handle) (suits : h.Suits s.kinds) :
      Change s (s.named name h)
  /-- A name stands for nothing. -/
  | unname {s : State} (name : String) : Change s (s.unnamed name)

/-- A step that lets effects wait, or that opens or closes a batch, a flush or a section of
reads. -/
inductive Passage : State → State → Prop
  /-- A live effect waits. -/
  | schedule {s : State} (id : NodeId) (h : s.kinds[id.index]? = some .effect) :
      Passage s (s.scheduled id)
  /-- What depends on a node is marked, and the effects among it wait. -/
  | notify {s : State} (id : NodeId) : Passage s (s.markChanged id)
  /-- A batch or a flush is opened or closed. -/
  | pace {s : State} (f : Queue → Queue) (h : ∀ q, (f q).pending = q.pending) :
      Passage s (s.modifyQueue f)
  /-- A section is opened. -/
  | openSection {s : State} (o : Tracking.Observer) : Passage s (s.modifyTracking (·.enter o))
  /-- The innermost section is given up. -/
  | dropSection {s : State} : Passage s (s.modifyTracking (·.leave.2))
  /-- The innermost section is closed, and a node has read what was read in it. -/
  | endRun {s : State} (id : NodeId) (h : MayRead s.kinds id) : Passage s (s.endRun id)

/-- A chain of changes. -/
abbrev Leads : State → State → Prop := Relation.ReflTransGen Change

/-- A chain of steps. -/
abbrev Path : State → State → Prop := Relation.ReflTransGen fun s s' => Change s s' ∨ Passage s s'

/-- What was there before a state: nodes stand for the same, effects keep their scopes and stay
disposed, and neither effects nor scopes come back. -/
structure State.Before (s s' : State) : Prop where
  /-- Nodes stand for the same. -/
  kinds : ∀ (i : Nat) (k : Graph.Kind), s.kinds[i]? = some k → s'.kinds[i]? = some k
  /-- Effects are the ones that were there, with their scopes. -/
  effects : ∀ (id : NodeId) (e' : Effect), id.index < s.kinds.size → s'.effect? id = some e' →
    ∃ e, s.effect? id = some e ∧ e'.scope = e.scope ∧ (e.disposed = true → e'.disposed = true)
  /-- No scope comes back. -/
  scopes : s.scopes.Ahead s'.scopes

/-- Whether no effect waits that could run at once. -/
def State.Flushed (s : State) : Prop := s.queue.canFlush → s.queue.pending = []

/-- A property of states that every step of the engine keeps. -/
structure Law where
  /-- The property. -/
  Holds : State → Prop
  /-- Nodes are used as what they are. -/
  typed : ∀ {s}, Holds s → s.Typed
  /-- Every change keeps it. -/
  change : ∀ {s s'}, Holds s → Change s s' → Holds s'
  /-- Every passage keeps it. -/
  passage : ∀ {s s'}, Holds s → Passage s s' → Holds s'

/-! ## What was there before -/

namespace State

private theorem ahead_adopted (s : State) (id : NodeId) : s.scopes.Ahead (s.adopted id).scopes := by
  rw [adopted]
  split
  · exact Scopes.ahead_modify _ _
  · exact .refl _

private theorem kinds_push {s : State} {i : Nat} {k : Graph.Kind} (kind : Graph.Kind)
    (h : s.kinds[i]? = some k) : (s.kinds.push kind)[i]? = some k := by
  have hlt := (Array.getElem?_eq_some_iff.1 h).1
  rw [Array.getElem?_push, if_neg (Nat.ne_of_lt hlt), h]

/-- The effect behind a node is known by what lies behind it. -/
theorem effect?_congr {s s' : State} {id : NodeId} (h : s'.cells[id]? = s.cells[id]?) :
    s'.effect? id = s.effect? id := by
  rw [effect?, effect?, h]

/-- An effect is as before when something else is put behind a node. -/
theorem effect?_setCell {s : State} {id j : NodeId} {c : Cell} (hc : c.kind ≠ .effect)
    {e : Effect} (h : (s.setCell id c).effect? j = some e) : s.effect? j = some e := by
  by_cases hj : id = j
  · subst hj
    rw [effect?, setCell, Std.HashMap.getElem?_insert_self] at h
    cases c <;> simp_all [Cell.kind]
  · rw [← h, effect?, effect?, setCell, Std.HashMap.getElem?_insert, if_neg (by simpa using hj)]

private theorem effect?_withNode {s : State} {kind : Graph.Kind} {c : Cell} {id : NodeId}
    (hid : id.index < s.kinds.size) : (s.withNode kind c).effect? id = s.effect? id := by
  refine effect?_congr ?_
  rw [withNode, Std.HashMap.getElem?_insert, if_neg]
  simp only [beq_iff_eq]
  rintro rfl
  exact Nat.lt_irrefl _ hid

/-- An effect is as before, or what is noted about it. -/
theorem effect?_modifyEffect {s : State} {id j : NodeId} {f : Effect → Effect} {e' : Effect}
    (h : (s.modifyEffect id f).effect? j = some e') :
    ∃ e, s.effect? j = some e ∧ e' = if id = j then f e else e := by
  rw [effect?, modifyEffect] at h
  simp only [Std.HashMap.getElem?_modify, beq_iff_eq] at h
  rw [effect?]
  by_cases hj : id = j
  · subst hj
    rw [if_pos rfl] at h
    cases hc : s.cells[id]? with
    | none => simp [hc] at h
    | some c =>
      cases c with
      | effect e => exact ⟨e, rfl, by simpa [hc] using h.symm⟩
      | _ => simp [hc] at h
  · rw [if_neg hj] at h
    exact ⟨e', h, (if_neg hj).symm⟩

/-- An effect that is still there was there. -/
theorem effect?_dropNode {s : State} {id j : NodeId} {e : Effect}
    (h : (s.dropNode id).effect? j = some e) : s.effect? j = some e := by
  rw [dropNode] at h
  split at h
  · exact h
  · by_cases hj : id = j
    · subst hj
      simp [effect?] at h
    · rw [← h, effect?, effect?, Std.HashMap.getElem?_erase, if_neg (by simpa using hj)]

/-- Behind a step that leaves nodes, effects and scopes as they are. -/
theorem Before.same {s s' : State} (hkinds : s'.kinds = s.kinds)
    (heffects : ∀ id e, s'.effect? id = some e → s.effect? id = some e)
    (hscopes : s.scopes.Ahead s'.scopes) : s.Before s' where
  kinds _ _ hk := hkinds ▸ hk
  effects id e' _ he' := ⟨e', heffects id e' he', rfl, fun h => h⟩
  scopes := hscopes

theorem Before.refl (s : State) : s.Before s := .same rfl (fun _ _ h => h) (.refl _)

/-- No created node is forgotten. -/
theorem Before.size {s s' : State} (h : s.Before s') : s.kinds.size ≤ s'.kinds.size := by
  by_contra hle
  have hlt : s'.kinds.size < s.kinds.size := Nat.lt_of_not_le hle
  have hk : s.kinds[s'.kinds.size]? = some s.kinds[s'.kinds.size] :=
    Array.getElem?_eq_getElem hlt
  simpa using h.kinds _ _ hk

theorem Before.trans {s s' s'' : State} (h : s.Before s') (h' : s'.Before s'') :
    s.Before s'' where
  kinds i k hk := h'.kinds i k (h.kinds i k hk)
  effects id e'' hid he'' := by
    obtain ⟨e', he', hscope', hd'⟩ := h'.effects id e'' (Nat.lt_of_lt_of_le hid h.size) he''
    obtain ⟨e, he, hscope, hd⟩ := h.effects id e' hid he'
    exact ⟨e, he, hscope'.trans hscope, fun hdisposed => hd' (hd hdisposed)⟩
  scopes := h.scopes.trans h'.scopes

/-- What was there is there when a node is created. -/
theorem Before.withNode (s : State) (kind : Graph.Kind) (c : Cell) :
    s.Before (s.withNode kind c) where
  kinds _ _ hk := kinds_push kind hk
  effects _ e' hid he' := ⟨e', (effect?_withNode hid).symm.trans he', rfl, fun h => h⟩
  scopes := .refl _

private theorem Before.adopted (s : State) (id : NodeId) : s.Before (s.adopted id) :=
  .same (kinds_adopted s id) (fun j _ h => (effect?_adopted s id j).symm.trans h)
    (ahead_adopted s id)

end State

/-- What was there is there behind a change. -/
theorem Change.before {s s' : State} (h : Change s s') : s.Before s' := by
  have hsame {s' : State} (hkinds : s'.kinds = s.kinds) (hcells : s'.cells = s.cells)
      (hscopes : s.scopes.Ahead s'.scopes) : s.Before s' :=
    .same hkinds (fun _ _ h => (State.effect?_congr (by rw [hcells])).symm.trans h) hscopes
  have hset (id : NodeId) (c : Cell) (hc : c.kind ≠ .effect) : s.Before (s.setCell id c) :=
    .same rfl (fun _ _ h => State.effect?_setCell hc h) (.refl _)
  cases h with
  | aside h => exact hsame h.kinds h.cells (h.scopes ▸ .refl _)
  | write id v h => exact hset id _ (by simp [Cell.kind])
  | resolve id v h => exact hset id _ (by simp [Cell.kind])
  | compute id p v h => exact hset id _ (by simp [Cell.kind])
  | keep id v =>
    rw [State.keepValue]
    split
    · split
      · exact .refl s
      · rename_i p _ _ _
        exact (hset id (.computed p (some v)) (by simp [Cell.kind])).trans
          (.same rfl (fun _ _ h => h) (.refl _))
    · exact .refl s
  | effect id f h =>
    refine ⟨fun _ _ hk => hk, fun j e' _ he' => ?_, .refl _⟩
    obtain ⟨e, he, rfl⟩ := State.effect?_modifyEffect he'
    refine ⟨e, he, ?_⟩
    split
    · exact h e
    · exact ⟨rfl, fun hd => hd⟩
  | drop id =>
    refine .same ?_ (fun _ _ h => State.effect?_dropNode h) ?_
    all_goals
      rw [State.dropNode]
      split <;> first | rfl | exact .refl _
  | newSource c h => exact .withNode s _ c
  | newComputed p => exact (State.Before.withNode s _ _).trans (.adopted _ _)
  | newEffect reaction supply =>
    have hscope : s.Before (s.withScope s.scopes.current?) :=
      hsame rfl rfl (Scopes.ahead_create _)
    exact (hscope.trans (.withNode _ _ _)).trans (.adopted _ _)
  | newScope parent => exact hsame rfl rfl (Scopes.ahead_create _)
  | enterScope id => exact hsame rfl rfl ⟨Nat.le_refl _, fun _ h => h⟩
  | leaveScope id => exact hsame rfl rfl ⟨Nat.le_refl _, fun _ h => h⟩
  | cleanup c h =>
    obtain ⟨id, rfl⟩ := Scopes.addCleanup?_eq h
    exact hsame rfl rfl (Scopes.ahead_modify _ _)
  | handler id h => exact hsame rfl rfl (Scopes.ahead_modify _ _)
  | removeScope id => exact hsame rfl rfl (Scopes.ahead_remove _)
  | stripScope id => exact hsame rfl rfl (Scopes.ahead_strip _)
  | _ => exact hsame rfl rfl (.refl _)

/-- What was there is there behind a passage. -/
theorem Passage.before {s s' : State} (h : Passage s s') : s.Before s' := by
  cases h with
  | schedule id h =>
    rw [State.scheduled]
    split
    · exact .same rfl (fun _ _ h => h) (.refl _)
    · exact .refl s
  | _ => exact .same rfl (fun _ _ h => h) (.refl _)

/-- What was there is there behind a path. -/
theorem Path.before {s s' : State} (h : Path s s') : s.Before s' := by
  induction h with
  | refl => exact .refl s
  | tail _ hstep ih => exact ih.trans (hstep.elim Change.before Passage.before)

/-- A chain of changes is a path. -/
theorem Leads.path {s s' : State} (h : Leads s s') : Path s s' := by
  induction h with
  | refl => exact .refl
  | tail _ hstep ih => exact ih.tail (.inl hstep)

/-- What was there is there behind a chain of changes. -/
theorem Leads.before {s s' : State} (h : Leads s s') : s.Before s' := h.path.before

private theorem State.Before.mayBeRead {s s' : State} (h : s.Before s') {id : NodeId}
    (hid : MayBeRead s.kinds id) : MayBeRead s'.kinds id := by
  obtain ⟨k, hk, hne⟩ := hid
  exact ⟨k, h.kinds _ k hk, hne⟩

/-- What may read may still do so. -/
theorem State.Before.mayRead {s s' : State} (h : s.Before s') {id : NodeId}
    (hid : MayRead s.kinds id) : MayRead s'.kinds id := by
  obtain ⟨k, hk, hne⟩ := hid
  exact ⟨k, h.kinds _ k hk, hne⟩

private theorem State.Before.suits {s s' : State} (h : s.Before s') {x : Handle}
    (hx : x.Suits s.kinds) :
    x.Suits s'.kinds := by
  cases x <;> first | exact h.kinds _ _ hx | trivial

/-- A change opens and closes nothing and lets no effect wait. -/
theorem Change.onward {s s' : State} (h : Change s s') :
    s.Onward s' ∧ s'.queue.pending ⊆ s.queue.pending := by
  have hsame {s' : State} (hqueue : s'.queue = s.queue) (htracking : s'.tracking = s.tracking) :
      s.Onward s' ∧ s'.queue.pending ⊆ s.queue.pending :=
    ⟨⟨by rw [hqueue], by rw [hqueue], by rw [htracking]⟩, hqueue ▸ List.Subset.refl _⟩
  have hadopted {s' : State} (id : NodeId) (hqueue : s'.queue = s.queue)
      (htracking : s'.tracking = s.tracking) :
      s.Onward (s'.adopted id) ∧ (s'.adopted id).queue.pending ⊆ s.queue.pending := by
    rw [State.adopted]
    split <;> exact hsame hqueue htracking
  have hdetach (id : NodeId) (cells : Std.HashMap NodeId Cell) :
      s.Onward { s.detach id with cells } ∧
        ({ s.detach id with cells } : State).queue.pending ⊆ s.queue.pending :=
    ⟨⟨rfl, rfl, rfl⟩, fun _ hj => (List.mem_filter.1 hj).1⟩
  cases h with
  | aside h => exact hsame h.queue h.tracking
  | record id h =>
    refine ⟨⟨rfl, rfl, ?_⟩, List.Subset.refl _⟩
    rw [State.modifyTracking, Tracking.record]
    split
    · rfl
    · rename_i sec rest hsections
      split
      · simp [hsections]
      · rfl
  | pop =>
    rw [State.popQueue, Queue.pop]
    split
    · exact hsame rfl rfl
    · rename_i first rest hpending
      exact ⟨⟨rfl, rfl, rfl⟩, hpending ▸ List.subset_cons_self first rest⟩
  | clear => exact ⟨⟨rfl, rfl, rfl⟩, List.nil_subset _⟩
  | keep id v =>
    rw [State.keepValue]
    split
    · split <;> exact hsame rfl rfl
    · exact hsame rfl rfl
  | detach id => exact hdetach id s.cells
  | drop id =>
    rw [State.dropNode]
    split
    · exact hsame rfl rfl
    · exact hdetach id _
  | newComputed p => exact hadopted _ rfl rfl
  | newEffect reaction supply => exact hadopted _ rfl rfl
  | _ => exact hsame rfl rfl

/-- Changes leave the same open, and no one new waits. -/
theorem Leads.onward {s s' : State} (h : Leads s s') :
    s.Onward s' ∧ s'.queue.pending ⊆ s.queue.pending := by
  induction h with
  | refl => exact ⟨.refl s, List.Subset.refl _⟩
  | tail _ hstep ih =>
    exact ⟨ih.1.trans hstep.onward.1, List.Subset.trans hstep.onward.2 ih.2⟩

/-- Where no effect waits that could run, none does behind changes. -/
theorem Leads.flushed {s s' : State} (h : Leads s s') (hs : s.Flushed) : s'.Flushed := by
  intro hflush
  rw [h.onward.1.canFlush] at hflush
  exact List.eq_nil_of_subset_nil (hs hflush ▸ h.onward.2)

/-- A law holds behind any chain of steps. -/
theorem Law.path (law : Law) {s s' : State} (hs : law.Holds s) (h : Path s s') :
    law.Holds s' := by
  induction h with
  | refl => exact hs
  | tail _ hstep ih => exact hstep.elim (law.change ih) (law.passage ih)

/-! ## Nodes are only used as what they are -/

namespace State

/-- What is new in a state has to be as it was created; what is old is as it was. -/
theorem Typed.mono {s s' : State} (hs : s.Typed) (hbefore : s.Before s')
    (hnodes : ∀ id n', s'.graph.find? id = some n' →
      (∃ n, s.graph.find? id = some n ∧ n'.kind = n.kind) ∨
        s'.kinds[id.index]? = some n'.kind)
    (hcells : ∀ (id : NodeId) (c' : Cell), s'.cells[id]? = some c' →
      (∃ c, s.cells[id]? = some c ∧ c'.kind = c.kind) ∨ s'.kinds[id.index]? = some c'.kind)
    (hnames : ∀ p ∈ s'.names, p ∈ s.names ∨ p.2.Suits s'.kinds)
    (hreads : ∀ sec' ∈ s'.tracking.sections, ∀ id ∈ sec'.reads,
      (∃ sec ∈ s.tracking.sections, id ∈ sec.reads) ∨ MayBeRead s'.kinds id)
    (hwaiting : ∀ (id : ClientId) (c' : Client), s'.clients[id]? = some c' → ∀ n ∈ c'.waiting,
      (∃ c, s.clients[id]? = some c ∧ n ∈ c.waiting) ∨
        s'.kinds[n.index]? = some .source) : s'.Typed where
  nodes id n' hn' := by
    rcases hnodes id n' hn' with ⟨n, hn, hkind⟩ | h
    · exact hkind ▸ hbefore.kinds _ _ (hs.nodes id n hn)
    · exact h
  cells id c' hc' := by
    rcases hcells id c' hc' with ⟨c, hc, hkind⟩ | h
    · exact hkind ▸ hbefore.kinds _ _ (hs.cells id c hc)
    · exact h
  names p hp := by
    rcases hnames p hp with h | h
    · exact hbefore.suits (hs.names p h)
    · exact h
  reads sec' hsec' id hid := by
    rcases hreads sec' hsec' id hid with ⟨sec, hsec, h⟩ | h
    · exact hbefore.mayBeRead (hs.reads sec hsec id h)
    · exact h
  waiting id c' hc' n hn := by
    rcases hwaiting id c' hc' n hn with ⟨c, hc, h⟩ | h
    · exact hbefore.kinds _ _ (hs.waiting id c hc n h)
    · exact h

/-- A change of the graph in which no node comes to stand for anything else. -/
theorem Typed.graph {s : State} (hs : s.Typed) {g : Graph} {q : Queue}
    (hnodes : ∀ id n', g.find? id = some n' → ∃ n, s.graph.find? id = some n ∧ n'.kind = n.kind) :
    ({ s with graph := g, queue := q } : State).Typed :=
  { hs with
    nodes := fun id n' hn' => by
      obtain ⟨n, hn, hkind⟩ := hnodes id n' hn'
      exact hkind ▸ hs.nodes id n hn }

/-- A change of the open sections. -/
theorem Typed.tracking {s : State} (hs : s.Typed) {t : Tracking}
    (hreads : ∀ sec' ∈ t.sections, ∀ id ∈ sec'.reads,
      (∃ sec ∈ s.tracking.sections, id ∈ sec.reads) ∨ MayBeRead s.kinds id) :
    ({ s with tracking := t } : State).Typed :=
  { hs with
    reads := fun sec' hsec' id hid => by
      rcases hreads sec' hsec' id hid with ⟨sec, hsec, h⟩ | h
      · exact hs.reads sec hsec id h
      · exact h }

/-- A change of what lies behind the nodes. -/
theorem Typed.behind {s : State} (hs : s.Typed) {cells : Std.HashMap NodeId Cell}
    (hcells : ∀ (id : NodeId) (c' : Cell), cells[id]? = some c' →
      (∃ c, s.cells[id]? = some c ∧ c'.kind = c.kind) ∨ s.kinds[id.index]? = some c'.kind) :
    ({ s with cells } : State).Typed :=
  { hs with
    cells := fun id c' hc' => by
      rcases hcells id c' hc' with ⟨c, hc, hkind⟩ | h
      · exact hkind ▸ hs.cells id c hc
      · exact h }

/-- A change of the names. -/
theorem Typed.renamed {s : State} (hs : s.Typed) {names : List (String × Handle)}
    (hnames : ∀ p ∈ names, p ∈ s.names ∨ p.2.Suits s.kinds) : ({ s with names } : State).Typed :=
  { hs with names := fun p hp => (hnames p hp).elim (hs.names p) id }

/-- A change of what the nodes have nothing to do with. -/
theorem Typed.same {s s' : State} (hs : s.Typed) (hgraph : s'.graph = s.graph)
    (htracking : s'.tracking = s.tracking) (hcells : s'.cells = s.cells)
    (hkinds : s'.kinds = s.kinds) (hnames : s'.names = s.names)
    (hclients : s'.clients = s.clients) : s'.Typed :=
  ⟨by rw [hgraph, hkinds]; exact hs.nodes, by rw [hcells, hkinds]; exact hs.cells,
    by rw [hnames, hkinds]; exact hs.names, by rw [htracking, hkinds]; exact hs.reads,
    by rw [hclients, hkinds]; exact hs.waiting⟩

/-- Nodes are what they were created as when something of the same kind is put behind one. -/
theorem Typed.setCell {s : State} (hs : s.Typed) {id : NodeId} {c : Cell}
    (h : s.kinds[id.index]? = some c.kind) : (s.setCell id c).Typed := by
  refine hs.behind fun j c' hc' => ?_
  rw [Std.HashMap.getElem?_insert] at hc'
  split at hc'
  · rename_i hj
    obtain rfl : id = j := by simpa using hj
    rw [Option.some.injEq] at hc'
    exact Or.inr (hc' ▸ h)
  · exact Or.inl ⟨c', hc', rfl⟩

/-- A created node is what it was created as. -/
theorem Typed.withNode {s : State} (hs : s.Typed) {kind : Graph.Kind} {c : Cell}
    (h : c.kind = kind) : (s.withNode kind c).Typed := by
  have hself : (s.withNode kind c).kinds[s.kinds.size]? = some kind := by
    rw [State.withNode, Array.getElem?_push, if_pos rfl]
  refine hs.mono (.withNode s kind c) (fun id n' hn' => ?_) (fun id c' hc' => ?_)
    (fun _ h => Or.inl h) (fun sec h _ hid => Or.inl ⟨sec, h, hid⟩)
    (fun _ c h _ hn => Or.inl ⟨c, h, hn⟩)
  · by_cases hid : id = ⟨s.kinds.size⟩
    · subst hid
      rw [State.withNode, Graph.find?_insert_self, Option.some.injEq] at hn'
      subst hn'
      exact Or.inr hself
    · rw [State.withNode, Graph.find?_insert_of_ne _ hid] at hn'
      exact Or.inl ⟨n', hn', rfl⟩
  · rw [State.withNode, Std.HashMap.getElem?_insert] at hc'
    split at hc'
    · rename_i hid
      obtain rfl : (⟨s.kinds.size⟩ : NodeId) = id := by simpa using hid
      rw [Option.some.injEq] at hc'
      subst hc'
      exact Or.inr (h ▸ hself)
    · exact Or.inl ⟨c', hc', rfl⟩

private theorem Typed.adopted {s : State} (hs : s.Typed) (id : NodeId) : (s.adopted id).Typed := by
  rw [State.adopted]
  split
  · exact hs.same rfl rfl rfl rfl rfl rfl
  · exact hs

/-- What the innermost section has read. -/
theorem mem_leave {t : Tracking} {id : NodeId} (h : id ∈ t.leave.1) :
    ∃ sec ∈ t.sections, id ∈ sec.reads := by
  rw [Tracking.leave] at h
  split at h
  · simp at h
  · rename_i sec rest hsections
    exact ⟨sec, by simp [hsections], h⟩

/-- The sections below the innermost one. -/
theorem mem_sections_leave {t : Tracking} {sec : Tracking.Section}
    (h : sec ∈ t.leave.2.sections) : sec ∈ t.sections := by
  rw [Tracking.leave] at h
  split at h
  · exact h
  · rename_i top rest hsections
    rw [hsections]
    exact List.mem_cons_of_mem top h

/-- What is recorded was recorded before, or is the new read. -/
theorem mem_sections_record {t : Tracking} {id a : NodeId} {sec' : Tracking.Section}
    (h : sec' ∈ (t.record id).sections) (ha : a ∈ sec'.reads) :
    (∃ sec ∈ t.sections, a ∈ sec.reads) ∨ a = id := by
  rw [Tracking.record] at h
  split at h
  · exact Or.inl ⟨sec', h, ha⟩
  · rename_i top rest hsections
    split at h
    · rcases List.mem_cons.1 h with rfl | h
      · rcases List.mem_append.1 ha with ha | ha
        · exact Or.inl ⟨top, by simp [hsections], ha⟩
        · exact Or.inr (List.mem_singleton.1 ha)
      · exact Or.inl ⟨sec', by simp [hsections, h], ha⟩
    · exact Or.inl ⟨sec', h, ha⟩

/-- A change of the graph that leaves the edges alone. -/
theorem Typed.sameEdges {s : State} (hs : s.Typed) {g : Graph} {q : Queue}
    (h : Graph.Maps (fun _ => Graph.SameEdges) s.graph g) :
    ({ s with graph := g, queue := q } : State).Typed :=
  hs.graph fun _ _ hn' => by
    obtain ⟨n, hn, hsame⟩ := h.exists_old hn'
    exact ⟨n, hn, hsame.kind⟩

/-- Every change keeps nodes in use as what they were created as. -/
theorem Typed.change {s s' : State} (hs : s.Typed) (h : Change s s') : s'.Typed := by
  have hremoved (id j : NodeId) (n' : Graph.Node)
      (hn' : (s.graph.remove id).1.find? j = some n') :
      ∃ n, s.graph.find? j = some n ∧ n'.kind = n.kind := by
    obtain ⟨hgone, hmaps⟩ := Graph.remove_spec s.graph id
    have hj : j ≠ id := by
      rintro rfl
      simp [hgone] at hn'
    obtain ⟨n, hn, hu⟩ := hmaps.exists_old hn'
    rw [Graph.find?_erase_of_ne s.graph hj] at hn
    exact ⟨n, hn, hu.kind⟩
  cases h with
  | aside h => exact hs.same h.graph h.tracking h.cells h.kinds h.names h.clients
  | clients clients h =>
    exact { hs with
      waiting := fun id c' hc' n hn => by
        rcases h id c' hc' n hn with ⟨c, hc, hold⟩ | hnew
        · exact hs.waiting id c hc n hold
        · exact hnew }
  | record id h =>
    refine hs.tracking fun sec hsec a ha => ?_
    rcases mem_sections_record hsec ha with h' | rfl
    · exact Or.inl h'
    · exact Or.inr h
  | pop => exact hs.same rfl rfl rfl rfl rfl rfl
  | clear => exact hs.same rfl rfl rfl rfl rfl rfl
  | trust id => exact hs.sameEdges (q := s.queue) (Graph.sameEdges_request s.graph id .clean)
  | write id v h => exact hs.setCell h
  | resolve id v h => exact hs.setCell h
  | compute id p v h => exact hs.setCell h
  | keep id v =>
    rw [State.keepValue]
    split
    · rename_i p old hcell
      split
      · exact hs
      · have hkind : s.kinds[id.index]? = some .derived := hs.cells id _ hcell
        have hc : (s.setCell id (.computed p (some v))).Typed := hs.setCell hkind
        exact hc.sameEdges (q := s.queue) (Graph.sameEdges_bump s.graph id)
    · exact hs
  | effect id f h =>
    refine hs.behind fun j c' hc' => Or.inl ?_
    rw [Std.HashMap.getElem?_modify] at hc'
    split at hc'
    · rename_i hj
      obtain rfl : id = j := by simpa using hj
      obtain ⟨c, hc, rfl⟩ := Option.map_eq_some_iff.1 hc'
      exact ⟨c, hc, by cases c <;> rfl⟩
    · exact ⟨c', hc', rfl⟩
  | detach id => exact hs.graph (hremoved id)
  | drop id =>
    rw [State.dropNode]
    split
    · exact hs
    · refine Typed.behind (s := s.detach id) (hs.graph (hremoved id)) fun j c' hc' => Or.inl ?_
      rw [Std.HashMap.getElem?_erase] at hc'
      split at hc'
      · simp at hc'
      · exact ⟨c', hc', rfl⟩
  | newSource c h => exact hs.withNode h
  | newComputed p =>
    have hnode : (s.withNode .derived (.computed p none)).Typed := hs.withNode rfl
    exact hnode.adopted _
  | newEffect reaction supply =>
    have hscope : (s.withScope s.scopes.current?).Typed := hs.same rfl rfl rfl rfl rfl rfl
    have hnode : ((s.withScope s.scopes.current?).withNode .effect
        (.effect { reaction, scope := ⟨s.scopes.next⟩, supply })).Typed := hscope.withNode rfl
    exact hnode.adopted _
  | name x h suits =>
    refine hs.renamed fun p hp => ?_
    rcases List.mem_cons.1 hp with rfl | hp
    · exact Or.inr suits
    · exact Or.inl (List.mem_filter.1 hp).1
  | unname x => exact hs.renamed fun p hp => Or.inl (List.mem_filter.1 hp).1
  | _ => exact hs.same rfl rfl rfl rfl rfl rfl

/-- Every passage keeps nodes in use as what they were created as. -/
theorem Typed.passage {s s' : State} (hs : s.Typed) (h : Passage s s') : s'.Typed := by
  cases h with
  | schedule id h =>
    rw [State.scheduled]
    split
    · exact hs.sameEdges (Graph.sameEdges_request s.graph id .dirty)
    · exact hs
  | notify id => exact hs.sameEdges (Graph.sameEdges_markChanged s.graph id)
  | pace f h => exact hs.same rfl rfl rfl rfl rfl rfl
  | openSection o =>
    refine hs.tracking fun sec hsec id hid => ?_
    rcases List.mem_cons.1 hsec with rfl | hsec
    · simp at hid
    · exact Or.inl ⟨sec, hsec, hid⟩
  | dropSection =>
    exact hs.tracking fun sec hsec id hid => Or.inl ⟨sec, mem_sections_leave hsec, hid⟩
  | endRun id h =>
    have ht := hs.tracking (t := s.tracking.leave.2)
      fun sec hsec id hid => Or.inl ⟨sec, mem_sections_leave hsec, hid⟩
    refine ht.graph (q := s.queue) fun j n' hn' => ?_
    cases hn : s.graph.find? id with
    | none =>
      rw [Graph.setDependencies, hn] at hn'
      exact ⟨n', hn', rfl⟩
    | some n =>
      rw [Graph.find?_setDependencies hn] at hn'
      obtain ⟨m, hm, rfl⟩ := Option.map_eq_some_iff.1 hn'
      exact ⟨m, hm, Graph.kind_rewire⟩

end State

/-- The law of a property that every step keeps where nodes are used as what they are. -/
def Law.of (J : State → Prop) (change : ∀ {s s'}, s.Typed → J s → Change s s' → J s')
    (passage : ∀ {s s'}, s.Typed → J s → Passage s s' → J s') : Law where
  Holds s := s.Typed ∧ J s
  typed h := h.1
  change h hstep := ⟨h.1.change hstep, change h.1 h.2 hstep⟩
  passage h hstep := ⟨h.1.passage hstep, passage h.1 h.2 hstep⟩

/-- The law that nodes are used as what they are. -/
def typing : Law where
  Holds := State.Typed
  typed h := h
  change := State.Typed.change
  passage := State.Typed.passage

namespace Leads

variable {s s' s'' : State}

/-- One change. -/
theorem one (h : Change s s') : Leads s s' := .single h

/-- A change outside the core. -/
theorem aside (h : s.SameCore s') : Leads s s' := .single (.aside h)

end Leads

namespace State

/-- Doing the same for all of a list. -/
theorem leads_foldl {β : Type} {f : State → β → State} (h : ∀ s b, Leads s (f s b)) (l : List β)
    (s : State) : Leads s (l.foldl f s) := by
  induction l generalizing s with
  | nil => exact .refl
  | cons b l ih => exact (h s b).trans (ih _)

/-- Dropping what lies behind a node. -/
theorem leads_dropNode (s : State) (id : NodeId) : Leads s (s.dropNode id) := .single (.drop id)

/-- Dropping query data. -/
theorem leads_dropClient (s : State) (id : ClientId) : Leads s (s.dropClient id) := by
  rw [dropClient]
  split
  · exact .refl
  · split
    · exact .refl
    · have hgone : Leads s { s with clients := s.clients.erase id } := by
        refine .one (.clients _ fun j c' hc' n hn => Or.inl ⟨c', ?_, hn⟩)
        rw [Std.HashMap.getElem?_erase] at hc'
        split at hc'
        · simp at hc'
        · exact hc'
      exact hgone.trans (leads_foldl leads_dropNode _ _)

/-- Dropping the query data that nothing refers to. -/
theorem leads_sweep (s : State) : Leads s s.sweep := by
  rw [sweep]
  split
  · exact .refl
  · exact leads_foldl leads_dropClient _ s

/-- Releasing a node. -/
theorem leads_releaseNode (s : State) (id : NodeId) : Leads s (s.releaseNode id) := by
  rw [releaseNode]
  split
  · exact leads_dropNode s id
  · exact (leads_dropNode s id).trans (leads_sweep _)

/-- Releasing what a name stood for. -/
theorem leads_releaseHandle (s : State) (h : Handle) : Leads s (s.releaseHandle h) := by
  rw [releaseHandle]
  split
  · exact leads_releaseNode s _
  · exact leads_dropClient s _
  · exact .refl

/-- Taking a name away. -/
theorem leads_unbind (s : State) (name : String) : Leads s (s.unbind name) := by
  rw [unbind]
  split
  · exact .refl
  · exact (Leads.one (.unname name)).trans (leads_releaseHandle _ _)

/-- Giving something a name. -/
theorem leads_bindName {s : State} (name : Option String) {h : Handle} (suits : h.Suits s.kinds) :
    Leads s (s.bindName name h) := by
  cases name with
  | none => exact leads_releaseHandle s h
  | some name =>
    have hnamed : Leads s (s.named name h) := .single (.name name h suits)
    rw [bindName, rebind]
    split
    · exact hnamed
    · exact hnamed.trans (leads_releaseHandle _ _)

/-- Taking something in use. -/
theorem leads_hold (s : State) (h : Hold) : Leads s (s.hold h) :=
  .aside ⟨rfl, rfl, rfl, rfl, rfl, rfl, rfl, rfl⟩

/-- Letting go of what was in use. -/
theorem leads_unhold (s : State) (h : Hold) : Leads s (s.unhold h) := by
  have hless : Leads s { s with held := s.held.erase h } :=
    .aside ⟨rfl, rfl, rfl, rfl, rfl, rfl, rfl, rfl⟩
  cases h with
  | node id => exact hless.trans (leads_releaseNode _ id)
  | client id => exact hless.trans (leads_dropClient _ id)

/-- The end of a supply. -/
theorem leads_leaveSupply (s : State) : Leads s s.leaveSupply := by
  have hless : Leads s { s with supplies := s.supplies.tail } :=
    .aside ⟨rfl, rfl, rfl, rfl, rfl, rfl, rfl, rfl⟩
  exact hless.trans (leads_sweep _)

end State

end Rivulet.Engine
