import Rivulet.Proofs.Converging.Adding
import Rivulet.Proofs.Drafting.Following

/-!
# What a drawing leaves alone

A template reads what it likes, and what it reads stays as it is while it draws. What that is is
left open: any property of states that holds on, whatever the engine does beside the drawing. The
drawing makes effects of its own, gives the names of the template to nodes of documents, and lets go
of what nothing refers to any longer.
-/

namespace Rivulet.Engine

open Hydration

/-- What the engine does beside a drawing, step by step, where the effects that are made have
numbers from a given one on, and the nodes that are drawn are given certain names. -/
inductive State.Drifts (base : Nat) (free : String → Prop) : State → State → Prop where
  /-- What is drawn changes, or what is in use, the scopes, the data of applications, or how many
  batches are open. -/
  | aside {s s' : State} (h : s' = { s with
      documents := s'.documents
      reports := s'.reports
      flags := s'.flags
      drawings := s'.drawings
      boundaries := s'.boundaries
      held := s'.held
      supplies := s'.supplies
      scopes := s'.scopes
      clients := s'.clients
      nextClient := s'.nextClient
      queue := { s.queue with batches := s'.queue.batches } }) : Drifts base free s s'
  /-- An effect starts to run. -/
  | enter {s : State} (id : NodeId) (h : base ≤ id.index) :
      Drifts base free s (s.modifyTracking (·.enter (.effect id)))
  /-- An effect has run. -/
  | endRun {s : State} (id : NodeId) (h : base ≤ id.index) : Drifts base free s (s.endRun id)
  /-- An effect counts as up to date. -/
  | trust {s : State} (id : NodeId) (h : base ≤ id.index) :
      Drifts base free s (s.modifyGraph (·.request id .clean))
  /-- Something about an effect changes. -/
  | effect {s : State} (id : NodeId) (h : base ≤ id.index) (f : Effect → Effect) :
      Drifts base free s (s.modifyEffect id f)
  /-- An effect is made. -/
  | create {s : State} (h : base ≤ s.kinds.size) (e : Effect) :
      Drifts base free s (s.withNode .effect (.effect e))
  /-- An effect is taken out of the graph and the queue. -/
  | detach {s : State} (id : NodeId) (h : base ≤ id.index) : Drifts base free s (s.detach id)
  /-- A node that nothing refers to is dropped. -/
  | drop {s : State} (id : NodeId) : Drifts base free s (s.dropNode id)
  /-- A name is given to a node of a document. -/
  | name {s : State} (x : String) (h : free x) (document : DocumentId) (node : DomId) :
      Drifts base free s (s.named x (.node document node))

/-- What templates read, as a property of states that holds on while they draw. -/
structure World where
  /-- The number from which on nodes may be made. -/
  base : Nat
  /-- The number from which on query data may be made. -/
  clients : Nat
  /-- The names that may be given to nodes of documents. -/
  free : String → Prop
  /-- The property. -/
  holds : State → Prop
  /-- It holds on. -/
  drifts : ∀ {s s' : State}, s.Drifts base free s' → holds s → holds s'

namespace World

variable {W : World} {s s' : State} {k n : Nat}

/-- Doing the same for all of a list. -/
theorem holds_foldl {β : Type} {f : State → β → State}
    (h : ∀ s b, W.holds s → W.holds (f s b)) (l : List β) (hs : W.holds s) :
    W.holds (l.foldl f s) := by
  induction l generalizing s with
  | nil => exact hs
  | cons b l ih => exact ih (h s b hs)

/-- Dropping what lies behind a node. -/
theorem holds_dropNode (hs : W.holds s) (id : NodeId) : W.holds (s.dropNode id) :=
  W.drifts (.drop id) hs

/-- Dropping query data. -/
theorem holds_dropClient (hs : W.holds s) (id : ClientId) : W.holds (s.dropClient id) := by
  have hgone : W.holds { s with clients := s.clients.erase id } := W.drifts (.aside rfl) hs
  rw [State.dropClient]
  split
  · exact hs
  · split
    · exact hs
    · exact holds_foldl (fun _ id h => holds_dropNode h id) _ hgone

/-- Dropping the query data that nothing refers to. -/
theorem holds_sweep (hs : W.holds s) : W.holds s.sweep := by
  rw [State.sweep]
  split
  · exact hs
  · exact holds_foldl (fun _ id h => holds_dropClient h id) _ hs

/-- Releasing a node. -/
theorem holds_releaseNode (hs : W.holds s) (id : NodeId) : W.holds (s.releaseNode id) := by
  rw [State.releaseNode]
  split
  · exact holds_dropNode hs id
  · exact holds_sweep (holds_dropNode hs id)

/-- Letting go of what was in use. -/
theorem holds_unhold (hs : W.holds s) (h : Hold) : W.holds (s.unhold h) := by
  have hless : W.holds { s with held := s.held.erase h } := W.drifts (.aside rfl) hs
  cases h with
  | node id => exact holds_releaseNode hless id
  | client id => exact holds_dropClient hless id

/-- A state in which a template may draw: nothing waits that could be done at once, what runs and
what is current was created, scopes from a given number on have no cleanups, and the names that may
be given to nodes stand for nothing else, and for nodes up to a given number only. -/
structure Stage (W : World) (k n : Nat) (s : State) : Prop where
  /-- It is the state of a run. -/
  reached : s.Reached
  /-- What templates read is there. -/
  holds : W.holds s
  /-- Nothing waits that could be done at once. -/
  quiet : s.Quiet
  /-- What runs was created. -/
  running : ∀ id, s.tracking.isRunning id = true → id.index < s.kinds.size
  /-- The current scopes were created. -/
  current : ∀ x ∈ s.scopes.stack, x.index < s.scopes.next
  /-- The scopes that come with the drawing have no cleanups, and only effects that come with it. -/
  bare : ∀ x sx, k ≤ x.index → s.scopes.find? x = some sx →
    sx.holdings.cleanups = [] ∧ ∀ i ∈ sx.holdings.computations, W.base ≤ i.index
  /-- The scopes up to the given number were created. -/
  begun : k ≤ s.scopes.next
  /-- The nodes up to the given number were created. -/
  base : W.base ≤ s.kinds.size
  /-- The query data that is being fetched for was there before. -/
  fetching : ∀ c : ClientId, .client c ∈ s.starting → c.index < W.clients
  /-- The names of the template stand for nodes of documents. -/
  names : ∀ x, W.free x → s.handle? x = none ∨
    ∃ document node, s.handle? x = some (.node document node) ∧ node.index < n

namespace Stage

/-- A stage with more nodes than needed. -/
theorem mono {m : Nat} (h : W.Stage k n s) (hn : n ≤ m) : W.Stage k m s :=
  { h with names := fun x hx => (h.names x hx).imp_right fun ⟨document, node, hnode, hlt⟩ =>
      ⟨document, node, hnode, Nat.lt_of_lt_of_le hlt hn⟩ }

/-- What is drawn changes, or what is in use. -/
theorem aside (h : W.Stage k n s) (hs : s' = { s with
    documents := s'.documents
    reports := s'.reports
    flags := s'.flags
    drawings := s'.drawings
    boundaries := s'.boundaries
    held := s'.held
    supplies := s'.supplies }) : W.Stage k n s' := by
  have hholds : W.holds s' := W.drifts (.aside (by rw [hs])) h.holds
  have hpath : Path s s' := by
    rw [hs]
    exact .single (.inl (.aside ⟨rfl, rfl, rfl, rfl, rfl, rfl, rfl, rfl⟩))
  have hquiet : s'.Quiet := hs ▸ h.quiet
  have hreached := h.reached.path hpath
  rw [hs] at hholds hquiet hreached ⊢
  exact { h with reached := hreached, holds := hholds, quiet := hquiet }

/-- What nothing refers to is let go. -/
theorem letsGo (h : W.Stage k n s) (hidles : s.Idles s') (hgo : s.LetsGo s') (hholds : W.holds s') :
    W.Stage k n s' := by
  have hquiet := hidles.quiet h.quiet
  have hreached := h.reached.path hidles.path
  obtain ⟨_, _, _, _, rfl⟩ := hgo
  exact { h with reached := hreached, holds := hholds, quiet := hquiet }

private theorem sweep (h : W.Stage k n s) : W.Stage k n s.sweep :=
  h.letsGo (State.idles_sweep s) (State.letsGo_sweep s) (holds_sweep h.holds)

/-- Dropping what lies behind a node. -/
theorem dropNode (h : W.Stage k n s) (id : NodeId) : W.Stage k n (s.dropNode id) :=
  h.letsGo (State.idles_dropNode s id) (State.letsGo_dropNode s id) (holds_dropNode h.holds id)

private theorem dropClient (h : W.Stage k n s) (id : ClientId) : W.Stage k n (s.dropClient id) :=
  h.letsGo (State.idles_dropClient s id) (State.letsGo_dropClient s id)
    (holds_dropClient h.holds id)

/-- Releasing a node. -/
theorem releaseNode (h : W.Stage k n s) (id : NodeId) : W.Stage k n (s.releaseNode id) :=
  h.letsGo (State.idles_releaseNode s id) (State.letsGo_releaseNode s id)
    (holds_releaseNode h.holds id)

/-- Letting go of what was in use. -/
theorem unhold (h : W.Stage k n s) (hold : Hold) : W.Stage k n (s.unhold hold) := by
  have hless : W.Stage k n { s with held := s.held.erase hold } := h.aside rfl
  cases hold with
  | node id => exact hless.releaseNode id
  | client id => exact hless.dropClient id

/-- The end of a supply. -/
theorem leaveSupply (h : W.Stage k n s) : W.Stage k n s.leaveSupply := by
  have hless : W.Stage k n { s with supplies := s.supplies.tail } := h.aside rfl
  exact hless.sweep

/-! ## Sections and scopes -/

/-- Trusting a node that was created on the way. -/
theorem trust (h : W.Stage k n s) {id : NodeId} (hid : W.base ≤ id.index) :
    W.Stage k n (s.modifyGraph (·.request id .clean)) :=
  { h with
    reached := h.reached.path (State.idles_trust s id).path
    holds := W.drifts (.trust id hid) h.holds
    quiet := (State.idles_trust s id).quiet h.quiet }

/-- Opening the section of an effect that was created on the way. -/
theorem enter (h : W.Stage k n s) {id : NodeId} (hid : W.base ≤ id.index)
    (hlt : id.index < s.kinds.size) : W.Stage k n (s.modifyTracking (·.enter (.effect id))) :=
  { h with
    reached := h.reached.path (State.idles_enter s _).path
    holds := W.drifts (.enter id hid) h.holds
    quiet := (State.idles_enter s _).quiet h.quiet
    running := fun j hj => by
      simp only [State.modifyTracking, Tracking.isRunning, Tracking.enter, List.any_cons,
        Tracking.Observer.node?, Bool.or_eq_true, decide_eq_true_eq, Option.some.injEq] at hj
      rcases hj with rfl | hj
      · exact hlt
      · exact h.running j hj }

private theorem isRunning_leave {t : Tracking} {id : NodeId} (h : t.leave.2.isRunning id = true) :
    t.isRunning id = true := by
  rw [Tracking.leave] at h
  split at h
  · exact h
  · rename_i heq
    rw [Tracking.isRunning, heq, List.any_cons, Bool.or_eq_true]
    exact .inr h

/-- The end of the run of an effect that was created on the way. -/
theorem endRun (h : W.Stage k n s) {id : NodeId} (hid : W.base ≤ id.index)
    (hmay : MayRead s.kinds id) : W.Stage k n (s.endRun id) :=
  { h with
    reached := h.reached.path (State.idles_endRun hmay).path
    holds := W.drifts (.endRun id hid) h.holds
    quiet := (State.idles_endRun hmay).quiet h.quiet
    running := fun j hj => h.running j (isRunning_leave hj) }

/-- Noting something about an effect that was created on the way. -/
theorem effect (h : W.Stage k n s) {id : NodeId} (hid : W.base ≤ id.index) {f : Effect → Effect}
    (hf : ∀ e, (f e).scope = e.scope ∧ (e.disposed = true → (f e).disposed = true)) :
    W.Stage k n (s.modifyEffect id f) :=
  { h with
    reached := h.reached.path (State.idles_modifyEffect s id hf).path
    holds := W.drifts (.effect id hid f) h.holds
    quiet := (State.idles_modifyEffect s id hf).quiet h.quiet }

/-- Entering a scope. -/
theorem enterScope (h : W.Stage k n s) {x : ScopeId} (hx : x.index < s.scopes.next) :
    W.Stage k n (s.modifyScopes (·.enter x)) :=
  { h with
    reached := h.reached.path (State.idles_enterScope s x).path
    holds := W.drifts (.aside rfl) h.holds
    quiet := (State.idles_enterScope s x).quiet h.quiet
    current := fun y hy => by
      rcases List.mem_cons.1 hy with rfl | hy
      · exact hx
      · exact h.current y hy }

/-- Leaving a scope. -/
theorem leaveScope (h : W.Stage k n s) (x : ScopeId) : W.Stage k n (s.modifyScopes (·.leave x)) :=
  { h with
    reached := h.reached.path (State.idles_leaveScope s x).path
    holds := W.drifts (.aside rfl) h.holds
    quiet := (State.idles_leaveScope s x).quiet h.quiet
    current := fun y hy => h.current y (List.mem_of_mem_erase hy) }

/-- A scope is made. -/
theorem withScope (h : W.Stage k n s) (parent : Option ScopeId) :
    W.Stage k n (s.withScope parent) := by
  have hnext : (s.withScope parent).scopes.next = s.scopes.next + 1 := Scopes.next_create parent
  exact {
    h with
    reached := h.reached.path (State.idles_withScope s parent).path
    holds := W.drifts (.aside rfl) h.holds
    quiet := (State.idles_withScope s parent).quiet h.quiet
    current := fun y hy => by
      have hstack : (s.withScope parent).scopes.stack = s.scopes.stack := by
        show (s.scopes.create parent).2.stack = _
        rw [Scopes.create]
        split <;> rfl
      rw [hstack] at hy
      rw [hnext]
      exact Nat.lt_succ_of_lt (h.current y hy)
    bare := fun x sx hk hx => by
      rw [State.withScope, Scopes.find?_create] at hx
      split at hx
      · cases hx
        exact ⟨rfl, by simp⟩
      · split at hx
        · obtain ⟨sp, hsp, rfl⟩ := Option.map_eq_some_iff.1 hx
          exact h.bare x sp hk hsp
        · exact h.bare x sx hk hx
    begun := hnext ▸ Nat.le_succ_of_le h.begun }

/-- Setting who takes the errors of a scope. -/
theorem setHandler (h : W.Stage k n s) (x : ScopeId) (handler : Handler) :
    W.Stage k n (s.modifyScopes (·.setHandler x handler)) :=
  { h with
    reached := h.reached.path (State.idles_setHandler s x handler).path
    holds := W.drifts (.aside rfl) h.holds
    quiet := (State.idles_setHandler s x handler).quiet h.quiet
    bare := fun y sy hk hy => by
      change (s.scopes.modify x _).find? y = some sy at hy
      rw [Scopes.find?_modify] at hy
      split at hy
      · obtain ⟨sp, hsp, rfl⟩ := Option.map_eq_some_iff.1 hy
        exact h.bare y sp hk hsp
      · exact h.bare y sy hk hy }

/-- An effect is made. -/
theorem withReaction (h : W.Stage k n s) (reaction : Reaction) (supply : Option Supply) :
    W.Stage k n (s.withReaction reaction supply) := by
  let e : Effect := { reaction, scope := ⟨s.scopes.next⟩, supply }
  let u := (s.withScope s.scopes.current?).withNode .effect (.effect e)
  have hidles := State.idles_withReaction s reaction supply
  have hscope := h.withScope s.scopes.current?
  have hnew : W.holds u := W.drifts (.create hscope.base e) hscope.holds
  have hreached := h.reached.path hidles.path
  have hquiet := hidles.quiet h.quiet
  have hlt (id : NodeId) (hid : s.tracking.isRunning id = true) :
      id.index < (s.kinds.push .effect).size := by
    rw [Array.size_push]
    exact Nat.lt_succ_of_lt (h.running id hid)
  have hbase : W.base ≤ (s.kinds.push .effect).size := by
    rw [Array.size_push]
    exact Nat.le_succ_of_le h.base
  show W.Stage k n (u.adopted ⟨s.kinds.size⟩)
  change (u.adopted ⟨s.kinds.size⟩).Reached at hreached
  change (u.adopted ⟨s.kinds.size⟩).Quiet at hquiet
  rw [State.adopted] at hreached hquiet ⊢
  split at hreached
  · rename_i owner howner
    simp only [howner] at hquiet ⊢
    exact {
      reached := hreached
      holds := W.drifts (.aside rfl) hnew
      quiet := hquiet
      running := hlt
      current := hscope.current
      bare := fun x sx hk hx => by
        change (u.scopes.adopt owner _).find? x = some sx at hx
        rw [Scopes.adopt, Scopes.find?_modifyHoldings] at hx
        split at hx
        · obtain ⟨sp, hsp, rfl⟩ := Option.map_eq_some_iff.1 hx
          obtain ⟨hcleanups, howned⟩ := hscope.bare x sp hk hsp
          refine ⟨hcleanups, fun i hi => ?_⟩
          rcases List.mem_append.1 hi with hi | hi
          · exact howned i hi
          · rw [List.mem_singleton.1 hi]
            exact h.base
        · exact hscope.bare x sx hk hx
      begun := hscope.begun
      base := hbase
      fetching := h.fetching
      names := h.names }
  · rename_i hnone
    simp only [hnone] at hquiet ⊢
    exact {
      reached := hreached
      holds := hnew
      quiet := hquiet
      running := hlt
      current := hscope.current
      bare := hscope.bare
      begun := hscope.begun
      base := hbase
      fetching := h.fetching
      names := h.names }

/-- A name is given to a node of a document. -/
theorem bindName (h : W.Stage k n s) {name : Option String} (hname : ∀ x ∈ name, W.free x)
    (document : DocumentId) {node : DomId} (hnode : node.index < n) :
    W.Stage k n (s.bindName name (.node document node)) := by
  cases name with
  | none => exact h
  | some x =>
    have hx := hname x rfl
    have hsuits : (Handle.node document node).Suits s.kinds := trivial
    have hnamed : W.Stage k n (s.named x (.node document node)) := {
      h with
      reached := h.reached.path (.single (.inl (.name x _ hsuits)))
      holds := W.drifts (.name x hx document node) h.holds
      names := fun y hy => by
        by_cases hxy : y = x
        · subst hxy
          exact .inr ⟨document, node, by simp [State.handle?, State.named], hnode⟩
        · have hsame : (s.named x (.node document node)).handle? y = s.handle? y :=
            (State.lookup_cons_filter s.names x y _).trans (if_neg hxy)
          rw [hsame]
          exact h.names y hy }
    rw [State.bindName, State.rebind]
    rcases h.names x hx with hnone | ⟨d, i, hsome, -⟩
    · rw [hnone]
      exact hnamed
    · rw [hsome]
      exact hnamed

end Stage

end World

end Rivulet.Engine
