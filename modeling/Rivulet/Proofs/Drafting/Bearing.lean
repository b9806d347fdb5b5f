import Rivulet.Proofs.Disposal.Orderly
import Rivulet.Proofs.Drafting.Templates

/-!
# What the engine does beside a drawing

While a template draws, the engine goes on: nodes and scopes come and go, names are given, reads are
recorded. As long as only programs that look are run for it, nothing waits that could be done at
once, and nothing of that touches what is drawn. A run is said to bring something about if it does
so whenever it ends normally, and goes from state to state by a relation that composes.
-/

namespace Rivulet.Engine

/-- A cleanup that runs only what looks. -/
def Cleanup.Quiet : Cleanup → Prop
  | program p => p.Quiet
  | unlisten _ _ _ => True

/-- What templates draw on. -/
structure Canvas where
  /-- The documents. -/
  documents : Array (Document (Json → Program))
  /-- The accounts of walks. -/
  reports : Array Hydration.Report
  /-- The marks of walks. -/
  flags : Array Bool
  /-- The cursors at work, innermost first. -/
  drawings : List Drawing
  /-- The boundaries. -/
  boundaries : Array Boundary

namespace State

/-- What templates draw on in a state. -/
def canvas (s : State) : Canvas :=
  ⟨s.documents, s.reports, s.flags, s.drawings, s.boundaries⟩

/-- A state whose computed values only look, and so do the cleanups of scopes from a given number
on. -/
structure Hushed (s : State) (k : Nat) : Prop where
  /-- Computed values only look. -/
  computed : ∀ {id : NodeId} {p : Program} {v : Option Json},
    s.cells[id]? = some (.computed p v) → p.Quiet
  /-- Cleanups only look. -/
  cleanups : ∀ {x : ScopeId} {sx}, k ≤ x.index → s.scopes.find? x = some sx →
    ∀ c ∈ sx.holdings.cleanups, c.Quiet

/-- A state of a run that is calm, and in which nothing waits that could be done at once. -/
structure Placid (s : State) (k : Nat) : Prop where
  /-- It is the state of a run. -/
  reached : s.Reached
  /-- What runs beside a drawing only looks. -/
  hushed : s.Hushed k
  /-- Nothing waits that could be done at once. -/
  quiet : s.Quiet
  /-- The scopes up to the given number were created. -/
  begun : k ≤ s.scopes.next

/-- A state behind another one in which as little waits, and which is as calm. -/
structure Preserves (s s' : State) : Prop where
  /-- It is reached from there. -/
  path : Path s s'
  /-- The same batches are open. -/
  batches : s'.queue.batches = s.queue.batches
  /-- The same flush is open. -/
  flushing : s'.queue.flushing = s.queue.flushing
  /-- No effect has come to wait. -/
  pending : s.queue.pending = [] → s'.queue.pending = []
  /-- The same is put off. -/
  deferred : s'.deferred = s.deferred
  /-- The same query data is at hand. -/
  supplies : s'.supplies = s.supplies
  /-- It is as calm. -/
  hushed : ∀ {k}, s.Hushed k → s'.Hushed k

/-- A state behind another one that is as good to draw in, with nothing drawn. -/
structure Idles (s s' : State) : Prop extends s.Preserves s' where
  /-- The same is drawn. -/
  canvas : s'.canvas = s.canvas

/-- A state in which no query data of a server render is at hand. -/
def OnClient (s : State) : Prop := ∀ pass, s.supply? ≠ some (.server pass)

variable {s s' s'' : State} {k : Nat}

/-- There is no new computed value, and no new cleanup. -/
theorem Hushed.less (h : s.Hushed k)
    (hcells : ∀ {id : NodeId} {p v}, s'.cells[id]? = some (.computed p v) →
      ∃ w, s.cells[id]? = some (.computed p w))
    (hscopes : ∀ {x sx}, s'.scopes.find? x = some sx → ∀ c ∈ sx.holdings.cleanups,
      ∃ sx', s.scopes.find? x = some sx' ∧ c ∈ sx'.holdings.cleanups) : s'.Hushed k where
  computed hcell := by
    obtain ⟨w, hw⟩ := hcells hcell
    exact h.computed hw
  cleanups hk hx c hc := by
    obtain ⟨sx', hx', hc'⟩ := hscopes hx c hc
    exact h.cleanups hk hx' c hc'

/-- Where other query data may be at hand as well, none of it is of a server render. -/
theorem OnClient.or {supply : Option Supply} (hs : s.OnClient)
    (hsupply : ∀ pass, supply ≠ some (.server pass)) (h : s'.supply? = supply.or s.supply?) :
    s'.OnClient := by
  cases supply with
  | none => exact fun pass => h ▸ hs pass
  | some supply => exact fun pass => h ▸ hsupply pass

namespace Preserves

theorem refl (s : State) : s.Preserves s := ⟨.refl, rfl, rfl, id, rfl, rfl, id⟩

theorem trans (h : s.Preserves s') (h' : s'.Preserves s'') : s.Preserves s'' where
  path := h.path.trans h'.path
  batches := h'.batches.trans h.batches
  flushing := h'.flushing.trans h.flushing
  pending hs := h'.pending (h.pending hs)
  deferred := h'.deferred.trans h.deferred
  supplies := h'.supplies.trans h.supplies
  hushed hs := h'.hushed (h.hushed hs)

/-- Where nothing of a server render was at hand, nothing is. -/
theorem onClient (h : s.Preserves s') (hs : s.OnClient) : s'.OnClient := by
  rw [OnClient, supply?, h.supplies]
  exact hs

/-- A quiet state stays quiet. -/
theorem quiet (h : s.Preserves s') (hs : s.Quiet) : s'.Quiet := by
  intro hflush
  rw [Queue.canFlush, h.batches, h.flushing] at hflush
  obtain ⟨hpending, hdeferred⟩ := hs hflush
  exact ⟨h.pending hpending, h.deferred.trans hdeferred⟩

private theorem placid (h : s.Preserves s') (hs : s.Placid k) : s'.Placid k :=
  ⟨hs.reached.path h.path, h.hushed hs.hushed, h.quiet hs.quiet,
    Nat.le_trans hs.begun h.path.before.scopes.next⟩

/-- A step that changes neither the queue nor the scopes nor what lies behind nodes. -/
theorem of_same (hpath : Path s s') (hqueue : s'.queue = s.queue)
    (hdeferred : s'.deferred = s.deferred) (hsupplies : s'.supplies = s.supplies)
    (hcells : s'.cells = s.cells) (hscopes : s'.scopes.live = s.scopes.live) : s.Preserves s' where
  path := hpath
  batches := by rw [hqueue]
  flushing := by rw [hqueue]
  pending hs := by rw [hqueue, hs]
  deferred := hdeferred
  supplies := hsupplies
  hushed h := h.less (fun hcell => ⟨_, hcells ▸ hcell⟩) fun hx c hc =>
    ⟨_, by rwa [Scopes.find?, hscopes] at hx, hc⟩

end Preserves

namespace Idles

theorem refl (s : State) : s.Idles s := ⟨.refl s, rfl⟩

theorem trans (h : s.Idles s') (h' : s'.Idles s'') : s.Idles s'' :=
  ⟨h.toPreserves.trans h'.toPreserves, h'.canvas.trans h.canvas⟩

/-- A step that changes neither the queue nor the scopes nor what lies behind nodes, nor what is
drawn. -/
theorem of_same (hpath : Path s s') (hqueue : s'.queue = s.queue)
    (hdeferred : s'.deferred = s.deferred) (hsupplies : s'.supplies = s.supplies)
    (hcells : s'.cells = s.cells) (hscopes : s'.scopes.live = s.scopes.live)
    (hcanvas : s'.canvas = s.canvas) : s.Idles s' :=
  ⟨.of_same hpath hqueue hdeferred hsupplies hcells hscopes, hcanvas⟩

/-- Doing the same for all of a list. -/
theorem foldl {β : Type} {f : State → β → State} (h : ∀ s b, Idles s (f s b)) (l : List β)
    (s : State) : s.Idles (l.foldl f s) := by
  induction l generalizing s with
  | nil => exact .refl s
  | cons b l ih => exact (h s b).trans (ih _)

end Idles

/-- A change outside the core. -/
theorem preserves_aside (hs : s.SameCore s') (hdeferred : s'.deferred = s.deferred)
    (hsupplies : s'.supplies = s.supplies) : s.Preserves s' :=
  .of_same (Leads.aside hs).path hs.queue hdeferred hsupplies hs.cells (by rw [hs.scopes])

/-- A change outside the core and what is drawn. -/
theorem idles_aside (hs : s.SameCore s') (hdeferred : s'.deferred = s.deferred)
    (hsupplies : s'.supplies = s.supplies) (hcanvas : s'.canvas = s.canvas) : s.Idles s' :=
  ⟨preserves_aside hs hdeferred hsupplies, hcanvas⟩

/-- Recording a read. -/
theorem idles_record {id : NodeId} (h : MayBeRead s.kinds id) :
    s.Idles (s.modifyTracking (·.record id)) :=
  .of_same (.single (.inl (.record id h))) rfl rfl rfl rfl rfl rfl

/-- Opening a section. -/
theorem idles_enter (s : State) (o : Tracking.Observer) :
    s.Idles (s.modifyTracking (·.enter o)) :=
  .of_same (.single (.inr (.openSection o))) rfl rfl rfl rfl rfl rfl

/-- Closing a section. -/
theorem idles_leave (s : State) : s.Idles (s.modifyTracking (·.leave.2)) :=
  .of_same (.single (.inr .dropSection)) rfl rfl rfl rfl rfl rfl

/-- The end of the run of a node. -/
theorem idles_endRun {id : NodeId} (h : MayRead s.kinds id) : s.Idles (s.endRun id) :=
  .of_same (.single (.inr (.endRun id h))) rfl rfl rfl rfl rfl rfl

/-- Trusting a node. -/
theorem idles_trust (s : State) (id : NodeId) : s.Idles (s.modifyGraph (·.request id .clean)) :=
  .of_same (.single (.inl (.trust id))) rfl rfl rfl rfl rfl rfl

/-- Entering a scope. -/
theorem idles_enterScope (s : State) (id : ScopeId) : s.Idles (s.modifyScopes (·.enter id)) :=
  .of_same (.single (.inl (.enterScope id))) rfl rfl rfl rfl rfl rfl

/-- Leaving a scope. -/
theorem idles_leaveScope (s : State) (id : ScopeId) : s.Idles (s.modifyScopes (·.leave id)) :=
  .of_same (.single (.inl (.leaveScope id))) rfl rfl rfl rfl rfl rfl

/-- A value is put behind a node with a program that only looks. -/
theorem hushed_setCell {id : NodeId} {p : Program} {v : Option Json} (hp : p.Quiet)
    (h : s.Hushed k) : (s.setCell id (.computed p v)).Hushed k where
  computed {j q w} hj := by
    rw [setCell, Std.HashMap.getElem?_insert] at hj
    split at hj
    · cases hj
      exact hp
    · exact h.computed hj
  cleanups := h.cleanups

/-- Keeping the value of a computation. -/
theorem idles_keepValue (s : State) (id : NodeId) (v : Json) : s.Idles (s.keepValue id v) := by
  have hpath : Path s (s.keepValue id v) := .single (.inl (.keep id v))
  rw [keepValue] at hpath ⊢
  split at hpath
  · rename_i p old hcell
    split at hpath
    · rename_i hcurrent
      rw [if_pos hcurrent]
      exact .refl s
    · rename_i hcurrent
      rw [if_neg hcurrent]
      refine ⟨⟨hpath, rfl, rfl, fun hs => hs, rfl, rfl, fun h => ?_⟩, rfl⟩
      exact ⟨(hushed_setCell (h.computed hcell) h).computed, h.cleanups⟩
  · exact .refl s

/-- Computing a value by a program that only looks. -/
theorem idles_compute {id : NodeId} {p : Program} (hp : p.Quiet)
    (hid : s.kinds[id.index]? = some .derived) (v : Json) :
    s.Idles (s.setCell id (.computed p (some v))) where
  path := .single (.inl (.compute id p v hid))
  batches := rfl
  flushing := rfl
  pending hs := hs
  deferred := rfl
  supplies := rfl
  hushed := hushed_setCell hp
  canvas := rfl

/-- Noting something about an effect that keeps its scope. -/
theorem idles_modifyEffect (s : State) (id : NodeId) {f : Effect → Effect}
    (h : ∀ e, (f e).scope = e.scope ∧ (e.disposed = true → (f e).disposed = true)) :
    s.Idles (s.modifyEffect id f) where
  path := .single (.inl (.effect id f h))
  batches := rfl
  flushing := rfl
  pending hs := hs
  deferred := rfl
  supplies := rfl
  hushed hcalm := by
    refine hcalm.less (fun {j p v} hj => ⟨v, ?_⟩) fun hx c hc => ⟨_, hx, hc⟩
    rw [modifyEffect, Std.HashMap.getElem?_modify] at hj
    split at hj
    · rename_i hid
      obtain rfl := eq_of_beq hid
      obtain ⟨c, hc, hcell⟩ := Option.map_eq_some_iff.1 hj
      cases c <;> simp_all
    · exact hj
  canvas := rfl

/-- Detaching an effect. -/
theorem idles_detach (s : State) (id : NodeId) : s.Idles (s.detach id) where
  path := .single (.inl (.detach id))
  batches := rfl
  flushing := rfl
  pending hs := by simp [detach, Queue.remove, hs]
  deferred := rfl
  supplies := rfl
  hushed h := h.less (fun hcell => ⟨_, hcell⟩) fun hx c hc => ⟨_, hx, hc⟩
  canvas := rfl

/-! ## Letting go -/

/-- Dropping what lies behind a node. -/
theorem idles_dropNode (s : State) (id : NodeId) : s.Idles (s.dropNode id) := by
  have hpath : Path s (s.dropNode id) := .single (.inl (.drop id))
  rw [dropNode] at hpath ⊢
  split at hpath
  · rename_i hkept
    rw [if_pos hkept]
    exact .refl s
  · rename_i hkept
    rw [if_neg hkept]
    refine ⟨⟨hpath, rfl, rfl, (idles_detach s id).pending, rfl, rfl, fun h => ?_⟩, rfl⟩
    refine h.less (fun {j p v} hj => ⟨v, ?_⟩) fun hx c hc => ⟨_, hx, hc⟩
    rw [Std.HashMap.getElem?_erase] at hj
    split at hj
    · simp at hj
    · exact hj

/-- Dropping query data. -/
theorem idles_dropClient (s : State) (id : ClientId) : s.Idles (s.dropClient id) := by
  rw [dropClient]
  split
  · exact .refl s
  · split
    · exact .refl s
    · have hgone : s.Idles { s with clients := s.clients.erase id } := by
        refine .of_same (.single (.inl (.clients _ fun j c hc n hn => .inl ⟨c, ?_, hn⟩)))
          rfl rfl rfl rfl rfl rfl
        rw [Std.HashMap.getElem?_erase] at hc
        split at hc
        · simp at hc
        · exact hc
      exact hgone.trans (.foldl idles_dropNode _ _)

/-- Dropping the query data that nothing refers to. -/
theorem idles_sweep (s : State) : s.Idles s.sweep := by
  rw [sweep]
  split
  · exact .refl s
  · exact .foldl idles_dropClient _ s

/-- Releasing a node. -/
theorem idles_releaseNode (s : State) (id : NodeId) : s.Idles (s.releaseNode id) := by
  rw [releaseNode]
  split
  · exact idles_dropNode s id
  · exact (idles_dropNode s id).trans (idles_sweep _)

private theorem idles_releaseHandle (s : State) (h : Handle) : s.Idles (s.releaseHandle h) := by
  rw [releaseHandle]
  split
  · exact idles_releaseNode s _
  · exact idles_dropClient s _
  · exact .refl s

/-- Giving something a name. -/
theorem idles_bindName {h : Handle} (suits : h.Suits s.kinds) (name : Option String) :
    s.Idles (s.bindName name h) := by
  cases name with
  | none => exact idles_releaseHandle s h
  | some name =>
    have hnamed : s.Idles (s.named name h) :=
      .of_same (.single (.inl (.name name h suits))) rfl rfl rfl rfl rfl rfl
    rw [bindName, rebind]
    split
    · exact hnamed
    · exact hnamed.trans (idles_releaseHandle _ _)

/-- Taking something in use. -/
theorem idles_hold (s : State) (h : Hold) : s.Idles (s.hold h) :=
  idles_aside ⟨rfl, rfl, rfl, rfl, rfl, rfl, rfl, rfl⟩ rfl rfl rfl

/-- Letting go of what was in use. -/
theorem idles_unhold (s : State) (h : Hold) : s.Idles (s.unhold h) := by
  have hless : s.Idles { s with held := s.held.erase h } :=
    idles_aside ⟨rfl, rfl, rfl, rfl, rfl, rfl, rfl, rfl⟩ rfl rfl rfl
  cases h with
  | node id => exact hless.trans (idles_releaseNode _ id)
  | client id => exact hless.trans (idles_dropClient _ id)

/-- Query data is taken into use. -/
theorem path_enterSupply (s : State) (supply : Supply) :
    Path s { s with supplies := supply :: s.supplies } :=
  .single (.inl (.aside ⟨rfl, rfl, rfl, rfl, rfl, rfl, rfl, rfl⟩))

/-- Query data is taken out of use. -/
theorem path_leaveSupply (s : State) : Path s s.leaveSupply := by
  have hless : Path s { s with supplies := s.supplies.tail } :=
    .single (.inl (.aside ⟨rfl, rfl, rfl, rfl, rfl, rfl, rfl, rfl⟩))
  exact hless.trans (idles_sweep _).path

/-- The end of a supply changes nothing that is drawn. -/
theorem canvas_leaveSupply (s : State) : s.leaveSupply.canvas = s.canvas :=
  (idles_sweep _).canvas

/-- What goes on with some query data at hand goes on when it is taken out of use again. -/
theorem Preserves.supplied {supply : Supply}
    (h : ({ s with supplies := supply :: s.supplies } : State).Preserves s') :
    s.Preserves s'.leaveSupply where
  path := (path_enterSupply s supply).trans (h.path.trans (path_leaveSupply s'))
  batches := (idles_sweep _).batches.trans h.batches
  flushing := (idles_sweep _).flushing.trans h.flushing
  pending hs := (idles_sweep _).pending (h.pending hs)
  deferred := (idles_sweep _).deferred.trans h.deferred
  supplies := (idles_sweep _).supplies.trans (congrArg List.tail h.supplies)
  hushed hs :=
    have hhushed := h.hushed ⟨hs.computed, hs.cleanups⟩
    (idles_sweep _).hushed ⟨hhushed.computed, hhushed.cleanups⟩

/-- A new scope has no cleanups. -/
theorem idles_withScope (s : State) (parent : Option ScopeId) : s.Idles (s.withScope parent) where
  path := .single (.inl (.newScope parent))
  batches := rfl
  flushing := rfl
  pending hs := hs
  deferred := rfl
  supplies := rfl
  hushed h := by
    refine h.less (fun hcell => ⟨_, hcell⟩) fun {x sx} hx c hc => ?_
    rw [withScope, Scopes.find?_create] at hx
    split at hx
    · cases hx
      simp at hc
    · split at hx
      · obtain ⟨sp, hsp, rfl⟩ := Option.map_eq_some_iff.1 hx
        exact ⟨sp, hsp, hc⟩
      · exact ⟨sx, hx, hc⟩
  canvas := rfl

/-- A scope changes that keeps its cleanups. -/
theorem hushed_modifyScope {id : ScopeId}
    {f : Scopes.Scope Cleanup Handler → Scopes.Scope Cleanup Handler}
    (hf : ∀ sc, (f sc).holdings.cleanups = sc.holdings.cleanups) (h : s.Hushed k) :
    (s.modifyScopes (·.modify id f)).Hushed k := by
  refine h.less (fun hcell => ⟨_, hcell⟩) fun {x sx} hx c hc => ?_
  rw [modifyScopes, Scopes.find?_modify] at hx
  split at hx
  · obtain ⟨sp, hsp, rfl⟩ := Option.map_eq_some_iff.1 hx
    exact ⟨sp, hsp, hf sp ▸ hc⟩
  · exact ⟨sx, hx, hc⟩

private theorem hushed_adopted (id : NodeId) (h : s.Hushed k) : (s.adopted id).Hushed k := by
  rw [adopted]
  split
  · exact hushed_modifyScope (fun _ => rfl) h
  · exact h

/-- Setting who takes the errors of a scope. -/
theorem idles_setHandler (s : State) (id : ScopeId) (h : Handler) :
    s.Idles (s.modifyScopes (·.setHandler id h)) where
  path := .single (.inl (.handler id h))
  batches := rfl
  flushing := rfl
  pending hs := hs
  deferred := rfl
  supplies := rfl
  hushed := hushed_modifyScope fun _ => rfl
  canvas := rfl

/-- A new node that is no computed value, or one that only looks. -/
theorem hushed_withNode {kind : Graph.Kind} {c : Cell} (hc : ∀ {p v}, c = .computed p v → p.Quiet)
    (h : s.Hushed k) : (s.withNode kind c).Hushed k where
  computed {j p v} hj := by
    rw [withNode, Std.HashMap.getElem?_insert] at hj
    split at hj
    · exact hc (Option.some.inj hj)
    · exact h.computed hj
  cleanups := h.cleanups

/-- Creating a signal or a query. -/
theorem idles_withSource (s : State) {c : Cell} (hc : c.kind = .source) :
    s.Idles (s.withNode .source c) where
  path := .single (.inl (.newSource c hc))
  batches := rfl
  flushing := rfl
  pending hs := hs
  deferred := rfl
  supplies := rfl
  hushed := hushed_withNode fun {p v} hp => by
    subst hp
    cases hc
  canvas := rfl

/-- What is drawn stays the same, and so does what waits, where only a scope comes to own a node. -/
theorem idles_adopted {u : State} {id : NodeId} (hpath : Path s (u.adopted id))
    (hqueue : u.queue = s.queue) (hdeferred : u.deferred = s.deferred)
    (hsupplies : u.supplies = s.supplies) (hhushed : ∀ {k}, s.Hushed k → u.Hushed k)
    (hcanvas : u.canvas = s.canvas) :
    s.Idles (u.adopted id) := by
  have hadopted {k : Nat} (h : s.Hushed k) := hushed_adopted id (hhushed h)
  obtain ⟨scopes, heq⟩ := adopted_eq u id
  rw [heq] at hpath hadopted ⊢
  exact ⟨⟨hpath, by rw [hqueue], by rw [hqueue], fun hs => by rw [hqueue, hs], hdeferred,
    hsupplies, hadopted⟩, hcanvas⟩

/-- Creating a computed value that only looks. -/
theorem idles_withComputed (s : State) {p : Program} (hp : p.Quiet) :
    s.Idles (s.withComputed p) := by
  refine idles_adopted (.single (.inl (.newComputed p))) rfl rfl rfl (fun h => ?_)
    rfl
  refine hushed_withNode (fun {q v} hq => ?_) h
  cases hq
  exact hp

/-- Creating an effect that does not run yet. -/
theorem idles_withReaction (s : State) (reaction : Reaction) (supply : Option Supply) :
    s.Idles (s.withReaction reaction supply) := by
  refine idles_adopted (.single (.inl (.newEffect reaction supply))) rfl rfl rfl (fun h => ?_)
    rfl
  refine hushed_withNode (fun {q v} hq => ?_) ((idles_withScope s _).hushed h)
  cases hq

/-- A node like a signal that was just created gets the value of a query, which nobody reads yet. -/
theorem idles_resolve {id : NodeId} (hkind : s.kinds[id.index]? = some .source)
    (hnew : s.graph.find? id = some (.new .source)) (v : Json) :
    s.Idles ((s.setCell id (.query (some v))).markChanged id) := by
  have hnobody : (s.graph.markChanged id).2 = [] := by
    rw [Graph.markChanged, hnew]
    simp [Graph.Node.new, Graph.walk]
  have hqueue : ((s.setCell id (.query (some v))).markChanged id).queue = s.queue := by
    show s.queue.scheduleAll (s.graph.markChanged id).2 = s.queue
    rw [hnobody]
    rfl
  have hresolve : Change s (s.setCell id (.query (some v))) := .resolve id v hkind
  refine ⟨⟨.tail (.single (.inl hresolve)) (.inr (.notify id)), by rw [hqueue], by rw [hqueue],
    fun hs => by rw [hqueue, hs], rfl, rfl, fun h => ?_⟩, rfl⟩
  refine h.less (fun {j p w} hj => ⟨w, ?_⟩) fun hx c hc => ⟨_, hx, hc⟩
  change (s.cells.insert id (.query (some v)))[j]? = _ at hj
  rw [Std.HashMap.getElem?_insert] at hj
  split at hj
  · cases hj
  · exact hj

/-- A node like a signal may come to wait for a fetch. -/
theorem idles_modifyClient {id : ClientId} {f : Client → Client}
    (h : ∀ c, s.clients[id]? = some c → ∀ n ∈ (f c).waiting,
      n ∈ c.waiting ∨ s.kinds[n.index]? = some .source) : s.Idles (s.modifyClient id f) :=
  .of_same (leads_modifyClient h).path rfl rfl rfl rfl rfl rfl

/-- A cleanup that only looks. -/
theorem idles_addCleanup {c : Cleanup} (hc : c.Quiet) {scopes : Scopes Cleanup Handler}
    (h : s.scopes.addCleanup? c = some scopes) : s.Idles { s with scopes } where
  path := .single (.inl (.cleanup c h))
  batches := rfl
  flushing := rfl
  pending hs := hs
  deferred := rfl
  supplies := rfl
  hushed hs := by
    obtain ⟨id, rfl⟩ := Scopes.addCleanup?_eq h
    refine ⟨hs.computed, fun {x sx} hk hx d hd => ?_⟩
    rw [Scopes.find?_modifyHoldings] at hx
    split at hx
    · obtain ⟨sp, hsp, rfl⟩ := Option.map_eq_some_iff.1 hx
      rcases List.mem_append.1 hd with hd | hd
      · exact hs.cleanups hk hsp d hd
      · exact List.mem_singleton.1 hd ▸ hc
    · exact hs.cleanups hk hx d hd
  canvas := rfl

end State

/-- A way from state to state that composes and keeps what a drawing relies on. -/
class Bearing (R : State → State → Prop) : Prop where
  /-- The engine may go on beside a drawing. -/
  idles : ∀ {s s'}, s.Idles s' → R s s'
  /-- It composes. -/
  trans : ∀ {s s' s''}, R s s' → R s' s'' → R s s''
  /-- It keeps what a drawing relies on. -/
  preserves : ∀ {s s'}, R s s' → s.Preserves s'

instance : Bearing State.Preserves := ⟨State.Idles.toPreserves, State.Preserves.trans, id⟩

instance : Bearing State.Idles := ⟨id, State.Idles.trans, State.Idles.toPreserves⟩

/-- From a placid state a run goes on in some way and brings something about, if it ends
normally. -/
def Brings {α : Type} (R : State → State → Prop) (k : Nat) (x : Run α) (s : State)
    (Q : α → State → Prop) : Prop :=
  s.Placid k → ∀ a s', x s = .ok a s' → R s s' ∧ Q a s'

namespace Brings

variable {α β : Type} {R R' : State → State → Prop} {k : Nat} {s : State}
  {P P' : α → State → Prop} {Q : β → State → Prop}

/-- A run brings about what follows from what it brings about, and goes on in every weaker way. -/
theorem mono {x : Run α} (h : Brings R k x s P) (hR : ∀ {s'}, R s s' → R' s s')
    (hP : ∀ a s', R s s' → P a s' → P' a s') : Brings R' k x s P' := fun hs a s' hx =>
  have hpost := h hs a s' hx
  ⟨hR hpost.1, hP a s' hpost.1 hpost.2⟩

/-- A run brings about what follows from what it brings about. -/
theorem imp {x : Run α} (h : Brings R k x s P) (hP : ∀ a s', R s s' → P a s' → P' a s') :
    Brings R k x s P' :=
  h.mono id hP

/-- A run that fails brings about anything. -/
theorem raise (e : Interrupt) : Brings R k (throw e : Run α) s P := fun _ _ _ hx => by cases hx

/-- A change of the state that gives a result. -/
theorem stepGet {f : State → α × State} (h : s.Placid k → R s (f s).2)
    (hP : s.Placid k → P (f s).1 (f s).2) : Brings R k (modifyGet f) s P := fun hs _ _ hx => by
  cases hx
  exact ⟨h hs, hP hs⟩

/-- A look at a placid state. -/
theorem look {f : State → Run β} (h : s.Placid k → Brings R k (f s) s Q) :
    Brings R k (get >>= f) s Q := fun hs => h hs hs

/-- A change of the state. -/
theorem step {f : State → State} (h : s.Placid k → R s (f s)) :
    Brings R k (modify f) s fun _ s' => s' = f s :=
  stepGet h fun _ => rfl

/-- A run behind which something is restored if it fails. -/
theorem onInterrupt {restore : State → State} {x : Run α} (h : Brings R k x s P) :
    Brings R k (Engine.onInterrupt restore x) s P := by
  intro hs a s'' hrun
  rw [Engine.onInterrupt] at hrun
  split at hrun
  · rename_i b s' hx
    cases hrun
    exact h hs _ _ hx
  · cases hrun

/-- A run in one of two cases. -/
theorem ite {c : Prop} [Decidable c] {x y : Run α} (h : c → Brings R k x s P)
    (h' : ¬ c → Brings R k y s P) : Brings R k (if c then x else y) s P := by
  split
  · exact h ‹_›
  · exact h' ‹_›

variable [Bearing R]

/-- A run that only gives a result. -/
theorem ret {a : α} (h : P a s) : Brings R k (pure a) s P := fun _ _ _ hx => by
  cases hx
  exact ⟨Bearing.idles (.refl s), h⟩

/-- Two runs one after the other. -/
theorem bind {x : Run α} {f : α → Run β} (hx : Brings R k x s P)
    (hf : ∀ a s', R s s' → s'.Placid k → P a s' → Brings R k (f a) s' Q) :
    Brings R k (x >>= f) s Q := by
  intro hs b s'' hrun
  obtain ⟨a, s', hfirst, hrest⟩ := bind_ok_cases hrun
  obtain ⟨hR, hP⟩ := hx hs a s' hfirst
  have hs' := (Bearing.preserves hR).placid hs
  obtain ⟨hR', hQ⟩ := hf a s' hR hs' hP hs' b s'' hrest
  exact ⟨Bearing.trans hR hR', hQ⟩

/-- A change of the state in front of a run. -/
theorem change {f : State → State} {y : Unit → Run β} (h : s.Placid k → R s (f s))
    (hy : (f s).Placid k → Brings R k (y ()) (f s) Q) : Brings R k (modify f >>= y) s Q :=
  bind (stepGet (P := fun _ s' => s' = f s) h fun _ => rfl) fun _ _ _ hs' heq => by
    subst heq
    exact hy hs'

/-- A run behind which something is restored, however it ends. -/
theorem guarding {restore : State → State} {x : Run α} (h : Brings R k x s P)
    (hr : ∀ s' : State, R s' (restore s'))
    (hP : ∀ a s', R s s' → P a s' → P' a (restore s')) :
    Brings R k (Engine.guarding restore x) s P' := by
  intro hs a s'' hrun
  rw [Engine.guarding] at hrun
  split at hrun
  · rename_i b s' hx
    cases hrun
    obtain ⟨hR, hPa⟩ := h hs _ s' hx
    exact ⟨Bearing.trans hR (hr s'), hP _ s' hR hPa⟩
  · cases hrun

end Brings

end Rivulet.Engine
