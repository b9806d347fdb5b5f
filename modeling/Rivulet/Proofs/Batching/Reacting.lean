import Rivulet.Proofs.Batching.Refreshing
import Rivulet.Proofs.Document.Treelike

/-!
# Bringing effects up to date

An effect that observes and may be out of date is compared with what it has read, and runs once if
something has changed. Nothing else runs but computed values, nothing is scheduled, and no signal
changes.
-/

namespace Rivulet

namespace Document

variable {α : Type} {d d' : Document α}

private theorem size_clear (d : Document α) (id : DomId) :
    (d.clear id).nodes.size = d.nodes.size := by
  rw [clear, removeAll]
  generalize d.children id = l
  induction l generalizing d with
  | nil => rfl
  | cons n l ih => rw [List.foldl_cons, ih, size_remove]

private theorem size_append (d : Document α) (parent child : DomId) :
    (d.append parent child).nodes.size = d.nodes.size := by
  rw [append, insertBefore]
  simp [size_detach]

mutual

/-- Building a tree makes no place disappear. -/
theorem size_le_plant (d : Document α) (t : Markup.Tree) :
    d.nodes.size ≤ (d.plant t).2.nodes.size := by
  obtain ⟨kind, children⟩ := t
  rw [plant]
  have h := size_le_plantUnder (d.create kind).2 (d.create kind).1 children
  rw [size_create] at h
  exact Nat.le_of_succ_le h

/-- Planting trees takes no node out of the arena. -/
theorem size_le_plantUnder (d : Document α) (parent : DomId) (ts : List Markup.Tree) :
    d.nodes.size ≤ (d.plantUnder parent ts).nodes.size := by
  cases ts with
  | nil => exact Nat.le_of_eq (by rw [plantUnder])
  | cons t ts =>
    rw [plantUnder]
    refine Nat.le_trans (size_le_plant d t) ?_
    rw [← size_append (d.plant t).2 parent (d.plant t).1]
    exact size_le_plantUnder _ parent ts

end

private theorem holds_of_size_le (h : d.nodes.size ≤ d'.nodes.size) {id : DomId}
    (hid : d.holds id = true) :
    d'.holds id = true := by
  rw [holds, decide_eq_true_eq] at hid ⊢
  exact Nat.lt_of_lt_of_le hid h

end Document

namespace Engine

open State

variable {D : Setting} {name : NodeId → String} {b : Nat} {s s₁ s₂ s' s'' : State} {id : NodeId}

/-- Documents have changed, and no place has disappeared. -/
structure State.Redrawn (s s' : State) : Prop where
  /-- Nothing else changes. -/
  rest : s' = { s with documents := s'.documents }
  /-- Places are there as before. -/
  holds : ∀ d n, (s.document d).holds n = true → (s'.document d).holds n = true

private theorem State.Redrawn.refl (s : State) : s.Redrawn s := ⟨rfl, fun _ _ h => h⟩

/-- A document is changed and keeps its nodes. -/
theorem redrawn_modifyDocument (s : State) (d : DocumentId)
    {f : Document (Json → Program) → Document (Json → Program)}
    (hf : ∀ t, t.nodes.size ≤ (f t).nodes.size) : s.Redrawn (s.modifyDocument d f) := by
  refine ⟨rfl, fun d' n h => Document.holds_of_size_le ?_ h⟩
  show (s.documents[d'.index]?.getD default).nodes.size ≤
    ((s.documents.modify d.index f)[d'.index]?.getD default).nodes.size
  rw [Array.getElem?_modify]
  split
  · cases s.documents[d'.index]? with
    | none => exact Nat.le_refl _
    | some t => exact hf t
  · exact Nat.le_refl _

/-- What an effect does when it runs. -/
structure State.Performed (D : Setting) (name : NodeId → String) (b : Nat)
    (id : NodeId) (e : Effect)
    (o : Outcome) (s s' : State) : Prop where
  /-- It has run its program, and then drawn. -/
  ran : ∃ o' l s₁, s.Ran D name b (D.logs id) e.reaction.program o' l s₁ ∧ s₁.Redrawn s'
  /-- It has not failed if its failures count as errors. -/
  silent : ∀ error, o = .failure error → e.reaction.isFallible = false

variable (name) in
/-- An effect that observes runs to its end. -/
theorem gives_react (hb : s.Unrun D.rank b) (hbelow : ∀ x, s.Below D.rank b x) (hs : s.Orderly D)
    (hq : s.Quiet) {e : Effect} (he : e.reaction.Observes D s id) :
    Gives (fun κ => react κ id e) s fun o s' => s.Performed D name b id e o s' := by
  have hread : ∀ j, D.rank j < b → Readable D name j :=
    fun j _ => (refreshable_and_readable D name j).2
  have hexec {ends : Outcome → Prop} {p : Program} (hp : D.Reacts id ends p) :
      Gives (fun κ => exec κ p) s fun o s' =>
        ends o ∧ ∃ l, s.Ran D name b (D.logs id) p o l s' :=
    gives_exec hread hp hs hq hb fun x _ => hbelow x
  cases hr : e.reaction with
  | body p fallible =>
    rw [hr] at he
    have hx := Gives.callExec (hexec he)
    refine Gives.imp (x := fun κ => react κ id e) (by simpa only [react, hr] using hx) ?_
    rintro o s' ⟨hends, l, h⟩
    refine ⟨⟨o, l, s', by rw [hr]; exact h, .refl s'⟩, fun error herror => ?_⟩
    rw [hr]
    show fallible = false
    by_contra hfallible
    rw [Bool.not_eq_false] at hfallible
    obtain ⟨v, hv⟩ := hends hfallible
    rw [hv] at herror
    cases herror
  | text document node p =>
    rw [hr] at he
    simp only [react, hr]
    refine (Gives.callEval (Q := fun _ s₁ => ∃ o l, s.Ran D name b (D.logs id) p o l s₁)
      ((hexec he).imp fun o s₁ h => ⟨o, h.2⟩)).bind ?_
    rintro v s₁ ⟨o, l, h⟩
    refine .change (.ret ⟨⟨o, l, s₁, by rw [hr]; exact h, redrawn_modifyDocument _ _
      fun t => ?_⟩, ?_⟩)
    · simp [Document.setText, Document.modifyKind]
    · simp
  | attr document node key p =>
    rw [hr] at he
    obtain ⟨hholds, hp⟩ := he
    simp only [react, hr]
    refine (Gives.callEval (Q := fun _ s₁ => ∃ o l, s.Ran D name b (D.logs id) p o l s₁)
      ((hexec hp).imp fun o s₁ h => ⟨o, h.2⟩)).bind ?_
    rintro v s₁ ⟨o, l, h⟩
    have hdocuments : s₁.documents = s.documents :=
      (congrArg State.documents h.freshens.rest).trans rfl
    have hensure : Gives (fun _ => ensureNode document node) s₁ fun _ s' => s' = s₁ := by
      refine .look ?_
      rw [State.document, hdocuments]
      rw [State.document] at hholds
      simp only [hholds, if_true]
      exact .ret rfl
    refine hensure.bind fun _ s₂ hsame => ?_
    rw [hsame]
    have hset {f : Document (Json → Program) → Document (Json → Program)}
        (hf : ∀ t, (f t).nodes.size = t.nodes.size) :
        s.Performed D name b id e (.value .null) (s₁.modifyDocument document f) := by
      refine ⟨⟨o, l, s₁, by rw [hr]; exact h, redrawn_modifyDocument _ _ fun t => ?_⟩, by simp⟩
      exact Nat.le_of_eq (hf t).symm
    split
    · exact .change (.ret (hset fun t => by simp [Document.removeAttr, Document.modifyKind]))
    · exact .change (.ret (hset fun t => by simp [Document.setAttr, Document.modifyKind]))
  | insert document node p first =>
    rw [hr] at he
    obtain ⟨rfl, hp⟩ := he
    simp only [react, hr]
    refine (Gives.callEval (Q := fun _ s₁ => ∃ o l, s.Ran D name b (D.logs id) p o l s₁)
      ((hexec hp).imp fun o s₁ h => ⟨o, h.2⟩)).bind ?_
    rintro v s₁ ⟨o, l, h⟩
    refine .change (.ret ⟨⟨o, l, s₁, by rw [hr]; exact h, redrawn_modifyDocument _ _
      fun t => ?_⟩, ?_⟩)
    · exact Nat.le_trans (Nat.le_of_eq (Document.size_clear t node).symm)
        (Document.size_le_plantUnder _ _ _)
    · simp
  | region document wrapper p first =>
    rw [hr] at he
    exact he.elim

/-! ## Running -/

/-- The state in which the program of an effect starts. -/
def State.startReaction (s : State) (id : NodeId) (scope : ScopeId) : State :=
  { s with
    graph := s.graph.request id .clean
    scopes := (s.scopes.strip scope).2.enter scope
    tracking := s.tracking.enter (.effect id) }

/-- The state behind the run of an effect. -/
def State.endReaction (s : State) (id : NodeId) (scope : ScopeId) : State :=
  ((s.endRun id).modifyScopes (·.leave scope)).modifyEffect id fun e =>
    { e with runs := e.runs + 1 }

/-- A scope that owned nothing owns nothing when one is stripped. -/
theorem State.IsBare.strip {scope other : ScopeId} (h : s.IsBare scope) :
    { s with scopes := (s.scopes.strip other).2 }.IsBare scope := by
  intro sc hsc
  rw [Scopes.strip] at hsc
  split at hsc
  · exact h sc hsc
  · simp only [Scopes.modifyHoldings, Scopes.modify, Std.HashMap.getElem?_modify] at hsc
    split at hsc
    · obtain ⟨x, -, rfl⟩ := Option.map_eq_some_iff.1 hsc
      rfl
    · exact h sc hsc

/-- Stripping a scope leaves who takes errors. -/
theorem handler_strip (s : State) {scope other : ScopeId} {sc : Scopes.Scope Cleanup Handler}
    (h : s.scopes.live[scope]? = some sc) :
    ∃ sc', (s.scopes.strip other).2.live[scope]? = some sc' ∧ sc'.handler = sc.handler := by
  rw [Scopes.strip]
  split
  · exact ⟨sc, h, rfl⟩
  · simp only [Scopes.modifyHoldings, Scopes.modify, Std.HashMap.getElem?_modify]
    split
    · rename_i heq
      rw [beq_iff_eq] at heq
      rw [heq, h]
      exact ⟨_, rfl, rfl⟩
    · exact ⟨sc, h, rfl⟩

/-- A scope that owns nothing is emptied without anything being ended. -/
theorem gives_resetScope {scope : ScopeId} (h : s.IsBare scope) :
    Gives (fun κ => resetScope κ scope) s fun _ s' =>
      s' = { s with scopes := (s.scopes.strip scope).2 } := by
  refine .changeGet (f := fun s => ((s.scopes.strip scope).1,
    { s with scopes := (s.scopes.strip scope).2 })) ?_
  cases hlive : s.scopes.live[scope]? with
  | none =>
    simp only [Scopes.strip, hlive]
    exact .ret rfl
  | some sc =>
    simp only [Scopes.strip, hlive, h sc hlive]
    exact .ret rfl

/-- An effect starts to run. -/
theorem State.Orderly.startReaction (hs : s.Orderly D) {n : Graph.Node}
    (hn : s.graph.find? id = some n) (hkind : n.kind = .effect) (scope : ScopeId) :
    (s.startReaction id scope).Orderly D := by
  have hrequest := hs.request (t := s.tracking.enter (.effect id)) hn
    (fun j hj => by simp_all [Tracking.isRunning, Tracking.enter]) fun hk => by simp [hkind] at hk
  refine hrequest.move ⟨rfl, rfl, rfl, rfl, rfl, fun _ h => h, fun sc hsc => ?_, fun j sc hsc => ?_,
    fun _ _ h => h⟩ (fun _ => .same _) ?_
  · exact State.IsBare.strip (s := { s with graph := s.graph.request id .clean }) hsc
  · exact handler_strip s hsc
  · exact Graph.Maps.refl (fun _ m => .of_eq m rfl) _

/-- An effect that starts to run is no computed value. -/
theorem State.Unrun.startReaction (hb : s.Unrun D.rank b) {e : Effect}
    (he : s.cells[id]? = some (.effect e)) (scope : ScopeId) :
    (s.startReaction id scope).Unrun D.rank b := by
  intro j p v hv hrun
  have hne : j ≠ id := by
    rintro rfl
    exact absurd (hv.symm.trans he) (by simp)
  refine hb j p v hv ?_
  have htracking : (s.startReaction id scope).tracking = s.tracking.enter (.effect id) := rfl
  simpa [htracking, Tracking.Observer.node?, hne.symm] using hrun

variable (name) in
/-- The run of an effect. -/
theorem gives_runEffect (hb : s.Unrun D.rank b) (hbelow : ∀ x, s.Below D.rank b x)
    (hs : s.Orderly D) (hq : s.Quiet) {n : Graph.Node} (hn : s.graph.find? id = some n)
    (hkind : n.kind = .effect) {e : Effect} (he : s.cells[id]? = some (.effect e))
    (hactive : e.disposed = false) :
    Gives (fun κ => runCell κ id (some (.effect e))) s fun _ s' => ∃ o s₁,
      Yields (fun κ => react κ id e) (s.startReaction id e.scope) o s₁ ∧
        (s.startReaction id e.scope).Performed D name b id e o s₁ ∧
          s' = s₁.endReaction id e.scope := by
  obtain ⟨hobserves, hbare⟩ := hs.effect id e he
  have heffect : (s.modifyGraph (·.request id .clean)).effect? id = some e := by
    exact effect?_eq_some.2 he
  obtain ⟨o, s₁, hreact, h⟩ := gives_react name (hb.startReaction he e.scope)
    (s := s.startReaction id e.scope) hbelow (hs.startReaction hn hkind e.scope) hq hobserves
  refine .change (f := fun s => s.modifyGraph (·.request id .clean)) (.look ?_)
  simp only [heffect, hactive, Bool.false_eq_true, if_false]
  refine (gives_resetScope (s := s.modifyGraph (·.request id .clean)) hbare).bind fun _ s₂ hs₂ => ?_
  subst hs₂
  have hrun : Gives (fun κ => withScope e.scope (tracked id (.effect id) (react κ id e)))
      { s.modifyGraph (·.request id .clean) with scopes := (s.scopes.strip e.scope).2 }
      fun o' s' => o' = o ∧ s' = (s₁.endRun id).modifyScopes (·.leave e.scope) :=
    .withScope (.tracked ⟨o, s₁, hreact, rfl, rfl⟩)
  refine hrun.bind ?_
  rintro o' _ ⟨ho', rfl⟩
  rw [ho']
  refine .change (f := fun s => s.modifyEffect id fun e => { e with runs := e.runs + 1 }) ?_
  cases ho : o with
  | value v => exact .ret ⟨_, s₁, ho ▸ hreact, ho ▸ h, rfl⟩
  | failure error =>
    simp only [h.silent error ho, Bool.false_eq_true, if_false]
    exact .ret ⟨_, s₁, ho ▸ hreact, ho ▸ h, rfl⟩

/-- What may become of what lies behind a node when an effect is brought up to date: computed values
may keep another value, and the effect may have run once. -/
inductive State.CellReacts (id j : NodeId) : Option Cell → Option Cell → Prop where
  /-- Nothing. -/
  | same (c : Option Cell) : CellReacts id j c c
  /-- A computed value keeps a value. -/
  | computed (p : Program) (v : Option Json) (w : Json) :
      CellReacts id j (some (.computed p v)) (some (.computed p (some w)))
  /-- The effect has run. -/
  | ran (e : Effect) (h : j = id) :
      CellReacts id j (some (.effect e)) (some (.effect { e with runs := e.runs + 1 }))

/-- What bringing an effect up to date does. -/
structure State.Attended (D : Setting) (name : NodeId → String) (id : NodeId) (s s' : State) :
    Prop where
  /-- Names stand for the same. -/
  names : s'.names = s.names
  /-- Nothing is scheduled. -/
  queue : s'.queue = s.queue
  /-- Nothing is put off. -/
  deferred : s'.deferred = s.deferred
  /-- The same is in use. -/
  held : s'.held = s.held
  /-- The same computations run. -/
  tracking : s'.tracking = s.tracking
  /-- Signals and other effects stay as they are. -/
  cells : ∀ j : NodeId, CellReacts id j s.cells[j]? s'.cells[j]?
  /-- Nodes that are no computed values stay as they are, apart from the one of the effect. -/
  nodes : Graph.Maps (fun j n n' => Graph.Steady (n.kind ≠ .derived ∧ j ≠ id) n n') s.graph s'.graph
  /-- It is clean if it is there. -/
  clean : ∀ n, s'.graph.find? id = some n → n.mark = .clean
  /-- Everything is in order. -/
  orderly : s'.Orderly D
  /-- Marks and epochs still tell what they should. -/
  faithful : s.Faithful D name → s'.Faithful D name

/-- An effect is brought up to date behind computed values. -/
theorem State.Attended.after (h : s.Freshens D b s₁) (htracking : s₁.tracking = s.tracking)
    (hfaithful : s.Faithful D name → s₁.Faithful D name) (h' : s₁.Attended D name id s') :
    s.Attended D name id s' where
  names := h'.names.trans h.names
  queue := h'.queue.trans h.queue
  deferred := h'.deferred.trans h.deferred
  held := h'.held.trans h.held
  tracking := h'.tracking.trans htracking
  cells j := by
    have hcell := h'.cells j
    rcases h.cells j with heq | ⟨-, p, v, w, hold, hnew⟩
    · rwa [heq] at hcell
    · rw [hnew] at hcell
      rw [hold]
      generalize s'.cells[j]? = c at hcell
      cases hcell with
      | same => exact .computed p v w
      | computed p' v' w' => exact .computed p v w'
  nodes := by
    refine (h.nodes.imp fun j n n' hr => hr.mono (p := n.kind ≠ .derived ∧ j ≠ id)
      fun hfixed hk => absurd hk hfixed.1).trans ?_ h'.nodes
    intro j n n' n'' h1 h2
    exact h1.trans (h2.mono fun hfixed => by rwa [h1.kind])
  clean := h'.clean
  orderly := h'.orderly
  faithful hf := h'.faithful (hfaithful hf)

/-- An effect is brought up to date while a node is in use. -/
theorem State.Attended.hold {j : NodeId} (h : (s.hold (.node j)).Attended D name id s') :
    s.Attended D name id { s' with held := s'.held.erase (.node j) } where
  names := h.names
  queue := h.queue
  deferred := h.deferred
  held := by
    show s'.held.erase (.node j) = s.held
    rw [h.held, State.hold, List.erase_cons_head]
  tracking := h.tracking
  cells := h.cells
  nodes := h.nodes
  clean := h.clean
  orderly := h.orderly.same rfl rfl rfl (fun _ hc => mem_held_erase hc) fun _ => rfl
  faithful hf := (h.faithful (hf.same rfl rfl rfl rfl fun _ => rfl)).same rfl rfl rfl rfl
    fun _ => rfl

/-- No computation runs. -/
def State.Still (s : State) : Prop := ∀ id, s.tracking.isRunning id = false

/-- An effect that starts to run leaves whether the others run. -/
theorem isRunning_startReaction_of_ne {scope : ScopeId} {j : NodeId} (h : j ≠ id) :
    (s.startReaction id scope).tracking.isRunning j = s.tracking.isRunning j := by
  have htracking : (s.startReaction id scope).tracking = s.tracking.enter (.effect id) := rfl
  simp [htracking, Tracking.Observer.node?, h.symm]

private theorem isRunning_startReaction_self {scope : ScopeId} :
    (s.startReaction id scope).tracking.isRunning id = true := by
  have htracking : (s.startReaction id scope).tracking = s.tracking.enter (.effect id) := rfl
  simp [htracking, Tracking.Observer.node?]

section

variable {e : Effect} {o : Outcome} {l : List Json}
  (h : (s.startReaction id e.scope).Ran D name b (D.logs id) e.reaction.program o l s₁)
  (hdrawn : s₁.Redrawn s₂)

include h hdrawn

/-- What is as it was behind the run of an effect. -/
theorem endReaction_rest :
    (s₂.endReaction id e.scope).names = s.names ∧ (s₂.endReaction id e.scope).queue = s.queue ∧
      (s₂.endReaction id e.scope).deferred = s.deferred ∧
      (s₂.endReaction id e.scope).held = s.held ∧
      (s₂.endReaction id e.scope).tracking = s.tracking ∧
      (s₂.endReaction id e.scope).log = l.reverse ++ s.log := by
  have htracking : s₂.tracking = s₁.tracking := by rw [hdrawn.rest]
  refine ⟨?_, ?_, ?_, ?_, ?_, ?_⟩
  · show s₂.names = s.names
    rw [hdrawn.rest]
    exact h.freshens.names
  · show s₂.queue = s.queue
    rw [hdrawn.rest]
    exact h.freshens.queue
  · show s₂.deferred = s.deferred
    rw [hdrawn.rest]
    exact h.freshens.deferred
  · show s₂.held = s.held
    rw [hdrawn.rest]
    exact h.freshens.held
  · show s₂.tracking.leave.2 = s.tracking
    rw [htracking]
    exact (h.freshens.tracking.leave (t := s.tracking)).1
  · show s₂.log = l.reverse ++ s.log
    rw [hdrawn.rest]
    exact h.log

/-- What lies behind the nodes then. -/
theorem endReaction_cells (he : s.cells[id]? = some (.effect e)) :
    (s₂.endReaction id e.scope).cells[id]? = some (.effect { e with runs := e.runs + 1 }) ∧
      ∀ j : NodeId, j ≠ id → (s₂.endReaction id e.scope).cells[j]? = s₁.cells[j]? := by
  have hcells : s₂.cells = s₁.cells := by rw [hdrawn.rest]
  have he₁ : s₁.cells[id]? = some (.effect e) := h.freshens.effect_iff.2 he
  refine ⟨?_, fun j hj => ?_⟩
  · show (s₂.cells.modify id _)[id]? = _
    simp [hcells, he₁]
  · show (s₂.cells.modify id _)[j]? = _
    rw [Std.HashMap.getElem?_modify, if_neg (by simpa using hj.symm), hcells]

/-- What lies behind the nodes when an effect has run. -/
theorem endReaction_cellReacts (he : s.cells[id]? = some (.effect e)) (j : NodeId) :
    CellReacts id j s.cells[j]? (s₂.endReaction id e.scope).cells[j]? := by
  obtain ⟨hself, hothers⟩ := endReaction_cells h hdrawn he
  by_cases hj : j = id
  · subst hj
    rw [hself, he]
    exact .ran e rfl
  · rw [hothers j hj]
    rcases h.freshens.cells j with heq | ⟨-, q, v, w, hold, hnew⟩
    · rw [heq]
      exact .same _
    · rw [hnew]
      exact (show s.cells[j]? = _ from hold) ▸ .computed q v w

variable {n : Graph.Node} (hn : s.graph.find? id = some n) (hkind : n.kind = .effect)

include hn hkind

omit hdrawn in
/-- The node of the effect when its program has run. -/
theorem find?_performed : ∃ n₁, s₁.graph.find? id = some n₁ ∧ n₁.kind = .effect ∧
    n₁.mark = .clean := by
  obtain ⟨n₁, hn₁, hsteady⟩ := h.freshens.nodes.exists_new
    (Graph.find?_request_self hn .clean : (s.startReaction id e.scope).graph.find? id = _)
  refine ⟨n₁, hn₁, hsteady.kind.trans hkind, (hsteady.mark fun hk => ?_).trans rfl⟩
  simp [Graph.Node.request, hkind] at hk

/-- What has become of the nodes. -/
theorem endReaction_nodes :
    Graph.Maps (Graph.Recorded id (s₁.graph.observe s₁.tracking.leave.1)) s₁.graph
        (s₂.endReaction id e.scope).graph ∧
      Graph.Maps (fun j m m' => Graph.Steady (m.kind ≠ .derived ∧ j ≠ id) m m') s.graph
        (s₂.endReaction id e.scope).graph := by
  obtain ⟨n₁, hn₁, -, -⟩ := find?_performed h hn hkind
  have hgraph : (s₂.endReaction id e.scope).graph =
      s₁.graph.setDependencies id s₁.tracking.leave.1 := by
    show s₂.graph.setDependencies id s₂.tracking.leave.1 = _
    rw [hdrawn.rest]
  have hrecorded := Graph.maps_recorded hn₁ s₁.tracking.leave.1
  rw [hgraph]
  refine ⟨hrecorded, ?_⟩
  have htrans : ∀ (j : NodeId) (m m' m'' : Graph.Node),
      Graph.Steady (m.kind ≠ .derived ∧ j ≠ id) m m' →
        Graph.Steady (m'.kind ≠ .derived ∧ j ≠ id) m' m'' →
          Graph.Steady (m.kind ≠ .derived ∧ j ≠ id) m m'' :=
    fun j m m' m'' h1 h2 => h1.trans (h2.mono fun hfixed => by rwa [h1.kind])
  have hstart : Graph.Maps (fun j m m' => Graph.Steady (m.kind ≠ .derived ∧ j ≠ id) m m') s.graph
      (s.startReaction id e.scope).graph :=
    (Graph.maps_request s.graph id .clean).imp fun j m m' ⟨hk, hc, hd, _, hsame⟩ =>
      ⟨hk, Nat.le_of_eq hc.symm, fun hfixed => by rw [hsame hfixed.2], fun _ => hd, fun _ => hc⟩
  have hrun : Graph.Maps (fun j m m' => Graph.Steady (m.kind ≠ .derived ∧ j ≠ id) m m')
      (s.startReaction id e.scope).graph s₁.graph :=
    h.freshens.nodes.imp fun j m m' hr => hr.mono fun hfixed hk => absurd hk hfixed.1
  have hend : Graph.Maps (fun j m m' => Graph.Steady (m.kind ≠ .derived ∧ j ≠ id) m m') s₁.graph
      (s₁.graph.setDependencies id s₁.tracking.leave.1) :=
    hrecorded.imp fun j m m' hr => ⟨hr.kind, hr.le, fun _ => hr.mark,
      fun hfixed => hr.dependencies.trans (if_neg hfixed.2), fun hfixed => hr.changes hfixed.2⟩
  exact (hstart.trans htrans hrun).trans htrans hend

/-- Everything is in order behind the run of an effect. -/
theorem orderly_endReaction (he : s.cells[id]? = some (.effect e)) :
    (s₂.endReaction id e.scope).Orderly D := by
  obtain ⟨hself, hothers⟩ := endReaction_cells h hdrawn he
  obtain ⟨n₁, hn₁, hkind₁, -⟩ := find?_performed h hn hkind
  obtain ⟨hrecorded, -⟩ := endReaction_nodes h hdrawn hn hkind
  have htracking := (endReaction_rest h hdrawn).2.2.2.2.1
  have he₁ : s₁.cells[id]? = some (.effect e) := h.freshens.effect_iff.2 he
  have hdocument (d : DocumentId) (m : DomId) (hm : (s₁.document d).holds m = true) :
      ((s₂.endReaction id e.scope).document d).holds m = true := hdrawn.holds d m hm
  have hframed : s₁.Framed (s₂.endReaction id e.scope) := by
    have hlive : (s₂.endReaction id e.scope).scopes.live = s₁.scopes.live := by
      show s₂.scopes.live = _
      rw [hdrawn.rest]
    refine ⟨?_, ?_, ?_, ?_, ?_, ?_, fun sc hsc => ?_, fun j sc hsc => ⟨sc, by rw [hlive, hsc], rfl⟩,
      hdocument⟩
    · show s₂.names = _
      rw [hdrawn.rest]
    · show s₂.clients = _
      rw [hdrawn.rest]
    · show s₂.supplies = _
      rw [hdrawn.rest]
    · show s₂.deferred = _
      rw [hdrawn.rest]
    · show s₂.boundaries = _
      rw [hdrawn.rest]
    · show ∀ c, _ → _ ∈ s₂.held
      rw [hdrawn.rest]
      exact fun _ hc => hc
    · rwa [IsBare, hlive]
  refine h.freshens.orderly.move hframed (fun j => ?_) ?_
  · by_cases hj : j = id
    · subst hj
      rw [hself, he₁]
      refine .effect ?_ rfl rfl
      have hobserves := (h.freshens.orderly.effect j e he₁).1
      show e.reaction.Observes D _ j
      cases hr : e.reaction <;> rw [hr] at hobserves <;> try exact hobserves
      exact ⟨hdocument _ _ hobserves.1, hobserves.2⟩
    · rw [hothers j hj]
      exact .same _
  · refine hrecorded.imp_of_find? fun j m m' hm _ hr => ?_
    have hne (hk : m.kind = .derived) : j ≠ id := by
      rintro rfl
      rw [hn₁, Option.some.injEq] at hm
      rw [← hm, hkind₁] at hk
      cases hk
    refine ⟨hr.kind, fun hk hdirty hrun => Or.inl ⟨hr.mark ▸ hdirty, ?_⟩, fun hk seen hseen => ?_⟩
    · rw [htracking] at hrun
      rw [h.freshens.running, isRunning_startReaction_of_ne (hne hk), hrun]
    · rw [hr.dependencies, if_neg (hne hk)] at hseen
      exact Or.inl hseen

/-- What an effect has reported behind its run is what comes of the values that it has read. -/
theorem faithful_endReaction (hmark : n.mark ≠ .clean) (he : s.cells[id]? = some (.effect e))
    (hf : s.Faithful D name) : (s₂.endReaction id e.scope).Faithful D name := by
  obtain ⟨hself, hothers⟩ := endReaction_cells h hdrawn he
  obtain ⟨n₁, hn₁, hkind₁, -⟩ := find?_performed h hn hkind
  obtain ⟨hrecorded, -⟩ := endReaction_nodes h hdrawn hn hkind
  obtain ⟨hnames, -, -, -, htracking, hlog⟩ := endReaction_rest h hdrawn
  -- Nothing is said of documents.
  have hrest := hdrawn.rest
  generalize s₂.documents = documents at hrest
  subst hrest
  -- The state in which the program starts.
  have hstart : (s.startReaction id e.scope).Faithful D name := by
    refine hf.move rfl (R := fun _ _ _ => True) ?_ (fun j e he => ⟨e, he, rfl, rfl⟩) ?_
    · exact (Graph.maps_request s.graph id .clean).imp fun _ _ _ _ => trivial
    · exact hf.record.request hn hmark (fun _ hj => isRunning_startReaction_of_ne hj)
        (Or.inl isRunning_startReaction_self)
  have hforeign : (s.startReaction id e.scope).Foreign name (D.logs id) := by
    intro v hv j f hj hstill
    refine ⟨name id, fun hname => ?_, hf.signed id v hv⟩
    rw [← hf.apart id j e f he hj hname, isRunning_startReaction_self] at hstill
    cases hstill
  have hf₁ := h.faithful hstart hforeign
  obtain ⟨hrelies, hreplay⟩ := h.replay hstart hforeign rfl fun _ hr => absurd hr List.not_mem_nil
  have hleave : s₁.tracking.leave.1 = s₁.tracking.reads := by
    rw [Tracking.leave, Tracking.reads]
    cases s₁.tracking.sections <;> rfl
  have hrun₁ : s₁.tracking.isRunning id = true := by
    rw [h.freshens.running, isRunning_startReaction_self]
  have hreads : ∀ r ∈ s₁.tracking.leave.1, r ≠ id ∧ s₁.Sure r ∧
      ∀ m, s₁.graph.find? r = some m → m.kind ≠ .effect := by
    intro r hr
    rw [hleave] at hr
    have hfirm := hrelies r hr
    refine ⟨?_, hfirm.sure, hfirm.silent⟩
    rintro rfl
    exact hfirm.silent n₁ hn₁ hkind₁
  have hlookup : ({ s₁ with documents }.endReaction id e.scope).lookup =
      (s.startReaction id e.scope).lookup := by
    funext x
    rw [lookup, lookup, handle?_congr hnames]
    rfl
  have hlog₁ : ({ s₁ with documents }.endReaction id e.scope).log = s₁.log := rfl
  have hstored : ({ s₁ with documents }.endReaction id e.scope).stored = s₁.stored := by
    funext j
    by_cases hj : j = id
    · subst hj
      have he₁ : s₁.cells[j]? = some (.effect e) := h.freshens.effect_iff.2 he
      rw [State.stored, State.stored, hself, he₁]
    · rw [State.stored, State.stored, hothers j hj]
  have hothershow (j : NodeId) (hj : j ≠ id) (val : NodeId → Json) (hshows : s₁.Shows name j val) :
      ({ s₁ with documents }.endReaction id e.scope).Shows name j val := by
    rw [Shows] at hshows ⊢
    rw [hothers j hj, hlookup, hlog₁, ← h.freshens.lookup]
    exact hshows
  have hselfshow (val : NodeId → Json) (hval : ∀ r ∈ s₁.tracking.leave.1, val r = s₁.stored r) :
      ({ s₁ with documents }.endReaction id e.scope).Shows name id val := by
    rw [Shows, hself]
    rintro ⟨next, hnext⟩
    have hrun := hreplay val fun r hr => hval r (hleave ▸ hr)
    -- The report starts with its mark, so nothing that was logged before belongs to it.
    obtain ⟨l', rfl⟩ : ∃ l', l = opening (name id) :: l' := by
      rw [hnext, Program.replay] at hrun
      exact ⟨_, (congrArg Prod.snd hrun).symm⟩
    have hsigned : ∀ v ∈ l'.reverse, Signed (name id) v := fun v hv =>
      hf.signed id v (h.allowed v (List.mem_cons_of_mem _ (List.mem_reverse.1 hv)))
    rw [hlog, hlookup, hrun, List.reverse_cons, List.append_assoc]
    exact lastReport_append_opening hsigned s.log
  refine hf₁.move (hnames.trans h.freshens.names.symm) hrecorded (fun j f hj => ?_) ?_
  · by_cases hje : j = id
    · subst hje
      rw [hself, Option.some.injEq, Cell.effect.injEq] at hj
      subst hj
      exact ⟨e, h.freshens.effect_iff.2 he, rfl, rfl⟩
    · exact ⟨f, by rw [← hothers j hje, hj], rfl, rfl⟩
  · rw [hstored]
    refine hf₁.record.setDependencies hn₁ (by simp [hkind₁]) hrun₁
      (fun j hj => ?_) hreads hothershow
      hselfshow
    rw [htracking, h.freshens.running, isRunning_startReaction_of_ne hj]

/-- An effect that has run is up to date. -/
theorem attended_endReaction (hmark : n.mark ≠ .clean) (he : s.cells[id]? = some (.effect e)) :
    s.Attended D name id (s₂.endReaction id e.scope) := by
  obtain ⟨hrecorded, hnodes⟩ := endReaction_nodes h hdrawn hn hkind
  obtain ⟨hnames, hqueue, hdeferred, hheld, htracking, -⟩ := endReaction_rest h hdrawn
  refine ⟨hnames, hqueue, hdeferred, hheld, htracking, endReaction_cellReacts h hdrawn he, hnodes,
    fun n' hn' => ?_, orderly_endReaction h hdrawn hn hkind he,
    faithful_endReaction h hdrawn hn hkind hmark he⟩
  obtain ⟨n₁, hn₁, -, hclean⟩ := find?_performed h hn hkind
  obtain ⟨m, hm, hr⟩ := hrecorded.exists_old hn'
  rw [hn₁, Option.some.injEq] at hm
  subst hm
  rw [hr.mark, hclean]

end

/-- The node of an effect is called clean, because nothing that it read has changed, or because it
was disposed. -/
theorem attended_request (hs : s.Orderly D) {n : Graph.Node} (hn : s.graph.find? id = some n)
    (hkind : n.kind = .effect) (hmark : n.mark ≠ .clean) (hstill : s.tracking.isRunning id = false)
    (hsame : s.Faithful D name → n.mark ≠ .dirty ∧ ∀ seen ∈ n.dependencies,
      s.graph.epoch? seen.node = some seen.epoch ∧ s.Sure seen.node) :
    s.Attended D name id (s.modifyGraph (·.request id .clean)) := by
  refine ⟨rfl, rfl, rfl, rfl, rfl, fun _ => .same _, ?_, fun m hm => ?_, ?_, fun hf => ?_⟩
  · exact (Graph.maps_request s.graph id .clean).imp fun j m m' ⟨hk, hc, hd, _, hsame⟩ =>
      ⟨hk, Nat.le_of_eq hc.symm, fun hfixed => by rw [hsame hfixed.2], fun _ => hd, fun _ => hc⟩
  · rw [modifyGraph, Graph.find?_request_self hn, Option.some.injEq] at hm
    rw [← hm]
    rfl
  · exact hs.request hn (fun _ h => h) fun hk => by simp [hkind] at hk
  · obtain ⟨hdirty, hunchanged⟩ := hsame hf
    refine hf.move rfl (R := fun _ _ _ => True) ?_ (fun j e he => ⟨e, he, rfl, rfl⟩) ?_
    · exact (Graph.maps_request s.graph id .clean).imp fun _ _ _ _ => trivial
    · exact hf.record.request hn hmark (fun _ _ => rfl) (Or.inr ⟨hdirty, hstill, hunchanged⟩)

/-- An effect runs when it is brought up to date: it was not disposed, and something that it read
itself has changed. -/
def State.MustRun (s : State) (id : NodeId) (e : Effect) : Prop :=
  s.cells[id]? = some (.effect e) ∧ e.disposed = false ∧
    ∃ n, s.graph.find? id = some n ∧ n.mark = .dirty

/-- An effect has run: this was counted, and it has read what its reaction has read. -/
structure State.HasRun (s : State) (id : NodeId) (e : Effect) (s' : State) : Prop where
  /-- It has run once more. -/
  cell : s'.cells[id]? = some (.effect { e with runs := e.runs + 1 })
  /-- Nothing happens but its reaction. -/
  rest : ∃ o s₁, Yields (fun κ => react κ id e) ((s.hold (.node id)).startReaction
    id e.scope) o s₁ ∧
    s' = { s₁.endReaction id e.scope with held := s'.held }

/-- Running an effect that is not clean. -/
theorem gives_rerunEffect (hb : s.Unrun D.rank b) (hbelow : ∀ x, s.Below D.rank b x)
    (hs : s.Orderly D) (hq : s.Quiet) {n : Graph.Node} (hn : s.graph.find? id = some n)
    (hkind : n.kind = .effect) (hmark : n.mark ≠ .clean)
    (hstill : s.tracking.isRunning id = false) :
    Gives (fun κ => rerun κ id) s fun _ s' => s.Attended D name id s' ∧
      ∀ e, s.cells[id]? = some (.effect e) → e.disposed = false → s.HasRun id e s' := by
  obtain ⟨e, he⟩ := (hs.reacting id n hn).1 hkind
  have hcontains : s.graph.contains id = true := by rw [Graph.contains_eq, hn]; rfl
  refine .look ?_
  simp only [hstill, hcontains, he, Bool.false_eq_true, if_false, if_true]
  -- The effect is still there at the end, so its use ends without a trace.
  have hkept {s' : State} (h : (s.hold (.node id)).Attended D name id s') :
      s'.unhold (.node id) = { s' with held := s'.held.erase (.node id) } := by
    refine unhold_of_kept h.orderly.swept ?_
    have hlive : { s' with held := s'.held.erase (.node id) }.isLiveEffect id = true := by
      obtain ⟨n', hn', -⟩ :=
        h.nodes.exists_new (show (s.hold (.node id)).graph.find? id = _ from hn)
      have hcell := h.cells id
      rw [show (s.hold (.node id)).cells[id]? = some (.effect e) from he] at hcell
      rw [isLiveEffect, Graph.contains_eq, hn', Bool.and_eq_true]
      refine ⟨?_, rfl⟩
      generalize hc : s'.cells[id]? = c at hcell
      rw [Option.isSome_iff_exists]
      cases hcell <;> exact ⟨_, effect?_eq_some.2 hc⟩
    rw [keepsNode, hlive]
    simp
  have hruns : Gives (fun κ => runCell κ id (some (.effect e))) (s.hold (.node id)) fun _ s' =>
      (s.hold (.node id)).Attended D name id s' ∧ (e.disposed = false → s.HasRun id e s') := by
    by_cases hdisposed : e.disposed = true
    · -- A disposed effect is there no more in a faithful state.
      have hfree : ¬(s.hold (.node id)).Faithful D name := fun hf => by
        rw [hf.active id e hcontains he] at hdisposed
        cases hdisposed
      refine .change (f := fun s => s.modifyGraph (·.request id .clean)) (.look ?_)
      have heffect : ((s.hold (.node id)).modifyGraph (·.request id .clean)).effect?
          id = some e := by
        exact effect?_eq_some.2 he
      simp only [heffect, hdisposed, if_true]
      exact .ret ⟨attended_request (hs.hold _) hn hkind hmark hstill fun hf => absurd hf hfree,
        fun hactive => by simp at hactive⟩
    · rw [Bool.not_eq_true] at hdisposed
      refine (gives_runEffect name (s := s.hold (.node id)) hb hbelow (hs.hold _) hq hn hkind he
        hdisposed).imp ?_
      rintro _ _ ⟨o, s₂, hreact, ⟨⟨o', l, s₁, h, hdrawn⟩, -⟩, rfl⟩
      exact ⟨attended_endReaction h hdrawn hn hkind hmark he,
        fun _ => ⟨(endReaction_cells h hdrawn he).1, o, s₂, hreact, rfl⟩⟩
  refine .holding (hruns.imp fun _ s' hs' => ?_)
  obtain ⟨h, hran⟩ := hs'
  rw [hkept h]
  refine ⟨h.hold, fun f hf hactive => ?_⟩
  rw [Option.some.injEq, Cell.effect.injEq] at hf
  subst hf
  obtain ⟨o, s₁, hreact, hrest⟩ := (hran hactive).rest
  refine ⟨(hran hactive).cell, o, s₁, hreact, ?_⟩
  exact congrArg (fun r : State => { r with held := s'.held.erase (.node id) }) hrest

/-- A number above the ranks of all that has a name. -/
def State.ceiling (s : State) (rank : NodeId → Nat) : Nat :=
  ((s.names.filterMap (·.2.node?)).map rank).foldr max 0 + 1

/-- What has a name ranks below the ceiling. -/
theorem State.IsNamed.lt_ceiling (h : s.IsNamed id) (rank : NodeId → Nat) :
    rank id < s.ceiling rank := by
  have hmem : id ∈ s.names.filterMap (·.2.node?) := by
    obtain ⟨entry, hentry, hnode⟩ := List.any_eq_true.1 h
    exact List.mem_filterMap.2 ⟨entry, hentry, by simpa using hnode⟩
  have hle (l : List NodeId) (hid : id ∈ l) : rank id ≤ (l.map rank).foldr max 0 := by
    induction l with
    | nil => exact absurd hid List.not_mem_nil
    | cons j l ih =>
      rw [List.map_cons, List.foldr_cons]
      rcases List.mem_cons.1 hid with rfl | hid
      · exact Nat.le_max_left _ _
      · exact Nat.le_trans (ih hid) (Nat.le_max_right _ _)
  exact Nat.lt_succ_of_le (hle _ hmem)

/-- All names are below such a number. -/
theorem below_ceiling (s : State) (rank : NodeId → Nat) (x : String) :
    s.Below rank (s.ceiling rank) x :=
  fun _ hj => (isNamed_of_handle? hj rfl).lt_ceiling rank

/-- Where nothing runs, nothing of any rank does. -/
theorem State.Still.unrun (h : s.Still) (rank : NodeId → Nat) (b : Nat) : s.Unrun rank b := by
  intro j p v _ hrun
  rw [h j] at hrun
  cases hrun

private theorem State.Attended.refl (hs : s.Orderly D)
    (hclean : ∀ n, s.graph.find? id = some n → n.mark = .clean) : s.Attended D name id s :=
  ⟨rfl, rfl, rfl, rfl, rfl, fun _ => .same _, Graph.Maps.refl (fun _ _ => .refl _ _) _, hclean, hs,
    fun hf => hf⟩

variable (name) in
/-- An effect can be brought up to date. -/
theorem gives_refreshEffect (hstill : s.Still) (hs : s.Orderly D) (hq : s.Quiet)
    (hid : ∀ n, s.graph.find? id = some n → n.kind = .effect) :
    Gives (fun κ => refresh κ id) s fun _ s' => s.Attended D name id s' ∧
      ∀ e, s.MustRun id e → s.HasRun id e s' := by
  have hb := hstill.unrun D.rank (s.ceiling D.rank)
  have hbelow := below_ceiling s D.rank
  refine .look ?_
  cases hn : s.graph.find? id with
  | none =>
    refine .ret ⟨.refl hs fun n hn' => absurd (hn.symm.trans hn') (by simp), ?_⟩
    rintro e ⟨-, -, n, hn', -⟩
    exact absurd (hn.symm.trans hn') (by simp)
  | some n =>
    have hkind := hid n hn
    -- Only an effect that is dirty has to run.
    have hmust (h : n.mark ≠ .dirty) (e : Effect) : ¬s.MustRun id e := by
      rintro ⟨-, -, m, hm, hdirty⟩
      rw [hn, Option.some.injEq] at hm
      exact h (hm ▸ hdirty)
    simp only
    cases hmark : n.mark with
    | clean =>
      refine .ret ⟨.refl hs fun m hm => ?_, fun e he => absurd he (hmust (by simp [hmark]) e)⟩
      rw [hn, Option.some.injEq] at hm
      rw [← hm, hmark]
    | dirty =>
      exact (gives_rerunEffect hb hbelow hs hq hn hkind (by simp [hmark]) (hstill id)).imp
        fun _ s' ⟨h, hran⟩ => ⟨h, fun e he => hran e he.1 he.2.1⟩
    | maybeDirty =>
      refine (gives_dependenciesChanged
        (fun j _ => (refreshable_and_readable D name j).1) n.dependencies hs hq hb
        fun seen _ m hm hk => (hs.named _ m hm hk).lt_ceiling D.rank).bind ?_
      intro changed s₁ h
      obtain ⟨n₁, hn₁, hsteady⟩ := h.freshens.nodes.exists_new hn
      have hfixed : n.kind = .derived → s.ceiling D.rank ≤ D.rank id :=
        fun hk => by simp [hkind] at hk
      have hmark₁ : n₁.mark = .maybeDirty := (hsteady.mark hfixed).trans hmark
      have hkind₁ : n₁.kind = .effect := hsteady.kind.trans hkind
      have hstill₁ : s₁.tracking.isRunning id = false := by rw [h.tracking, hstill]
      cases changed with
      | true =>
        simp only [if_true]
        refine (gives_rerunEffect (h.freshens.unrun hb) (fun x => ?_) h.freshens.orderly
          (h.freshens.quiet hq) hn₁ hkind₁ (by simp [hmark₁]) hstill₁).imp
          fun _ s' h' => ⟨.after h.freshens h.tracking h.faithful h'.1,
            fun e he => absurd he (hmust (by simp [hmark]) e)⟩
        rw [h.freshens.below]
        exact hbelow x
      | false =>
        simp only [Bool.false_eq_true, if_false]
        refine .step ⟨.after h.freshens h.tracking h.faithful
          (attended_request h.freshens.orderly hn₁
          hkind₁ (by simp [hmark₁]) hstill₁ fun _ => ⟨by simp [hmark₁], ?_⟩),
          fun e he => absurd he (hmust (by simp [hmark]) e)⟩
        rw [hsteady.dependencies hfixed]
        exact h.same rfl

end Engine

end Rivulet
