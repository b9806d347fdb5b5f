import Rivulet.Proofs.Batching.Observing
import Rivulet.Proofs.Graph.Faithful

/-!
# What reading changes

Reading brings computed values below some rank up to date and records what was read. It changes
neither signals nor effects, nor computed values that are up to date already.
-/

namespace Rivulet

namespace Tracking

/-- The innermost section has read more, and only nodes of a certain kind; the others are the
same. -/
def Extends (R : NodeId → Prop) (t t' : Tracking) : Prop :=
  match t.sections with
  | [] => t'.sections = []
  | sec :: rest => ∃ reads, t'.sections = ⟨sec.observer, reads⟩ :: rest ∧ sec.reads ⊆ reads ∧
      ∀ r ∈ reads, r ∈ sec.reads ∨ R r

namespace Extends

variable {R R' : NodeId → Prop} {t t' t'' : Tracking}

theorem refl (R : NodeId → Prop) (t : Tracking) : t.Extends R t := by
  rw [Extends]
  split
  · assumption
  · rename_i sec rest h
    exact ⟨sec.reads, h, List.Subset.refl _, fun r hr => Or.inl hr⟩

theorem trans (h : t.Extends R t') (h' : t'.Extends R t'') : t.Extends R t'' := by
  rw [Extends] at h ⊢
  split
  · rename_i heq
    rw [heq] at h
    rwa [Extends, h] at h'
  · rename_i sec rest heq
    rw [heq] at h
    obtain ⟨reads, hsections, hsub, hreads⟩ := h
    rw [Extends, hsections] at h'
    obtain ⟨reads', hsections', hsub', hreads'⟩ := h'
    refine ⟨reads', hsections', List.Subset.trans hsub hsub', fun r hr => ?_⟩
    exact (hreads' r hr).elim (fun hr => hreads r hr) Or.inr

/-- What has been read may be described more weakly. -/
theorem mono (h : t.Extends R t') (hR : ∀ r, R r → R' r) : t.Extends R' t' := by
  rw [Extends] at h ⊢
  split
  · rename_i heq
    rwa [heq] at h
  · rename_i sec rest heq
    rw [heq] at h
    obtain ⟨reads, hsections, hsub, hreads⟩ := h
    exact ⟨reads, hsections, hsub, fun r hr => (hreads r hr).imp_right (hR r)⟩

/-- Recording a read of the right kind. -/
theorem record {id : NodeId} (h : R id) (t : Tracking) : t.Extends R (t.record id) := by
  rw [Extends, Tracking.record]
  cases hs : t.sections with
  | nil => exact hs
  | cons sec rest =>
    simp only
    split
    · refine ⟨sec.reads ++ [id], rfl, List.subset_append_left _ _, fun r hr => ?_⟩
      rcases List.mem_append.1 hr with hr | hr
      · exact Or.inl hr
      · rw [List.mem_singleton] at hr
        exact Or.inr (hr ▸ h)
    · exact ⟨sec.reads, hs, List.Subset.refl _, fun r hr => Or.inl hr⟩

/-- A section that was opened is closed with nothing else changed. -/
theorem leave {o : Observer} (h : (t.enter o).Extends R t') :
    t'.leave.2 = t ∧ ∃ reads, t'.leave.1 = reads ∧ ∀ r ∈ reads, R r := by
  obtain ⟨reads, hsections, -, hreads⟩ := h
  rw [Tracking.leave, hsections]
  exact ⟨rfl, reads, rfl, fun r hr => (hreads r hr).resolve_left List.not_mem_nil⟩

/-- The same nodes run. -/
theorem isRunning (h : t.Extends R t') (id : NodeId) : t'.isRunning id = t.isRunning id := by
  rw [Extends] at h
  rw [Tracking.isRunning, Tracking.isRunning]
  split at h
  · rename_i heq
    rw [h, heq]
  · rename_i sec rest heq
    obtain ⟨reads, hsections, -⟩ := h
    rw [hsections, heq]
    rfl

/-- A section is open if one was. -/
theorem isActive (h : t.Extends R t') : t'.isActive = t.isActive := by
  rw [Extends] at h
  rw [Tracking.isActive, Tracking.isActive, observer?, observer?]
  split at h
  · rename_i heq
    rw [h, heq]
  · rename_i sec rest heq
    obtain ⟨reads, hsections, -⟩ := h
    rw [hsections, heq]
    rfl

/-- All that had been read is still there, and what is new is of the right kind. -/
theorem reads (h : t.Extends R t') :
    t.reads ⊆ t'.reads ∧ ∀ r ∈ t'.reads, r ∈ t.reads ∨ R r := by
  rw [Extends] at h
  rw [Tracking.reads, Tracking.reads]
  split at h
  · rename_i heq
    rw [h, heq]
    exact ⟨List.Subset.refl _, fun r hr => Or.inl hr⟩
  · rename_i sec rest heq
    obtain ⟨reads, hsections, hsub, hreads⟩ := h
    rw [hsections, heq]
    exact ⟨hsub, hreads⟩

end Extends

/-- In a section that records reads, a read is recorded. -/
theorem mem_reads_record {t : Tracking} (h : t.isActive = true) (id : NodeId) :
    id ∈ (t.record id).reads := by
  rw [isActive, observer?] at h
  rw [record]
  cases hs : t.sections with
  | nil => simp [hs] at h
  | cons sec rest =>
    have hsome : sec.observer.node?.isSome = true := by simpa [hs] using h
    simp only
    split
    · simp [reads]
    · rename_i hmem
      simp only [hsome, true_and, not_not] at hmem
      simpa [reads, hs] using hmem

end Tracking

namespace Graph

/-- A node of the same kind that has not changed less often; if it is fixed, it is as trusted as
before, reads the same, and has not changed. -/
structure Steady (fixed : Prop) (n n' : Node) : Prop where
  /-- It stands for the same. -/
  kind : n'.kind = n.kind
  /-- It has not changed less often. -/
  le : n.changes ≤ n'.changes
  /-- It is as trusted. -/
  mark : fixed → n'.mark = n.mark
  /-- It reads the same. -/
  dependencies : fixed → n'.dependencies = n.dependencies
  /-- It has not changed. -/
  changes : fixed → n'.changes = n.changes

theorem Steady.refl (fixed : Prop) (n : Node) : Steady fixed n n :=
  ⟨rfl, Nat.le_refl _, fun _ => rfl, fun _ => rfl, fun _ => rfl⟩

theorem Steady.trans {fixed : Prop} {n n' n'' : Node} (h : Steady fixed n n')
    (h' : Steady fixed n' n'') : Steady fixed n n'' where
  kind := h'.kind.trans h.kind
  le := Nat.le_trans h.le h'.le
  mark hf := (h'.mark hf).trans (h.mark hf)
  dependencies hf := (h'.dependencies hf).trans (h.dependencies hf)
  changes hf := (h'.changes hf).trans (h.changes hf)

/-- Less may be asked to be fixed. -/
theorem Steady.mono {fixed p : Prop} {n n' : Node} (h : Steady fixed n n')
    (hf : p → fixed) : Steady p n n' where
  kind := h.kind
  le := h.le
  mark := h.mark ∘ hf
  dependencies := h.dependencies ∘ hf
  changes := h.changes ∘ hf

end Graph

namespace Engine

/-- What a name stands for is there, and is no query. -/
def Handle.Present (g : Graph) : Handle → Prop
  | signal id | pair id | computed id => g.contains id = true
  | query _ _ => False
  | _ => True

/-- The program that an effect runs. -/
def Reaction.program : Reaction → Program
  | body p _ | text _ _ p | attr _ _ _ p | region _ _ p _ | insert _ _ p _ => p

/-- An effect that runs a program that starts a report. -/
def Reaction.Reports (name : String) (r : Reaction) : Prop :=
  ∃ next, r.program = .op (.log (opening name)) next

namespace State

/-- Nothing that is running is a computed value below a rank. -/
def Unrun (s : State) (rank : NodeId → Nat) (b : Nat) : Prop :=
  ∀ (id : NodeId) p v, s.cells[id]? = some (.computed p v) → s.tracking.isRunning id = true →
    b ≤ rank id

/-- A node is no computed value from some rank on. -/
def Low (s : State) (rank : NodeId → Nat) (b : Nat) (id : NodeId) : Prop :=
  ∀ p v, s.cells[id]? = some (.computed p v) → rank id < b

/-- What a node shows is what comes of its program for some values of the nodes: what a computed
value keeps, and what an effect that reports has reported last. -/
def Shows (name : NodeId → String) (s : State) (id : NodeId) (val : NodeId → Json) : Prop :=
  match s.cells[id]? with
  | some (.computed p v) => v = some (p.replay s.lookup val).1.get
  | some (.effect e) => e.reaction.Reports (name id) → lastReport (name id) s.log =
      lastReport (name id) (e.reaction.program.replay s.lookup val).2.reverse
  | _ => True

/-- A state in which all that has a name is there, all reads are tracked and all values exact, and
marks and epochs tell how what computed values keep and effects report comes of the values that they
read. -/
structure Faithful (D : Setting) (name : NodeId → String) (s : State) : Prop where
  /-- All reads have to be tracked. -/
  tracked : D.tracked
  /-- Values are equal to themselves only. -/
  exact : ∀ v, D.value v → v.Exact
  /-- An effect logs under its own name only. -/
  signed : ∀ id v, D.logs id v → Signed (name id) v
  /-- What names stand for is there. -/
  present : ∀ x h, s.handle? x = some h → h.Present s.graph
  /-- No two effects report under the same name. -/
  apart : ∀ (i j : NodeId) e f, s.cells[i]? = some (.effect e) → s.cells[j]? = some (.effect f) →
    name i = name j → i = j
  /-- An effect that is there was not disposed. -/
  active : ∀ (id : NodeId) e, s.graph.contains id = true → s.cells[id]? = some (.effect e) →
    e.disposed = false
  /-- Marks and epochs tell what they should. -/
  record : s.graph.Faithful s.tracking.isRunning s.stored (s.Shows name)

/-- Whether a node is there and up to date. -/
abbrev Sure (s : State) (id : NodeId) : Prop := s.graph.Sure s.tracking.isRunning id

/-- What reading computed values below a rank does to a state. -/
structure Freshens (D : Setting) (b : Nat) (s s' : State) : Prop where
  /-- Nothing else changes. -/
  rest : s' = { s with
    graph := s'.graph, cells := s'.cells, tracking := s'.tracking, log := s'.log }
  /-- The innermost section has read more. -/
  tracking : s.tracking.Extends (s.Low D.rank b) s'.tracking
  /-- Computed values may keep another value. -/
  cells : ∀ id : NodeId, s'.cells[id]? = s.cells[id]? ∨ D.rank id < b ∧ ∃ p v w,
    s.cells[id]? = some (.computed p v) ∧ s'.cells[id]? = some (.computed p (some w))
  /-- Nodes that are no computed values below the rank stay as they are. -/
  nodes : Graph.Maps (fun id n n' => Graph.Steady (n.kind = .derived → b ≤ D.rank id) n n')
    s.graph s'.graph
  /-- What was up to date still is, and has not changed. -/
  sure : ∀ id, s.Sure id → s'.Sure id ∧ s'.graph.changes? id = s.graph.changes? id ∧
    s'.cells[id]? = s.cells[id]?
  /-- Everything is in order. -/
  orderly : s'.Orderly D

/-! ## Order -/

variable {D : Setting} {s s' s'' : State}

/-- What may become of what lies behind a node. -/
inductive CellMoves (D : Setting) (s' : State) (id : NodeId) : Option Cell →
    Option Cell → Prop where
  /-- Nothing. -/
  | same (c : Option Cell) : CellMoves D s' id c c
  /-- A signal has another value. -/
  | signal {v w : Json} (h : D.value w) : CellMoves D s' id (some (.signal v)) (some (.signal w))
  /-- A computed value keeps a value. -/
  | computed {p : Program} {v : Option Json} {w : Json} (h : D.value w) :
      CellMoves D s' id (some (.computed p v)) (some (.computed p (some w)))
  /-- An effect has run. -/
  | effect {e e' : Effect} (h : e'.reaction.Observes D s' id) (scope : e'.scope = e.scope)
      (supply : e'.supply = e.supply) :
      CellMoves D s' id (some (.effect e)) (some (.effect e'))

/-- What may become of a node. -/
structure NodeMoves (D : Setting) (s s' : State) (id : NodeId) (n n' : Graph.Node) : Prop where
  /-- It stands for the same. -/
  kind : n'.kind = n.kind
  /-- If it is a computed value that need not run, it did not have to before, or keeps a value. -/
  kept : n.kind = .derived → n'.mark ≠ .dirty → s'.tracking.isRunning id = false →
    n.mark ≠ .dirty ∧ s.tracking.isRunning id = false ∨
      ∃ p v, s'.cells[id]? = some (.computed p (some v))
  /-- If it is a computed value, what it has newly read has a lower rank. -/
  descends : n.kind = .derived → ∀ seen ∈ n'.dependencies, seen ∈ n.dependencies ∨
    s.Low D.rank (D.rank id) seen.node

/-- A node that stays as it is, while the same runs. -/
theorem NodeMoves.of_eq {id : NodeId} (n : Graph.Node)
    (hrunning : s'.tracking.isRunning id = s.tracking.isRunning id) :
    NodeMoves D s s' id n n where
  kind := rfl
  kept _ hdirty hstill := Or.inl ⟨hdirty, by rwa [← hrunning]⟩
  descends _ _ hseen := Or.inl hseen

/-- What a name stands for is found among the names. -/
theorem handle?_congr (h : s'.names = s.names) (x : String) : s'.handle? x = s.handle? x := by
  rw [handle?, handle?, h]

/-- What is the same when nothing is created or dropped. -/
structure Framed (s s' : State) : Prop where
  /-- Names stand for the same. -/
  names : s'.names = s.names
  /-- The data of queries. -/
  clients : s'.clients = s.clients
  /-- Where queries find their data. -/
  supplies : s'.supplies = s.supplies
  /-- What is put off. -/
  deferred : s'.deferred = s.deferred
  /-- Boundaries. -/
  boundaries : s'.boundaries = s.boundaries
  /-- Query data that was in use is. -/
  held : ∀ c, Hold.client c ∈ s.held → Hold.client c ∈ s'.held
  /-- Scopes that owned nothing own nothing. -/
  bare : ∀ id, s.IsBare id → s'.IsBare id
  /-- The same takes the errors of a scope. -/
  handler : ∀ (id : ScopeId) sc, s.scopes.live[id]? = some sc →
    ∃ sc', s'.scopes.live[id]? = some sc' ∧ sc'.handler = sc.handler
  /-- Places of documents are there as before. -/
  holds : ∀ d n, (s.document d).holds n = true → (s'.document d).holds n = true

/-- All that is the same when nothing is created or dropped, apart from what is in use. -/
def frame (s : State) :=
  (s.names, s.clients, s.supplies, s.deferred, s.boundaries, s.scopes.live, s.documents)

/-- Nothing is created or dropped when all of the frame is the same. -/
theorem Framed.of_frame (h : s'.frame = s.frame)
    (hheld : ∀ c, Hold.client c ∈ s.held → Hold.client c ∈ s'.held) : s.Framed s' := by
  simp only [frame, Prod.mk.injEq] at h
  obtain ⟨hnames, hclients, hsupplies, hdeferred, hboundaries, hlive, hdocuments⟩ := h
  refine ⟨hnames, hclients, hsupplies, hdeferred, hboundaries, hheld, fun id hid => ?_,
    fun id sc hsc => ?_, fun d n hn => ?_⟩
  · rwa [IsBare, hlive]
  · exact ⟨sc, by rw [hlive, hsc], rfl⟩
  · rwa [document, hdocuments]

/-- Query data that is referred to still is. -/
theorem Swept.framed (hs : s.Swept) (h : s.Framed s')
    (heffects : ∀ (id : NodeId) e, s.cells[id]? = some (.effect e) →
      ∃ e', s'.cells[id]? = some (.effect e') ∧ e'.supply = e.supply) : s'.Swept := by
  intro id c hc
  rw [h.clients] at hc
  have hkeeps := hs id c hc
  have hboundary : s'.boundaryClient? = s.boundaryClient? := by
    funext b
    rw [boundaryClient?, boundaryClient?, boundary?, boundary?, h.boundaries]
  have hdeferred : s'.deferredClient? = s.deferredClient? := by
    funext task
    cases task <;> rw [deferredClient?, deferredClient?]
    rw [hboundary]
  simp only [keepsClient, Bool.or_eq_true] at hkeeps ⊢
  rw [h.names, h.supplies, h.deferred, hdeferred]
  rcases hkeeps with ((((hkeeps | hkeeps) | hkeeps) | hkeeps) | hkeeps) | hkeeps
  · exact Or.inl (Or.inl (Or.inl (Or.inl (Or.inl hkeeps))))
  · rw [List.contains_iff_mem] at hkeeps ⊢
    exact Or.inl (Or.inl (Or.inl (Or.inl (Or.inr (h.held id hkeeps)))))
  · exact Or.inl (Or.inl (Or.inl (Or.inr hkeeps)))
  · exact Or.inl (Or.inl (Or.inr hkeeps))
  · obtain ⟨⟨k, cell⟩, hmem, hclient⟩ := List.any_eq_true.1 hkeeps
    rw [Std.HashMap.mem_toList_iff_getElem?_eq_some] at hmem
    refine Or.inl (Or.inr (List.any_eq_true.2 ?_))
    cases cell with
    | effect e =>
      obtain ⟨e', he', hsupply⟩ := heffects k e hmem
      refine ⟨(k, .effect e'), Std.HashMap.mem_toList_iff_getElem?_eq_some.2 he', ?_⟩
      simpa only [cellClient?, hsupply] using hclient
    | _ => simp [cellClient?] at hclient
  · obtain ⟨⟨k, sc⟩, hmem, hclient⟩ := List.any_eq_true.1 hkeeps
    rw [Std.HashMap.mem_toList_iff_getElem?_eq_some] at hmem
    obtain ⟨sc', hsc', hhandler⟩ := h.handler k sc hmem
    refine Or.inr (List.any_eq_true.2 ⟨(k, sc'), Std.HashMap.mem_toList_iff_getElem?_eq_some.2 hsc',
      ?_⟩)
    simpa only [scopeClient?, hhandler, hboundary] using hclient

namespace CellMoves

variable {id : NodeId} {c : Option Cell}

/-- A signal was one before, and any new value is admissible. -/
theorem of_signal {v : Json} (h : CellMoves D s' id c (some (.signal v))) :
    (∃ w, c = some (.signal w)) ∧ (c = some (.signal v) ∨ D.value v) := by
  cases h with
  | same => exact ⟨⟨v, rfl⟩, Or.inl rfl⟩
  | signal hv => exact ⟨⟨_, rfl⟩, Or.inr hv⟩

/-- A signal stays one. -/
theorem signal_of {v : Json} (h : CellMoves D s' id (some (.signal v)) c) :
    ∃ w, c = some (.signal w) := by
  cases h with
  | same => exact ⟨v, rfl⟩
  | signal hw => exact ⟨_, rfl⟩

/-- The value of a query is the one of before. -/
theorem of_query {v : Option Json} (h : CellMoves D s' id c (some (.query v))) :
    c = some (.query v) := by
  cases h
  rfl

/-- A query stays as it is. -/
theorem query_of {v : Option Json} (h : CellMoves D s' id (some (.query v)) c) :
    c = some (.query v) := by
  cases h
  rfl

/-- A computed value was one before, of the same program, and any new value is admissible. -/
theorem of_computed {p : Program} {v : Option Json}
    (h : CellMoves D s' id c (some (.computed p v))) :
    ∃ v', c = some (.computed p v') ∧ (v' = v ∨ ∀ w ∈ v, D.value w) := by
  cases h with
  | same => exact ⟨v, rfl, Or.inl rfl⟩
  | computed hw => exact ⟨_, rfl, Or.inr (by simpa using hw)⟩

/-- A computed value stays one, of the same program, and keeps a value if it did. -/
theorem computed_of {p : Program} {v : Option Json}
    (h : CellMoves D s' id (some (.computed p v)) c) :
    ∃ v', c = some (.computed p v') ∧ (v.isSome → v'.isSome) := by
  cases h with
  | same => exact ⟨v, rfl, fun hv => hv⟩
  | computed hw => exact ⟨_, rfl, fun _ => rfl⟩

/-- An effect was one before, in the same scope; if it is another one now, it observes. -/
theorem of_effect {e' : Effect} (h : CellMoves D s' id c (some (.effect e'))) :
    ∃ e, c = some (.effect e) ∧ e'.scope = e.scope ∧
      (e = e' ∨ e'.reaction.Observes D s' id) := by
  cases h with
  | same => exact ⟨e', rfl, rfl, Or.inl rfl⟩
  | effect hobserves hscope hsupply => exact ⟨_, rfl, hscope, Or.inr hobserves⟩

/-- An effect stays one, and finds the data of queries where it did. -/
theorem effect_of {e : Effect} (h : CellMoves D s' id (some (.effect e)) c) :
    ∃ e', c = some (.effect e') ∧ e'.supply = e.supply := by
  cases h with
  | same => exact ⟨e, rfl, rfl⟩
  | effect hobserves hscope hsupply => exact ⟨_, rfl, hsupply⟩

end CellMoves

/-- An effect that observes does so as long as places of documents stay. -/
theorem Framed.observes (h : s.Framed s') {id : NodeId} {r : Reaction}
    (hr : r.Observes D s id) : r.Observes D s' id := by
  cases r with
  | attr document node name p => exact ⟨h.holds _ _ hr.1, hr.2⟩
  | body | text | region | insert => exact hr

section

variable (hcells : ∀ id : NodeId, CellMoves D s' id s.cells[id]? s'.cells[id]?)

include hcells

/-- Behind the same nodes there are computed values. -/
theorem computed_iff_of_cellMoves (id : NodeId) :
    (∃ p v, s.cells[id]? = some (.computed p v)) ↔ ∃ p v, s'.cells[id]? = some (.computed p v) := by
  constructor
  · rintro ⟨p, v, hv⟩
    obtain ⟨v', hv', -⟩ := (hv ▸ hcells id).computed_of
    exact ⟨p, v', hv'⟩
  · rintro ⟨p, v, hv⟩
    obtain ⟨v', hv', -⟩ := (hv ▸ hcells id).of_computed
    exact ⟨p, v', hv'⟩

/-- Behind the same nodes there are effects. -/
theorem effect_iff_of_cellMoves (id : NodeId) :
    (∃ e, s.cells[id]? = some (.effect e)) ↔ ∃ e, s'.cells[id]? = some (.effect e) := by
  constructor
  · rintro ⟨e, he⟩
    obtain ⟨e', he', -⟩ := (he ▸ hcells id).effect_of
    exact ⟨e', he'⟩
  · rintro ⟨e, he⟩
    obtain ⟨e', he', -⟩ := (he ▸ hcells id).of_effect
    exact ⟨e', he'⟩

/-- What names stand for stays of its kind. -/
theorem stands_of_cellMoves {h : Handle} (hstands : h.Stands s.cells) : h.Stands s'.cells := by
  cases h with
  | signal id | pair id =>
    obtain ⟨v, hv⟩ := hstands
    exact (hv ▸ hcells id).signal_of
  | computed id => exact (computed_iff_of_cellMoves hcells id).1 hstands
  | query id key =>
    obtain ⟨v, hv⟩ := hstands
    exact ⟨v, (hv ▸ hcells id).query_of⟩
  | _ => trivial

/-- Computed values stay in order: they read what ranks below them, and keep admissible values. -/
theorem Orderly.move_computed (hs : s.Orderly D) (hframed : s.Framed s') {id : NodeId}
    {p : Program} {v : Option Json} (h : s'.cells[id]? = some (.computed p v)) :
    p.Observes D.tracked (fun _ => False) (s'.Below D.rank (D.rank id)) D.value
      (fun o => D.value o.get) ∧ ∀ w ∈ v, D.value w := by
  have hbelow : s'.Below D.rank (D.rank id) = s.Below D.rank (D.rank id) := by
    funext x
    rw [Below, Below, handle?_congr hframed.names]
  obtain ⟨v', hv', hvalue⟩ := (h ▸ hcells id).of_computed
  obtain ⟨hobserves, hold⟩ := hs.computed id p v' hv'
  rw [hbelow]
  refine ⟨hobserves, ?_⟩
  rcases hvalue with rfl | hnew
  · exact hold
  · exact hnew

/-- Effects stay in order: they observe, and their scopes own nothing. -/
theorem Orderly.move_effect (hs : s.Orderly D) (hframed : s.Framed s') {id : NodeId} {e : Effect}
    (h : s'.cells[id]? = some (.effect e)) :
    e.reaction.Observes D s' id ∧ s'.IsBare e.scope := by
  obtain ⟨e₀, he₀, hscope, hobserves⟩ := (h ▸ hcells id).of_effect
  obtain ⟨hold, hbare⟩ := hs.effect id e₀ he₀
  refine ⟨?_, hscope ▸ hframed.bare _ hbare⟩
  rcases hobserves with rfl | hnew
  · exact hframed.observes hold
  · exact hnew

/-- A computed value that need not run keeps a value, as before or newly. -/
theorem Orderly.move_kept (hs : s.Orderly D) {id : NodeId} {n n' : Graph.Node}
    (hn : s.graph.find? id = some n) (hmoves : NodeMoves D s s' id n n') (hk : n'.kind = .derived)
    (hdirty : n'.mark ≠ .dirty) (hstill : s'.tracking.isRunning id = false) :
    ∃ p v, s'.cells[id]? = some (.computed p (some v)) := by
  rw [hmoves.kind] at hk
  rcases hmoves.kept hk hdirty hstill with ⟨hdirty', hstill'⟩ | hkept
  · obtain ⟨p, v, hv⟩ := hs.kept id n hn hk hdirty' hstill'
    obtain ⟨v', hv', hsome⟩ := (hv ▸ hcells id).computed_of
    obtain ⟨w, rfl⟩ := Option.isSome_iff_exists.1 (hsome rfl)
    exact ⟨p, w, hv'⟩
  · exact hkept

end

/-- What may become of everything. -/
theorem Orderly.move (hs : s.Orderly D) (hframed : s.Framed s')
    (hcells : ∀ id : NodeId, CellMoves D s' id s.cells[id]? s'.cells[id]?)
    (hnodes : Graph.Maps (NodeMoves D s s') s.graph s'.graph) : s'.Orderly D where
  signal id v h := by
    obtain ⟨-, hsame | hv⟩ := (h ▸ hcells id).of_signal
    · exact hs.signal id v hsame
    · exact hv
  query id v h := hs.query id v (h ▸ hcells id).of_query
  computed id p v h := hs.move_computed hcells hframed h
  effect id e h := hs.move_effect hcells hframed h
  stands x h hx := by
    rw [handle?_congr hframed.names] at hx
    exact stands_of_cellMoves hcells (hs.stands x h hx)
  derived id n' hn' := by
    obtain ⟨n, hn, hmoves⟩ := hnodes.exists_old hn'
    rw [hmoves.kind, hs.derived id n hn, computed_iff_of_cellMoves hcells]
  reacting id n' hn' := by
    obtain ⟨n, hn, hmoves⟩ := hnodes.exists_old hn'
    rw [hmoves.kind, hs.reacting id n hn, effect_iff_of_cellMoves hcells]
  kept id n' hn' hk hdirty hstill := by
    obtain ⟨n, hn, hmoves⟩ := hnodes.exists_old hn'
    exact hs.move_kept hcells hn hmoves hk hdirty hstill
  named id n' hn' hk := by
    obtain ⟨n, hn, hmoves⟩ := hnodes.exists_old hn'
    rw [IsNamed, hframed.names]
    exact hs.named id n hn (hmoves.kind ▸ hk)
  descends id n' hn' hk seen hseen m' hm' hmk := by
    obtain ⟨n, hn, hmoves⟩ := hnodes.exists_old hn'
    obtain ⟨m, hm, hmmoves⟩ := hnodes.exists_old hm'
    rw [hmoves.kind] at hk
    rw [hmmoves.kind] at hmk
    rcases hmoves.descends hk seen hseen with hseen | hlow
    · exact hs.descends id n hn hk seen hseen m hm hmk
    · obtain ⟨p, v, hv⟩ := (hs.derived seen.node m hm).1 hmk
      exact hlow p v hv
  swept := by
    refine hs.swept.framed hframed fun id e he => ?_
    exact (he ▸ hcells id).effect_of

/-- A change of what order does not speak of. -/
theorem Orderly.same (hs : s.Orderly D) (hcells : s'.cells = s.cells) (hgraph : s'.graph = s.graph)
    (hframe : s'.frame = s.frame) (hheld : ∀ c, Hold.client c ∈ s.held → Hold.client c ∈ s'.held)
    (hrunning : ∀ id, s'.tracking.isRunning id = s.tracking.isRunning id) : s'.Orderly D := by
  refine hs.move (.of_frame hframe hheld) ?_ ?_
  · intro id
    rw [hcells]
    exact .same _
  · rw [hgraph]
    exact Graph.Maps.refl (fun id n => .of_eq n (hrunning id)) s.graph

/-- The end of the use of a node leaves query data in use. -/
theorem mem_held_erase {id : NodeId} {c : ClientId} (h : Hold.client c ∈ s.held) :
    Hold.client c ∈ s.held.erase (.node id) :=
  (List.mem_erase_of_ne (by simp)).2 h

/-! ## Reading -/

/-- What is up to date depends only on the graph and on what runs. -/
theorem Sure.congr {id : NodeId} (h : s.Sure id) (hgraph : s'.graph = s.graph)
    (hrunning : ∀ id, s'.tracking.isRunning id = s.tracking.isRunning id) : s'.Sure id := by
  obtain ⟨n, hn, hsure⟩ := h
  exact ⟨n, by rw [hgraph, hn], fun hk => by rw [hrunning]; exact hsure hk⟩

namespace Freshens

variable {b : Nat}

theorem refl (b : Nat) (hs : s.Orderly D) : s.Freshens D b s where
  rest := rfl
  tracking := .refl _ _
  cells _ := Or.inl rfl
  nodes := Graph.Maps.refl (fun _ _ => .refl _ _) s.graph
  sure _ h := ⟨h, rfl, rfl⟩
  orderly := hs

/-- Names stand for the same. -/
theorem names (h : s.Freshens D b s') : s'.names = s.names :=
  (congrArg State.names h.rest).trans rfl

/-- The same effects wait. -/
theorem queue (h : s.Freshens D b s') : s'.queue = s.queue :=
  (congrArg State.queue h.rest).trans rfl

/-- The same is in use. -/
theorem held (h : s.Freshens D b s') : s'.held = s.held :=
  (congrArg State.held h.rest).trans rfl

/-- The same is put off. -/
theorem deferred (h : s.Freshens D b s') : s'.deferred = s.deferred :=
  (congrArg State.deferred h.rest).trans rfl

/-- A name stands for the same thing. -/
theorem handle? (h : s.Freshens D b s') (x : String) : s'.handle? x = s.handle? x :=
  handle?_congr h.names x

/-- A name stands for the same node. -/
theorem lookup (h : s.Freshens D b s') : s'.lookup = s.lookup := by
  funext x
  rw [State.lookup, State.lookup, h.handle?]

/-- The same computations run. -/
theorem running (h : s.Freshens D b s') (id : NodeId) :
    s'.tracking.isRunning id = s.tracking.isRunning id := h.tracking.isRunning id

/-- Computed values stay what they are, and what they are not. -/
theorem computed (h : s.Freshens D b s') {id : NodeId} {p : Program} {v : Option Json}
    (hv : s'.cells[id]? = some (.computed p v)) : ∃ v', s.cells[id]? = some (.computed p v') := by
  rcases h.cells id with heq | ⟨-, q, v', w, hcell, hcell'⟩
  · exact ⟨v, by rw [← heq, hv]⟩
  · rw [hcell', Option.some.injEq, Cell.computed.injEq] at hv
    exact ⟨v', hv.1 ▸ hcell⟩

/-- Effects stay what they are. -/
theorem effect_iff (h : s.Freshens D b s') {id : NodeId} {e : Effect} :
    s'.cells[id]? = some (.effect e) ↔ s.cells[id]? = some (.effect e) := by
  rcases h.cells id with heq | ⟨-, p, v, w, hcell, hcell'⟩
  · rw [heq]
  · simp [hcell, hcell']

/-- What does not lie below the rank keeps what it keeps. -/
theorem cell_of_le (h : s.Freshens D b s') {id : NodeId} (hid : b ≤ D.rank id) :
    s'.cells[id]? = s.cells[id]? := by
  rcases h.cells id with heq | ⟨hlt, -⟩
  · exact heq
  · exact absurd hlt (Nat.not_lt.2 hid)

/-- A node of low rank stays one. -/
theorem low (h : s.Freshens D b s') {c : Nat} {id : NodeId} (hid : s.Low D.rank c id) :
    s'.Low D.rank c id := by
  intro p v hv
  obtain ⟨v', hv'⟩ := h.computed hv
  exact hid p v' hv'

private theorem low_iff (h : s.Freshens D b s') {c : Nat} {id : NodeId} :
    s'.Low D.rank c id ↔ s.Low D.rank c id := by
  refine ⟨fun hid p v hv => ?_, h.low⟩
  rcases h.cells id with heq | ⟨-, q, v', w, hcell, hcell'⟩
  · exact hid p v (by rw [heq, hv])
  · rw [hcell, Option.some.injEq, Cell.computed.injEq] at hv
    exact hid q (some w) hcell'

/-- The same names are readable below a rank. -/
theorem below (h : s.Freshens D b s') (c : Nat) : s'.Below D.rank c = s.Below D.rank c := by
  funext x
  rw [Below, Below, h.handle?]

/-- Nothing of lower rank runs if nothing did. -/
theorem unrun (h : s.Freshens D b s') {c : Nat} (hs : s.Unrun D.rank c) : s'.Unrun D.rank c := by
  intro id p v hv hrun
  rw [h.running] at hrun
  obtain ⟨v', hv'⟩ := h.computed hv
  exact hs id p v' hv' hrun

/-- A quiet state stays quiet. -/
theorem quiet (h : s.Freshens D b s') (hs : s.Quiet) : s'.Quiet := by
  rw [Quiet, h.queue, h.deferred]
  exact hs

theorem trans (h : s.Freshens D b s') (h' : s'.Freshens D b s'') : s.Freshens D b s'' where
  rest := by rw [h'.rest, h.rest]
  tracking := h.tracking.trans (h'.tracking.mono fun _ hr => h.low_iff.1 hr)
  cells id := by
    rcases h'.cells id with heq | ⟨hid, p, v, w, hcell, hcell'⟩
    · rw [heq]
      exact h.cells id
    · obtain ⟨v', hv'⟩ := h.computed hcell
      exact Or.inr ⟨hid, p, v', w, hv', hcell'⟩
  nodes := h.nodes.trans (fun _ _ _ _ h1 h2 => h1.trans (h2.mono fun hf => by
    rwa [h1.kind])) h'.nodes
  sure id hid := by
    obtain ⟨hsure, hchanges, hcell⟩ := h.sure id hid
    obtain ⟨hsure', hchanges', hcell'⟩ := h'.sure id hsure
    exact ⟨hsure', hchanges'.trans hchanges, hcell'.trans hcell⟩
  orderly := h'.orderly

/-- What holds below a rank holds below a higher one. -/
theorem mono {c : Nat} (h : s.Freshens D b s') (hc : b ≤ c) : s.Freshens D c s' where
  rest := h.rest
  tracking := h.tracking.mono fun _ hr p v hv => Nat.lt_of_lt_of_le (hr p v hv) hc
  cells id := (h.cells id).imp_right fun hcell => ⟨Nat.lt_of_lt_of_le hcell.1 hc, hcell.2⟩
  nodes := h.nodes.imp fun _ _ _ hr => hr.mono fun hf hk => Nat.le_trans hc (hf hk)
  sure := h.sure
  orderly := h.orderly

/-- Sections in which more was read. -/
theorem sections (hs : s.Orderly D) {t : Tracking} (ht : s.tracking.Extends (s.Low D.rank b) t) :
    s.Freshens D b { s with tracking := t } where
  rest := rfl
  tracking := ht
  cells _ := Or.inl rfl
  nodes := Graph.Maps.refl (fun _ _ => .refl _ _) s.graph
  sure _ h := ⟨h.congr rfl ht.isRunning, rfl, rfl⟩
  orderly := hs.same rfl rfl rfl (fun _ h => h) ht.isRunning

/-- Logging. -/
theorem logged (hs : s.Orderly D) (l : List Json) : s.Freshens D b { s with log := l } where
  rest := rfl
  tracking := .refl _ _
  cells _ := Or.inl rfl
  nodes := Graph.Maps.refl (fun _ _ => .refl _ _) s.graph
  sure _ h := ⟨h.congr rfl fun _ => rfl, rfl, rfl⟩
  orderly := hs.same rfl rfl rfl (fun _ h => h) fun _ => rfl

/-- The use of a node around what reading does. -/
theorem hold {id : NodeId} (h : (s.hold (.node id)).Freshens D b s') :
    s.Freshens D b { s' with held := s'.held.erase (.node id) } where
  rest := by
    rw [h.held, State.hold, List.erase_cons_head]
    have hrest := h.rest
    exact congrArg (fun r : State => { r with held := s.held }) hrest
  tracking := h.tracking
  cells := h.cells
  nodes := h.nodes
  sure := h.sure
  orderly := h.orderly.same rfl rfl rfl (fun _ hc => mem_held_erase hc) fun _ => rfl

/-- A batch around what reading does. -/
theorem batch (h : (s.modifyQueue Queue.enterBatch).Freshens D b s') :
    s.Freshens D b (s'.modifyQueue Queue.exitBatch) where
  rest := by
    have hrest := h.rest
    exact congrArg (fun r : State => r.modifyQueue Queue.exitBatch) hrest
  tracking := h.tracking
  cells := h.cells
  nodes := h.nodes
  sure := h.sure
  orderly := h.orderly.same rfl rfl rfl (fun _ hc => hc) fun _ => rfl

/-- An untracked section around what reading does. -/
theorem untracked (h : (s.modifyTracking (·.enter .untracked)).Freshens D b s') :
    s.Freshens D b (s'.modifyTracking (·.leave.2)) := by
  have hleave : s'.tracking.leave.2 = s.tracking := h.tracking.leave.1
  have hrunning (id : NodeId) :
      (s.modifyTracking (·.enter .untracked)).tracking.isRunning id = s.tracking.isRunning id := by
    simp [modifyTracking, Tracking.Observer.node?]
  have hrunning' (id : NodeId) :
      (s'.modifyTracking (·.leave.2)).tracking.isRunning id = s'.tracking.isRunning id := by
    rw [h.running, hrunning, modifyTracking, hleave]
  constructor
  · have hrest := h.rest
    refine (congrArg (fun r : State => r.modifyTracking (·.leave.2)) hrest).trans ?_
    simp only [modifyTracking, hleave]
  · rw [modifyTracking, hleave]
    exact .refl _ _
  · exact h.cells
  · exact h.nodes
  · intro id hid
    obtain ⟨hsure, hsame⟩ := h.sure id (hid.congr rfl hrunning)
    exact ⟨hsure.congr rfl hrunning', hsame⟩
  · exact h.orderly.same rfl rfl rfl (fun _ hc => hc) hrunning'

end Freshens

variable {name : NodeId → String}

/-- What is there stays there as long as no node leaves the graph. -/
theorem present_of_maps {g g' : Graph} {R : NodeId → Graph.Node → Graph.Node → Prop}
    (h : Graph.Maps R g g') {hd : Handle} (hp : hd.Present g) : hd.Present g' := by
  have hlive {id : NodeId} (hid : g.contains id = true) : g'.contains id = true := by
    rw [Graph.contains_eq, Option.isSome_iff_exists] at hid ⊢
    obtain ⟨n, hn⟩ := hid
    obtain ⟨n', hn', -⟩ := h.exists_new hn
    exact ⟨n', hn'⟩
  cases hd with
  | signal id => exact hlive hp
  | pair id => exact hlive hp
  | computed id => exact hlive hp
  | query id key => exact hp.elim
  | _ => trivial

/-- What may become of everything that faithfulness speaks of, beside what is recorded. -/
theorem Faithful.move (hs : s.Faithful D name) (hnames : s'.names = s.names)
    {R : NodeId → Graph.Node → Graph.Node → Prop} (hnodes : Graph.Maps R s.graph s'.graph)
    (heffects : ∀ (id : NodeId) e', s'.cells[id]? = some (.effect e') →
      ∃ e, s.cells[id]? = some (.effect e) ∧ e'.reaction = e.reaction ∧ e'.disposed = e.disposed)
    (hrecord : s'.graph.Faithful s'.tracking.isRunning s'.stored (s'.Shows name)) :
    s'.Faithful D name where
  tracked := hs.tracked
  exact := hs.exact
  signed := hs.signed
  present x h hx := by
    rw [handle?_congr hnames] at hx
    exact present_of_maps hnodes (hs.present x h hx)
  apart i j e' f' he' hf' := by
    obtain ⟨e, he, -⟩ := heffects i e' he'
    obtain ⟨f, hf, -⟩ := heffects j f' hf'
    exact hs.apart i j e f he hf
  active id e' hid he' := by
    obtain ⟨e, he, -, hd⟩ := heffects id e' he'
    rw [hd]
    exact hs.active id e ((hnodes.contains_eq id).symm.trans hid) he
  record := hrecord

private theorem shows_congr (hcells : s'.cells = s.cells) (hnames : s'.names = s.names)
    (hlog : s'.log = s.log) : s'.Shows name = s.Shows name := by
  have hlookup : s'.lookup = s.lookup := by
    funext x
    rw [lookup, lookup, handle?_congr hnames]
  funext id val
  rw [Shows, Shows, hcells, hlookup, hlog]

/-- What is kept depends only on what lies behind the nodes. -/
theorem stored_congr (hcells : s'.cells = s.cells) : s'.stored = s.stored := by
  funext id
  rw [stored, stored, hcells]

/-- A change of what faithfulness does not speak of. -/
theorem Faithful.same (hs : s.Faithful D name) (hcells : s'.cells = s.cells)
    (hgraph : s'.graph = s.graph) (hnames : s'.names = s.names) (hlog : s'.log = s.log)
    (hrunning : ∀ id, s'.tracking.isRunning id = s.tracking.isRunning id) : s'.Faithful D name := by
  refine hs.move hnames (R := fun _ _ _ => True) ?_ ?_ ?_
  · rw [hgraph]
    exact Graph.Maps.refl (fun _ _ => trivial) s.graph
  · intro id e he
    exact ⟨e, by rw [← hcells, he], rfl, rfl⟩
  · have hrun : s'.tracking.isRunning = s.tracking.isRunning := funext hrunning
    rw [hgraph, hrun, stored_congr hcells, shows_congr hcells hnames hlog]
    exact hs.record

/-- Logging under names that are none of the effects that do not run. -/
theorem Faithful.addLog (hs : s.Faithful D name) {v : Json}
    (hv : ∀ (id : NodeId) e, s.cells[id]? = some (.effect e) → s.tracking.isRunning id = false →
      ∃ other, other ≠ name id ∧ Signed other v) : (s.addLog v).Faithful D name := by
  refine hs.move rfl (R := fun _ _ _ => True) (Graph.Maps.refl (fun _ _ => trivial) s.graph)
    (fun id e he => ⟨e, he, rfl, rfl⟩) ?_
  refine hs.record.imp fun id hstill val hshows => ?_
  rw [Shows] at hshows ⊢
  have hcells : (s.addLog v).cells[id]? = s.cells[id]? := rfl
  rw [hcells]
  split at hshows
  · exact hshows
  · rename_i e he
    obtain ⟨other, hne, hsigned⟩ := hv id e he hstill
    have hlog : (s.addLog v).log = v :: s.log := rfl
    rw [hlog, lastReport_cons_of_ne hne hsigned]
    exact hshows
  · trivial

end State

end Engine

end Rivulet
