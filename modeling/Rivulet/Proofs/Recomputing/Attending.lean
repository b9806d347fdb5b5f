import Rivulet.Proofs.Recomputing.Supervision

/-!
# No alarm is raised

The parts of the engine do the same under supervision, from the flush down to the computation that
runs again. A dirty node is outdated because states in order are justified. A node that may be dirty
is outdated because what it had read was brought up to date until the first epoch that differs.
-/

namespace Rivulet.Engine

open State

variable {σ : Shelter} {writes : Bool} {s s' : State} {id : NodeId} {κ κ' : Kernel}
  (hκ : Attentive σ κ κ')

/-- A step outside the graph, as it is part of a run. -/
theorem upholds_aside (hpath : Path s s') (hs : s.InOrder σ)
    (hplain : s'.Plain (Program.Reacts false)) (hgraph : s'.graph = s.graph)
    (hcells : s'.cells = s.cells) (hkinds : s'.kinds = s.kinds)
    (htracking : s'.tracking = s.tracking) : s'.InOrder σ ∧ s.Upholds writes s' := by
  have hstep : s'.InOrder σ ∧ s.Progress writes s' :=
    hs.aside hpath hplain hgraph hcells hkinds fun _ => by rw [htracking]
  exact ⟨hstep.1, hstep.2, by rw [htracking]⟩

theorem upholds_pace (s : State) (f : Queue → Queue) (hf : ∀ q, (f q).pending = q.pending)
    (hs : s.InOrder σ) : (s.modifyQueue f).InOrder σ ∧ s.Upholds writes (s.modifyQueue f) :=
  upholds_aside (.single (.inr (.pace f hf))) hs (hs.plain.same rfl rfl rfl rfl rfl) rfl rfl rfl rfl

include hκ in
/-- Serving those that wait stays in order, supervised or not. -/
theorem heeds_runWaiting (n : Nat) :
    Heeds σ writes Whatever (runWaiting κ n) (runWaiting κ' n) s := by
  induction n generalizing s with
  | zero =>
    exact .step fun hs => upholds_aside (Leads.path (.one .clear)) hs
      (hs.plain.same rfl rfl rfl rfl rfl) rfl rfl rfl rfl
  | succ n ih =>
    refine (Heeds.stepGet (P := Whatever) (fun hs => ?_) fun _ => trivial).bind
      fun next s' _ _ => ?_
    · exact upholds_aside (Leads.path (.one .pop)) hs (hs.plain.same rfl rfl rfl rfl rfl)
        rfl rfl rfl rfl
    · cases next with
      | none => exact .ret fun _ => trivial
      | some id => exact (heeds_callRefresh hκ id).bind fun _ _ _ _ => ih

include hκ in
/-- A flush stays in order, supervised or not. -/
theorem heeds_flush : Heeds σ writes Whatever (flush κ) (flush κ') s := by
  refine .look fun _ => ?_
  cases hbegin : s.queue.beginFlush with
  | none => exact .ret fun _ => trivial
  | some q =>
    obtain ⟨-, rfl⟩ := Queue.beginFlush_eq_some.1 hbegin
    refine .change (fun hs => upholds_aside ?_ hs (hs.plain.same rfl rfl rfl rfl rfl)
      rfl rfl rfl rfl)
      fun _ => ?_
    · exact .single (.inr (.pace ({ · with flushing := true }) fun _ => rfl))
    · refine Heeds.bind (P := Whatever) ?_ fun _ _ _ _ => heeds_callDrain hκ
      exact (heeds_runWaiting hκ flushLimit).guarding
        (fun s' => upholds_pace s' Queue.endFlush fun _ => rfl) fun _ _ _ _ _ => trivial

include hκ in
/-- Settling what waits and what was put off stays in order, supervised or not. -/
theorem heeds_settle : Heeds σ writes Whatever (settle κ) (settle κ') s :=
  .look fun _ => .ite (fun _ => heeds_flush hκ) fun _ => .ret fun _ => trivial

include hκ in
/-- A batch stays in order, supervised or not. -/
theorem heeds_batch {α : Type} {x y : Run α}
    (h : ∀ s', s.Upholds writes s' → Heeds σ writes Whatever x y s') :
    Heeds σ writes Whatever (batch κ x) (batch κ' y) s := by
  refine .change (upholds_pace s _ fun _ => rfl) fun hu => ?_
  refine Heeds.bind (P := Whatever)
    ((h _ hu).onInterrupt fun s' => upholds_pace s' _ fun _ => rfl) fun a s' _ _ => ?_
  refine .change (upholds_pace s' _ fun _ => rfl) fun _ => ?_
  exact (heeds_settle hκ).bind fun _ _ _ _ => .ret fun _ => trivial

include hκ in
/-- Ending what stood behind a node that has left the graph stays in order, supervised or not. -/
theorem heeds_endRemoved (removed : Option Graph.Node) (hgone : removed.isSome → ¬s.Whole) :
    Heeds σ writes Whatever (endRemoved κ id removed) (endRemoved κ' id removed) s := by
  refine .look fun _ => ?_
  cases removed with
  | none => exact .ret fun _ => trivial
  | some n =>
    cases s.effect? id with
    | none => exact .ret fun _ => trivial
    | some e =>
      refine .change (fun hs => upholds_of_leads (leads_dispose_effect s id) ?_) fun _ =>
        heeds_callDispose hκ _
      exact hs.modifyEffect (fun _ => ⟨rfl, rfl, fun _ => rfl⟩)
        (fun hun => absurd hun.1 (hgone rfl))
        fun hw => absurd hw (hgone rfl)

include hκ in
/-- Retiring a computation stays in order, supervised or not. -/
theorem heeds_retire (id : NodeId) :
    Heeds σ writes Whatever (retire κ id) (retire κ' id) s := by
  refine heeds_using fun s hu => ?_
  refine Heeds.bind (P := fun removed s' => removed.isSome → ¬s'.Whole)
    (.stepGet (fun hs => upholds_of_leads (.one (.detach id)) (hs.detach id)) fun hs => ?_)
    fun removed _ _ h => heeds_endRemoved hκ removed h
  intro hsome hw
  cases hn : s.graph.find? id with
  | none =>
    rw [Graph.remove, hn] at hsome
    cases hsome
  | some n =>
    obtain ⟨n', hn', -⟩ := hw id.index (hs.wired.1.index_lt hn)
    have hnone : (s.detach id).graph.find? id = none := (Graph.remove_spec s.graph id).1
    exact absurd (hnone.symm.trans hn') (by simp)

include hκ in
/-- Taking down what a scope held stays in order, supervised or not. -/
theorem heeds_teardown {h : Scopes.Holdings Cleanup} (hcleanups : h.cleanups = []) :
    Heeds σ writes Whatever (teardown κ h) (teardown κ' h) s := by
  refine (Heeds.forM fun id _ s => heeds_callDispose hκ id).bind fun _ _ _ _ => ?_
  rw [hcleanups]
  refine Heeds.bind (P := Whatever) (.ret fun _ => trivial) fun _ _ _ _ => ?_
  exact Heeds.forM fun id _ s => heeds_retire hκ id

private theorem upholds_removeScope (s : State) (scope : ScopeId) (hs : s.InOrder σ) :
    ({ s with scopes := (s.scopes.remove scope).2 } : State).InOrder σ ∧
      s.Upholds writes { s with scopes := (s.scopes.remove scope).2 } :=
  upholds_aside (Leads.path (.one (.removeScope scope))) hs
    (hs.plain.rescoped (keeps_removeScope { scopes := s.scopes } scope)) rfl rfl rfl rfl

private theorem upholds_stripScope (s : State) (scope : ScopeId) (hs : s.InOrder σ) :
    ({ s with scopes := (s.scopes.strip scope).2 } : State).InOrder σ ∧
      s.Upholds writes { s with scopes := (s.scopes.strip scope).2 } :=
  upholds_aside (Leads.path (.one (.stripScope scope))) hs
    (hs.plain.rescoped (keeps_stripScope { scopes := s.scopes } scope)) rfl rfl rfl rfl

include hκ in
/-- Ending a scope stays in order, supervised or not. -/
theorem heeds_disposeScope (scope : ScopeId) :
    Heeds σ writes Whatever (disposeScope κ scope) (disposeScope κ' scope) s := by
  refine heeds_batch hκ fun s hu => ?_
  refine Heeds.bind (P := fun removed _ => ∀ sc ∈ removed, sc.holdings.cleanups = [])
    (.stepGet (upholds_removeScope s scope) fun hs sc hsc => ?_) fun removed _ _ hremoved => ?_
  · cases hlive : s.scopes.live[scope]? with
    | none => simp [Scopes.remove, hlive] at hsc
    | some sc' =>
      simp only [Scopes.remove, hlive, Option.mem_some] at hsc
      exact hsc ▸ (hs.plain.scopes scope sc' hlive).2
  · cases removed with
    | none => exact .ret fun _ => trivial
    | some sc =>
      refine (heeds_teardown hκ (hremoved sc rfl)).guarding (fun s' hs' => ?_)
        fun _ _ _ _ _ => trivial
      rw [hs'.plain.sweep_eq]
      exact ⟨hs', .refl s'⟩

include hκ in
/-- Emptying a scope stays in order, supervised or not. -/
theorem heeds_resetScope (scope : ScopeId) :
    Heeds σ writes Whatever (resetScope κ scope) (resetScope κ' scope) s := by
  refine Heeds.bind (P := fun owned _ => ∀ h ∈ owned, h.cleanups = [])
    (.stepGet (upholds_stripScope s scope) fun hs h hh => ?_) fun owned _ _ howned => ?_
  · cases hlive : s.scopes.live[scope]? with
    | none => simp [Scopes.strip, hlive] at hh
    | some sc =>
      simp only [Scopes.strip, hlive, Option.mem_some] at hh
      exact hh ▸ (hs.plain.scopes scope sc hlive).2
  · cases owned with
    | none => exact .ret fun _ => trivial
    | some h => exact heeds_teardown hκ (howned h rfl)

/-- Errors are put off, since no scope takes them. -/
theorem heeds_reportError (scope : Option ScopeId) (error : String) :
    Heeds σ writes Whatever (reportError κ scope error) (reportError κ' scope error) s := by
  refine .look fun hs => ?_
  have hnone : scope.bind s.scopes.findHandler = none := by
    refine Option.bind_eq_none_iff.2 fun id _ => ?_
    exact findHandler_eq_none (fun id sc h => (hs.plain.scopes id sc h).1) id
  rw [hnone]
  refine .step fun hs => upholds_aside (Leads.path (Leads.aside (by constructor <;> rfl))) hs
    ⟨hs.plain.cells, hs.plain.scopes, fun t ht => ?_, hs.plain.uncaught, hs.plain.clients⟩
    rfl rfl rfl rfl
  rcases List.mem_append.1 ht with ht | ht
  · exact hs.plain.deferred t ht
  · exact ⟨error, List.mem_singleton.1 ht⟩

include hκ in
/-- Doing what was put off stays in order, supervised or not. -/
theorem heeds_drain : Heeds σ writes Whatever (drain κ) (drain κ') s := by
  have htask (hs : s.InOrder σ) : ∀ t ∈ (takeDeferred s).1, ∃ error, t = .uncaught error := by
    intro t ht
    rw [takeDeferred] at ht
    split at ht
    · cases ht
    · rename_i task rest hdeferred
      obtain rfl := Option.some.inj ht
      exact hs.plain.deferred task (hdeferred ▸ List.mem_cons_self)
  refine Heeds.bind (x := (modifyGet takeDeferred : Run _)) (y := (modifyGet takeDeferred : Run _))
    (P := fun next s' => ∀ t ∈ next, ∃ error, t = .uncaught error)
    (.stepGet (fun hs => ?_) htask) fun next s' _ hnext => ?_
  · rw [takeDeferred]
    split
    · exact ⟨hs, .refl s⟩
    · rename_i task rest hdeferred
      refine upholds_aside (Leads.path (Leads.aside (by constructor <;> rfl))) hs
        ⟨hs.plain.cells, hs.plain.scopes, fun t ht => ?_, hs.plain.uncaught, hs.plain.clients⟩
        rfl rfl rfl rfl
      exact hs.plain.deferred t (hdeferred ▸ List.mem_cons_of_mem task ht)
  · cases next with
    | none => exact .ret fun _ => trivial
    | some task =>
      obtain ⟨error, rfl⟩ := hnext task rfl
      refine Heeds.bind (P := Whatever) (.look fun hs => ?_) fun _ _ _ _ => heeds_callDrain hκ
      rw [hs.plain.uncaught]
      exact .raise _

/-! ## Computations -/

/-- Steps that leave a node alone. -/
theorem State.Upholds.clean (hu : s.Upholds false s') (hs : s'.Whole)
    (h : s.Whole → ∃ n, s.graph.find? id = some n ∧ n.mark = .clean) :
    ∃ n, s'.graph.find? id = some n ∧ n.mark = .clean := by
  obtain ⟨n, hn, hmark⟩ := h (hu.progress.whole hs)
  obtain ⟨n', hn', -⟩ := (hu.progress.continues hs).nodes id n hn
  exact ⟨n', hn', (hu.progress.continues hs).clean (hu.progress.unwritten rfl hs) id n
    n' hn hn' hmark⟩

/-- A run that may not write is one that may. -/
theorem State.Upholds.mono (hu : s.Upholds false s') : s.Upholds writes s' :=
  ⟨⟨hu.progress.before, hu.progress.whole, hu.progress.continues,
    fun _ => hu.progress.unwritten rfl⟩, hu.observers⟩

theorem Heeds.weaken {α : Type} {P : α → State → Prop} {x y : Run α} (h : Heeds σ false P x y s) :
    Heeds σ writes P x y s := by
  intro hs
  obtain ⟨heq, hpost⟩ := h hs
  refine ⟨heq, ?_⟩
  cases hr : x s with
  | ok a s' =>
    rw [hr] at hpost
    exact ⟨hpost.1, hpost.2.1.mono, hpost.2.2⟩
  | error e s' =>
    rw [hr] at hpost
    exact ⟨hpost.1, hpost.2.mono⟩

/-- Keeping a value leaves a clean node clean. -/
theorem keepValue_clean {n n' : Graph.Node} {v : Json} (hn : s.graph.find? id = some n)
    (hmark : n.mark = .clean) (hn' : (s.keepValue id v).graph.find? id = some n') :
    n'.mark = .clean := by
  have hgraph : (s.keepValue id v).graph = s.graph ∨
      (s.keepValue id v).graph = s.graph.bump id := by
    unfold State.keepValue
    split
    · split
      · exact .inl rfl
      · exact .inr rfl
    · exact .inl rfl
  rcases hgraph with hgraph | hgraph
  · rw [hgraph, hn, Option.some.injEq] at hn'
    exact hn' ▸ hmark
  · rw [hgraph, Graph.bump, Graph.find?_modify_self, hn, Option.map_some, Option.some.injEq] at hn'
    exact hn' ▸ hmark

/-- The epoch moves only if another value is kept. -/
theorem keepValue_epoch {p : Program} {old : Json}
    (hcell : s.cells[id]? = some (.computed p (some old)))
    (v : Json) : (s.keepValue id v).graph.epoch? id = s.graph.epoch? id ∨
      (s.keepValue id v).cells[id]? = some (.computed p (some v)) ∧ (old == v) = false := by
  unfold State.keepValue
  rw [hcell]
  by_cases hcurrent : isCurrent (some old) v = true
  · refine .inl ?_
    simp only [if_pos hcurrent]
  · refine .inr ⟨?_, by simpa [isCurrent] using hcurrent⟩
    simp only [if_neg hcurrent]
    exact Std.HashMap.getElem?_insert_self

include hκ in
/-- A computed value that is evaluated again keeps its epoch, unless it keeps another value. -/
theorem heeds_runComputed {p : Program} {v : Option Json}
    (hcell : s.cells[id]? = some (.computed p v))
    (hidle : s.tracking.isRunning id = false) (hfree : σ.Frees s id)
    (hclean : s.Whole → ∃ n, s.graph.find? id = some n ∧ n.mark = .clean) :
    Heeds σ writes (fun _ s' => s'.Fresh id ∧ s.KeepsEpoch id s')
      (runComputed κ id p) (runComputed κ' id p) s := by
  intro hs
  have hp : p.Reacts false := hs.plain.cells id (.computed p v) hcell
  have hid : MayRead s.kinds id := ⟨_, hs.wired.1.cells id _ hcell, by simp [Cell.kind]⟩
  refine (heeds_tracked (o := .derived id) rfl hid hfree hclean fun s' => heeds_callEval hκ hp).bind
    (fun new s' hu hpost => ?_) hs
  have hidle' : s'.tracking.isRunning id = false := (hu.isRunning id).trans hidle
  have hfree' : σ.Frees s' id := hu.progress.frees hfree
  refine .stepGet (fun hs' => upholds_of_leads (.one (.keep id new)) ?_) fun hs' => ?_
  · exact hs'.keepValue new hfree' fun hw => ⟨hidle', (hpost hw).1⟩
  have hkept : (s'.keepValue id new).InOrder σ ∧ s'.Progress writes (s'.keepValue id new) :=
    hs'.keepValue new hfree' fun hw => ⟨hidle', (hpost hw).1⟩
  refine ⟨fun hw n' hn' => ?_, fun hw q old hold => ?_⟩
  · obtain ⟨⟨n, hn, hmark⟩, -⟩ := hpost (hkept.2.whole hw)
    exact keepValue_clean hn hmark hn'
  · obtain ⟨-, hchanges, hcells⟩ := hpost (hkept.2.whole hw)
    have hepoch : s'.graph.epoch? id = s.graph.epoch? id := by
      have hmap (t : State) : t.graph.epoch? id = (t.changes? id).map UInt64.ofNat := by
        rw [Graph.epoch?, changes?, Option.map_map]
        rfl
      rw [hmap, hmap, hchanges]
    rcases keepValue_epoch (hcells.trans hold) new with hsame | hnew
    · exact .inl (hsame.trans hepoch)
    · exact .inr ⟨new, hnew⟩

include hκ in
/-- An effect that runs again: what its last run created ends before. -/
theorem heeds_runEffect {e : Effect} (hcell : s.cells[id]? = some (.effect e))
    (hidle : s.tracking.isRunning id = false) (hfree : σ.Frees s id)
    (hclean : s.Whole → ∃ n, s.graph.find? id = some n ∧ n.mark = .clean) :
    Heeds σ writes (fun _ s' => s'.Fresh id) (runEffect κ id) (runEffect κ' id) s := by
  refine Heeds.weaken (.look fun hs => ?_)
  have heffect : s.effect? id = some e := by rw [State.effect?, hcell]
  rw [heffect]
  have hfresh {t : State} (hu : s.Upholds false t) : t.Fresh id := fun hw n hn => by
    obtain ⟨n', hn', hmark⟩ := hu.clean hw hclean
    rw [hn, Option.some.injEq] at hn'
    exact hn' ▸ hmark
  obtain ⟨p, fallible, hbody, hp⟩ := hs.plain.cells id (.effect e) hcell
  have hid : MayRead s.kinds id := ⟨_, hs.wired.1.cells id _ hcell, by simp [Cell.kind]⟩
  refine .ite (fun _ => .ret fun _ => hfresh (.refl s)) fun _ => ?_
  refine (heeds_resetScope hκ e.scope).bind fun _ t hu _ => ?_
  have htracked : Heeds σ false (fun _ s' => s'.Whole → ∃ n, s'.graph.find? id = some n ∧
    n.mark = .clean)
      (withScope e.scope (tracked id (.effect id) (react κ id e)))
      (withScope e.scope (tracked id (.effect id) (react κ' id e))) t := by
    refine heeds_withScope (fun t' hu' hgraph _ hkinds => ?_) fun a s' h => h
    have hreact (κ : Kernel) : react κ id e = κ.exec p := by rw [react, hbody]
    rw [hreact, hreact]
    refine (heeds_tracked (o := .effect id) rfl (hkinds ▸ hu.progress.before.mayRead hid)
      ((hu.trans hu').progress.frees hfree) (fun hw => ?_) fun s' =>
        heeds_callExec hκ (.inl hp)).mono fun _ _ _ h hw => (h hw).1
    exact (hu.trans hu').clean hw hclean
  refine htracked.bind fun outcome t' hu' ht' => ?_
  have hidle' : t'.tracking.isRunning id = false :=
    ((hu.trans hu').isRunning id).trans hidle
  refine Heeds.mono (P := Whatever) ?_ fun _ s' hu'' _ => hfresh ((hu.trans hu').trans hu'')
  refine .change (fun ht => upholds_of_leads (.one (.effect id _ fun _ => ⟨rfl, fun h => h⟩)) ?_)
    fun _ => ?_
  · exact ht.modifyEffect (fun _ => ⟨rfl, rfl, fun h => h⟩)
      ((hu.trans hu').progress.frees hfree) fun hw => ⟨hidle', ht' hw⟩
  · cases outcome with
    | value v => exact .ret fun _ => trivial
    | failure error =>
      exact .ite (fun _ => heeds_callReport hκ e.scope error) fun _ => .ret fun _ => trivial

/-- Behind a use, nothing has been taken away from a state that is still whole. -/
theorem unhold_of_whole (hs : s.InOrder σ) (hid : id.index < s.kinds.size)
    (hw : (s.unhold (.node id)).Whole) : (s.unhold (.node id)).graph = s.graph ∧
      (s.unhold (.node id)).cells = s.cells := by
  obtain ⟨hless, -⟩ : ({ s with held := s.held.erase (.node id) } : State).InOrder σ ∧
      s.Progress true { s with held := s.held.erase (.node id) } :=
    hs.aside (Leads.path (Leads.aside (by constructor <;> rfl)))
      (hs.plain.same rfl rfl rfl rfl rfl) rfl rfl rfl fun _ => rfl
  have hrelease : s.unhold (.node id) =
      ({ s with held := s.held.erase (.node id) } : State).dropNode id := by
    show State.releaseNode _ id = _
    rw [State.releaseNode]
    split
    · rfl
    · exact (hless.dropNode id : _ ∧ State.Progress true _ _).1.plain.sweep_eq
  rw [hrelease] at hw ⊢
  rw [State.dropNode] at hw ⊢
  split
  · exact ⟨rfl, rfl⟩
  · rename_i hkeeps
    rw [if_neg hkeeps] at hw
    obtain ⟨n, hn, -⟩ := hw id.index hid
    have hnone := (Graph.remove_spec s.graph id).1
    exact absurd (hnone.symm.trans hn) (by simp)

/-- What is up to date stays so behind a use. -/
theorem State.Fresh.unhold (h : s.Fresh id) (hs : s.InOrder σ) (hid : id.index < s.kinds.size) :
    (s.unhold (.node id)).Fresh id := by
  intro hw n hn
  have hprogress : _ ∧ s.Progress true (s.unhold (.node id)) := hs.unhold id
  rw [(unhold_of_whole hs hid hw).1] at hn
  exact h (hprogress.2.whole hw) n hn

include hκ in
/-- Running what lies behind a node stays in order, supervised or not. -/
theorem heeds_runCell {n : Graph.Node} (hn : s.graph.find? id = some n)
    (hidle : s.tracking.isRunning id = false) (hfree : σ.Frees s id) :
    Heeds σ writes (fun _ s' => s'.Fresh id ∧ s.KeepsEpoch id s')
      (runCell κ id s.cells[id]?) (runCell κ' id s.cells[id]?) s := by
  refine .change (fun h => upholds_of_leads (.one (.trust id)) (h.trust id)) fun hu => ?_
  have hfree' := hu.progress.frees hfree
  have hclean : ∃ n, (s.modifyGraph (·.request id .clean)).graph.find? id = some n ∧
      n.mark = .clean :=
    ⟨n.request .clean, by simp [modifyGraph, Graph.request, hn], rfl⟩
  have hepoch : (s.modifyGraph (·.request id .clean)).graph.epoch? id = s.graph.epoch? id := by
    simp [modifyGraph, Graph.request, Graph.epoch?, hn, Graph.Node.epoch, Graph.Node.request]
  have hrest (hcell : ∀ p v, s.cells[id]? ≠ some (.computed p v)) (s' : State) :
      s.KeepsEpoch id s' := fun _ p old hold => absurd hold (hcell p _)
  have hnothing (hcell : ∀ p v, s.cells[id]? ≠ some (.computed p v)) :
      Heeds σ writes (fun _ s' => s'.Fresh id ∧ s.KeepsEpoch id s') (pure () : Run Unit) (pure ())
        (s.modifyGraph (·.request id .clean)) := by
    refine .ret fun _ => ⟨fun _ k hk => ?_, hrest hcell _⟩
    obtain ⟨m, hm, hmark⟩ := hclean
    rw [hk, Option.some.injEq] at hm
    exact hm ▸ hmark
  cases hcell : s.cells[id]? with
  | none => exact hnothing (by simp [hcell])
  | some c =>
    cases c with
    | signal v => exact hnothing (by simp [hcell])
    | query v => exact hnothing (by simp [hcell])
    | computed p v =>
      have hcell' : (s.modifyGraph (·.request id .clean)).cells[id]? = some (.computed p v) := hcell
      refine (heeds_runComputed hκ hcell' hidle hfree' fun _ => hclean).mono
        fun _ s' _ h => ⟨h.1, ?_⟩
      intro hw q old hold
      have hsame := h.2 hw q old hold
      rwa [hepoch] at hsame
    | effect e =>
      have hcell' : (s.modifyGraph (·.request id .clean)).cells[id]? = some (.effect e) := hcell
      exact (heeds_runEffect hκ hcell' hidle hfree' fun _ => hclean).mono fun _ s' _ h =>
        ⟨h, hrest (by simp [hcell]) s'⟩

include hκ in
/-- Running a node again stays in order, supervised or not. -/
theorem heeds_rerun (hfree : σ.Frees s id) :
    Heeds σ writes (fun _ s' => s'.Fresh id ∧ s.KeepsEpoch id s') (rerun κ id) (rerun κ' id) s := by
  refine .look fun hs => ?_
  have hrun (hidle : s.tracking.isRunning id = false) :
      Heeds σ writes (fun _ s' => s'.Fresh id ∧ s.KeepsEpoch id s')
        (if s.graph.contains id then holding id (runCell κ id s.cells[id]?) else pure ())
        (if s.graph.contains id then holding id (runCell κ' id s.cells[id]?) else pure ()) s := by
    refine .ite (fun hlive => ?_) fun hgone => .ret fun _ =>
      ⟨fun _ n hn => ?_, fun _ _ _ _ => .inl rfl⟩
    · obtain ⟨n, hn⟩ : ∃ n, s.graph.find? id = some n := by
        rw [Graph.contains_eq] at hlive
        exact Option.isSome_iff_exists.1 hlive
      refine heeds_holding (P := fun _ s' => s'.Fresh id ∧ s.KeepsEpoch id s')
        (fun hu => heeds_runCell (s := s.hold (.node id)) hκ hn hidle (hu.progress.frees hfree)) ?_
      intro _ s' hs' hu ⟨hfresh, hkeeps⟩
      have hlt : id.index < s'.kinds.size :=
        Nat.lt_of_lt_of_le (hs.wired.1.index_lt hn) hu.progress.before.size
      refine ⟨hfresh.unhold hs' hlt, fun hw q old hold => ?_⟩
      obtain ⟨hgraph, hcells⟩ := unhold_of_whole hs' hlt hw
      have hprogress : _ ∧ s'.Progress true (s'.unhold (.node id)) := hs'.unhold id
      rw [hgraph, hcells]
      exact hkeeps (hprogress.2.whole hw) q old hold
    · rw [Graph.contains_eq, hn] at hgone
      exact absurd rfl hgone
  refine .ite (fun _ => ?_) fun hrunning => hrun (by simpa using hrunning)
  exact Heeds.bind (P := fun _ _ => False) (.raise _) fun _ _ _ h => h.elim

include hκ in
/-- Where something has changed, the first such thing is up to date. -/
theorem heeds_dependenciesChanged (l : List Graph.Observed)
    (hl : s.Whole → ∀ seen ∈ l, ∃ m, s.graph.find? seen.node = some m) :
    Heeds σ writes (fun changed s' => changed = true → s'.Whole → ∃ seen ∈ l, ∃ m,
      s'.graph.find? seen.node = some m ∧ (m.kind = .derived → m.mark = .clean) ∧
        m.epoch ≠ seen.epoch) (dependenciesChanged κ l) (dependenciesChanged κ' l) s := by
  induction l generalizing s with
  | nil => exact .ret fun _ h => nomatch h
  | cons seen rest ih =>
    -- What is left to do once the first one has been brought up to date.
    have hcompare (t : State) (hu : s.Upholds writes t)
        (hfresh : t.Whole → ∀ m, t.graph.find? seen.node = some m → m.kind = .derived →
          m.mark = .clean) :
        Heeds σ writes (fun changed s' => changed = true → s'.Whole → ∃ x ∈ seen :: rest, ∃ m,
          s'.graph.find? x.node = some m ∧ (m.kind = .derived → m.mark = .clean) ∧
            m.epoch ≠ x.epoch)
          (get >>= fun t => if t.graph.epoch? seen.node = some seen.epoch then
            dependenciesChanged κ rest else return true)
          (get >>= fun t => if t.graph.epoch? seen.node = some seen.epoch then
            dependenciesChanged κ' rest else return true) t := by
      have hthere (x : Graph.Observed) (hx : x ∈ seen :: rest) (hw : t.Whole) :
          ∃ m, t.graph.find? x.node = some m := by
        obtain ⟨m, hm⟩ := hl (hu.progress.whole hw) x hx
        obtain ⟨m', hm', -⟩ := (hu.progress.continues hw).nodes _ m hm
        exact ⟨m', hm'⟩
      refine .look fun _ => .ite (fun _ => ?_) fun hne => .ret fun _ _ hw => ?_
      · refine (ih fun hw x hx => hthere x (List.mem_cons_of_mem seen hx) hw).mono ?_
        intro changed s' _ h hchanged hw
        obtain ⟨x, hx, m, hm⟩ := h hchanged hw
        exact ⟨x, List.mem_cons_of_mem seen hx, m, hm⟩
      · obtain ⟨m, hm⟩ := hthere seen List.mem_cons_self hw
        refine ⟨seen, List.mem_cons_self, m, hm, hfresh hw m hm, fun he => hne ?_⟩
        rw [Graph.epoch?_eq hm, he]
    refine .look fun _ => .ite (fun _ => ?_) fun hderived => ?_
    · exact (heeds_callRefresh hκ seen.node).bind fun _ t hu hfresh =>
        hcompare t hu fun hw m hm _ => hfresh hw m hm
    · refine hcompare s (.refl s) fun _ m hm hkind => ?_
      rw [Graph.isDerived, hm] at hderived
      exact absurd (decide_eq_true hkind) hderived

include hκ in
/-- A computation that is due raises no alarm. -/
theorem heeds_attended {alarm : Interrupt} {n : Graph.Node} (hdue : s.InOrder σ →
    s.MayRerun σ id n) :
    Heeds σ writes (fun _ s' => s'.Fresh id) (attended σ alarm κ id n) (rerun κ' id) s := by
  intro hs
  have hrerun : Heeds σ writes (fun _ s' => s'.Fresh id ∧ s.KeepsEpoch id s') (rerun κ id)
      (rerun κ' id) s := heeds_rerun hκ (hdue hs).1
  obtain ⟨heq, hpost⟩ := hrerun hs
  rw [attended, if_pos (hdue hs), ← heq]
  cases hr : rerun κ id s with
  | error e s' =>
    rw [hr] at hpost
    exact ⟨rfl, hpost⟩
  | ok a s' =>
    rw [hr] at hpost
    simp only [if_pos hpost.2.2.2]
    exact ⟨trivial, hpost.1, hpost.2.1, hpost.2.2.1⟩

/-- What is inside has read nothing that has changed, as long as nothing on the border has. -/
theorem Shelter.frees_of_moved (hs : s.InOrder σ) (hs' : s'.InOrder σ) (hu : s.Progress writes s')
    {n : Graph.Node} (hn : s.graph.find? id = some n)
    (hmoved : s'.Whole → ∃ seen ∈ n.dependencies, ∃ m, s'.graph.find? seen.node = some m ∧
      m.epoch ≠ seen.epoch) : σ.Frees s' id := by
  intro hun hid
  obtain ⟨seen, hseen, m, hm, hne⟩ := hmoved hun.1
  obtain ⟨k, hk, -, -, hinside⟩ := hs.sheltered.nodes (hu.unmoved hun) id hid
  rw [hn, Option.some.injEq] at hk
  obtain ⟨hwhere, hlevel⟩ := hinside seen (hk ▸ hseen)
  have hle : m.changes ≤ σ.level seen.node := by
    rcases hwhere with hinner | hborder
    · obtain ⟨k', hk', -, hle, -⟩ := hs'.sheltered.nodes hun _ hinner
      rw [hm, Option.some.injEq] at hk'
      exact hk' ▸ hle
    · exact hun.2 _ hborder m hm
  have hge : seen.epoch.toNat ≤ m.changes := by
    obtain ⟨m₀, hm₀⟩ := hs.wired.2.graph.dependencies hn ⟨seen, hseen, rfl⟩
    obtain ⟨m', hm', -, hle'⟩ := (hu.continues hun.1).nodes _ m₀ hm₀
    rw [hm, Option.some.injEq] at hm'
    exact Nat.le_trans ((hs.justified (hu.whole hun.1)).bounded id n hn seen hseen m₀ hm₀)
      (hm' ▸ hle')
  refine hne (UInt64.toNat_inj.1 ?_)
  rw [Graph.Node.epoch, UInt64.toNat_ofNat',
    Nat.mod_eq_of_lt (hun.1.lt_size (hs'.wired.1.index_lt hm) hm)]
  exact Nat.le_antisymm (Nat.le_trans hle hlevel) hge

/-- A dirty node that has run before has read a signal that has changed since. -/
theorem State.Justified.outdated (h : s.Justified) (hw : s.Whole) (hs : s.Typed) {n : Graph.Node}
    (hn : s.graph.find? id = some n) (hdirty : n.mark = .dirty) (hran : s.RanBefore id) :
    s.graph.Outdated n := by
  obtain ⟨seen, hseen, m, hm, hkind, hlt⟩ := h.dirty id n hn hdirty hran
  refine ⟨seen, hseen, m, hm, fun hderived => ?_, fun he => ?_⟩
  · rw [hkind] at hderived
    cases hderived
  · have hsmall := hw.lt_size (hs.index_lt hm) hm
    rw [← he, Graph.Node.epoch, UInt64.toNat_ofNat', Nat.mod_eq_of_lt hsmall] at hlt
    exact Nat.lt_irrefl _ hlt

include hκ in
/-- Bringing a node up to date stays in order, supervised or not. -/
theorem heeds_refresh (alarm : Interrupt) (id : NodeId) :
    Heeds σ writes (fun _ s' => s'.Fresh id) (refreshBy (attended σ alarm κ id) κ id)
      (refresh κ' id) s := by
  rw [refresh_eq]
  refine .look fun hs => ?_
  cases hn : s.graph.find? id with
  | none =>
    refine .ret fun _ _ n hn' => ?_
    rw [hn] at hn'
    cases hn'
  | some n =>
    simp only
    cases hmark : n.mark with
    | clean =>
      refine .ret fun _ _ n' hn' => ?_
      rw [hn, Option.some.injEq] at hn'
      exact hn' ▸ hmark
    | dirty =>
      refine heeds_attended hκ fun hs => ⟨fun hun hid => ?_, fun hw hran =>
        (hs.justified hw).outdated hw hs.wired.1 hn hmark hran⟩
      obtain ⟨k, hk, hne, -⟩ := hs.sheltered.nodes hun id hid
      rw [hn, Option.some.injEq] at hk
      exact hne (hk ▸ hmark)
    | maybeDirty =>
      refine (heeds_dependenciesChanged hκ n.dependencies fun _ seen hseen => ?_).bind
        fun changed t hu hchanged => ?_
      · exact hs.wired.2.graph.dependencies hn ⟨seen, hseen, rfl⟩
      · refine .ite (fun hc => ?_) fun _ => ?_
        · refine heeds_attended hκ fun ht => ⟨?_, fun hw _ => hchanged hc hw⟩
          refine Shelter.frees_of_moved hs ht hu.progress hn fun hw => ?_
          obtain ⟨seen, hseen, m, hm, -, hne⟩ := hchanged hc hw
          exact ⟨seen, hseen, m, hm, hne⟩
        · refine .stepGet (fun ht => upholds_of_leads (.one (.trust id)) (ht.trust id))
            fun _ _ k hk => ?_
          obtain ⟨m, -, rfl⟩ := Option.map_eq_some_iff.1
            ((Graph.find?_modify_self t.graph id _).symm.trans hk)
          rfl

include hκ in
/-- A value that has left the graph is up to date, as nothing is whole any more. -/
theorem heeds_ensureFresh (hkind : s.kinds[id.index]? = some .derived) :
    Heeds σ writes (fun _ s' => s'.Fresh id) (ensureFresh κ id) (ensureFresh κ' id) s := by
  refine .look fun hs => .ite (fun _ => heeds_callRefresh hκ id) fun hgone => ?_
  have hlost : ¬s.Whole := fun hw => by
    obtain ⟨n, hn, -⟩ := hw id.index (Array.getElem?_eq_some_iff.1 hkind).1
    rw [Graph.contains_eq, hn] at hgone
    exact hgone rfl
  split
  · rename_i p hcell
    have hp : p.Reacts false := hs.plain.cells id (.computed p none) hcell
    refine (heeds_untracked fun s' _ _ => heeds_callEval hκ hp).bind fun v t hu _ => ?_
    have hkind' := hu.progress.before.kinds _ _ hkind
    have hlost' : ¬t.Whole := fun hw => hlost (hu.progress.whole hw)
    exact .stepGet (fun ht => upholds_of_leads (.one (.compute id p v hkind'))
      (ht.compute hp hkind' hlost')) fun _ hw => absurd hw hlost'
  · exact .ret fun _ hw => absurd hw hlost

private theorem heeds_keptValue {P : State → Prop} (h : P s) :
    Heeds σ writes (fun _ => P) (keptValue id) (keptValue id) s := by
  refine .look fun _ => ?_
  split
  · exact .ret fun _ => h
  · exact .raise _

include hκ in
/-- Behind a read of a computed value the value is up to date. -/
theorem heeds_readComputed (hkind : s.kinds[id.index]? = some .derived) :
    Heeds σ writes (fun _ s' => s'.Fresh id) (readComputed κ id) (readComputed κ' id) s := by
  refine heeds_holding (P := fun _ s' => s'.Fresh id) (fun hu => ?_) fun _ s' hs' hu hfresh => ?_
  · have hkind' := hu.progress.before.kinds _ _ hkind
    have hread : MayBeRead (s.hold (.node id)).kinds id := ⟨_, hkind', by simp⟩
    refine .change (fun hs => upholds_of_leads (.one (.record id hread)) (hs.record hread))
      fun hu' => ?_
    exact (heeds_ensureFresh hκ (hu'.progress.before.kinds _ _ hkind')).bind
      fun _ _ _ hfresh => heeds_keptValue hfresh
  · exact hfresh.unhold hs' (Nat.lt_of_lt_of_le (Array.getElem?_eq_some_iff.1 hkind).1
      hu.progress.before.size)

end Rivulet.Engine
