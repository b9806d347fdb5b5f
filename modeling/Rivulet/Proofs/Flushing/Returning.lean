import Rivulet.Proofs.Batching.Tending
import Rivulet.Proofs.Errors.Delivering
import Rivulet.Proofs.Graph.Reaching
import Rivulet.Proofs.Watching.Interpreting

/-!
# Effects that wait, and flushes that end

No effect is out of date behind a flush unless it waits, and a flush comes to its end.

While a flush is under way, no run of the engine leaves an effect out of date that does not wait,
apart from those that it found so: what marks an effect lets it wait, and the refresh of an effect
that was taken from the queue starts by trusting it. So whoever is out of date behind a flush that
took everyone from the queue was so before it, and did not wait.

If the reads of computations are acyclic and all that can be computed returns, a refresh comes to
its end: it descends along the reads. Effects may let other effects wait, and themselves, so the
queue may never run empty; but a flush counts the effects that it serves, and drops the others.
-/

namespace Rivulet.Engine

variable {s s' : State} {id : NodeId} {H : NodeId → Prop}

theorem mem_pending_schedule {q : Queue} {j : NodeId} :
    j ∈ (q.schedule id).pending ↔ j ∈ q.pending ∨ j = id := by
  have hall : j ∈ (q.scheduleAll [id]).pending ↔ j ∈ q.pending ∨ j ∈ [id] :=
    mem_pending_scheduleAll
  exact hall.trans (or_congr_right List.mem_singleton)

namespace State

/-- The effects that are out of date wait, but for some. -/
def LeavesOut (s : State) (H : NodeId → Prop) : Prop :=
  ∀ id n, s.graph.find? id = some n → n.kind = .effect → n.mark ≠ .clean →
    id ∈ s.queue.pending ∨ H id

namespace LeavesOut

theorem mono {H' : NodeId → Prop} (h : s.LeavesOut H) (hH : ∀ id, H id → H' id) :
    s.LeavesOut H' := fun id n hn hkind hmark => (h id n hn hkind hmark).imp_right (hH id)

/-- Effects come out of date only where they wait, and those that are live go on waiting. -/
theorem step (h : s.LeavesOut H)
    (hnodes : ∀ id n', s'.graph.find? id = some n' → n'.kind = .effect → n'.mark ≠ .clean →
      id ∈ s'.queue.pending ∨
        ∃ n, s.graph.find? id = some n ∧ n.kind = .effect ∧ n.mark = n'.mark)
    (hpending : ∀ id n', s'.graph.find? id = some n' → id ∈ s.queue.pending →
      id ∈ s'.queue.pending) : s'.LeavesOut H := by
  intro id n' hn' hkind hmark
  rcases hnodes id n' hn' hkind hmark with hwaits | ⟨n, hn, hkindn, hmarkn⟩
  · exact .inl hwaits
  · exact (h id n hn hkindn (hmarkn ▸ hmark)).imp_left (hpending id n' hn')

/-- The nodes keep their kinds and marks. -/
theorem maps {R : NodeId → Graph.Node → Graph.Node → Prop} (h : s.LeavesOut H)
    (hmaps : Graph.Maps R s.graph s'.graph)
    (hR : ∀ id n n', R id n n' → n'.kind = n.kind ∧ n'.mark = n.mark)
    (hpending : s'.queue.pending = s.queue.pending) : s'.LeavesOut H := by
  refine h.step (fun id n' hn' hkind _ => .inr ?_) fun id _ _ hid => hpending ▸ hid
  obtain ⟨n, hn, hr⟩ := hmaps.exists_old hn'
  exact ⟨n, hn, (hR id n n' hr).1.symm.trans hkind, (hR id n n' hr).2.symm⟩

theorem same (h : s.LeavesOut H) (hgraph : s'.graph = s.graph)
    (hpending : s'.queue.pending = s.queue.pending) : s'.LeavesOut H := by
  intro id n hn hkind hmark
  rw [hgraph] at hn
  rw [hpending]
  exact h id n hn hkind hmark

theorem detach (h : s.LeavesOut H) (id : NodeId) : (s.detach id).LeavesOut H := by
  obtain ⟨hgone, hmaps⟩ := Graph.remove_spec s.graph id
  have hother {j : NodeId} {n' : Graph.Node} (hn' : (s.detach id).graph.find? j = some n') :
      j ≠ id := by
    rintro rfl
    exact absurd (hn'.symm.trans hgone) (by simp)
  refine h.step (fun j n' hn' hkind _ => .inr ?_) fun j n' hn' hj => ?_
  · obtain ⟨n, hn, hr⟩ := hmaps.exists_old hn'
    rw [Graph.find?_erase_of_ne s.graph (hother hn')] at hn
    exact ⟨n, hn, hr.kind.symm.trans hkind, hr.mark.symm⟩
  · exact List.mem_filter.2 ⟨hj, by simpa using hother hn'⟩

theorem setDependencies (h : s.LeavesOut H) (id : NodeId) (sources : List NodeId) :
    (s.modifyGraph (·.setDependencies id sources)).LeavesOut H := by
  cases hn : s.graph.find? id with
  | none =>
    refine h.same ?_ rfl
    show s.graph.setDependencies id sources = _
    rw [Graph.setDependencies, hn]
  | some n =>
    refine h.maps (Graph.maps_setDependencies hn sources) (fun j m m' hr => ?_) rfl
    constructor
    · rw [hr.kind]
      split <;> rfl
    · rw [hr.mark]
      split <;> rfl

/-- A node that counts as clean need not be named any more. -/
theorem trust (h : s.LeavesOut fun j => j = id ∨ H j) :
    (s.modifyGraph (·.request id .clean)).LeavesOut H := by
  intro j n' hn' hkind hmark
  by_cases hj : j = id
  · subst hj
    obtain ⟨n, hn, rfl⟩ := Option.map_eq_some_iff.1
      ((Graph.find?_modify_self s.graph j _).symm.trans hn')
    exact absurd rfl hmark
  · have hn : s.graph.find? j = some n' := (find?_request_of_ne hj .clean).symm.trans hn'
    exact (h j n' hn hkind hmark).imp_right fun hH => hH.resolve_left hj

private theorem bump (h : s.LeavesOut H) (id : NodeId) : (s.modifyGraph (·.bump id)).LeavesOut H :=
  h.maps (Graph.maps_modify (R := fun _ n n' => n'.kind = n.kind ∧ n'.mark = n.mark)
    (fun _ _ => ⟨rfl, rfl⟩) s.graph id fun _ _ => ⟨rfl, rfl⟩) (fun _ _ _ hr => hr) rfl

/-- Whoever is marked waits. -/
theorem markChanged (h : s.LeavesOut H) (id : NodeId) : (s.markChanged id).LeavesOut H := by
  refine h.step (fun j n' hn' hkind hmark => ?_) fun j _ _ hj => ?_
  · by_cases hj : j ∈ (s.graph.markChanged id).2
    · exact .inl (mem_pending_scheduleAll.2 (.inr hj))
    · exact .inr (Graph.mark_of_notMem_markChanged hn' hkind hj)
  · exact mem_pending_scheduleAll.2 (.inl hj)

theorem scheduled (h : s.LeavesOut H) (id : NodeId) : (s.scheduled id).LeavesOut H := by
  unfold State.scheduled
  split
  · refine h.step (fun j n' hn' hkind _ => ?_) fun j _ _ hj => mem_pending_schedule.2 (.inl hj)
    by_cases hj : j = id
    · exact .inl (mem_pending_schedule.2 (.inr hj))
    · exact .inr ⟨n', (find?_request_of_ne hj .dirty).symm.trans hn', hkind, rfl⟩
  · exact h

/-- A new node may be named. -/
theorem insert (h : s.LeavesOut H) (id : NodeId) (n : Graph.Node) :
    (s.modifyGraph (·.insert id n)).LeavesOut fun j => j = id ∨ H j := by
  intro j n' hn' hkind hmark
  by_cases hj : j = id
  · exact .inr (.inl hj)
  · have hold : s.graph.find? j = some n' :=
      (Graph.find?_insert_of_ne s.graph hj n).symm.trans hn'
    exact (h j n' hold hkind hmark).imp_right .inr

/-- A new node that is no effect is not concerned. -/
theorem create (h : s.LeavesOut H) (id : NodeId) {kind : Graph.Kind} (hkind : kind ≠ .effect) :
    (s.modifyGraph (·.insert id (.new kind))).LeavesOut H := by
  intro j n' hn' hkind' hmark
  by_cases hj : j = id
  · subst hj
    obtain rfl : Graph.Node.new kind = n' :=
      Option.some.inj ((Graph.find?_insert_self s.graph j _).symm.trans hn')
    exact absurd hkind' hkind
  · exact ((h.insert id _) j n' hn' hkind' hmark).imp_right fun hH => hH.resolve_left hj

end LeavesOut

/-- What a run keeps while a flush is under way: if the effects that are out of date wait, but for
some, they do so behind it. -/
structure Tends (s s' : State) : Prop where
  /-- No flush begins or ends. -/
  level : s'.queue.flushing = s.queue.flushing
  /-- The effects that are out of date wait. -/
  leaves : s.queue.flushing = true → ∀ H, s.LeavesOut H → s'.LeavesOut H

private theorem Tends.trans {s'' : State} (h : s.Tends s') (h' : s'.Tends s'') : s.Tends s'' :=
  ⟨h'.level.trans h.level,
    fun hf H hs => h'.leaves (h.level.trans hf) H (h.leaves hf H hs)⟩

/-- What the refresh of a node does: the node need not be named behind it. -/
structure Restores (id : NodeId) (s s' : State) : Prop where
  /-- No flush begins or ends. -/
  level : s'.queue.flushing = s.queue.flushing
  /-- The effects that are out of date wait. -/
  leaves : s.queue.flushing = true → ∀ H, (s.LeavesOut fun j => j = id ∨ H j) → s'.LeavesOut H

private theorem Restores.tends (h : s.Restores id s') : s.Tends s' :=
  ⟨h.level, fun hf H hs => h.leaves hf H (hs.mono fun _ => .inr)⟩

end State

open State in
/-- While a flush is under way, effects that come out of date wait. -/
def tending : Conduct where
  Rel s _ s' := s.Tends s'
  Loose _ _ _ := True
  Refreshed id s _ s' := s.Restores id s'
  move h := by
    cases h with
    | aside hgraph hpending hflushing _ =>
      exact ⟨hflushing, fun _ _ hs => hs.same hgraph hpending⟩
    | detach id => exact ⟨rfl, fun _ _ hs => hs.detach id⟩
    | rewire id sources => exact ⟨rfl, fun _ _ hs => hs.setDependencies id sources⟩
    | trust id => exact ⟨rfl, fun _ _ hs => (hs.mono fun _ => .inr).trust⟩
    | bump id => exact ⟨rfl, fun _ _ hs => hs.bump id⟩
    | notify id => exact ⟨(onward_markChanged _ id).flushing, fun _ _ hs => hs.markChanged id⟩
    | schedule id => exact ⟨(onward_scheduled _ id).flushing, fun _ _ hs => hs.scheduled id⟩
    | create id hkind => exact ⟨rfl, fun _ _ hs => hs.create id hkind⟩
  trans h h' := h.trans h'
  logs _ _ := ⟨rfl, fun _ _ hs => hs⟩
  level h := h.level
  delivers _ _ := ⟨rfl, fun _ _ hs => hs.same rfl rfl⟩
  reports _ _ _ := ⟨rfl, fun _ _ hs => hs.same rfl rfl⟩
  loose _ := trivial
  loose_trans _ _ := trivial
  loose_queue _ _ := trivial
  loose_create _ _ := trivial
  close h _ h' := ⟨h'.trans h.symm, fun hf => absurd (h.symm.trans hf) (by decide)⟩
  rested hrests := ⟨rfl, fun _ H hs j n hn hkind hmark =>
    (hs j n hn hkind hmark).imp_right fun hH => hH.resolve_left fun hj =>
      hmark (hrests n (hj ▸ hn))⟩
  trusted h := ⟨h.level, fun hf H hs => h.leaves hf H hs.trust⟩
  before h h' := ⟨h'.level.trans h.level, fun hf H hs =>
    h'.leaves (h.level.trans hf) H (h.leaves hf _ hs)⟩
  behind h h' := ⟨h'.level.trans h.level, fun hf H hs =>
    h'.leaves (h.level.trans hf) H (h.leaves hf H hs)⟩
  refreshed h := h.tends
  created h h' := ⟨h'.level.trans h.level, fun hf H hs =>
    h'.leaves (h.level.trans hf) H (h.leaves hf _ (hs.insert _ _))⟩

/-- The refresh of a node, while a flush is under way. -/
theorem State.LeavesOut.refresh {n : Nat} (hs : s.LeavesOut fun j => j = id ∨ H j)
    (hflushing : s.queue.flushing = true) (h : Engine.refresh (kernel n) id s = .ok () s') :
    s'.LeavesOut H ∧ s'.queue.flushing = true := by
  have hseen := refreshes_refresh (callsConduct_overseen tending n) (s := s) id
  obtain ⟨_, u, hrestores, hu⟩ := hseen.of_ok (f := fun κ => Engine.refresh κ id) h
  rw [hu]
  exact ⟨(hrestores.leaves hflushing H hs).same rfl rfl, hrestores.level.trans hflushing⟩

end Rivulet.Engine

namespace Rivulet.Engine

variable {s u u' : State} {id : NodeId} {rank : NodeId → Nat}

namespace State

/-- A live node that does not count as clean. -/
def Outdated (s : State) (id : NodeId) : Prop := ∃ n, s.graph.find? id = some n ∧ n.mark ≠ .clean

/-- The computation behind a node runs and returns. -/
def Computes (s : State) (id : NodeId) (s' : State) : Prop :=
  Yields (fun κ => holding id (runCell κ id s.cells[id]?)) s () s'

/-- The flush of a state has started. -/
def flushBegun (s : State) : State := s.modifyQueue fun q => { q with flushing := true }

/-- The states between the computations of a flush, whatever it computes. -/
inductive Between (s : State) : State → Prop
  /-- It starts. -/
  | start : Between s s.flushBegun
  /-- The effect that has waited longest is taken from the queue. -/
  | take {u : State} {id : NodeId} {rest : List NodeId} (h : Between s u)
      (first : u.queue.pending = id :: rest) :
      Between s (u.modifyQueue fun q => { q with pending := rest })
  /-- A node turns out to be up to date. -/
  | trust {u : State} (id : NodeId) (h : Between s u) :
      Between s (u.modifyGraph (·.request id .clean))
  /-- A node is computed. -/
  | run {u u' : State} {id : NodeId} (h : Between s u) (live : u.graph.contains id = true)
      (idle : u.tracking.isRunning id = false) (computes : u.Computes id u') : Between s u'

/-- A state in whose flush nothing is read in a circle, and every computation returns. -/
structure Returns (s : State) (rank : NodeId → Nat) : Prop where
  /-- What a node has read comes before it. -/
  acyclic : ∀ {u id n}, s.Between u → u.graph.find? id = some n →
    ∀ seen ∈ n.dependencies, rank seen.node < rank id
  /-- What is running need not be computed. -/
  idle : ∀ {u id}, s.Between u → u.Outdated id → u.tracking.isRunning id = false
  /-- All else can be. -/
  returns : ∀ {u id}, s.Between u → u.graph.contains id = true →
    u.tracking.isRunning id = false → ∃ u', u.Computes id u'

/-- Between the computations of a flush the same are running as before it. -/
theorem Between.path (hs : s.Typed) (h : s.Between u) :
    Path s u ∧ ∀ j, u.tracking.isRunning j = s.tracking.isRunning j := by
  induction h with
  | start => exact ⟨.single (.inr (.pace _ fun _ => rfl)), fun _ => rfl⟩
  | @take u id rest h first ih =>
    have hpop : u.popQueue = u.modifyQueue fun q => { q with pending := rest } := by
      rw [popQueue, Queue.pop, first]
      rfl
    exact ⟨ih.1.tail (.inl (hpop ▸ .pop)), ih.2⟩
  | trust id h ih => exact ⟨ih.1.tail (.inl (.trust id)), ih.2⟩
  | @run u u' id h live idle computes ih =>
    obtain ⟨depth, hrun⟩ := computes
    have hu := typing.path hs ih.1
    have hcell (t : State) (ht : u.Before t) : Concur typing Whatever
        (runCell (kernel depth) id u.cells[id]?) (runCell (kernel depth) id u.cells[id]?) t :=
      concur_runCell (interchangeable_kernel typing depth) fun c hc hkind =>
        ht.mayRead (mayRead_of_cell hu hc hkind)
    obtain ⟨-, hpost⟩ := concur_holding hcell hu
    have hran : holding id (runCell (kernel depth) id u.cells[id]?) u = .ok () u' :=
      hrun depth (Nat.le_refl _)
    rw [hran] at hpost
    exact ⟨ih.1.trans hpost.1, fun j =>
      (Tracking.isRunning_of_observers hpost.2.2.onward.observers j).trans (ih.2 j)⟩

/-! ## Refreshes -/

namespace Returns

variable (hs : s.Typed) (h : s.Returns rank)

include hs h in
/-- A node that is not running is computed, if it is live. -/
theorem rerun (hu : s.Between u) (hidle : s.tracking.isRunning id = false) :
    Gives (fun κ => Engine.rerun κ id) u fun _ u' => s.Between u' := by
  have hrunning : u.tracking.isRunning id = false := ((hu.path hs).2 id).trans hidle
  refine .look ?_
  simp only [hrunning]
  cases hlive : u.graph.contains id with
  | false => exact .ret hu
  | true =>
    obtain ⟨u', hcomputes⟩ := h.returns hu hlive hrunning
    exact ⟨(), u', hcomputes, .run hu hlive hrunning hcomputes⟩

/-- What a node has read is brought up to date, if each of it can be. -/
theorem dependenciesChanged {l : List Graph.Observed}
    (hl : ∀ seen ∈ l, ∀ u, s.Between u →
      Gives (fun κ => Engine.refresh κ seen.node) u fun _ u' => s.Between u')
    (hu : s.Between u) :
    Gives (fun κ => Engine.dependenciesChanged κ l) u fun _ u' => s.Between u' := by
  induction l generalizing u with
  | nil => exact .ret hu
  | cons seen rest ih =>
    have hrest (u : State) (hu : s.Between u) : Gives (fun κ => do
        if (← get).graph.epoch? seen.node = some seen.epoch then Engine.dependenciesChanged κ rest
        else return true) u fun _ u' => s.Between u' := by
      refine .look ?_
      split
      · exact ih (fun x hx => hl x (List.mem_cons_of_mem _ hx)) hu
      · exact .ret hu
    refine .look ?_
    split
    · exact (Gives.callRefresh (hl seen List.mem_cons_self u hu)).bind fun _ u' hu' => hrest u' hu'
    · exact hrest u hu

include hs h in
/-- A refresh comes to its end: it descends along the reads. -/
theorem refresh (id : NodeId) (hu : s.Between u) :
    Gives (fun κ => Engine.refresh κ id) u fun _ u' => s.Between u' := by
  induction hrank : rank id using Nat.strong_induction_on generalizing id u with
  | _ k ih =>
    refine .look ?_
    cases hn : u.graph.find? id with
    | none => exact .ret hu
    | some n =>
      have hidle (hmark : n.mark ≠ .clean) : s.tracking.isRunning id = false :=
        ((hu.path hs).2 id).symm.trans (h.idle hu ⟨n, hn, hmark⟩)
      simp only
      cases hmark : n.mark with
      | clean => exact .ret hu
      | dirty => exact h.rerun hs hu (hidle (by simp [hmark]))
      | maybeDirty =>
        refine (dependenciesChanged (fun seen hseen v hv =>
          ih _ (hrank ▸ h.acyclic hu hn seen hseen) _ hv rfl) hu).bind fun changed v hv => ?_
        cases changed with
        | true => exact h.rerun hs hv (hidle (by simp [hmark]))
        | false => exact .step (.trust id hv)

end Returns

/-- A flush serves effects, one after the other, until none waits or it has served too many. -/
theorem Returns.runWaiting (hs : s.Typed) (h : s.Returns rank) (hu : s.Between u) (n : Nat) :
    Gives (fun κ => Engine.runWaiting κ n) u fun _ u' => ∃ served v, s.Between v ∧
      Serves served u v ∧ served.length ≤ n ∧ (v.queue.pending ≠ [] → served.length = n) ∧
        u' = v.modifyQueue Queue.clear := by
  induction n generalizing u with
  | zero => exact .step ⟨[], u, hu, .nil u, Nat.le_refl _, fun _ => rfl, rfl⟩
  | succ n ih =>
    refine .changeGet (f := fun s => (s.queue.pop.1, { s with queue := s.queue.pop.2 })) ?_
    cases hpending : u.queue.pending with
    | nil =>
      have hpop : u.queue.pop = (none, u.queue) := by rw [Queue.pop, hpending]
      have hclear : u.modifyQueue Queue.clear = u := by
        rw [modifyQueue, Queue.clear, ← hpending]
      simp only [hpop]
      exact .ret ⟨[], u, hu, .nil u, Nat.zero_le _, fun hne => absurd hpending hne, hclear.symm⟩
    | cons id rest =>
      have hpop : u.queue.pop = (some id, { u.queue with pending := rest }) := by
        rw [Queue.pop, hpending]
      simp only [hpop]
      obtain ⟨⟨⟩, v, hrefresh, hv⟩ := h.refresh hs id (.take hu hpending)
      have hcall : Gives (fun κ => κ.refresh id)
          (u.modifyQueue fun q => { q with pending := rest }) fun _ v' => v' = v :=
        .callRefresh ⟨(), v, hrefresh, rfl⟩
      refine hcall.bind fun _ v' hv' => ?_
      rw [hv']
      refine (ih hv).imp ?_
      rintro _ u' ⟨served, w, hw, hserves, hle, hall, hover⟩
      exact ⟨id :: served, w, hw, .cons hpending hrefresh hserves, Nat.succ_le_succ hle,
        fun hne => congrArg Nat.succ (hall hne), hover⟩

end State

end Rivulet.Engine
