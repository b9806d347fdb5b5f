import Rivulet.Proofs.Batching.Chronicle
import Rivulet.Proofs.Disposal.Disposing

/-!
# Cleanups that write signals

A program of writes, reads of signals and logging, in batches and untracked sections nested to any
depth, ends normally inside a batch and leaves scopes and computations as they are, unless a
computed value is being evaluated. So a scope with such cleanups always ends in good order.
-/

namespace Rivulet.Engine

open State

variable {s s' s'' : State} {id : NodeId}

private theorem State.Spares.refl (s : State) : s.Spares s := ⟨fun _ => rfl, fun _ _ => rfl⟩

private theorem State.Spares.trans (h : s.Spares s') (hb : s.Before s') (h' : s'.Spares s'') :
    s.Spares s'' where
  scopes x := (h'.scopes x).trans (h.scopes x)
  computations j hj := (h'.computations j (hb.mayRead hj)).trans (h.computations j hj)

/-- What writing does inside a batch. -/
structure State.Scribbles (s s' : State) : Prop where
  /-- It is a chain of steps. -/
  path : Path s s'
  /-- Scopes and computations are as they were. -/
  spares : s.Spares s'
  /-- Names stand for the same. -/
  names : s'.names = s.names
  /-- The same is open. -/
  onward : s.Onward s'

namespace State.Scribbles

private theorem refl (s : State) : s.Scribbles s := ⟨.refl, .refl s, rfl, .refl s⟩

private theorem trans (h : s.Scribbles s') (h' : s'.Scribbles s'') : s.Scribbles s'' :=
  ⟨h.path.trans h'.path, h.spares.trans h.path.before h'.spares, h'.names.trans h.names,
    h.onward.trans h'.onward⟩

/-- A change that has nothing to do with scopes, names and the graph. -/
theorem of_leads (h : Leads s s') (hscopes : s'.scopes = s.scopes) (hnames : s'.names = s.names)
    (hgraph : s'.graph = s.graph) : s.Scribbles s' :=
  ⟨h.path, ⟨fun _ => by rw [hscopes], fun _ _ => by rw [hgraph]⟩, hnames, h.onward.1⟩

/-- A signal that was in use is so no longer. -/
theorem unhold (h : s.Scribbles s') (hs : s.Typed) (hid : s.kinds[id.index]? = some .source) :
    s.Scribbles (s'.unhold (.node id)) := by
  have hs' : s'.Typed := typing.path hs h.path
  have hid' : s'.kinds[id.index]? = some .source := h.path.before.kinds _ _ hid
  refine h.trans ⟨(leads_unhold s' _).path, ⟨fun x => ?_, fun j hj => ?_⟩, ?_,
    (leads_unhold s' _).onward.1⟩
  · have hlets := (letsGo_releaseNode { s' with held := s'.held.erase (.node id) } id).scopes
    exact congrArg (·.find? x) hlets
  · have hne : j ≠ id := by
      rintro rfl
      obtain ⟨k, hk, hkind⟩ := hj
      rw [hid', Option.some.injEq] at hk
      exact hkind hk.symm
    have hless : Leads s' { s' with held := s'.held.erase (.node id) } :=
      Leads.aside (by constructor <;> rfl)
    have hdropped : Leads s' (dropNode { s' with held := s'.held.erase (.node id) } id) :=
      hless.trans (leads_dropNode _ id)
    have hdrop : (dropNode { s' with held := s'.held.erase (.node id) } id).graph.contains j =
        s'.graph.contains j := contains_dropNode _ hne
    show (releaseNode _ id).graph.contains j = _
    rw [releaseNode]
    split
    · exact hdrop
    · rw [contains_sweep (typing.path hs' hdropped.path) (hdropped.before.mayRead hj), hdrop]
  · exact (letsGo_releaseNode { s' with held := s'.held.erase (.node id) } id).names

/-- A signal that was given a value, and all that depends on it marked. -/
theorem replaced (hid : s.kinds[id.index]? = some .source) (v : Json) :
    s.Scribbles ((s.setCell id (.signal v)).markChanged id) := by
  have hwrite : Leads s (s.setCell id (.signal v)) := .one (.write id v hid)
  refine ⟨hwrite.path.tail (.inr (.notify id)), ⟨fun _ => rfl, fun j _ => ?_⟩, rfl,
    hwrite.onward.1.trans (onward_markChanged _ id)⟩
  exact (Graph.sameEdges_markChanged (s.setCell id (.signal v)).graph id).contains_eq j

end State.Scribbles

/-- Whether a computed value is being evaluated can be told from what is open. -/
theorem inDerived_congr {t t' : Tracking}
    (h : t'.sections.map (·.observer) = t.sections.map (·.observer)) :
    t'.inDerived = t.inDerived := by
  obtain ⟨l⟩ := t
  obtain ⟨l'⟩ := t'
  induction l generalizing l' with
  | nil =>
    obtain rfl : l' = [] := List.map_eq_nil_iff.1 h
    rfl
  | cons sec rest ih =>
    obtain ⟨sec', rest', rfl⟩ := List.exists_cons_of_ne_nil (l := l') (by rintro rfl; simp at h)
    simp only [List.map_cons, List.cons.injEq] at h
    obtain ⟨o, reads⟩ := sec
    obtain ⟨o', reads'⟩ := sec'
    obtain rfl : o' = o := h.1
    cases o' with
    | untracked => exact ih rest' h.2
    | derived id => rfl
    | effect id => rfl

theorem gives_replaceSignal (hbatch : s.queue.canFlush = false)
    (hid : s.kinds[id.index]? = some .source) (v : Json) :
    Gives (fun κ => replaceValue κ id (.signal v)) s fun _ t => s.Scribbles t := by
  have hscribbles := State.Scribbles.replaced hid v
  refine .change (.change ?_)
  exact ⟨(), _, .of_eq (settle_of_batching (hscribbles.onward.canFlush.trans hbatch)), hscribbles⟩

theorem gives_holdingSignal {α : Type} {x : Kernel → Run α} (hs : s.Typed)
    (hid : s.kinds[id.index]? = some .source)
    (h : Gives x (s.hold (.node id)) fun _ t => (s.hold (.node id)).Scribbles t) :
    Gives (fun κ => holding id (x κ)) s fun _ t => s.Scribbles t := by
  have hhold : s.Scribbles (s.hold (.node id)) := .of_leads (leads_hold s _) rfl rfl rfl
  exact .holding (h.imp fun _ t ht => (hhold.trans ht).unhold hs hid)

private theorem gives_writeSignal (hs : s.Typed) (hbatch : s.queue.canFlush = false)
    (hid : s.kinds[id.index]? = some .source) (v : Json) :
    Gives (fun κ => write κ id v) s fun _ t => s.Scribbles t := by
  refine gives_holdingSignal hs hid (.look ?_)
  by_cases heq : (s.hold (.node id)).signalValue id == v
  · simp only [heq, if_true]
    exact .ret (.refl _)
  · simp only [heq, if_false, Bool.false_eq_true]
    exact (gives_replaceSignal (s := s.hold (.node id)) hbatch hid v).map fun _ _ ht => ht

private theorem gives_overwriteSignal (hs : s.Typed) (hbatch : s.queue.canFlush = false)
    (hid : s.kinds[id.index]? = some .source) (v : Json) :
    Gives (fun κ => overwrite κ id v) s fun _ t => s.Scribbles t :=
  gives_holdingSignal hs hid (gives_replaceSignal (s := s.hold (.node id)) hbatch hid v)

/-- What is like a signal is read without anything being computed. -/
theorem gives_readSignal (hs : s.Typed) {x : String} (hx : s.IsDirect x) :
    Gives (fun κ => read κ x) s fun _ t => s.Scribbles t := by
  refine .look ?_
  have hread (id : NodeId) (hid : s.kinds[id.index]? = some .source) :
      Gives (fun _ => do recordRead id; return some ((← get).signalValue id)) s
        fun _ t => s.Scribbles t := by
    refine .change (.look (.ret ?_))
    exact .of_leads (.one (.record id ⟨_, hid, by simp⟩)) rfl rfl rfl
  cases hhandle : s.handle? x with
  | none => exact .ret (.refl s)
  | some hd =>
    have hdirect := hx hd hhandle
    have hsuits := suits_of_handle? hs hhandle
    cases hd with
    | signal id => exact hread id hsuits
    | pair id => exact hread id hsuits
    | computed id => exact hdirect.elim
    | query id key => exact hdirect.elim
    | _ => exact .ret (.refl s)

private theorem gives_writable (hwritable : s.tracking.inDerived = false) :
    Gives (fun _ => ensureWritable) s fun _ t => t = s := by
  refine .look ?_
  simp only [hwritable, Bool.false_eq_true, if_false]
  exact .ret rfl

/-- An untracked section is left as it was entered. -/
theorem gives_untrackedWriting {α : Type} {x : Kernel → Run α}
    (h : Gives x (s.modifyTracking (·.enter .untracked)) fun _ t =>
      (s.modifyTracking (·.enter .untracked)).Scribbles t) :
    Gives (fun κ => untracked (x κ)) s fun _ t => s.Scribbles t := by
  have hopen : Path s (s.modifyTracking (·.enter .untracked)) :=
    .single (.inr (.openSection .untracked))
  refine .untracked (h.imp fun _ t ht => ?_)
  exact ⟨(hopen.trans ht.path).tail (.inr .dropSection),
    ⟨ht.spares.scopes, ht.spares.computations⟩, ht.names, ht.onward.leave t.graph⟩

/-- A batch inside a batch. -/
theorem gives_batchWriting {α : Type} {x : Kernel → Run α} (hbatch : s.queue.canFlush = false)
    (h : Gives x (s.modifyQueue Queue.enterBatch) fun _ t =>
      (s.modifyQueue Queue.enterBatch).Scribbles t) :
    Gives (fun κ => batch κ (x κ)) s fun _ t => s.Scribbles t := by
  have hopen : Path s (s.modifyQueue Queue.enterBatch) :=
    .single (.inr (.pace Queue.enterBatch fun _ => rfl))
  refine .batch (h.imp fun _ t ht => ?_)
  have hclosed : s.Scribbles (t.modifyQueue Queue.exitBatch) :=
    ⟨(hopen.trans ht.path).tail (.inr (.pace Queue.exitBatch fun _ => rfl)),
      ⟨ht.spares.scopes, ht.spares.computations⟩, ht.names,
      ⟨congrArg (· - 1) ht.onward.batches, ht.onward.flushing, ht.onward.observers⟩⟩
  exact ⟨(), _, .of_eq (settle_of_batching (hclosed.onward.canFlush.trans hbatch)), hclosed⟩

/-- A call that writes or reads a signal, or logs. -/
theorem gives_opWriting (hs : s.Typed) (hbatch : s.queue.canFlush = false)
    (hwritable : s.tracking.inDerived = false) {o : Op}
    (ho : o.Writes (fun _ => True) (fun _ => True) s.IsDirect) :
    Gives (fun κ => performOp κ o) s fun _ t => s.Scribbles t := by
  have hsource {x : String} {id : NodeId} (hx : (s.handle? x).bind Handle.signal? = some id) :
      s.kinds[id.index]? = some .source := by
    obtain ⟨hd, hhandle, hid⟩ := Option.bind_eq_some_iff.1 hx
    exact kinds_of_signal? hid (suits_of_handle? hs hhandle)
  cases ho with
  | @set x v _ =>
    refine gives_withHandle (fun _ => .refl s) fun id hx => ?_
    have hbody : Gives (fun κ => do ensureWritable; let _ ← write κ id v) s
        fun _ t => s.Scribbles t :=
      (gives_writable hwritable).bind fun _ t ht => by
        subst ht
        exact (gives_writeSignal hs hbatch (hsource hx) v).map fun _ _ h => h
    exact hbody.map fun _ _ h => h
  | @trySet x v _ =>
    refine gives_withHandle (fun _ => .refl s) fun id hx => .look ?_
    simp only [hwritable, Bool.false_eq_true, if_false]
    exact (gives_writeSignal hs hbatch (hsource hx) v).map fun _ _ h => h
  | @update x v _ =>
    refine gives_withHandle (fun _ => .refl s) fun id hx => ?_
    have hbody : Gives (fun κ => do ensureWritable; overwrite κ id v) s
        fun _ t => s.Scribbles t :=
      (gives_writable hwritable).bind fun _ t ht => by
        subst ht
        exact gives_overwriteSignal hs hbatch (hsource hx) v
    exact hbody.map fun _ _ h => h
  | @tryUpdate x v _ =>
    refine gives_withHandle (fun _ => .refl s) fun id hx => .look ?_
    simp only [hwritable, Bool.false_eq_true, if_false]
    have hid : s.kinds[id.index]? = some .source := by
      obtain ⟨hd, hhandle, hid⟩ := Option.bind_eq_some_iff.1 hx
      have hsuits := suits_of_handle? hs hhandle
      cases hd <;> simp only [Option.some.injEq, reduceCtorEq] at hid
      exact hid ▸ hsuits
    have hbody : Gives (fun κ => do overwrite κ id v; return true) s fun _ t => s.Scribbles t :=
      (gives_overwriteSignal hs hbatch hid v).map fun _ _ h => h
    exact hbody.map fun _ _ h => h
  | get hx => exact gives_readSignal hs hx
  | peek hx =>
    have hentered : (s.modifyTracking (·.enter .untracked)).Typed :=
      hs.passage (.openSection .untracked)
    exact gives_untrackedWriting (gives_readSignal hentered hx)
  | @log v _ =>
    have hlog : s.Scribbles (s.addLog v) :=
      .of_leads (Leads.aside (by constructor <;> rfl)) rfl rfl rfl
    exact ⟨none, s.addLog v, .of_eq fun _ => rfl, hlog⟩

private theorem State.Scribbles.isDirect (h : s.Scribbles s') {x : String} (hx : s.IsDirect x) :
    s'.IsDirect x := by
  intro hd hhandle
  refine hx hd ?_
  rw [handle?, ← h.names]
  exact hhandle

/-- A program that writes ends normally inside a batch, and leaves scopes and computations as they
are. -/
theorem gives_scribbles {p : Program} (hs : s.Typed) (hbatch : s.queue.canFlush = false)
    (hwritable : s.tracking.inDerived = false) {sees : String → Prop}
    (hp : p.Writes (fun _ => True) (fun _ => True) sees) (hsees : ∀ x, sees x → s.IsDirect x) :
    Gives (fun κ => exec κ p) s fun _ t => s.Scribbles t := by
  rw [Program.Writes] at hp
  generalize (fun _ => True : Outcome → Prop) = ends at hp
  -- Behind a part the rest still writes inside a batch.
  have hafter {s u : State} {x : Kernel → Run Outcome} (hs : s.Typed)
      (hbatch : s.queue.canFlush = false) (hwritable : s.tracking.inDerived = false)
      (hsees : ∀ x, sees x → s.IsDirect x) (hu : s.Scribbles u)
      (h : u.Typed → u.queue.canFlush = false → u.tracking.inDerived = false →
        (∀ x, sees x → u.IsDirect x) → Gives x u fun _ t => u.Scribbles t) :
      Gives x u fun _ t => s.Scribbles t :=
    (h (typing.path hs hu.path) (hu.onward.canFlush.trans hbatch)
      ((inDerived_congr hu.onward.observers).trans hwritable)
      fun x hx => hu.isDirect (hsees x hx)).imp fun _ _ ht => hu.trans ht
  induction hp generalizing s with
  | stop _ => exact .ret (.refl s)
  | @op ends o next allowed rest ih =>
    have hop : o.Writes (fun _ => True) (fun _ => True) s.IsDirect := by
      cases allowed with
      | get hx => exact .get (hsees _ hx)
      | peek hx => exact .peek (hsees _ hx)
      | set x h => exact .set x h
      | trySet x h => exact .trySet x h
      | update x h => exact .update x h
      | tryUpdate x h => exact .tryUpdate x h
      | log h => exact .log h
    refine (gives_opWriting hs hbatch hwritable hop).bind fun a u hu => ?_
    exact hafter hs hbatch hwritable hsees hu fun hs' hb' hw' hd' =>
      ih a (fun _ _ => trivial) hs' hb' hw' hd'
  | @within ends e body next allowed inside rest ihbody ihnext =>
    have hrest (h : Gives (fun κ => enclose κ e body) s fun r t => r.2 = none ∧ s.Scribbles t) :
        Gives (fun κ => exec κ (.within e body next)) s fun _ t => s.Scribbles t := by
      refine h.bind ?_
      rintro ⟨o, a⟩ u ⟨hnone, hu⟩
      obtain rfl : a = none := hnone
      exact hafter hs hbatch hwritable hsees hu fun hs' hb' hw' hd' =>
        ihnext o trivial hs' hb' hw' hd'
    cases allowed with
    | plain =>
      exact hrest (.map (.callExec (ihbody hs hbatch hwritable hsees)) fun _ _ ht => ⟨rfl, ht⟩)
    | batch =>
      have hentered : (s.modifyQueue Queue.enterBatch).Typed :=
        hs.passage (.pace Queue.enterBatch fun _ => rfl)
      exact hrest (.map (gives_batchWriting hbatch (.callExec
        (ihbody hentered (Queue.canFlush_enterBatch _) hwritable hsees))) fun _ _ ht => ⟨rfl, ht⟩)
    | untrack =>
      have hentered : (s.modifyTracking (·.enter .untracked)).Typed :=
        hs.passage (.openSection .untracked)
      exact hrest (.map (gives_untrackedWriting (.callExec
        (ihbody hentered hbatch hwritable hsees))) fun _ _ ht => ⟨rfl, ht⟩)

end Rivulet.Engine
