import Rivulet.Proofs.Disposal.Performing

/-!
# The end of a scope follows its agenda

The engine ends a scope by calling itself for each child, for the scopes of the effects that leave
the graph, and for the cleanups, each time inside a batch of its own. If the cleanups end normally
and leave scopes and computations as they are, all that comes to the agenda that could be read off
the forest beforehand, with the waiting effects run behind it.
-/

namespace Rivulet.Engine

variable {s s' s'' : State} {id : ScopeId}

/-- Nothing runs at the end of an inner batch. -/
theorem settle_of_batching (h : s.queue.canFlush = false) (κ : Kernel) :
    settle κ s = .ok () s := by
  show (if s.queue.canFlush then flush κ else pure ()) s = _
  rw [h]
  rfl

/-- Behind the work in a batch what waits is settled. -/
theorem batch_eq {κ : Kernel} {x : Run Unit}
    (h : x (s.modifyQueue Queue.enterBatch) = .ok () s') :
    batch κ x s = settle κ (s'.modifyQueue Queue.exitBatch) := by
  have hbody : batch κ x s = (do settle κ; return ()) (s'.modifyQueue Queue.exitBatch) :=
    (run_bind_ok (onInterrupt_ok h (·.modifyQueue Queue.exitBatch)))
  rw [hbody]
  cases hsettle : settle κ (s'.modifyQueue Queue.exitBatch) with
  | ok a s'' => exact run_bind_ok hsettle
  | error e s'' => exact run_bind_error hsettle _

private theorem removeScope_gone (hid : s.scopes.find? id = none) (κ : Kernel) :
    removeScope κ id s = .ok () s := by
  have htaken : (modifyGet fun s : State =>
      ((s.scopes.remove id).1, { s with scopes := (s.scopes.remove id).2 }) : Run _) s =
        .ok none s := by
    show EStateM.Result.ok (s.scopes.remove id).1 { s with scopes := (s.scopes.remove id).2 } = _
    rw [Scopes.remove_of_gone hid]
  exact run_bind_ok htaken

theorem removeScope_live {scope : Scopes.Scope Cleanup Handler}
    (hid : s.scopes.find? id = some scope) (κ : Kernel) :
    removeScope κ id s = guarding State.sweep (teardown κ scope.holdings)
      { s with scopes := (s.scopes.remove id).2 } := by
  have htaken : (modifyGet fun s : State =>
      ((s.scopes.remove id).1, { s with scopes := (s.scopes.remove id).2 }) : Run _) s =
        .ok (some scope) { s with scopes := (s.scopes.remove id).2 } := by
    show EStateM.Result.ok (s.scopes.remove id).1 { s with scopes := (s.scopes.remove id).2 } = _
    rw [Scopes.fst_remove, hid]
  exact run_bind_ok htaken

/-- The end of a scope that is gone only settles what waits. -/
theorem disposeScope_gone (hid : s.scopes.find? id = none) (κ : Kernel) :
    disposeScope κ id s = settle κ s :=
  batch_eq (removeScope_gone (s := s.modifyQueue Queue.enterBatch) hid κ)

/-- A call for the end of a scope inside a batch. -/
theorem yields_dispose
    (h : ∃ depth, ∀ n, depth ≤ n → disposeScope (kernel n) id s = settle (kernel n) s')
    (hbatch : s'.queue.canFlush = false) : Yields (fun κ => κ.dispose id) s () s' := by
  obtain ⟨depth, hdepth⟩ := h
  have hdispose : Yields (fun κ => disposeScope κ id) s () s' :=
    ⟨depth, fun n hn => (hdepth n hn).trans (settle_of_batching hbatch _)⟩
  have hanswer : Yields (fun κ => answer κ (.dispose id)) s (.value .null) s' :=
    hdispose.bind (.ret _ s')
  exact hanswer.call.bind (.ret () s')

theorem yields_dispose_gone (hid : s.scopes.find? id = none) (hbatch : s.queue.canFlush = false) :
    Yields (fun κ => κ.dispose id) s () s :=
  yields_dispose ⟨0, fun n _ => disposeScope_gone hid (kernel n)⟩ hbatch

/-- A node that was created, and is not an effect whose scope is live. -/
def State.Unscoped (s : State) (id : NodeId) : Prop :=
  id.index < s.kinds.size ∧ ∀ e, s.effect? id = some e →
    e.scope.index < s.scopes.next ∧ s.scopes.find? e.scope = none

theorem State.Before.unscoped {id : NodeId} (h : s.Before s') (hid : s.Unscoped id) :
    s'.Unscoped id := by
  refine ⟨Nat.lt_of_lt_of_le hid.1 h.size, fun e' he' => ?_⟩
  obtain ⟨e, he, hscope, -⟩ := h.effects id e' hid.1 he'
  obtain ⟨hlt, hgone⟩ := hid.2 e he
  rw [hscope]
  exact ⟨Nat.lt_of_lt_of_le hlt h.scopes.next, h.scopes.gone hlt hgone⟩

/-- The node that is taken out of the graph. -/
theorem snd_remove (g : Graph) (id : NodeId) : (g.remove id).2 = g.find? id := by
  rw [Graph.remove]
  split <;> simp_all

/-- An effect that was taken out of the graph must not run any more. -/
theorem yields_endRemoved {id : NodeId} {n : Graph.Node} {e : Effect}
    (he : s.effect? id = some e) (hgone : s.scopes.find? e.scope = none)
    (hbatch : s.queue.canFlush = false) :
    Yields (fun κ => endRemoved κ id (some n)) s ()
      (s.modifyEffect id ({ · with disposed := true })) := by
  have hdispose : Yields (fun κ => κ.dispose e.scope)
      (s.modifyEffect id ({ · with disposed := true })) ()
      (s.modifyEffect id ({ · with disposed := true })) :=
    yields_dispose_gone hgone hbatch
  obtain ⟨depth, hdepth⟩ := hdispose
  refine ⟨depth, fun k hk => ?_⟩
  have hstop : endRemoved (kernel k) id (some n) s = (do
      modify (·.modifyEffect id ({ · with disposed := true }))
      (kernel k).dispose e.scope : Run Unit) s := by
    rw [endRemoved]
    refine (run_bind_ok (x := get) (a := s) rfl).trans ?_
    simp only [he]
  exact hstop.trans ((run_bind_ok rfl).trans (hdepth k hk))

theorem endRemoved_other {id : NodeId} {removed : Option Graph.Node}
    (h : ¬ (removed.isSome ∧ (s.effect? id).isSome)) (κ : Kernel) :
    endRemoved κ id removed s = .ok () s := by
  rw [endRemoved]
  refine (run_bind_ok (x := get) (a := s) rfl).trans ?_
  cases removed with
  | none => rfl
  | some n =>
    cases he : s.effect? id with
    | none => rfl
    | some e => simp [he] at h

/-- A computation leaves the graph without anything running, if its scope has ended. -/
theorem yields_retire {id : NodeId} (hid : s.Unscoped id) (hbatch : s.queue.canFlush = false) :
    Yields (fun κ => retire κ id) s () (s.retired id) := by
  have hleads : Leads s ((s.hold (.node id)).detach id) :=
    (State.leads_hold s _).tail (.detach id)
  have hend : Yields (fun κ => removeNode κ id) (s.hold (.node id)) ()
      (if s.graph.contains id ∧ (s.effect? id).isSome then
        ((s.hold (.node id)).detach id).modifyEffect id ({ · with disposed := true })
      else (s.hold (.node id)).detach id) := by
    have htaken (κ : Kernel) : removeNode κ id (s.hold (.node id)) =
        endRemoved κ id (s.graph.find? id) ((s.hold (.node id)).detach id) := by
      rw [← snd_remove]
      exact run_bind_ok rfl
    simp only [Yields, htaken, Graph.contains_eq]
    split
    · rename_i hboth
      obtain ⟨n, hn⟩ := Option.isSome_iff_exists.1 hboth.1
      obtain ⟨e, he⟩ := Option.isSome_iff_exists.1 hboth.2
      rw [hn]
      exact yields_endRemoved he ((hleads.before.unscoped hid).2 e he).2 hbatch
    · rename_i hother
      exact Yields.of_eq (s := (s.hold (.node id)).detach id) (endRemoved_other hother)
  have hhold : Yields (fun _ => (modify (·.hold (.node id)) : Run Unit)) s ()
      (s.hold (.node id)) := .of_eq fun _ => rfl
  exact hhold.bind (hend.guarding (·.unhold (.node id)))

/-- Cleanups run one after the other. -/
theorem yields_cleanups {cs : List Cleanup} (h : Performs (cs.map .cleanup) s s')
    (hs : s.Typed) : Yields (fun κ => cs.forM (runCleanup κ)) s () s' ∧ s.Onward s' ∧
      ∀ x, s'.scopes.find? x = s.scopes.find? x := by
  induction cs generalizing s with
  | nil =>
    obtain rfl := performs_nil.1 h
    exact ⟨.ret () _, .refl _, fun _ => rfl⟩
  | cons c cs ih =>
    rw [List.map_cons, performs_cons] at h
    obtain ⟨u, ⟨hrun, hspares⟩, hrest⟩ := h
    obtain ⟨hpath, hbalanced⟩ := hrun.cleanup hs
    obtain ⟨hruns, honward, hscopes⟩ := ih hrest (typing.path hs hpath)
    exact ⟨hrun.bind hruns, hbalanced.onward.trans honward,
      fun x => (hscopes x).trans (hspares.scopes x)⟩

/-- Computations leave the graph one after the other. -/
theorem yields_retires {ids : List NodeId} (h : Performs (ids.map .retire) s s')
    (hids : ∀ id ∈ ids, s.Unscoped id) (hbatch : s.queue.canFlush = false) :
    Yields (fun κ => ids.forM (retire κ)) s () s' ∧ s.Onward s' ∧
      ∀ x, s'.scopes.find? x = s.scopes.find? x := by
  induction ids generalizing s with
  | nil =>
    obtain rfl := performs_nil.1 h
    exact ⟨.ret () _, .refl _, fun _ => rfl⟩
  | cons id ids ih =>
    rw [List.map_cons, performs_cons] at h
    obtain ⟨u, rfl, hrest⟩ := h
    have hleads := leads_retired s id
    obtain ⟨hruns, honward, hscopes⟩ := ih hrest
      (fun j hj => hleads.before.unscoped (hids j (List.mem_cons_of_mem id hj)))
      (hleads.onward.1.canFlush.trans hbatch)
    exact ⟨(yields_retire (hids id List.mem_cons_self) hbatch).bind hruns,
      hleads.onward.1.trans honward, fun x =>
      (hscopes x).trans (by rw [State.scopes_retired])⟩

section

variable {t : Scopes Cleanup Handler} {c p : ScopeId}

/-- The end of a scope as its agenda says, in a state in which the scope and what is below it are
as they were in a forest. -/
structure Follows (t : Scopes Cleanup Handler) (id : ScopeId) (s s' : State) : Prop where
  /-- The engine does the work, and settles what waits. -/
  run : ∃ depth, ∀ n, depth ≤ n → disposeScope (kernel n) id s = settle (kernel n) s'
  /-- The same is open as before. -/
  onward : s.Onward s'
  /-- The scope and what is below it are gone. -/
  gone : ∀ x, t.Below id x → s'.scopes.find? x = none
  /-- No other scope loses anything but the scope as a child. -/
  others : ∀ x, ¬ t.Below id x → s'.scopes.find? x = (s.scopes.find? x).map (·.forget id)

/-- A scope and what is below it are as in a forest. -/
def State.SameBelow (s : State) (t : Scopes Cleanup Handler) (id : ScopeId) : Prop :=
  ∀ x, t.Below id x → s.scopes.find? x = t.find? x

/-- The children of a scope that was taken away end one after the other. -/
theorem yields_children (ht : t.Forest) {cs : List ScopeId} (hcs : ∀ c ∈ cs, t.Child p c)
    (hnodup : cs.Nodup)
    (ih : ∀ c ∈ cs, ∀ s s' : State, s.Reached → s.SameBelow t c → Performs (t.agenda c) s s' →
      Follows t c s s')
    (hs : s.Reached) (hp : s.scopes.find? p = none) (hbatch : s.queue.canFlush = false)
    (hsub : ∀ c ∈ cs, s.SameBelow t c) (h : Performs (cs.flatMap t.agenda) s s') :
    Yields (fun κ => cs.forM κ.dispose) s () s' ∧ s.Onward s' ∧
      (∀ c ∈ cs, ∀ x, t.Below c x → s'.scopes.find? x = none) ∧
      ∀ x, (∀ c ∈ cs, ¬ t.Below c x) → s'.scopes.find? x = s.scopes.find? x := by
  induction cs generalizing s with
  | nil =>
    obtain rfl := performs_nil.1 h
    exact ⟨.ret () _, .refl _, by simp, fun _ _ => rfl⟩
  | cons c cs ihcs =>
    rw [List.flatMap_cons, performs_append] at h
    obtain ⟨u, hc, hrest⟩ := h
    have hchild := hcs c List.mem_cons_self
    have hfollows := ih c List.mem_cons_self s u hs (hsub c List.mem_cons_self) hc
    have hothers (x : ScopeId) (hx : ¬ t.Below c x) : u.scopes.find? x = s.scopes.find? x := by
      obtain ⟨sc, hsc, hparent⟩ := ht.parent_of_child hchild
      rw [← hsub c List.mem_cons_self c .refl] at hsc
      rw [hfollows.others x hx, hs.owned.forest.forget_orphan hsc hparent hp]
    have hbelow (d : ScopeId) (hd : d ∈ cs) {x : ScopeId} (hx : t.Below d x) : ¬ t.Below c x := by
      refine ht.disjoint_siblings (hcs d (List.mem_cons_of_mem c hd)) hchild ?_ hx
      rintro rfl
      exact (List.nodup_cons.1 hnodup).1 hd
    have hup : ¬ t.Below c p := fun hbelow =>
      absurd (ht.lt_of_child hchild) (Nat.not_lt.2 (ht.le_of_below hbelow))
    obtain ⟨hruns, honward, hgone, hsame⟩ := ihcs
      (fun d hd => hcs d (List.mem_cons_of_mem c hd)) (List.nodup_cons.1 hnodup).2
      (fun d hd => ih d (List.mem_cons_of_mem c hd)) (hs.path (hc.path hs.typed))
      ((hothers p hup).trans hp) (hfollows.onward.canFlush.trans hbatch)
      (fun d hd x hx => (hothers x (hbelow d hd hx)).trans
        (hsub d (List.mem_cons_of_mem c hd) x hx)) hrest
    refine ⟨?_, hfollows.onward.trans honward, fun d hd x hx => ?_, fun x hx => ?_⟩
    · exact (yields_dispose hfollows.run (hfollows.onward.canFlush.trans hbatch)).bind hruns
    · rcases List.mem_cons.1 hd with rfl | hd
      · rw [hsame x fun e he hx' => hbelow e he hx' hx]
        exact hfollows.gone x hx
      · exact hgone d hd x hx
    · rw [hsame x fun d hd => hx d (List.mem_cons_of_mem c hd)]
      exact hothers x (hx c List.mem_cons_self)

/-- Nothing is to do for a scope that is not there. -/
theorem follows_gone (hs : s.Reached) {id : ScopeId} (hid : t.find? id = none)
    (hgone : s.scopes.find? id = none) : Follows t id s s where
  run := ⟨0, fun n _ => disposeScope_gone hgone _⟩
  onward := .refl _
  gone x hx := by
    rcases Relation.ReflTransGen.cases_head hx with rfl | ⟨c, ⟨sc, hsc, -⟩, -⟩
    · exact hgone
    · simp [hid] at hsc
  others x hx := by
    cases hsx : s.scopes.find? x with
    | none => rfl
    | some sx =>
      rw [Option.map_some, Scopes.Scope.forget_of_not_mem]
      intro hmem
      obtain ⟨-, sc, hsc, -⟩ := hs.owned.forest.child hsx hmem
      simp [hgone] at hsc

/-- What is below a child stands behind the scope itself. -/
theorem lt_of_below_child (ht : t.Forest) {id x : ScopeId} (hc : t.Child id c) (hx : t.Below c x) :
    id.index < x.index :=
  Nat.lt_of_lt_of_le (ht.lt_of_child hc) (ht.le_of_below hx)

/-- When a scope is taken away, its children and what is below them stay as they are in the
forest. -/
theorem State.SameBelow.child {s₁ : State} (ht : t.Forest) {id : ScopeId}
    (hsub : s.SameBelow t id) (hc : t.Child id c) (hfind : ∀ x, s₁.scopes.find? x =
      if x = id then none else (s.scopes.find? x).map (·.forget id)) : s₁.SameBelow t c := by
  intro x hx
  have hlt := lt_of_below_child ht hc hx
  rw [hfind, if_neg (by rintro rfl; exact Nat.lt_irrefl _ hlt), hsub x (.head hc hx)]
  cases hsx : t.find? x with
  | none => rfl
  | some sx =>
    rw [Option.map_some, Scopes.Scope.forget_of_not_mem]
    exact fun hmem => Nat.lt_asymm hlt (ht.child hsx hmem).1

/-- Once a scope and its children are gone, the scopes of the effects that it owned have ended. -/
theorem unscoped_of_gone {s₁ : State} {id : ScopeId} {scope : Scopes.Scope Cleanup Handler}
    (hs : s.Owned) (hlive : s.scopes.find? id = some scope) (hpath : Path s s₁)
    (hself : s₁.scopes.find? id = none)
    (hchildren : ∀ c ∈ scope.holdings.children, s₁.scopes.find? c = none) {i : NodeId}
    (hi : i ∈ scope.holdings.computations) : s₁.Unscoped i := by
  have hcreated := State.lt_of_mayRead (hs.computations hlive hi)
  refine ⟨Nat.lt_of_lt_of_le hcreated hpath.before.size, fun e' he' => ?_⟩
  obtain ⟨e, he, hscope, -⟩ := hpath.before.effects i e' hcreated he'
  have hlt := hs.effects he
  rw [hscope]
  refine ⟨Nat.lt_of_lt_of_le hlt hpath.before.scopes.next, ?_⟩
  rcases hs.children hlive hi he with (heq | hchild) | hgone
  · rw [heq, hself]
  · exact hchildren _ hchild
  · exact hpath.before.scopes.gone hlt hgone

/-- What a scope held is taken down: its children, its cleanups, and its computations. -/
theorem yields_holdings (ht : t.Forest) {id : ScopeId} {scope : Scopes.Scope Cleanup Handler}
    (hid : t.find? id = some scope)
    (ih : ∀ c ∈ scope.holdings.children, ∀ s s' : State, s.Reached → s.SameBelow t c →
      Performs (t.agenda c) s s' → Follows t c s s')
    {s₁ s₂ s₃ s₄ : State} (hs : s.Reached) (hsub : s.SameBelow t id) (hpath : Path s s₁)
    (hbatch : s₁.queue.canFlush = false) (hfind : ∀ x, s₁.scopes.find? x =
      if x = id then none else (s.scopes.find? x).map (·.forget id))
    (hchildren : Performs (scope.holdings.children.flatMap t.agenda) s₁ s₂)
    (hcleanups : Performs (scope.holdings.cleanups.map .cleanup) s₂ s₃)
    (hretires : Performs (scope.holdings.computations.map .retire) s₃ s₄) :
    Yields (fun κ => teardown κ scope.holdings) s₁ () s₄ ∧ s₁.Onward s₄ ∧
      (∀ x, t.Below id x → s₄.scopes.find? x = none) ∧
      ∀ x, ¬ t.Below id x → s₄.scopes.find? x = (s.scopes.find? x).map (·.forget id) := by
  have hchild (c : ScopeId) (hc : c ∈ scope.holdings.children) : t.Child id c := ⟨scope, hid, hc⟩
  have hlive : s.scopes.find? id = some scope := (hsub id .refl).trans hid
  have hreached₁ := hs.path hpath
  have hreached₂ := hreached₁.path (hchildren.path hreached₁.typed)
  have hpath₃ : Path s s₃ :=
    (hpath.trans (hchildren.path hreached₁.typed)).trans (hcleanups.path hreached₂.typed)
  have hgone₁ : s₁.scopes.find? id = none := by rw [hfind, if_pos rfl]
  have hnodup : scope.holdings.children.Nodup := (ht.order hid).imp fun hlt => by
    rintro rfl
    exact Nat.lt_irrefl _ hlt
  obtain ⟨hrun₂, honward₂, hgone₂, hsame₂⟩ := yields_children ht hchild hnodup ih hreached₁ hgone₁
    hbatch (fun c hc => hsub.child ht (hchild c hc) hfind) hchildren
  obtain ⟨hrun₃, honward₃, hsame₃⟩ := yields_cleanups hcleanups hreached₂.typed
  have hself₂ : s₂.scopes.find? id = none :=
    (hsame₂ id fun c hc hx => Nat.lt_irrefl _ (lt_of_below_child ht (hchild c hc) hx)).trans hgone₁
  have hunscoped (i : NodeId) (hi : i ∈ scope.holdings.computations) : s₃.Unscoped i := by
    refine unscoped_of_gone hs.owned hlive hpath₃ ?_ (fun c hc => ?_) hi
    · rw [hsame₃, hself₂]
    · rw [hsame₃, hgone₂ c hc c .refl]
  obtain ⟨hrun₄, honward₄, hsame₄⟩ := yields_retires hretires hunscoped
    ((honward₂.trans honward₃).canFlush.trans hbatch)
  have hscopes (x : ScopeId) : s₄.scopes.find? x = s₂.scopes.find? x :=
    (hsame₄ x).trans (hsame₃ x)
  refine ⟨?_, (honward₂.trans honward₃).trans honward₄, fun x hx => ?_, fun x hx => ?_⟩
  · exact hrun₂.bind (y := fun κ _ => do
      scope.holdings.cleanups.forM (runCleanup κ)
      scope.holdings.computations.forM (retire κ)) (hrun₃.bind hrun₄)
  · rw [hscopes]
    rcases Relation.ReflTransGen.cases_head hx with rfl | ⟨c, ⟨sc, hsc, hc⟩, hx⟩
    · exact hself₂
    · rw [hid, Option.some.injEq] at hsc
      exact hgone₂ c (hsc ▸ hc) x hx
  · rw [hscopes, hsame₂ x fun c hc hx' => hx (.head (hchild c hc) hx'), hfind, if_neg]
    rintro rfl
    exact hx .refl

/-- The end of a scope follows its agenda, for all forests by induction from the children up. -/
theorem follows_agenda (ht : t.Forest) (id : ScopeId) (s s' : State) (hs : s.Reached)
    (hsub : s.SameBelow t id) (h : Performs (t.agenda id) s s') : Follows t id s s' := by
  induction id using ht.induct generalizing s s' with
  | gone id hid =>
    rw [Scopes.agenda_gone hid, performs_nil] at h
    subst h
    exact follows_gone hs hid ((hsub id .refl).trans hid)
  | node id scope hid ih =>
    have hlive : s.scopes.find? id = some scope := (hsub id .refl).trans hid
    rw [ht.agenda_eq hid, performs_cons] at h
    obtain ⟨s₁, hstart, h⟩ := h
    obtain ⟨s₂, hchildren, h⟩ := performs_append.1 h
    obtain ⟨s₃, hcleanups, h⟩ := performs_append.1 h
    obtain ⟨s₄, hretires, h⟩ := performs_append.1 h
    obtain ⟨s₅, hfinish, h⟩ := performs_cons.1 h
    obtain rfl := performs_nil.1 h
    -- The scope is taken away in a batch, and the batch ends when all that it held is gone.
    have hfind (x : ScopeId) : s₁.scopes.find? x =
        if x = id then none else (s.scopes.find? x).map (·.forget id) := by
      rw [show s₁ = _ from hstart]
      exact hs.owned.forest.find?_remove_eq
    have hbatch : s₁.queue.canFlush = false := by
      rw [show s₁ = _ from hstart]
      exact Queue.canFlush_enterBatch _
    obtain ⟨hrun, honward, hgone, hothers⟩ := yields_holdings ht hid ih hs hsub
      (hstart.path hs.typed) hbatch hfind hchildren hcleanups hretires
    have hscopes (x : ScopeId) : s'.scopes.find? x = s₄.scopes.find? x := by
      rw [show s' = _ from hfinish]
      show s₄.sweep.scopes.find? x = _
      rw [State.scopes_sweep]
    refine ⟨?_, ?_, fun x hx => (hscopes x).trans (hgone x hx),
      fun x hx => (hscopes x).trans (hothers x hx)⟩
    · obtain ⟨depth, hdepth⟩ := hrun.guarding State.sweep
      refine ⟨depth, fun n hn => ?_⟩
      rw [show s' = _ from hfinish]
      refine batch_eq ((removeScope_live (s := s.modifyQueue Queue.enterBatch) hlive _).trans ?_)
      have hends := hdepth n hn
      rw [show s₁ = _ from hstart] at hends
      exact hends
    · have hswept : s₁.Onward s₄.sweep := honward.trans (State.leads_sweep s₄).onward.1
      rw [show s₁ = _ from hstart] at hswept
      rw [show s' = _ from hfinish]
      exact ⟨congrArg (· - 1) hswept.batches, hswept.flushing, hswept.observers⟩

end

end Rivulet.Engine
