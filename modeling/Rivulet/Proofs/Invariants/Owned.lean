import Rivulet.Proofs.Batching.Observing
import Rivulet.Proofs.Invariants.Sessions

/-!
# Scopes own what was created in them

The scopes form a forest. What a live scope lists as its computations are computed values and
effects, and as long as the scope of an effect is live it is a child of the scope that owns the
effect. So it has ended when the turn of the effect comes.
-/

namespace Rivulet.Engine

/-- A state of a run, whatever the run does. -/
def State.Reached (s : State) : Prop :=
  ∃ procedures : Std.HashMap String Procedure, Path { procedures } s

/-- A law that holds at the start holds in every state of a run. -/
theorem State.Reached.holds {s : State} (h : s.Reached) (law : Law)
    (start : ∀ procedures, law.Holds { procedures }) : law.Holds s := by
  obtain ⟨procedures, hpath⟩ := h
  exact law.path (start procedures) hpath

/-- A state whose scopes own what was created in them. -/
structure State.Owned (s : State) : Prop where
  /-- The scopes form a forest. -/
  forest : s.scopes.Forest
  /-- The scope of an effect was created. -/
  effects : ∀ {id e}, s.effect? id = some e → e.scope.index < s.scopes.next
  /-- What a live scope lists are computed values and effects. -/
  computations : ∀ {p sp id}, s.scopes.find? p = some sp → id ∈ sp.holdings.computations →
    MayRead s.kinds id
  /-- The scope of an effect is a child of the scope that owns the effect, if not that scope, or
  gone. -/
  children : ∀ {p sp id e}, s.scopes.find? p = some sp → id ∈ sp.holdings.computations →
    s.effect? id = some e →
      (e.scope = p ∨ e.scope ∈ sp.holdings.children) ∨ s.scopes.find? e.scope = none

namespace State

/-- What lies behind a node was created. -/
theorem Typed.lt_of_effect {s : State} (hs : s.Typed) {id : NodeId} {e : Effect}
    (h : s.effect? id = some e) : id.index < s.kinds.size := by
  rw [effect?_eq_some] at h
  exact (Array.getElem?_eq_some_iff.1 (hs.cells id _ h)).1

/-- What may read has been created. -/
theorem lt_of_mayRead {kinds : Array Graph.Kind} {id : NodeId} (h : MayRead kinds id) :
    id.index < kinds.size := by
  obtain ⟨k, hk, -⟩ := h
  exact (Array.getElem?_eq_some_iff.1 hk).1

namespace Owned

variable {s s' : State}

/-- Behind a step in which no scope gains a computation or loses a live child. -/
theorem before (h : s.Owned) (hb : s.Before s') (hforest : s'.scopes.Forest)
    (hnew : ∀ {id e}, s'.effect? id = some e →
      id.index < s.kinds.size ∨ e.scope.index < s'.scopes.next)
    (hlists : ∀ {p sp' id}, s'.scopes.find? p = some sp' → id ∈ sp'.holdings.computations →
      ∃ sp, s.scopes.find? p = some sp ∧ id ∈ sp.holdings.computations ∧
        ∀ c ∈ sp.holdings.children, c ∈ sp'.holdings.children ∨ s'.scopes.find? c = none) :
    s'.Owned where
  forest := hforest
  effects he := by
    rcases hnew he with hold | hfresh
    · obtain ⟨e, he, hscope, -⟩ := hb.effects _ _ hold he
      rw [hscope]
      exact Nat.lt_of_lt_of_le (h.effects he) hb.scopes.next
    · exact hfresh
  computations hp hid := by
    obtain ⟨sp, hsp, hid, -⟩ := hlists hp hid
    exact hb.mayRead (h.computations hsp hid)
  children hp hid he := by
    obtain ⟨sp, hsp, hid, hkeeps⟩ := hlists hp hid
    obtain ⟨e, he, hscope, -⟩ := hb.effects _ _ (lt_of_mayRead (h.computations hsp hid)) he
    rw [hscope]
    rcases h.children hsp hid he with (hself | hchild) | hgone
    · exact .inl (.inl hself)
    · exact (hkeeps _ hchild).imp_left .inr
    · exact .inr (hb.scopes.gone (h.effects he) hgone)

/-- Behind a step that leaves the scopes as they are. -/
theorem sameScopes (h : s.Owned) (hs : s'.Typed) (hb : s.Before s')
    (hkinds : s'.kinds.size = s.kinds.size) (hscopes : s'.scopes.live = s.scopes.live)
    (hnext : s'.scopes.next = s.scopes.next) : s'.Owned := by
  have hfind (x : ScopeId) : s'.scopes.find? x = s.scopes.find? x := by
    rw [Scopes.find?, Scopes.find?, hscopes]
  refine h.before hb (h.forest.same hnext fun x => ?_)
    (fun he => .inl (hkinds ▸ hs.lt_of_effect he)) fun hp hid => ?_
  · rw [hfind]
    cases s.scopes.find? x <;> simp
  · rw [hfind] at hp
    exact ⟨_, hp, hid, fun _ hc => .inl hc⟩

/-- Behind a step that changes only scopes, and takes no live child away from a scope. -/
theorem scopes (h : s.Owned) {t : Scopes Cleanup Handler} (hs : s.Typed)
    (hahead : s.scopes.Ahead t) (hforest : t.Forest)
    (hlists : ∀ {p sp' id}, t.find? p = some sp' → id ∈ sp'.holdings.computations →
      ∃ sp, s.scopes.find? p = some sp ∧ id ∈ sp.holdings.computations ∧
        ∀ c ∈ sp.holdings.children, c ∈ sp'.holdings.children ∨ t.find? c = none) :
    ({ s with scopes := t } : State).Owned :=
  h.before (.same rfl (fun _ _ he => he) hahead) hforest (fun he => .inl (hs.lt_of_effect he))
    hlists

/-- A new scope owns nothing. -/
theorem withScope (h : s.Owned) (hs : s.Typed) (parent : Option ScopeId) :
    (s.withScope parent).Owned := by
  refine h.scopes hs (Scopes.ahead_create parent) (h.forest.create parent)
    fun {p sp' id} hp hid => ?_
  rw [Scopes.find?_create] at hp
  split at hp
  · obtain rfl := Option.some.inj hp
    simp at hid
  · split at hp
    · obtain ⟨sp, hsp, rfl⟩ := Option.map_eq_some_iff.1 hp
      exact ⟨sp, hsp, hid, fun c hc => .inl (List.mem_append_left _ hc)⟩
    · exact ⟨sp', hp, hid, fun c hc => .inl hc⟩

/-- A scope is removed with what it owned. -/
theorem removeScope (h : s.Owned) (hs : s.Typed) (id : ScopeId) :
    ({ s with scopes := (s.scopes.remove id).2 } : State).Owned := by
  refine h.scopes hs (Scopes.ahead_remove id) (h.forest.remove id) fun {p sp' i} hp hi => ?_
  cases hid : s.scopes.find? id with
  | none =>
    rw [Scopes.remove_of_gone hid] at hp
    exact ⟨sp', hp, hi, fun c hc => .inl hc⟩
  | some sid =>
    have hfind (x : ScopeId) := Scopes.find?_remove (x := x) hid
    rw [hfind] at hp
    split at hp
    · simp at hp
    · split at hp
      · obtain ⟨sp, hsp, rfl⟩ := Option.map_eq_some_iff.1 hp
        refine ⟨sp, hsp, hi, fun c hc => ?_⟩
        by_cases hne : c = id
        · exact .inr (by rw [hfind, if_pos hne])
        · exact .inl (List.mem_filter.2 ⟨hc, by simpa using hne⟩)
      · exact ⟨sp', hp, hi, fun c hc => .inl hc⟩

private theorem stripScope (h : s.Owned) (hs : s.Typed) (id : ScopeId) :
    ({ s with scopes := (s.scopes.strip id).2 } : State).Owned := by
  refine h.scopes hs (Scopes.ahead_strip id) (h.forest.strip id) fun {p sp' i} hp hi => ?_
  rw [Scopes.find?_strip] at hp
  split at hp
  · obtain ⟨sp, -, rfl⟩ := Option.map_eq_some_iff.1 hp
    simp at hi
  · exact ⟨sp', hp, hi, fun c hc => .inl hc⟩

/-- A change of a scope that leaves its parent, its children and its computations alone. -/
theorem modifyScope (h : s.Owned) (hs : s.Typed) (id : ScopeId)
    {f : Scopes.Scope Cleanup Handler → Scopes.Scope Cleanup Handler}
    (hf : ∀ sc, (f sc).parent = sc.parent ∧ (f sc).holdings.children = sc.holdings.children ∧
      (f sc).holdings.computations = sc.holdings.computations) :
    ({ s with scopes := s.scopes.modify id f } : State).Owned := by
  refine h.scopes hs (Scopes.ahead_modify id f)
    (h.forest.modify fun sc => ⟨(hf sc).1, (hf sc).2.1⟩) fun {p sp' i} hp hi => ?_
  rw [Scopes.find?_modify] at hp
  split at hp
  · obtain ⟨sp, hsp, rfl⟩ := Option.map_eq_some_iff.1 hp
    rw [(hf sp).2.2] at hi
    exact ⟨sp, hsp, hi, fun c hc => .inl ((hf sp).2.1.symm ▸ hc)⟩
  · exact ⟨sp', hp, hi, fun c hc => .inl hc⟩

/-- A new node has its effect in a scope that was created. -/
theorem withNode (h : s.Owned) (hs : s.Typed) {kind : Graph.Kind} {c : Cell}
    (hc : ∀ e, c = .effect e → e.scope.index < s.scopes.next) : (s.withNode kind c).Owned := by
  refine h.before (.withNode s kind c) h.forest (fun {id e} he => ?_)
    fun hp hid => ⟨_, hp, hid, fun _ hc => .inl hc⟩
  by_cases hid : id = ⟨s.kinds.size⟩
  · subst hid
    rw [effect?_eq_some, State.withNode, Std.HashMap.getElem?_insert_self, Option.some.injEq] at he
    exact .inr (hc e he)
  · refine .inl (Typed.lt_of_effect hs (e := e) ?_)
    rw [effect?_eq_some] at he ⊢
    rwa [State.withNode, Std.HashMap.getElem?_insert, if_neg (by simpa using Ne.symm hid)] at he

/-- The current scope comes to own a computation. -/
theorem adopted (h : s.Owned) {id : NodeId} (hid : MayRead s.kinds id)
    (hchild : ∀ p sp e, s.scopes.current? = some p → s.scopes.find? p = some sp →
      s.effect? id = some e → e.scope = p ∨ e.scope ∈ sp.holdings.children) :
    (s.adopted id).Owned := by
  rw [State.adopted]
  split
  · rename_i p hp
    have hfind (x : ScopeId) : (s.scopes.adopt p id).find? x = _ := Scopes.find?_modifyHoldings _
    have hgone {x : ScopeId} (hx : s.scopes.find? x = none) :
        (s.scopes.adopt p id).find? x = none := by
      rw [hfind, hx]
      simp
    refine ⟨h.forest.modify fun _ => ⟨rfl, rfl⟩, h.effects, fun {x sx i} hx hi => ?_,
      fun {x sx i e} hx hi he => ?_⟩
    all_goals
      replace hx : (s.scopes.adopt p id).find? x = some sx := hx
      rw [hfind] at hx
      split at hx
    · rename_i hxp
      obtain ⟨sp, hsp, rfl⟩ := Option.map_eq_some_iff.1 hx
      rcases List.mem_append.1 hi with hi | hi
      · exact h.computations hsp hi
      · exact List.mem_singleton.1 hi ▸ hid
    · exact h.computations hx hi
    · rename_i hxp
      subst hxp
      obtain ⟨sp, hsp, rfl⟩ := Option.map_eq_some_iff.1 hx
      rcases List.mem_append.1 hi with hi | hi
      · exact (h.children hsp hi he).imp_right hgone
      · exact .inl (hchild _ sp e hp hsp (List.mem_singleton.1 hi ▸ he))
    · exact (h.children hx hi he).imp_right hgone
  · exact h

private theorem withComputed (h : s.Owned) (hs : s.Typed) (p : Program) :
    (s.withComputed p).Owned := by
  have hnode : (s.withNode .derived (.computed p none)).Owned := h.withNode hs (by simp)
  refine hnode.adopted ⟨.derived, by simp [State.withNode], by simp⟩ fun _ _ e _ _ he => ?_
  rw [effect?_eq_some, State.withNode, Std.HashMap.getElem?_insert_self] at he
  simp at he

/-- The scope of a new effect is a child of the scope that comes to own the effect, unless it was
made current before it was there. -/
theorem withReaction (h : s.Owned) (hs : s.Typed) (reaction : Reaction) (supply : Option Supply) :
    (s.withReaction reaction supply).Owned := by
  have hscope := h.withScope hs s.scopes.current?
  have htyped : (s.withScope s.scopes.current?).Typed := hs.same rfl rfl rfl rfl rfl rfl
  have hnode : ((s.withScope s.scopes.current?).withNode .effect
      (.effect { reaction, scope := ⟨s.scopes.next⟩, supply })).Owned :=
    hscope.withNode htyped fun e he => by
      cases he
      exact Scopes.next_create s.scopes.current? ▸ Nat.lt_succ_self _
  refine hnode.adopted ⟨.effect, by simp [State.withNode, State.withScope], by simp⟩ ?_
  intro p sp e hp hsp he
  rw [effect?_eq_some, State.withNode, State.withScope, Std.HashMap.getElem?_insert_self,
    Option.some.injEq, Cell.effect.injEq] at he
  subst he
  have hcurrent : s.scopes.current? = some p := by
    have hstack : (s.scopes.create s.scopes.current?).2.stack = s.scopes.stack := by
      rw [Scopes.create]
      split <;> rfl
    rw [Scopes.current?, ← hstack]
    exact hp
  have hfind : (s.scopes.create s.scopes.current?).2.find? p = some sp := hsp
  rw [Scopes.find?_create] at hfind
  split at hfind
  · rename_i hself
    exact .inl hself.symm
  · split at hfind
    · obtain ⟨sp, -, rfl⟩ := Option.map_eq_some_iff.1 hfind
      exact .inr (by simp)
    · rename_i hparent
      refine absurd ?_ hparent
      rw [hcurrent, Scopes.parentFor, Option.filter_some, Scopes.contains_eq, hfind]
      simp

/-- Every change leaves the scopes the owners of what was created in them. -/
theorem change (h : s.Owned) (hs : s.Typed) (hstep : Change s s') : s'.Owned := by
  have htyped := hs.change hstep
  have hb := hstep.before
  cases hstep with
  | aside hsame =>
    exact h.sameScopes htyped hb (by rw [hsame.kinds]) (by rw [hsame.scopes])
      (by rw [hsame.scopes])
  | keep id v =>
    refine h.sameScopes htyped hb ?_ ?_ ?_
    all_goals
      rw [State.keepValue]
      split
      · split <;> rfl
      · rfl
  | drop id =>
    refine h.sameScopes htyped hb ?_ ?_ ?_
    all_goals
      rw [State.dropNode]
      split <;> rfl
  | newSource c hc =>
    refine h.withNode hs fun e he => ?_
    subst he
    simp [Cell.kind] at hc
  | newComputed p => exact h.withComputed hs p
  | newEffect reaction supply => exact h.withReaction hs reaction supply
  | newScope parent => exact h.withScope hs parent
  | cleanup c hadded =>
    obtain ⟨id, rfl⟩ := Scopes.addCleanup?_eq hadded
    exact h.modifyScope hs id fun _ => ⟨rfl, rfl, rfl⟩
  | handler id hnew => exact h.modifyScope hs id fun _ => ⟨rfl, rfl, rfl⟩
  | removeScope id => exact h.removeScope hs id
  | stripScope id => exact h.stripScope hs id
  | _ => exact h.sameScopes htyped hb rfl rfl rfl

/-- Passages have nothing to do with scopes. -/
theorem passage (h : s.Owned) (hs : s.Typed) (hstep : Passage s s') : s'.Owned := by
  have htyped := hs.passage hstep
  have hb := hstep.before
  cases hstep with
  | schedule id hid =>
    refine h.sameScopes htyped hb ?_ ?_ ?_
    all_goals
      rw [State.scheduled]
      split <;> rfl
  | _ => exact h.sameScopes htyped hb rfl rfl rfl

end Owned

end State

/-- The law that scopes own what was created in them. -/
def ownership : Law :=
  .of State.Owned (fun hs h hstep => h.change hs hstep) fun hs h hstep => h.passage hs hstep

private theorem ownership_start (procedures : Std.HashMap String Procedure) :
    ownership.Holds { procedures } := by
  refine ⟨typed_start procedures, Scopes.forest_empty, ?_, ?_, ?_⟩ <;> intros <;>
    simp_all [Scopes.find?, State.effect?]

/-- In every state of a run the scopes own what was created in them. -/
theorem State.Reached.owned {s : State} (h : s.Reached) : s.Owned :=
  (h.holds ownership ownership_start).2

/-- In a run nodes are what they were created as. -/
theorem State.Reached.typed {s : State} (h : s.Reached) : s.Typed :=
  h.holds typing typed_start

/-- From a state of a run a path leads to another one. -/
theorem State.Reached.path {s s' : State} (h : s.Reached) (hpath : Path s s') : s'.Reached := by
  obtain ⟨procedures, hstart⟩ := h
  exact ⟨procedures, hstart.trans hpath⟩

end Rivulet.Engine

namespace Rivulet.Script

open Engine

/-- A session goes from one state of a run to the next. -/
theorem reached_perform {s : State} (h : s.Reached) (step : Step) :
    (step.perform s).2.Reached := by
  rw [snd_perform]
  exact h.path (path_after maxDepth step h.typed)

end Rivulet.Script
