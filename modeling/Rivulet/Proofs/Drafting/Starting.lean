import Rivulet.Proofs.Drafting.Glancing

/-!
# What was drawn ends, and effects start

What an effect does when it is created, and what happens to what it has drawn when its scope ends.

When the scope of something that was drawn ends, the cleanups below it run. They look, or take a
listener away, so each document keeps its nodes, and everything else that is drawn stays as it was.

An effect runs once when it is created. Its scope is new, so nothing ends for that, and what it does
is all that happens.
-/

namespace Rivulet.Engine

namespace State

variable {s s' s'' : State} {k : Nat}

/-- A state behind another one that is as good to draw in, in which documents may have lost
listeners. -/
structure Fades (s s' : State) : Prop extends s.Preserves s' where
  /-- Documents keep their nodes. -/
  documents : ∀ {i : Nat} {d}, s.documents[i]? = some d →
    ∃ d', s'.documents[i]? = some d' ∧ d.SameNodes d'
  /-- All else that is drawn is the same. -/
  canvas : ∃ documents, s'.canvas = { s.canvas with documents }

namespace Fades

/-- Where nothing is drawn, nothing fades. -/
theorem of_idles (h : s.Idles s') : s.Fades s' where
  toPreserves := h.toPreserves
  documents {i d} hd := by
    have hsame : s'.documents = s.documents := congrArg Canvas.documents h.canvas
    exact ⟨d, hsame ▸ hd, .refl d⟩
  canvas := ⟨s.documents, h.canvas⟩

theorem trans (h : s.Fades s') (h' : s'.Fades s'') : s.Fades s'' where
  toPreserves := h.toPreserves.trans h'.toPreserves
  documents hd := by
    obtain ⟨d', hd', hsame⟩ := h.documents hd
    obtain ⟨d'', hd'', hsame'⟩ := h'.documents hd'
    exact ⟨d'', hd'', hsame.trans hsame'⟩
  canvas := by
    obtain ⟨documents, hcanvas⟩ := h.canvas
    obtain ⟨documents', hcanvas'⟩ := h'.canvas
    exact ⟨documents', by rw [hcanvas', hcanvas]⟩

private theorem batch (h : (s.modifyQueue Queue.enterBatch).Fades s') :
    s.Fades (s'.modifyQueue Queue.exitBatch) :=
  ⟨h.toPreserves.batch, h.documents, h.canvas⟩

end Fades

instance : Bearing Fades := ⟨Fades.of_idles, Fades.trans, Fades.toPreserves⟩

/-- A listener is taken away. -/
theorem fades_unlisten (s : State) (document : DocumentId) (node : DomId) (listener : Nat) :
    s.Fades (s.modifyDocument document (·.unlisten node listener)) where
  toPreserves := preserves_aside ⟨rfl, rfl, rfl, rfl, rfl, rfl, rfl, rfl⟩ rfl rfl
  documents {i d} hd := by
    rw [modifyDocument, Array.getElem?_modify]
    split
    · exact ⟨d.unlisten node listener, by rw [hd, Option.map_some], .unlisten d node listener⟩
    · exact ⟨d, hd, .refl d⟩
  canvas := ⟨_, rfl⟩

/-- Scopes lose what they own, or go. -/
theorem Hushed.shrink {scopes : Scopes Cleanup Handler}
    (h : ∀ {x sx}, scopes.find? x = some sx → ∀ c ∈ sx.holdings.cleanups,
      ∃ sx', s.scopes.find? x = some sx' ∧ c ∈ sx'.holdings.cleanups) (hs : s.Hushed k) :
    ({ s with scopes } : State).Hushed k :=
  hs.less (fun hcell => ⟨_, hcell⟩) h

/-- Removing a scope draws nothing. -/
theorem idles_removeScope (s : State) (id : ScopeId) :
    s.Idles { s with scopes := (s.scopes.remove id).2 } where
  path := .single (.inl (.removeScope id))
  batches := rfl
  flushing := rfl
  pending hs := hs
  deferred := rfl
  supplies := rfl
  hushed := Hushed.shrink fun {x sx} hx c hc => by
    cases hid : s.scopes.find? id with
    | none =>
      rw [Scopes.remove_of_gone hid] at hx
      exact ⟨sx, hx, hc⟩
    | some sid =>
      rw [Scopes.find?_remove hid] at hx
      split at hx
      · cases hx
      · split at hx
        · obtain ⟨sp, hsp, rfl⟩ := Option.map_eq_some_iff.1 hx
          exact ⟨sp, hsp, hc⟩
        · exact ⟨sx, hx, hc⟩
  canvas := rfl

/-- Stripping a scope draws nothing. -/
theorem idles_stripScope (s : State) (id : ScopeId) :
    s.Idles { s with scopes := (s.scopes.strip id).2 } where
  path := .single (.inl (.stripScope id))
  batches := rfl
  flushing := rfl
  pending hs := hs
  deferred := rfl
  supplies := rfl
  hushed := Hushed.shrink fun {x sx} hx c hc => by
    rw [Scopes.find?_strip] at hx
    split at hx
    · obtain ⟨sp, -, rfl⟩ := Option.map_eq_some_iff.1 hx
      simp at hc
    · exact ⟨sx, hx, hc⟩
  canvas := rfl

/-- A node that was created; if it is an effect, its scope was created, and has a number from a
given one on unless it is gone. -/
def Within (s : State) (k : Nat) (id : NodeId) : Prop :=
  id.index < s.kinds.size ∧ ∀ e, s.effect? id = some e →
    e.scope.index < s.scopes.next ∧ (k ≤ e.scope.index ∨ s.scopes.find? e.scope = none)

/-- What is within a scope stays so. -/
theorem Before.within {id : NodeId} (h : s.Before s') (hid : s.Within k id) : s'.Within k id := by
  refine ⟨Nat.lt_of_lt_of_le hid.1 h.size, fun e' he' => ?_⟩
  obtain ⟨e, he, hscope, -⟩ := h.effects id e' hid.1 he'
  obtain ⟨hlt, hor⟩ := hid.2 e he
  rw [hscope]
  exact ⟨Nat.lt_of_lt_of_le hlt h.scopes.next, hor.imp_right (h.scopes.gone hlt)⟩

/-- What a scope from a given number on owns comes from that number on. -/
theorem Owned.within (h : s.Owned) {p : ScopeId} {sp} (hk : k ≤ p.index)
    (hp : s.scopes.find? p = some sp) :
    (∀ c ∈ sp.holdings.children, k ≤ c.index) ∧ ∀ id ∈ sp.holdings.computations, s.Within k id := by
  have hchildren (c) (hc : c ∈ sp.holdings.children) : k ≤ c.index :=
    Nat.le_trans hk (Nat.le_of_lt (h.forest.child hp hc).1)
  refine ⟨hchildren, fun id hid => ⟨lt_of_mayRead (h.computations hp hid), fun e he => ?_⟩⟩
  refine ⟨h.effects he, ?_⟩
  rcases h.children hp hid he with (hself | hchild) | hgone
  · exact .inl (hself ▸ hk)
  · exact .inl (hchildren _ hchild)
  · exact .inr hgone

end State

open State

section

variable {R : State → State → Prop} [Bearing R] {κ : Kernel} {k : Nat} {s : State}

/-- One run after the other, each of them from where the others may have come. -/
theorem brings_forM {β : Type} {f : β → Run Unit} {l : List β}
    (h : ∀ b ∈ l, ∀ s', R s s' → Brings R k (f b) s' Whatever) :
    Brings R k (l.forM f) s Whatever := by
  have hfrom (l' : List β) (hl : ∀ b ∈ l', b ∈ l) (s' : State) (hs' : R s s') :
      Brings R k (l'.forM f) s' Whatever := by
    induction l' generalizing s' with
    | nil => exact .ret trivial
    | cons b l' ih =>
      refine (h b (hl b List.mem_cons_self) s' hs').bind fun _ s'' hR _ _ => ?_
      exact ih (fun c hc => hl c (List.mem_cons_of_mem b hc)) s'' (Bearing.trans hs' hR)
  exact hfrom l (fun _ hb => hb) s (Bearing.idles (.refl s))

/-! ## Ending scopes -/

/-- A kernel that ends scopes from a given number on so that documents keep their nodes. -/
def Kernel.Fades (κ : Kernel) : Prop :=
  ∀ {id : ScopeId} {k : Nat} {s : State}, k ≤ id.index ∨ s.scopes.find? id = none →
    Brings State.Fades k (κ.dispose id) s Whatever

/-- Retiring an effect that was created on the way. -/
theorem brings_retire (hκ : κ.Fades) {id : NodeId} (hid : s.Within k id) :
    Brings State.Fades k (retire κ id) s Whatever := by
  have hheld : (s.hold (.node id)).Within k id :=
    (idles_hold s (.node id)).path.before.within hid
  have hgone : ((s.hold (.node id)).detach id).Within k id :=
    (idles_detach (s.hold (.node id)) id).path.before.within hheld
  refine brings_holding (q := fun _ _ => True) ?_
  refine Brings.bind (P := fun _ s' => s' = (s.hold (.node id)).detach id)
    (.stepGet (fun _ => .of_idles (idles_detach _ id)) fun _ => rfl) ?_
  rintro removed _ - - rfl
  refine .look fun _ => ?_
  split
  · rename_i e he
    refine .change (fun _ => .of_idles (idles_modifyEffect _ id fun _ => ⟨rfl, fun _ => rfl⟩))
      fun _ => ?_
    refine hκ ?_
    exact (hgone.2 e he).2
  · exact .ret trivial

private theorem brings_runCleanup (hκ : κ.Glances) {c : Cleanup} (hc : c.Quiet) :
    Brings State.Fades k (runCleanup κ c) s Whatever := by
  cases c with
  | program p =>
    refine Brings.bind (P := Whatever) ?_ fun _ _ _ _ _ => .ret trivial
    exact (hκ.exec hc).mono Fades.of_idles fun _ _ _ _ => trivial
  | unlisten document node listener =>
    exact (Brings.step fun _ => fades_unlisten s document node listener).imp fun _ _ _ _ => trivial

private theorem brings_teardown (hκ : κ.Glances) (hfades : κ.Fades) {h : Scopes.Holdings Cleanup}
    (hchildren : ∀ c ∈ h.children, k ≤ c.index) (hcleanups : ∀ c ∈ h.cleanups, c.Quiet)
    (hcomputations : ∀ id ∈ h.computations, s.Within k id) :
    Brings State.Fades k (teardown κ h) s Whatever := by
  refine (brings_forM fun c hc _ _ => hfades (.inl (hchildren c hc))).bind fun _ s' hR _ _ => ?_
  refine (brings_forM fun c hc _ _ => brings_runCleanup hκ (hcleanups c hc)).bind
    fun _ s'' hR' _ _ => ?_
  refine brings_forM fun id hid u hu => brings_retire hfades ?_
  exact ((hR.trans hR').trans hu).path.before.within (hcomputations id hid)

/-- Removing a scope that was created on the way, or is gone. -/
theorem brings_removeScope (hκ : κ.Glances) (hfades : κ.Fades) {id : ScopeId}
    (hid : k ≤ id.index ∨ s.scopes.find? id = none) :
    Brings State.Fades k (removeScope κ id) s Whatever := by
  intro hs
  refine Brings.bind (P := fun r s' => r = s.scopes.find? id ∧
    s' = { s with scopes := (s.scopes.remove id).2 }) (.stepGet
      (fun _ => .of_idles (idles_removeScope s id)) fun _ => ⟨Scopes.fst_remove, rfl⟩) ?_ hs
  rintro removed _ - - ⟨hr, rfl⟩
  cases removed with
  | none => exact .ret trivial
  | some sc =>
    have hlive : s.scopes.find? id = some sc := hr.symm
    have hk : k ≤ id.index := hid.resolve_right (by simp [hlive])
    obtain ⟨hchildren, hcomputations⟩ := hs.reached.owned.within hk hlive
    have hb := (idles_removeScope s id).path.before
    refine Brings.guarding (P := Whatever) ?_ (fun s' => .of_idles (idles_sweep s'))
      fun _ _ _ _ => trivial
    exact brings_teardown hκ hfades hchildren (hs.hushed.cleanups hk hlive) fun c hc =>
      hb.within (hcomputations c hc)

/-- At every depth scopes end so that documents keep their nodes. -/
theorem fades_kernel (n : Nat) : (kernel n).Fades := by
  induction n with
  | zero =>
    intro id k s _ _ a s' h
    obtain ⟨o, u, hcall, -⟩ := bind_ok_cases h
    cases hcall
  | succ n ih =>
    intro id k s hid
    have hdispose : Brings State.Fades k (disposeScope (kernel n) id) s Whatever := by
      refine brings_batch (q := fun _ _ => True) (glances_kernel n) ?_ Fades.batch
      exact brings_removeScope (glances_kernel n) ih hid
    exact Brings.bind (P := Whatever) (hdispose.bind fun _ _ _ _ _ => .ret trivial)
      fun _ _ _ _ _ => .ret trivial

end

end Rivulet.Engine

namespace Rivulet.Engine

open State

section

variable {R : State → State → Prop} [Bearing R] {k : Nat} {s : State}

/-- A scope that owns nothing ends, and nothing else. -/
theorem brings_disposeBare {x : ScopeId}
    (hbare : ∀ sx, s.scopes.find? x = some sx → sx.holdings = {}) (n : Nat) :
    Brings Idles k ((kernel n).dispose x) s Whatever := by
  cases n with
  | zero =>
    intro _ a s' h
    obtain ⟨o, u, hcall, -⟩ := bind_ok_cases h
    cases hcall
  | succ n =>
    have hremove : Brings Idles k (removeScope (kernel n) x) (s.modifyQueue Queue.enterBatch)
        Whatever := by
      refine Brings.bind (P := fun r _ => r = s.scopes.find? x)
        (.stepGet (fun _ => idles_removeScope _ x) fun _ => Scopes.fst_remove) ?_
      rintro removed s' - - rfl
      cases hx : s.scopes.find? x with
      | none => exact .ret trivial
      | some sx =>
        have hempty : teardown (kernel n) sx.holdings = pure () := by
          rw [hbare sx hx]
          rfl
        simp only [hempty]
        exact Brings.guarding (P := Whatever) (.ret trivial) idles_sweep fun _ _ _ _ => trivial
    have hdispose : Brings Idles k (disposeScope (kernel n) x) s Whatever :=
      brings_batch (q := fun _ _ => True) (glances_kernel n) hremove Idles.batch
    exact Brings.bind (P := Whatever) (hdispose.bind fun _ _ _ _ _ => .ret trivial)
      fun _ _ _ _ _ => .ret trivial

/-- A scope that owns at most one effect, whose scope it is, lets go of it. -/
theorem brings_resetFresh {x : ScopeId} {id : NodeId}
    (hfresh : ∀ sx, s.scopes.find? x = some sx → sx.holdings.children = [] ∧
      sx.holdings.cleanups = [] ∧ sx.holdings.computations ⊆ [id] ∧
      sx.holdings.computations.length ≤ 1)
    (hid : ∀ e, s.effect? id = some e → e.scope = x) (n : Nat) :
    Brings Idles k (resetScope (kernel n) x) s Whatever := by
  have hstripped : ∀ sx, (s.scopes.strip x).2.find? x = some sx → sx.holdings = {} := by
    intro sx hsx
    rw [Scopes.find?_strip, if_pos rfl] at hsx
    obtain ⟨sp, -, rfl⟩ := Option.map_eq_some_iff.1 hsx
    rfl
  refine Brings.bind (P := fun r s' => r = (s.scopes.find? x).map (·.holdings) ∧
    s' = { s with scopes := (s.scopes.strip x).2 })
    (.stepGet (fun _ => idles_stripScope s x) fun _ => ⟨?_, rfl⟩) ?_
  · show (s.scopes.strip x).1 = _
    rw [Scopes.strip, Scopes.find?]
    cases s.scopes.live[x]? <;> rfl
  rintro owned _ - - ⟨rfl, rfl⟩
  cases hx : s.scopes.find? x with
  | none => exact .ret trivial
  | some sx =>
    obtain ⟨hchildren, hcleanups, hsub, hone⟩ := hfresh sx hx
    have hretire : Brings Idles k (retire (kernel n) id)
        { s with scopes := (s.scopes.strip x).2 } Whatever := by
      refine brings_holding (q := fun _ _ => True) ?_
      refine Brings.bind (P := fun _ s' => s' =
          (State.hold { s with scopes := (s.scopes.strip x).2 } (.node id)).detach id)
        (.stepGet (fun _ => idles_detach _ id) fun _ => rfl) ?_
      rintro removed _ - - rfl
      refine .look fun _ => ?_
      split
      · rename_i e he
        refine .change (fun _ => idles_modifyEffect _ id fun _ => ⟨rfl, fun _ => rfl⟩) fun _ => ?_
        obtain rfl : e.scope = x := hid e he
        exact brings_disposeBare hstripped n
      · exact .ret trivial
    have hteardown : Brings Idles k (teardown (kernel n) sx.holdings)
        { s with scopes := (s.scopes.strip x).2 } Whatever := by
      rw [teardown, hchildren, hcleanups]
      cases hcomputations : sx.holdings.computations with
      | nil => exact .ret trivial
      | cons j l =>
        rw [hcomputations] at hsub hone
        obtain rfl : l = [] := by simpa using hone
        obtain rfl : j = id := by simpa using hsub
        exact hretire.bind fun _ _ _ _ _ => .ret trivial
    exact hteardown

/-- A new effect is in the graph, due, with a scope that owns at most the effect. -/
structure State.Starts (s : State) (id : NodeId) (e : Effect) : Prop where
  /-- It is in the graph. -/
  node : s.graph.find? id = some (.new .effect)
  /-- It is behind its node. -/
  effect : s.cells[id]? = some (.effect e)
  /-- It must run. -/
  enabled : e.disposed = false
  /-- Its scope is new. -/
  scope : ∀ sx, s.scopes.find? e.scope = some sx → sx.holdings.children = [] ∧
    sx.holdings.cleanups = [] ∧ sx.holdings.computations ⊆ [id] ∧
    sx.holdings.computations.length ≤ 1

/-- An effect that is created starts with nothing. -/
theorem starts_withReaction (s : State) (reaction : Reaction) (supply : Option Supply) :
    (s.withReaction reaction supply).Starts ⟨s.kinds.size⟩
      { reaction, scope := ⟨s.scopes.next⟩, supply } := by
  let u := (s.withScope s.scopes.current?).withNode .effect
    (.effect { reaction, scope := ⟨s.scopes.next⟩, supply })
  have hnode : u.graph.find? ⟨s.kinds.size⟩ = some (.new .effect) := by
    simp [u, State.withNode, State.withScope, Graph.find?, Graph.insert]
  have heffect : u.cells[(⟨s.kinds.size⟩ : NodeId)]? =
      some (.effect { reaction, scope := ⟨s.scopes.next⟩, supply }) := by
    simp [u, State.withNode, State.withScope]
  have hfind : u.scopes.find? ⟨s.scopes.next⟩ =
      some { parent := s.scopes.parentFor s.scopes.current? } := by
    show (s.scopes.create s.scopes.current?).2.find? _ = _
    rw [Scopes.find?_create, if_pos rfl]
  have hscope : ∀ sx, (u.adopted ⟨s.kinds.size⟩).scopes.find? ⟨s.scopes.next⟩ = some sx →
      sx.holdings.children = [] ∧ sx.holdings.cleanups = [] ∧
        sx.holdings.computations ⊆ [⟨s.kinds.size⟩] ∧ sx.holdings.computations.length ≤ 1 := by
    intro sx hsx
    rw [adopted] at hsx
    split at hsx
    · rename_i owner _
      have hadopt : (u.scopes.adopt owner ⟨s.kinds.size⟩).find? ⟨s.scopes.next⟩ = some sx := hsx
      rw [Scopes.adopt, Scopes.find?_modifyHoldings, hfind] at hadopt
      split at hadopt
      · cases hadopt
        simp
      · cases hadopt
        simp
    · rw [hfind] at hsx
      cases hsx
      simp
  obtain ⟨scopes, heq⟩ := adopted_eq u ⟨s.kinds.size⟩
  refine ⟨?_, ?_, rfl, hscope⟩
  · show (u.adopted ⟨s.kinds.size⟩).graph.find? _ = _
    rw [heq]
    exact hnode
  · show (u.adopted ⟨s.kinds.size⟩).cells[_]? = _
    rw [heq]
    exact heffect

/-- The first run of an effect does what its reaction does. -/
theorem brings_runReaction {κ : Kernel} {id : NodeId} {e : Effect} {q : Canvas → Prop}
    (hid : MayRead s.kinds id)
    (h : ∀ u, s.Idles u → Brings R k (react κ id e) u fun o u' =>
      (∃ v, o = .value v) ∧ q u'.canvas) :
    Brings R k (runReaction κ id e) s fun _ s' => q s'.canvas := by
  have hrun : Brings R k (withScope e.scope (tracked id (.effect id) (react κ id e))) s
      fun o s' => (∃ v, o = .value v) ∧ q s'.canvas := by
    refine brings_withScope (q := fun o c => (∃ v, o = Outcome.value v) ∧ q c) ?_
    refine brings_tracked (q := fun o c => (∃ v, o = Outcome.value v) ∧ q c) hid ?_
    exact h _ ((idles_enterScope s _).trans (idles_enter _ _))
  refine hrun.bind ?_
  rintro _ s' - - ⟨⟨v, rfl⟩, hq⟩
  exact .change (fun _ => Bearing.idles (idles_modifyEffect s' id fun _ => ⟨rfl, fun h => h⟩))
    fun _ => .ret hq

/-- An effect that is due runs when it is brought up to date. -/
theorem brings_refreshStarting {n : Nat} {id : NodeId} {e : Effect} {q : Canvas → Prop}
    (hstarts : s.Starts id e)
    (h : ∀ u, s.Idles u → Brings R k (react (kernel n) id e) u fun o u' =>
      (∃ v, o = .value v) ∧ q u'.canvas) :
    Brings R k (refresh (kernel n) id) s fun _ s' => q s'.canvas := by
  have heffect : s.effect? id = some e := effect?_eq_some.2 hstarts.effect
  have hcontains : s.graph.contains id = true := by
    rw [Graph.contains_eq, hstarts.node]
    rfl
  refine .look fun hs => ?_
  have hkind := hs.reached.typed.cells id _ hstarts.effect
  have hid : MayRead s.kinds id := ⟨_, hkind, by simp [Cell.kind]⟩
  have hrun : Brings R k (runCell (kernel n) id s.cells[id]?) (s.hold (.node id))
      fun _ s' => q s'.canvas := by
    have hbegun := (idles_hold s (.node id)).trans (idles_trust _ id)
    rw [hstarts.effect]
    refine .change (fun _ => Bearing.idles (idles_trust _ id)) fun _ => .look fun _ => ?_
    have hcell : ((s.hold (.node id)).modifyGraph (·.request id .clean)).effect? id = some e :=
      heffect
    simp only [hcell, hstarts.enabled, Bool.false_eq_true, if_false]
    have hreset : Brings R k (resetScope (kernel n) e.scope)
        ((s.hold (.node id)).modifyGraph (·.request id .clean)) fun _ u => s.Idles u := by
      have hown (e' : Effect) (he' : ((s.hold (.node id)).modifyGraph
          (·.request id .clean)).effect? id = some e') : e'.scope = e.scope := by
        rw [hcell, Option.some.injEq] at he'
        rw [he']
      have hidle := brings_resetFresh (k := k)
        (s := (s.hold (.node id)).modifyGraph (·.request id .clean)) hstarts.scope hown n
      exact hidle.mono Bearing.idles fun _ u hu _ => hbegun.trans hu
    refine hreset.bind fun _ u _ _ hu => ?_
    exact brings_runReaction (hu.path.before.mayRead hid) fun v hv => h v (hu.trans hv)
  rw [hstarts.node]
  refine .look fun _ => ?_
  simp only [hcontains, if_true]
  refine .ite (fun _ => ?_) fun _ => ?_
  · exact Brings.bind (P := fun _ _ => False) (.raise _) fun _ _ _ _ h => h.elim
  · exact brings_holding (q := fun _ c => q c) hrun

/-- A new effect does what it is there for. -/
theorem brings_createEffect {n : Nat} {reaction : Reaction} {supply : Option Supply}
    {name : Option String} {q : Canvas → Prop}
    (h : ∀ m id e u, n = m + 1 → e.reaction = reaction → e.supply = supply → s.Idles u →
      Brings R k (react (kernel m) id e) u fun o u' => (∃ v, o = .value v) ∧ q u'.canvas) :
    Brings R k (createEffect (kernel n) reaction supply name) s fun _ s' => q s'.canvas := by
  let id : NodeId := ⟨s.kinds.size⟩
  let e : Effect := { reaction, scope := ⟨s.scopes.next⟩, supply }
  rw [createEffect_eq]
  refine Brings.bind (P := fun j u => j = id ∧ u = s.withReaction reaction supply)
    (.stepGet (fun _ => Bearing.idles (idles_withReaction s reaction supply))
      fun _ => ⟨rfl, rfl⟩) ?_
  rintro _ _ - - ⟨rfl, rfl⟩
  have hnew : (s.withReaction reaction supply).Starts id e := starts_withReaction s reaction supply
  have hheld : ((s.withReaction reaction supply).hold (.node id)).Starts id e :=
    ⟨hnew.node, hnew.effect, hnew.enabled, hnew.scope⟩
  have hbegun := (idles_withReaction s reaction supply).trans (idles_hold _ (.node id))
  have hkind : ((s.withReaction reaction supply).hold (.node id)).kinds[id.index]? =
      some .effect := kinds_created ..
  refine brings_holding (q := fun _ c => q c) ?_
  have hrefresh : Brings R k ((kernel n).refresh id)
      ((s.withReaction reaction supply).hold (.node id)) fun _ s' => q s'.canvas := by
    cases n with
    | zero =>
      intro _ a s' hrun
      obtain ⟨o, u, hcall, -⟩ := bind_ok_cases hrun
      cases hcall
    | succ m =>
      have hdone := brings_refreshStarting hheld fun u hu =>
        h m id e u rfl rfl rfl (hbegun.trans hu)
      exact Brings.bind (P := fun _ u => q u.canvas)
        (hdone.bind fun _ _ _ _ hq => .ret hq) fun _ _ _ _ hq => .ret hq
  refine hrefresh.bind fun _ u hu _ hq => ?_
  refine (brings_settle (glances_kernel n)).bind ?_
  rintro _ u' - - rfl
  have hsuits : (Handle.effect id).Suits u'.kinds :=
    (Bearing.preserves hu).path.before.kinds _ _ hkind
  refine (Brings.step fun _ => Bearing.idles (idles_bindName hsuits name)).imp ?_
  rintro _ _ - rfl
  exact (idles_bindName hsuits name).canvas ▸ hq

end

end Rivulet.Engine
