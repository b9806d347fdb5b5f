import Rivulet.Proofs.Graph.Propagation

/-!
# Which effects a change reaches

A change reaches the readers of the changed node, and with each derived node the readers of that
one. The effects that it gives are those that it reaches, and which they are and in what order
depends on the readers and kinds of nodes only.
-/

namespace Rivulet.Graph

/-- A change of a node reaches another one along readers, and from there on only through derived
nodes. -/
inductive Reaches (g : Graph) (source : NodeId) : NodeId → Prop where
  /-- It reaches the readers of the node. -/
  | direct {n m : Node} {id : NodeId} (changed : g.find? source = some n)
      (reads : id ∈ n.dependents)
      (live : g.find? id = some m) : Reaches g source id
  /-- It reaches the readers of a derived node that it reaches. -/
  | onward {d id : NodeId} {n m : Node} (before : Reaches g source d) (passes : g.find? d = some n)
      (derived : n.kind = .derived) (reads : id ∈ n.dependents) (live : g.find? id = some m) :
      Reaches g source id

/-- A change of a node without readers reaches no one. -/
theorem not_reaches {g : Graph} {source id : NodeId} {n : Node} (hn : g.find? source = some n)
    (hnone : n.dependents = []) : ¬g.Reaches source id := by
  intro h
  induction h with
  | direct hchanged hread =>
    rw [hn, Option.some.injEq] at hchanged
    rw [← hchanged, hnone] at hread
    exact absurd hread List.not_mem_nil
  | onward _ _ _ _ _ ih => exact ih

/-- Two graphs with the same nodes, each of the same kind and with the same readers. -/
def Alike (g g' : Graph) : Prop :=
  Maps (fun _ n n' => n'.kind = n.kind ∧ n'.dependents = n.dependents) g g'

theorem Alike.refl (g : Graph) : Alike g g := Maps.refl (fun _ _ => ⟨rfl, rfl⟩) g

theorem Alike.trans {g g' g'' : Graph} (h : Alike g g') (h' : Alike g' g'') : Alike g g'' :=
  Maps.trans (fun _ _ _ _ h1 h2 => ⟨h2.1.trans h1.1, h2.2.trans h1.2⟩) h h'

/-- Two graphs that are alike are so either way. -/
theorem Alike.symm {g g' : Graph} (h : Alike g g') : Alike g' g := by
  intro j
  have hrel := h j
  generalize g.find? j = a at hrel
  generalize g'.find? j = b at hrel
  cases hrel with
  | some hr => exact .some ⟨hr.1.symm, hr.2.symm⟩
  | none => exact .none

/-- Counting a change leaves the readers. -/
theorem alike_bump (g : Graph) (id : NodeId) : Alike g (g.bump id) :=
  maps_modify (R := fun _ n n' => n'.kind = n.kind ∧ n'.dependents = n.dependents)
    (fun _ _ => ⟨rfl, rfl⟩) g id fun _ _ => ⟨rfl, rfl⟩

/-- A change leaves kinds and readers as they are. -/
theorem alike_markChanged (g : Graph) (source : NodeId) : Alike g (g.markChanged source).1 := by
  cases hn : g.find? source with
  | none =>
    rw [markChanged, hn]
    exact .refl g
  | some n =>
    refine (maps_markChanged hn).imp fun j m m' hr => ?_
    by_cases hj : j = source
    · rw [if_pos hj] at hr
      exact ⟨hr.kind, hr.dependents⟩
    · rw [if_neg hj] at hr
      exact ⟨hr.kind, hr.dependents⟩

/-- The same nodes are effects. -/
theorem Maps.isEffect_eq {R : NodeId → Node → Node → Prop} {g g' : Graph} {id : NodeId}
    (h : Maps R g g') (hR : ∀ n n', R id n n' → n'.kind = n.kind) :
    g'.isEffect id = g.isEffect id := by
  have hrel := h id
  rw [isEffect, isEffect]
  generalize g.find? id = a at hrel
  generalize g'.find? id = b at hrel
  cases hrel with
  | some hr => simp only [hR _ _ hr]
  | none => rfl

/-- Graphs that are alike have the same effects. -/
theorem Alike.isEffect {g g' : Graph} (h : Alike g g') : g'.isEffect = g.isEffect :=
  funext fun _ => h.isEffect_eq fun _ _ hr => hr.1

/-- The walk depends on kinds and readers only. -/
theorem walk_congr {unseen unseen' : Std.HashMap NodeId Node} (queue : List Visit)
    (h : ∀ id : NodeId, Option.Rel (fun n n' : Node => n'.kind = n.kind ∧
      n'.dependents = n.dependents)
      unseen[id]? unseen'[id]?) : walk unseen queue = walk unseen' queue := by
  have hmem {unseen unseen' : Std.HashMap NodeId Node} {id : NodeId}
      (h : Option.Rel (fun n n' : Node => n'.kind = n.kind ∧ n'.dependents = n.dependents)
        unseen[id]? unseen'[id]?) : id ∈ unseen ↔ id ∈ unseen' := by
    rw [Std.HashMap.mem_iff_isSome_getElem?, Std.HashMap.mem_iff_isSome_getElem?]
    generalize unseen[id]? = a at h
    generalize unseen'[id]? = b at h
    cases h <;> simp
  induction unseen, queue using walk.induct generalizing unseen' with
  | case1 unseen => rw [walk, walk]
  | case2 unseen visit rest hlive ih =>
    have hlive' := (hmem (h visit.node)).1 hlive
    have honward : unseen'[visit.node].onward = unseen[visit.node].onward := by
      have hrel := h visit.node
      rw [Std.HashMap.getElem?_eq_some_getElem hlive,
        Std.HashMap.getElem?_eq_some_getElem hlive'] at hrel
      obtain ⟨hkind, hdependents⟩ : _ ∧ _ := by simpa using hrel
      rw [Node.onward, Node.onward, hkind, hdependents]
    rw [walk, dif_pos hlive, walk, dif_pos hlive', honward]
    congr 1
    refine ih fun id => ?_
    rw [Std.HashMap.getElem?_erase, Std.HashMap.getElem?_erase]
    split
    · exact .none
    · exact h id
  | case3 unseen visit rest hgone ih =>
    have hgone' : visit.node ∉ unseen' := fun hlive => hgone ((hmem (h visit.node)).2 hlive)
    rw [walk, dif_neg hgone, walk, dif_neg hgone']
    exact ih h

/-- Which effects a change reaches, and in what order, depends on kinds and readers only. -/
theorem Alike.reached {g g' : Graph} (h : Alike g g') (source : NodeId) :
    (g'.markChanged source).2 = (g.markChanged source).2 := by
  cases hn : g.find? source with
  | none =>
    rw [markChanged, markChanged, hn, h.find?_eq_none.2 hn]
  | some n =>
    obtain ⟨n', hn', -, hdependents⟩ := h.exists_new hn
    have hbump : Alike (g.bump source) (g'.bump source) :=
      ((alike_bump g source).symm.trans h).trans (alike_bump g' source)
    rw [markChanged, markChanged, hn, hn']
    simp only [hdependents]
    rw [walk_congr _ hbump, hbump.isEffect]

/-- The walk visits nothing but what can be reached from its queue. -/
theorem visited_of_queue {P : NodeId → Prop} {unseen : Std.HashMap NodeId Node} {queue : List Visit}
    (hqueue : ∀ w ∈ queue, w.node ∈ unseen → P w.node)
    (honward : ∀ v n, P v → unseen[v]? = some n → ∀ w ∈ n.onward, w.node ∈ unseen → P w.node)
    {id : NodeId} (h : Visited (walk unseen queue) id) : P id := by
  induction unseen, queue using walk.induct with
  | case1 unseen =>
    rw [walk] at h
    obtain ⟨v, hv, -⟩ := h
    simp at hv
  | case2 unseen visit rest hlive ih =>
    have hself := hqueue visit List.mem_cons_self hlive
    have hnode := Std.HashMap.getElem?_eq_some_getElem hlive
    rw [walk, dif_pos hlive] at h
    obtain ⟨v, hv, rfl⟩ := h
    rcases List.mem_cons.1 hv with rfl | hv
    · exact hself
    · refine ih (fun w hw hmem => ?_) (fun v n hv hn w hw hmem => ?_) ⟨v, hv, rfl⟩
      · have hmem' := (Std.HashMap.mem_erase.1 hmem).2
        rcases List.mem_append.1 hw with hw | hw
        · exact hqueue w (List.mem_cons_of_mem visit hw) hmem'
        · exact honward _ _ hself hnode w hw hmem'
      · rw [Std.HashMap.getElem?_erase] at hn
        split at hn
        · cases hn
        · exact honward v n hv hn w hw (Std.HashMap.mem_erase.1 hmem).2
  | case3 unseen visit rest hgone ih =>
    rw [walk, dif_neg hgone] at h
    exact ih (fun w hw => hqueue w (List.mem_cons_of_mem visit hw)) honward h

/-- From a derived node the walk goes on to its readers. -/
theorem mem_onward {n : Node} {w : Visit} (h : w ∈ n.onward) :
    n.kind = .derived ∧ w.node ∈ n.dependents := by
  rw [Node.onward] at h
  split at h
  · rename_i hkind
    obtain ⟨j, hj, rfl⟩ := List.mem_map.1 h
    exact ⟨hkind, hj⟩
  · exact absurd h List.not_mem_nil
  · exact absurd h List.not_mem_nil

/-- The nodes of a graph are those that are found. -/
theorem mem_nodes_iff {g : Graph} {id : NodeId} : id ∈ g.nodes ↔ ∃ n, g.find? id = some n := by
  rw [Std.HashMap.mem_iff_isSome_getElem?, Option.isSome_iff_exists]
  rfl

/-- Reaching depends on kinds and readers only. -/
theorem Reaches.alike {g g' : Graph} (h : Alike g g') {source id : NodeId}
    (hreach : g.Reaches source id) : g'.Reaches source id := by
  induction hreach with
  | direct changed reads live =>
    obtain ⟨n', hn', -, hd⟩ := h.exists_new changed
    obtain ⟨m', hm', -⟩ := h.exists_new live
    exact .direct hn' (hd ▸ reads) hm'
  | onward before passes derived reads live ih =>
    obtain ⟨n', hn', hk, hd⟩ := h.exists_new passes
    obtain ⟨m', hm', -⟩ := h.exists_new live
    exact .onward ih hn' (hk.trans derived) (hd ▸ reads) hm'

/-- The walk from a changed node visits what the change reaches. -/
theorem visited_reached {g : Graph} {source : NodeId} {n : Node} (hn : g.find? source = some n)
    {id : NodeId} : Visited (g.reached source n) id ↔ g.Reaches source id := by
  have hbump := alike_bump g source
  obtain ⟨n', hn', -, hdependents⟩ := hbump.exists_new hn
  constructor
  · intro h
    refine (show (g.bump source).Reaches source id from ?_).alike hbump.symm
    refine visited_of_queue (P := (g.bump source).Reaches source) (fun w hw hlive => ?_)
      (fun v m hv hm w hw hlive => ?_) h
    · obtain ⟨j, hj, rfl⟩ := List.mem_map.1 hw
      obtain ⟨m, hm⟩ := mem_nodes_iff.1 hlive
      exact .direct hn' (hdependents ▸ hj) hm
    · obtain ⟨hkind, hreads⟩ := mem_onward hw
      obtain ⟨k, hk⟩ := mem_nodes_iff.1 hlive
      exact .onward hv hm hkind hreads hk
  · intro h
    obtain ⟨hqueue, hclosed⟩ := walk_closed (g.bump source).nodes (n.dependents.map (⟨·, true⟩))
    have hreach := h.alike hbump
    clear h
    induction hreach with
    | @direct k m j changed reads live =>
      rw [hn', Option.some.injEq] at changed
      subst changed
      exact hqueue ⟨j, true⟩ (List.mem_map.2 ⟨j, hdependents ▸ reads, rfl⟩)
        (mem_nodes_iff.2 ⟨m, live⟩)
    | @onward d j k m before passes derived reads live ih =>
      refine hclosed d k ih passes ⟨j, false⟩ ?_ (mem_nodes_iff.2 ⟨m, live⟩)
      rw [Node.onward, derived]
      exact List.mem_map.2 ⟨j, reads, rfl⟩

/-- A change gives the effects that it reaches. -/
theorem mem_markChanged {g : Graph} {source id : NodeId} :
    id ∈ (g.markChanged source).2 ↔ g.Reaches source id ∧ g.isEffect id = true := by
  cases hn : g.find? source with
  | none =>
    rw [markChanged, hn]
    refine ⟨fun h => absurd h List.not_mem_nil, fun h => ?_⟩
    have hlive : ∀ j, g.Reaches source j → ∃ n, g.find? source = some n := by
      intro j hj
      induction hj with
      | direct changed => exact ⟨_, changed⟩
      | onward before passes derived reads live ih => exact ih
    obtain ⟨n, hsome⟩ := hlive id h.1
    rw [hn] at hsome
    cases hsome
  | some n =>
    have hlist : (g.markChanged source).2 =
        ((g.reached source n).map (·.node)).filter (g.bump source).isEffect := by
      rw [markChanged, hn]
      rfl
    rw [hlist, List.mem_filter, (alike_bump g source).isEffect, ← visited_reached hn, List.mem_map]
    exact Iff.rfl

/-- An effect that a change does not reach can be trusted as before. -/
theorem mark_of_notMem_markChanged {g : Graph} {source id : NodeId} {m : Node}
    (hm : (g.markChanged source).1.find? id = some m) (hkind : m.kind = .effect)
    (hid : id ∉ (g.markChanged source).2) :
    ∃ n, g.find? id = some n ∧ n.kind = .effect ∧ n.mark = m.mark := by
  cases hn : g.find? source with
  | none =>
    rw [markChanged, hn] at hm
    exact ⟨m, hm, hkind, rfl⟩
  | some n =>
    obtain ⟨k, hk, hmarked⟩ := (maps_markChanged hn).exists_old hm
    have heffect : k.kind = .effect := by
      split at hmarked <;> exact hmarked.kind.symm.trans hkind
    have hreached : ¬ Visited (g.reached source n) id := by
      rw [visited_reached hn]
      intro hreaches
      refine hid (mem_markChanged.2 ⟨hreaches, ?_⟩)
      rw [isEffect, hk]
      exact decide_eq_true heffect
    rw [markChanged_eq hn, find?_of_not_visited hreached] at hm
    obtain ⟨k', hk', rfl⟩ : ∃ k', g.find? id = some k' ∧
        m = if id = source then k'.bump else k' := by
      by_cases hne : id = source
      · subst hne
        rw [bump, find?_modify_self, hk, Option.map_some, Option.some.injEq] at hm
        exact ⟨k, hk, by rw [if_pos rfl, hm]⟩
      · rw [bump, find?_modify_of_ne g hne, hk, Option.some.injEq] at hm
        exact ⟨k, hk, by rw [if_neg hne, hm]⟩
    rw [hk, Option.some.injEq] at hk'
    subst hk'
    exact ⟨k, hk, heffect, by split <;> rfl⟩

/-- Live nodes at the front of the queue are visited the way they stand there. -/
theorem mem_walk_of_front {unseen : Std.HashMap NodeId Node} {front queue : List Visit}
    (hfront : ∀ w ∈ front, w.direct = true) {w : Visit} (hw : w ∈ front) (hlive : w.node ∈ unseen) :
    w ∈ walk unseen (front ++ queue) := by
  induction front generalizing unseen queue with
  | nil => exact absurd hw List.not_mem_nil
  | cons v front ih =>
    have hrest : ∀ x ∈ front, x.direct = true := fun x hx => hfront x (List.mem_cons_of_mem v hx)
    rw [List.cons_append]
    by_cases hv : v.node ∈ unseen
    · rw [walk, dif_pos hv]
      by_cases heq : v.node = w.node
      · -- Both are direct, so they are the same visit.
        have hsame : w = v := by
          have hdirect := (hfront w hw).trans (hfront v List.mem_cons_self).symm
          cases w
          cases v
          simp_all
        rw [hsame]
        exact List.mem_cons_self
      · have hmem : w ∈ front := (List.mem_cons.1 hw).resolve_left fun h => heq (h ▸ rfl)
        rw [List.append_assoc]
        exact List.mem_cons_of_mem v (ih hrest hmem
          (Std.HashMap.mem_erase.2 ⟨by simpa using heq, hlive⟩))
    · rw [walk, dif_neg hv]
      have hmem : w ∈ front := (List.mem_cons.1 hw).resolve_left fun h => hv (h ▸ hlive)
      exact ih hrest hmem hlive

/-- A node that is visited from the changed node itself is dirty. -/
theorem mark_dirty_of_mem {visits : List Visit} {g : Graph} {id : NodeId} {n : Node}
    (hn : (visits.foldl markVisit g).find? id = some n) (h : ⟨id, true⟩ ∈ visits) :
    n.mark = .dirty := by
  induction visits generalizing g with
  | nil => exact absurd h List.not_mem_nil
  | cons v visits ih =>
    rcases List.mem_cons.1 h with rfl | h
    · obtain ⟨m, hm, hr⟩ := (maps_marked visits (g.markVisit ⟨id, true⟩)).exists_old hn
      refine hr.dirty ?_
      rw [markVisit, request, find?_modify_self] at hm
      obtain ⟨k, -, rfl⟩ := Option.map_eq_some_iff.1 hm
      rfl
    · exact ih hn h

/-- The readers of a node are dirty behind a change of it. -/
theorem mark_dirty_markChanged {g : Graph} {source id : NodeId} {n m : Node}
    (hn : g.find? source = some n) (hread : id ∈ n.dependents)
    (hm : (g.markChanged source).1.find? id = some m) : m.mark = .dirty := by
  rw [markChanged_eq hn] at hm
  refine mark_dirty_of_mem hm ?_
  have hlive : id ∈ (g.bump source).nodes := by
    obtain ⟨k, hk, -⟩ := (maps_marked _ (g.bump source)).exists_old hm
    exact mem_nodes_iff.2 ⟨k, hk⟩
  have hdirect : ∀ w ∈ n.dependents.map fun j => (⟨j, true⟩ : Visit), w.direct = true := by
    intro w hw
    obtain ⟨j, -, rfl⟩ := List.mem_map.1 hw
    rfl
  rw [reached, ← List.append_nil (n.dependents.map fun j => (⟨j, true⟩ : Visit))]
  exact mem_walk_of_front hdirect (List.mem_map.2 ⟨id, hread, rfl⟩) hlive

end Rivulet.Graph
