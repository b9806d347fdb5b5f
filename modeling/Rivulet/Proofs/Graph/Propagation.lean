import Rivulet.Graph.Propagation
import Rivulet.Proofs.Graph.Edges

/-!
# What a change reaches

The walk from a changed node visits all its readers, and with each derived node all readers of
that one. So a node that is still clean behind it reads neither the changed node nor a derived
node that has lost its trust.
-/

namespace Rivulet.Graph

/-- A node is among those that were visited. -/
def Visited (visits : List Visit) (id : NodeId) : Prop := ∃ v ∈ visits, v.node = id

/-- The walk only visits live nodes. -/
theorem mem_of_visited {unseen : Std.HashMap NodeId Node} {queue : List Visit} {id : NodeId}
    (h : Visited (walk unseen queue) id) : id ∈ unseen := by
  induction unseen, queue using walk.induct with
  | case1 unseen =>
    rw [walk] at h
    obtain ⟨v, hv, -⟩ := h
    simp at hv
  | case2 unseen visit rest hmem ih =>
    rw [walk, dif_pos hmem] at h
    obtain ⟨v, hv, rfl⟩ := h
    rcases List.mem_cons.1 hv with rfl | hv
    · exact hmem
    · exact (Std.HashMap.mem_erase.1 (ih ⟨v, hv, rfl⟩)).2
  | case3 unseen visit rest hmem ih =>
    rw [walk, dif_neg hmem] at h
    exact ih h

/-- The walk visits all live nodes in its queue, and all that a visited node leads on to. -/
theorem walk_closed (unseen : Std.HashMap NodeId Node) (queue : List Visit) :
    (∀ w ∈ queue, w.node ∈ unseen → Visited (walk unseen queue) w.node) ∧
      ∀ v n, Visited (walk unseen queue) v → unseen[v]? = some n →
        ∀ w ∈ n.onward, w.node ∈ unseen → Visited (walk unseen queue) w.node := by
  induction unseen, queue using walk.induct with
  | case1 unseen =>
    rw [walk]
    refine ⟨by simp, ?_⟩
    rintro v n ⟨x, hx, -⟩
    simp at hx
  | case2 unseen visit rest hmem ih =>
    obtain ⟨hqueue, hclosed⟩ := ih
    rw [walk, dif_pos hmem]
    have hself : Visited (visit :: walk (unseen.erase visit.node)
        (rest ++ unseen[visit.node].onward)) visit.node := ⟨visit, List.mem_cons_self, rfl⟩
    have hlater {id : NodeId} (h : Visited (walk (unseen.erase visit.node)
        (rest ++ unseen[visit.node].onward)) id) : Visited (visit :: walk (unseen.erase visit.node)
        (rest ++ unseen[visit.node].onward)) id := by
      obtain ⟨v, hv, rfl⟩ := h
      exact ⟨v, List.mem_cons_of_mem visit hv, rfl⟩
    have hrest {w : Visit} (hw : w ∈ rest ++ unseen[visit.node].onward) (hlive : w.node ∈ unseen) :
        Visited (visit :: walk (unseen.erase visit.node) (rest ++ unseen[visit.node].onward))
          w.node := by
      by_cases he : visit.node = w.node
      · exact he ▸ hself
      · exact hlater (hqueue w hw (Std.HashMap.mem_erase.2 ⟨by simpa using he, hlive⟩))
    refine ⟨?_, ?_⟩
    · intro w hw hlive
      rcases List.mem_cons.1 hw with rfl | hw
      · exact hself
      · exact hrest (List.mem_append_left _ hw) hlive
    · rintro v n ⟨x, hx, rfl⟩ hn w hw hlive
      by_cases he : visit.node = w.node
      · exact he ▸ hself
      · rcases List.mem_cons.1 hx with rfl | hx
        · have hn' : n = unseen[x.node] := by
            rw [Std.HashMap.getElem?_eq_some_getElem hmem, Option.some.injEq] at hn
            exact hn.symm
          exact hrest (List.mem_append_right _ (hn' ▸ hw)) hlive
        · have hv : Visited (walk (unseen.erase visit.node) (rest ++ unseen[visit.node].onward))
              x.node := ⟨x, hx, rfl⟩
          have hne := (Std.HashMap.mem_erase.1 (mem_of_visited hv)).1
          refine hlater (hclosed x.node n hv ?_ w hw ?_)
          · rw [Std.HashMap.getElem?_erase, if_neg (by simpa using hne), hn]
          · exact Std.HashMap.mem_erase.2 ⟨by simpa using he, hlive⟩
  | case3 unseen visit rest hmem ih =>
    rw [walk, dif_neg hmem]
    refine ⟨?_, ih.2⟩
    intro w hw hlive
    rcases List.mem_cons.1 hw with rfl | hw
    · exact absurd hlive hmem
    · exact ih.1 w hw hlive

/-- A node with a mark that may be lower in trust than before, and with nothing else changed. -/
structure Marked (n n' : Node) : Prop where
  /-- It stands for the same. -/
  kind : n'.kind = n.kind
  /-- It has changed as often. -/
  changes : n'.changes = n.changes
  /-- It reads the same. -/
  dependencies : n'.dependencies = n.dependencies
  /-- The same nodes read it. -/
  dependents : n'.dependents = n.dependents
  /-- It was clean before if it is now. -/
  clean : n'.mark = .clean → n.mark = .clean
  /-- It was dirty before only if it is now. -/
  dirty : n.mark = .dirty → n'.mark = .dirty

theorem Marked.refl (n : Node) : Marked n n := ⟨rfl, rfl, rfl, rfl, id, id⟩

private theorem Marked.trans {n n' n'' : Node} (h : Marked n n') (h' : Marked n' n'') :
    Marked n n'' :=
  ⟨h'.kind.trans h.kind, h'.changes.trans h.changes, h'.dependencies.trans h.dependencies,
    h'.dependents.trans h.dependents, h.clean ∘ h'.clean, h'.dirty ∘ h.dirty⟩

/-- Asking for less trust. -/
theorem marked_request (n : Node) (direct : Bool) :
    Marked n (n.request (if direct then .dirty else .maybeDirty)) := by
  refine ⟨rfl, rfl, rfl, rfl, ?_, ?_⟩ <;> cases direct <;> cases h : n.mark <;>
    simp [Node.request, Mark.request, Mark.raise, h]

private theorem mark_request_ne_clean (n : Node) (direct : Bool) :
    (n.request (if direct then .dirty else .maybeDirty)).mark ≠ .clean := by
  cases direct <;> cases h : n.mark <;> simp [Node.request, Mark.request, Mark.raise, h]

/-- Marking the visited nodes. -/
theorem maps_marked (visits : List Visit) (g : Graph) :
    Maps (fun _ => Marked) g (visits.foldl markVisit g) :=
  maps_foldl (fun _ => Marked.refl) (fun _ _ _ _ => Marked.trans) Visit.node visits
    (fun v _ n => marked_request n v.direct) g

/-- A visited node is not clean. -/
theorem mark_ne_clean_of_visited {visits : List Visit} {g : Graph} {id : NodeId} {n : Node}
    (hn : (visits.foldl markVisit g).find? id = some n) (h : Visited visits id) :
    n.mark ≠ .clean := by
  induction visits generalizing g with
  | nil =>
    obtain ⟨v, hv, -⟩ := h
    simp at hv
  | cons v visits ih =>
    rw [List.foldl_cons] at hn
    obtain ⟨x, hx, rfl⟩ := h
    rcases List.mem_cons.1 hx with rfl | hx
    · obtain ⟨m, hm, hmarked⟩ := (maps_marked visits (g.markVisit x)).exists_old hn
      rw [markVisit, request, find?_modify_self, Option.map_eq_some_iff] at hm
      obtain ⟨m, -, rfl⟩ := hm
      exact fun hclean => mark_request_ne_clean m x.direct (hmarked.clean hclean)
    · exact ih hn ⟨x, hx, rfl⟩

/-- A node that is not visited stays as it is. -/
theorem find?_of_not_visited {visits : List Visit} {id : NodeId} (h : ¬ Visited visits id)
    (g : Graph) : (visits.foldl markVisit g).find? id = g.find? id := by
  induction visits generalizing g with
  | nil => rfl
  | cons v visits ih =>
    have hne : id ≠ v.node := by
      rintro rfl
      exact h ⟨v, List.mem_cons_self, rfl⟩
    have hrest : ¬ Visited visits id := by
      rintro ⟨x, hx, rfl⟩
      exact h ⟨x, List.mem_cons_of_mem v hx, rfl⟩
    rw [List.foldl_cons, ih hrest, markVisit, request, find?_modify_of_ne g hne]

/-- The nodes that a change visits. -/
def reached (g : Graph) (source : NodeId) (n : Node) : List Visit :=
  walk (g.bump source).nodes (n.dependents.map (⟨·, true⟩))

theorem markChanged_eq {g : Graph} {source : NodeId} {n : Node} (h : g.find? source = some n) :
    (g.markChanged source).1 = (g.reached source n).foldl markVisit (g.bump source) := by
  rw [markChanged, h]
  rfl

/-- A change of a node: it has changed once more, and marks may be lower in trust. -/
theorem maps_markChanged {g : Graph} {source : NodeId} {n : Node} (h : g.find? source = some n) :
    Maps (fun j m m' => Marked (if j = source then m.bump else m) m') g
      (g.markChanged source).1 := by
  have hmaps := maps_marked (g.reached source n) (g.bump source)
  rw [← markChanged_eq h] at hmaps
  intro j
  by_cases hj : j = source
  · subst hj
    have hbump : (g.bump j).find? j = some n.bump := by rw [bump, find?_modify_self, h]; rfl
    obtain ⟨m', hm', hr⟩ := hmaps.exists_new hbump
    rw [h, hm']
    refine .some ?_
    simp only [if_pos]
    exact hr
  · have hrel := hmaps j
    rw [bump, find?_modify_of_ne g hj] at hrel
    simp only [if_neg hj]
    exact hrel

/-- A node that is clean behind a change does not read the changed node, nor a derived node that
was clean before and is not now. -/
theorem clean_markChanged {g : Graph} {source : NodeId} {n : Node} (h : g.find? source = some n)
    {id : NodeId} {m : Node} (hm : (g.markChanged source).1.find? id = some m)
    (hclean : m.mark = .clean) :
    id ∉ n.dependents ∧ ∀ d k k', g.find? d = some k → k.kind = .derived → id ∈ k.dependents →
      k.mark = .clean → (g.markChanged source).1.find? d = some k' → k'.mark = .clean := by
  have hclosed := walk_closed (g.bump source).nodes (n.dependents.map (⟨·, true⟩))
  have hmaps := maps_marked (g.reached source n) (g.bump source)
  rw [markChanged_eq h] at hm ⊢
  have hlive : id ∈ (g.bump source).nodes := by
    obtain ⟨m', hm', -⟩ := hmaps.exists_old hm
    exact Std.HashMap.mem_iff_isSome_getElem?.2 (by rw [find?] at hm'; rw [hm']; rfl)
  have hunvisited : ¬ Visited (g.reached source n) id := by
    intro hv
    exact mark_ne_clean_of_visited hm hv hclean
  refine ⟨?_, ?_⟩
  · intro hid
    exact hunvisited (hclosed.1 ⟨id, true⟩ (List.mem_map_of_mem hid) hlive)
  · intro d k k' hk hkind hread hkclean hk'
    have hb : ∃ b, (g.bump source).find? d = some b ∧ b.kind = .derived ∧ id ∈ b.dependents ∧
        b.mark = .clean := by
      by_cases hd : d = source
      · subst hd
        exact ⟨k.bump, by rw [bump, find?_modify_self, hk]; rfl, hkind, hread, hkclean⟩
      · exact ⟨k, by rw [bump, find?_modify_of_ne g hd, hk], hkind, hread, hkclean⟩
    obtain ⟨b, hb, hbkind, hbread, hbclean⟩ := hb
    by_cases hv : Visited (g.reached source n) d
    · have honward : (⟨id, false⟩ : Visit) ∈ b.onward := by
        rw [Node.onward, hbkind]
        exact List.mem_map_of_mem hbread
      exact absurd (hclosed.2 d b hv hb ⟨id, false⟩ honward hlive) hunvisited
    · rw [find?_of_not_visited hv, hb, Option.some.injEq] at hk'
      exact hk' ▸ hbclean

end Rivulet.Graph
