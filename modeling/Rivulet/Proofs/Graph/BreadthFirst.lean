import Rivulet.Proofs.Graph.Reaching

/-!
# The order in which a change spreads

Breadth first means level by level. The first level is made of the readers of the changed node,
in the order in which they subscribed; the next one of the readers of the derived nodes of this
level, one node after the other. A node belongs to the first level that comes upon it and to the
first place there, so that cycles end and no node has two places.

The walk goes through a single queue and knows nothing of levels. One level of the queue is taken
at a time here, and the marks of all nodes behind a change are read off the order.
-/

namespace Rivulet.Graph

/-- The live nodes among some that were not seen yet, each at the first of its places. -/
def firsts (g : Graph) (seen : List NodeId) : List NodeId → List NodeId
  | [] => []
  | id :: ids =>
    if g.contains id ∧ id ∉ seen then id :: g.firsts (seen ++ [id]) ids else g.firsts seen ids

/-- The nodes that a node passes a change on to: the readers of a derived node. -/
def passesTo (g : Graph) (id : NodeId) : List NodeId :=
  match g.find? id with
  | some n => if n.kind = .derived then n.dependents else []
  | none => []

/-- So many levels, one after the other. The first one is made of the given nodes, each further
one of what the level before it passes the change on to. -/
def breadthFirst (g : Graph) (seen ids : List NodeId) : Nat → List NodeId
  | 0 => []
  | k + 1 =>
    let level := g.firsts seen ids
    level ++ g.breadthFirst (seen ++ level) (level.flatMap g.passesTo) k

private theorem breadthFirst_nil (g : Graph) (seen : List NodeId) (k : Nat) :
    g.breadthFirst seen [] k = [] := by
  induction k generalizing seen with
  | zero => rfl
  | succ k ih => exact ih (seen ++ [])

/-- The live nodes without those that were seen. -/
def Without (g : Graph) (seen : List NodeId) (unseen : Std.HashMap NodeId Node) : Prop :=
  ∀ id, unseen[id]? = if id ∈ seen then none else g.find? id

private theorem without_nil (g : Graph) : g.Without [] g.nodes := by
  intro id
  rw [if_neg List.not_mem_nil]
  rfl

theorem Without.mem_iff {g : Graph} {seen : List NodeId} {unseen : Std.HashMap NodeId Node}
    (h : g.Without seen unseen) {id : NodeId} : id ∈ unseen ↔ g.contains id ∧ id ∉ seen := by
  rw [Std.HashMap.mem_iff_isSome_getElem?, h id]
  by_cases hid : id ∈ seen
  · simp [hid]
  · simp [hid, contains, find?, Std.HashMap.isSome_getElem?_eq_contains]

private theorem Without.erase {g : Graph} {seen : List NodeId} {unseen : Std.HashMap NodeId Node}
    (h : g.Without seen unseen) (id : NodeId) : g.Without (seen ++ [id]) (unseen.erase id) := by
  intro j
  rw [Std.HashMap.getElem?_erase, h j]
  by_cases hj : j = id
  · simp [hj]
  · have hne : ¬ id = j := fun he => hj he.symm
    simp [hj, hne]

theorem size_pos_of_mem {α β : Type} [BEq α] [Hashable α] [EquivBEq α] [LawfulHashable α]
    {m : Std.HashMap α β} {k : α} (h : k ∈ m) : 0 < m.size := by
  refine Nat.pos_of_ne_zero fun hzero => ?_
  refine Std.HashMap.not_mem_of_isEmpty ?_ h
  rw [Std.HashMap.isEmpty_eq_size_eq_zero, hzero]
  rfl

/-- Where the walk goes on from an unseen node. -/
theorem Without.onward {g : Graph} {seen : List NodeId} {unseen : Std.HashMap NodeId Node}
    (h : g.Without seen unseen) {id : NodeId} (hid : id ∈ unseen) :
    unseen[id].onward = (g.passesTo id).map (⟨·, false⟩) := by
  have hnode := h id
  rw [if_neg (h.mem_iff.1 hid).2, Std.HashMap.getElem?_eq_some_getElem hid] at hnode
  rw [passesTo, ← hnode, Node.onward]
  cases hkind : unseen[id].kind <;> simp [hkind]

/-- The walk goes through the front of its queue first: it visits what is new there, and what
these nodes lead on to has to wait behind the rest of the queue. -/
theorem exists_walk_append {g : Graph} (front queue : List Visit) {seen : List NodeId}
    {unseen : Std.HashMap NodeId Node} (h : g.Without seen unseen) :
    let level := g.firsts seen (front.map (·.node))
    ∃ unseen', g.Without (seen ++ level) unseen' ∧ unseen'.size + level.length = unseen.size ∧
      (walk unseen (front ++ queue)).map (·.node) = level ++
        (walk unseen' (queue ++ (level.flatMap g.passesTo).map (⟨·, false⟩))).map (·.node) := by
  induction front generalizing queue seen unseen with
  | nil => exact ⟨unseen, by simpa [firsts] using h, rfl, by simp [firsts]⟩
  | cons visit front ih =>
    rw [List.map_cons, List.cons_append, firsts]
    by_cases hlive : visit.node ∈ unseen
    · obtain ⟨unseen', hwithout, hsize, hwalk⟩ :=
        ih (queue ++ unseen[visit.node].onward) (h.erase visit.node)
      rw [if_pos (h.mem_iff.1 hlive)]
      refine ⟨unseen', by simpa using hwithout, ?_, ?_⟩
      · have hpos : 0 < unseen.size := size_pos_of_mem hlive
        rw [Std.HashMap.size_erase, if_pos hlive] at hsize
        rw [List.length_cons]
        omega
      · rw [walk, dif_pos hlive, List.map_cons, List.append_assoc, hwalk, h.onward hlive]
        simp
    · rw [if_neg fun hnew => hlive (h.mem_iff.2 hnew), walk, dif_neg hlive]
      exact ih queue h

/-- The walk visits level by level. As many levels as there are unseen nodes are enough. -/
theorem map_walk {g : Graph} {k : Nat} {seen : List NodeId} {unseen : Std.HashMap NodeId Node}
    (h : g.Without seen unseen) (hk : unseen.size ≤ k) (queue : List Visit) :
    (walk unseen queue).map (·.node) = g.breadthFirst seen (queue.map (·.node)) k := by
  induction k generalizing seen unseen queue with
  | zero =>
    refine List.eq_nil_iff_forall_not_mem.2 fun id hid => ?_
    have hpos := size_pos_of_mem (mem_of_visited (List.mem_map.1 hid))
    omega
  | succ k ih =>
    obtain ⟨unseen', hwithout, hsize, hwalk⟩ := exists_walk_append queue [] h
    rw [List.append_nil, List.nil_append] at hwalk
    rw [hwalk, breadthFirst]
    refine congrArg _ ?_
    -- An empty level ends the walk; any other one leaves fewer unseen nodes.
    by_cases hlevel : g.firsts seen (queue.map (·.node)) = []
    · rw [hlevel, List.flatMap_nil, List.map_nil, walk, List.map_nil, breadthFirst_nil]
    · have hpos := List.length_pos_iff.2 hlevel
      rw [ih hwithout (by omega), List.map_map]
      exact congrArg (g.breadthFirst _ · k) (List.map_id _)

/-- The walk visits no node twice. -/
theorem nodup_walk (unseen : Std.HashMap NodeId Node) (queue : List Visit) :
    ((walk unseen queue).map (·.node)).Nodup := by
  induction unseen, queue using walk.induct with
  | case1 unseen =>
    rw [walk]
    exact List.nodup_nil
  | case2 unseen visit rest hlive ih =>
    rw [walk, dif_pos hlive, List.map_cons]
    refine List.nodup_cons.2 ⟨fun hmem => ?_, ih⟩
    have hne := (Std.HashMap.mem_erase.1 (mem_of_visited (List.mem_map.1 hmem))).1
    rw [beq_self_eq_true] at hne
    cases hne
  | case3 unseen visit rest hgone ih =>
    rw [walk, dif_neg hgone]
    exact ih

/-- Direct visits are those that the walk started with. -/
theorem mem_queue_of_direct {unseen : Std.HashMap NodeId Node} {queue : List Visit} {w : Visit}
    (hw : w ∈ walk unseen queue) (hdirect : w.direct = true) : w ∈ queue := by
  induction unseen, queue using walk.induct with
  | case1 unseen =>
    rw [walk] at hw
    exact absurd hw List.not_mem_nil
  | case2 unseen visit rest hlive ih =>
    rw [walk, dif_pos hlive] at hw
    rcases List.mem_cons.1 hw with rfl | hw
    · exact List.mem_cons_self
    · rcases List.mem_append.1 (ih hw) with hrest | honward
      · exact List.mem_cons_of_mem visit hrest
      · rw [Node.onward] at honward
        split at honward
        · obtain ⟨j, -, rfl⟩ := List.mem_map.1 honward
          cases hdirect
        · exact absurd honward List.not_mem_nil
        · exact absurd honward List.not_mem_nil
  | case3 unseen visit rest hgone ih =>
    rw [walk, dif_neg hgone] at hw
    exact List.mem_cons_of_mem visit (ih hw)

/-- A node that is visited once is marked once. -/
theorem find?_of_visited {visits : List Visit} (hnodup : (visits.map (·.node)).Nodup) {v : Visit}
    (hv : v ∈ visits) (g : Graph) :
    (visits.foldl markVisit g).find? v.node =
      (g.find? v.node).map (·.request (if v.direct then .dirty else .maybeDirty)) := by
  induction visits generalizing g with
  | nil => exact absurd hv List.not_mem_nil
  | cons w visits ih =>
    rw [List.map_cons, List.nodup_cons] at hnodup
    rw [List.foldl_cons]
    rcases List.mem_cons.1 hv with rfl | hv
    · have hlater : ¬ Visited visits v.node := fun h => hnodup.1 (List.mem_map.2 h)
      rw [find?_of_not_visited hlater, markVisit, request, find?_modify_self]
    · have hne : v.node ≠ w.node := fun he => hnodup.1 (he ▸ List.mem_map_of_mem hv)
      rw [ih hnodup.2 hv, markVisit, request, find?_modify_of_ne g hne]

/-- A node behind a change: dirty if it reads the changed node, raised if the change reaches it in
another way, and as before otherwise. -/
theorem find?_reached {g : Graph} {source : NodeId} {n : Node} (id : NodeId) :
    ((g.reached source n).foldl markVisit (g.bump source)).find? id =
      ((g.bump source).find? id).map fun m =>
        { m with mark := if id ∈ n.dependents then .dirty
                         else if id ∈ (g.reached source n).map (·.node) then m.mark.raise
                         else m.mark } := by
  have hnodup : ((g.reached source n).map (·.node)).Nodup := nodup_walk _ _
  cases hm : (g.bump source).find? id with
  | none =>
    have hunvisited : ¬ Visited (g.reached source n) id := fun h => by
      obtain ⟨m, hsome⟩ := mem_nodes_iff.1 (mem_of_visited h)
      rw [hm] at hsome
      cases hsome
    rw [find?_of_not_visited hunvisited, hm]
    rfl
  | some m =>
    have hlive : id ∈ (g.bump source).nodes := mem_nodes_iff.2 ⟨m, hm⟩
    by_cases hdirect : id ∈ n.dependents
    · have hmem : (⟨id, true⟩ : Visit) ∈ g.reached source n := by
        have hall : ∀ w ∈ n.dependents.map fun j => (⟨j, true⟩ : Visit), w.direct = true := by
          intro w hw
          obtain ⟨j, -, rfl⟩ := List.mem_map.1 hw
          rfl
        have hfront : (⟨id, true⟩ : Visit) ∈ walk (g.bump source).nodes
            ((n.dependents.map fun j => (⟨j, true⟩ : Visit)) ++ []) :=
          mem_walk_of_front hall (List.mem_map.2 ⟨id, hdirect, rfl⟩) hlive
        rwa [List.append_nil] at hfront
      have hmark := find?_of_visited hnodup hmem (g.bump source)
      rw [hm] at hmark
      rw [hmark]
      simp [hdirect, Node.request, Mark.request]
    · by_cases hreached : id ∈ (g.reached source n).map (·.node)
      · obtain ⟨v, hv, rfl⟩ := List.mem_map.1 hreached
        have hlater : v.direct = false := by
          refine Bool.eq_false_iff.2 fun hv' => hdirect ?_
          obtain ⟨j, hj, rfl⟩ := List.mem_map.1 (mem_queue_of_direct hv hv')
          exact hj
        have hmark := find?_of_visited hnodup hv (g.bump source)
        rw [hm] at hmark
        rw [hmark]
        simp [hdirect, hreached, hlater, Node.request, Mark.request]
      · have hunvisited : ¬ Visited (g.reached source n) id :=
          fun h => hreached (List.mem_map.2 h)
        rw [find?_of_not_visited hunvisited, hm]
        simp [hdirect, hreached]

/-- Levels depend on kinds and readers only. -/
theorem Alike.breadthFirst {g g' : Graph} (h : Alike g g') (seen ids : List NodeId) (k : Nat) :
    g'.breadthFirst seen ids k = g.breadthFirst seen ids k := by
  have hfirsts (seen ids : List NodeId) : g'.firsts seen ids = g.firsts seen ids := by
    induction ids generalizing seen with
    | nil => rfl
    | cons id ids ih => rw [firsts, firsts, h.contains_eq, ih, ih]
  have hpasses : g'.passesTo = g.passesTo := by
    funext id
    have hrel := h id
    rw [passesTo, passesTo]
    generalize g.find? id = a at hrel
    generalize g'.find? id = b at hrel
    cases hrel with
    | none => rfl
    | some hr => simp only [hr.1, hr.2]
  induction k generalizing seen ids with
  | zero => rfl
  | succ k ih => rw [Graph.breadthFirst, Graph.breadthFirst, hfirsts, hpasses, ih]

private theorem size_bump (g : Graph) (id : NodeId) : (g.bump id).nodes.size = g.size :=
  Std.HashMap.size_modify

/-- The nodes that a change visits, level by level. -/
theorem map_reached (g : Graph) (source : NodeId) (n : Node) :
    (g.reached source n).map (·.node) = g.breadthFirst [] n.dependents g.size := by
  rw [reached, map_walk (without_nil (g.bump source)) (Nat.le_of_eq (size_bump g source)),
    List.map_map,
    (alike_bump g source).breadthFirst]
  exact congrArg (g.breadthFirst [] · g.size) (List.map_id _)

/-- The epoch has 64 bits and wraps. -/
theorem epoch_bump (n : Node) : n.bump.epoch = n.epoch + 1 := UInt64.ofNat_add n.changes 1

/-- A change of a live node goes breadth first through what it reaches, each node once, whatever
cycles there are. It gives the effects among these, makes the readers of the node dirty, raises the
marks of the others, and advances the epoch of the node alone. A change of a node that is gone does
nothing. -/
theorem markChanged_spreads (g : Graph) (source : NodeId) :
    match g.find? source with
    | none => g.markChanged source = (g, [])
    | some n =>
      let order := g.breadthFirst [] n.dependents g.size
      let g' := (g.markChanged source).1
      let due := (g.markChanged source).2
      order.Nodup ∧ (∀ id, id ∈ order ↔ g.Reaches source id) ∧
        due = order.filter g.isEffect ∧ due.Nodup ∧
        (∀ id, id ∈ due ↔ g.Reaches source id ∧ g.isEffect id = true) ∧
        (∀ id, g'.find? id = (g.find? id).map fun m =>
          { m with
            mark := if id ∈ n.dependents then .dirty else if id ∈
              order then m.mark.raise else m.mark
            changes := if id = source then m.changes + 1 else m.changes }) ∧
        ∀ id, g'.epoch? id = if id = source then some (n.epoch + 1) else g.epoch? id := by
  cases hn : g.find? source with
  | none =>
    simp only
    rw [markChanged, hn]
  | some n =>
    have hnodup : (g.breadthFirst [] n.dependents g.size).Nodup := by
      rw [← map_reached g source n]
      exact nodup_walk _ _
    have hdue : (g.markChanged source).2 =
        (g.breadthFirst [] n.dependents g.size).filter g.isEffect := by
      rw [← map_reached g source n, ← (alike_bump g source).isEffect, markChanged, hn]
      rfl
    have hfind : ∀ id, (g.markChanged source).1.find? id = (g.find? id).map fun m =>
        { m with
          mark := if id ∈ n.dependents then .dirty
                  else if id ∈ g.breadthFirst [] n.dependents g.size then m.mark.raise else m.mark
          changes := if id = source then m.changes + 1 else m.changes } := by
      intro id
      rw [markChanged_eq hn, find?_reached, map_reached]
      by_cases hid : id = source
      · subst hid
        rw [bump, find?_modify_self, Option.map_map]
        simp [Function.comp_def, Node.bump]
      · rw [bump, find?_modify_of_ne g hid]
        simp [hid]
    refine ⟨hnodup, ?_, hdue, hdue ▸ hnodup.filter _, fun id => mem_markChanged, hfind, ?_⟩
    · intro id
      rw [← map_reached g source n, ← visited_reached hn]
      exact List.mem_map
    · intro id
      rw [epoch?, hfind id, Option.map_map]
      by_cases hid : id = source
      · subst hid
        rw [hn, if_pos rfl, ← epoch_bump]
        simp [Node.epoch, Node.bump]
      · simp [hid, epoch?, Function.comp_def, Node.epoch]

end Rivulet.Graph
