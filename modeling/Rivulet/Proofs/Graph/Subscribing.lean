import Mathlib.Logic.Relation
import Rivulet.Graph.Queue
import Rivulet.Proofs.Graph.BreadthFirst
import Rivulet.Proofs.Graph.Wiring

/-!
# The order of subscription

A node keeps its readers in the order in which they subscribed. When a reader runs again, it keeps
its place with all that it goes on reading, comes last with what it has not read before, and leaves
no gap with what it no longer reads. So two effects that go on reading a node are found in the same
order by every change of it, however often they and others run in between.
-/

namespace Rivulet.Graph

/-- A graph in which the readers of a node are those that have read it, each of them once. -/
structure Symmetric (g : Graph) : Prop where
  /-- A live node is among the readers of another one exactly if it has read it. -/
  edges : ∀ {a b : NodeId} {m n : Node}, g.find? a = some m → g.find? b = some n →
    (b ∈ m.dependents ↔ n.Reads a)
  /-- No reader is listed twice. -/
  nodup : ∀ {a : NodeId} {m : Node}, g.find? a = some m → m.dependents.Nodup

section

variable {g : Graph} {reader : NodeId} {n m : Node} {sources : List NodeId} {j : NodeId}

private theorem addDependent_of_mem (h : reader ∈ m.dependents) :
    m.addDependent reader = m := if_pos h

private theorem addDependent_of_notMem (h : reader ∉ m.dependents) :
    m.addDependent reader = { m with dependents := m.dependents ++ [reader] } := if_neg h

/-- What new sources of its reader make of a node that has recorded its readers. -/
theorem rewire_eq (h : reader ∈ m.dependents ↔ n.Reads j) :
    g.rewire reader n sources j m = { m with
      dependencies := if j = reader then g.observe sources else m.dependencies
      dependents :=
        if n.Reads j then if j ∈ sources then m.dependents else m.dependents.filter (· ≠ reader)
        else if j ∈ sources then m.dependents ++ [reader] else m.dependents } := by
  have hset : (if j = reader then { m with dependencies := g.observe sources } else m : Node) =
      { m with dependencies := if j = reader then g.observe sources else m.dependencies } := by
    split <;> rfl
  simp only [rewire, hset]
  by_cases hr : n.Reads j <;> by_cases hj : j ∈ sources
  · simp only [hr, hj, not_true_eq_false, and_false, if_true, if_false]
    exact addDependent_of_mem (h.2 hr)
  · simp only [hr, hj, not_false_eq_true, and_self, if_true, if_false]
    rfl
  · simp only [hr, hj, not_true_eq_false, and_false, if_true, if_false]
    exact addDependent_of_notMem (mt h.1 hr)
  · simp only [hr, hj, false_and, if_false]

end

/-- Two readers of a node, the first of which has subscribed before the second. -/
def Node.Orders (n : Node) (a b : NodeId) : Prop := [a, b].Sublist n.dependents ∧ n.dependents.Nodup

namespace Node.Orders

variable {n : Node} {a b reader : NodeId}

/-- What is ordered are readers. -/
theorem mem (h : n.Orders a b) : a ∈ n.dependents ∧ b ∈ n.dependents :=
  ⟨h.1.subset List.mem_cons_self, h.1.subset (by simp)⟩

/-- The loss of another reader leaves the order. -/
theorem removeDependent (h : n.Orders a b) (ha : a ≠ reader) (hb : b ≠ reader) :
    (n.removeDependent reader).Orders a b := by
  refine ⟨?_, h.2.filter _⟩
  have hpair : [a, b].filter (fun id => decide (id ≠ reader)) = [a, b] := by simp [ha, hb]
  exact hpair ▸ h.1.filter fun id => decide (id ≠ reader)

private theorem addDependent (h : n.Orders a b) (reader : NodeId) :
    (n.addDependent reader).Orders a b := by
  refine ⟨?_, nodup_addDependent h.2⟩
  rw [Node.addDependent]
  split
  · exact h.1
  · exact h.1.trans (List.sublist_append_left _ _)

/-- A reader that runs again and goes on reading the node keeps its place, and so do all others. -/
theorem rewire {g : Graph} {r : Node} {sources : List NodeId} {s : NodeId} (h : n.Orders a b)
    (hkeeps : reader = a ∨ reader = b → s ∈ sources) :
    (g.rewire reader r sources s n).Orders a b := by
  have hset (c : Prop) [Decidable c] (obs : List Observed) :
      (if c then { n with dependencies := obs } else n : Node).Orders a b := by
    split <;> exact h
  have hleft : (if r.Reads s ∧ s ∉ sources then
      (if s = reader then { n with dependencies := g.observe sources } else n).removeDependent
      reader
      else if s = reader then { n with dependencies := g.observe sources } else n).Orders a b := by
    split
    · rename_i hgone
      have hne (c : NodeId) (hc : reader = c → reader = a ∨ reader = b) : c ≠ reader := by
        rintro rfl
        exact hgone.2 (hkeeps (hc rfl))
      exact (hset _ _).removeDependent (hne a .inl) (hne b .inr)
    · exact hset _ _
  rw [Graph.rewire]
  split
  · exact hleft.addDependent reader
  · exact hleft

end Node.Orders

/-- What may happen to a graph while two nodes go on reading a third one: nodes come and go, change
and are marked, and run again, the two always with the third one among what they read. -/
inductive Goes (s a b : NodeId) : Graph → Graph → Prop where
  /-- A node has run again. -/
  | rerun (g : Graph) {reader : NodeId} {sources : List NodeId}
      (keeps : reader = a ∨ reader = b → s ∈ sources) :
      Goes s a b g (g.setDependencies reader sources)
  /-- A node has changed. -/
  | change (g : Graph) (id : NodeId) : Goes s a b g (g.markChanged id).1
  /-- A node is marked. -/
  | mark (g : Graph) (id : NodeId) (mark : Mark) : Goes s a b g (g.request id mark)
  /-- The epoch of a node advances. -/
  | bump (g : Graph) (id : NodeId) : Goes s a b g (g.bump id)
  /-- There is a new node. -/
  | insert {g : Graph} {id : NodeId} (fresh : g.find? id = none) (n : Node) :
      Goes s a b g (g.insert id n)
  /-- A node is taken out, but none of the three. -/
  | remove (g : Graph) {id : NodeId} (spares : id ≠ s ∧ id ≠ a ∧ id ≠ b) :
      Goes s a b g (g.remove id).1

section

variable {g g' : Graph} {s a b : NodeId} {m : Node}

private theorem orders_of_sameEdges (hmaps : Maps (fun _ => SameEdges) g g')
    (hm : g.find? s = some m)
    (h : m.Orders a b) : ∃ m', g'.find? s = some m' ∧ m'.Orders a b := by
  obtain ⟨m', hm', hsame⟩ := hmaps.exists_new hm
  exact ⟨m', hm', by rwa [Node.Orders, hsame.dependents]⟩

/-- Taking a node out leaves the order of the others. -/
theorem orders_remove {id : NodeId} (hs : s ≠ id) (ha : a ≠ id) (hb : b ≠ id)
    (hm : g.find? s = some m) (h : m.Orders a b) :
    ∃ m', (g.remove id).1.find? s = some m' ∧ m'.Orders a b := by
  let R (_ : NodeId) (m m' : Node) : Prop := m.Orders a b → m'.Orders a b
  have hrefl (j : NodeId) (m : Node) : R j m m := fun h => h
  have htrans (j : NodeId) (m m' m'' : Node) (h : R j m m') (h' : R j m' m'') : R j m m'' := h' ∘ h
  cases hn : g.find? id with
  | none => exact ⟨m, by rw [remove, hn, hm], h⟩
  | some n =>
    have hreaders := maps_foldl hrefl htrans (fun seen : Observed => seen.node) n.dependencies
      (fun _ _ m (h : m.Orders a b) => h.removeDependent ha hb) ⟨g.nodes.erase id⟩
    have hreads (g : Graph) := maps_foldl hrefl htrans (fun reader : NodeId => reader) n.dependents
      (f := fun _ m => m.forget id) (fun _ _ m (h : m.Orders a b) => h) g
    obtain ⟨m', hm', hkept⟩ := (hreaders.trans htrans (hreads _)).exists_new
      ((find?_erase_of_ne g hs).trans hm)
    exact ⟨m', by rw [remove, hn, hm'], hkept h⟩

/-- One step keeps the order. -/
theorem Goes.orders (hstep : Goes s a b g g') (hm : g.find? s = some m) (h : m.Orders a b) :
    ∃ m', g'.find? s = some m' ∧ m'.Orders a b := by
  cases hstep with
  | @rerun reader sources keeps =>
    cases hn : g.find? reader with
    | none => exact ⟨m, by rw [setDependencies, hn, hm], h⟩
    | some r =>
      refine ⟨_, ?_, h.rewire (g := g) (r := r) keeps⟩
      rw [find?_setDependencies hn, hm, Option.map_some]
  | change id => exact orders_of_sameEdges (sameEdges_markChanged g id) hm h
  | mark id mark => exact orders_of_sameEdges (sameEdges_request g id mark) hm h
  | bump id => exact orders_of_sameEdges (sameEdges_bump g id) hm h
  | @insert id fresh n =>
    have hs : s ≠ id := by
      rintro rfl
      rw [fresh] at hm
      cases hm
    exact ⟨m, by rw [find?_insert_of_ne g hs, hm], h⟩
  | @remove id spares => exact orders_remove spares.1.symm spares.2.1.symm spares.2.2.symm hm h

/-- Any number of steps keeps it. -/
theorem orders_of_goes (hsteps : Relation.ReflTransGen (Goes s a b) g g') (hm : g.find? s = some m)
    (h : m.Orders a b) : ∃ m', g'.find? s = some m' ∧ m'.Orders a b := by
  induction hsteps with
  | refl => exact ⟨m, hm, h⟩
  | tail _ hstep ih =>
    obtain ⟨m', hm', h'⟩ := ih
    exact hstep.orders hm' h'

end

/-! ## Who is found first -/

section

variable {g : Graph} {s a b : NodeId} {m : Node} {seen ids : List NodeId}

/-- The first places are those of nodes that are there and were not seen. -/
theorem mem_firsts {id : NodeId} :
    id ∈ g.firsts seen ids ↔ id ∈ ids ∧ g.contains id = true ∧ id ∉ seen := by
  induction ids generalizing seen with
  | nil => simp [firsts]
  | cons j ids ih =>
    rw [firsts]
    split
    · rename_i hj
      by_cases hid : id = j
      · simp [hid, hj]
      · simp [ih, hid]
    · rename_i hj
      by_cases hid : id = j
      · subst hid
        simp [ih, hj]
      · simp [ih, hid]

/-- What is new among some nodes keeps its order. -/
theorem sublist_firsts (h : [a, b].Sublist ids) (hnodup : ids.Nodup)
    (ha : g.contains a = true ∧ a ∉ seen) (hb : g.contains b = true ∧ b ∉ seen) :
    [a, b].Sublist (g.firsts seen ids) := by
  induction ids generalizing seen with
  | nil => cases h
  | cons j ids ih =>
    obtain ⟨hj, hids⟩ := List.nodup_cons.1 hnodup
    rw [firsts]
    cases h with
    | cons _ h =>
      have hne (c : NodeId) (hc : c ∈ [a, b]) : c ≠ j := fun heq => hj (heq ▸ h.subset hc)
      split
      · exact (ih h hids ⟨ha.1, by simp [ha.2, hne a]⟩ ⟨hb.1, by simp [hb.2, hne b]⟩).cons _
      · exact ih h hids ha hb
    | cons_cons _ h =>
      rw [if_pos ha]
      have hb' : b ∈ ids := h.subset (List.mem_singleton_self b)
      have hne : b ≠ a := fun heq => hj (heq ▸ hb')
      exact (List.singleton_sublist.2 (mem_firsts.2 ⟨hb', hb.1, by simp [hb.2, hne]⟩)).cons_cons a

private theorem contains_of_isEffect {id : NodeId} (h : g.isEffect id = true) :
    g.contains id = true := by
  rw [isEffect] at h
  split at h
  · rename_i n hn
    rw [contains_eq, hn]
    rfl
  · cases h

/-- A change finds effects that have read the changed node in the order of their subscription. -/
theorem sublist_markChanged (hm : g.find? s = some m) (h : m.Orders a b)
    (ha : g.isEffect a = true) (hb : g.isEffect b = true) :
    [a, b].Sublist (g.markChanged s).2 := by
  have hdue : (g.markChanged s).2 =
      (g.breadthFirst [] m.dependents g.size).filter g.isEffect := by
    rw [← map_reached g s m, ← (alike_bump g s).isEffect, markChanged, hm]
    rfl
  have hpair : [a, b].filter g.isEffect = [a, b] := by simp [ha, hb]
  have hfirst := sublist_firsts h.1 h.2 ⟨contains_of_isEffect ha, List.not_mem_nil⟩
    ⟨contains_of_isEffect hb, List.not_mem_nil⟩
  have hlive : s ∈ g.nodes := by
    rw [Std.HashMap.mem_iff_isSome_getElem?, show g.nodes[s]? = some m from hm]
    rfl
  obtain ⟨k, hk⟩ := Nat.exists_eq_succ_of_ne_zero (Nat.ne_of_gt (size_pos_of_mem hlive))
  rw [hdue, show g.size = k + 1 from hk, breadthFirst]
  exact hpair ▸ (hfirst.trans (List.sublist_append_left _ _)).filter g.isEffect

/-- What is scheduled together waits in its order, behind what waits already. -/
theorem pending_scheduleAll_of_nodup {q : Queue} (hnodup : ids.Nodup) :
    (q.scheduleAll ids).pending = q.pending ++ ids.filter (· ∉ q.pending) := by
  induction ids generalizing q with
  | nil => simp [Queue.scheduleAll]
  | cons id ids ih =>
    obtain ⟨hid, hids⟩ := List.nodup_cons.1 hnodup
    show ((q.schedule id).scheduleAll ids).pending = _
    rw [ih hids, Queue.schedule]
    split
    · rename_i hwaits
      rw [List.filter_cons_of_neg (by simpa using hwaits)]
    · rename_i hwaits
      rw [List.filter_cons_of_pos (by simpa using hwaits), List.append_assoc, List.singleton_append]
      have hrest : ids.filter (· ∉ q.pending ++ [id]) = ids.filter (· ∉ q.pending) := by
        refine List.filter_congr fun j hj => ?_
        have hne : j ≠ id := fun heq => hid (heq ▸ hj)
        simp [hne]
      rw [hrest]

private theorem nodup_markChanged (hm : g.find? s = some m) : (g.markChanged s).2.Nodup := by
  rw [markChanged, hm]
  exact (nodup_walk _ _).filter _

end

/-- A live reader that is given new sources has recorded those that are live, in order, with the
epochs of this moment. With what it has read before and reads again it keeps its place, with what is
new to it it comes last, and what it no longer reads loses it and nothing else. All else is as
before. So, whatever runs in between, two effects that go on reading a node are found by each change
of it in the order of their subscription, and wait in that order unless they wait already. -/
theorem setDependencies_keeps_order {g : Graph} (hg : g.Symmetric) {reader : NodeId} {n : Node}
    (hn : g.find? reader = some n) (sources : List NodeId) :
    (∀ j, (g.setDependencies reader sources).find? j = (g.find? j).map fun m =>
      { m with
        dependencies := if j = reader then sources.filterMap fun s => (g.epoch? s).map (⟨s, ·⟩)
          else m.dependencies
        dependents :=
          if n.Reads j then if j ∈ sources then m.dependents else m.dependents.filter (· ≠ reader)
          else if j ∈ sources then m.dependents ++ [reader] else m.dependents }) ∧
      ∀ {s a b : NodeId} {m : Node} {g' : Graph}, g.find? s = some m →
        [a, b].Sublist m.dependents → Relation.ReflTransGen (Goes s a b) g g' →
        ∃ m', g'.find? s = some m' ∧ [a, b].Sublist m'.dependents ∧
          (g'.isEffect a = true → g'.isEffect b = true →
            [a, b].Sublist (g'.markChanged s).2 ∧
            ∀ q : Queue, a ∉ q.pending → b ∉ q.pending →
              [a, b].Sublist (q.scheduleAll (g'.markChanged s).2).pending) := by
  constructor
  · intro j
    rw [find?_setDependencies hn]
    cases hm : g.find? j with
    | none => rfl
    | some m => exact congrArg some (rewire_eq (hg.edges hm hn))
  · intro s a b m g' hm hab hgoes
    obtain ⟨m', hm', horders⟩ := orders_of_goes hgoes hm ⟨hab, hg.nodup hm⟩
    refine ⟨m', hm', horders.1, fun ha hb => ?_⟩
    have hdue := sublist_markChanged hm' horders ha hb
    refine ⟨hdue, fun q hqa hqb => ?_⟩
    rw [pending_scheduleAll_of_nodup (nodup_markChanged hm')]
    have hpair : [a, b].filter (fun id => decide (id ∉ q.pending)) = [a, b] := by simp [hqa, hqb]
    exact (hpair ▸ hdue.filter _).trans (List.sublist_append_right _ _)

/-- A signal that two effects have read. -/
def sharedSource : Node := { Node.new .source with dependents := [⟨1⟩, ⟨2⟩] }

/-- An effect that has read the signal. -/
def sharedReader : Node := { Node.new .effect with dependencies := [⟨⟨0⟩, 0⟩] }

/-- A graph of a signal and the two effects that have read it. -/
def shared : Graph :=
  ((({} : Graph).insert ⟨0⟩ sharedSource).insert ⟨1⟩ sharedReader).insert ⟨2⟩ sharedReader

/-- The shared source is there. -/
theorem find?_shared_zero : shared.find? ⟨0⟩ = some sharedSource := by
  rw [shared, find?_insert_of_ne _ (by decide), find?_insert_of_ne _ (by decide),
    find?_insert_self]

/-- Its reader is there. -/
theorem find?_shared_one : shared.find? ⟨1⟩ = some sharedReader := by
  rw [shared, find?_insert_of_ne _ (by decide), find?_insert_self]

/-- There is nothing else than the source and its readers. -/
theorem eq_of_find?_shared {j : NodeId} {m : Node} (hm : shared.find? j = some m) :
    j = ⟨0⟩ ∧ m = sharedSource ∨ j ∈ sharedSource.dependents ∧ m = sharedReader := by
  by_cases h2 : j = ⟨2⟩
  · subst h2
    rw [shared, find?_insert_self] at hm
    exact .inr ⟨by decide, (Option.some.inj hm).symm⟩
  by_cases h1 : j = ⟨1⟩
  · subst h1
    rw [find?_shared_one] at hm
    exact .inr ⟨by decide, (Option.some.inj hm).symm⟩
  by_cases h0 : j = ⟨0⟩
  · subst h0
    rw [find?_shared_zero] at hm
    exact .inl ⟨rfl, (Option.some.inj hm).symm⟩
  rw [shared, find?_insert_of_ne _ h2, find?_insert_of_ne _ h1, find?_insert_of_ne _ h0] at hm
  simp [find?] at hm

/-- Sources and readers agree. -/
theorem symmetric_shared : shared.Symmetric where
  edges {a b m n} hm hn := by
    rcases eq_of_find?_shared hm with ⟨rfl, rfl⟩ | ⟨ha, rfl⟩ <;>
      rcases eq_of_find?_shared hn with ⟨rfl, rfl⟩ | ⟨hb, rfl⟩
    · simp [Node.Reads, sharedSource, Node.new]
    · simpa [Node.Reads, sharedReader] using hb
    · simp [Node.Reads, sharedSource, sharedReader, Node.new]
    · have hne : a ≠ ⟨0⟩ := by
        rintro rfl
        exact absurd ha (by decide)
      simp [Node.Reads, sharedReader, Node.new, hne.symm]
  nodup {a m} hm := by
    rcases eq_of_find?_shared hm with ⟨-, rfl⟩ | ⟨-, rfl⟩ <;> decide

/-- The first of the two effects reads the signal again, and twice: it stays the first. -/
theorem setDependencies_keeps_order_shared :
    shared.Symmetric ∧ shared.find? ⟨1⟩ = some sharedReader ∧
      (shared.setDependencies ⟨1⟩ [⟨0⟩, ⟨0⟩]).find? ⟨0⟩ = some sharedSource ∧
      ∃ m, (shared.setDependencies ⟨1⟩ [⟨0⟩, ⟨0⟩]).find? ⟨0⟩ = some m ∧
        [⟨1⟩, ⟨2⟩].Sublist m.dependents := by
  have hread : sharedReader.Reads ⟨0⟩ := ⟨⟨⟨0⟩, 0⟩, by decide, rfl⟩
  obtain ⟨hone, hmany⟩ :=
    setDependencies_keeps_order symmetric_shared find?_shared_one [⟨0⟩, ⟨0⟩]
  refine ⟨symmetric_shared, find?_shared_one, ?_, ?_⟩
  · rw [hone, find?_shared_zero, Option.map_some, if_neg (by decide), if_pos hread,
      if_pos (by decide)]
  · obtain ⟨m, hm, horder, -⟩ := hmany (a := ⟨1⟩) (b := ⟨2⟩) find?_shared_zero
      (List.Sublist.refl _) (.single (.rerun shared fun _ => List.mem_cons_self))
    exact ⟨m, hm, horder⟩

end Rivulet.Graph
