import Mathlib.Data.Option.Basic
import Rivulet.Graph.Basic

/-!
# Edges of the graph

What a change of the graph does to each node. When a node is given new sources, the readers of
other nodes change by that one reader only, and each of its sources that is there knows of it.
-/

namespace Rivulet.Graph

/-- A node that was put in is found. -/
@[simp] theorem find?_insert_self (g : Graph) (id : NodeId) (n : Node) :
    (g.insert id n).find? id = some n := by
  simp [find?, insert]

/-- Putting a node in leaves the others alone. -/
theorem find?_insert_of_ne (g : Graph) {id j : NodeId} (h : j ≠ id) (n : Node) :
    (g.insert id n).find? j = g.find? j := by
  simp [find?, insert, Std.HashMap.getElem?_insert, h.symm]

/-- A node that was changed is found changed. -/
@[simp] theorem find?_modify_self (g : Graph) (id : NodeId) (f : Node → Node) :
    (g.modify id f).find? id = (g.find? id).map f := by
  simp [find?, modify]

/-- Changing a node leaves the others alone. -/
theorem find?_modify_of_ne (g : Graph) {id j : NodeId} (h : j ≠ id) (f : Node → Node) :
    (g.modify id f).find? j = g.find? j := by
  simp [find?, modify, Std.HashMap.getElem?_modify, h.symm]

/-- Taking a node out leaves the others alone. -/
theorem find?_erase_of_ne (g : Graph) {id j : NodeId} (h : j ≠ id) :
    (⟨g.nodes.erase id⟩ : Graph).find? j = g.find? j := by
  simp [find?, Std.HashMap.getElem?_erase, h.symm]

/-- A node is there if it is found. -/
theorem contains_eq (g : Graph) (id : NodeId) : g.contains id = (g.find? id).isSome := by
  simp [contains, find?]

/-- The epoch of a node that is there. -/
theorem epoch?_eq {g : Graph} {id : NodeId} {n : Node} (h : g.find? id = some n) :
    g.epoch? id = some n.epoch := by
  rw [epoch?, h, Option.map_some]

section Rel

variable {R R' S : Node → Node → Prop} {a b c : Option Node} {n : Node}

/-- What is on the left of a relation has something on the right. -/
theorem exists_right_of_rel (h : Option.Rel R a b) (ha : a = some n) :
    ∃ n', b = some n' ∧ R n n' := by
  subst ha
  cases h with
  | some hr => exact ⟨_, rfl, hr⟩

/-- What is on the right of a relation has something on the left. -/
theorem exists_left_of_rel (h : Option.Rel R a b) (hb : b = some n) :
    ∃ n', a = some n' ∧ R n' n := by
  subst hb
  cases h with
  | some hr => exact ⟨_, rfl, hr⟩

/-- A relation may be weakened, knowing what stands on both sides. -/
theorem rel_imp (h : Option.Rel R a b)
    (hR : ∀ n n', a = some n → b = some n' → R n n' → R' n n') : Option.Rel R' a b := by
  cases h with
  | some hr => exact .some (hR _ _ rfl rfl hr)
  | none => exact .none

/-- Relations one after the other. -/
theorem rel_trans (h : Option.Rel R a b) (h' : Option.Rel R' b c)
    (hS : ∀ n n' n'', R n n' → R' n' n'' → S n n'') : Option.Rel S a c := by
  cases h with
  | none =>
    cases h'
    exact .none
  | some hr =>
    cases h' with
    | some hr' => exact .some (hS _ _ _ hr hr')

/-- What a change leaves as it is can be read off the node before and behind it. -/
theorem map_eq_of_rel {α : Type} {f : Node → α} (h : Option.Rel R a b)
    (hR : ∀ n n', R n n' → f n' = f n) : b.map f = a.map f := by
  cases h with
  | some hr => exact congrArg some (hR _ _ hr)
  | none => rfl

end Rel

/-- Each node of a graph stands in a relation to the node in its place in another graph. -/
def Maps (R : NodeId → Node → Node → Prop) (g g' : Graph) : Prop :=
  ∀ j, Option.Rel (R j) (g.find? j) (g'.find? j)

/-- Nodes that stay as they are. -/
theorem Maps.refl {R : NodeId → Node → Node → Prop} (h : ∀ j n, R j n n) (g : Graph) :
    Maps R g g := by
  intro j
  cases g.find? j with
  | none => exact .none
  | some n => exact .some (h j n)

/-- Changes of the nodes one after the other. -/
theorem Maps.trans {R : NodeId → Node → Node → Prop}
    (h : ∀ j n n' n'', R j n n' → R j n' n'' → R j n n'') {g g' g'' : Graph} (h1 : Maps R g g')
    (h2 : Maps R g' g'') : Maps R g g'' := fun j => rel_trans (h1 j) (h2 j) (h j)

/-- What becomes of nodes may be described more weakly, knowing the nodes. -/
theorem Maps.imp_of_find? {R R' : NodeId → Node → Node → Prop} {g g' : Graph} (h : Maps R g g')
    (hR : ∀ j n n', g.find? j = some n → g'.find? j = some n' → R j n n' → R' j n n') :
    Maps R' g g' := fun j => rel_imp (h j) (hR j)

/-- What becomes of nodes may be described more weakly. -/
theorem Maps.imp {R R' : NodeId → Node → Node → Prop} {g g' : Graph} (h : Maps R g g')
    (hR : ∀ j n n', R j n n' → R' j n n') : Maps R' g g' :=
  h.imp_of_find? fun j n n' _ _ => hR j n n'

/-- Changing one node. -/
theorem maps_modify {R : NodeId → Node → Node → Prop} (hrefl : ∀ j n, R j n n) (g : Graph)
    (id : NodeId) {f : Node → Node} (hf : ∀ n, g.find? id = some n → R id n (f n)) :
    Maps R g (g.modify id f) := by
  intro j
  by_cases hj : j = id
  · subst hj
    rw [find?_modify_self]
    cases hn : g.find? j with
    | none => exact .none
    | some n => exact .some (hf n hn)
  · rw [find?_modify_of_ne g hj]
    exact Maps.refl hrefl g j

/-- Changing nodes one after the other. -/
theorem maps_foldl {β : Type} {R : NodeId → Node → Node → Prop} (hrefl : ∀ j n, R j n n)
    (htrans : ∀ j n n' n'', R j n n' → R j n' n'' → R j n n'') (node : β → NodeId)
    {f : β → Node → Node} (l : List β) (hf : ∀ b ∈ l, ∀ n, R (node b) n (f b n)) (g : Graph) :
    Maps R g (l.foldl (fun g b => g.modify (node b) (f b)) g) := by
  induction l generalizing g with
  | nil => exact Maps.refl hrefl g
  | cons b l ih =>
    have hone := maps_modify hrefl g (node b) fun n _ => hf b List.mem_cons_self n
    exact hone.trans htrans (ih (fun c hc => hf c (List.mem_cons_of_mem b hc)) _)

/-- What becomes of a node that was there. -/
theorem Maps.exists_new {R : NodeId → Node → Node → Prop} {g g' : Graph}
    (h : Maps R g g') {j : NodeId}
    {n : Node} (hj : g.find? j = some n) : ∃ n', g'.find? j = some n' ∧ R j n n' :=
  exists_right_of_rel (h j) hj

/-- What a node that is there was before. -/
theorem Maps.exists_old {R : NodeId → Node → Node → Prop} {g g' : Graph}
    (h : Maps R g g') {j : NodeId}
    {n' : Node} (hj : g'.find? j = some n') : ∃ n, g.find? j = some n ∧ R j n n' :=
  exists_left_of_rel (h j) hj

section Same

variable {R : NodeId → Node → Node → Prop} {g g' : Graph} {id : NodeId}

/-- What stays the same of a node stays the same of what is found. -/
theorem Maps.map_eq {α : Type} {f : Node → α} (h : Maps R g g')
    (hR : ∀ n n', R id n n' → f n' = f n) : (g'.find? id).map f = (g.find? id).map f :=
  map_eq_of_rel (h id) hR

/-- The same nodes are there. -/
theorem Maps.isSome_eq (h : Maps R g g') (id : NodeId) :
    (g'.find? id).isSome = (g.find? id).isSome := by
  have hmap : (g'.find? id).map (fun _ => ()) = (g.find? id).map fun _ => () :=
    h.map_eq fun _ _ _ => rfl
  simpa using congrArg Option.isSome hmap

/-- The same nodes are not there. -/
theorem Maps.find?_eq_none (h : Maps R g g') : g'.find? id = none ↔ g.find? id = none := by
  rw [← Option.isNone_iff_eq_none, ← Option.isNone_iff_eq_none, ← Option.not_isSome, h.isSome_eq,
    Option.not_isSome]

/-- The graph has the same nodes. -/
theorem Maps.contains_eq (h : Maps R g g') (id : NodeId) : g'.contains id = g.contains id := by
  rw [Graph.contains_eq, Graph.contains_eq, h.isSome_eq]

end Same

/-! ## Giving a node new sources -/

/-- A node that is the same apart from whether one reader reads it. -/
structure Rewired (reader : NodeId) (n n' : Node) : Prop where
  /-- It stands for the same. -/
  kind : n'.kind = n.kind
  /-- It can be trusted as far as before. -/
  mark : n'.mark = n.mark
  /-- It has changed as often. -/
  changes : n'.changes = n.changes
  /-- It reads the same. -/
  dependencies : n'.dependencies = n.dependencies
  /-- Other nodes read it if they did. -/
  dependents : ∀ c, c ≠ reader → (c ∈ n'.dependents ↔ c ∈ n.dependents)

theorem Rewired.refl (reader : NodeId) (n : Node) : Rewired reader n n :=
  ⟨rfl, rfl, rfl, rfl, fun _ _ => Iff.rfl⟩

theorem Rewired.trans {reader : NodeId} {n n' n'' : Node} (h : Rewired reader n n')
    (h' : Rewired reader n' n'') : Rewired reader n n'' where
  kind := h'.kind.trans h.kind
  mark := h'.mark.trans h.mark
  changes := h'.changes.trans h.changes
  dependencies := h'.dependencies.trans h.dependencies
  dependents c hc := (h'.dependents c hc).trans (h.dependents c hc)

/-- A node loses a reader. -/
theorem rewired_removeDependent (reader : NodeId) (n : Node) :
    Rewired reader n (n.removeDependent reader) := by
  refine ⟨rfl, rfl, rfl, rfl, ?_⟩
  intro c hc
  simp [Node.removeDependent, hc]

/-- A node gets a reader. -/
theorem rewired_addDependent (reader : NodeId) (n : Node) :
    Rewired reader n (n.addDependent reader) := by
  unfold Node.addDependent
  split
  · exact Rewired.refl reader n
  · refine ⟨rfl, rfl, rfl, rfl, ?_⟩
    intro c hc
    simp [hc]

/-- A reader that was added is among the readers. -/
theorem mem_addDependent (reader : NodeId) (n : Node) :
    reader ∈ (n.addDependent reader).dependents := by
  unfold Node.addDependent
  split
  · assumption
  · simp

/-- What is recorded of sources: those that are there, with their epochs. -/
def observe (g : Graph) (sources : List NodeId) : List Observed :=
  sources.filterMap fun s => (g.epoch? s).map fun e => ⟨s, e⟩

/-- What is observed of the sources is the epoch of each that is there. -/
theorem mem_observe {g : Graph} {sources : List NodeId} {seen : Observed} :
    seen ∈ g.observe sources ↔ seen.node ∈ sources ∧ g.epoch? seen.node = some seen.epoch := by
  simp only [observe, List.mem_filterMap, Option.map_eq_some_iff]
  constructor
  · rintro ⟨s, hs, e, he, rfl⟩
    exact ⟨hs, he⟩
  · rintro ⟨hs, he⟩
    exact ⟨seen.node, hs, seen.epoch, he, rfl⟩

/-- Changes of the readers of nodes by one reader, one after the other. -/
theorem maps_rewired_foldl {β : Type} {reader : NodeId} (node : β → NodeId) {f : Node → Node}
    (hf : ∀ n, Rewired reader n (f n)) (l : List β) (g : Graph) :
    Maps (fun _ => Rewired reader) g (l.foldl (fun g b => g.modify (node b) f) g) :=
  maps_foldl (fun _ => Rewired.refl reader) (fun _ _ _ _ => Rewired.trans) node l
    (fun _ _ n => hf n) g

/-- A source keeps its reader, and gains it when the walk over the sources comes to it. -/
theorem mem_dependents_foldl {reader s : NodeId} {sources : List NodeId} {g : Graph} {n' : Node}
    (h : (sources.foldl (fun g s => g.modify s (·.addDependent reader)) g).find? s = some n')
    (hs : s ∈ sources ∨ ∃ n, g.find? s = some n ∧ reader ∈ n.dependents) :
    reader ∈ n'.dependents := by
  induction sources generalizing g with
  | nil =>
    obtain ⟨n, hn, hr⟩ := hs.resolve_left (by simp)
    rw [List.foldl_nil, hn, Option.some.injEq] at h
    exact h ▸ hr
  | cons x sources ih =>
    rw [List.foldl_cons] at h
    apply ih h
    by_cases hx : s = x
    · subst hx
      have hrest := maps_rewired_foldl id (rewired_addDependent reader) sources
        (g.modify s (·.addDependent reader))
      obtain ⟨m, hm, -⟩ := hrest.exists_old h
      have hm' := hm
      rw [find?_modify_self, Option.map_eq_some_iff] at hm
      obtain ⟨n, -, rfl⟩ := hm
      exact Or.inr ⟨_, hm', mem_addDependent reader n⟩
    · rcases hs with hs | ⟨n, hn, hr⟩
      · rcases List.mem_cons.1 hs with rfl | hs
        · exact absurd rfl hx
        · exact Or.inl hs
      · exact Or.inr ⟨n, by rw [find?_modify_of_ne g hx, hn], hr⟩

/-- Giving a node new sources replaces what it reads by what is recorded of them. -/
theorem maps_setDependencies {g : Graph} {reader : NodeId} {n : Node}
    (h : g.find? reader = some n) (sources : List NodeId) :
    Maps (fun j m m' => Rewired reader
      (if j = reader then { m with dependencies := g.observe sources } else m) m') g
      (g.setDependencies reader sources) := by
  have hset : Maps (fun j m m' => m' =
      if j = reader then { m with dependencies := g.observe sources } else m) g
      (g.modify reader fun m => { m with dependencies := g.observe sources }) := by
    intro j
    by_cases hj : j = reader
    · subst hj
      simp [h]
    · rw [find?_modify_of_ne g hj]
      cases g.find? j <;> simp [hj]
  have hfolds := (maps_rewired_foldl (·.node) (rewired_removeDependent reader)
    (n.dependencies.filter fun seen => seen.node ∉ sources)
    (g.modify reader fun m => { m with dependencies := g.observe sources })).trans
    (fun _ _ _ _ h1 h2 => h1.trans h2) (maps_rewired_foldl id
      (rewired_addDependent reader) sources _)
  have hall : g.setDependencies reader sources = sources.foldl
      (fun g s => g.modify (id s) (·.addDependent reader))
      ((n.dependencies.filter fun seen => seen.node ∉ sources).foldl
        (fun g seen => g.modify seen.node (·.removeDependent reader))
        (g.modify reader fun m => { m with dependencies := g.observe sources })) := by
    rw [setDependencies, h]
    rfl
  rw [← hall] at hfolds
  refine fun j => rel_trans (hset j) (hfolds j) ?_
  rintro m m' m'' rfl hr
  exact hr

/-- Every source that is there knows of its new reader. -/
theorem mem_dependents_setDependencies {g : Graph} {reader : NodeId} {n : Node}
    (h : g.find? reader = some n) {sources : List NodeId} {s : NodeId} (hs : s ∈ sources)
    {m : Node} (hm : (g.setDependencies reader sources).find? s = some m) :
    reader ∈ m.dependents := by
  rw [setDependencies, h] at hm
  exact mem_dependents_foldl hm (Or.inl hs)

private theorem find?_foldl_modify_of_ne {β : Type} (node : β → NodeId)
    {f : Node → Node} {j : NodeId}
    {l : List β} (hl : ∀ b ∈ l, j ≠ node b) (g : Graph) :
    (l.foldl (fun g b => g.modify (node b) f) g).find? j = g.find? j := by
  induction l generalizing g with
  | nil => rfl
  | cons b l ih =>
    rw [List.foldl_cons, ih fun c hc => hl c (List.mem_cons_of_mem b hc),
      find?_modify_of_ne g (hl b List.mem_cons_self)]

/-- Giving a node new sources lets be what it neither reads nor read. -/
theorem find?_setDependencies_of_ne {g : Graph} {reader j : NodeId} {n : Node}
    (h : g.find? reader = some n) (hne : j ≠ reader) {sources : List NodeId}
    (hsources : j ∉ sources)
    (hunread : ∀ seen ∈ n.dependencies, j ≠ seen.node) :
    (g.setDependencies reader sources).find? j = g.find? j := by
  rw [setDependencies, h]
  have hsource (s : NodeId) (hs : s ∈ sources) : j ≠ id s := by
    rintro rfl
    exact hsources hs
  refine (find?_foldl_modify_of_ne id hsource _).trans ?_
  rw [find?_foldl_modify_of_ne (·.node) fun seen hseen => hunread seen (List.mem_filter.1 hseen).1,
    find?_modify_of_ne g hne]

/-- A node that is the same apart from its edges to a node that it did not read. -/
structure Unlinked (id : NodeId) (n n' : Node) : Prop where
  /-- It stands for the same. -/
  kind : n'.kind = n.kind
  /-- It can be trusted as far as before. -/
  mark : n'.mark = n.mark
  /-- It has changed as often. -/
  changes : n'.changes = n.changes
  /-- It reads the same. -/
  dependencies : (∀ seen ∈ n.dependencies, seen.node ≠ id) → n'.dependencies = n.dependencies
  /-- Other nodes read it if they did. -/
  dependents : ∀ c, c ≠ id → (c ∈ n'.dependents ↔ c ∈ n.dependents)

/-- A node that only gets or loses a reader keeps the others. -/
theorem Rewired.unlinked {id : NodeId} {n n' : Node} (h : Rewired id n n') : Unlinked id n n' :=
  ⟨h.kind, h.mark, h.changes, fun _ => h.dependencies, h.dependents⟩

private theorem Unlinked.refl (id : NodeId) (n : Node) : Unlinked id n n :=
    (Rewired.refl id n).unlinked

private theorem Unlinked.trans {id : NodeId} {n n' n'' : Node} (h : Unlinked id n n')
    (h' : Unlinked id n' n'') : Unlinked id n n'' where
  kind := h'.kind.trans h.kind
  mark := h'.mark.trans h.mark
  changes := h'.changes.trans h.changes
  dependencies hn := by
    have heq := h.dependencies hn
    rw [h'.dependencies (heq ▸ hn), heq]
  dependents c hc := (h'.dependents c hc).trans (h.dependents c hc)

private theorem unlinked_forget (id : NodeId) (n : Node) : Unlinked id n (n.forget id) := by
  refine ⟨rfl, rfl, rfl, ?_, fun _ _ => Iff.rfl⟩
  intro hn
  simp only [Node.forget, List.filter_eq_self, decide_eq_true_eq]
  exact hn

/-- Taking a node out leaves the others as they were, apart from their edges to it. -/
theorem remove_spec (g : Graph) (id : NodeId) :
    (g.remove id).1.find? id = none ∧
      Maps (fun _ => Unlinked id) ⟨g.nodes.erase id⟩ (g.remove id).1 := by
  have hgone : (⟨g.nodes.erase id⟩ : Graph).find? id = none := by simp [find?]
  cases h : g.find? id with
  | none =>
    have hsame : Maps (fun _ => Unlinked id) ⟨g.nodes.erase id⟩ g := by
      intro j
      by_cases hj : j = id
      · subst hj
        rw [hgone, h]
        exact .none
      · rw [find?_erase_of_ne g hj]
        exact Maps.refl (fun _ => Unlinked.refl id) g j
    rw [remove, h]
    exact ⟨h, hsame⟩
  | some n =>
    have hdone := (maps_foldl (fun _ => Unlinked.refl id)
      (fun _ _ _ _ h1 h2 => h1.trans h2) (fun seen : Observed => seen.node) n.dependencies
      (fun _ _ m => (rewired_removeDependent id m).unlinked) ⟨g.nodes.erase id⟩).trans
      (fun _ _ _ _ h1 h2 => h1.trans h2) (maps_foldl (fun _ => Unlinked.refl id)
        (fun _ _ _ _ h1 h2 => h1.trans h2) (fun reader : NodeId => reader) n.dependents
        (fun _ _ m => unlinked_forget id m) _)
    have hall : Maps (fun _ => Unlinked id) ⟨g.nodes.erase id⟩ (g.remove id).1 := by
      rw [remove, h]
      exact hdone
    exact ⟨hall.find?_eq_none.2 hgone, hall⟩

end Rivulet.Graph
