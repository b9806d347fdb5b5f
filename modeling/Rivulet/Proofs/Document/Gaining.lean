import Rivulet.Proofs.Hydration.Grafting

/-!
# What comes to stand at a spot

New nodes are put at a spot of a document one after the other, below a node that was put there
earlier, or between two of them. Old nodes keep what stands below them, apart from the one above the
spot, and the trees of the new nodes are put together as the steps are.
-/

namespace Rivulet

open Markup

/-- The tree with more trees put behind those that are below its top. -/
def Markup.Tree.grown (more : List Tree) : Tree → Tree
  | .node kind children => kind.over (children ++ more)

/-- The trees with more trees put inside of the last one. -/
def Markup.graft (more : List Tree) : List Tree → List Tree
  | [] => []
  | [t] => [t.grown more]
  | t :: u :: ts => t :: graft more (u :: ts)

theorem Markup.graft_concat (more ts : List Tree) (t : Tree) :
    graft more (ts ++ [t]) = ts ++ [t.grown more] := by
  induction ts with
  | nil => rfl
  | cons u ts ih =>
    rw [List.cons_append, List.cons_append, ← ih]
    cases ts <;> rfl

/-- What goes into the last of some trees leaves those in front of them alone. -/
theorem Markup.graft_append (more front : List Tree) {ts : List Tree} (h : ts ≠ []) :
    graft more (front ++ ts) = front ++ graft more ts := by
  obtain ⟨ts, t, rfl⟩ := (List.eq_nil_or_concat ts).resolve_left h
  rw [List.concat_eq_append, ← List.append_assoc, graft_concat, graft_concat, List.append_assoc]

namespace Document

variable {α : Type} {d d₁ d' : Document α} {x y : DomId}

/-- A place where nodes are put: under a node, in front of one of its children or at the end. -/
structure Spot where
  /-- The node above. -/
  parent : DomId
  /-- The child that new nodes come in front of. -/
  stop : Option DomId

/-- A spot that lies in a document. -/
structure Spot.Lies (p : Spot) (d : Document α) : Prop where
  /-- The node above is there. -/
  parent : p.parent.index < d.nodes.size
  /-- What new nodes come in front of is there. -/
  stop : ∀ c, p.stop = some c → c.index < d.nodes.size

theorem Spot.Lies.mono {p : Spot} (h : p.Lies d) (hsize : d.nodes.size ≤ d'.nodes.size) :
    p.Lies d' :=
  ⟨Nat.lt_of_lt_of_le h.parent hsize, fun c hc => Nat.lt_of_lt_of_le (h.stop c hc) hsize⟩

/-- A list with several elements put in front of another one, or at its end. -/
def splice (stop : Option DomId) (new cs : List DomId) : List DomId :=
  match stop with
  | none => cs ++ new
  | some c => cs.takeWhile (· ≠ c) ++ new ++ cs.dropWhile (· ≠ c)

private theorem splice_nil (stop : Option DomId) (cs : List DomId) : splice stop [] cs = cs := by
  cases stop with
  | none => rw [splice, List.append_nil]
  | some c => rw [splice, List.append_nil, List.takeWhile_append_dropWhile]

private theorem mem_splice {stop : Option DomId} {new cs : List DomId} :
    x ∈ splice stop new cs ↔ x ∈ new ∨ x ∈ cs := by
  cases stop with
  | none => rw [splice, List.mem_append, or_comm]
  | some c =>
    conv_rhs => rw [← List.takeWhile_append_dropWhile (p := (· ≠ c)) (l := cs)]
    simp only [splice, List.mem_append]
    tauto

private theorem insertIn_eq_splice (x : DomId) (stop : Option DomId) (cs : List DomId) :
    insertIn x stop cs = splice stop [x] cs := by
  cases stop with
  | none => rfl
  | some c => simp [insertIn, splice]

theorem splice_some (c : DomId) (new a b : List DomId) (ha : c ∉ a) :
    splice (some c) new (a ++ c :: b) = a ++ new ++ c :: b := by
  rw [splice, takeWhile_ne_append ha, dropWhile_ne_append ha]

private theorem splice_some_of_not_mem {c : DomId} {cs : List DomId} (new : List DomId)
    (h : c ∉ cs) :
    splice (some c) new cs = cs ++ new := by
  have hall : ∀ x ∈ cs, decide (x ≠ c) = true := by
    intro x hx
    rw [decide_eq_true_eq]
    rintro rfl
    exact h hx
  rw [splice, List.takeWhile_eq_self_iff.2 hall, List.dropWhile_eq_nil_iff.2 hall, List.append_nil]

/-- What is put at a spot later comes behind what was put there earlier. -/
theorem splice_splice {stop : Option DomId} {new : List DomId} (h : ∀ c, stop = some c → c ∉ new)
    (later cs : List DomId) : splice stop later (splice stop new cs) =
      splice stop (new ++ later) cs := by
  cases stop with
  | none => simp [splice]
  | some c =>
    have hnew := h c rfl
    by_cases hc : c ∈ cs
    · obtain ⟨a, b, rfl, ha⟩ := List.eq_append_cons_of_mem hc
      rw [splice_some _ _ _ _ ha, splice_some _ _ _ _ ha,
        splice_some _ _ _ _ (by simp [ha, hnew])]
      simp
    · rw [splice_some_of_not_mem _ hc, splice_some_of_not_mem _ hc,
        splice_some_of_not_mem _ (by simp [hc, hnew])]
      simp

/-- What is put in front of the last of some nodes stands between them and that one. -/
theorem splice_before {stop : Option DomId} {new cs : List DomId} {c : DomId} (hc : c ∉ cs)
    (hnew : c ∉ new) (inside : List DomId) :
    splice (some c) inside (splice stop (new ++ [c]) cs) =
      splice stop (new ++ (inside ++ [c])) cs := by
  cases stop with
  | none =>
    rw [splice, splice, ← List.append_assoc, splice_some _ _ _ _ (by simp [hc, hnew])]
    simp
  | some s =>
    have hfirst : c ∉ cs.takeWhile (· ≠ s) ++ new := by
      rw [List.mem_append, not_or]
      exact ⟨fun h => hc (List.takeWhile_subset _ h), hnew⟩
    have hsplit : splice (some s) (new ++ [c]) cs =
        (cs.takeWhile (· ≠ s) ++ new) ++ c :: cs.dropWhile (· ≠ s) := by simp [splice]
    rw [hsplit, splice_some _ _ _ _ hfirst]
    simp [splice]

/-- The tree below a node depends only on the nodes below it. -/
theorem Treelike.tree_congr (h : d.Treelike) (h' : d'.Treelike)
    (hsame : ∀ j, d.Below j x → d'.kind j = d.kind j ∧ d'.children j = d.children j) :
    d'.tree x = d.tree x := by
  induction hn : Treelike.count d x using Nat.strong_induction_on generalizing x with
  | _ n ih =>
    obtain ⟨hkind, hchildren⟩ := hsame x (.refl d x)
    rw [h.tree_eq, h'.tree_eq, hkind, forest, forest, hchildren]
    refine congrArg _ (List.map_congr_left fun c hc => ?_)
    refine ih _ (hn ▸ h.count_lt hc) (fun j hj => hsame j ?_) rfl
    exact Relation.ReflTransGen.tail hj ((h.child x c).1 hc)

/-- What stands below a node of the arena is in the arena. -/
theorem Treelike.lt_size_below (h : d.Treelike) {j : DomId} (hx : x.index < d.nodes.size)
    (hj : d.Below j x) : j.index < d.nodes.size := by
  rcases hj.up with rfl | ⟨q, hq, -⟩
  · exact hx
  · exact h.holds q j ((h.child q j).2 hq)

/-! ## New nodes -/

/-- A document that has gained nodes at a spot. -/
structure Gains (d d' : Document α) (p : Spot) (new : List DomId) : Prop where
  /-- No node got lost. -/
  size : d.nodes.size ≤ d'.nodes.size
  /-- The nodes still form trees. -/
  treelike : d'.Treelike
  /-- Old nodes are what they were. -/
  kind : ∀ j, j.index < d.nodes.size → d'.kind j = d.kind j
  /-- Other old nodes have the children that they had. -/
  children : ∀ j, j.index < d.nodes.size → j ≠ p.parent → d'.children j = d.children j
  /-- The nodes stand at the spot. -/
  spot : d'.children p.parent = splice p.stop new (d.children p.parent)
  /-- They are new. -/
  new : ∀ z ∈ new, d.nodes.size ≤ z.index

namespace Gains

variable {p : Spot} {new more : List DomId}

theorem refl (h : d.Treelike) (p : Spot) : d.Gains d p [] :=
  ⟨Nat.le_refl _, h, fun _ _ => rfl, fun _ _ _ => rfl, (splice_nil _ _).symm,
    fun _ hx => absurd hx List.not_mem_nil⟩

theorem mem (h : d.Gains d' p new) (hx : x ∈ new) : x ∈ d'.children p.parent :=
  h.spot ▸ mem_splice.2 (.inl hx)

theorem lt_size (h : d.Gains d' p new) (hx : x ∈ new) : x.index < d'.nodes.size :=
  h.treelike.holds _ _ (h.mem hx)

/-- Old nodes that do not stand above the spot have the trees that they had. -/
theorem tree (h : d.Gains d' p new) (hd : d.Treelike) (hx : x.index < d.nodes.size)
    (hout : ¬d.Below p.parent x) : d'.tree x = d.tree x := by
  refine hd.tree_congr h.treelike fun j hj => ?_
  have hlt := hd.lt_size_below hx hj
  refine ⟨h.kind j hlt, h.children j hlt ?_⟩
  rintro rfl
  exact hout hj

/-- The old children of the node above the spot have the trees that they had. -/
theorem trees (h : d.Gains d' p new) (hd : d.Treelike) {cs : List DomId}
    (hcs : ∀ c ∈ cs, c ∈ d.children p.parent) : cs.map d'.tree = cs.map d.tree :=
  List.map_congr_left fun c hc => h.tree hd (hd.holds _ _ (hcs c hc))
    (hd.not_below_child (hcs c hc))

/-- Nodes that are put at the spot later come behind those that were put there earlier. -/
theorem trans (h : d.Gains d₁ p new) (hp : p.Lies d) (h' : d₁.Gains d' p more) :
    d.Gains d' p (new ++ more) where
  size := Nat.le_trans h.size h'.size
  treelike := h'.treelike
  kind j hj := (h'.kind j (Nat.lt_of_lt_of_le hj h.size)).trans (h.kind j hj)
  children j hj hne :=
    (h'.children j (Nat.lt_of_lt_of_le hj h.size) hne).trans (h.children j hj hne)
  spot := by
    rw [h'.spot, h.spot, splice_splice]
    exact fun c hc hmem => absurd (hp.stop c hc) (Nat.not_lt.2 (h.new c hmem))
  new z hz := (List.mem_append.1 hz).elim (h.new z) fun hz => Nat.le_trans h.size (h'.new z hz)

/-- Their trees come behind those that are there. -/
theorem trees_trans (h : d.Gains d₁ p new) (h' : d₁.Gains d' p more) :
    (new ++ more).map d'.tree = new.map d₁.tree ++ more.map d'.tree := by
  rw [List.map_append, h'.trees h.treelike fun c hc => h.mem hc]

/-- Nodes may be put below the last node that was put at the spot. -/
theorem nest (h : d.Gains d₁ p (new ++ [x])) (h' : d₁.Gains d' ⟨x, none⟩ more) (hp : p.Lies d) :
    d.Gains d' p (new ++ [x]) := by
  have hx : x ∈ new ++ [x] := by simp
  have hne {j : DomId} (hj : j.index < d.nodes.size) : j ≠ x := by
    rintro rfl
    exact absurd hj (Nat.not_lt.2 (h.new j hx))
  refine ⟨Nat.le_trans h.size h'.size, h'.treelike, fun j hj => ?_, fun j hj hjp => ?_, ?_, h.new⟩
  · rw [h'.kind j (Nat.lt_of_lt_of_le hj h.size), h.kind j hj]
  · rw [h'.children j (Nat.lt_of_lt_of_le hj h.size) (hne hj), h.children j hj hjp]
  · rw [h'.children _ (Nat.lt_of_lt_of_le hp.parent h.size) (hne hp.parent), h.spot]

/-- Their trees belong to the tree of that node. -/
theorem trees_nest (h : d.Gains d₁ p (new ++ [x])) (h' : d₁.Gains d' ⟨x, none⟩ more) :
    (new ++ [x]).map d'.tree = graft (more.map d'.tree) ((new ++ [x]).map d₁.tree) := by
  have hx : x ∈ new ++ [x] := by simp
  have hd₁ := h.treelike
  have hother {z : DomId} (hz : z ∈ d₁.children p.parent) (hne : z ≠ x) : ¬d₁.Below x z :=
    fun hb => hne (hd₁.eq_of_below (h.mem hx) hz (.refl d₁ x) hb).symm
  have hnodup : (new ++ [x]).Nodup := by
    have hall := hd₁.nodup p.parent
    rw [h.spot] at hall
    cases hstop : p.stop with
    | none =>
      rw [hstop, splice, List.nodup_append] at hall
      exact hall.2.1
    | some c =>
      rw [hstop, splice, List.nodup_append, List.nodup_append] at hall
      exact hall.1.2.1
  have hfront : ∀ z ∈ new, d'.tree z = d₁.tree z := by
    intro z hz
    have hmem := h.mem (List.mem_append_left [x] hz)
    refine h'.tree hd₁ (hd₁.holds _ _ hmem) (hother hmem ?_)
    rintro rfl
    exact (List.nodup_append.1 hnodup).2.2 z hz z (List.mem_singleton_self z) rfl
  have hlast : d'.tree x = (d₁.tree x).grown (more.map d'.tree) := by
    have hkind : d'.kind x = d₁.kind x := h'.kind x (h.lt_size hx)
    have hchildren : d'.children x = d₁.children x ++ more := h'.spot
    have hbelow : (d₁.children x).map d'.tree = (d₁.children x).map d₁.tree :=
      h'.trees hd₁ fun _ hc => hc
    rw [h'.treelike.tree_eq, hkind, forest, hchildren, List.map_append, hbelow, hd₁.tree_eq, forest]
    cases d₁.kind x <;> rfl
  rw [List.map_append, List.map_append, List.map_singleton, List.map_singleton, graft_concat, hlast,
    List.map_congr_left hfront]

/-- Nodes may be put in front of the last node that was put at the spot. -/
theorem before (h : d.Gains d₁ p (new ++ [x])) (hd : d.Treelike) (hx : x ∉ new)
    (h' : d₁.Gains d' ⟨p.parent, some x⟩ more) : d.Gains d' p (new ++ (more ++ [x])) := by
  have hnew : x ∈ new ++ [x] := by simp
  have hold : x ∉ d.children p.parent := fun hmem =>
    absurd (hd.holds _ _ hmem) (Nat.not_lt.2 (h.new x hnew))
  refine ⟨Nat.le_trans h.size h'.size, h'.treelike, fun j hj => ?_, fun j hj hjp => ?_, ?_,
    fun z hz => ?_⟩
  · rw [h'.kind j (Nat.lt_of_lt_of_le hj h.size), h.kind j hj]
  · rw [h'.children j (Nat.lt_of_lt_of_le hj h.size) hjp, h.children j hj hjp]
  · have hspot : d'.children p.parent = splice (some x) more (d₁.children p.parent) := h'.spot
    rw [hspot, h.spot, splice_before hold hx]
  · rcases List.mem_append.1 hz with hz | hz
    · exact h.new z (List.mem_append_left _ hz)
    · rcases List.mem_append.1 hz with hz | hz
      · exact Nat.le_trans h.size (h'.new z hz)
      · exact h.new z (List.mem_append_right _ hz)

/-- Their trees stand between those that are there. -/
theorem trees_before (h : d.Gains d₁ p (new ++ [x])) (h' : d₁.Gains d' ⟨p.parent, some x⟩ more) :
    (new ++ (more ++ [x])).map d'.tree = new.map d₁.tree ++ (more.map d'.tree ++ [d₁.tree x]) := by
  have hkept := List.map_inj_left.1 (h'.trees h.treelike fun c hc => h.mem hc)
  rw [List.map_append, List.map_append, List.map_singleton, hkept x (by simp),
    List.map_congr_left fun c hc => hkept c (List.mem_append_left _ hc)]

end Gains

/-- A new node that stands alone is put at a spot with all that is below it. -/
theorem Extended.gains {p : Spot} (h : d.Extended d₁) (hd : d.Treelike) (hp : p.Lies d)
    (halone : d₁.parent? x = none) (hx : d.nodes.size ≤ x.index) (hxs : x.index < d₁.nodes.size) :
    d.Gains (d₁.insertBefore p.parent x p.stop) p [x] ∧
      (d₁.insertBefore p.parent x p.stop).tree x = d₁.tree x := by
  have hne {j : DomId} (hj : j.index < d.nodes.size) : j ≠ x := by
    rintro rfl
    exact absurd hj (Nat.not_lt.2 hx)
  have hps := Nat.lt_of_lt_of_le hp.parent h.size
  have hout := h.not_below hd hp.parent hx
  have hchildren := children_insertBefore p.stop halone hps (hne hp.parent)
  have htreelike := h.treelike.insertBefore p.stop halone hps hxs hout
  refine ⟨⟨?_, htreelike, fun j hj => ?_, fun j hj hjp => ?_, ?_, fun z hz => ?_⟩, ?_⟩
  · rw [size_insertBefore p.stop halone]
    exact h.size
  · rw [kind_insertBefore p.stop halone, (h.kept j hj).kind]
  · rw [hchildren, if_neg hjp, (h.kept j hj).children]
  · rw [hchildren, if_pos rfl, insertIn_eq_splice, (h.kept p.parent hp.parent).children]
  · rwa [List.mem_singleton.1 hz]
  · refine h.treelike.tree_congr htreelike fun j hj => ?_
    refine ⟨kind_insertBefore p.stop halone j, ?_⟩
    rw [hchildren, if_neg]
    rintro rfl
    exact hout hj

/-- A single node is created and put at a spot. -/
theorem Treelike.gains_create {p : Spot} (h : d.Treelike) (hp : p.Lies d) (kind : Kind) :
    d.Gains ((d.create kind).2.insertBefore p.parent ⟨d.nodes.size⟩ p.stop) p [⟨d.nodes.size⟩] ∧
      ((d.create kind).2.insertBefore p.parent ⟨d.nodes.size⟩ p.stop).tree ⟨d.nodes.size⟩ =
        .leaf kind := by
  have hextended : d.Extended (d.create kind).2 :=
    ⟨by rw [size_create]; omega, h.create kind, fun j hj => kept_create kind hj⟩
  have halone : (d.create kind).2.parent? ⟨d.nodes.size⟩ = none := by
    rw [parent?_create]
    exact parent?_of_size_le (Nat.le_refl _)
  obtain ⟨hgains, htree⟩ := hextended.gains h hp halone (Nat.le_refl _) (by simp)
  refine ⟨hgains, ?_⟩
  have hnone : d.children ⟨d.nodes.size⟩ = [] := children_of_size_le (Nat.le_refl _)
  rw [htree, hextended.treelike.tree_eq, kind_create_self, forest, children_create, hnone]
  cases kind <;> rfl

mutual

/-- A tree is built as it is. -/
theorem tree_plant {d : Document α} (hd : d.Treelike) : ∀ {t : Tree}, t.Holdable →
    (d.plant t).2.tree ⟨d.nodes.size⟩ = t
  | .node kind children, .node hover hbelow => by
    have htop : (⟨d.nodes.size⟩ : DomId).index < (d.create kind).2.nodes.size := by simp
    obtain ⟨new, hgains, htrees⟩ := gains_plantUnder (hd.create kind) htop children hbelow
    have hnone : (d.create kind).2.children ⟨d.nodes.size⟩ = [] := by
      rw [children_create]
      exact children_of_size_le (Nat.le_refl _)
    have hchildren : ((d.create kind).2.plantUnder ⟨d.nodes.size⟩ children).children
      ⟨d.nodes.size⟩ =
        new := by
      rw [hgains.spot, hnone]
      rfl
    rw [plant_node, hgains.treelike.tree_eq, hgains.kind _ htop, kind_create_self,
      forest, hchildren,
      htrees, hover]

/-- Trees are built as the last children of a node. -/
theorem gains_plantUnder {d : Document α} (hd : d.Treelike) {x : DomId}
    (hx : x.index < d.nodes.size) :
    ∀ ts : List Tree, (∀ t ∈ ts, t.Holdable) → ∃ new,
      d.Gains (d.plantUnder x ts) ⟨x, none⟩ new ∧ new.map (d.plantUnder x ts).tree = ts
  | [], _ => by
    rw [plantUnder]
    exact ⟨[], .refl hd _, rfl⟩
  | t :: ts, h => by
    obtain ⟨hid, hextended, hsize, halone, -⟩ := plant_extended hd t
    have hspot : (⟨x, none⟩ : Spot).Lies d := ⟨hx, fun c hc => by cases hc⟩
    obtain ⟨hfirst, htree⟩ := hextended.gains hd hspot halone (Nat.le_refl _) hsize
    obtain ⟨new, hrest, htrees⟩ := gains_plantUnder hfirst.treelike
      (Nat.lt_of_lt_of_le hx hfirst.size) ts fun u hu => h u (List.mem_cons_of_mem t hu)
    rw [plantUnder_cons, hid]
    refine ⟨[⟨d.nodes.size⟩] ++ new, hfirst.trans hspot hrest, ?_⟩
    rw [hfirst.trees_trans hrest, htrees, List.map_singleton, htree,
      tree_plant hd (h t List.mem_cons_self), List.singleton_append]

end

end Document

end Rivulet
