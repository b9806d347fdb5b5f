import Rivulet.Proofs.Hydration.Grafting

/-!
# Documents through their edits

A document starts empty or is read from markup, and then it is changed one edit at a time: nodes are
created, put under others, moved, taken out, built from fragments and replaced by markup. As long as
no node is put below itself, the two ways in which a place in the tree is stored agree after every
edit, and a move changes two lists of children at most.
-/

namespace Rivulet.Document

open Markup

variable {α : Type}

/-- A change of a document. -/
inductive Edit where
  /-- A node is created outside of the tree. -/
  | create (kind : Kind)
  /-- A node is put under a parent, in front of the anchor if there is one. -/
  | insertBefore (parent child : DomId) (anchor : Option DomId)
  /-- A node is put under a parent, behind its children. -/
  | append (parent child : DomId)
  /-- A node is taken out of the tree. -/
  | remove (id : DomId)
  /-- All children of a node are taken out. -/
  | clear (id : DomId)
  /-- A fragment is built outside of the tree. -/
  | build (fragment : Fragment)
  /-- The children of a node are replaced by what markup holds, as far as it has a reading. -/
  | setInner (id : DomId) (markup : String)

namespace Edit

/-- The document after an edit. -/
def apply (d : Document α) : Edit → Document α
  | create kind => (d.create kind).2
  | insertBefore parent child anchor => d.insertBefore parent child anchor
  | append parent child => d.append parent child
  | remove id => d.remove id
  | clear id => d.clear id
  | build fragment => (d.build fragment).2
  | setInner id markup => (d.setInner id markup).1

/-- Whether an edit names nodes of the document only and puts none of them below itself. -/
def Allowed (d : Document α) : Edit → Prop
  | insertBefore parent child _ | append parent child =>
    d.holds parent ∧ d.holds child ∧ ¬d.Below parent child
  | remove id | clear id | setInner id _ => d.holds id
  | create _ | build _ => True

end Edit

/-- A document that was empty or read from markup at first and then changed by edits. -/
inductive Reached : Document α → Prop
  /-- The empty document. -/
  | empty : Reached {}
  /-- A document that markup describes. -/
  | parse {markup : String} {d : Document α} (h : Document.parse markup = .ok d) : Reached d
  /-- A document after one edit more. -/
  | edit {d : Document α} (h : Reached d) {e : Edit} (hallowed : e.Allowed d) : Reached (e.apply d)

theorem holds_iff {d : Document α} {id : DomId} : d.holds id ↔ id.index < d.nodes.size :=
  decide_eq_true_iff

theorem parent?_detach_self (d : Document α) (c : DomId) : (d.detach c).parent? c = none := by
  rw [parent?_detach, if_pos rfl]

/-- A node is taken out of where it was before it is put anywhere. -/
theorem insertBefore_detach (d : Document α) (p c : DomId) (anchor : Option DomId) :
    (d.detach c).insertBefore p c anchor = d.insertBefore p c anchor := by
  rw [insertBefore, insertBefore, detach_of_parent?_none (parent?_detach_self d c)]

/-- What is put in front of a member of a list stands there. -/
theorem insertIn_of_mem {c a : DomId} {cs : List DomId} (h : a ∈ cs) :
    ∃ front back, cs = front ++ a :: back ∧ insertIn c (some a) cs = front ++ c :: a :: back := by
  obtain ⟨front, back, rfl, hnot⟩ := List.eq_append_cons_of_mem h
  exact ⟨front, back, rfl, by rw [insertIn, takeWhile_ne_append hnot, dropWhile_ne_append hnot]⟩

/-- Without an anchor in the list, what is put in stands at its end. -/
theorem insertIn_of_notMem {c : DomId} {anchor : Option DomId} {cs : List DomId}
    (h : ∀ a ∈ anchor, a ∉ cs) : insertIn c anchor cs = cs ++ [c] := by
  cases anchor with
  | none => rfl
  | some a =>
    have hne : ∀ b ∈ cs, decide (b ≠ a) = true := by
      intro b hb
      rw [decide_eq_true_eq]
      rintro rfl
      exact h b rfl hb
    rw [insertIn, List.takeWhile_eq_self_iff.2 hne, List.dropWhile_eq_nil_iff.2 hne]

/-- What a move does to the lists of children. -/
structure Moved (d d' : Document α) (p c : DomId) (anchor : Option DomId) : Prop where
  /-- The node stands directly in front of the anchor, if that is another child of the parent. -/
  before : ∀ a ∈ anchor, a ≠ c → a ∈ d.children p → ∃ front back,
    (d.children p).filter (· ≠ c) = front ++ a :: back ∧ d'.children p = front ++ c :: a :: back
  /-- Otherwise it is the last child. -/
  last : (∀ a ∈ anchor, a = c ∨ a ∉ d.children p) →
    d'.children p = (d.children p).filter (· ≠ c) ++ [c]
  /-- Another node loses the child if it had it, and nothing else changes for it. -/
  others : ∀ q, q ≠ p → d'.children q =
    if d.parent? c = some q then (d.children q).filter (· ≠ c) else d.children q

namespace Treelike

variable {d : Document α} {p c : DomId}

/-- A node that is taken out of the tree leaves trees behind. -/
theorem detach (h : d.Treelike) (id : DomId) : (d.detach id).Treelike := by
  refine (h.remove id).congr ?_ (fun j => ?_) fun j => ?_
  · rw [size_detach, size_remove]
  · rw [children_detach, children_remove]
  · rw [parent?_detach, parent?_remove]

/-- What stands below a node after another one was taken out stood below it before. -/
theorem below_of_detach {id j a : DomId} (hb : (d.detach id).Below j a) : d.Below j a := by
  refine Relation.ReflTransGen.mono (fun x y hxy => ?_) j a hb
  rw [parent?_detach] at hxy
  split at hxy
  · cases hxy
  · exact hxy

/-- Leaving a node out of a list of children shows only under its parent. -/
theorem children_detach_eq (h : d.Treelike) (id j : DomId) :
    (d.detach id).children j = (d.children j).filter (· ≠ id) := by
  rw [children_detach]
  split
  · rfl
  · rename_i hparent
    rw [eq_comm, List.filter_eq_self]
    intro x hx
    rw [decide_eq_true_eq]
    rintro rfl
    exact hparent ((h.child j x).1 hx)

/-- A node may be moved under any node that does not stand below it. -/
theorem move (h : d.Treelike) (anchor : Option DomId) (hp : p.index < d.nodes.size)
    (hs : c.index < d.nodes.size) (hout : ¬d.Below p c) :
    (d.insertBefore p c anchor).Treelike := by
  rw [← insertBefore_detach]
  exact (h.detach c).insertBefore anchor (parent?_detach_self d c) (by rwa [size_detach])
    (by rwa [size_detach]) fun hb => hout (below_of_detach hb)

/-- A move takes the node from its old parent and puts it where it was asked for. -/
theorem moved (h : d.Treelike) (anchor : Option DomId) (hp : p.index < d.nodes.size)
    (hout : ¬d.Below p c) : d.Moved (d.insertBefore p c anchor) p c anchor := by
  have hne : p ≠ c := by
    rintro rfl
    exact hout (.refl d p)
  have hchildren (q : DomId) := children_insertBefore anchor (parent?_detach_self d c)
    (by rwa [size_detach]) hne q
  simp only [insertBefore_detach] at hchildren
  refine ⟨fun a ha hac hmem => ?_, fun hnone => ?_, fun q hq => ?_⟩
  · have hkept : a ∈ (d.children p).filter (· ≠ c) := by simpa [hac] using hmem
    obtain ⟨front, back, hsplit, hput⟩ := insertIn_of_mem (c := c) hkept
    refine ⟨front, back, hsplit, ?_⟩
    rw [hchildren, if_pos rfl, h.children_detach_eq, Option.mem_def.1 ha, hput]
  · rw [hchildren, if_pos rfl, h.children_detach_eq, insertIn_of_notMem]
    intro a ha hmem
    rw [List.mem_filter, decide_eq_true_eq] at hmem
    rcases hnone a ha with rfl | hnot
    · exact hmem.2 rfl
    · exact hnot hmem.1
  · rw [hchildren, if_neg hq, children_detach]

/-- No node stands below itself. -/
theorem acyclic (h : d.Treelike) (c : DomId) :
    ¬Relation.TransGen (fun c p => d.parent? c = some p) c c := by
  intro hcycle
  obtain ⟨p, hp, hbelow⟩ := Relation.TransGen.head'_iff.1 hcycle
  exact h.not_below_child ((h.child p c).2 hp) hbelow

/-- An edit keeps the trees. -/
theorem edit (h : d.Treelike) {e : Edit} (hallowed : e.Allowed d) : (e.apply d).Treelike := by
  cases e with
  | create kind => exact h.create kind
  | insertBefore parent child anchor =>
    obtain ⟨hp, hs, hout⟩ := hallowed
    exact h.move anchor (holds_iff.1 hp) (holds_iff.1 hs) hout
  | append parent child =>
    obtain ⟨hp, hs, hout⟩ := hallowed
    exact h.move none (holds_iff.1 hp) (holds_iff.1 hs) hout
  | remove id => exact h.remove id
  | clear id => exact (h.clear id).1.treelike
  | build fragment =>
    obtain ⟨-, hextended, -⟩ := plant_extended h fragment.tree
    exact hextended.treelike
  | setInner id markup =>
    have hclear := (h.clear id).1
    have hid := Nat.lt_of_lt_of_le (holds_iff.1 hallowed) hclear.size
    exact (plantUnder_grafted hclear.treelike hid _).treelike

end Treelike

/-- A document that was read holds what the markup describes, and nothing else. -/
theorem eq_of_parse {markup : String} {d : Document α} (h : parse markup = .ok d) :
    ∃ trees, Markup.parse markup = .ok trees ∧
      d = { ({} : Document α).plantUnder root trees with created := 0 } := by
  rw [parse] at h
  cases hread : Markup.parse markup with
  | error fault =>
    rw [hread] at h
    cases h
  | ok trees =>
    rw [hread] at h
    cases h
    exact ⟨trees, rfl, rfl⟩

/-- What markup describes forms trees. -/
theorem treelike_of_parse {markup : String} {d : Document α} (h : parse markup = .ok d) :
    d.Treelike := by
  obtain ⟨trees, -, rfl⟩ := eq_of_parse h
  have hroot : root.index < ({} : Document α).nodes.size := by simp [root]
  exact (plantUnder_grafted Treelike.empty hroot trees).treelike.congr rfl (fun _ => rfl)
    fun _ => rfl

/-- A document that was read has a root. -/
theorem root_lt_of_parse {markup : String} {d : Document α} (h : parse markup = .ok d) :
    root.index < d.nodes.size := by
  obtain ⟨trees, -, rfl⟩ := eq_of_parse h
  have hroot : root.index < ({} : Document α).nodes.size := by simp [root]
  exact Nat.lt_of_lt_of_le hroot (plantUnder_grafted Treelike.empty hroot trees).size

/-- Edits that put no node below itself keep the trees. -/
theorem Reached.treelike {d : Document α} (h : d.Reached) : d.Treelike := by
  induction h with
  | empty => exact Treelike.empty
  | parse h => exact treelike_of_parse h
  | edit _ hallowed ih => exact ih.edit hallowed

/-- However a document came about by edits that put no node below itself, a node is among the
children of another one exactly when that one is its parent, it is there once, and nothing stands
below itself. Moving a node puts it in front of the anchor, or at the end, and changes no other
lists of children than those of its new and its old parent. -/
theorem edits_keep_trees {d : Document α} (h : d.Reached) :
    (∀ p c, c ∈ d.children p ↔ d.parent? c = some p) ∧
      (∀ p, (d.children p).Nodup) ∧
      (∀ c, ¬Relation.TransGen (fun c p => d.parent? c = some p) c c) ∧
      ∀ p c anchor, d.holds p → d.holds c → ¬d.Below p c →
        d.Moved (d.insertBefore p c anchor) p c anchor :=
  ⟨h.treelike.child, h.treelike.nodup, h.treelike.acyclic, fun _ _ anchor hp _ hout =>
    h.treelike.moved anchor (holds_iff.1 hp) hout⟩

/-- A list with three items that is the only child of the root. -/
def listed : Document Unit :=
  let list : Fragment := .element "ul" [] [.element "li" [] [.text "a"],
    .element "li" [] [.text "b"], .element "li" [] []]
  (Edit.append root ⟨1⟩).apply ((Edit.build list).apply {})

/-- The list after its last item was moved in front of the others. -/
def reordered : Document Unit := (Edit.insertBefore ⟨1⟩ ⟨6⟩ (some ⟨2⟩)).apply listed

/-- A node does not stand below another one when its parent does not. -/
theorem not_below_of_parent {d : Document α} {j q a : DomId} (hj : d.parent? j = some q)
    (hne : j ≠ a) (h : ¬d.Below q a) : ¬d.Below j a := by
  intro hb
  obtain rfl | ⟨q', hq', hbelow⟩ := hb.up
  · exact hne rfl
  · rw [hj, Option.some.injEq] at hq'
    exact h (hq' ▸ hbelow)

/-- A node without a parent stands below itself only. -/
theorem not_below_of_alone {d : Document α} {j a : DomId} (hj : d.parent? j = none)
    (hne : j ≠ a) : ¬d.Below j a := by
  intro hb
  obtain rfl | ⟨q, hq, -⟩ := hb.up
  · exact hne rfl
  · rw [hj] at hq
    cases hq

theorem edits_keep_trees_reordered :
    reordered.Reached ∧ reordered.children ⟨1⟩ = [⟨6⟩, ⟨2⟩, ⟨4⟩] ∧
      reordered.parent? ⟨6⟩ = some ⟨1⟩ ∧
      reordered.Moved (reordered.insertBefore ⟨1⟩ ⟨4⟩ (some ⟨6⟩)) ⟨1⟩ ⟨4⟩ (some ⟨6⟩) ∧
      (reordered.insertBefore ⟨1⟩ ⟨4⟩ (some ⟨6⟩)).children ⟨1⟩ = [⟨4⟩, ⟨6⟩, ⟨2⟩] := by
  have hlisted : listed.Reached :=
    .edit (e := .append root ⟨1⟩) (.edit (e := .build _) .empty trivial)
      ⟨by decide +kernel, by decide +kernel, not_below_of_alone (by decide +kernel) (by decide)⟩
  have hreached : reordered.Reached :=
    .edit (e := .insertBefore ⟨1⟩ ⟨6⟩ (some ⟨2⟩)) hlisted
      ⟨by decide +kernel, by decide +kernel, not_below_of_parent (q := root) (by decide +kernel)
        (by decide) (not_below_of_alone (by decide +kernel) (by decide))⟩
  have hchildren : reordered.children ⟨1⟩ = [⟨6⟩, ⟨2⟩, ⟨4⟩] := by decide +kernel
  obtain ⟨hlinks, -, -, hmoves⟩ := edits_keep_trees hreached
  have hmoved := hmoves ⟨1⟩ ⟨4⟩ (some ⟨6⟩) (by decide +kernel) (by decide +kernel)
    (not_below_of_parent (q := root) (by decide +kernel) (by decide)
      (not_below_of_alone (by decide +kernel) (by decide)))
  exact ⟨hreached, hchildren, (hlinks ⟨1⟩ ⟨6⟩).1 (by simp [hchildren]), hmoved, by decide +kernel⟩

end Rivulet.Document
