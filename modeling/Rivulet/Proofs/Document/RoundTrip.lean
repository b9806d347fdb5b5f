import Rivulet.Proofs.Document.Planting
import Rivulet.Proofs.Markup.RoundTrip

/-!
# Documents come back from their markup

Trees that can be written are held by a document as they are, and the document that is read
from the markup of a node holds the trees of its children.
-/

namespace Rivulet

open Markup

/-- A tree that can be written can be held. -/
theorem Markup.Tree.holdable_of_writable : ∀ {t : Tree}, t.Writable → t.Holdable
  | .node (.text _) children, h => by
    simp only [Tree.Writable] at h
    subst h
    exact .node rfl (by simp)
  | .node (.marker _) children, h => by
    simp only [Tree.Writable] at h
    subst h
    exact .node rfl (by simp)
  | .node (.comment _) children, h => by
    simp only [Tree.Writable] at h
    obtain ⟨-, rfl⟩ := h
    exact .node rfl (by simp)
  | .node (.wrapper _ _) children, h => by
    simp only [Tree.Writable] at h
    refine .node rfl ?_
    intro t ht
    exact holdable_of_writable (Tree.allWritable_iff.1 h.2 t ht)
  | .node (.element tag _) children, h => by
    simp only [Tree.Writable] at h
    obtain ⟨-, -, -, hchildren⟩ := h
    refine .node rfl ?_
    intro t ht
    by_cases hvoid : isVoid tag = true
    · rw [if_pos hvoid] at hchildren
      simp [hchildren] at ht
    · rw [if_neg hvoid] at hchildren
      by_cases hraw : isRaw tag = true
      · rw [if_pos hraw] at hchildren
        rcases hchildren with rfl | ⟨content, -, rfl, -⟩
        · simp at ht
        · rw [List.mem_singleton] at ht
          subst ht
          exact .node rfl (by simp)
      · rw [if_neg hraw] at hchildren
        exact holdable_of_writable (Tree.allWritable_iff.1 hchildren t ht)

namespace Document

variable {α : Type}

/-- The trees that are built in an empty document are the ones below its root. -/
theorem forest_plantUnder {ts : List Tree} (h : ∀ t ∈ ts, t.Holdable) :
    (({} : Document α).plantUnder root ts).forest root = ts := by
  have hroot : root.index < ({} : Document α).nodes.size := by simp [root]
  obtain ⟨new, hnew, htrees⟩ := (plantUnder_spec ordered_empty hroot ts h).forest
  rw [forest, hnew]
  exact htrees

/-- Counting the created nodes anew changes no tree. -/
theorem tree_created (d : Document α) (n : Nat) (id : DomId) :
    { d with created := n }.tree id = d.tree id := by
  have hwithin {β : Type} (f : DomId → Kind → List β → β) (m : Nat) (j : DomId) :
      { d with created := n }.foldWithin f m j = d.foldWithin f m j := by
    induction m generalizing j with
    | zero => rfl
    | succ m ih =>
      rw [foldWithin, foldWithin]
      congr 1
      exact List.map_congr_left fun c _ => ih c
  exact hwithin _ _ id

theorem forest_created (d : Document α) (n : Nat) (id : DomId) :
    { d with created := n }.forest id = d.forest id :=
  List.map_congr_left fun c _ => tree_created d n c

/-- Reading markup gives a document that holds what was read. -/
theorem parse_of_parse {markup : String} {ts : List Tree} (hread : Markup.parse markup = .ok ts)
    (h : ∀ t ∈ ts, t.Holdable) :
    ∃ d : Document α, parse markup = .ok d ∧ d.forest root = ts := by
  refine ⟨{ ({} : Document α).plantUnder root ts with created := 0 }, ?_, ?_⟩
  · rw [parse, hread]
    rfl
  · rw [forest_created, forest_plantUnder h]

/-- Markup that goes on behind other markup is read as nodes behind those of the other markup, which
stay as they are. -/
theorem parse_of_parse_append {markup markup' : String} {ts us : List Tree}
    (hread : Markup.parse markup = .ok ts) (hread' : Markup.parse markup' = .ok (ts ++ us))
    (hts : ∀ t ∈ ts, t.Holdable) (hus : ∀ u ∈ us, u.Holdable) :
    ∃ (d d' : Document α) (new : List DomId), parse markup = .ok d ∧ parse markup' = .ok d' ∧
      d'.children root = d.children root ++ new ∧ new.map d'.tree = us ∧
      ∀ c ∈ d.children root, d'.tree c = d.tree c := by
  let first := ({} : Document α).plantUnder root ts
  have hroot : root.index < ({} : Document α).nodes.size := by simp [root]
  have hfirst := plantUnder_spec ordered_empty hroot ts hts
  have hsecond := plantUnder_spec hfirst.grows.ordered
    (Nat.lt_of_lt_of_le hroot hfirst.grows.size) us hus
  obtain ⟨new, hchildren, htrees⟩ := hsecond.forest
  refine ⟨{ first with created := 0 }, { first.plantUnder root us with created := 0 }, new, ?_, ?_,
    hchildren, ?_, fun c hc => ?_⟩
  · rw [parse, hread]
    rfl
  · rw [parse, hread', ← plantUnder_append]
    rfl
  · exact (List.map_congr_left fun c _ => tree_created (first.plantUnder root us) 0 c).trans htrees
  · -- The older nodes stand below the root, which is the only one of them that changes.
    obtain ⟨hlt, hc⟩ := hfirst.grows.ordered root c hc
    rw [tree_created (first.plantUnder root us) 0, tree_created first 0]
    refine hsecond.grows.tree hfirst.grows.ordered c hc fun j hj => ?_
    rintro rfl
    exact absurd hlt (Nat.not_lt.2 hj)

/-- Trees that can be written are held by a document, and whenever they stand below a node that
does not hold plain content, reading the markup of the node gives a document with the same
trees. -/
theorem parse_inner {ts : List Tree} (h : Tree.AllWritable ts) :
    (({} : Document α).plantUnder root ts).forest root = ts ∧
      ∀ (d : Document α) (id : DomId), (d.kind id).tag?.any isRaw = false → d.forest id = ts →
        ∃ d' : Document α, parse (d.inner id) = .ok d' ∧ d'.forest root = ts := by
  have hholdable : ∀ t ∈ ts, t.Holdable := by
    intro t ht
    exact Tree.holdable_of_writable (Tree.allWritable_iff.1 h t ht)
  refine ⟨forest_plantUnder hholdable, ?_⟩
  intro d id hplain hforest
  have hinner : d.inner id = print ts := by
    rw [inner, printChildren, hplain, hforest]
    rfl
  rw [hinner]
  exact parse_of_parse (parse_print h) hholdable

/-- Neighbours of all kinds: texts next to texts, empty ones among them, texts next to the ends
of a fragment, references inside an attribute, and markup inside a script. -/
def neighbours : List Tree :=
  [.leaf (.text ""), .leaf (.text "a &lt; b"), .leaf (.text ""), .leaf (.marker .opening),
    .leaf (.text "x"), .leaf (.text "y"), .leaf (.marker .closing), .leaf (.text "z"),
    .node (.wrapper .region []) [.leaf (.comment "note"), .leaf (.element "br" [])],
    .node (.element "p" [("title", "a \"b\" &amp; <c>"), ("hidden", "")])
      [.node (.element "script" []) [.leaf (.text "if (a </b>) \x7b\x7d")]]]

theorem parse_inner_neighbours :
    ∃ d : Document Unit, parse ((({} : Document Unit).plantUnder root neighbours).inner root) =
      .ok d ∧ d.forest root = neighbours := by
  have hp : IsTag "p" :=
    .of_all (.of_all (by decide) (by decide) (by decide)) (by decide)
  have hbr : IsTag "br" :=
    .of_all (.of_all (by decide) (by decide) (by decide)) (by decide)
  have hscript : IsTag "script" :=
    .of_all (.of_all (by decide) (by decide) (by decide)) (by decide)
  have hnone : AreAttributes [] := ⟨by simp, by simp⟩
  have htwo : AreAttributes [("title", "a \"b\" &amp; <c>"), ("hidden", "")] := by
    refine ⟨?_, by decide⟩
    simp only [List.forall_mem_cons]
    exact ⟨.of_all (by decide) (by decide) (by decide),
      .of_all (by decide) (by decide) (by decide), by simp⟩
  have hnote : IsComment "note" := ⟨by decide +kernel, by decide⟩
  have hplain : IsPlain "script" [.node (.text "if (a </b>) \x7b\x7d") []] :=
    Or.inr ⟨_, by decide, rfl, by decide +kernel⟩
  have hwritable : Tree.AllWritable neighbours := by
    simp [neighbours, Tree.AllWritable, Tree.leaf, Tree.Writable, hp, hbr, hscript, hnone, htwo,
      hnote, hplain, isVoid, voidTags, isRaw, Wrapper.ofTag?]
  have hheld := (parse_inner (α := Unit) hwritable).1
  exact (parse_inner (α := Unit) hwritable).2 _ root (by decide +kernel) hheld

end Document

end Rivulet
