import Rivulet.Markup.Tree

/-!
# Fragments

Inert markup that is put into a document as a whole: texts and elements, which carry the key
attribute once they are built.
-/

namespace Rivulet

/-- A text, or an element with attributes and content. -/
inductive Fragment where
  /-- A text. -/
  | text (content : String)
  /-- An element. -/
  | element (tag : String) (attrs : List (String × String)) (children : List Fragment)
  deriving Inhabited

namespace Fragment

mutual

/-- The number of nodes that the fragment is built of. -/
def size : Fragment → Nat
  | text _ => 1
  | element _ _ children => 1 + sizes children

/-- The number of nodes in several fragments. -/
def sizes : List Fragment → Nat
  | [] => 0
  | f :: fs => size f + sizes fs

end

/-- The element of a tag and attributes; the key attribute comes first. -/
def elementKind (tag : String) (attrs : List (String × String)) : Markup.Kind :=
  .element tag (attrs.foldl (fun acc (k, v) => Markup.Attributes.put k v acc)
    [(Markup.keyAttribute, "")])

mutual

/-- The tree that the fragment is built as. -/
def tree : Fragment → Markup.Tree
  | text content => .leaf (.text content)
  | element tag attrs children => .node (elementKind tag attrs) (trees children)

/-- The trees of several fragments. -/
def trees : List Fragment → List Markup.Tree
  | [] => []
  | f :: fs => tree f :: trees fs

end

mutual

/-- A fragment is built of as many nodes as its tree has. -/
theorem size_tree : ∀ f : Fragment, f.tree.size = f.size
  | text _ => rfl
  | element _ _ children => by
    simp [tree, size, Markup.Tree.size, sizes_trees children, Nat.add_comm]

/-- The same for several fragments. -/
theorem sizes_trees : ∀ fs : List Fragment, Markup.Tree.sizes (trees fs) = sizes fs
  | [] => rfl
  | f :: fs => by simp [trees, sizes, Markup.Tree.sizes, size_tree f, sizes_trees fs]

end

end Fragment

end Rivulet
