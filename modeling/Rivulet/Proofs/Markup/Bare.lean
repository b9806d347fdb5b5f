import Rivulet.Document.Fragment
import Rivulet.Proofs.Document.RoundTrip

/-!
# Bare kinds

What stays the same in the life of a node: whether it is an element with its key, and of which tag,
a text, a wrapper or an end of a fragment. A kind without all the rest is bare. Values change texts
and attributes only, so they never show in a bare kind.
-/

namespace Rivulet.Markup

/-- A kind without what values may change; of the attributes only the key is left. -/
def Kind.bare : Kind → Kind
  | .element tag attrs =>
    .element tag (if attrs.has keyAttribute then [(keyAttribute, "")] else [])
  | .text _ => .text ""
  | .wrapper w _ => .wrapper w []
  | .marker edge => .marker edge
  | .comment _ => .comment ""

namespace Kind

/-- Bare kinds tell what was not rendered here. -/
@[simp] theorem isForeign_bare (kind : Kind) : kind.bare.isForeign = kind.isForeign := by
  cases kind with
  | element tag attrs =>
    rw [bare, isForeign, isForeign]
    by_cases h : attrs.has keyAttribute = true
    · rw [if_pos h, h]
      rfl
    · rw [if_neg h]
      rw [Bool.not_eq_true] at h
      rw [h]
      rfl
  | _ => rfl

/-- Bare kinds tell what is a text. -/
@[simp] theorem isText_bare (kind : Kind) : kind.bare.isText = kind.isText := by
  cases kind <;> rfl

/-- Bare kinds tell tags. -/
theorem tag?_bare (kind : Kind) : kind.bare.tag? = kind.tag? := by
  cases kind <;> rfl

/-- Bare kinds tell markers. -/
theorem eq_marker_of_bare {kind : Kind} {edge : Edge} (h : kind.bare = .marker edge) :
    kind = .marker edge := by
  cases kind <;> simp_all [bare]

/-- An attribute that was set is there. -/
theorem has_put_self (name value : String) (attrs : Attributes) :
    Attributes.has name (attrs.put name value) = true := by
  induction attrs with
  | nil => simp [Attributes.put, Attributes.has]
  | cons a attrs ih =>
    rw [Attributes.put]
    split
    · rename_i ha
      simp [Attributes.has, ha]
    · rw [Attributes.has, List.any_cons, Bool.or_eq_true]
      exact Or.inr ih

/-- Setting an attribute leaves whether another one is there. -/
theorem has_put {name key value : String} (h : name ≠ key) (attrs : Attributes) :
    Attributes.has key (attrs.put name value) = attrs.has key := by
  induction attrs with
  | nil => simp [Attributes.put, Attributes.has, h]
  | cons a attrs ih =>
    obtain ⟨k, v⟩ := a
    by_cases hk : k = name
    · simp [Attributes.put, Attributes.has, hk, h]
    · simp only [Attributes.has] at ih
      simp [Attributes.put, Attributes.has, hk, ih]

private theorem has_drop {name key : String} (h : name ≠ key) (attrs : Attributes) :
    Attributes.has key (attrs.drop name) = attrs.has key := by
  rw [Attributes.has, Attributes.drop, List.any_filter, Attributes.has]
  congr 1
  funext a
  by_cases ha : a.1 = key
  · simp [ha, Ne.symm h]
  · simp [ha]

/-- An attribute other than the key does not show in a bare kind. -/
theorem bare_put {name : String} (h : name ≠ keyAttribute) (value : String) (kind : Kind) :
    (kind.mapAttrs (·.put name value)).bare = kind.bare := by
  cases kind with
  | element tag attrs => simp [mapAttrs, bare, has_put h]
  | _ => rfl

/-- Dropping an attribute that is no key does not show in bare kinds. -/
theorem bare_drop {name : String} (h : name ≠ keyAttribute) (kind : Kind) :
    (kind.mapAttrs (·.drop name)).bare = kind.bare := by
  cases kind with
  | element tag attrs => simp [mapAttrs, bare, has_drop h]
  | _ => rfl

/-- No attribute shows in the bare kind of a node that was rendered here, be it the key. -/
theorem bare_put_of_own {kind : Kind} (h : kind.isForeign = false) (name value : String) :
    (kind.mapAttrs (·.put name value)).bare = kind.bare := by
  by_cases hkey : name = keyAttribute
  · subst hkey
    cases kind with
    | element tag attrs =>
      have hhas : attrs.has keyAttribute = true := by simpa [isForeign] using h
      rw [mapAttrs, bare, bare, if_pos (has_put_self _ value attrs), if_pos hhas]
    | _ => rfl
  · exact bare_put hkey value kind

/-- The content of a text does not show in a bare kind. -/
theorem bare_setText (content : String) (kind : Kind) :
    (kind.setText content).bare = kind.bare := by
  cases kind <;> rfl

/-- An element of a fragment carries its key, whatever else it carries. -/
theorem bare_elementKind (tag : String) (attrs : List (String × String)) :
    (Fragment.elementKind tag attrs).bare = .element tag [(keyAttribute, "")] := by
  have hkey (l : List (String × String)) (acc : Attributes) (h : acc.has keyAttribute = true) :
      Attributes.has keyAttribute (l.foldl (fun acc a => acc.put a.1 a.2) acc) = true := by
    induction l generalizing acc with
    | nil => exact h
    | cons a l ih =>
      apply ih
      obtain ⟨k, v⟩ := a
      by_cases hk : k = keyAttribute
      · subst hk
        exact has_put_self _ v acc
      · rw [has_put hk]
        exact h
  rw [Fragment.elementKind, bare, if_pos]
  exact hkey attrs _ (by decide)

end Kind

namespace AreAttributes

/-- No attributes. -/
theorem nil : AreAttributes [] := ⟨by simp, by simp⟩

/-- The names of attributes when one was set. -/
theorem map_put (name value : String) (attrs : Attributes) :
    (attrs.put name value).map (·.1) =
      if name ∈ attrs.map (·.1) then attrs.map (·.1) else attrs.map (·.1) ++ [name] := by
  induction attrs with
  | nil => simp [Attributes.put]
  | cons a attrs ih =>
    obtain ⟨k, v⟩ := a
    by_cases hk : k = name
    · simp [Attributes.put, hk]
    · have hne : name ≠ k := fun h => hk h.symm
      rw [Attributes.put, if_neg hk, List.map_cons, ih, List.map_cons]
      by_cases hmem : name ∈ attrs.map (·.1)
      · rw [if_pos hmem, if_pos (List.mem_cons_of_mem _ hmem)]
      · rw [if_neg hmem, if_neg (by simp [hne] at hmem ⊢; exact hmem)]
        rfl

/-- An attribute is set under a name. -/
theorem put {attrs : Attributes} (h : AreAttributes attrs) {name : String}
    (hname : IsName endsName name) (value : String) : AreAttributes (attrs.put name value) := by
  have hmap := map_put name value attrs
  have hmem (k : String) (hk : k ∈ (attrs.put name value).map (·.1)) :
      k = name ∨ k ∈ attrs.map (·.1) := by
    rw [hmap] at hk
    split at hk
    · exact Or.inr hk
    · rw [List.mem_append, List.mem_singleton] at hk
      exact hk.symm
  constructor
  · intro a ha
    rcases hmem a.1 (List.mem_map_of_mem ha) with heq | hold
    · rw [heq]
      exact hname
    · obtain ⟨b, hb, heq⟩ := List.mem_map.1 hold
      rw [← heq]
      exact h.names b hb
  · rw [hmap]
    split
    · exact h.nodup
    · rename_i hnot
      rw [List.nodup_append]
      refine ⟨h.nodup, by simp, ?_⟩
      rintro k hk _ hn rfl
      rw [List.mem_singleton] at hn
      exact hnot (hn ▸ hk)

end AreAttributes

end Rivulet.Markup
