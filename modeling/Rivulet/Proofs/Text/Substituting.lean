import Rivulet.Proofs.Text.Replacing

/-!
# Replacing several patterns

Several patterns can be replaced one after the other, each in the whole text, or all in a single
pass over the text. The first way reads again what was put in before. If no pattern starts inside a
later one, and what is put in can neither be read by a later round nor complete a later pattern, the
two ways agree.
-/

namespace Rivulet.Text

/-- A rule of replacement. -/
structure Rule where
  /-- What is looked for. -/
  pattern : List Char
  /-- What is put in for it. -/
  text : List Char
  deriving DecidableEq

/-- Replaces the patterns one after the other, each everywhere in the text. -/
def replaceEach (rules : List Rule) (s : List Char) : List Char :=
  rules.foldl (fun s r => replaceAll r.pattern r.text s) s

/-- Replacement of several patterns at once, with the number of characters of the last match still
to pass. -/
def substituteFrom (rules : List Rule) : Nat → List Char → List Char
  | _, [] => []
  | n + 1, _ :: cs => substituteFrom rules n cs
  | 0, c :: cs =>
    match rules.find? fun r => startsWith r.pattern (c :: cs) with
    | some r => r.text ++ substituteFrom rules (r.pattern.length - 1) cs
    | none => c :: substituteFrom rules 0 cs

/-- Replaces every occurrence of the patterns in one pass, from left to right and without looking at
what was put in. -/
def substitute (rules : List Rule) (s : List Char) : List Char := substituteFrom rules 0 s

/-- A rule that may be applied in front of another one: the two never meet. -/
structure Precedes (a b : Rule) : Prop where
  /-- The earlier pattern is no beginning of the later one. -/
  shorter : ¬ a.pattern <+: b.pattern
  /-- The later pattern is no beginning of the earlier one. -/
  longer : ¬ b.pattern <+: a.pattern
  /-- The earlier pattern does not start inside the later one. -/
  outside : ∀ c ∈ a.pattern.head?, c ∉ b.pattern.tail
  /-- The later pattern does not start in what is put in for the earlier one. -/
  unread : ∀ c ∈ b.pattern.head?, c ∉ a.text
  /-- What is put in for the earlier pattern does not go on with the later one. -/
  apart : ∀ c ∈ a.text.head?, c ∉ b.pattern.tail

instance (a b : Rule) : Decidable (Precedes a b) :=
  decidable_of_iff
    (¬ a.pattern <+: b.pattern ∧ ¬ b.pattern <+: a.pattern ∧
      a.pattern.head? ∉ b.pattern.tail.map some ∧ b.pattern.head? ∉ a.text.map some ∧
      a.text.head? ∉ b.pattern.tail.map some) (by
    have hmem (o : Option Char) (s : List Char) : o ∉ s.map some ↔ ∀ c ∈ o, c ∉ s := by
      cases o <;> simp
    rw [hmem, hmem, hmem]
    exact ⟨fun ⟨h₁, h₂, h₃, h₄, h₅⟩ => ⟨h₁, h₂, h₃, h₄, h₅⟩,
      fun ⟨h₁, h₂, h₃, h₄, h₅⟩ => ⟨h₁, h₂, h₃, h₄, h₅⟩⟩)

/-- Rules that can be applied one after the other as well as all at once. -/
structure Separate (rules : List Rule) : Prop where
  /-- Neither a pattern nor what is put in for it is empty. -/
  filled : ∀ r ∈ rules, r.pattern ≠ [] ∧ r.text ≠ []
  /-- Every rule may be applied in front of those behind it. -/
  ordered : rules.Pairwise Precedes

variable {rules : List Rule} {s : List Char}

theorem Separate.tail {r : Rule} (h : Separate (r :: rules)) : Separate rules :=
  ⟨fun r hr => h.filled r (List.mem_cons_of_mem _ hr), h.ordered.of_cons⟩

theorem replaceEach_cons (r : Rule) (s : List Char) :
    replaceEach (r :: rules) s = replaceEach rules (replaceAll r.pattern r.text s) := rfl

@[simp] theorem replaceEach_nil (rules : List Rule) :
    replaceEach rules [] = [] := by
  induction rules with
  | nil => rfl
  | cons r rules ih => exact ih

/-- A text in which no pattern starts is passed over by all rounds. -/
theorem replaceEach_append_of_notMem {t : List Char}
    (h : ∀ r ∈ rules, r.pattern ≠ [] ∧ ∀ c ∈ r.pattern.head?, c ∉ t) (s : List Char) :
    replaceEach rules (t ++ s) = t ++ replaceEach rules s := by
  induction rules generalizing s with
  | nil => rfl
  | cons r rules ih =>
    obtain ⟨hne, hout⟩ := h r List.mem_cons_self
    obtain ⟨a, p, hp⟩ := List.exists_cons_of_ne_nil hne
    have ha : a ∉ t := hout a (by rw [hp]; rfl)
    rw [replaceEach_cons, replaceEach_cons, hp, replaceAll_append_of_notMem ha]
    exact ih (fun r hr => h r (List.mem_cons_of_mem _ hr)) _

/-- A character that starts no occurrence is passed over by all rounds: what an earlier round puts
in behind it completes no later pattern. -/
theorem Separate.replaceEach_cons_of_none (h : Separate rules) {x : Char}
    (hx : ∀ r ∈ rules, ¬ r.pattern <+: x :: s) :
    replaceEach rules (x :: s) = x :: replaceEach rules s := by
  induction rules generalizing s with
  | nil => rfl
  | cons r rules ih =>
    rw [replaceEach_cons, replaceEach_cons,
      replaceAll_cons_of_not_prefix (hx r List.mem_cons_self)]
    refine ih h.tail fun r' hr' hstarts => hx r' (List.mem_cons_of_mem _ hr') ?_
    obtain ⟨a, p, hp⟩ := List.exists_cons_of_ne_nil (h.filled r' (List.mem_cons_of_mem _ hr')).1
    obtain ⟨b, t, ht⟩ := List.exists_cons_of_ne_nil (h.filled r List.mem_cons_self).2
    have hapart := ((List.pairwise_cons.1 h.ordered).1 r' hr').apart b (by rw [ht]; rfl)
    rw [hp, List.tail_cons] at hapart
    rw [hp, List.cons_prefix_cons] at hstarts ⊢
    rw [ht] at hstarts
    exact ⟨hstarts.1, prefix_of_prefix_replaceAll hapart hstarts.2⟩

/-- A pattern that stands in front is replaced by its own round only: the earlier ones pass over it,
and the later ones over what was put in. -/
theorem Separate.replaceEach_append_pattern (h : Separate rules) {r : Rule}
    (hr : r ∈ rules) (s : List Char) :
    replaceEach rules (r.pattern ++ s) = r.text ++ replaceEach rules s := by
  induction rules generalizing s with
  | nil => cases hr
  | cons r' rules ih =>
    have hahead := (List.pairwise_cons.1 h.ordered).1
    rw [replaceEach_cons, replaceEach_cons]
    rcases List.mem_cons.1 hr with rfl | hr
    · obtain ⟨a, p, hp⟩ := List.exists_cons_of_ne_nil (h.filled r List.mem_cons_self).1
      rw [hp, replaceAll_append_self]
      exact replaceEach_append_of_notMem (fun r' hr' =>
        ⟨(h.tail.filled r' hr').1, (hahead r' hr').unread⟩) _
    · have hprecedes := hahead r hr
      obtain ⟨b, q, hq⟩ := List.exists_cons_of_ne_nil (h.filled r' List.mem_cons_self).1
      obtain ⟨a, p, hp⟩ := List.exists_cons_of_ne_nil (h.tail.filled r hr).1
      have hfront : ¬ r'.pattern <+: r.pattern ++ s := fun hstarts =>
        (List.prefix_or_prefix_of_prefix hstarts (List.prefix_append r.pattern s)).elim
          hprecedes.shorter hprecedes.longer
      have hinside : b ∉ p := by
        have hout := hprecedes.outside b (by rw [hq]; rfl)
        rwa [hp, List.tail_cons] at hout
      have hround : replaceAll r'.pattern r'.text (r.pattern ++ s) =
          r.pattern ++ replaceAll r'.pattern r'.text s := by
        rw [hp, List.cons_append] at hfront ⊢
        rw [ replaceAll_cons_of_not_prefix hfront, hq, replaceAll_append_of_notMem hinside,
          List.cons_append]
      rw [hround]
      exact ih h.tail hr _

/-- Replacing works block by block when each block is a pattern, or a character that starts none. -/
theorem Separate.replaceEach_flatMap (h : Separate rules) {f g : Char → List Char}
    (hblock : ∀ x, ⟨f x, g x⟩ ∈ rules ∨
      f x = [x] ∧ g x = [x] ∧ ∀ r ∈ rules, r.pattern.head? ≠ some x) (s : List Char) :
    replaceEach rules (s.flatMap f) = s.flatMap g := by
  induction s with
  | nil => exact replaceEach_nil rules
  | cons x s ih =>
    rw [List.flatMap_cons, List.flatMap_cons]
    rcases hblock x with hr | ⟨hf, hg, hx⟩
    · rw [h.replaceEach_append_pattern hr, ih]
    · rw [hf, hg, List.singleton_append, List.singleton_append, ← ih]
      refine h.replaceEach_cons_of_none fun r hr hstarts => hx r hr ?_
      obtain ⟨a, p, hp⟩ := List.exists_cons_of_ne_nil (h.filled r hr).1
      rw [hp, List.cons_prefix_cons] at hstarts
      rw [hp, List.head?_cons, hstarts.1]

/-- Passing over what is left of a match. -/
theorem substituteFrom_append (b s : List Char) :
    substituteFrom rules b.length (b ++ s) = substituteFrom rules 0 s := by
  induction b with
  | nil => rfl
  | cons c b ih => simpa [substituteFrom] using ih

/-- A pattern that is found in front is replaced, and what is put in is not looked at. -/
theorem substitute_append_pattern {r : Rule} (hr : r.pattern ≠ [])
    (hfind : rules.find? (fun r' => startsWith r'.pattern (r.pattern ++ s)) = some r) :
    substitute rules (r.pattern ++ s) = r.text ++ substitute rules s := by
  obtain ⟨a, p, hp⟩ := List.exists_cons_of_ne_nil hr
  rw [hp, List.cons_append] at hfind ⊢
  rw [substitute, substituteFrom, hfind]
  simp only [hp, List.length_cons, Nat.add_sub_cancel]
  rw [substituteFrom_append, substitute]

/-- A character that starts no occurrence stays. -/
theorem substitute_cons_of_none {c : Char} (h : ∀ r ∈ rules, ¬ r.pattern <+: c :: s) :
    substitute rules (c :: s) = c :: substitute rules s := by
  have hfind : rules.find? (fun r => startsWith r.pattern (c :: s)) = none :=
    List.find?_eq_none.2 fun r hr => by
      rw [startsWith_iff]
      exact h r hr
  rw [substitute, substituteFrom, hfind, substitute]

/-- Replacing one pattern after the other does what a single pass does. -/
theorem Separate.replaceEach_eq_substitute (h : Separate rules) (s : List Char) :
    replaceEach rules s = substitute rules s := by
  -- On the length, because the pass leaves out a whole pattern at once.
  induction hn : s.length using Nat.strong_induction_on generalizing s with
  | _ n ih =>
    cases s with
    | nil => exact replaceEach_nil rules
    | cons c s =>
      cases hfind : rules.find? fun r => startsWith r.pattern (c :: s) with
      | none =>
        have hnone : ∀ r ∈ rules, ¬ r.pattern <+: c :: s := fun r hr => by
          have hstart := List.find?_eq_none.1 hfind r hr
          rwa [startsWith_iff] at hstart
        rw [h.replaceEach_cons_of_none hnone, substitute_cons_of_none hnone,
          ih s.length (by rw [← hn]; exact Nat.lt_succ_self _) s rfl]
      | some r =>
        have hr := List.mem_of_find?_eq_some hfind
        have hne := (h.filled r hr).1
        have hstart : startsWith r.pattern (c :: s) = true := by simpa using List.find?_some hfind
        obtain ⟨t, ht⟩ := startsWith_iff.1 hstart
        have hshort : t.length < n := by
          have hlen := congrArg List.length ht
          rw [List.length_append] at hlen
          have hpos := List.length_pos_iff.2 hne
          omega
        rw [← ht] at hfind ⊢
        rw [h.replaceEach_append_pattern hr, substitute_append_pattern hne hfind,
          ih t.length hshort t rfl]

end Rivulet.Text
