import Mathlib.Data.List.Infix
import Rivulet.Text.Search

/-!
# Replacing text piece by piece

A text may be cut before its patterns are replaced, as long as no occurrence of the pattern lies
across the cut. So replacing works block by block, leaves alone what cannot start an occurrence,
and does not look beyond a character that is not in the pattern. Searching for the first
occurrence can be cut in the same way. A pattern that is replaced by what cannot start it anew does
not occur any more.
-/

namespace Rivulet.Text

variable {p new s t : List Char}

/-- A text starts with its beginnings. -/
theorem startsWith_iff : startsWith p s = true ↔ p <+: s := by
  constructor
  · intro h
    obtain ⟨r, hr⟩ := Option.isSome_iff_exists.1 h
    exact ⟨r, (eq_append_of_stripStart? hr).symm⟩
  · rintro ⟨r, rfl⟩
    simp [startsWith]

/-- What does not start with a pattern has nothing to strip. -/
theorem stripStart?_eq_none : stripStart? p s = none ↔ ¬ p <+: s := by
  rw [← startsWith_iff, startsWith, Bool.not_eq_true, Option.isSome_eq_false_iff,
    Option.isNone_iff_eq_none]

/-- A first occurrence stays the first one, whatever is added behind it. -/
theorem cut?_append {a b : List Char} (h : cut? p s = some (a, b)) (t : List Char) :
    cut? p (s ++ t) = some (a, b ++ t) := by
  induction s generalizing a b with
  | nil =>
    obtain ⟨r, hr, he⟩ := Option.map_eq_some_iff.1 h
    obtain ⟨rfl, rfl⟩ := Prod.mk.inj he
    have hp : p = [] := (List.append_eq_nil_iff.1 (eq_append_of_stripStart? hr).symm).1
    subst hp
    obtain rfl : [] = r := by simpa [stripStart?] using hr
    cases t <;> simp [cut?, stripStart?]
  | cons c s ih =>
    have hwhole := eq_append_of_cut? h
    simp only [cut?] at h
    simp only [List.cons_append, cut?]
    cases hr : stripStart? p (c :: s) with
    | some r =>
      rw [hr] at h
      obtain ⟨rfl, rfl⟩ := Prod.mk.inj (Option.some.inj h)
      have hr' : stripStart? p (c :: (s ++ t)) = some (r ++ t) := by
        rw [← List.cons_append, eq_append_of_stripStart? hr, List.append_assoc,
          stripStart?_append]
      rw [hr']
    | none =>
      rw [hr] at h
      obtain ⟨⟨x, y⟩, hxy, he⟩ := Option.map_eq_some_iff.1 h
      obtain ⟨rfl, rfl⟩ := Prod.mk.inj he
      -- an earlier occurrence would end before the one that was found, so inside the old text
      have hlater : stripStart? p (c :: (s ++ t)) = none := by
        rw [stripStart?_eq_none] at hr ⊢
        intro hfront
        refine hr (List.prefix_of_prefix_length_le hfront (List.prefix_append (c :: s) t) ?_)
        rw [hwhole]
        simp only [List.length_append]
        omega
      rw [hlater, ih hxy]
      rfl

/-- A part without the beginning of the pattern is passed over. -/
theorem cut?_append_of_notMem {a : Char} (h : a ∉ s) (t : List Char) :
    cut? (a :: p) (s ++ t) =
      (cut? (a :: p) t).map fun (before, after) => (s ++ before, after) := by
  induction s with
  | nil => simp
  | cons c s ih =>
    rw [List.mem_cons, not_or] at h
    simp [cut?, stripStart?, h.1, ih h.2, Function.comp_def]

/-- A character that does not start a pattern is passed over. -/
theorem replaceAll_cons_ne {a c : Char} (h : a ≠ c) :
    replaceAll (a :: p) new (c :: s) = c :: replaceAll (a :: p) new s := by
  simp [replaceAll, replaceFrom, startsWith, stripStart?, h]

/-- Passing over what is left of a match. -/
theorem replaceFrom_append (p new b s : List Char) :
    replaceFrom p new b.length (b ++ s) = replaceFrom p new 0 s := by
  induction b with
  | nil => rfl
  | cons c b ih => simpa [replaceFrom] using ih

/-- A pattern that stands in front is replaced. -/
theorem replaceAll_append_self {a : Char} :
    replaceAll (a :: p) new (a :: p ++ s) = new ++ replaceAll (a :: p) new s := by
  have hstart : startsWith (a :: p) (a :: (p ++ s)) = true := by
    rw [← List.cons_append, startsWith, stripStart?_append]
    rfl
  have hskip := replaceFrom_append (a :: p) new p s
  simpa [replaceAll, replaceFrom, hstart] using hskip

/-- Where the pattern does not stand in front, the first character is passed over. -/
theorem replaceAll_cons_of_not_prefix {c : Char} (h : ¬ p <+: c :: s) :
    replaceAll p new (c :: s) = c :: replaceAll p new s := by
  rw [← startsWith_iff, Bool.not_eq_true] at h
  simp [replaceAll, replaceFrom, h]

/-- A text without the first character of a pattern is passed over. -/
theorem replaceAll_append_of_notMem {a : Char} (h : a ∉ s) (t : List Char) :
    replaceAll (a :: p) new (s ++ t) = s ++ replaceAll (a :: p) new t := by
  induction s with
  | nil => rfl
  | cons c s ih =>
    rw [List.mem_cons, not_or] at h
    rw [List.cons_append, replaceAll_cons_ne h.1, ih h.2, List.cons_append]

/-- An occurrence of the pattern lies across the cut between two texts. -/
def Straddles (p x y : List Char) : Prop :=
  ∃ u v, u ≠ [] ∧ v ≠ [] ∧ p = u ++ v ∧ u <:+ x ∧ v <+: y

/-- What lies across a cut also does if more stands in front. -/
theorem Straddles.append_left {x y : List Char} (h : Straddles p x y) (z : List Char) :
    Straddles p (z ++ x) y := by
  obtain ⟨u, v, hu, hv, hp, hux, hvy⟩ := h
  exact ⟨u, v, hu, hv, hp, hux.trans (List.suffix_append z x), hvy⟩

/-- An occurrence that starts in front of a cut and does not lie across it ends in front of it. -/
theorem prefix_of_not_straddles {x y : List Char} (hx : x ≠ []) (h : ¬ Straddles p x y)
    (hp : p <+: x ++ y) : p <+: x := by
  rcases Nat.le_total p.length x.length with hle | hle
  · exact List.prefix_of_prefix_length_le hp (List.prefix_append x y) hle
  · obtain ⟨v, rfl⟩ := List.prefix_of_prefix_length_le (List.prefix_append x y) hp hle
    have hv : v <+: y := (List.prefix_append_right_inj x).1 hp
    by_cases hnil : v = []
    · rw [hnil, List.append_nil]
    · exact absurd ⟨x, v, hx, hnil, rfl, List.suffix_refl x, hv⟩ h

private theorem replaceFrom_cut {x y : List Char} (h : ¬ Straddles p x y) {n : Nat}
    (hn : n ≤ x.length) :
    replaceFrom p new n (x ++ y) = replaceFrom p new n x ++ replaceFrom p new 0 y := by
  induction x generalizing n with
  | nil =>
    obtain rfl : n = 0 := Nat.le_zero.1 hn
    simp [replaceFrom]
  | cons c x ih =>
    have htail : ¬ Straddles p x y := fun hs => h (hs.append_left [c])
    cases n with
    | succ n => simpa [replaceFrom] using ih htail (Nat.le_of_succ_le_succ hn)
    | zero =>
      have hfront : startsWith p (c :: (x ++ y)) = startsWith p (c :: x) := by
        rw [Bool.eq_iff_iff, startsWith_iff, startsWith_iff, ← List.cons_append]
        constructor
        · exact prefix_of_not_straddles (List.cons_ne_nil c x) h
        · exact fun hp => hp.trans (List.prefix_append (c :: x) y)
      simp only [List.cons_append, replaceFrom, hfront]
      split
      · rename_i hstart
        have hlen := (startsWith_iff.1 hstart).length_le
        rw [List.length_cons] at hlen
        rw [ih htail (by omega), List.append_assoc]
      · rw [ih htail (Nat.zero_le _), List.cons_append]

/-- Replacing in two parts that no occurrence lies across is replacing in each part. -/
theorem replaceAll_append {x y : List Char} (h : ¬ Straddles p x y) :
    replaceAll p new (x ++ y) = replaceAll p new x ++ replaceAll p new y :=
  replaceFrom_cut h (Nat.zero_le _)

/-- No occurrence of the pattern lies across a cut between the parts of a text. -/
def Uncut (p : List Char) (parts : List (List Char)) : Prop :=
  ∀ i, ¬ Straddles p (parts.take i).flatten (parts.drop i).flatten

private theorem Uncut.tail {part : List Char} {parts : List (List Char)}
    (h : Uncut p (part :: parts)) :
    Uncut p parts := fun i hs => by
  refine h (i + 1) ?_
  rw [List.take_succ_cons, List.drop_succ_cons, List.flatten_cons]
  exact hs.append_left part

/-- Replacing in parts that leave every occurrence whole is replacing in the text. -/
theorem replaceAll_flatten {parts : List (List Char)} (h : Uncut p parts) :
    replaceAll p new parts.flatten = (parts.map (replaceAll p new)).flatten := by
  induction parts with
  | nil => rfl
  | cons part parts ih =>
    have hfirst : ¬ Straddles p part parts.flatten := by
      have hcut := h 1
      simpa using hcut
    rw [List.flatten_cons, replaceAll_append hfirst, ih h.tail, List.map_cons, List.flatten_cons]

/-- Nothing lies across a cut in front of a character that is not in the pattern. -/
theorem not_straddles_cons {c : Char} (h : c ∉ p) (x y : List Char) :
    ¬ Straddles p x (c :: y) := by
  rintro ⟨u, v, hu, hv, rfl, hux, hvy⟩
  obtain ⟨d, v, rfl⟩ := List.exists_cons_of_ne_nil hv
  obtain rfl : d = c := (List.cons_prefix_cons.1 hvy).1
  simp at h

/-- Replacing does not look beyond a character that is not in the pattern. -/
theorem replaceAll_append_cons {a c : Char} (h : c ∉ a :: p) (s t : List Char) :
    replaceAll (a :: p) new (s ++ c :: t) =
      replaceAll (a :: p) new s ++ c :: replaceAll (a :: p) new t := by
  have hne : a ≠ c := fun he => h (he ▸ List.mem_cons_self)
  rw [replaceAll_append (not_straddles_cons h s t), replaceAll_cons_ne hne]

/-- A text does not get shorter when what is put in is as long as what is taken out. -/
theorem length_le_replaceAll {a : Char} (h : (a :: p).length ≤ new.length) (s : List Char) :
    s.length ≤ (replaceAll (a :: p) new s).length := by
  have hfrom (n : Nat) : s.length ≤ (replaceFrom (a :: p) new n s).length + n := by
    induction s generalizing n with
    | nil => exact Nat.zero_le _
    | cons c s ih =>
      cases n with
      | succ n =>
        have hs := ih n
        simp only [replaceFrom, List.length_cons]
        omega
      | zero =>
        simp only [replaceFrom]
        split
        · have hs := ih p.length
          simp only [List.length_append, List.length_cons, Nat.add_sub_cancel] at h ⊢
          omega
        · have hs := ih 0
          simp only [List.length_cons]
          omega
  exact hfrom 0

/-- A text that cannot start in a list and does not lie in it starts behind it. -/
theorem infix_of_infix_append {a : Char} {u x y : List Char} (ha : a ∉ x)
    (h : a :: u <:+: x ++ y) : a :: u <:+: y := by
  induction x with
  | nil => exact h
  | cons c x ih =>
    rw [List.mem_cons, not_or] at ha
    rw [List.cons_append, List.infix_cons_iff, List.cons_prefix_cons] at h
    rcases h with ⟨rfl, -⟩ | h
    · exact absurd rfl ha.1
    · exact ih ha.2 h

/-- A text without the last character of a list lies in front of it. -/
theorem infix_of_infix_concat {c : Char} {u x : List Char} (hc : c ∉ u) (h : u <:+: x ++ [c]) :
    u <:+: x := by
  rcases List.infix_concat_iff.1 h with hsuffix | hinfix
  · rcases List.suffix_concat_iff.1 hsuffix with rfl | ⟨v, rfl, -⟩
    · exact List.nil_infix
    · exact absurd (by simp) hc
  · exact hinfix

/-- What a text starts with after a pattern was replaced stood there before, unless the first
character of what was put in is in it. -/
theorem prefix_of_prefix_replaceAll {a : Char} {u r : List Char} (ha : a ∉ u)
    (h : u <+: replaceAll p (a :: r) s) : u <+: s := by
  induction u generalizing s with
  | nil => exact List.nil_prefix
  | cons b u ih =>
    rw [List.mem_cons, not_or] at ha
    cases s with
    | nil => exact h
    | cons c s =>
      simp only [replaceAll, replaceFrom] at h
      split at h
      · rw [List.cons_append, List.cons_prefix_cons] at h
        exact absurd h.1.symm ha.1
      · rw [List.cons_prefix_cons] at h ⊢
        exact ⟨h.1, ih ha.2 h.2⟩

/-- A text does not occur where each of its occurrences was one of a pattern that was replaced. -/
theorem notInfix_replaceAll {a b x : Char} {q r : List Char} (hb : b ≠ x) (hq : a ∉ b :: q)
    (hr : a ∉ x :: r) (h : ∀ t, t <:+ s → a :: b :: q <+: t → a :: p <+: t) :
    ¬ a :: b :: q <:+: replaceAll (a :: p) (a :: x :: r) s := by
  -- On the length, because the pass leaves out a whole pattern at once.
  induction hn : s.length using Nat.strong_induction_on generalizing s with
  | _ n ih =>
    intro hin
    by_cases hp : a :: p <+: s
    · obtain ⟨t, rfl⟩ := hp
      have hlt : t.length < n := by
        rw [← hn]
        simp only [List.cons_append, List.length_cons, List.length_append]
        omega
      rw [replaceAll_append_self, List.cons_append, List.infix_cons_iff] at hin
      rcases hin with hstart | hin
      · rw [List.cons_append, List.cons_prefix_cons, List.cons_prefix_cons] at hstart
        exact hb hstart.2.1
      · exact ih _ hlt (fun u hu => h u (hu.trans (List.suffix_append _ _))) rfl
          (infix_of_infix_append hr hin)
    · cases s with
      | nil => simp [replaceAll, replaceFrom] at hin
      | cons c s =>
        rw [ replaceAll_cons_of_not_prefix hp, List.infix_cons_iff, List.cons_prefix_cons] at hin
        rcases hin with ⟨rfl, hstart⟩ | hin
        · refine hp (h _ List.suffix_rfl (List.cons_prefix_cons.2 ⟨rfl, ?_⟩))
          exact prefix_of_prefix_replaceAll hq hstart
        · refine ih s.length (hn ▸ Nat.lt_succ_self _) (fun u hu => h u ?_) rfl hin
          exact hu.trans (List.suffix_cons c s)

end Rivulet.Text
