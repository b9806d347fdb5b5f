import Mathlib.Data.List.TakeWhile
import Rivulet.Markup.Entity
import Rivulet.Markup.Token
import Rivulet.Proofs.Text.Substituting

/-!
# Reading what was written

What the printer writes is read back: the characters that it writes as references, and the
constructs of the markup.

The references are restored one kind after the other, and the ampersand comes last: it is the only
character that can start a reference, so no round reads what an earlier one put in. The rounds do
what a single pass over the text does, and a text comes back from its written forms.

Each construct that the printer writes is read back as the tokens it stands for, and reading
goes on behind it. A run of text ends at the next construct, so it is read back in front of
the end or of a bracket; every other construct knows its own end.
-/

namespace Rivulet.Markup

/-- What reading puts in for the references that it knows. -/
def readingRules : List Text.Rule := entities.map fun (name, c) => ⟨name, [c]⟩

/-- What writing puts in for the characters that are reserved in a text, the ampersand first. -/
def textRules : List Text.Rule :=
  [⟨['&'], "&amp;".toList⟩, ⟨['<'], "&lt;".toList⟩, ⟨['>'], "&gt;".toList⟩]

/-- What writing puts in for the characters that are reserved in the value of an attribute. -/
def attrRules : List Text.Rule := textRules ++ [⟨['"'], "&quot;".toList⟩]

theorem separate_readingRules : Text.Separate readingRules := ⟨by decide, by decide⟩

private theorem separate_textRules : Text.Separate textRules := ⟨by decide, by decide⟩

private theorem separate_attrRules : Text.Separate attrRules := ⟨by decide, by decide⟩

theorem unescape_eq_replaceEach (s : List Char) :
    unescape s = Text.replaceEach readingRules s := by
  rw [unescape, Text.replaceEach, readingRules, List.foldl_map]

/-- A character of a text is written by a rule and read by a rule, or stands as it is. -/
theorem escapeTextChar_cases (x : Char) :
    (⟨[x], escapeTextChar x⟩ ∈ textRules ∧ ⟨escapeTextChar x, [x]⟩ ∈ readingRules) ∨
      escapeTextChar x = [x] ∧ x ∉ ['&', '<', '>'] := by
  by_cases hx : x ∈ ['&', '<', '>']
  · refine .inl ?_
    simp only [List.mem_cons, List.not_mem_nil, or_false] at hx
    rcases hx with rfl | rfl | rfl <;> decide
  · refine .inr ⟨?_, hx⟩
    unfold escapeTextChar
    split
    · simp at hx
    · simp at hx
    · simp at hx
    · rfl

/-- So is a character in the value of an attribute, where the quote has a rule as well. -/
theorem escapeAttrChar_cases (x : Char) :
    (⟨[x], escapeAttrChar x⟩ ∈ attrRules ∧ ⟨escapeAttrChar x, [x]⟩ ∈ readingRules) ∨
      escapeAttrChar x = [x] ∧ x ∉ ['&', '<', '>', '"'] := by
  by_cases hquote : x = '"'
  · subst hquote
    exact .inl (by decide)
  · have hsame : escapeAttrChar x = escapeTextChar x := by
      unfold escapeAttrChar
      split
      · exact absurd rfl hquote
      · rfl
    rw [hsame]
    refine (escapeTextChar_cases x).imp ?_ ?_
    · exact fun h => ⟨List.mem_append_left _ h.1, h.2⟩
    · rintro ⟨h, hx⟩
      exact ⟨h, by simpa [hquote] using hx⟩

/-- No rule of reading starts at a character other than the ampersand. -/
theorem head?_readingRules {x : Char} (hx : x ≠ '&') :
    ∀ r ∈ readingRules, r.pattern.head? ≠ some x := by
  have hall : ∀ r ∈ readingRules, r.pattern.head? = some '&' := by decide
  intro r hr
  rw [hall r hr, ne_eq, Option.some.injEq]
  exact Ne.symm hx

/-- The written form of a text is what writing one kind of character after the other gives. -/
theorem replaceEach_textRules (s : List Char) : Text.replaceEach textRules s = escapeText s := by
  have hrules := separate_textRules.replaceEach_flatMap (f := fun x => [x]) (g := escapeTextChar)
    (fun x => (escapeTextChar_cases x).imp And.left fun ⟨hplain, hx⟩ => ⟨rfl, hplain, by
      simpa [textRules, eq_comm] using hx⟩) s
  rwa [List.flatMap_singleton'] at hrules

private theorem replaceEach_attrRules (s : List Char) :
    Text.replaceEach attrRules s = escapeAttr s := by
  have hrules := separate_attrRules.replaceEach_flatMap (f := fun x => [x]) (g := escapeAttrChar)
    (fun x => (escapeAttrChar_cases x).imp And.left fun ⟨hplain, hx⟩ => ⟨rfl, hplain, by
      simpa [attrRules, textRules, eq_comm] using hx⟩) s
  rwa [List.flatMap_singleton'] at hrules

/-- A text comes back from its written form. -/
theorem unescape_escapeText (s : List Char) : unescape (escapeText s) = s := by
  rw [unescape_eq_replaceEach, escapeText,
    separate_readingRules.replaceEach_flatMap (g := fun x => [x]), List.flatMap_singleton']
  intro x
  refine (escapeTextChar_cases x).imp And.right ?_
  rintro ⟨hplain, hx⟩
  exact ⟨hplain, rfl, head?_readingRules fun h => hx (by simp [h])⟩

/-- The value of an attribute comes back from its written form. -/
theorem unescape_escapeAttr (s : List Char) : unescape (escapeAttr s) = s := by
  rw [unescape_eq_replaceEach, escapeAttr,
    separate_readingRules.replaceEach_flatMap (g := fun x => [x]), List.flatMap_singleton']
  intro x
  refine (escapeAttrChar_cases x).imp And.right ?_
  rintro ⟨hplain, hx⟩
  exact ⟨hplain, rfl, head?_readingRules fun h => hx (by simp [h])⟩

/-- No bracket stands in the written form of a text. -/
theorem notMem_escapeText {c : Char} (hc : c ∈ ['<', '>']) (s : List Char) : c ∉ escapeText s := by
  have hrules : ∀ r ∈ textRules, r.text.all (· ∉ ['<', '>']) := by decide
  simp only [escapeText, List.mem_flatMap, not_exists, not_and]
  intro x _
  rcases escapeTextChar_cases x with ⟨hr, -⟩ | ⟨hplain, hx⟩
  · exact fun hmem => of_decide_eq_true (List.all_eq_true.1 (hrules _ hr) c hmem) hc
  · rw [hplain, List.mem_singleton]
    rintro rfl
    exact hx (List.mem_cons_of_mem _ hc)

/-- Neither a bracket nor a quote stands in the written form of a value. -/
theorem notMem_escapeAttr {c : Char} (hc : c ∈ ['<', '>', '"']) (s : List Char) :
    c ∉ escapeAttr s := by
  have hrules : ∀ r ∈ attrRules, r.text.all (· ∉ ['<', '>', '"']) := by decide
  simp only [escapeAttr, List.mem_flatMap, not_exists, not_and]
  intro x _
  rcases escapeAttrChar_cases x with ⟨hr, -⟩ | ⟨hplain, hx⟩
  · exact fun hmem => of_decide_eq_true (List.all_eq_true.1 (hrules _ hr) c hmem) hc
  · rw [hplain, List.mem_singleton]
    rintro rfl
    exact hx (List.mem_cons_of_mem _ hc)

/-- What holds of a text, its written forms and its reading. -/
structure Referenced (s : List Char) : Prop where
  /-- The text comes back from its written form. -/
  text : unescape (escapeText s) = s
  /-- It also comes back from its written form as the value of an attribute. -/
  attr : unescape (escapeAttr s) = s
  /-- A text is written one kind of character after the other, and nothing is written twice. -/
  textRounds : Text.replaceEach textRules s = escapeText s
  /-- So is the value of an attribute. -/
  attrRounds : Text.replaceEach attrRules s = escapeAttr s
  /-- No bracket stands in a written text. -/
  textSafe : '<' ∉ escapeText s ∧ '>' ∉ escapeText s
  /-- Neither a bracket nor a quote stands in a written value. -/
  attrSafe : '<' ∉ escapeAttr s ∧ '>' ∉ escapeAttr s ∧ '"' ∉ escapeAttr s
  /-- The rounds of reading do what a single pass does that reads each reference where it stands and
  nothing of what it put in. -/
  onePass : unescape s = Text.substitute readingRules s

/-- Whatever a text looks like, it comes back from its written forms, these hold no character that
would end them, and reading it restores each of its references once. -/
theorem references_restored (s : List Char) : Referenced s where
  text := unescape_escapeText s
  attr := unescape_escapeAttr s
  textRounds := replaceEach_textRules s
  attrRounds := replaceEach_attrRules s
  textSafe := ⟨notMem_escapeText (by simp) s, notMem_escapeText (by simp) s⟩
  attrSafe := ⟨notMem_escapeAttr (by simp) s, notMem_escapeAttr (by simp) s,
    notMem_escapeAttr (by simp) s⟩
  onePass := by
    rw [unescape_eq_replaceEach, separate_readingRules.replaceEach_eq_substitute]

-- What was put in is not read again, neither by its own round nor together with what follows.
example : unescape "&amp;lt;&amp;amp;&l&lt;t;".toList = "&lt;&amp;&l<t;".toList := by decide

end Rivulet.Markup

namespace Rivulet.Markup

/-- A step that finds no fault is followed by the reading of the rest. -/
theorem tokens_cons {c : Char} {s rest : List Char} {ts : List Token}
    (h : readStep c s = ⟨ts, .ok rest⟩) :
    tokens (c :: s) = (ts ++ (tokens rest).1, (tokens rest).2) := by
  rw [tokens]
  split
  · next fault hf =>
    rw [h] at hf
    cases hf
  · next rest' hr =>
    rw [h] at hr
    cases hr
    rw [h]

/-- Reading goes on behind a step that finds no fault. -/
theorem tokens_next {c : Char} {s rest : List Char} (h : (readStep c s).next = .ok rest) :
    tokens (c :: s) = ((readStep c s).tokens ++ (tokens rest).1, (tokens rest).2) :=
  tokens_cons (by rw [← h])

/-- Reading ends at a fault. -/
theorem tokens_fault {c : Char} {s : List Char} {fault : Fault}
    (h : (readStep c s).next = .error fault) :
    tokens (c :: s) = ((readStep c s).tokens, some (fault, c :: s)) := by
  rw [tokens]
  split
  · next fault' hf =>
    rw [h] at hf
    cases hf
    rfl
  · next rest hr =>
    rw [h] at hr
    cases hr

/-- The part in front of the first character that fails a test, and what follows it. -/
theorem takeWhile_append_cons {α : Type} {p : α → Bool} {s t : List α} {c : α}
    (hs : ∀ a ∈ s, p a = true) (hc : p c = false) : (s ++ c :: t).takeWhile p = s := by
  rw [List.takeWhile_append_of_pos hs, List.takeWhile_cons_of_neg (by simp [hc]),
    List.append_nil]

/-- What follows the part in front of the first character that fails a test. -/
theorem dropWhile_append_cons {α : Type} {p : α → Bool} {s t : List α} {c : α}
    (hs : ∀ a ∈ s, p a = true) (hc : p c = false) : (s ++ c :: t).dropWhile p = c :: t := by
  rw [List.dropWhile_append_of_pos hs, List.dropWhile_cons_of_neg (by simp [hc])]

/-- A text is broken at the first place where the character stands. -/
theorem breakAt_append {c : Char} {s t : List Char} (h : c ∉ s) :
    breakAt c (s ++ c :: t) = some (s, t) := by
  induction s with
  | nil => simp [breakAt]
  | cons a s ih =>
    simp only [List.mem_cons, not_or] at h
    simp [breakAt, Ne.symm h.1, ih h.2]

/-- Content without the end mark of a comment is split off in front of the mark. -/
theorem cut?_comment {s t : List Char} (h : ¬ ['-', '-', '>'] <:+: s) :
    Text.cut? ['-', '-', '>'] (s ++ '-' :: '-' :: '>' :: t) = some (s, t) := by
  induction s with
  | nil => simp [Text.cut?, Text.stripStart?]
  | cons c s ih =>
    have hs : ¬ ['-', '-', '>'] <:+: s := fun hi => h (hi.trans (List.suffix_cons c s).isInfix)
    have hfront : Text.stripStart? ['-', '-', '>'] (c :: (s ++ '-' :: '-' :: '>' :: t)) = none := by
      rw [Option.eq_none_iff_forall_ne_some]
      intro r hr
      have he := Text.eq_append_of_stripStart? hr
      rcases s with _ | ⟨a, _ | ⟨b, s⟩⟩
      · simp at he
      · simp at he
      · simp only [List.cons_append, List.cons.injEq] at he
        obtain ⟨rfl, rfl, rfl, -⟩ := he
        exact h ⟨[], s, rfl⟩
    rw [List.cons_append, Text.cut?, hfront, ih hs]
    rfl

/-- A written comment is read back. -/
theorem tokens_comment {content : String} (h : ¬ ['-', '-', '>'] <:+: content.toList)
    (rest : List Char) :
    tokens (comment content ++ rest) =
      (.comment content.toList :: (tokens rest).1, (tokens rest).2) := by
  have hstep : readStep '<' ('!' :: '-' :: '-' :: (content.toList ++ '-' :: '-' :: '>' :: rest)) =
      ⟨[.comment content.toList], .ok rest⟩ := by
    simp only [readStep, readComment, cut?_comment h]
  have := tokens_cons hstep
  simpa [comment] using this

/-- Where a run of text ends: at the end or at a bracket. -/
def EndsText (rest : List Char) : Prop := ∀ c ∈ rest.head?, c = '<'

/-- A character other than a bracket starts a run of text. -/
theorem readStep_of_ne {c : Char} (h : c ≠ '<') (s : List Char) : readStep c s = readText c s := by
  unfold readStep
  split <;> first | rfl | exact absurd rfl h

/-- The written form of a text is empty only if the text is. -/
theorem escapeText_ne_nil {s : List Char} (h : s ≠ []) : escapeText s ≠ [] := by
  intro he
  have := unescape_escapeText s
  rw [he] at this
  exact h this.symm

/-- A written text is read back as a run. -/
theorem tokens_escapeText {s : List Char} (h : s ≠ []) {rest : List Char} (hr : EndsText rest) :
    tokens (escapeText s ++ rest) = (.text s :: (tokens rest).1, (tokens rest).2) := by
  obtain ⟨c, w, hw⟩ := List.exists_cons_of_ne_nil (escapeText_ne_nil h)
  have hmem := notMem_escapeText (c := '<') (by simp) s
  rw [hw, List.mem_cons, not_or] at hmem
  obtain ⟨hc, hwmem⟩ := hmem
  have hall : ∀ a ∈ w, (decide (a ≠ '<')) = true := by
    intro a ha
    simp only [decide_eq_true_eq]
    rintro rfl
    exact hwmem ha
  have hsplit : (w ++ rest).takeWhile (fun a => decide (a ≠ '<')) = w ∧
      (w ++ rest).dropWhile (fun a => decide (a ≠ '<')) = rest := by
    cases rest with
    | nil =>
      rw [List.append_nil]
      exact ⟨List.takeWhile_eq_self_iff.2 hall, List.dropWhile_eq_nil_iff.2 hall⟩
    | cons d rest =>
      have hd : d = '<' := hr d (by simp)
      subst hd
      exact ⟨takeWhile_append_cons hall (by simp), dropWhile_append_cons hall (by simp)⟩
  have hstep : readStep c (w ++ rest) = ⟨[.text s], .ok rest⟩ := by
    rw [readStep_of_ne (Ne.symm hc), readText, hsplit.1, hsplit.2, ← hw, unescape_escapeText]
  rw [hw, List.cons_append, tokens_cons hstep]
  rfl

/-- A name that can be read back: no capital letter, and nothing that ends a name. -/
structure IsName (ends : Char → Bool) (name : String) : Prop where
  /-- There is a name. -/
  nonempty : name.toList ≠ []
  /-- No letter changes when the name is put in lower case. -/
  lower : Text.lowerAscii name.toList = name.toList
  /-- Nothing in it ends a name. -/
  whole : ∀ c ∈ name.toList, ends c = false

/-- A name can be checked character by character. -/
theorem IsName.of_all {ends : Char → Bool} {name : String} (hnonempty : name.toList ≠ [])
    (hlower : Text.lowerAscii name.toList = name.toList)
    (hwhole : name.toList.all (!ends ·) = true) : IsName ends name where
  nonempty := hnonempty
  lower := hlower
  whole c hc := by simpa using List.all_eq_true.1 hwhole c hc

/-- A text in lower case is itself. -/
theorem IsName.lowered {ends : Char → Bool} {name : String} (h : IsName ends name) :
    lowered name.toList = name := by
  rw [Markup.lowered, h.lower, String.ofList_toList]

/-- What ends no tag is no blank. -/
theorem isBlank_of_endsTag {c : Char} (h : endsTag c = false) : Text.isBlank c = false := by
  simp only [endsTag, Bool.or_eq_false_iff] at h
  exact h.1.1

/-- A text without blanks is not trimmed. -/
theorem trim_of_forall {s : List Char} (h : ∀ c ∈ s, Text.isBlank c = false) : Text.trim s = s := by
  have hdrop {t : List Char} (ht : ∀ c ∈ t, Text.isBlank c = false) :
      t.dropWhile Text.isBlank = t := by
    cases t with
    | nil => rfl
    | cons c t => exact List.dropWhile_cons_of_neg (by simp [ht c])
  rw [Text.trim, Text.trimStart, hdrop h, Text.trimEnd, hdrop (by simpa using h),
    List.reverse_reverse]

/-- A written closing tag is read back. -/
theorem tokens_closeTag {tag : String} (h : IsName endsTag tag) (rest : List Char) :
    tokens (closeTag tag ++ rest) = (.closing tag :: (tokens rest).1, (tokens rest).2) := by
  have hgt : '>' ∉ tag.toList := by
    intro hm
    have := h.whole _ hm
    simp [endsTag] at this
  have htrim : Text.trim tag.toList = tag.toList :=
    trim_of_forall fun c hc => isBlank_of_endsTag (h.whole c hc)
  have hstep : readStep '<' ('/' :: (tag.toList ++ '>' :: rest)) = ⟨[.closing tag], .ok rest⟩ := by
    simp only [readStep, readClosing, breakAt_append hgt, htrim, h.lowered]
  have := tokens_cons hstep
  simpa [closeTag] using this

end Rivulet.Markup
