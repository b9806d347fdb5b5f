import Mathlib.Data.List.DropRight
import Rivulet.Proofs.Markup.Token

/-!
# Reading written opening tags

The attributes of a tag are read back in their order, the quoted value ends at its own quote,
and the bracket behind the attributes ends the tag. An element that holds plain text is read
back with its content, as long as the content does not look like the end of the element.
-/

namespace Rivulet.Markup

/-- Setting an attribute that is not there puts it behind the others. -/
theorem put_of_notMem {name value : String} {attrs : Attributes}
    (h : name ∉ attrs.map (·.1)) : attrs.put name value = attrs ++ [(name, value)] := by
  induction attrs with
  | nil => rfl
  | cons a attrs ih =>
    obtain ⟨k, v⟩ := a
    simp only [List.map_cons, List.mem_cons, not_or] at h
    simp [Attributes.put, Ne.symm h.1, ih h.2]

/-- The written value of an attribute, with what stands between it and the name. -/
def printValue (value : String) : List Char :=
  if value.isEmpty then [] else '=' :: '"' :: escapeAttr value.toList ++ ['"']

theorem printAttrs_cons (name value : String) (attrs : Attributes) :
    printAttrs ((name, value) :: attrs) =
      ' ' :: (name.toList ++ (printValue value ++ printAttrs attrs)) := by
  simp [printAttrs, printValue]

/-- What ends no attribute name is no blank. -/
theorem isBlank_of_endsName {c : Char} (h : endsName c = false) : Text.isBlank c = false := by
  simp only [endsName, Bool.or_eq_false_iff] at h
  exact h.1.1.1

/-- A written value is read back. -/
theorem readAttrValue_quoted (name value : String) (rest : List Char) :
    readAttrValue name ('"' :: (escapeAttr value.toList ++ '"' :: rest)) = .ok (value, rest) := by
  have hquote : '"' ∉ escapeAttr value.toList := notMem_escapeAttr (by simp) _
  simp [readAttrValue, breakAt_append hquote, unescape_escapeAttr]

/-- What may follow an attribute: something that ends a name and is no equals sign. -/
structure EndsAttr (rest : List Char) : Prop where
  /-- The name before it ends. -/
  ends : ∀ c ∈ rest.head?, endsName c = true
  /-- No value follows. -/
  noValue : ∀ c ∈ (Text.trimStart rest).head?, c ≠ '='

/-- Trimming twice trims no more. -/
theorem trimStart_trimStart (s : List Char) : Text.trimStart (Text.trimStart s) =
    Text.trimStart s :=
  List.dropWhile_idempotent Text.isBlank s

/-- A written attribute is read back, maybe with the blanks behind it. -/
theorem readAttr_print {name : String} (hn : IsName endsName name) (value : String)
    {rest : List Char} (hr : EndsAttr rest) :
    ∃ rest', readAttr (name.toList ++ (printValue value ++ rest)) =
        .ok (some (name, value), rest') ∧ Text.trimStart rest' = Text.trimStart rest := by
  have hwhole : ∀ a ∈ name.toList, (!endsName a) = true := by
    intro a ha
    simp [hn.whole a ha]
  have hne : name.toList.isEmpty = false := by simpa using hn.nonempty
  by_cases hv : value.isEmpty = true
  · have hsplit : (name.toList ++ rest).takeWhile (!endsName ·) = name.toList ∧
        (name.toList ++ rest).dropWhile (!endsName ·) = rest := by
      cases rest with
      | nil =>
        rw [List.append_nil]
        exact ⟨List.takeWhile_eq_self_iff.2 hwhole, List.dropWhile_eq_nil_iff.2 hwhole⟩
      | cons c rest =>
        have hc : (!endsName c) = false := by simp [hr.ends c (by simp)]
        exact ⟨takeWhile_append_cons hwhole hc, dropWhile_append_cons hwhole hc⟩
    refine ⟨Text.trimStart rest, ?_, trimStart_trimStart rest⟩
    have hvalue : value = "" := by simpa using hv
    rw [printValue, if_pos hv, List.nil_append, readAttr, hsplit.1, hsplit.2]
    simp only [hne, Bool.false_eq_true, if_false, hn.lowered]
    split
    · next r he => exact absurd rfl (hr.noValue '=' (by simp [he]))
    · rw [hvalue]
  · have heq : (!endsName '=') = false := by decide
    refine ⟨rest, ?_, rfl⟩
    rw [printValue, if_neg hv]
    simp only [List.cons_append, List.append_assoc, List.nil_append]
    rw [readAttr, takeWhile_append_cons hwhole heq, dropWhile_append_cons hwhole heq]
    simp only [hne, Bool.false_eq_true, if_false, hn.lowered]
    rw [Text.trimStart_of_head (by decide)]
    simp only
    rw [Text.trimStart_of_head (by decide), readAttrValue_quoted]
    rfl

/-- The end of an opening tag: its bracket, with a slash in front of it or not. -/
def tagEnd (slash : Bool) : List Char := if slash then [' ', '/', '>'] else ['>']

/-- An attribute may be followed by others or by the end of the tag. -/
theorem endsAttr_print {attrs : Attributes} (h : ∀ a ∈ attrs, IsName endsName a.1) (slash : Bool)
    (rest : List Char) : EndsAttr (printAttrs attrs ++ (tagEnd slash ++ rest)) := by
  cases attrs with
  | nil =>
    cases slash with
    | false =>
      constructor
      · simp [printAttrs, tagEnd, endsName]
      · have htrim : Text.trimStart ('>' :: rest) = '>' :: rest :=
          Text.trimStart_of_head (by decide)
        simp [printAttrs, tagEnd, htrim]
    | true =>
      constructor
      · simp [printAttrs, tagEnd, endsName, Text.isBlank]
      · have htrim : Text.trimStart (' ' :: '/' :: '>' :: rest) = '/' :: '>' :: rest := rfl
        simp [printAttrs, tagEnd, htrim]
  | cons a attrs =>
    obtain ⟨name, value⟩ := a
    have hn : IsName endsName name := h _ List.mem_cons_self
    obtain ⟨c, s, hs⟩ := List.exists_cons_of_ne_nil hn.nonempty
    have hc := hn.whole c (by simp [hs])
    rw [printAttrs_cons, hs]
    constructor
    · simp [endsName, Text.isBlank]
    · intro d hd
      have htrim (t : List Char) : Text.trimStart (' ' :: c :: t) = c :: t := by
        rw [Text.trimStart, List.dropWhile_cons_of_pos (by decide)]
        exact Text.trimStart_of_head (isBlank_of_endsName hc)
      simp only [List.cons_append, htrim, List.head?_cons, Option.mem_def, Option.some.injEq] at hd
      subst hd
      rintro rfl
      simp [endsName] at hc

/-- The end of a tag ends its attributes. -/
theorem readAttrs_tagEnd (tag : String) (acc : Attributes) {slash : Bool} {s rest : List Char}
    (h : Text.trimStart s = Text.trimStart (tagEnd slash ++ rest)) :
    readAttrs tag acc s = .ok (acc, slash, rest) := by
  cases slash with
  | false =>
    have htrim : Text.trimStart s = '>' :: rest := h.trans (Text.trimStart_of_head (by decide))
    clear h
    rw [readAttrs]
    split <;> simp_all
  | true =>
    have htrim : Text.trimStart s = '/' :: '>' :: rest := h
    clear h
    rw [readAttrs]
    split <;> simp_all

/-- An attribute in front is taken in. -/
theorem readAttrs_attr {tag : String} {acc : Attributes} {s t rest : List Char} {c : Char}
    {name value : String} (h : Text.trimStart s = c :: t) (hc : endsName c = false)
    (hr : readAttr (c :: t) = .ok (some (name, value), rest)) :
    readAttrs tag acc s = readAttrs tag (acc.put name value) rest := by
  have hslash : c ≠ '/' := by
    rintro rfl
    simp [endsName] at hc
  have hgt : c ≠ '>' := by
    rintro rfl
    simp [endsName] at hc
  rw [readAttrs]
  split
  · next he =>
    rw [h] at he
    cases he
  · next he =>
    rw [h] at he
    exact absurd (List.cons.inj he).1 hslash
  · next he =>
    rw [h] at he
    exact absurd (List.cons.inj he).1 hgt
  · next d u _ _ he =>
    rw [h] at he
    obtain ⟨rfl, rfl⟩ := List.cons.inj he
    split
    · next fault he =>
      rw [hr] at he
      cases he
    · next he =>
      rw [hr] at he
      cases he
    · next he =>
      rw [hr] at he
      cases he
      rfl

/-- Written attributes are read back in their order, with the end of their tag. -/
theorem readAttrs_print {tag : String} {attrs : Attributes} (acc : Attributes) {slash : Bool}
    {s rest : List Char} (h : ∀ a ∈ attrs, IsName endsName a.1)
    (hd : ((acc ++ attrs).map (·.1)).Nodup)
    (hs : Text.trimStart s = Text.trimStart (printAttrs attrs ++ (tagEnd slash ++ rest))) :
    readAttrs tag acc s = .ok (acc ++ attrs, slash, rest) := by
  induction attrs generalizing acc s with
  | nil =>
    rw [List.append_nil]
    exact readAttrs_tagEnd tag acc hs
  | cons a attrs ih =>
    obtain ⟨name, value⟩ := a
    have hn : IsName endsName name := h _ List.mem_cons_self
    have hrest : ∀ a ∈ attrs, IsName endsName a.1 := fun a ha => h a (List.mem_cons_of_mem _ ha)
    obtain ⟨c, w, hw⟩ := List.exists_cons_of_ne_nil hn.nonempty
    have hc := hn.whole c (by simp [hw])
    obtain ⟨rest', hread, htrim⟩ := readAttr_print hn value (endsAttr_print hrest slash rest)
    have hfront : Text.trimStart s = c :: (w ++ (printValue value ++
        (printAttrs attrs ++ (tagEnd slash ++ rest)))) := by
      rw [hs, printAttrs_cons, hw, Text.trimStart]
      simp only [List.cons_append, List.append_assoc]
      rw [List.dropWhile_cons_of_pos (by decide)]
      exact Text.trimStart_of_head (isBlank_of_endsName hc)
    rw [hw, List.cons_append] at hread
    have hnew : name ∉ acc.map (·.1) := by
      intro hm
      rw [List.map_append, List.map_cons] at hd
      exact (List.nodup_append.1 hd).2.2 name hm name List.mem_cons_self rfl
    rw [readAttrs_attr hfront hc hread, put_of_notMem hnew]
    rw [ih (acc ++ [(name, value)]) hrest (by simpa using hd) htrim]
    simp

/-! ## Tags -/

/-- A tag that can be read back: a name that starts with a letter. -/
structure IsTag (tag : String) : Prop extends IsName endsTag tag where
  /-- The first character is a letter. -/
  letter : ∀ c ∈ tag.toList.head?, c.isAlpha = true

/-- The first character of a tag can be checked. -/
theorem IsTag.of_all {tag : String} (hname : IsName endsTag tag)
    (hletter : tag.toList.head?.all Char.isAlpha = true) : IsTag tag where
  toIsName := hname
  letter c hc := by rwa [Option.mem_def.1 hc, Option.all_some] at hletter

/-- The attributes of a node that can be read back: names, each of them once, as setting
attributes one by one leaves them. -/
structure AreAttributes (attrs : Attributes) : Prop where
  /-- The names can be read back. -/
  names : ∀ a ∈ attrs, IsName endsName a.1
  /-- No name stands twice. -/
  nodup : (attrs.map (·.1)).Nodup

/-- The name of a tag ends where its attributes start. -/
theorem split_openTag {tag : String} (ht : IsTag tag) (attrs : Attributes) (slash : Bool)
    (rest : List Char) :
    ∃ c s, printAttrs attrs ++ (tagEnd slash ++ rest) = c :: s ∧ endsTag c = true ∧
      (tag.toList ++ c :: s).takeWhile (!endsTag ·) = tag.toList ∧
      (tag.toList ++ c :: s).dropWhile (!endsTag ·) = c :: s := by
  have hwhole : ∀ a ∈ tag.toList, (!endsTag a) = true := by
    intro a ha
    simp [ht.whole a ha]
  have hfront : ∃ c s, printAttrs attrs ++ (tagEnd slash ++ rest) = c :: s ∧ endsTag c = true := by
    cases attrs with
    | nil =>
      cases slash with
      | false => exact ⟨'>', rest, rfl, by decide⟩
      | true => exact ⟨' ', '/' :: '>' :: rest, rfl, by decide⟩
    | cons a attrs =>
      obtain ⟨name, value⟩ := a
      rw [printAttrs_cons, List.cons_append]
      exact ⟨' ', _, rfl, by decide⟩
  obtain ⟨c, s, he, hc⟩ := hfront
  have hend : (!endsTag c) = false := by simp [hc]
  exact ⟨c, s, he, hc, takeWhile_append_cons hwhole hend, dropWhile_append_cons hwhole hend⟩

/-- What is read of a written opening tag. -/
theorem readOpening_print {tag : String} {attrs : Attributes} (ht : IsTag tag)
    (ha : AreAttributes attrs) (slash : Bool) (rest : List Char) :
    readOpening (tag.toList ++ (printAttrs attrs ++ (tagEnd slash ++ rest))) =
      let opening := Token.opening tag attrs (slash || isVoid tag || isRaw tag)
      if isRaw tag && !slash then
        match breakAtClosing tag.toList rest with
        | none => ⟨[opening], .error (.raw tag)⟩
        | some (content, rest) => ⟨[opening, .raw content], .ok rest⟩
      else ⟨[opening], .ok rest⟩ := by
  obtain ⟨c, s, he, hc, htake, hdrop⟩ := split_openTag ht attrs slash rest
  have hread : readAttrs tag [] (c :: s) = .ok (attrs, slash, rest) :=
    readAttrs_print [] ha.names ha.nodup (by rw [he])
  have hnot : (tag.toList ++ c :: s).all (!endsTag ·) = false := by
    rw [List.all_eq_false]
    exact ⟨c, by simp, by simp [hc]⟩
  rw [he, readOpening, hnot, if_neg Bool.false_ne_true, htake, hdrop, ht.lowered]
  dsimp only
  generalize readAttrs tag [] (c :: s) = attempt at hread ⊢
  subst hread
  rfl

/-- A bracket in front of a letter opens a tag. -/
theorem readStep_openTag {tag : String} (ht : IsTag tag) (s : List Char) :
    readStep '<' (tag.toList ++ s) = readOpening (tag.toList ++ s) := by
  obtain ⟨c, w, hw⟩ := List.exists_cons_of_ne_nil ht.nonempty
  have hc : c.isAlpha = true := ht.letter c (by simp [hw])
  have h1 : c ≠ '!' := by
    rintro rfl
    revert hc
    decide
  have h2 : c ≠ '/' := by
    rintro rfl
    revert hc
    decide
  have h3 : c ≠ '?' := by
    rintro rfl
    revert hc
    decide
  rw [hw, List.cons_append]
  unfold readStep
  split <;> simp_all

/-- A written opening tag of an element with markup inside, or with nothing, is read back. -/
theorem tokens_openTag {tag : String} {attrs : Attributes} (ht : IsTag tag)
    (ha : AreAttributes attrs) (hraw : isRaw tag = false) (slash : Bool) (rest : List Char) :
    tokens (openTag tag attrs ++ (tagEnd slash ++ rest)) =
      (.opening tag attrs (slash || isVoid tag) :: (tokens rest).1, (tokens rest).2) := by
  have hstep := readStep_openTag ht (printAttrs attrs ++ (tagEnd slash ++ rest))
  rw [readOpening_print ht ha] at hstep
  simp only [hraw, Bool.false_and, Bool.false_eq_true, if_false, Bool.or_false] at hstep
  have := tokens_cons hstep
  simpa [openTag] using this

/-- A pattern whose first character does not come again cannot start in a text and end behind
it when that character stands there. -/
theorem prefix_of_prefix_append {a : Char} {q u t : List Char} (ha : a ∉ q) (hu : u ≠ [])
    (h : a :: q <+: u ++ a :: t) : a :: q <+: u := by
  rcases List.prefix_or_prefix_of_prefix h (List.prefix_append u (a :: t)) with hp | hp
  · exact hp
  · obtain ⟨v, hv⟩ := hp
    rw [← hv] at h
    cases v with
    | nil =>
      rw [List.append_nil] at hv
      exact hv ▸ List.prefix_rfl
    | cons b v =>
      have hb : b = a := (List.cons_prefix_cons.1 ((List.prefix_append_right_inj u).1 h)).1
      obtain ⟨x, w, rfl⟩ := List.exists_cons_of_ne_nil hu
      have hq : q = w ++ b :: v := (List.cons.inj hv).2.symm
      exact absurd (by simp [hq, hb]) ha

/-- Plain content is split off in front of the closing tag of its element, as long as it does
not look like that tag in any letter case. -/
theorem breakAtClosing_append {tag content : List Char} (rest : List Char)
    (htag : Text.lowerAscii tag = tag) (hlt : '<' ∉ tag)
    (h : ¬ '<' :: '/' :: tag <:+: Text.lowerAscii content) :
    breakAtClosing tag (content ++ '<' :: '/' :: (tag ++ rest)) =
      some (content, '<' :: '/' :: (tag ++ rest)) := by
  have hlower (s t : List Char) : Text.lowerAscii (s ++ t) = Text.lowerAscii s ++
      Text.lowerAscii t :=
    List.map_append
  induction content with
  | nil =>
    have hstart : Text.startsWith ('<' :: '/' :: tag)
        (Text.lowerAscii (('<' :: '/' :: (tag ++ rest)).take (tag.length + 2))) = true := by
      have htake : ('<' :: '/' :: (tag ++ rest)).take (tag.length + 2) = '<' :: '/' :: tag := by
        simp
      have heq : Text.lowerAscii ('<' :: '/' :: tag) = '<' :: '/' :: tag := by
        simp only [Text.lowerAscii, List.map_cons] at htag ⊢
        rw [htag]
        rfl
      have := Text.stripStart?_append ('<' :: '/' :: tag) []
      rw [List.append_nil] at this
      rw [htake, heq, Text.startsWith, this]
      rfl
    rw [List.nil_append, breakAtClosing, if_pos hstart]
  | cons c content ih =>
    have hcontent : ¬ '<' :: '/' :: tag <:+: Text.lowerAscii content := by
      intro hi
      exact h (hi.trans (List.suffix_cons c.toLower (Text.lowerAscii content)).isInfix)
    have hfront : Text.startsWith ('<' :: '/' :: tag) (Text.lowerAscii
        ((c :: (content ++ '<' :: '/' :: (tag ++ rest))).take (tag.length + 2))) = false := by
      rw [Text.startsWith, Option.isSome_eq_false_iff, Option.isNone_iff_eq_none,
        Option.eq_none_iff_forall_ne_some]
      intro r hr
      have hprefix : '<' :: '/' :: tag <+:
          Text.lowerAscii (c :: (content ++ '<' :: '/' :: (tag ++ rest))) := by
        have htake := List.take_prefix (tag.length + 2)
          (c :: (content ++ '<' :: '/' :: (tag ++ rest)))
        refine List.IsPrefix.trans ?_ (htake.map Char.toLower)
        exact ⟨r, (Text.eq_append_of_stripStart? hr).symm⟩
      rw [← List.cons_append, hlower] at hprefix
      have hlt' : '<' ∉ '/' :: tag := by simpa using hlt
      exact h (prefix_of_prefix_append hlt' (by simp [Text.lowerAscii]) hprefix).isInfix
    rw [List.cons_append, breakAtClosing, hfront, ih hcontent]
    rfl

/-- A written element with plain content is read back, its closing tag included. -/
theorem tokens_raw {tag : String} {attrs : Attributes} {content : List Char} (ht : IsTag tag)
    (ha : AreAttributes attrs) (hraw : isRaw tag = true)
    (h : ¬ '<' :: '/' :: tag.toList <:+: Text.lowerAscii content) (rest : List Char) :
    tokens (openTag tag attrs ++ '>' :: (content ++ (closeTag tag ++ rest))) =
      (.opening tag attrs true :: .raw content :: .closing tag :: (tokens rest).1,
        (tokens rest).2) := by
  have hlt : '<' ∉ tag.toList := by
    simp only [isRaw, Bool.or_eq_true, beq_iff_eq] at hraw
    rcases hraw with rfl | rfl <;> decide
  have hbreak : breakAtClosing tag.toList (content ++ (closeTag tag ++ rest)) =
      some (content, closeTag tag ++ rest) := by
    have := breakAtClosing_append ('>' :: rest) ht.lower hlt h
    simpa [closeTag] using this
  have hstep := readStep_openTag ht
    (printAttrs attrs ++ (tagEnd false ++ (content ++ (closeTag tag ++ rest))))
  rw [readOpening_print ht ha] at hstep
  simp only [hraw, Bool.not_false, Bool.and_self, if_true, hbreak, Bool.or_true] at hstep
  have := tokens_cons hstep
  rw [tokens_closeTag ht.toIsName] at this
  simpa [openTag, tagEnd] using this

end Rivulet.Markup
