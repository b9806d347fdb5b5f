import Rivulet.Proofs.Document.RoundTrip
import Rivulet.Proofs.Markup.Bare
import Rivulet.Proofs.Text.Letters

/-!
# What reading gives can be written

Reading is tolerant: stray closing tags, unclosed elements, names that hold quotes or brackets,
and attributes that stand twice all have a reading. Whatever is read, though, its names are in
lower case and hold nothing that would end them, its comments hold no end of a comment, and its
plain content holds no closing tag of its element. So the trees can be written, and the markup of
a document that was read is read as the same document: writing is a normal form of markup.
-/

namespace Rivulet.Markup

private theorem endsTag_toLower (c : Char) : endsTag c.toLower = endsTag c := by
  obtain h | ⟨n, hn, rfl⟩ := Text.toLower_cases c
  · rw [h]
  · revert n
    decide

private theorem endsName_toLower (c : Char) : endsName c.toLower = endsName c := by
  obtain h | ⟨n, hn, rfl⟩ := Text.toLower_cases c
  · rw [h]
  · revert n
    decide

/-- What is read up to the end of a name is a name. -/
theorem isName_lowered {ends : Char → Bool} {s : List Char} (hne : s.takeWhile (!ends ·) ≠ [])
    (hlower : ∀ c : Char, ends c.toLower = ends c) :
    IsName ends (lowered (s.takeWhile (!ends ·))) where
  nonempty := by simpa [lowered, Text.lowerAscii] using hne
  lower := by
    rw [lowered, String.toList_ofList, Text.lowerAscii_lowerAscii]
  whole c hc := by
    rw [lowered, String.toList_ofList] at hc
    obtain ⟨d, hd, rfl⟩ := List.mem_map.1 hc
    rw [hlower]
    simpa using List.mem_takeWhile_imp hd

/-- The tag behind a bracket and a letter is a tag. -/
theorem isTag_lowered {d : Char} (hd : d.isAlpha = true) (hends : endsTag d = false)
    (s : List Char) : IsTag (lowered ((d :: s).takeWhile (!endsTag ·))) where
  toIsName := isName_lowered (by simp [hends]) endsTag_toLower
  letter c hc := by
    rw [lowered, String.toList_ofList, List.takeWhile_cons_of_pos (by simp [hends])] at hc
    obtain rfl : d.toLower = c := by simpa [Text.lowerAscii] using hc
    rwa [Text.isAlpha_toLower]

/-- A letter ends no tag. -/
theorem endsTag_of_isAlpha {d : Char} (hd : d.isAlpha = true) : endsTag d = false := by
  obtain ⟨n, hn, rfl⟩ := Text.isAlpha_cases hd
  revert hd n
  decide

/-- A first occurrence of a pattern has no occurrence in front of it. -/
theorem notInfix_of_cut? {p s a b : List Char} (hp : p ≠ []) (h : Text.cut? p s = some (a, b)) :
    ¬ p <:+: a := by
  induction s generalizing a with
  | nil =>
    obtain ⟨r, -, he⟩ := Option.map_eq_some_iff.1 h
    obtain ⟨rfl, -⟩ := Prod.mk.inj he
    simpa using hp
  | cons c s ih =>
    rw [Text.cut?] at h
    split at h
    · obtain ⟨rfl, -⟩ := Prod.mk.inj (Option.some.inj h)
      simpa using hp
    · next hnone =>
      obtain ⟨⟨x, y⟩, hxy, he⟩ := Option.map_eq_some_iff.1 h
      obtain ⟨rfl, rfl⟩ := Prod.mk.inj he
      have hsplit := Text.eq_append_of_cut? hxy
      intro hin
      rcases List.infix_cons_iff.1 hin with hfront | hlater
      · refine Text.stripStart?_eq_none.1 hnone (hfront.trans ?_)
        rw [hsplit, List.append_assoc]
        exact List.prefix_append (c :: x) _
      · exact ih hxy hlater

/-- Plain content ends in front of the first thing that looks like its closing tag. -/
theorem notInfix_of_breakAtClosing {tag s a b : List Char}
    (h : breakAtClosing tag s = some (a, b)) :
    ¬ '<' :: '/' :: tag <:+: Text.lowerAscii a := by
  induction s generalizing a with
  | nil => simp [breakAtClosing] at h
  | cons c s ih =>
    rw [breakAtClosing] at h
    split at h
    · obtain ⟨rfl, -⟩ := Prod.mk.inj (Option.some.inj h)
      simp [Text.lowerAscii]
    · next hnot =>
      obtain ⟨⟨x, y⟩, hxy, he⟩ := Option.map_eq_some_iff.1 h
      obtain ⟨rfl, rfl⟩ := Prod.mk.inj he
      have hsplit := append_of_breakAtClosing hxy
      intro hin
      rcases List.infix_cons_iff.1 hin with hfront | hlater
      · refine hnot (Text.startsWith_iff.2 ?_)
        have hlong : '<' :: '/' :: tag <+: Text.lowerAscii (c :: s) := by
          refine hfront.trans ?_
          rw [hsplit]
          exact (List.prefix_append (c :: x) y).map Char.toLower
        rw [Text.lowerAscii_take]
        exact List.prefix_take_iff.2 ⟨hlong, by simp⟩
      · exact ih hxy hlater

/-- What is read as an attribute has a name. -/
theorem isName_of_readAttr {s r : List Char} {name value : String}
    (h : readAttr s = .ok (some (name, value), r)) : IsName endsName name := by
  simp only [readAttr] at h
  split at h
  · cases h
  · next hne =>
    have hname : IsName endsName (lowered (s.takeWhile (!endsName ·))) :=
      isName_lowered (by simpa using hne) endsName_toLower
    split at h
    · next rest _ =>
      cases hv : readAttrValue (lowered (s.takeWhile (!endsName ·))) (Text.trimStart rest) with
      | error e => rw [hv] at h; cases h
      | ok p =>
        rw [hv] at h
        cases h
        exact hname
    · cases h
      exact hname

/-- What is read as the attributes of a tag can be read back. -/
theorem areAttributes_of_readAttrs {tag : String} {attrs attrs' : Attributes} {s r : List Char}
    {b : Bool} (ha : AreAttributes attrs) (h : readAttrs tag attrs s = .ok (attrs', b, r)) :
    AreAttributes attrs' := by
  fun_induction readAttrs tag attrs s with
  | case1 => cases h
  | case2 => cases h; exact ha
  | case3 => cases h; exact ha
  | case4 => cases h
  | case5 _ _ _ _ _ _ _ _ _ ih => exact ih ha h
  | case6 _ _ _ _ _ _ _ name value _ hr ih => exact ih (ha.put (isName_of_readAttr hr) value) h

open Builder

/-- An element with a tag and attributes that were read, which is neither void nor has plain
content, can be written when its children can. -/
theorem writable_kindOf {tag : String} {attrs : Attributes} (ht : IsTag tag)
    (ha : AreAttributes attrs) (hvoid : isVoid tag = false) (hraw : isRaw tag = false)
    {ts : List Tree} (hts : ∀ t ∈ ts, t.Writable) :
    (Tree.node (kindOf tag attrs) ts).Writable := by
  rw [kindOf]
  cases hw : Wrapper.ofTag? tag with
  | some w => exact ⟨ha, Tree.allWritable_iff.2 hts⟩
  | none =>
    refine ⟨ht, hw, ha, ?_⟩
    rw [hvoid, hraw, if_neg Bool.false_ne_true, if_neg Bool.false_ne_true]
    exact Tree.allWritable_iff.2 hts

/-- An element without children can be written, whatever its tag. -/
theorem writable_leaf_kindOf {tag : String} {attrs : Attributes} (ht : IsTag tag)
    (ha : AreAttributes attrs) : (Tree.leaf (kindOf tag attrs)).Writable := by
  rw [kindOf, Tree.leaf]
  cases hw : Wrapper.ofTag? tag with
  | some w => exact ⟨ha, trivial⟩
  | none =>
    refine ⟨ht, hw, ha, ?_⟩
    split
    · rfl
    · split
      · exact .inl rfl
      · trivial

/-- An element with plain content can be written when the content does not look like its closing
tag. -/
theorem writable_raw {tag : String} {attrs : Attributes} {content : List Char} (ht : IsTag tag)
    (ha : AreAttributes attrs) (hraw : isRaw tag = true) (hne : content ≠ [])
    (hc : ¬ '<' :: '/' :: tag.toList <:+: Text.lowerAscii content) :
    (Tree.node (kindOf tag attrs) [.leaf (.text (String.ofList content))]).Writable := by
  have hw : Wrapper.ofTag? tag = none := by
    simp only [isRaw, Bool.or_eq_true, beq_iff_eq] at hraw
    rcases hraw with rfl | rfl <;> decide
  rw [kindOf_element hw]
  refine ⟨ht, hw, ha, ?_⟩
  rw [isVoid_of_isRaw hraw, hraw, if_neg Bool.false_ne_true, if_pos rfl]
  refine .inr ⟨String.ofList content, ?_, rfl, ?_⟩
  · simpa using hne
  · simpa using hc

/-- An open element that can be written once it is closed. -/
structure Open.Sound (o : Open) : Prop where
  /-- It has a tag. -/
  tag : IsTag o.tag
  /-- It has children. -/
  notVoid : isVoid o.tag = false
  /-- They are no plain content. -/
  notRaw : isRaw o.tag = false
  /-- It is what its tag opens. -/
  kind : ∃ attrs, AreAttributes attrs ∧ o.kind = kindOf o.tag attrs
  /-- Its children so far can be written. -/
  children : ∀ t ∈ o.children, t.Writable

/-- A closed element can be written. -/
theorem Open.Sound.writable {o : Open} (h : o.Sound) :
    (Tree.node o.kind o.children.reverse).Writable := by
  obtain ⟨attrs, ha, hkind⟩ := h.kind
  rw [hkind]
  exact writable_kindOf h.tag ha h.notVoid h.notRaw fun t ht => h.children t (List.mem_reverse.1 ht)

/-- Trees under construction that can be written. -/
structure Builder.Sound (b : Builder) : Prop where
  /-- What is open can be written once it is closed. -/
  opened : ∀ o ∈ b.opened, o.Sound
  /-- What is finished can be written. -/
  trees : ∀ t ∈ b.trees, t.Writable

namespace Builder.Sound

variable {b : Builder}

/-- What is built innermost is changed to writable trees. -/
theorem mapInner (h : b.Sound) {f : List Tree → List Tree}
    (hf : ∀ ts, (∀ t ∈ ts, t.Writable) → ∀ t ∈ f ts, t.Writable) : (b.mapInner f).Sound := by
  obtain ⟨_ | ⟨o, opened⟩, trees, joins⟩ := b
  · exact ⟨by simp [Builder.mapInner], hf trees h.trees⟩
  · obtain ⟨ho, hrest⟩ := List.forall_mem_cons.1 h.opened
    refine ⟨List.forall_mem_cons.2 ⟨?_, hrest⟩, h.trees⟩
    exact { ho with children := hf o.children ho.children }

/-- It does not matter whether the next text joins the last one. -/
theorem setJoins (h : b.Sound) (joins : Bool) : (b.setJoins joins).Sound := ⟨h.opened, h.trees⟩

/-- A writable tree is added. -/
theorem add (h : b.Sound) {t : Tree} (ht : t.Writable) : (b.add t).Sound :=
  (h.mapInner fun _ hts => List.forall_mem_cons.2 ⟨ht, hts⟩).setJoins false

/-- A text is added. -/
theorem addText (h : b.Sound) (content : String) : (b.addText content).Sound := by
  have hleaf : (Tree.leaf (.text content)).Writable := by simp [Tree.leaf, Tree.Writable]
  rw [Builder.addText]
  split
  · refine (h.mapInner fun ts hts => ?_).setJoins true
    unfold joinText
    split
    · next before children rest =>
      obtain ⟨hfront, hrest⟩ := List.forall_mem_cons.1 hts
      exact List.forall_mem_cons.2 ⟨by simpa [Tree.Writable] using hfront, hrest⟩
    · exact List.forall_mem_cons.2 ⟨hleaf, hts⟩
  · exact (h.add hleaf).setJoins true

/-- A comment is added that does not end early. -/
theorem addComment (h : b.Sound) {content : String} (hc : ¬ ['-', '-', '>'] <:+: content.toList) :
    (b.addComment content).Sound := by
  rw [Builder.addComment]
  split
  · exact ⟨h.opened, h.trees⟩
  split
  · exact h.add (by simp [Tree.leaf, Tree.Writable])
  split
  · exact h.add (by simp [Tree.leaf, Tree.Writable])
  split
  · exact h.add (by simp [Tree.leaf, Tree.Writable])
  · exact h.add ⟨⟨hc, by simp_all⟩, rfl⟩

private theorem closeInner (h : b.Sound) : b.closeInner.Sound := by
  obtain ⟨_ | ⟨o, opened⟩, trees, joins⟩ := b
  · exact h
  · obtain ⟨ho, hrest⟩ := List.forall_mem_cons.1 h.opened
    have hopened : (Builder.mk opened trees joins).Sound := ⟨hrest, h.trees⟩
    exact hopened.mapInner fun _ hts => List.forall_mem_cons.2 ⟨ho.writable, hts⟩

/-- Several elements are closed. -/
theorem closeMany (h : b.Sound) (n : Nat) : (b.closeMany n).Sound := by
  induction n generalizing b with
  | zero => exact h
  | succ n ih => exact ih h.closeInner

private theorem closing (h : b.Sound) (tag : String) : (b.push (.closing tag)).Sound := by
  rw [push]
  split
  · exact h.closeMany _
  · exact h

/-- An element is opened under a proper name. -/
theorem opening (h : b.Sound) {tag : String} {attrs : Attributes} {alone : Bool} (ht : IsTag tag)
    (ha : AreAttributes attrs) (halone : (isVoid tag || isRaw tag) = true → alone = true) :
    (b.push (.opening tag attrs alone)).Sound := by
  cases alone with
  | true => exact h.add (writable_leaf_kindOf ht ha)
  | false =>
    have hplain : (isVoid tag || isRaw tag) = false := by
      rw [← Bool.not_eq_true]
      exact fun hp => Bool.false_ne_true (halone hp)
    obtain ⟨hvoid, hraw⟩ := Bool.or_eq_false_iff.1 hplain
    have hnew : Open.Sound ⟨tag, kindOf tag attrs, []⟩ :=
      ⟨ht, hvoid, hraw, ⟨attrs, ha, rfl⟩, by simp⟩
    exact ⟨List.forall_mem_cons.2 ⟨hnew, h.opened⟩, h.trees⟩

/-- Plain content comes right behind the opening tag of its element. -/
theorem raw (h : b.Sound) {tag : String} {attrs : Attributes} {content : List Char}
    (ht : IsTag tag) (ha : AreAttributes attrs) (hraw : isRaw tag = true)
    (hc : ¬ '<' :: '/' :: tag.toList <:+: Text.lowerAscii content) :
    ((b.push (.opening tag attrs true)).push (.raw content)).Sound := by
  have hadd : b.push (.opening tag attrs true) = b.add (.leaf (kindOf tag attrs)) := rfl
  rw [hadd, push, Builder.addRaw]
  split
  · exact h.add (writable_leaf_kindOf ht ha)
  · next hne =>
    rw [add_eq, mapInner_setJoins, mapInner_mapInner]
    have hnode := writable_raw ht ha hraw (by simpa using hne) hc
    exact (h.mapInner fun _ hts => List.forall_mem_cons.2 ⟨hnode, hts⟩).setJoins false

end Builder.Sound

/-! ## From markup to trees -/

/-- What an opening tag is read as keeps trees writable, also when its plain content has no end. -/
theorem Builder.Sound.readOpening {b : Builder} (h : b.Sound) {d : Char} (hd : d.isAlpha = true)
    (s : List Char) : ((Markup.readOpening (d :: s)).tokens.foldl push b).Sound := by
  have ht := isTag_lowered hd (endsTag_of_isAlpha hd) s
  rw [Markup.readOpening]
  split
  · exact h
  dsimp only
  split
  · exact h
  next attrs slash rest' hattrs =>
  have ha := areAttributes_of_readAttrs .nil hattrs
  have halone (tag : String) : (isVoid tag || isRaw tag) = true →
      (slash || isVoid tag || isRaw tag) = true := by
    rw [Bool.or_assoc]
    exact fun hp => Bool.or_eq_true_iff.2 (.inr hp)
  split
  · next hraw =>
    obtain ⟨hraw, hslash⟩ := Bool.and_eq_true_iff.1 hraw
    split
    · exact h.opening ht ha (halone _)
    · next hbreak =>
      rw [hraw, Bool.or_true]
      exact h.raw ht ha hraw (notInfix_of_breakAtClosing hbreak)
  · exact h.opening ht ha (halone _)

/-- What a step reads keeps trees writable. -/
theorem Builder.Sound.readStep {b : Builder} (h : b.Sound) (c : Char) (s : List Char) :
    ((Markup.readStep c s).tokens.foldl push b).Sound := by
  unfold Markup.readStep
  split
  · next s =>
    rw [readComment]
    split
    · next hcut => exact h.addComment (by simpa using notInfix_of_cut? (by decide) hcut)
    · exact h
  · next s =>
    rw [readClosing]
    split
    · exact h.closing _
    · exact h
  · rw [readDeclaration]
    split
    · exact h
    · exact h
  · rw [readDeclaration]
    split
    · exact h
    · exact h
  · split
    · next hd => exact h.readOpening hd _
    · exact h.addText _
  · exact h.addText _

/-- Reading keeps trees writable, up to the end or to the first fault. -/
theorem Builder.Sound.tokens {b : Builder} (h : b.Sound) (s : List Char) :
    ((Markup.tokens s).1.foldl push b).Sound := by
  induction hn : s.length using Nat.strong_induction_on generalizing s b with
  | _ n ih =>
    cases s with
    | nil =>
      rw [Markup.tokens]
      exact h
    | cons c s =>
      cases hstep : (Markup.readStep c s).next with
      | error fault =>
        rw [tokens_fault hstep]
        exact h.readStep c s
      | ok rest =>
        rw [tokens_next hstep, List.foldl_append]
        have hlt := length_readStep hstep
        exact ih rest.length (by rw [← hn, List.length_cons]; omega) (h.readStep c s) rest rfl

/-- Whatever is read can be written, also in front of a fault. -/
theorem allWritable_parsePartial (markup : String) :
    Tree.AllWritable (parsePartial markup).1 := by
  have hstart : ({} : Builder).Sound := ⟨by simp, by simp⟩
  have hbuilt := (hstart.tokens markup.toList).closeMany
    ((tokens markup.toList).1.foldl push {}).opened.length
  rw [Tree.allWritable_iff]
  exact fun t ht => hbuilt.trees t (List.mem_reverse.1 ht)

/-- Whatever is read can be written. -/
theorem allWritable_of_parse {markup : String} {ts : List Tree} (h : parse markup = .ok ts) :
    Tree.AllWritable ts := by
  rw [parse] at h
  split at h
  · next trees hpartial =>
    cases h
    have hall := allWritable_parsePartial markup
    rwa [hpartial] at hall
  · cases h

end Rivulet.Markup

namespace Rivulet.Document

open Markup

variable {α : Type}

/-- Building trees under the root leaves it the root. -/
theorem kind_root_plantUnder {ts : List Tree} (h : ∀ t ∈ ts, t.Holdable) :
    (({} : Document α).plantUnder root ts).kind root = .element "body" [] := by
  have hroot : root.index < ({} : Document α).nodes.size := by simp [root]
  exact (plantUnder_spec ordered_empty hroot ts h).kind

/-- The markup of a document that was read is read as the same document, whatever the document
was read from. -/
theorem inner_normal {markup : String} {d : Document α} (h : parse markup = .ok d) :
    parse (d.inner root) = .ok d := by
  rw [parse] at h
  cases hread : Markup.parse markup with
  | error e =>
    rw [hread] at h
    cases h
  | ok ts =>
    rw [hread] at h
    cases h
    have hwritable := allWritable_of_parse hread
    have hholdable : ∀ t ∈ ts, t.Holdable := fun t ht =>
      Tree.holdable_of_writable (Tree.allWritable_iff.1 hwritable t ht)
    have hforest : ({ ({} : Document α).plantUnder root ts with created := 0 }).forest root = ts :=
      (forest_created _ 0 root).trans (forest_plantUnder hholdable)
    have hkind : ({ ({} : Document α).plantUnder root ts with created := 0 }).kind root =
        .element "body" [] := kind_root_plantUnder hholdable
    have hinner : ({ ({} : Document α).plantUnder root ts with created := 0 }).inner root =
        print ts := by
      rw [inner, hkind, hforest]
      rfl
    rw [hinner, parse, parse_print hwritable]
    rfl

/-- A declaration, a name that holds a quote, an attribute that stands twice and one without a
value, a stray closing tag inside a text, a bracket that opens nothing, plain content with the
closing tag of something else, and an element without an end. -/
def tangled : String :=
  "<!DOCTYPE html><P\" ID=a id='b&amp;c' =x>one</i> < two<!---->three" ++
    "<Script>x</b></SCRIPT  ><Br/></p>"

/-- What is read there. -/
def untangled : List Tree :=
  [.node (.element "p\"" [("id", "b&c"), ("x", "")])
    [.leaf (.text "one < two"), .leaf (.text "three"),
      .node (.element "script" []) [.leaf (.text "x</b>")], .leaf (.element "br" [])]]

private theorem tokens_tangled : tokens tangled.toList =
    ([.opening "p\"" [("id", "b&c"), ("x", "")] false, .text "one".toList, .closing "i",
      .text " ".toList, .text "< two".toList, .comment [], .text "three".toList,
      .opening "script" [] true, .raw "x</b>".toList, .closing "script", .opening "br" [] true,
      .closing "p"], none) := by
  decide +kernel

private theorem parse_tangled : Markup.parse tangled = .ok untangled := by
  rw [Markup.parse, parsePartial, tokens_tangled]
  cbv

/-- Tangled markup is untangled, and what is written for it gives the same document. -/
theorem inner_normal_tangled :
    ∃ d : Document Unit, parse tangled = .ok d ∧ d.forest root = untangled ∧
      parse (d.inner root) = .ok d := by
  have hholdable : ∀ t ∈ untangled, t.Holdable := fun t ht =>
    Tree.holdable_of_writable (Tree.allWritable_iff.1 (allWritable_of_parse parse_tangled) t ht)
  obtain ⟨d, hd, hforest⟩ := parse_of_parse (α := Unit) parse_tangled hholdable
  exact ⟨d, hd, hforest, inner_normal hd⟩

end Rivulet.Document
