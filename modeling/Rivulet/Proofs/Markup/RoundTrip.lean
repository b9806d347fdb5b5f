import Rivulet.Markup.Parser
import Rivulet.Proofs.Markup.Opening

/-!
# Trees come back from their markup

A tree that can be written is read back as the same tree. The proof goes over the tokens that
stand for a tree: reading the markup gives these tokens, and building from them puts the tree
behind what was built before. Neighbours matter in one place only: a text behind a text is
kept apart from it by an empty comment, and the builder joins no text to a node that is none.
-/

namespace Rivulet.Markup

/-- The content of a comment that stands for nothing but itself. -/
structure IsComment (content : String) : Prop where
  /-- The comment does not end early. -/
  whole : ¬ ['-', '-', '>'] <:+: content.toList
  /-- It is no mark of an empty text, of an end of a fragment or between texts. -/
  noMark : content ∉ ["", emptyTextMark, Edge.opening.mark, Edge.closing.mark]

/-- The children of an element with plain content: none, or a single text that is not empty and
does not look like the end of the element in any letter case. -/
def IsPlain (tag : String) (children : List Tree) : Prop :=
  children = [] ∨ ∃ content, content ≠ "" ∧ children = [.leaf (.text content)] ∧
    ¬ '<' :: '/' :: tag.toList <:+: Text.lowerAscii content.toList

mutual

/-- A tree that can be read back from its markup. -/
def Tree.Writable : Tree → Prop
  | .node (.text _) children => children = []
  | .node (.marker _) children => children = []
  | .node (.comment content) children => IsComment content ∧ children = []
  | .node (.wrapper _ attrs) children => AreAttributes attrs ∧ Tree.AllWritable children
  | .node (.element tag attrs) children =>
    IsTag tag ∧ Wrapper.ofTag? tag = none ∧ AreAttributes attrs ∧
      if isVoid tag then children = []
      else if isRaw tag then IsPlain tag children
      else Tree.AllWritable children

/-- Neighbours that can be read back from their markup. -/
def Tree.AllWritable : List Tree → Prop
  | [] => True
  | t :: ts => t.Writable ∧ Tree.AllWritable ts

end

/-- Neighbours can be written when each of them can. -/
theorem Tree.allWritable_iff {ts : List Tree} : Tree.AllWritable ts ↔ ∀ t ∈ ts, t.Writable := by
  induction ts with
  | nil => simp [Tree.AllWritable]
  | cons t ts ih => simp [Tree.AllWritable, ih]

/-- The tag of a wrapper can be read back. -/
theorem isTag_wrapper (w : Wrapper) : IsTag w.tag := by
  cases w <;> exact .of_all (.of_all (by decide) (by decide) (by decide)) (by decide)

private theorem isVoid_wrapper (w : Wrapper) : isVoid w.tag = false := by cases w <;> decide

/-- The content of a wrapper is not raw. -/
theorem isRaw_wrapper (w : Wrapper) : isRaw w.tag = false := by cases w <;> decide

/-- A raw element may have content. -/
theorem isVoid_of_isRaw {tag : String} (h : isRaw tag = true) : isVoid tag = false := by
  simp only [isRaw, Bool.or_eq_true, beq_iff_eq] at h
  rcases h with rfl | rfl <;> decide

mutual

/-- The tokens that stand for a tree. -/
def Tree.tokens : Tree → List Token
  | .node (.text content) _ =>
    if content.isEmpty then [.comment emptyTextMark.toList] else [.text content.toList]
  | .node (.comment content) _ => [.comment content.toList]
  | .node (.marker edge) _ => [.comment edge.mark.toList]
  | .node (.element tag attrs) children =>
    if isVoid tag then [.opening tag attrs true]
    else if isRaw tag then [.opening tag attrs true, .raw (Tree.printRaw children), .closing tag]
    else .opening tag attrs false :: (Tree.tokensAll false children ++ [.closing tag])
  | .node (.wrapper w attrs) children =>
    .opening w.tag attrs false :: (Tree.tokensAll false children ++ [.closing w.tag])

/-- The tokens that stand for neighbours, given whether a text stands in front of them. -/
def Tree.tokensAll : Bool → List Tree → List Token
  | _, [] => []
  | afterText, .node kind children :: rest =>
    (if afterText && kind.isText then [.comment []] else []) ++
      (Tree.tokens (.node kind children) ++ Tree.tokensAll kind.isText rest)

end

/-- Reading `s` gives `ts` and goes on behind it. -/
def ReadsAs (s : List Char) (ts : List Token) (rest : List Char) : Prop :=
  tokens (s ++ rest) = (ts ++ (tokens rest).1, (tokens rest).2)

/-- Reading goes on from one piece to the next. -/
theorem ReadsAs.append {s s' : List Char} {ts ts' : List Token} {rest : List Char}
    (h : ReadsAs s ts (s' ++ rest)) (h' : ReadsAs s' ts' rest) :
    ReadsAs (s ++ s') (ts ++ ts') rest := by
  rw [ReadsAs] at *
  rw [List.append_assoc, h, h']
  simp

private theorem readsAs_nil (rest : List Char) : ReadsAs [] [] rest := rfl

/-- What is written for a node that is no text starts with a bracket. -/
theorem head?_print {kind : Kind} (h : kind.isText = false) (children : List Tree) :
    (Tree.print (.node kind children)).head? = some '<' := by
  cases kind <;> simp_all [Kind.isText, Tree.print, comment, openTag]

/-- What is written for a node that is no text does not depend on what stands in front of it. -/
theorem Tree.printAll_concat (ts : List Tree) {t : Tree} (h : t.kind.isText = false)
    (afterText : Bool) : Tree.printAll afterText (ts ++ [t]) = Tree.printAll afterText ts ++
    t.print := by
  induction ts generalizing afterText with
  | nil =>
    obtain ⟨kind, children⟩ := t
    rw [Tree.kind] at h
    simp [Tree.printAll, h]
  | cons u ts ih =>
    obtain ⟨kind, children⟩ := u
    simp [Tree.printAll, ih]

/-- Behind a text there is no text that would join it. -/
theorem endsText_printAll (ts : List Tree) {rest : List Char} (h : EndsText rest) :
    EndsText (Tree.printAll true ts ++ rest) := by
  match ts with
  | [] => simpa [Tree.printAll] using h
  | .node kind children :: ts =>
    intro c hc
    by_cases hk : kind.isText = true
    · simp only [Tree.printAll, hk, Bool.and_self, if_true, textSeparator, comment] at hc
      simpa using hc.symm
    · rw [Bool.not_eq_true] at hk
      have hhead := head?_print hk children
      simp only [Tree.printAll, hk, Bool.and_false, Bool.false_eq_true, if_false, List.nil_append,
        List.append_assoc, List.head?_append, hhead, Option.some_or] at hc
      simpa using hc.symm

/-- The texts of plain children are the content that was written. -/
theorem notInfix_printRaw {tag : String} {children : List Tree} (h : IsPlain tag children) :
    ¬ '<' :: '/' :: tag.toList <:+: Text.lowerAscii (Tree.printRaw children) := by
  rcases h with rfl | ⟨content, -, rfl, hc⟩
  · simp [Tree.printRaw, Text.lowerAscii]
  · simpa [Tree.printRaw, Tree.leaf, Kind.text?] using hc

/-- An element with markup inside is read back when the markup is. -/
theorem readsAs_element {tag : String} {attrs : Attributes} {inside : List Char} {ts : List Token}
    {rest : List Char} (ht : IsTag tag) (ha : AreAttributes attrs) (hraw : isRaw tag = false)
    (hvoid : isVoid tag = false) (h : ReadsAs inside ts (closeTag tag ++ rest)) :
    ReadsAs (openTag tag attrs ++ '>' :: inside ++ closeTag tag)
      (.opening tag attrs false :: (ts ++ [.closing tag])) rest := by
  have hopen := tokens_openTag ht ha hraw false (inside ++ (closeTag tag ++ rest))
  rw [ReadsAs] at *
  rw [h, tokens_closeTag ht.toIsName] at hopen
  simpa [tagEnd, hvoid] using hopen

mutual

/-- The markup of a tree is read back as its tokens. -/
theorem readsAs_print : ∀ {t : Tree}, t.Writable → ∀ rest : List Char,
    (t.kind.isText = true → EndsText rest) → ReadsAs t.print t.tokens rest
  | .node (.text content) _, _, rest, hrest => by
    by_cases hc : content.isEmpty = true
    · have hmark : ¬ ['-', '-', '>'] <:+: emptyTextMark.toList := by decide
      simpa [ReadsAs, Tree.print, Tree.tokens, printText, hc] using tokens_comment hmark rest
    · have hne : content.toList ≠ [] := by simpa using hc
      simpa [ReadsAs, Tree.print, Tree.tokens, printText, hc] using
        tokens_escapeText hne (hrest rfl)
  | .node (.comment content) _, h, rest, _ => by
    simp only [Tree.Writable] at h
    simpa [ReadsAs, Tree.print, Tree.tokens] using tokens_comment h.1.whole rest
  | .node (.marker edge) _, _, rest, _ => by
    have hmark : ¬ ['-', '-', '>'] <:+: edge.mark.toList := by cases edge <;> decide
    simpa [ReadsAs, Tree.print, Tree.tokens] using tokens_comment hmark rest
  | .node (.wrapper w attrs) children, h, rest, _ => by
    simp only [Tree.Writable] at h
    have hinside := readsAs_printAll false h.2 (closeTag w.tag ++ rest)
      (by simp [EndsText, closeTag])
    exact readsAs_element (isTag_wrapper w) h.1 (isRaw_wrapper w) (isVoid_wrapper w) hinside
  | .node (.element tag attrs) children, h, rest, _ => by
    simp only [Tree.Writable] at h
    obtain ⟨ht, -, ha, hchildren⟩ := h
    by_cases hvoid : isVoid tag = true
    · have hraw : isRaw tag = false := by
        by_contra hr
        simp [isVoid_of_isRaw (by simpa using hr)] at hvoid
      simpa [ReadsAs, Tree.print, Tree.tokens, hvoid, tagEnd] using
        tokens_openTag ht ha hraw true rest
    · rw [Bool.not_eq_true] at hvoid
      by_cases hraw : isRaw tag = true
      · simp only [hvoid, hraw, Bool.false_eq_true, if_false, if_true] at hchildren
        simpa [ReadsAs, Tree.print, Tree.tokens, hvoid, hraw] using
          tokens_raw ht ha hraw (notInfix_printRaw hchildren) rest
      · rw [Bool.not_eq_true] at hraw
        simp only [hvoid, hraw, Bool.false_eq_true, if_false] at hchildren
        have hinside := readsAs_printAll false hchildren (closeTag tag ++ rest)
          (by simp [EndsText, closeTag])
        have := readsAs_element ht ha hraw hvoid hinside
        simpa [Tree.print, Tree.tokens, hvoid, hraw] using this

/-- The markup of neighbours is read back as their tokens. -/
theorem readsAs_printAll (afterText : Bool) : ∀ {ts : List Tree}, Tree.AllWritable ts →
    ∀ rest : List Char, EndsText rest →
      ReadsAs (Tree.printAll afterText ts) (Tree.tokensAll afterText ts) rest
  | [], _, rest, _ => by simpa [Tree.printAll, Tree.tokensAll] using readsAs_nil rest
  | .node kind children :: ts, h, rest, hrest => by
    simp only [Tree.AllWritable] at h
    have hnext : kind.isText = true → EndsText (Tree.printAll kind.isText ts ++ rest) := by
      intro hk
      rw [hk]
      exact endsText_printAll ts hrest
    have hnode := readsAs_print h.1 (Tree.printAll kind.isText ts ++ rest) hnext
    have hboth := hnode.append (readsAs_printAll kind.isText h.2 rest hrest)
    by_cases hsep : (afterText && kind.isText) = true
    · have hmark : ¬ ['-', '-', '>'] <:+: "".toList := by decide
      have hseparator : ReadsAs textSeparator [.comment []]
          (Tree.print (.node kind children) ++ Tree.printAll kind.isText ts ++ rest) :=
        tokens_comment hmark _
      simpa [Tree.printAll, Tree.tokensAll, hsep] using hseparator.append hboth
    · simpa [Tree.printAll, Tree.tokensAll, hsep] using hboth

end

/-- The markup of neighbours is read without a fault. -/
theorem tokens_printAll {ts : List Tree} (h : Tree.AllWritable ts) :
    tokens (Tree.printAll false ts) = (Tree.tokensAll false ts, none) := by
  have hnil : tokens [] = ([], none) := by rw [tokens]
  have := readsAs_printAll false h [] (by simp [EndsText])
  simpa [ReadsAs, hnil] using this

/-! ## From tokens to trees -/

namespace Builder

/-- The children so far of the innermost open element, last one first. -/
def inner (b : Builder) : List Tree :=
  match b.opened with
  | [] => b.trees
  | o :: _ => o.children

/-- Only the innermost children matter for a change of them. -/
theorem mapInner_congr {b : Builder} {f g : List Tree → List Tree} (h : f b.inner = g b.inner) :
    b.mapInner f = b.mapInner g := by
  rcases b with ⟨opened, trees, joins⟩
  cases opened <;> simp_all [mapInner, inner]

/-- Two changes of the innermost children, one after the other. -/
theorem mapInner_mapInner (b : Builder) (f g : List Tree → List Tree) :
    (b.mapInner f).mapInner g = b.mapInner (g ∘ f) := by
  rcases b with ⟨opened, trees, joins⟩
  cases opened <;> rfl

private theorem mapInner_self (b : Builder) : b.mapInner (fun ts => ts) = b := by
  rcases b with ⟨opened, trees, joins⟩
  cases opened <;> rfl

/-- What was built innermost is what it was changed to. -/
@[simp] theorem inner_mapInner (b : Builder) (f : List Tree → List Tree) :
    (b.mapInner f).inner = f b.inner := by
  rcases b with ⟨opened, trees, joins⟩
  cases opened <;> rfl

/-- Changing what is innermost closes no element. -/
@[simp] theorem opened_map_tag (b : Builder) (f : List Tree → List Tree) :
    (b.mapInner f).opened.map (·.tag) = b.opened.map (·.tag) := by
  rcases b with ⟨opened, trees, joins⟩
  cases opened <;> rfl

/-- Sets whether a run of text continues the text in front of it. -/
def setJoins (b : Builder) (joins : Bool) : Builder := { b with joins }

@[simp] theorem inner_setJoins (b : Builder) (j : Bool) : (b.setJoins j).inner = b.inner := rfl

@[simp] theorem opened_setJoins (b : Builder) (j : Bool) : (b.setJoins j).opened = b.opened := rfl

@[simp] theorem setJoins_setJoins (b : Builder) (i j : Bool) :
    (b.setJoins i).setJoins j = b.setJoins j := rfl

@[simp] theorem mapInner_setJoins (b : Builder) (j : Bool) (f : List Tree → List Tree) :
    (b.setJoins j).mapInner f = (b.mapInner f).setJoins j := by
  rcases b with ⟨opened, trees, joins⟩
  cases opened <;> rfl

/-- A run of text would join no text, unless one stands in front of it that is known of. -/
def Ready (b : Builder) (afterText : Bool) : Prop :=
  afterText = false → b.joins = true → ∀ t ∈ b.inner.head?, t.kind.isText = false

/-- No element with plain content is open. -/
def NoRaw (b : Builder) : Prop := ∀ tag ∈ b.opened.map (·.tag), isRaw tag = false

/-- Adding a tree at the end. -/
theorem add_eq (b : Builder) (t : Tree) : b.add t = (b.mapInner (t :: ·)).setJoins false := rfl

/-- A run of text that joins nothing becomes a text. -/
theorem addText_eq {b : Builder} (h : b.Ready false) (content : String) :
    b.addText content = (b.mapInner (.leaf (.text content) :: ·)).setJoins true := by
  by_cases hj : b.joins = true
  · have hjoin : joinText content b.inner = .leaf (.text content) :: b.inner := by
      have hfront := h rfl hj
      match hb : b.inner with
      | [] => rfl
      | .node kind children :: rest =>
        rw [hb] at hfront
        have hk := hfront (.node kind children) rfl
        cases kind <;> simp_all [joinText, Tree.kind, Kind.isText]
    have := mapInner_congr (f := joinText content) (g := (.leaf (.text content) :: ·)) hjoin
    simp [addText, hj, this, setJoins]
  · simp [addText, hj, add_eq, setJoins]

/-- The comment of an empty text, of an end of a fragment, or any other one. -/
theorem addComment_eq {b : Builder} {content : String} (h : IsComment content) :
    b.addComment content = b.add (.leaf (.comment content)) := by
  have hmarks := h.noMark
  simp only [List.mem_cons, List.not_mem_nil, or_false, not_or] at hmarks
  obtain ⟨h1, h2, h3, h4⟩ := hmarks
  simp [addComment, h1, h2, h3, h4]

/-- A closing tag closes the innermost element when that has its name. -/
theorem push_closing {o : Open} {b : Builder} {tag : String} (h : o.tag = tag) :
    push { b with opened := o :: b.opened } (.closing tag) =
      b.mapInner (.node o.kind o.children.reverse :: ·) := by
  simp [push, List.findIdx?_cons, h, closeMany, closeInner]

/-- A closing tag without an open element is ignored. -/
theorem push_closing_of_notMem {b : Builder} {tag : String} (h : tag ∉ b.opened.map (·.tag)) :
    push b (.closing tag) = b := by
  have hnone : b.opened.findIdx? (·.tag = tag) = none := by
    rw [List.findIdx?_eq_none_iff]
    intro o ho
    simp only [decide_eq_false_iff_not]
    rintro rfl
    exact h (List.mem_map_of_mem ho)
  simp only [push]
  rw [hnone]

/-- What was built has the trees behind what was there, and nothing else is new. -/
def Gains (b b' : Builder) (ts : List Tree) : Prop :=
  ∃ joins, b' = (b.mapInner (ts.reverse ++ ·)).setJoins joins

theorem Gains.trans {b b' b'' : Builder} {ts us : List Tree} (h : b.Gains b' ts)
    (h' : b'.Gains b'' us) : b.Gains b'' (ts ++ us) := by
  obtain ⟨i, rfl⟩ := h
  obtain ⟨j, rfl⟩ := h'
  refine ⟨j, ?_⟩
  rw [mapInner_setJoins, setJoins_setJoins, mapInner_mapInner]
  congr 2
  funext l
  simp

private theorem Gains.noRaw {b b' : Builder} {ts : List Tree} (h : b.Gains b' ts) (hb : b.NoRaw) :
    b'.NoRaw := by
  obtain ⟨j, rfl⟩ := h
  simpa [NoRaw] using hb

/-- Behind a new tree a run of text joins it only if it is a text. -/
theorem Gains.ready {b b' : Builder} {t : Tree} (h : b.Gains b' [t]) : b'.Ready t.kind.isText := by
  obtain ⟨j, rfl⟩ := h
  intro ht _
  simp [ht]

/-- An element is put behind what was there when its children were built inside it. -/
theorem gains_element {b : Builder} {tag : String} {kind : Kind} {children : List Tree}
    {ts : List Token} (hinside : ∀ b' : Builder, b'.opened = ⟨tag, kind, []⟩ :: b.opened →
      b'.trees = b.trees → b'.joins = false → b'.Gains (ts.foldl push b') children) :
    b.Gains ((ts ++ [Token.closing tag]).foldl push
      { b with opened := ⟨tag, kind, []⟩ :: b.opened, joins := false }) [.node kind children] := by
  obtain ⟨j, hj⟩ := hinside { b with opened := ⟨tag, kind, []⟩ :: b.opened, joins := false }
    rfl rfl rfl
  have hbuilt : ts.foldl push { b with opened := ⟨tag, kind, []⟩ :: b.opened, joins := false } =
      { b.setJoins j with opened := ⟨tag, kind, children.reverse⟩ :: (b.setJoins j).opened } := by
    rw [hj]
    simp [mapInner, setJoins]
  refine ⟨j, ?_⟩
  rw [List.foldl_append, hbuilt, List.foldl_cons, List.foldl_nil, push_closing rfl]
  simp

end Builder

open Builder

/-- The kind that a tag which is none of a wrapper opens. -/
theorem kindOf_element {tag : String} (h : Wrapper.ofTag? tag = none) (attrs : Attributes) :
    kindOf tag attrs = .element tag attrs := by
  rw [kindOf, h]

private theorem kindOf_wrapper (w : Wrapper) (attrs : Attributes) :
    kindOf w.tag attrs = .wrapper w attrs := by
  cases w <;> rfl

/-- Plain content is put inside the element in front of it. -/
theorem addRaw_plain {tag : String} {children : List Tree} (h : IsPlain tag children) (b : Builder)
    (kind : Kind) :
    (b.add (.leaf kind)).addRaw (Tree.printRaw children) = b.add (.node kind children) := by
  rcases h with rfl | ⟨content, hne, rfl, -⟩
  · simp [addRaw, Tree.printRaw, Tree.leaf]
  · have hcontent : content.toList ≠ [] := by simpa using hne
    have hraw : Tree.printRaw [.leaf (.text content)] = content.toList := by
      simp [Tree.printRaw, Tree.leaf, Kind.text?]
    rw [hraw, addRaw, if_neg (by simpa using hcontent), add_eq, mapInner_setJoins,
      mapInner_mapInner, String.ofList_toList]
    rfl

mutual

/-- Building from the tokens of a tree puts it behind what was there. -/
theorem gains_tokens : ∀ {t : Tree}, t.Writable → ∀ {b : Builder}, b.NoRaw →
    (t.kind.isText = true → b.Ready false) → b.Gains (t.tokens.foldl push b) [t]
  | .node (.text content) children, h, b, _, hready => by
    simp only [Tree.Writable] at h
    subst h
    by_cases hc : content.isEmpty = true
    · have hcontent : content = "" := by simpa using hc
      subst hcontent
      exact ⟨false, rfl⟩
    · refine ⟨true, ?_⟩
      have := addText_eq (hready rfl) content
      simpa [Tree.tokens, hc, push, Tree.leaf] using this
  | .node (.comment content) children, h, b, _, _ => by
    simp only [Tree.Writable] at h
    obtain ⟨hc, rfl⟩ := h
    refine ⟨false, ?_⟩
    simp [Tree.tokens, push, addComment_eq hc, add_eq, Tree.leaf]
  | .node (.marker edge) children, h, b, _, _ => by
    simp only [Tree.Writable] at h
    subst h
    cases edge <;> exact ⟨false, rfl⟩
  | .node (.wrapper w attrs) children, h, b, hb, _ => by
    simp only [Tree.Writable] at h
    have hinside : ∀ b' : Builder, b'.opened = ⟨w.tag, .wrapper w attrs, []⟩ :: b.opened →
        b'.trees = b.trees → b'.joins = false →
          b'.Gains ((Tree.tokensAll false children).foldl push b') children := by
      intro b' hopened _ hj
      refine gains_tokensAll false h.2 ?_ (by simp [Ready, hj])
      simpa [NoRaw, hopened, isRaw_wrapper] using hb
    have := gains_element hinside
    simpa [Tree.tokens, push, kindOf_wrapper] using this
  | .node (.element tag attrs) children, h, b, hb, _ => by
    simp only [Tree.Writable] at h
    obtain ⟨-, hw, -, hchildren⟩ := h
    by_cases hvoid : isVoid tag = true
    · simp only [hvoid, if_true] at hchildren
      subst hchildren
      refine ⟨false, ?_⟩
      simp [Tree.tokens, hvoid, push, kindOf_element hw, add_eq, Tree.leaf]
    · rw [Bool.not_eq_true] at hvoid
      by_cases hraw : isRaw tag = true
      · simp only [hvoid, hraw, Bool.false_eq_true, if_false, if_true] at hchildren
        have hclosed : push (b.add (.node (.element tag attrs) children)) (.closing tag) =
            b.add (.node (.element tag attrs) children) := by
          apply push_closing_of_notMem
          rw [add_eq, opened_setJoins, opened_map_tag]
          intro hm
          exact absurd (hb tag hm) (by simp [hraw])
        refine ⟨false, ?_⟩
        simp only [Tree.tokens, hvoid, hraw, Bool.false_eq_true, if_false, if_true,
          List.foldl_cons, List.foldl_nil]
        rw [show push b (.opening tag attrs true) = b.add (.leaf (.element tag attrs)) by
          simp [push, kindOf_element hw]]
        rw [push, addRaw_plain hchildren, hclosed]
        rfl
      · rw [Bool.not_eq_true] at hraw
        simp only [hvoid, hraw, Bool.false_eq_true, if_false] at hchildren
        have hinside : ∀ b' : Builder, b'.opened = ⟨tag, .element tag attrs, []⟩ :: b.opened →
            b'.trees = b.trees → b'.joins = false →
              b'.Gains ((Tree.tokensAll false children).foldl push b') children := by
          intro b' hopened _ hj
          refine gains_tokensAll false hchildren ?_ (by simp [Ready, hj])
          simpa [NoRaw, hopened, hraw] using hb
        have := gains_element hinside
        simpa [Tree.tokens, hvoid, hraw, push, kindOf_element hw] using this

/-- Building from the tokens of neighbours puts them behind what was there. -/
theorem gains_tokensAll (afterText : Bool) : ∀ {ts : List Tree}, Tree.AllWritable ts →
    ∀ {b : Builder}, b.NoRaw → b.Ready afterText →
      b.Gains ((Tree.tokensAll afterText ts).foldl push b) ts
  | [], _, b, _, _ => by
    refine ⟨b.joins, ?_⟩
    simp [Tree.tokensAll, setJoins, mapInner_self]
  | .node kind children :: ts, h, b, hb, hready => by
    simp only [Tree.AllWritable] at h
    have hnode : b.Gains (((if afterText && kind.isText then [Token.comment []] else []) ++
        Tree.tokens (.node kind children)).foldl push b) [.node kind children] := by
      by_cases hsep : (afterText && kind.isText) = true
      · have hready' : (b.setJoins false).Ready false := by simp [Ready, setJoins]
        obtain ⟨j, hj⟩ := gains_tokens h.1 (b := b.setJoins false) hb fun _ => hready'
        refine ⟨j, ?_⟩
        simp only [hsep, if_true, List.singleton_append, List.foldl_cons]
        rw [show push b (.comment []) = b.setJoins false from rfl, hj, mapInner_setJoins,
          setJoins_setJoins]
      · simp only [hsep, Bool.false_eq_true, if_false, List.nil_append]
        apply gains_tokens h.1 hb
        intro hk
        rw [Tree.kind] at hk
        have hafter : afterText = false := by simpa [hk] using hsep
        exact hafter ▸ hready
    have hrest := gains_tokensAll kind.isText h.2 (hnode.noRaw hb) hnode.ready
    have := hnode.trans hrest
    simpa [Tree.tokensAll, List.foldl_append] using this

end

/-- Trees that can be written come back from their markup. -/
theorem parse_print {ts : List Tree} (h : Tree.AllWritable ts) : parse (print ts) = .ok ts := by
  have hstart : ({} : Builder).Ready false := by simp [Ready]
  obtain ⟨j, hj⟩ := gains_tokensAll false h (b := {}) (by simp [NoRaw]) hstart
  have hbuilt : ((Tree.tokensAll false ts).foldl push {}).finish = ts := by
    rw [hj]
    simp [finish, mapInner, setJoins, closeMany]
  have hpartial : parsePartial (print ts) = (ts, none) := by
    simp [parsePartial, print, tokens_printAll h, hbuilt]
  rw [parse, hpartial]

end Rivulet.Markup
