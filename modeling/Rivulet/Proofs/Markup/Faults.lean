import Rivulet.Proofs.Markup.Scanning
import Rivulet.Proofs.Markup.Tolerant

/-!
# What has no reading

Reading markup fails in one way only: the text ends within a construct. The fault is then put at the
bracket that starts the construct. On the way there the stack of open elements keeps the target at
its bottom, whatever closing tags say, and a reader that works in place on the bytes of the text
cuts it between characters only and moves on with every turn.
-/

namespace Rivulet.Markup

open Text

variable {s r : List Char}

/-- The front of an opening tag: its bracket and its name, and what follows them. -/
structure Opens (s name t : List Char) : Prop where
  /-- The name stands behind the bracket. -/
  split : s = '<' :: (name ++ t)
  /-- It starts with a letter. -/
  letter : ∃ d ∈ name.head?, d.isAlpha = true
  /-- Nothing in it ends it. -/
  whole : ∀ c ∈ name, endsTag c = false

/-- Inside an opening tag, reading goes on behind whole attributes. -/
inductive Attrs : List Char → List Char → Prop
  /-- No attribute is read. -/
  | none (t : List Char) : Attrs t t
  /-- An attribute is read, and then others. -/
  | more {t u r v : List Char} {c : Char} {attr : Option (String × String)}
      (front : trimStart t = c :: u) (inside : tagEnd? (c :: u) = .none)
      (reads : readAttr (c :: u) = .ok (attr, r)) (rest : Attrs r v) : Attrs t v

/-- An attribute with a value in quotes that do not end. -/
structure OpenValue (attr : String) (t : List Char) : Prop where
  /-- Its name, an equals sign with blanks around it, a quote, and no such quote any more. -/
  split : ∃ name before behind quote content,
    t = name ++ (before ++ '=' :: (behind ++ quote :: content)) ∧ attr = lowered name ∧
      name ≠ [] ∧ (∀ c ∈ name, endsName c = false) ∧ (∀ c ∈ before ++ behind, isBlank c = true) ∧
        quote ∈ ['"', '\''] ∧ quote ∉ content

/-- A construct starts at the front of a text, and the text ends within it. -/
def Fault.Unterminated : Fault → List Char → Prop
  | .comment, s => ∃ t, s = '<' :: '!' :: '-' :: '-' :: t ∧ ¬ ['-', '-', '>'] <:+: t
  | .declaration, s => ∃ c t, s = '<' :: c :: t ∧ c ∈ ['!', '?'] ∧ ¬ ['!', '-', '-'] <+: c :: t ∧
      '>' ∉ t
  | .closing, s => ∃ t, s = '<' :: '/' :: t ∧ '>' ∉ t
  | .name, s => Opens s s.tail []
  | .opening tag, s => ∃ name t u, Opens s name t ∧ tag = lowered name ∧ Attrs t u ∧
      ∀ c ∈ u, isBlank c = true
  | .value attr, s => ∃ name t u, Opens s name t ∧ Attrs t u ∧ OpenValue attr (trimStart u)
  | .raw tag, s => ∃ name t attrs content, Opens s name t ∧ tag = lowered name ∧
      isRaw tag = true ∧ readAttrs tag [] t = .ok (attrs, false, content) ∧
        ¬ '<' :: '/' :: tag.toList <:+: lowerAscii content

theorem notMem_of_breakAt {c : Char} (h : breakAt c s = none) : c ∉ s := by
  induction s with
  | nil => exact List.not_mem_nil
  | cons a s ih =>
    rw [breakAt] at h
    split at h
    · cases h
    · next hne =>
      rw [List.mem_cons, not_or]
      exact ⟨fun heq => hne heq.symm, ih (Option.map_eq_none_iff.1 h)⟩

theorem notInfix_of_cut?_none {p : List Char} (hp : p ≠ []) (h : cut? p s = none) :
    ¬ p <:+: s := by
  induction s with
  | nil => simpa using hp
  | cons c s ih =>
    rw [cut?] at h
    split at h
    · cases h
    · next hstart =>
      rw [List.infix_cons_iff, not_or]
      exact ⟨stripStart?_eq_none.1 hstart, ih (Option.map_eq_none_iff.1 h)⟩

private theorem notInfix_of_breakAtClosing_none {tag : List Char}
    (h : breakAtClosing tag s = none) :
    ¬ '<' :: '/' :: tag <:+: lowerAscii s := by
  have hfind := findText?_lowerAscii tag s
  rw [h, findText?_eq] at hfind
  exact notInfix_of_cut?_none (List.cons_ne_nil _ _) (Option.map_eq_none_iff.1 hfind)

/-- A value has no reading only if its quotes do not end. -/
theorem openQuote_of_readAttrValue {name : String} {fault : Fault}
    (h : readAttrValue name s = .error fault) : fault = .value name ∧
      ∃ quote content, s = quote :: content ∧ quote ∈ ['"', '\''] ∧ quote ∉ content := by
  cases s with
  | nil => cases h
  | cons quote content =>
    rw [readAttrValue.eq_def] at h
    dsimp only at h
    split at h
    · next hquote =>
      split at h
      · cases h
      · next hbreak =>
        cases h
        refine ⟨rfl, quote, content, rfl, ?_, notMem_of_breakAt hbreak⟩
        simpa using hquote
    · cases h

/-- Blanks, and what stands behind them. -/
theorem exists_blanks (t : List Char) :
    ∃ blanks, t = blanks ++ trimStart t ∧ ∀ c ∈ blanks, isBlank c = true :=
  ⟨t.takeWhile isBlank, List.takeWhile_append_dropWhile.symm, fun _ => List.mem_takeWhile_imp⟩

/-- An attribute has no reading only if its quotes do not end. -/
theorem openValue_of_readAttr {fault : Fault} (h : readAttr s = .error fault) :
    ∃ attr, fault = .value attr ∧ OpenValue attr s := by
  simp only [readAttr] at h
  split at h
  · cases h
  next hname =>
  split at h
  · next rest heq =>
    cases hv : readAttrValue (lowered (s.takeWhile (!endsName ·))) (trimStart rest) with
    | ok p =>
      rw [hv] at h
      cases h
    | error fault' =>
      rw [hv] at h
      cases h
      obtain ⟨rfl, quote, content, hquote, hmem, hnot⟩ := openQuote_of_readAttrValue hv
      obtain ⟨before, hbefore, hblank⟩ := exists_blanks (s.dropWhile (!endsName ·))
      obtain ⟨behind, hbehind, hblank'⟩ := exists_blanks rest
      refine ⟨_, rfl, s.takeWhile (!endsName ·), before, behind, quote, content, ?_,
        rfl, ?_, ?_, ?_,
        hmem, hnot⟩
      · rw [← hquote, ← hbehind, ← heq, ← hbefore, List.takeWhile_append_dropWhile]
      · simpa using hname
      · intro c hc
        simpa using List.mem_takeWhile_imp hc
      · exact fun c hc => (List.mem_append.1 hc).elim (hblank c) (hblank' c)
  · cases h

/-- The attributes of a tag have no reading only if the text ends among them. -/
theorem unterminated_of_readAttrs {tag : String} {attrs : Attributes} {fault : Fault}
    (h : readAttrs tag attrs s = .error fault) : ∃ u, Attrs s u ∧
      ((fault = .opening tag ∧ ∀ c ∈ u, isBlank c = true) ∨
        ∃ attr, fault = .value attr ∧ OpenValue attr (trimStart u)) := by
  fun_induction readAttrs tag attrs s with
  | case1 attrs s heq =>
    cases h
    exact ⟨s, .none s, .inl ⟨rfl, List.dropWhile_eq_nil_iff.1 heq⟩⟩
  | case2 => cases h
  | case3 => cases h
  | case4 attrs s c rest h1 h2 heq fault' hr =>
    cases h
    exact ⟨s, .none s, .inr (heq ▸ openValue_of_readAttr hr)⟩
  | case5 attrs s c rest h1 h2 heq rest' hr ih =>
    obtain ⟨u, hu, hfault⟩ := ih h
    exact ⟨u, .more heq (tagEnd?_eq_none h1 h2) hr hu, hfault⟩
  | case6 attrs s c rest h1 h2 heq name value rest' hr ih =>
    obtain ⟨u, hu, hfault⟩ := ih h
    exact ⟨u, .more heq (tagEnd?_eq_none h1 h2) hr hu, hfault⟩

/-- The front of what is read as an opening tag. -/
theorem opens_readOpening {d : Char} (hd : d.isAlpha = true) (s : List Char) :
    Opens ('<' :: d :: s) ((d :: s).takeWhile (!endsTag ·)) ((d :: s).dropWhile (!endsTag ·)) where
  split := by rw [List.takeWhile_append_dropWhile]
  letter := ⟨d, by simp [endsTag_of_isAlpha hd], hd⟩
  whole c hc := by simpa using List.mem_takeWhile_imp hc

/-- An opening tag has no reading only if it does not end, or its plain content does not. -/
theorem unterminated_of_readOpening {d : Char} {fault : Fault} (hd : d.isAlpha = true)
    (h : (readOpening (d :: s)).next = .error fault) : fault.Unterminated ('<' :: d :: s) := by
  have hopens := opens_readOpening hd s
  rw [readOpening] at h
  split at h
  · next hall =>
    cases h
    have hwhole : ∀ c ∈ d :: s, endsTag c = false := by simpa [List.all_eq_true] using hall
    exact ⟨by simp, ⟨d, rfl, hd⟩, hwhole⟩
  dsimp only at h
  split at h
  · next hattrs =>
    cases h
    obtain ⟨u, hu, ⟨rfl, hblank⟩ | ⟨attr, rfl, hvalue⟩⟩ := unterminated_of_readAttrs hattrs
    · exact ⟨_, _, u, hopens, rfl, hu, hblank⟩
    · exact ⟨_, _, u, hopens, hu, hvalue⟩
  next attrs slash rest hattrs =>
  split at h
  · next hplain =>
    obtain ⟨hraw, hslash⟩ := Bool.and_eq_true_iff.1 hplain
    obtain rfl : slash = false := by simpa using hslash
    split at h
    · next hbreak =>
      cases h
      exact ⟨_, _, attrs, rest, hopens, rfl, hraw, hattrs, notInfix_of_breakAtClosing_none hbreak⟩
    · cases h
  · cases h

/-- A step has no reading only if its construct does not end. -/
theorem unterminated_of_readStep {c : Char} {fault : Fault}
    (h : (readStep c s).next = .error fault) :
    c = '<' ∧ fault.Unterminated (c :: s) := by
  unfold readStep at h
  split at h
  · next t =>
    rw [readComment] at h
    split at h
    · cases h
    · next hcut =>
      cases h
      exact ⟨rfl, t, rfl, notInfix_of_cut?_none (by decide) hcut⟩
  · next t =>
    rw [readClosing] at h
    split at h
    · cases h
    · next hbreak =>
      cases h
      exact ⟨rfl, t, rfl, notMem_of_breakAt hbreak⟩
  · next t hcomment =>
    rw [readDeclaration] at h
    split at h
    · cases h
    · next hbreak =>
      cases h
      refine ⟨rfl, '!', t, rfl, by simp, ?_, notMem_of_breakAt hbreak⟩
      rintro ⟨u, hu⟩
      exact hcomment u (List.cons.inj hu).2.symm
  · next t =>
    rw [readDeclaration] at h
    split at h
    · cases h
    · next hbreak =>
      cases h
      exact ⟨rfl, '?', t, rfl, by simp, by simp [List.cons_prefix_cons], notMem_of_breakAt hbreak⟩
  · split at h
    · next hd => exact ⟨rfl, unterminated_of_readOpening hd h⟩
    · cases h
  · cases h

/-- A fault is put at the bracket of a construct that the text ends within. -/
theorem unterminated_of_tokens {fault : Fault} (h : (tokens s).2 = some (fault, r)) :
    r <:+ s ∧ r.head? = some '<' ∧ fault.Unterminated r := by
  induction hn : s.length using Nat.strong_induction_on generalizing s with
  | _ n ih =>
    cases s with
    | nil =>
      rw [tokens] at h
      cases h
    | cons c s =>
      cases hstep : (readStep c s).next with
      | error fault' =>
        rw [tokens_fault hstep] at h
        cases h
        obtain ⟨rfl, hfault⟩ := unterminated_of_readStep hstep
        exact ⟨List.suffix_rfl, rfl, hfault⟩
      | ok rest =>
        rw [tokens_next hstep] at h
        have hlt : rest.length < n := hn ▸ Nat.lt_succ_of_le (length_readStep hstep)
        obtain ⟨hsuffix, hfault⟩ := ih rest.length hlt h rfl
        exact ⟨hsuffix.trans (suffix_readStep hstep), hfault⟩

/-! ## The stack of open elements -/

/-- A closing tag closes the topmost element of its name with all above it. The bottom of the stack
is no element. -/
def closeOn (tag : String) (stack : List String) : List String :=
  match stack.tail.reverse.idxOf? tag with
  | some above => stack.take (stack.tail.length - 1 - above + 1)
  | none => stack

/-- The names on the stack of open elements behind a token. -/
def stackAfter (stack : List String) : Token → List String
  | .opening tag _ false => stack ++ [tag]
  | .closing tag => closeOn tag stack
  | _ => stack

namespace Builder

/-- The names of the open elements, the innermost at the top, on the target. -/
def stack (b : Builder) : List String := "" :: (b.opened.map (·.tag)).reverse

theorem opened_map_tag_closeMany (b : Builder) (n : Nat) :
    (b.closeMany n).opened.map (·.tag) = (b.opened.map (·.tag)).drop n := by
  induction n generalizing b with
  | zero => rfl
  | succ n ih =>
    obtain ⟨_ | ⟨o, opened⟩, trees, joins⟩ := b
    · rw [closeMany, ih]
      simp [closeInner]
    · rw [closeMany, ih, closeInner, opened_map_tag]
      rfl

private theorem stack_of_opened_map_tag {b b' : Builder}
    (h : b'.opened.map (·.tag) = b.opened.map (·.tag)) : b'.stack = b.stack := by
  rw [stack, h, stack]

/-- Closing the element at a place of the stack leaves those below it. -/
theorem closeOn_stack {b : Builder} {tag : String} :
    closeOn tag b.stack = (b.push (.closing tag)).stack := by
  have hfind : (b.opened.map (·.tag)).idxOf? tag = b.opened.findIdx? (·.tag = tag) := by
    rw [List.idxOf?, List.findIdx?_map]
    congr 1
  rw [closeOn, push, stack, List.tail_cons, List.reverse_reverse, hfind]
  cases hn : b.opened.findIdx? (·.tag = tag) with
  | none => rfl
  | some n =>
    have hlt : n < b.opened.length := (List.findIdx?_eq_some_iff_getElem.1 hn).1
    simp only
    rw [stack, opened_map_tag_closeMany, List.take_succ_cons, List.take_reverse,
      List.length_reverse,
      List.length_map]
    congr 3
    omega

/-- The stack is that of the builder, token after token. -/
theorem stack_push (b : Builder) (t : Token) : stackAfter b.stack t = (b.push t).stack := by
  cases t with
  | text content =>
    refine (stack_of_opened_map_tag ?_).symm
    rw [push, addText]
    dsimp only
    split
    · exact opened_map_tag b _
    · exact opened_map_tag b _
  | comment content =>
    refine (stack_of_opened_map_tag ?_).symm
    rw [push, addComment]
    split
    · rfl
    · split_ifs <;> exact opened_map_tag b _
  | opening tag attrs alone =>
    cases alone with
    | true => exact (stack_of_opened_map_tag (opened_map_tag b _)).symm
    | false => simp [stackAfter, push, stack]
  | raw content =>
    refine (stack_of_opened_map_tag ?_).symm
    rw [push, addRaw]
    split
    · rfl
    · exact opened_map_tag b _
  | closing tag => exact closeOn_stack

private theorem stack_foldl_push (ts : List Token) (b : Builder) :
    ts.foldl stackAfter b.stack = (ts.foldl push b).stack := by
  induction ts generalizing b with
  | nil => rfl
  | cons t ts ih => rw [List.foldl_cons, List.foldl_cons, stack_push, ih]

end Builder

/-- Reads markup in place, on the bytes of the text; `none` if a cut or a loop fails. -/
def parseInPlace (markup : String) : Option (Except ParseError (List Tree)) :=
  (scan markup.toList 0).map fun (ts, fault) =>
    match fault with
    | none => .ok (ts.foldl Builder.push {}).finish
    | some (fault, pos) => .error ⟨pos, fault.message⟩

/-- Markup has a reading if its tokens have, and else their fault. -/
theorem parse_eq (markup : String) : parse markup =
    match tokens markup.toList with
    | (ts, none) => .ok (ts.foldl Builder.push {}).finish
    | (_, some (fault, construct)) =>
      .error ⟨byteLength markup.toList - byteLength construct, fault.message⟩ := by
  rw [parse, parsePartial]
  rcases tokens markup.toList with ⟨ts, _ | ⟨fault, construct⟩⟩ <;> rfl

/-- Reading is safe on every text. A reader in place cuts the text between characters only, moves on
with every turn of its loops, and gives what is read. Whatever has been read so far, the target is
at the bottom of the stack of open elements. And where there is no reading, the text ends within a
construct: the fault is put at the bracket that starts it, in front of the end. -/
theorem reads_safely (markup : String) :
    parseInPlace markup = some (parse markup) ∧
      (∀ ts, ts <+: (tokens markup.toList).1 →
        ∃ tags, ts.foldl stackAfter [""] = "" :: tags ∧
          tags = ((ts.foldl Builder.push {}).opened.map (·.tag)).reverse) ∧
      ∀ e, parse markup = .error e → ∃ before construct : List Char, ∃ fault : Fault,
        markup.toList = before ++ construct ∧ e = ⟨byteLength before, fault.message⟩ ∧
          e.offset < byteLength markup.toList ∧ construct.head? = some '<' ∧
            fault.Unterminated construct := by
  refine ⟨?_, fun ts _ => ⟨_, Builder.stack_foldl_push ts {}, rfl⟩, fun e he => ?_⟩
  · have hscan := scan_place (s := markup.toList) (List.suffix_refl markup.toList)
    rw [place_self] at hscan
    rw [parseInPlace, hscan, parse_eq]
    rcases tokens markup.toList with ⟨ts, _ | ⟨fault, construct⟩⟩ <;> rfl
  · rw [parse_eq] at he
    rcases htokens : tokens markup.toList with ⟨ts, _ | ⟨fault, construct⟩⟩ <;> rw [htokens] at he
    · cases he
    cases he
    obtain ⟨⟨before, hbefore⟩, hhead, hunterminated⟩ :=
      unterminated_of_tokens (congrArg Prod.snd htokens)
    have hoffset : byteLength markup.toList - byteLength construct = byteLength before := by
      rw [← hbefore, byteLength_append, Nat.add_sub_cancel]
    have hconstruct : construct ≠ [] := fun hnil => by simp [hnil] at hhead
    refine ⟨before, construct, fault, hbefore.symm, ?_, ?_, hhead, hunterminated⟩
    · rw [hoffset]
    · change byteLength markup.toList - byteLength construct < byteLength markup.toList
      rw [hoffset, ← hbefore, byteLength_append]
      exact Nat.lt_add_of_pos_right (byteLength_pos hconstruct)

/-- A comment without an end behind a paragraph: the fault is put at its bracket, behind nine
bytes. -/
theorem reads_safely_comment : parse "<p>é</p><!-- over" = .error ⟨9, "unterminated comment"⟩ ∧
    ∃ before construct : List Char, ∃ fault : Fault,
      "<p>é</p><!-- over".toList = before ++ construct ∧
        (⟨9, "unterminated comment"⟩ : ParseError) = ⟨byteLength before, fault.message⟩ ∧
          9 < byteLength "<p>é</p><!-- over".toList ∧ construct.head? = some '<' ∧
            fault.Unterminated construct := by
  have htokens : tokens "<p>é</p><!-- over".toList =
    ([.opening "p" [] false, .text ['é'], .closing "p"],
      some (.comment, "<!-- over".toList)) := by decide +kernel
  have hparse : parse "<p>é</p><!-- over" = .error ⟨9, "unterminated comment"⟩ := by
    rw [parse_eq, htokens]
    rfl
  exact ⟨hparse, (reads_safely "<p>é</p><!-- over").2.2 _ hparse⟩

end Rivulet.Markup
