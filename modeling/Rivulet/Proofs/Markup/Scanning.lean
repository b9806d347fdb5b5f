import Rivulet.Markup.Parser
import Rivulet.Proofs.Markup.Opening
import Rivulet.Proofs.Text.Positions

/-!
# Reading markup by positions

Markup can be read in place: all that is kept is a position in the whole text, in bytes. Each cut at
a position may then fall inside a character or behind the end, and each turn of a loop has to move
the position on. A reader in this manner is given here that stops where a cut is impossible and
where a loop does not move on. It never stops: it reads what is read character by character, and its
positions are the places of what is left to read.
-/

namespace Rivulet.Markup

open Text

/-- Passes blanks over. -/
def scanBlanks (input : List Char) (pos : Nat) : Option Nat :=
  (fromByte? pos input).map fun rest => pos + (byteLength rest - byteLength (trimStart rest))

/-- A value without quotes at the front of a text, and the position behind it. -/
def scanBare (rest : List Char) (pos : Nat) : Option (String × Nat) :=
  let length := (findByte? endsValue rest).getD (byteLength rest)
  (uptoByte? length rest).map fun content => (String.ofList (unescape content), pos + length)

/-- A value in quotes at the front of a text, and the position behind it. -/
def scanQuoted (name : String) (quote : Char) (rest : List Char) (pos : Nat) :
    Option (Except Fault (String × Nat)) := do
  let inside ← fromByte? 1 rest
  match findByte? (· == quote) inside with
  | none => return .error (.value name)
  | some length =>
    let content ← betweenBytes? 1 (1 + length) rest
    return .ok (String.ofList (unescape content), pos + (length + 2))

/-- The value behind an equals sign, and the position behind it. -/
def scanValue (name : String) (input : List Char) (pos : Nat) :
    Option (Except Fault (String × Nat)) := do
  let rest ← fromByte? pos input
  match rest with
  | quote :: _ =>
    if quote == '"' || quote == '\'' then scanQuoted name quote rest pos
    else (scanBare rest pos).map .ok
  | [] => (scanBare rest pos).map .ok

/-- An attribute, or a character that starts none, and the position behind it. -/
def scanAttr (input : List Char) (pos : Nat) :
    Option (Except Fault (Option (String × String) × Nat)) := do
  let rest ← fromByte? pos input
  let length := (findByte? endsName rest).getD (byteLength rest)
  if length = 0 then return .ok (none, pos + 1)
  else
    let name ← uptoByte? length rest
    let behind ← scanBlanks input (pos + length)
    match ← fromByte? behind input with
    | '=' :: _ =>
      let front ← scanBlanks input (behind + 1)
      let value ← scanValue (lowered name) input front
      return value.map fun (value, pos) => (some (lowered name, value), pos)
    | _ => return .ok (some (lowered name, ""), behind)

/-- The end of an opening tag at the front of a text: whether a slash stands there, and how many
bytes the end takes. -/
def tagEnd? : List Char → Option (Bool × Nat)
  | '/' :: '>' :: _ => some (true, 2)
  | '>' :: _ => some (false, 1)
  | _ => none

/-- The attributes of an opening tag up to its closing bracket, whether a slash stands in front of
it, and the position behind it. -/
def scanAttrs (tag : String) (attrs : Attributes) (input : List Char) (pos : Nat) :
    Option (Except Fault (Attributes × Bool × Nat)) :=
  match (scanBlanks input pos).bind fun front => (fromByte? front input).map (front, ·) with
  | none => none
  | some (front, rest) =>
    if rest.isEmpty then some (.error (.opening tag))
    else
      match tagEnd? rest with
      | some (slash, length) => some (.ok (attrs, slash, front + length))
      | none =>
        match scanAttr input front with
        | none => none
        | some (.error fault) => some (.error fault)
        | some (.ok (attr, next)) =>
          -- The turn has to move the position on, inside of the text.
          if pos < byteLength input ∧ pos < next then
            match attr with
            | none => scanAttrs tag attrs input next
            | some (name, value) => scanAttrs tag (attrs.put name value) input next
          else none
termination_by byteLength input - pos

/-- What a step has read: its tokens, and the position behind them unless it found a fault. -/
abbrev Scan := List Token × Except Fault Nat

/-- A comment. -/
def scanComment (input : List Char) (pos : Nat) : Option Scan := do
  let inside ← fromByte? (pos + 4) input
  match findText? ['-', '-', '>'] inside with
  | none => return ([], .error .comment)
  | some length =>
    let content ← betweenBytes? (pos + 4) (pos + 4 + length) input
    return ([.comment content], .ok (pos + 4 + length + 3))

/-- A closing tag. -/
def scanClosing (input : List Char) (pos : Nat) : Option Scan := do
  let rest ← fromByte? pos input
  match findByte? (· == '>') rest with
  | none => return ([], .error .closing)
  | some length =>
    let name ← betweenBytes? 2 length rest
    return ([.closing (lowered (trim name))], .ok (pos + (length + 1)))

/-- A declaration or an instruction. -/
def scanDeclaration (input : List Char) (pos : Nat) : Option Scan := do
  let rest ← fromByte? pos input
  match findByte? (· == '>') rest with
  | none => return ([], .error .declaration)
  | some length => return ([], .ok (pos + (length + 1)))

/-- A run of text; a bracket at its front belongs to it. -/
def scanText (input : List Char) (pos : Nat) : Option Scan := do
  let rest ← fromByte? pos input
  let skip := if rest.head? = some '<' then 1 else 0
  let behind ← fromByte? skip rest
  let length := ((findByte? (· == '<') behind).map (skip + ·)).getD (byteLength rest)
  let content ← uptoByte? length rest
  return ([.text (unescape content)], .ok (pos + length))

/-- The content of an element that holds plain text only, up to its closing tag. -/
def scanRaw (tag : String) (opening : Token) (input : List Char) (pos : Nat) : Option Scan := do
  let rest ← fromByte? pos input
  match findText? ('<' :: '/' :: tag.toList) (lowerAscii rest) with
  | none => return ([opening], .error (.raw tag))
  | some length =>
    let content ← uptoByte? length rest
    return ([opening, .raw content], .ok (pos + length))

/-- An opening tag, with the content of an element that holds plain text only. -/
def scanOpening (input : List Char) (pos : Nat) : Option Scan := do
  let rest ← fromByte? (pos + 1) input
  match findByte? endsTag rest with
  | none => return ([], .error .name)
  | some length =>
    let name ← uptoByte? length rest
    let tag := lowered name
    match ← scanAttrs tag [] input (pos + 1 + length) with
    | .error fault => return ([], .error fault)
    | .ok (attrs, slash, behind) =>
      let opening := Token.opening tag attrs (slash || isVoid tag || isRaw tag)
      if isRaw tag && !slash then scanRaw tag opening input behind
      else return ([opening], .ok behind)

/-- The step at a position. -/
def scanStep (input : List Char) (pos : Nat) : Option Scan := do
  match ← fromByte? pos input with
  | '<' :: '!' :: '-' :: '-' :: _ => scanComment input pos
  | '<' :: '/' :: _ => scanClosing input pos
  | '<' :: '!' :: _ => scanDeclaration input pos
  | '<' :: '?' :: _ => scanDeclaration input pos
  | '<' :: d :: _ => if d.isAlpha then scanOpening input pos else scanText input pos
  | _ => scanText input pos

/-- The tokens from a position up to the end or to the first fault, which is given with the position
of the faulty construct. -/
def scan (input : List Char) (pos : Nat) : Option (List Token × Option (Fault × Nat)) :=
  if byteLength input ≤ pos then some ([], none)
  else
    match scanStep input pos with
    | none => none
    | some (ts, .error fault) => some (ts, some (fault, pos))
    | some (ts, .ok next) =>
      -- The turn has to move the position on.
      if pos < next then (scan input next).map fun (more, fault) => (ts ++ more, fault)
      else none
termination_by byteLength input - pos

variable {input s r : List Char}

/-- A text is broken at a character where a search finds it. -/
theorem findByte?_eq_breakAt (c : Char) (s : List Char) :
    findByte? (· == c) s = (breakAt c s).map fun (before, _) => byteLength before := by
  induction s with
  | nil => rfl
  | cons a s ih =>
    rw [findByte?, breakAt]
    by_cases h : a = c
    · simp [h]
    · rw [if_neg h, if_neg (by simpa using h), ih]
      cases breakAt c s <;> simp

/-- Breaking loses nothing but the character. -/
theorem eq_append_of_breakAt {c : Char} {a b : List Char} (h : breakAt c s = some (a, b)) :
    s = a ++ c :: b := by
  induction s generalizing a with
  | nil => cases h
  | cons x s ih =>
    rw [breakAt] at h
    split at h
    · next heq =>
      cases h
      rw [heq]
      rfl
    · obtain ⟨⟨p, q⟩, hpq, he⟩ := Option.map_eq_some_iff.1 h
      cases he
      rw [ih hpq]
      rfl

/-- What is left without blanks in front is the end of the text. -/
theorem trimStart_suffix (s : List Char) : trimStart s <:+ s := List.dropWhile_suffix _

/-- Blanks are scanned as they are trimmed. -/
theorem scanBlanks_place (h : s <:+ input) :
    scanBlanks input (place input s) = some (place input (trimStart s)) := by
  have hplace := place_takeWhile h isBlank
  have hlength := congrArg byteLength (List.takeWhile_append_dropWhile (p := isBlank) (l := s))
  rw [byteLength_append] at hlength
  rw [scanBlanks, fromByte?_place h, Option.map_some, trimStart, ← hplace]
  congr 2
  omega

/-! ## Attributes -/

private theorem scanBare_place (h : s <:+ input) : scanBare s (place input s) =
    some (String.ofList (unescape (s.takeWhile (!endsValue ·))),
      place input (s.dropWhile (!endsValue ·))) := by
  simp only [scanBare, findByte?_getD, uptoByte?_takeWhile, Option.map_some, place_takeWhile h]

/-- A quote takes one byte. -/
theorem utf8Size_of_quote {quote : Char} (h : (quote == '"' || quote == '\'') = true) :
    quote.utf8Size = 1 := by
  simp only [Bool.or_eq_true, beq_iff_eq] at h
  rcases h with rfl | rfl <;> rfl

/-- A quoted value is scanned as it is read. -/
theorem scanQuoted_place {name : String} {quote : Char} {rest : List Char}
    (hquote : quote.utf8Size = 1) (h : quote :: rest <:+ input) :
    scanQuoted name quote (quote :: rest) (place input (quote :: rest)) =
      some (match breakAt quote rest with
        | some (content, r) => .ok (String.ofList (unescape content), place input r)
        | none => .error (.value name)) := by
  rw [scanQuoted, fromByte?_cons hquote, fromByte?_zero, Option.bind_eq_bind, Option.bind_some,
    findByte?_eq_breakAt]
  cases hbreak : breakAt quote rest with
  | none => rfl
  | some p =>
    obtain ⟨content, r⟩ := p
    have hsplit := eq_append_of_breakAt hbreak
    have hplace := place_add_of_eq (a := quote :: (content ++ [quote])) (r :=
      r) h (by simp [hsplit])
    have hlength : byteLength (quote :: (content ++ [quote])) = byteLength content + 2 := by
      rw [byteLength_cons, byteLength_append, byteLength_cons, byteLength_nil, hquote]
      omega
    rw [hlength] at hplace
    simp only [Option.map_some, betweenBytes?_cons hquote]
    rw [hplace, hsplit, uptoByte?_append]
    rfl

/-- The value of an attribute is scanned as it is read. -/
theorem scanValue_place (name : String) (h : s <:+ input) :
    scanValue name input (place input s) =
      some ((readAttrValue name s).map fun (value, r) => (value, place input r)) := by
  rw [scanValue, fromByte?_place h, Option.bind_eq_bind, Option.bind_some]
  cases s with
  | nil =>
    simp only [scanBare_place h]
    rfl
  | cons quote rest =>
    by_cases hquote : (quote == '"' || quote == '\'') = true
    · simp only [readAttrValue, hquote, if_true, scanQuoted_place (utf8Size_of_quote hquote) h]
      cases breakAt quote rest <;> rfl
    · simp only [readAttrValue, hquote, scanBare_place h]
      rfl

/-- What ends the name of an attribute and is no blank takes one byte. -/
theorem utf8Size_of_endsName {c : Char} (h : endsName c = true) (hc : isBlank c = false) :
    c.utf8Size = 1 := by
  simp only [endsName, hc, Bool.false_or, Bool.or_eq_true, beq_iff_eq] at h
  rcases h with (rfl | rfl) | rfl <;> rfl

/-- What is read where an equals sign stands behind the name. -/
theorem readAttr_valued (hname : s.takeWhile (!endsName ·) ≠ [])
    (h : Text.trimStart (s.dropWhile (!endsName ·)) = '=' :: r) : readAttr s =
      (readAttrValue (lowered (s.takeWhile (!endsName ·))) (Text.trimStart r)).map
        fun (value, r) => (some (lowered (s.takeWhile (!endsName ·)), value), r) := by
  simp only [readAttr, List.isEmpty_iff, if_neg hname, h]

/-- What is read where none does. -/
theorem readAttr_bare (hname : s.takeWhile (!endsName ·) ≠ [])
    (h : ∀ r, Text.trimStart (s.dropWhile (!endsName ·)) ≠ '=' :: r) : readAttr s =
      .ok (some (lowered (s.takeWhile (!endsName ·)), ""),
        Text.trimStart (s.dropWhile (!endsName ·))) := by
  simp only [readAttr, List.isEmpty_iff, if_neg hname]

/-- An attribute is scanned as it is read. -/
theorem scanAttr_place {c : Char} {t : List Char} (hc : isBlank c = false)
    (h : c :: t <:+ input) : scanAttr input (place input (c :: t)) =
      some ((readAttr (c :: t)).map fun (attr, r) => (attr, place input r)) := by
  rw [scanAttr, fromByte?_place h, Option.bind_eq_bind, Option.bind_some]
  simp only [findByte?_getD, byteLength_eq_zero, uptoByte?_takeWhile, Option.bind_eq_bind,
    Option.bind_some, place_takeWhile h]
  by_cases hname : (c :: t).takeWhile (!endsName ·) = []
  · have hends : endsName c = true := by
      by_contra hn
      simp [hn] at hname
    have hread : readAttr (c :: t) = .ok (none, t) := by
      simp only [readAttr, hname, List.isEmpty_nil, if_true, List.tail_cons]
    have hplace := place_add_of_eq (a := [c]) (r := t) h rfl
    rw [byteLength_cons, byteLength_nil, utf8Size_of_endsName hends hc] at hplace
    rw [if_pos hname, hread, hplace]
    rfl
  · have hbehind := (List.dropWhile_suffix (!endsName ·) (l := c :: t)).trans h
    have hfront := (trimStart_suffix _).trans hbehind
    rw [if_neg hname, scanBlanks_place hbehind, Option.bind_some, fromByte?_place hfront,
      Option.bind_some]
    split
    · next rest heq =>
      rw [readAttr_valued hname heq]
      rw [heq] at hfront ⊢
      have hrest : rest <:+ input := (List.suffix_cons '=' rest).trans hfront
      have hplace := place_add_of_eq (a := ['=']) (r := rest) hfront rfl
      rw [byteLength_cons, byteLength_nil] at hplace
      have hsize : ('=').utf8Size + 0 = 1 := rfl
      rw [hsize] at hplace
      rw [hplace, scanBlanks_place hrest, Option.bind_some,
        scanValue_place _ ((trimStart_suffix rest).trans hrest), Option.bind_some]
      generalize readAttrValue _ (trimStart rest) = value
      cases value <;> rfl
    · next hne =>
      rw [readAttr_bare hname hne]
      rfl

/-- What is left behind a value is the end of the text. -/
theorem suffix_readAttrValue {name value : String} (h : readAttrValue name s = .ok (value, r)) :
    r <:+ s := by
  cases s with
  | nil =>
    cases h
    exact List.suffix_rfl
  | cons c s =>
    rw [readAttrValue.eq_def] at h
    dsimp only at h
    split at h
    · split at h
      · next hbreak =>
        cases h
        rw [eq_append_of_breakAt hbreak]
        exact ((List.suffix_cons c r).trans (List.suffix_append _ _)).trans (List.suffix_cons c _)
      · cases h
    · cases h
      exact List.dropWhile_suffix _

/-- What is left behind an attribute is the end of the text. -/
theorem suffix_readAttr {attr : Option (String × String)} (h : readAttr s = .ok (attr, r)) :
    r <:+ s := by
  have hbehind := (trimStart_suffix _).trans (List.dropWhile_suffix (!endsName ·) (l := s))
  simp only [readAttr] at h
  split at h
  · cases h
    exact List.tail_suffix s
  · split at h
    · next rest heq =>
      rw [heq] at hbehind
      cases hv : readAttrValue (lowered (s.takeWhile (!endsName ·))) (trimStart rest) with
      | error fault =>
        rw [hv] at h
        cases h
      | ok p =>
        rw [hv] at h
        cases h
        have hrest := (suffix_readAttrValue hv).trans (trimStart_suffix rest)
        exact (hrest.trans (List.suffix_cons '=' rest)).trans hbehind
    · cases h
      exact hbehind

/-- What is left behind attributes is the end of the text. -/
theorem suffix_readAttrs {tag : String} {attrs attrs' : Attributes} {slash : Bool}
    (h : readAttrs tag attrs s = .ok (attrs', slash, r)) : r <:+ s := by
  have hfront := trimStart_suffix s
  fun_induction readAttrs tag attrs s with
  | case1 => cases h
  | case2 attrs s rest heq =>
    cases h
    rw [heq] at hfront
    exact (List.suffix_append ['/', '>'] r).trans hfront
  | case3 attrs s rest heq =>
    cases h
    rw [heq] at hfront
    exact (List.suffix_cons '>' r).trans hfront
  | case4 => cases h
  | case5 attrs s c rest _ _ heq rest' hr ih =>
    rw [heq] at hfront
    exact ((ih h (trimStart_suffix rest')).trans (suffix_readAttr hr)).trans hfront
  | case6 attrs s c rest _ _ heq name value rest' hr ih =>
    rw [heq] at hfront
    exact ((ih h (trimStart_suffix rest')).trans (suffix_readAttr hr)).trans hfront

/-- Behind blanks there is no blank. -/
theorem isBlank_of_trimStart {c : Char} {t : List Char} (h : trimStart s = c :: t) :
    isBlank c = false := by
  have := List.head?_dropWhile_not isBlank s
  rw [show s.dropWhile isBlank = c :: t from h] at this
  simpa using this

/-- Each turn moves on: an attribute takes a character at least. -/
theorem place_lt_of_readAttr {c : Char} {t : List Char} {attr : Option (String × String)}
    (h : s <:+ input) (heq : trimStart s = c :: t) (hr : readAttr (c :: t) = .ok (attr, r)) :
    place input s < byteLength input ∧ place input s < place input r := by
  have hfront := trimStart_suffix s
  have hlt := length_readAttr hr (List.cons_ne_nil c t)
  have hle := length_trimStart_le s
  rw [heq] at hfront hle
  refine ⟨(place_lt_iff h).2 ?_, place_lt_place h ((suffix_readAttr hr).trans hfront) (by omega)⟩
  rintro rfl
  cases heq

/-- What ends no tag starts an attribute. -/
theorem tagEnd?_eq_none {c : Char} {t : List Char} (h1 : ∀ u, c = '/' → t = '>' :: u → False)
    (h2 : c = '>' → False) : tagEnd? (c :: t) = none := by
  unfold tagEnd?
  split
  · next u heq =>
    cases heq
    exact (h1 u rfl rfl).elim
  · next u heq =>
    cases heq
    exact (h2 rfl).elim
  · rfl

/-- The loop ends where the text does. -/
theorem scanAttrs_nil {tag : String} {attrs : Attributes} (h : s <:+ input)
    (heq : trimStart s = []) :
    scanAttrs tag attrs input (place input s) = some (.error (.opening tag)) := by
  have hfront := (trimStart_suffix s).trans h
  rw [scanAttrs, scanBlanks_place h, Option.bind_some, fromByte?_place hfront, heq]
  rfl

/-- The loop ends where the tag does. -/
theorem scanAttrs_tagEnd {tag : String} {attrs : Attributes} {slash : Bool} {e : List Char}
    (h : s <:+ input) (heq : trimStart s = e ++ r)
    (hend : tagEnd? (e ++ r) = some (slash, byteLength e)) :
    scanAttrs tag attrs input (place input s) = some (.ok (attrs, slash, place input r)) := by
  have hfront := (trimStart_suffix s).trans h
  have hne : (e ++ r).isEmpty = false := by
    rw [Bool.eq_false_iff]
    intro hempty
    rw [List.isEmpty_iff.1 hempty] at hend
    cases hend
  rw [scanAttrs, scanBlanks_place h, Option.bind_some, fromByte?_place hfront, heq]
  rw [heq] at hfront
  simp only [Option.map_some, hne, Bool.false_eq_true, if_false, hend, place_add hfront]

/-- A turn of the loop that reads an attribute. -/
theorem scanAttrs_turn {tag : String} {attrs : Attributes} {c : Char} {t : List Char}
    (h : s <:+ input) (heq : trimStart s = c :: t) (hend : tagEnd? (c :: t) = none) :
    scanAttrs tag attrs input (place input s) =
      match readAttr (c :: t) with
      | .error fault => some (.error fault)
      | .ok (none, r) => scanAttrs tag attrs input (place input r)
      | .ok (some (name, value), r) => scanAttrs tag (attrs.put name value) input
          (place input r) := by
  have hfront := (trimStart_suffix s).trans h
  rw [scanAttrs, scanBlanks_place h, Option.bind_some, fromByte?_place hfront, Option.map_some, heq]
  rw [heq] at hfront
  simp only [List.isEmpty_cons, Bool.false_eq_true, if_false, hend,
    scanAttr_place (isBlank_of_trimStart heq) hfront]
  cases hr : readAttr (c :: t) with
  | error fault => rfl
  | ok p =>
    obtain ⟨attr, r⟩ := p
    simp only [Except.map, place_lt_of_readAttr h heq hr, and_self, if_true]
    cases attr <;> rfl

/-- Attributes are scanned as they are read. -/
theorem scanAttrs_place (tag : String) (attrs : Attributes) (h : s <:+ input) :
    scanAttrs tag attrs input (place input s) =
      some ((readAttrs tag attrs s).map fun (attrs, slash, r) =>
          (attrs, slash, place input r)) := by
  fun_induction readAttrs tag attrs s with
  | case1 attrs s heq => exact scanAttrs_nil h heq
  | case2 attrs s rest heq => exact scanAttrs_tagEnd (e := ['/', '>']) h heq rfl
  | case3 attrs s rest heq => exact scanAttrs_tagEnd (e := ['>']) h heq rfl
  | case4 attrs s c rest h1 h2 heq fault hr =>
    rw [scanAttrs_turn h heq (tagEnd?_eq_none h1 h2), hr]
    rfl
  | case5 attrs s c rest h1 h2 heq rest' hr ih =>
    have hrest := ((suffix_readAttr hr).trans (heq ▸ trimStart_suffix s)).trans h
    rw [scanAttrs_turn h heq (tagEnd?_eq_none h1 h2), hr]
    exact ih hrest
  | case6 attrs s c rest h1 h2 heq name value rest' hr ih =>
    have hrest := ((suffix_readAttr hr).trans (heq ▸ trimStart_suffix s)).trans h
    rw [scanAttrs_turn h heq (tagEnd?_eq_none h1 h2), hr]
    exact ih hrest

/-! ## Steps -/

/-- What a step reads, with the place of what is left. -/
def Step.placed (input : List Char) (step : Step) : Scan :=
  (step.tokens, step.next.map (place input))

/-- A comment is scanned as it is read. -/
theorem scanComment_place (h : '<' :: '!' :: '-' :: '-' :: s <:+ input) :
    scanComment input (place input ('<' :: '!' :: '-' :: '-' :: s)) =
      some ((readComment s).placed input) := by
  have hplace := place_add_of_eq (a := ['<', '!', '-', '-']) (r := s) h rfl
  have hsize : byteLength ['<', '!', '-', '-'] = 4 := rfl
  rw [hsize] at hplace
  have hs : s <:+ input := (List.suffix_append ['<', '!', '-', '-'] s).trans h
  rw [scanComment, hplace, fromByte?_place hs, Option.bind_eq_bind, Option.bind_some, findText?_eq,
    readComment]
  cases hcut : cut? ['-', '-', '>'] s with
  | none => rfl
  | some p =>
    obtain ⟨content, r⟩ := p
    have hsplit := eq_append_of_cut? hcut
    have hend := place_add_of_eq (a := content ++ ['-', '-', '>']) (r := r) hs (by simp [hsplit])
    have hlength : byteLength (content ++ ['-', '-', '>']) = byteLength content + 3 :=
      byteLength_append content _
    rw [hlength] at hend
    simp only [Option.map_some, betweenBytes?_place hs]
    rw [Nat.add_assoc, hend, hsplit, List.append_assoc, uptoByte?_append]
    rfl

/-- Two characters of one byte in front do not matter for what is cut off behind them. -/
theorem betweenBytes?_two {c d : Char} (hc : c.utf8Size = 1) (hd : d.utf8Size = 1) (n : Nat)
    (s : List Char) : betweenBytes? 2 (2 + n) (c :: d :: s) = uptoByte? n s := by
  rw [betweenBytes?, if_pos (by omega), fromByte?_cons hc, fromByte?_cons hd, fromByte?_zero,
    Option.bind_some, Nat.add_sub_cancel_left]

/-- Breaking behind two other characters. -/
theorem breakAt_two {a c d : Char} (hc : c ≠ a) (hd : d ≠ a) (s : List Char) :
    breakAt a (c :: d :: s) = (breakAt a s).map fun (before, r) => (c :: d :: before, r) := by
  rw [breakAt, if_neg hc, breakAt, if_neg hd, Option.map_map]
  rfl

/-- A construct behind two characters that goes up to a closing bracket. -/
theorem place_of_breakAt_two {c d : Char} {name : List Char} (hc : c.utf8Size = 1)
    (hd : d.utf8Size = 1) (h : c :: d :: s <:+ input) (hbreak : breakAt '>' s = some (name, r)) :
    place input (c :: d :: s) + (byteLength (c :: d :: name) + 1) = place input r := by
  have hplace := place_add_of_eq (a := c :: d :: (name ++ ['>'])) (r := r) h
    (by simp [eq_append_of_breakAt hbreak])
  rw [← hplace]
  simp only [byteLength_cons, byteLength_append, byteLength_nil, hc, hd]
  rfl

/-- A closing tag is scanned as it is read. -/
theorem scanClosing_place (h : '<' :: '/' :: s <:+ input) :
    scanClosing input (place input ('<' :: '/' :: s)) = some ((readClosing s).placed input) := by
  rw [scanClosing, fromByte?_place h, Option.bind_eq_bind, Option.bind_some, findByte?_eq_breakAt,
    breakAt_two (by decide) (by decide), readClosing]
  cases hbreak : breakAt '>' s with
  | none => rfl
  | some p =>
    obtain ⟨name, r⟩ := p
    have hlength : byteLength ('<' :: '/' :: name) = 2 + byteLength name := by
      rw [byteLength_cons, byteLength_cons, ← Nat.add_assoc]
      rfl
    have hcut : betweenBytes? 2 (byteLength ('<' :: '/' :: name)) ('<' :: '/' :: s) =
        some name := by
      rw [hlength, betweenBytes?_two rfl rfl, eq_append_of_breakAt hbreak, uptoByte?_append]
    simp only [Option.map_some, hcut, Option.bind_some,
      place_of_breakAt_two rfl rfl h hbreak]
    rfl

/-- A declaration is scanned as it is read. -/
theorem scanDeclaration_place {c : Char} (hsize : c.utf8Size = 1) (hc : c ≠ '>')
    (h : '<' :: c :: s <:+ input) :
    scanDeclaration input (place input ('<' :: c :: s)) =
      some ((readDeclaration s).placed input) := by
  rw [scanDeclaration, fromByte?_place h, Option.bind_eq_bind, Option.bind_some,
    findByte?_eq_breakAt, breakAt_two (by decide) hc, readDeclaration]
  cases hbreak : breakAt '>' s with
  | none => rfl
  | some p =>
    simp only [Option.map_some, place_of_breakAt_two rfl hsize h hbreak]
    rfl

/-- A run of text is as long as its first character with all up to the next bracket. -/
theorem length_scanText (c : Char) (s : List Char) :
    ∃ behind, fromByte? (if (c :: s).head? = some '<' then 1 else 0) (c :: s) = some behind ∧
      ((findByte? (· == '<') behind).map
        ((if (c :: s).head? = some '<' then 1 else 0) + ·)).getD (byteLength (c :: s)) =
        byteLength (c :: s.takeWhile (· ≠ '<')) := by
  have htest : (fun a : Char => !(a == '<')) = fun a => decide (a ≠ '<') := by
    funext a
    rw [decide_not]
    rfl
  by_cases hc : c = '<'
  · subst hc
    refine ⟨s, by rw [List.head?_cons, if_pos rfl, fromByte?_cons rfl, fromByte?_zero], ?_⟩
    rw [List.head?_cons, if_pos rfl, byteLength_cons, byteLength_cons, ← htest]
    exact findByte?_map_getD _ 1 s
  · have hhead : ¬ (c :: s).head? = some '<' := by simpa using hc
    refine ⟨c :: s, by rw [if_neg hhead, fromByte?_zero], ?_⟩
    have hzero : (fun n : Nat => 0 + n) = id := funext Nat.zero_add
    rw [if_neg hhead, hzero, Option.map_id_apply, findByte?_getD, htest,
      List.takeWhile_cons_of_pos (by simpa using hc)]

/-- A text is scanned as it is read. -/
theorem scanText_place {c : Char} (h : c :: s <:+ input) :
    scanText input (place input (c :: s)) = some ((readText c s).placed input) := by
  obtain ⟨behind, hbehind, hlength⟩ := length_scanText c s
  have hsplit : c :: s = c :: s.takeWhile (· ≠ '<') ++ s.dropWhile (· ≠ '<') := by
    rw [List.cons_append, List.takeWhile_append_dropWhile]
  have hcut := uptoByte?_append (c :: s.takeWhile (· ≠ '<')) (s.dropWhile (· ≠ '<'))
  rw [← hsplit] at hcut
  simp only [scanText, fromByte?_place h, Option.bind_eq_bind, Option.bind_some, hbehind, hlength,
    hcut, place_add_of_eq h hsplit]
  rfl

/-- A closing tag is found in any letter case. -/
theorem findText?_lowerAscii (tag s : List Char) :
    findText? ('<' :: '/' :: tag) (lowerAscii s) =
      (breakAtClosing tag s).map fun (before, _) => byteLength before := by
  induction s with
  | nil => rfl
  | cons c s ih =>
    have htake : startsWith ('<' :: '/' :: tag) (lowerAscii ((c :: s).take (tag.length + 2))) =
        startsWith ('<' :: '/' :: tag) (lowerAscii (c :: s)) := by
      rw [Bool.eq_iff_iff, startsWith_iff, startsWith_iff, lowerAscii_take,
        List.prefix_take_iff]
      exact and_iff_left (Nat.le_refl _)
    rw [breakAtClosing, htake]
    show findText? _ (c.toLower :: lowerAscii s) = _
    rw [findText?, utf8Size_toLower, ih]
    split
    · next hstart =>
      rw [if_pos (show startsWith _ (lowerAscii (c :: s)) = true from hstart)]
      rfl
    · next hstart =>
      rw [if_neg (show ¬ startsWith _ (lowerAscii (c :: s)) = true from hstart)]
      cases breakAtClosing tag s <;> simp

/-- The content of a raw element is scanned as it is read. -/
theorem scanRaw_place (tag : String) (opening : Token) (h : s <:+ input) :
    scanRaw tag opening input (place input s) = some (match breakAtClosing tag.toList s with
      | none => ([opening], .error (.raw tag))
      | some (content, r) => ([opening, .raw content], .ok (place input r))) := by
  rw [scanRaw, fromByte?_place h, Option.bind_eq_bind, Option.bind_some, findText?_lowerAscii]
  cases hbreak : breakAtClosing tag.toList s with
  | none => rfl
  | some p =>
    obtain ⟨content, r⟩ := p
    have hsplit := append_of_breakAtClosing hbreak
    have hcut : uptoByte? (byteLength content) s = some content := by
      rw [hsplit, uptoByte?_append]
    simp only [Option.map_some, hcut, Option.bind_some, place_add_of_eq h hsplit]
    rfl

/-- An opening tag is scanned as it is read. -/
theorem scanOpening_place (h : '<' :: s <:+ input) :
    scanOpening input (place input ('<' :: s)) = some ((readOpening s).placed input) := by
  have hs : s <:+ input := (List.suffix_cons '<' s).trans h
  have hplace := place_add_of_eq (a := ['<']) (r := s) h rfl
  rw [show byteLength ['<'] = 1 from rfl] at hplace
  rw [scanOpening, hplace, fromByte?_place hs, Option.bind_eq_bind, Option.bind_some, readOpening]
  cases hall : s.all (!endsTag ·) with
  | true =>
    have hany : s.any endsTag = false := by simpa [List.all_eq_true] using hall
    rw [findByte?_of_not_any hany]
    rfl
  | false =>
    have hany : s.any endsTag = true := by simpa [List.all_eq_true] using hall
    have hbehind := (List.dropWhile_suffix (!endsTag ·) (l := s)).trans hs
    simp only [findByte?_of_any hany, uptoByte?_takeWhile, Option.bind_eq_bind, Option.bind_some,
      place_takeWhile hs, scanAttrs_place _ _ hbehind, Bool.false_eq_true, if_false]
    cases hattrs : readAttrs (lowered (s.takeWhile (!endsTag ·))) [] (s.dropWhile (!endsTag ·)) with
    | error fault => rfl
    | ok p =>
      obtain ⟨attrs, slash, r⟩ := p
      have hr := (suffix_readAttrs hattrs).trans hbehind
      simp only [Except.map]
      split
      · rw [scanRaw_place _ _ hr]
        cases breakAtClosing (lowered (s.takeWhile (!endsTag ·))).toList r <;> rfl
      · rfl

/-- Each construct is scanned as it is read. -/
theorem scanStep_place {c : Char} (h : c :: s <:+ input) :
    scanStep input (place input (c :: s)) = some ((readStep c s).placed input) := by
  have hfront : fromByte? (place input (c :: s)) input = some (c :: s) := fromByte?_place h
  unfold readStep
  split
  · rw [scanStep, hfront]
    exact scanComment_place h
  · rw [scanStep, hfront]
    exact scanClosing_place h
  · next hnot =>
    rw [scanStep, hfront, Option.bind_eq_bind, Option.bind_some]
    split
    · next t heq =>
      cases heq
      exact (hnot t rfl).elim
    · next heq => cases heq
    · exact scanDeclaration_place rfl (by decide) h
    · next heq => cases heq
    · next hne _ heq =>
      cases heq
      exact (hne rfl).elim
    · next hne _ _ => exact (hne _ rfl).elim
  · rw [scanStep, hfront]
    exact scanDeclaration_place rfl (by decide) h
  · have hopening := scanOpening_place h
    have htext := scanText_place h
    rw [scanStep, hfront, Option.bind_eq_bind, Option.bind_some]
    split <;> simp_all
    split <;> simp_all
  · have htext := scanText_place h
    rw [scanStep, hfront, Option.bind_eq_bind, Option.bind_some]
    split <;> simp_all

/-- What is left behind an opening tag is the end of the text. -/
theorem suffix_readOpening (h : (readOpening s).next = .ok r) : r <:+ s := by
  rw [readOpening] at h
  split at h
  · cases h
  dsimp only at h
  split at h
  · cases h
  next hattrs =>
  have hrest := (suffix_readAttrs hattrs).trans (List.dropWhile_suffix _)
  split at h
  · split at h
    · cases h
    · next hbreak =>
      cases h
      exact (append_of_breakAtClosing hbreak ▸ List.suffix_append _ _).trans hrest
  · cases h
    exact hrest

private theorem suffix_readText {c : Char} (h : (readText c s).next = .ok r) : r <:+ c :: s := by
  cases h
  exact (List.dropWhile_suffix _).trans (List.suffix_cons c s)

/-- What is left behind a step is an end of what was there. -/
theorem suffix_readStep {c : Char} (h : (readStep c s).next = .ok r) : r <:+ c :: s := by
  have hbreak {t name rest : List Char} (h : breakAt '>' t = some (name, rest)) : rest <:+ t :=
    eq_append_of_breakAt h ▸ (List.suffix_cons '>' rest).trans (List.suffix_append name _)
  unfold readStep at h
  split at h
  · next t =>
    rw [readComment] at h
    split at h
    · next hcut =>
      cases h
      refine List.IsSuffix.trans ?_ (List.suffix_append ['<', '!', '-', '-'] t)
      exact eq_append_of_cut? hcut ▸ List.suffix_append _ _
    · cases h
  · next t =>
    rw [readClosing] at h
    split at h
    · next hb =>
      cases h
      exact (hbreak hb).trans (List.suffix_append ['<', '/'] t)
    · cases h
  · next t _ =>
    rw [readDeclaration] at h
    split at h
    · next hb =>
      cases h
      exact (hbreak hb).trans (List.suffix_append ['<', '!'] t)
    · cases h
  · next t =>
    rw [readDeclaration] at h
    split at h
    · next hb =>
      cases h
      exact (hbreak hb).trans (List.suffix_append ['<', '?'] t)
    · cases h
  · split at h
    · exact (suffix_readOpening h).trans (List.suffix_cons '<' _)
    · exact suffix_readText h
  · exact suffix_readText h

/-- Reading by positions reads what is read character by character, and never stops. -/
theorem scan_place (h : s <:+ input) : scan input (place input s) =
    some ((tokens s).1, (tokens s).2.map fun (fault, r) => (fault, place input r)) := by
  induction hn : s.length using Nat.strong_induction_on generalizing s with
  | _ n ih =>
    cases s with
    | nil =>
      have hend : byteLength input ≤ place input [] := Nat.le_refl _
      rw [scan, if_pos hend, tokens]
      rfl
    | cons c s =>
      have hinside := (place_lt_iff h).2 (List.cons_ne_nil c s)
      rw [scan, if_neg (Nat.not_le.2 hinside), scanStep_place h, Step.placed]
      cases hstep : (readStep c s).next with
      | error fault =>
        rw [tokens_fault hstep]
        rfl
      | ok rest =>
        have hle := length_readStep hstep
        have hrest := suffix_readStep hstep
        have hlt : rest.length < (c :: s).length := Nat.lt_succ_of_le hle
        have hread := ih rest.length (hn ▸ hlt) (hrest.trans h) rfl
        rw [tokens_next hstep]
        simp only [Except.map, if_pos (place_lt_place h hrest hlt), hread, Option.map_some]

end Rivulet.Markup
