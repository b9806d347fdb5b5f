import Rivulet.Markup.Printer
import Rivulet.Text.Search

/-!
# Tokens of markup

Markup is read from left to right, one token at a time. Nearly every text has a reading;
only a construct that the text ends within has none, and the fault is then put where the
construct starts. Every step takes at least one character, so reading ends.
-/

namespace Rivulet.Markup

/-- A piece of markup. -/
inductive Token where
  /-- A run of text, its references restored. -/
  | text (content : List Char)
  /-- A comment. -/
  | comment (content : List Char)
  /-- An opening tag; `alone` when no content follows. -/
  | opening (tag : String) (attrs : Attributes) (alone : Bool)
  /-- The content of an element that holds plain text only, with the element's end. -/
  | raw (content : List Char)
  /-- A closing tag. -/
  | closing (tag : String)
  deriving DecidableEq, Repr

/-- A construct that the text ends within. -/
inductive Fault where
  /-- A comment. -/
  | comment
  /-- A declaration or an instruction. -/
  | declaration
  /-- A closing tag. -/
  | closing
  /-- The name of an opening tag. -/
  | name
  /-- An opening tag. -/
  | opening (tag : String)
  /-- The quoted value of an attribute. -/
  | value (attr : String)
  /-- The content of an element that holds plain text only. -/
  | raw (tag : String)
  deriving DecidableEq, Repr

/-- What a fault says. -/
def Fault.message : Fault → String
  | comment => "unterminated comment"
  | declaration => "unterminated declaration"
  | closing => "unterminated closing tag"
  | name => "unterminated tag"
  | opening tag => "unterminated <" ++ tag ++ "> tag"
  | value attr => "unterminated value for attribute " ++ attr
  | raw tag => "unterminated <" ++ tag ++ "> element"

/-- The text up to a character and the text behind it. -/
def breakAt (c : Char) : List Char → Option (List Char × List Char)
  | [] => none
  | a :: s => if a = c then some ([], s) else (breakAt c s).map fun (before, rest) =>
      (a :: before, rest)

/-- Breaking at a character takes that character at least. -/
theorem length_breakAt {c : Char} {s a b : List Char} (h : breakAt c s = some (a, b)) :
    b.length < s.length := by
  induction s generalizing a with
  | nil => simp [breakAt] at h
  | cons x s ih =>
    simp only [breakAt] at h
    split at h
    · simp_all
    · obtain ⟨⟨p, q⟩, hpq, he⟩ := Option.map_eq_some_iff.1 h
      obtain ⟨rfl, rfl⟩ := Prod.mk.inj he
      have := ih hpq
      simp only [List.length_cons] at *
      omega

/-- Leaving out what fulfils a test makes no list longer. -/
theorem length_dropWhile_le {α : Type} (p : α → Bool) (s : List α) :
    (s.dropWhile p).length ≤ s.length := by
  have := congrArg List.length (List.takeWhile_append_dropWhile (p := p) (l := s))
  rw [List.length_append] at this
  omega

/-- Trimming makes no text longer. -/
theorem length_trimStart_le (s : List Char) : (Text.trimStart s).length ≤ s.length :=
  length_dropWhile_le _ s

/-- Where the name of an attribute ends. -/
def endsName (c : Char) : Bool := Text.isBlank c || c == '=' || c == '>' || c == '/'

/-- Where the name of a tag ends. -/
def endsTag (c : Char) : Bool := Text.isBlank c || c == '>' || c == '/'

/-- Where a value without quotes ends. -/
def endsValue (c : Char) : Bool := Text.isBlank c || c == '>'

/-- A text in lower case, as far as ASCII goes. -/
def lowered (s : List Char) : String := String.ofList (Text.lowerAscii s)

/-- The value behind an equals sign, and what follows it. -/
def readAttrValue (name : String) (s : List Char) : Except Fault (String × List Char) :=
  let bare (s : List Char) : String × List Char :=
    (String.ofList (unescape (s.takeWhile (!endsValue ·))), s.dropWhile (!endsValue ·))
  match s with
  | c :: rest =>
    if c == '"' || c == '\'' then
      match breakAt c rest with
      | some (content, rest) => .ok (String.ofList (unescape content), rest)
      | none => .error (.value name)
    else .ok (bare (c :: rest))
  | [] => .ok (bare [])

/-- Reading a value goes no way back. -/
theorem length_readAttrValue {name v : String} {s r : List Char}
    (h : readAttrValue name s = .ok (v, r)) : r.length ≤ s.length := by
  cases s with
  | nil =>
    simp only [readAttrValue, Except.ok.injEq, Prod.mk.injEq] at h
    simp [← h.2]
  | cons c s =>
    simp only [readAttrValue] at h
    split at h
    · split at h
      · next hb =>
        have := length_breakAt hb
        simp_all
        omega
      · cases h
    · simp only [Except.ok.injEq, Prod.mk.injEq] at h
      rw [← h.2]
      exact length_dropWhile_le _ _

/-- An attribute at the front of a text that starts with no blank. A character that can not
start a name is passed over. -/
def readAttr (s : List Char) : Except Fault (Option (String × String) × List Char) :=
  let name := s.takeWhile (!endsName ·)
  if name.isEmpty then .ok (none, s.tail)
  else
    match Text.trimStart (s.dropWhile (!endsName ·)) with
    | '=' :: rest =>
      (readAttrValue (lowered name) (Text.trimStart rest)).map fun (value, rest) =>
        (some (lowered name, value), rest)
    | rest => .ok (some (lowered name, ""), rest)

/-- Reading an attribute takes at least one character. -/
theorem length_readAttr {a : Option (String × String)} {s r : List Char}
    (h : readAttr s = .ok (a, r)) (hs : s ≠ []) : r.length < s.length := by
  have hpos : 0 < s.length := List.length_pos_iff.2 hs
  have hsplit : (s.takeWhile (!endsName ·)).length + (s.dropWhile (!endsName ·)).length
      = s.length := by
    rw [← List.length_append, List.takeWhile_append_dropWhile]
  have htrim := length_trimStart_le (s.dropWhile (!endsName ·))
  simp only [readAttr] at h
  split at h
  · simp only [Except.ok.injEq, Prod.mk.injEq] at h
    rw [← h.2, List.length_tail]
    omega
  · next hname =>
    have hname : 0 < (s.takeWhile (!endsName ·)).length := by
      rw [List.length_pos_iff]
      simpa using hname
    split at h
    · next rest heq =>
      have hlen : rest.length < s.length := by
        have := congrArg List.length heq
        simp only [List.length_cons] at this
        omega
      cases hv : readAttrValue (lowered (s.takeWhile (!endsName ·))) (Text.trimStart rest) with
      | error e => rw [hv] at h; cases h
      | ok p =>
        rw [hv] at h
        simp only [Except.map, Except.ok.injEq, Prod.mk.injEq] at h
        have := length_readAttrValue hv
        have := length_trimStart_le rest
        rw [← h.2]
        omega
    · simp only [Except.ok.injEq, Prod.mk.injEq] at h
      rw [← h.2]
      omega

/-- The attributes of an opening tag up to its closing bracket, and whether a slash stands in
front of it. -/
def readAttrs (tag : String) (attrs : Attributes) (s : List Char) :
    Except Fault (Attributes × Bool × List Char) :=
  match _h : Text.trimStart s with
  | [] => .error (.opening tag)
  | '/' :: '>' :: rest => .ok (attrs, true, rest)
  | '>' :: rest => .ok (attrs, false, rest)
  | c :: rest =>
    match _hr : readAttr (c :: rest) with
    | .error fault => .error fault
    | .ok (none, rest) => readAttrs tag attrs rest
    | .ok (some (name, value), rest) => readAttrs tag (attrs.put name value) rest
termination_by s.length
decreasing_by
  all_goals
    have := length_readAttr _hr (by simp)
    have := length_trimStart_le s
    rw [_h] at this
    omega

/-- Splits plain content off in front of the closing tag of its element. -/
def breakAtClosing (tag : List Char) : List Char → Option (List Char × List Char)
  | [] => none
  | c :: s =>
    if Text.startsWith ('<' :: '/' :: tag) (Text.lowerAscii ((c :: s).take (tag.length + 2))) then
      some ([], c :: s)
    else (breakAtClosing tag s).map fun (before, rest) => (c :: before, rest)

/-- What a step has read: its tokens, and the text behind them unless it found a fault. -/
structure Step where
  /-- The tokens of the step, in order. -/
  tokens : List Token
  /-- The text that is still to be read. -/
  next : Except Fault (List Char)

/-- A comment, behind its opening. -/
def readComment (s : List Char) : Step :=
  match Text.cut? ['-', '-', '>'] s with
  | some (content, rest) => ⟨[.comment content], .ok rest⟩
  | none => ⟨[], .error .comment⟩

/-- A closing tag, behind its slash. -/
def readClosing (s : List Char) : Step :=
  match breakAt '>' s with
  | some (name, rest) => ⟨[.closing (lowered (Text.trim name))], .ok rest⟩
  | none => ⟨[], .error .closing⟩

/-- A declaration or an instruction, behind its first two characters. It leaves no token. -/
def readDeclaration (s : List Char) : Step :=
  match breakAt '>' s with
  | some (_, rest) => ⟨[], .ok rest⟩
  | none => ⟨[], .error .declaration⟩

/-- An opening tag, behind its bracket, with the content of an element that holds plain text
only. -/
def readOpening (s : List Char) : Step :=
  if s.all (!endsTag ·) then ⟨[], .error .name⟩
  else
    let tag := lowered (s.takeWhile (!endsTag ·))
    match readAttrs tag [] (s.dropWhile (!endsTag ·)) with
    | .error fault => ⟨[], .error fault⟩
    | .ok (attrs, slash, rest) =>
      let opening := Token.opening tag attrs (slash || isVoid tag || isRaw tag)
      if isRaw tag && !slash then
        match breakAtClosing tag.toList rest with
        | none => ⟨[opening], .error (.raw tag)⟩
        | some (content, rest) => ⟨[opening, .raw content], .ok rest⟩
      else ⟨[opening], .ok rest⟩

/-- A run of text; its first character belongs to it whatever it is. -/
def readText (c : Char) (s : List Char) : Step :=
  ⟨[.text (unescape (c :: s.takeWhile (· ≠ '<')))], .ok (s.dropWhile (· ≠ '<'))⟩

/-- The step at the front of a text. -/
def readStep (c : Char) (s : List Char) : Step :=
  match c, s with
  | '<', '!' :: '-' :: '-' :: s => readComment s
  | '<', '/' :: s => readClosing s
  | '<', '!' :: s => readDeclaration s
  | '<', '?' :: s => readDeclaration s
  | '<', d :: s => if d.isAlpha then readOpening (d :: s) else readText '<' (d :: s)
  | c, s => readText c s

/-- Reading the attributes goes no way back. -/
theorem length_readAttrs {tag : String} {attrs attrs' : Attributes} {s r : List Char} {b : Bool}
    (h : readAttrs tag attrs s = .ok (attrs', b, r)) : r.length < s.length := by
  fun_induction readAttrs tag attrs s with
  | case1 => cases h
  | case2 attrs s rest heq =>
    have := length_trimStart_le s
    simp only [Except.ok.injEq, Prod.mk.injEq] at h
    obtain ⟨-, -, rfl⟩ := h
    rw [heq] at this
    simp only [List.length_cons] at this
    omega
  | case3 attrs s rest heq =>
    have := length_trimStart_le s
    simp only [Except.ok.injEq, Prod.mk.injEq] at h
    obtain ⟨-, -, rfl⟩ := h
    rw [heq] at this
    simp only [List.length_cons] at this
    omega
  | case4 => cases h
  | case5 attrs s c rest _ _ heq rest' hr ih =>
    have := length_readAttr hr (by simp)
    have := length_trimStart_le s
    rw [heq] at this
    have := ih h
    omega
  | case6 attrs s c rest _ _ heq name value rest' hr ih =>
    have := length_readAttr hr (by simp)
    have := length_trimStart_le s
    rw [heq] at this
    have := ih h
    omega

/-- Splitting plain content off loses nothing. -/
theorem append_of_breakAtClosing {tag s a b : List Char}
    (h : breakAtClosing tag s = some (a, b)) : s = a ++ b := by
  induction s generalizing a with
  | nil => simp [breakAtClosing] at h
  | cons c s ih =>
    simp only [breakAtClosing] at h
    split at h
    · obtain ⟨rfl, rfl⟩ := Prod.mk.inj (Option.some.inj h)
      rfl
    · obtain ⟨⟨x, y⟩, hxy, he⟩ := Option.map_eq_some_iff.1 h
      obtain ⟨rfl, rfl⟩ := Prod.mk.inj he
      simp [ih hxy]

/-- Reading an opening tag goes no way back. -/
theorem length_readOpening {s r : List Char} (h : (readOpening s).next = .ok r) :
    r.length ≤ s.length := by
  simp only [readOpening] at h
  split at h
  · cases h
  · split at h
    · cases h
    · next hr =>
      have h1 := length_readAttrs hr
      have h2 := length_dropWhile_le (!endsTag ·) s
      split at h
      · split at h
        · cases h
        · next hb =>
          have := congrArg List.length (append_of_breakAtClosing hb)
          simp only [List.length_append] at this
          simp only [Except.ok.injEq] at h
          subst h
          omega
      · simp only [Except.ok.injEq] at h
        subst h
        omega

/-- A run of text takes its first character at least. -/
theorem length_readText {c : Char} {s r : List Char} (h : (readText c s).next = .ok r) :
    r.length ≤ s.length := by
  simp only [readText, Except.ok.injEq] at h
  subst h
  exact length_dropWhile_le _ _

/-- A comment takes its end at least. -/
theorem length_readComment {s r : List Char} (h : (readComment s).next = .ok r) :
    r.length ≤ s.length := by
  simp only [readComment] at h
  split at h
  · next hc =>
    have := congrArg List.length (Text.eq_append_of_cut? hc)
    simp only [List.length_append] at this
    simp only [Except.ok.injEq] at h
    subst h
    omega
  · cases h

/-- A closing tag takes its bracket at least. -/
theorem length_readClosing {s r : List Char} (h : (readClosing s).next = .ok r) :
    r.length ≤ s.length := by
  simp only [readClosing] at h
  split at h
  · next hb =>
    have := length_breakAt hb
    simp only [Except.ok.injEq] at h
    subst h
    omega
  · cases h

/-- A declaration takes its bracket at least. -/
theorem length_readDeclaration {s r : List Char} (h : (readDeclaration s).next = .ok r) :
    r.length ≤ s.length := by
  simp only [readDeclaration] at h
  split at h
  · next hb =>
    have := length_breakAt hb
    simp only [Except.ok.injEq] at h
    subst h
    omega
  · cases h

/-- Every step takes at least one character. -/
theorem length_readStep {c : Char} {s r : List Char} (h : (readStep c s).next = .ok r) :
    r.length ≤ s.length := by
  unfold readStep at h
  split at h
  · have := length_readComment h; simp; omega
  · have := length_readClosing h; simp; omega
  · have := length_readDeclaration h; simp; omega
  · have := length_readDeclaration h; simp; omega
  · split at h
    · exact length_readOpening h
    · exact length_readText h
  · exact length_readText h

/-- The tokens of a text up to its end or to the first fault, which is given with the text
that starts with the faulty construct. -/
def tokens (s : List Char) : List Token × Option (Fault × List Char) :=
  match s with
  | [] => ([], none)
  | c :: s =>
    match _h : (readStep c s).next with
    | .error fault => ((readStep c s).tokens, some (fault, c :: s))
    | .ok rest =>
      let (more, fault) := tokens rest
      ((readStep c s).tokens ++ more, fault)
termination_by s.length
decreasing_by
  have := length_readStep _h
  simp
  omega

end Rivulet.Markup
