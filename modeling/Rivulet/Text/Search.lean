/-!
# Searching, replacing and trimming

Literal search over lists of characters: a fixed beginning, the first occurrence of a
pattern, and the replacement of every occurrence from left to right. The characters that
separate words are the 25 code points with the Unicode property White_Space.
-/

namespace Rivulet.Text

/-- What follows the given beginning, if the text starts with it. -/
def stripStart? : List Char → List Char → Option (List Char)
  | [], s => some s
  | _ :: _, [] => none
  | p :: ps, c :: cs => if p = c then stripStart? ps cs else none

/-- Stripping a beginning splits the text there. -/
theorem eq_append_of_stripStart? {p s r : List Char} (h : stripStart? p s = some r) :
    s = p ++ r := by
  induction p generalizing s with
  | nil => simpa [stripStart?] using h
  | cons a p ih =>
    cases s with
    | nil => simp [stripStart?] at h
    | cons c s =>
      simp only [stripStart?] at h
      split at h
      · next heq => simp [heq, ih h]
      · cases h

/-- A text that was put together from a beginning and a rest comes apart there. -/
@[simp] theorem stripStart?_append (p r : List Char) : stripStart? p (p ++ r) = some r := by
  induction p with
  | nil => rfl
  | cons a p ih => simp [stripStart?, ih]

/-- Whether the text starts with the given beginning. -/
def startsWith (p s : List Char) : Bool := (stripStart? p s).isSome

/-- The parts before and after the first occurrence of a pattern. -/
def cut? (p : List Char) : List Char → Option (List Char × List Char)
  | [] => (stripStart? p []).map ([], ·)
  | c :: cs =>
    match stripStart? p (c :: cs) with
    | some r => some ([], r)
    | none => (cut? p cs).map fun (before, after) => (c :: before, after)

/-- A cut loses nothing but the pattern. -/
theorem eq_append_of_cut? {p s a b : List Char} (h : cut? p s = some (a, b)) :
    s = a ++ p ++ b := by
  induction s generalizing a b with
  | nil =>
    obtain ⟨r, hr, he⟩ := Option.map_eq_some_iff.1 h
    obtain ⟨rfl, rfl⟩ := Prod.mk.inj he
    simpa using eq_append_of_stripStart? hr
  | cons c s ih =>
    simp only [cut?] at h
    split at h
    · next r hr =>
      obtain ⟨rfl, rfl⟩ := Prod.mk.inj (Option.some.inj h)
      simpa using eq_append_of_stripStart? hr
    · obtain ⟨⟨x, y⟩, hxy, he⟩ := Option.map_eq_some_iff.1 h
      obtain ⟨rfl, rfl⟩ := Prod.mk.inj he
      simp [ih hxy]

/-- Replacement of a pattern, with the number of characters of the last match still to pass. -/
def replaceFrom (p new : List Char) : Nat → List Char → List Char
  | _, [] => []
  | n + 1, _ :: cs => replaceFrom p new n cs
  | 0, c :: cs =>
    if startsWith p (c :: cs) then new ++ replaceFrom p new (p.length - 1) cs
    else c :: replaceFrom p new 0 cs

/-- Replaces every occurrence of a pattern, from left to right and without looking at what
was put in. -/
def replaceAll (p new s : List Char) : List Char := replaceFrom p new 0 s

/-- The number of bytes of the UTF-8 form. -/
def byteLength (s : List Char) : Nat := s.foldl (fun n c => n + c.utf8Size) 0

/-- The letters A to Z in lower case, all else unchanged. -/
def lowerAscii (s : List Char) : List Char := s.map Char.toLower

/-- A character with the Unicode property White_Space. -/
def isBlank (c : Char) : Bool :=
  c == ' ' || ('\t' ≤ c && c ≤ '\r') || c == '\u0085' || c == '\u00a0' || c == '\u1680' ||
    ('\u2000' ≤ c && c ≤ '\u200a') || c == '\u2028' || c == '\u2029' || c == '\u202f' ||
    c == '\u205f' || c == '\u3000'

/-- The text without the blanks it starts with. -/
def trimStart (s : List Char) : List Char := s.dropWhile isBlank

/-- The text without the blanks it ends with. -/
def trimEnd (s : List Char) : List Char := (s.reverse.dropWhile isBlank).reverse

/-- The text without the blanks at either end. -/
def trim (s : List Char) : List Char := trimEnd (trimStart s)

/-- A text that starts with no blank keeps its beginning. -/
theorem trimStart_of_head {c : Char} {s : List Char} (h : isBlank c = false) :
    trimStart (c :: s) = c :: s := by
  simp [trimStart, h]

end Rivulet.Text
