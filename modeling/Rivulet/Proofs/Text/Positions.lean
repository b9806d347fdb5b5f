import Mathlib.Data.List.Infix
import Mathlib.Data.List.TakeWhile
import Rivulet.Proofs.Text.Letters
import Rivulet.Proofs.Text.Replacing
import Rivulet.Text.Search

/-!
# Positions in a text, in bytes

A text is kept in bytes, and a position that counts bytes may fall inside a character or behind the
end. Cutting a text at a position is therefore partial. What a search finds is a position between
two characters, so it can always be cut at.
-/

namespace Rivulet.Text

variable {p s t r input : List Char}

/-- The empty text has no bytes. -/
@[simp] theorem byteLength_nil : byteLength [] = 0 := rfl

private theorem foldl_utf8Size (n : Nat) (s : List Char) :
    s.foldl (fun n c => n + c.utf8Size) n = n + byteLength s := by
  rw [byteLength]
  induction s generalizing n with
  | nil => rfl
  | cons c s ih => rw [List.foldl_cons, List.foldl_cons, ih, ih (0 + c.utf8Size)]; omega

/-- The bytes of a text are those of its first character and of the others. -/
@[simp] theorem byteLength_cons (c : Char) (s : List Char) :
    byteLength (c :: s) = c.utf8Size + byteLength s := by
  rw [byteLength, List.foldl_cons, foldl_utf8Size, Nat.zero_add]

/-- The bytes of two texts add up. -/
@[simp] theorem byteLength_append (s t : List Char) :
    byteLength (s ++ t) = byteLength s + byteLength t := by
  induction s with
  | nil => simp
  | cons c s ih => simp only [List.cons_append, byteLength_cons, ih, Nat.add_assoc]

/-- A text that is not empty has bytes. -/
theorem byteLength_pos (h : s ≠ []) : 0 < byteLength s := by
  obtain ⟨c, s, rfl⟩ := List.exists_cons_of_ne_nil h
  have := c.utf8Size_pos
  rw [byteLength_cons]
  omega

/-- Only the empty text has no bytes. -/
theorem byteLength_eq_zero : byteLength s = 0 ↔ s = [] := by
  constructor
  · intro h
    by_contra hne
    exact absurd h (Nat.ne_of_gt (byteLength_pos hne))
  · rintro rfl
    rfl

/-- A later end of a text is a shorter one. -/
theorem byteLength_lt_of_suffix (h : r <:+ s) (hlt : r.length < s.length) :
    byteLength r < byteLength s := by
  obtain ⟨a, rfl⟩ := h
  have ha : a ≠ [] := by
    rintro rfl
    exact absurd hlt (Nat.lt_irrefl _)
  have := byteLength_pos ha
  rw [byteLength_append]
  omega

/-- What stands behind a position, if a character ends there. -/
def fromByte? : Nat → List Char → Option (List Char)
  | 0, s => some s
  | _ + 1, [] => none
  | n + 1, c :: s => if c.utf8Size ≤ n + 1 then fromByte? (n + 1 - c.utf8Size) s else none

/-- What stands in front of a position, if a character ends there. -/
def uptoByte? : Nat → List Char → Option (List Char)
  | 0, _ => some []
  | _ + 1, [] => none
  | n + 1, c :: s =>
    if c.utf8Size ≤ n + 1 then (uptoByte? (n + 1 - c.utf8Size) s).map (c :: ·) else none

/-- What stands between two positions, if they are in order and characters end there. -/
def betweenBytes? (m n : Nat) (s : List Char) : Option (List Char) :=
  if m ≤ n then (fromByte? m s).bind (uptoByte? (n - m)) else none

/-- From the start on there is the whole text. -/
@[simp] theorem fromByte?_zero (s : List Char) : fromByte? 0 s = some s := by simp [fromByte?]

/-- A character of one byte can be passed over. -/
theorem fromByte?_cons {c : Char} (h : c.utf8Size = 1) (n : Nat) (s : List Char) :
    fromByte? (n + 1) (c :: s) = fromByte? n s := by
  rw [fromByte?, h, if_pos (by omega), Nat.add_sub_cancel]

/-- The position behind the first characters of a text can be cut at. -/
@[simp] theorem fromByte?_append (s t : List Char) :
    fromByte? (byteLength s) (s ++ t) = some t := by
  induction s with
  | nil => simp
  | cons c s ih =>
    obtain ⟨n, hn⟩ := Nat.exists_eq_add_one.2 c.utf8Size_pos
    have hsum : byteLength (c :: s) = n + byteLength s + 1 := by rw [byteLength_cons]; omega
    have hrest : n + byteLength s + 1 - c.utf8Size = byteLength s := by omega
    rw [List.cons_append, hsum, fromByte?, if_pos (by omega), hrest, ih]

/-- Up to where the second text starts there is the first. -/
@[simp] theorem uptoByte?_append (s t : List Char) :
    uptoByte? (byteLength s) (s ++ t) = some s := by
  induction s with
  | nil => simp [uptoByte?]
  | cons c s ih =>
    obtain ⟨n, hn⟩ := Nat.exists_eq_add_one.2 c.utf8Size_pos
    have hsum : byteLength (c :: s) = n + byteLength s + 1 := by rw [byteLength_cons]; omega
    have hrest : n + byteLength s + 1 - c.utf8Size = byteLength s := by omega
    rw [List.cons_append, hsum, uptoByte?, if_pos (by omega), hrest, ih]
    rfl

/-- The characters in front that pass a test can be cut off. -/
theorem uptoByte?_takeWhile (f : Char → Bool) (s : List Char) :
    uptoByte? (byteLength (s.takeWhile f)) s = some (s.takeWhile f) := by
  have := uptoByte?_append (s.takeWhile f) (s.dropWhile f)
  rwa [List.takeWhile_append_dropWhile] at this

/-- What stands behind a character of one byte can be cut off. -/
theorem betweenBytes?_cons {c : Char} (h : c.utf8Size = 1) (n : Nat) (s : List Char) :
    betweenBytes? 1 (1 + n) (c :: s) = uptoByte? n s := by
  rw [betweenBytes?, if_pos (by omega), fromByte?_cons h, fromByte?_zero, Option.bind_some,
    Nat.add_sub_cancel_left]

/-- Cutting a text inside a character is refused. -/
example : fromByte? 1 ['é', 'a'] = none ∧ fromByte? 2 ['é', 'a'] = some ['a'] := by decide

/-- The position of the first character that fulfils a test. -/
def findByte? (p : Char → Bool) : List Char → Option Nat
  | [] => none
  | c :: s => if p c then some 0 else (findByte? p s).map (c.utf8Size + ·)

/-- The position of the first occurrence of a pattern. -/
def findText? (p : List Char) : List Char → Option Nat
  | [] => if p.isEmpty then some 0 else none
  | c :: s => if startsWith p (c :: s) then some 0 else (findText? p s).map (c.utf8Size + ·)

/-- A search finds the end of the characters in front that fail the test. -/
theorem findByte?_of_any {p : Char → Bool} (h : s.any p = true) :
    findByte? p s = some (byteLength (s.takeWhile (!p ·))) := by
  induction s with
  | nil => simp at h
  | cons c s ih =>
    by_cases hc : p c = true
    · simp [findByte?, hc]
    · have hs : s.any p = true := by simpa [hc] using h
      simp [findByte?, hc, ih hs]

/-- What does not occur is not found. -/
theorem findByte?_of_not_any {p : Char → Bool} (h : s.any p = false) : findByte? p s = none := by
  induction s with
  | nil => rfl
  | cons c s ih =>
    obtain ⟨hc, hs⟩ := Bool.or_eq_false_iff.1 h
    simp [findByte?, hc, ih hs]

/-- With the end of the text for what is not found, a search gives the part in front. -/
theorem findByte?_getD (p : Char → Bool) (s : List Char) :
    (findByte? p s).getD (byteLength s) = byteLength (s.takeWhile (!p ·)) := by
  cases h : s.any p with
  | true => rw [findByte?_of_any h, Option.getD_some]
  | false =>
    have hall : s.takeWhile (!p ·) = s := by
      rw [List.takeWhile_eq_self_iff]
      intro c hc
      simpa using List.any_eq_false.1 h c hc
    rw [findByte?_of_not_any h, Option.getD_none, hall]

/-- The same, when characters in front have been passed over. -/
theorem findByte?_map_getD (p : Char → Bool) (n : Nat) (s : List Char) :
    ((findByte? p s).map (n + ·)).getD (n + byteLength s) =
      n + byteLength (s.takeWhile (!p ·)) := by
  rw [← findByte?_getD]
  cases findByte? p s <;> rfl

/-- A search for a pattern finds what a cut at the pattern leaves in front. -/
theorem findText?_eq (p s : List Char) :
    findText? p s = (cut? p s).map fun (before, _) => byteLength before := by
  induction s with
  | nil => cases p <;> simp [findText?, cut?, stripStart?]
  | cons c s ih =>
    rw [findText?, cut?]
    cases hstart : stripStart? p (c :: s) with
    | some r => simp [startsWith, hstart]
    | none =>
      rw [ih]
      cases cut? p s <;> simp [startsWith, hstart]

/-- The position at which an end of a text starts. -/
def place (input s : List Char) : Nat := byteLength input - byteLength s

/-- A text starts at its start. -/
@[simp] theorem place_self (s : List Char) : place s s = 0 := Nat.sub_self _

/-- The end of a text has no more bytes than the text. -/
theorem byteLength_le_of_suffix (h : s <:+ input) : byteLength s ≤ byteLength input := by
  obtain ⟨a, rfl⟩ := h
  rw [byteLength_append]
  omega

/-- Going on from one place to a later one. -/
theorem place_add (h : s ++ t <:+ input) :
    place input (s ++ t) + byteLength s = place input t := by
  have := byteLength_le_of_suffix h
  rw [byteLength_append] at this
  rw [place, place, byteLength_append]
  omega

/-- What is left behind the front of an end starts at the place behind that front. -/
theorem place_add_of_eq {a : List Char} (h : s <:+ input) (hs : s = a ++ r) :
    place input s + byteLength a = place input r := by
  subst hs
  exact place_add h

/-- What is passed over is what lies between two places. -/
theorem place_takeWhile (h : s <:+ input) (f : Char → Bool) :
    place input s + byteLength (s.takeWhile f) = place input (s.dropWhile f) :=
  place_add_of_eq h List.takeWhile_append_dropWhile.symm

/-- What stands behind the place of an end is that end. -/
theorem fromByte?_place (h : s <:+ input) : fromByte? (place input s) input = some s := by
  obtain ⟨a, rfl⟩ := h
  have : place (a ++ s) s = byteLength a := by
    rw [place, byteLength_append]
    omega
  rw [this, fromByte?_append]

/-- What stands at the front of an end is cut off at the place of that end. -/
theorem betweenBytes?_place (h : s <:+ input) (n : Nat) :
    betweenBytes? (place input s) (place input s + n) input = uptoByte? n s := by
  rw [betweenBytes?, if_pos (Nat.le_add_right _ _), fromByte?_place h, Option.bind_some,
    Nat.add_sub_cancel_left]

/-- An end that is not empty starts inside of the text. -/
theorem place_lt_iff (h : s <:+ input) : place input s < byteLength input ↔ s ≠ [] := by
  have hle := byteLength_le_of_suffix h
  constructor
  · rintro hlt rfl
    simp [place] at hlt
  · intro hne
    have := byteLength_pos hne
    rw [place]
    omega

/-- A later end starts at a later place. -/
theorem place_lt_place (h : s <:+ input) (hr : r <:+ s) (hlt : r.length < s.length) :
    place input s < place input r := by
  have h1 := byteLength_le_of_suffix h
  have h2 := byteLength_lt_of_suffix hr hlt
  rw [place, place]
  omega

end Rivulet.Text
