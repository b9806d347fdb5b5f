import Rivulet.Json.Parser
import Rivulet.Json.Printer
import Rivulet.Proofs.Text.Replacing

/-!
# What is written between quotes

A text between quotes spells characters, and one string can be spelled in many ways. The printer
writes one of them, and a reader finds the characters behind any. So a text may be rewritten after
it was printed, as long as nothing but the spelling of its strings changes: such rewritings are
respellings. Replacing one way of writing a few characters by another one is a respelling.
-/

namespace Rivulet.Json

/-- A text between quotes spells characters. -/
inductive Spells : List Char → List Char → Prop
  /-- Nothing is spelled by nothing. -/
  | nil : Spells [] []
  /-- A character stands for itself. -/
  | plain (c : Char) {t s : List Char} (hcontrol : ¬ c.toNat < 0x20) (hquote : c ≠ '"')
      (hslash : c ≠ '\\') (h : Spells t s) : Spells (c :: t) (c :: s)
  /-- A short escape stands for its character. -/
  | short {e c : Char} {t s : List Char} (he : shortEscape? e = some c) (h : Spells t s) :
      Spells ('\\' :: e :: t) (c :: s)
  /-- A long escape stands for the character of its unit, if that is one. -/
  | unit {a b c d : Char} {n : Nat} {t s : List Char} (hn : hexUnit? a b c d = some n)
      (hwhole : n < 0xd800) (h : Spells t s) :
      Spells ('\\' :: 'u' :: a :: b :: c :: d :: t) (Char.ofNat n :: s)

/-- A character that stands for itself is read as such. -/
theorem readString_plain {c : Char} (hcontrol : ¬ c.toNat < 0x20) (hquote : c ≠ '"')
    (hslash : c ≠ '\\') (r : List Char) :
    readString (c :: r) = (readString r).map fun (pieces, after) => (.char c :: pieces, after) := by
  rw [readString.eq_def]
  split
  · cases ‹c :: r = []›
  · simp_all
  · simp_all
  · simp_all
  · rename_i h
    obtain ⟨rfl, rfl⟩ := List.cons.inj h
    simp [hcontrol, hslash]

/-- No short escape is written like the long one. -/
theorem ne_u_of_shortEscape? {e c : Char} (h : shortEscape? e = some c) : e ≠ 'u' := by
  rintro rfl
  simp [shortEscape?] at h

/-- A short escape is read as its character. -/
theorem readString_short {e c : Char} (he : shortEscape? e = some c) (r : List Char) :
    readString ('\\' :: e :: r) =
      (readString r).map fun (pieces, after) => (.char c :: pieces, after) := by
  have hu := ne_u_of_shortEscape? he
  rw [readString.eq_def]
  split
  · rename_i h
    cases h
  · simp_all
  · simp_all
  · rename_i h
    simp only [List.cons.injEq, true_and] at h
    obtain ⟨rfl, rfl⟩ := h
    rw [he]
    cases readString r <;> rfl
  · rename_i hno h
    obtain ⟨rfl, rfl⟩ := List.cons.inj h
    exact absurd rfl (hno _ _ rfl)

/-- A reader finds the characters that a text spells, up to the quote behind it. -/
theorem Spells.read {t s : List Char} (h : Spells t s) :
    ∃ pieces, joinPieces pieces = some s ∧
      ∀ rest, readString (t ++ '"' :: rest) = some (pieces, rest) := by
  induction h with
  | nil => exact ⟨[], by simp [joinPieces], fun rest => by simp [readString]⟩
  | plain c hcontrol hquote hslash _ ih =>
    obtain ⟨pieces, hjoin, hread⟩ := ih
    refine ⟨.char c :: pieces, by simp [joinPieces, hjoin], fun rest => ?_⟩
    rw [List.cons_append, readString_plain hcontrol hquote hslash, hread, Option.map_some]
  | @short e c t s he _ ih =>
    obtain ⟨pieces, hjoin, hread⟩ := ih
    refine ⟨.char c :: pieces, by simp [joinPieces, hjoin], fun rest => ?_⟩
    rw [List.cons_append, List.cons_append, readString_short he, hread, Option.map_some]
  | @unit a b c d n t s hn hwhole _ ih =>
    obtain ⟨pieces, hjoin, hread⟩ := ih
    have hhigh : ¬ 0xd800 ≤ n := by omega
    have hlow : ¬ 0xdc00 ≤ n := by omega
    refine ⟨.unit n :: pieces, ?_, fun rest => ?_⟩
    · rw [joinPieces.eq_def]
      simp [hhigh, hlow, hjoin]
    · simp only [List.cons_append, readString, hn, hread]

/-- The digits of small numbers are read back. -/
theorem hexValue?_hexDigit {n : Nat} (h : n < 16) : hexValue? (hexDigit n) = some n := by
  have hall : ∀ n < 16, hexValue? (hexDigit n) = some n := by decide
  exact hall n h

/-- How a character is written spells it. -/
theorem Spells.escapeChar (c : Char) {t s : List Char} (h : Spells t s) :
    Spells (Json.escapeChar c ++ t) (c :: s) := by
  unfold Json.escapeChar
  split
  · exact .short (e := '"') rfl h
  · exact .short (e := '\\') rfl h
  · exact .short (e := 'b') rfl h
  · exact .short (e := 'f') rfl h
  · exact .short (e := 'n') rfl h
  · exact .short (e := 'r') rfl h
  · exact .short (e := 't') rfl h
  · split
    · rename_i hcontrol
      have hn : hexUnit? '0' '0' (hexDigit (c.toNat / 16)) (hexDigit (c.toNat % 16)) =
          some c.toNat := by
        rw [hexUnit?, hexValue?_hexDigit (by omega), hexValue?_hexDigit (by omega)]
        have hsum : c.toNat / 16 * 16 + c.toNat % 16 = c.toNat := by omega
        simpa [hexValue?] using hsum
      have hunit := Spells.unit hn (by omega) h
      rwa [Char.ofNat_toNat] at hunit
    · rename_i hquote hslash _ _ _ _ _ hcontrol
      exact .plain c hcontrol hquote hslash h

/-- How a string is written spells it. -/
theorem spells_escaped (s : List Char) : Spells (s.flatMap escapeChar) s := by
  induction s with
  | nil => exact .nil
  | cons c s ih => exact ih.escapeChar c

/-- A rewriting of text that changes nothing but how strings are spelled. Only an opening angle
bracket, which stands nowhere but in strings, may be rewritten together with what follows. -/
structure Respells (f : List Char → List Char) : Prop where
  /-- Nothing comes from nothing. -/
  nil : f [] = []
  /-- Other characters stay. -/
  cons : ∀ {c : Char} (s : List Char), c ≠ '<' → f (c :: s) = c :: f s
  /-- Rewriting does not look beyond a quote. -/
  quote : ∀ s t : List Char, f (s ++ '"' :: t) = f s ++ '"' :: f t
  /-- What is spelled stays the same. -/
  spells : ∀ {t s : List Char}, Spells t s → Spells (f t) s
  /-- A text does not get shorter. -/
  length_le : ∀ s : List Char, s.length ≤ (f s).length

/-- Leaving the text as it is. -/
theorem respells_id : Respells id where
  nil := rfl
  cons _ _ := rfl
  quote _ _ := rfl
  spells h := h
  length_le _ := Nat.le_refl _

/-- One respelling behind another. -/
theorem Respells.comp {f g : List Char → List Char} (hf : Respells f) (hg : Respells g) :
    Respells (f ∘ g) where
  nil := by simp [hg.nil, hf.nil]
  cons s h := by simp [hg.cons s h, hf.cons _ h]
  quote s t := by simp [hg.quote, hf.quote]
  spells h := hf.spells (hg.spells h)
  length_le s := (hg.length_le s).trans (hf.length_le _)

/-- A part without opening angle brackets stays. -/
theorem Respells.append {f : List Char → List Char} (hf : Respells f) {s : List Char}
    (h : '<' ∉ s) (t : List Char) : f (s ++ t) = s ++ f t := by
  induction s with
  | nil => rfl
  | cons c s ih =>
    rw [List.mem_cons, not_or] at h
    rw [List.cons_append, hf.cons _ (Ne.symm h.1), ih h.2, List.cons_append]

/-- No digit is an opening angle bracket. -/
theorem notMem_of_hexUnit? {a b c d : Char} {n : Nat} (h : hexUnit? a b c d = some n) :
    '<' ∉ ['\\', 'u', a, b, c, d] := by
  have hdigit : hexValue? '<' = none := by decide
  simp only [List.mem_cons, List.not_mem_nil, or_false, not_or]
  refine ⟨by decide, by decide, ?_, ?_, ?_, ?_⟩ <;> rintro rfl <;> simp [hexUnit?, hdigit] at h

/-- Replacing the text behind an opening angle bracket by one that spells the same is a
respelling. -/
theorem respells_replaceAll {p new : List Char} (hangle : '<' ∉ p) (hquote : '"' ∉ p)
    (hlen : p.length ≤ new.length)
    (hsame : ∀ t s : List Char, Spells (p ++ t) s → Spells (new ++ t) s) :
    Respells (Text.replaceAll ('<' :: p) ('<' :: new)) where
  nil := rfl
  cons _ h := Text.replaceAll_cons_ne (Ne.symm h)
  quote s t := by
    apply Text.replaceAll_append_cons
    simp [hquote]
  length_le s := Text.length_le_replaceAll (by simpa using hlen) s
  spells h := by
    induction h with
    | nil => exact .nil
    | @plain c t s hcontrol hcquote hslash _ ih =>
      by_cases hc : '<' = c
      · subst hc
        by_cases hp : p <+: t
        · -- the bracket stays, and the part behind it is exchanged
          obtain ⟨t, rfl⟩ := hp
          rw [Text.replaceAll_append_of_notMem hangle] at ih
          rw [← List.cons_append, Text.replaceAll_append_self, List.cons_append]
          exact .plain '<' hcontrol hcquote hslash (hsame _ _ ih)
        · rw [Text.replaceAll_cons_of_not_prefix (by simpa [List.cons_prefix_cons] using hp)]
          exact .plain '<' hcontrol hcquote hslash ih
      · rw [Text.replaceAll_cons_ne hc]
        exact .plain c hcontrol hcquote hslash ih
    | @short e c t s he _ ih =>
      have hne : '<' ≠ e := by
        rintro rfl
        simp [shortEscape?] at he
      rw [Text.replaceAll_cons_ne (by decide), Text.replaceAll_cons_ne hne]
      exact .short he ih
    | @unit a b c d n t s hn hwhole _ ih =>
      have happ : Text.replaceAll ('<' :: p) ('<' :: new) (['\\', 'u', a, b, c, d] ++ t) =
          ['\\', 'u', a, b, c, d] ++ Text.replaceAll ('<' :: p) ('<' :: new) t :=
        Text.replaceAll_append_of_notMem (notMem_of_hexUnit? hn) t
      simp only [List.cons_append, List.nil_append] at happ
      rw [happ]
      exact .unit hn hwhole ih

end Rivulet.Json
