import Mathlib.Data.Nat.Digits.Defs
import Rivulet.Proofs.Json.Canonical
import Rivulet.Proofs.Json.Spelling

/-!
# Reading what was printed

A value comes back from its compact text, also when the strings in the text have been spelled
anew. The reader first finds what was written, which for a printed value is known beforehand, and
then the value that it stands for. A printed number ends where a list or an object goes on, so the
text of a value is followed by a comma, a closing bracket or nothing at all.
-/

namespace Rivulet.Json

variable {f : List Char → List Char}

/-- A digit stands for itself: it starts nothing else, and it is no blank. -/
theorem ne_of_isDigit {c d : Char} (hc : c.isDigit = true) (hd : d.isDigit = false) : c ≠ d := by
  rintro rfl
  rw [hc] at hd
  cases hd

/-- The digits of a number are digits. -/
theorem isDigit_of_mem_digits {n : Nat} {c : Char} (h : c ∈ Nat.toDigits 10 n) :
    c.isDigit = true :=
  Nat.isDigit_of_mem_toDigits (by decide) (by decide) h

/-- A number other than zero does not start with the digit zero. -/
theorem head_digits_ne_zero {n : Nat} (hn : 0 < n) : (Nat.toDigits 10 n).head? ≠ some '0' := by
  induction n using Nat.strongRecOn with
  | ind n ih =>
    rw [Nat.toDigits_eq_if (by decide)]
    split
    · rename_i hlt
      have hall : ∀ m < 10, 0 < m → Nat.digitChar m ≠ '0' := by decide
      simpa using hall n hlt hn
    · rename_i hge
      have hfront := ih (n / 10) (by omega) (by omega)
      rw [List.head?_append]
      cases hd : (Nat.toDigits 10 (n / 10)).head? with
      | none => exact absurd (List.head?_eq_none_iff.1 hd) Nat.toDigits_ne_nil
      | some c => simpa [hd] using hfront

/-- What follows the text of a value inside a text. -/
def Ends (r : List Char) : Prop := ∀ c ∈ r.head?, c = ',' ∨ c = ']' ∨ c = '\x7d'

private theorem Ends.notDigit {r : List Char} (h : Ends r) : r.takeWhile Char.isDigit = [] := by
  cases r with
  | nil => rfl
  | cons c r =>
    have hc : c.isDigit = false := by
      rcases h c (by simp) with rfl | rfl | rfl <;> decide
    simp [hc]

/-- The digits of a number are split off what follows it. -/
theorem spanDigits_digits (n : Nat) {r : List Char} (h : Ends r) :
    spanDigits (Nat.toDigits 10 n ++ r) = (Nat.toDigits 10 n, r) := by
  have hall : ∀ c ∈ Nat.toDigits 10 n, c.isDigit = true := fun c => isDigit_of_mem_digits
  have hrest : r.dropWhile Char.isDigit = r := by
    have happ := List.takeWhile_append_dropWhile (p := Char.isDigit) (l := r)
    rwa [h.notDigit, List.nil_append] at happ
  rw [spanDigits, List.takeWhile_append_of_pos hall, List.dropWhile_append_of_pos hall,
    h.notDigit, hrest, List.append_nil]

/-- The digits of a number are read as its whole part. -/
theorem readWhole_digits (n : Nat) {r : List Char} (h : Ends r) :
    readWhole (Nat.toDigits 10 n ++ r) = some (Nat.toDigits 10 n, r) := by
  rw [readWhole, spanDigits_digits n h]
  split
  · rename_i heq
    exact absurd (Prod.mk.inj heq).1 Nat.toDigits_ne_nil
  · -- a leading zero stands alone, for only zero has one
    rename_i c ds _ heq
    have hzero := (Prod.mk.inj heq).1
    rcases Nat.eq_zero_or_pos n with rfl | hn
    · simp at hzero
    · exact absurd (by rw [hzero]; rfl) (head_digits_ne_zero hn)
  · rfl

/-- A whole number is read up to its end. -/
theorem readUnsigned_digits (negative : Bool) (n : Nat) {r : List Char} (h : Ends r) :
    readUnsigned negative (Nat.toDigits 10 n ++ r) =
      some (.number ⟨negative, Nat.toDigits 10 n, none, none⟩, r) := by
  have hfraction : readFraction r = some (none, r) := by
    unfold readFraction
    split
    · have := h '.' (by simp)
      simp at this
    · rfl
  have hexponent : readExponent r = some (none, r) := by
    unfold readExponent
    split
    · rename_i c rest
      have hc : (c == 'e' || c == 'E') = false := by
        rcases h c (by simp) with rfl | rfl | rfl <;> decide
      simp [hc]
    · rfl
  rw [readUnsigned, readWhole_digits n h]
  simp [hfraction, hexponent]

/-- The digits of a number stand for it. -/
theorem natOfDigits_digits (n : Nat) : natOfDigits (Nat.toDigits 10 n) = n := by
  have hfold : natOfDigits (Nat.toDigits 10 n) = Nat.ofDigitChars 10 (Nat.toDigits 10 n) 0 := by
    rw [natOfDigits, Nat.ofDigitChars_eq_foldl]
    congr 1
    funext a c
    rw [Decimal.digitValue, Nat.mul_comm]
  rw [hfold, Nat.ofDigitChars_ten_toDigits]

/-- A whole number in range is what its digits stand for. -/
theorem int?_digits {n : Int} (h : InRange n) :
    Digits.int? ⟨decide (n < 0), Nat.toDigits 10 n.natAbs, none, none⟩ = some n := by
  unfold InRange at h
  simp only [Digits.int?, Option.isNone_none, Bool.and_self, if_true, natOfDigits_digits,
    decide_eq_true_eq]
  split
  · rw [if_pos (by omega)]
    congr 1
    omega
  · rw [if_pos (by omega)]
    congr 1
    omega

/-- The pieces of a string in a text that was spelled anew. -/
def spelledPieces (f : List Char → List Char) (s : String) : List Piece :=
  ((readString (f (s.toList.flatMap escapeChar) ++ ['"'])).getD ([], [])).1

mutual

/-- What is written for a value without fractions, in a text that was spelled anew. -/
def raw (f : List Char → List Char) : Json → Raw
  | null | float _ => .null
  | bool b => .bool b
  | int n => .number ⟨decide (n < 0), Nat.toDigits 10 n.natAbs, none, none⟩
  | str s => .string (spelledPieces f s)
  | arr items => .array (rawItems f items)
  | obj fields => .object (rawFields f fields)

/-- What is written for the items of a list. -/
def rawItems (f : List Char → List Char) : List Json → List Raw
  | [] => []
  | v :: vs => raw f v :: rawItems f vs

/-- What is written for named values. -/
def rawFields (f : List Char → List Char) : List (String × Json) → List (List Piece × Raw)
  | [] => []
  | (k, v) :: vs => (spelledPieces f k, raw f v) :: rawFields f vs

end

/-- A string is read up to its closing quote. -/
theorem readString_spelled (hf : Respells f) (s : String) (rest : List Char) :
    readString (f (s.toList.flatMap escapeChar ++ '"' :: rest)) =
      some (spelledPieces f s, f rest) := by
  obtain ⟨pieces, -, hread⟩ := (hf.spells (spells_escaped s.toList)).read
  rw [hf.quote, hread, spelledPieces, hread]
  rfl

/-- The pieces of a string stand for it. -/
theorem pieceText?_spelled (hf : Respells f) (s : String) :
    pieceText? (spelledPieces f s) = some s := by
  obtain ⟨pieces, hjoin, hread⟩ := (hf.spells (spells_escaped s.toList)).read
  rw [spelledPieces, hread, pieceText?, Option.getD_some, hjoin, Option.map_some,
    String.ofList_toList]

mutual

/-- What is written for a value stands for it, within its depth. -/
theorem value?_raw (hf : Respells f) {v : Json} {depth : Nat} (hwhole : v.isWhole)
    (hcanonical : v.Canonical) (hdepth : v.depth ≤ depth) :
    (v.raw f).value? depth = some v := by
  cases v with
  | null => simp [raw, Raw.value?]
  | bool b => simp [raw, Raw.value?]
  | int n => simp [raw, Raw.value?, Digits.value?, int?_digits hcanonical]
  | float x => simp [isWhole] at hwhole
  | str s => simp [raw, Raw.value?, pieceText?_spelled hf]
  | arr items =>
    simp only [Json.depth] at hdepth
    obtain ⟨depth, rfl⟩ := Nat.exists_eq_add_of_le' (Nat.le_trans (Nat.le_add_left 1 _) hdepth)
    simp only [raw, Raw.value?,
      items?_raw hf (by simpa [isWhole] using hwhole) hcanonical (Nat.le_of_succ_le_succ hdepth),
      Option.map_some]
  | obj fields =>
    simp only [Json.depth] at hdepth
    obtain ⟨depth, rfl⟩ := Nat.exists_eq_add_of_le' (Nat.le_trans (Nat.le_add_left 1 _) hdepth)
    simp only [raw, Raw.value?,
      fields?_raw hf (by simpa [isWhole] using hwhole) hcanonical.2
        (Nat.le_of_succ_le_succ hdepth),
      Option.map_some, ofFields_of_sorted hcanonical.1]

/-- Items are read from what is written for them. -/
theorem items?_raw (hf : Respells f) {items : List Json} {depth : Nat}
    (hwhole : isWholeItems items) (hcanonical : CanonicalItems items)
    (hdepth : depthItems items ≤ depth) : Raw.items? depth (rawItems f items) = some items := by
  cases items with
  | nil => simp [rawItems, Raw.items?]
  | cons v vs =>
    simp only [isWholeItems, Bool.and_eq_true] at hwhole
    simp only [depthItems] at hdepth
    simp only [rawItems, Raw.items?,
      value?_raw hf hwhole.1 hcanonical.1 (le_of_max_le_left hdepth),
      items?_raw hf hwhole.2 hcanonical.2 (le_of_max_le_right hdepth)]

/-- Fields are read from what is written for them. -/
theorem fields?_raw (hf : Respells f) {fields : List (String × Json)} {depth : Nat}
    (hwhole : isWholeFields fields) (hcanonical : CanonicalFields fields)
    (hdepth : depthFields fields ≤ depth) :
    Raw.fields? depth (rawFields f fields) = some fields := by
  cases fields with
  | nil => simp [rawFields, Raw.fields?]
  | cons p vs =>
    obtain ⟨k, v⟩ := p
    simp only [isWholeFields, Bool.and_eq_true] at hwhole
    simp only [depthFields] at hdepth
    simp only [rawFields, Raw.fields?, pieceText?_spelled hf,
      value?_raw hf hwhole.1 hcanonical.1 (le_of_max_le_left hdepth),
      fields?_raw hf hwhole.2 hcanonical.2 (le_of_max_le_right hdepth)]

end

/-! ## Reading the text of a value -/

/-- What the text of a value starts with: no blank, and nothing that closes a list or an object. -/
theorem exists_print_eq_cons {v : Json} (hwhole : v.isWhole) :
    ∃ c t, v.print = c :: t ∧ c ≠ '<' ∧ isGap c = false ∧ c ≠ ']' := by
  cases v with
  | null => exact ⟨'n', _, rfl, by decide, by decide, by decide⟩
  | bool b => cases b <;> exact ⟨_, _, by rw [print], by decide, by decide, by decide⟩
  | int n =>
    rw [print, printInt]
    split
    · exact ⟨'-', _, rfl, by decide, by decide, by decide⟩
    · obtain ⟨c, ds, hds⟩ :=
        List.exists_cons_of_ne_nil (Nat.toDigits_ne_nil (n := n.natAbs) (b := 10))
      have hc : c.isDigit = true := isDigit_of_mem_digits (by rw [hds]; exact List.mem_cons_self)
      refine ⟨c, ds, hds, ne_of_isDigit hc (by decide), ?_, ne_of_isDigit hc (by decide)⟩
      simp only [isGap, Bool.or_eq_false_iff, beq_eq_false_iff_ne]
      exact ⟨⟨⟨ne_of_isDigit hc (by decide), ne_of_isDigit hc (by decide)⟩,
        ne_of_isDigit hc (by decide)⟩, ne_of_isDigit hc (by decide)⟩
  | float x => simp [isWhole] at hwhole
  | str s => exact ⟨'"', _, by rw [print, printString]; rfl, by decide, by decide, by decide⟩
  | arr items => exact ⟨'[', _, by rw [print], by decide, by decide, by decide⟩
  | obj fields => exact ⟨'\x7b', _, by rw [print], by decide, by decide, by decide⟩

/-- Where no blank stands in front, nothing is passed over. -/
theorem skipGap_cons {c : Char} (h : isGap c = false) (s : List Char) :
    skipGap (c :: s) = c :: s := by
  rw [skipGap, List.dropWhile_cons, h]
  rfl

/-- In front of a value there is no blank to pass over. -/
theorem skipGap_print (hf : Respells f) {v : Json} (hwhole : v.isWhole) (rest : List Char) :
    skipGap (f (v.print ++ rest)) = f (v.print ++ rest) := by
  obtain ⟨c, t, ht, hangle, hgap, -⟩ := exists_print_eq_cons hwhole
  rw [ht, List.cons_append, hf.cons _ hangle, skipGap_cons hgap]

/-- What ends a value still does so in a text that was spelled anew. -/
theorem Ends.respelled (hf : Respells f) {r : List Char} (h : Ends r) : Ends (f r) := by
  cases r with
  | nil => rwa [hf.nil]
  | cons c r =>
    have hc : c ≠ '<' := by
      rcases h c (by simp) with rfl | rfl | rfl <;> decide
    rw [hf.cons _ hc]
    simpa [Ends] using h

private theorem ends_printMoreItems (vs : List Json) (rest : List Char) :
    Ends (printMoreItems vs ++ rest) := by
  cases vs <;> simp [Ends, printMoreItems]

/-- Behind the first item of a list stand a comma and the items that are left. -/
theorem printMoreItems_cons (v : Json) (vs : List Json) :
    printMoreItems (v :: vs) = ',' :: printItems (v :: vs) := by
  rw [printMoreItems, printItems, List.cons_append]

/-- Behind the first named value stand a comma and the ones that are left. -/
theorem printMoreFields_cons (p : String × Json) (vs : List (String × Json)) :
    printMoreFields (p :: vs) = ',' :: printFields (p :: vs) := by
  obtain ⟨k, v⟩ := p
  simp only [printMoreFields, printFields, List.cons_append]

private theorem ends_printMoreFields (vs : List (String × Json)) (rest : List Char) :
    Ends (printMoreFields vs ++ rest) := by
  cases vs with
  | nil => simp [Ends, printMoreFields]
  | cons p vs => simp [Ends, printMoreFields]

/-- A number is read where its text stands. -/
theorem readValue_int (hf : Respells f) (n : Int) {fuel : Nat} {rest : List Char}
    (hends : Ends rest) :
    readValue (fuel + 1) (f (printInt n ++ rest)) = some ((Json.int n).raw f, f rest) := by
  have hdigits : '<' ∉ Nat.toDigits 10 n.natAbs := fun h => by
    simpa using isDigit_of_mem_digits h
  rw [printInt]
  split
  · rename_i hneg
    rw [List.cons_append, hf.cons _ (by decide), hf.append hdigits, readValue,
      readUnsigned_digits true _ (hends.respelled hf), raw]
    simp [hneg]
  · rename_i hneg
    obtain ⟨c, ds, hds⟩ :=
      List.exists_cons_of_ne_nil (Nat.toDigits_ne_nil (n := n.natAbs) (b := 10))
    have hc : c.isDigit = true := isDigit_of_mem_digits (by rw [hds]; exact List.mem_cons_self)
    have hread := readUnsigned_digits false n.natAbs (hends.respelled hf)
    rw [hf.append hdigits]
    rw [hds, List.cons_append] at hread ⊢
    unfold readValue
    split <;>
      first
        | (rename_i heq
           obtain rfl := (List.cons.inj heq).1
           exact absurd hc (by decide))
        | skip
    rw [hread, raw]
    simp [hneg, hds]

mutual

/-- The reader finds what was written for a value, in a text that may have been spelled anew. -/
theorem readValue_print (hf : Respells f) {v : Json} (hwhole : v.isWhole) (fuel : Nat)
    (hfuel : 2 * v.print.length ≤ fuel + 1) {rest : List Char} (hends : Ends rest) :
    readValue fuel (f (v.print ++ rest)) = some (v.raw f, f rest) := by
  obtain ⟨c, t, ht, -⟩ := exists_print_eq_cons hwhole
  obtain ⟨fuel, rfl⟩ : ∃ k, fuel = k + 1 := by
    refine Nat.exists_eq_succ_of_ne_zero ?_
    rintro rfl
    rw [ht, List.length_cons] at hfuel
    omega
  clear ht t c
  cases v with
  | null =>
    rw [print, nullText, hf.append (by decide), raw]
    simp [readValue]
  | bool b =>
    cases b <;>
    · rw [print, hf.append (by decide), raw]
      simp [readValue]
  | int n =>
    rw [print]
    exact readValue_int hf n hends
  | float x => simp [isWhole] at hwhole
  | str s =>
    rw [print, printString, List.append_assoc, List.cons_append, List.singleton_append,
      hf.cons _ (by decide), readValue, readString_spelled hf, raw]
    rfl
  | arr items =>
    rw [print] at hfuel ⊢
    rw [List.cons_append, hf.cons _ (by decide), raw]
    cases items with
    | nil =>
      rw [printItems, List.singleton_append, hf.cons _ (by decide), rawItems]
      simp [readValue, skipGap, isGap]
    | cons v vs =>
      rw [isWhole] at hwhole
      rw [List.length_cons] at hfuel
      have hitems := readItems_print hf (List.cons_ne_nil v vs) hwhole fuel (by omega)
        rest
      simp only [isWholeItems, Bool.and_eq_true] at hwhole
      have hskip := skipGap_print hf hwhole.1 (printMoreItems vs ++ rest)
      obtain ⟨c, t, ht, hangle, -, hclose⟩ := exists_print_eq_cons hwhole.1
      rw [printItems, List.append_assoc] at hitems ⊢
      rw [readValue, hskip]
      split
      · rename_i heq
        rw [ht, List.cons_append, hf.cons _ hangle] at heq
        exact absurd (List.cons.inj heq).1 hclose
      · rw [hitems]
        rfl
  | obj fields =>
    rw [print] at hfuel ⊢
    rw [List.cons_append, hf.cons _ (by decide), raw]
    cases fields with
    | nil =>
      rw [printFields, List.singleton_append, hf.cons _ (by decide), rawFields]
      simp [readValue, skipGap, isGap]
    | cons p vs =>
      obtain ⟨k, v⟩ := p
      rw [isWhole] at hwhole
      rw [List.length_cons] at hfuel
      have hfields := readFields_print hf (List.cons_ne_nil (k, v) vs) hwhole fuel (by omega)
        rest
      rw [printFields, printString] at hfields ⊢
      simp only [List.append_assoc, List.cons_append, List.nil_append] at hfields ⊢
      rw [hf.cons _ (by decide)] at hfields ⊢
      simp [readValue, skipGap, isGap, hfields]

/-- The text of items is read back as what is written for them, whatever follows. -/
theorem readItems_print (hf : Respells f) {items : List Json} (hsome : items ≠ [])
    (hwhole : isWholeItems items) (fuel : Nat) (hfuel : 2 * (printItems items).length ≤ fuel)
    (rest : List Char) :
    readItems fuel (f (printItems items ++ rest)) = some (rawItems f items, f rest) := by
  obtain ⟨v, vs, rfl⟩ := List.exists_cons_of_ne_nil hsome
  simp only [isWholeItems, Bool.and_eq_true] at hwhole
  obtain ⟨hv, hvs⟩ := hwhole
  rw [printItems] at hfuel ⊢
  obtain ⟨c, t, ht, -⟩ := exists_print_eq_cons hv
  obtain ⟨fuel, rfl⟩ : ∃ k, fuel = k + 1 := by
    refine Nat.exists_eq_succ_of_ne_zero ?_
    rintro rfl
    rw [ht, List.cons_append, List.length_cons] at hfuel
    omega
  clear ht t c
  rw [List.length_append] at hfuel
  have hvalue := readValue_print hf hv fuel (by omega) (ends_printMoreItems vs rest)
  rw [List.append_assoc, readItems, hvalue, rawItems]
  cases vs with
  | nil =>
    rw [printMoreItems, List.singleton_append, hf.cons _ (by decide), rawItems]
    simp [skipGap, isGap]
  | cons w ws =>
    rw [printMoreItems_cons] at hfuel hvalue ⊢
    rw [List.length_cons] at hfuel
    have hitems := readItems_print hf (List.cons_ne_nil w ws) hvs fuel (by omega) rest
    simp only [isWholeItems, Bool.and_eq_true] at hvs
    have hskip := skipGap_print hf hvs.1 (printMoreItems ws ++ rest)
    rw [← List.append_assoc, ← printItems] at hskip
    rw [List.cons_append, hf.cons _ (by decide)]
    simp [skipGap_cons, isGap, hskip, hitems]

/-- The text of fields is read back as what is written for them, whatever follows. -/
theorem readFields_print (hf : Respells f) {fields : List (String × Json)} (hsome : fields ≠ [])
    (hwhole : isWholeFields fields) (fuel : Nat) (hfuel : 2 * (printFields fields).length ≤ fuel)
    (rest : List Char) :
    readFields fuel (f (printFields fields ++ rest)) = some (rawFields f fields, f rest) := by
  obtain ⟨⟨k, v⟩, vs, rfl⟩ := List.exists_cons_of_ne_nil hsome
  simp only [isWholeFields, Bool.and_eq_true] at hwhole
  obtain ⟨hv, hvs⟩ := hwhole
  rw [printFields] at hfuel ⊢
  obtain ⟨fuel, rfl⟩ : ∃ n, fuel = n + 1 := by
    refine Nat.exists_eq_succ_of_ne_zero ?_
    rintro rfl
    simp [printString] at hfuel
  have hvalue := readValue_print hf hv fuel
    (by simp only [List.length_append, List.length_cons] at hfuel; omega)
    (ends_printMoreFields vs rest)
  have hskip := skipGap_print hf hv (printMoreFields vs ++ rest)
  have hname := readString_spelled hf k (':' :: (v.print ++ (printMoreFields vs ++ rest)))
  rw [hf.cons _ (by decide)] at hname
  rw [printString, rawFields]
  simp only [List.append_assoc, List.cons_append, List.nil_append] at hname ⊢
  rw [hf.cons _ (by decide), readFields, hname]
  simp only [skipGap_cons (show isGap ':' = false by decide), hskip, hvalue]
  cases vs with
  | nil =>
    rw [printMoreFields, List.singleton_append, hf.cons _ (by decide), rawFields]
    simp [skipGap_cons, isGap]
  | cons p ws =>
    obtain ⟨k', w⟩ := p
    rw [printMoreFields_cons] at hfuel hvalue ⊢
    have hfields := readFields_print hf (List.cons_ne_nil (k', w) ws) hvs fuel
      (by simp only [List.length_append, List.length_cons] at hfuel; omega) rest
    have hskip : skipGap (f (printFields ((k', w) :: ws) ++ rest)) =
        f (printFields ((k', w) :: ws) ++ rest) := by
      simp only [printFields, printString, List.cons_append]
      rw [hf.cons _ (by decide), skipGap_cons (by decide)]
    rw [List.cons_append, hf.cons _ (by decide)]
    simp only [skipGap_cons (show isGap ',' = false by decide), hskip, hfields]
    rfl

end

/-- No character of the text is a control character. -/
def Visible (s : List Char) : Prop := ∀ c ∈ s, 0x20 ≤ c.toNat

instance (s : List Char) : Decidable (Visible s) :=
  decidable_of_iff (s.all fun c => decide (0x20 ≤ c.toNat)) (by simp [Visible])

/-- A control character does not stand in a text without one. -/
theorem Visible.notMem {s : List Char} (h : Visible s) {c : Char} (hc : c.toNat < 0x20) :
    c ∉ s := fun hmem => absurd (h c hmem) (by omega)

/-- Two texts without control characters make up one. -/
theorem visible_append {s t : List Char} : Visible (s ++ t) ↔ Visible s ∧ Visible t :=
  List.forall_mem_append

/-- A text has no control characters if its first one and the others are none. -/
theorem visible_cons {c : Char} {s : List Char} :
    Visible (c :: s) ↔ 0x20 ≤ c.toNat ∧ Visible s := by
  simp [Visible]

/-- An escaped character has no control characters. -/
theorem visible_escapeChar (c : Char) : Visible (escapeChar c) := by
  have hdigit : ∀ n < 16, 0x20 ≤ (hexDigit n).toNat := by decide
  unfold escapeChar
  split <;> try (simp [Visible]; done)
  split
  · have hhigh := hdigit (c.toNat / 16) (by omega)
    have hlow := hdigit (c.toNat % 16) (by omega)
    simp [Visible, hhigh, hlow]
  · simp only [Visible, List.mem_singleton]
    rintro d rfl
    omega

/-- The text of a string has no control characters. -/
theorem visible_printString (s : String) : Visible (printString s) := by
  rw [printString, visible_append, visible_cons]
  refine ⟨⟨by decide, fun c hc => ?_⟩, by simp [Visible]⟩
  obtain ⟨d, -, hc⟩ := List.mem_flatMap.1 hc
  exact visible_escapeChar d c hc

/-- The text of a whole number has no control characters. -/
theorem visible_printInt (n : Int) : Visible (printInt n) := by
  have hdigits : Visible (Nat.toDigits 10 n.natAbs) := fun c hc => by
    have hdigit := isDigit_of_mem_digits hc
    simp only [Char.isDigit, Bool.and_eq_true, decide_eq_true_eq] at hdigit
    have hle : (48 : UInt32).toNat ≤ c.val.toNat := hdigit.1
    have : (48 : UInt32).toNat = 48 := rfl
    have : c.toNat = c.val.toNat := rfl
    omega
  rw [printInt]
  split
  · exact visible_cons.2 ⟨by decide, hdigits⟩
  · exact hdigits

mutual

/-- The text of a value without fractions is a single line. -/
theorem visible_print {v : Json} (hwhole : v.isWhole) : Visible v.print := by
  cases v with
  | null => simp [print, nullText, Visible]
  | bool b => cases b <;> simp [print, Visible]
  | int n => exact visible_printInt n
  | float x => simp [isWhole] at hwhole
  | str s => exact visible_printString s
  | arr items =>
    rw [print, visible_cons]
    exact ⟨by decide, visible_printItems hwhole⟩
  | obj fields =>
    rw [print, visible_cons]
    exact ⟨by decide, visible_printFields hwhole⟩

/-- The text of items has no control characters. -/
theorem visible_printItems {items : List Json} (hwhole : isWholeItems items) :
    Visible (printItems items) := by
  cases items with
  | nil => simp [printItems, Visible]
  | cons v vs =>
    simp only [isWholeItems, Bool.and_eq_true] at hwhole
    have hvs := visible_printItems hwhole.2
    rw [printItems, visible_append]
    refine ⟨visible_print hwhole.1, ?_⟩
    cases vs with
    | nil => exact hvs
    | cons w ws => rw [printMoreItems_cons, visible_cons]; exact ⟨by decide, hvs⟩

/-- The text of fields has no control characters. -/
theorem visible_printFields {fields : List (String × Json)} (hwhole : isWholeFields fields) :
    Visible (printFields fields) := by
  cases fields with
  | nil => simp [printFields, Visible]
  | cons p vs =>
    obtain ⟨k, v⟩ := p
    simp only [isWholeFields, Bool.and_eq_true] at hwhole
    have hvs := visible_printFields hwhole.2
    rw [printFields, visible_append, visible_append, visible_cons]
    refine ⟨⟨visible_printString k, by decide, visible_print hwhole.1⟩, ?_⟩
    cases vs with
    | nil => exact hvs
    | cons q ws => rw [printMoreFields_cons, visible_cons]; exact ⟨by decide, hvs⟩

end

/-- A text that was spelled anew is read as what was written. -/
theorem read?_print (hf : Respells f) {v : Json} (hwhole : v.isWhole) :
    Raw.read? (f v.print) = some (v.raw f) := by
  have hskip := skipGap_print hf hwhole []
  have hlen := hf.length_le v.print
  have hends : Ends [] := by simp [Ends]
  have hread := readValue_print hf hwhole (2 * (f v.print).length + 2) (by omega) hends
  rw [List.append_nil] at hskip hread
  rw [Raw.read?, hskip, hread, hf.nil]
  rfl

end Rivulet.Json
