import Mathlib.Data.List.Pairwise
import Rivulet.Json.Parser

/-!
# Canonical values

A value is canonical when its whole numbers are of 64 bits and the fields of its objects stand in
the order of their names, each name once. Putting fields into an object keeps that order, so every
value that a reader gives is canonical, and an object that is put together again from its own
fields is the same object.
-/

namespace Rivulet.Json

/-- The names stand in order, each once. -/
def Sorted {α : Type} (fields : List (String × α)) : Prop :=
  fields.Pairwise fun a b => a.1 < b.1

/-- A whole number between the least signed and the greatest unsigned one of 64 bits. -/
def InRange (n : Int) : Prop := -0x8000000000000000 ≤ n ∧ n < 0x10000000000000000

mutual

/-- Whole numbers are in range and fields in order, everywhere in the value. -/
def Canonical : Json → Prop
  | int n => InRange n
  | arr items => CanonicalItems items
  | obj fields => Sorted fields ∧ CanonicalFields fields
  | _ => True

/-- Every item of a list is canonical. -/
def CanonicalItems : List Json → Prop
  | [] => True
  | v :: vs => Canonical v ∧ CanonicalItems vs

/-- Every named value is canonical. -/
def CanonicalFields : List (String × Json) → Prop
  | [] => True
  | (_, v) :: vs => Canonical v ∧ CanonicalFields vs

end

/-- A field that comes after all others is put behind them. -/
theorem insertField_append {name : String} {value : Json} {fields : List (String × Json)}
    (h : ∀ p ∈ fields, p.1 < name) :
    insertField name value fields = fields ++ [(name, value)] := by
  induction fields with
  | nil => rfl
  | cons p rest ih =>
    obtain ⟨k, v⟩ := p
    have hk : k < name := h (k, v) List.mem_cons_self
    have hne : name ≠ k := by
      rintro rfl
      exact String.lt_irrefl _ hk
    have hrest := ih fun p hp => h p (List.mem_cons_of_mem _ hp)
    simp only [insertField, if_neg (String.lt_asymm hk), if_neg hne, hrest, List.cons_append]

/-- The names after a field was put in. -/
theorem mem_insertField {name : String} {value : Json} {fields : List (String × Json)}
    {p : String × Json} (h : p ∈ insertField name value fields) :
    p = (name, value) ∨ p ∈ fields := by
  induction fields with
  | nil => simpa [insertField] using h
  | cons q rest ih =>
    obtain ⟨k, v⟩ := q
    simp only [insertField] at h
    split at h
    · simpa using h
    · split at h
      · rcases List.mem_cons.1 h with h | h
        · exact .inl h
        · exact .inr (List.mem_cons_of_mem _ h)
      · rcases List.mem_cons.1 h with h | h
        · exact .inr (h ▸ List.mem_cons_self)
        · rcases ih h with h | h
          · exact .inl h
          · exact .inr (List.mem_cons_of_mem _ h)

/-- Names stay in order when a field is put in. -/
theorem sorted_insertField {name : String} {value : Json} {fields : List (String × Json)}
    (h : Sorted fields) : Sorted (insertField name value fields) := by
  induction fields with
  | nil => simp [insertField, Sorted]
  | cons q rest ih =>
    obtain ⟨k, v⟩ := q
    obtain ⟨hk, hrest⟩ := List.pairwise_cons.1 h
    simp only [insertField]
    split
    · rename_i hlt
      refine List.pairwise_cons.2 ⟨fun p hp => ?_, h⟩
      rcases List.mem_cons.1 hp with rfl | hp
      · exact hlt
      · exact String.lt_trans hlt (hk p hp)
    · rename_i hlt
      split
      · rename_i heq
        subst heq
        exact List.pairwise_cons.2 ⟨hk, hrest⟩
      · rename_i hne
        refine List.pairwise_cons.2 ⟨fun p hp => ?_, ih hrest⟩
        rcases mem_insertField hp with rfl | hp
        · exact String.not_le.1 fun hle => hne (String.le_antisymm hle (String.not_lt.1 hlt))
        · exact hk p hp

private theorem ofFields_eq (fields : List (String × Json)) :
    ofFields fields = .obj (fields.foldl (fun acc p => insertField p.1 p.2 acc) []) := rfl

/-- Fields in order make up the object of just these fields. -/
theorem ofFields_of_sorted {fields : List (String × Json)} (h : Sorted fields) :
    ofFields fields = .obj fields := by
  have hfold (l acc : List (String × Json)) (hall : Sorted (acc ++ l)) :
      l.foldl (fun acc p => insertField p.1 p.2 acc) acc = acc ++ l := by
    induction l generalizing acc with
    | nil => simp
    | cons p l ih =>
      have hlast : ∀ q ∈ acc, q.1 < p.1 := fun q hq =>
        (List.pairwise_append.1 hall).2.2 q hq p List.mem_cons_self
      simp only [List.foldl_cons, insertField_append hlast]
      rw [ih _ (by simpa using hall), List.append_assoc, List.singleton_append]
  rw [ofFields_eq, hfold fields [] h, List.nil_append]

/-- Named values are canonical when each of them is. -/
theorem canonicalFields_iff {fields : List (String × Json)} :
    CanonicalFields fields ↔ ∀ p ∈ fields, p.2.Canonical := by
  induction fields with
  | nil => simp [CanonicalFields]
  | cons p rest ih =>
    obtain ⟨k, v⟩ := p
    simp [CanonicalFields, ih]

/-- An object that is put together from canonical values is canonical. -/
theorem canonical_ofFields {fields : List (String × Json)} (h : CanonicalFields fields) :
    (ofFields fields).Canonical := by
  have hfold (l acc : List (String × Json)) (hacc : Sorted acc ∧ CanonicalFields acc)
      (hl : CanonicalFields l) :
      (Json.obj (l.foldl (fun acc p => insertField p.1 p.2 acc) acc)).Canonical := by
    induction l generalizing acc with
    | nil => simpa [Canonical] using hacc
    | cons p l ih =>
      obtain ⟨k, v⟩ := p
      obtain ⟨hv, hl⟩ := hl
      refine ih _ ⟨sorted_insertField hacc.1, canonicalFields_iff.2 fun q hq => ?_⟩ hl
      rcases mem_insertField hq with rfl | hq
      · exact hv
      · exact canonicalFields_iff.1 hacc.2 q hq
  exact hfold fields [] ⟨List.Pairwise.nil, trivial⟩ h

/-- A whole number that was read is in range. -/
theorem inRange_of_int? {d : Digits} {n : Int} (h : d.int? = some n) : InRange n := by
  unfold Digits.int? at h
  unfold InRange
  split at h
  · simp only at h
    split at h
    · split at h
      · obtain rfl := Option.some.inj h
        omega
      · cases h
    · split at h
      · obtain rfl := Option.some.inj h
        omega
      · cases h
  · cases h

/-- The depth of named values is bounded by a bound of each of them. -/
theorem depthFields_le_iff {fields : List (String × Json)} {d : Nat} :
    depthFields fields ≤ d ↔ ∀ p ∈ fields, p.2.depth ≤ d := by
  induction fields with
  | nil => simp [depthFields]
  | cons p rest ih =>
    rw [depthFields, Nat.max_le, ih, List.forall_mem_cons]

/-- An object is not nested deeper than the fields that it is put together from. -/
theorem depth_ofFields_le {fields : List (String × Json)} {d : Nat} (h : depthFields fields ≤ d) :
    (ofFields fields).depth ≤ d + 1 := by
  have hfold (l acc : List (String × Json)) (hacc : depthFields acc ≤ d) (hl : depthFields l ≤ d) :
      (Json.obj (l.foldl (fun acc p => insertField p.1 p.2 acc) acc)).depth ≤ d + 1 := by
    induction l generalizing acc with
    | nil => simpa [depth] using hacc
    | cons p l ih =>
      have hrest := depthFields_le_iff.1 hl
      refine ih _ (depthFields_le_iff.2 fun q hq => ?_)
        (depthFields_le_iff.2 fun q hq => hrest q (List.mem_cons_of_mem _ hq))
      rcases mem_insertField hq with rfl | hq
      · exact hrest p List.mem_cons_self
      · exact depthFields_le_iff.1 hacc q hq
  exact hfold fields [] (Nat.zero_le _) h

mutual

/-- Every value that a reader gives is canonical, and not nested deeper than the reader goes. -/
theorem canonical_of_value? {depth : Nat} {raw : Raw} {v : Json}
    (h : raw.value? depth = some v) : v.Canonical ∧ v.depth ≤ depth := by
  cases raw with
  | null =>
    obtain rfl := Option.some.inj (by simpa [Raw.value?] using h)
    exact ⟨trivial, Nat.zero_le _⟩
  | bool b =>
    obtain rfl := Option.some.inj (by simpa [Raw.value?] using h)
    exact ⟨trivial, Nat.zero_le _⟩
  | number d =>
    simp only [Raw.value?, Digits.value?] at h
    split at h
    · rename_i n hn
      obtain rfl := Option.some.inj h
      exact ⟨inRange_of_int? hn, Nat.zero_le _⟩
    · obtain ⟨x, -, rfl⟩ := Option.map_eq_some_iff.1 h
      exact ⟨trivial, Nat.zero_le _⟩
  | string pieces =>
    obtain ⟨s, -, rfl⟩ := Option.map_eq_some_iff.1 (by simpa [Raw.value?] using h)
    exact ⟨trivial, Nat.zero_le _⟩
  | array items =>
    cases depth with
    | zero => simp [Raw.value?] at h
    | succ depth =>
      obtain ⟨vs, hvs, rfl⟩ := Option.map_eq_some_iff.1 (by simpa [Raw.value?] using h)
      obtain ⟨hcanonical, hdepth⟩ := canonical_of_items? hvs
      exact ⟨hcanonical, Nat.succ_le_succ hdepth⟩
  | object fields =>
    cases depth with
    | zero => simp [Raw.value?] at h
    | succ depth =>
      obtain ⟨vs, hvs, rfl⟩ := Option.map_eq_some_iff.1 (by simpa [Raw.value?] using h)
      obtain ⟨hcanonical, hdepth⟩ := canonical_of_fields? hvs
      exact ⟨canonical_ofFields hcanonical, depth_ofFields_le hdepth⟩

theorem canonical_of_items? {depth : Nat} {items : List Raw} {vs : List Json}
    (h : Raw.items? depth items = some vs) : CanonicalItems vs ∧ depthItems vs ≤ depth := by
  cases items with
  | nil =>
    obtain rfl := Option.some.inj (by simpa [Raw.items?] using h)
    exact ⟨trivial, Nat.zero_le _⟩
  | cons raw items =>
    simp only [Raw.items?] at h
    split at h
    · rename_i x xs hx hxs
      obtain rfl := Option.some.inj h
      obtain ⟨hcanonical, hdepth⟩ := canonical_of_value? hx
      obtain ⟨hrest, hmore⟩ := canonical_of_items? hxs
      exact ⟨⟨hcanonical, hrest⟩, Nat.max_le.2 ⟨hdepth, hmore⟩⟩
    · cases h

theorem canonical_of_fields? {depth : Nat} {fields : List (List Piece × Raw)}
    {vs : List (String × Json)} (h : Raw.fields? depth fields = some vs) :
    CanonicalFields vs ∧ depthFields vs ≤ depth := by
  cases fields with
  | nil =>
    obtain rfl := Option.some.inj (by simpa [Raw.fields?] using h)
    exact ⟨trivial, Nat.zero_le _⟩
  | cons p fields =>
    obtain ⟨k, raw⟩ := p
    simp only [Raw.fields?] at h
    split at h
    · rename_i name x xs _ hx hxs
      obtain rfl := Option.some.inj h
      obtain ⟨hcanonical, hdepth⟩ := canonical_of_value? hx
      obtain ⟨hrest, hmore⟩ := canonical_of_fields? hxs
      exact ⟨⟨hcanonical, hrest⟩, Nat.max_le.2 ⟨hdepth, hmore⟩⟩
    · cases h

end

end Rivulet.Json
