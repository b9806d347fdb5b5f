import Rivulet.Proofs.Hydration.Fragments

/-!
# The ends of fragments as brackets

Among the children of a node, the markers that open and close fragments are brackets, which need not
be balanced. The search for the end of a fragment counts the fragments that are open inside it,
finds the first closing marker with balanced markers in front of it, and nothing if there is none.
Between a marker and the end that was found for it all fragments have their own ends, so no two
fragments cross.
-/

namespace Rivulet.Hydration

open Markup

variable {kindOf : DomId → Kind} {n : Nat} {l inside rest after : List DomId} {c x : DomId}

/-- Nodes among which the ends of fragments stand in pairs. -/
inductive Balanced (kindOf : DomId → Kind) : List DomId → Prop
  /-- No nodes at all. -/
  | nil : Balanced kindOf []
  /-- A node that is no end of a fragment, and others behind it. -/
  | other {x : DomId} {rest : List DomId} (plain : ∀ edge, kindOf x ≠ .marker edge)
      (behind : Balanced kindOf rest) : Balanced kindOf (x :: rest)
  /-- A whole fragment, and others behind it. -/
  | pair {x c : DomId} {inside rest : List DomId} (opening : kindOf x = .marker .opening)
      (between : Balanced kindOf inside) (closing : kindOf c = .marker .closing)
      (behind : Balanced kindOf rest) : Balanced kindOf (x :: (inside ++ c :: rest))

/-- A marker that ends a fragment opened in front of the given nodes: the ends of fragments between
stand in pairs. -/
def Ending (kindOf : DomId → Kind) (after : List DomId) (c : DomId) : Prop :=
  ∃ inside rest, after = inside ++ c :: rest ∧ kindOf c = .marker .closing ∧ Balanced kindOf inside

/-- The first marker that ends a fragment opened in front of the given nodes. -/
def FirstEnding (kindOf : DomId → Kind) (after : List DomId) (c : DomId) : Prop :=
  ∃ inside rest, after = inside ++ c :: rest ∧ kindOf c = .marker .closing ∧
    Balanced kindOf inside ∧
    ∀ a x b, inside = a ++ x :: b → kindOf x = .marker .closing → ¬ Balanced kindOf a

/-- Behind an opening end one more has to be closed. -/
theorem closeAmong_opening (hx : kindOf x = .marker .opening) :
    closeAmong kindOf n (x :: l) = closeAmong kindOf (n + 1) l := by
  rw [closeAmong_cons, if_pos hx]

/-- A closing end closes the fragment, or one inside of it. -/
theorem closeAmong_closing (hx : kindOf x = .marker .closing) :
    closeAmong kindOf n (x :: l) = if n = 0 then some x else closeAmong kindOf (n - 1) l := by
  rw [closeAmong_cons, if_neg (by simp [hx]), if_pos hx]

/-- What is no marker is passed over. -/
theorem closeAmong_other (hx : ∀ edge, kindOf x ≠ .marker edge) :
    closeAmong kindOf n (x :: l) = closeAmong kindOf n l := by
  rw [closeAmong_cons, if_neg (hx _), if_neg (hx _)]

/-- Nodes with balanced markers are passed over. -/
theorem Balanced.closeAmong_append (h : Balanced kindOf inside) (n : Nat) (l : List DomId) :
    closeAmong kindOf n (inside ++ l) = closeAmong kindOf n l := by
  induction h generalizing n l with
  | nil => rfl
  | other plain _ ih => rw [List.cons_append, closeAmong_other plain, ih]
  | pair opening _ closing _ ihinside ihrest =>
    rw [List.cons_append, closeAmong_opening opening, List.append_assoc, ihinside, List.cons_append,
      closeAmong_closing closing, if_neg (Nat.succ_ne_zero n), Nat.add_sub_cancel, ihrest]

/-- The search finds the end of a fragment. -/
theorem Ending.closeAmong_eq (h : Ending kindOf after c) : closeAmong kindOf 0 after = some c := by
  obtain ⟨inside, rest, rfl, hclosing, hinside⟩ := h
  rw [hinside.closeAmong_append, closeAmong_closing hclosing, if_pos rfl]

/-- What is found lies behind a closing marker with balanced markers in front of it; it is that
marker, or found behind it with one fragment less to be closed. -/
theorem split_of_closeAmong (h : closeAmong kindOf n l = some c) :
    ∃ inside x rest, l = inside ++ x :: rest ∧ Balanced kindOf inside ∧
      kindOf x = .marker .closing ∧
      (n = 0 ∧ x = c ∨ ∃ m, n = m + 1 ∧ closeAmong kindOf m rest = some c) := by
  -- On the length: behind a marker that opens a fragment the search is split twice.
  induction hlen : l.length using Nat.strong_induction_on generalizing l n with
  | _ len ih =>
    cases l with
    | nil => cases h
    | cons y l =>
      have hshort : l.length < len := by
        rw [← hlen]
        exact Nat.lt_succ_self _
      by_cases hopening : kindOf y = .marker .opening
      · rw [closeAmong_opening hopening] at h
        obtain ⟨inside, x, rest, rfl, hinside, hx, hnext⟩ := ih _ hshort h rfl
        obtain ⟨hzero, -⟩ | ⟨m, hm, hrest⟩ := hnext
        · cases hzero
        obtain rfl : n = m := Nat.succ.inj hm
        have hshorter : rest.length < len := by
          rw [List.length_append, List.length_cons] at hshort
          omega
        obtain ⟨inside', x', rest', rfl, hinside', hx', hnext'⟩ := ih _ hshorter hrest rfl
        exact ⟨y :: (inside ++ x :: inside'), x', rest', by simp,
          .pair hopening hinside hx hinside', hx', hnext'⟩
      · by_cases hclosing : kindOf y = .marker .closing
        · rw [closeAmong_closing hclosing] at h
          refine ⟨[], y, l, rfl, .nil, hclosing, ?_⟩
          cases n with
          | zero => exact .inl ⟨rfl, by simpa using h⟩
          | succ n => exact .inr ⟨n, rfl, by simpa using h⟩
        · have hplain (edge : Edge) : kindOf y ≠ .marker edge := by
            cases edge
            · exact hopening
            · exact hclosing
          rw [closeAmong_other hplain] at h
          obtain ⟨inside, x, rest, rfl, hinside, hx, hnext⟩ := ih _ hshort h rfl
          exact ⟨y :: inside, x, rest, rfl, .other hplain hinside, hx, hnext⟩

/-- The closing end that is found ends the fragment. -/
theorem ending_of_closeAmong (h : closeAmong kindOf 0 after = some c) : Ending kindOf after c := by
  obtain ⟨inside, x, rest, hsplit, hinside, hx, ⟨-, rfl⟩ | ⟨m, hm, -⟩⟩ := split_of_closeAmong h
  · exact ⟨inside, rest, hsplit, hx, hinside⟩
  · cases hm

/-- Within balanced nodes no closing marker has balanced markers in front of it. -/
theorem Balanced.not_balanced_of_closing {a b : List DomId} (h : Balanced kindOf (a ++ x :: b))
    (hx : kindOf x = .marker .closing) : ¬ Balanced kindOf a := by
  intro ha
  have hfound : closeAmong kindOf 0 (a ++ x :: b) = some x :=
    Ending.closeAmong_eq ⟨a, b, rfl, hx, ha⟩
  have hnone := h.closeAmong_append 0 []
  rw [List.append_nil, hfound] at hnone
  cases hnone

/-- The search finds the first end of the fragment. -/
theorem closeAmong_eq_some_iff : closeAmong kindOf 0 after = some c ↔
    FirstEnding kindOf after c := by
  constructor
  · intro h
    obtain ⟨inside, rest, hsplit, hclosing, hinside⟩ := ending_of_closeAmong h
    refine ⟨inside, rest, hsplit, hclosing, hinside, fun a x b hsub hx => ?_⟩
    rw [hsub] at hinside
    exact hinside.not_balanced_of_closing hx
  · rintro ⟨inside, rest, hsplit, hclosing, hinside, -⟩
    exact Ending.closeAmong_eq ⟨inside, rest, hsplit, hclosing, hinside⟩

/-- The search finds nothing exactly when the fragment has no end. -/
theorem closeAmong_eq_none_iff :
    closeAmong kindOf 0 after = none ↔ ∀ c, ¬ Ending kindOf after c := by
  constructor
  · intro h c hc
    rw [hc.closeAmong_eq] at h
    cases h
  · intro h
    cases hfound : closeAmong kindOf 0 after with
    | none => rfl
    | some c => exact absurd (ending_of_closeAmong hfound) (h c)

/-- The search with a counter that could fall below zero, and the values that the counter takes on
the way. -/
def countedClose (kindOf : DomId → Kind) : Int → List DomId → Option DomId × List Int
  | n, [] => (none, [n])
  | n, id :: rest =>
    let onward := match kindOf id with
      | .marker .opening => countedClose kindOf (n + 1) rest
      | .marker .closing => if n = 0 then (some id, []) else countedClose kindOf (n - 1) rest
      | _ => countedClose kindOf n rest
    (onward.1, n :: onward.2)

/-- The count goes on behind each node. -/
theorem countedClose_cons (kindOf : DomId → Kind) (n : Int) (x : DomId) (l : List DomId) :
    countedClose kindOf n (x :: l) =
      let onward :=
        if kindOf x = .marker .opening then countedClose kindOf (n + 1) l
        else if kindOf x = .marker .closing then
          if n = 0 then (some x, []) else countedClose kindOf (n - 1) l
        else countedClose kindOf n l
      (onward.1, n :: onward.2) := by
  cases hx : kindOf x with
  | marker edge => cases edge <;> simp [countedClose, hx]
  | _ => simp [countedClose, hx]

/-- The counter does not fall below zero, so the search may count in natural numbers. -/
theorem countedClose_spec (kindOf : DomId → Kind) (n : Nat) (l : List DomId) :
    (countedClose kindOf n l).1 = closeAmong kindOf n l ∧
    ∀ k ∈ (countedClose kindOf n l).2, 0 ≤ k := by
  induction l generalizing n with
  | nil => simp [countedClose, closeAmong]
  | cons x l ih =>
    rw [countedClose_cons, closeAmong_cons]
    simp only [List.mem_cons, forall_eq_or_imp, Int.natCast_nonneg, true_and]
    split
    · exact ih (n + 1)
    · split
      · by_cases hn : n = 0
        · simp [hn]
        · obtain ⟨m, rfl⟩ := Nat.exists_eq_succ_of_ne_zero hn
          have hne : ((m + 1 : Nat) : Int) ≠ 0 := by omega
          have hdown : ((m + 1 : Nat) : Int) - 1 = (m : Nat) := by omega
          rw [Nat.succ_eq_add_one, if_neg hne, if_neg (Nat.succ_ne_zero m), hdown,
            Nat.add_sub_cancel]
          exact ih m
      · exact ih n

/-! ## Claimed fragments -/

namespace Walk

variable {α : Type} {w w' : Walk α} {m : Markers}

/-- New ends of a fragment are not claimed. -/
theorem mode_of_createMarkers (h : createMarkers.run w = .ok (m, w')) : m.mode = .create := by
  cases hframes : w.cursor.frames with
  | nil =>
    have hframe : (frame : WalkM α Frame).run w = .error .finished := by
      simp [frame, frame?, hframes]
      rfl
    rw [createMarkers, StateT.run_bind, hframe] at h
    cases h
  | cons f fs =>
    rw [createMarkers, bind_ok (frame_run hframes)] at h
    cases h
    rfl

/-- The look ahead comes to an end, and it changes nothing about the document. -/
theorem exists_candidate (w : Walk α) (wantsText : Bool) : ∃ found w₁,
    (candidate wantsText).run w = .ok (found, w₁) ∧ w₁.document = w.document := by
  cases hframes : w.cursor.frames with
  | nil =>
    refine ⟨none, w, ?_, rfl⟩
    simp only [candidate, StateT.run_bind, StateT.run_get, pure_bind, frame?, hframes,
      List.head?_nil]
    rfl
  | cons f fs =>
    let seen := lookAhead w.document.kind f.stop wantsText (w.ahead f)
    refine ⟨seen.found, (w.modifyFrame fun f => { f with next := seen.next }).modifyReport
      (·.addSkipped seen.skipped), ?_, ?_⟩
    · simp only [candidate, StateT.run_bind, StateT.run_get, pure_bind, frame?, hframes,
        List.head?_cons]
      rfl
    · rw [modifyFrame, hframes]
      rfl

/-- The ends of a fragment that is claimed are a marker and the end that is found for it. -/
theorem matchingClose_of_claimMarkers (h : claimMarkers.run w = .ok (m, w'))
    (hmode : m.mode = .hydrate) : w'.document = w.document ∧
      w.document.kind m.opening = .marker .opening ∧
      matchingClose w.document m.opening = some m.closing := by
  have hcreated {w₁ : Walk α} : createMarkers.run w₁ ≠ .ok (m, w') := fun h => by
    rw [mode_of_createMarkers h] at hmode
    cases hmode
  cases hframes : w.cursor.frames with
  | nil =>
    have hover : (mode : WalkM α Mode).run w = .error .finished := by
      simp [mode, frame, frame?, hframes]
      rfl
    rw [claimMarkers, StateT.run_bind, hover] at h
    cases h
  | cons f fs =>
    have hhere := mode_run hframes
    cases hf : f.mode with
    | create =>
      rw [hf] at hhere
      rw [claimMarkers_create hhere] at h
      exact absurd h hcreated
    | hydrate =>
      rw [hf] at hhere
      obtain ⟨found, w₁, hlook, hdocument⟩ := exists_candidate w false
      cases found with
      | none =>
        rw [claimMarkers_none hhere hlook] at h
        exact absurd h hcreated
      | some found =>
        cases hmarkers : markersAt w₁.document found with
        | none =>
          rw [claimMarkers_refused hhere hlook hmarkers] at h
          exact absurd h hcreated
        | some m' =>
          rw [claimMarkers_claimed hhere hlook hmarkers] at h
          obtain ⟨closing, rfl, hopening, hclose⟩ := markersAt_eq hmarkers
          cases h
          rw [hdocument] at hopening hclose
          refine ⟨?_, hopening, hclose⟩
          rw [← hdocument, advancePast, modifyFrame]
          split <;> rfl

end Walk

variable {α : Type} {d : Document α} {p opening : DomId} {before : List DomId}

/-- A fragment that starts between the ends of another one ends between them. -/
theorem nested_matchingClose (h : d.Treelike)
    (hchildren : d.children p = before ++ opening :: (inside ++ c :: rest))
    (hclose : matchingClose d opening = some c) {a b : List DomId} (hinside : inside = a ++ x :: b)
    (hx : d.kind x = .marker .opening) : ∃ y ∈ b, matchingClose d x = some y := by
  have hnodup := h.nodup p
  rw [hchildren, List.nodup_append, List.nodup_cons, List.nodup_append, List.nodup_cons] at hnodup
  obtain ⟨-, ⟨-, -, ⟨hrest, -⟩, hapart⟩, -⟩ := hnodup
  have hmid : c ∉ inside := fun hc => hapart c hc c List.mem_cons_self rfl
  rw [matchingClose, h.following_eq hchildren] at hclose
  obtain ⟨y, hy⟩ := Option.isSome_iff_exists.1 (Closed.between hmid hrest hclose a x b hinside hx)
  refine ⟨y, mem_of_closeAmong hy, ?_⟩
  have hbehind : d.children p = (before ++ opening :: a) ++ x :: (b ++ c :: rest) := by
    rw [hchildren, hinside]
    simp
  rw [matchingClose, h.following_eq hbehind]
  exact Hydration.closeAmong_append hy _

/-- A fragment that starts behind a marker starts behind the end that was found for it, or ends in
front of that end. -/
theorem not_crossing_matchingClose (h : d.Treelike) {a b : List DomId} {y : DomId}
    (hchildren : d.children p = before ++ opening :: (a ++ x :: b))
    (hclose : matchingClose d opening = some c) (hx : d.kind x = .marker .opening)
    (hy : matchingClose d x = some y) : c ∈ a ∨ ∃ u v, b = u ++ y :: v ∧ c ∈ v := by
  have hfound := hclose
  rw [matchingClose, h.following_eq hchildren] at hfound
  rcases List.mem_append.1 (mem_of_closeAmong hfound) with hc | hc
  · exact .inl hc
  · rcases List.mem_cons.1 hc with rfl | hc
    · have hclosing := kind_of_closeAmong hfound
      rw [hx] at hclosing
      cases hclosing
    · obtain ⟨b, rest, rfl⟩ := List.append_of_mem hc
      have hsplit : d.children p = before ++ opening :: ((a ++ x :: b) ++ c :: rest) := by
        rw [hchildren]
        simp
      obtain ⟨y', hy', hmatch⟩ := nested_matchingClose h hsplit hclose rfl hx
      obtain rfl : y' = y := Option.some.inj (hmatch.symm.trans hy)
      obtain ⟨u, v, rfl⟩ := List.append_of_mem hy'
      exact .inr ⟨u, v ++ c :: rest, by simp, by simp⟩

/-- How the end of a fragment is found among the nodes behind the marker that opens it. -/
structure Paired (d : Document α) (opening : DomId) (after : List DomId) : Prop where
  /-- The search finds the first closing marker with balanced markers in front of it. -/
  found : ∀ c, matchingClose d opening = some c ↔ FirstEnding d.kind after c
  /-- It finds nothing exactly when there is no such marker. -/
  missing : matchingClose d opening = none ↔ ∀ c, ¬ Ending d.kind after c
  /-- A counter that could fall below zero never does, and leads to the same end. -/
  counted : (countedClose d.kind 0 after).1 = matchingClose d opening ∧
    ∀ n ∈ (countedClose d.kind 0 after).2, 0 ≤ n
  /-- A walk claims a fragment with the end that is found for it. -/
  claimed : ∀ (w w' : Walk α) (m : Walk.Markers), w.document = d →
    Walk.claimMarkers.run w = .ok (m, w') → m.mode = .hydrate → m.opening = opening →
      w'.document = d ∧ matchingClose d opening = some m.closing
  /-- Every fragment that starts strictly between the two ends has its own end strictly between
  them. -/
  nested : ∀ c inside rest, matchingClose d opening = some c → after = inside ++ c :: rest →
    ∀ a x b, inside = a ++ x :: b → d.kind x = .marker .opening →
      ∃ y ∈ b, matchingClose d x = some y
  /-- A later fragment starts behind the end of this one or ends in front of it. -/
  apart : ∀ c a x b y, matchingClose d opening = some c → after = a ++ x :: b →
    d.kind x = .marker .opening → matchingClose d x = some y →
      c ∈ a ∨ ∃ u v, b = u ++ y :: v ∧ c ∈ v

/-- Whatever stands behind a marker among the children of a node, balanced or not, the search for
the end of the fragment that it opens pairs it as a bracket. -/
theorem markers_pair (h : d.Treelike) (hchildren : d.children p = before ++ opening :: after) :
    Paired d opening after := by
  have hsearch : matchingClose d opening = closeAmong d.kind 0 after := by
    rw [matchingClose, h.following_eq hchildren]
  refine ⟨fun c => ?_, ?_, ?_, ?_, ?_, ?_⟩
  · rw [hsearch, closeAmong_eq_some_iff]
  · rw [hsearch, closeAmong_eq_none_iff]
  · rw [hsearch]
    exact countedClose_spec d.kind 0 after
  · rintro w w' m rfl hrun hmode rfl
    obtain ⟨hdocument, -, hclose⟩ := Walk.matchingClose_of_claimMarkers hrun hmode
    exact ⟨hdocument, hclose⟩
  · rintro c inside rest hclose rfl a x b hinside hx
    exact nested_matchingClose h hchildren hclose hinside hx
  · rintro c a x b y hclose rfl hx hy
    exact not_crossing_matchingClose h hchildren hclose hx hy

/-- A fragment with another one inside, an end that belongs to none, and a marker that opens a
fragment without an end. -/
def frayed : Document Unit :=
  ({} : Document Unit).plantUnder Document.root
    [.leaf (.marker .opening), .leaf (.text "a"), .leaf (.marker .opening), .leaf (.comment "b"),
      .leaf (.marker .closing), .leaf (.marker .closing), .leaf (.marker .closing),
      .leaf (.marker .opening)]

theorem markers_pair_frayed :
    frayed.Treelike ∧ frayed.children Document.root = [] ++ ⟨1⟩ ::
      [⟨2⟩, ⟨3⟩, ⟨4⟩, ⟨5⟩, ⟨6⟩, ⟨7⟩, ⟨8⟩] ∧
      Paired frayed ⟨1⟩ [⟨2⟩, ⟨3⟩, ⟨4⟩, ⟨5⟩, ⟨6⟩, ⟨7⟩, ⟨8⟩] ∧
      matchingClose frayed ⟨1⟩ = some ⟨6⟩ ∧
      (∃ w', Walk.claimMarkers.run (Walk.start frayed Document.root .hydrate) =
        .ok (⟨⟨1⟩, ⟨6⟩, .hydrate⟩, w')) ∧
      (∃ y ∈ [⟨4⟩, ⟨5⟩], matchingClose frayed ⟨3⟩ = some y) ∧ matchingClose frayed ⟨8⟩ = none := by
  have htreelike : frayed.Treelike :=
    (Document.plantUnder_grafted Document.Treelike.empty (by decide) _).treelike
  have hchildren : frayed.children Document.root =
      [] ++ ⟨1⟩ :: [⟨2⟩, ⟨3⟩, ⟨4⟩, ⟨5⟩, ⟨6⟩, ⟨7⟩, ⟨8⟩] := by decide +kernel
  have hpaired := markers_pair htreelike hchildren
  have hclose : matchingClose frayed ⟨1⟩ = some ⟨6⟩ := by decide +kernel
  refine ⟨htreelike, hchildren, hpaired, hclose, ⟨_, rfl⟩, ?_, by decide +kernel⟩
  exact hpaired.nested ⟨6⟩ [⟨2⟩, ⟨3⟩, ⟨4⟩, ⟨5⟩] [⟨7⟩, ⟨8⟩] hclose rfl [⟨2⟩] ⟨3⟩ [⟨4⟩, ⟨5⟩] rfl
    (by decide +kernel)

end Rivulet.Hydration
