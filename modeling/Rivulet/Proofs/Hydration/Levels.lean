import Rivulet.Proofs.Hydration.Grafting

/-!
# Where a walk stands on a level

The children of the node whose level is walked fall into three parts: those that the walk has
passed, those that are still ahead, and, if the level ends at a marker, that marker with all behind
it. A walk that creates has nothing ahead. New nodes go between the first part and the others.
-/

namespace Rivulet

namespace Document

variable {α : Type} {d : Document α} {p x : DomId} {a b : List DomId}

/-- A node and those behind it are what the children of its parent end with. -/
theorem Treelike.fromSibling_eq (h : d.Treelike) (hx : d.children p = a ++ x :: b) :
    d.fromSibling x = x :: b := by
  have hnodup := h.nodup p
  rw [hx, List.nodup_append] at hnodup
  have hnot : x ∉ a := fun hxa => hnodup.2.2 x hxa x List.mem_cons_self rfl
  rw [fromSibling, (h.child p x).1 (by simp [hx])]
  simp only
  rw [hx, dropWhile_ne_append hnot]

/-- What follows a child are the children behind it. -/
theorem Treelike.following_eq (h : d.Treelike) (hx : d.children p = a ++ x :: b) :
    d.following x = b := by
  rw [following, h.fromSibling_eq hx, List.tail_cons]

/-- The node behind a child is the first of the children behind it. -/
theorem Treelike.nextSibling?_eq (h : d.Treelike) (hx : d.children p = a ++ x :: b) :
    d.nextSibling? x = b.head? := by
  rw [nextSibling?, h.following_eq hx]

/-- What is put in front of the head of the rest of a list stands between the two parts. -/
theorem insertIn_head (x : DomId) (h : (a ++ b).Nodup) :
    insertIn x b.head? (a ++ b) = a ++ x :: b := by
  cases b with
  | nil => simp [insertIn]
  | cons y b =>
    rw [List.nodup_append] at h
    have hnot : y ∉ a := fun hy => h.2.2 y hy y List.mem_cons_self rfl
    rw [List.head?_cons, insertIn, takeWhile_ne_append hnot, dropWhile_ne_append hnot]

end Document

namespace Hydration

open Markup

/-- A kind of node that nothing but a text could be claimed for. -/
abbrev Silent (kind : Kind) : Prop := isCandidate false kind = false

/-- What is no candidate is no marker either. -/
theorem silent_of_not_candidate {wantsText : Bool} {kind : Kind}
    (h : isCandidate wantsText kind = false) : Silent kind := by
  cases wantsText with
  | false => exact h
  | true =>
    have hforeign : kind.isForeign = true := by simpa [isCandidate] using h
    simp [Silent, isCandidate, hforeign]

/-- Bare kinds tell whether there is a marker. -/
theorem silent_bare {kind : Kind} : Silent kind.bare ↔ Silent kind := by
  rw [Silent, Silent, isCandidate, isCandidate, Kind.isForeign_bare, Kind.isText_bare]

/-- What the search for the next node finds. -/
theorem lookAhead_spec (kindOf : DomId → Kind) (wantsText : Bool) {ahead tail : List DomId}
    (hnot : ∀ x, tail.head? = some x → x ∉ ahead) :
    ∃ skipped rest, ahead = skipped ++ rest ∧
      lookAhead kindOf tail.head? wantsText (ahead ++ tail) =
        ⟨skipped.length, (rest ++ tail).head?, rest.head?⟩ ∧
      (∀ x ∈ skipped, isCandidate wantsText (kindOf x) = false) ∧
      ∀ x ∈ rest.head?, isCandidate wantsText (kindOf x) = true := by
  induction ahead with
  | nil =>
    refine ⟨[], [], rfl, ?_, by simp, by simp⟩
    cases tail with
    | nil => rfl
    | cons y tail => simp [lookAhead]
  | cons x ahead ih =>
    have hx : tail.head? ≠ some x := fun h => hnot x h List.mem_cons_self
    by_cases hc : isCandidate wantsText (kindOf x) = true
    · exact ⟨[], x :: ahead, rfl, by simp [lookAhead, hx, hc], by simp, by simp [hc]⟩
    · rw [Bool.not_eq_true] at hc
      obtain ⟨skipped, rest, hsplit, hlook, hskipped, hrest⟩ :=
        ih fun y hy hmem => hnot y hy (List.mem_cons_of_mem x hmem)
      refine ⟨x :: skipped, rest, by rw [hsplit, List.cons_append], ?_, ?_, hrest⟩
      · simp only [List.cons_append, lookAhead, hx, hc, if_false, hlook]
        rfl
      · intro y hy
        rcases List.mem_cons.1 hy with rfl | hy
        · exact hc
        · exact hskipped y hy

/-! ## Fragments -/

/-- The search for a closing end goes on behind the first node. -/
theorem closeAmong_cons (kindOf : DomId → Kind) (n : Nat) (x : DomId) (l : List DomId) :
    closeAmong kindOf n (x :: l) =
      if kindOf x = .marker .opening then closeAmong kindOf (n + 1) l
      else if kindOf x = .marker .closing then
        if n = 0 then some x else closeAmong kindOf (n - 1) l
      else closeAmong kindOf n l := by
  cases hx : kindOf x with
  | marker edge =>
    cases edge with
    | opening => simp [closeAmong, hx]
    | closing => cases n <;> simp [closeAmong, hx]
  | _ => simp [closeAmong, hx]

/-- A closing end is found among the nodes that are searched. -/
theorem mem_of_closeAmong {kindOf : DomId → Kind} {n : Nat} {l : List DomId} {c : DomId}
    (h : closeAmong kindOf n l = some c) : c ∈ l := by
  induction l generalizing n with
  | nil => cases h
  | cons x l ih =>
    rw [closeAmong_cons] at h
    split at h
    · exact List.mem_cons_of_mem x (ih h)
    · split at h
      · split at h
        · rw [Option.some.injEq] at h
          exact h ▸ List.mem_cons_self
        · exact List.mem_cons_of_mem x (ih h)
      · exact List.mem_cons_of_mem x (ih h)

/-- What is found is a closing end. -/
theorem kind_of_closeAmong {kindOf : DomId → Kind} {n : Nat} {l : List DomId} {c : DomId}
    (h : closeAmong kindOf n l = some c) : kindOf c = .marker .closing := by
  induction l generalizing n with
  | nil => cases h
  | cons x l ih =>
    rw [closeAmong_cons] at h
    split at h
    · exact ih h
    · split at h
      · rename_i hclosing
        split at h
        · rw [Option.some.injEq] at h
          exact h ▸ hclosing
        · exact ih h
      · exact ih h

/-- Bare kinds tell which marker there is. -/
theorem marker_iff_of_bare {kind kind' : Kind} (h : kind'.bare = kind.bare) (edge : Edge) :
    kind' = .marker edge ↔ kind = .marker edge := by
  constructor
  · rintro rfl
    exact Kind.eq_marker_of_bare h.symm
  · rintro rfl
    exact Kind.eq_marker_of_bare h

/-- The end of a fragment depends only on which nodes are ends of fragments. -/
theorem closeAmong_congr {kindOf kindOf' : DomId → Kind} {l : List DomId}
    (h : ∀ x ∈ l, ∀ edge, kindOf' x = .marker edge ↔ kindOf x = .marker edge) (n : Nat) :
    closeAmong kindOf' n l = closeAmong kindOf n l := by
  induction l generalizing n with
  | nil => rfl
  | cons x l ih =>
    have hrest := ih fun y hy => h y (List.mem_cons_of_mem x hy)
    have hx := h x List.mem_cons_self
    simp only [closeAmong_cons, hrest, hx]

/-- A closing end that is found is found also when more follows. -/
theorem closeAmong_append {kindOf : DomId → Kind} {n : Nat} {b : List DomId} {c : DomId}
    (h : closeAmong kindOf n b = some c) (l : List DomId) :
    closeAmong kindOf n (b ++ l) = some c := by
  induction b generalizing n with
  | nil => cases h
  | cons x b ih =>
    rw [List.cons_append, closeAmong_cons]
    rw [closeAmong_cons] at h
    by_cases hopening : kindOf x = .marker .opening
    · rw [if_pos hopening] at h ⊢
      exact ih h
    · rw [if_neg hopening] at h ⊢
      by_cases hclosing : kindOf x = .marker .closing
      · rw [if_pos hclosing] at h ⊢
        by_cases hn : n = 0
        · rwa [if_pos hn] at h ⊢
        · rw [if_neg hn] at h ⊢
          exact ih h
      · rw [if_neg hclosing] at h ⊢
        exact ih h

/-- What an outer fragment ends at is not reached before the fragments inside it have ended. -/
theorem closeAmong_inside {kindOf : DomId → Kind} {m n : Nat} {b rest : List DomId} {c : DomId}
    (hb : c ∉ b) (hrest : c ∉ rest)
    (h : closeAmong kindOf (m + 1 + n) (b ++ c :: rest) = some c) :
    (closeAmong kindOf m b).isSome := by
  have hout {k : Nat} : closeAmong kindOf k rest ≠ some c := fun h => hrest (mem_of_closeAmong h)
  induction b generalizing m with
  | nil =>
    rw [List.nil_append, closeAmong_cons] at h
    split at h
    · exact absurd h hout
    · split at h
      · rw [if_neg (by omega)] at h
        exact absurd h hout
      · exact absurd h hout
  | cons x b ih =>
    rw [List.mem_cons, not_or] at hb
    rw [List.cons_append, closeAmong_cons] at h
    rw [closeAmong_cons]
    by_cases hopening : kindOf x = .marker .opening
    · rw [if_pos hopening] at h ⊢
      exact ih (m := m + 1) hb.2 (by rwa [show m + 1 + 1 + n = m + 1 + n + 1 by omega])
    · rw [if_neg hopening] at h ⊢
      by_cases hclosing : kindOf x = .marker .closing
      · rw [if_pos hclosing, if_neg (by omega)] at h
        rw [if_pos hclosing]
        by_cases hm : m = 0
        · rw [if_pos hm]
          rfl
        · rw [if_neg hm]
          exact ih hb.2 (by rwa [show m - 1 + 1 + n = m + 1 + n - 1 by omega])
      · rw [if_neg hclosing] at h ⊢
        exact ih hb.2 h

/-- Every fragment that starts among some nodes ends among them. -/
def Closed (kindOf : DomId → Kind) (ids : List DomId) : Prop :=
  ∀ a x b, ids = a ++ x :: b → kindOf x = .marker .opening → (closeAmong kindOf 0 b).isSome

namespace Closed

variable {kindOf kindOf' : DomId → Kind} {a ids : List DomId}

/-- Behind some of the nodes, too, each opening end is closed. -/
theorem suffix (h : Closed kindOf (a ++ ids)) : Closed kindOf ids := by
  intro u x v hsplit hx
  exact h (a ++ u) x v (by rw [hsplit, List.append_assoc]) hx

/-- It depends only on where the markers are. -/
theorem congr (h : Closed kindOf ids)
    (hsame : ∀ x ∈ ids, ∀ edge, kindOf' x = .marker edge ↔ kindOf x = .marker edge) :
    Closed kindOf' ids := by
  intro a x b hsplit hx
  have hin {y : DomId} (hy : y ∈ x :: b) : y ∈ ids := hsplit ▸ List.mem_append_right a hy
  have hx' : kindOf x = .marker .opening := (hsame x (hin List.mem_cons_self) _).1 hx
  rw [closeAmong_congr fun y hy => hsame y (hin (List.mem_cons_of_mem x hy))]
  exact h a x b hsplit hx'

/-- What stands between the ends of a fragment. -/
theorem between {n : Nat} {c : DomId} {rest : List DomId} (hids : c ∉ ids) (hrest : c ∉ rest)
    (h : closeAmong kindOf n (ids ++ c :: rest) = some c) : Closed kindOf ids := by
  intro a x b hsplit hx
  subst hsplit
  rw [List.mem_append, List.mem_cons, not_or, not_or] at hids
  obtain ⟨ha, -, hb⟩ := hids
  induction a generalizing n with
  | nil =>
    rw [List.nil_append, List.cons_append, closeAmong_cons, if_pos hx] at h
    exact closeAmong_inside (m := 0) (n := n) hb hrest (by rwa [Nat.zero_add, Nat.add_comm])
  | cons y a ih =>
    rw [List.mem_cons, not_or] at ha
    rw [List.cons_append, List.cons_append, closeAmong_cons] at h
    split at h
    · exact ih h ha.2
    · split at h
      · split at h
        · exact absurd (Option.some.inj h).symm ha.1
        · exact ih h ha.2
      · exact ih h ha.2

end Closed

/-- A level is the same, apart from where the walk stands on it. -/
structure Frame.Same (f f' : Frame) : Prop where
  /-- The node above. -/
  parent : f'.parent = f.parent
  /-- What the level ends at. -/
  stop : f'.stop = f.stop
  /-- What is done on it. -/
  mode : f'.mode = f.mode

theorem Frame.Same.refl (f : Frame) : f.Same f := ⟨rfl, rfl, rfl⟩

theorem Frame.Same.trans {f f' f'' : Frame} (h : f.Same f') (h' : f'.Same f'') : f.Same f'' :=
  ⟨h'.parent.trans h.parent, h'.stop.trans h.stop, h'.mode.trans h.mode⟩

namespace Walk

variable {α β γ : Type} {w w' : Walk α} {f f' : Frame} {fs : List Frame}
  {done ahead tail : List DomId}

/-- One step of a walk behind another one. -/
theorem bind_ok {x : WalkM α β} {k : β → WalkM α γ} {b : β} (h : x.run w = .ok (b, w')) :
    (x >>= k).run w = (k b).run w' := by
  rw [StateT.run_bind, h]
  rfl

/-- Where a walk stands: on the innermost level it has passed some children, some are ahead, and
the level ends where the others begin. -/
structure At (w : Walk α) (f : Frame) (fs : List Frame) (done ahead tail : List DomId) : Prop where
  /-- The levels. -/
  frames : w.cursor.frames = f :: fs
  /-- The nodes form trees. -/
  treelike : w.document.Treelike
  /-- The node above is in the arena. -/
  held : f.parent.index < w.document.nodes.size
  /-- The children of the node above. -/
  children : w.document.children f.parent = done ++ (ahead ++ tail)
  /-- The level ends where the rest begins. -/
  stop : f.stop = tail.head?
  /-- A walk that claims goes on with what is ahead. -/
  next : f.mode = .hydrate → f.next = (ahead ++ tail).head?
  /-- A walk that creates has nothing ahead. -/
  creating : f.mode = .create → f.next = none ∧ ahead = []
  /-- A level between the ends of a fragment holds no other fragment by half. -/
  closed : f.stop ≠ none → Closed w.document.kind ahead

/-- What a step has done on a level. -/
structure Moves (w w' : Walk α) (p : DomId) (used : List DomId) : Prop where
  /-- Only children of the node above, and what stands below the used ones of them, have changed. -/
  redrawn : w.document.Redrawn w'.document p used
  /-- What could not be repaired stays so. -/
  unresolved : w.unresolved = true → w'.unresolved = true

/-- Two moves along a level, one after the other. -/
theorem Moves.trans {w'' : Walk α} {p : DomId} {used more : List DomId} (h : w.Moves w' p used)
    (hd : w.document.Treelike) (h' : w'.Moves w'' p more) : w.Moves w'' p (used ++ more) :=
  ⟨h.redrawn.trans hd h'.redrawn, fun hw => h'.unresolved (h.unresolved hw)⟩

/-- The current level is the innermost one. -/
theorem frame_run (h : w.cursor.frames = f :: fs) :
    (frame : WalkM α Frame).run w = .ok (f, w) := by
  simp [frame, frame?, h]
  rfl

/-- Nodes are claimed or created as the current level says. -/
theorem mode_run (h : w.cursor.frames = f :: fs) : (mode : WalkM α Mode).run w = .ok (f.mode, w) :=
  bind_ok (frame_run h)

namespace At

/-- The anchor of a level is the node that comes next. -/
theorem anchor (h : w.At f fs done ahead tail) : f.anchor = (ahead ++ tail).head? := by
  rw [Frame.anchor]
  cases hmode : f.mode with
  | create =>
    obtain ⟨hnext, rfl⟩ := h.creating hmode
    rw [hnext, Option.none_or, h.stop, List.nil_append]
  | hydrate =>
    rw [h.next hmode, h.stop]
    cases ahead with
    | nil =>
      cases tail with
      | nil => rfl
      | cons y tail => rfl
    | cons x ahead => rfl

/-- No node stands twice on a level. -/
theorem nodup (h : w.At f fs done ahead tail) : (done ++ (ahead ++ tail)).Nodup := by
  rw [← h.children]
  exact h.treelike.nodup f.parent

/-- The three parts have no nodes in common. -/
theorem disjoint (h : w.At f fs done ahead tail) :
    (∀ x ∈ done, x ∉ ahead ∧ x ∉ tail) ∧ ∀ x ∈ ahead, x ∉ tail := by
  have hnodup := h.nodup
  rw [List.nodup_append, List.nodup_append] at hnodup
  obtain ⟨-, ⟨-, -, hapart⟩, hdone⟩ := hnodup
  refine ⟨fun x hx => ⟨fun hmem => ?_, fun hmem => ?_⟩, fun x hx hmem => hapart x hx x hmem rfl⟩
  · exact hdone x hx x (List.mem_append_left _ hmem) rfl
  · exact hdone x hx x (List.mem_append_right _ hmem) rfl

/-- The nodes that are still ahead are those that the walk sees. -/
theorem ahead_eq (h : w.At f fs done ahead tail) (hmode : f.mode = .hydrate) :
    w.ahead f = ahead ++ tail := by
  have hchildren := h.children
  rw [Walk.ahead, h.next hmode]
  cases hl : ahead ++ tail with
  | nil => rfl
  | cons x l =>
    rw [hl] at hchildren
    exact h.treelike.fromSibling_eq hchildren

/-- The step over nodes that nobody can claim. -/
theorem candidate_spec (h : w.At f fs done ahead tail) (hmode : f.mode = .hydrate)
    (wantsText : Bool) : ∃ w' f' skipped rest,
      (candidate wantsText).run w = .ok (rest.head?, w') ∧ ahead = skipped ++ rest ∧
      w'.At f' fs (done ++ skipped) rest tail ∧ f.Same f' ∧ w'.document = w.document ∧
      w'.unresolved = w.unresolved ∧ w'.report = w.report.addSkipped skipped.length ∧
      (∀ x ∈ skipped, isCandidate wantsText (w.document.kind x) = false) ∧
      ∀ x ∈ rest.head?, isCandidate wantsText (w.document.kind x) = true := by
  obtain ⟨skipped, rest, rfl, hlook, hskipped, hrest⟩ :=
    lookAhead_spec w.document.kind wantsText fun x hx (hmem : x ∈ ahead) =>
      h.disjoint.2 x hmem (List.mem_of_mem_head? hx)
  refine ⟨{ w with
      report := w.report.addSkipped skipped.length
      cursor := { w.cursor with frames := { f with next := (rest ++ tail).head? } :: fs } },
    { f with next := (rest ++ tail).head? }, skipped, rest, ?_, rfl, ?_, ⟨rfl, rfl, rfl⟩, rfl, rfl,
    rfl, hskipped, hrest⟩
  · simp only [candidate, StateT.run_bind, StateT.run_get, pure_bind, frame?, h.frames,
      List.head?_cons]
    rw [← h.stop] at hlook
    rw [h.ahead_eq hmode, hlook]
    simp only [modifyFrame, modifyReport, h.frames]
    rfl
  · refine ⟨rfl, h.treelike, h.held, ?_, h.stop, fun _ => rfl, fun hcreate => ?_,
      fun hstop => (h.closed hstop).suffix⟩
    · show w.document.children f.parent = _
      rw [h.children, List.append_assoc, List.append_assoc]
    · rw [hmode] at hcreate
      cases hcreate

end At

end Walk

end Hydration

end Rivulet
