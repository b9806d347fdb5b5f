import Rivulet.Proofs.Hydration.Levels

/-!
# Claiming nodes

What a walk provides is of the kind that was asked for, stands where the walk stood, and has cost
no more than what was ahead there. What is passed over on the way has no skeleton, and what is in
the way is removed. So a level always consists of what was provided, nodes without a skeleton, and
what is still ahead.
-/

namespace Rivulet.Hydration

open Markup

/-- What a bare kind has to be for what was asked for. -/
inductive Expected.Fits : Expected → Kind → Prop
  /-- A keyed element of the tag, up to case. -/
  | element {want tag : String} (h : Text.lowerAscii tag.toList = Text.lowerAscii want.toList) :
      Fits (.element want) (.element tag [(keyAttribute, "")])
  /-- A text. -/
  | text (content : String) : Fits (.text content) (.text "")
  /-- The wrapper. -/
  | wrapper (w : Wrapper) : Fits (.wrapper w) (.wrapper w [])

/-- A node that is created fits. -/
theorem Expected.fits_kind (expected : Expected) (attrs : List (String × String)) :
    expected.Fits (expected.kind attrs).bare := by
  cases expected with
  | element tag =>
    rw [kind, Kind.bare_elementKind]
    exact .element rfl
  | text content => exact .text content
  | wrapper w => exact .wrapper w

/-- A node that was rendered here and is accepted fits. -/
theorem Expected.fits_of_accepts {expected : Expected} {kind : Kind}
    (h : expected.accepts kind = true) (hown : kind.isForeign = false) :
    expected.Fits kind.bare := by
  cases expected with
  | element want =>
    cases kind with
    | element tag attrs =>
      have hkey : attrs.has keyAttribute = true := by simpa [Kind.isForeign] using hown
      rw [Kind.bare, if_pos hkey]
      exact .element (by simpa [accepts] using h)
    | _ => cases h
  | text content =>
    cases kind with
    | text old => exact .text content
    | _ => cases h
  | wrapper want =>
    cases kind with
    | wrapper w attrs =>
      obtain rfl : w = want := by simpa [accepts] using h
      exact .wrapper w
    | _ => cases h

namespace Walk

variable {α : Type} {w w' w'' : Walk α} {f f' f'' : Frame} {fs : List Frame}
  {done new more used ahead tail : List DomId}

/-- A walk has gone on along a level: there are new nodes behind it, and fewer ahead. -/
structure Advances (w w' : Walk α) (f f' : Frame) (fs : List Frame)
    (done new used ahead tail : List DomId) : Prop where
  /-- Where the walk stood. -/
  here : w.At f fs done (used ++ ahead) tail
  /-- Where the walk stands now. -/
  there : w'.At f' fs (done ++ new) ahead tail
  /-- It is the same level. -/
  same : f.Same f'
  /-- What has changed. -/
  moves : w.Moves w' f.parent used
  /-- A walk that creates leaves nothing unresolved. -/
  creates : f.mode = .create → w'.unresolved = w.unresolved

namespace Advances

theorem refl (h : w.At f fs done ahead tail) : w.Advances w f f fs done [] [] ahead tail where
  here := h
  there := by rwa [List.append_nil]
  same := .refl f
  moves := ⟨.refl h.treelike f.parent [], fun hw => hw⟩
  creates _ := rfl

theorem trans {taken : List DomId} (h : w.Advances w' f f' fs done new used (taken ++ ahead) tail)
    (h' : w'.Advances w'' f' f'' fs (done ++ new) more taken ahead tail) :
    w.Advances w'' f f'' fs done (new ++ more) (used ++ taken) ahead tail where
  here := by
    rw [List.append_assoc]
    exact h.here
  there := by
    rw [← List.append_assoc]
    exact h'.there
  same := h.same.trans h'.same
  moves := h.moves.trans h.here.treelike (h.same.parent ▸ h'.moves)
  creates hmode := (h'.creates (h.same.mode.trans hmode)).trans (h.creates hmode)

/-- What was used stood below the node above. -/
theorem used_mem (h : w.Advances w' f f' fs done new used ahead tail) :
    ∀ a ∈ used, a ∈ w.document.children f.parent := by
  intro a ha
  rw [h.here.children]
  exact List.mem_append_right _ (List.mem_append_left _ (List.mem_append_left _ ha))

/-- What the walk has passed before bears what it bore. -/
theorem bears {ids : List DomId} {ts : List Skeleton}
    (h : w.Advances w' f f' fs done new used ahead tail) (hb : w.document.Bears ids ts)
    (hids : ∀ x ∈ ids, x ∈ done) : w'.document.Bears ids ts := by
  refine hb.redrawn h.here.treelike h.moves.redrawn h.used_mem fun x hx => ⟨?_, fun hu => ?_⟩
  · rw [h.here.children]
    exact List.mem_append_left _ (hids x hx)
  · exact (h.here.disjoint.1 x (hids x hx)).1 (List.mem_append_left _ hu)

/-- What the walk has passed before and has no skeleton gets none. -/
theorem silent_passed {ids : List DomId} (h : w.Advances w' f f' fs done new used ahead tail)
    (hids : ∀ x ∈ ids, x ∈ done) (hsilent : ∀ x ∈ ids, Silent (w.document.kind x)) :
    ∀ x ∈ ids, Silent (w'.document.kind x) := by
  intro x hx
  have hold : x ∈ w.document.children f.parent := by
    rw [h.here.children]
    exact List.mem_append_left _ (hids x hx)
  rw [← silent_bare, h.moves.redrawn.bare x (h.here.treelike.holds _ _ hold), silent_bare]
  exact hsilent x hx

/-- Something else about the walk may change behind a step. -/
theorem remark (h : w.Advances w' f f' fs done new used ahead tail)
    (hdocument : w''.document = w'.document) (hframes : w''.cursor.frames = w'.cursor.frames)
    (hunresolved : w'.unresolved = true → w''.unresolved = true)
    (hcreates : f.mode = .create → w''.unresolved = w'.unresolved) :
    w.Advances w'' f f' fs done new used ahead tail where
  here := h.here
  there := by
    have hat := h.there
    refine ⟨hframes.trans hat.frames, ?_, ?_, ?_, hat.stop, hat.next, hat.creating, ?_⟩ <;>
      rw [hdocument]
    · exact hat.treelike
    · exact hat.held
    · exact hat.children
    · exact hat.closed
  same := h.same
  moves := ⟨hdocument ▸ h.moves.redrawn, fun hw => hunresolved (h.moves.unresolved hw)⟩
  creates hmode := (hcreates hmode).trans (h.creates hmode)

end Advances

/-- Nodes that nobody can claim are passed over. -/
theorem At.skips (h : w.At f fs done ahead tail) (hmode : f.mode = .hydrate) (wantsText : Bool) :
    ∃ w' f' skipped rest, (candidate wantsText).run w = .ok (rest.head?, w') ∧
      ahead = skipped ++ rest ∧ w.Advances w' f f' fs done skipped skipped rest tail ∧
      w'.document = w.document ∧ w'.report.claimed = w.report.claimed ∧
      (∀ x ∈ skipped, Silent (w'.document.kind x)) ∧
      ∀ x ∈ rest.head?, isCandidate wantsText (w'.document.kind x) = true := by
  obtain ⟨w', f', skipped, rest, hrun, rfl, hat, hsame, hdocument, hunresolved, hreport, hskipped,
    hfound⟩ := h.candidate_spec hmode wantsText
  have hadvances : w.Advances w' f f' fs done skipped skipped rest tail :=
    { here := h
      there := hat
      same := hsame
      moves := ⟨hdocument ▸ .refl h.treelike f.parent skipped, fun hw => hunresolved ▸ hw⟩
      creates := fun _ => hunresolved }
  refine ⟨w', f', skipped, rest, hrun, rfl, hadvances, hdocument, by rw [hreport]; rfl,
    fun x hx => ?_, hdocument ▸ hfound⟩
  rw [hdocument]
  exact silent_of_not_candidate (hskipped x hx)

/-- A new node stands where the walk stood. -/
theorem At.createHere_spec (h : w.At f fs done ahead tail) (expected : Expected)
    (attrs : List (String × String)) : ∃ id w',
      (createHere expected attrs).run w = .ok (id, w') ∧
      w.Advances w' f f fs done [id] [] ahead tail ∧
      w.document.Inserted w'.document f.parent id (ahead ++ tail).head? (expected.kind attrs) ∧
      w'.unresolved = w.unresolved ∧ w'.report.claimed = w.report.claimed ∧
      w'.cursor.last = some (id, true) := by
  have hins := h.treelike.inserted h.held (expected.kind attrs) (ahead ++ tail).head?
  refine ⟨⟨w.document.nodes.size⟩, { w with
    document := (w.document.create (expected.kind attrs)).2.insertBefore f.parent
      ⟨w.document.nodes.size⟩ (ahead ++ tail).head?
    report := w.report.addCreated 1
    cursor := { w.cursor with last := some (⟨w.document.nodes.size⟩, true) } }, ?_,
    ⟨h, ?_, .refl f, ⟨hins.redrawn, fun hw => hw⟩, fun _ => rfl⟩, hins, rfl, rfl, rfl⟩
  · rw [createHere, bind_ok (frame_run h.frames), h.anchor]
    rfl
  · refine ⟨h.frames, hins.redrawn.treelike, Nat.lt_of_lt_of_le h.held hins.redrawn.size, ?_,
      h.stop, h.next, h.creating, fun hstop => (h.closed hstop).congr fun x hx => ?_⟩
    · show Document.children (Document.insertBefore _ _ _ _) f.parent = _
      rw [hins.children, h.children, Document.insertIn_head]
      · simp
      · exact h.nodup
    · refine marker_iff_of_bare (hins.redrawn.bare x (h.treelike.holds f.parent x ?_))
      rw [h.children]
      exact List.mem_append_right _ (List.mem_append_left _ hx)

/-- A walk that claims and is to go on behind a node, wherever it stands now. -/
structure Facing (w : Walk α) (f : Frame) (fs : List Frame) (done : List DomId) (id : DomId)
    (ahead tail : List DomId) : Prop where
  /-- The levels. -/
  frames : w.cursor.frames = f :: fs
  /-- The nodes form trees. -/
  treelike : w.document.Treelike
  /-- The node above is in the arena. -/
  held : f.parent.index < w.document.nodes.size
  /-- The children of the node above. -/
  children : w.document.children f.parent = done ++ id :: (ahead ++ tail)
  /-- The level ends where the rest begins. -/
  stop : f.stop = tail.head?
  /-- Nodes are claimed. -/
  hydrates : f.mode = .hydrate
  /-- A level between the ends of a fragment holds no other fragment by half. -/
  closed : f.stop ≠ none → Closed w.document.kind ahead

/-- The next node is the one that the walk goes on behind. -/
theorem At.facing {id : DomId} (h : w.At f fs done (id :: ahead) tail) (hmode : f.mode = .hydrate) :
    w.Facing f fs done id ahead tail :=
  ⟨h.frames, h.treelike, h.held, h.children, h.stop, hmode,
    fun hstop => (h.closed hstop).suffix (a := [id])⟩

namespace Facing

variable {id : DomId}

/-- Going past a node moves the current level behind it. -/
theorem advancePast_eq (h : w.Facing f fs done id ahead tail) : w.advancePast id = { w with
    cursor := { w.cursor with frames := { f with next := (ahead ++ tail).head? } :: fs } } := by
  rw [advancePast, modifyFrame, h.frames, h.treelike.nextSibling?_eq h.children]

/-- Behind a node the walk stands at the next one. -/
theorem at_advancePast (h : w.Facing f fs done id ahead tail) :
    (w.advancePast id).At { f with next := (ahead ++ tail).head? } fs
    (done ++ [id]) ahead tail := by
  rw [h.advancePast_eq]
  refine ⟨rfl, h.treelike, h.held, ?_, h.stop, fun _ => rfl, fun hmode => ?_, h.closed⟩
  · rw [List.append_assoc]
    exact h.children
  · rw [h.hydrates] at hmode
    cases hmode

/-- What does not show in bare kinds does not matter to a walk. -/
theorem tinted {d : Document α} (h : w.Facing f fs done id ahead tail)
    (hd : w.document.Tinted d) : { w with document := d }.Facing f fs done id ahead tail :=
  ⟨h.frames, h.treelike.congr hd.size hd.children hd.parent, hd.size ▸ h.held,
    (hd.children _).trans h.children, h.stop, h.hydrates,
    fun hstop => (h.closed hstop).congr fun x _ => marker_iff_of_bare (hd.bare x)⟩

/-- A claimed node is brought into line, and the walk goes on behind it. -/
theorem adopt_spec (h : w.Facing f fs done id ahead tail)
    (hown : (w.document.kind id).isForeign = false) (expected : Expected)
    (attrs : List (String × String)) (patch : Bool) : ∃ w',
      (adopt id expected attrs patch).run w = .ok (id, w') ∧
      w'.At { f with next := (ahead ++ tail).head? } fs (done ++ [id]) ahead tail ∧
      w.document.Tinted w'.document ∧ w'.unresolved = w.unresolved ∧
      w'.report = w.report.addClaimed 1 ∧ w'.cursor.last = some (id, false) := by
  have hattrs := Document.tinted_setAttrs hown attrs
  obtain ⟨d, hpatched, hadopt⟩ : ∃ d, w.document.Tinted d ∧
      (adopt id expected attrs patch).run w = .ok (id,
        ((({ w with document := d }.advancePast id).modifyReport (·.addClaimed 1)).setLast
            id false)) := by
    cases expected with
    | text content =>
      cases patch with
      | true => exact ⟨_, hattrs.trans (Document.tinted_setText _ id content), rfl⟩
      | false => exact ⟨_, hattrs, rfl⟩
    | element _ => exact ⟨_, hattrs, rfl⟩
    | wrapper _ => exact ⟨_, hattrs, rfl⟩
  have hfacing := h.tinted hpatched
  have hat := hfacing.at_advancePast
  rw [hfacing.advancePast_eq] at hat hadopt
  exact ⟨_, hadopt, ⟨hat.frames, hat.treelike, hat.held, hat.children, hat.stop, hat.next,
    hat.creating, hat.closed⟩, hpatched, rfl, rfl, rfl⟩

end Facing

/-! ## Making room -/

/-- A node of a list without the node. -/
theorem filter_ne_middle {a b : List DomId} {x : DomId} (h : (a ++ x :: b).Nodup) :
    (a ++ x :: b).filter (· ≠ x) = a ++ b := by
  have hout {y : DomId} (hy : y ∈ a ∨ y ∈ b) : y ≠ x := by
    rintro rfl
    rw [List.nodup_append, List.nodup_cons] at h
    rcases hy with hy | hy
    · exact h.2.2 y hy y List.mem_cons_self rfl
    · exact h.2.1.1 hy
  rw [List.filter_append, List.filter_cons_of_neg (by simp),
    List.filter_eq_self.2 fun y hy => decide_eq_true (hout (Or.inl hy)),
    List.filter_eq_self.2 fun y hy => decide_eq_true (hout (Or.inr hy))]

/-- Nodes in the way are removed; those that have no skeleton stay. -/
theorem discards_spec (expected : Expected) {p : DomId} : ∀ (l : List DomId) {w : Walk α}
    {a b : List DomId}, w.document.Treelike → w.document.children p = a ++ (l ++ b) →
      let w' := l.foldl (discard expected) w
      w'.cursor = w.cursor ∧ w'.unresolved = w.unresolved ∧
        w'.report.claimed = w.report.claimed ∧ w.document.Redrawn w'.document p [] ∧
        w'.document.children p =
          a ++ (l.filter (fun x => !isCandidate false (w.document.kind x)) ++ b) ∧
        ∀ j, w'.document.kind j = w.document.kind j
  | [], w, a, b, hd, hc => ⟨rfl, rfl, rfl, .refl hd p [], hc, fun _ => rfl⟩
  | x :: l, w, a, b, hd, hc => by
    have hmem : x ∈ w.document.children p := by simp [hc]
    rw [List.foldl_cons]
    by_cases hx : isCandidate false (w.document.kind x) = true
    · have hfirst : (discard expected w x).document = w.document.remove x := by
        rw [discard, if_pos hx]
        rfl
      have hkept : (discard expected w x).cursor = w.cursor ∧
          (discard expected w x).unresolved = w.unresolved ∧
          (discard expected w x).report.claimed = w.report.claimed := by
        rw [discard, if_pos hx]
        exact ⟨rfl, rfl, rfl⟩
      have hredrawn := hd.redrawn_remove hmem
      have hchildren : (w.document.remove x).children p = a ++ (l ++ b) := by
        rw [hd.children_remove_self hmem, hc, List.cons_append,
          filter_ne_middle (by rw [← List.cons_append, ← hc]; exact hd.nodup p)]
      rw [← hfirst] at hredrawn hchildren
      obtain ⟨hcursor, hunresolved, hclaimed, hrest, hcs, hkind⟩ :=
        discards_spec expected l hredrawn.treelike hchildren
      have hsame (j : DomId) : (discard expected w x).document.kind j = w.document.kind j := by
        rw [hfirst, Document.kind_remove]
      refine ⟨hcursor.trans hkept.1, hunresolved.trans hkept.2.1, hclaimed.trans hkept.2.2,
        hredrawn.trans hd hrest, ?_, fun j => (hkind j).trans (hsame j)⟩
      rw [hcs, List.filter_cons_of_neg (by simp [hx])]
      simp only [hsame]
    · have hfirst : (discard expected w x).document = w.document := by
        rw [discard, if_neg hx]
        rfl
      have hkept : (discard expected w x).cursor = w.cursor ∧
          (discard expected w x).unresolved = w.unresolved ∧
          (discard expected w x).report.claimed = w.report.claimed := by
        rw [discard, if_neg hx]
        exact ⟨rfl, rfl, rfl⟩
      have hchildren : (discard expected w x).document.children p = (a ++ [x]) ++ (l ++ b) := by
        rw [hfirst, hc]
        simp
      obtain ⟨hcursor, hunresolved, hclaimed, hrest, hcs, hkind⟩ :=
        discards_spec expected l (hfirst ▸ hd) hchildren
      rw [hfirst] at hrest
      refine ⟨hcursor.trans hkept.1, hunresolved.trans hkept.2.1, hclaimed.trans hkept.2.2, hrest,
        ?_, fun j => ?_⟩
      · rw [hcs, List.filter_cons_of_pos (by simp [hx])]
        simp [hfirst]
      · rw [hkind, hfirst]

/-- A later match stands on the level, before its end. -/
theorem At.laterMatch_spec {found matched : DomId} {expected : Expected}
    (h : w.At f fs done (found :: ahead) tail)
    (hmatch : w.laterMatch f expected found = some matched) :
    (∃ gap rest, ahead = gap ++ matched :: rest) ∧
      (w.document.kind matched).isForeign = false ∧
      expected.accepts (w.document.kind matched) = true := by
  rw [laterMatch] at hmatch
  split at hmatch
  · cases hmatch
  · have hfound := List.find?_some hmatch
    have hmem := List.mem_of_find?_eq_some hmatch
    simp only [Bool.and_eq_true, Bool.not_eq_true'] at hfound
    refine ⟨List.append_of_mem ?_, hfound⟩
    have hfollowing : w.document.following found = ahead ++ tail :=
      h.treelike.following_eq h.children
    rw [hfollowing] at hmem
    have hstop := h.stop
    clear hmatch hfound h hfollowing
    induction ahead with
    | nil =>
      cases tail with
      | nil => cases hmem
      | cons y tail => simp [hstop] at hmem
    | cons x ahead ih =>
      rw [List.cons_append, List.takeWhile_cons] at hmem
      split at hmem
      · rcases List.mem_cons.1 hmem with rfl | hmem
        · exact List.mem_cons_self
        · exact List.mem_cons_of_mem x (ih hmem)
      · cases hmem

/-- Where a node that was provided comes from, and whether it is counted as claimed. -/
inductive Provided (w w' : Walk α) (mode : Mode) (id : DomId) (used : List DomId) : Prop
  /-- It was created. -/
  | created (last : w'.cursor.last = some (id, true)) (fresh : w.document.nodes.size ≤ id.index)
      (inside : w'.document.children id = []) (count : w'.report.claimed = w.report.claimed)
  /-- It was ahead and has been claimed. -/
  | claimed (last : w'.cursor.last = some (id, false)) (hydrates : mode = .hydrate)
      (old : id ∈ used) (inside : w'.document.children id = w.document.children id)
      (count : w'.report.claimed = w.report.claimed + 1)

/-- A step provides what is asked for: a node that fits, behind nodes without a skeleton. Only the
level changes. -/
def Provides (step : WalkM α DomId) (w : Walk α) (f : Frame) (fs : List Frame)
    (done ahead tail : List DomId) (expected : Expected) : Prop :=
  ∃ id w' f' skipped used rest, step.run w = .ok (id, w') ∧ ahead = used ++ rest ∧
    w.Advances w' f f' fs done (skipped ++ [id]) used rest tail ∧
    w.document.Redrawn w'.document f.parent [] ∧ (∀ x ∈ skipped, Silent (w'.document.kind x)) ∧
    expected.Fits (w'.document.kind id).bare ∧ Provided w w' f.mode id used

/-- What is provided behind nodes that were passed over. -/
theorem Provides.behind {step step' : WalkM α DomId} {skipped : List DomId} {expected : Expected}
    (h : Provides step' w' f' fs (done ++ skipped) ahead tail expected)
    (hskip : w.Advances w' f f' fs done skipped skipped ahead tail)
    (hdocument : w'.document = w.document) (hclaimed : w'.report.claimed = w.report.claimed)
    (hsilent : ∀ x ∈ skipped, Silent (w'.document.kind x)) (hrun : step.run w = step'.run w') :
    Provides step w f fs done (skipped ++ ahead) tail expected := by
  obtain ⟨id, w'', f'', more, used, rest, hstep, rfl, hadv, hredrawn, hmore, hfits, hprovided⟩ := h
  refine ⟨id, w'', f'', skipped ++ more, skipped ++ used, rest, hrun.trans hstep,
    (List.append_assoc _ _ _).symm, ?_, hskip.same.parent ▸ hdocument ▸ hredrawn, ?_, hfits, ?_⟩
  · rw [List.append_assoc]
    exact hskip.trans hadv
  · intro x hx
    rcases List.mem_append.1 hx with hx | hx
    · exact hadv.silent_passed (fun y hy => List.mem_append_right _ hy) hsilent x hx
    · exact hmore x hx
  · cases hprovided with
    | created last fresh inside count =>
      exact .created last (hdocument ▸ fresh) inside (count.trans hclaimed)
    | claimed last hydrates old inside count =>
      exact .claimed last (hskip.same.mode ▸ hydrates) (List.mem_append_right _ old)
        (hdocument ▸ inside) (hclaimed ▸ count)

/-- A new node where there is nothing ahead, or nothing to be claimed. -/
theorem At.provides_created (h : w.At f fs done ahead tail) (expected : Expected)
    (attrs : List (String × String)) {step : WalkM α DomId} (account : Report → Report)
    (haccount : ∀ r, (account r).claimed = r.claimed)
    (hstep : ∀ id w', (createHere expected attrs).run w = .ok (id, w') →
      step.run w = .ok (id, w'.modifyReport account)) :
    Provides step w f fs done ahead tail expected := by
  obtain ⟨id, w', hrun, hadv, hins, -, hclaimed, hlast⟩ := h.createHere_spec expected attrs
  refine ⟨id, w'.modifyReport account, f, [], [], ahead, hstep id w' hrun, rfl,
    hadv.remark rfl rfl (fun hw => hw) fun _ => rfl, hins.redrawn, by simp, ?_,
    .created hlast hins.fresh.ge hins.inside ((haccount _).trans hclaimed)⟩
  show expected.Fits (w'.document.kind id).bare
  rw [hins.kind]
  exact expected.fits_kind attrs

/-- The node that is ahead, or a later one with what is in the way gone. -/
theorem At.provides_adopted {id : DomId} (gap : List DomId)
    (h : w.At f fs done (gap ++ id :: ahead) tail) (hmode : f.mode = .hydrate)
    (hown : (w.document.kind id).isForeign = false) (expected : Expected)
    (haccepts : expected.accepts (w.document.kind id) = true) (attrs : List (String × String))
    (patch : Bool) :
    Provides (do
      modify fun w => gap.foldl (discard expected) w
      adopt id expected attrs patch) w f fs done (gap ++ id :: ahead) tail expected := by
  obtain ⟨hcursor, hunresolved, hclaimed, hredrawn, hchildren, hkind⟩ :=
    discards_spec expected gap (a := done) (b := id :: (ahead ++ tail)) h.treelike
      (by rw [h.children]; simp)
  let w₁ := gap.foldl (discard expected) w
  let kept := gap.filter fun x => !isCandidate false (w.document.kind x)
  have hfacing : w₁.Facing f fs (done ++ kept) id ahead tail := by
    refine ⟨hcursor ▸ h.frames, hredrawn.treelike, Nat.lt_of_lt_of_le h.held hredrawn.size, ?_,
      h.stop, hmode, fun hstop => ?_⟩
    · rw [List.append_assoc]
      exact hchildren
    · have hrest := (h.closed hstop).suffix (a := gap)
      exact (hrest.suffix (a := [id])).congr fun x _ _ => by rw [hkind]
  obtain ⟨w', hrun, hat, htinted, hunresolved', hreport, hlast⟩ :=
    hfacing.adopt_spec (by rw [hkind]; exact hown) expected attrs patch
  have hclaimed' : w'.report.claimed = w₁.report.claimed + 1 := congrArg Report.claimed hreport
  have hid : id ∈ w.document.children f.parent := by simp [h.children]
  have hlevel := hredrawn.trans h.treelike (htinted.redrawn hredrawn.treelike f.parent)
  have hadvances : w.Advances w' f { f with next := (ahead ++ tail).head? } fs done (kept ++ [id])
      (gap ++ [id]) ahead tail :=
    { here := by simpa using h
      there := by simpa using hat
      same := ⟨rfl, rfl, rfl⟩
      moves := by
        refine ⟨hlevel.mono h.treelike (by simp), ?_⟩
        rw [hunresolved', hunresolved]
        exact fun hw => hw
      creates := by
        rw [hmode]
        exact nofun }
  refine ⟨id, w', { f with next := (ahead ++ tail).head? }, kept, gap ++ [id], ahead, hrun, by simp,
    hadvances, hlevel, ?_, ?_, ?_⟩
  · intro x hx
    have hsilent : Silent (w.document.kind x) := by simpa [Silent] using (List.mem_filter.1 hx).2
    rw [← silent_bare, htinted.bare, silent_bare, hkind]
    exact hsilent
  · rw [htinted.bare, hkind]
    exact expected.fits_of_accepts haccepts hown
  · refine .claimed hlast hmode (by simp) ?_ (hclaimed'.trans (congrArg (· + 1) hclaimed))
    rw [htinted.children, hredrawn.children id (h.treelike.holds _ _ hid)
      (h.treelike.ne_child hid).symm
      (by simp)]

/-- A new node in place of the one that is ahead. -/
theorem At.provides_replaced {found : DomId} (h : w.At f fs done (found :: ahead) tail)
    (hmode : f.mode = .hydrate) (expected : Expected) (attrs : List (String × String)) :
    Provides (replace found expected attrs) w f fs done (found :: ahead) tail expected := by
  obtain ⟨id, w₁, hrun, hadv, hins, hunresolved, hclaimed, hlast⟩ :=
    h.createHere_spec expected attrs
  have hat := hadv.there
  have hmem : found ∈ w₁.document.children f.parent := by simp [hat.children]
  have hredrawn := hat.treelike.redrawn_remove hmem
  have hfacing : (w₁.modifyDocument (·.remove found)).Facing f fs done id ahead tail := by
    refine ⟨hat.frames, hredrawn.treelike, Nat.lt_of_lt_of_le hat.held hredrawn.size, ?_, hat.stop,
      hmode, fun hstop => ?_⟩
    · show (w₁.document.remove found).children f.parent = _
      have hnodup := hat.nodup
      rw [List.append_assoc, ← List.append_assoc done, List.cons_append] at hnodup
      rw [hat.treelike.children_remove_self hmem, hat.children, List.cons_append,
        filter_ne_middle hnodup]
      simp
    · exact ((hat.closed hstop).suffix (a := [found])).congr fun x _ _ => by
        rw [show (w₁.modifyDocument (·.remove found)).document = w₁.document.remove found from rfl,
          Document.kind_remove]
  have hout := hfacing.at_advancePast
  rw [hfacing.advancePast_eq] at hout
  let structural := isStructural expected (w.document.kind found)
  let account (r : Report) := (r.addDiscarded 1).record expected.describe
    (some (w.document.kind found).describe) (if structural then .escalated else .replaced)
  let f' : Frame := { f with next := (ahead ++ tail).head? }
  let w' : Walk α := { w₁ with
    document := w₁.document.remove found
    report := account w₁.report
    unresolved := structural || w₁.unresolved
    cursor := ⟨f' :: fs, some (id, true)⟩ }
  have hlevel := hins.redrawn.trans h.treelike hredrawn
  have hadvances : w.Advances w' f f' fs done [id] [found] ahead tail :=
    { here := h
      there := ⟨rfl, hout.treelike, hout.held, hout.children, hout.stop, hout.next, hout.creating,
        hout.closed⟩
      same := ⟨rfl, rfl, rfl⟩
      moves := by
        refine ⟨hlevel.mono h.treelike (by simp), fun hw => ?_⟩
        show (structural || w₁.unresolved) = true
        rw [hunresolved, hw, Bool.or_true]
      creates := by
        rw [hmode]
        exact nofun }
  refine ⟨id, w', f', [], [found], ahead, ?_, rfl, hadvances, hlevel, by simp, ?_, ?_⟩
  · have hrest : (replace found expected attrs).run w = .ok (id,
        ((fun u : Walk α => if structural then u.escalate else u)
          ((w₁.modifyDocument (·.remove found)).advancePast id)).modifyReport account) := by
      rw [replace, bind_ok (x := get) (b := w) rfl, bind_ok hrun]
      rfl
    rw [hrest, hfacing.advancePast_eq]
    have hcursor : w₁.cursor.last = some (id, true) := hlast
    cases hstructural : structural <;>
      simp [w', f', hstructural, escalate, modifyReport, modifyDocument, hcursor]
  · show expected.Fits ((w₁.document.remove found).kind id).bare
    rw [Document.kind_remove, hins.kind]
    exact expected.fits_kind attrs
  · refine .created rfl hins.fresh.ge ?_ hclaimed
    show (w₁.document.remove found).children id = []
    have hne : f.parent ≠ id := by
      rintro rfl
      exact absurd h.held (by rw [hins.fresh]; exact Nat.lt_irrefl _)
    rw [Document.children_remove, (hat.treelike.child _ _).1 hmem, if_neg (by simpa using hne),
      hins.inside]

section Looking

variable {w₁ : Walk α} {expected : Expected} (attrs : List (String × String)) (patch : Bool)

/-- Where nodes are created, a node is. -/
theorem claimNode_create (hmode : mode.run w = .ok (.create, w)) :
    (claimNode expected attrs patch).run w = (createHere expected attrs).run w := by
  rw [claimNode, bind_ok hmode]

private theorem claimNode_none (hmode : mode.run w = .ok (.hydrate, w))
    (hlook : (candidate expected.isText).run w = .ok (none, w₁)) :
    (claimNode expected attrs patch).run w = (do
      let id ← createHere expected attrs
      modify (·.modifyReport (·.record expected.describe none .inserted))
      return id : WalkM α DomId).run w₁ := by
  rw [claimNode, bind_ok hmode]
  exact bind_ok hlook

/-- A candidate that fits is claimed. -/
theorem claimNode_accepted {found : DomId} (hmode : mode.run w = .ok (.hydrate, w))
    (hlook : (candidate expected.isText).run w = .ok (some found, w₁))
    (haccepts : expected.accepts (w₁.document.kind found) = true) :
    (claimNode expected attrs patch).run w = (adopt found expected attrs patch).run w₁ := by
  rw [claimNode, bind_ok hmode]
  refine (bind_ok hlook).trans ((bind_ok (x := get) (b := w₁) rfl).trans ?_)
  rw [if_pos haccepts]

private theorem claimNode_later {found matched : DomId} (hmode : mode.run w = .ok (.hydrate, w))
    (hlook : (candidate expected.isText).run w = .ok (some found, w₁))
    (haccepts : ¬expected.accepts (w₁.document.kind found) = true)
    (hframe : frame.run w₁ = .ok (f, w₁)) (hmatch : w₁.laterMatch f expected found = some matched) :
    (claimNode expected attrs patch).run w = (do
      modify (·.discardUpTo found matched expected)
      adopt matched expected attrs patch : WalkM α DomId).run w₁ := by
  rw [claimNode, bind_ok hmode]
  refine (bind_ok hlook).trans ((bind_ok (x := get) (b := w₁) rfl).trans ?_)
  rw [if_neg haccepts]
  refine (bind_ok (x := get) (b := w₁) rfl).trans ((bind_ok hframe).trans ?_)
  rw [hmatch]

private theorem claimNode_unmatched {found : DomId} (hmode : mode.run w = .ok (.hydrate, w))
    (hlook : (candidate expected.isText).run w = .ok (some found, w₁))
    (haccepts : ¬expected.accepts (w₁.document.kind found) = true)
    (hframe : frame.run w₁ = .ok (f, w₁)) (hmatch : w₁.laterMatch f expected found = none) :
    (claimNode expected attrs patch).run w = (replace found expected attrs).run w₁ := by
  rw [claimNode, bind_ok hmode]
  refine (bind_ok hlook).trans ((bind_ok (x := get) (b := w₁) rfl).trans ?_)
  rw [if_neg haccepts]
  refine (bind_ok (x := get) (b := w₁) rfl).trans ((bind_ok hframe).trans ?_)
  rw [hmatch]

end Looking

/-- What a walk does for a node that is asked for. -/
theorem At.claimNode_spec (h : w.At f fs done ahead tail) (expected : Expected)
    (attrs : List (String × String)) (patch : Bool) :
    Provides (claimNode expected attrs patch) w f fs done ahead tail expected := by
  have hhere := mode_run h.frames
  cases hmode : f.mode with
  | create =>
    rw [hmode] at hhere
    refine h.provides_created expected attrs (·) (fun _ => rfl) fun id w' hrun => ?_
    exact (claimNode_create attrs patch hhere).trans hrun
  | hydrate =>
    rw [hmode] at hhere
    obtain ⟨w₁, f₁, skipped, rest, hlook, rfl, hskip, hdocument, hclaimed, hsilent, hfound⟩ :=
      h.skips hmode expected.isText
    have hat := hskip.there
    have hmode₁ : f₁.mode = .hydrate := hskip.same.mode.trans hmode
    cases rest with
    | nil =>
      refine (hat.provides_created expected attrs (·.record expected.describe none .inserted)
        (fun _ => rfl) fun id w' hcreate => ?_).behind hskip hdocument hclaimed hsilent
          (claimNode_none attrs patch hhere hlook)
      exact bind_ok hcreate
    | cons found rest =>
      have hfound' := hfound found rfl
      by_cases haccepts : expected.accepts (w₁.document.kind found) = true
      · refine (hat.provides_adopted [] hmode₁ ?_ expected haccepts attrs patch).behind hskip
          hdocument hclaimed hsilent (claimNode_accepted attrs patch hhere hlook haccepts)
        simp only [isCandidate, Bool.and_eq_true, Bool.not_eq_true'] at hfound'
        exact hfound'.1
      · have hframe := frame_run hat.frames
        cases hmatch : w₁.laterMatch f₁ expected found with
        | none =>
          exact (hat.provides_replaced hmode₁ expected attrs).behind hskip hdocument
            hclaimed hsilent
            (claimNode_unmatched attrs patch hhere hlook haccepts hframe hmatch)
        | some matched =>
          obtain ⟨⟨gap, later, rfl⟩, hown, haccepts'⟩ := hat.laterMatch_spec hmatch
          have hgap : w₁.discardUpTo found matched expected =
              (found :: gap).foldl (discard expected) w₁ := by
            have hlevel : (found :: (gap ++ matched :: later)) ++ tail =
                (found :: gap) ++ matched :: (later ++ tail) := by simp
            have hnodup := (List.nodup_append.1 hat.nodup).2.1
            rw [hlevel, List.nodup_append] at hnodup
            have hnot : matched ∉ found :: gap := fun hmem =>
              hnodup.2.2 matched hmem matched List.mem_cons_self rfl
            have hfrom := (hat.treelike.fromSibling_eq hat.children).trans hlevel
            rw [discardUpTo, hfrom, Document.takeWhile_ne_append hnot]
          refine (hat.provides_adopted (found :: gap) hmode₁ hown expected haccepts' attrs
            patch).behind hskip hdocument hclaimed hsilent
              ((claimNode_later attrs patch hhere hlook haccepts hframe hmatch).trans ?_)
          exact congrArg (adopt matched expected attrs patch).run hgap

end Walk

end Rivulet.Hydration
