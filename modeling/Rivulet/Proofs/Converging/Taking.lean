import Rivulet.Proofs.Converging.Adding
import Rivulet.Proofs.Drafting.Sweeping
import Rivulet.Proofs.Hydration.Imprints

/-!
# Walks that get what they ask for

A walk that claims, over markup that shows what is asked for, claims all of that, passes over what
else is there, and leaves everything as it is but texts and attributes. A walk that creates leaves
behind what shows what was asked for, and nothing else. Both are told together, part by part along a
level, as a template does not know which of them it draws with.
-/

namespace Rivulet.Hydration.Walk

open Markup Imprint

variable {α : Type} {w w₁ w₂ w' w'' u v v' : Walk α} {f f₁ f₂ f' f'' g : Frame} {fs : List Frame}
  {done new more used taken inside ahead tail front rest : List DomId} {id : DomId}
  {expected : Expected} {i : Imprint} {is js us later : List Imprint} {k n N : Nat} {m : Markers}

/-- What is ahead on a level that is claimed shows what is asked for. -/
def Expects (w : Walk α) (f : Frame) (ahead : List DomId) (is : List Imprint) (n : Nat) : Prop :=
  f.mode = .hydrate → w.document.Shows ahead is n

/-- A walk has claimed some nodes and passed over others, and nothing else has come of it. -/
structure Agrees (w w' : Walk α) (claimed skipped : Nat) : Prop where
  /-- Only texts and attributes have changed. -/
  document : w.document.Tinted w'.document
  /-- That is all that went to the account. -/
  report : w'.report = (w.report.addClaimed claimed).addSkipped skipped

theorem Agrees.trans {a b a' b' : Nat} (h : w.Agrees w' a b) (h' : w'.Agrees w'' a' b') :
    w.Agrees w'' (a + a') (b + b') := by
  refine ⟨h.document.trans h'.document, ?_⟩
  rw [h'.report, h.report]
  simp [Report.addClaimed, Report.addSkipped, Nat.add_assoc]

/-- A walk has gone on along a level and got what was asked for: it has claimed it, or created
it. -/
structure Takes (w w' : Walk α) (f f' : Frame) (fs : List Frame)
    (done new used ahead tail : List DomId) (is : List Imprint) (n : Nat) : Prop
    extends w.Advances w' f f' fs done new used ahead tail where
  /-- Nodes that were there are what they were, and stand where they stood. -/
  level : w.document.Redrawn w'.document f.parent []
  /-- All could be repaired. -/
  resolved : w'.unresolved = w.unresolved
  /-- A walk that claims claims it all. -/
  agrees : f.mode = .hydrate → w.Agrees w' (sizes is) n
  /-- A walk that creates leaves nothing else behind. -/
  shows : f.mode = .create → w'.document.Shows new is 0

namespace Takes

theorem refl (h : w.At f fs done ahead tail) : w.Takes w f f fs done [] [] ahead tail [] 0 where
  toAdvances := .refl h
  level := .refl h.treelike _ _
  resolved := rfl
  agrees _ := ⟨.refl _, rfl⟩
  shows _ := .nil

/-- One part behind another one. -/
theorem trans (h : w.Takes w' f f' fs done new used (taken ++ ahead) tail is n)
    (h' : w'.Takes w'' f' f'' fs (done ++ new) more taken ahead tail js k) :
    w.Takes w'' f f'' fs done (new ++ more) (used ++ taken) ahead tail (is ++ js) (n + k) where
  toAdvances := h.toAdvances.trans h'.toAdvances
  level := by
    have := h.level.trans h.here.treelike (h.same.parent ▸ h'.level)
    rwa [List.append_nil] at this
  resolved := h'.resolved.trans h.resolved
  agrees hmode := by
    rw [sizes_append]
    exact (h.agrees hmode).trans (h'.agrees (h.same.mode.trans hmode))
  shows hmode := by
    refine .append ((h.shows hmode).redrawn h'.here.treelike h'.level fun x hx => ?_)
      (h'.shows (h.same.mode.trans hmode))
    rw [h'.here.children]
    exact List.mem_append_left _ (List.mem_append_right _ hx)

end Takes

/-- A change that does not show in bare kinds. -/
theorem At.takes_tinted (w' : Walk α) (h : w.At f fs done ahead tail)
    (hd : w.document.Tinted w'.document) (hframes : w'.cursor.frames = w.cursor.frames)
    (hreport : w'.report = w.report) (hunresolved : w'.unresolved = w.unresolved) :
    w.Takes w' f f fs done [] [] ahead tail [] 0 where
  toAdvances := (h.adds_tinted w' hd hframes hunresolved).toAdvances
  level := hd.redrawn h.treelike _
  resolved := hunresolved
  agrees _ := ⟨hd, hreport⟩
  shows _ := .nil

/-- A walk has got what was asked for, and what is ahead then shows what is asked for later. -/
def Passes (w w' : Walk α) (f : Frame) (fs : List Frame) (done ahead tail : List DomId)
    (is later : List Imprint) (N : Nat) : Prop :=
  ∃ f' new used rest n k, ahead = used ++ rest ∧ N = n + k ∧
    w.Takes w' f f' fs done new used rest tail is n ∧ w'.Expects f' rest later k

/-- What is taken is passed, as long as what comes later is expected. -/
theorem Takes.passes (h : w.Takes w' f f' fs done new used rest tail is n)
    (hlater : w'.Expects f' rest later k) :
    w.Passes w' f fs done (used ++ rest) tail is later (n + k) :=
  ⟨f', new, used, rest, n, k, rfl, rfl, h, hlater⟩

/-- What does not show in bare kinds does not change what is expected. -/
theorem Expects.agrees (h : w.Expects f ahead is n) (hd : w.document.Treelike)
    (hagrees : f.mode = .hydrate → ∃ a b, w.Agrees w' a b) : w'.Expects f ahead is n := fun hmode =>
  let ⟨_, _, hagree⟩ := hagrees hmode
  (h hmode).tinted hd hagree.document

theorem Passes.refl (h : w.At f fs done ahead tail) (hexpects : w.Expects f ahead later N) :
    w.Passes w f fs done ahead tail [] later N :=
  ⟨f, [], [], ahead, 0, N, rfl, (Nat.zero_add N).symm, .refl h, hexpects⟩

/-- Something is taken, and then the walk passes on. -/
theorem Takes.then (h : w.Takes w' f f' fs done new used rest tail is n)
    (h' : w'.Passes w'' f' fs (done ++ new) rest tail js later N) :
    w.Passes w'' f fs done (used ++ rest) tail (is ++ js) later (n + N) := by
  obtain ⟨f'', more, taken, rest, a, b, rfl, rfl, h', hlater⟩ := h'
  exact ⟨f'', new ++ more, used ++ taken, rest, n + a, b, (List.append_assoc ..).symm,
    (Nat.add_assoc ..).symm, h.trans h', hlater⟩

/-- Passing takes no node out of the arena. -/
theorem Passes.size (h : w.Passes w' f fs done ahead tail is later N) :
    w.document.nodes.size ≤ w'.document.nodes.size := by
  obtain ⟨_, _, _, _, _, _, -, -, htakes, -⟩ := h
  exact htakes.level.size

/-- Texts and attributes may change behind a step, and so may the node that was provided last. -/
theorem Passes.tinted (h : w.Passes w' f fs done ahead tail is later N) (w'' : Walk α)
    (hd : w'.document.Tinted w''.document) (hframes : w''.cursor.frames = w'.cursor.frames)
    (hreport : w''.report = w'.report) (hunresolved : w''.unresolved = w'.unresolved) :
    w.Passes w'' f fs done ahead tail is later N := by
  obtain ⟨f', new, used, rest, n, k, rfl, rfl, htakes, hlater⟩ := h
  have hthere := htakes.there
  have hmore := htakes.then ⟨f', [], [], rest, 0, k, rfl, (Nat.zero_add k).symm,
    hthere.takes_tinted w'' hd hframes hreport hunresolved,
    fun hmode => (hlater hmode).tinted hthere.treelike hd⟩
  rwa [List.append_nil] at hmore

/-- A walk has got what was asked for on a whole level, and nothing is left over there. -/
structure Fills (u v : Walk α) (f : Frame) (done tail : List DomId) (us : List Imprint) (n : Nat) :
    Prop where
  /-- Nodes that were there are what they were, and stand where they stood. -/
  level : u.document.Redrawn v.document f.parent []
  /-- All could be repaired. -/
  resolved : v.unresolved = u.unresolved
  /-- A walk that claims claims it all. -/
  agrees : f.mode = .hydrate → u.Agrees v (sizes us) n
  /-- A walk that creates leaves nothing else behind. -/
  shows : f.mode = .create → ∃ new, v.document.children f.parent = done ++ (new ++ tail) ∧
    v.document.Shows new us 0

/-- Cursors do not matter. -/
theorem Fills.remark (h : u.Fills v f done tail us n) (hdocument : w.document = u.document)
    (hreport : w.report = u.report) (hunresolved : w.unresolved = u.unresolved)
    (hdocument' : w'.document = v.document) (hreport' : w'.report = v.report)
    (hunresolved' : w'.unresolved = v.unresolved) : w.Fills w' f done tail us n where
  level := by
    rw [hdocument, hdocument']
    exact h.level
  resolved := by rw [hunresolved, hunresolved', h.resolved]
  agrees hmode := by
    obtain ⟨hd, hr⟩ := h.agrees hmode
    exact ⟨by rw [hdocument, hdocument']; exact hd, by rw [hreport, hreport', hr]⟩
  shows hmode := hdocument' ▸ h.shows hmode

/-- A level on which nothing more is asked for is closed. -/
theorem Passes.fills (h : u.Passes v f fs done ahead tail us [] n) : ∃ g,
    v.cursor.frames = g :: fs ∧ f.Same g ∧ u.Fills (v.settleFrame g) f done tail us n := by
  obtain ⟨g, new, used, rest, a, b, rfl, rfl, htakes, hlater⟩ := h
  have hat := htakes.there
  have hrest : (∀ x ∈ rest, Silent (v.document.kind x)) ∧
      (f.mode = .hydrate → b = rest.length) := by
    cases hmode : g.mode with
    | hydrate =>
      obtain ⟨hlength, hsilent⟩ := (hlater hmode).silent
      exact ⟨hsilent, fun _ => hlength⟩
    | create =>
      obtain rfl := (hat.creating hmode).2
      refine ⟨by simp, fun hhydrate => ?_⟩
      rw [← htakes.same.mode, hmode] at hhydrate
      cases hhydrate
  refine ⟨g, hat.frames, htakes.same, ?_⟩
  rw [hat.settleFrame_silent hrest.1]
  refine ⟨htakes.level, htakes.resolved, fun hmode => ?_, fun hmode => ?_⟩
  · obtain rfl := hrest.2 hmode
    exact ⟨(htakes.agrees hmode).document, by
      rw [(htakes.agrees hmode).report]
      simp [Report.addClaimed, Report.addSkipped, Nat.add_assoc]⟩
  · obtain rfl := (hat.creating (htakes.same.mode.trans hmode)).2
    refine ⟨new, ?_, htakes.shows hmode⟩
    have hchildren := hat.children
    rw [htakes.same.parent] at hchildren
    simpa using hchildren

/-- A walk over a single level on which nothing more is asked for is over. -/
theorem Passes.fills_finish (h : u.Passes v f [] done ahead tail us [] n) :
    u.Fills v.finish f done tail us n := by
  obtain ⟨g, hframes, -, hfills⟩ := h.fills
  rw [finish_eq hframes]
  exact hfills.remark rfl rfl rfl rfl rfl rfl

/-- A list is taken apart in one way only at the first of its members that will do. -/
theorem eq_of_first {p : DomId → Bool} {a b c e : List DomId} {x : DomId} (h : a ++ x :: b = c ++ e)
    (ha : ∀ y ∈ a, p y = false) (hx : p x = true) (hc : ∀ y ∈ c, p y = false)
    (he : ∀ y ∈ e.head?, p y = true) : c = a ∧ e = x :: b := by
  rcases List.append_eq_append_iff.1 h with ⟨l, rfl, hl⟩ | ⟨l, rfl, rfl⟩
  · cases l with
    | nil => exact ⟨by simp, by simpa using hl.symm⟩
    | cons y l =>
      obtain ⟨rfl, -⟩ := List.cons.inj hl
      rw [hc x (by simp)] at hx
      cases hx
  · cases l with
    | nil => exact ⟨by simp, by simp⟩
    | cons y l =>
      have hy := he y (by simp)
      rw [ha y (by simp)] at hy
      cases hy

/-- A walk that claims finds what is asked for, behind nodes that it passes over. -/
theorem At.finds (h : w.At f fs done ahead tail) (hmode : f.mode = .hydrate)
    (hshows : w.document.Shows ahead (i :: later) N) : ∃ front here rest k j w₁ f₁,
      (candidate i.isText).run w = .ok (here.head?, w₁) ∧ ahead = front ++ (here ++ rest) ∧
      N = front.length + k + j ∧ w₁.At f₁ fs (done ++ front) (here ++ rest) tail ∧ f.Same f₁ ∧
      w₁.document = w.document ∧ w₁.unresolved = w.unresolved ∧
      w₁.report = w.report.addSkipped front.length ∧ (∀ x ∈ front, Silent (w.document.kind x)) ∧
      w.document.StandsFor here i k ∧ w.document.Shows rest later j := by
  obtain ⟨front, here, rest, k, j, rfl, rfl, hfront, hhere, hrest⟩ := hshows.split
  obtain ⟨id, l, rfl, hid⟩ := hhere.head
  obtain ⟨w₁, f₁, skipped, left, hrun, hsplit, hat, hsame, hdocument, hunresolved,
    hreport, hskipped,
    hfound⟩ := h.candidate_spec hmode i.isText
  obtain ⟨rfl, rfl⟩ := eq_of_first (p := fun x => isCandidate i.isText (w.document.kind x)) hsplit
    hfront hid hskipped hfound
  exact ⟨skipped, id :: l, rest, k, j, w₁, f₁, hrun, rfl, rfl, hat, hsame, hdocument, hunresolved,
    hreport, fun x hx => silent_of_not_candidate (hfront x hx), hhere, hrest⟩

/-! ## Nodes -/

/-- A node was provided that was asked for, with nothing but that to be told. -/
structure Meets (w w₁ : Walk α) (f f₁ : Frame) (fs : List Frame) (done front : List DomId)
    (id : DomId) (used ahead tail : List DomId) (expected : Expected) : Prop
    extends w.Offers w₁ f f₁ fs done front id used ahead tail expected where
  /-- Nodes that were there are what they were, and stand where they stood. -/
  level : w.document.Redrawn w₁.document f.parent []
  /-- All could be repaired. -/
  resolved : w₁.unresolved = w.unresolved
  /-- A walk that creates has created it. -/
  last_eq : w₁.cursor.last = some (id, decide (f.mode = .create))
  /-- A walk that claims has claimed it. -/
  agrees : f.mode = .hydrate → w.Agrees w₁ 1 front.length
  /-- A walk that creates passes over nothing. -/
  alone : f.mode = .create → front = []

/-- A node that is ahead is claimed. -/
theorem At.meets_claimed (h : w.At f fs done (front ++ id :: rest) tail) (hmode : f.mode = .hydrate)
    (hthere : w₁.At f₁ fs (done ++ front ++ [id]) rest tail) (hsame : f.Same f₁)
    (hd : w.document.Tinted w₁.document) (hunresolved : w₁.unresolved = w.unresolved)
    (hreport : w₁.report = (w.report.addSkipped front.length).addClaimed 1)
    (hlast : w₁.cursor.last = some (id, false)) (hfits : expected.Fits (w.document.kind id).bare)
    (hsilent : ∀ x ∈ front, Silent (w.document.kind x)) :
    w.Meets w₁ f f₁ fs done front id (front ++ [id]) rest tail expected where
  advances := by
    refine ⟨by simpa using h, by simpa using hthere, hsame,
      ⟨(hd.redrawn h.treelike _).mono h.treelike (by simp), fun hw => hunresolved.trans hw⟩,
      fun hcreate => ?_⟩
    rw [hmode] at hcreate
    cases hcreate
  silent x hx := by
    rw [← silent_bare, hd.bare, silent_bare]
    exact hsilent x hx
  fits := by rwa [hd.bare]
  provided := .claimed hlast hmode (by simp) (hd.children id) (by rw [hreport]; rfl)
  level := hd.redrawn h.treelike _
  resolved := hunresolved
  last_eq := by rw [hlast, hmode]; rfl
  agrees _ := ⟨hd, hreport⟩
  alone hcreate := by
    rw [hmode] at hcreate
    cases hcreate

/-- A node that is asked for as a whole. -/
theorem Meets.takes_whole
    (h : w.Meets w₁ f f₁ fs done front id used rest tail expected) :
    w.Takes w₁ f f₁ fs done (front ++ [id]) used rest tail [.whole expected] front.length where
  toAdvances := h.advances
  level := h.level
  resolved := h.resolved
  agrees := h.agrees
  shows hmode := by
    obtain rfl := h.alone hmode
    exact .whole h.fits .nil

/-- A node that is met is passed with all that it stands for. -/
theorem Meets.passes_whole (h : w.Meets w₁ f f₁ fs done front id used rest tail expected)
    (hstands : f.mode = .hydrate → w₁.document.StandsFor [id] (.whole expected) k)
    (hlater : w₁.Expects f₁ rest later n) :
    w.Passes w₁ f fs done (used ++ rest) tail [.whole expected] later (front.length + k + n) := by
  refine ⟨f₁, front ++ [id], used, rest, front.length, k + n, rfl, Nat.add_assoc .., h.takes_whole,
    fun hmode => ?_⟩
  rw [(hstands (h.advances.same.mode.symm.trans hmode)).eq_zero, Nat.zero_add]
  exact hlater hmode

/-- What a walk does for a node that is asked for, and what is ahead then. -/
theorem At.claimNode_meets (h : w.At f fs done ahead tail)
    (hexpects : w.Expects f ahead (i :: later) N) (hi : i.expected? = some expected)
    (attrs : List (String × String)) (patch : Bool) : ∃ id w₁ f₁ front used rest k j,
      (claimNode expected attrs patch).run w = .ok (id, w₁) ∧ ahead = used ++ rest ∧
      N = front.length + k + j ∧ w.Meets w₁ f f₁ fs done front id used rest tail expected ∧
      (f.mode = .hydrate → w₁.document.StandsFor [id] i k) ∧ w₁.Expects f₁ rest later j := by
  have hhere := mode_run h.frames
  cases hmode : f.mode with
  | create =>
    rw [hmode] at hhere
    obtain ⟨id, w₁, hrun, hadvances, hins, hunresolved, hclaimed, hlast⟩ :=
      h.createHere_spec expected attrs
    have hnever {p : Prop} (hhydrate : f.mode = .hydrate) : p := by
      rw [hmode] at hhydrate
      cases hhydrate
    have hmeets : w.Meets w₁ f f fs done [] id [] ahead tail expected :=
      { advances := hadvances
        silent := by simp
        fits := by
          rw [hins.kind]
          exact expected.fits_kind attrs
        provided := .created hlast hins.fresh.ge hins.inside hclaimed
        level := hins.redrawn
        resolved := hunresolved
        last_eq := by rw [hlast, hmode]; rfl
        agrees := hnever
        alone := fun _ => rfl }
    exact ⟨id, w₁, f, [], [], ahead, 0, N, (claimNode_create attrs patch hhere).trans hrun, rfl,
      by simp, hmeets, nofun, hnever⟩
  | hydrate =>
    rw [hmode] at hhere
    obtain ⟨front, here, rest, k, j, w₁, f₁, hlook, rfl, rfl, hat, hsame, hdocument, hunresolved,
      hreport, hsilent, hstands, hrest⟩ := h.finds hmode (hexpects hmode)
    obtain ⟨id, rfl, hfits⟩ := hstands.single hi
    obtain ⟨haccepts, hcandidate⟩ := hfits.accepts
    have hown : (w₁.document.kind id).isForeign = false := by
      rw [hdocument]
      simp only [isCandidate, Bool.and_eq_true, Bool.not_eq_true'] at hcandidate
      exact hcandidate.1
    obtain ⟨w₂, hadopt, hthere, htinted, hunresolved', hreport', hlast⟩ :=
      (hat.facing (hsame.mode.trans hmode)).adopt_spec hown expected attrs patch
    rw [hdocument] at htinted
    refine ⟨id, w₂, { f₁ with next := (rest ++ tail).head? }, front, front ++ [id], rest, k, j, ?_,
      by simp, rfl, h.meets_claimed hmode hthere ⟨hsame.parent, hsame.stop, hsame.mode⟩ htinted
        (hunresolved'.trans hunresolved) (by rw [hreport', hreport]) hlast hfits hsilent,
      fun _ => hstands.tinted h.treelike htinted, fun _ => hrest.tinted h.treelike htinted⟩
    rw [isText_of_expected hi] at hlook
    exact (claimNode_accepted attrs patch hhere hlook (hdocument ▸ haccepts)).trans hadopt

/-- A node, with what is drawn inside of it. -/
theorem Meets.takes_inside (h : w.Meets w₁ f f₁ fs done front id used rest tail expected)
    (own : expected.isText = false)
    (hfills : w₁.Fills w₂ (.open w₁.document id f.mode) [] [] us k)
    (hframes : w₂.cursor.frames = f₁ :: fs) :
    w.Takes w₂ f f₁ fs done (front ++ [id]) used rest tail [.node expected us]
      (front.length + k) := by
  have hhere := h.advances.here
  have hid : w.document.nodes.size ≤ id.index ∨ id ∈ used := by
    cases h.provided with
    | created _ fresh _ _ => exact .inl fresh
    | claimed _ _ old _ _ => exact .inr old
  refine ⟨h.advances.nested (by simp) hid hfills.level (by simp) hframes
    (fun hw => hfills.resolved.trans hw) fun _ => hfills.resolved, ?_,
    hfills.resolved.trans h.resolved, fun hmode => ?_, fun hmode => ?_⟩
  · cases hmode : f.mode with
    | hydrate =>
      exact ((h.agrees hmode).document.trans (hfills.agrees hmode).document).redrawn
        hhere.treelike _
    | create =>
      refine h.level.nest hhere.treelike (.inl ?_) hfills.level (by simp)
      cases h.provided with
      | created _ fresh _ _ => exact fresh
      | claimed _ hydrates _ _ _ =>
        rw [hmode] at hydrates
        cases hydrates
  · have hsum := (h.agrees hmode).trans (hfills.agrees hmode)
    rwa [show 1 + sizes us = sizes [.node expected us] by simp [sizes, size, Nat.add_comm]] at hsum
  · obtain rfl := h.alone hmode
    obtain ⟨new, hchildren, hshows⟩ := hfills.shows hmode
    have hfits : expected.Fits (w₂.document.kind id).bare := by
      rw [hfills.level.bare id h.lt_size]
      exact h.fits
    have hinside : w₂.document.Shows (w₂.document.children id) us 0 := by
      rw [show w₂.document.children id = new by simpa [Frame.open] using hchildren]
      exact hshows
    exact .node own hfits hinside .nil

/-- A node that is met is passed when its inside has been filled. -/
theorem Meets.passes_inside (h : w.Meets w₁ f f₁ fs done front id used rest tail expected)
    (own : expected.isText = false)
    (hfills : w₁.Fills w₂ (.open w₁.document id f.mode) [] [] us k)
    (hframes : w₂.cursor.frames = f₁ :: fs) (hlater : w₁.Expects f₁ rest later n) :
    w.Passes w₂ f fs done (used ++ rest) tail [.node expected us] later (front.length + k + n) := by
  refine (h.takes_inside own hfills hframes).passes
    (hlater.agrees h.advances.there.treelike fun hmode => ?_)
  exact ⟨_, _, hfills.agrees (h.advances.same.mode.symm.trans hmode)⟩

/-- The tree of a fragment is what the fragment asks for. -/
theorem fits_tree (fragment : Fragment) :
    (expectedOf fragment).Fits fragment.tree.kind.bare := by
  cases fragment with
  | text content => exact .text content
  | element tag attrs children => exact Expected.fits_kind (.element tag) attrs

/-- What a walk does for a fragment that is put as a whole, and what is ahead then. -/
theorem At.append_takes (h : w.At f fs done ahead tail) (fragment : Fragment)
    (hexpects : w.Expects f ahead (.whole (expectedOf fragment) :: later) N) : ∃ id w',
      (append fragment).run w = .ok (id, w') ∧ id.index < w'.document.nodes.size ∧
      w.Passes w' f fs done ahead tail [.whole (expectedOf fragment)] later N := by
  have hhere := mode_run h.frames
  cases hmode : f.mode with
  | create =>
    rw [hmode] at hhere
    obtain ⟨hrun, hat, hr, hkind, -⟩ := h.withFragment fragment
    have htakes : w.Takes (w.withFragment f.parent (ahead ++ tail).head? fragment) f f fs done
        [(w.document.build fragment).1] [] ahead tail [.whole (expectedOf fragment)] 0 := by
      refine ⟨⟨h, hat, .refl f, ⟨hr, fun hw => hw⟩, fun _ => rfl⟩, hr, rfl, fun hhydrate => ?_,
        fun _ => .whole ?_ .nil⟩
      · rw [hmode] at hhydrate
        cases hhydrate
      · rw [hkind]
        exact fits_tree fragment
    refine ⟨_, _, (append_create hhere fragment).trans hrun, hat.treelike.holds f.parent _ ?_, ?_⟩
    · rw [hat.children]
      simp
    · have hlater : (w.withFragment f.parent (ahead ++ tail).head? fragment).Expects f
        ahead later N :=
        fun hhydrate => by
          rw [hmode] at hhydrate
          cases hhydrate
      simpa using htakes.passes hlater
  | hydrate =>
    rw [hmode] at hhere
    obtain ⟨front, here, rest, k, j, w₁, f₁, hlook, rfl, rfl, hat, hsame, hdocument, hunresolved,
      hreport, hsilent, hstands, hrest⟩ := h.finds hmode (hexpects hmode)
    cases hstands with
    | @whole id _ fits =>
    obtain ⟨haccepts, -⟩ := fits.accepts
    obtain ⟨hrun, hthere⟩ := hat.putFragment_run (hsame.mode.trans hmode) (hdocument ▸ haccepts)
    let f₂ : Frame := { f₁ with next := (rest ++ tail).head? }
    let w₂ : Walk α := { w₁ with
      report := w₁.report.addClaimed 1
      cursor := ⟨f₂ :: fs, some (id, false)⟩ }
    have hmeets : w.Meets w₂ f f₂ fs done front id (front ++ [id]) rest tail
        (expectedOf fragment) :=
      h.meets_claimed hmode hthere ⟨hsame.parent, hsame.stop, hsame.mode⟩ (hdocument ▸ .refl _)
        hunresolved (congrArg (Report.addClaimed · 1) hreport) rfl fits hsilent
    have hlater : w₂.Expects f₂ rest later j := fun _ => hdocument ▸ hrest
    refine ⟨id, w₂, (append_hydrate hhere hlook).trans hrun, hmeets.lt_size, ?_⟩
    simpa using hmeets.takes_whole.passes hlater

/-- The ends of a fragment were provided that was asked for, with nothing but that to be told. -/
structure Pairs (w w₁ : Walk α) (f f₁ : Frame) (fs : List Frame) (m : Markers)
    (done front inside used ahead tail : List DomId) : Prop
    extends w.Ends w₁ f f₁ fs m done front inside used ahead tail where
  /-- A walk that claims has claimed them. -/
  mode_eq : m.mode = f.mode
  /-- All could be repaired. -/
  resolved : w₁.unresolved = w.unresolved
  /-- A walk that claims has claimed them. -/
  agrees : f.mode = .hydrate → w.Agrees w₁ 2 front.length
  /-- A walk that creates passes over nothing. -/
  alone : f.mode = .create → front = []

/-- What a walk does for a fragment that is asked for, and what is ahead then. -/
theorem At.claimMarkers_pairs (h : w.At f fs done ahead tail)
    (hexpects : w.Expects f ahead (.fragment us :: later) N) :
    ∃ m w₁ f₁ front inside used rest k j, claimMarkers.run w = .ok (m, w₁) ∧ ahead = used ++ rest ∧
      N = front.length + k + j ∧ w.Pairs w₁ f f₁ fs m done front inside used rest tail ∧
      w₁.Expects f inside us k ∧ w₁.Expects f₁ rest later j := by
  have hhere := mode_run h.frames
  cases hmode : f.mode with
  | create =>
    rw [hmode] at hhere
    obtain ⟨m, w₁, hrun, hends, hcreate, hunresolved⟩ := h.createMarkers_spec
    have hnever {p : Prop} (hhydrate : f.mode = .hydrate) : p := by
      rw [hmode] at hhydrate
      cases hhydrate
    exact ⟨m, w₁, f, [], [], [], ahead, 0, N, (claimMarkers_create hhere).trans hrun, rfl, by simp,
      ⟨hends, hcreate.trans hmode.symm, hunresolved, hnever, fun _ => rfl⟩, hnever, hnever⟩
  | hydrate =>
    rw [hmode] at hhere
    obtain ⟨front, here, rest, k, j, w₁, f₁, hlook, rfl, rfl, hat, hsame, hdocument, hunresolved,
      hreport, hsilent, hstands, hrest⟩ := h.finds hmode (hexpects hmode)
    cases hstands with
    | @fragment opening closing between _ _ hopening hclosing hinside =>
    have hmode₁ : f₁.mode = .hydrate := hsame.mode.trans hmode
    have hat' : w₁.At f₁ fs (done ++ front) (opening :: (between ++ closing :: rest)) tail := by
      simpa using hat
    have hchildren : w₁.document.children f₁.parent =
        (done ++ front) ++ opening :: (between ++ closing :: (rest ++ tail)) := by
      simpa using hat'.children
    have hclose : closeAmong w₁.document.kind 0 (w₁.document.following opening) = some closing := by
      rw [hat'.treelike.following_eq hchildren, hdocument, hinside.closeAmong_append,
        closeAmong_cons,
        hclosing]
      rfl
    have hmarkers : markersAt w₁.document opening = some ⟨opening, closing, .hydrate⟩ := by
      rw [markersAt, hdocument, hopening, matchingClose, ← hdocument, hclose]
      rfl
    have hnodup : (opening :: (between ++ closing :: (rest ++ tail))).Nodup := by
      have hall := hat'.treelike.nodup f₁.parent
      rw [hchildren] at hall
      exact (List.nodup_append.1 hall).2.1
    obtain ⟨-, hnodup⟩ := List.nodup_cons.1 hnodup
    obtain ⟨-, hback, hapart⟩ := List.nodup_append.1 hnodup
    have hclosed : Closed w₁.document.kind between := by
      refine .between (fun hin => hapart closing hin closing List.mem_cons_self rfl)
        (List.nodup_cons.1 hback).1 ?_ (n := 0)
      rwa [hat'.treelike.following_eq hchildren] at hclose
    obtain ⟨hstep, hends⟩ := hat'.ends_claimed hmode₁ (hdocument ▸ hopening) (hdocument ▸ hclosing)
      hclosed
    have hskip : w.Advances w₁ f f₁ fs done front front
        (opening :: (between ++ [closing]) ++ rest) tail :=
      ⟨h, hat, hsame, ⟨hdocument ▸ .refl h.treelike _ _, fun hw => hunresolved.trans hw⟩,
        fun _ => hunresolved⟩
    have hrun := (claimMarkers_claimed hhere hlook hmarkers).trans
      (congrArg (fun u : Walk α => Except.ok ((⟨opening, closing, .hydrate⟩ : Markers), u)) hstep)
    refine ⟨⟨opening, closing, .hydrate⟩, _, { f₁ with next := (rest ++ tail).head? }, front ++ [],
      between, front ++ opening :: (between ++ [closing]), rest, k, j, hrun, by simp, by simp,
      ?pairs, fun _ => hdocument ▸ hinside, fun _ => hdocument ▸ hrest⟩
    refine ⟨hends.behind hskip hdocument (by rw [hreport]; rfl) (hdocument ▸ hsilent),
      hmode.symm, hunresolved, fun _ => ⟨hdocument ▸ .refl _, ?_⟩, fun hcreate => ?_⟩
    · simp only [hreport, List.append_nil]
      rfl
    · rw [hmode] at hcreate
      cases hcreate

/-- A fragment, with what is drawn between its ends. -/
theorem Pairs.takes (h : w.Pairs w₁ f f₁ fs m done front inside used rest tail)
    (hfills : w₁.Fills w₂ (.between w₁.document f₁.parent m.opening m.closing m.mode)
      ((done ++ front) ++ [m.opening]) (m.closing :: (rest ++ tail)) us k)
    (hframes : w₂.cursor.frames = f₁ :: fs) : ∃ new,
      w.Takes w₂ f f₁ fs done new used rest tail [.fragment us] (front.length + k) := by
  have hhere := h.advances.here
  obtain ⟨new, hchildren, hshows⟩ : ∃ new, w₂.document.children f₁.parent =
      (done ++ front) ++ m.opening :: (new ++ m.closing :: (rest ++ tail)) ∧
        (f.mode = .create → w₂.document.Shows new us 0) := by
    cases hmode : f.mode with
    | hydrate =>
      refine ⟨inside, ?_, nofun⟩
      rw [(hfills.agrees (h.mode_eq.trans hmode)).document.children, h.advances.there.children]
      simp
    | create =>
      obtain ⟨new, hchildren, hshows⟩ := hfills.shows (h.mode_eq.trans hmode)
      exact ⟨new, hchildren.trans (by simp), fun _ => hshows⟩
  refine ⟨front ++ m.opening :: (new ++ [m.closing]),
    h.advances_behind hfills.level (by simp) hchildren hframes hfills.resolved, ?_,
    hfills.resolved.trans h.resolved, fun hmode => ?_, fun hmode => ?_⟩
  · have hlevel := h.level.trans hhere.treelike (h.advances.same.parent ▸ hfills.level)
    rwa [List.append_nil] at hlevel
  · have hsum := (h.agrees hmode).trans (hfills.agrees (h.mode_eq.trans hmode))
    rwa [show 2 + sizes us = sizes [.fragment us] by simp [sizes, size, Nat.add_comm]] at hsum
  · obtain rfl := h.alone hmode
    have hopening : (w₂.document.kind m.opening).bare = .marker .opening := by
      rw [h.bare hfills.level (.inl (by simp)), h.opening]
      rfl
    have hclosing : (w₂.document.kind m.closing).bare = .marker .closing := by
      rw [h.bare hfills.level (.inl (by simp)), h.closing]
      rfl
    exact .fragment hopening hclosing (hshows hmode) .nil

/-- The ends of a fragment are passed when what is between them has been filled. -/
theorem Pairs.passes (h : w.Pairs w₁ f f₁ fs m done front inside used rest tail)
    (hfills : w₁.Fills w₂ (.between w₁.document f₁.parent m.opening m.closing m.mode)
      ((done ++ front) ++ [m.opening]) (m.closing :: (rest ++ tail)) us k)
    (hframes : w₂.cursor.frames = f₁ :: fs) (hlater : w₁.Expects f₁ rest later n) :
    w.Passes w₂ f fs done (used ++ rest) tail [.fragment us] later (front.length + k + n) := by
  obtain ⟨new, htakes⟩ := h.takes hfills hframes
  refine htakes.passes (hlater.agrees h.advances.there.treelike fun hmode => ?_)
  exact ⟨_, _, hfills.agrees (h.mode_eq.trans (h.advances.same.mode.symm.trans hmode))⟩

end Rivulet.Hydration.Walk
