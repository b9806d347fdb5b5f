import Rivulet.Proofs.Drafting.Onward

/-!
# What a walk adds to a level

Whatever markup a walk meets, what it adds to its level bears the skeletons of what was asked for,
unless the walk is left unresolved. This composes along a level. A node that was provided bears what
is drawn inside of it, and the ends of a fragment stand around what is drawn between them.

When the content of a boundary holds, what was drawn between its ends bears the skeletons of the
content, and nothing else there does. When it does not hold, all between the ends is removed, and
what is drawn anew there bears the skeletons, as a walk that creates leaves nothing unresolved.
-/

namespace Rivulet.Hydration

open Markup

/-- What is asked for, as the skeletons of it, with those inside. -/
def Expected.around (us : List Skeleton) : Expected → List Skeleton
  | element tag => [.element (Text.lowerAscii tag.toList) us]
  | text _ => []
  | wrapper w => [.wrapper w us]

/-- A node that fits bears what its children bear. -/
theorem Expected.Fits.bears {α : Type} {d : Document α} {expected : Expected} {id : DomId}
    {us : List Skeleton} (h : expected.Fits (d.kind id).bare) (hus : d.Bears (d.children id) us) :
    d.Bears [id] (expected.around us) := by
  generalize hk : (d.kind id).bare = kind at h
  cases h with
  | element htag =>
    rw [Expected.around, ← htag]
    exact .element hk hus .nil
  | text content => exact .skip (by rw [hk]; rfl) .nil
  | wrapper w => exact .wrapper hk hus .nil

namespace Walk

variable {α : Type} {w w₁ w₂ w' w'' u u' : Walk α} {f f₁ f' f'' g g' : Frame} {fs gs : List Frame}
  {done new more used taken inside between ahead tail skipped rest : List DomId} {id : DomId}
  {m : Markers} {ks ls us : List Skeleton}

/-- A walk has gone on along a level, and what is new there bears some skeletons, unless the walk is
unresolved. -/
structure Adds (w w' : Walk α) (f f' : Frame) (fs : List Frame)
    (done new used ahead tail : List DomId) (ks : List Skeleton) : Prop
    extends w.Advances w' f f' fs done new used ahead tail where
  /-- What is new. -/
  added : w'.unresolved = false → w'.document.Bears new ks

private theorem Moves.resolved {p : DomId} (h : w.Moves w' p used) (hw : w'.unresolved = false) :
    w.unresolved = false := by
  by_contra hne
  rw [h.unresolved (by simpa using hne)] at hw
  cases hw

namespace Adds

theorem refl (h : w.At f fs done ahead tail) : w.Adds w f f fs done [] [] ahead tail [] :=
  ⟨.refl h, fun _ => .nil⟩

/-- One part behind another one. -/
theorem trans (h : w.Adds w' f f' fs done new used (taken ++ ahead) tail ks)
    (h' : w'.Adds w'' f' f'' fs (done ++ new) more taken ahead tail ls) :
    w.Adds w'' f f'' fs done (new ++ more) (used ++ taken) ahead tail (ks ++ ls) := by
  refine ⟨h.toAdvances.trans h'.toAdvances, fun hw => ?_⟩
  have hfirst := h.added (h'.moves.resolved hw)
  exact (h'.toAdvances.bears hfirst fun x hx => List.mem_append_right _ hx).append (h'.added hw)

/-- Arenas grow. -/
theorem size (h : w.Adds w' f f' fs done new used ahead tail ks) :
    w.document.nodes.size ≤ w'.document.nodes.size := h.moves.redrawn.size

end Adds

/-- A change that does not show in bare kinds adds nothing. -/
theorem At.adds_tinted (w' : Walk α) (h : w.At f fs done ahead tail)
    (hd : w.document.Tinted w'.document)
    (hframes : w'.cursor.frames = w.cursor.frames) (hunresolved : w'.unresolved = w.unresolved) :
    w.Adds w' f f fs done [] [] ahead tail [] where
  here := h
  there := by
    rw [List.append_nil]
    refine ⟨hframes.trans h.frames, h.treelike.congr hd.size hd.children hd.parent,
      hd.size ▸ h.held, (hd.children _).trans h.children, h.stop, h.next, h.creating,
        fun hstop => ?_⟩
    exact (h.closed hstop).congr fun x _ => marker_iff_of_bare (hd.bare x)
  same := .refl f
  moves := ⟨hd.redrawn h.treelike f.parent, fun hw => hunresolved.trans hw⟩
  creates _ := hunresolved
  added _ := .nil

/-- A node was provided, behind nodes that have no skeleton. -/
structure Offers (w w₁ : Walk α) (f f₁ : Frame) (fs : List Frame)
    (done skipped : List DomId) (id : DomId) (used ahead tail : List DomId) (expected : Expected) :
    Prop where
  /-- The walk goes on behind it. -/
  advances : w.Advances w₁ f f₁ fs done (skipped ++ [id]) used ahead tail
  /-- What was passed over. -/
  silent : ∀ x ∈ skipped, Silent (w₁.document.kind x)
  /-- It is what was asked for. -/
  fits : expected.Fits (w₁.document.kind id).bare
  /-- Where it comes from. -/
  provided : Provided w w₁ f.mode id used

theorem Provides.offers {step : WalkM α DomId} {expected : Expected}
    (h : Provides step w f fs done ahead tail expected) : ∃ id w₁ f₁ skipped used rest,
      step.run w = .ok (id, w₁) ∧ ahead = used ++ rest ∧
        w.Offers w₁ f f₁ fs done skipped id used rest tail expected := by
  obtain ⟨id, w₁, f₁, skipped, used, rest, hrun, hsplit, hadvances, -, hsilent, hfits, hprovided⟩ :=
    h
  exact ⟨id, w₁, f₁, skipped, used, rest, hrun, hsplit, hadvances, hsilent, hfits, hprovided⟩

namespace Offers

variable {expected : Expected}

private theorem mem (h : w.Offers w₁ f f₁ fs done skipped id used ahead tail expected) :
    id ∈ w₁.document.children f₁.parent := by
  rw [h.advances.there.children]
  simp

theorem lt_size (h : w.Offers w₁ f f₁ fs done skipped id used ahead tail expected) :
    id.index < w₁.document.nodes.size := h.advances.there.treelike.holds _ _ h.mem

/-- The mode in which the inside is drawn. A walk that creates finds nothing there. -/
theorem last (h : w.Offers w₁ f f₁ fs done skipped id used ahead tail expected) :
    ∃ created, w₁.cursor.last = some (id, created) ∧
      (created = true → w₁.document.children id = []) ∧
      ((if created then Mode.create else f₁.mode) = .create → created = true) ∧
      (f.mode = .create → created = true) := by
  cases h.provided with
  | created last _ inside _ => exact ⟨true, last, fun _ => inside, fun _ => rfl, fun _ => rfl⟩
  | claimed last hydrates _ _ _ =>
    have hmode : f₁.mode = .hydrate := h.advances.same.mode.trans hydrates
    exact ⟨false, last, by simp, by simp [hmode], by simp [hydrates]⟩

/-- What is drawn below a node that was provided. -/
theorem adds (h : w.Offers w₁ f f₁ fs done skipped id used ahead tail expected)
    (hr : w₁.document.Redrawn w₂.document id inside)
    (hinside : ∀ a ∈ inside, a ∈ w₁.document.children id) (hframes : w₂.cursor.frames = f₁ :: fs)
    (hunresolved : w₁.unresolved = true → w₂.unresolved = true)
    (hcreates : f.mode = .create → w₂.unresolved = w₁.unresolved)
    (hus : w₂.unresolved = false → w₂.document.Bears (w₂.document.children id) us) :
    w.Adds w₂ f f₁ fs done (skipped ++ [id]) used ahead tail (expected.around us) := by
  have hlt {x : DomId} (hx : x ∈ skipped ++ [id]) : x.index < w₁.document.nodes.size := by
    refine h.advances.there.treelike.holds f₁.parent x ?_
    rw [h.advances.there.children]
    exact List.mem_append_left _ (List.mem_append_right _ hx)
  have hid : w.document.nodes.size ≤ id.index ∨ id ∈ used := by
    cases h.provided with
    | created _ fresh _ _ => exact .inl fresh
    | claimed _ _ old _ _ => exact .inr old
  refine ⟨h.advances.nested (by simp) hid hr hinside hframes hunresolved hcreates, fun hw => ?_⟩
  have hskipped : w₂.document.Bears skipped [] := .silent fun x hx => by
    rw [hr.bare x (hlt (List.mem_append_left _ hx))]
    exact silent_bare.2 (h.silent x hx)
  have hfits : expected.Fits (w₂.document.kind id).bare := by
    rw [hr.bare id (hlt (by simp))]
    exact h.fits
  exact hskipped.append (hfits.bears (hus hw))

/-- A node with nothing asked for inside of it, such as a text. -/
theorem adds_text {content : String}
    (h : w.Offers w₁ f f₁ fs done skipped id used ahead tail (.text content)) :
    w.Adds w₁ f f₁ fs done (skipped ++ [id]) used ahead tail [] := by
  refine ⟨h.advances, fun _ => ?_⟩
  have hskipped : w₁.document.Bears skipped [] :=
    .silent fun x hx => silent_bare.2 (h.silent x hx)
  have hfits := h.fits
  generalize hk : (w₁.document.kind id).bare = kind at hfits
  cases hfits
  exact hskipped.append (.skip (by rw [hk]; rfl) .nil)

/-- The level inside of a node that was provided. -/
theorem at_inside (h : w.Offers w₁ f f₁ fs done skipped id used ahead tail expected)
    {created : Bool}
    (hlast : w₁.cursor.last = some (id, created)) {mode : Mode}
    (hmode : mode = if created then .create else f₁.mode) (hdocument : u.document = w₁.document)
    (hframes : u.cursor.frames = Frame.open w₁.document id mode :: gs) :
    u.At (Frame.open w₁.document id mode) gs [] (w₁.document.children id) [] := by
  rw [← hdocument] at hframes ⊢
  refine at_open hframes (hdocument ▸ h.advances.there.treelike) (hdocument ▸ h.lt_size)
    fun hcreate => ?_
  obtain ⟨created', hlast', hempty, hcreated, -⟩ := h.last
  rw [hlast, Option.some.injEq, Prod.mk.injEq] at hlast'
  obtain ⟨-, rfl⟩ := hlast'
  rw [hdocument]
  exact hempty (hcreated (hmode ▸ hcreate))

/-- What a walk draws on the level inside of a node that was provided. -/
theorem adds_inside (h : w.Offers w₁ f f₁ fs done skipped id used ahead tail expected)
    {created : Bool} (hlast : w₁.cursor.last = some (id, created)) {mode : Mode}
    (hmode : mode = if created then .create else f₁.mode) (hdocument : u.document = w₁.document)
    (hunresolved : u.unresolved = w₁.unresolved)
    (hin : u.Adds u' (Frame.open w₁.document id mode) g gs [] new taken rest [] us)
    (hend : w₂.document = u'.document) (hframes : w₂.cursor.frames = f₁ :: fs)
    (hsettled : w₂.unresolved = (u'.settleFrame g).unresolved) :
    w.Adds w₂ f f₁ fs done (skipped ++ [id]) used ahead tail (expected.around us) := by
  obtain ⟨-, -, hkept, hcreate, hsilent⟩ := hin.there.settleFrame_spec
  have hr : w₁.document.Redrawn w₂.document id taken := by
    have := hin.moves.redrawn
    rwa [hdocument, ← hend] at this
  have hchildren : w₂.document.children id = new ++ rest := by
    have := hin.there.children
    rwa [hin.same.parent, ← hend, List.nil_append, List.append_nil] at this
  refine h.adds hr (fun a ha => hdocument ▸ hin.used_mem a ha) hframes (fun hw => ?_)
    (fun hcreating => ?_) fun hw => ?_
  · rw [hsettled]
    exact hkept (hin.moves.unresolved (hunresolved.trans hw))
  · obtain ⟨created', hlast', -, -, hcreated⟩ := h.last
    rw [hlast, Option.some.injEq, Prod.mk.injEq] at hlast'
    obtain ⟨-, rfl⟩ := hlast'
    obtain rfl : mode = .create := by rw [hmode, if_pos (hcreated hcreating)]
    rw [hsettled, hcreate hin.same.mode, hin.creates rfl, hunresolved]
  · rw [hsettled] at hw
    have hresolved : u'.unresolved = false := by
      by_contra hne
      rw [hkept (by simpa using hne)] at hw
      cases hw
    rw [hchildren, hend]
    have hrest : u'.document.Bears rest [] := .silent fun x hx => silent_bare.2 (hsilent hw x hx)
    simpa using (hin.added hresolved).append hrest

/-- What is put inside of a wrapper that was provided. -/
theorem adds_fragments (w₂ : Walk α)
    (h : w.Offers w₁ f f₁ fs done skipped id used ahead tail expected)
    (hempty : (emptyWrapper id).run w₁ = .ok ((), w')) (ts : List Tree)
    (hend : w₂.document = (w'.document.clear id).plantUnder id ts)
    (hcursor : w₂.cursor = w'.cursor) (hunresolved : w₂.unresolved = w'.unresolved) :
    w.Adds w₂ f f₁ fs done (skipped ++ [id]) used ahead tail (expected.around (skeletons ts)) := by
  have htree := h.advances.there.treelike
  have hcleared : w₁.document.Redrawn w'.document id [] ∧ w'.cursor.frames = f₁ :: fs ∧
      w'.unresolved = w₁.unresolved := by
    obtain ⟨mode, hmode⟩ : ∃ mode, childMode.run w₁ = .ok (mode, w₁) := by
      rw [childMode, bind_ok (x := get) (b := w₁) rfl]
      split
      · exact ⟨_, rfl⟩
      · exact ⟨_, mode_run h.advances.there.frames⟩
    rw [emptyWrapper, bind_ok hmode] at hempty
    cases mode with
    | create =>
      cases hempty
      exact ⟨.refl htree _ _, h.advances.there.frames, rfl⟩
    | hydrate =>
      cases hempty
      exact ⟨(htree.clear id).1, h.advances.there.frames, rfl⟩
  obtain ⟨hfirst, hframes, hsame⟩ := hcleared
  obtain ⟨hsecond, hnone, -⟩ := hfirst.treelike.clear id
  have hlt : id.index < (w'.document.clear id).nodes.size :=
    Nat.lt_of_lt_of_le h.lt_size (Nat.le_trans hfirst.size hsecond.size)
  have hgrafted := Document.plantUnder_grafted hsecond.treelike hlt ts
  have hr := (hfirst.trans htree hsecond).trans htree hgrafted.redrawn
  obtain ⟨new, hchildren, -, hbears⟩ := hgrafted.children
  rw [← hend] at hr hchildren hbears
  refine h.adds hr (by simp) (hcursor ▸ hframes) (fun hw => ?_) (fun _ => ?_) fun _ => ?_
  · rw [hunresolved, hsame, hw]
  · rw [hunresolved, hsame]
  · rwa [hchildren, hnone, List.nil_append]

end Offers

/-! ## The end of a walk -/

theorem document_settleFrame (w : Walk α) (f : Frame) :
    (w.settleFrame f).document = w.document := by
  rw [settleFrame]
  split
  · rfl
  · simp only
    split <;> rfl

/-- The end of a walk does not change the document. -/
theorem finish_document (w : Walk α) : w.finish.document = w.document := by
  have hframes (n : Nat) (w : Walk α) : (w.closeFrames n).document = w.document := by
    induction n generalizing w with
    | zero => rfl
    | succ n ih =>
      rw [closeFrames, ih, closeFrame]
      split
      · rfl
      · exact document_settleFrame w _
  exact hframes _ w

theorem Adds.remark (h : w.Adds w' f f₁ fs done new used ahead tail ks)
    (hdocument : w''.document = w'.document)
    (hframes : w''.cursor.frames = w'.cursor.frames)
    (hunresolved : w''.unresolved = w'.unresolved) :
    w.Adds w'' f f₁ fs done new used ahead tail ks where
  toAdvances := h.toAdvances.remark hdocument hframes (fun hw => hunresolved.trans hw)
    fun _ => hunresolved
  added hw := by
    rw [hdocument]
    exact h.added (hunresolved.symm.trans hw)

/-- The end of a walk over a single level. -/
theorem Adds.finished (h : w.Adds w₁ f g [] done new used rest tail ks) :
    (w₁.unresolved = true → w₁.finish.unresolved = true) ∧
      (f.mode = .create → w₁.finish.unresolved = w.unresolved) ∧
      (w₁.finish.unresolved = false → w₁.document.Bears (new ++ rest) ks) := by
  obtain ⟨-, -, hkept, hcreate, hsilent⟩ := h.there.settleFrame_spec
  have hfinish : w₁.finish.unresolved = (w₁.settleFrame g).unresolved := by
    rw [finish_eq h.there.frames]
  rw [hfinish]
  refine ⟨hkept, fun hmode => (hcreate (h.same.mode.trans hmode)).trans (h.creates hmode),
    fun hw => ?_⟩
  have hresolved : w₁.unresolved = false := by
    by_contra hne
    rw [hkept (by simpa using hne)] at hw
    cases hw
  have hrest : w₁.document.Bears rest [] := .silent fun x hx => silent_bare.2 (hsilent hw x hx)
  simpa using (h.added hresolved).append hrest

/-- The level was there before what is drawn between the ends of a fragment. -/
theorem Ends.bare (h : w.Ends w₁ f f₁ fs m done skipped inside used ahead tail)
    (hr : w₁.document.Redrawn w₂.document f₁.parent between) {x : DomId}
    (hx : x ∈ skipped ++ m.opening :: (inside ++ [m.closing]) ∨ x ∈ ahead) :
    (w₂.document.kind x).bare = (w₁.document.kind x).bare := by
  refine hr.bare x (h.advances.there.treelike.holds f₁.parent x ?_)
  rw [h.advances.there.children]
  simp only [List.mem_append] at hx ⊢
  exact hx.elim (fun hx => .inl (.inr (by simpa using hx))) fun hx => .inr (.inl hx)

/-- The walk goes on behind what is drawn between the ends of a fragment. -/
theorem Ends.advances_behind (h : w.Ends w₁ f f₁ fs m done skipped inside used ahead tail)
    (hr : w₁.document.Redrawn w₂.document f₁.parent between) (hbetween : ∀ a ∈ between, a ∈ inside)
    (hchildren : w₂.document.children f₁.parent =
      (done ++ skipped) ++ m.opening :: (new ++ m.closing :: (ahead ++ tail)))
    (hframes : w₂.cursor.frames = f₁ :: fs) (hunresolved : w₂.unresolved = w₁.unresolved) :
    w.Advances w₂ f f₁ fs done (skipped ++ m.opening :: (new ++ [m.closing])) used ahead tail := by
  have hthere := h.advances.there
  have hlevel := h.level.trans h.advances.here.treelike (h.advances.same.parent ▸ hr)
  have hall : w.document.Redrawn w₂.document f.parent used :=
    hlevel.mono h.advances.here.treelike fun a ha => h.among a (hbetween a (by simpa using ha))
  refine ⟨h.advances.here, ⟨hframes, hr.treelike, Nat.lt_of_lt_of_le hthere.held hr.size, ?_,
    hthere.stop, hthere.next, hthere.creating, fun hstop => ?_⟩, h.advances.same,
    ⟨hall, fun hw => hunresolved.trans (h.advances.moves.unresolved hw)⟩,
    fun hmode => hunresolved.trans (h.advances.creates hmode)⟩
  · rw [hchildren]
    simp
  · exact (hthere.closed hstop).congr fun x hx => marker_iff_of_bare (h.bare hr (.inr hx))

/-- What is drawn between the ends of a fragment. -/
theorem Ends.adds (h : w.Ends w₁ f f₁ fs m done skipped inside used ahead tail)
    (hr : w₁.document.Redrawn w₂.document f₁.parent between) (hbetween : ∀ a ∈ between, a ∈ inside)
    (hchildren : w₂.document.children f₁.parent =
      (done ++ skipped) ++ m.opening :: (new ++ m.closing :: (ahead ++ tail)))
    (hframes : w₂.cursor.frames = f₁ :: fs) (hunresolved : w₂.unresolved = w₁.unresolved)
    (hus : w₂.document.Bears new us) :
    w.Adds w₂ f f₁ fs done (skipped ++ m.opening :: (new ++ [m.closing])) used ahead tail
      (.marker .opening :: (us ++ [.marker .closing])) := by
  refine ⟨h.advances_behind hr hbetween hchildren hframes hunresolved, fun _ => ?_⟩
  have hskipped : w₂.document.Bears skipped [] := .silent fun x hx => by
    rw [h.bare hr (.inl (List.mem_append_left _ hx))]
    exact silent_bare.2 (h.silent x hx)
  have hopening : (w₂.document.kind m.opening).bare = .marker .opening := by
    rw [h.bare hr (.inl (by simp)), h.opening]
    rfl
  have hclosing : (w₂.document.kind m.closing).bare = .marker .closing := by
    rw [h.bare hr (.inl (by simp)), h.closing]
    rfl
  exact hskipped.append (.marker hopening (hus.append (.marker hclosing .nil)))

end Walk

/-- What is left of a list without a part of it. -/
theorem filter_not_mem_middle {α : Type} [DecidableEq α] {a cs b : List α}
    (h : (a ++ (cs ++ b)).Nodup) : (a ++ (cs ++ b)).filter (· ∉ cs) = a ++ b := by
  obtain ⟨-, hrest, hfront⟩ := List.nodup_append.1 h
  obtain ⟨-, -, hback⟩ := List.nodup_append.1 hrest
  have ha : a.filter (· ∉ cs) = a := List.filter_eq_self.2 fun x hx =>
    decide_eq_true fun hcs => hfront x hx x (List.mem_append_left _ hcs) rfl
  have hb : b.filter (· ∉ cs) = b := List.filter_eq_self.2 fun x hx =>
    decide_eq_true fun hcs => hback x hcs x hx rfl
  have hcs : cs.filter (· ∉ cs) = [] := List.filter_eq_nil_iff.2 fun x hx => by simpa using hx
  rw [List.filter_append, List.filter_append, ha, hcs, hb, List.nil_append]

namespace Walk

variable {w w₁ w₂ w₃ : Sheet} {f f₁ g : Frame} {fs : List Frame} {m : Markers} {p : DomId}
  {done skipped inside used ahead tail new taken rest : List DomId} {us : List Skeleton}

namespace Ends

/-- All between the ends of a boundary is claimed, or created. -/
theorem adds_held (h : w.Ends w₁ f f₁ fs m done skipped inside used ahead tail)
    (hin : (w₁.amid f₁.parent m).Adds w₂ (.between w₁.document f₁.parent m.opening m.closing m.mode)
      g [] ((done ++ skipped) ++ [m.opening]) new taken rest (m.closing :: (ahead ++ tail)) us)
    (hsplit : inside = taken ++ rest) (hheld : m.mode = .hydrate → w₂.finish.unresolved = false) :
    w.Adds (w₂.finish.beside w₁) f f₁ fs done (skipped ++ m.opening ::
      ((new ++ rest) ++ [m.closing]))
      used ahead tail (.marker .opening :: (us ++ [.marker .closing])) := by
  obtain ⟨-, hcreate, hbears⟩ := hin.finished
  have hresolved : w₂.finish.unresolved = false := by
    cases hmode : m.mode with
    | hydrate => exact hheld hmode
    | create => exact hcreate hmode
  have hdocument : (w₂.finish.beside w₁).document = w₂.document := finish_document w₂
  have hredrawn : w₁.document.Redrawn (w₂.finish.beside w₁).document f₁.parent taken := by
    rw [hdocument]
    exact hin.moves.redrawn
  refine h.adds hredrawn (fun a ha => hsplit ▸ List.mem_append_left _ ha) ?_
    h.advances.there.frames rfl ?_
  · rw [hdocument]
    have hchildren := hin.there.children
    rw [hin.same.parent] at hchildren
    exact hchildren.trans (by simp)
  · rw [hdocument]
    exact hbears hresolved

/-- What was drawn between the ends of a boundary is removed. -/
theorem cleared (h : w.Ends w₁ f f₁ fs m done skipped inside used ahead tail)
    (hin : (w₁.amid f₁.parent m).Adds w₂ (.between w₁.document f₁.parent m.opening m.closing m.mode)
      g [] ((done ++ skipped) ++ [m.opening]) new taken rest (m.closing :: (ahead ++ tail)) us) :
    w₁.document.Redrawn (w₂.finish.anew w₂.finish.document f₁.parent m).document f₁.parent taken ∧
      (w₂.finish.anew w₂.finish.document f₁.parent m).document.children f₁.parent =
        (done ++ skipped) ++ m.opening :: ([] ++ m.closing :: (ahead ++ tail)) := by
  have hd := hin.there.treelike
  have hchildren : w₂.document.children f₁.parent =
      (done ++ skipped) ++ m.opening :: ((new ++ rest) ++ m.closing :: (ahead ++ tail)) := by
    have := hin.there.children
    rw [hin.same.parent] at this
    exact this.trans (by simp)
  have hnodup := hd.nodup f₁.parent
  rw [hchildren] at hnodup
  have hfront : ((done ++ skipped) ++ [m.opening] ++
      ((new ++ rest) ++ m.closing :: (ahead ++ tail))).Nodup := by simpa using hnodup
  obtain ⟨-, hrest, -⟩ := List.nodup_append.1 hfront
  have hnot : m.closing ∉ new ++ rest := fun hmem =>
    (List.nodup_append.1 hrest).2.2 _ hmem _ List.mem_cons_self rfl
  have hbetween : Hydration.between w₂.document m.opening m.closing = new ++ rest := by
    rw [Hydration.between, hd.following_eq hchildren, Document.takeWhile_ne_append hnot]
  obtain ⟨hremoved, hleft, -⟩ := hd.removeAll (p := f₁.parent) (new ++ rest)
    (List.nodup_append.1 hrest).1 fun x hx => by
      rw [hchildren]
      exact List.mem_append_right _ (List.mem_cons_of_mem _ (List.mem_append_left _ hx))
  have hdocument : (w₂.finish.anew w₂.finish.document f₁.parent m).document =
      w₂.document.removeAll (new ++ rest) := by
    rw [← hbetween, ← finish_document w₂]
    rfl
  rw [hdocument]
  refine ⟨?_, ?_⟩
  · have hlevel := hin.moves.redrawn.trans h.advances.there.treelike hremoved
    rwa [List.append_nil] at hlevel
  · rw [hleft, hchildren]
    have hmiddle := filter_not_mem_middle hfront
    simpa using hmiddle

/-- A walk that creates starts between the ends. -/
theorem at_anew (h : w.Ends w₁ f f₁ fs m done skipped inside used ahead tail)
    (hin : (w₁.amid f₁.parent m).Adds w₂ (.between w₁.document f₁.parent m.opening m.closing m.mode)
      g [] ((done ++ skipped) ++ [m.opening]) new taken rest (m.closing :: (ahead ++ tail)) us) :
    (w₂.finish.anew w₂.finish.document f₁.parent m).At
      (.between (w₂.finish.anew w₂.finish.document f₁.parent m).document f₁.parent m.opening
        m.closing .create) [] ((done ++ skipped) ++ [m.opening]) []
      (m.closing :: (ahead ++ tail)) := by
  obtain ⟨hredrawn, hchildren⟩ := h.cleared hin
  exact at_between rfl hredrawn.treelike hchildren (fun _ => rfl) fun hmode => by cases hmode

/-- What is between the ends of a boundary could not all be claimed, and was drawn anew. -/
theorem adds_redrawn {g' : Frame} {more : List DomId}
    (h : w.Ends w₁ f f₁ fs m done skipped inside used ahead tail)
    (hin : (w₁.amid f₁.parent m).Adds w₂ (.between w₁.document f₁.parent m.opening m.closing m.mode)
      g [] ((done ++ skipped) ++ [m.opening]) new taken rest (m.closing :: (ahead ++ tail)) us)
    (hsplit : inside = taken ++ rest)
    (hagain : (w₂.finish.anew w₂.finish.document f₁.parent m).Adds w₃
      (.between (w₂.finish.anew w₂.finish.document f₁.parent m).document f₁.parent m.opening
        m.closing .create) g' [] ((done ++ skipped) ++ [m.opening]) more [] []
      (m.closing :: (ahead ++ tail)) us) :
    w.Adds (w₃.finish.beside w₁) f f₁ fs done (skipped ++ m.opening :: (more ++ [m.closing])) used
      ahead tail (.marker .opening :: (us ++ [.marker .closing])) := by
  obtain ⟨-, hcreate, hbears⟩ := hagain.finished
  have hdocument : (w₃.finish.beside w₁).document = w₃.document := finish_document w₃
  have hredrawn : w₁.document.Redrawn (w₃.finish.beside w₁).document f₁.parent taken := by
    have hlevel := (h.cleared hin).1.trans h.advances.there.treelike hagain.moves.redrawn
    rwa [List.append_nil, ← hdocument] at hlevel
  refine h.adds hredrawn (fun a ha => hsplit ▸ List.mem_append_left _ ha) ?_
    h.advances.there.frames rfl ?_
  · rw [hdocument]
    have hchildren := hagain.there.children
    rw [hagain.same.parent] at hchildren
    exact hchildren.trans (by simp)
  · rw [hdocument]
    simpa using hbears (hcreate rfl)

end Ends

end Walk

end Rivulet.Hydration
