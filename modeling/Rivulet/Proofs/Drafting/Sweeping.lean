import Rivulet.Proofs.Drafting.Counting

/-!
# Walks go forward

A walk uses up what is ahead on a level from the front to the back, and below a node it goes only
right after that node was provided. So what it claims stands below nodes that it has used up on the
way, none of which it meets again, and no node is claimed twice.
-/

namespace Rivulet

open Hydration

namespace Document

variable {α : Type} {d d' : Document α} {p a x : DomId} {used : List DomId}

/-- Where no children have changed, what stands below a node stood there before. -/
theorem Treelike.below_of_kept (hd' : d'.Treelike) (hd : d.Treelike)
    (ha : a.index < d.nodes.size)
    (hkept : ∀ j, j.index < d.nodes.size → d.Below j a → d'.children j = d.children j)
    (hx : d'.Below x a) : x.index < d.nodes.size ∧ d.Below x a := by
  induction hx using Relation.ReflTransGen.head_induction_on with
  | refl => exact ⟨ha, .refl d a⟩
  | @head j q hstep _ ih =>
    obtain ⟨hq, hqa⟩ := ih
    have hj : j ∈ d.children q := hkept q hq hqa ▸ (hd'.child q j).2 hstep
    exact ⟨hd.holds q j hj, .head ((hd.child q j).1 hj) hqa⟩

/-- What stands below a child that was not used stood there before. -/
theorem Regrown.below_apart (h : d.Regrown d' p used) (hd : d.Treelike)
    (hused : ∀ b ∈ used, b ∈ d.children p) (ha : a ∈ d.children p) (hout : a ∉ used)
    (hx : d'.Below x a) : x.index < d.nodes.size ∧ d.Below x a :=
  h.treelike.below_of_kept hd (hd.holds p a ha)
    (fun _ hj hb => h.children_apart hd hused ha hout hb hj) hx

/-- A change of the children of a node leaves what stands below them alone. -/
theorem Regrown.below_child (h : d.Regrown d' p []) (hd : d.Treelike) (ha : a ∈ d.children p)
    (hx : d'.Below x a) : x.index < d.nodes.size ∧ d.Below x a :=
  h.below_apart hd (by simp) ha (by simp) hx

/-- A tree that is built and put under a node changes nothing but the children of that node. -/
theorem Treelike.planted (h : d.Treelike) (hp : p.index < d.nodes.size) (t : Markup.Tree)
    (anchor : Option DomId) :
    let d' := (d.plant t).2.insertBefore p (d.plant t).1 anchor
    d.Redrawn d' p [] ∧ d'.kind ⟨d.nodes.size⟩ = t.kind ∧
      d'.children p = insertIn ⟨d.nodes.size⟩ anchor (d.children p) := by
  obtain ⟨hid, hextended, hsize, halone, -⟩ := plant_extended h t
  have hps : p.index < (d.plant t).2.nodes.size := Nat.lt_trans hp hsize
  have hnew {j : DomId} (hj : j.index < d.nodes.size) : j ≠ ⟨d.nodes.size⟩ := by
    rintro rfl
    exact Nat.lt_irrefl _ hj
  have hchildren := children_insertBefore anchor halone hps (hnew hp)
  rw [hid]
  refine ⟨⟨⟨?_, ?_, fun j hj => ?_, fun j hj hjp _ => ?_⟩, fun j hj => ?_⟩, ?_, ?_⟩
  · rw [size_insertBefore anchor halone]
    exact hextended.size
  · exact hextended.treelike.insertBefore anchor halone hps hsize
      (hextended.not_below h hp (Nat.le_refl _))
  · rw [parent?_insertBefore anchor halone (hnew hj), (hextended.kept j hj).parent]
    exact .inl rfl
  · rw [hchildren, if_neg hjp, (hextended.kept j hj).children]
  · rw [kind_insertBefore anchor halone, (hextended.kept j hj).kind]
  · rw [kind_insertBefore anchor halone, kind_plant h]
  · rw [hchildren, if_pos rfl, (hextended.kept p hp).children]

/-- A document that is dressed otherwise has grown by nothing. -/
theorem Dressed.regrown (h : d.Dressed d') (hd : d.Treelike) (p : DomId) : d.Regrown d' p [] :=
  ⟨h.size.ge, hd.congr h.size h.children h.parent, fun j _ => .inl (h.parent j),
    fun j _ _ _ => h.children j⟩

/-- The same is below of what. -/
theorem Dressed.below (h : d.Dressed d') : d'.Below = d.Below := by
  have hparent : (fun c q => d'.parent? c = some q) = fun c q => d.parent? c = some q := by
    funext c q
    rw [h.parent]
  rw [Below, Below, hparent]

end Document

namespace Hydration.Walk

variable {α : Type} {w w' w'' : Walk α} {f f' f'' : Frame} {fs : List Frame}
  {done new more used taken ahead tail entered sources ids : List DomId} {id : DomId}

/-- Ends of fragments stay what they are. -/
def SameMarkers (w w' : Walk α) : Prop :=
  ∀ j, j.index < w.document.nodes.size → ∀ edge,
    w'.document.kind j = .marker edge ↔ w.document.kind j = .marker edge

/-- A walk has gone on along a level, and maybe below nodes that it had passed before. What it has
claimed stood below what it has used up, or below the children of such a node. -/
structure Sweeps (w w' : Walk α) (f f' : Frame) (fs : List Frame)
    (done new used ahead tail entered sources ids : List DomId) : Prop where
  /-- Where the walk stood. -/
  here : w.At f fs done (used ++ ahead) tail
  /-- Where the walk stands now. -/
  there : w'.At f' fs (done ++ new) ahead tail
  /-- It is the same level. -/
  same : f.Same f'
  /-- Changes go no deeper than below what was used up or entered. -/
  regrown : w.document.Regrown w'.document f.parent (used ++ entered)
  /-- Ends of fragments stay what they are. -/
  markers : w.SameMarkers w'
  /-- The nodes that were entered had been passed. -/
  passed : ∀ a ∈ entered, a ∈ done
  /-- What was claimed there stood below children of those nodes. -/
  below : ∀ b ∈ sources, ∃ a ∈ entered, b ∈ w.document.children a
  /-- No node was claimed twice. -/
  nodup : ids.Nodup
  /-- What was claimed was there before. -/
  claims : ∀ x ∈ ids, x.index < w.document.nodes.size ∧
    ∃ a ∈ used ++ sources, w.document.Below x a
  /-- All that was claimed was counted. -/
  count : w'.report.claimed = w.report.claimed + ids.length

theorem SameMarkers.trans (h : w.SameMarkers w') (hsize : w.document.nodes.size ≤
    w'.document.nodes.size) (h' : w'.SameMarkers w'') : w.SameMarkers w'' := fun j hj edge =>
  (h' j (Nat.lt_of_lt_of_le hj hsize) edge).trans (h j hj edge)

namespace Sweeps

/-- Nothing was done. -/
theorem refl (h : w.At f fs done ahead tail) : w.Sweeps w f f fs done [] [] ahead tail
    [] [] [] where
  here := h
  there := by rwa [List.append_nil]
  same := .refl f
  regrown := .refl h.treelike _ _
  markers _ _ _ := Iff.rfl
  passed := by simp
  below := by simp
  nodup := .nil
  claims := by simp
  count := rfl

/-- More nodes may be said to be entered. -/
theorem widen (h : w.Sweeps w' f f' fs done new used ahead tail entered sources ids)
    {entered' sources' : List DomId} (hentered : ∀ a ∈ entered, a ∈ entered')
    (hsources : ∀ b ∈ sources, b ∈ sources') (hpassed : ∀ a ∈ entered', a ∈ done)
    (hbelow : ∀ b ∈ sources', ∃ a ∈ entered', b ∈ w.document.children a) :
    w.Sweeps w' f f' fs done new used ahead tail entered' sources' ids where
  here := h.here
  there := h.there
  same := h.same
  regrown := h.regrown.mono h.here.treelike fun a ha _ => by
    rw [List.mem_append] at ha ⊢
    exact ha.imp_right (hentered a)
  markers := h.markers
  passed := hpassed
  below := hbelow
  nodup := h.nodup
  claims x hx := by
    obtain ⟨hlt, a, ha, hb⟩ := h.claims x hx
    rw [List.mem_append] at ha
    exact ⟨hlt, a, List.mem_append.2 (ha.imp_right (hsources a)), hb⟩
  count := h.count

/-- What was used up or entered stood on the level. -/
theorem mem_level (h : w.Sweeps w' f f' fs done new used ahead tail entered sources ids) :
    ∀ a ∈ used ++ entered, a ∈ w.document.children f.parent := by
  intro a ha
  rw [h.here.children]
  rcases List.mem_append.1 ha with ha | ha
  · exact List.mem_append_right _ (List.mem_append_left _ (List.mem_append_left _ ha))
  · exact List.mem_append_left _ (h.passed a ha)

/-- What is ahead was neither used up nor entered. -/
theorem not_mem_of_ahead (h : w.Sweeps w' f f' fs done new used ahead tail entered sources ids)
    {a : DomId} (ha : a ∈ ahead) : a ∉ used ++ entered := by
  intro hmem
  have hnodup := h.here.nodup
  rw [List.append_assoc, List.nodup_append, List.nodup_append] at hnodup
  obtain ⟨-, ⟨-, -, hused⟩, hdone⟩ := hnodup
  rcases List.mem_append.1 hmem with hmem | hmem
  · exact hused a hmem a (List.mem_append_left _ ha) rfl
  · exact hdone a (h.passed a hmem) a
      (List.mem_append_right _ (List.mem_append_left _ ha)) rfl

/-- What was claimed stood below something that was used up or entered. -/
theorem claims_level (h : w.Sweeps w' f f' fs done new used ahead tail entered sources ids)
    {x : DomId} (hx : x ∈ ids) : ∃ a ∈ used ++ entered, w.document.Below x a := by
  obtain ⟨-, a, ha, hb⟩ := h.claims x hx
  rcases List.mem_append.1 ha with ha | ha
  · exact ⟨a, List.mem_append_left _ ha, hb⟩
  · obtain ⟨c, hc, hac⟩ := h.below a ha
    exact ⟨c, List.mem_append_right _ hc, hb.tail ((h.here.treelike.child c a).1 hac)⟩

/-- A walk goes on, below what was used up or entered last and along the level. -/
theorem trans {entered' sources' ids' : List DomId}
    (h : w.Sweeps w' f f' fs done new used (taken ++ ahead) tail entered sources ids)
    (h' : w'.Sweeps w'' f' f'' fs (done ++ new) more taken ahead tail entered' sources' ids')
    (hentered : ∀ a ∈ entered', a.index < w.document.nodes.size → a ∈ used ++ entered)
    (hsources : ∀ x b, b ∈ sources' → w'.document.Below x b → x ∉ ids ∧
      x.index < w.document.nodes.size ∧ ∃ a ∈ used ++ sources, w.document.Below x a) :
    w.Sweeps w'' f f'' fs done (new ++ more) (used ++ taken) ahead tail entered sources
      (ids ++ ids') := by
  have hd := h.here.treelike
  have hlevel {a : DomId} (ha : a ∈ taken) : a ∈ w.document.children f.parent := by
    rw [h.here.children]
    exact List.mem_append_right _ (List.mem_append_left _
      (List.mem_append_right _ (List.mem_append_left _ ha)))
  -- What is claimed in the second part was there before, and was not claimed in the first one.
  have hsecond {x : DomId} (hx : x ∈ ids') : x ∉ ids ∧ x.index < w.document.nodes.size ∧
      ∃ a ∈ (used ++ taken) ++ sources, w.document.Below x a := by
    obtain ⟨-, a, ha, hb⟩ := h'.claims x hx
    rcases List.mem_append.1 ha with ha | ha
    · have hout := h.not_mem_of_ahead (List.mem_append_left ahead ha)
      obtain ⟨hlt, hb⟩ := h.regrown.below_apart hd h.mem_level (hlevel ha) hout hb
      refine ⟨fun hmem => ?_, hlt, a, by simp [ha], hb⟩
      obtain ⟨c, hc, hxc⟩ := h.claims_level hmem
      exact hout (hd.eq_of_below (hlevel ha) (h.mem_level c hc) hb hxc ▸ hc)
    · obtain ⟨hnot, hlt, c, hc, hxc⟩ := hsources x a ha hb
      refine ⟨hnot, hlt, c, ?_, hxc⟩
      rw [List.mem_append] at hc
      simp only [List.mem_append]
      exact hc.imp_left .inl
  constructor
  · rw [List.append_assoc]
    exact h.here
  · rw [← List.append_assoc]
    exact h'.there
  · exact h.same.trans h'.same
  · refine (h.regrown.trans hd (h.same.parent ▸ h'.regrown)).mono hd fun a ha hlt => ?_
    simp only [List.mem_append] at ha ⊢
    rcases ha with (ha | ha) | ha | ha
    · exact .inl (.inl ha)
    · exact .inr ha
    · exact .inl (.inr ha)
    · exact (List.mem_append.1 (hentered a ha hlt)).imp_left .inl
  · exact h.markers.trans h.regrown.size h'.markers
  · exact h.passed
  · exact h.below
  · rw [List.nodup_append]
    refine ⟨h.nodup, h'.nodup, fun x hx y hy hxy => ?_⟩
    exact (hsecond hy).1 (hxy ▸ hx)
  · intro x hx
    rcases List.mem_append.1 hx with hx | hx
    · obtain ⟨hlt, a, ha, hb⟩ := h.claims x hx
      rw [List.mem_append] at ha
      refine ⟨hlt, a, ?_, hb⟩
      simp only [List.mem_append]
      exact ha.imp_left .inl
    · exact (hsecond hx).2
  · rw [h'.count, h.count, List.length_append]
    omega

/-- A walk goes on along the level only. -/
theorem onward {ids' : List DomId}
    (h : w.Sweeps w' f f' fs done new used (taken ++ ahead) tail entered sources ids)
    (h' : w'.Sweeps w'' f' f'' fs (done ++ new) more taken ahead tail [] [] ids') :
    w.Sweeps w'' f f'' fs done (new ++ more) (used ++ taken) ahead tail entered sources
      (ids ++ ids') :=
  h.trans h' (by simp) (by simp)

end Sweeps

/-- Markers stay in a document that is dressed otherwise. -/
theorem SameMarkers.of_dressed {d : Document α} (h : w.document.Dressed d) :
    w.SameMarkers { w with document := d } := fun j _ edge => h.marker j edge

/-- A walk stands where it stood when something else about it changes. -/
theorem At.dressed (h : w.At f fs done ahead tail) (hd : w.document.Dressed w'.document)
    (hframes : w'.cursor.frames = w.cursor.frames) : w'.At f fs done ahead tail where
  frames := hframes.trans h.frames
  treelike := h.treelike.congr hd.size hd.children hd.parent
  held := hd.size ▸ h.held
  children := (hd.children _).trans h.children
  stop := h.stop
  next := h.next
  creating := h.creating
  closed hstop := (h.closed hstop).congr fun x _ => hd.marker x

/-- What was done below a node that was passed before. -/
theorem Sweeps.nested {inside : List DomId} (h : w.At f fs done ahead tail) (hid : id ∈ done)
    (hr : w.document.Regrown w'.document id inside)
    (hinside : ∀ a ∈ inside, a ∈ w.document.children id) (hmarkers : w.SameMarkers w')
    (hframes : w'.cursor.frames = f :: fs) (hnodup : ids.Nodup)
    (hclaims : ∀ x ∈ ids, x.index < w.document.nodes.size ∧
      ∃ a ∈ sources, w.document.Below x a)
    (hsources : ∀ b ∈ sources, b ∈ w.document.children id)
    (hcount : w'.report.claimed = w.report.claimed + ids.length) :
    w.Sweeps w' f f fs done [] [] ahead tail [id] sources ids where
  here := h
  there := by
    rw [List.append_nil]
    refine h.nested ?_ hr hmarkers hinside hframes
    rw [h.children]
    exact List.mem_append_left _ hid
  same := .refl f
  regrown := by
    refine (Document.Regrown.refl h.treelike f.parent [id]).nest h.treelike
      (.inr List.mem_cons_self) hr hinside
  markers := hmarkers
  passed a ha := List.mem_singleton.1 ha ▸ hid
  below b hb := ⟨id, List.mem_cons_self, hsources b hb⟩
  nodup := hnodup
  claims := hclaims
  count := hcount

/-- A level that was opened on a node: what a walk that claims has ahead there. -/
theorem at_level {mode : Mode} {p : DomId}
    (hframes : w.cursor.frames = Frame.open w.document p mode :: fs)
    (hd : w.document.Treelike) (hp : p.index < w.document.nodes.size) :
    ∃ done ahead, w.At (Frame.open w.document p mode) fs done ahead [] ∧
      (mode = .create → ahead = []) := by
  cases mode with
  | hydrate => exact ⟨_, _, at_open_hydrate hframes hd hp, fun h => by cases h⟩
  | create => exact ⟨_, _, at_open_create hframes hd hp, fun _ => rfl⟩

/-- A walk over the level of a node is part of one over the level above. -/
theorem Sweeps.inside {u u' : Walk α} {g g' : Frame} {gs : List Frame}
    {done' new' used' ahead' tail' : List DomId}
    (h : w.At f fs done ahead tail) (hid : id ∈ done)
    (hin : u.Sweeps u' g g' gs done' new' used' ahead' tail' [] [] ids) (hparent : g.parent = id)
    (hstart : u.document = w.document ∧ u.report.claimed = w.report.claimed)
    (hend : w'.document = u'.document ∧ w'.report.claimed = u'.report.claimed)
    (hframes : w'.cursor.frames = f :: fs) (hused : ∀ a ∈ used', a ∈ sources)
    (hsources : ∀ b ∈ sources, b ∈ w.document.children id) :
    w.Sweeps w' f f fs done [] [] ahead tail [id] sources ids := by
  have hr := hin.regrown
  have hclaims := hin.claims
  have hmarkers := hin.markers
  have hcount := hin.count
  rw [SameMarkers, hstart.1, ← hend.1] at hmarkers
  rw [hstart.1, ← hend.1, hparent] at hr
  rw [hstart.2, ← hend.2] at hcount
  refine .nested h hid hr ?_ hmarkers hframes hin.nodup (fun x hx => ?_) hsources hcount
  · intro a ha
    rw [List.append_nil] at ha
    exact hsources a (hused a ha)
  · obtain ⟨hlt, a, ha, hb⟩ := hclaims x hx
    rw [List.append_nil] at ha
    rw [hstart.1] at hlt hb
    exact ⟨hlt, a, hused a ha, hb⟩

/-! ## Providing a node -/

/-- A node was provided, and can be entered. -/
structure Supplies (w w' : Walk α) (f f' : Frame) (fs : List Frame)
    (done new used ahead tail : List DomId) (id : DomId) : Prop where
  /-- The walk goes on. -/
  sweeps : w.Sweeps w' f f' fs done new used ahead tail [] [] (w.claims [id])
  /-- The node has been passed. -/
  mem : id ∈ new
  /-- Only the level has changed. -/
  level : w.document.Regrown w'.document f.parent []
  /-- The node is new, or it was ahead and has been claimed. -/
  origin : (w'.cursor.last = some (id, true) ∧ w.document.nodes.size ≤ id.index) ∨
    (w'.cursor.last = some (id, false) ∧ id ∈ used)

/-- A node that was there is claimed. -/
theorem claims_of_lt (h : id.index < w.document.nodes.size) : w.claims [id] = [id] := by
  rw [claims, List.filter_cons_of_pos (by simpa using h), List.filter_nil]

/-- A new node is not claimed. -/
theorem claims_of_size_le (h : w.document.nodes.size ≤ id.index) : w.claims [id] = [] := by
  rw [claims, List.filter_cons_of_neg (by simpa using h), List.filter_nil]

/-- What the provided node is counted as is what it was. -/
theorem Sweeps.single (h : w.At f fs done (used ++ ahead) tail)
    (hat : w'.At f' fs (done ++ new) ahead tail)
    (hsame : f.Same f') (hr : w.document.Regrown w'.document f.parent []) (hm : w.SameMarkers w')
    (horigin : (w.document.nodes.size ≤ id.index ∧ w'.report.claimed = w.report.claimed) ∨
      (id ∈ used ∧ w'.report.claimed = w.report.claimed + 1)) :
    w.Sweeps w' f f' fs done new used ahead tail [] [] (w.claims [id]) := by
  have hused (hid : id ∈ used) : id.index < w.document.nodes.size := by
    refine h.treelike.holds f.parent id ?_
    rw [h.children]
    exact List.mem_append_right _ (List.mem_append_left _ (List.mem_append_left _ hid))
  refine ⟨h, hat, hsame, hr.mono h.treelike (by simp), hm, by simp, by simp, ?_, fun x hx => ?_, ?_⟩
  · exact (List.nodup_singleton id).filter _
  · obtain ⟨hx, hlt⟩ := List.mem_filter.1 hx
    obtain rfl := List.mem_singleton.1 hx
    rcases horigin with ⟨hfresh, -⟩ | ⟨hid, -⟩
    · exact absurd (of_decide_eq_true hlt) (Nat.not_lt.2 hfresh)
    · exact ⟨hused hid, x, List.mem_append_left _ hid, .refl _ x⟩
  · rcases horigin with ⟨hfresh, hcount⟩ | ⟨hid, hcount⟩
    · rw [claims_of_size_le hfresh, hcount, List.length_nil, Nat.add_zero]
    · rw [claims_of_lt (hused hid), hcount, List.length_singleton]

/-- What is provided by a claim can be entered. -/
theorem Provides.supplies {step : WalkM α DomId} {expected : Expected}
    (h : Provides step w f fs done ahead tail expected) : ∃ id w' f' new used rest,
      step.run w = .ok (id, w') ∧ ahead = used ++ rest ∧
        w.Supplies w' f f' fs done new used rest tail id := by
  obtain ⟨id, w', f', skipped, used, rest, hrun, hsplit, hadv, hlevel, -, -, hprovided⟩ := h
  have hmarkers : w.SameMarkers w' := fun j hj => marker_iff_of_bare (hlevel.bare j hj)
  refine ⟨id, w', f', skipped ++ [id], used, rest, hrun, hsplit, ?_, by simp, hlevel.toRegrown, ?_⟩
  · refine .single hadv.here hadv.there hadv.same hlevel.toRegrown hmarkers ?_
    cases hprovided with
    | created last fresh inside count => exact .inl ⟨fresh, count⟩
    | claimed last hydrates old inside count => exact .inr ⟨old, count⟩
  · cases hprovided with
    | created last fresh inside count => exact .inl ⟨last, fresh⟩
    | claimed last hydrates old inside count => exact .inr ⟨last, old⟩

/-- A walk goes on below the node that was provided, and along the level. -/
theorem Supplies.trans (h : w.Supplies w' f f' fs done new used (taken ++ ahead) tail id)
    (h' : w'.Sweeps w'' f' f'' fs (done ++ new) more taken ahead tail entered sources ids)
    (hentered : ∀ a ∈ entered, a = id)
    (hsources : ∀ b ∈ sources, b ∈ w'.document.children id ∧ w'.cursor.last = some (id, false)) :
    w.Sweeps w'' f f'' fs done (new ++ more) (used ++ taken) ahead tail [] []
      (w.claims [id] ++ ids) := by
  have hd := h.sweeps.here.treelike
  refine h.sweeps.trans h' (fun a ha hlt => ?_) fun x b hb hxb => ?_
  · obtain rfl := hentered a ha
    rcases h.origin with ⟨-, hfresh⟩ | ⟨-, hused⟩
    · exact absurd hlt (Nat.not_lt.2 hfresh)
    · exact List.mem_append_left _ hused
  · obtain ⟨hchild, hlast⟩ := hsources b hb
    have hused : id ∈ used := by
      rcases h.origin with ⟨hcreated, -⟩ | ⟨-, hused⟩
      · rw [hcreated] at hlast
        cases hlast
      · exact hused
    have hd' := h.level.treelike
    have hxid : w'.document.Below x id := hxb.tail ((hd'.child id b).1 hchild)
    have hlevel := h.sweeps.mem_level id (List.mem_append_left _ hused)
    obtain ⟨hlt, hx⟩ := h.level.below_child hd hlevel hxid
    refine ⟨fun hmem => ?_, hlt, id, List.mem_append_left _ hused, hx⟩
    obtain rfl := List.mem_singleton.1 (List.mem_filter.1 hmem).1
    exact hd'.not_below_child hchild hxb

/-- A node that is provided behind nodes that were passed over. -/
theorem Supplies.behind {skipped : List DomId}
    (h : w'.Supplies w'' f' f'' fs (done ++ skipped) new used ahead tail id)
    (hskip : w.Advances w' f f' fs done skipped skipped (used ++ ahead) tail)
    (hdocument : w'.document = w.document) (hclaimed : w'.report.claimed = w.report.claimed) :
    w.Supplies w'' f f'' fs done (skipped ++ new) (skipped ++ used) ahead tail id := by
  have hhere := hskip.here
  have hthere := h.sweeps.there
  have hlevel := h.level
  have hmarkers := h.sweeps.markers
  have horigin := h.origin
  have hcount := h.sweeps.count
  rw [← List.append_assoc] at hhere
  rw [List.append_assoc] at hthere
  rw [hdocument, hskip.same.parent] at hlevel
  rw [SameMarkers, hdocument] at hmarkers
  rw [hdocument] at horigin
  rw [hclaimed, claims, hdocument, ← claims] at hcount
  have hused (hid : id ∈ used) : id.index < w.document.nodes.size := by
    refine hdocument ▸ h.sweeps.here.treelike.holds f'.parent id ?_
    exact h.sweeps.mem_level id (List.mem_append_left _ hid)
  refine ⟨.single hhere hthere (hskip.same.trans h.sweeps.same) hlevel hmarkers ?_,
    List.mem_append_right _ h.mem, hlevel, ?_⟩
  · rcases horigin with ⟨-, hfresh⟩ | ⟨-, hid⟩
    · rw [claims_of_size_le hfresh] at hcount
      exact .inl ⟨hfresh, hcount⟩
    · rw [claims_of_lt (hused hid)] at hcount
      exact .inr ⟨List.mem_append_right _ hid, hcount⟩
  · exact horigin.imp_right fun h => ⟨h.1, List.mem_append_right _ h.2⟩

/-- Puts a fragment where the walk stands, unless what was found there is one like it. -/
def putFragment (fragment : Fragment) (found : Option DomId) : WalkM α DomId := do
  let fits := (← get).document.kind
  match found.filter fun id => (expectedOf fragment).accepts (fits id) with
  | some id =>
    modify fun w => ((w.advancePast id).modifyReport (·.addClaimed 1)).setLast id false
    return id
  | none =>
    let f ← frame
    let w ← get
    let (id, d) := w.document.build fragment
    let d := d.insertBefore f.parent id f.anchor
    set (({ w with document := d }.modifyReport (·.addCreated fragment.size)).setLast id true)
    match found with
    | none => return id
    | some found =>
      modify fun w =>
        let kind := w.document.kind found
        ((w.modifyDocument (·.remove found)).advancePast id).modifyReport fun r =>
          (r.addDiscarded 1).record (expectedOf fragment).describe (some kind.describe) .replaced
      return id

/-- Where nodes are created, a fragment is put. -/
theorem append_create (hmode : mode.run w = .ok (.create, w)) (fragment : Fragment) :
    (append fragment).run w = (putFragment fragment none).run w := by
  rw [append, bind_ok hmode]
  rfl

/-- Where nodes are claimed, a candidate is looked for first. -/
theorem append_hydrate {found : Option DomId} (hmode : mode.run w = .ok (.hydrate, w))
    {fragment : Fragment}
    (hlook : (candidate (expectedOf fragment).isText).run w = .ok (found, w')) :
    (append fragment).run w = (putFragment fragment found).run w' := by
  rw [append, bind_ok hmode]
  exact bind_ok hlook

/-- The walk behind a fragment that was built where it stood. -/
def withFragment (w : Walk α) (p : DomId) (anchor : Option DomId) (fragment : Fragment) : Walk α :=
  ({ w with
    document := (w.document.build fragment).2.insertBefore p (w.document.build fragment).1 anchor
    }.modifyReport (·.addCreated fragment.size)).setLast (w.document.build fragment).1 true

/-- A fragment that is built stands where the walk stood. -/
theorem At.withFragment (h : w.At f fs done ahead tail) (fragment : Fragment) :
    let id := (w.document.build fragment).1
    let w' := w.withFragment f.parent (ahead ++ tail).head? fragment
    (putFragment fragment none).run w = .ok (id, w') ∧ w'.At f fs (done ++ [id]) ahead tail ∧
      w.document.Redrawn w'.document f.parent [] ∧ w'.document.kind id = fragment.tree.kind ∧
      w.document.nodes.size ≤ id.index := by
  obtain ⟨hr, hkind, hchildren⟩ := h.treelike.planted h.held fragment.tree (ahead ++ tail).head?
  have hid : (w.document.build fragment).1 = ⟨w.document.nodes.size⟩ :=
    (Document.plant_extended h.treelike fragment.tree).1
  refine ⟨?_, ⟨h.frames, hr.treelike, Nat.lt_of_lt_of_le h.held hr.size, ?_, h.stop,
    h.next, h.creating,
    fun hstop => (h.closed hstop).congr fun x hx => marker_iff_of_bare (hr.bare x ?_)⟩, hr, ?_,
    hid ▸ Nat.le_refl _⟩
  · rw [putFragment, bind_ok (x := get) (b := w) rfl]
    simp only [Option.filter_none]
    rw [bind_ok (frame_run h.frames), h.anchor]
    rfl
  · rw [hid]
    refine hchildren.trans ?_
    rw [h.children, Document.insertIn_head _ h.nodup]
    simp
  · refine h.treelike.holds f.parent x ?_
    rw [h.children]
    exact List.mem_append_right _ (List.mem_append_left _ hx)
  · rw [hid]
    exact hkind

/-- A fragment is built where there is nothing to be claimed. -/
theorem At.putFragment_none (h : w.At f fs done ahead tail) (fragment : Fragment) :
    ∃ id w', (putFragment fragment none).run w = .ok (id, w') ∧
      w.Supplies w' f f fs done [id] [] ahead tail id := by
  obtain ⟨hrun, hat, hr, -, hfresh⟩ := h.withFragment fragment
  have hmarkers : w.SameMarkers (w.withFragment f.parent (ahead ++ tail).head? fragment) :=
    fun j hj => marker_iff_of_bare (hr.bare j hj)
  exact ⟨_, _, hrun, .single h hat (.refl f) hr.toRegrown hmarkers (.inl ⟨hfresh, rfl⟩), by simp,
    hr.toRegrown, .inl ⟨rfl, hfresh⟩⟩

/-- A node like the fragment is claimed. -/
theorem At.putFragment_run {found : DomId} (h : w.At f fs done (found :: ahead) tail)
    (hmode : f.mode = .hydrate) {fragment : Fragment}
    (haccepts : (expectedOf fragment).accepts (w.document.kind found) = true) :
    let w' : Walk α := { w with
      report := w.report.addClaimed 1
      cursor := ⟨{ f with next := (ahead ++ tail).head? } :: fs, some (found, false)⟩ }
    (putFragment fragment (some found)).run w = .ok (found, w') ∧
      w'.At { f with next := (ahead ++ tail).head? } fs (done ++ [found]) ahead tail := by
  have hfacing := h.facing hmode
  have hat := hfacing.at_advancePast
  rw [hfacing.advancePast_eq] at hat
  refine ⟨?_, hat.frames, hat.treelike, hat.held, hat.children, hat.stop, hat.next, hat.creating,
    hat.closed⟩
  rw [putFragment, bind_ok (x := get) (b := w) rfl]
  simp only [Option.filter_some, haccepts, if_true]
  exact congrArg (fun u : Walk α => Except.ok
    (found, (u.modifyReport (·.addClaimed 1)).setLast found false)) hfacing.advancePast_eq

private theorem At.putFragment_fits {found : DomId} (h : w.At f fs done (found :: ahead) tail)
    (hmode : f.mode = .hydrate) {fragment : Fragment}
    (haccepts : (expectedOf fragment).accepts (w.document.kind found) = true) : ∃ w' f',
      (putFragment fragment (some found)).run w = .ok (found, w') ∧
        w.Supplies w' f f' fs done [found] [found] ahead tail found := by
  obtain ⟨hrun, hthere⟩ := h.putFragment_run hmode haccepts
  have hr := Document.Regrown.refl h.treelike f.parent []
  exact ⟨_, _, hrun, .single h hthere ⟨rfl, rfl, rfl⟩ hr (fun _ _ _ => Iff.rfl)
    (.inr ⟨by simp, rfl⟩), by simp, hr, .inr ⟨rfl, by simp⟩⟩

/-- The node that is ahead gives way to the one that was put in front of it. -/
theorem At.giveWay {found : DomId} (h : w.At f fs (done ++ [id]) (found :: ahead) tail)
    (hmode : f.mode = .hydrate) (account : Report → Report) :
    let w' := ((w.modifyDocument (·.remove found)).advancePast id).modifyReport account
    w'.At { f with next := (ahead ++ tail).head? } fs (done ++ [id]) ahead tail ∧
      w.document.Redrawn w'.document f.parent [] ∧ w'.cursor.last = w.cursor.last ∧
        w'.report = account w.report := by
  have hmem : found ∈ w.document.children f.parent := by simp [h.children]
  have hremove := h.treelike.redrawn_remove hmem
  have hfacing : (w.modifyDocument (·.remove found)).Facing f fs done id ahead tail := by
    refine ⟨h.frames, hremove.treelike, Nat.lt_of_lt_of_le h.held hremove.size, ?_, h.stop,
      hmode, fun hstop => ?_⟩
    · show (w.document.remove found).children f.parent = _
      have hnodup := h.nodup
      rw [List.append_assoc, ← List.append_assoc done, List.cons_append] at hnodup
      rw [h.treelike.children_remove_self hmem, h.children, List.cons_append,
        filter_ne_middle hnodup]
      simp
    · exact ((h.closed hstop).suffix (a := [found])).congr fun x _ edge => by
        rw [show (w.modifyDocument (·.remove found)).document = w.document.remove found from rfl,
          Document.kind_remove]
  have hthere := hfacing.at_advancePast
  rw [hfacing.advancePast_eq] at hthere ⊢
  exact ⟨⟨rfl, hthere.treelike, hthere.held, hthere.children, hthere.stop, hthere.next,
    hthere.creating, hthere.closed⟩, hremove, rfl, rfl⟩

/-- A fragment takes the place of another node. -/
theorem At.putFragment_other {found : DomId} (h : w.At f fs done (found :: ahead) tail)
    (hmode : f.mode = .hydrate) {fragment : Fragment}
    (hother : ¬(expectedOf fragment).accepts (w.document.kind found) = true) : ∃ id w' f',
      (putFragment fragment (some found)).run w = .ok (id, w') ∧
        w.Supplies w' f f' fs done [id] [found] ahead tail id := by
  obtain ⟨-, hat, hr, -, hfresh⟩ := h.withFragment fragment
  have hmarkers : w.SameMarkers (w.withFragment f.parent
      ((found :: ahead) ++ tail).head? fragment) :=
    fun j hj => marker_iff_of_bare (hr.bare j hj)
  have hrun : (putFragment fragment (some found)).run w = .ok ((w.document.build fragment).1,
      (((w.withFragment f.parent ((found :: ahead) ++ tail).head? fragment).modifyDocument
        (·.remove found)).advancePast (w.document.build fragment).1).modifyReport fun r =>
          (r.addDiscarded 1).record (expectedOf fragment).describe
            (some ((w.withFragment f.parent ((found :: ahead) ++ tail).head?
              fragment).document.kind found).describe) .replaced) := by
    rw [putFragment, bind_ok (x := get) (b := w) rfl]
    simp only [Option.filter_some, hother, Bool.false_eq_true, if_false]
    rw [bind_ok (frame_run h.frames), h.anchor]
    rfl
  have hlast : (w.withFragment f.parent ((found :: ahead) ++ tail).head? fragment).cursor.last =
      some ((w.document.build fragment).1, true) := rfl
  have hcount : (w.withFragment f.parent ((found :: ahead) ++ tail).head? fragment).report.claimed =
      w.report.claimed := rfl
  generalize w.withFragment f.parent ((found :: ahead) ++ tail).head? fragment = w₁ at *
  obtain ⟨hthere, hway, hlast', hreport⟩ := hat.giveWay hmode fun r =>
    (r.addDiscarded 1).record (expectedOf fragment).describe
      (some (w₁.document.kind found).describe) .replaced
  have hlevel := hr.toRegrown.trans h.treelike hway.toRegrown
  refine ⟨_, _, { f with next := (ahead ++ tail).head? }, hrun,
    .single h hthere ⟨rfl, rfl, rfl⟩ hlevel ?_ (.inl ⟨hfresh, ?_⟩), by simp, hlevel,
    .inl ⟨hlast'.trans hlast, hfresh⟩⟩
  · exact hmarkers.trans hr.size fun j hj => marker_iff_of_bare (hway.bare j hj)
  · rw [hreport]
    exact hcount

/-- What a walk does for a fragment that is to be put. -/
theorem At.append_spec (h : w.At f fs done ahead tail) (fragment : Fragment) :
    ∃ id w' f' new used rest, (append fragment).run w = .ok (id, w') ∧ ahead = used ++ rest ∧
      w.Supplies w' f f' fs done new used rest tail id := by
  have hhere := mode_run h.frames
  cases hmode : f.mode with
  | create =>
    rw [hmode] at hhere
    obtain ⟨id, w', hrun, hsupplies⟩ := h.putFragment_none fragment
    exact ⟨id, w', f, [id], [], ahead, (append_create hhere fragment).trans hrun, rfl, hsupplies⟩
  | hydrate =>
    rw [hmode] at hhere
    obtain ⟨w₁, f₁, skipped, rest, hlook, rfl, hskip, hdocument, hclaimed, -, -⟩ :=
      h.skips hmode (expectedOf fragment).isText
    have hrun := append_hydrate hhere hlook
    have hmode₁ : f₁.mode = .hydrate := hskip.same.mode.trans hmode
    have hat := hskip.there
    have hbehind {id : DomId} {w' : Walk α} {f' : Frame} {new used ahead : List DomId}
        (hrest : rest = used ++ ahead) (hstep : (putFragment fragment rest.head?).run w₁ =
          .ok (id, w'))
        (hsupplies : w₁.Supplies w' f₁ f' fs (done ++ skipped) new used ahead tail id) :
        ∃ id w' f' new used rest', (append fragment).run w = .ok (id, w') ∧
          skipped ++ rest = used ++ rest' ∧
            w.Supplies w' f f' fs done new used rest' tail id := by
      subst hrest
      exact ⟨id, w', f', skipped ++ new, skipped ++ used, ahead, hrun.trans hstep, by simp,
        hsupplies.behind hskip hdocument hclaimed⟩
    cases rest with
    | nil =>
      obtain ⟨id, w', hstep, hsupplies⟩ := hat.putFragment_none fragment
      exact hbehind rfl hstep hsupplies
    | cons found rest =>
      by_cases haccepts : (expectedOf fragment).accepts (w₁.document.kind found) = true
      · obtain ⟨w', f', hstep, hsupplies⟩ := hat.putFragment_fits hmode₁ haccepts
        exact hbehind rfl hstep hsupplies
      · obtain ⟨id, w', f', hstep, hsupplies⟩ := hat.putFragment_other hmode₁ haccepts
        exact hbehind rfl hstep hsupplies

end Hydration.Walk

end Rivulet
