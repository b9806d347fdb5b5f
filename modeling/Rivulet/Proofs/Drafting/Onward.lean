import Rivulet.Proofs.Drafting.Sweeping

/-!
# Templates go forward

A template that enters no node but the one that it has just claimed, and none twice, never comes
back to what it has left behind. Whatever markup it meets, it claims no node twice and counts each
node that it claims, unless the content of a boundary is drawn anew.
-/

namespace Rivulet

open Hydration

namespace Hydration.Walk

variable {α : Type} {w w' w'' : Walk α} {f f' : Frame} {fs : List Frame}
  {done skipped inside used ahead tail ids : List DomId} {m : Markers}

namespace Ends

/-- The ends of a fragment stand on the level, with what is inside between them. -/
theorem children (h : w.Ends w' f f' fs m done skipped inside used ahead tail) :
    w'.document.children f'.parent =
      (done ++ skipped) ++ m.opening :: (inside ++ m.closing :: (ahead ++ tail)) := by
  simpa using h.advances.there.children

/-- The ends of a fragment, and what is between them, are different nodes. -/
theorem apart (h : w.Ends w' f f' fs m done skipped inside used ahead tail) :
    m.opening ≠ m.closing ∧ m.opening ∉ inside ∧ m.closing ∉ inside := by
  have hnodup := h.advances.there.treelike.nodup f'.parent
  rw [h.children, List.nodup_append, List.nodup_cons] at hnodup
  obtain ⟨-, ⟨hopening, hnodup⟩, -⟩ := hnodup
  obtain ⟨-, -, hclosing⟩ := List.nodup_append.1 hnodup
  simp only [List.mem_append, List.mem_cons, not_or] at hopening
  exact ⟨hopening.2.1, hopening.1, fun hin => hclosing _ hin _ List.mem_cons_self rfl⟩

/-- What was used up stood on the level. -/
theorem mem_level (h : w.Ends w' f f' fs m done skipped inside used ahead tail) {a : DomId}
    (ha : a ∈ used) : a ∈ w.document.children f.parent := h.advances.used_mem a ha

/-- The walk between the ends has what is there ahead. -/
theorem at_amid {w : Sheet} {w' : Sheet}
    (h : w.Ends w' f f' fs m done skipped inside used ahead tail) :
    (w'.amid f'.parent m).At (.between w'.document f'.parent m.opening m.closing m.mode) []
      ((done ++ skipped) ++ [m.opening]) inside (m.closing :: (ahead ++ tail)) :=
  at_between rfl h.advances.there.treelike h.children h.fresh fun hmode => (h.hydrates hmode).2

/-- What is counted as claimed of the ends of a fragment. -/
theorem claims (h : w.Ends w' f f' fs m done skipped inside used ahead tail) :
    (∀ x ∈ w.claims [m.opening, m.closing], x ∈ used ∧ (x = m.opening ∨ x = m.closing)) ∧
      (w.claims [m.opening, m.closing]).Nodup ∧
      w'.report.claimed = w.report.claimed + (w.claims [m.opening, m.closing]).length := by
  have hne := h.apart.1
  have hboth : (∀ x ∈ w.claims [m.opening, m.closing], x = m.opening ∨ x = m.closing) ∧
      (w.claims [m.opening, m.closing]).Nodup :=
    ⟨fun x hx => by simpa using (List.mem_filter.1 hx).1,
      List.Nodup.filter _ (by simpa using hne)⟩
  cases hmode : m.mode with
  | create =>
    obtain ⟨hopening, hclosing, hcount⟩ := h.created hmode
    have hnone : w.claims [m.opening, m.closing] = [] := by
      simp [Walk.claims, hopening, hclosing]
    rw [hnone] at hboth ⊢
    exact ⟨by simp, hboth.2, hcount⟩
  | hydrate =>
    obtain ⟨hopening, hclosing, hcount⟩ := h.claimed hmode
    have hold {a : DomId} (ha : a ∈ used) : a.index < w.document.nodes.size :=
      h.advances.here.treelike.holds _ _ (h.mem_level ha)
    have hall : w.claims [m.opening, m.closing] = [m.opening, m.closing] := by
      simp [Walk.claims, hold hopening, hold hclosing]
    rw [hall] at hboth ⊢
    refine ⟨fun x hx => ⟨?_, hboth.1 x hx⟩, hboth.2, hcount⟩
    rcases hboth.1 x hx with rfl | rfl
    · exact hopening
    · exact hclosing

/-- A walk between the ends of a fragment is part of one over the level of the ends. -/
theorem sweeps {w w' w'' u u' : Walk α} {g g' : Frame} {gs : List Frame}
    {new' used' rest' : List DomId}
    (h : w.Ends w' f f' fs m done skipped inside used ahead tail)
    (hin : u.Sweeps u' g g' gs ((done ++ skipped) ++ [m.opening]) new' used' rest'
      (m.closing :: (ahead ++ tail)) [] [] ids) (hsplit : inside = used' ++ rest')
    (hparent : g.parent = f'.parent)
    (hstart : u.document = w'.document ∧ u.report.claimed = w'.report.claimed)
    (hend : w''.document = u'.document ∧ w''.report.claimed = u'.report.claimed)
    (hframes : w''.cursor.frames = f' :: fs) :
    w.Sweeps w'' f f' fs done (skipped ++ m.opening :: ((new' ++ rest') ++ [m.closing])) used ahead
      tail [] [] (w.claims [m.opening, m.closing] ++ ids) := by
  have hd := h.advances.here.treelike
  have hlevel := h.level.toRegrown
  have hr := hin.regrown
  have hmarkers := hin.markers
  have hclaims := hin.claims
  have hcount := hin.count
  have hchildren := hin.there.children
  rw [List.append_nil, hstart.1, ← hend.1, hparent] at hr
  rw [SameMarkers, hstart.1, ← hend.1] at hmarkers
  rw [hstart.1] at hclaims
  rw [hstart.2, ← hend.2] at hcount
  rw [← hend.1, hin.same.parent, hparent] at hchildren
  have hamong {a : DomId} (ha : a ∈ used') : a ∈ inside := hsplit ▸ List.mem_append_left _ ha
  have hsame : w.SameMarkers w'' := SameMarkers.trans
    (fun j hj => marker_iff_of_bare (h.level.bare j hj)) hlevel.size hmarkers
  -- What is claimed between the ends stood there before the ends were provided.
  have hinside {x : DomId} (hx : x ∈ ids) : x ∉ w.claims [m.opening, m.closing] ∧
      x.index < w.document.nodes.size ∧ ∃ a ∈ used, w.document.Below x a := by
    obtain ⟨-, a, ha, hb⟩ := hclaims x hx
    rw [List.append_nil] at ha
    have hused := h.among a (hamong ha)
    obtain ⟨hlt, hb'⟩ := hlevel.below_child hd (h.mem_level hused) hb
    refine ⟨fun hmem => ?_, hlt, a, hused, hb'⟩
    have hmem' {y : DomId} (hy : y = m.opening ∨ y = m.closing ∨ y ∈ inside) :
        y ∈ w'.document.children f'.parent := by
      rw [h.children]
      simp only [List.mem_append, List.mem_cons]
      exact .inr (hy.imp_right fun hy => hy.symm.imp_right .inl)
    have hends := (h.claims.1 x hmem).2
    have heq := h.advances.there.treelike.eq_of_below (hmem' (.inr (.inr (hamong ha))))
      (hmem' (hends.imp_right .inl)) hb (.refl _ x)
    rcases hends with rfl | rfl
    · exact h.apart.2.1 (heq ▸ hamong ha)
    · exact h.apart.2.2 (heq ▸ hamong ha)
  have hthere := h.advances.there
  refine ⟨h.advances.here, ⟨hframes, hr.treelike, Nat.lt_of_lt_of_le hthere.held hr.size, ?_,
    hthere.stop, hthere.next, hthere.creating, fun hstop => ?_⟩, h.advances.same,
      ?_, hsame, by simp,
    by simp, ?_, fun x hx => ?_, ?_⟩
  · rw [hchildren]
    simp
  · refine (hthere.closed hstop).congr fun x hx => hmarkers x (hthere.treelike.holds f'.parent x ?_)
    rw [hthere.children]
    exact List.mem_append_right _ (List.mem_append_left _ hx)
  · refine (hlevel.trans hd (h.advances.same.parent ▸ hr)).mono hd fun a ha _ => ?_
    rw [List.append_nil]
    exact h.among a (hamong ha)
  · rw [List.nodup_append]
    refine ⟨h.claims.2.1, hin.nodup, fun x hx y hy hxy => (hinside hy).1 (hxy ▸ hx)⟩
  · rw [List.append_nil]
    rcases List.mem_append.1 hx with hx | hx
    · have hused := (h.claims.1 x hx).1
      exact ⟨hd.holds _ _ (h.mem_level hused), x, hused, .refl _ x⟩
    · exact (hinside hx).2
  · rw [hcount, h.claims.2.2, List.length_append]
    omega

end Ends

/-- Settling a level claims nothing. -/
theorem settleFrame_claimed (w : Walk α) (f : Frame) :
    (w.settleFrame f).report.claimed = w.report.claimed := by
  have hrecords (found : DomId → Option String) (ids : List DomId) (r : Report) :
      (ids.foldl (fun r id => r.record "end of children" (found id) .escalated) r).claimed =
        r.claimed := by
    induction ids generalizing r with
    | nil => rfl
    | cons id ids ih => exact ih _
  rw [settleFrame]
  split
  · rfl
  · refine (hrecords _ _ _).trans ?_
    split <;> rfl

/-- The end of a walk over a single level changes neither the document nor what was claimed. -/
theorem At.finished (h : w.At f [] done ahead tail) :
    w.finish.document = w.document ∧ w.finish.report.claimed = w.report.claimed := by
  rw [finish_eq h.frames]
  exact ⟨h.settleFrame_spec.1, settleFrame_claimed w f⟩

/-! ## What may be entered -/

/-- The node that may be entered: the one that was provided last, when it is ready for that. -/
def entered (w : Walk α) : Bool → List DomId
  | true => (w.cursor.last.map (·.1)).toList
  | false => []

/-- What may be claimed inside of that node. -/
def sources (w : Walk α) : Bool → List DomId
  | true =>
    match w.cursor.last with
    | some (id, false) => w.document.children id
    | _ => []
  | false => []

/-- What may be claimed are children of what may be entered. -/
theorem sources_below {ready : Bool} : ∀ b ∈ w.sources ready,
    ∃ a ∈ w.entered ready, b ∈ w.document.children a := by
  intro b hb
  cases ready with
  | false => cases hb
  | true =>
    rw [sources] at hb
    split at hb
    · rename_i id hlast
      exact ⟨id, by simp [entered, hlast], hb⟩
    · cases hb

/-- A walk goes on after a change that it does not notice. -/
theorem Sweeps.after_dressed {new : List DomId} {ready : Bool}
    (h : w.At f fs done (used ++ ahead) tail)
    (h' : w'.Sweeps w'' f f' fs done new used ahead tail (w'.entered ready) (w'.sources ready) ids)
    (hd : w.document.Dressed w'.document) (hlast : w'.cursor.last = w.cursor.last)
    (hcount : w'.report.claimed = w.report.claimed) :
    w.Sweeps w'' f f' fs done new used ahead tail (w.entered ready) (w.sources ready) ids := by
  have hentered : w'.entered ready = w.entered ready := by
    cases ready with
    | false => rfl
    | true => rw [entered, entered, hlast]
  have hsources : w'.sources ready = w.sources ready := by
    cases ready with
    | false => rfl
    | true =>
      rw [sources, sources, hlast]
      split
      · exact hd.children _
      · rfl
  rw [hentered, hsources] at h'
  refine ⟨h, h'.there, h'.same, (hd.regrown h.treelike f.parent).trans h.treelike h'.regrown,
    (SameMarkers.of_dressed hd).trans hd.size.ge h'.markers, h'.passed, sources_below, h'.nodup,
    fun x hx => ?_, hcount ▸ h'.count⟩
  obtain ⟨hlt, a, ha, hb⟩ := h'.claims x hx
  exact ⟨hd.size ▸ hlt, a, ha, hd.below ▸ hb⟩

/-- A walk that has entered nothing may have entered what was ready. -/
theorem Sweeps.entering {new : List DomId} {ready : Bool}
    (h : w.Sweeps w' f f' fs done new used ahead tail [] [] ids)
    (hready : ∀ a ∈ w.entered ready, a ∈ done) :
    w.Sweeps w' f f' fs done new used ahead tail (w.entered ready) (w.sources ready) ids :=
  h.widen (by simp) (by simp) hready sources_below

/-- What was provided is what was provided last. -/
theorem Supplies.last {new : List DomId} {id : DomId}
    (h : w.Supplies w' f f' fs done new used ahead tail id) :
    ∃ created, w'.cursor.last = some (id, created) := by
  rcases h.origin with ⟨hlast, -⟩ | ⟨hlast, -⟩
  · exact ⟨_, hlast⟩
  · exact ⟨_, hlast⟩

/-- A walk goes on below the node that was provided when that may be entered. -/
theorem Supplies.onward {new more taken : List DomId} {f'' : Frame} {id : DomId}
    (h : w.Supplies w' f f' fs done new used (taken ++ ahead) tail id)
    (h' : w'.Sweeps w'' f' f'' fs (done ++ new) more taken ahead tail (w'.entered true)
      (w'.sources true) ids) :
    w.Sweeps w'' f f'' fs done (new ++ more) (used ++ taken) ahead tail [] []
      (w.claims [id] ++ ids) := by
  obtain ⟨created, hlast⟩ := h.last
  refine h.trans h' (fun a ha => by simpa [entered, hlast] using ha) fun b hb => ?_
  rw [sources, hlast] at hb
  cases created with
  | true => cases hb
  | false => exact ⟨hb, hlast⟩

/-- What was provided last may be entered. -/
theorem Supplies.ready {new : List DomId} {id : DomId}
    (h : w.Supplies w' f f' fs done new used ahead tail id) :
    ∀ a ∈ w'.entered true, a ∈ done ++ new := by
  intro a ha
  obtain ⟨created, hlast⟩ := h.last
  obtain rfl : a = id := by simpa [entered, hlast] using ha
  exact List.mem_append_right _ h.mem

end Hydration.Walk

/-! ## What is left of a template -/

namespace Program

variable {rules : Rules} {ready : Bool} {depth : Nat} {o : Op} {next : Option Json → Program}

/-- A template goes on behind a look or a new signal. -/
theorem Draws.of_look (h : (op o next).Draws rules ready depth)
    (looks : o.looks = true ∨ o.createsSignal = true) (a : Option Json) :
    (next a).Draws rules ready depth := by
  cases h with
  | look _ rest => exact rest a
  | provide provides _ => cases o <;> simp_all [Op.looks, Op.createsSignal, Op.provides?]
  | enter _ => rcases looks with h | h <;> cases h
  | exit _ => rcases looks with h | h <;> cases h
  | boundary boundary _ _ => cases boundary

/-- A template goes on behind a query. -/
theorem Draws.of_query {name : Option String} {key : String} {shape : Query.Shape}
    {plan : Query.Plan} {value next : Program}
    (h : (Program.query name key shape plan value next).Draws rules ready depth) :
    next.Draws rules ready depth := by
  cases h with
  | query _ rest => exact rest
  | boundary boundary _ _ => cases boundary

/-- A template goes on behind a node, which may then be entered. -/
theorem Draws.of_provide {α : Type} {step : Hydration.WalkM α DomId}
    (h : (op o next).Draws rules ready depth) (provides : o.provides? = some step) :
    (next none).Draws rules true depth := by
  cases h with
  | look looks _ =>
    cases o <;> simp_all [Op.looks, Op.createsSignal, Op.provides?]
  | provide _ rest => exact rest
  | enter _ => cases provides
  | exit _ => cases provides
  | boundary boundary _ _ => cases boundary

/-- A template goes on in a level, which it may only enter behind a node. -/
theorem Draws.of_enter (h : (op .enter next).Draws rules ready depth) :
    ready = true ∧ (next none).Draws rules false (depth + 1) := by
  cases h with
  | look looks _ => rcases looks with h | h <;> cases h
  | provide provides _ => cases provides
  | enter rest => exact ⟨rfl, rest⟩
  | boundary boundary _ _ => cases boundary

/-- A template goes on behind a level that it leaves. -/
theorem Draws.of_exit (h : (op .exit next).Draws rules ready (depth + 1)) :
    (next none).Draws rules rules.again depth := by
  cases h with
  | look looks _ => rcases looks with h | h <;> cases h
  | provide provides _ => cases provides
  | exit rest => exact rest
  | boundary boundary _ _ => cases boundary

/-- A template goes on behind an enclosure, which only looks or draws as well. -/
theorem Draws.of_within {e : Enclosure} {body : Program} {next : Outcome → Option Json → Program}
    (h : (within e body next).Draws rules ready depth) :
    (body.Quiet ∧ ∀ v, (next (.value v) none).Draws rules ready depth) ∨
      (body.Draws rules false 0 ∧
        ∀ v, (next (.value v) none).Draws rules (ready && rules.again) depth) := by
  cases h with
  | thought _ inside rest => exact .inl ⟨inside, rest⟩
  | part _ inside rest => exact .inr ⟨inside, rest⟩
  | boundary boundary _ _ => cases boundary

section Install

variable {i : Install} {body : Json → Program} {name : Option String}

/-- What stands aside of the document is no boundary. -/
theorem boundary?_of_aside (aside : i.isAside = true) : (install i body next).boundary? = none := by
  cases i with
  | boundary => cases aside
  | _ => rfl

/-- A template goes on behind what stands aside of the document. -/
theorem Draws.of_aside (h : (install i body next).Draws rules ready depth)
    (aside : i.isAside = true)
    (a : Option Json) : (next a).Draws rules ready depth := by
  cases h with
  | keep _ _ rest => exact rest a
  | listen rest => exact rest a
  | boundary boundary _ _ =>
    rw [boundary?_of_aside aside] at boundary
    cases boundary
  | _ => cases aside

/-- A template goes on behind an attribute. -/
theorem Draws.of_attr {node name : String}
    (h : (install (.attr node name) body next).Draws rules ready depth) (a : Option Json) :
    (next a).Draws rules ready depth := by
  cases h with
  | keep aside _ _ => cases aside
  | attr _ _ rest => exact rest a
  | boundary boundary _ _ => cases boundary

/-- A template goes on behind a text. -/
theorem Draws.of_text (h : (install (.dynText name) body next).Draws rules ready depth) :
    (next none).Draws rules true depth := by
  cases h with
  | keep aside _ _ => cases aside
  | text _ rest => exact rest
  | boundary boundary _ _ => cases boundary

/-- A template goes on behind a region, which draws as well. -/
theorem Draws.of_region (h : (install (.region name) body next).Draws rules ready depth) :
    (body .null).Draws rules false 0 ∧ (next none).Draws rules rules.again depth := by
  cases h with
  | keep aside _ _ => cases aside
  | region inside rest => exact ⟨inside, rest⟩
  | boundary boundary _ _ => cases boundary

/-- A template goes on behind an insert. -/
theorem Draws.of_insert (h : (install (.insert name) body next).Draws rules ready depth) :
    (next none).Draws rules rules.again depth := by
  cases h with
  | keep aside _ _ => cases aside
  | insert _ rest => exact rest
  | boundary boundary _ _ => cases boundary

end Install

/-- A template goes on behind a boundary, whose content draws as well. -/
theorem Draws.of_boundary {p content next : Program} (h : p.Draws rules ready depth)
    (hp : p.boundary? = some (content, next)) :
    content.Draws rules false 0 ∧ next.Draws rules rules.again depth := by
  cases h with
  | boundary boundary inside rest =>
    rw [hp] at boundary
    cases boundary
    exact ⟨inside, rest⟩
  | keep aside _ _ =>
    rw [boundary?_of_aside aside] at hp
    cases hp
  | _ => cases hp

end Program

open Hydration Walk

/-- What is left of a template is one. -/
theorem Draft.remains {rules : Rules} {p q : Program} {w w' : Sheet} {ids : List DomId}
    (h : Draft p w ids q w') : ∀ {ready : Bool} {depth : Nat}, p.Draws rules ready depth →
      ∃ ready', q.Draws rules ready' depth := by
  induction h with
  | here => exact fun hp => ⟨_, hp⟩
  | look looks _ ih => exact fun hp => ih (hp.of_look looks _)
  | query _ ih => exact fun hp => ih hp.of_query
  | provide provides _ _ ih => exact fun hp => ih (hp.of_provide provides)
  | enter _ _ _ _ ih ih' =>
    intro ready depth hp
    obtain ⟨_, hinside⟩ := ih hp.of_enter.2
    exact ih' hinside.of_exit
  | within _ _ _ _ ih' =>
    intro ready depth hp
    rcases hp.of_within with ⟨-, hrest⟩ | ⟨-, hrest⟩
    · exact ih' (hrest _)
    · exact ih' (hrest _)
  | aside aside _ _ ih => exact fun hp => ih (hp.of_aside aside _)
  | attr _ _ ih => exact fun hp => ih (hp.of_attr _)
  | text _ _ _ ih => exact fun hp => ih hp.of_text
  | region _ _ _ _ _ ih' => exact fun hp => ih' hp.of_region.2
  | insert _ _ _ _ ih => exact fun hp => ih hp.of_insert
  | boundary boundary _ _ _ _ _ _ ih' => exact fun hp => ih' (hp.of_boundary boundary).2
  | redrawn boundary _ _ _ _ _ _ _ _ _ _ ih'' =>
    exact fun hp => ih'' (hp.of_boundary boundary).2

/-- A program that only looks leaves a walk as it is. -/
theorem Draft.of_quiet {p q : Program} {w w' : Sheet} {ids : List DomId}
    (h : Draft p w ids q w') (hp : p.Quiet) : ids = [] ∧ w' = w ∧ q.Quiet := by
  induction h with
  | here => exact ⟨rfl, rfl, hp⟩
  | look _ _ ih =>
    cases hp with
    | op _ rest => exact ih (rest _)
  | @provide o _ _ _ _ _ _ _ _ provides _ _ _ =>
    cases hp with
    | op looks _ => cases o <;> simp_all [Op.looks, Op.provides?]
  | enter _ _ _ _ _ _ =>
    cases hp with
    | op looks _ => cases looks
  | within _ _ _ ih ih' =>
    cases hp with
    | within _ inside rest =>
      obtain ⟨rfl, rfl, -⟩ := ih inside
      exact ih' (rest _)
  | @boundary p _ _ _ _ _ _ _ _ _ _ _ _ boundary _ _ _ _ _ _ _ =>
    cases hp <;> cases boundary
  | redrawn boundary _ _ _ _ _ _ _ _ _ _ _ => cases hp <;> cases boundary
  | _ => cases hp

namespace Hydration.Walk

variable {w w₁ w₂ : Sheet} {f f' : Frame} {fs : List Frame} {done ahead tail ids : List DomId}

/-- A walk over a level has gone on along it. -/
def Goes (w w' : Sheet) (f : Frame) (fs : List Frame)
    (done ahead tail entered sources ids : List DomId) : Prop :=
  ∃ f' new used rest, ahead = used ++ rest ∧
    w.Sweeps w' f f' fs done new used rest tail entered sources ids

/-- A node that a walk has claimed was supplied. -/
theorem At.supplies_claimed {expected : Expected} {attrs : List (String × String)} {patch : Bool}
    {id : DomId} (h : w.At f fs done ahead tail)
    (hrun : (claimNode expected attrs patch).run w = .ok (id, w₁)) :
    ∃ f' new used rest, ahead = used ++ rest ∧
      w.Supplies w₁ f f' fs done new used rest tail id := by
  obtain ⟨id', w', f', new, used, rest, hrun', hsplit, hsupplies⟩ :=
    (h.claimNode_spec expected attrs patch).supplies
  cases hrun.symm.trans hrun'
  exact ⟨f', new, used, rest, hsplit, hsupplies⟩

/-- A node that a call has provided was supplied. -/
theorem At.supplies_provided {o : Op} {step : WalkM (Json → Program) DomId} {id : DomId}
    (h : w.At f fs done ahead tail) (hstep : o.provides? = some step)
    (hrun : step.run w = .ok (id, w₁)) : ∃ f' new used rest, ahead = used ++ rest ∧
      w.Supplies w₁ f f' fs done new used rest tail id := by
  cases o with
  | claim expected attrs name =>
    cases hstep
    exact h.supplies_claimed hrun
  | staticText content name =>
    cases hstep
    exact h.supplies_claimed hrun
  | append fragment name =>
    cases hstep
    obtain ⟨id', w', f', new, used, rest, hrun', hsplit, hsupplies⟩ := h.append_spec fragment
    cases hrun.symm.trans hrun'
    exact ⟨f', new, used, rest, hsplit, hsupplies⟩
  | _ => cases hstep

/-- What is drawn on the level of a node by itself is drawn below that node. -/
theorem At.goes_inside {id : DomId} {mode : Mode} {u u' w' : Sheet} {gs : List Frame}
    {sources : List DomId} (h : w.At f fs done ahead tail) (hid : id ∈ done)
    (hinside : ∀ {done' ahead' : List DomId},
      u.At (Frame.open w.document id mode) gs done' ahead' [] →
        u.Goes u' (Frame.open w.document id mode) gs done' ahead' [] [] [] ids)
    (hframes : u.cursor.frames = Frame.open w.document id mode :: gs)
    (hstart : u.document = w.document ∧ u.report.claimed = w.report.claimed)
    (hend : ∀ {g : Frame} {done' ahead' : List DomId}, u'.At g gs done' ahead' [] →
      w'.document = u'.document ∧ w'.report.claimed = u'.report.claimed ∧
        w'.cursor.frames = f :: fs)
    (hhydrate : mode = .hydrate → sources = w.document.children id)
    (hsources : ∀ b ∈ sources, b ∈ w.document.children id) :
    w.Sweeps w' f f fs done [] [] ahead tail [id] sources ids := by
  have hlt : id.index < w.document.nodes.size := by
    refine h.treelike.holds f.parent id ?_
    rw [h.children]
    exact List.mem_append_left _ hid
  rw [← hstart.1] at hframes hlt hinside
  obtain ⟨done', ahead', hat, hnone⟩ := at_level hframes (hstart.1 ▸ h.treelike) hlt
  obtain ⟨f', new, used, rest, rfl, hsweeps⟩ := hinside hat
  obtain ⟨hdocument, hcount, hback⟩ := hend hsweeps.there
  refine .inside h hid hsweeps rfl hstart ⟨hdocument, hcount⟩ hback (fun a ha => ?_) hsources
  cases mode with
  | hydrate =>
    rw [hhydrate rfl, ← hstart.1]
    exact hsweeps.mem_level a (by simpa using ha)
  | create =>
    rw [(List.append_eq_nil_iff.1 (hnone rfl)).1] at ha
    cases ha

/-- What a template draws in a node that it has entered. -/
theorem At.goes_enter {w₃ : Sheet} (h : w.At f fs done ahead tail)
    (hready : ∀ a ∈ w.entered true, a ∈ done) (henter : enterChildren.run w = .ok ((), w₁))
    (hinside : ∀ {g : Frame} {done' ahead' : List DomId}, w₁.At g (f :: fs) done' ahead' [] →
      w₁.Goes w₂ g (f :: fs) done' ahead' [] [] [] ids)
    (hexit : exitChildren.run w₂ = .ok ((), w₃)) :
    w.Sweeps w₃ f f fs done [] [] ahead tail (w.entered true) (w.sources true) ids := by
  cases hlast : w.cursor.last with
  | none =>
    rw [enterChildren, bind_ok (x := get) (b := w) rfl, hlast] at henter
    cases henter
  | some last =>
    obtain ⟨id, created⟩ := last
    rw [enterChildren_run h.frames hlast] at henter
    cases henter
    have hentered : w.entered true = [id] := by simp [entered, hlast]
    rw [hentered]
    refine h.goes_inside (hready id (by simp [hentered])) hinside rfl ⟨rfl, rfl⟩
      (fun hat => ?_) (fun hmode => ?_) fun b hb => ?_
    · rw [exitChildren_run hat.frames] at hexit
      cases hexit
      exact ⟨hat.settleFrame_spec.1, settleFrame_claimed _ _, rfl⟩
    · cases created with
      | true => cases hmode
      | false => rw [sources, hlast]
    · obtain ⟨a, ha, hba⟩ := sources_below b hb
      rw [hentered] at ha
      exact List.mem_singleton.1 ha ▸ hba

/-- What a template draws in a wrapper that was provided. -/
theorem At.goes_wrapper {id : DomId} {mode : Mode} {created : Bool}
    (h : w.At f fs done ahead tail) (hid : id ∈ done) (hlast : w.cursor.last = some (id, created))
    (hmode : childMode.run w = .ok (mode, w))
    (hinside : ∀ {g : Frame} {done' ahead' : List DomId},
      (w.onLevel (.open w.document id mode)).At g [] done' ahead' [] →
        (w.onLevel (.open w.document id mode)).Goes w₁ g [] done' ahead' [] [] [] ids) :
    w.Sweeps (w₁.finish.back w.cursor) f f fs done [] [] ahead tail (w.entered true)
      (w.sources true) ids := by
  have hentered : w.entered true = [id] := by simp [entered, hlast]
  rw [hentered]
  refine h.goes_inside hid hinside rfl ⟨rfl, rfl⟩ (fun hat => ?_) (fun hhydrate => ?_)
    fun b hb => ?_
  · exact ⟨hat.finished.1, hat.finished.2, h.frames⟩
  · rw [childMode, bind_ok (x := get) (b := w) rfl, hlast] at hmode
    cases created with
    | true =>
      cases hmode
      cases hhydrate
    | false => rw [sources, hlast]
  · obtain ⟨a, ha, hba⟩ := sources_below b hb
    rw [hentered] at ha
    exact List.mem_singleton.1 ha ▸ hba

/-- What is put inside of a wrapper that was provided. -/
theorem At.goes_fill {id : DomId} (h : w.At f fs done ahead tail) (hid : id ∈ done)
    (hempty : (emptyWrapper id).run w = .ok ((), w₁)) (fragments : List Fragment) :
    w.Sweeps ((w₁.modifyDocument fun d =>
      (d.clear id).plantUnder id (Fragment.trees fragments)).modifyReport
        (·.addCreated (Fragment.sizes fragments))) f f fs done [] [] ahead tail [id] [] [] := by
  have hlt : id.index < w.document.nodes.size := by
    refine h.treelike.holds f.parent id ?_
    rw [h.children]
    exact List.mem_append_left _ hid
  -- The wrapper is emptied once or twice.
  have hcleared : w.document.Redrawn w₁.document id [] ∧ w₁.cursor.frames = f :: fs ∧
      w₁.report.claimed = w.report.claimed := by
    obtain ⟨mode, hmode⟩ : ∃ mode, childMode.run w = .ok (mode, w) := by
      rw [childMode, bind_ok (x := get) (b := w) rfl]
      split
      · exact ⟨_, rfl⟩
      · exact ⟨_, mode_run h.frames⟩
    rw [emptyWrapper, bind_ok hmode] at hempty
    cases mode with
    | create =>
      cases hempty
      exact ⟨.refl h.treelike _ _, h.frames, rfl⟩
    | hydrate =>
      cases hempty
      exact ⟨(h.treelike.clear id).1, h.frames, rfl⟩
  obtain ⟨hfirst, hframes, hcount⟩ := hcleared
  have hsecond := (hfirst.treelike.clear id).1
  have hlt' : id.index < (w₁.document.clear id).nodes.size :=
    Nat.lt_of_lt_of_le hlt (Nat.le_trans hfirst.size hsecond.size)
  have hfill := (Document.plantUnder_grafted hsecond.treelike hlt'
    (Fragment.trees fragments)).redrawn
  have hall := (hfirst.trans h.treelike hsecond).trans h.treelike hfill
  exact .nested h hid hall.toRegrown (by simp) (fun j hj => marker_iff_of_bare (hall.bare j hj))
    hframes .nil (by simp) (by simp) hcount

end Hydration.Walk

/-- From where it stands on a level, a template goes on along the level, and below the node that was
provided last, to where another walk stands, unless the content of a boundary is drawn anew. -/
def Program.Sweeps (rules : Rules) (p : Program) (w w' : Sheet) (ids : List DomId) : Prop :=
  ∀ {ready : Bool} {depth : Nat} {f : Frame} {fs : List Frame} {done ahead tail : List DomId},
    p.Draws rules ready depth → w.At f fs done ahead tail → (∀ a ∈ w.entered ready, a ∈ done) →
      w'.report.fallbacks = w.report.fallbacks →
        w.Goes w' f fs done ahead tail (w.entered ready) (w.sources ready) ids

namespace Program.Sweeps

variable {rules : Rules} {w w₁ w₂ w₃ w' : Sheet} {ids ids' : List DomId}
  {next next' : Option Json → Program} {q : Program}

/-- A node is provided first. -/
theorem provide {o : Op} {step : WalkM (Json → Program) DomId} {id : DomId}
    (provides : o.provides? = some step) (run : step.run w = .ok (id, w₁))
    (rest : Draft (next none) w₁ ids q w') (ih : (next none).Sweeps rules w₁ w' ids) :
    (op o next).Sweeps rules w w' (w.claims [id] ++ ids) := by
  intro ready depth f fs done ahead tail hp hat hready hsame
  have hstep := ((treads_provides provides).accounts run).fallbacks
  have hrest := rest.accounts.fallbacks
  obtain ⟨f', new, used, rest, rfl, hsupplies⟩ := hat.supplies_provided provides run
  obtain ⟨f'', more, taken, rest, rfl, hsweeps⟩ :=
    ih (hp.of_provide provides) hsupplies.sweeps.there hsupplies.ready (by omega)
  exact ⟨f'', _, _, rest, (List.append_assoc _ _ _).symm,
    (hsupplies.onward hsweeps).entering hready⟩

/-- A node is entered and left first. -/
theorem enter (hagain : rules.again = false) (enter : enterChildren.run w = .ok ((), w₁))
    (inside : Draft (next none) w₁ ids (.op .exit next') w₂)
    (exit : exitChildren.run w₂ = .ok ((), w₃)) (rest : Draft (next' none) w₃ ids' q w')
    (ih : (next none).Sweeps rules w₁ w₂ ids) (ih' : (next' none).Sweeps rules w₃ w' ids') :
    (op .enter next).Sweeps rules w w' (ids ++ ids') := by
  intro ready depth f fs done ahead tail hp hat hready hsame
  obtain ⟨rfl, hbody⟩ := hp.of_enter
  obtain ⟨_, hremains⟩ := inside.remains hbody
  have henter := (treads_enterChildren.accounts enter).fallbacks
  have hinside := inside.accounts.fallbacks
  have hexit := (treads_exitChildren.accounts exit).fallbacks
  have hrest := rest.accounts.fallbacks
  have hbelow := hat.goes_enter hready enter
    (fun h => ih hbody h (by simp [entered]) (by omega)) exit
  have hbehind := hremains.of_exit
  rw [hagain] at hbehind
  obtain ⟨f', new, used, rest, rfl, hsweeps⟩ :=
    ih' hbehind hbelow.there (by simp [entered]) (by omega)
  exact ⟨f', _, _, rest, rfl, hbelow.onward hsweeps⟩

/-- A part goes first. -/
theorem within (hagain : rules.again = false) {e : Enclosure} {body : Program}
    {next : Outcome → Option Json → Program} {v : Json}
    (inside : Draft body w ids (.stop (.value v)) w₁)
    (rest : Draft (next (.value v) none) w₁ ids' q w') (ih : body.Sweeps rules w w₁ ids)
    (ih' : (next (.value v) none).Sweeps rules w₁ w' ids') :
    (Program.within e body next).Sweeps rules w w' (ids ++ ids') := by
  intro ready depth f fs done ahead tail hp hat hready hsame
  have hinside := inside.accounts.fallbacks
  have hrest := rest.accounts.fallbacks
  rcases hp.of_within with ⟨hquiet, hnext⟩ | ⟨hbody, hnext⟩
  · obtain ⟨rfl, rfl, -⟩ := inside.of_quiet hquiet
    exact ih' (hnext _) hat hready hsame
  · obtain ⟨f', new, used, rest, rfl, hpart⟩ := ih hbody hat (by simp [entered]) (by omega)
    rw [hagain, Bool.and_false] at hnext
    obtain ⟨f'', more, taken, rest, rfl, hsweeps⟩ :=
      ih' (hnext _) hpart.there (by simp [entered]) (by omega)
    exact ⟨f'', _, _, rest, (List.append_assoc _ _ _).symm,
      (hpart.onward hsweeps).entering hready⟩

/-- First the document changes, but no node comes or goes. -/
theorem dressed {p p' : Program} {document : Document (Json → Program)}
    (hdressed : w.document.Dressed document)
    (hremains : ∀ {ready : Bool} {depth : Nat}, p.Draws rules ready depth →
      p'.Draws rules ready depth) (ih : p'.Sweeps rules { w with document } w' ids) :
    p.Sweeps rules w w' ids := by
  intro ready depth f fs done ahead tail hp hat hready hsame
  obtain ⟨f', new, used, rest, rfl, hsweeps⟩ :=
    ih (hremains hp) (hat.dressed hdressed rfl) hready hsame
  exact ⟨f', _, _, rest, rfl, .after_dressed hat hsweeps hdressed rfl rfl⟩

/-- A text is provided and written first. -/
theorem text {name : Option String} {body : Json → Program} {v : Json} {id : DomId}
    (run : (claimNode (.text "") [] false).run w = .ok (id, w₁))
    (rest : Draft (next none) (w₁.modifyDocument (·.setText id v.display)) ids q w')
    (ih : (next none).Sweeps rules (w₁.modifyDocument (·.setText id v.display)) w' ids) :
    (install (.dynText name) body next).Sweeps rules w w' (w.claims [id] ++ ids) := by
  intro ready depth f fs done ahead tail hp hat hready hsame
  have hstep := ((treads_claimNode _ _ _).accounts run).fallbacks
  have hrest : w₁.report.fallbacks ≤ _ := rest.accounts.fallbacks
  obtain ⟨f', new, used, rest, rfl, hsupplies⟩ := hat.supplies_claimed run
  have hdressed := Document.Dressed.setText w₁.document id v.display
  obtain ⟨f'', more, taken, rest, rfl, hsweeps⟩ :=
    ih hp.of_text (hsupplies.sweeps.there.dressed hdressed rfl) hsupplies.ready
      (show _ = w₁.report.fallbacks by omega)
  exact ⟨f'', _, _, rest, (List.append_assoc _ _ _).symm, (hsupplies.onward
    (.after_dressed hsupplies.sweeps.there hsweeps hdressed rfl rfl)).entering hready⟩

/-- A wrapper is provided first, and a template draws inside. -/
theorem region (hagain : rules.again = false) {name : Option String} {body : Json → Program}
    {mode : Mode} {v : Json} {id : DomId}
    (run : (claimNode (.wrapper .region) [] false).run w = .ok (id, w₁))
    (mode_run : childMode.run w₁ = .ok (mode, w₁))
    (inside : Draft (body .null) (w₁.onLevel (.open w₁.document id mode)) ids
      (.stop (.value v)) w₂) (rest : Draft (next none) (w₂.finish.back w₁.cursor) ids' q w')
    (ih : (body .null).Sweeps rules (w₁.onLevel (.open w₁.document id mode)) w₂ ids)
    (ih' : (next none).Sweeps rules (w₂.finish.back w₁.cursor) w' ids') :
    (install (.region name) body next).Sweeps rules w w' (w.claims [id] ++ (ids ++ ids')) := by
  intro ready depth f fs done ahead tail hp hat hready hsame
  obtain ⟨hbody, hnext⟩ := hp.of_region
  rw [hagain] at hnext
  have hstep := ((treads_claimNode _ _ _).accounts run).fallbacks
  have hinside : w₁.report.fallbacks ≤ w₂.report.fallbacks := inside.accounts.fallbacks
  have hfinish := (steps_finish w₂).accounts.fallbacks
  have hrest : w₂.finish.report.fallbacks ≤ w'.report.fallbacks := rest.accounts.fallbacks
  obtain ⟨f', new, used, rest, rfl, hsupplies⟩ := hat.supplies_claimed run
  obtain ⟨created, hlast⟩ := hsupplies.last
  have hbelow := hsupplies.sweeps.there.goes_wrapper (List.mem_append_right _ hsupplies.mem) hlast
    mode_run fun h => ih hbody h (by simp [entered]) (show _ = w₁.report.fallbacks by omega)
  obtain ⟨f'', more, taken, rest, rfl, hsweeps⟩ := ih' hnext hbelow.there (by simp [entered])
    (show _ = w₂.finish.report.fallbacks by omega)
  exact ⟨f'', _, _, rest, (List.append_assoc _ _ _).symm,
    (hsupplies.onward (hbelow.onward hsweeps)).entering hready⟩

/-- A wrapper is provided and filled first. -/
theorem insert (hagain : rules.again = false) {name : Option String} {body : Json → Program}
    {v : Json} {id : DomId} (run : (claimNode (.wrapper .insert) [] false).run w = .ok (id, w₁))
    (empty : (emptyWrapper id).run w₁ = .ok ((), w₂))
    (rest : Draft (next none) ((w₂.modifyDocument fun d =>
        (d.clear id).plantUnder id (Fragment.trees (v.items.map Fragment.ofJson))).modifyReport
      (·.addCreated (Fragment.sizes (v.items.map Fragment.ofJson)))) ids q w')
    (ih : (next none).Sweeps rules ((w₂.modifyDocument fun d =>
        (d.clear id).plantUnder id (Fragment.trees (v.items.map Fragment.ofJson))).modifyReport
      (·.addCreated (Fragment.sizes (v.items.map Fragment.ofJson)))) w' ids) :
    (install (.insert name) body next).Sweeps rules w w' (w.claims [id] ++ ids) := by
  intro ready depth f fs done ahead tail hp hat hready hsame
  have hnext := hp.of_insert
  rw [hagain] at hnext
  have hstep := ((treads_claimNode _ _ _).accounts run).fallbacks
  have hempty := ((treads_emptyWrapper _).accounts empty).fallbacks
  have hrest : w₂.report.fallbacks ≤ w'.report.fallbacks := rest.accounts.fallbacks
  obtain ⟨f', new, used, rest, rfl, hsupplies⟩ := hat.supplies_claimed run
  have hfill := hsupplies.sweeps.there.goes_fill (List.mem_append_right _ hsupplies.mem) empty
    (v.items.map Fragment.ofJson)
  obtain ⟨f'', more, taken, rest, rfl, hsweeps⟩ := ih hnext hfill.there (by simp [entered])
    (show _ = w₂.report.fallbacks by omega)
  exact ⟨f'', _, _, rest, (List.append_assoc _ _ _).symm,
    (hsupplies.trans (hfill.onward hsweeps) (by simp) (by simp)).entering hready⟩

/-- The ends of a boundary are provided first, and its content draws between them. -/
theorem boundary (hagain : rules.again = false) {p content next : Program} {m : Markers}
    {g : Frame} {v : Json} (boundary : p.boundary? = some (content, next))
    (run : claimMarkers.run w = .ok (m, w₁)) (frame : frame.run w₁ = .ok (g, w₁))
    (inside : Draft content (w₁.amid g.parent m) ids (.stop (.value v)) w₂)
    (rest : Draft next (w₂.finish.behind w₁ m) ids' q w')
    (ih : content.Sweeps rules (w₁.amid g.parent m) w₂ ids)
    (ih' : next.Sweeps rules (w₂.finish.behind w₁ m) w' ids') :
    p.Sweeps rules w w' (w.claims [m.opening, m.closing] ++ (ids ++ ids')) := by
  intro ready depth f fs done ahead tail hp hat hready hsame
  obtain ⟨hbody, hnext⟩ := hp.of_boundary boundary
  rw [hagain] at hnext
  have hstep := (treads_claimMarkers.accounts run).fallbacks
  have hinside : w₁.report.fallbacks ≤ w₂.report.fallbacks := inside.accounts.fallbacks
  have hfinish := (steps_finish w₂).accounts.fallbacks
  have hrest : w₂.finish.report.fallbacks ≤ w'.report.fallbacks := rest.accounts.fallbacks
  obtain ⟨m', w'', f', skipped, between, used, rest, hrun, rfl, hends⟩ := hat.claimMarkers_spec
  cases run.symm.trans hrun
  cases frame.symm.trans (frame_run hends.advances.there.frames)
  obtain ⟨f'', more, taken, left, hsplit, hamid⟩ := ih hbody hends.at_amid (by simp [entered])
    (show _ = w₁.report.fallbacks by omega)
  have hbehind := hends.sweeps hamid hsplit rfl ⟨rfl, rfl⟩
    (show (w₂.finish.behind w₁ m).document = w₂.document ∧
      (w₂.finish.behind w₁ m).report.claimed = w₂.report.claimed from hamid.there.finished)
    hends.advances.there.frames
  obtain ⟨f'', more, taken, rest, rfl, hsweeps⟩ := ih' hnext hbehind.there (by simp [entered])
    (show _ = w₂.finish.report.fallbacks by omega)
  have hall := (hbehind.onward hsweeps).entering hready
  rw [List.append_assoc (Walk.claims _ _)] at hall
  exact ⟨f'', _, _, rest, (List.append_assoc _ _ _).symm, hall⟩

/-- Where the content of a boundary is drawn anew, the account tells. -/
theorem redrawn {p content next : Program} {m : Markers} {g : Frame} {v u : Json}
    {d : Document (Json → Program)} {ids ids' ids'' : List DomId}
    (run : claimMarkers.run w = .ok (m, w₁))
    (inside : Draft content (w₁.amid g.parent m) ids (.stop (.value v)) w₂)
    (again : Draft content (w₂.finish.anew d g.parent m) ids' (.stop (.value u)) w₃)
    (rest : Draft next (w₃.finish.behind w₁ m) ids'' q w') {ids : List DomId} :
    p.Sweeps rules w w' ids := by
  intro ready depth f fs done ahead tail hp hat hready hsame
  have hstep := (treads_claimMarkers.accounts run).fallbacks
  have hinside : w₁.report.fallbacks ≤ w₂.report.fallbacks := inside.accounts.fallbacks
  have hfinish := (steps_finish w₂).accounts.fallbacks
  have hagain : w₂.finish.report.fallbacks + 1 ≤ w₃.report.fallbacks := again.accounts.fallbacks
  have hfinish' := (steps_finish w₃).accounts.fallbacks
  have hrest : w₃.finish.report.fallbacks ≤ w'.report.fallbacks := rest.accounts.fallbacks
  omega

end Program.Sweeps

/-- A template that enters no node but the one that was provided last goes on along the level where
it stands, and below that node, unless the content of a boundary is drawn anew. -/
theorem Draft.sweeps {rules : Rules} (hagain : rules.again = false) {p q : Program} {w w' : Sheet}
    {ids : List DomId} (h : Draft p w ids q w') : p.Sweeps rules w w' ids := by
  induction h with
  | here =>
    intro ready depth f fs done ahead tail hp hat hready _
    exact ⟨f, [], [], ahead, rfl, (Walk.Sweeps.refl hat).entering hready⟩
  | look looks _ ih => exact fun hp => ih (hp.of_look looks _)
  | query _ ih => exact fun hp => ih hp.of_query
  | provide provides run rest ih => exact Program.Sweeps.provide provides run rest ih
  | enter enter inside exit rest ih ih' =>
    exact Program.Sweeps.enter hagain enter inside exit rest ih ih'
  | within _ inside rest ih ih' => exact Program.Sweeps.within hagain inside rest ih ih'
  | aside aside same _ ih =>
    exact Program.Sweeps.dressed same.dressed (fun hp => hp.of_aside aside _) ih
  | attr dressed _ ih => exact Program.Sweeps.dressed dressed (fun hp => hp.of_attr _) ih
  | text run _ rest ih => exact Program.Sweeps.text run rest ih
  | region run mode_run inside rest ih ih' =>
    exact Program.Sweeps.region hagain run mode_run inside rest ih ih'
  | insert run empty _ rest ih => exact Program.Sweeps.insert hagain run empty rest ih
  | boundary boundary run frame inside _ rest ih ih' =>
    exact Program.Sweeps.boundary hagain boundary run frame inside rest ih ih'
  | redrawn _ run _ _ inside _ _ again rest _ _ _ =>
    exact Program.Sweeps.redrawn run inside again rest

end Rivulet
