import Rivulet.Proofs.Drafting.Templates

/-!
# Counting the nodes that a walk creates

A walk does only few things to its document, and each of them is noted in its account. So whatever
the document looks like, as many nodes are counted as created as have come into the arena, by each
step of a walk and by a whole draft. A boundary that is drawn anew is counted as well, and no step
takes that back.
-/

namespace Rivulet

namespace Document

variable {α : Type}

/-- Moving a node adds none to the arena. -/
theorem size_insertBefore_any (d : Document α) (parent child : DomId) (anchor : Option DomId) :
    (d.insertBefore parent child anchor).nodes.size = d.nodes.size := by
  simp [insertBefore, size_detach]

/-- Removing nodes leaves them in the arena. -/
theorem size_removeAll (d : Document α) (ids : List DomId) :
    (d.removeAll ids).nodes.size = d.nodes.size := by
  rw [removeAll]
  induction ids generalizing d with
  | nil => rfl
  | cons id ids ih => rw [List.foldl_cons, ih, size_remove]

mutual

/-- A tree is built of as many nodes as it has. -/
theorem size_plant (d : Document α) (t : Markup.Tree) :
    (d.plant t).2.nodes.size = d.nodes.size + t.size := by
  obtain ⟨kind, children⟩ := t
  rw [plant, Markup.Tree.size]
  refine (size_plantUnder (d.create kind).2 (d.create kind).1 children).trans ?_
  rw [size_create]
  omega

/-- Planting trees adds as many nodes as they have. -/
theorem size_plantUnder (d : Document α) (parent : DomId) (ts : List Markup.Tree) :
    (d.plantUnder parent ts).nodes.size = d.nodes.size + Markup.Tree.sizes ts := by
  cases ts with
  | nil => rw [plantUnder, Markup.Tree.sizes, Nat.add_zero]
  | cons t ts =>
    have happend : ((d.plant t).2.append parent (d.plant t).1).nodes.size =
        d.nodes.size + t.size := (size_insertBefore_any _ _ _ _).trans (size_plant d t)
    rw [plantUnder, Markup.Tree.sizes, ← Nat.add_assoc, ← happend]
    exact size_plantUnder ((d.plant t).2.append parent (d.plant t).1) parent ts

end

end Document

/-- A fragment is built of some node. -/
theorem Fragment.size_pos (f : Fragment) : 0 < f.size := by
  cases f with
  | text content => exact Nat.one_pos
  | element tag attrs children =>
    rw [size]
    omega

namespace Hydration.Walk

variable {α β γ : Type} {w w' w'' : Walk α}

/-- What a walk does at once. What it builds and throws away is counted. -/
inductive Step : Walk α → Walk α → Prop
  /-- The cursor moves. -/
  | move {w : Walk α} (cursor : Cursor) : Step w { w with cursor }
  /-- Nodes are passed over. -/
  | pass {w : Walk α} (n : Nat) : Step w (w.modifyReport (·.addSkipped n))
  /-- Nodes that are there are brought into line. -/
  | dress {w : Walk α} {d : Document α} (h : w.document.Dressed d) : Step w { w with document := d }
  /-- Nodes that are there are used. -/
  | claim {w : Walk α} (n : Nat) : Step w (w.modifyReport (·.addClaimed n))
  /-- Nodes are created. -/
  | create {w : Walk α} {n : Nat} {d : Document α} (hn : 0 < n)
      (h : d.nodes.size = w.document.nodes.size + n) :
      Step w ({ w with document := d }.modifyReport (·.addCreated n))
  /-- Nodes are thrown away. -/
  | discard {w : Walk α} {n : Nat} {d : Document α} (hn : 0 < n)
      (h : d.nodes.size = w.document.nodes.size) :
      Step w ({ w with document := d }.modifyReport (·.addDiscarded n))
  /-- A disagreement is noted, after which the walk may be unresolved. -/
  | note {w : Walk α} (expected : String) (found : Option String) (resolution : Resolution)
      {unresolved : Bool} (h : w.unresolved = true → unresolved = true) :
      Step w ({ w with unresolved }.modifyReport (·.record expected found resolution))

/-- Whatever a walk does, one thing after the other. -/
abbrev Steps : Walk α → Walk α → Prop := Relation.ReflTransGen Step

/-- A run of a walk that only takes steps. -/
def Treads (x : WalkM α β) (w : Walk α) : Prop :=
  ∀ b w', x.run w = .ok (b, w') → w.Steps w'

namespace Treads

variable {x : WalkM α β}

/-- A result is given without a step. -/
theorem ret (b : β) : Treads (pure b : WalkM α β) w := fun _ _ h => by
  cases h
  exact .refl

/-- A misuse ends a run without a step. -/
theorem raise (m : Misuse) : Treads (throw m : WalkM α β) w := fun _ _ h => by cases h

/-- Two runs one after the other. -/
theorem bind {f : β → WalkM α γ} (h : Treads x w)
    (hf : ∀ b w', x.run w = .ok (b, w') → Treads (f b) w') : Treads (x >>= f) w := by
  intro c w'' hrun
  cases hx : x.run w with
  | error e =>
    rw [StateT.run_bind, hx] at hrun
    cases hrun
  | ok r =>
    obtain ⟨b, w'⟩ := r
    rw [bind_ok hx] at hrun
    exact (h b w' hx).trans (hf b w' hx c w'' hrun)

/-- What looks first. -/
theorem look {f : Walk α → WalkM α β} (h : Treads (f w) w) : Treads (get >>= f) w := h

/-- Steps that are taken at once. -/
theorem step {f : Walk α → Walk α} (h : w.Steps (f w)) :
    Treads (modify f : WalkM α Unit) w := fun _ _ hrun => by
  cases hrun
  exact h

/-- A change before something else. -/
theorem change {f : Walk α → Walk α} {y : Unit → WalkM α γ} (h : w.Steps (f w))
    (hy : Treads (y ()) (f w)) : Treads (modify f >>= y) w :=
  (step h).bind fun _ _ hrun => by
    cases hrun
    exact hy

/-- Another walk before something else. -/
theorem put {y : Unit → WalkM α γ} (h : w.Steps w') (hy : Treads (y ()) w') :
    Treads (set w' >>= y) w :=
  change (f := fun _ => w') h hy

/-- A step in one of two cases. -/
theorem ite {c : Prop} [Decidable c] {y : WalkM α β} (h : Treads x w) (h' : Treads y w) :
    Treads (if c then x else y) w := by
  split
  · exact h
  · exact h'

end Treads

/-- Moving the cursor. -/
theorem steps_move (w : Walk α) (cursor : Cursor) : w.Steps { w with cursor } := .single (.move _)

/-- Changing the current level. -/
theorem steps_modifyFrame (w : Walk α) (f : Frame → Frame) : w.Steps (w.modifyFrame f) := by
  rw [modifyFrame]
  split
  · exact .refl
  · exact steps_move w _

/-- Going past a node only moves the cursor. -/
theorem advancePast_eq (w : Walk α) (id : DomId) :
    w.advancePast id = { w with cursor := (w.advancePast id).cursor } := by
  rw [advancePast, modifyFrame]
  split <;> rfl

/-- Going past a node. -/
theorem steps_advancePast (w : Walk α) (id : DomId) : w.Steps (w.advancePast id) :=
  steps_modifyFrame w _

/-- Noting the node that was provided last. -/
theorem steps_setLast (w : Walk α) (id : DomId) (created : Bool) :
    w.Steps (w.setLast id created) := steps_move w _

/-- A node is thrown away because another one was asked for. -/
theorem steps_removed (w : Walk α) (id : DomId) (cursor : Cursor) {unresolved : Bool}
    (h : w.unresolved = true → unresolved = true) (expected : String) (found : Option String)
    (resolution : Resolution) :
    w.Steps ({ w with document := w.document.remove id, cursor, unresolved }.modifyReport fun r =>
      (r.addDiscarded 1).record expected found resolution) :=
  .head (.discard Nat.one_pos (Document.size_remove w.document id))
    (.head (.move cursor) (.single (.note expected found resolution h)))

private theorem steps_discard (expected : Expected) (w : Walk α) (id : DomId) :
    w.Steps (discard expected w id) := by
  rw [discard]
  split
  · exact steps_removed w id w.cursor (fun h => h) _ _ _
  · exact .single (.pass 1)

private theorem steps_discardUpTo (w : Walk α) (first matched : DomId) (expected : Expected) :
    w.Steps (w.discardUpTo first matched expected) := by
  rw [discardUpTo]
  generalize (w.document.fromSibling first).takeWhile (· ≠ matched) = ids
  induction ids generalizing w with
  | nil => exact .refl
  | cons id ids ih => exact (steps_discard expected w id).trans (ih _)

/-- Nodes that nobody asked for are noted one by one, after the first of which the walk is
unresolved. -/
theorem steps_leftovers (w : Walk α) (found : DomId → Option String) (ids : List DomId) :
    w.Steps ((if ids.isEmpty then w else w.escalate).modifyReport fun r =>
      ids.foldl (fun r id => r.record "end of children" (found id) .escalated) r) := by
  have hrest (ids : List DomId) (w : Walk α) : w.Steps (w.modifyReport fun r =>
      ids.foldl (fun r id => r.record "end of children" (found id) .escalated) r) := by
    induction ids generalizing w with
    | nil => exact .refl
    | cons id ids ih => exact .head (.note _ (found id) _ fun h => h) (ih _)
  cases ids with
  | nil => exact .refl
  | cons id ids => exact .head (.note _ (found id) _ fun _ => rfl) (hrest ids _)

/-- Settling a level. -/
theorem steps_settleFrame (w : Walk α) (f : Frame) : w.Steps (w.settleFrame f) := by
  rw [settleFrame]
  split
  · exact .refl
  · extract_lets rest leftover u
    refine .head (.pass (rest.length - leftover.length)) ?_
    have hnoted := steps_leftovers (w.modifyReport (·.addSkipped (rest.length - leftover.length)))
      (fun id => some (w.document.kind id).describe) leftover
    unfold u
    cases hempty : leftover.isEmpty <;>
    · rw [hempty] at hnoted
      exact hnoted

/-- Closing a level. -/
theorem steps_closeFrame (w : Walk α) : w.Steps w.closeFrame := by
  rw [closeFrame]
  split
  · exact .refl
  · exact (steps_settleFrame w _).trans (steps_move _ _)

/-- Finishing a walk. -/
theorem steps_finish (w : Walk α) : w.Steps w.finish := by
  rw [finish]
  generalize w.cursor.frames.length = n
  induction n generalizing w with
  | zero => exact .refl
  | succ n ih => exact (steps_closeFrame w).trans (ih _)

/-- Finding the current level. -/
theorem treads_frame : Treads (frame : WalkM α Frame) w := by
  refine .look ?_
  split
  · exact .ret _
  · exact .raise _

/-- Finding out whether nodes are claimed or created. -/
theorem treads_mode : Treads (mode : WalkM α Mode) w := treads_frame.bind fun _ _ _ => .ret _

/-- Looking for the next node that could be claimed. -/
theorem treads_candidate (wantsText : Bool) : Treads (candidate wantsText : WalkM α _) w := by
  refine .look ?_
  split
  · exact .ret _
  · exact .put ((steps_modifyFrame w _).tail (.pass _)) (.ret _)

/-- Creating a node at the current place. -/
theorem treads_createHere (expected : Expected) (attrs : List (String × String)) :
    Treads (createHere expected attrs : WalkM α _) w := by
  refine treads_frame.bind fun f w' _ => .look (.put ?_ (.ret _))
  refine (Relation.ReflTransGen.single (.create Nat.one_pos ?_)).trans (steps_setLast _ _ _)
  show ((w'.document.create _).2.insertBefore _ _ _).nodes.size = _
  rw [Document.size_insertBefore_any, Document.size_create]

private theorem treads_adopt (id : DomId) (expected : Expected) (attrs : List (String × String))
    (patch : Bool) : Treads (adopt id expected attrs patch : WalkM α _) w := by
  refine .change ?_ (.ret _)
  refine ((Relation.ReflTransGen.single (.dress ?_)).trans (steps_advancePast _ id)).trans
    ((Relation.ReflTransGen.single (.claim 1)).trans (steps_setLast _ _ _))
  split
  · exact (Document.Dressed.setAttrs _ _ _).trans (.setText _ _ _)
  · exact .setAttrs _ _ _

private theorem treads_replace (found : DomId) (expected : Expected)
    (attrs : List (String × String)) :
    Treads (replace found expected attrs : WalkM α _) w := by
  refine .look ((treads_createHere expected attrs).bind fun id w' _ => .change ?_ (.ret _))
  rw [advancePast_eq]
  split
  · exact steps_removed w' found _ (fun _ => rfl) _ _ _
  · exact steps_removed w' found _ (fun h => h) _ _ _

/-- Claiming a node, or creating it. -/
theorem treads_claimNode (expected : Expected) (attrs : List (String × String)) (patch : Bool) :
    Treads (claimNode expected attrs patch : WalkM α _) w := by
  refine treads_mode.bind fun mode _ _ => ?_
  cases mode with
  | create => exact treads_createHere expected attrs
  | hydrate =>
    refine (treads_candidate _).bind fun found _ _ => ?_
    cases found with
    | none =>
      exact (treads_createHere expected attrs).bind fun _ _ _ =>
        .change (.single (.note _ _ _ fun h => h)) (.ret _)
    | some found =>
      refine .look (.ite (treads_adopt _ _ _ _) (.look (treads_frame.bind fun f w' _ => ?_)))
      split
      · exact .change (steps_discardUpTo _ _ _ _) (treads_adopt _ _ _ _)
      · exact treads_replace _ _ _

/-- Appending a fragment. -/
theorem treads_append (fragment : Fragment) : Treads (append fragment : WalkM α _) w := by
  refine treads_mode.bind fun mode _ _ => ?_
  extract_lets put
  have hput (found : Option DomId) (w : Walk α) : Treads (put found) w := by
    refine .look ?_
    extract_lets fits
    cases found.filter fun id => (expectedOf fragment).accepts (fits id) with
    | some id =>
      exact .change (((steps_advancePast w id).tail (.claim 1)).trans (steps_setLast _ _ _))
        (.ret _)
    | none =>
      refine treads_frame.bind fun f w' _ => .look (.put ?_ ?_)
      · refine .head (.create fragment.size_pos ?_) (steps_setLast _ _ _)
        show ((w'.document.plant fragment.tree).2.insertBefore _ _ _).nodes.size = _
        rw [Document.size_insertBefore_any, Document.size_plant, Fragment.size_tree]
      · split
        · exact .ret _
        · generalize setLast _ _ _ = u
          refine .change ?_ (.ret _)
          rw [advancePast_eq]
          exact steps_removed u _ _ (fun h => h) _ _ _
  cases mode with
  | hydrate => exact (treads_candidate _).bind fun found _ _ => hput found _
  | create => exact hput none _

/-- Entering the node that was provided last. -/
theorem treads_enterChildren : Treads (enterChildren : WalkM α Unit) w := by
  refine .look ?_
  split
  · exact .raise _
  · split
    · exact .step (steps_move w _)
    · exact treads_mode.bind fun _ w' _ => .step (steps_move w' _)

/-- Going back to the level above. -/
theorem treads_exitChildren : Treads (exitChildren : WalkM α Unit) w := by
  refine .look ?_
  split
  · exact (Treads.raise _).bind fun _ _ h => by cases h
  · exact .step (steps_closeFrame w)

private theorem treads_childMode : Treads (childMode : WalkM α Mode) w := by
  refine .look ?_
  split
  · exact .ret _
  · exact treads_mode

/-- Emptying a wrapper. -/
theorem treads_emptyWrapper (wrapper : DomId) :
    Treads (emptyWrapper wrapper : WalkM α Unit) w := by
  refine treads_childMode.bind fun mode w' _ => .ite (.step ?_) (.ret _)
  rcases Nat.eq_zero_or_pos (w'.document.children wrapper).length with hnone | hsome
  · rw [List.length_eq_zero_iff] at hnone
    rw [modifyDocument, Document.clear, hnone]
    exact .refl
  · exact .single (.discard hsome (Document.size_removeAll _ _))

private theorem treads_createMarkers : Treads (createMarkers : WalkM α Markers) w := by
  refine treads_frame.bind fun f w' _ => .look (.put (.single (.create Nat.two_pos ?_)) (.ret _))
  show ((((w'.document.create _).2.create _).2.insertBefore _ _ _).insertBefore _ _
    _).nodes.size = _
  rw [Document.size_insertBefore_any, Document.size_insertBefore_any, Document.size_create,
    Document.size_create]

/-- Claiming the ends of a fragment. -/
theorem treads_claimMarkers : Treads (claimMarkers : WalkM α Markers) w := by
  refine treads_mode.bind fun mode _ _ => ?_
  cases mode with
  | create => exact treads_createMarkers
  | hydrate =>
    refine (treads_candidate _).bind fun found w' _ => ?_
    cases found with
    | none => exact .change (.single (.note _ _ _ fun h => h)) treads_createMarkers
    | some found =>
      refine .look ?_
      split
      · exact .change ((steps_advancePast _ _).tail (.claim 2)) (.ret _)
      · exact .change (.single (.note _ _ _ fun _ => rfl)) treads_createMarkers

/-- Every operation that provides a node. -/
theorem treads_provides {o : Op} {step : WalkM α DomId} (h : o.provides? = some step) :
    Treads step w := by
  cases o with
  | claim expected attrs name =>
    cases h
    exact treads_claimNode _ _ _
  | staticText content name =>
    cases h
    exact treads_claimNode _ _ _
  | append fragment name =>
    cases h
    exact treads_append _
  | _ => cases h

/-! ## What is counted -/

/-- What the account tells of created nodes is what was added to the arena. -/
structure Accounts (w w' : Walk α) : Prop where
  /-- As many nodes were added as are counted. -/
  created : w'.document.nodes.size + w.report.created = w.document.nodes.size + w'.report.created
  /-- Boundaries that were drawn anew stay counted. -/
  fallbacks : w.report.fallbacks ≤ w'.report.fallbacks

namespace Accounts

theorem refl (w : Walk α) : w.Accounts w := ⟨rfl, Nat.le_refl _⟩

theorem trans (h : w.Accounts w') (h' : w'.Accounts w'') : w.Accounts w'' where
  created := by
    have := h.created
    have := h'.created
    omega
  fallbacks := Nat.le_trans h.fallbacks h'.fallbacks

/-- What neither adds nor counts a node. -/
theorem still (hsize : w'.document.nodes.size = w.document.nodes.size)
    (hcreated : w'.report.created = w.report.created)
    (hfallbacks : w'.report.fallbacks = w.report.fallbacks) : w.Accounts w' :=
  ⟨by rw [hsize, hcreated], Nat.le_of_eq hfallbacks.symm⟩

/-- What goes on from a walk with the same document and the same account. -/
theorem resume (h : w'.Accounts w'') (hdocument : w'.document = w.document)
    (hreport : w'.report = w.report) : w.Accounts w'' where
  created := hdocument ▸ hreport ▸ h.created
  fallbacks := hreport ▸ h.fallbacks

/-- What adds some nodes and counts them. -/
theorem added (n : Nat) (hsize : w'.document.nodes.size = w.document.nodes.size + n)
    (hcreated : w'.report.created = w.report.created + n)
    (hfallbacks : w'.report.fallbacks = w.report.fallbacks) : w.Accounts w' :=
  ⟨by omega, Nat.le_of_eq hfallbacks.symm⟩

end Accounts

/-- A step counts what it adds to the arena. -/
theorem Step.accounts (h : Step w w') : w.Accounts w' := by
  cases h with
  | dress h => exact .still h.size rfl rfl
  | create _ h => exact .added _ h rfl rfl
  | discard _ h => exact .still h rfl rfl
  | _ => exact .still rfl rfl rfl

/-- So do many steps. -/
theorem Steps.accounts (h : w.Steps w') : w.Accounts w' := by
  induction h with
  | refl => exact .refl w
  | tail _ hstep ih => exact ih.trans hstep.accounts

/-- So does a run that only takes steps. -/
theorem Treads.accounts {x : WalkM α β} (h : Treads x w) {b : β} (hrun : x.run w = .ok (b, w')) :
    w.Accounts w' :=
  (h b w' hrun).accounts

/-- What is inside of an insert is built and counted. -/
theorem accounts_fill (w : Walk α) (id : DomId) (fragments : List Fragment) :
    w.Accounts ((w.modifyDocument fun d =>
      (d.clear id).plantUnder id (Fragment.trees fragments)).modifyReport
        (·.addCreated (Fragment.sizes fragments))) := by
  refine .added (Fragment.sizes fragments) ?_ rfl rfl
  refine (Document.size_plantUnder _ _ _).trans ?_
  rw [Document.clear, Document.size_removeAll, Fragment.sizes_trees]

end Hydration.Walk

open Hydration Walk

private theorem Hydration.Walk.accounts_anew {w : Sheet} {d : Document (Json → Program)}
    (h : w.document.SameNodes d) (p : DomId) (m : Markers) : w.Accounts (w.anew d p m) where
  created := by
    show (d.removeAll _).nodes.size + _ = _ + w.report.created
    rw [Document.size_removeAll, h.size]
  fallbacks := Nat.le_succ _

/-- What a template adds to the arena is what its account tells. -/
theorem Draft.accounts {p q : Program} {w w' : Sheet} {ids : List DomId}
    (h : Draft p w ids q w') : w.Accounts w' := by
  induction h with
  | here => exact .refl _
  | look _ _ ih => exact ih
  | query _ ih => exact ih
  | provide provides run _ ih => exact ((treads_provides provides).accounts run).trans ih
  | enter enter _ exit _ ih ih' =>
    exact ((treads_enterChildren.accounts enter).trans ih).trans
      ((treads_exitChildren.accounts exit).trans ih')
  | within _ _ _ ih ih' => exact ih.trans ih'
  | aside _ same _ ih => exact (Step.dress same.dressed).accounts.trans ih
  | attr dressed _ ih => exact (Step.dress dressed).accounts.trans ih
  | text run _ _ ih =>
    exact ((treads_claimNode _ _ _).accounts run).trans
      ((Step.dress (.setText _ _ _)).accounts.trans ih)
  | region run _ _ _ ih ih' =>
    exact ((treads_claimNode _ _ _).accounts run).trans
      (.trans (.resume (ih.trans (steps_finish _).accounts) rfl rfl) (ih'.resume rfl rfl))
  | insert run empty _ _ ih =>
    exact (((treads_claimNode _ _ _).accounts run).trans
      ((treads_emptyWrapper _).accounts empty)).trans ((accounts_fill _ _ _).trans ih)
  | boundary _ run _ _ _ _ ih ih' =>
    exact (treads_claimMarkers.accounts run).trans
      (.trans (.resume (ih.trans (steps_finish _).accounts) rfl rfl) (ih'.resume rfl rfl))
  | redrawn _ run _ _ _ _ same _ _ ih ih' ih'' =>
    have hagain := (accounts_anew same _ _).trans (ih'.trans (steps_finish _).accounts)
    exact (treads_claimMarkers.accounts run).trans (.trans
      (.resume ((ih.trans (steps_finish _).accounts).trans hagain) rfl rfl) (ih''.resume rfl rfl))

end Rivulet
