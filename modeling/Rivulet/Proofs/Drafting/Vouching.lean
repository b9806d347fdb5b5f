import Rivulet.Proofs.Drafting.Mounting

/-!
# What an exact account vouches for

Whatever a walk builds, moves or throws away, and whatever it cannot agree with, is held against the
markup in its account. So where nothing is held against it, no node was built, and every node has
the children and the parent that it had. A mount whose account is exact has only used what was
there.
-/

namespace Rivulet

open Hydration

namespace Hydration

/-- How much an account holds against the markup: what was created or thrown away, boundaries that
were drawn anew, and disagreements. -/
def Report.faults (r : Report) : Nat :=
  r.created + r.discarded + r.fallbacks + r.mismatches.length

/-- An account is exact if it holds nothing against the markup. -/
theorem Report.isExact_iff (r : Report) : r.isExact = true ↔ r.faults = 0 := by
  simp only [isExact, faults, Bool.and_eq_true, decide_eq_true_eq, List.isEmpty_iff_length_eq_zero]
  omega

namespace Walk

variable {α β : Type} {w w' w'' : Walk α}

/-- No fault is taken back, and without a new one the walk is as far resolved as it was, and all
nodes are where they were. -/
structure Vouches (w w' : Walk α) : Prop where
  /-- No fault is taken back. -/
  faults : w.report.faults ≤ w'.report.faults
  /-- A walk that comes to be unresolved has met with a fault. -/
  marked : w'.unresolved = true → w.unresolved = true ∨ w.report.faults < w'.report.faults
  /-- Without a new fault all nodes are where they were. -/
  kept : w'.report.faults = w.report.faults → w.document.Dressed w'.document

namespace Vouches

theorem refl (w : Walk α) : w.Vouches w := ⟨Nat.le_refl _, .inl, fun _ => .refl _⟩

theorem trans (h : w.Vouches w') (h' : w'.Vouches w'') : w.Vouches w'' where
  faults := Nat.le_trans h.faults h'.faults
  marked hmarked := by
    have := h.faults
    have := h'.faults
    rcases h'.marked hmarked with hmarked' | hfault
    · exact (h.marked hmarked').imp_right fun hlt => by omega
    · exact .inr (by omega)
  kept hsame := by
    have := h.faults
    have := h'.faults
    exact (h.kept (by omega)).trans (h'.kept (by omega))

/-- A new fault vouches for nothing. -/
theorem fault (h : w.report.faults < w'.report.faults) : w.Vouches w' :=
  ⟨Nat.le_of_lt h, fun _ => .inr h, fun hsame => absurd hsame (Nat.ne_of_gt h)⟩

/-- What is no fault leaves all nodes where they were. -/
theorem still (hfaults : w'.report.faults = w.report.faults)
    (hmarked : w'.unresolved = w.unresolved) (hkept : w.document.Dressed w'.document) :
    w.Vouches w' :=
  ⟨Nat.le_of_eq hfaults.symm, fun h => .inl (hmarked ▸ h), fun _ => hkept⟩

/-- What goes on from a walk with the same document and the same account, and comes back to its
mark. -/
theorem inside {u u' : Walk α} (h : u.Vouches u') (hdocument : u.document = w.document)
    (hreport : u.report = w.report) (hdocument' : w'.document = u'.document)
    (hreport' : w'.report = u'.report) (hmarked : w'.unresolved = w.unresolved) :
    w.Vouches w' := by
  refine ⟨?_, fun hm => .inl (hmarked ▸ hm), fun hsame => ?_⟩
  · rw [hreport', ← hreport]
    exact h.faults
  · rw [hreport', ← hreport] at hsame
    rw [hdocument', ← hdocument]
    exact h.kept hsame

end Vouches

/-- A step claims only what it may. -/
theorem Step.vouches (h : Step w w') : w.Vouches w' := by
  cases h with
  | move cursor => exact .still rfl rfl (.refl _)
  | pass n => exact .still rfl rfl (.refl _)
  | dress h => exact .still rfl rfl h
  | claim n => exact .still rfl rfl (.refl _)
  | create hn h =>
    refine .fault ?_
    simp only [modifyReport, Report.addCreated, Report.faults]
    omega
  | discard hn h =>
    refine .fault ?_
    simp only [modifyReport, Report.addDiscarded, Report.faults]
    omega
  | note expected found resolution h =>
    refine .fault ?_
    simp only [modifyReport, Report.record, Report.faults, List.length_append,
      List.length_singleton]
    omega

/-- So do many steps. -/
theorem Steps.vouches (h : w.Steps w') : w.Vouches w' := by
  induction h with
  | refl => exact .refl w
  | tail _ hstep ih => exact ih.trans hstep.vouches

/-- So does a run that only takes steps. -/
theorem Treads.vouches {x : WalkM α β} (h : Treads x w) {b : β} (hrun : x.run w = .ok (b, w')) :
    w.Vouches w' :=
  (h b w' hrun).vouches

/-! ## Inserts -/

/-- A run that ends has gone through its first part. -/
theorem exists_of_bind {γ : Type} {x : WalkM α β} {k : β → WalkM α γ} {c : γ}
    (h : (x >>= k).run w = .ok (c, w'')) :
    ∃ b w', x.run w = .ok (b, w') ∧ (k b).run w' = .ok (c, w'') := by
  cases hx : x.run w with
  | error e =>
    rw [StateT.run_bind, hx] at h
    cases h
  | ok r =>
    obtain ⟨b, w'⟩ := r
    rw [bind_ok hx] at h
    exact ⟨b, w', rfl, h⟩

/-- The level that a walk works on is the innermost one. -/
theorem exists_of_frame {f : Frame} (h : frame.run w = .ok (f, w')) :
    w' = w ∧ ∃ fs, w.cursor.frames = f :: fs := by
  cases hframes : w.cursor.frames with
  | nil =>
    have hnone : (frame : WalkM α Frame).run w = .error .finished := by
      simp [frame, frame?, hframes]
      rfl
    rw [hnone] at h
    cases h
  | cons f' fs =>
    rw [frame_run hframes] at h
    cases h
    exact ⟨rfl, fs, rfl⟩

/-- The walk works on a level whose nodes are claimed. -/
def Hydrates (w : Walk α) : Prop := ∃ f fs, w.cursor.frames = f :: fs ∧ f.mode = .hydrate

/-- Levels keep their mode. -/
theorem Hydrates.modifyFrame (h : w.Hydrates) {f : Frame → Frame} (hf : ∀ x, (f x).mode = x.mode) :
    (w.modifyFrame f).Hydrates := by
  obtain ⟨x, fs, hframes, hmode⟩ := h
  refine ⟨f x, fs, ?_, (hf x).trans hmode⟩
  rw [Walk.modifyFrame, hframes]

/-- It depends only on the levels. -/
theorem Hydrates.of_frames (h : w.Hydrates) (hframes : w'.cursor.frames = w.cursor.frames) :
    w'.Hydrates := by
  obtain ⟨x, fs, hx, hmode⟩ := h
  exact ⟨x, fs, hframes.trans hx, hmode⟩

/-- Looking for a candidate leaves the mode of levels. -/
theorem Hydrates.candidate (h : w.Hydrates) {wantsText : Bool} {found : Option DomId}
    (hrun : (candidate wantsText).run w = .ok (found, w')) : w'.Hydrates := by
  have hpassed (next : Option DomId) : (w.modifyFrame ({ · with next })).Hydrates :=
    h.modifyFrame fun _ => rfl
  rw [Walk.candidate, bind_ok (x := get) (b := w) rfl] at hrun
  split at hrun
  · cases hrun
    exact h
  · cases hrun
    exact (hpassed _).of_frames rfl

/-- Discarding leaves the mode of levels. -/
theorem Hydrates.discardUpTo (h : w.Hydrates) (first matched : DomId) (expected : Expected) :
    (w.discardUpTo first matched expected).Hydrates := by
  rw [Walk.discardUpTo]
  generalize (w.document.fromSibling first).takeWhile (· ≠ matched) = ids
  induction ids generalizing w with
  | nil => exact h
  | cons id ids ih =>
    refine ih (h.of_frames ?_)
    rw [discard]
    split <;> rfl

/-- What is inside of a node that was claimed is claimed. -/
theorem Hydrates.childMode (h : w.Hydrates) {id : DomId}
    (hlast : w.cursor.last = some (id, false)) :
    Walk.childMode.run w = .ok (.hydrate, w) := by
  obtain ⟨f, fs, hframes, hmode⟩ := h
  rw [Walk.childMode, bind_ok (x := get) (b := w) rfl, hlast, ← hmode]
  exact mode_run hframes

/-- A node that is created is held against the markup. -/
theorem faults_createHere {expected : Expected} {attrs : List (String × String)} {id : DomId}
    (hrun : (createHere expected attrs).run w = .ok (id, w')) :
    w.report.faults < w'.report.faults := by
  obtain ⟨f, u, hframe, hrest⟩ := exists_of_bind hrun
  obtain ⟨rfl, -⟩ := exists_of_frame hframe
  cases hrest
  simp only [setLast, modifyReport, Report.addCreated, Report.faults]
  omega

private theorem Hydrates.adopt (h : w.Hydrates) {expected : Expected}
    {attrs : List (String × String)}
    {patch : Bool} {found id : DomId}
    (hrun : (adopt found expected attrs patch).run w = .ok (id, w')) :
    Walk.childMode.run w' = .ok (.hydrate, w') := by
  have hpassed (u : Walk α) (hu : u.Hydrates) : (u.advancePast found).Hydrates :=
    hu.modifyFrame fun _ => rfl
  cases hrun
  refine Hydrates.childMode (Hydrates.of_frames (hpassed _ ?_) rfl) rfl
  exact h.of_frames rfl

/-- A node is claimed, with what is inside, or one more fault is found. -/
theorem claimNode_faulty {expected : Expected} {attrs : List (String × String)} {patch : Bool}
    {id : DomId} (hrun : (claimNode expected attrs patch).run w = .ok (id, w')) :
    w.report.faults < w'.report.faults ∨ childMode.run w' = .ok (.hydrate, w') := by
  obtain ⟨mode, u, hmode, hrest⟩ := exists_of_bind hrun
  obtain ⟨f, u', hframe, hmode'⟩ := exists_of_bind hmode
  obtain ⟨rfl, fs, hframes⟩ := exists_of_frame hframe
  cases hmode'
  cases hf : f.mode with
  | create =>
    rw [hf] at hrest
    exact .inl (faults_createHere hrest)
  | hydrate =>
    rw [hf] at hrest
    obtain ⟨found, v, hlook, hclaim⟩ := exists_of_bind hrest
    have hpassed := ((treads_candidate _).vouches hlook).faults
    have hhydrates : v.Hydrates := Hydrates.candidate ⟨f, fs, hframes, hf⟩ hlook
    cases found with
    | none =>
      obtain ⟨_, v', hcreate, hnote⟩ := exists_of_bind hclaim
      have hcreated := faults_createHere hcreate
      cases hnote
      refine .inl (Nat.lt_of_le_of_lt hpassed (Nat.lt_of_lt_of_le hcreated ?_))
      exact (Step.note (w := v') _ _ _ fun h => h).vouches.faults
    | some found =>
      rw [bind_ok (x := get) (b := v) rfl] at hclaim
      split at hclaim
      · exact .inr (hhydrates.adopt hclaim)
      · rw [bind_ok (x := get) (b := v) rfl] at hclaim
        obtain ⟨f', v', hframe', hlater⟩ := exists_of_bind hclaim
        obtain ⟨rfl, -⟩ := exists_of_frame hframe'
        split at hlater
        · exact .inr ((hhydrates.discardUpTo _ _ _).adopt hlater)
        · rw [replace, bind_ok (x := get) (b := v') rfl] at hlater
          obtain ⟨_, v'', hcreate, hreplace⟩ := exists_of_bind hlater
          have hcreated := faults_createHere hcreate
          cases hreplace
          refine .inl (Nat.lt_of_le_of_lt hpassed (Nat.lt_of_lt_of_le hcreated ?_))
          dsimp only
          rw [advancePast_eq]
          split <;> simp only [escalate, modifyReport, modifyDocument, Report.addDiscarded,
            Report.record, Report.faults, List.length_append] <;> omega

private theorem clear_of_no_children {d : Document α} {id : DomId} (h : d.children id = []) :
    d.clear id = d := by
  rw [Document.clear, h]
  rfl

/-- An insert that nothing is held against was empty, and stays so. -/
theorem vouches_insert {id : DomId} {w₁ w₂ : Walk α}
    (run : (claimNode (.wrapper .insert) [] false).run w = .ok (id, w₁))
    (empty : (emptyWrapper id).run w₁ = .ok ((), w₂)) (fragments : List Fragment) :
    w.Vouches ((w₂.modifyDocument fun d =>
      (d.clear id).plantUnder id (Fragment.trees fragments)).modifyReport
        (·.addCreated (Fragment.sizes fragments))) := by
  have hprovided := (treads_claimNode _ _ _).vouches run
  have hemptied := (treads_emptyWrapper _).vouches empty
  have := hprovided.faults
  have := hemptied.faults
  rcases claimNode_faulty run with hfault | hmode
  · refine .fault ?_
    simp only [Report.faults] at *
    simp only [modifyReport, modifyDocument, Report.addCreated]
    omega
  · refine hprovided.trans ?_
    rw [emptyWrapper, bind_ok hmode] at empty
    cases empty
    rcases Nat.eq_zero_or_pos (w₁.document.children id).length with hnone | hsome
    · rw [List.length_eq_zero_iff] at hnone
      cases fragments with
      | nil =>
        simp only [modifyReport, modifyDocument, clear_of_no_children hnone, hnone]
        exact .refl w₁
      | cons f fs =>
        have hsize := f.size_pos
        refine .fault ?_
        simp only [modifyReport, modifyDocument, Report.addCreated, Report.addDiscarded,
          Report.faults, Fragment.sizes]
        omega
    · refine .fault ?_
      simp only [modifyReport, modifyDocument, Report.addCreated, Report.addDiscarded,
        Report.faults]
      omega

/-- A boundary that is drawn anew is held against the markup. -/
theorem faults_anew (w : Walk α) (d : Document α) (p : DomId) (m : Markers) :
    w.report.faults < (w.anew d p m).report.faults := by
  simp only [anew, Report.addFallback, Report.addDiscarded, Report.faults]
  omega

end Walk

end Hydration

open Walk in
/-- Whatever a template does to the nodes of a document is held against the markup. -/
theorem Draft.vouches {p q : Program} {w w' : Sheet} {ids : List DomId}
    (h : Draft p w ids q w') : w.Vouches w' := by
  induction h with
  | here => exact .refl _
  | look _ _ ih => exact ih
  | query _ ih => exact ih
  | provide provides run _ ih => exact ((treads_provides provides).vouches run).trans ih
  | enter enter _ exit _ ih ih' =>
    exact ((treads_enterChildren.vouches enter).trans ih).trans
      ((treads_exitChildren.vouches exit).trans ih')
  | within _ _ _ ih ih' => exact ih.trans ih'
  | aside _ same _ ih => exact (Step.dress same.dressed).vouches.trans ih
  | attr dressed _ ih => exact (Step.dress dressed).vouches.trans ih
  | text run _ _ ih =>
    exact ((treads_claimNode _ _ _).vouches run).trans
      ((Step.dress (.setText _ _ _)).vouches.trans ih)
  | region run _ _ _ ih ih' =>
    have hinside := (Step.move _).vouches.trans (ih.trans (steps_finish _).vouches)
    exact ((treads_claimNode _ _ _).vouches run).trans
      (hinside.trans ((Step.move _).vouches.trans ih'))
  | insert run empty _ _ ih => exact (vouches_insert run empty _).trans ih
  | @boundary _ _ _ _ m _ _ _ w₁ w₂ _ _ _ _ run _ _ _ _ ih ih' =>
    have hinside : w₁.Vouches (w₂.finish.behind w₁ m) :=
      (ih.trans (steps_finish _).vouches).inside rfl rfl rfl rfl rfl
    exact (treads_claimMarkers.vouches run).trans (hinside.trans ih')
  | @redrawn _ _ _ _ m f _ _ d _ w₁ w₂ w₃ _ _ _ _ _ run _ _ _ _ _ _ _ ih ih' ih'' =>
    have hinside : w₁.report.faults ≤ w₂.finish.report.faults :=
      (ih.trans (steps_finish _).vouches).faults
    have hagain := (ih'.trans (steps_finish _).vouches).faults
    have hanew := faults_anew w₂.finish d f.parent m
    have hfault : w₁.report.faults < (w₃.finish.behind w₁ m).report.faults :=
      Nat.lt_of_le_of_lt hinside (Nat.lt_of_lt_of_le hanew hagain)
    exact (treads_claimMarkers.vouches run).trans ((Vouches.fault hfault).trans ih'')

namespace Engine

variable {app : Program} {d : Document (Json → Program)} {target : DomId}

private theorem Drew.vouches {w w' : Sheet} {ids : List DomId} (h : Drew app w ids w') :
    w.Vouches w' := by
  obtain ⟨v, u, hdraft, rfl⟩ := h
  exact hdraft.vouches.trans (Walk.steps_finish u).vouches

/-- Where an account is exact, the walk over the markup was not given up, and it has left all nodes
where they were. -/
theorem Claiming.Ends.unchanged {phase : Phase} {r : Report} {d' : Document (Json → Program)}
    (h : Claiming.Ends app d target phase r d') (hexact : r.isExact = true) :
    phase = .claimed ∧ d.Dressed d' := by
  rw [Report.isExact_iff] at hexact
  cases h with
  | @held ids w hdrew _ =>
    have hagrees : w.report.agrees = true := by
      simp only [Report.faults] at hexact
      simp only [Report.agrees, Bool.and_eq_true, decide_eq_true_eq,
        List.isEmpty_iff_length_eq_zero]
      omega
    exact ⟨if_pos hagrees, hdrew.vouches.kept hexact⟩
  | @anew ids ids' w w' d₁ removed hdrew hfailed _ _ =>
    rcases hdrew.vouches.marked hfailed with hstart | hfault
    · cases hstart
    · simp only [Report.faults, Report.addDiscarded, Report.addCreated] at hexact
      simp only [Report.faults] at hfault
      omega

/-- What a mounted application is whose markup was there, and how it has ended that it was
claimed. -/
structure Mount.Claims (m : Mount) (app : Program) (document : DocumentId)
    (d : Document (Json → Program)) (target : DomId) (c : Canvas) : Prop where
  /-- It is in the document. -/
  housed : m.document = document
  /-- It is below the node. -/
  placed : m.target = target
  /-- The states it went through, its account and the document are those at the end. -/
  ends : ∃ phase r d', m.phases = [.idle, .claiming, phase, .interactive] ∧
    c.reports[m.report.index]? = some r ∧ c.documents[document.index]? = some d' ∧
    Claiming.Ends app d target phase r d'

/-- An exact account is truthful: if a mount over the markup of a document shows one, then no node
was built, every node of the document has the children and the parent that it had, and the root has
gone through the claiming states to the interactive one. -/
theorem mount_unchanged {n : Nat} {s s' : State} {name : Option String} {document : DocumentId}
    {payload : Query.Payload} {v : Json} {rules : Rules} (hs : s.Reached) (hquiet : s.Quiet)
    (hcomputed : ∀ (id : NodeId) (p : Program) (old : Option Json),
      s.cells[id]? = some (.computed p old) → p.Quiet)
    (hd : s.documents[document.index]? = some d) (happ : app.Draws rules false 0)
    (hrun : mount (kernel n) name document target (some .tolerant) payload app s = .ok v s') :
    ∃ (m : Mount) (u : State), v = u.mountValue m ∧ u.canvas = s'.canvas ∧ m.document = document ∧
      m.target = target ∧ ((s'.report m.report).isExact = true →
        m.phases = [.idle, .claiming, .claimed, .interactive] ∧
            d.Dressed (s'.document document)) := by
  have hplace (client : ClientId) (s₁ : State) (hd₁ : s₁.documents[document.index]? = some d)
      (hclient : s₁.OnClient) :
      Brings State.Preserves s.scopes.next
        (placeApp (kernel n) app document target client
          ((some .tolerant).getD (automaticMode s document target))) s₁ fun m s₂ =>
          m.Claims app document d target s₂.canvas := by
    refine (claimApp_ends happ hd₁ hclient client).bind ?_
    rintro c s₂ - - ⟨r, d', hr, hd', hends⟩
    exact .ret ⟨rfl, rfl, c.phase, r, d', rfl, hr, hd', hends⟩
  obtain ⟨m, u, hv, hu, hm, hm', phase, r, d', hphases, hr, hd', hends⟩ :=
    (brings_mountOf (P := fun m c => m.Claims app document d target c) hd hplace name payload
      (hs.placid hquiet hcomputed) v s' hrun).2
  refine ⟨m, u, hv, hu, hm, hm', fun hexact => ?_⟩
  rw [State.report, show s'.reports[_]? = _ from hr, Option.getD_some] at hexact
  obtain ⟨rfl, hdressed⟩ := hends.unchanged hexact
  rw [State.document, show s'.documents[_]? = _ from hd', Option.getD_some]
  exact ⟨hphases, hdressed⟩

end Engine

end Rivulet
