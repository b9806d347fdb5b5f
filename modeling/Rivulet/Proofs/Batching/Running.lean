import Rivulet.Proofs.Batching.Reading

/-!
# Programs that observe run to their end

A program that observes runs to its end as long as the computed values that it sees can be read.
What it gives and logs is what it does for the values that it has read.
-/

namespace Rivulet.Engine

open State

variable {D : Setting} {name : NodeId → String} {b : Nat} {s s' s'' : State}

/-- What may be logged belongs to no report of an effect that does not run. -/
def State.Foreign (name : NodeId → String) (logs : Json → Prop) (s : State) : Prop :=
  ∀ v, logs v → ∀ (id : NodeId) e, s.cells[id]? = some (.effect e) →
    s.tracking.isRunning id = false → ∃ other, other ≠ name id ∧ Signed other v

theorem State.Foreign.freshens {logs : Json → Prop} (hs : s.Foreign name logs)
    (h : s.Freshens D b s') : s'.Foreign name logs := by
  intro v hv id e he hstill
  rw [h.running] at hstill
  exact hs v hv id e (h.effect_iff.1 he) hstill

/-- What the run of a program that observes does. -/
structure State.Ran (D : Setting) (name : NodeId → String) (b : Nat) (logs : Json → Prop)
    (p : Program) (o : Outcome) (l : List Json) (s s' : State) : Prop where
  /-- It changes no more than reading does. -/
  freshens : s.Freshens D b s'
  /-- What it logs. -/
  log : s'.log = l.reverse ++ s.log
  /-- It logs only what it may. -/
  allowed : ∀ v ∈ l, logs v
  /-- Marks and epochs still tell what they should. -/
  faithful : s.Faithful D name → s.Foreign name logs → s'.Faithful D name
  /-- What it gives and logs depends on what it has read. -/
  replay : s.Faithful D name → s.Foreign name logs → s.tracking.isActive = true →
    s.Relies → s'.Relies ∧
      ∀ val, (∀ r ∈ s'.tracking.reads, val r = s'.stored r) → p.replay s.lookup val = (o, l)

namespace State.Ran

variable {logs : Json → Prop} {p q : Program} {o o' : Outcome} {l l' : List Json}

/-- A program that ends at once. -/
theorem stop (hs : s.Orderly D) (o : Outcome) : s.Ran D name b logs (.stop o) o [] s where
  freshens := .refl b hs
  log := rfl
  allowed _ hv := absurd hv List.not_mem_nil
  faithful hf _ := hf
  replay _ _ _ hrelies := ⟨hrelies, fun _ _ => rfl⟩

/-- One program behind another one. -/
theorem trans (h : s.Ran D name b logs p o l s') (h' : s'.Ran D name b logs q o' l' s'')
    {r : Program} (hr : ∀ val, D.tracked → p.replay s.lookup val = (o, l) →
      q.replay s.lookup val = (o', l') → r.replay s.lookup val = (o', l ++ l')) :
    s.Ran D name b logs r o' (l ++ l') s'' where
  freshens := h.freshens.trans h'.freshens
  log := by rw [h'.log, h.log, List.reverse_append, List.append_assoc]
  allowed v hv := (List.mem_append.1 hv).elim (h.allowed v) (h'.allowed v)
  faithful hf hforeign := h'.faithful (h.faithful hf hforeign) (hforeign.freshens h.freshens)
  replay hf hforeign hactive hrelies := by
    obtain ⟨hrelies', hreplay⟩ := h.replay hf hforeign hactive hrelies
    obtain ⟨hrelies'', hreplay'⟩ := h'.replay (h.faithful hf hforeign)
      (hforeign.freshens h.freshens) (h.freshens.tracking.isActive ▸ hactive) hrelies'
    refine ⟨hrelies'', fun val hval => hr val hf.tracked (hreplay val fun r hr => ?_) ?_⟩
    · -- What was read before is still the same behind the second program.
      rw [hval r (h'.freshens.tracking.reads.1 hr), h'.freshens.stored (hrelies' r hr).sure]
    · rw [← h.freshens.lookup]
      exact hreplay' val hval

/-- A read, and then a program. -/
theorem answered {reply : (NodeId → Json) → Option Json} {a : Option Json}
    {next : Option Json → Program} {c : Op} (h : s.Answered D name b reply a s')
    (h' : s'.Ran D name b logs (next a) o l s'')
    (hc : ∀ val, D.tracked → (Program.op c next).replay s.lookup val =
      (next (reply val)).replay s.lookup val) :
    s.Ran D name b logs (.op c next) o l s'' where
  freshens := h.freshens.trans h'.freshens
  log := by rw [h'.log, h.log]
  allowed := h'.allowed
  faithful hf hforeign := h'.faithful (h.faithful hf) (hforeign.freshens h.freshens)
  replay hf hforeign hactive hrelies := by
    obtain ⟨hrelies', hreply⟩ := h.replay hf hactive hrelies
    obtain ⟨hrelies'', hreplay⟩ := h'.replay (h.faithful hf) (hforeign.freshens h.freshens)
      (h.freshens.tracking.isActive ▸ hactive) hrelies'
    refine ⟨hrelies'', fun val hval => ?_⟩
    have ha : reply val = a := hreply val fun r hr => by
      rw [hval r (h'.freshens.tracking.reads.1 hr), h'.freshens.stored (hrelies' r hr).sure]
    rw [hc val hf.tracked, ha, ← h.freshens.lookup]
    exact hreplay val hval

/-- Logging, and then a program. -/
theorem logged {v : Json} {next : Option Json → Program} (hs : s.Orderly D) (hv : logs v)
    (h : (s.addLog v).Ran D name b logs (next none) o l s') :
    s.Ran D name b logs (.op (.log v) next) o (v :: l) s' where
  freshens := (Freshens.logged hs (v :: s.log)).trans h.freshens
  log := by
    rw [h.log, List.reverse_cons, List.append_assoc]
    rfl
  allowed w hw := (List.mem_cons.1 hw).elim (fun heq => heq ▸ hv) (h.allowed w)
  faithful hf hforeign :=
    h.faithful (hf.addLog fun id e he hstill => hforeign v hv id e he hstill)
      (hforeign.freshens (Freshens.logged (b := b) hs (v :: s.log)))
  replay hf hforeign hactive hrelies := by
    obtain ⟨hrelies', hreplay⟩ := h.replay
      (hf.addLog fun id e he hstill => hforeign v hv id e he hstill)
      (hforeign.freshens (Freshens.logged (b := b) hs (v :: s.log))) hactive
      (fun r hr => (Freshens.logged (b := b) hs (v :: s.log)).firm (hrelies r hr))
    refine ⟨hrelies', fun val hval => ?_⟩
    have hnext : (next none).replay s.lookup val = (o, l) := hreplay val hval
    rw [Program.replay, hnext]

/-- A batch around a program. -/
theorem batch (h : (s.modifyQueue Queue.enterBatch).Ran D name b logs p o l s') :
    s.Ran D name b logs p o l (s'.modifyQueue Queue.exitBatch) where
  freshens := h.freshens.batch
  log := h.log
  allowed := h.allowed
  faithful hf hforeign :=
    (h.faithful (hf.same rfl rfl rfl rfl fun _ => rfl) hforeign).same rfl rfl rfl rfl fun _ => rfl
  replay hf hforeign hactive hrelies := by
    obtain ⟨hrelies', hreplay⟩ := h.replay (hf.same rfl rfl rfl rfl fun _ => rfl) hforeign
      hactive fun r hr => ⟨(hrelies r hr).sure, (hrelies r hr).silent⟩
    exact ⟨fun r hr => ⟨(hrelies' r hr).sure, (hrelies' r hr).silent⟩, hreplay⟩

/-- An untracked section around a program. -/
theorem leaveUntracked (h : (s.modifyTracking (·.enter .untracked)).Ran D name b logs p o l s') :
    s.Freshens D b (s'.modifyTracking (·.leave.2)) ∧ (s.Faithful D name → s.Foreign name logs →
      (s'.modifyTracking (·.leave.2)).Faithful D name) := by
  have hfreshens := h.freshens.untracked
  have hrunning (id : NodeId) :
      (s.modifyTracking (·.enter .untracked)).tracking.isRunning id = s.tracking.isRunning id := by
    simp [modifyTracking, Tracking.Observer.node?]
  refine ⟨hfreshens, fun hf hforeign => ?_⟩
  have hforeign' : (s.modifyTracking (·.enter .untracked)).Foreign name logs := by
    intro v hv id e he hstill
    rw [hrunning] at hstill
    exact hforeign v hv id e he hstill
  refine (h.faithful (hf.same rfl rfl rfl rfl hrunning) hforeign').same rfl rfl rfl rfl fun id => ?_
  rw [hfreshens.running, h.freshens.running, hrunning]

/-- The program in an untracked section, if not all reads are tracked. -/
theorem untracked (hfree : ¬D.tracked)
    (h : (s.modifyTracking (·.enter .untracked)).Ran D name b logs p o l s') :
    s.Ran D name b logs p o l (s'.modifyTracking (·.leave.2)) where
  freshens := h.leaveUntracked.1
  log := h.log
  allowed := h.allowed
  faithful := h.leaveUntracked.2
  replay hf := absurd hf.tracked hfree

end State.Ran

theorem State.Orderly.enterUntracked (hs : s.Orderly D) :
    (s.modifyTracking (·.enter .untracked)).Orderly D :=
  hs.same rfl rfl rfl (fun _ hc => hc) fun id => by
    simp [modifyTracking, Tracking.Observer.node?]

theorem State.Unrun.enterUntracked (hb : s.Unrun D.rank b) :
    (s.modifyTracking (·.enter .untracked)).Unrun D.rank b := by
  intro id p v hv hrun
  refine hb id p v hv ?_
  rw [← hrun]
  simp [modifyTracking, Tracking.Observer.node?]

/-- A program that observes runs to its end. -/
theorem gives_exec (hread : ∀ id, D.rank id < b → Readable D name id) {logs : Json → Prop}
    {sees : String → Prop} {ends : Outcome → Prop} {p : Program}
    (hp : p.Observes D.tracked logs sees D.value ends)
    (hs : s.Orderly D) (hq : s.Quiet) (hb : s.Unrun D.rank b)
    (hsees : ∀ x, sees x → s.Below D.rank b x) :
    Gives (fun κ => exec κ p) s fun o s' => ends o ∧ ∃ l, s.Ran D name b logs p o l s' := by
  induction hp generalizing s with
  | stop hends => exact .ret ⟨hends, [], .stop hs _⟩
  | @op ends c next allowed rest ih =>
    -- After a read the program goes on with the answer, in a state that is as good.
    have hafter {x : Kernel → Run (Option Json)} {reply : (NodeId → Json) → Option Json}
        (hx : Gives x s fun a s' => s.Answered D name b reply a s')
        (hc : ∀ val, D.tracked → (Program.op c next).replay s.lookup val =
          (next (reply val)).replay s.lookup val) :
        Gives (fun κ => x κ >>= fun a => exec κ (next a)) s fun o s' =>
          ends o ∧ ∃ l, s.Ran D name b logs (.op c next) o l s' := by
      refine hx.bind fun a s₁ h => ?_
      have hrest := ih a h.value h.freshens.orderly (h.freshens.quiet hq) (h.freshens.unrun hb)
        fun x hx => by rw [h.freshens.below]; exact hsees x hx
      exact hrest.imp fun o s' ⟨hends, l, hran⟩ => ⟨hends, l, .answered h hran hc⟩
    cases allowed with
    | get hx => exact hafter (gives_read hread hs hq hb (hsees _ hx)) fun _ _ => rfl
    | size hx => exact hafter (gives_readSize hread hs hq hb (hsees _ hx)) fun _ _ => rfl
    | peek free hx =>
      exact hafter (gives_peek hread hs hq hb (hsees _ hx) free fun _ => none)
        fun _ ht => absurd ht free
    | state free x =>
      refine hafter (gives_readQuery hs queryState ?_ free x fun _ => none)
        fun _ ht => absurd ht free
      rintro (_ | v) hv
      · exact D.admits.str _
      · exact D.admits.field _ _ (hv v rfl)
    | loading free x =>
      exact hafter (gives_readQuery hs (fun v => .bool v.isNone)
        (fun v _ => D.admits.bool _) free x fun _ => none) fun _ ht => absurd ht free
    | @log v hv =>
      have hrest := ih none (by simp) (s := s.addLog v)
        (hs.same rfl rfl rfl (fun _ hc => hc) fun _ => rfl)
        hq hb hsees
      have hlog : Gives (fun κ => performOp κ (.log v)) s fun a s' => a = none ∧ s' = s.addLog v :=
        ⟨none, _, .of_eq fun _ => rfl, rfl, rfl⟩
      refine hlog.bind ?_
      rintro _ _ ⟨rfl, rfl⟩
      exact hrest.imp fun o s' ⟨hends, l, hran⟩ => ⟨hends, v :: l, .logged hs hv hran⟩
  | @within ends c body next allowed inside rest ihbody ihnext =>
    -- After the part the program goes on with its outcome.
    have hafter (hx : Gives (fun κ => enclose κ c body) s fun r s' => r.2 = none ∧
          D.value r.1.get ∧ ∃ l, s.Ran D name b logs body r.1 l s')
        (hc : ∀ val o l o' l', D.tracked → body.replay s.lookup val = (o, l) →
          (next o none).replay s.lookup val = (o', l') →
            (Program.within c body next).replay s.lookup val = (o', l ++ l')) :
        Gives (fun κ => exec κ (.within c body next)) s fun o s' =>
          ends o ∧ ∃ l, s.Ran D name b logs (.within c body next) o l s' := by
      refine hx.bind fun r s₁ ⟨hnone, hvalue, l, h⟩ => ?_
      obtain ⟨o, a⟩ := r
      obtain rfl : a = none := hnone
      have hrest := ihnext o hvalue h.freshens.orderly (h.freshens.quiet hq) (h.freshens.unrun hb)
        fun x hx => by rw [h.freshens.below]; exact hsees x hx
      exact hrest.imp fun o' s' ⟨hends, l', h'⟩ =>
        ⟨hends, l ++ l', h.trans h' fun val ht => hc val o l o' l' ht⟩
    cases allowed with
    | plain =>
      refine hafter (.map (.callExec (ihbody hs hq hb hsees)) fun o s' h => ⟨rfl, h⟩) ?_
      intro val o l o' l' _ hbody hnext
      simp only [Program.replay, hbody, hnext]
    | batch =>
      refine hafter (.map (.batch ?_) fun o s' h => ⟨rfl, h⟩) ?_
      · refine .callExec ((ihbody hs.enterBatch (State.quiet_enterBatch s) hb hsees).imp ?_)
        rintro o s' ⟨hvalue, l, h⟩
        have hbatch := h.batch
        exact (gives_settle_quiet (hbatch.freshens.quiet hq)).imp fun _ t ht => by
          subst ht
          exact ⟨hvalue, l, hbatch⟩
      · intro val o l o' l' _ hbody hnext
        simp only [Program.replay, hbody, hnext]
    | untrack free =>
      refine hafter (.map (.untracked (.callExec
        ((ihbody hs.enterUntracked hq hb.enterUntracked hsees).imp ?_)))
        fun o s' h => ⟨rfl, h⟩) fun _ _ _ _ _ ht => absurd ht free
      rintro o s' ⟨hvalue, l, h⟩
      exact ⟨hvalue, l, h.untracked free⟩

end Rivulet.Engine
