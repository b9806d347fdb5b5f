import Rivulet.Proofs.Batching.Flushing
import Rivulet.Proofs.Batching.Tending

/-!
# Batches are transparent

What computed values keep and effects have reported is determined by what the signals hold, wherever
marks tell that it is up to date. So it makes no difference for what can be observed in the end in
which batches signals were written, or whether in any.
-/

namespace Rivulet

namespace Engine

open State

variable {D : Setting} {name : NodeId → String} {s s' t u v : State} {id : NodeId}

/-- No node has changed so often that its epochs have been used before. -/
def State.Unwrapped (s : State) : Prop :=
  ∀ id n, s.graph.find? id = some n → n.changes < UInt64.size

/-- What is given of what lies behind a node: all but the value that a computed value keeps, and how
often an effect has run. -/
def Cell.given : Cell → Cell
  | .computed p _ => .computed p none
  | .effect e => .effect { e with runs := 0 }
  | c => c

/-- States that differ in no more than in how far computed values and effects are up to date. -/
structure State.Matches (s t : State) : Prop where
  /-- Names stand for the same. -/
  names : t.names = s.names
  /-- Signals hold the same, and programs are the same. -/
  given : ∀ j : NodeId, t.cells[j]?.map Cell.given = s.cells[j]?.map Cell.given

namespace State.Matches

/-- Two states that match do so either way. -/
theorem symm (h : s.Matches t) : t.Matches s := ⟨h.names.symm, fun j => (h.given j).symm⟩

private theorem trans (h : s.Matches t) (h' : t.Matches u) : s.Matches u :=
  ⟨h'.names.trans h.names, fun j => (h'.given j).trans (h.given j)⟩

/-- A name stands for the same node. -/
theorem lookup (h : s.Matches t) : t.lookup = s.lookup := by
  funext x
  rw [State.lookup, State.lookup, handle?_congr h.names]

private theorem handle? (h : s.Matches t) (x : String) : t.handle? x = s.handle? x :=
    handle?_congr h.names x

/-- Behind a node there is what was given in both states. -/
theorem exists_given (h : s.Matches t) {c : Cell} (hs : s.cells[id]? = some c) :
    ∃ c', t.cells[id]? = some c' ∧ c'.given = c.given :=
  Option.map_eq_some_iff.1 ((h.given id).trans (by rw [hs, Option.map_some]))

/-- A signal has the same value in both states. -/
theorem signal (h : s.Matches t) {w : Json} (hs : s.cells[id]? = some (.signal w)) :
    t.cells[id]? = some (.signal w) := by
  obtain ⟨c, hc, hgiven⟩ := h.exists_given hs
  cases c <;> simp_all [Cell.given]

private theorem computed (h : s.Matches t) {p : Program} {w : Option Json}
    (hs : s.cells[id]? = some (.computed p w)) : ∃ w', t.cells[id]? = some (.computed p w') := by
  obtain ⟨c, hc, hgiven⟩ := h.exists_given hs
  cases c <;> simp_all [Cell.given]

/-- An effect runs the same in both states. -/
theorem effect (h : s.Matches t) {e : Effect} (hs : s.cells[id]? = some (.effect e)) :
    ∃ f, t.cells[id]? = some (.effect f) ∧ f.reaction = e.reaction := by
  obtain ⟨c, hc, hgiven⟩ := h.exists_given hs
  cases c <;> simp_all [Cell.given]

/-- What is no computed value looks the same. -/
theorem stored (h : s.Matches t) (hs : ∀ p w, s.cells[id]? ≠ some (.computed p w)) :
    t.stored id = s.stored id := by
  cases hcell : s.cells[id]? with
  | none =>
    have hgiven := h.given id
    rw [hcell, Option.map_none, Option.map_eq_none_iff] at hgiven
    rw [State.stored, State.stored, hcell, hgiven]
  | some c =>
    cases c with
    | signal w => rw [State.stored, State.stored, hcell, h.signal hcell]
    | computed p w => exact absurd hcell (hs p w)
    | effect e =>
      obtain ⟨f, hf, -⟩ := h.effect hcell
      rw [State.stored, State.stored, hcell, hf]
    | query w =>
      obtain ⟨c, hc, hgiven⟩ := h.exists_given hcell
      cases c <;> simp_all [Cell.given, State.stored]

end State.Matches

private theorem matches_of_freshens {b : Nat} (h : s.Freshens D b t) : s.Matches t where
  names := h.names
  given j := by
    rcases h.cells j with heq | ⟨-, p, w, w', hold, hnew⟩
    · rw [heq]
    · rw [hold, hnew]
      rfl

/-- States that were reached from one state by writes that leave the same in the signals. -/
theorem matches_of_advanced {l l' : List (NodeId × Json)} (h : s.Advanced l t)
    (h' : s.Advanced l' u)
    (hsame : ∀ (id : NodeId) w, s.cells[id]? = some (.signal w) →
      overlay s.stored l id = overlay s.stored l' id) : t.Matches u where
  names := h'.names.trans h.names.symm
  given j := by
    have ht := h.outline j
    have hu := h'.outline j
    cases hcell : s.cells[j]? with
    | none =>
      rw [hcell, Option.map_none, Option.map_eq_none_iff] at ht hu
      rw [ht, hu]
    | some c =>
      cases c with
      | signal w =>
        obtain ⟨a, ha⟩ := exists_signal_of_outline ht hcell
        obtain ⟨b, hb⟩ := exists_signal_of_outline hu hcell
        have hstored := (h.signals j w hcell).trans
          ((hsame j w hcell).trans (h'.signals j w hcell).symm)
        rw [State.stored, State.stored, ha, hb] at hstored
        rw [ha, hb, show a = b from hstored]
      | _ =>
        rw [hcell] at ht hu
        cases ha : t.cells[j]? with
        | none => simp [ha] at ht
        | some a =>
          cases hb : u.cells[j]? with
          | none => simp [hb] at hu
          | some b => cases a <;> cases b <;> simp_all [Cell.outline, Cell.given]

/-- A node that is up to date shows what comes of what the nodes that it read keep, and those are up
to date too. -/
theorem State.Faithful.shows (hs : s.Faithful D name) (hwrap : s.Unwrapped) {n : Graph.Node}
    (hn : s.graph.find? id = some n) (hkind : n.kind ≠ .source) (hclean : n.mark = .clean)
    (hrun : s.tracking.isRunning id = false) :
    (∀ seen ∈ n.dependencies, s.Sure seen.node) ∧
      ∀ val, (∀ seen ∈ n.dependencies, val seen.node = s.stored seen.node) →
          s.Shows name id val := by
  have hdeps := hs.record.clean id n hn hkind hclean hrun
  refine ⟨fun seen hseen => (hdeps seen hseen).2, fun val hval => ?_⟩
  obtain ⟨val', hshows, hkept⟩ := hs.record.settled id n hn hkind (by simp [hclean]) hrun
  refine hshows val fun seen hseen => ?_
  rw [hval seen hseen, hkept seen hseen]
  obtain ⟨m, hm, -⟩ := hs.record.linked id n hn hkind seen hseen
  have hepoch := (hdeps seen hseen).1
  rw [Graph.epoch?, hm, Option.map_some, Option.some.injEq] at hepoch
  rw [Graph.changes?_eq hm, ← hepoch]
  exact congrArg some (Nat.mod_eq_of_lt (hwrap seen.node m hm)).symm

section

variable (ht : t.Orderly D) (hft : t.Faithful D name) (hwt : t.Unwrapped)
  (hu : u.Orderly D) (hfu : u.Faithful D name) (hwu : u.Unwrapped) (h : t.Matches u)

include ht hft hwt hu hfu hwu h

omit ht in
open Classical in
/-- Two nodes that are up to date show what comes of values that both can have seen. -/
theorem exists_common {n m : Graph.Node} (hn : t.graph.find? id = some n)
    (hm : u.graph.find? id = some m) (hkind : n.kind ≠ .source) (hkind' : m.kind ≠ .source)
    (hclean : n.mark = .clean) (hclean' : m.mark = .clean) (hrun : t.tracking.isRunning id = false)
    (hrun' : u.tracking.isRunning id = false)
    (hread : ∀ seen ∈ m.dependencies, ∀ k, u.graph.find? seen.node = some k → k.kind = .derived →
      t.Sure seen.node → u.Sure seen.node → t.stored seen.node = u.stored seen.node) :
    ∃ val, t.Shows name id val ∧ u.Shows name id val := by
  obtain ⟨hsure, hshows⟩ := hft.shows hwt hn hkind hclean hrun
  obtain ⟨hsure', hshows'⟩ := hfu.shows hwu hm hkind' hclean' hrun'
  refine ⟨fun j => if t.Sure j then t.stored j else u.stored j, hshows _ fun seen hseen => ?_,
    hshows' _ fun seen hseen => ?_⟩
  · rw [if_pos (hsure seen hseen)]
  · split
    · rename_i hboth
      obtain ⟨k, hk, -⟩ := hsure' seen hseen
      by_cases hderived : k.kind = .derived
      · exact hread seen hseen k hk hderived hboth (hsure' seen hseen)
      · refine (h.symm.stored fun p w hcell => hderived ?_)
        exact (hu.derived seen.node k hk).2 ⟨p, w, hcell⟩
    · rfl

/-- Computed values that are up to date keep the same. -/
theorem stored_eq_of_matches (hst : t.Still) (hsu : u.Still) (hid : t.Sure id) (hid' : u.Sure id) :
    t.stored id = u.stored id := by
  induction hr : D.rank id using Nat.strongRecOn generalizing id with
  | _ b ih =>
    obtain ⟨n, hn, hclean⟩ := hid
    obtain ⟨m, hm, hclean'⟩ := hid'
    by_cases hderived : n.kind = .derived
    · obtain ⟨p, w, hcell⟩ := (ht.derived id n hn).1 hderived
      obtain ⟨w', hcell'⟩ := h.computed hcell
      have hderived' : m.kind = .derived := (hu.derived id m hm).2 ⟨p, w', hcell'⟩
      -- What it has read has a lower rank.
      obtain ⟨val, hshows, hshows'⟩ := exists_common hft hwt hu hfu hwu h hn hm (by simp [hderived])
        (by simp [hderived']) (hclean hderived).1 (hclean' hderived').1 (hst id) (hsu id)
        fun seen hseen k hk hkd htj huj =>
          ih _ (hr ▸ hu.descends id m hm hderived' seen hseen k hk hkd) htj huj rfl
      rw [Shows, hcell] at hshows
      rw [Shows, hcell', h.lookup] at hshows'
      rw [State.stored, State.stored, hcell, hcell', hshows, hshows']
    · refine (h.stored fun p w hcell => hderived ?_).symm
      exact (ht.derived id n hn).2 ⟨p, w, hcell⟩

/-- Effects that are up to date have reported the same. -/
theorem lastReport_eq_of_matches (hst : t.Still) (hsu : u.Still) {n m : Graph.Node} {e : Effect}
    (hn : t.graph.find? id = some n) (hm : u.graph.find? id = some m) (hclean : n.mark = .clean)
    (hclean' : m.mark = .clean) (he : t.cells[id]? = some (.effect e))
    (hreports : e.reaction.Reports (name id)) :
    lastReport (name id) t.log = lastReport (name id) u.log := by
  obtain ⟨f, hf, hreaction⟩ := h.effect he
  have hkind : n.kind = .effect := (ht.reacting id n hn).2 ⟨e, he⟩
  have hkind' : m.kind = .effect := (hu.reacting id m hm).2 ⟨f, hf⟩
  obtain ⟨val, hshows, hshows'⟩ := exists_common hft hwt hu hfu hwu h hn hm (by simp [hkind])
    (by simp [hkind']) hclean hclean' (hst id) (hsu id)
    fun _ _ _ _ _ htj huj => stored_eq_of_matches ht hft hwt hu hfu hwu h hst hsu htj huj
  rw [Shows, he] at hshows
  simp only [Shows, hf, hreaction, h.lookup] at hshows'
  exact (hshows hreports).trans (hshows' hreports).symm

end

/-! ## Observing -/

/-- What can be observed in two states is the same: what the signals hold, what comes out when
computed values are read, and what effects have last reported. -/
structure State.Resembles (name : NodeId → String) (t u : State) : Prop where
  /-- Signals hold the same. -/
  signals : ∀ (id : NodeId) w, t.cells[id]? = some (.signal w) ↔ u.cells[id]? = some (.signal w)
  /-- The same comes out when a computed value is read. -/
  reads : ∀ x id, t.handle? x = some (.computed id) → ∃ a b t' u',
    Yields (fun κ => read κ x) t (some a) t' ∧ Yields (fun κ => read κ x) u (some b) u' ∧
      (t'.Unwrapped → u'.Unwrapped → a = b)
  /-- Effects that report have reported the same in their last runs. -/
  reports : t.Unwrapped → u.Unwrapped → ∀ (id : NodeId) e, t.graph.contains id = true →
    t.effect? id = some e → e.reaction.Reports (name id) →
      lastReport (name id) t.log = lastReport (name id) u.log

private theorem State.Tended.quiet (hs : s.Tended D name) (hempty : s.queue.pending = []) :
    s.Quiet :=
  fun _ => ⟨hempty, hs.deferred⟩

/-- The read of a computed value. -/
theorem gives_read_computed (hs : s.Tended D name) (hempty : s.queue.pending = []) {x : String}
    (hx : s.handle? x = some (.computed id)) : Gives (fun κ => read κ x) s fun a t => ∃ w,
      a = some w ∧ t.stored id = w ∧ s.Matches t ∧ t.Orderly D ∧ t.Faithful D name ∧ t.Still ∧
        t.Sure id := by
  have hunrun : s.Unrun D.rank (D.rank id + 1) := by
    intro j p w _ hrun
    rw [hs.still j] at hrun
    cases hrun
  have hread := (refreshable_and_readable D name id).2 s hs.orderly (hs.quiet hempty) hunrun
    (isNamed_of_handle? hx rfl) (hs.orderly.stands x _ hx)
  refine .look ?_
  simp only [hx]
  refine (Gives.callRead hread).map fun w t ht => ⟨w, rfl, ht.stored,
    matches_of_freshens ht.freshens,
    ht.freshens.orderly, (ht.faithful hs.faithful).1, fun j => ?_,
    (ht.faithful hs.faithful).2 (hs.faithful.present x _ hx)⟩
  rw [ht.freshens.running]
  exact hs.still j

/-- What can be observed in two states that were reached from one state is the same, if the signals
hold the same and whatever may be out of date is of no effect. -/
theorem resembles_of_matches (ht : t.Poised D name) (hu : u.Poised D name)
    (htb : t.queue.batches = 0)
    (hub : u.queue.batches = 0) (h : t.Matches u)
    (hnodes : Graph.Maps (fun _ n n' => n'.kind = n.kind) t.graph u.graph) :
    t.Resembles name u where
  signals id w := ⟨h.signal, h.symm.signal⟩
  reads x id hx := by
    obtain ⟨_, t', hyields, a, rfl, hta, hmt, hot, hft, hst, hsure⟩ :=
      gives_read_computed ht.toTended (ht.settled htb) hx
    obtain ⟨_, u', hyields', b, rfl, hub, hmu, hou, hfu, hsu, hsure'⟩ :=
      gives_read_computed hu.toTended (hu.settled hub) ((h.handle? x).trans hx)
    refine ⟨a, b, t', u', hyields, hyields', fun hwt hwu => ?_⟩
    rw [← hta, ← hub]
    exact stored_eq_of_matches hot hft hwt hou hfu hwu (hmt.symm.trans (h.trans hmu)) hst hsu hsure
      hsure'
  reports hwt hwu id e hcontains he hreports := by
    rw [effect?_eq_some] at he
    rw [Graph.contains_eq, Option.isSome_iff_exists] at hcontains
    obtain ⟨n, hn⟩ := hcontains
    obtain ⟨m, hm, hkind⟩ := hnodes.exists_new hn
    have heffect : n.kind = .effect := (ht.orderly.reacting id n hn).2 ⟨e, he⟩
    -- No effect is out of date, since none waits.
    have hclean {s : State} {n : Graph.Node} (hs : s.Poised D name) (hb : s.queue.batches = 0)
        (hn : s.graph.find? id = some n) (hk : n.kind = .effect) : n.mark = .clean := by
      by_contra hmark
      have hwaits := hs.waiting id n hn hk hmark
      rw [hs.settled hb] at hwaits
      exact absurd hwaits List.not_mem_nil
    exact lastReport_eq_of_matches ht.orderly ht.faithful hwt hu.orderly hu.faithful hwu h ht.still
      hu.still hn hm (hclean ht htb hn heffect) (hclean hu hub hm (hkind.trans heffect)) he hreports

/-- The setting in which values are equal to themselves only, all reads are tracked, and each effect
logs under a name of its own. -/
def Setting.exact (rank : NodeId → Nat) (name : NodeId → String) : Setting where
  value := Json.Exact
  admits := Json.admits_exact
  tracked := True
  logs id := Signed (name id)
  rank

/-- Batches are transparent: after two programs that leave the same in the signals, in whatever
batches they write them and whether in any, the same can be observed. -/
theorem batches_transparent {rank : NodeId → Nat} {p q : Program}
    (hs : s.Poised (.exact rank name) name) (hbatch : s.queue.batches = 0)
    (hp : p.Writes Json.Exact (fun _ => False) s.IsDirect)
    (hq : q.Writes Json.Exact (fun _ => False) s.IsDirect)
    (hsame : overlay s.stored (p.enact s.handle? s.stored).2 =
      overlay s.stored (q.enact s.handle? s.stored).2) :
    ∃ t u, Yields (fun κ => exec κ p) s (p.enact s.handle? s.stored).1 t ∧
      Yields (fun κ => exec κ q) s (q.enact s.handle? s.stored).1 u ∧ t.Resembles name u := by
  have hrun {p : Program} (hp : p.Writes Json.Exact (fun _ => False) s.IsDirect) :=
    (chronicle_poised (.exact rank name) name).gives_enact hs hp (fun _ hv => hv) fun _ hx => hx
  obtain ⟨_, t, hpt, rfl, ht, hst⟩ := hrun hp
  obtain ⟨_, u, hqu, rfl, hu, hsu⟩ := hrun hq
  have hnodes : Graph.Maps (fun _ n n' => n'.kind = n.kind) t.graph u.graph := by
    intro j
    have hts := hst.nodes j
    have hus := hsu.nodes j
    revert hts hus
    cases s.graph.find? j <;> cases t.graph.find? j <;> cases u.graph.find? j <;> simp
    intro hts hus
    exact hus.trans hts.symm
  refine ⟨t, u, hpt, hqu, resembles_of_matches ht hu (hst.batches.trans hbatch)
    (hsu.batches.trans hbatch)
    (matches_of_advanced hst hsu fun id _ _ => congrFun hsame id) hnodes⟩

end Engine

/-- A program with nothing put off until a batch is over. -/
def Program.unbatched : Program → Program
  | .op o next => .op o fun a => (next a).unbatched
  | .within e body next =>
    .within (if e = .batch then .plain else e) body.unbatched fun o a => (next o a).unbatched
  | p => p

/-- Batches make no difference for what is written. -/
theorem Program.enact_unbatched (look : String → Option Engine.Handle) (p : Program)
    (val : NodeId → Json) : p.unbatched.enact look val = p.enact look val := by
  induction p generalizing val with
  | op o next ih => rw [unbatched, enact, enact, ih]
  | within e body next ihbody ihnext =>
    cases e with
    | plain | batch | untrack =>
      simp only [unbatched, enact, if_true, reduceCtorEq, if_false, ihbody, ihnext]
    | _ => rw [unbatched, enact, enact] <;> simp
  | _ => rfl

/-- Without its batches a program writes the same. -/
theorem Program.Over.unbatched {V logs : Json → Prop} {sees : String → Prop} {p : Program}
    (hp : p.Writes V logs sees) : p.unbatched.Writes V logs sees := by
  rw [Writes] at hp ⊢
  generalize (fun _ => True : Outcome → Prop) = ends at hp
  induction hp with
  | stop h => exact .stop h
  | op allowed _ ih => exact .op allowed ih
  | within allowed _ _ ihbody ihnext =>
    refine .within ?_ ihbody ihnext
    split
    · exact .plain
    · exact allowed

/-- A program that reports what a signal holds. -/
def Program.reporting (name x : String) : Program :=
  .op (.log (Engine.opening name)) fun _ => .op (.get x) fun v =>
    .op (.log (Engine.remark name (v.getD .null))) fun _ => .stop (.value .null)

/-- A program that changes a signal twice, in a batch. -/
def Program.retouch (x : String) (v w : Json) : Program :=
  .within .batch (.op (.update x v) fun _ => .touch x w) fun _ _ => .stop (.value .null)

namespace Engine

open State

/-- An effect that has reported what the first of two signals holds. -/
abbrev State.reported : State :=
  .watched (.reporting "e" "a") [remark "e" (.int 0), opening "e"]

/-- The state with an effect that reports is poised. -/
theorem poised_reported :
    State.reported.Poised (.exact (fun _ => 0) fun _ => "e") fun _ => "e" := by
  have horderly : State.reported.Orderly (.exact (fun _ => 0) fun _ => "e") :=
    orderly_watched (Json.exact_ofNat 0) (.op (.log (Or.inl rfl)) fun _ _ => .op (.get trivial)
      fun _ _ => .op (.log (Or.inr ⟨_, rfl⟩)) fun _ _ => .stop fun h => absurd h (by simp))
  have hsource : State.reported.graph.find? ⟨0⟩ = some ⟨.source, .clean, 0, [], [⟨2⟩]⟩ := by
    rw [find?_watched]
    rfl
  have hvalue : State.reported.stored ⟨0⟩ = .int 0 := by
    rw [stored, cells_watched]
    rfl
  have hnode {id : NodeId} {n : Graph.Node} (hn : State.reported.graph.find? id = some n)
      (hk : n.kind ≠ .source) : id = ⟨2⟩ ∧ n = ⟨.effect, .clean, 0, [⟨⟨0⟩, 0⟩], []⟩ := by
    rw [find?_watched] at hn
    split at hn
    · exact ⟨‹_›, (Option.some.inj hn).symm⟩
    · split at hn
      · exact absurd (Option.some.inj hn ▸ rfl) hk
      · split at hn
        · exact absurd (Option.some.inj hn ▸ rfl) hk
        · cases hn
  have hrecord : State.reported.graph.Faithful State.reported.tracking.isRunning
      State.reported.stored (State.reported.Shows fun _ => "e") := by
    refine ⟨fun id n hn hk seen hseen => ?_, fun id n hn hk _ _ seen hseen => ?_,
      fun id n hn hk _ _ => ?_⟩
    · obtain ⟨rfl, rfl⟩ := hnode hn hk
      obtain rfl := List.mem_singleton.1 hseen
      exact ⟨_, hsource, by simp, List.mem_cons_self, Nat.le_refl 0⟩
    · obtain ⟨rfl, rfl⟩ := hnode hn hk
      obtain rfl := List.mem_singleton.1 hseen
      exact ⟨by rw [Graph.epoch?, hsource]; rfl, _, hsource, fun hd => by cases hd⟩
    · obtain ⟨rfl, rfl⟩ := hnode hn hk
      refine ⟨fun _ => .int 0, fun val hval => ?_, fun seen hseen _ => ?_⟩
      · rw [Shows, cells_watched]
        intro _
        have hlookup : State.reported.lookup "a" = some ⟨0⟩ := by
          rw [lookup, handle?_watched]
          rfl
        have hread : val ⟨0⟩ = .int 0 := hval ⟨⟨0⟩, 0⟩ List.mem_cons_self
        simp only [Reaction.program, Program.reporting, Program.replay, hlookup,
          Option.map_some, hread]
        rfl
      · obtain rfl := List.mem_singleton.1 hseen
        exact hvalue.symm
  have hcell {id : NodeId} {e : Effect} (he : State.reported.cells[id]? = some (.effect e)) :
      id = ⟨2⟩ ∧ e.disposed = false := by
    rw [cells_watched] at he
    split at he
    · exact ⟨‹_›, by rw [← Cell.effect.inj (Option.some.inj he)]⟩
    · split at he <;> cases he
  have hpresent (x : String) (h : Handle) (hx : State.reported.handle? x = some h) :
      h.Present State.reported.graph := by
    rw [handle?_watched] at hx
    split at hx
    · exact Option.some.inj hx ▸ trivial
    · split at hx
      · obtain rfl := Option.some.inj hx
        show State.reported.graph.contains ⟨1⟩ = true
        rw [Graph.contains_eq, find?_watched]
        rfl
      · split at hx
        · obtain rfl := Option.some.inj hx
          show State.reported.graph.contains ⟨0⟩ = true
          rw [Graph.contains_eq, hsource]
          rfl
        · cases hx
  refine ⟨⟨horderly, ?_, fun _ => rfl, rfl, rfl, List.nodup_nil,
    fun _ hid => absurd hid List.not_mem_nil,
    fun id n hn hk hmark => ?_, fun ids hnodup hids => ?_⟩, fun _ => rfl⟩
  · exact ⟨trivial, fun _ hv => hv, fun _ _ hv => hv, hpresent,
      fun i j e f he hf _ => (hcell he).1.trans (hcell hf).1.symm, fun id e _ he =>
        (hcell he).2, hrecord⟩
  · exact absurd ((hnode hn (by simp [hk])).2 ▸ rfl) hmark
  · exact Nat.le_trans (length_le_of_isEffect_watched hnodup hids) (by decide)

/-- Two changes of a signal, in a batch and one by one. -/
theorem batches_transparent_reported :
    State.reported.Poised (.exact (fun _ => 0) fun _ => "e") (fun _ => "e") ∧
      ∃ t u, Yields (fun κ => exec κ (.retouch "a" (.int 1) (.int 2))) State.reported
        (.value .null) t ∧
        Yields (fun κ => exec κ (Program.retouch "a" (.int 1) (.int 2)).unbatched) State.reported
          (.value .null) u ∧ t.Resembles (fun _ => "e") u := by
  have hp : (Program.retouch "a" (.int 1) (.int 2)).Writes Json.Exact (fun _ => False)
      State.reported.IsDirect :=
    .within .batch (.op (.update "a" (Json.exact_ofNat 1)) fun _ _ =>
      .op (.update "a" (Json.exact_ofNat 2)) fun _ _ => .stop trivial) fun _ _ => .stop trivial
  exact ⟨poised_reported, batches_transparent poised_reported rfl hp hp.unbatched
    (by rw [Program.enact_unbatched])⟩

end Engine

/-! ## Reads that leave no trace -/

/-- A program that reads a signal, and logs what another one holds without a trace of the read. -/
def Program.peeking (x y : String) : Program :=
  .op (.get x) fun _ => .op (.peek y) fun v => .op (.log (v.getD .null)) fun _ =>
    .stop (.value .null)

namespace Engine

open State

variable {s : State} {id : NodeId}

/-- An effect that has read the first of two signals, and logged the second. -/
abbrev State.peeked : State := .watched (.peeking "a" "b") [.int 0]

/-- The state with an effect that peeks is in order. -/
theorem orderly_peeked : State.peeked.Orderly (.free fun _ => 0) :=
  orderly_watched trivial (.op (.get trivial) fun _ _ => .op (.peek (fun h => h) trivial) fun _ _ =>
    .op (.log trivial) fun _ _ => .stop fun h => absurd h (by simp))

/-- Reading a signal records the read and gives its value. -/
theorem gives_read_signal {x : String} (hx : s.handle? x = some (.signal id)) {w : Json}
    (hcell : s.cells[id]? = some (.signal w)) : Gives (fun κ => read κ x) s fun a t =>
      a = some w ∧ t = s.modifyTracking (·.record id) := by
  refine .look ?_
  simp only [hx]
  refine .change (f := fun s => s.modifyTracking (·.record id)) (.look (.ret ⟨?_, rfl⟩))
  rw [signalValue, show (s.modifyTracking (·.record id)).cells[id]? = some (.signal w) from hcell]

/-- The program reads the first signal, and logs what the second one holds. -/
theorem gives_peeking {x y : String} {i j : NodeId} (hx : s.handle? x = some (.signal i))
    (hy : s.handle? y = some (.signal j)) {v w : Json} (hi : s.cells[i]? = some (.signal v))
    (hj : s.cells[j]? = some (.signal w)) :
    Gives (fun κ => exec κ (.peeking x y)) s fun _ t =>
      t = (s.modifyTracking (·.record i)).addLog w := by
  refine (gives_read_signal hx hi).bind fun _ s₁ h₁ => ?_
  rw [h₁.2]
  have hpeek : Gives (fun κ => performOp κ (.peek y)) (s.modifyTracking (·.record i)) fun a t =>
      a = some w ∧ t = s.modifyTracking (·.record i) := by
    have hread := gives_read_signal
      (s := (s.modifyTracking (·.record i)).modifyTracking (·.enter .untracked)) hy hj
    refine .untracked (hread.imp fun a t ht => ⟨ht.1, ?_⟩)
    rw [ht.2]
    rfl
  refine hpeek.bind ?_
  rintro _ _ ⟨rfl, rfl⟩
  exact ⟨_, _, .of_eq fun _ => rfl, rfl⟩

/-- An effect that has to run when it is served logs what the second signal holds, and has read the
first one. -/
theorem of_serves_peeking {e : Effect} {t u : State} (hs : t.Orderly (.free fun _ => 0))
    (hstill : t.Still) (hflushing : t.queue.flushing = true) (hmust : t.MustRun id e)
    (hserves : Serves [id] t u) {x y : String} (he : e.reaction = .body (.peeking x y) false)
    {i j : NodeId} (hx : t.handle? x = some (.signal i)) (hy : t.handle? y = some (.signal j))
    {v w : Json} (hi : t.cells[i]? = some (.signal v)) (hj : t.cells[j]? = some (.signal w)) :
    u.log = w :: t.log ∧ u.graph = (t.graph.request id .clean).setDependencies id [i] := by
  have hmust' := hmust
  obtain ⟨hcell, -, n, hn, -⟩ := hmust'
  have hkind : n.kind = .effect := (hs.reacting id n hn).2 ⟨e, hcell⟩
  cases hserves with
  | @cons _ _ rest _ s₁ _ first refreshed others =>
    cases others
    obtain ⟨_, s₂, hyields, -, hran⟩ := gives_refreshEffect (fun _ => "")
      (s := t.modifyQueue fun q => { q with pending := rest }) hstill
      (hs.same rfl rfl rfl (fun _ hc => hc) fun _ => rfl)
      (fun hflush => by simp [modifyQueue, Queue.canFlush, hflushing] at hflush)
      fun m hm => by
        obtain rfl : n = m := Option.some.inj (hn.symm.trans hm)
        exact hkind
    obtain ⟨-, rfl⟩ := refreshed.unique hyields
    obtain ⟨o, s₃, hreact, hrest⟩ := (hran e hmust).rest
    have hpeeking : Gives (fun κ => react κ id e)
        (((t.modifyQueue fun q => { q with pending := rest }).hold (.node id)).startReaction
          id e.scope)
        fun _ s' => s' = ((((t.modifyQueue fun q => { q with pending := rest }).hold
          (.node id)).startReaction id e.scope).modifyTracking (·.record i)).addLog w := by
      simp only [react, he]
      exact .callExec (gives_peeking (s := ((t.modifyQueue fun q => { q with pending := rest }).hold
        (.node id)).startReaction id e.scope) hx hy hi hj)
    obtain ⟨o', s₄, hyields', hs₄⟩ := hpeeking
    obtain ⟨-, rfl⟩ := hreact.unique hyields'
    rw [hrest, hs₄]
    exact ⟨rfl, rfl⟩

/-- A change of a signal outside of batches. -/
theorem gives_touch {D : Setting} (hs : s.Orderly D) (hidle : s.Idle) {x : String}
    (hx : (s.handle? x).bind Handle.signal? = some id) {v : Json} (hv : D.value v) :
    Gives (fun κ => performOp κ (.update x v)) s fun _ t => ∃ u,
      Serves ((s.hold (.node id)).put id v).served
          (((s.hold (.node id)).put id v).modifyQueue fun q => { q with flushing := true }) u ∧
        (((s.hold (.node id)).put id v).modifyQueue fun q => { q with flushing := true }).Served D
          (fun _ => "") ((s.hold (.node id)).put id v).served u ∧
        t = { u with queue := {}, held := s.held } := by
  obtain ⟨hnamed, w, hcell⟩ := hs.isNamed_signal hx
  have hput : ((s.hold (.node id)).put id v).Orderly D := (hs.hold _).put hcell hv
  have hqueue : (s.queue.scheduleAll (s.graph.markChanged id).2).batches = 0 ∧
      (s.queue.scheduleAll (s.graph.markChanged id).2).flushing = false := by
    have hsame := batches_scheduleAll s.queue (s.graph.markChanged id).2
    exact ⟨hsame.1.trans (congrArg Queue.batches hidle.queue),
      hsame.2.trans (congrArg Queue.flushing hidle.queue)⟩
  have hflush : ((s.hold (.node id)).put id v).queue.canFlush = true := by
    show (s.queue.scheduleAll (s.graph.markChanged id).2).canFlush = true
    rw [Queue.canFlush, hqueue.1, hqueue.2]
    rfl
  have heffects : ∀ j ∈ ((s.hold (.node id)).put id v).queue.pending, ∀ m,
      ((s.hold (.node id)).put id v).graph.find? j = some m → m.kind = .effect := by
    intro j hj m hm
    have hj' : j ∈ s.queue.pending ∨ j ∈ (s.graph.markChanged id).2 := mem_pending_scheduleAll.1 hj
    rw [hidle.queue] at hj'
    have heffect := (Graph.mem_markChanged.1 (hj'.resolve_left List.not_mem_nil)).2
    rw [← (alike_putAll s [(id, v)]).isEffect, Graph.isEffect] at heffect
    rw [show (s.putAll [(id, v)]).graph.find? j = some m from hm] at heffect
    exact of_decide_eq_true heffect
  have hsettle := gives_settle (fun _ => "") hput (fun j => hidle.still j) hidle.deferred
    hflush heffects
  refine gives_withHandle (fun hnone => ?_) fun j hj => ?_
  · rw [hx] at hnone
    cases hnone
  · obtain rfl : id = j := Option.some.inj (hx.symm.trans hj)
    have hbody : Gives (fun κ => do ensureWritable; overwrite κ id v) s fun _ t => ∃ u,
        Serves ((s.hold (.node id)).put id v).served
            (((s.hold (.node id)).put id v).modifyQueue fun q => { q with flushing := true }) u ∧
          (((s.hold (.node id)).put id v).modifyQueue fun q => { q with flushing := true }).Served D
            (fun _ => "") ((s.hold (.node id)).put id v).served u ∧
          t = { u with queue := {}, held := s.held } := by
      refine hidle.still.ensureWritable.bind fun _ s' hs' => ?_
      subst hs'
      refine .holdingNamed (.change (f := fun s => s.setCell id (.signal v))
        (.change (f := fun s => s.markChanged id) (hsettle.imp ?_)))
      rintro _ _ ⟨u, hserves, hserved, rfl⟩
      refine ⟨hserved.orderly.swept, ?_, u, hserves, hserved, ?_⟩
      · show u.names.any _ = true
        rw [hserved.names]
        exact hnamed
      · have hbatches : u.queue.batches = 0 := by
          rw [hserved.queue]
          exact hqueue.1
        have hheld : u.held = .node id :: s'.held := hserved.held
        rw [modifyQueue, hbatches, hheld, List.erase_cons_head]
    exact hbody.map fun _ t ht => ht

/-- Nothing is logged when a signal changes that no one has read. -/
theorem gives_touch_unread {D : Setting} (hs : s.Orderly D) (hidle : s.Idle) {x : String}
    (hx : (s.handle? x).bind Handle.signal? = some id) {v : Json} (hv : D.value v) {n : Graph.Node}
    (hn : s.graph.find? id = some n) (hnone : n.dependents = []) :
    Gives (fun κ => performOp κ (.update x v)) s fun _ t => t.log = s.log := by
  refine (gives_touch hs hidle hx hv).imp ?_
  rintro _ _ ⟨u, hserves, -, rfl⟩
  have hserved : ((s.hold (.node id)).put id v).served = [] := by
    have hw : (s.hold (.node id)).Wrote D (fun _ => True) [(id, v)]
        ((s.hold (.node id)).put id v) := .put (s := s.hold (.node id)) hx hv
    have hdue : (s.hold (.node id)).due [(id, v)] = [] := by
      refine List.eq_nil_iff_forall_not_mem.2 fun j hj => ?_
      obtain ⟨⟨w, hwmem, hreach⟩, -⟩ := mem_due.1 hj
      obtain rfl := List.mem_singleton.1 hwmem
      exact Graph.not_reaches hn hnone hreach
    rw [State.served, hw.pending (congrArg Queue.pending hidle.queue), hdue, List.take_nil]
  rw [hserved] at hserves
  cases hserves
  rfl

end Engine

/-- A program that changes two signals. -/
def Program.touchBoth (x y : String) (v : Json) : Program :=
  .op (.update x v) fun _ => .op (.update y v) fun _ => .stop (.value .null)

namespace Engine

open State

/-- Both signals hold zero. -/
theorem cell_peeked {i : Nat} (hi : i ≤ 1) :
    State.peeked.cells[(⟨i⟩ : NodeId)]? = some (.signal (.int 0)) := by
  rw [cells_watched]
  rcases Nat.le_one_iff_eq_zero_or_eq_one.1 hi with rfl | rfl <;> rfl

/-- Nothing is going on. -/
theorem idle_peeked : State.peeked.Idle := ⟨rfl, rfl, fun _ => rfl⟩

private theorem writes_touchBoth (x y : String) (v : Json) (sees : String → Prop) :
    (Program.touchBoth x y v).Writes (fun _ => True) (fun _ => False) sees :=
  .op (.update x trivial) fun _ _ => .op (.update y trivial) fun _ _ => .stop trivial

/-- The effect is served behind writes, among them one of the signal that it has read: it logs what
the other one holds by then. -/
theorem of_serves_peeked {s t u : State} {logs : Json → Prop} {writes : List (NodeId × Json)}
    {f : Queue → Queue} (hs : s.Orderly (.free fun _ => 0)) (hstill : s.Still)
    (hgraph : s.graph = State.peeked.graph) (hcells : s.cells = State.peeked.cells)
    (hnames : s.names = State.peeked.names) (hw : s.Wrote (.free fun _ => 0) logs writes t)
    (hflushing : (f t.queue).flushing = true) (hread : ∃ w ∈ writes, w.1 = ⟨0⟩)
    (hserves : Serves [⟨2⟩] (t.modifyQueue f) u) :
    u.log = overlay State.peeked.stored writes ⟨1⟩ :: t.log ∧
      u.graph = (t.graph.request ⟨2⟩ .clean).setDependencies ⟨2⟩ [⟨0⟩] := by
  have hstored : State.peeked.stored = s.stored := by
    funext j
    rw [stored, stored, hcells]
  have hsignal {i : Nat} (hi : i ≤ 1) :
      t.cells[(⟨i⟩ : NodeId)]? = some (.signal (overlay State.peeked.stored writes ⟨i⟩)) := by
    rw [hstored]
    exact hw.signal (hcells ▸ cell_peeked hi)
  have hhandle (x : String) : t.handle? x = State.peeked.handle? x :=
    handle?_congr (hw.names.trans hnames) x
  -- It is dirty, since it has read what was written.
  have hmust : (t.modifyQueue f).MustRun ⟨2⟩
      { reaction := .body (.peeking "a" "b") false, scope := ⟨0⟩, runs := 1 } := by
    obtain ⟨w, hwmem, hsource⟩ := hread
    have hnode : s.graph.find? w.1 = some ⟨.source, .clean, 0, [], [⟨2⟩]⟩ := by
      rw [hgraph, hsource, find?_watched]
      rfl
    obtain ⟨m, hm, -⟩ := (alike_putAll s writes).exists_new (j := ⟨2⟩) (hgraph ▸ find?_watched ⟨2⟩)
    have heffect := hw.effect? hs ⟨2⟩
    rw [State.effect?, State.effect?, hcells] at heffect
    refine ⟨?_, rfl, m, ?_, dirty_putAll hwmem hnode List.mem_cons_self hm⟩
    · rw [← effect?_eq_some]
      refine heffect.trans ?_
      rw [cells_watched]
      rfl
    · show t.graph.find? ⟨2⟩ = some m
      rw [hw.rest]
      exact hm
  exact of_serves_peeking (t := t.modifyQueue f)
    ((hw.orderly hs).same rfl rfl rfl (fun _ hc => hc) fun _ => rfl)
    (fun j => (congrArg (Tracking.isRunning · j) hw.tracking).trans (hstill j)) hflushing
    hmust hserves rfl
    ((hhandle "a").trans (handle?_watched "a")) ((hhandle "b").trans (handle?_watched "b"))
    (hsignal (Nat.zero_le 1)) (hsignal (Nat.le_refl 1))

/-- In a batch, both signals are written when the effect runs. -/
theorem gives_batch_peeked : Gives (fun κ => batch κ (κ.exec (.touchBoth "a" "b" (.int 1))))
    State.peeked fun o t => o = .value .null ∧ t.log = [.int 1, .int 0] := by
  have henact : (Program.touchBoth "a" "b" (.int 1)).enact State.peeked.handle?
    State.peeked.stored =
      (.value .null, [(⟨0⟩, .int 1), (⟨1⟩, .int 1)]) := rfl
  refine (gives_batch orderly_peeked idle_peeked (writes_touchBoth "a" "b" (.int 1) _)
    fun _ _ => trivial).imp ?_
  rintro _ _ ⟨rfl, t, u, h, rfl⟩
  have hw := h.wrote
  have hserves := h.serves
  rw [henact] at hw
  rw [State.served, h.pending idle_peeked, henact,
    due_watched ⟨_, List.mem_cons_self, rfl⟩] at hserves
  obtain ⟨l, hl, hlog⟩ := hw.log
  obtain rfl : l = [] := List.eq_nil_iff_forall_not_mem.2 hl
  have hread := of_serves_peeked orderly_peeked.enterBatch idle_peeked.still rfl rfl rfl hw rfl
    ⟨_, List.mem_cons_self, rfl⟩ hserves
  refine ⟨rfl, ?_⟩
  show u.log = _
  rw [hread.1, hlog]
  rfl

/-- One by one, the second signal is not yet written when the effect runs, and the effect has not
read it when it is. -/
theorem gives_touchBoth_peeked : Gives (fun κ => exec κ (.touchBoth "a" "b" (.int 1)))
    State.peeked fun o t => o = .value .null ∧ t.log = [.int 0, .int 0] := by
  have ha : (State.peeked.handle? "a").bind Handle.signal? = some ⟨0⟩ := rfl
  refine (gives_touch orderly_peeked idle_peeked ha trivial).bind ?_
  rintro _ _ ⟨u, hserves, hserved, rfl⟩
  have hw : (State.peeked.hold (.node ⟨0⟩)).Wrote (.free fun _ => 0) (fun _ => False)
    [(⟨0⟩, .int 1)]
      ((State.peeked.hold (.node ⟨0⟩)).put ⟨0⟩ (.int 1)) :=
    .put (s := State.peeked.hold (.node ⟨0⟩)) ha trivial
  have hdue : State.peeked.due [(⟨0⟩, .int 1)] = [⟨2⟩] := due_watched ⟨_, List.mem_cons_self, rfl⟩
  have hpending : ((State.peeked.hold (.node ⟨0⟩)).put ⟨0⟩ (.int 1)).served = [⟨2⟩] := by
    rw [State.served, hw.pending rfl]
    exact congrArg (·.take flushLimit) hdue
  rw [hpending] at hserves hserved
  obtain ⟨hlog, hgraph⟩ := of_serves_peeked (orderly_peeked.hold _) idle_peeked.still
    rfl rfl rfl hw rfl
    ⟨_, List.mem_cons_self, rfl⟩ hserves
  -- No one has read the second signal.
  have hunread : ∃ n, u.graph.find? ⟨1⟩ = some n ∧ n.dependents = [] := by
    have hmaps := maps_put (State.peeked.hold (.node ⟨0⟩)) ⟨0⟩ (.int 1)
    obtain ⟨n, hn, hmarked⟩ := hmaps.exists_new
      (show State.peeked.graph.find? ⟨1⟩ = some ⟨.source, .clean, 0, [], []⟩ from find?_watched _)
    obtain ⟨m, hm, hmarked'⟩ := hmaps.exists_new
      (show State.peeked.graph.find? ⟨2⟩ = some ⟨.effect, .clean, 0, [⟨⟨0⟩, 0⟩],
        []⟩ from find?_watched _)
    have hdependencies : (m.request .clean).dependencies = [⟨⟨0⟩, 0⟩] := hmarked'.dependencies
    refine ⟨n, ?_, hmarked.dependents⟩
    rw [hgraph, Graph.find?_setDependencies_of_ne (Graph.find?_request_self hm .clean) (by decide)
      (by decide) (by rw [hdependencies]; decide), Graph.find?_request_of_ne (by decide)]
    exact hn
  have hlog' : u.log = [.int 0, .int 0] := by
    rw [hlog]
    show State.peeked.stored ⟨1⟩ :: [.int 0] = _
    rw [stored, cell_peeked (Nat.le_refl 1)]
  obtain ⟨n, hn, hnone⟩ := hunread
  have hx : (u.handle? "b").bind Handle.signal? = some ⟨1⟩ := by
    rw [handle?_congr (s := State.peeked) hserved.names]
    rfl
  have hheld (c : ClientId) (hc : Hold.client c ∈ u.held) : Hold.client c ∈ State.peeked.held := by
    rw [hserved.held] at hc
    exact (List.mem_cons.1 hc).resolve_left (by simp)
  refine (gives_touch_unread (s := { u with queue := {}, held := State.peeked.held })
    (hserved.orderly.same rfl rfl rfl hheld fun _ => rfl) ⟨rfl, hserved.deferred, fun j => ?_⟩
    hx (v := .int 1) trivial hn hnone).bind fun _ t ht => ⟨_, _, .of_eq fun _ => rfl, rfl, ?_⟩
  · exact (congrArg (Tracking.isRunning · j) hserved.tracking).trans (idle_peeked.still j)
  · exact ht.trans hlog'

/-- What an effect observes of signals without a trace depends on batches: it is not served again
when such a signal changes behind it. -/
theorem peeked_batch : ∃ t u,
    Yields (fun κ => batch κ (κ.exec (.touchBoth "a" "b" (.int 1)))) State.peeked (.value .null) t ∧
      Yields (fun κ => exec κ (.touchBoth "a" "b" (.int 1))) State.peeked (.value .null) u ∧
      t.log = [.int 1, .int 0] ∧ u.log = [.int 0, .int 0] := by
  obtain ⟨_, t, ht, rfl, hlog⟩ := gives_batch_peeked
  obtain ⟨_, u, hu, rfl, hlog'⟩ := gives_touchBoth_peeked
  exact ⟨t, u, ht, hu, hlog, hlog'⟩

end Engine

end Rivulet
