import Rivulet.Proofs.Graph.Propagation

/-!
# What recorded epochs tell

A graph is faithful to what its nodes keep if each node that need not run shows what comes of some
values of the nodes it read, where the ones that have not changed since keep those values still.
If it is clean, none has changed. Marking, running and changing nodes keeps this.
-/

namespace Rivulet.Graph

variable {α : Type} {g : Graph} {running running' : NodeId → Bool} {kept kept' : NodeId → α}
  {shows shows' : NodeId → (NodeId → α) → Prop}

/-- How often a node has changed. -/
def changes? (g : Graph) (id : NodeId) : Option Nat := (g.find? id).map (·.changes)

theorem changes?_eq {id : NodeId} {n : Node} (h : g.find? id = some n) :
    g.changes? id = some n.changes := by
  rw [changes?, h, Option.map_some]

/-- A live node that is no computed value, or a computed value that is clean and does not run. -/
def Sure (g : Graph) (running : NodeId → Bool) (id : NodeId) : Prop :=
  ∃ n, g.find? id = some n ∧ (n.kind = .derived → n.mark = .clean ∧ running id = false)

/-- Marks and recorded epochs tell how what a node shows comes from what the nodes it read keep. -/
structure Faithful (g : Graph) (running : NodeId → Bool) (kept : NodeId → α)
    (shows : NodeId → (NodeId → α) → Prop) : Prop where
  /-- What a node read is there, and knows of it. -/
  linked : ∀ id n, g.find? id = some n → n.kind ≠ .source → ∀ seen ∈ n.dependencies,
    ∃ m, g.find? seen.node = some m ∧ m.kind ≠ .effect ∧ id ∈ m.dependents ∧
      seen.epoch.toNat ≤ m.changes
  /-- Nothing that a clean node read has changed. -/
  clean : ∀ id n, g.find? id = some n → n.kind ≠ .source → n.mark = .clean → running id = false →
    ∀ seen ∈ n.dependencies, g.epoch? seen.node = some seen.epoch ∧ g.Sure running seen.node
  /-- A node that need not run shows what came of the values that it read. -/
  settled : ∀ id n, g.find? id = some n → n.kind ≠ .source → n.mark ≠ .dirty →
    running id = false → ∃ val : NodeId → α,
      (∀ val', (∀ seen ∈ n.dependencies, val' seen.node = val seen.node) → shows id val') ∧
      ∀ seen ∈ n.dependencies, g.changes? seen.node = some seen.epoch.toNat →
        val seen.node = kept seen.node

/-- Nodes that do not run may come to show more. -/
theorem Faithful.imp (h : g.Faithful running kept shows)
    (hshows : ∀ id, running id = false → ∀ val, shows id val → shows' id val) :
    g.Faithful running kept shows' where
  linked := h.linked
  clean := h.clean
  settled id n hn hk hdirty hstill := by
    obtain ⟨val, hval, hkept⟩ := h.settled id n hn hk hdirty hstill
    exact ⟨val, fun val' hval' => hshows id hstill val' (hval val' hval'), hkept⟩

theorem find?_request_of_ne {id j : NodeId} (h : j ≠ id) (mark : Mark) :
    (g.request id mark).find? j = g.find? j :=
  find?_modify_of_ne g h _

theorem find?_request_self {id : NodeId} {n : Node} (h : g.find? id = some n) (mark : Mark) :
    (g.request id mark).find? id = some (n.request mark) := by
  rw [request, find?_modify_self, h, Option.map_some]

/-- Asking for a mark changes nothing but the mark of the node. -/
theorem maps_request (g : Graph) (id : NodeId) (mark : Mark) :
    Maps (fun j m m' => m'.kind = m.kind ∧ m'.changes = m.changes ∧
      m'.dependencies = m.dependencies ∧ m'.dependents = m.dependents ∧ (j ≠ id → m' = m))
      g (g.request id mark) := by
  refine maps_modify (fun _ _ => ⟨rfl, rfl, rfl, rfl, fun _ => rfl⟩) g id fun n _ => ?_
  exact ⟨rfl, rfl, rfl, rfl, fun hne => absurd rfl hne⟩

/-- Nodes that have changed as often have the same epoch. -/
theorem epoch?_of_changes {g g' : Graph} {id : NodeId}
    (h : g'.changes? id = g.changes? id) : g'.epoch? id = g.epoch? id := by
  have hepoch (g : Graph) : g.epoch? id = (g.changes? id).map .ofNat := by
    rw [epoch?, changes?, Option.map_map]
    rfl
  rw [hepoch, hepoch, h]

theorem Maps.changes?_eq {R : NodeId → Node → Node → Prop} {g g' : Graph} {id : NodeId}
    (h : Maps R g g') (hR : ∀ n n', R id n n' → n'.changes = n.changes) :
    g'.changes? id = g.changes? id :=
  h.map_eq hR

theorem changes?_request (g : Graph) (id : NodeId) (mark : Mark) (j : NodeId) :
    (g.request id mark).changes? j = g.changes? j :=
  (maps_request g id mark).changes?_eq fun _ _ h => h.2.1

/-- What is sure stays so when a node that was not clean is called clean. -/
theorem Sure.request {id : NodeId} {n : Node} (hn : g.find? id = some n) (hmark : n.mark ≠ .clean)
    (hothers : ∀ j, j ≠ id → running' j = running j) {j : NodeId} (hj : g.Sure running j) :
    (g.request id .clean).Sure running' j := by
  obtain ⟨m, hm, hsure⟩ := hj
  obtain ⟨m', hm', hkind, -, -, -, hsame⟩ := (maps_request g id .clean).exists_new hm
  refine ⟨m', hm', fun hderived => ?_⟩
  rw [hkind] at hderived
  have hne : j ≠ id := by
    rintro rfl
    rw [hn, Option.some.injEq] at hm
    exact hmark (hm ▸ (hsure hderived).1)
  rw [hsame hne, hothers j hne]
  exact hsure hderived

/-- Calling a node clean that was not, because it starts to run, or because nothing that it read
has changed. -/
theorem Faithful.request (h : g.Faithful running kept shows) {id : NodeId} {n : Node}
    (hn : g.find? id = some n) (hmark : n.mark ≠ .clean)
    (hothers : ∀ j, j ≠ id → running' j = running j)
    (hself : running' id = true ∨ n.mark ≠ .dirty ∧ running id = false ∧
      ∀ seen ∈ n.dependencies, g.epoch? seen.node = some seen.epoch ∧ g.Sure running seen.node) :
    (g.request id .clean).Faithful running' kept shows := by
  have hmaps := maps_request g id .clean
  have hepoch (j : NodeId) : (g.request id .clean).epoch? j = g.epoch? j :=
    epoch?_of_changes (changes?_request g id .clean j)
  constructor
  · intro j m' hm' hk seen hseen
    obtain ⟨m, hm, hkind, -, hdeps, -⟩ := hmaps.exists_old hm'
    rw [hdeps] at hseen
    obtain ⟨d, hd, hdk, hread, hle⟩ := h.linked j m hm (hkind ▸ hk) seen hseen
    obtain ⟨d', hd', hdk', hdc, -, hdd, -⟩ := hmaps.exists_new hd
    exact ⟨d', hd', by rwa [hdk'], by rwa [hdd], by rwa [hdc]⟩
  · intro j m' hm' hk hclean hrun seen hseen
    obtain ⟨m, hm, hkind, -, hdeps, -, hsame⟩ := hmaps.exists_old hm'
    rw [hdeps] at hseen
    rw [hepoch]
    have hbefore : g.epoch? seen.node = some seen.epoch ∧ g.Sure running seen.node := by
      by_cases hj : j = id
      · subst hj
        rw [hn, Option.some.injEq] at hm
        subst hm
        rcases hself with hself | ⟨-, -, hunchanged⟩
        · simp [hself] at hrun
        · exact hunchanged seen hseen
      · rw [hsame hj] at hclean
        rw [hothers j hj] at hrun
        exact h.clean j m hm (hkind ▸ hk) hclean hrun seen hseen
    exact ⟨hbefore.1, hbefore.2.request hn hmark hothers⟩
  · intro j m' hm' hk hdirty hrun
    obtain ⟨m, hm, hkind, -, hdeps, -, hsame⟩ := hmaps.exists_old hm'
    have hbefore : m.mark ≠ .dirty ∧ running j = false := by
      by_cases hj : j = id
      · subst hj
        rw [hn, Option.some.injEq] at hm
        subst hm
        rcases hself with hself | ⟨hdirty, hstill, -⟩
        · simp [hself] at hrun
        · exact ⟨hdirty, hstill⟩
      · rw [hsame hj] at hdirty
        rw [hothers j hj] at hrun
        exact ⟨hdirty, hrun⟩
    obtain ⟨val, hval, hkept⟩ := h.settled j m hm (hkind ▸ hk) hbefore.1 hbefore.2
    rw [hdeps]
    refine ⟨val, hval, fun seen hseen hchanges => hkept seen hseen ?_⟩
    rw [← changes?_request g id .clean, hchanges]

/-! ## The end of a run -/

/-- What a clean node read does not run, and is no effect. -/
theorem Faithful.unread (h : g.Faithful running kept shows) {id : NodeId} {n : Node}
    (hn : g.find? id = some n) (hkind : n.kind ≠ .source) (hrun : running id = true) {j : NodeId}
    {m : Node} (hm : g.find? j = some m) (hk : m.kind ≠ .source) (hclean : m.mark = .clean)
    (hj : running j = false) {seen : Observed} (hseen : seen ∈ m.dependencies) :
    seen.node ≠ id := by
  intro heq
  obtain ⟨d, hd, hdk, -⟩ := h.linked j m hm hk seen hseen
  obtain ⟨-, k, hk', hsure⟩ := h.clean j m hm hk hclean hj seen hseen
  rw [heq, hn, Option.some.injEq] at hd hk'
  subst hd hk'
  have hderived : n.kind = .derived := by
    cases hnk : n.kind <;> simp_all
  have := (hsure hderived).2
  simp [heq, hrun] at this

/-- What is sure and does not run stays so when another node has read. -/
theorem Sure.setDependencies {id : NodeId} {n : Node} (hn : g.find? id = some n)
    (hothers : ∀ j, j ≠ id → running' j = running j) (reads : List NodeId) {j : NodeId}
    (hne : j ≠ id) (hj : g.Sure running j) : (g.setDependencies id reads).Sure running' j := by
  obtain ⟨m, hm, hsure⟩ := hj
  obtain ⟨m', hm', hr⟩ := (maps_setDependencies hn reads).exists_new hm
  rw [if_neg hne] at hr
  refine ⟨m', hm', fun hderived => ?_⟩
  rw [hr.mark, hothers j hne]
  exact hsure (hr.kind ▸ hderived)

private theorem changes?_setDependencies {id : NodeId} {n : Node} (hn : g.find? id = some n)
    (reads : List NodeId) (j : NodeId) : (g.setDependencies id reads).changes? j =
    g.changes? j := by
  refine (maps_setDependencies hn reads).changes?_eq fun m m' hr => hr.changes.trans ?_
  split <;> rfl

/-- At the end of its run a node shows what comes of what the nodes it read keep. -/
theorem Faithful.setDependencies (h : g.Faithful running kept shows) {id : NodeId} {n : Node}
    (hn : g.find? id = some n) (hkind : n.kind ≠ .source) (hrun : running id = true)
    (hothers : ∀ j, j ≠ id → running' j = running j) {reads : List NodeId}
    (hreads : ∀ r ∈ reads, r ≠ id ∧ g.Sure running r ∧ ∀ m, g.find? r = some m → m.kind ≠ .effect)
    (hsame : ∀ j, j ≠ id → ∀ val, shows j val → shows' j val)
    (hshows : ∀ val, (∀ r ∈ reads, val r = kept r) → shows' id val) :
    (g.setDependencies id reads).Faithful running' kept shows' := by
  have hmaps := maps_setDependencies hn reads
  have hchanges := changes?_setDependencies hn reads
  have hepoch (j : NodeId) : (g.setDependencies id reads).epoch? j = g.epoch? j :=
    epoch?_of_changes (hchanges j)
  -- What has been recorded for the node itself, and what was for the others.
  have hself {m' : Node} (hm' : (g.setDependencies id reads).find? id = some m') :
      m'.dependencies = g.observe reads := by
    obtain ⟨m, -, hr⟩ := hmaps.exists_old hm'
    rw [if_pos rfl] at hr
    exact hr.dependencies
  have hother {j : NodeId} (hj : j ≠ id) {m' : Node}
      (hm' : (g.setDependencies id reads).find? j = some m') :
      ∃ m, g.find? j = some m ∧ Rewired id m m' := by
    obtain ⟨m, hm, hr⟩ := hmaps.exists_old hm'
    rw [if_neg hj] at hr
    exact ⟨m, hm, hr⟩
  have hsource {d : NodeId} {m : Node} (hd : g.find? d = some m) :
      ∃ m', (g.setDependencies id reads).find? d = some m' ∧ m'.kind = m.kind ∧
        m'.changes = m.changes ∧ ∀ c, c ≠ id → (c ∈ m'.dependents ↔ c ∈ m.dependents) := by
    obtain ⟨m', hm', hr⟩ := hmaps.exists_new hd
    refine ⟨m', hm', hr.kind.trans ?_, hr.changes.trans ?_,
      fun c hc => (hr.dependents c hc).trans ?_⟩ <;>
      split <;> rfl
  constructor
  · intro j m' hm' hk seen hseen
    by_cases hj : j = id
    · subst hj
      rw [hself hm', mem_observe] at hseen
      obtain ⟨hmem, hobserved⟩ := hseen
      obtain ⟨-, ⟨d, hd, -⟩, heffect⟩ := hreads _ hmem
      obtain ⟨d', hd', hdk, hdc, -⟩ := hsource hd
      refine ⟨d', hd', by rw [hdk]; exact heffect d hd,
        mem_dependents_setDependencies hn hmem hd', ?_⟩
      rw [epoch?_eq hd, Option.some.injEq] at hobserved
      rw [hdc, ← hobserved, Node.epoch, UInt64.toNat_ofNat']
      exact Nat.mod_le _ _
    · obtain ⟨m, hm, hr⟩ := hother hj hm'
      rw [hr.dependencies] at hseen
      obtain ⟨d, hd, hdk, hread, hle⟩ := h.linked j m hm (hr.kind ▸ hk) seen hseen
      obtain ⟨d', hd', hdk', hdc, hdd⟩ := hsource hd
      exact ⟨d', hd', by rwa [hdk'], (hdd j hj).2 hread, by rwa [hdc]⟩
  · intro j m' hm' hk hclean hstill seen hseen
    rw [hepoch]
    by_cases hj : j = id
    · subst hj
      rw [hself hm', mem_observe] at hseen
      obtain ⟨hne, hsure, -⟩ := hreads _ hseen.1
      exact ⟨hseen.2, hsure.setDependencies hn hothers reads hne⟩
    · obtain ⟨m, hm, hr⟩ := hother hj hm'
      rw [hr.dependencies] at hseen
      rw [hr.mark] at hclean
      rw [hothers j hj] at hstill
      obtain ⟨hobserved, hsure⟩ := h.clean j m hm (hr.kind ▸ hk) hclean hstill seen hseen
      have hne := h.unread hn hkind hrun hm (hr.kind ▸ hk) hclean hstill hseen
      exact ⟨hobserved, hsure.setDependencies hn hothers reads hne⟩
  · intro j m' hm' hk hdirty hstill
    by_cases hj : j = id
    · subst hj
      rw [hself hm']
      refine ⟨kept, fun val' hval' => hshows val' fun r hr => ?_, fun _ _ _ => rfl⟩
      obtain ⟨-, ⟨d, hd, -⟩, -⟩ := hreads r hr
      exact hval' ⟨r, d.epoch⟩ (mem_observe.2 ⟨hr, epoch?_eq hd⟩)
    · obtain ⟨m, hm, hr⟩ := hother hj hm'
      rw [hr.mark] at hdirty
      rw [hothers j hj] at hstill
      obtain ⟨val, hval, hkept⟩ := h.settled j m hm (hr.kind ▸ hk) hdirty hstill
      rw [hr.dependencies]
      refine ⟨val, fun val' hval' => hsame j hj val' (hval val' hval'), fun seen hseen hc => ?_⟩
      rw [hchanges] at hc
      exact hkept seen hseen hc

/-- A node changes, and trust is lowered where it must be: nothing that is clean behind that has
read the node, or a derived node that was clean and is not any more. -/
theorem Faithful.change {g' : Graph} (h : g.Faithful running kept shows) {id : NodeId}
    (hmaps : Maps (fun j m m' => Marked (if j = id then m.bump else m) m') g g')
    (hfree : ∀ j m', g'.find? j = some m' → m'.kind ≠ .source → m'.mark = .clean →
      running j = false → ∀ seen ∈ m'.dependencies, seen.node ≠ id ∧
        ∀ d d', g.find? seen.node = some d → d.kind = .derived → d.mark = .clean →
          g'.find? seen.node = some d' → d'.mark = .clean)
    (hkept : ∀ j, j ≠ id → kept' j = kept j) : g'.Faithful running kept' shows := by
  -- What became of a node.
  have hbehind {j : NodeId} {m m' : Node} (hr : Marked (if j = id then m.bump else m) m') :
      m'.kind = m.kind ∧ m'.dependencies = m.dependencies ∧ m'.dependents = m.dependents ∧
        m.changes ≤ m'.changes ∧ (m'.mark = .clean → m.mark = .clean) ∧
        (m.mark = .dirty → m'.mark = .dirty) := by
    by_cases hj : j = id
    · rw [if_pos hj] at hr
      exact ⟨hr.kind, hr.dependencies, hr.dependents, hr.changes ▸ Nat.le_succ _,
        hr.clean, hr.dirty⟩
    · rw [if_neg hj] at hr
      exact ⟨hr.kind, hr.dependencies, hr.dependents, Nat.le_of_eq hr.changes.symm,
        hr.clean, hr.dirty⟩
  have hchanges {j : NodeId} (hj : j ≠ id) : g'.changes? j = g.changes? j :=
    hmaps.changes?_eq fun m m' hr => by
      rw [if_neg hj] at hr
      exact hr.changes
  constructor
  · intro j m' hm' hk seen hseen
    obtain ⟨m, hm, hr⟩ := hmaps.exists_old hm'
    obtain ⟨hkind, hdeps, -⟩ := hbehind hr
    rw [hdeps] at hseen
    obtain ⟨d, hd, hdk, hread, hle⟩ := h.linked j m hm (hkind ▸ hk) seen hseen
    obtain ⟨d', hd', hdr⟩ := hmaps.exists_new hd
    obtain ⟨hdkind, -, hdd, hdle, -⟩ := hbehind hdr
    exact ⟨d', hd', by rwa [hdkind], by rwa [hdd], Nat.le_trans hle hdle⟩
  · intro j m' hm' hk hclean hstill seen hseen
    obtain ⟨hne, hstays⟩ := hfree j m' hm' hk hclean hstill seen hseen
    obtain ⟨m, hm, hr⟩ := hmaps.exists_old hm'
    obtain ⟨hkind, hdeps, -, -, hmclean, -⟩ := hbehind hr
    rw [hdeps] at hseen
    obtain ⟨hobserved, d, hd, hsure⟩ :=
      h.clean j m hm (hkind ▸ hk) (hmclean hclean) hstill seen hseen
    obtain ⟨d', hd', hdr⟩ := hmaps.exists_new hd
    refine ⟨by rw [epoch?_of_changes (hchanges hne), hobserved], d', hd', fun hderived => ?_⟩
    rw [(hbehind hdr).1] at hderived
    obtain ⟨hdclean, hdstill⟩ := hsure hderived
    exact ⟨hstays d d' hd hderived hdclean hd', hdstill⟩
  · intro j m' hm' hk hdirty hstill
    obtain ⟨m, hm, hr⟩ := hmaps.exists_old hm'
    obtain ⟨hkind, hdeps, -, -, -, hmdirty⟩ := hbehind hr
    obtain ⟨val, hval, hsame⟩ :=
      h.settled j m hm (hkind ▸ hk) (fun hd => hdirty (hmdirty hd)) hstill
    rw [hdeps]
    refine ⟨val, hval, fun seen hseen hc => ?_⟩
    -- A source that has changed since has changed more often than was recorded.
    have hne : seen.node ≠ id := by
      intro heq
      obtain ⟨d, hd, -, -, hle⟩ := h.linked j m hm (hkind ▸ hk) seen hseen
      obtain ⟨d', hd', hdr⟩ := hmaps.exists_new hd
      rw [if_pos heq] at hdr
      rw [changes?_eq hd', Option.some.injEq, hdr.changes] at hc
      have hsucc : d.bump.changes = d.changes + 1 := rfl
      omega
    rw [hchanges hne] at hc
    rw [hkept _ hne]
    exact hsame seen hseen hc

/-- A node that nothing clean has read keeps something else. -/
theorem Faithful.bump (h : g.Faithful running kept shows) {id : NodeId}
    (hfree : ∀ j m, g.find? j = some m → m.kind ≠ .source → m.mark = .clean → running j = false →
      ∀ seen ∈ m.dependencies, seen.node ≠ id)
    (hkept : ∀ j, j ≠ id → kept' j = kept j) : (g.bump id).Faithful running kept' shows := by
  have hmaps : Maps (fun j m m' => m' = if j = id then m.bump else m) g (g.bump id) := by
    intro j
    by_cases hj : j = id
    · subst hj
      rw [Graph.bump, find?_modify_self]
      cases g.find? j <;> simp
    · rw [Graph.bump, find?_modify_of_ne g hj]
      cases g.find? j <;> simp [hj]
  have hmarked : Maps (fun j m m' => Marked (if j = id then m.bump else m) m') g (g.bump id) :=
    hmaps.imp fun _ _ _ hr => hr ▸ Marked.refl _
  refine h.change hmarked ?_ hkept
  · intro j m' hm' hk hclean hstill seen hseen
    obtain ⟨m, hm, rfl⟩ := hmaps.exists_old hm'
    have hsame : (if j = id then m.bump else m).kind = m.kind ∧
        (if j = id then m.bump else m).mark = m.mark ∧
        (if j = id then m.bump else m).dependencies = m.dependencies := by
      split <;> exact ⟨rfl, rfl, rfl⟩
    rw [hsame.1] at hk
    rw [hsame.2.1] at hclean
    rw [hsame.2.2] at hseen
    have hne := hfree j m hm hk hclean hstill seen hseen
    refine ⟨hne, fun d d' hd _ hdclean hd' => ?_⟩
    rw [Graph.bump, find?_modify_of_ne g hne, hd, Option.some.injEq] at hd'
    exact hd' ▸ hdclean

/-- A change of a node that is made known to all that read it. -/
theorem Faithful.markChanged (h : g.Faithful running kept shows) {id : NodeId} {n : Node}
    (hn : g.find? id = some n) (hkept : ∀ j, j ≠ id → kept' j = kept j) :
    (g.markChanged id).1.Faithful running kept' shows := by
  have hmaps := maps_markChanged hn
  refine h.change hmaps ?_ hkept
  intro j m' hm' hk hclean hstill seen hseen
  obtain ⟨hunread, hstays⟩ := clean_markChanged hn hm' hclean
  obtain ⟨m, hm, hr⟩ := hmaps.exists_old hm'
  have hsame : m'.kind = m.kind ∧ m'.dependencies = m.dependencies := by
    by_cases hj : j = id
    · rw [if_pos hj] at hr
      exact ⟨hr.kind, hr.dependencies⟩
    · rw [if_neg hj] at hr
      exact ⟨hr.kind, hr.dependencies⟩
  rw [hsame.2] at hseen
  obtain ⟨d, hd, -, hread, -⟩ := h.linked j m hm (hsame.1 ▸ hk) seen hseen
  refine ⟨?_, ?_⟩
  · intro heq
    rw [heq, hn, Option.some.injEq] at hd
    exact hunread (hd ▸ hread)
  · intro k k' hk' hderived hkclean hbehind
    rw [hd, Option.some.injEq] at hk'
    subst hk'
    exact hstays seen.node d k' hd hderived hread hkclean hbehind

end Rivulet.Graph
