import Rivulet.Proofs.Hydration.Claiming

/-!
# Markup that shows what is asked for

What a template asks for is known before it draws: nodes, with what is asked for inside of them or
as a whole, and fragments between two ends. Markup shows all that if it is there, in order. Nodes of
others may stand anywhere, and texts where no further text is asked for. A walk over such markup
only claims: it meets with no fault, and leaves every node where it was.
-/

namespace Rivulet

open Markup

namespace Hydration

/-- What a template asks for. -/
inductive Imprint where
  /-- A node, and what is asked for inside of it. -/
  | node (expected : Expected) (inside : List Imprint)
  /-- A node as a whole. -/
  | whole (expected : Expected)
  /-- A fragment, and what is asked for between its ends. -/
  | fragment (inside : List Imprint)

/-- Whether a text is asked for. -/
def Imprint.isText : Imprint → Bool
  | node expected _ | whole expected => expected.isText
  | fragment _ => false

/-- The node that is asked for, if it is a single one. -/
def Imprint.expected? : Imprint → Option Expected
  | node expected _ | whole expected => some expected
  | fragment _ => none

theorem Imprint.isText_of_expected {i : Imprint} {expected : Expected}
    (h : i.expected? = some expected) : i.isText = expected.isText := by
  cases i <;> cases h <;> rfl

mutual

/-- How many nodes are asked for, the ends of fragments among them. -/
def Imprint.size : Imprint → Nat
  | node _ inside => sizes inside + 1
  | whole _ => 1
  | fragment inside => sizes inside + 2

/-- How many nodes are asked for side by side. -/
def Imprint.sizes : List Imprint → Nat
  | [] => 0
  | i :: is => i.size + sizes is

end

theorem Imprint.sizes_append (is js : List Imprint) : sizes (is ++ js) = sizes is + sizes js := by
  induction is with
  | nil => rw [List.nil_append, sizes, Nat.zero_add]
  | cons i is ih => rw [List.cons_append, sizes, sizes, ih, Nat.add_assoc]

/-- A node that fits is one that can be claimed, and is accepted. -/
theorem Expected.Fits.accepts {expected : Expected} {kind : Kind} (h : expected.Fits kind.bare) :
    expected.accepts kind = true ∧ isCandidate expected.isText kind = true := by
  generalize hk : kind.bare = bare at h
  cases h with
  | @element want tag htag =>
    cases kind with
    | element tag' attrs =>
      rw [Kind.bare, Kind.element.injEq] at hk
      obtain ⟨rfl, hkey⟩ := hk
      have hhas : attrs.has keyAttribute = true := by
        by_contra hno
        rw [if_neg hno] at hkey
        cases hkey
      exact ⟨by simpa [Expected.accepts] using htag,
        by simp [isCandidate, Kind.isForeign, hhas, Kind.isText]⟩
    | _ => simp [Kind.bare] at hk
  | text content =>
    cases kind with
    | text old => exact ⟨rfl, rfl⟩
    | _ => simp [Kind.bare] at hk
  | wrapper want =>
    cases kind with
    | wrapper w attrs =>
      obtain rfl : w = want := by simpa [Kind.bare] using hk
      exact ⟨by simp [Expected.accepts], rfl⟩
    | _ => simp [Kind.bare] at hk

/-- Whoever can be claimed where no text is asked for can be claimed in any case. -/
theorem not_candidate_mono {wantsText wantsText' : Bool} {kind : Kind}
    (hwants : wantsText' = true → wantsText = true) (h : isCandidate wantsText kind = false) :
    isCandidate wantsText' kind = false := by
  cases wantsText' with
  | false => exact silent_of_not_candidate h
  | true => rwa [hwants rfl] at h

theorem isCandidate_bare (wantsText : Bool) (kind : Kind) :
    isCandidate wantsText kind.bare = isCandidate wantsText kind := by
  rw [isCandidate, isCandidate, Kind.isForeign_bare, Kind.isText_bare]

end Hydration

namespace Document

open Hydration

variable {α : Type} {d d' : Document α} {ids js : List DomId} {is us : List Imprint} {i : Imprint}
  {k n : Nat}

/-- Nodes that stand side by side show what is asked for, with a number of other nodes among
them. -/
inductive Shows (d : Document α) : List DomId → List Imprint → Nat → Prop where
  /-- There are no nodes, and nothing is asked for. -/
  | nil : Shows d [] [] 0
  /-- A node of others, or a text where no more text is asked for. -/
  | skip {id : DomId} {ids : List DomId} {is : List Imprint} {n : Nat}
      (h : isCandidate (is.any Imprint.isText) (d.kind id).bare = false) (rest : Shows d ids is n) :
      Shows d (id :: ids) is (n + 1)
  /-- A node that fits, but is no text, with what is asked for inside. -/
  | node {id : DomId} {ids : List DomId} {expected : Expected} {us is : List Imprint} {k n : Nat}
      (own : expected.isText = false) (fits : expected.Fits (d.kind id).bare)
      (inside : Shows d (d.children id) us k) (rest : Shows d ids is n) :
      Shows d (id :: ids) (.node expected us :: is) (k + n)
  /-- A node that fits as a whole. -/
  | whole {id : DomId} {ids : List DomId} {expected : Expected} {is : List Imprint} {n : Nat}
      (fits : expected.Fits (d.kind id).bare) (rest : Shows d ids is n) :
      Shows d (id :: ids) (.whole expected :: is) n
  /-- A fragment, with what is asked for between its ends. -/
  | fragment {opening closing : DomId} {between ids : List DomId} {us is : List Imprint} {k n : Nat}
      (hopening : (d.kind opening).bare = .marker .opening)
      (hclosing : (d.kind closing).bare = .marker .closing) (inside : Shows d between us k)
      (rest : Shows d ids is n) :
      Shows d (opening :: (between ++ closing :: ids)) (.fragment us :: is) (k + n)

/-- The nodes that stand for a single thing that is asked for. -/
inductive StandsFor (d : Document α) : List DomId → Imprint → Nat → Prop where
  /-- A node that fits, with what is asked for inside. -/
  | node {id : DomId} {expected : Expected} {us : List Imprint} {k : Nat}
      (fits : expected.Fits (d.kind id).bare) (inside : d.Shows (d.children id) us k) :
      StandsFor d [id] (.node expected us) k
  /-- A node that fits. -/
  | whole {id : DomId} {expected : Expected} (fits : expected.Fits (d.kind id).bare) :
      StandsFor d [id] (.whole expected) 0
  /-- A fragment. -/
  | fragment {opening closing : DomId} {between : List DomId} {us : List Imprint} {k : Nat}
      (hopening : d.kind opening = .marker .opening) (hclosing : d.kind closing = .marker .closing)
      (inside : d.Shows between us k) :
      StandsFor d (opening :: (between ++ [closing])) (.fragment us) k

namespace Shows

/-- What is asked for depends only on the bare kinds of nodes and on what stands below them. -/
theorem congr (h : d.Shows ids is n) (hd : d.Treelike) (hsame : ∀ x ∈ ids, ∀ j, d.Below j x →
    (d'.kind j).bare = (d.kind j).bare ∧ d'.children j = d.children j) : d'.Shows ids is n := by
  have hself {id : DomId} {ids : List DomId} (hmem : id ∈ ids)
    (hsame : ∀ x ∈ ids, ∀ j, d.Below j x →
      (d'.kind j).bare = (d.kind j).bare ∧ d'.children j = d.children j) :=
    hsame id hmem id (.refl d id)
  have hbelow {id : DomId} {ids : List DomId} (hmem : id ∈ ids)
      (hsame : ∀ x ∈ ids, ∀ j, d.Below j x →
        (d'.kind j).bare = (d.kind j).bare ∧ d'.children j = d.children j) :
      ∀ x ∈ d.children id, ∀ j, d.Below j x →
        (d'.kind j).bare = (d.kind j).bare ∧ d'.children j = d.children j :=
    fun x hx j hj => hsame id hmem j (Relation.ReflTransGen.tail hj ((hd.child id x).1 hx))
  induction h with
  | nil => exact .nil
  | skip hk _ ih =>
    obtain ⟨hbare, -⟩ := hself List.mem_cons_self hsame
    exact .skip (by rwa [hbare]) (ih fun x hx => hsame x (List.mem_cons_of_mem _ hx))
  | node own fits _ _ ihinside ih =>
    obtain ⟨hbare, hchildren⟩ := hself List.mem_cons_self hsame
    refine .node own (by rwa [hbare]) ?_ (ih fun x hx => hsame x (List.mem_cons_of_mem _ hx))
    rw [hchildren]
    exact ihinside (hbelow List.mem_cons_self hsame)
  | whole fits _ ih =>
    obtain ⟨hbare, -⟩ := hself List.mem_cons_self hsame
    exact .whole (by rwa [hbare]) (ih fun x hx => hsame x (List.mem_cons_of_mem _ hx))
  | @fragment opening closing between ids _ _ _ _ hopening hclosing _ _ ihinside ih =>
    have hbare {x : DomId} (hx : x ∈ opening :: (between ++ closing :: ids)) :
        (d'.kind x).bare = (d.kind x).bare := (hself hx hsame).1
    refine .fragment (by rwa [hbare (by simp)]) (by rwa [hbare (by simp)])
      (ihinside fun x hx => hsame x ?_) (ih fun x hx => hsame x ?_)
    · exact List.mem_cons_of_mem _ (List.mem_append_left _ hx)
    · exact List.mem_cons_of_mem _ (List.mem_append_right _ (List.mem_cons_of_mem _ hx))

/-- Texts and attributes do not matter. -/
theorem tinted (h : d.Shows ids is n) (hd : d.Treelike) (ht : d.Tinted d') : d'.Shows ids is n :=
  h.congr hd fun _ _ j _ => ⟨ht.bare j, ht.children j⟩

/-- What is done elsewhere on the level does not matter. -/
theorem redrawn {p : DomId} (h : d.Shows ids is n) (hd : d.Treelike) (hr : d.Redrawn d' p [])
    (hids : ∀ x ∈ ids, x ∈ d.children p) : d'.Shows ids is n := by
  refine h.congr hd fun x hx j hj => ?_
  have hmem := hids x hx
  have hlt : j.index < d.nodes.size := by
    rcases hj.up with rfl | ⟨q, hq, -⟩
    · exact hd.holds p j hmem
    · exact hd.holds q j ((hd.child q j).2 hq)
  exact ⟨hr.bare j hlt, hr.children_apart hd (by simp) hmem (by simp) hj hlt⟩

/-- Nodes with the same trees show the same. -/
theorem of_trees (h : d.Shows ids is n) (hd : d.Treelike) {β : Type} {d' : Document β}
    (hd' : d'.Treelike) (hsame : js.map d'.tree = ids.map d.tree) : d'.Shows js is n := by
  have hkind {x y : DomId} (hxy : d'.tree y = d.tree x) : d'.kind y = d.kind x := by
    cases htree : d.tree x with
    | node kind ts => rw [hd.kind_of_tree htree, hd'.kind_of_tree (hxy.trans htree)]
  have hinside {x y : DomId} {expected : Expected} (own : expected.isText = false)
      (fits : expected.Fits (d.kind x).bare) (hxy : d'.tree y = d.tree x) :
      (d'.children y).map d'.tree = (d.children x).map d.tree := by
    have hover := hxy
    rw [hd'.tree_eq, hd.tree_eq, hkind hxy] at hover
    cases hx : d.kind x with
    | element tag attrs =>
      rw [hx] at hover
      exact (Tree.node.inj hover).2
    | wrapper w attrs =>
      rw [hx] at hover
      exact (Tree.node.inj hover).2
    | _ =>
      rw [hx] at fits
      cases expected with
      | text => cases own
      | _ => cases fits
  induction h generalizing js with
  | nil =>
    rw [List.map_nil, List.map_eq_nil_iff] at hsame
    exact hsame ▸ .nil
  | skip hk _ ih =>
    obtain ⟨y, ys, rfl, hy, hys⟩ := List.map_eq_cons_iff.1 hsame
    exact .skip (by rwa [hkind hy]) (ih hys)
  | node own fits _ _ ihinside ih =>
    obtain ⟨y, ys, rfl, hy, hys⟩ := List.map_eq_cons_iff.1 hsame
    exact .node own (by rwa [hkind hy]) (ihinside (hinside own fits hy)) (ih hys)
  | whole fits _ ih =>
    obtain ⟨y, ys, rfl, hy, hys⟩ := List.map_eq_cons_iff.1 hsame
    exact .whole (by rwa [hkind hy]) (ih hys)
  | fragment hopening hclosing _ _ ihinside ih =>
    obtain ⟨y, ys, rfl, hy, hys⟩ := List.map_eq_cons_iff.1 hsame
    rw [List.map_append] at hys
    obtain ⟨front, back, rfl, hfront, hback⟩ := List.map_eq_append_iff.1 hys
    obtain ⟨z, zs, rfl, hz, hzs⟩ := List.map_eq_cons_iff.1 hback
    exact .fragment (by rwa [hkind hy]) (by rwa [hkind hz]) (ihinside hfront) (ih hzs)

/-- What is asked for first stands behind nodes that cannot be claimed for it. -/
theorem split (h : d.Shows ids (i :: is) n) : ∃ front here rest k m, ids = front ++ (here ++ rest) ∧
    n = front.length + k + m ∧ (∀ x ∈ front, isCandidate i.isText (d.kind x) = false) ∧
      d.StandsFor here i k ∧ d.Shows rest is m := by
  generalize hlist : i :: is = l at h
  induction h with
  | nil => cases hlist
  | @skip id ids l n hk _ ih =>
    obtain ⟨front, here, rest, k, m, rfl, rfl, hfront, hhere, hrest⟩ := ih hlist
    subst hlist
    refine ⟨id :: front, here, rest, k, m, rfl, by simp only [List.length_cons]; omega,
      fun x hx => ?_, hhere, hrest⟩
    rcases List.mem_cons.1 hx with rfl | hx
    · rw [isCandidate_bare] at hk
      exact not_candidate_mono (fun htext => by simp [htext]) hk
    · exact hfront x hx
  | @node id ids _ _ _ k m _ fits inside rest _ _ =>
    cases hlist
    exact ⟨[], [id], ids, k, m, rfl, by simp, by simp, .node fits inside, rest⟩
  | @whole id ids _ _ m fits rest _ =>
    cases hlist
    exact ⟨[], [id], ids, 0, m, rfl, by simp, by simp, .whole fits, rest⟩
  | @fragment opening closing between ids _ _ k m hopening hclosing inside rest _ _ =>
    cases hlist
    exact ⟨[], opening :: (between ++ [closing]), ids, k, m, by simp, by simp, by simp,
      .fragment (Kind.eq_marker_of_bare hopening) (Kind.eq_marker_of_bare hclosing) inside, rest⟩

/-- Where nothing more is asked for there is nothing that could be left over. -/
theorem silent (h : d.Shows ids [] n) : n = ids.length ∧ ∀ x ∈ ids, Silent (d.kind x) := by
  generalize hlist : ([] : List Imprint) = l at h
  induction h with
  | nil => simp
  | @skip id ids l n hk _ ih =>
    subst hlist
    obtain ⟨rfl, hsilent⟩ := ih rfl
    refine ⟨rfl, fun x hx => ?_⟩
    rcases List.mem_cons.1 hx with rfl | hx
    · rw [isCandidate_bare] at hk
      exact hk
    · exact hsilent x hx
  | _ => cases hlist

/-- Where nothing else stands, more may be asked for behind. -/
theorem append (h : d.Shows ids is 0) (h' : d.Shows js us n) :
    d.Shows (ids ++ js) (is ++ us) n := by
  generalize hnone : 0 = k at h
  induction h with
  | nil => exact h'
  | skip => omega
  | @node id ids _ _ _ k m own fits inside _ _ ih =>
    obtain ⟨rfl, rfl⟩ : k = 0 ∧ m = 0 := by omega
    have := Shows.node own fits inside (ih rfl)
    rwa [Nat.zero_add] at this
  | whole fits _ ih => exact .whole fits (ih hnone)
  | @fragment opening closing between ids _ _ k m hopening hclosing inside _ _ ih =>
    obtain ⟨rfl, rfl⟩ : k = 0 ∧ m = 0 := by omega
    have := Shows.fragment hopening hclosing inside (ih rfl)
    rw [Nat.zero_add] at this
    simpa using this

/-- The ends of fragments come in pairs. -/
theorem closeAmong_append (h : d.Shows ids is n) (m : Nat) (l : List DomId) :
    closeAmong d.kind m (ids ++ l) = closeAmong d.kind m l := by
  have hplain {id : DomId} (hk : ∀ edge, d.kind id ≠ .marker edge) (m : Nat) (l : List DomId) :
      closeAmong d.kind m (id :: l) = closeAmong d.kind m l := by
    rw [closeAmong_cons, if_neg (hk _), if_neg (hk _)]
  have hfits {id : DomId} {expected : Expected} (hk : expected.Fits (d.kind id).bare)
    (edge : Edge) :
      d.kind id ≠ .marker edge := by
    intro hmarker
    rw [hmarker] at hk
    cases hk
  induction h generalizing m l with
  | nil => rfl
  | skip hk _ ih =>
    rw [List.cons_append, hplain (fun edge hmarker => ?_), ih]
    rw [hmarker] at hk
    simp [isCandidate, Kind.bare, Kind.isForeign, Kind.isText] at hk
  | node _ fits _ _ _ ih => rw [List.cons_append, hplain (hfits fits), ih]
  | whole fits _ ih => rw [List.cons_append, hplain (hfits fits), ih]
  | fragment hopening hclosing _ _ ihinside ih =>
    rw [List.cons_append, closeAmong_cons, if_pos (Kind.eq_marker_of_bare hopening),
      List.append_assoc,
      ihinside, List.cons_append, closeAmong_cons, Kind.eq_marker_of_bare hclosing]
    simp [ih]

end Shows

namespace StandsFor

/-- Whatever is asked for, the first of the nodes that stand for it can be claimed. -/
theorem head (h : d.StandsFor ids i k) :
    ∃ id l, ids = id :: l ∧ isCandidate i.isText (d.kind id) = true := by
  cases h with
  | node fits _ => exact ⟨_, [], rfl, fits.accepts.2⟩
  | whole fits => exact ⟨_, [], rfl, fits.accepts.2⟩
  | fragment hopening _ _ => exact ⟨_, _, rfl, by rw [hopening]; rfl⟩

/-- What stands for a node that is asked for is a node that fits. -/
theorem single (h : d.StandsFor ids i k) {expected : Expected} (hi : i.expected? = some expected) :
    ∃ id, ids = [id] ∧ expected.Fits (d.kind id).bare := by
  cases h with
  | node fits _ =>
    cases hi
    exact ⟨_, rfl, fits⟩
  | whole fits =>
    cases hi
    exact ⟨_, rfl, fits⟩
  | fragment => cases hi

/-- Nothing is passed over inside of a node that is asked for as a whole. -/
theorem eq_zero {expected : Expected} (h : d.StandsFor ids (.whole expected) k) : k = 0 := by
  cases h
  rfl

/-- What is asked for inside of a node is shown there. -/
theorem inside {expected : Expected} (h : d.StandsFor ids (.node expected us) k) :
    ∃ id, ids = [id] ∧ d.Shows (d.children id) us k := by
  cases h with
  | node _ inside => exact ⟨_, rfl, inside⟩

/-- Texts and attributes do not matter. -/
theorem tinted (h : d.StandsFor ids i k) (hd : d.Treelike) (ht : d.Tinted d') :
    d'.StandsFor ids i k := by
  cases h with
  | node fits inside =>
    refine .node (by rwa [ht.bare]) ?_
    rw [ht.children]
    exact inside.tinted hd ht
  | whole fits => exact .whole (by rwa [ht.bare])
  | fragment hopening hclosing inside =>
    exact .fragment ((marker_iff_of_bare (ht.bare _) _).2 hopening)
      ((marker_iff_of_bare (ht.bare _) _).2 hclosing) (inside.tinted hd ht)

end StandsFor

end Document

end Rivulet
