import Rivulet.Proofs.Document.Gaining
import Rivulet.Proofs.Drafting.Templates

/-!
# What a template stands for

A template stands for a list of trees: what it claims, the fragments and texts that it puts, and for
each region, insert and boundary what its own program stands for, in the order of the program. What
it reads is told beforehand. A walk that creates puts just these trees where it stands, and leaves
everything else as it is.
-/

namespace Rivulet

open Markup Hydration

/-- The trees that were put on each level that is open, the innermost first. -/
abbrev Levels := List (List Tree)

namespace Levels

/-- Puts trees behind those on the innermost level. -/
def put (ts : List Tree) : Levels → Levels
  | level :: levels => (level ++ ts) :: levels
  | [] => []

/-- Opens a level in the last tree of the innermost one. -/
def enter : Levels → Option Levels
  | level :: levels => if level = [] then none else some ([] :: level :: levels)
  | [] => none

/-- Ends the innermost level: it was opened in the last tree of the one around it. -/
def leave : Levels → Option Levels
  | ts :: level :: levels => if level = [] then none else some (graft ts level :: levels)
  | _ => none

/-- The trees on a level that is the only one. -/
def only? : Levels → Option (List Tree)
  | [ts] => some ts
  | _ => none

/-- The levels with some trees in front of those on the outermost one. -/
def behind (front : List Tree) : Levels → Levels
  | [] => []
  | [level] => [front ++ level]
  | ts :: level :: levels => ts :: behind front (level :: levels)

theorem only?_eq_some {levels : Levels} {ts : List Tree} (h : levels.only? = some ts) :
    levels = [ts] := by
  match levels with
  | [] => cases h
  | [_] => rw [Option.some.inj h]
  | _ :: _ :: _ => cases h

theorem put_behind (front ts : List Tree) (levels : Levels) :
    (behind front levels).put ts = behind front (levels.put ts) := by
  match levels with
  | [] => rfl
  | [level] => exact congrArg (· :: []) (List.append_assoc front level ts)
  | _ :: _ :: _ => rfl

theorem enter_behind (front : List Tree) {levels levels' : Levels}
    (h : levels.enter = some levels') :
    (behind front levels).enter = some (behind front levels') := by
  match levels with
  | [] => cases h
  | level :: levels =>
    rw [enter] at h
    split at h
    · cases h
    · next hne =>
      cases h
      cases levels with
      | nil => rw [behind, behind, behind, enter, if_neg (by simp [hne])]
      | cons _ _ =>
        rw [behind, enter, if_neg hne]
        rfl

theorem leave_behind (front : List Tree) {levels levels' : Levels}
    (h : levels.leave = some levels') :
    (behind front levels).leave = some (behind front levels') := by
  match levels with
  | [] => cases h
  | [_] => cases h
  | ts :: level :: levels =>
    rw [leave] at h
    split at h
    · cases h
    · next hne =>
      cases h
      cases levels with
      | nil =>
        rw [behind, behind, behind, leave, if_neg (by simp [hne]), graft_append ts front hne]
      | cons _ _ =>
        rw [behind, behind, behind, leave, if_neg hne]

end Levels

/-- What a call does to the levels that are open, if it draws. -/
def Op.draws? : Op → Levels → Option Levels
  | .claim expected attrs _, levels => some (levels.put [.leaf (expected.kind attrs)])
  | .staticText content _, levels => some (levels.put [.leaf (.text content)])
  | .append fragment _, levels => some (levels.put [fragment.tree])
  | .enter, levels => levels.enter
  | .exit, levels => levels.leave
  | _, _ => none

/-- The name of the node that a call provides. -/
def Op.name? : Op → Option String
  | .claim _ _ name | .staticText _ name | .append _ name => name
  | _ => none

theorem Op.draws?_behind (front : List Tree) {o : Op} {levels levels' : Levels}
    (h : o.draws? levels = some levels') :
    o.draws? (levels.behind front) = some (levels'.behind front) := by
  cases o with
  | claim expected attrs name =>
    cases h
    exact congrArg some (Levels.put_behind front _ levels)
  | staticText content name =>
    cases h
    exact congrArg some (Levels.put_behind front _ levels)
  | append fragment name =>
    cases h
    exact congrArg some (Levels.put_behind front _ levels)
  | enter => exact Levels.enter_behind front h
  | exit => exact Levels.leave_behind front h
  | _ => cases h

/-- The trees between the ends of a fragment. -/
def Markup.enclosed (ts : List Tree) : List Tree :=
  .leaf (.marker .opening) :: (ts ++ [.leaf (.marker .closing)])

/-- The name of the node that is put for a program. -/
def Install.name? : Install → Option String
  | .dynText name | .region name | .insert name => name
  | _ => none

/-- What is put for a program, given what the program comes to if it only looks, and what it puts on
a level of its own if it draws. -/
def Install.draws? (told : Option Json) (inside : Option (List Tree)) : Install → Option (List Tree)
  | .dynText _ => told.map fun v => [.leaf (.text v.display)]
  | .region _ => inside.map fun ts => [.node (.wrapper .region []) ts]
  | .insert _ =>
    told.map fun v => [.node (.wrapper .insert []) (Fragment.trees (v.items.map Fragment.ofJson))]
  | .boundary => inside.map enclosed
  | _ => none

/-- What is told of a template before it draws. -/
structure Outlook where
  /-- What a look answers, if that is known. -/
  answer? : Op → Option (Option Json)
  /-- Whether a name may be given to a node. -/
  free : String → Bool

namespace Program

variable (e : Outlook)

/-- What a program that only looks comes to. -/
def foretell : Program → Option Json
  | .stop (.value v) => some v
  | .op o next => (e.answer? o).bind fun a => (next a).foretell
  | .within .plain body next => body.foretell.bind fun v => (next (.value v) none).foretell
  | _ => none

/-- What a template comes to, and what it puts on the levels that are open. -/
def sketch : Program → Levels → Option (Json × Levels)
  | .stop (.value v), levels => some (v, levels)
  | .op o next, levels =>
    match e.answer? o with
    | some a => (next a).sketch levels
    | none =>
      if o.name?.all e.free then (o.draws? levels).bind fun levels => (next none).sketch levels
      else none
  | .within .plain body next, levels =>
    (body.sketch levels).bind fun (v, levels) => (next (.value v) none).sketch levels
  | .install i body next, levels =>
    if i.name?.all e.free then
      (i.draws? ((body .null).foretell e) (((body .null).sketch [[]]).bind (·.2.only?))).bind
        fun ts => (next none).sketch (levels.put ts)
    else none
  | .guarded _ content next, levels =>
    ((content.sketch [[]]).bind (·.2.only?)).bind fun ts => next.sketch (levels.put (enclosed ts))
  | _, _ => none

variable {e}

/-- What a template puts comes behind what is there. -/
theorem sketch_behind (front : List Tree) {p : Program} {levels levels' : Levels} {v : Json}
    (h : p.sketch e levels = some (v, levels')) :
    p.sketch e (levels.behind front) = some (v, levels'.behind front) := by
  fun_induction sketch e p levels generalizing v levels' with
  | case1 v levels =>
    cases h
    rfl
  | case2 o next levels a answers ih =>
    rw [sketch, answers]
    exact ih h
  | case3 o next levels unknown free ih =>
    obtain ⟨levels₁, hdraws, hrest⟩ := Option.bind_eq_some_iff.1 h
    simp only [sketch, unknown, free, if_true, Op.draws?_behind front hdraws, Option.bind_some]
    exact ih levels₁ hrest
  | case5 body next levels ih ih' =>
    obtain ⟨⟨u, levels₁⟩, hbody, hrest⟩ := Option.bind_eq_some_iff.1 h
    rw [sketch, ih hbody]
    exact ih' u levels₁ hrest
  | case6 i body next levels free _ ih =>
    obtain ⟨ts, hdraws, hrest⟩ := Option.bind_eq_some_iff.1 h
    rw [sketch, if_pos free, hdraws, Option.bind_some, Levels.put_behind]
    exact ih ts hrest
  | case8 fallback content next levels _ ih =>
    obtain ⟨ts, hdraws, hrest⟩ := Option.bind_eq_some_iff.1 h
    rw [sketch, hdraws, Option.bind_some, Levels.put_behind]
    exact ih ts hrest
  | _ => cases h

/-- A template stands for some trees. -/
def StandsFor (p : Program) (e : Outlook) (ts : List Tree) : Prop :=
  ∃ v, p.sketch e [[]] = some (v, [ts])

/-- One program after the other. -/
def andThen (p q : Program) : Program := .within .plain p fun _ _ => q

/-- Two templates one after the other stand for the trees of the first and then those of the
second. -/
theorem StandsFor.andThen {p q : Program} {ts us : List Tree} (hp : p.StandsFor e ts)
    (hq : q.StandsFor e us) : (p.andThen q).StandsFor e (ts ++ us) := by
  obtain ⟨v, hp⟩ := hp
  obtain ⟨u, hq⟩ := hq
  have hbehind := sketch_behind ts hq
  rw [Levels.behind, Levels.behind, List.append_nil] at hbehind
  refine ⟨u, ?_⟩
  rw [Program.andThen, sketch, hp]
  exact hbehind

end Program

end Rivulet
