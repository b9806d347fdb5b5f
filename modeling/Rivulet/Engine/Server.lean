import Rivulet.Engine.Queries

/-!
# Passes of a server render

A server draws a template into a document of its own, takes the markup, and throws the rest
away. In the first pass nothing but the fetches counts; the last pass gives the markup and
the keys that were asked for.
-/

namespace Rivulet.Engine

open Hydration Query

/-- A new pass. -/
def newPass (p : Pass) : Run PassId :=
  modifyGet fun s => (⟨s.passes.size⟩, { s with passes := s.passes.push p })

/-- Draws a template into a new document and gives its markup. -/
def drawPass (κ : Kernel) (template : Program) (pass : PassId) : Run String := do
  let document ← newDocument {}
  let scope ← createScope none
  withScope scope <| withSupply (some (.server pass)) do
    let d ← newDrawing document Document.root .create
    drawing d (κ.perform template)
  let html := ((← get).document document).inner Document.root
  κ.dispose scope
  return html

/-- The fetches of a template, each key once, in the order of discovery. The pass knows none of
them any more: what outlives it and is drawn again discovers its queries anew. -/
def discover (κ : Kernel) (template : Program) : Run (List (String × Fetch)) := do
  let pass ← newPass (.discovery [])
  let _ ← drawPass κ template pass
  match (← get).passes[pass.index]? with
  | some (.discovery fetches) =>
    modify fun s => { s with passes := s.passes.setIfInBounds pass.index (.discovery []) }
    return fetches
  | _ => return []

/-- What the last pass comes to. -/
structure FinalPass where
  /-- The markup. -/
  html : String
  /-- The keys that were asked for, in the order of asking. -/
  requested : List String

/-- Draws a template with what is known of its queries. -/
def drawFinal (κ : Kernel) (template : Program) (verdicts : List (String × Verdict)) :
    Run FinalPass := do
  let pass ← newPass (.final verdicts [])
  let html ← drawPass κ template pass
  let requested := match (← get).passes[pass.index]? with
    | some (.final _ requested) => requested
    | _ => []
  return { html, requested }

end Rivulet.Engine
