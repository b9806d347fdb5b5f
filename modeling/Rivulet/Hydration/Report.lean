/-!
# What a hydration did

The account of a walk over existing markup: how many nodes it reused, created, passed over
and threw away, and every place where markup and template disagreed. Beside it the states
that a mounted root goes through.
-/

namespace Rivulet.Hydration

/-- How a disagreement was dealt with. -/
inductive Resolution where
  /-- A new node took the place of the one that was there. -/
  | replaced
  /-- Nothing was there, and a node was created. -/
  | inserted
  /-- An unexpected node was removed and a fitting one behind it claimed. -/
  | discarded
  /-- It could not be dealt with in place. -/
  | escalated
  deriving DecidableEq, Repr

/-- The name of a resolution. -/
def Resolution.name : Resolution → String
  | replaced => "Replaced"
  | inserted => "Inserted"
  | discarded => "Discarded"
  | escalated => "Escalated"

/-- A disagreement between template and markup. -/
structure Mismatch where
  /-- What the template asked for. -/
  expected : String
  /-- What was there. -/
  found : Option String
  /-- How it was dealt with. -/
  resolution : Resolution
  deriving DecidableEq, Repr

/-- A disagreement in one line. -/
def Mismatch.display (m : Mismatch) : String :=
  "expected " ++ m.expected ++ ", found " ++ m.found.getD "nothing" ++ " (" ++ m.resolution.name ++
    ")"

/-- The account of a walk. -/
structure Report where
  /-- Nodes that were there and are used again. -/
  claimed : Nat := 0
  /-- Nodes that were created. -/
  created : Nat := 0
  /-- Nodes of others that were passed over. -/
  skipped : Nat := 0
  /-- Nodes that were there and are thrown away. -/
  discarded : Nat := 0
  /-- Boundaries whose content was drawn anew. -/
  fallbacks : Nat := 0
  /-- The disagreements, in order. -/
  mismatches : List Mismatch := []
  deriving DecidableEq, Repr

namespace Report

/-- Adds a disagreement. -/
def record (r : Report) (expected : String) (found : Option String) (resolution : Resolution) :
    Report :=
  { r with mismatches := r.mismatches ++ [⟨expected, found, resolution⟩] }

/-- Counts nodes as created. -/
def addCreated (r : Report) (n : Nat) : Report := { r with created := r.created + n }

/-- Counts nodes as claimed. -/
def addClaimed (r : Report) (n : Nat) : Report := { r with claimed := r.claimed + n }

/-- Counts nodes as thrown away. -/
def addDiscarded (r : Report) (n : Nat) : Report := { r with discarded := r.discarded + n }

/-- Counts nodes as passed over. -/
def addSkipped (r : Report) (n : Nat) : Report := { r with skipped := r.skipped + n }

/-- Counts a boundary that was drawn anew. -/
def addFallback (r : Report) : Report := { r with fallbacks := r.fallbacks + 1 }

/-- Whether every node was claimed and nothing was created or thrown away. -/
def isExact (r : Report) : Bool :=
  r.created = 0 && r.discarded = 0 && r.fallbacks = 0 && r.mismatches.isEmpty

/-- Whether template and markup agreed throughout. -/
def agrees (r : Report) : Bool := r.mismatches.isEmpty && r.fallbacks = 0

end Report

/-- The states of a mounted root. -/
inductive Phase where
  /-- Nothing has happened yet. -/
  | idle
  /-- The markup is being claimed. -/
  | claiming
  /-- All of it was claimed. -/
  | claimed
  /-- Some of it was repaired. -/
  | partiallyClaimed
  /-- It could not be repaired and is drawn anew. -/
  | aborted
  /-- The root is alive. -/
  | interactive
  deriving DecidableEq, Repr

namespace Phase

/-- All states in order. -/
def all : List Phase := [idle, claiming, claimed, partiallyClaimed, aborted, interactive]

/-- The name of a state. -/
def name : Phase → String
  | idle => "Idle"
  | claiming => "Claiming"
  | claimed => "Claimed"
  | partiallyClaimed => "PartiallyClaimed"
  | aborted => "Aborted"
  | interactive => "Interactive"

/-- Whether one state may follow another. -/
def canPrecede : Phase → Phase → Bool
  | idle, claiming | idle, interactive => true
  | claiming, claimed | claiming, partiallyClaimed | claiming, aborted => true
  | claimed, interactive | partiallyClaimed, interactive | aborted, interactive => true
  | _, _ => false

end Phase

end Rivulet.Hydration
