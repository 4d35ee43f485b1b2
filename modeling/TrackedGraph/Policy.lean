/-
How a recording behaves.

All three choices are on unless they are turned off.
-/
set_option autoImplicit false

namespace TrackedGraph

/-- The choices of a recording. -/
structure Policy where
  /-- Reduction drops what is back at its prior state. -/
  prune : Bool := true
  /-- Reverting ends with a check of the tree. -/
  verify : Bool := true
  /-- Writes to read-only properties of tracked nodes are vetoed. -/
  strict : Bool := true
deriving DecidableEq, Inhabited

namespace Policy

/-- One choice made. -/
inductive Choice where
  | prune (on : Bool)
  | verify (on : Bool)
  | strict (on : Bool)

def choose (p : Policy) : Choice → Policy
  | .prune on => { p with prune := on }
  | .verify on => { p with verify := on }
  | .strict on => { p with strict := on }

/-- The policy after a series of choices; the last one on a matter counts. -/
def ofChoices (choices : List Choice) : Policy := choices.foldl choose {}

end Policy

end TrackedGraph
