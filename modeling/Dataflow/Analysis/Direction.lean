/-!
# Directions

Facts flow through a graph along its edges or against them.
-/

namespace Dataflow

/-- The way that facts flow through a graph. -/
inductive Direction where
  | forward
  | backward
  deriving DecidableEq

def Direction.form : Direction → String
  | forward => "Forward"
  | backward => "Backward"

end Dataflow
