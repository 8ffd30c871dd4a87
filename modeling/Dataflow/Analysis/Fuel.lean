import Dataflow.Run

/-!
# Fuel

A budget of rewrites. Each rewrite that is proposed consumes one unit, counted
whether or not there is any left; only those that find one are carried out. The
largest 64-bit number stands for a budget without end.
-/

namespace Dataflow

/-- A budget of rewrites. -/
structure Fuel where
  /-- The rewrites still allowed. -/
  remaining : Nat
  /-- The rewrites asked for so far. -/
  consumed : Nat := 0
  deriving DecidableEq

namespace Fuel

/-- The largest 64-bit number: as a budget, one without end. -/
def endless : Nat := UInt64.size - 1

/-- Any number of rewrites. -/
def infinite : Fuel := ⟨endless, 0⟩

/-- So many rewrites. -/
def limited (n : Nat) : Fuel := ⟨n, 0⟩

/-- Asks for one rewrite: whether it is allowed, and the budget afterwards. The count
    of rewrites asked for is a 64-bit number, too. -/
def consume (f : Fuel) : Run (Bool × Fuel) :=
  if f.consumed < endless then
    let consumed := f.consumed + 1
    if f.remaining = endless then .ok (true, { f with consumed })
    else if f.remaining = 0 then .ok (false, { f with consumed })
    else .ok (true, { remaining := f.remaining - 1, consumed })
  else .error .overflow

end Fuel

end Dataflow
