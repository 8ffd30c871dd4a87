/-!
# Runs that may have no answer

Programs and graphs refer to their parts by handle, and nothing stops a handle
from naming nothing. A computation that follows handles is therefore a `Run`:
it ends with a value, or with a `Fault` that says why there is none.

* `Run`: the values of such a computation;
* `unroll`: recursion along handles, a given number of levels deep.
-/

namespace Dataflow

/-- Why a computation has no answer. -/
inductive Fault where
  /-- A handle names no slot of its arena. -/
  | badHandle
  /-- A 64-bit counter passed its largest value. -/
  | overflow
  /-- The computation did not end within its bound. -/
  | endless
  deriving DecidableEq, Repr

/-- A computation that ends with a value or with a fault. -/
abbrev Run (α : Type) := Except Fault α

/-- A computation in two parts ends with a value if both parts do. -/
theorem Run.bind_eq_ok {α β : Type} {x : Run α} {f : α → Run β} {b : β} :
    x >>= f = .ok b ↔ ∃ a, x = .ok a ∧ f a = .ok b := by
  constructor
  · intro h
    cases x with
    | error fault => cases h
    | ok a => exact ⟨a, rfl, h⟩
  · rintro ⟨a, rfl, h⟩
    exact h

/-- Recursion along handles, `depth` levels deep: `step self i` does the work at
    the handle `i` and calls `self` at the handles found there. Below the last
    level the answer is `stop`.

    Among `n` slots no chain of distinct handles is longer than `n`, so on a
    structure without cycles `n + 1` levels are as good as any number of them
    (the last one is for a handle that names nothing). -/
def unroll {ι β : Type} (stop : β) (step : (ι → β) → ι → β) : (depth : Nat) → ι → β
  | 0, _ => stop
  | depth + 1, i => step (unroll stop step depth) i

theorem unroll_succ {ι β : Type} {stop : β} {step : (ι → β) → ι → β} (depth : Nat) (i : ι) :
    unroll stop step (depth + 1) i = step (unroll stop step depth) i := rfl

end Dataflow
