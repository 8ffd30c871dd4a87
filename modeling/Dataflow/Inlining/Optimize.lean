import Dataflow.Analysis.Sweep
import Dataflow.Inlining.Analysis

/-!
# Inlining in a whole program

`optimize` inlines known values in the body of every method, one method after
the other. An error in one method ends the run; what was rewritten stays.
-/

namespace Dataflow.Inlining

/-- An error in one method, by what was being done. -/
inductive Failure where
  | lowering (method : String) (e : Error)
  | inlining (method : String) (e : Error)
  deriving DecidableEq

namespace Failure

/-- The error. -/
def error : Failure → Error
  | lowering _ e | inlining _ e => e

/-- What was being done, and the message of the error. -/
def message : Failure → String
  | lowering method e => "building CFG of " ++ method ++ ": " ++ e.message
  | inlining method e => "inlining variables in " ++ method ++ ": " ++ e.message

end Failure

/-- What inlining leaves: whether anything was rewritten, or a failure, and the program and
    the fuel as they are then. -/
structure Optimization where
  outcome : Except Failure Bool
  program : Program
  fuel : Fuel

/-- Inlines known values in the bodies of methods, in order. -/
def optimizeMethods (oracle : Oracle) (options : Options) :
    List MethodId → Program → Fuel → (changed : Bool) → Run Optimization
  | [], p, fuel, changed => return { outcome := .ok changed, program := p, fuel }
  | m :: ms, p, fuel, changed => do
    let name := (← p.methods.get m).name
    match ← Graph.ofMethod p m with
    | .error e => return { outcome := .error (.lowering name e), program := p, fuel }
    | .ok g =>
      let run ← (analysis oracle).integrate options fuel g p
      match run.outcome with
      | .error e =>
        return { outcome := .error (.inlining name e), program := run.program, fuel := run.fuel }
      | .ok rewritten =>
        optimizeMethods oracle options ms run.program run.fuel (changed || rewritten)

/-- Inlines known values in every method of a program that has a body. -/
def optimize (oracle : Oracle) (options : Options) (fuel : Fuel) (p : Program) :
    Run Optimization :=
  optimizeMethods oracle options (p.bodies.map Prod.fst) p fuel false

end Dataflow.Inlining
