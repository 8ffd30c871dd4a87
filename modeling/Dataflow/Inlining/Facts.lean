import Dataflow.Analysis.FactMap
import Dataflow.HandleMap

/-!
# Known values of variables

The facts of inlining say for some variables that they hold the value of a
certain expression, and for others that they were written but that their value
is not known. Where facts meet, a variable keeps a value only if all of them
agree on it; a variable that is absent from one of them is not known.

* `Known`: the facts;
* `find?_join`: what is known about a variable where two of them meet.
-/

namespace Dataflow.Inlining

/-- What is known about the value of a variable. -/
inductive Value where
  /-- It is the value of an expression. -/
  | expr (e : ExprId)
  /-- It is not known. -/
  | unknown
  deriving DecidableEq

/-- What is known about the values of variables. -/
abbrev Known := HandleMap "var" Value

namespace Known

/-- The expression whose value a variable is known to hold. -/
def value (k : Known) (v : VarId) : Option ExprId :=
  match k.find? v with
  | some (.expr e) => some e
  | _ => none

/-- Whether a variable was written and its value is not known. -/
def isUnknown (k : Known) (v : VarId) : Bool := k.find? v == some .unknown

/-- The value of `v` is that of `e`. -/
def learn (k : Known) (v : VarId) (e : ExprId) : Known := k.insert v (.expr e)

/-- The value of `v` is not known. -/
def forget (k : Known) (v : VarId) : Known := k.insert v .unknown

/-- No value is known. -/
def forgetAll (k : Known) : Known := k.mapValues fun _ => .unknown

/-- What two facts together say about a variable, from what each says. -/
def joinValues : Option Value → Option Value → Value
  | some (.expr a), some (.expr b) => if a = b then .expr a else .unknown
  | _, _ => .unknown

/-- What is known where two facts meet. -/
def join (a b : Known) : Known :=
  HandleMap.ofKeys (a.keys ++ b.keys) fun v => joinValues (a.find? v) (b.find? v)

/-- Where two facts meet, a variable that neither speaks of is absent, and any other one is
    what both together say. -/
theorem find?_join (a b : Known) (v : VarId) :
    (a.join b).find? v =
      if a.contains v || b.contains v then some (joinValues (a.find? v) (b.find? v)) else none := by
  simp only [join, HandleMap.find?_ofKeys, List.mem_append, HandleMap.mem_keys_iff,
    Bool.or_eq_true]

/-- The variables with what is known about them, sorted by name, then by handle. -/
def describe (k : Known) (p : Program) : Run String := do
  let entries ← k.toList.mapM fun (v, value) => do
    let text ← match value with
      | .expr e => p.showExpr e
      | .unknown => pure "T"
    return (← p.varName v, text)
  let sorted := entries.mergeSort fun a b => decide (a.1 ≤ b.1)
  return "\x7b" ++ ", ".intercalate (sorted.map fun (name, text) => name ++ " = " ++ text) ++ "\x7d"

instance : Fact Known where
  join := join
  describe := describe

end Known

end Dataflow.Inlining
