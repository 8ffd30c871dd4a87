import Dataflow.Analysis.Basic
import Dataflow.Graph.Lowering
import Dataflow.Inlining.Facts
import Dataflow.Program.Edit
import Dataflow.Program.Effects

/-!
# Inlining variables

A read of a variable that is known to hold the value of an expression can be
replaced by a copy of that expression. A value is only remembered if evaluating
it again does nothing else: it is free of side effects, allocates nothing and
does not depend on the variable itself. As nothing is known about which names
stand for the same place, every write makes all other values unknown, and so
does every call that has side effects.

* `transfer`: what is known after a node;
* `Substitute`: the rewrite of a read;
* `analysis`: the rewriting analysis.
-/

namespace Dataflow.Inlining

/-- Whether a value may stand for `v` where `v` is read later. -/
def isInlinable (oracle : Oracle) (p : Program) (v : VarId) (value : ExprId) : Run Bool := do
  if ← oracle.mayHaveEffects p value then return false
  if ← p.allocates value then return false
  return !(← p.references value v)

/-- What is known after an operation, from what is known before it. -/
def transfer (oracle : Oracle) (p : Program) (kind : NodeKind) (k : Known) : Run Known :=
  match kind with
  | .write v value => do
    if ← oracle.isTrackable p v then
      let k := (k.forget v).forgetAll
      if ← isInlinable oracle p v value then return k.learn v value
      return k
    -- What a variable that is not tracked was known to hold stays as it was.
    match k.find? v with
    | some known => return k.forgetAll.insert v known
    | none => return k.forgetAll
  | .call call => do
    if ← oracle.callHasEffects p call then return k.forgetAll
    return k
  | .readWrite _ => return k.forgetAll
  | _ => return k

/-- The rewrite of a read of a variable by the value that it holds. -/
structure Substitute where
  /-- The expression that reads the variable. -/
  read : ExprId
  /-- The expression whose value it holds. -/
  value : ExprId
  /-- The copy of the value, once it was put in place of the read. -/
  copy : Option ExprId := none
  deriving DecidableEq

namespace Substitute

/-- Puts a copy of the value in place of the read, in the statement around a node. -/
def transform (r : Substitute) (n : NodeId) (g : Graph) (p : Program) :
    Run (Attempt Substitute) := do
  let some stmtNode ← g.containingStatement n
    | return { outcome := .error (.noStatement n), graph := g, program := p }
  match (← g.nodes.get stmtNode).origin with
  | .stmt stmt =>
    let (copy, p) ← p.cloneExpr r.value
    let (count, p) ← p.replaceExpr stmt r.read copy
    if count = 1 then
      let (_, g) := g.retarget r.read copy
      return { outcome := .ok { r with copy := some copy }, graph := g, program := p }
    else
      return { outcome := .error (.substitutions count r.read stmt), graph := g, program := p }
  | origin =>
    return { outcome := .error (.notAStatement stmtNode origin), graph := g, program := p }

/-- The graph of the copy. -/
def fragment (r : Substitute) (p : Program) : Run (Except Error Graph) :=
  match r.copy with
  | some copy => Graph.ofExpr p copy
  | none => return .error .noReplacement

instance : Rewrite Substitute where
  transform := transform
  fragment := fragment

end Substitute

/-- The rewrite of a node, if it reads a variable whose value is known. -/
def propose (n : NodeId) (g : Graph) (k : Known) : Run (Option Substitute) := do
  let node ← g.nodes.get n
  match node.kind, node.origin with
  | .read v, .expr read => return (k.value v).map fun value => { read, value }
  | _, _ => return none

/-- The analysis that finds known values and proposes to replace reads by them. -/
def analysis (oracle : Oracle) : RewritingAnalysis Known Substitute :=
  .ofTransfer .forward {}
    (fun n g p k => do
      let after ← transfer oracle p (← g.kind n) k
      return fun _ => some after)
    propose

end Dataflow.Inlining
