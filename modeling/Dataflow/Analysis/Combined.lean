import Dataflow.Analysis.Basic

/-!
# Combined analyses

Two analyses that flow the same way can be solved as one: each edge carries the
facts of both, and a visit of a node lets both interpret it, each seeing its own
side of the facts around the node. The first one to propose a rewrite of a node
has its way. More than two are combined by nesting.

* `RewritingAnalysis.combine`: two analyses as one, unless they are opposed.
-/

namespace Dataflow

variable {A B C S T : Type}

instance [Fact A] [Fact B] : Fact (A × B) where
  join a b := (Fact.join a.1 b.1, Fact.join a.2 b.2)
  describe a p := return (← Fact.describe a.1 p) ++ " | " ++ (← Fact.describe a.2 p)

/-- A rewrite of either of two analyses. -/
instance [Rewrite S] [Rewrite T] : Rewrite (S ⊕ T) where
  transform rewrite n g p :=
    match rewrite with
    | .inl s => return (← Rewrite.transform s n g p).map .inl
    | .inr t => return (← Rewrite.transform t n g p).map .inr
  fragment rewrite p :=
    match rewrite with
    | .inl s => Rewrite.fragment s p
    | .inr t => Rewrite.fragment t p

namespace FactMap

/-- One side of the facts on the edges around a node, with nothing recorded as changed. -/
def side [DecidableEq C] (m : FactMap A) (g : Graph) (n : NodeId) (pick : A → C) : FactMap C :=
  let around := g.inEdges.get n ++ g.outEdges.get n
  (FactMap.put { initial := pick m.initial } around fun e => (m.get e).map pick).settled

/-- The facts with the changes that two sides recorded. Where only one of them put a fact
    on an edge that had none, the other one gets its initial fact. -/
def merge [DecidableEq A] [DecidableEq B] (m : FactMap (A × B)) (first : FactMap A)
    (second : FactMap B) : FactMap (A × B) :=
  (first.changed ++ second.changed).foldl (fun m e =>
    let old := (m.get e).getD m.initial
    m.set e ((first.get e).getD old.1, (second.get e).getD old.2)) m

end FactMap

namespace Analysis

variable [DecidableEq A] [DecidableEq B]

/-- Two analyses as one, which flows the way of the first. -/
def pair (first : Analysis A) (second : Analysis B) : Analysis (A × B) where
  direction := first.direction
  initial := (first.initial, second.initial)
  interpret n g p m := do
    let a ← first.interpret n g p (m.side g n Prod.fst)
    let b ← second.interpret n g p (m.side g n Prod.snd)
    return m.merge a b

end Analysis

namespace RewritingAnalysis

variable [DecidableEq A] [DecidableEq B]

/-- Two rewriting analyses as one, which flows the way of the first. -/
def pair (first : RewritingAnalysis A S) (second : RewritingAnalysis B T) :
    RewritingAnalysis (A × B) (S ⊕ T) where
  toAnalysis := first.toAnalysis.pair second.toAnalysis
  judge n g p m := do
    match ← first.judge n g p (m.side g n Prod.fst) with
    | (.replace rewrite, _) => return (.replace (.inl rewrite), m)
    | (.interpreted, a) =>
      match ← second.judge n g p (m.side g n Prod.snd) with
      | (.replace rewrite, _) => return (.replace (.inr rewrite), m)
      | (.interpreted, b) => return (.interpreted, m.merge a b)

/-- Two rewriting analyses as one, if they flow the same way. -/
def combine (first : RewritingAnalysis A S) (second : RewritingAnalysis B T) :
    Except Error (RewritingAnalysis (A × B) (S ⊕ T)) :=
  if first.direction = second.direction then .ok (first.pair second)
  else .error (.opposed first.direction second.direction)

end RewritingAnalysis

end Dataflow
