import Dataflow.Graph.Listing

/-!
# Facts on edges

A *fact* is what an analysis knows where the control takes an edge. Facts that
meet at a node are joined. An edge that no fact was put on yet holds none at all,
and is left out where facts meet; where no fact arrives, the *initial* fact holds.

* `Fact`: the types whose values are facts;
* `FactMap`: the facts on the edges of a graph, with a record of which ones changed;
* `FactMap.joined`: the fact where edges meet.
-/

namespace Dataflow

/-- A type of facts: how two of them are joined, and how one is put into words.

    The solver expects `join` to be idempotent, commutative and associative. -/
class Fact (A : Type) where
  join : A → A → A
  describe : A → Program → Run String

/-- The facts on the edges of a graph. -/
structure FactMap (A : Type) where
  /-- The fact that holds where no edge brings one. -/
  initial : A
  facts : SideTable "edge" (Option A) := {}
  /-- The edges whose facts changed, one entry for each change. -/
  changed : List EdgeId := []
  deriving DecidableEq

namespace FactMap

variable {A : Type}

/-- The fact on an edge, if there is one. -/
def get (m : FactMap A) (e : EdgeId) : Option A := m.facts.get e

/-- The map with the fact `a` on an edge, which is recorded as changed unless it held `a`
    before. -/
def set [DecidableEq A] (m : FactMap A) (e : EdgeId) (a : A) : FactMap A :=
  if m.get e = some a then m
  else { m with facts := m.facts.set e (some a), changed := m.changed ++ [e] }

/-- A fact put on an edge is found there, and changes no other edge. -/
theorem get_set [DecidableEq A] (m : FactMap A) (e d : EdgeId) (a : A) :
    (m.set e a).get d = if e = d then some a else m.get d := by
  rw [set]
  split
  · next h =>
    split
    · next hd => exact hd ▸ h
    · rfl
  · exact SideTable.get_set m.facts e d (some a)

/-- The map with the fact `a` on each edge of a list. -/
def setAll [DecidableEq A] (m : FactMap A) (edges : List EdgeId) (a : A) : FactMap A :=
  edges.foldl (fun m e => m.set e a) m

/-- The fact where edges meet: the join of those that there are, or else the initial one. -/
def joined [Fact A] (m : FactMap A) (edges : List EdgeId) : A :=
  match edges.filterMap m.get with
  | [] => m.initial
  | a :: rest => rest.foldl Fact.join a

/-- The fact where the edges into a node meet. -/
def joinIncoming [Fact A] (m : FactMap A) (g : Graph) (n : NodeId) : A :=
  m.joined (g.inEdges.get n)

/-- The fact where the edges out of a node meet. -/
def joinOutgoing [Fact A] (m : FactMap A) (g : Graph) (n : NodeId) : A :=
  m.joined (g.outEdges.get n)

/-- The map with nothing recorded as changed. -/
def settled (m : FactMap A) : FactMap A := { m with changed := [] }

/-- The edges that hold a fact, in order, each with its fact. -/
def entries (m : FactMap A) : List (EdgeId × A) :=
  m.facts.entries.filterMap fun (e, a) => a.map fun a => (e, a)

/-- The listing of a graph with the fact on each edge after it. -/
def listing [Fact A] (m : FactMap A) (g : Graph) (p : Program) : Run (List String) :=
  g.listing p fun e => (m.get e).mapM fun a => Fact.describe a p

end FactMap

end Dataflow
