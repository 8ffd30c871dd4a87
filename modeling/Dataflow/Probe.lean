import Dataflow.Analysis.Basic
import Dataflow.HandleMap

/-!
# Probes

A probe is a small analysis described by data: which facts it collects, which
labels it treats apart, which nodes it wants replaced and by what. Probes run in
either direction and propose any rewrite of a graph, so they show what a solver
does where an analysis for real use would not.

* `MustSet`, `MaySet`, `Count`: the facts of probes;
* `Probe.assigned`, `Probe.written`, `Probe.live`, `Probe.counter`: the probes;
* `Probe.analysis`: the rewriting analysis of a probe.
-/

namespace Dataflow

/-! ### Facts -/

/-- Variables of which something holds on every way. -/
structure MustSet where
  vars : HandleSet "var" := {}
  deriving DecidableEq

/-- Variables of which something holds on some way. -/
structure MaySet where
  vars : HandleSet "var" := {}
  deriving DecidableEq

/-- A count of nodes. -/
structure Count where
  value : Nat
  deriving DecidableEq

/-- The names of variables, in the order of their handles. -/
def describeVars (vars : HandleSet "var") (p : Program) : Run String := do
  return "\x7b" ++ ", ".intercalate (← vars.keys.mapM p.varName) ++ "\x7d"

instance : Fact MustSet where
  join a b := ⟨a.vars.inter b.vars⟩
  describe a p := describeVars a.vars p

instance : Fact MaySet where
  join a b := ⟨a.vars.union b.vars⟩
  describe a p := describeVars a.vars p

instance : Fact Count where
  join a b := ⟨max a.value b.value⟩
  describe a _ := return s!"Seen({a.value})"

/-- Sets of 32 bits; more bits say less. -/
structure Bits where
  bits : UInt32
  deriving DecidableEq

instance : Fact Bits where
  join a b := ⟨a.bits ||| b.bits⟩
  describe a _ := return s!"Bits({a.bits})"

/-! ### Rewrites -/

/-- A rewrite that leaves the program alone and puts a chain of nodes in place of a node. -/
structure Chain where
  kinds : List NodeKind := [.nop]
  /-- Whether the rewrite fails when it is tried. -/
  refuses : Bool := false
  /-- The number of ports into the first node. -/
  inPorts : Nat := 0
  /-- The number of ports out of the last node. -/
  outPorts : Nat := 0
  /-- The exit, if it is to be another one than the last node. -/
  exit : Option NodeId := none
  deriving DecidableEq

namespace Chain

/-- The chain as a graph. -/
def graph (c : Chain) : Graph :=
  let g := c.kinds.foldl (fun g kind => g.addNode { kind }) ({} : Graph)
  let g := (g.order.zip g.order.tail).foldl (fun g (a, b) => g.addEdge a b none) g
  let g := { g with entry := g.order.head?, exit := g.order.getLast? }
  let g := match g.entry with
    | some n => c.inPorts.repeat (fun g => Graph.addInPort g n) g
    | none => g
  let g := match g.exit with
    | some n => c.outPorts.repeat (fun g => Graph.addOutPort g n none) g
    | none => g
  { g with exit := c.exit.or g.exit }

instance : Rewrite Chain where
  transform c _ g p :=
    let outcome := if c.refuses then .error .refused else .ok c
    return { outcome, graph := g, program := p }
  fragment c _ := return .ok c.graph

end Chain

/-! ### Probes -/

/-- Which nodes a probe wants replaced. -/
inductive Target where
  /-- Nodes whose operation has a name. -/
  | named (name : String)
  /-- Writes of variables that are not in the set of the fact that arrives. -/
  | dead
  deriving DecidableEq

/-- What all probes have in common. -/
structure Probe where
  direction : Direction := .forward
  /-- Edges with this label get the fact that arrives at a node as it is. -/
  skip : Option Label := none
  /-- Edges with this label get no fact. -/
  unset : Option Label := none
  target : Option Target := none
  replacement : Chain := {}

namespace Probe

variable {A : Type} [DecidableEq A] [Fact A]

/-- Whether a probe wants a node replaced, given the set of the fact that arrives there, if
    it is a set. -/
def wants (probe : Probe) (kind : NodeKind) (vars : Option (HandleSet "var")) : Bool :=
  match probe.target with
  | none => false
  | some (.named name) => kind.name == name
  | some .dead =>
    match kind, vars with
    | .write v _, some vars => !vars.contains v
    | _, _ => false

/-- The facts that leave a node, from the one that arrives and the one that follows from it. -/
def spread (probe : Probe) (g : Graph) (arriving following : A) (e : EdgeId) : Option A :=
  match (g.edges.get? e).bind Edge.label with
  | none => some following
  | some label =>
    if probe.unset = some label then none
    else if probe.skip = some label then some arriving
    else some following

/-- The analysis of a probe: `after` says what follows from a fact at a node, and `vars`
    which variables a fact speaks of, if any. -/
def analysis (probe : Probe) (initial : A) (after : NodeKind → A → A)
    (vars : A → Option (HandleSet "var")) : RewritingAnalysis A Chain :=
  .ofTransfer probe.direction initial
    (fun n g _ a => return probe.spread g a (after (← g.kind n) a))
    (fun n g a =>
      return if probe.wants (← g.kind n) (vars a) then some probe.replacement else none)

/-- Which variables were written on every way. -/
def assigned (probe : Probe) (initial : List VarId) : RewritingAnalysis MustSet Chain :=
  probe.analysis ⟨.ofList initial⟩
    (fun
      | .write v _, a => ⟨a.vars.insert v ()⟩
      | _, a => a)
    fun a => some a.vars

/-- Which variables were written on some way. -/
def written (probe : Probe) (initial : List VarId) : RewritingAnalysis MaySet Chain :=
  probe.analysis ⟨.ofList initial⟩
    (fun
      | .write v _, a => ⟨a.vars.insert v ()⟩
      | _, a => a)
    fun a => some a.vars

/-- Which variables will be read before they are written, on some way. -/
def live (probe : Probe) (initial : List VarId) : RewritingAnalysis MaySet Chain :=
  { probe with direction := .backward }.analysis ⟨.ofList initial⟩
    (fun
      | .write v _, a => ⟨a.vars.erase v⟩
      | .read v, a | .readWrite v, a => ⟨a.vars.insert v ()⟩
      | _, a => a)
    fun a => some a.vars

/-- How many nodes there are on the longest way, up to a cap. -/
def counter (probe : Probe) (initial cap : Nat) : RewritingAnalysis Count Chain :=
  probe.analysis ⟨initial⟩ (fun _ a => ⟨min (a.value + 1) cap⟩) fun _ => none

end Probe

end Dataflow
