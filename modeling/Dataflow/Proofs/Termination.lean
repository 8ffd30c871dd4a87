import Dataflow.Graph.Verify
import Dataflow.Proofs.Paths

/-!
# When solving ends

On a graph in which every node that is entered at all is entered from a node strictly before it,
solving for known values ends. Without such an order it need not: a node visited before a fact has
arrived there hands on the initial fact, which is not below the facts that come after it. Two facts
can then follow each other around a ring for ever, each put in place of the other, although facts
about finitely many variables have a finite height and all operations are monotone.

* `solve_ends_of_ordered`: solving ends on graphs in order;
* `ring`: a graph that passes every check, and on which solving does not end
  (`solve_ring_endless`).
-/

namespace Dataflow.Inlining

/-- Solving ends, whatever the edges, if every node that is entered at all is entered from a node
    strictly before it. -/
theorem solve_ends_of_ordered {oracle : Oracle} {p : Program} {g : Graph} (hg : g.Wired)
    (hord : Direction.forward.Ordered g) (heffect : ∀ n ∈ g.order, ∃ f, HasEffect oracle p g n f) :
    ∃ bound m, ∀ B ≥ bound, (analysis oracle).solve B g p = .ok m :=
  exists_solve_of_effects hg hord heffect

theorem solve_ends_of_ordered_loop : ∃ g, Graph.ofBody sampleLoop ⟨0⟩ = .ok (.ok g) ∧ g.Wired ∧
    Direction.forward.Ordered g ∧
    ∃ bound m, ∀ B ≥ bound, (analysis .declared).solve B g sampleLoop = .ok m := by
  obtain ⟨g, hg⟩ : ∃ g, Graph.ofBody sampleLoop ⟨0⟩ = .ok (.ok g) := ⟨_, rfl⟩
  obtain ⟨hlinked, hlaid⟩ := Graph.ofBody_laidOut hg
  have hord := hlaid.ordered hlinked.toWired
  exact ⟨g, hg, hlinked.toWired, hord,
    solve_ends_of_ordered hlinked.toWired hord (exists_hasEffect_sampleLoop hg)⟩

/-! ### A ring -/

/-- A program with a variable and a number to write into it. -/
def ringProgram : Program where
  vars := ⟨#[{ name := "v", type := .int, kind := .ofMethod }]⟩
  exprs := ⟨#[.int 1]⟩

/-- A write that leads into a ring of three nodes, of which the last one comes second in order. -/
def ring : Graph :=
  let g : Graph := {}
  let g := g.addNode { kind := .write ⟨0⟩ ⟨0⟩ }
  let g := g.addNode { kind := .nop }
  let g := g.addNode { kind := .nop }
  let g := g.addNode { kind := .nop }
  let g := g.addEdge ⟨0⟩ ⟨1⟩ none
  let g := g.addEdge ⟨1⟩ ⟨3⟩ none
  let g := g.addEdge ⟨3⟩ ⟨2⟩ none
  g.addEdge ⟨2⟩ ⟨1⟩ none

/-- What is known of the variable: its value, or that it has one. -/
def variableFact : Bool → Known
  | true => Known.learn {} ⟨0⟩ ⟨0⟩
  | false => Known.forget {} ⟨0⟩

/-- The solver on the ring: which of the two facts is on each edge of the ring, and which nodes are to
    be visited. -/
def onRing (first second third : Bool) (queue : List NodeId) (updates : Nat) : Worklist Known where
  facts :=
    { initial := {}
      facts := ⟨#[variableFact true, variableFact first, variableFact second, variableFact third]⟩ }
  queue
  updates

/-- Each visit of a node of the ring hands on the fact that arrives there, one behind the other. -/
theorem visit_onRing (b : Bool) (u : Nat) :
    (onRing b (!b) (!b) [⟨3⟩, ⟨1⟩] u).visit (analysis .declared).toAnalysis ring ringProgram ⟨3⟩ [⟨1⟩] =
        .ok (onRing b b (!b) [⟨1⟩, ⟨2⟩] (u + 1)) ∧
      (onRing b b (!b) [⟨1⟩, ⟨2⟩] u).visit (analysis .declared).toAnalysis ring ringProgram ⟨1⟩ [⟨2⟩] =
        .ok (onRing (!b) b (!b) [⟨2⟩, ⟨3⟩] (u + 1)) ∧
      (onRing (!b) b (!b) [⟨2⟩, ⟨3⟩] u).visit (analysis .declared).toAnalysis ring ringProgram ⟨2⟩
          [⟨3⟩] =
        .ok (onRing (!b) b b [⟨3⟩, ⟨1⟩] (u + 1)) := by
  cases b <;> exact ⟨rfl, rfl, rfl⟩

/-- Three visits later the facts have changed places, and so on for ever. -/
theorem run_onRing (bound : Nat) (b : Bool) (u : Nat) :
    Worklist.run (analysis .declared).toAnalysis ring ringProgram bound
      (onRing b (!b) (!b) [⟨3⟩, ⟨1⟩] u) = .error .endless := by
  induction bound using Nat.strong_induction_on generalizing b u with
  | _ bound ih =>
    match bound with
    | 0 => rfl
    | 1 => rw [Worklist.run_succ rfl (visit_onRing b u).1]; rfl
    | 2 =>
      rw [Worklist.run_succ rfl (visit_onRing b u).1, Worklist.run_succ rfl (visit_onRing b _).2.1]
      rfl
    | bound + 3 =>
      rw [Worklist.run_succ rfl (visit_onRing b u).1, Worklist.run_succ rfl (visit_onRing b _).2.1,
        Worklist.run_succ rfl (visit_onRing b _).2.2]
      have := ih bound (by omega) (!b) (u + 1 + 1 + 1)
      rwa [Bool.not_not] at this

theorem ring_built : ring.Built :=
  .addEdge _ _ _ (.addEdge _ _ _ (.addEdge _ _ _ (.addEdge _ _ _
    (.addNode _ (.addNode _ (.addNode _ (.addNode _ .empty)))))))

/-- The ring is made by operations on graphs and passes every check, and solving on it does not
    end. -/
theorem solve_ring_endless : ring.Built ∧ ring.verify = .ok () ∧
    ∀ bound, (analysis .declared).solve bound ring ringProgram = .error .endless := by
  refine ⟨ring_built, rfl, fun bound => ?_⟩
  have hrun : ∀ bound, Worklist.run (analysis .declared).toAnalysis ring ringProgram bound
      ((analysis .declared).start ring) = .error .endless := by
    intro bound
    match bound with
    | 0 | 1 | 2 | 3 | 4 | 5 => rfl
    | bound + 6 => exact run_onRing bound false 6
  change (Worklist.run _ _ _ bound ((analysis .declared).start ring) >>= _) >>= _ = _
  rw [hrun]
  rfl

end Dataflow.Inlining
