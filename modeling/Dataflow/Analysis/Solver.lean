import Dataflow.Analysis.Basic

/-!
# Solving an analysis

The solver keeps a queue of nodes to visit. A visit interprets the node, and
every node that a changed fact arrives at joins the queue. When the queue is
empty the facts are *solved*: no visit of a node visited before would change them.

Nothing in an analysis promises that the queue ever becomes empty, so a run of
the solver is given a bound on the number of visits; a run that needs more of
them ends with the fault `endless`.

* `Worklist`, `Worklist.visit`, `Worklist.run`: the solver's state, one visit, all visits;
* `Worklist.run_mono`: a larger bound changes nothing about a run that ends;
* `Analysis.propagate`: the facts solved from a list of nodes;
* `Analysis.solve`: the facts solved from all nodes of a graph.
-/

namespace Dataflow

/-- The state of the solver. -/
structure Worklist (A : Type) where
  facts : FactMap A
  /-- The nodes to visit, in order and each once. -/
  queue : List NodeId
  /-- The number of changed facts so far. -/
  updates : Nat := 0

/-- The queue with one more node, at its end unless it is there already. -/
def enqueue (queue : List NodeId) (n : NodeId) : List NodeId :=
  if n ∈ queue then queue else queue ++ [n]

theorem mem_enqueue {queue : List NodeId} {n k : NodeId} :
    k ∈ enqueue queue n ↔ k ∈ queue ∨ k = n := by
  rw [enqueue]
  split
  · next h => exact ⟨.inl, fun hk => hk.elim id fun hk => hk ▸ h⟩
  · simp

theorem nodup_enqueue {queue : List NodeId} (n : NodeId) (h : queue.Nodup) :
    (enqueue queue n).Nodup := by
  rw [enqueue]
  split
  · exact h
  · next hn =>
    exact List.nodup_append.2 ⟨h, by simp, fun a ha b hb hab => hn (by simp_all)⟩

variable {A : Type}

namespace Analysis

/-- The nodes that the facts on edges arrive at, in order. -/
def receivers (an : Analysis A) (g : Graph) (edges : List EdgeId) : Run (List NodeId) := do
  let receivers ← edges.mapM fun e => return an.direction.receiver (← g.edges.get e)
  return receivers.filterMap id

end Analysis

namespace Worklist

/-- A visit of the node `n`, the rest of the queue being `rest`. -/
def visit (an : Analysis A) (g : Graph) (p : Program) (n : NodeId) (rest : List NodeId)
    (w : Worklist A) : Run (Worklist A) := do
  let facts ← an.interpret n g p w.facts
  let receivers ← an.receivers g facts.changed
  return {
    facts := facts.settled
    queue := receivers.foldl enqueue rest
    updates := w.updates + facts.changed.length }

/-- Visits of nodes until the queue is empty, `bound` of them at most. -/
def run (an : Analysis A) (g : Graph) (p : Program) : (bound : Nat) → Worklist A → Run (Worklist A)
  | bound, w =>
    match w.queue with
    | [] => .ok w
    | n :: rest =>
      match bound with
      | 0 => .error .endless
      | bound + 1 =>
        match w.visit an g p n rest with
        | .ok w => run an g p bound w
        | .error fault => .error fault

/-- A run that ends within a bound ends the same way within any larger one. -/
theorem run_mono {an : Analysis A} {g : Graph} {p : Program} {m n : Nat} {w v : Worklist A}
    (h : run an g p m w = .ok v) (hmn : m ≤ n) : run an g p n w = .ok v := by
  induction m generalizing n w with
  | zero =>
    rw [run] at h ⊢
    split at h
    · exact h
    · cases h
  | succ m ih =>
    obtain ⟨n, rfl⟩ : ∃ k, n = k + 1 := ⟨n - 1, by omega⟩
    rw [run] at h ⊢
    split at h
    · exact h
    · dsimp only at h ⊢
      split at h
      · exact ih h (Nat.le_of_succ_le_succ hmn)
      · cases h

end Worklist

namespace Analysis

/-- The facts solved from the nodes of `seed` (from the last one on if facts flow
    backward), and the number of times that a fact changed. -/
def propagate (bound : Nat) (an : Analysis A) (g : Graph) (p : Program) (m : FactMap A)
    (seed : List NodeId) : Run (Nat × FactMap A) := do
  let seed := match an.direction with
    | .forward => seed
    | .backward => seed.reverse
  let w ← Worklist.run an g p bound { facts := m.settled, queue := seed.foldl enqueue [] }
  return (w.updates, w.facts)

/-- The facts solved again from the edges recorded as changed. -/
def settle (bound : Nat) (an : Analysis A) (g : Graph) (p : Program) (m : FactMap A) :
    Run (FactMap A) := do
  if m.changed.isEmpty then return m
  let receivers ← an.receivers g m.changed
  let (_, m) ← an.propagate bound g p m.settled receivers
  return m

/-- The facts of an analysis on a graph, solved from all its nodes in order. -/
def solve (bound : Nat) (an : Analysis A) (g : Graph) (p : Program) : Run (FactMap A) := do
  let (_, m) ← an.propagate bound g p { initial := an.initial } g.order
  return m

end Analysis

end Dataflow
