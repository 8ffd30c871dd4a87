import Dataflow.Proofs.Relayout
import Dataflow.Proofs.Simulation

/-!
# Ways around loops

In the graph of a body without loops every edge leads to a node further down in the order
(`Graph.LaidOut.precedes_of_joins`), so no way leads around.
-/

namespace Dataflow

variable {g : Graph} {p : Program} {parent : Option NodeId} {ns ms : List NodeId}
  {ins outs ends : List OpenEdge}

/-- A statement has no loop inside. -/
def Program.LoopFree (p : Program) (body : StmtId) : Prop :=
  ∀ s c b, p.Inside (.stmt body) (.stmt s) → p.stmts.get? s ≠ some (.loop c b)

/-! ### Bodies without loops -/

/-- Every node is entered only from nodes in `known` or before it. -/
def Downward (g : Graph) : Set NodeId → List NodeId → Prop
  | _, [] => True
  | known, n :: ns => (∀ a ∈ g.arrivals n, a.1 ∈ known) ∧ Downward g (insert n known) ns

section Downward

variable {known : Set NodeId}

theorem downward_append :
    Downward g known (ns ++ ms) ↔ Downward g known ns ∧ Downward g (known ∪ {n | n ∈ ns}) ms := by
  induction ns generalizing known with
  | nil => simp [Downward]
  | cons n ns ih =>
    have hset : insert n known ∪ {m | m ∈ ns} = known ∪ {m | m ∈ n :: ns} := by
      ext m
      simp only [Set.mem_union, Set.mem_insert_iff, Set.mem_ofPred_eq, List.mem_cons]
      tauto
    rw [List.cons_append, Downward, Downward, ih, hset, and_assoc]

theorem Downward.mem_of_mem_arrivals (h : Downward g known ns) {before after : List NodeId}
    {n : NodeId} (hns : ns = before ++ n :: after) {a : OpenEdge} (ha : a ∈ g.arrivals n) :
    a.1 ∈ known ∪ {m | m ∈ before} := by
  rw [hns, downward_append] at h
  exact h.2.1 a ha

theorem Spelled.downward {os : List Operation} (h : Spelled g parent os ins ns outs ends)
    (hins : ∀ a ∈ ins, a.1 ∈ known) : Downward g known ns := by
  induction h generalizing known with
  | nil => trivial
  | op hn _ ih | nop hn _ ih =>
    exact ⟨hn.arrivals ▸ hins, ih (List.forall_mem_singleton.2 (Set.mem_insert _ _))⟩
  | call _ hm hn _ ih =>
    refine ⟨hm.arrivals ▸ hins, ?_, ih (List.forall_mem_singleton.2 (Set.mem_insert _ _))⟩
    rw [hn.arrivals]
    exact List.forall_mem_singleton.2 (Set.mem_insert _ _)

theorem Headed.downward {s : StmtId} {st : Stmt} (h : Headed g p parent s st [] ins ns outs ends)
    (hins : ∀ a ∈ ins, a.1 ∈ known) : Downward g known ns := by
  have hrow : ∀ n, ∀ a ∈ [((n, none) : OpenEdge)], a.1 ∈ insert n known := fun n =>
    List.forall_mem_singleton.2 (Set.mem_insert _ _)
  cases h with
  | plain _ hn _ h => exact ⟨hn.arrivals ▸ hins, h.downward (hrow _)⟩
  | last _ hn _ h hk =>
    refine ⟨hn.arrivals ▸ hins, downward_append.2 ⟨h.downward (hrow _), ?_, trivial⟩⟩
    rw [hk.arrivals]
    intro a ha
    exact (h.source_of_mem_outs ha).imp_left (hrow _ a)

/-- Open edges that leave statements begin at nodes of these or where the edges into them do. -/
theorem Laid.mem_of_mem_outs {part : Part} (h : Laid g p parent part ins ns outs ends)
    (hins : ∀ a ∈ ins, a.1 ∈ known) : ∀ a ∈ outs, a.1 ∈ known ∪ {n | n ∈ ns} := fun a ha =>
  (h.source_of_mem.1 a ha).imp_left (hins a)

theorem Laid.downward {part : Part} {body : StmtId} (h : Laid g p parent part ins ns outs ends)
    (hfree : p.LoopFree body) (hpart : ∀ s ∈ part.stmts, p.Inside (.stmt body) (.stmt s))
    (hins : ∀ a ∈ ins, a.1 ∈ known) : Downward g known ns := by
  induction h generalizing known with
  | block hs hn _ ih =>
    have hin := hpart _ (List.mem_singleton_self _)
    exact ⟨hn.arrivals ▸ hins, ih (fun t ht => hin.child hs ht)
      (List.forall_mem_singleton.2 (Set.mem_insert _ _))⟩
  | straight _ _ h | ret _ h => exact h.downward hins
  | branch hs h _ _ iht ihe =>
    have hin := hpart _ (List.mem_singleton_self _)
    have hk := h.source_of_lastKind rfl (List.mem_singleton_self _)
    rw [← List.cons_append, downward_append, downward_append]
    refine ⟨h.downward hins, iht ?_ ?_, ihe ?_ ?_⟩
    · exact List.forall_mem_singleton.2 (hin.child hs List.mem_cons_self)
    · exact List.forall_mem_singleton.2 (.inr hk)
    · exact fun t ht => hin.child hs (List.mem_cons_of_mem _ ht)
    · exact List.forall_mem_singleton.2 (.inl (.inr hk))
  | loop hs => exact absurd hs (hfree _ _ _ (hpart _ (List.mem_singleton_self _)))
  | nil => trivial
  | cons h _ ih₁ ih₂ =>
    rw [downward_append]
    refine ⟨ih₁ ?_ hins, ih₂ ?_ (h.mem_of_mem_outs hins)⟩
    · exact List.forall_mem_singleton.2 (hpart _ List.mem_cons_self)
    · exact fun t ht => hpart t (List.mem_cons_of_mem _ ht)

theorem Graph.LaidOut.downward {body : StmtId} (h : g.LaidOut p body) (hfree : p.LoopFree body) :
    Downward g ∅ g.order := by
  obtain ⟨ns, last, outs, ends, horder, hlaid, hlast⟩ := h
  have hstart : ∀ a ∈ ([] : List OpenEdge), a.1 ∈ (∅ : Set NodeId) := fun a ha => by cases ha
  rw [horder, downward_append]
  refine ⟨hlaid.downward hfree (List.forall_mem_singleton.2 .refl) hstart, ?_, trivial⟩
  rw [hlast.arrivals, List.forall_mem_append]
  exact ⟨hlaid.mem_of_mem_outs hstart, fun a ha => .inr (hlaid.source_of_mem.2 a ha)⟩

/-- In the graph of a body without loops, every edge leads to a node further down. -/
theorem Graph.LaidOut.precedes_of_joins {body : StmtId} (h : g.LaidOut p body) (hg : g.Wired)
    (hfree : p.LoopFree body) {e : EdgeId} {k n : NodeId} (he : g.Joins e k n) :
    Precedes g.order k n := by
  obtain ⟨before, after, horder⟩ := List.append_of_mem (hg.target_mem he)
  obtain ⟨label, ha⟩ := hg.mem_arrivals_iff.2 ⟨e, he⟩
  exact ⟨before, after, horder, by
    simpa using (h.downward hfree).mem_of_mem_arrivals horder ha⟩

end Downward

end Dataflow
