import Dataflow.Proofs.Integration

/-!
# What the sweep leaves behind

With fuel without end, the sweep of inlining replaces every read whose value is known when it comes
there. Facts still change behind it, when a write into whose value a copy was put comes up. But what
becomes known by that becomes known ahead of the sweep only, so no read that was left behind is one
of a known value later (`Thorough.step`). At the end there is none in the whole graph.

* `ReadsUnknown`: a node does not read a variable whose value is known there;
* `Flow.Follows`: a graph of a body with settled facts;
* `exhausted_of_integrate`: what inlining in a body leaves.
-/

namespace Dataflow.Inlining

variable {g₀ g : Graph} {p : Program} {body : StmtId} {s s' : Sweep Known} {n m : NodeId}
  {F : FactMap Known}

/-- A node does not read a variable whose value is known there. -/
def ReadsUnknown (g : Graph) (F : FactMap Known) (n : NodeId) : Prop :=
  ∀ v r parent, g.nodes.get? n = some ⟨.read v, .expr r, parent⟩ →
    (F.joinIncoming g n).value v = none

/-- Where nothing is proposed, no read is one of a known value. -/
theorem readsUnknown_of_propose (h : propose n g (F.joinIncoming g n) = .ok none) :
    ReadsUnknown g F n := by
  intro v r parent hnode
  rw [propose_read hnode] at h
  exact Option.map_eq_none_iff.1 (Except.ok.inj h)

/-- A node that reads a variable after an expression was made another one read it before. -/
theorem exists_of_retarget_eq {node : Node} {target replacement r : ExprId} {v : VarId}
    {parent : Option NodeId} (h : node.retarget target replacement = ⟨.read v, .expr r, parent⟩) :
    ∃ r', node = ⟨.read v, .expr r', parent⟩ := by
  obtain ⟨kind, origin, parent'⟩ := node
  rw [Node.retarget, Node.mk.injEq] at h
  obtain ⟨hkind, horigin, rfl⟩ := h
  obtain rfl : kind = .read v := by
    cases kind <;> cases hkind
    rfl
  split at horigin
  · next heq => exact ⟨target, by rw [show origin = .expr target from heq]⟩
  · exact ⟨r, by rw [show origin = .expr r from horigin]⟩

/-- A sweep with fuel without end, which left no read of a known value behind. -/
structure Thorough (s : Sweep Known) : Prop where
  fuel : s.fuel.remaining = Fuel.endless
  behind : ∀ n ∈ s.graph.order.take s.index, ReadsUnknown s.graph s.facts n

/-- Fuel without end allows any rewrite, unless the count of rewrites is at its end. -/
theorem consume_of_endless {fuel : Fuel} (h : fuel.remaining = Fuel.endless) :
    fuel.consume = .error .overflow ∨
      ∃ fuel', fuel.consume = .ok (true, fuel') ∧ fuel'.remaining = Fuel.endless := by
  rw [Fuel.consume]
  split
  · exact .inr ⟨_, rfl, h⟩
  · exact .inl rfl

namespace Thorough

variable {ahead : List NodeId}

/-- A node up to the place of the sweep does not stand behind the one at that place. -/
theorem not_lt_idxOf (hg : s.graph.Linked) (hahead : s.graph.order.drop s.index = n :: ahead)
    (hm : m ∈ s.graph.order.take (s.index + 1)) :
    ¬s.graph.order.idxOf n < s.graph.order.idxOf m := by
  obtain ⟨hlt, rfl⟩ := List.getElem?_eq_some_iff.1 (place_eq hahead .declared).2
  obtain ⟨i, hi, rfl⟩ := List.mem_take_iff_getElem.1 hm
  rw [hg.order_nodup.idxOf_getElem, hg.order_nodup.idxOf_getElem]
  omega

/-- The sweep past a node that is not replaced. -/
theorem pass (h : Thorough s) (hg : s.graph.Linked)
    (hahead : s.graph.order.drop s.index = n :: ahead)
    (hpropose : propose n s.graph (s.facts.joinIncoming s.graph n) = .ok none)
    {F' : FactMap Known} (hF' : KnownSince s.graph s.facts F' n) :
    Thorough { s with facts := F', index := s.index + 1 } where
  fuel := h.fuel
  behind m hm := by
    intro v r parent hnode
    rw [Option.eq_none_iff_forall_ne_some]
    intro x hx
    -- A value that is known now was known before, or it became known ahead of the sweep.
    rcases hF' m (List.mem_of_mem_take hm) v x hx with hknown | hbehind
    · have hunknown : ReadsUnknown s.graph s.facts m := by
        rw [List.take_add_one, (place_eq hahead .declared).2, List.mem_append] at hm
        rcases hm with hm | hm
        · exact h.behind m hm
        · rw [List.mem_singleton.1 hm]
          exact readsUnknown_of_propose hpropose
      rw [hunknown v r parent hnode] at hknown
      cases hknown
    · exact not_lt_idxOf hg hahead hm hbehind

/-- A rewrite keeps what is behind the sweep. -/
theorem replace {parent : Option NodeId} {v : VarId} {r x : ExprId} {E : NodeId → Effect}
    {ls : List StmtId} {le la : List ExprId} {q : Program} {g' : Graph} {c : ExprId}
    {lc : List ExprId} {oc : List Operation} {F' : FactMap Known} {fuel : Fuel} (h : Thorough s)
    (hs : Sound g₀ body s) (hproposal : Proposal g₀ body s ahead n parent v r x E ls le la)
    (hin : Inlined s.program q s.graph g' n parent v r c x ls le la lc oc)
    (hF : Carried s.graph s.facts E n (inserted s.graph parent c oc) g' F')
    (hfuel : fuel.remaining = Fuel.endless) :
    Thorough { s with
      graph := g', program := q, facts := F', fuel, rewrites := s.rewrites + 1 } where
  fuel := hfuel
  behind m hm := by
    intro v' r' parent' hnode
    have hbehind : m ∈ s.graph.order.take s.index := by
      change m ∈ g'.order.take s.index at hm
      rwa [hproposal.order_after hs hin, List.take_left' hproposal.length_take] at hm
    have hmem := List.mem_of_mem_take hbehind
    have hmn : m ≠ n := by
      rintro rfl
      exact (hproposal.not_mem hs.linked).1 hbehind
    -- The node was there before, and read the same variable with the same facts.
    change g'.nodes.get? m = _ at hnode
    rw [(hin.spliced.rewritten hs.linked).node m hmem hmn] at hnode
    obtain ⟨node, hnode, hretarget⟩ := Option.map_eq_some_iff.1 hnode
    obtain ⟨r'', rfl⟩ := exists_of_retarget_eq hretarget
    change (F'.joinIncoming g' m).value v' = none
    rw [hF.old m hmem hmn]
    exact h.behind m hbehind v' r'' parent' hnode

/-- Each step keeps that no read of a known value is left behind. -/
theorem step {options : Options} (h : Thorough s) (hs : Sound g₀ body s)
    (hstep : s.step (analysis .declared) options = .ok (.next s')) : Thorough s' := by
  cases hahead : s.graph.order.drop s.index with
  | nil => cases hstep.symm.trans (step_eq_done _ options hahead)
  | cons n ahead =>
    obtain ⟨m, F', B, hinterpret, hsettle, _, hknown⟩ := hs.exists_pass hahead
    obtain ⟨node, hnode⟩ := Arena.exists_get?_of_lt (hs.linked.allocated n (mem_of_drop_eq hahead))
    rcases propose_cases hnode (s.facts.joinIncoming s.graph n) with
      hnone | ⟨v, r, x, hread, hx, hsome⟩
    · cases Sweep.step_eq_of_large hstep fun options hb =>
        step_interpreted hahead (judge_interpreted hnone hinterpret) (hsettle options.bound hb)
      exact h.pass hs.linked hahead hnone hknown
    · -- The fuel allows the rewrite, so the node is not passed.
      rw [hread] at hnode
      obtain ⟨E, ls, le, la, hproposal⟩ := hs.exists_proposal hahead hnode hx
      rcases consume_of_endless h.fuel with hover | ⟨fuel, hallowed, hfuel⟩
      · cases hstep.symm.trans (step_overflow hahead hsome hover)
      · obtain ⟨q, g', c, lc, oc, F'', B', hin, hF, hreplace⟩ := hproposal.exists_replace hs
        cases Sweep.step_eq_of_large hstep fun options hb =>
          (step_allowed hahead hsome hallowed).trans
            (hreplace options.bound hb options.verify s.index fuel)
        exact h.replace hs hproposal hin hF hfuel

/-- A sweep that comes to its end leaves no read of a known value. -/
theorem of_run {options : Options} {steps : Nat} {outcome : Except Error Unit}
    (h : Thorough s) (hs : Sound g₀ body s)
    (hrun : Sweep.run (analysis .declared) options steps s = .ok (outcome, s')) :
    outcome = .ok () ∧ Sound g₀ body s' ∧ Thorough s' ∧ s'.graph.order.drop s'.index = [] := by
  induction steps generalizing s with
  | zero => cases hrun
  | succ steps ih =>
    rw [Sweep.run] at hrun
    rcases hs.step with ⟨hend, hdone⟩ | ⟨_, hover⟩ | ⟨t, _, B, hlarge⟩
    · rw [hdone] at hrun
      cases hrun
      exact ⟨rfl, hs, h, hend⟩
    · rw [hover] at hrun
      cases hrun
    · cases hstep : s.step (analysis .declared) options with
      | error fault =>
        rw [hstep] at hrun
        cases hrun
      | ok progress =>
        obtain rfl := Sweep.step_eq_of_large hstep hlarge
        rw [hstep] at hrun
        exact ih (h.step hs hstep) (hs.progresses hstep).sound hrun

end Thorough

/-! ### The end -/

/-- A graph with facts, and the effects of its nodes. -/
structure Flow where
  graph : Graph
  facts : FactMap Known
  effects : NodeId → Effect

/-- The graph follows a body of a tree program, and the facts are settled. -/
structure Flow.Follows (φ : Flow) (p : Program) (body : StmtId) : Prop where
  tree : p.IsTree
  lists : ∃ ls le, p.Lists ls le ∧ body ∈ ls
  linked : φ.graph.Linked
  laidOut : φ.graph.LaidOut p body
  settled : Settled φ.graph φ.facts φ.effects
  effects : ∀ n ∈ φ.graph.order, HasEffect .declared p φ.graph n (φ.effects n)

/-- Some graph of the body has settled facts with which no node reads a variable whose value is
    known. -/
def Exhausted (p : Program) (body : StmtId) : Prop :=
  ∃ φ : Flow, φ.Follows p body ∧ ∀ n ∈ φ.graph.order, ReadsUnknown φ.graph φ.facts n

/-- Where the sweep is over no write is still to come. -/
theorem Sound.exhausted (hs : Sound g₀ body s) (h : Thorough s)
    (hend : s.graph.order.drop s.index = []) : Exhausted s.program body := by
  obtain ⟨E, hF, hE⟩ := hs.facts
  refine ⟨⟨s.graph, s.facts, E⟩, ⟨hs.tree, hs.lists, hs.linked, hs.laidOut, hF, fun n hn => ?_⟩,
    fun n hn => ?_⟩
  · refine (hE n hn).resolve_right fun ⟨row, after, _, _, _, _, hahead, _⟩ => ?_
    rw [hend] at hahead
    exact List.append_ne_nil_of_right_ne_nil _ (List.cons_ne_nil _ _) hahead.symm
  · refine h.behind n ?_
    rwa [List.take_of_length_le (List.drop_eq_nil_iff.1 hend)]

/-- Inlining in a body with fuel without end replaces all reads of known values. -/
theorem exhausted_of_integrate {m : MethodId} (hp : p.IsTree) (hbody : (m, body) ∈ p.bodies)
    (hg : Graph.ofBody p body = .ok (.ok g)) {options : Options} {fuel : Fuel} {i : Integration}
    (hfuel : fuel.remaining = Fuel.endless)
    (h : (analysis .declared).integrate options fuel g p = .ok i) :
    Exhausted i.program body ∧ i.fuel.remaining = Fuel.endless := by
  obtain ⟨F, hF, h⟩ := Run.bind_eq_ok.1 h
  obtain ⟨⟨outcome, s⟩, hrun, h⟩ := Run.bind_eq_ok.1 h
  obtain ⟨B, F', hsolve, hstart⟩ := exists_start hp hbody hg
  obtain rfl := Analysis.solve_eq_of_large hF hsolve
  have hthorough : Thorough (start g p F fuel) := ⟨hfuel, fun n hn => by cases hn⟩
  obtain ⟨_, hs, hthorough, hend⟩ := hthorough.of_run (hstart fuel) hrun
  cases h
  exact ⟨hs.exhausted hthorough hend, hthorough.fuel⟩

end Dataflow.Inlining
