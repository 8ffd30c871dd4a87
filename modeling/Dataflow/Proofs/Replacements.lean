import Dataflow.Proofs.Sweeps

/-!
# The sweep after a rewrite

Where the sweep proposes to replace a read by a copy of the value that it is known to have, the
rewrite succeeds and the sweep goes on at the first node of the copy, with everything that held
of it before (`Proposal.exists_replace`). The facts are settled again by one visit of each new node.

* `Proposal.exists_facts`: the facts after the rewrite;
* `Proposal.awaits_after`: the write that is still to come is the same one as before;
* `Proposal.sound`: what holds of the sweep after the rewrite.
-/

namespace Dataflow

/-- A rewrite that goes through, in a forward sweep, up to solving the facts again. -/
theorem Sweep.replace_eq {A T : Type} [Rewrite T] {an : Analysis A} {options : Options}
    {s : Sweep A} {place : Nat} {n : NodeId} {rewrite rewrite' : T} {g g' f : Graph} {q : Program}
    {inserted : List NodeId} (hforward : an.direction = .forward)
    (htransform : Rewrite.transform rewrite n s.graph s.program = .ok ⟨.ok rewrite', g, q⟩)
    (hfragment : Rewrite.fragment rewrite' q = .ok (.ok f))
    (hsplice : g.splice n f = (.ok inserted, g')) (hverify : g'.verify = .ok ()) :
    s.replace an options place n rewrite = (do
      let (_, facts) ← an.propagate options.bound g' q s.facts inserted
      return .next { s with graph := g', program := q, facts, rewrites := s.rewrites + 1 }) := by
  simp only [replace, htransform, hfragment, hsplice, hverify, hforward, ite_self, bind,
    Except.bind, pure, Except.pure]

namespace Inlining

variable {g₀ : Graph} {body : StmtId} {s : Sweep Known} {E : NodeId → Effect} {n m : NodeId}
  {ahead : List NodeId} {parent : Option NodeId} {v : VarId} {r x : ExprId} {ls : List StmtId}
  {le la : List ExprId} {q : Program} {g' : Graph} {c : ExprId} {lc : List ExprId}
  {oc : List Operation} {F' : FactMap Known}

/-- The nodes that a rewrite puts in place of the node it replaces. -/
def inserted (g : Graph) (parent : Option NodeId) (c : ExprId) (oc : List Operation) : List NodeId :=
  g.upcoming (insertedRow parent c oc).length

theorem retarget_size (g : Graph) (r c : ExprId) :
    (g.retarget r c).2.nodes.size = g.nodes.size :=
  Arena.size_foldl_modify _ _ _

theorem upcoming_retarget (g : Graph) (parent : Option NodeId) (r c : ExprId) (oc : List Operation) :
    (g.retarget r c).2.upcoming (insertedRow parent c oc).length = inserted g parent c oc := by
  rw [inserted, Graph.upcoming, Graph.upcoming, retarget_size]

theorem not_mem_order_of_mem_inserted {g : Graph} (hg : g.Linked) (hm : m ∈ inserted g parent c oc) :
    m ∉ g.order := fun hmem =>
  absurd (hg.allocated m hmem) (Nat.not_lt.2 (Graph.mem_upcoming.1 hm).1)

/-- The effects of the nodes of a graph, where all others change nothing. -/
def effectsIn (g : Graph) (E : NodeId → Effect) (m : NodeId) : Effect :=
  if m ∈ g.order then E m else .keep

/-- The facts `F'` of the graph `g'` arrive at the nodes that were there before as they did, and
    at each inserted node as they did at the node that was replaced. -/
structure Carried (g : Graph) (F : FactMap Known) (E : NodeId → Effect) (n : NodeId)
    (new : List NodeId) (g' : Graph) (F' : FactMap Known) : Prop where
  settled : Settled g' F' (effectsIn g E)
  new : ∀ m ∈ new, F'.joinIncoming g' m = F.joinIncoming g n
  old : ∀ m ∈ g.order, m ≠ n → F'.joinIncoming g' m = F.joinIncoming g m

namespace Proposal

variable (hs : Sound g₀ body s)
  (hin : Inlined s.program q s.graph g' n parent v r c x ls le la lc oc)
include hs hin

theorem mem_after (hm : m ∈ g'.order) :
    m ∈ inserted s.graph parent c oc ∨ m ∈ s.graph.order ∧ m ≠ n := by
  rw [(hin.spliced.rewritten hs.linked).order] at hm
  exact (mem_flatMap_inPlaceOf.1 hm).imp And.right id

/-- The inserted nodes change nothing. -/
theorem keep_of_inserted (hm : m ∈ inserted s.graph parent c oc) : HasEffect .declared q g' m .keep :=
  keep_of_inert (hin.edited.inRange hs.tree.inRange) hin.emits (hin.edited.inert hin.inert)
    (hin.spliced.rewritten hs.linked).spelled hm

/-- Facts that are settled before the rewrite are carried over to the graph after it, once they ran
    along the inserted nodes. -/
theorem carried {F : FactMap Known} (hF : Settled s.graph F E) (hn : n ∈ s.graph.order)
    (hkeep : E n = .keep) (hfilled : Filled (s.graph.retarget r c).2 F n (insertedRow parent c oc)
      (insertedRow parent c oc).length F') :
    Carried s.graph F E n (inserted s.graph parent c oc) g' F' := by
  have hF' : Settled (s.graph.retarget r c).2 F E := ⟨hF.initial, hF.changed, hF.fact⟩
  obtain ⟨hsettled, hnew, hold⟩ :=
    hfilled.settled hF' (hs.linked.retarget r c) hn hkeep hin.spliced
  rw [upcoming_retarget] at hnew
  exact ⟨hsettled, hnew, hold⟩

variable (h : Proposal g₀ body s ahead n parent v r x E ls le la)
include h

/-- The order of the nodes after the rewrite. -/
theorem order_after : g'.order = s.graph.order.take s.index ++ (inserted s.graph parent c oc ++ ahead) := by
  obtain ⟨hbefore, hafter⟩ := h.not_mem hs.linked
  rw [(hin.spliced.rewritten hs.linked).order]
  nth_rewrite 1 [h.order_eq]
  rw [List.flatMap_append, List.flatMap_cons, flatMap_inPlaceOf_of_not_mem hbefore,
    flatMap_inPlaceOf_of_not_mem hafter, inPlaceOf_self]
  rfl

theorem drop_after : g'.order.drop s.index = inserted s.graph parent c oc ++ ahead := by
  rw [h.order_after hs hin]
  exact List.drop_left' h.length_take

/-- One visit of each inserted node settles the facts again. -/
theorem exists_facts : ∃ F', (∀ b ≥ (insertedRow parent c oc).length, ∃ k,
      (analysis .declared).propagate b g' q s.facts (inserted s.graph parent c oc) = .ok (k, F')) ∧
    Carried s.graph s.facts E n (inserted s.graph parent c oc) g' F' := by
  have hlists := hin.edited.lists h.lists
  have hlaid := hin.laidOut hs.linked h.lists hs.laidOut h.body_mem
  have hrange := hin.edited.inRange hs.tree.inRange
  -- The effects of the nodes afterwards.
  have hexists : ∀ m, ∃ f, m ∈ g'.order → HasEffect .declared q g' m f := by
    intro m
    by_cases hm : m ∈ g'.order
    · obtain ⟨f, hf⟩ := exists_hasEffect hrange hlists h.body_mem hin.spliced.linked hlaid hm
      exact ⟨f, fun _ => hf⟩
    · exact ⟨.keep, fun h => absurd h hm⟩
  obtain ⟨A, hA⟩ := Classical.skolem.1 hexists
  have hkeep : ∀ m ∈ (s.graph.retarget r c).2.upcoming (insertedRow parent c oc).length,
      A m = .keep := by
    intro m hm
    rw [upcoming_retarget] at hm
    have hmem : m ∈ g'.order := by
      rw [h.order_after hs hin]
      exact List.mem_append_right _ (List.mem_append_left _ hm)
    exact (hA m hmem).unique (keep_of_inserted hs hin hm)
  have hF : Settled (s.graph.retarget r c).2 s.facts E :=
    ⟨h.settled.initial, h.settled.changed, h.settled.fact⟩
  obtain ⟨F', hfilled, hpropagate⟩ := hF.exists_propagate (hs.linked.retarget r c)
    h.mem h.keep hin.spliced hA hkeep
  rw [upcoming_retarget] at hpropagate
  exact ⟨F', hpropagate, carried hs hin h.settled h.mem h.keep hfilled⟩

/-- What is still to come is still to come after the rewrite. -/
theorem awaits_after (hF : Carried s.graph s.facts E n (inserted s.graph parent c oc) g' F')
    (hmn : m ≠ n) (ham : Awaits s.program s.graph s.facts E (n :: ahead) m) :
    Awaits q g' F' (effectsIn s.graph E) (inserted s.graph parent c oc ++ ahead) m := by
  obtain ⟨row, after, node, u, y, value, hahead, hnode, hkind, hu, hput, hrow⟩ := ham
  cases row with
  | nil =>
    obtain ⟨rfl, _⟩ := List.cons.inj hahead
    exact absurd rfl hmn
  | cons n' row =>
    obtain ⟨rfl, rfl⟩ := List.cons.inj hahead
    rw [List.forall_mem_cons] at hrow
    have hmem : m ∈ s.graph.order := h.mem_of_ahead (by simp)
    refine ⟨inserted s.graph parent c oc ++ row, after, node.retarget r c, u, redirect r c y, value,
      (List.append_assoc ..).symm, ?_, ?_, ?_, ?_, ?_⟩
    · rw [(hin.spliced.rewritten hs.linked).node m hmem hmn, hnode]
      rfl
    · rw [Node.retarget, hkind]
      rfl
    · rw [hin.isOfMethod_eq]
      exact hu
    · rw [effectsIn, if_pos hmem]
      exact hput
    · intro k hk
      rcases List.mem_append.1 hk with hk | hk
      · rw [effectsIn, if_neg (not_mem_order_of_mem_inserted hs.linked hk), hF.new k hk]
        exact ⟨rfl, hrow.1.2⟩
      · have hk' : k ∈ s.graph.order := h.mem_of_ahead (List.mem_append_left _ hk)
        have hkn : k ≠ n := by
          rintro rfl
          exact (h.not_mem hs.linked).2 (List.mem_append_left _ hk)
        rw [effectsIn, if_pos hk', hF.old k hk' hkn]
        exact hrow.2 k hk

/-- The inserted nodes read no variable whose value is known there. -/
theorem quiet_after (hF : Carried s.graph s.facts E n (inserted s.graph parent c oc) g' F')
    (hm : m ∈ inserted s.graph parent c oc) : Quiet q g' F' m := by
  refine ⟨keep_of_inserted hs hin hm, fun node u hnode hkind => ?_⟩
  rw [hF.new m hm, Option.eq_none_iff_forall_ne_some]
  intro z hz
  obtain ⟨rfl, rfl⟩ := h.only u z hz
  obtain ⟨kind, e, hnode', hop⟩ :=
    (hin.spliced.rewritten hs.linked).spelled.exists_of_mem hm
  rw [hnode] at hnode'
  cases hnode'
  cases hkind
  rcases hop with hop | ⟨_, hcall⟩ | hnop
  · -- The copy does not name the variable.
    obtain ⟨hel, y, ins, own, hy, hemits, ho⟩ := hin.emits.exists_of_mem hop
    have havoids := hin.edited.avoids h.avoids e hel y hy
    obtain ⟨_, ⟨_, hread, rfl | ⟨_, rfl⟩⟩ | ⟨_, _, _, _, hwrite, _⟩ | ⟨_, hboth, _⟩ | ⟨hcall, _⟩⟩ :=
      Program.own_cases hemits ho
    · cases hread
      exact havoids rfl
    · cases hread
      exact havoids rfl
    · cases hwrite
    · cases hboth
    · cases hcall
  · cases hcall
  · cases hnop

/-- Any other node has the effect that it had, or awaits. -/
theorem effect_after (hF : Carried s.graph s.facts E n (inserted s.graph parent c oc) g' F')
    (hm : m ∈ g'.order) : HasEffect .declared q g' m (effectsIn s.graph E m) ∨
      Awaits q g' F' (effectsIn s.graph E) (inserted s.graph parent c oc ++ ahead) m := by
  rcases mem_after hs hin hm with hm | ⟨hm, hmn⟩
  · left
    rw [effectsIn, if_neg (not_mem_order_of_mem_inserted hs.linked hm)]
    exact keep_of_inserted hs hin hm
  · rcases h.effects m hm with heffect | haw
    · rcases hin.hasEffect hs.tree.inRange h.lists h.body_mem hs.linked hs.laidOut hm hmn heffect with
        heffect' | ⟨node, u, y, l, hnode, hkind, hu, hspans, hinert, hr⟩
      · left
        rwa [effectsIn, if_pos hm]
      · exact .inr (h.awaits_after hs hin hF hmn (h.awaits hs.linked hs.laidOut hs.tree.inRange hin hm
          hnode hkind hspans hinert hr heffect hu))
    · exact .inr (h.awaits_after hs hin hF hmn haw)

/-- The reads still to come are one fewer. -/
theorem readCount_after : readCount g' g₀.nodes.size (inserted s.graph parent c oc ++ ahead) + 1 =
    readCount s.graph g₀.nodes.size (n :: ahead) := by
  have hnew : readCount g' g₀.nodes.size (inserted s.graph parent c oc) = 0 := by
    refine List.countP_eq_zero.2 fun m hm => ?_
    have := (Graph.mem_upcoming.1 hm).1
    have := hs.size
    simp only [readsEarly, Bool.and_eq_true, decide_eq_true_eq, not_and]
    omega
  have hahead : readCount g' g₀.nodes.size ahead = readCount s.graph g₀.nodes.size ahead := by
    refine List.countP_congr fun m hm => ?_
    have hmn : m ≠ n := by
      rintro rfl
      exact (h.not_mem hs.linked).2 hm
    rw [readsEarly, readsEarly, (hin.spliced.rewritten hs.linked).node m (h.mem_of_ahead hm) hmn]
    cases s.graph.nodes.get? m with
    | none => rfl
    | some node => cases hkind : node.kind <;> simp [Node.retarget, NodeKind.retarget, hkind]
  rw [readCount, List.countP_append, ← readCount, ← readCount, hnew, hahead, readCount_cons,
    readsEarly, h.node]
  simp [h.early]

/-- What holds of the sweep before a rewrite holds of it afterwards. -/
theorem sound (hF : Carried s.graph s.facts E n (inserted s.graph parent c oc) g' F') (fuel : Fuel) :
    Sound g₀ body { s with
      graph := g', program := q, facts := F', fuel, rewrites := s.rewrites + 1 } where
  tree := hin.edited.isTree hs.tree h.lists
  lists := ⟨_, _, hin.edited.lists h.lists, h.body_mem⟩
  linked := hin.spliced.linked
  laidOut := hin.laidOut hs.linked h.lists hs.laidOut h.body_mem
  facts := by
    refine ⟨effectsIn s.graph E, hF.settled, fun m hm => ?_⟩
    rw [h.drop_after hs hin]
    exact h.effect_after hs hin hF hm
  size := by
    have hsize : g'.nodes.size = (s.graph.retarget r c).2.nodes.size + _ := hin.spliced.size
    rw [retarget_size] at hsize
    exact Nat.le_trans hs.size (hsize ▸ Nat.le_add_right _ _)
  original m hm hlt := by
    rcases mem_after hs hin hm with hm | ⟨hm, _⟩
    · exact absurd (Nat.lt_of_lt_of_le hlt hs.size) (Nat.not_lt.2 (Graph.mem_upcoming.1 hm).1)
    · exact hs.original m hm hlt
  ahead := by
    refine ⟨inserted s.graph parent c oc, ahead, h.drop_after hs hin, fun m hm => ?_, h.rest⟩
    exact ⟨Nat.le_trans hs.size (Graph.mem_upcoming.1 hm).1, h.quiet_after hs hin hF hm⟩
  budget := by
    have hbudget := hs.budget
    rw [h.order, ← h.readCount_after hs hin] at hbudget
    change s.rewrites + 1 + readCount g' _ (g'.order.drop s.index) ≤ _
    rw [h.drop_after hs hin]
    omega

end Proposal

/-- Where the sweep proposes a rewrite, the program and the graph can be edited. -/
theorem Proposal.exists_inlined (h : Proposal g₀ body s ahead n parent v r x E ls le la)
    (hs : Sound g₀ body s) : ∃ q g' c lc oc f,
      Inlined s.program q s.graph g' n parent v r c x ls le la lc oc ∧
      Rewrite.transform ({ read := r, value := x } : Substitute) n s.graph s.program =
        .ok ⟨.ok { read := r, value := x, copy := some c }, (s.graph.retarget r c).2, q⟩ ∧
      Rewrite.fragment ({ read := r, value := x, copy := some c } : Substitute) q = .ok (.ok f) ∧
      (s.graph.retarget r c).2.splice n f = (.ok (inserted s.graph parent c oc), g') := by
  obtain ⟨q, g', c, lc, oc, f, stmtNode, st, hcontaining, horigin, ⟨p₁, hclone, hreplace⟩, hfragment,
    hsplice, hin⟩ := Inlined.exists_inlined hs.tree h.lists h.body_mem hs.linked hs.laidOut h.mem
    h.node h.tracked h.spans h.inert
  refine ⟨q, g', c, lc, oc, f, hin, ?_, hfragment, hsplice⟩
  obtain ⟨⟨_, origin, _⟩, hnode, horigin⟩ := Option.map_eq_some_iff.1 horigin
  obtain rfl : origin = .stmt st := horigin
  change Substitute.transform _ _ _ _ = _
  rw [Substitute.transform, hcontaining]
  change (s.graph.nodes.get stmtNode >>= _) = _
  rw [Arena.get_eq_ok_iff.2 hnode]
  change (s.program.cloneExpr x >>= _) = _
  rw [hclone]
  change (p₁.replaceExpr st r c >>= _) = _
  rw [hreplace]
  rfl

/-- Then the rewrite succeeds, if the facts can be solved again. -/
theorem replace_eq_ok {f : Graph} {B : Nat} (hlinked : g'.Linked)
    (htransform : Rewrite.transform ({ read := r, value := x } : Substitute) n s.graph s.program =
      .ok ⟨.ok { read := r, value := x, copy := some c }, (s.graph.retarget r c).2, q⟩)
    (hfragment : Rewrite.fragment ({ read := r, value := x, copy := some c } : Substitute) q =
      .ok (.ok f))
    (hsplice : (s.graph.retarget r c).2.splice n f = (.ok (inserted s.graph parent c oc), g'))
    (hpropagate : ∀ b ≥ B, ∃ k, (analysis .declared).propagate b g' q s.facts
      (inserted s.graph parent c oc) = .ok (k, F')) : ∀ b ≥ B, ∀ verify place fuel,
    Sweep.replace (analysis .declared).toAnalysis ⟨verify, b⟩ { s with fuel } place n
      ({ read := r, value := x } : Substitute) = .ok (.next { s with
        graph := g', program := q, facts := F', fuel, rewrites := s.rewrites + 1 }) := by
  intro b hb verify place fuel
  obtain ⟨k, hk⟩ := hpropagate b hb
  rw [Sweep.replace_eq (s := { s with fuel }) rfl htransform hfragment hsplice hlinked.verify_eq]
  change ((analysis .declared).propagate b g' q s.facts _ >>= _) = _
  rw [hk]
  rfl

theorem Proposal.exists_replace (h : Proposal g₀ body s ahead n parent v r x E ls le la)
    (hs : Sound g₀ body s) : ∃ q g' c lc oc F' B,
      Inlined s.program q s.graph g' n parent v r c x ls le la lc oc ∧
      Carried s.graph s.facts E n (inserted s.graph parent c oc) g' F' ∧
      ∀ b ≥ B, ∀ verify place fuel,
        Sweep.replace (analysis .declared).toAnalysis ⟨verify, b⟩ { s with fuel } place n
          ({ read := r, value := x } : Substitute) = .ok (.next { s with
            graph := g', program := q, facts := F', fuel, rewrites := s.rewrites + 1 }) := by
  obtain ⟨q, g', c, lc, oc, f, hin, htransform, hfragment, hsplice⟩ := h.exists_inlined hs
  obtain ⟨F', hpropagate, hF⟩ := h.exists_facts hs hin
  exact ⟨q, g', c, lc, oc, F', (insertedRow parent c oc).length, hin, hF,
    replace_eq_ok hin.spliced.linked htransform hfragment hsplice hpropagate⟩

end Inlining

end Dataflow
