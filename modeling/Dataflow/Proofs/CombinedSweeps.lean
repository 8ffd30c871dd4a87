import Dataflow.Proofs.ExactSolving
import Dataflow.Proofs.FirstSides
import Dataflow.Proofs.Integration
import Dataflow.Proofs.PendingWrites

/-!
# Inlining with a passive companion

Inlining is carried out together with an analysis that proposes nothing. Facts of the companion that
change make the solver visit nodes at other times, so that a write which a rewrite has given another
value may be found before the sweep comes to it. The facts of inlining are then not those that they
would be alone, and a wave has run too early.

But they are the same up to this write, where the sweep decides next, and they are the same everywhere
once the sweep has come to it, as there is only one way for a wave to end (`Driven.get_eq`). So the
sweeps go side by side and make the same rewrites.

* `Beside`: the facts of inlining alone and those with a companion, at the same place;
* `Alongside.step`, `Alongside.run`: a step of the sweep with a companion, and all of them;
* `integrate_combined_eq_integrate`: both leave the same.
-/

namespace Dataflow

/-- The sweep with other facts, at the same place. -/
def Sweep.withFacts {A C : Type} (s : Sweep A) (m : FactMap C) : Sweep C where
  graph := s.graph
  program := s.program
  facts := m
  fuel := s.fuel
  index := s.index
  rewrites := s.rewrites

/-- The analysis never proposes a rewrite. On graphs that follow a body of a tree program, it puts on
    each edge some function of what arrives at the node that the edge leaves. -/
structure RewritingAnalysis.Passive {B T : Type} [DecidableEq B] [Fact B]
    (an : RewritingAnalysis B T) : Prop where
  judge_eq : ∀ n g p m, an.judge n g p m = (do return (.interpreted, ← an.interpret n g p m))
  follows : ∀ g p body, p.IsTree → g.Linked → g.LaidOut p body →
    ∃ f, an.toAnalysis.Follows g p f

namespace Inlining

variable {g₀ : Graph} {body : StmtId} {s : Sweep Known} {p q : Program} {g g' : Graph}
  {F F' G G' : FactMap Known} {E A : NodeId → Effect} {n k : NodeId} {row ahead after : List NodeId}
  {parent : Option NodeId} {v w : VarId} {r x c : ExprId} {ls : List StmtId} {le la lc : List ExprId}
  {oc : List Operation} {a b : Option ExprId} {B : Type} [DecidableEq B] [Fact B]
  {second : Analysis B} {M M' M'' : FactMap (Known × B)} {bound : Nat}

/-! ### The facts, alone and with a companion -/

/-- The facts `G` next to the facts `F`, which are settled for the effects `E`, where the nodes `ahead`
    are still to come: they are the same; or the effect of a write ahead changed, to which the way is
    clear, and they are the same or a wave from this write leads from `F` to `G`. -/
inductive Beside (p : Program) (g : Graph) (F : FactMap Known) (E : NodeId → Effect)
    (ahead : List NodeId) (G : FactMap Known) : Prop
  | calm : (∀ m ∈ g.order, HasEffect .declared p g m (E m)) → Level g F G → Beside p g F E ahead G
  | pending {A : NodeId → Effect} {k : NodeId} {w : VarId} {a b : Option ExprId}
      {row after : List NodeId} : ahead = row ++ k :: after → Turns p g E A k w a b →
    Clear p g F E row k w a → Level g F G ∨ Driven g F A k w b G ∧ Settled g G A →
    Beside p g F E ahead G

/-- All nodes have the effects that the facts are settled for, but for the write. -/
theorem Beside.effects (h : Beside p g F E ahead G) (hp : p.InRange) (hl : p.Lists ls le)
    (hbody : body ∈ ls) (hlaid : g.LaidOut p body) :
    ∀ m ∈ g.order, HasEffect .declared p g m (E m) ∨ Awaits p g F E ahead m := by
  intro m hm
  cases h with
  | calm hE _ => exact .inl (hE m hm)
  | @pending A k _ _ _ _ _ hahead hE hclear _ =>
    by_cases hmk : m = k
    · rw [hmk, hahead]
      exact .inr (hclear.awaits hE hp hl hbody hlaid)
    · rw [← hE.same m hmk]
      exact .inl (hE.effects m hm)

theorem idxOf_le_of_drop_eq {order : List NodeId} {i : Nat} (hnodup : order.Nodup)
    (hahead : order.drop i = n :: ahead) (hk : k ∈ ahead) : order.idxOf n ≤ order.idxOf k := by
  have horder := List.take_append_drop i order
  rw [hahead] at horder
  rw [← horder, List.nodup_append] at hnodup
  have hbefore : ∀ m ∈ n :: ahead, m ∉ order.take i := fun m hm hmem => hnodup.2.2 m hmem m hm rfl
  rw [← horder, List.idxOf_append_of_notMem (hbefore n List.mem_cons_self),
    List.idxOf_append_of_notMem (hbefore k (List.mem_cons_of_mem _ hk)), List.idxOf_cons_self]
  omega

/-- The same rewrite is proposed, or none is. -/
theorem Beside.propose_eq (h : Beside p g F E (n :: ahead) G) (hp : p.InRange) (hl : p.Lists ls le)
    (hbody : body ∈ ls) (hg : g.Linked) (hlaid : g.LaidOut p body) (hF : Settled g F E) {i : Nat}
    (hahead : g.order.drop i = n :: ahead) :
    propose n g (G.joinIncoming g n) = propose n g (F.joinIncoming g n) := by
  have hord := hlaid.ordered hg.toWired
  cases h with
  | calm _ hlevel => rw [hlevel.joinIncoming_eq hg.toWired]
  | @pending A k w _ _ row after hrow hE hclear hfacts =>
    cases row with
    | nil =>
      -- The write itself is never replaced.
      obtain ⟨rfl, _⟩ := List.cons.inj hrow
      obtain ⟨_, node, y, _, hnode, hkind, _⟩ :=
        (hE.new ▸ hE.effects n hE.mem).of_put hp hl hbody hlaid hE.mem
      have hnone : ∀ known, propose n g known = .ok none := by
        intro known
        rcases propose_cases hnode known with hnone | ⟨v, r, x, hread, _⟩
        · exact hnone
        · rw [hread] at hkind
          cases hkind
      rw [hnone, hnone]
    | cons m row =>
      obtain ⟨rfl, htail⟩ := List.cons.inj hrow
      rcases hfacts with hlevel | ⟨hdriven, hG⟩
      · rw [hlevel.joinIncoming_eq hg.toWired]
      · rw [hdriven.joinIncoming_eq hF hg.toWired hE.toRises hord hE.ne hG (mem_of_drop_eq hahead)
          (idxOf_le_of_drop_eq hg.order_nodup hahead ?_) (hclear.unseen n List.mem_cons_self)]
        rw [htail]
        exact List.mem_append_right _ List.mem_cons_self

/-! ### Past a node -/

/-- The sweep `s` of inlining alone, and the facts `M` of the sweep with a companion at the same
    place. -/
structure Alongside (g₀ : Graph) (body : StmtId) (s : Sweep Known) (M : FactMap (Known × B)) :
    Prop where
  sound : Sound g₀ body s
  facts : ∃ E G, Settled s.graph s.facts E ∧ G.IsFirst M ∧ (G.changed = [] ∧ M.changed = []) ∧
    Beside s.program s.graph s.facts E (s.graph.order.drop s.index) G

omit [DecidableEq B] [Fact B] in
/-- Where the node does what the facts are settled for, inlining alone changes nothing there. -/
theorem exists_pass_unchanged (hs : Sound g₀ body s) (hahead : s.graph.order.drop s.index = n :: ahead)
    (hF : Settled s.graph s.facts E) (hE : HasEffect .declared s.program s.graph n (E n))
    (heffects : ∀ m ∈ s.graph.order, HasEffect .declared s.program s.graph m (E m) ∨
      Awaits s.program s.graph s.facts E (n :: ahead) m)
    (hG : G.IsFirst M) (hchanged : G.changed = [] ∧ M.changed = [])
    (hbeside : Beside s.program s.graph s.facts E ahead G) : ∃ m F' bound,
      (analysis .declared).interpret n s.graph s.program s.facts = .ok m ∧
      (∀ b ≥ bound, (analysis .declared).settle b s.graph s.program m = .ok F') ∧
      ∀ fuel, Alongside g₀ body { s with facts := F', index := s.index + 1, fuel } M := by
  obtain ⟨hinterpret, hpass⟩ := hs.exists_pass_settled hahead ⟨E, hF, hE, heffects⟩
  refine ⟨s.facts, s.facts, 0, hinterpret, fun b _ => Analysis.settle_eq _ _ _ _ hF.changed,
    fun fuel => ⟨hpass fuel, E, G, hF, hG, hchanged, ?_⟩⟩
  change Beside s.program s.graph s.facts E (s.graph.order.drop (s.index + 1)) G
  rwa [drop_succ_of_drop_eq hahead]

section Pass

variable {h : NodeId → EdgeId → B → B} (hs : Sound g₀ body s)
  (hahead : s.graph.order.drop s.index = n :: ahead) (hF : Settled s.graph s.facts E)
  (hdir : second.direction = .forward) (hh : second.Follows s.graph s.program h)
  (hG : G.IsFirst M) (hchanged : G.changed = [] ∧ M.changed = [])
  (hinterpret : ((analysis .declared).toAnalysis.pair second).interpret n s.graph s.program M = .ok M')
  (hsettle : ((analysis .declared).toAnalysis.pair second).settle bound s.graph s.program M' = .ok M'')
include hs hahead hF hdir hh hG hchanged hinterpret hsettle

/-- The sweeps go past a node. -/
theorem Beside.pass (hbeside : Beside s.program s.graph s.facts E (n :: ahead) G) : ∃ m F' bound,
    (analysis .declared).interpret n s.graph s.program s.facts = .ok m ∧
      (∀ b ≥ bound, (analysis .declared).settle b s.graph s.program m = .ok F') ∧
      ∀ fuel, Alongside g₀ body { s with facts := F', index := s.index + 1, fuel } M'' := by
  obtain ⟨ls, le, hl, hbody⟩ := hs.lists
  have hn := mem_of_drop_eq hahead
  have hg := hs.linked.toWired
  have hord := hs.laidOut.ordered hg
  have hx : Worklist.IsFirst { facts := G, queue := [n] } { facts := M, queue := [n] } :=
    ⟨hG, rfl, hchanged⟩
  have heffects := hbeside.effects hs.tree.inRange hl hbody hs.laidOut
  cases hbeside with
  | calm hE hlevel =>
    obtain ⟨v, y, rfl, hy, hnil, hlevel'⟩ := hx.of_interpret hg hdir (level_stable hg hF)
      (analysis_follows hE) hh rfl hn hlevel hinterpret hsettle
    exact exists_pass_unchanged hs hahead hF (hE n hn) heffects hy.facts hy.unchanged (.calm hE hlevel')
  | @pending A k w a b row after hrow hE hclear hfacts =>
    have hripples (must : Prop) (hmust : must → k = n) :
        Ripples s.graph s.facts A k w b must { facts := G, queue := [n] } := by
      refine hfacts.imp (fun hlevel => ⟨hlevel, fun hm => List.mem_singleton.2 (hmust hm)⟩) ?_
      exact fun ⟨hdriven, hG⟩ => ⟨hdriven, fun m hm _ => hG.fact m hm⟩
    cases row with
    | nil =>
      -- This is the write: both waves run, and end with the same facts.
      obtain ⟨rfl, rfl⟩ := List.cons.inj hrow
      obtain ⟨v, y, rfl, hy, hnil, hend⟩ := hx.of_interpret hg hdir
        (Ripples.stable hg hord hF hE) (analysis_follows hE.effects) hh rfl hn
        (hripples True fun _ => rfl) hinterpret hsettle
      obtain ⟨hdriven, hsettled⟩ := (hend.ends hnil hy.unchanged.1).resolve_left fun h => h.2 trivial
      obtain ⟨m, F', bound', hint, hsettle', hsettled', hdriven'⟩ :=
        hE.exists_settle hF hg hord hE.ne hn hE.effects
      have hlevel : Level s.graph F' y.facts :=
        ⟨hsettled.initial.trans hsettled'.initial.symm, fun e m m' he =>
          hdriven.get_eq hg hE.toRises hdriven' hsettled hsettled' he⟩
      exact ⟨m, F', bound', hint, hsettle', fun fuel => ⟨hs.next_of_write hahead
        (hE.new ▸ hE.effects n hn) hsettled' hE.effects fuel, A, y.facts, hsettled', hy.facts,
        hy.unchanged, .calm hE.effects hlevel⟩⟩
    | cons m row =>
      obtain ⟨rfl, htail⟩ := List.cons.inj hrow
      have hnk : n ≠ k := by
        rintro rfl
        cases (hclear.keep n List.mem_cons_self).symm.trans hE.old
      obtain ⟨v, y, rfl, hy, hnil, hend⟩ := hx.of_interpret hg hdir
        (Ripples.stable hg hord hF hE) (analysis_follows hE.effects) hh rfl hn
        (hripples False False.elim) hinterpret hsettle
      exact exists_pass_unchanged hs hahead hF (hE.same n hnk ▸ hE.effects n hn) heffects hy.facts
        hy.unchanged (.pending htail hE hclear.tail
          ((hend.ends hnil hy.unchanged.1).imp_left And.left))

end Pass

/-! ### After a rewrite -/

namespace Proposal

variable (hs : Sound g₀ body s)
  (hin : Inlined s.program q s.graph g' n parent v r c x ls le la lc oc)
include hs hin

/-- Facts that were the same are carried over to the same. -/
theorem level_after (hF : Carried s.graph s.facts E n (inserted s.graph parent c oc) g' F')
    (hG : Carried s.graph G E n (inserted s.graph parent c oc) g' G')
    (hlevel : Level s.graph s.facts G) : Level g' F' G' := by
  have hg := hin.spliced.linked.toWired
  refine ⟨hG.settled.initial.trans hF.settled.initial.symm, fun e m m' he => ?_⟩
  rw [hG.settled.get_of_joins hg he, hF.settled.get_of_joins hg he, leaving, leaving]
  rcases mem_after hs hin (hg.source_mem he) with hm | ⟨hm, hmn⟩
  · rw [hG.new m hm, hF.new m hm, hlevel.joinIncoming_eq hs.linked.toWired]
  · rw [hG.old m hm hmn, hF.old m hm hmn, hlevel.joinIncoming_eq hs.linked.toWired]

/-- Facts that a wave leads to are carried over to such facts. -/
theorem driven_after (h : Proposal g₀ body s ahead n parent v r x E ls le la) (hE : Rises s.graph E A k w a b)
    (hF : Carried s.graph s.facts E n (inserted s.graph parent c oc) g' F')
    (hG : Carried s.graph G A n (inserted s.graph parent c oc) g' G')
    (hdriven : Driven s.graph s.facts A k w b G) : Driven g' F' (effectsIn s.graph A) k w b G' := by
  -- The graph with the copy in place of the read in its nodes has the same edges.
  have hcarried {F F' : FactMap Known} {E : NodeId → Effect}
      (hF : Carried s.graph F E n (inserted s.graph parent c oc) g' F') :
      Carried (s.graph.retarget r c).2 F E n
        ((s.graph.retarget r c).2.upcoming (insertedRow parent c oc).length) g' F' := by
    rw [upcoming_retarget]
    exact ⟨hF.settled, hF.new, hF.old⟩
  have hafter : Driven g' F' (effectsIn (s.graph.retarget r c).2 A) k w b G' :=
    Carried.driven (hs.linked.retarget r c) hin.spliced
      ⟨h.settled.initial, h.settled.changed, h.settled.fact⟩ ⟨hE.same, hE.old, hE.new, hE.unique⟩
      h.keep (hcarried hF) (hcarried hG) ⟨⟨hdriven.initial, hdriven.contains, hdriven.others⟩,
        hdriven.remains, hdriven.upheld, hdriven.swept⟩
  exact hafter

/-- Solving the facts of both again, from the inserted nodes on. -/
theorem exists_first_after {f : NodeId → EdgeId → B → B} {I : Worklist Known → Prop}
    {E' : NodeId → Effect} {count : Nat} (hn : n ∈ s.graph.order) (hdir : second.direction = .forward)
    (hh : second.Follows g' q f) (hG : G.IsFirst M) (hsettled : Settled s.graph G E')
    (hkeep : E' n = .keep) (hA : ∀ m ∈ g'.order, HasEffect .declared q g' m (A m))
    (hI : Worklist.Stable (analysis .declared).toAnalysis g' (fun n _ => (A n).apply) I)
    (hend : ∀ y : Worklist Known,
      Carried s.graph G E' n (inserted s.graph parent c oc) g' y.facts → I y)
    (hpropagate : ((analysis .declared).toAnalysis.pair second).propagate bound g' q M
      (inserted s.graph parent c oc) = .ok (count, M')) :
    ∃ y, y.facts.IsFirst M' ∧ (y.facts.changed = [] ∧ M'.changed = []) ∧ y.queue = [] ∧ I y := by
  rw [← upcoming_retarget s.graph parent r c oc] at hpropagate
  have hinserted : ∀ m ∈ (s.graph.retarget r c).2.upcoming (insertedRow parent c oc).length,
      A m = .keep := by
    intro m hm
    have hmem : m ∈ g'.order := by
      rw [hin.spliced.order]
      exact mem_flatMap_inPlaceOf.2 (.inl ⟨hn, hm⟩)
    rw [upcoming_retarget] at hm
    exact (hA m hmem).unique (keep_of_inserted hs hin hm)
  obtain ⟨u, y, rfl, hy, hnil, hIy⟩ := Filling.of_propagate (hs.linked.retarget r c) hin.spliced
    ⟨hsettled.initial, hsettled.changed, hsettled.fact⟩ hn hkeep hdir hA hh hinserted hI
    (fun y hfilled => hend y (carried hs hin hsettled hn hkeep hfilled))
    (insertedRow_ne_nil parent c oc) hG hpropagate
  exact ⟨y, hy.facts, hy.unchanged, hnil, hIy⟩

/-- A write whose effect changed lies ahead after the rewrite: the facts that solving again ends with
    stand beside those of inlining alone, if the facts that it starts from do. -/
theorem exists_beside_of_turns {f : NodeId → EdgeId → B → B} {E' : NodeId → Effect} {count : Nat}
    (h : Proposal g₀ body s ahead n parent v r x E ls le la) (hdir : second.direction = .forward)
    (hh : second.Follows g' q f) (hG : G.IsFirst M)
    (hF : Carried s.graph s.facts E n (inserted s.graph parent c oc) g' F')
    (hrow : inserted s.graph parent c oc ++ ahead = row ++ k :: after)
    (hE : Turns q g' (effectsIn s.graph E) A k w a b)
    (hclear : Clear q g' F' (effectsIn s.graph E) row k w a) (hsettled : Settled s.graph G E')
    (hkeep : E' n = .keep)
    (hend : ∀ y : Worklist Known, Carried s.graph G E' n (inserted s.graph parent c oc) g' y.facts →
      Ripples g' F' A k w b False y)
    (hpropagate : ((analysis .declared).toAnalysis.pair second).propagate bound g' q M
      (inserted s.graph parent c oc) = .ok (count, M')) :
    ∃ G', G'.IsFirst M' ∧ (G'.changed = [] ∧ M'.changed = []) ∧
      Beside q g' F' (effectsIn s.graph E) (inserted s.graph parent c oc ++ ahead) G' := by
  have hg := hin.spliced.linked.toWired
  have hord := (hin.laidOut hs.linked h.lists hs.laidOut h.body_mem).ordered hg
  obtain ⟨y, hy, hchanged, hnil, hripples⟩ := exists_first_after hs hin h.mem hdir hh hG
    hsettled hkeep hE.effects (Ripples.stable hg hord hF.settled hE) hend hpropagate
  exact ⟨y.facts, hy, hchanged,
    .pending hrow hE hclear ((hripples.ends hnil hchanged.1).imp_left And.left)⟩

end Proposal

/-- The sweeps carry out a rewrite. -/
theorem Beside.replace {f : NodeId → EdgeId → B → B} {count : Nat} (hs : Sound g₀ body s)
    (hin : Inlined s.program q s.graph g' n parent v r c x ls le la lc oc)
    (h : Proposal g₀ body s ahead n parent v r x E ls le la)
    (hbeside : Beside s.program s.graph s.facts E (n :: ahead) G) (hdir : second.direction = .forward)
    (hh : second.Follows g' q f) (hG : G.IsFirst M) (hchanged : G.changed = [])
    (hF : Carried s.graph s.facts E n (inserted s.graph parent c oc) g' F')
    (hpropagate : ((analysis .declared).toAnalysis.pair second).propagate bound g' q M
      (inserted s.graph parent c oc) = .ok (count, M')) (fuel : Fuel) :
    Alongside g₀ body { s with
      graph := g', program := q, facts := F', fuel, rewrites := s.rewrites + 1 } M' := by
  suffices ∃ G', G'.IsFirst M' ∧ (G'.changed = [] ∧ M'.changed = []) ∧
      Beside q g' F' (effectsIn s.graph E) (inserted s.graph parent c oc ++ ahead) G' by
    obtain ⟨G', hG', hchanged', hbeside'⟩ := this
    refine ⟨h.sound hs hin hF fuel, effectsIn s.graph E, G', hF.settled, hG', hchanged', ?_⟩
    change Beside q g' F' _ (g'.order.drop s.index) G'
    rwa [h.drop_after hs hin]
  cases hbeside with
  | calm hE hlevel =>
    have hsettled := hlevel.settled hs.linked.toWired h.settled hchanged
    rcases h.clear_of_effects hs hin hF hE with hE' | ⟨A, k, w, a, b, row, after, hrow, hturns, hclear⟩
    · obtain ⟨y, hy, hchanged, _, hlevel'⟩ := Proposal.exists_first_after hs hin h.mem hdir hh hG
        hsettled h.keep hE' (level_stable hin.spliced.linked.toWired hF.settled)
        (fun y hy => Proposal.level_after hs hin hF hy hlevel) hpropagate
      exact ⟨y.facts, hy, hchanged, .calm hE' hlevel'⟩
    · exact Proposal.exists_beside_of_turns hs hin h hdir hh hG hF hrow hturns hclear hsettled h.keep
        (fun y hy => .inl ⟨Proposal.level_after hs hin hF hy hlevel, False.elim⟩) hpropagate
  | @pending A k w a b row after hrow hE hclear hfacts =>
    obtain ⟨row', hrow', hE', hclear'⟩ := h.clear_of_clear hs hin hF hE hrow hclear
    have hnk : n ≠ k := by
      rintro rfl
      cases h.keep.symm.trans hE.old
    rcases hfacts with hlevel | ⟨hdriven, hsettled⟩
    · exact Proposal.exists_beside_of_turns hs hin h hdir hh hG hF hrow' hE' hclear'
        (hlevel.settled hs.linked.toWired h.settled hchanged) h.keep
        (fun y hy => .inl ⟨Proposal.level_after hs hin hF hy hlevel, False.elim⟩) hpropagate
    · exact Proposal.exists_beside_of_turns hs hin h hdir hh hG hF hrow' hE' hclear' hsettled
        ((hE.same n hnk).trans h.keep) (fun y hy => .inr
          ⟨Proposal.driven_after hs hin h hE.toRises hF hy hdriven, fun m hm _ => hy.settled.fact m hm⟩)
        hpropagate

/-! ### Step by step -/

section Judge

variable {T : Type} {an : RewritingAnalysis B T} (hG : G.IsFirst M)
include hG

omit [DecidableEq B] in
theorem joinIncoming_side (g : Graph) (n : NodeId) :
    (M.side g n Prod.fst).joinIncoming g n = G.joinIncoming g n := by
  rw [FactMap.joinIncoming, FactMap.joinIncoming, hG.joined]
  exact M.joined_side g n Prod.fst (fun _ _ => rfl) fun e he => List.mem_append_left _ he

theorem judge_pair_interpreted (han : an.Passive)
    (hnone : propose n g (G.joinIncoming g n) = .ok none) :
    ((analysis .declared).pair an).judge n g p M =
      (do return (.interpreted, ← ((analysis .declared).pair an).interpret n g p M)) := by
  have hfirst : (analysis .declared).judge n g p (M.side g n Prod.fst) = (do
      return (.interpreted, ← (analysis .declared).interpret n g p (M.side g n Prod.fst))) := by
    change (propose n g ((M.side g n Prod.fst).joinIncoming g n) >>= _) = _
    rw [joinIncoming_side hG, hnone]
    rfl
  simp only [RewritingAnalysis.pair, Analysis.pair, hfirst, han.judge_eq]
  cases (analysis .declared).interpret n g p (M.side g n Prod.fst) with
  | error e => rfl
  | ok a => cases an.interpret n g p (M.side g n Prod.snd) <;> rfl

theorem judge_pair_replace {rewrite : Substitute}
    (hsome : propose n g (G.joinIncoming g n) = .ok (some rewrite)) :
    ((analysis .declared).pair an).judge n g p M = .ok (.replace (.inl rewrite), M) := by
  rw [← joinIncoming_side hG] at hsome
  have hfirst : (analysis .declared).judge n g p (M.side g n Prod.fst) =
      .ok (.replace rewrite, M.side g n Prod.fst) := judge_replace hsome
  simp only [RewritingAnalysis.pair, hfirst]
  rfl

end Judge

section Step

variable {T : Type} [Rewrite T] {an : RewritingAnalysis B T} {options : Options}
  {y : Progress (Sweep (Known × B))}

section Node

variable (hahead : s.graph.order.drop s.index = n :: ahead) (hG : G.IsFirst M)
  (hstep : (s.withFacts M).step ((analysis .declared).pair an) options = .ok y)
include hahead hG hstep

/-- Where nothing is proposed, the step goes past the node. -/
theorem step_pair_of_none (han : an.Passive)
    (hnone : propose n s.graph (G.joinIncoming s.graph n) = .ok none) : ∃ m m',
      ((analysis .declared).pair an).interpret n s.graph s.program M = .ok m ∧
      ((analysis .declared).pair an).settle options.bound s.graph s.program m = .ok m' ∧
      y = .next ({ s with index := s.index + 1 }.withFacts m') := by
  obtain ⟨hplace, hn⟩ := place_eq hahead .declared
  have hplace : (s.withFacts M).place ((analysis .declared).pair an).toAnalysis = some s.index := hplace
  have hn : (s.withFacts M).graph.order[s.index]? = some n := hn
  have hjudge := judge_pair_interpreted (p := s.program) hG han hnone
  simp only [Sweep.step, hplace, hn] at hstep
  obtain ⟨verdict, hverdict, hstep⟩ := Run.bind_eq_ok.1 hstep
  obtain ⟨m, hinterpret, hm⟩ := Run.bind_eq_ok.1 (hjudge.symm.trans hverdict)
  cases hm
  obtain ⟨m', hsettle, hy⟩ := Run.bind_eq_ok.1 hstep
  exact ⟨m, m', hinterpret, hsettle, (Except.ok.inj hy).symm⟩

/-- Where inlining proposes a rewrite, the step asks for fuel and carries it out or goes past the
    node. -/
theorem step_pair_of_some {rewrite : Substitute}
    (hsome : propose n s.graph (G.joinIncoming s.graph n) = .ok (some rewrite)) : ∃ fuel,
      (s.fuel.consume = .ok (false, fuel) ∧ ∃ m m',
        ((analysis .declared).pair an).interpret n s.graph s.program M = .ok m ∧
        ((analysis .declared).pair an).settle options.bound s.graph s.program m = .ok m' ∧
        y = .next ({ s with index := s.index + 1, fuel }.withFacts m')) ∨
      s.fuel.consume = .ok (true, fuel) ∧
        Sweep.replace ((analysis .declared).pair an).toAnalysis options ({ s with fuel }.withFacts M)
          s.index n (.inl rewrite : Substitute ⊕ T) = .ok y := by
  obtain ⟨hplace, hn⟩ := place_eq hahead .declared
  have hplace : (s.withFacts M).place ((analysis .declared).pair an).toAnalysis = some s.index := hplace
  have hn : (s.withFacts M).graph.order[s.index]? = some n := hn
  have hjudge : ((analysis .declared).pair an).judge n s.graph s.program M =
      .ok (.replace (.inl rewrite), M) := judge_pair_replace hG hsome
  simp only [Sweep.step, hplace, hn] at hstep
  obtain ⟨verdict, hverdict, hstep⟩ := Run.bind_eq_ok.1 hstep
  cases hjudge.symm.trans hverdict
  obtain ⟨⟨allowed, fuel⟩, hfuel, hstep⟩ := Run.bind_eq_ok.1 hstep
  refine ⟨fuel, ?_⟩
  cases allowed with
  | true => exact .inr ⟨hfuel, hstep⟩
  | false =>
    obtain ⟨m, hinterpret, hstep⟩ := Run.bind_eq_ok.1 hstep
    obtain ⟨m', hsettle, hy⟩ := Run.bind_eq_ok.1 hstep
    exact .inl ⟨hfuel, m, m', hinterpret, hsettle, (Except.ok.inj hy).symm⟩

end Node

omit [Fact B] in
/-- A rewrite of inlining that is carried out with a companion edits the program and the graph as it
    does alone. -/
theorem exists_propagate_of_replace {f : Graph} {fuel : Fuel} {place : Nat} (hlinked : g'.Linked)
    (htransform : Rewrite.transform ({ read := r, value := x } : Substitute) n s.graph s.program =
      .ok ⟨.ok { read := r, value := x, copy := some c }, (s.graph.retarget r c).2, q⟩)
    (hfragment : Rewrite.fragment ({ read := r, value := x, copy := some c } : Substitute) q =
      .ok (.ok f))
    (hsplice : (s.graph.retarget r c).2.splice n f = (.ok (inserted s.graph parent c oc), g'))
    (hreplace : Sweep.replace ((analysis .declared).pair an).toAnalysis options
      ({ s with fuel }.withFacts M) place n
        (.inl { read := r, value := x } : Substitute ⊕ T) = .ok y) : ∃ count M',
      ((analysis .declared).pair an).propagate options.bound g' q M (inserted s.graph parent c oc) =
        .ok (count, M') ∧
      y = .next ({ s with graph := g', program := q, fuel, rewrites := s.rewrites + 1 }.withFacts M') := by
  have htransform' : Rewrite.transform (.inl { read := r, value := x } : Substitute ⊕ T) n s.graph
      s.program = .ok ⟨.ok (.inl { read := r, value := x, copy := some c }),
        (s.graph.retarget r c).2, q⟩ := by
    change (Rewrite.transform ({ read := r, value := x } : Substitute) n _ _ >>= _) = _
    rw [htransform]
    rfl
  have hfragment' : Rewrite.fragment
      (.inl { read := r, value := x, copy := some c } : Substitute ⊕ T) q = .ok (.ok f) := hfragment
  have hforward : ((analysis .declared).pair an).direction = .forward := rfl
  rw [Sweep.replace_eq (s := Sweep.withFacts { s with fuel } M) hforward htransform' hfragment' hsplice
    hlinked.verify_eq] at hreplace
  obtain ⟨⟨count, M'⟩, hpropagate, hy⟩ := Run.bind_eq_ok.1 hreplace
  exact ⟨count, M', hpropagate, (Except.ok.inj hy).symm⟩

/-- A step with a companion that is taken. The sweep is over, or inlining alone takes the same step. -/
theorem Alongside.step (h : Alongside g₀ body s M) (han : an.Passive) (hdir : an.direction = .forward)
    (hstep : (s.withFacts M).step ((analysis .declared).pair an) options = .ok y) :
    y = .done ∧ s.graph.order.drop s.index = [] ∨ ∃ s' M', y = .next (s'.withFacts M') ∧
      Goes g₀ body s s' ∧ Alongside g₀ body s' M' := by
  obtain ⟨E, G, hF, hG, hchanged, hbeside⟩ := h.facts
  obtain ⟨ls, le, hl, hbody⟩ := h.sound.lists
  cases hahead : s.graph.order.drop s.index with
  | nil =>
    have hplace : (s.withFacts M).place ((analysis .declared).pair an).toAnalysis = none :=
      if_neg (Nat.not_lt.2 (List.drop_eq_nil_iff.1 hahead))
    simp only [Sweep.step, hplace] at hstep
    exact .inl ⟨(Except.ok.inj hstep).symm, rfl⟩
  | cons n ahead =>
    right
    rw [hahead] at hbeside
    obtain ⟨f, hf⟩ := han.follows s.graph s.program body h.sound.tree h.sound.linked h.sound.laidOut
    obtain ⟨node, hnode⟩ :=
      Arena.exists_get?_of_lt (h.sound.linked.allocated n (mem_of_drop_eq hahead))
    have hpropose := hbeside.propose_eq h.sound.tree.inRange hl hbody h.sound.linked h.sound.laidOut hF
      hahead
    rcases propose_cases hnode (s.facts.joinIncoming s.graph n) with
      hnone | ⟨v, r, x, hread, hx, hsome⟩
    · obtain ⟨m, m', hinterpret, hsettle, rfl⟩ :=
        step_pair_of_none hahead hG hstep han (hpropose.trans hnone)
      obtain ⟨m₁, F', bound, hinterpret', hsettle', hnext⟩ :=
        hbeside.pass h.sound hahead hF hdir hf hG hchanged hinterpret hsettle
      exact ⟨{ s with facts := F', index := s.index + 1 }, m', rfl,
        .of_pass hahead hinterpret' hsettle' hnone (hnext s.fuel).sound, hnext s.fuel⟩
    · rw [hread] at hnode
      obtain ⟨ls, le, la, hproposal⟩ := h.sound.exists_proposal_of hahead hF
        (hbeside.effects h.sound.tree.inRange hl hbody h.sound.laidOut) hnode hx
      obtain ⟨fuel, ⟨hfuel, m, m', hinterpret, hsettle, rfl⟩ | ⟨hfuel, hreplace⟩⟩ :=
        step_pair_of_some hahead hG hstep (hpropose.trans hsome)
      · obtain ⟨m₁, F', bound, hinterpret', hsettle', hnext⟩ :=
          hbeside.pass h.sound hahead hF hdir hf hG hchanged hinterpret hsettle
        exact ⟨{ s with facts := F', index := s.index + 1, fuel }, m', rfl,
          .of_denied hahead hinterpret' hsettle' hproposal hfuel (hnext fuel).sound, hnext fuel⟩
      · obtain ⟨q, g', c, lc, oc, fragment, hin, htransform, hfragment, hsplice⟩ :=
          hproposal.exists_inlined h.sound
        obtain ⟨F', hpropagate, hF'⟩ := hproposal.exists_facts h.sound hin
        obtain ⟨count, M', hpropagate', hy⟩ := exists_propagate_of_replace hin.spliced.linked htransform
          hfragment hsplice hreplace
        obtain ⟨f', hf'⟩ := han.follows g' q body (hin.edited.isTree h.sound.tree hproposal.lists)
          hin.spliced.linked (hin.laidOut h.sound.linked hproposal.lists h.sound.laidOut
            hproposal.body_mem)
        exact ⟨{ s with graph := g', program := q, facts := F', fuel, rewrites := s.rewrites + 1 }, M', hy,
          .of_allowed hproposal h.sound hfuel hin hF'
            (replace_eq_ok hin.spliced.linked htransform hfragment hsplice hpropagate),
          hbeside.replace h.sound hin hproposal hdir hf' hG hchanged.1 hF' hpropagate' fuel⟩

/-- A sweep with a companion that comes to its end, from some place on. -/
theorem Alongside.run (h : Alongside g₀ body s M) (han : an.Passive) (hdir : an.direction = .forward)
    {steps : Nat} {y : Except Error Unit × Sweep (Known × B)}
    (hrun : Sweep.run ((analysis .declared).pair an) options steps (s.withFacts M) = .ok y) :
    ∃ t M', y = (.ok (), t.withFacts M') ∧ Ends s t := by
  induction steps generalizing s M with
  | zero => cases hrun
  | succ steps ih =>
    rw [Sweep.run] at hrun
    cases hstep : (s.withFacts M).step ((analysis .declared).pair an) options with
    | error fault => simp [hstep] at hrun
    | ok progress =>
      rw [hstep] at hrun
      rcases h.step han hdir hstep with ⟨rfl, hdone⟩ | ⟨s', M', rfl, hgoes, hs'⟩
      · cases hrun
        exact ⟨s, M, rfl, .of_done hdone⟩
      · obtain ⟨t, M'', hy, hends⟩ := ih hs' hrun
        exact ⟨t, M'', hy, hends.head hgoes⟩

end Step

/-! ### From start to end -/

/-- The first solve gives inlining the same facts, alone and with a companion. -/
theorem exists_alongside {m : MethodId} {f : NodeId → EdgeId → B → B} (hp : p.IsTree)
    (hbody : (m, body) ∈ p.bodies) (hg : Graph.ofBody p body = .ok (.ok g))
    (hdir : second.direction = .forward) (hf : second.Follows g p f)
    (hsolve : ((analysis .declared).toAnalysis.pair second).solve bound g p = .ok M) :
    ∃ B F, (∀ b ≥ B, (analysis .declared).solve b g p = .ok F) ∧
      ∀ fuel, Alongside g body (start g p F fuel) M := by
  obtain ⟨B, F, hlarge, hstart⟩ := exists_start hp hbody hg
  obtain ⟨B', F', E, hlarge', hF, hE⟩ := exists_first_solve hp hbody hg
  have hF' := hlarge B (Nat.le_refl B)
  obtain rfl := Analysis.solve_eq_of_large hF' hlarge'
  obtain ⟨hlinked, hlaid⟩ := Graph.ofBody_laidOut hg
  obtain ⟨N, hN⟩ := exists_index_bound E g.order
  have hgrowing := growing .declared hlinked.toWired (hlaid.ordered hlinked.toWired) hN
  obtain ⟨v, y, rfl, hy, hnil, hrising⟩ :=
    hgrowing.exists_first_of_solve hdir (analysis_follows hE) hf hsolve
  obtain ⟨φ, hφ, hsolves, hleast⟩ := hrising.least_solution hgrowing hnil
  rw [Analysis.solve_eq_run _ hlinked.toIndexed] at hF'
  obtain ⟨w, hrun, hw⟩ := Run.bind_eq_ok.1 hF'
  cases hw
  obtain ⟨hrising', hnil'⟩ := hgrowing.along_sequence.rising_of_run (analysis_follows hE) hrun
  obtain ⟨ψ, hψ, hsolves', hleast'⟩ := Rising.least_solution hgrowing hrising' hnil'
  have hlevel : Level g w.facts y.facts := by
    refine ⟨hrising.initial.trans hrising'.initial.symm, fun e m n he => ?_⟩
    rw [hφ e m n he, hψ e m n he,
      le_antisymm (hleast ψ hsolves' e m n he) (hleast' φ hsolves e m n he)]
  exact ⟨B, w.facts, hlarge, fun fuel => ⟨hstart fuel, E, y.facts, hF, hy.facts, hy.unchanged,
    .calm hE hlevel⟩⟩

/-- Inlining in a body of a tree program, carried out together with an analysis that proposes nothing,
    leaves what it leaves alone, where both come to an end: the same graph, the same program and the
    same fuel, and it has rewritten something or not. Nor do the options matter. -/
theorem integrate_combined_eq_integrate {T : Type} [Rewrite T] {p : Program} {m : MethodId} {g : Graph}
    {companion : RewritingAnalysis B T} {combined : RewritingAnalysis (Known × B) (Substitute ⊕ T)}
    (hp : p.IsTree) (hg : Graph.ofMethod p m = .ok (.ok g)) (hcompanion : companion.Passive)
    (hcombined : (analysis .declared).combine companion = .ok combined) {options options' : Options}
    {fuel : Fuel} {i i' : Integration}
    (hi : (analysis .declared).integrate options fuel g p = .ok i)
    (hi' : combined.integrate options' fuel g p = .ok i') : i' = i := by
  obtain ⟨body, hbody, hg⟩ := exists_ofBody_of_ofMethod hg
  obtain ⟨hlinked, hlaid⟩ := Graph.ofBody_laidOut hg
  -- The companion flows forward, as the two can be combined.
  obtain ⟨hdir, rfl⟩ : companion.direction = .forward ∧
      combined = (analysis .declared).pair companion := by
    rw [RewritingAnalysis.combine] at hcombined
    split at hcombined
    · next hdir => exact ⟨hdir.symm, (Except.ok.inj hcombined).symm⟩
    · cases hcombined
  obtain ⟨f, hf⟩ := hcompanion.follows g p body hp hlinked hlaid
  obtain ⟨M, hsolve, hi'⟩ := Run.bind_eq_ok.1 hi'
  obtain ⟨y, hrun, hi'⟩ := Run.bind_eq_ok.1 hi'
  obtain ⟨B', F, hlarge, hstart⟩ := exists_alongside hp hbody hg hdir hf hsolve
  obtain ⟨t, M', rfl, hends⟩ := (hstart fuel).run hcompanion hdir hrun
  cases hi'
  obtain ⟨B'', hintegrate⟩ := integrate_of_ends hlarge hends
  have hsame := RewritingAnalysis.integrate_mono hi (Nat.le_max_left options.bound B'')
  rw [hintegrate _ (Nat.le_max_right options.bound B'')] at hsame
  exact Except.ok.inj hsame

/-- The nodes passed on some way, by an analysis that proposes nothing. -/
def passedBeside : RewritingAnalysis Bits Substitute :=
  .ofTransfer .forward ⟨0⟩ (fun n _ _ a => .ok fun e => some (passedAfter n e a)) fun _ _ _ => .ok none

theorem passedBeside_passive : passedBeside.Passive where
  judge_eq _ _ _ _ := rfl
  follows _ _ _ _ _ _ := ⟨passedAfter, fun _ _ _ => ⟨_, .refl _, rfl⟩⟩

/-- Each rewrite inserts nodes that are passed from then on, so that all nodes behind them are visited
    again, the write of the copy among them. -/
theorem integrate_combined_eq_integrate_copy : ∃ g i combined,
    Graph.ofMethod sampleCopy ⟨0⟩ = .ok (.ok g) ∧
    (analysis .declared).combine passedBeside = .ok combined ∧
    (analysis .declared).integrate { bound := 50 } Fuel.infinite g sampleCopy = .ok i ∧
    combined.integrate { bound := 100 } Fuel.infinite g sampleCopy = .ok i ∧ i.outcome = .ok true := by
  have htree : sampleCopy.IsTree :=
    Program.isTree_of_check (show sampleCopy.checksAsTree 8 = true by decide)
  obtain ⟨g, hg, hcheck, hcheck'⟩ : ∃ g, Graph.ofMethod sampleCopy ⟨0⟩ = .ok (.ok g) ∧
      ((analysis .declared).integrate { bound := 50 } Fuel.infinite g sampleCopy).map
        Integration.outcome = .ok (.ok true) ∧
      (((analysis .declared).pair passedBeside).integrate { bound := 100 } Fuel.infinite g
        sampleCopy).map Integration.outcome = .ok (.ok true) :=
    ⟨_, rfl, by decide +kernel, by decide +kernel⟩
  cases hi : (analysis .declared).integrate { bound := 50 } Fuel.infinite g sampleCopy with
  | error fault =>
    rw [hi] at hcheck
    cases hcheck
  | ok i =>
    rw [hi] at hcheck
    cases hi' : ((analysis .declared).pair passedBeside).integrate { bound := 100 } Fuel.infinite g
        sampleCopy with
    | error fault =>
      rw [hi'] at hcheck'
      cases hcheck'
    | ok i' =>
      have hsame := integrate_combined_eq_integrate htree hg passedBeside_passive rfl hi hi'
      exact ⟨g, i, _, hg, rfl, hi, hsame ▸ hi', Except.ok.inj hcheck⟩

end Inlining

end Dataflow
