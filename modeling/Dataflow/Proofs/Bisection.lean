import Dataflow.Proofs.Elsewhere
import Dataflow.Proofs.Proposals

/-!
# Fuel cuts the sequence of rewrites

Inlining with fuel for a number of rewrites does what inlining with fuel without end does, up to that
number of rewrites, and then leaves the program alone. Until the fuel is used up both take the same
steps. Afterwards a sweep only goes past nodes, and so do the sweeps over all bodies that follow.

* `Fuel.grants`, `Fuel.Spends`: what fuel allows of a number of rewrites, and what it is then;
* `Trail`: programs, each made from the one before by one rewrite;
* `Sound.exists_trail`: the rewrites of one sweep, for any fuel;
* `Ahead.exists_trail`: the rewrites in all bodies;
* `optimize_limited_eq_cut`: what fuel for `k` rewrites makes of a program.
-/

namespace Dataflow

/-! ### Fuel -/

namespace Fuel

/-- How many of `n` rewrites, asked for one after the other, are allowed. -/
def grants (fuel : Fuel) (n : Nat) : Nat :=
  if fuel.remaining = endless then n else min fuel.remaining n

/-- What fuel is where there are `n` rewrites to be made: all that are allowed were, and if
    these are all of them, no other was asked for. -/
structure Spends (fuel : Fuel) (n : Nat) (fuel' : Fuel) : Prop where
  remaining : fuel'.remaining = if fuel.remaining = endless then endless else fuel.remaining - n
  consumed : fuel.grants n = n → fuel'.consumed = fuel.consumed + n

variable {fuel fuel' fuel'' : Fuel} {n n' : Nat}

theorem grants_zero (fuel : Fuel) : fuel.grants 0 = 0 := by
  rw [grants]
  split
  · rfl
  · exact Nat.min_zero _

theorem grants_le (fuel : Fuel) (n : Nat) : fuel.grants n ≤ n := by
  rw [grants]
  split
  · exact Nat.le_refl _
  · exact Nat.min_le_right _ _

theorem grants_of_empty (h : fuel.remaining = 0) (n : Nat) : fuel.grants n = 0 := by
  rw [grants, h, if_neg (by decide), Nat.zero_min]

theorem Spends.refl (fuel : Fuel) : fuel.Spends 0 fuel where
  remaining := by
    split
    · next h => exact h
    · rfl
  consumed _ := rfl

theorem Spends.remaining_le (h : fuel.Spends n fuel') (hle : fuel.remaining ≤ endless) :
    fuel'.remaining ≤ endless := by
  rw [h.remaining]
  split
  · exact Nat.le_refl _
  · exact Nat.le_trans (Nat.sub_le _ _) hle

/-- Some rewrites more, with what is left. -/
theorem Spends.grants_add (h : fuel.Spends n fuel') (hle : fuel.remaining ≤ endless) :
    fuel.grants (n + n') = fuel.grants n + fuel'.grants n' := by
  simp only [grants, h.remaining]
  split
  · rfl
  · next hne =>
    have hlt : fuel.remaining - n ≠ endless := by omega
    rw [if_neg hlt]
    omega

theorem Spends.add (h : fuel.Spends n fuel') (h' : fuel'.Spends n' fuel'')
    (hle : fuel.remaining ≤ endless) : fuel.Spends (n + n') fuel'' where
  remaining := by
    rw [h'.remaining, h.remaining]
    split
    · rfl
    · next hne =>
      have hlt : fuel.remaining - n ≠ endless := by omega
      rw [if_neg hlt, Nat.sub_sub]
  consumed hall := by
    rw [h.grants_add hle] at hall
    have hfirst := fuel.grants_le n
    have hrest := fuel'.grants_le n'
    rw [h'.consumed (by omega), h.consumed (by omega), Nat.add_assoc]

/-- Fuel that is not used up allows the next rewrite. -/
theorem exists_consume (fuel : Fuel) (hroom : fuel.consumed < endless) (hne : fuel.remaining ≠ 0) :
    ∃ fuel', fuel.consume = .ok (true, fuel') ∧ fuel.grants 1 = 1 ∧ fuel.Spends 1 fuel' := by
  rw [consume, if_pos hroom]
  by_cases hend : fuel.remaining = endless
  · exact ⟨_, if_pos hend, if_pos hend, by rw [if_pos hend]; exact hend, fun _ => rfl⟩
  · refine ⟨⟨fuel.remaining - 1, fuel.consumed + 1⟩, ?_, ?_, by rw [if_neg hend], fun _ => rfl⟩
    · rw [if_neg hend, if_neg hne]
    · rw [grants, if_neg hend]
      omega

theorem exists_consume_of_empty (hroom : fuel.consumed < endless) (h : fuel.remaining = 0) :
    ∃ fuel', fuel.consume = .ok (false, fuel') ∧ fuel'.remaining = 0 := by
  refine ⟨{ fuel with consumed := fuel.consumed + 1 }, ?_, h⟩
  rw [consume, if_pos hroom, if_neg (by rw [h]; decide), if_pos h]

end Fuel

namespace Inlining

variable {g₀ : Graph} {body : StmtId} {s s' t : Sweep Known} {p q : Program} {n n' : Nat}
  {Q Q' : Nat → Program}

/-! ### Trails of programs -/

/-- The program `q` is made from `p` by one rewrite, which is proposed for a node of a graph that
    follows one of the bodies. -/
def Transforms (p q : Program) : Prop :=
  ∃ (g g' : Graph) (body : StmtId) (n : NodeId) (k : Known) (r r' : Substitute),
    g.LaidOut p body ∧ n ∈ g.order ∧ propose n g k = .ok (some r) ∧
      Rewrite.transform r n g p = .ok { outcome := .ok r', graph := g', program := q }

/-- From `p` on, `n` rewrites make the programs `Q 1`, …, `Q n`. -/
structure Trail (p : Program) (n : Nat) (Q : Nat → Program) : Prop where
  start : Q 0 = p
  step : ∀ i < n, Transforms (Q i) (Q (i + 1))

/-- The programs of `Q` up to `n`, then those of `Q'`. -/
def glue (n : Nat) (Q Q' : Nat → Program) (i : Nat) : Program :=
  if i < n then Q i else Q' (i - n)

theorem glue_add (i : Nat) : glue n Q Q' (n + i) = Q' i := by
  rw [glue, if_neg (by omega), Nat.add_sub_cancel_left]

theorem Trail.glue_eq (h : Trail (Q n) n' Q') {i : Nat} (hi : i ≤ n) : glue n Q Q' i = Q i := by
  rw [glue]
  split
  · rfl
  · obtain rfl : i = n := by omega
    rw [Nat.sub_self, h.start]

theorem Trail.append (h : Trail p n Q) (h' : Trail (Q n) n' Q') :
    Trail p (n + n') (glue n Q Q') where
  start := (h'.glue_eq (Nat.zero_le n)).trans h.start
  step i hi := by
    by_cases hlt : i < n
    · rw [h'.glue_eq (Nat.le_of_lt hlt), h'.glue_eq hlt]
      exact h.step i hlt
    · obtain ⟨j, rfl⟩ := Nat.exists_eq_add_of_le (Nat.not_lt.1 hlt)
      rw [Nat.add_assoc, glue_add, glue_add]
      exact h'.step j (by omega)

theorem Trail.refl (p : Program) : Trail p 0 fun _ => p := ⟨rfl, fun _ hi => absurd hi (Nat.not_lt_zero _)⟩

theorem Trail.one (h : Transforms p q) : Trail p 1 fun i => if i = 0 then p else q where
  start := rfl
  step i hi := by
    obtain rfl : i = 0 := by omega
    exact h

/-! ### One sweep -/

/-- A rewrite that a sweep carries out transforms its program. -/
theorem transform_of_replace {A T : Type} [Rewrite T] {an : Analysis A} {options : Options}
    {s s' : Sweep A} {place : Nat} {n : NodeId} {rewrite : T}
    (h : s.replace an options place n rewrite = .ok (.next s')) : ∃ rewrite' g',
      Rewrite.transform rewrite n s.graph s.program =
        .ok { outcome := .ok rewrite', graph := g', program := s'.program } := by
  obtain ⟨⟨outcome, g, q⟩, hattempt, h⟩ := Run.bind_eq_ok.1 h
  cases outcome with
  | error e => cases h
  | ok rewrite' =>
    obtain ⟨fragment, _, h⟩ := Run.bind_eq_ok.1 h
    cases fragment with
    | error e => cases h
    | ok f =>
      refine ⟨rewrite', g, ?_⟩
      rw [hattempt]
      cases hspliced : (g.splice n f).1 with
      | error e =>
        simp only [hspliced] at h
        cases h
      | ok inserted =>
        simp only [hspliced] at h
        split at h
        · cases h
        · obtain ⟨facts, _, hx⟩ := Run.bind_eq_ok.1 h
          cases hx
          rfl

/-- What a sweep does at its place. Fuel only plays a part where a rewrite is proposed. -/
inductive Turn (g₀ : Graph) (body : StmtId) (s : Sweep Known) : Prop
  | done : s.graph.order.drop s.index = [] → Turn g₀ body s
  | pass (F' : FactMap Known) :
    (∀ fuel, Goes g₀ body { s with fuel } { s with facts := F', index := s.index + 1, fuel }) →
    Turn g₀ body s
  | propose (F' F'' : FactMap Known) (g' : Graph) (q : Program) :
    0 < readsAhead g₀ s → Transforms s.program q →
    (∀ fuel fuel', fuel.consume = .ok (false, fuel') → Goes g₀ body { s with fuel }
      { s with facts := F', index := s.index + 1, fuel := fuel' }) →
    (∀ fuel fuel', fuel.consume = .ok (true, fuel') → Goes g₀ body { s with fuel }
      { s with graph := g', program := q, facts := F'', fuel := fuel', rewrites := s.rewrites + 1 }) →
    Turn g₀ body s

theorem Sound.withFuel (h : Sound g₀ body s) (fuel : Fuel) : Sound g₀ body { s with fuel } :=
  ⟨h.tree, h.lists, h.linked, h.laidOut, h.facts, h.size, h.original, h.ahead, h.budget⟩

theorem Proposal.withFuel {ahead : List NodeId} {n : NodeId} {parent : Option NodeId} {v : VarId}
    {r x : ExprId} {E : NodeId → Effect} {ls : List StmtId} {le la : List ExprId}
    (h : Proposal g₀ body s ahead n parent v r x E ls le la) (fuel : Fuel) :
    Proposal g₀ body { s with fuel } ahead n parent v r x E ls le la :=
  ⟨h.order, h.node, h.known, h.only, h.settled, h.effects, h.keep, h.early, h.rest, h.tracked,
    h.lists, h.body_mem, h.spans, h.sublist, h.inert, h.avoids⟩

theorem Sound.turn (h : Sound g₀ body s) : Turn g₀ body s := by
  cases hahead : s.graph.order.drop s.index with
  | nil => exact .done hahead
  | cons n ahead =>
    obtain ⟨m, F', B, hinterpret, hsettle, hpass, _⟩ := h.exists_pass hahead
    obtain ⟨node, hnode⟩ := Arena.exists_get?_of_lt (h.linked.allocated n (mem_of_drop_eq hahead))
    rcases propose_cases hnode (s.facts.joinIncoming s.graph n) with
      hnone | ⟨v, r, x, hread, hx, hsome⟩
    · exact .pass F' fun fuel =>
        .of_pass (s := { s with fuel }) hahead hinterpret hsettle hnone (hpass fuel)
    · rw [hread] at hnode
      obtain ⟨E, ls, le, la, hproposal⟩ := h.exists_proposal hahead hnode hx
      obtain ⟨q, g', c, lc, oc, F'', B', hin, hF, hreplace⟩ := hproposal.exists_replace h
      obtain ⟨r', g₁, htransform⟩ := transform_of_replace (hreplace B' (Nat.le_refl _) true 0 s.fuel)
      refine .propose F' F'' g' q ?reads ?transforms (fun fuel fuel' hfuel => ?denied)
        fun fuel fuel' hfuel => ?allowed
      case reads =>
        rw [readsAhead, hahead, hproposal.readCount_eq]
        exact Nat.succ_pos _
      case transforms =>
        exact ⟨s.graph, g₁, body, n, _, _, r', h.laidOut, hproposal.mem, hsome, htransform⟩
      case denied =>
        exact .of_denied (s := { s with fuel }) hahead hinterpret hsettle (hproposal.withFuel fuel)
          hfuel (hpass fuel')
      case allowed =>
        exact .of_allowed (hproposal.withFuel fuel) (h.withFuel fuel) hfuel hin hF hreplace

/-- Where the fuel is used up, the sweep leaves the program alone. -/
theorem Sound.exists_idle {s : Sweep Known} (h : Sound g₀ body s) {fuel : Fuel}
    (hempty : fuel.remaining = 0) (hroom : fuel.consumed + readsAhead g₀ s ≤ Fuel.endless) :
    ∃ t, Ends { s with fuel } t ∧
      Relation.ReflTransGen (Progresses g₀ body) { s with fuel } t ∧
      t.program = s.program ∧ t.rewrites = s.rewrites ∧ t.fuel.remaining = 0 := by
  cases h.turn with
  | done hdone => exact ⟨_, .of_done hdone, .refl, rfl, rfl, hempty⟩
  | pass F' hgoes =>
    have hwork := (hgoes fuel).progresses.work
    obtain ⟨t, hends, hreach, ht⟩ := Sound.exists_idle (hgoes fuel).progresses.sound hempty
      (Nat.le_trans (hgoes fuel).progresses.fuel hroom)
    exact ⟨t, hends.head (hgoes fuel), .head (hgoes fuel).progresses hreach, ht⟩
  | propose F' F'' g' q hreads _ hdenied _ =>
    obtain ⟨fuel', hfuel', hempty'⟩ := Fuel.exists_consume_of_empty (by omega) hempty
    have hgoes := hdenied fuel fuel' hfuel'
    have hwork := hgoes.progresses.work
    obtain ⟨t, hends, hreach, ht⟩ := Sound.exists_idle hgoes.progresses.sound hempty'
      (Nat.le_trans hgoes.progresses.fuel hroom)
    exact ⟨t, hends.head hgoes, .head hgoes.progresses hreach, ht⟩
termination_by work g₀ s
decreasing_by all_goals exact hwork

/-- The rewrites of a sweep: with any fuel, the sweep ends at the program that the fuel lets it
    come to. -/
theorem Sound.exists_trail {s : Sweep Known} (h : Sound g₀ body s) :
    ∃ n Q, Trail s.program n Q ∧ ∀ fuel : Fuel, fuel.remaining ≤ Fuel.endless →
      fuel.consumed + readsAhead g₀ s ≤ Fuel.endless → ∃ t, Ends { s with fuel } t ∧
        Relation.ReflTransGen (Progresses g₀ body) { s with fuel } t ∧
        t.program = Q (fuel.grants n) ∧ t.rewrites = s.rewrites + fuel.grants n ∧
        fuel.Spends n t.fuel := by
  cases h.turn with
  | done hdone =>
    refine ⟨0, _, .refl _, fun fuel _ _ => ⟨_, .of_done hdone, .refl, rfl, ?_, .refl _⟩⟩
    rw [Fuel.grants_zero]
    rfl
  | pass F' hgoes =>
    have hwork := (hgoes s.fuel).progresses.work
    obtain ⟨n, Q, hQ, hends⟩ := Sound.exists_trail (hgoes s.fuel).progresses.sound
    refine ⟨n, Q, hQ, fun fuel hle hroom => ?_⟩
    obtain ⟨t, hend, hreach, ht⟩ := hends fuel hle (Nat.le_trans (hgoes fuel).progresses.fuel hroom)
    exact ⟨t, hend.head (hgoes fuel), .head (hgoes fuel).progresses hreach, ht⟩
  | propose F' F'' g' q hreads htransforms hdenied hallowed =>
    -- Any fuel that allows the rewrite will do to see what follows it.
    obtain ⟨fuel₀, hfuel₀, _⟩ := Fuel.infinite.exists_consume (by decide) (by decide)
    have hgoes₀ := (hallowed _ _ hfuel₀).progresses
    have hwork := hgoes₀.work
    obtain ⟨n, Q, hQ, hends⟩ := Sound.exists_trail hgoes₀.sound
    refine ⟨1 + n, glue 1 (fun i => if i = 0 then s.program else q) Q, (Trail.one htransforms).append hQ,
      fun fuel hle hroom => ?_⟩
    by_cases hempty : fuel.remaining = 0
    · obtain ⟨fuel', hfuel', hempty'⟩ := Fuel.exists_consume_of_empty (by omega) hempty
      have hgoes := hdenied fuel fuel' hfuel'
      obtain ⟨t, hend, hreach, hprogram, hrewrites, hremaining⟩ :=
        hgoes.progresses.sound.exists_idle hempty' (Nat.le_trans hgoes.progresses.fuel hroom)
      refine ⟨t, hend.head hgoes, .head hgoes.progresses hreach, ?_, ?_, ?_⟩
      · rw [Fuel.grants_of_empty hempty, hprogram]
        rfl
      · rw [Fuel.grants_of_empty hempty, hrewrites]
        rfl
      · refine ⟨?_, fun hall => ?_⟩
        · rw [hremaining, hempty, if_neg (by decide), Nat.zero_sub]
        · rw [Fuel.grants_of_empty hempty] at hall
          omega
    · obtain ⟨fuel', hfuel', hone, hspends⟩ := fuel.exists_consume (by omega) hempty
      have hgoes := hallowed fuel fuel' hfuel'
      obtain ⟨t, hend, hreach, hprogram, hrewrites, hspends'⟩ :=
        hends fuel' (hspends.remaining_le hle) (Nat.le_trans hgoes.progresses.fuel hroom)
      refine ⟨t, hend.head hgoes, .head hgoes.progresses hreach, ?_, ?_, hspends.add hspends' hle⟩
      · rw [hspends.grants_add hle, hone, glue_add, hprogram]
      · rw [hspends.grants_add hle, hone, hrewrites, Nat.add_assoc]
termination_by work g₀ s
decreasing_by all_goals exact hwork

end Inlining

/-! ### Bodies still to come -/

section Bodies

variable {p q : Program} {g : Graph} {body : StmtId} {ss ls ls' : List StmtId}
  {le le' : List ExprId}

/-- What the last of several statements span is the last part of what all of them do. -/
theorem StmtSpans.exists_of_suffix {rest : List StmtId} (h : StmtSpans p ss ls le)
    (hrest : rest <:+ ss) : ∃ l e, StmtSpans p rest l e ∧ l <:+ ls ∧ e <:+ le := by
  obtain ⟨before, rfl⟩ := hrest
  induction before generalizing ls le with
  | nil => exact ⟨ls, le, h, List.suffix_refl _, List.suffix_refl _⟩
  | cons s before ih =>
    obtain ⟨_, _, _, _, _, hothers, rfl, rfl⟩ := h.of_cons
    obtain ⟨l, e, hspans, hl, he⟩ := ih hothers
    exact ⟨l, e, hspans, hl.trans (List.suffix_append _ _), he.trans (List.suffix_append _ _)⟩

/-- A graph has no more reads than its body has expressions. -/
theorem Graph.LaidOut.reads_le (h : g.LaidOut p body) (hspans : StmtSpans p [body] ls le) :
    g.reads ≤ le.length := by
  -- Every node that reads a variable stands for an expression, and for one of its own.
  have hreads : g.reads = (g.marks Node.read? g.order).length := by
    rw [reads, marks, List.length_filterMap_eq_countP]
    refine List.countP_congr fun n hn => ?_
    cases hnode : g.nodes.get? n with
    | none => simp
    | some node =>
      cases hkind : node.kind with
      | read v =>
        obtain ⟨_, _, _, _, _, _, _, _, _, _, ⟨e, horigin, _⟩ | ⟨_, _, _, hwrite⟩⟩ :=
          h.exists_operation hspans (hspans.mem_of_mem_roots (List.mem_singleton_self body)) hn hnode
            (by rw [hkind]; rfl)
        · simp [hkind, Node.read?, horigin]
        · cases hkind.symm.trans hwrite
      | _ => simp [hkind, Node.read?]
  rw [hreads]
  refine (List.subperm_ext_iff.2 fun a _ => ?_).length_le
  obtain ⟨ns, last, outs, ends, horder, hlaid, hlast⟩ := h
  have hfinish : g.marks Node.read? [last] = [] := by
    rw [Graph.marks_cons, hlast.node]
    rfl
  rw [horder, Graph.marks_append, hfinish, List.append_nil]
  exact (marks_read p a).laid hlaid hspans

end Bodies

namespace Inlining

variable {g₀ : Graph} {body : StmtId} {s s' t : Sweep Known} {p q : Program} {m : MethodId}
  {rest : List (MethodId × StmtId)} {size : Nat}

/-- The bodies `rest` are the last ones of a tree program, each has a graph, and there are
    `size` expressions in them. -/
structure Ahead (p : Program) (rest : List (MethodId × StmtId)) (size : Nat) : Prop where
  tree : p.IsTree
  suffix : rest <:+ p.bodies
  laidOut : ∀ b ∈ rest, ∃ g : Graph, g.LaidOut p b.2
  spans : ∃ ls le, StmtSpans p (rest.map Prod.snd) ls le ∧ le.length = size

namespace Ahead

/-- All bodies of a program, to begin with. -/
theorem start (hp : p.IsTree)
    (haccepts : ∀ m body, (m, body) ∈ p.bodies → ∃ g, Graph.ofBody p body = .ok (.ok g)) :
    ∃ size ≤ p.exprs.size, Ahead p p.bodies size := by
  obtain ⟨ls, le, hl⟩ := hp.isForest.exists_lists
  refine ⟨le.length, Arena.length_le_size hl.exprs_nodup fun e he => hl.spans.expr_index_lt he,
    hp, List.suffix_refl _, fun b hb => ?_, ls, le, hl.spans, rfl⟩
  obtain ⟨g, hg⟩ := haccepts b.1 b.2 hb
  exact ⟨g, (Graph.ofBody_laidOut hg).2⟩

/-- The next body has a graph, whose reads are among the expressions. -/
theorem exists_graph (h : Ahead p ((m, body) :: rest) size) : ∃ g size',
    (m, body) ∈ p.bodies ∧ Graph.ofBody p body = .ok (.ok g) ∧ g.reads + size' ≤ size ∧
      Ahead p rest size' := by
  have hmem : (m, body) ∈ p.bodies := h.suffix.subset List.mem_cons_self
  obtain ⟨ls, le, hl⟩ := h.tree.isForest.exists_lists
  obtain ⟨g', hlaid⟩ := h.laidOut _ List.mem_cons_self
  obtain ⟨g, hg⟩ := hlaid.exists_ofBody hl (hl.spans.mem_of_mem_roots (List.mem_map_of_mem hmem))
  obtain ⟨l, e, hspans, rfl⟩ := h.spans
  obtain ⟨_, e₁, l₂, e₂, hfirst, hrest, rfl, rfl⟩ := hspans.of_cons
  refine ⟨g, e₂.length, hmem, hg, ?_, h.tree, (List.suffix_cons _ _).trans h.suffix,
    fun b hb => h.laidOut b (List.mem_cons_of_mem _ hb), l₂, e₂, hrest, rfl⟩
  rw [List.length_append]
  exact Nat.add_le_add_right ((Graph.ofBody_laidOut hg).2.reads_le hfirst) _

/-- A step of a sweep over one body leaves those after it as they are. -/
theorem of_progresses (h : Progresses g₀ body s s') (hs : Sound g₀ body s)
    (hbodies : (m, body) :: rest <:+ s.program.bodies) (hrest : Ahead s.program rest size) :
    Ahead s'.program rest size := by
  cases h.moves with
  | pass => exact hrest
  | replace _ hp hin =>
    obtain ⟨l, e, hspans, hlsub, hesub⟩ := hp.lists.spans.exists_of_suffix (hbodies.map Prod.snd)
    obtain ⟨_, e₁, l₂, e₂, hfirst, hothers, rfl, rfl⟩ := StmtSpans.of_cons hspans
    have hnodup := hp.lists.exprs_nodup.sublist hesub.sublist
    have hr := List.disjoint_of_nodup_append hnodup (hs.laidOut.mem_of_read hfirst hp.mem hp.node)
    have hsame := hin.edited.sameOn hothers
      ((List.sublist_append_right _ _).trans hlsub.sublist)
      ((List.sublist_append_right _ _).trans hesub.sublist) hr
    have hnodup₂ := hnodup.sublist (List.sublist_append_right _ _)
    obtain ⟨_, _, hspans', rfl⟩ := hrest.spans
    obtain ⟨rfl, rfl⟩ := hothers.unique hspans'
    refine ⟨h.sound.tree, h.bodies_eq ▸ hrest.suffix, fun b hb => ?_, _, _,
      hothers.congr hsame.stmt hsame.expr, rfl⟩
    obtain ⟨g, hg⟩ := hrest.laidOut b hb
    exact ⟨g, hg.congr hsame hothers hnodup₂ (hothers.mem_of_mem_roots (List.mem_map_of_mem hb))⟩

theorem of_reaches (h : Relation.ReflTransGen (Progresses g₀ body) s s') (hs : Sound g₀ body s)
    (hbodies : (m, body) :: rest <:+ s.program.bodies) (hrest : Ahead s.program rest size) :
    Ahead s'.program rest size := by
  induction h with
  | refl => exact hrest
  | tail hreach hlast ih =>
    exact of_progresses hlast (hs.of_reaches hreach) (bodies_eq_of_reaches hreach ▸ hbodies) ih

end Ahead

/-! ### One body -/

section Body

variable {g : Graph}

/-- No more is counted than there were reads ahead. -/
theorem consumed_of_reaches (h : Relation.ReflTransGen (Progresses g₀ body) s s') :
    s'.fuel.consumed + readsAhead g₀ s' ≤ s.fuel.consumed + readsAhead g₀ s := by
  induction h with
  | refl => exact Nat.le_refl _
  | tail _ hlast ih => exact Nat.le_trans hlast.fuel ih

/-- Inlining in the body of `g` comes to an end with the sweep at `t`. -/
structure Completes (p : Program) (body : StmtId) (g : Graph) (fuel : Fuel) (t : Sweep Known) :
    Prop where
  integrate : ∃ B, ∀ options : Options, B ≤ options.bound →
    (analysis .declared).integrate options fuel g p = .ok (ended t)
  reaches : ∃ F, Sound g body (start g p F fuel) ∧
    Relation.ReflTransGen (Progresses g body) (start g p F fuel) t

variable (hp : p.IsTree) (hbody : (m, body) ∈ p.bodies) (hg : Graph.ofBody p body = .ok (.ok g))
include hp hbody hg

/-- Where the fuel is used up, inlining leaves the program alone. -/
theorem exists_idle_of_body {fuel : Fuel} (hempty : fuel.remaining = 0)
    (hroom : fuel.consumed + g.reads ≤ Fuel.endless) : ∃ t, Completes p body g fuel t ∧
      t.program = p ∧ t.rewrites = 0 ∧ t.fuel.remaining = 0 := by
  rw [← (Graph.ofBody_laidOut hg).1.readCount_eq] at hroom
  obtain ⟨B, F, hsolve, hstart⟩ := exists_start hp hbody hg
  obtain ⟨t, hends, hreach, ht⟩ := (hstart fuel).exists_idle hempty hroom
  exact ⟨t, ⟨integrate_of_ends hsolve hends, F, hstart fuel, hreach⟩, ht⟩

/-- The rewrites in one body. -/
theorem exists_trail_of_body : ∃ n Q, Trail p n Q ∧ ∀ fuel : Fuel,
    fuel.remaining ≤ Fuel.endless → fuel.consumed + g.reads ≤ Fuel.endless →
    ∃ t, Completes p body g fuel t ∧ t.program = Q (fuel.grants n) ∧
      t.rewrites = fuel.grants n ∧ fuel.Spends n t.fuel := by
  obtain ⟨B, F, hsolve, hstart⟩ := exists_start hp hbody hg
  obtain ⟨n, Q, hQ, hends⟩ := (hstart Fuel.infinite).exists_trail
  refine ⟨n, Q, hQ, fun fuel hle hroom => ?_⟩
  rw [← (Graph.ofBody_laidOut hg).1.readCount_eq] at hroom
  obtain ⟨t, hend, hreach, hprogram, hrewrites, hspends⟩ := hends fuel hle hroom
  exact ⟨t, ⟨integrate_of_ends hsolve hend, F, hstart fuel, hreach⟩, hprogram,
    hrewrites.trans (Nat.zero_add _), hspends⟩

end Body

/-! ### All bodies -/

section Bodies

variable {g : Graph} {fuel : Fuel}

/-- Inlining in the bodies `rest` comes to an end. -/
def Optimizes (rest : List (MethodId × StmtId)) (p : Program) (fuel : Fuel) (changed : Bool)
    (o : Optimization) : Prop :=
  ∃ B, ∀ options : Options, B ≤ options.bound →
    optimizeMethods .declared options (rest.map Prod.fst) p fuel changed = .ok o

/-- First in one body, then in the others. -/
theorem Optimizes.cons (hbody : (m, body) ∈ p.bodies) (hg : Graph.ofBody p body = .ok (.ok g))
    (h : Completes p body g fuel t) {changed : Bool} {o : Optimization}
    (ho : Optimizes rest t.program t.fuel (changed || decide (t.rewrites > 0)) o) :
    Optimizes ((m, body) :: rest) p fuel changed o := by
  obtain ⟨B, hrun⟩ := h.integrate
  obtain ⟨B', hrest⟩ := ho
  obtain ⟨⟨decl, hdecl⟩, hmethod⟩ := ofMethod_eq hbody
  refine ⟨max B B', fun options hb => ?_⟩
  rw [List.map_cons, optimizeMethods, hdecl, hmethod, hg]
  change ((analysis .declared).integrate options fuel g p >>= _) = _
  rw [hrun options (by omega)]
  exact hrest options (by omega)

theorem Completes.ahead (h : Completes p body g fuel t) (hbodies : (m, body) :: rest <:+ p.bodies)
    (hrest : Ahead p rest size) : Ahead t.program rest size := by
  obtain ⟨F, hstart, hreach⟩ := h.reaches
  exact Ahead.of_reaches hreach hstart hbodies hrest

theorem Completes.consumed_le (h : Completes p body g fuel t) :
    t.fuel.consumed ≤ fuel.consumed + g.reads := by
  obtain ⟨F, hstart, hreach⟩ := h.reaches
  have hreads : readCount g g.nodes.size g.order = g.reads := hstart.linked.readCount_eq
  rw [← hreads]
  exact Nat.le_of_add_right_le (consumed_of_reaches hreach)

/-- Where the fuel is used up, inlining in any number of bodies leaves the program alone. -/
theorem Ahead.exists_idle (h : Ahead p rest size) (hempty : fuel.remaining = 0)
    (hroom : fuel.consumed + size ≤ Fuel.endless) (changed : Bool) : ∃ o, Optimizes rest p fuel changed o ∧
      o.outcome = .ok changed ∧ o.program = p ∧ o.fuel.remaining = 0 := by
  induction rest generalizing size fuel with
  | nil => exact ⟨_, ⟨0, fun _ _ => rfl⟩, rfl, rfl, hempty⟩
  | cons b rest ih =>
    obtain ⟨m, body⟩ := b
    obtain ⟨g, size', hbody, hg, hsize, hrest⟩ := h.exists_graph
    obtain ⟨t, hcompletes, hprogram, hrewrites, hempty'⟩ :=
      exists_idle_of_body h.tree hbody hg hempty (by omega)
    have hconsumed := hcompletes.consumed_le
    obtain ⟨o, ho, hleft⟩ := ih hrest hempty' (by omega)
    refine ⟨o, .cons hbody hg hcompletes ?_, hleft⟩
    rw [hprogram, hrewrites]
    simpa using ho

/-- The rewrites in any number of bodies. -/
theorem Ahead.exists_trail (h : Ahead p rest size) (hsize : size ≤ Fuel.endless) :
    ∃ n Q, Trail p n Q ∧ ∀ fuel : Fuel, ∀ changed, fuel.remaining ≤ Fuel.endless →
      fuel.consumed + size ≤ Fuel.endless → ∃ o, Optimizes rest p fuel changed o ∧
        o.outcome = .ok (changed || decide (fuel.grants n > 0)) ∧
        o.program = Q (fuel.grants n) ∧ fuel.Spends n o.fuel := by
  induction rest generalizing p size with
  | nil =>
    refine ⟨0, _, .refl p, fun fuel changed _ _ => ⟨_, ⟨0, fun _ _ => rfl⟩, ?_, rfl, .refl fuel⟩⟩
    rw [Fuel.grants_zero]
    simp
  | cons b rest ih =>
    obtain ⟨m, body⟩ := b
    obtain ⟨g, size', hbody, hg, hsize', hrest⟩ := h.exists_graph
    obtain ⟨n₁, Q₁, hQ₁, hfirst⟩ := exists_trail_of_body h.tree hbody hg
    -- The program that all rewrites in the first body lead to.
    have hall : Ahead (Q₁ n₁) rest size' := by
      obtain ⟨t, hcompletes, hprogram, _⟩ := hfirst Fuel.infinite (Nat.le_refl _)
        (show 0 + g.reads ≤ Fuel.endless by omega)
      rw [show Fuel.infinite.grants n₁ = n₁ from if_pos rfl] at hprogram
      exact hprogram ▸ hcompletes.ahead h.suffix hrest
    obtain ⟨n₂, Q₂, hQ₂, hothers⟩ := ih hall (by omega)
    refine ⟨n₁ + n₂, glue n₁ Q₁ Q₂, hQ₁.append hQ₂, fun fuel changed hle hroom => ?_⟩
    obtain ⟨t, hcompletes, hprogram, hrewrites, hspends⟩ := hfirst fuel hle (by omega)
    have hconsumed := hcompletes.consumed_le
    rw [hspends.grants_add hle]
    by_cases hgrants : fuel.grants n₁ = n₁
    · rw [hgrants] at hprogram hrewrites ⊢
      obtain ⟨o, ho, houtcome, hend, hspends'⟩ := hothers t.fuel (changed || decide (t.rewrites > 0))
        (hspends.remaining_le hle) (by omega)
      refine ⟨o, .cons hbody hg hcompletes (hprogram ▸ ho), ?_, ?_, hspends.add hspends' hle⟩
      · have hsum : decide (n₁ + t.fuel.grants n₂ > 0) =
            (decide (n₁ > 0) || decide (t.fuel.grants n₂ > 0)) := by
          rw [← Bool.decide_or]
          exact decide_eq_decide.2 (by omega)
        rw [houtcome, hrewrites, Bool.or_assoc, hsum]
      · rw [hend, glue_add]
    · -- The fuel is used up in the first body.
      have hlt : fuel.grants n₁ < n₁ := Nat.lt_of_le_of_ne (fuel.grants_le n₁) hgrants
      have hne : fuel.remaining ≠ Fuel.endless := fun heq => hgrants (if_pos heq)
      have hless : fuel.remaining < n₁ := by
        rw [Fuel.grants, if_neg hne] at hlt
        omega
      have hempty : t.fuel.remaining = 0 := by
        rw [hspends.remaining, if_neg hne]
        omega
      obtain ⟨o, ho, houtcome, hend, hempty'⟩ := (hcompletes.ahead h.suffix hrest).exists_idle hempty
        (by omega) (changed || decide (t.rewrites > 0))
      rw [Fuel.grants_of_empty hempty, Nat.add_zero, hQ₂.glue_eq (Nat.le_of_lt hlt)]
      refine ⟨o, .cons hbody hg hcompletes ho, ?_, hend.trans hprogram, ?_, fun hall => ?_⟩
      · rw [houtcome, hrewrites]
      · rw [hempty', if_neg hne]
        omega
      · rw [Fuel.grants, if_neg hne] at hall
        omega

end Bodies

/-- Fuel cuts the sequence of rewrites. In a tree program whose bodies all have graphs, and which has
    no more expressions than 64 bits count, inlining with fuel without end makes rewrites one by one.
    With fuel for `k` of them it makes the first `k`, or all if there are fewer; it counts every
    proposal, those for which no fuel was left among them. -/
theorem optimize_limited_eq_cut {p : Program} (hp : p.IsTree)
    (haccepts : ∀ m body, (m, body) ∈ p.bodies → ∃ g, Graph.ofBody p body = .ok (.ok g))
    (hsize : p.exprs.size ≤ Fuel.endless) :
    ∃ (n : Nat) (Q : Nat → Program), Q 0 = p ∧ (∀ i < n, Transforms (Q i) (Q (i + 1))) ∧
      (∃ B, ∀ options : Options, B ≤ options.bound →
        optimize .declared options Fuel.infinite p =
          .ok { outcome := .ok (decide (n > 0)), program := Q n, fuel := ⟨Fuel.endless, n⟩ }) ∧
      ∀ k < Fuel.endless, ∃ o : Optimization,
        o.program = Q (min k n) ∧ o.outcome = .ok (decide (min k n > 0)) ∧
        o.fuel.remaining = k - min k n ∧ (n ≤ k → o.fuel.consumed = n) ∧
        ∃ B, ∀ options : Options, B ≤ options.bound →
          optimize .declared options (Fuel.limited k) p = .ok o ∧
          o.fuel.consumed =
            proposals .declared options (p.bodies.map Prod.fst) p (Fuel.limited k) := by
  obtain ⟨size, hle, hahead⟩ := Ahead.start hp haccepts
  obtain ⟨n, Q, hQ, hruns⟩ := hahead.exists_trail (Nat.le_trans hle hsize)
  refine ⟨n, Q, hQ.start, hQ.step, ?infinite, fun k hk => ?limited⟩
  case infinite =>
    obtain ⟨⟨outcome, program, fuel⟩, ⟨B, hB⟩, houtcome, hprogram, hspends⟩ :=
      hruns Fuel.infinite false (Nat.le_refl _)
        (show 0 + size ≤ Fuel.endless by omega)
    have hgrants : Fuel.infinite.grants n = n := if_pos rfl
    rw [hgrants, Bool.false_or] at houtcome
    have hconsumed : fuel.consumed = n := (hspends.consumed hgrants).trans (Nat.zero_add n)
    have hremaining : fuel.remaining = Fuel.endless := hspends.remaining.trans (if_pos rfl)
    obtain rfl : fuel = ⟨Fuel.endless, n⟩ := by rw [← hremaining, ← hconsumed]
    obtain rfl : outcome = .ok (decide (n > 0)) := houtcome
    obtain rfl : program = Q n := hprogram.trans (congrArg Q hgrants)
    exact ⟨B, hB⟩
  case limited =>
    obtain ⟨o, ⟨B, hB⟩, houtcome, hprogram, hspends⟩ :=
      hruns (Fuel.limited k) false (Nat.le_of_lt hk) (show 0 + size ≤ Fuel.endless by omega)
    have hgrants : (Fuel.limited k).grants n = min k n := if_neg (Nat.ne_of_lt hk)
    rw [hgrants] at houtcome hprogram
    refine ⟨o, hprogram, houtcome.trans (by rw [Bool.false_or]), ?_, fun hn => ?_, B,
      fun options hb => ⟨hB options hb, ?_⟩⟩
    · have hremaining : o.fuel.remaining = k - n :=
        hspends.remaining.trans (if_neg (Nat.ne_of_lt hk))
      omega
    · rw [hspends.consumed (hgrants.trans (Nat.min_eq_right hn))]
      exact Nat.zero_add n
    · exact (optimizeMethods_consumed (hB options hb)).trans (Nat.zero_add _)

/-- Two methods, each of which returns a variable that holds a constant. -/
def sampleConstants : Program where
  vars := ⟨#[{ name := "i", type := .int, kind := .ofMethod },
    { name := "j", type := .int, kind := .ofMethod }]⟩
  methods := ⟨#[
    { name := "one", returns := .int, params := [], isPure := true, body := some ⟨2⟩ },
    { name := "two", returns := .int, params := [], isPure := true, body := some ⟨5⟩ }]⟩
  exprs := ⟨#[.int 1, .var ⟨0⟩, .int 2, .var ⟨1⟩]⟩
  stmts := ⟨#[.declare ⟨0⟩ (some ⟨0⟩), .ret (some ⟨1⟩), .block [⟨0⟩, ⟨1⟩],
    .declare ⟨1⟩ (some ⟨2⟩), .ret (some ⟨3⟩), .block [⟨3⟩, ⟨4⟩]]⟩

/-- Fuel for one rewrite is used up by the first method. -/
theorem optimize_limited_eq_cut_constants : sampleConstants.IsTree ∧
    ∃ Q : Nat → Program, Q 0 = sampleConstants ∧ Transforms (Q 0) (Q 1) ∧ Transforms (Q 1) (Q 2) ∧
      (∃ B, ∀ options : Options, B ≤ options.bound →
        optimize .declared options Fuel.infinite sampleConstants =
          .ok { outcome := .ok true, program := Q 2, fuel := ⟨Fuel.endless, 2⟩ }) ∧
      ∃ o : Optimization, o.program = Q 1 ∧ o.outcome = .ok true ∧ o.fuel.remaining = 0 ∧
        ∃ B, ∀ options : Options, B ≤ options.bound →
          optimize .declared options (Fuel.limited 1) sampleConstants = .ok o := by
  have htree : sampleConstants.IsTree :=
    Program.isTree_of_check (show sampleConstants.checksAsTree 8 = true by decide)
  have haccepts : ∀ m body, (m, body) ∈ sampleConstants.bodies →
      ∃ g, Graph.ofBody sampleConstants body = .ok (.ok g) := by
    intro m body hmem
    have hbodies : sampleConstants.bodies = [(⟨0⟩, ⟨2⟩), (⟨1⟩, ⟨5⟩)] := by decide
    rw [hbodies] at hmem
    simp only [List.mem_cons, Prod.mk.injEq, List.not_mem_nil, or_false] at hmem
    obtain ⟨-, rfl⟩ | ⟨-, rfl⟩ := hmem
    · exact ⟨_, rfl⟩
    · exact ⟨_, rfl⟩
  obtain ⟨n, Q, hstart, hstep, ⟨B, hB⟩, hcut⟩ :=
    optimize_limited_eq_cut htree haccepts (by decide)
  obtain rfl : n = 2 := by
    have hconsumed : (do
        let o ← optimize .declared { bound := 50 } Fuel.infinite sampleConstants
        return o.fuel.consumed) = Except.ok 2 := by
      decide +kernel
    obtain ⟨o, ho, hconsumed⟩ := Run.bind_eq_ok.1 hconsumed
    have hlarge := optimizeMethods_mono ho (Nat.le_max_left 50 B)
    have hsame := hlarge.symm.trans (hB { bound := max 50 B } (Nat.le_max_right 50 B))
    rw [Except.ok.inj hsame] at hconsumed
    exact Except.ok.inj hconsumed
  obtain ⟨o, hprogram, houtcome, hremaining, -, B', hB'⟩ := hcut 1 (by decide)
  exact ⟨htree, Q, hstart, hstep 0 (by decide), hstep 1 (by decide), ⟨B, hB⟩, o, hprogram, houtcome,
    hremaining, B', fun options hb => (hB' options hb).1⟩

end Inlining

end Dataflow
