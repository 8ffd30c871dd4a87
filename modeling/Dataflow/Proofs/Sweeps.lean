import Dataflow.Analysis.Sweep
import Dataflow.Proofs.Grafts
import Dataflow.Proofs.NodeEffects
import Dataflow.Proofs.WaveEnds

/-!
# The sweep of inlining

What holds at every place of the sweep that inlines known values in a body of a tree program
(`Sound`). The graph follows the body all the time, and the facts are settled for effects `E` that
are those of the nodes, but for one node at most: a write that is still to come, into whose value a
copy was put (`Awaits`). Its effect is only found when the sweep comes to it, and the facts are settled
again then.

The nodes of a fragment that was spliced come next in the sweep. They change nothing, and none of
them reads the variable whose value is known there, so none is replaced in turn (`Quiet`).

* `Sound.exists_pass`: the sweep past a node;
* `Proposal`, `Sound.exists_proposal`: the sweep at a read whose value is known.
-/

namespace Dataflow.Inlining

variable {g₀ : Graph} {body : StmtId} {s : Sweep Known} {p : Program} {g : Graph}
  {F : FactMap Known} {E : NodeId → Effect} {n m : NodeId}

/-- Whether a node is one of the first `base` and reads a variable. -/
def readsEarly (g : Graph) (base : Nat) (n : NodeId) : Bool :=
  n.index < base && (g.nodes.get? n).any fun node => match node.kind with
    | .read _ => true
    | _ => false

/-- The nodes that read a variable, among those of a list that are among the first `base`. -/
def readCount (g : Graph) (base : Nat) (ns : List NodeId) : Nat := ns.countP (readsEarly g base)

theorem readCount_cons (g : Graph) (base : Nat) (n : NodeId) (ns : List NodeId) :
    readCount g base (n :: ns) = readCount g base ns + if readsEarly g base n then 1 else 0 :=
  List.countP_cons

/-- The node `w` ahead puts another value of the variable that it writes than its effect says. But
    nothing in between changes the facts, and no node in between sees the old value. -/
def Awaits (p : Program) (g : Graph) (F : FactMap Known) (E : NodeId → Effect)
    (ahead : List NodeId) (w : NodeId) : Prop :=
  ∃ row after node v y value, ahead = row ++ w :: after ∧ g.nodes.get? w = some node ∧
    node.kind = .write v y ∧ p.isOfMethod v = .ok true ∧ E w = .put v value ∧
    ∀ m ∈ row, E m = .keep ∧ ∀ x, (F.joinIncoming g m).value v = some x → value ≠ some x

/-- A node changes nothing and reads no variable whose value is known there. -/
def Quiet (p : Program) (g : Graph) (F : FactMap Known) (n : NodeId) : Prop :=
  HasEffect .declared p g n .keep ∧ ∀ node u, g.nodes.get? n = some node → node.kind = .read u →
    (F.joinIncoming g n).value u = none

/-- A sweep of inlining over the graph `g₀` of a body of a tree program, at some place. -/
structure Sound (g₀ : Graph) (body : StmtId) (s : Sweep Known) : Prop where
  tree : s.program.IsTree
  lists : ∃ ls le, s.program.Lists ls le ∧ body ∈ ls
  linked : s.graph.Linked
  laidOut : s.graph.LaidOut s.program body
  facts : ∃ E, Settled s.graph s.facts E ∧ ∀ n ∈ s.graph.order,
    HasEffect .declared s.program s.graph n (E n) ∨
      Awaits s.program s.graph s.facts E (s.graph.order.drop s.index) n
  size : g₀.nodes.size ≤ s.graph.nodes.size
  original : ∀ n ∈ s.graph.order, n.index < g₀.nodes.size → n ∈ g₀.order
  ahead : ∃ fresh rest, s.graph.order.drop s.index = fresh ++ rest ∧
    (∀ n ∈ fresh, g₀.nodes.size ≤ n.index ∧ Quiet s.program s.graph s.facts n) ∧
    ∀ n ∈ rest, n.index < g₀.nodes.size
  budget : s.rewrites + readCount s.graph g₀.nodes.size (s.graph.order.drop s.index) ≤
    readCount g₀ g₀.nodes.size g₀.order

theorem HasEffect.unique {oracle : Oracle} {f f' : Effect} (h : HasEffect oracle p g n f)
    (h' : HasEffect oracle p g n f') : f = f' := by
  obtain ⟨node, hnode, hf⟩ := h
  obtain ⟨node', hnode', hf'⟩ := h'
  rw [hnode] at hnode'
  cases hnode'
  rw [hf] at hf'
  exact Except.ok.inj hf'

/-! ### Writes still to come -/

theorem Awaits.cons_cases {ahead : List NodeId} (h : Awaits p g F E (n :: ahead) m)
    (hmn : m ≠ n) : Awaits p g F E ahead m ∧ E n = .keep ∧
      ∀ v x, E m = .put v (some x) → (F.joinIncoming g n).value v ≠ some x := by
  obtain ⟨row, after, node, v, y, value, hahead, hnode, hkind, hv, hE, hrow⟩ := h
  cases row with
  | nil =>
    obtain ⟨rfl, _⟩ := List.cons.inj hahead
    exact absurd rfl hmn
  | cons k row =>
    obtain ⟨rfl, rfl⟩ := List.cons.inj hahead
    rw [List.forall_mem_cons] at hrow
    refine ⟨⟨row, after, node, v, y, value, rfl, hnode, hkind, hv, hE, hrow.2⟩, hrow.1.1, ?_⟩
    intro u x hput hx
    rw [hE] at hput
    cases hput
    exact hrow.1.2 x hx rfl

section Awaits

variable {ls : List StmtId} {le : List ExprId} (hp : p.InRange) (hl : p.Lists ls le)
  (hbody : body ∈ ls) (hlaid : g.LaidOut p body) {ahead : List NodeId}
include hp hl hbody hlaid

/-- A write still to come puts some value of its variable. -/
theorem Awaits.exists_hasEffect (h : Awaits p g F E ahead n) (hn : n ∈ g.order) :
    ∃ v old new, E n = .put v old ∧ HasEffect .declared p g n (.put v new) := by
  obtain ⟨_, _, node, v, y, value, _, hnode, hkind, hv, hE, _⟩ := h
  obtain ⟨l, tracked, new, _, _, ht, _, heffect⟩ :=
    hasEffect_write hp hl hbody hlaid hn hnode hkind
  rw [hv] at ht
  cases ht
  exact ⟨v, value, new, hE, node, hnode, heffect⟩

/-- A node that changes nothing is not awaited. -/
theorem eq_keep (hE : HasEffect .declared p g n (E n) ∨ Awaits p g F E ahead n) (hn : n ∈ g.order)
    (hkeep : HasEffect .declared p g n .keep) : E n = .keep := by
  rcases hE with hE | hE
  · exact hE.unique hkeep
  · obtain ⟨v, _, _, _, heffect⟩ := hE.exists_hasEffect hp hl hbody hlaid hn
    cases heffect.unique hkeep

/-- No two nodes put the same value. -/
theorem eq_of_put {u v : VarId} {x : ExprId} (hm : m ∈ g.order) (hn : n ∈ g.order)
    (hu : HasEffect .declared p g m (.put u (some x)))
    (hv : HasEffect .declared p g n (.put v (some x))) : m = n := by
  obtain ⟨_, node, y, l, hnode, hkind, _, _, hy⟩ := hu.of_put hp hl hbody hlaid hm
  obtain ⟨_, node', y', l', hnode', hkind', _, _, hy'⟩ := hv.of_put hp hl hbody hlaid hn
  obtain ⟨hy, _⟩ | ⟨hy, _⟩ := hy
  · obtain ⟨hy', _⟩ | ⟨hy', _⟩ := hy'
    · cases hy
      cases hy'
      exact hlaid.write_unique hl hbody hm hn hnode hnode' hkind hkind'
    · cases hy'
  · cases hy

end Awaits

/-- The node `k` puts the value `b` of the variable `v` where the effects `E` have it put `a`; all nodes
    have the effects `A`. -/
structure Turns (p : Program) (g : Graph) (E A : NodeId → Effect) (k : NodeId) (v : VarId)
    (a b : Option ExprId) : Prop extends Rises g E A k v a b where
  mem : k ∈ g.order
  ne : a ≠ b
  effects : ∀ m ∈ g.order, HasEffect .declared p g m (A m)

theorem exists_turns {ls : List StmtId} {le : List ExprId} {v : VarId} {a b : Option ExprId}
    (hp : p.InRange) (hl : p.Lists ls le) (hbody : body ∈ ls) (hlaid : g.LaidOut p body)
    (hn : n ∈ g.order) (hold : E n = .put v a) (hnew : HasEffect .declared p g n (.put v b))
    (hne : a ≠ b) (hothers : ∀ m ∈ g.order, m ≠ n → HasEffect .declared p g m (E m)) :
    ∃ A, Turns p g E A n v a b := by
  refine ⟨fun m => if m = n then .put v b else E m, ?_⟩
  constructor
  case toRises =>
    refine ⟨fun m hmn => if_neg hmn, hold, if_pos rfl, fun hsome m hm hmn hput => ?_⟩
    obtain ⟨x, rfl⟩ := Option.ne_none_iff_exists'.1 hsome
    exact hmn (eq_of_put hp hl hbody hlaid hm hn (hput ▸ hothers m hm hmn) hnew)
  case mem => exact hn
  case ne => exact hne
  case effects =>
    intro m hm
    split
    · next hmn => exact hmn ▸ hnew
    · next hmn => exact hothers m hm hmn

/-! ### Past a node -/

/-- What is known at a node under the facts `F'` was known there under `F`, or the node stands
    behind `n`. -/
def KnownSince (g : Graph) (F F' : FactMap Known) (n : NodeId) : Prop :=
  ∀ k ∈ g.order, ∀ u x, (F'.joinIncoming g k).value u = some x →
    (F.joinIncoming g k).value u = some x ∨ g.order.idxOf n < g.order.idxOf k

theorem interpret_settled (hF : Settled g F E) (hn : n ∈ g.order)
    (hE : HasEffect .declared p g n (E n)) :
    (analysis .declared).interpret n g p F = .ok F := by
  rw [interpret_eq hE, FactMap.put_eq_self (hF.fact n hn)]

theorem mem_of_drop_eq {order ahead : List NodeId} {i : Nat} (h : order.drop i = n :: ahead) :
    n ∈ order :=
  List.mem_of_mem_drop (by rw [h]; exact List.mem_cons_self)

theorem drop_succ_of_drop_eq {order ahead : List NodeId} {i : Nat} (h : order.drop i = n :: ahead) :
    order.drop (i + 1) = ahead := by
  rw [← List.drop_drop, h]
  rfl

namespace Sound

variable {ahead : List NodeId} (h : Sound g₀ body s)
  (hahead : s.graph.order.drop s.index = n :: ahead)
include h hahead

/-- The sweep past a node, with facts that are settled but for a write still to come. -/
theorem next {F' : FactMap Known} (hfacts : ∃ E, Settled s.graph F' E ∧ ∀ m ∈ s.graph.order,
      HasEffect .declared s.program s.graph m (E m) ∨
        Awaits s.program s.graph F' E ahead m)
    (hquiet : ∀ m ∈ ahead, g₀.nodes.size ≤ m.index → Quiet s.program s.graph s.facts m →
      Quiet s.program s.graph F' m) (fuel : Fuel) :
    Sound g₀ body { s with facts := F', index := s.index + 1, fuel } where
  tree := h.tree
  lists := h.lists
  linked := h.linked
  laidOut := h.laidOut
  facts := by
    rw [drop_succ_of_drop_eq hahead]
    exact hfacts
  size := h.size
  original := h.original
  ahead := by
    rw [drop_succ_of_drop_eq hahead]
    obtain ⟨fresh, rest, heq, hfresh, hrest⟩ := h.ahead
    rw [hahead] at heq
    cases fresh with
    | nil =>
      refine ⟨[], ahead, rfl, fun m hm => absurd hm List.not_mem_nil, fun m hm => hrest m ?_⟩
      rw [← show n :: ahead = rest from heq]
      exact List.mem_cons_of_mem _ hm
    | cons k fresh =>
      obtain ⟨rfl, rfl⟩ := List.cons.inj heq
      refine ⟨fresh, rest, rfl, fun m hm => ?_, hrest⟩
      obtain ⟨hbase, hq⟩ := hfresh m (List.mem_cons_of_mem _ hm)
      exact ⟨hbase, hquiet m (List.mem_append_left _ hm) hbase hq⟩
  budget := by
    have := h.budget
    rw [hahead, readCount_cons] at this
    rw [drop_succ_of_drop_eq hahead]
    change s.rewrites + readCount s.graph g₀.nodes.size ahead ≤ _
    omega

/-- Past a node whose effect is known, the facts are as they were. -/
theorem exists_pass_settled (hE : ∃ E, Settled s.graph s.facts E ∧
      HasEffect .declared s.program s.graph n (E n) ∧ ∀ m ∈ s.graph.order,
      HasEffect .declared s.program s.graph m (E m) ∨
        Awaits s.program s.graph s.facts E (n :: ahead) m) :
    (analysis .declared).interpret n s.graph s.program s.facts = .ok s.facts ∧
      ∀ fuel, Sound g₀ body { s with index := s.index + 1, fuel } := by
  obtain ⟨E, hF, hn, hE⟩ := hE
  refine ⟨interpret_settled hF (mem_of_drop_eq hahead) hn,
    h.next hahead ⟨E, hF, fun m hm => ?_⟩ fun m _ _ hq => hq⟩
  by_cases hmn : m = n
  · exact .inl (hmn ▸ hn)
  · exact (hE m hm).imp_right fun haw => (haw.cons_cases hmn).1

/-- Past a write, where all nodes have the effects that the facts are settled for. -/
theorem next_of_write {F' : FactMap Known} {v : VarId} {value : Option ExprId}
    (hn : HasEffect .declared s.program s.graph n (.put v value)) (hF' : Settled s.graph F' E)
    (hE : ∀ m ∈ s.graph.order, HasEffect .declared s.program s.graph m (E m)) (fuel : Fuel) :
    Sound g₀ body { s with facts := F', index := s.index + 1, fuel } := by
  refine h.next hahead ⟨E, hF', fun m hm => .inl (hE m hm)⟩ (fun k hk hbase _ => ?_) fuel
  -- No node that was inserted is ahead, as the write would be one of them.
  obtain ⟨fresh, rest, heq, hfresh, hrest⟩ := h.ahead
  rw [hahead] at heq
  cases fresh with
  | nil =>
    refine absurd (hrest k ?_) (Nat.not_lt.2 hbase)
    rw [← show n :: ahead = rest from heq]
    exact List.mem_cons_of_mem _ hk
  | cons n' fresh =>
    obtain ⟨rfl, _⟩ := List.cons.inj heq
    cases hn.unique (hfresh n List.mem_cons_self).2.1

/-- When the sweep comes to the write that was still to come, the facts are settled again. What is
    then known at nodes up to this one was known there before. -/
theorem exists_pass_wave (hE : ∃ E, Settled s.graph s.facts E ∧
      ¬HasEffect .declared s.program s.graph n (E n) ∧ ∀ m ∈ s.graph.order,
      HasEffect .declared s.program s.graph m (E m) ∨
        Awaits s.program s.graph s.facts E (n :: ahead) m) :
    ∃ m F' B, (analysis .declared).interpret n s.graph s.program s.facts = .ok m ∧
      (∀ b ≥ B, (analysis .declared).settle b s.graph s.program m = .ok F') ∧
      (∀ fuel, Sound g₀ body { s with facts := F', index := s.index + 1, fuel }) ∧
      KnownSince s.graph s.facts F' n := by
  obtain ⟨E, hF, hnot, hE⟩ := hE
  obtain ⟨ls, le, hl, hbody⟩ := h.lists
  have hn := mem_of_drop_eq hahead
  obtain ⟨v, old, new, hold, hnew⟩ := ((hE n hn).resolve_left hnot).exists_hasEffect
    h.tree.inRange hl hbody h.laidOut hn
  have hne : old ≠ new := by
    rintro rfl
    exact hnot (hold ▸ hnew)
  -- All other nodes have the effects that the facts are settled for.
  have hothers : ∀ m ∈ s.graph.order, m ≠ n → HasEffect .declared s.program s.graph m (E m) := by
    intro m hm hmn
    refine (hE m hm).resolve_right fun haw => ?_
    cases hold.symm.trans (haw.cons_cases hmn).2.1
  obtain ⟨A, hA⟩ := exists_turns h.tree.inRange hl hbody h.laidOut hn hold hnew hne hothers
  have hord := h.laidOut.ordered h.linked.toWired
  obtain ⟨m, F', bound, hinterpret, hsettle, hsettled, hdriven⟩ :=
    hA.exists_settle hF h.linked.toWired hord hne hn hA.effects
  exact ⟨m, F', bound, hinterpret, hsettle, h.next_of_write hahead hnew hsettled hA.effects,
    fun k hk u x hx => hdriven.value_or hF h.linked.toWired hA.toRises hord hsettled hk hx⟩

/-- The sweep goes past any node that it does not replace. -/
theorem exists_pass : ∃ m F' B,
    (analysis .declared).interpret n s.graph s.program s.facts = .ok m ∧
      (∀ b ≥ B, (analysis .declared).settle b s.graph s.program m = .ok F') ∧
      (∀ fuel, Sound g₀ body { s with facts := F', index := s.index + 1, fuel }) ∧
      KnownSince s.graph s.facts F' n := by
  obtain ⟨E, hF, hE⟩ := h.facts
  rw [hahead] at hE
  by_cases hn : HasEffect .declared s.program s.graph n (E n)
  · obtain ⟨hinterpret, hnext⟩ := h.exists_pass_settled hahead ⟨E, hF, hn, hE⟩
    exact ⟨s.facts, s.facts, 0, hinterpret, fun b _ => Analysis.settle_eq _ _ _ _ hF.changed, hnext,
      fun _ _ _ _ hx => .inl hx⟩
  · exact h.exists_pass_wave hahead ⟨E, hF, hn, hE⟩

end Sound

/-! ### Proposals -/

/-- The sweep is at a node that reads the variable `v`, which is known to hold the value `x` there.
    Here `r` is the expression that is read, `E` are the effects that the facts are settled for,
    `ls` and `le` list everything in the bodies, and `la` everything inside `x`. -/
structure Proposal (g₀ : Graph) (body : StmtId) (s : Sweep Known) (ahead : List NodeId)
    (n : NodeId) (parent : Option NodeId) (v : VarId) (r x : ExprId) (E : NodeId → Effect)
    (ls : List StmtId) (le la : List ExprId) : Prop where
  order : s.graph.order.drop s.index = n :: ahead
  node : s.graph.nodes.get? n = some ⟨.read v, .expr r, parent⟩
  known : (s.facts.joinIncoming s.graph n).value v = some x
  only : ∀ u z, (s.facts.joinIncoming s.graph n).value u = some z → u = v ∧ z = x
  settled : Settled s.graph s.facts E
  effects : ∀ m ∈ s.graph.order, HasEffect .declared s.program s.graph m (E m) ∨
    Awaits s.program s.graph s.facts E (n :: ahead) m
  keep : E n = .keep
  early : n.index < g₀.nodes.size
  rest : ∀ m ∈ ahead, m.index < g₀.nodes.size
  tracked : s.program.isOfMethod v = .ok true
  lists : s.program.Lists ls le
  body_mem : body ∈ ls
  spans : Spans s.program [x] la
  sublist : la.Sublist le
  inert : s.program.Inert la
  avoids : s.program.Avoids la v

/-- Where the value of a variable that is read is known, it may be evaluated again, and the node was
    there from the start. This holds whatever effects the facts are settled for. -/
theorem Sound.exists_proposal_of {ahead : List NodeId} {parent : Option NodeId} {v : VarId}
    {r x : ExprId} (h : Sound g₀ body s) (hahead : s.graph.order.drop s.index = n :: ahead)
    (hF : Settled s.graph s.facts E) (hE : ∀ m ∈ s.graph.order,
      HasEffect .declared s.program s.graph m (E m) ∨
        Awaits s.program s.graph s.facts E (n :: ahead) m)
    (hnode : s.graph.nodes.get? n = some ⟨.read v, .expr r, parent⟩)
    (hx : (s.facts.joinIncoming s.graph n).value v = some x) :
    ∃ ls le la, Proposal g₀ body s ahead n parent v r x E ls le la := by
  obtain ⟨ls, le, hl, hbody⟩ := h.lists
  have hn := mem_of_drop_eq hahead
  have hkeep : E n = .keep :=
    eq_keep h.tree.inRange hl hbody h.laidOut (hE n hn) hn ⟨_, hnode, rfl⟩
  have hord := h.laidOut.ordered h.linked.toWired
  obtain ⟨m, hm, hput, _⟩ := hF.exists_put h.linked.toWired hord hn hx hx
  -- The node that put the value is no write still to come: those are not seen from here.
  have hmn : m ≠ n := by
    rintro rfl
    cases hkeep.symm.trans hput
  have hwrite : HasEffect .declared s.program s.graph m (.put v (some x)) := by
    rcases hE m hm with heffect | haw
    · exact hput ▸ heffect
    · exact absurd hx ((haw.cons_cases hmn).2.2 v x hput)
  obtain ⟨htracked, _, y, la, _, _, hspans, hsub, hy⟩ :=
    hwrite.of_put h.tree.inRange hl hbody h.laidOut hm
  obtain ⟨hy, hinert, havoids⟩ | ⟨hy, _⟩ := hy
  · cases hy
    obtain ⟨fresh, rest, heq, hfresh, hrest⟩ := h.ahead
    rw [hahead] at heq
    -- The node is not one of those that were inserted.
    have hrest' : n :: ahead = rest := by
      cases fresh with
      | nil => exact heq
      | cons n' fresh =>
        obtain ⟨rfl, _⟩ := List.cons.inj heq
        have := (hfresh n List.mem_cons_self).2.2 _ v hnode rfl
        rw [hx] at this
        cases this
    subst hrest'
    refine ⟨ls, le, la, {
      order := hahead
      node := hnode
      known := hx
      only := fun u z hz => ?_
      settled := hF
      effects := hE
      keep := hkeep
      early := hrest n List.mem_cons_self
      rest := fun m hm => hrest m (List.mem_cons_of_mem _ hm)
      tracked := htracked
      lists := hl
      body_mem := hbody
      spans := hspans
      sublist := hsub
      inert := hinert
      avoids := havoids }⟩
    obtain ⟨k, _, hk, hk', _⟩ := hF.exists_put h.linked.toWired hord hn hz hx
    cases hk.symm.trans hk'
    exact ⟨rfl, rfl⟩
  · cases hy

theorem Sound.exists_proposal {ahead : List NodeId} {parent : Option NodeId} {v : VarId}
    {r x : ExprId} (h : Sound g₀ body s) (hahead : s.graph.order.drop s.index = n :: ahead)
    (hnode : s.graph.nodes.get? n = some ⟨.read v, .expr r, parent⟩)
    (hx : (s.facts.joinIncoming s.graph n).value v = some x) :
    ∃ E ls le la, Proposal g₀ body s ahead n parent v r x E ls le la := by
  obtain ⟨E, hF, hE⟩ := h.facts
  rw [hahead] at hE
  exact ⟨E, h.exists_proposal_of hahead hF hE hnode hx⟩

/-! ### Around a proposal -/

namespace Proposal

variable {ahead : List NodeId} {parent : Option NodeId} {v : VarId} {r x : ExprId}
  {ls : List StmtId} {le la : List ExprId}
  (h : Proposal g₀ body s ahead n parent v r x E ls le la)
include h

theorem mem : n ∈ s.graph.order := mem_of_drop_eq h.order

theorem mem_of_ahead {k : NodeId} (hk : k ∈ ahead) : k ∈ s.graph.order :=
  List.mem_of_mem_drop (by rw [h.order]; exact List.mem_cons_of_mem _ hk)

theorem order_eq : s.graph.order = s.graph.order.take s.index ++ n :: ahead := by
  rw [← h.order, List.take_append_drop]

theorem length_take : (s.graph.order.take s.index).length = s.index := by
  have := congrArg List.length h.order
  rw [List.length_drop, List.length_cons] at this
  rw [List.length_take]
  omega

theorem not_mem (hg : s.graph.Linked) :
    n ∉ s.graph.order.take s.index ∧ n ∉ ahead := by
  have := h.order_eq ▸ hg.order_nodup
  rw [List.nodup_append, List.nodup_cons] at this
  exact ⟨fun hn => this.2.2 n hn n List.mem_cons_self rfl, this.2.1.1⟩

section Row

variable {q : Program} {g' : Graph} {c : ExprId} {lc : List ExprId} {oc : List Operation}
  (hg : s.graph.Linked) (hlaid : s.graph.LaidOut s.program body) (hp : s.program.InRange)
  (hin : Inlined s.program q s.graph g' n parent v r c x ls le la lc oc) (hm : m ∈ s.graph.order)
  {node : Node} {u : VarId} {y : ExprId} {l : List ExprId}
  (hnode : s.graph.nodes.get? m = some node) (hkind : node.kind = .write u y)
  (hspans : Spans s.program [y] l) (hinert : s.program.Inert l) (hr : r ∈ l)
include hg hlaid hp hin hm hnode hkind hspans hinert hr

/-- Between the read and the node that writes an inert value with the read in it, nothing happens to
    the facts. -/
theorem exists_row : ∃ row after parent' os os' ends, ahead = row ++ m :: after ∧
    (∀ k ∈ row, E k = .keep ∧ s.facts.joinIncoming s.graph k = s.facts.joinIncoming s.graph n) ∧
    Emits s.program [y] l (os ++ ⟨.read v, r⟩ :: os') ∧
    Spelled s.graph parent' os' [(n, none)] row (s.graph.arrivals m) ends := by
  obtain ⟨before, row, after, parent', os, os', ends, horder, hkeep, hem, hrow⟩ :=
    hin.exists_row hp h.lists h.body_mem hlaid hm hnode hkind hspans hinert hr
  -- The row is what comes next.
  obtain rfl : ahead = row ++ m :: after := by
    have hnot := h.not_mem hg
    exact ((List.append_cons_inj_of_notMem hnot.1 hnot.2).1 (h.order_eq.symm.trans horder)).2.2
  have hE' : ∀ k ∈ row, E k = .keep := fun k hk =>
    have hk' := h.mem_of_ahead (List.mem_append_left _ hk)
    eq_keep hp h.lists h.body_mem hlaid (h.effects k hk') hk' (hkeep k hk)
  have hleave : ∀ a ∈ [(n, (none : Option Label))],
      leaving s.graph s.facts E a.1 = s.facts.joinIncoming s.graph n := by
    intro a ha
    rw [List.mem_singleton.1 ha, leaving, h.keep]
    rfl
  have hjoin := (h.settled.row hg.toWired hrow hE' (List.cons_ne_nil _ _) hleave).1
  exact ⟨row, after, parent', os, os', ends, rfl, fun k hk => ⟨hE' k hk, hjoin k hk⟩, hem, hrow⟩

/-- The node that writes an inert value with the read in it is awaited from the read on. -/
theorem awaits (hE : HasEffect .declared s.program s.graph m (E m))
    (hu : s.program.isOfMethod u = .ok true) :
    Awaits s.program s.graph s.facts E (n :: ahead) m := by
  obtain ⟨row, after, _, _, _, _, rfl, hrow, _⟩ :=
    h.exists_row hg hlaid hp hin hm hnode hkind hspans hinert hr
  -- The one value that is known there does not name its variable, but what is written does.
  obtain ⟨l', tracked, value, hspans', _, ht, hvalue, heffect⟩ :=
    hasEffect_write hp h.lists h.body_mem hlaid hm hnode hkind
  rw [hu] at ht
  cases ht
  cases hspans.unique hspans'
  have hput : E m = .put u value := hE.unique ⟨node, hnode, heffect⟩
  have hne : ∀ z, (s.facts.joinIncoming s.graph n).value u = some z → value ≠ some z := by
    rintro z hz rfl
    obtain ⟨rfl, rfl⟩ := h.only u z hz
    obtain ⟨_, _, havoids⟩ | ⟨hnone, _⟩ := hvalue
    · exact havoids r hr _ hin.var rfl
    · cases hnone
  refine ⟨n :: row, after, node, u, y, value, rfl, hnode, hkind, hu, hput, ?_⟩
  rw [List.forall_mem_cons]
  exact ⟨⟨h.keep, hne⟩, fun k hk => ⟨(hrow k hk).1, by rwa [(hrow k hk).2]⟩⟩

end Row

end Proposal

end Dataflow.Inlining
