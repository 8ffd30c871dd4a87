import Dataflow.Proofs.Layout

/-!
# Graphs without their silent nodes

Two kinds of nodes say nothing about what a method does: one stands for an expression without an
operation, and one for the way that parts before a call. They are *erased* from a graph by joining
what enters such a node, with its labels, to what the node leads to; the ways of calls that throw
are dropped. What is left of a graph is its `Graph.erasure`: what its other nodes say, in order, and
the labelled edges between them.

The layout of a body leaves no choice but that of silent nodes, so all graphs of a body have the
same erasure.

* `Graph.erasure`: what erasing leaves;
* `Comes`: where edges come from, through nodes that are erased;
* `Twins`: two stretches of nodes that say the same and are entered in the same way;
* `Graph.LaidOut.erasure_eq`: two graphs of one body have the same erasure.
-/

namespace Dataflow

/-- Whether a node says nothing about what a method does. -/
def NodeKind.isSilent : NodeKind → Bool
  | .nop | .optionalThrow _ => true
  | _ => false

/-! ### Erasing nodes -/

/-- Edges, with those that leave the node `m` replaced by those that enter it. -/
def through (arr : NodeId → List OpenEdge) (m : NodeId) (es : List OpenEdge) : List OpenEdge :=
  es.flatMap fun a => if a.1 = m then arr m else [a]

/-- The edges that enter each node, once what enters the node `m` enters what it leads to. -/
def bypass (arr : NodeId → List OpenEdge) (m : NodeId) (n : NodeId) : List OpenEdge :=
  through arr m (arr n)

/-- Edges other than those of calls that throw. -/
def unthrown (es : List OpenEdge) : List OpenEdge := es.filter (·.2 ≠ some .throws)

namespace Graph

variable (g : Graph)

/-- The nodes that are erased. -/
def silent : List NodeId := g.order.filter fun n => (g.nodes.get? n).any (·.kind.isSilent)

/-- The nodes of a list that stay. -/
def audible (ns : List NodeId) : List NodeId := ns.filter (· ∉ g.silent)

/-- The edges that enter each node, once the silent nodes are erased. -/
def erasedArrivals : NodeId → List OpenEdge :=
  g.silent.foldl bypass fun n => unthrown (g.arrivals n)

/-- What erasing the silent nodes leaves: what each node says, in order, and the labelled edges, from
    place to place. -/
def erasure : List (Option (NodeKind × Origin)) × List (Nat × Option Label × Nat) :=
  let kept := g.audible g.order
  (kept.map fun n => (g.nodes.get? n).map fun node => (node.kind, node.origin),
   kept.flatMap fun n => (g.erasedArrivals n).map fun a => (kept.idxOf a.1, a.2, kept.idxOf n))

end Graph

/-! ### Through erased nodes -/

/-- Where edges come from, when the nodes `ms` are passed over. -/
inductive Comes (arr : NodeId → List OpenEdge) (ms : List NodeId) :
    List OpenEdge → List OpenEdge → Prop
  | nil : Comes arr ms [] []
  | kept {a : OpenEdge} {es os : List OpenEdge} : a.1 ∉ ms → Comes arr ms es os →
    Comes arr ms (a :: es) (a :: os)
  | skip {a : OpenEdge} {es os os' : List OpenEdge} : a.1 ∈ ms → Comes arr ms (arr a.1) os →
    Comes arr ms es os' → Comes arr ms (a :: es) (os ++ os')

namespace Comes

variable {arr : NodeId → List OpenEdge} {m : NodeId} {ms : List NodeId}
  {es es' os os' : List OpenEdge}

theorem append (h : Comes arr ms es os) (h' : Comes arr ms es' os') :
    Comes arr ms (es ++ es') (os ++ os') := by
  induction h with
  | nil => exact h'
  | kept ha _ ih => exact .kept ha ih
  | skip ha hin _ _ ih =>
    rw [List.append_assoc]
    exact .skip ha hin ih

theorem eq_of_nil (h : Comes arr [] es os) : os = es := by
  induction h with
  | nil => rfl
  | kept _ _ ih => rw [ih]
  | skip ha => cases ha

/-- Passing over nodes comes to an end. -/
theorem acc (h : Comes arr ms es os) : ∀ a ∈ es, a.1 ∈ ms →
    Acc (fun b a => b ∈ ms ∧ ∃ l, (b, l) ∈ arr a) a.1 := by
  induction h with
  | nil => exact fun a ha => absurd ha List.not_mem_nil
  | @kept b es _ hb _ ih =>
    rw [List.forall_mem_cons]
    exact ⟨fun hmem => absurd hmem hb, ih⟩
  | skip _ _ _ ih₁ ih₂ =>
    rw [List.forall_mem_cons]
    exact ⟨fun _ => ⟨_, fun b ⟨hb, l, hl⟩ => ih₁ (b, l) hl hb⟩, ih₂⟩

theorem through_cons (a : OpenEdge) : through arr m (a :: es) =
    (if a.1 = m then arr m else [a]) ++ through arr m es :=
  List.flatMap_cons

theorem through_of_ne (h : ∀ a ∈ es, a.1 ≠ m) : through arr m es = es := by
  induction es with
  | nil => rfl
  | cons a es ih =>
    rw [List.forall_mem_cons] at h
    rw [through_cons, if_neg h.1, ih h.2, List.singleton_append]

/-- A node that can be passed over does not lead to itself. -/
theorem ne_of_mem (h : Comes arr ms (arr m) os) (hm : m ∈ ms) : ∀ a ∈ arr m, a.1 ≠ m := by
  intro a ha ham
  have hacc := h.acc a ha (ham ▸ hm)
  rw [ham] at hacc
  have hself : m ∈ ms ∧ ∃ l, (m, l) ∈ arr m := ⟨hm, a.2, ham ▸ ha⟩
  clear h ha ham hm
  induction hacc with
  | intro m _ ih => exact ih m hself hself

/-- Erasing a node changes nothing about where edges come from when it is passed over. -/
theorem bypass (h : Comes arr (m :: ms) es os) :
    Comes (bypass arr m) ms (through arr m es) os := by
  induction h with
  | nil => exact .nil
  | @kept a es os ha _ ih =>
    rw [List.mem_cons, not_or] at ha
    rw [through_cons, if_neg ha.1]
    exact .kept ha.2 ih
  | @skip a es os os' ha hin _ ih₁ ih₂ =>
    rw [through_cons]
    by_cases ham : a.1 = m
    · rw [if_pos ham]
      rw [ham] at hin ih₁
      rw [through_of_ne (ne_of_mem hin List.mem_cons_self)] at ih₁
      exact ih₁.append ih₂
    · rw [if_neg ham]
      exact .skip ((List.mem_cons.1 ha).resolve_left ham) ih₁ ih₂

/-- Erasing nodes one after the other passes over all of them. -/
theorem foldl_bypass {n : NodeId} (h : Comes arr ms (arr n) os) :
    ms.foldl Dataflow.bypass arr n = os := by
  induction ms generalizing arr with
  | nil => exact h.eq_of_nil.symm
  | cons m ms ih =>
    exact ih h.bypass

end Comes

/-! ### Silent nodes of a graph -/

section Silent

variable {g : Graph} {n : NodeId} {node : Node} {ns ms : List NodeId} {es es' os os' : List OpenEdge}

theorem mem_silent (hn : n ∈ g.order) (hnode : g.nodes.get? n = some node)
    (hkind : node.kind.isSilent = true) : n ∈ g.silent := by
  rw [Graph.silent, List.mem_filter, hnode]
  exact ⟨hn, hkind⟩

theorem not_mem_silent (hnode : g.nodes.get? n = some node) (hkind : node.kind.isSilent = false) :
    n ∉ g.silent := by
  rw [Graph.silent, List.mem_filter, hnode]
  rintro ⟨_, h⟩
  cases hkind.symm.trans h

theorem Sits.not_mem_silent {kind : NodeKind} {origin : Origin} {parent : Option NodeId}
    {ins : List OpenEdge} (h : Sits g n kind origin parent ins) (hkind : kind.isSilent = false) :
    n ∉ g.silent :=
  Dataflow.not_mem_silent h.node hkind

theorem audible_append : g.audible (ns ++ ms) = g.audible ns ++ g.audible ms := List.filter_append ..

theorem audible_cons_of_not_mem (hn : n ∉ g.silent) :
    g.audible (n :: ns) = n :: g.audible ns :=
  List.filter_cons_of_pos (decide_eq_true hn)

theorem audible_cons_of_mem (hn : n ∈ g.silent) : g.audible (n :: ns) = g.audible ns :=
  List.filter_cons_of_neg (by simpa using hn)

/-- Where edges come from, when silent nodes are passed over and calls do not throw. -/
def Graph.ComesFrom (g : Graph) (es os : List OpenEdge) : Prop :=
  Comes (fun n => unthrown (g.arrivals n)) g.silent (unthrown es) os

theorem Graph.ComesFrom.append (h : g.ComesFrom es os) (h' : g.ComesFrom es' os') :
    g.ComesFrom (es ++ es') (os ++ os') := by
  rw [Graph.ComesFrom, unthrown, List.filter_append]
  exact Comes.append h h'

theorem comesFrom_of_not_mem (hn : n ∉ g.silent) {l : Option Label} (hl : l ≠ some .throws) :
    g.ComesFrom [(n, l)] [(n, l)] := by
  rw [Graph.ComesFrom, unthrown, List.filter_cons_of_pos (by simpa using hl)]
  exact .kept hn .nil

theorem comesFrom_of_mem (hn : n ∈ g.silent) {l : Option Label} (hl : l ≠ some .throws)
    (h : g.ComesFrom (g.arrivals n) os) : g.ComesFrom [(n, l)] os := by
  rw [Graph.ComesFrom, unthrown, List.filter_cons_of_pos (by simpa using hl), ← List.append_nil os]
  exact .skip hn h .nil

/-- Nodes one after the other, the first of which is entered by edges that come from `xs`. Those
    that leave the last one come from `ys`. -/
inductive Strung (g : Graph) : List OpenEdge → List NodeId → List OpenEdge → Prop
  | nil {xs : List OpenEdge} : Strung g xs [] xs
  | cons {n : NodeId} {ns : List NodeId} {xs ys : List OpenEdge} : g.ComesFrom (g.arrivals n) xs →
    Strung g [(n, none)] ns ys → Strung g xs (n :: ns) ys

/-- Operations in a row, without the silent nodes between them. -/
theorem Spelled.exists_strung {parent : Option NodeId} {ops : List Operation}
    {ins outs ends xs : List OpenEdge} (h : Spelled g parent ops ins ns outs ends)
    (hops : ∀ o ∈ ops, o.kind.isSilent = false) (hns : ∀ n ∈ ns, n ∈ g.order)
    (hxs : g.ComesFrom ins xs) : ∃ ys, g.ComesFrom outs ys ∧ unthrown ends = [] ∧
      Strung g xs (g.audible ns) ys := by
  induction h generalizing xs with
  | nil => exact ⟨xs, hxs, rfl, .nil⟩
  | op hn _ ih =>
    rw [List.forall_mem_cons] at hops hns
    have hkept := hn.not_mem_silent hops.1
    obtain ⟨ys, hys, hends, hrest⟩ := ih hops.2 hns.2 (comesFrom_of_not_mem hkept (by simp))
    rw [audible_cons_of_not_mem hkept]
    exact ⟨ys, hys, hends, .cons (hn.arrivals ▸ hxs) hrest⟩
  | call ho hm hn _ ih =>
    rw [List.forall_mem_cons] at hops
    rw [List.forall_mem_cons, List.forall_mem_cons] at hns
    have hparting := mem_silent hns.1 hm.node rfl
    have hkept := hn.not_mem_silent rfl
    obtain ⟨ys, hys, hends, hrest⟩ := ih hops.2 hns.2.2 (comesFrom_of_not_mem hkept (by simp))
    rw [audible_cons_of_mem hparting, audible_cons_of_not_mem hkept]
    refine ⟨ys, hys, ?_, .cons ?_ hrest⟩
    · rw [unthrown, List.filter_cons_of_neg (by simp)]
      exact hends
    · rw [hn.arrivals]
      exact comesFrom_of_mem hparting (by simp) (hm.arrivals ▸ hxs)
  | nop hn _ ih =>
    rw [List.forall_mem_cons] at hns
    have hsilent := mem_silent hns.1 hn.node rfl
    rw [audible_cons_of_mem hsilent]
    exact ih hops hns.2 (comesFrom_of_mem hsilent (by simp) (hn.arrivals ▸ hxs))

/-- A node says what an operation says. -/
def Tells (g : Graph) (o : Operation) (n : NodeId) : Prop :=
  (g.nodes.get? n).map (fun node => (node.kind, node.origin)) = some (o.kind, .expr o.expr)

theorem Spelled.tells {parent : Option NodeId} {ops : List Operation} {ins outs ends : List OpenEdge}
    (h : Spelled g parent ops ins ns outs ends) (hops : ∀ o ∈ ops, o.kind.isSilent = false)
    (hns : ∀ n ∈ ns, n ∈ g.order) : List.Forall₂ (Tells g) ops (g.audible ns) := by
  induction h with
  | nil => exact .nil
  | op hn _ ih =>
    rw [List.forall_mem_cons] at hops hns
    rw [audible_cons_of_not_mem (hn.not_mem_silent hops.1)]
    exact .cons (by rw [Tells, hn.node]; rfl) (ih hops.2 hns.2)
  | call ho hm hn _ ih =>
    rw [List.forall_mem_cons] at hops
    rw [List.forall_mem_cons, List.forall_mem_cons] at hns
    rw [audible_cons_of_mem (mem_silent hns.1 hm.node rfl),
      audible_cons_of_not_mem (hn.not_mem_silent rfl)]
    exact .cons (by rw [Tells, hn.node, ho]; rfl) (ih hops.2 hns.2.2)
  | nop hn _ ih =>
    rw [List.forall_mem_cons] at hns
    rw [audible_cons_of_mem (mem_silent hns.1 hn.node rfl)]
    exact ih hops hns.2

end Silent

/-! ### Two graphs side by side -/

/-- Two nodes say the same. -/
def Says (g h : Graph) (a b : NodeId) : Prop :=
  (g.nodes.get? a).map (fun node => (node.kind, node.origin)) =
    (h.nodes.get? b).map fun node => (node.kind, node.origin)

/-- Edges of two graphs that come from nodes paired by `R`, by edges with the same labels. -/
def Matches (g h : Graph) (R : NodeId → NodeId → Prop) (es es' : List OpenEdge) : Prop :=
  ∃ os os', g.ComesFrom es os ∧ h.ComesFrom es' os' ∧
    List.Forall₂ (fun x y => R x.1 y.1 ∧ x.2 = y.2) os os'

/-- Two stretches of nodes, the silent ones left aside. They say the same; and whatever pairs their
    nodes one by one, and also what enters the stretches as it is `given`, pairs what enters their
    nodes and what leaves the stretches. -/
structure Twins (g h : Graph) (given : (NodeId → NodeId → Prop) → Prop) (ns ns' : List NodeId)
    (outs outs' ends ends' : List OpenEdge) : Prop where
  nodes : List.Forall₂ (Says g h) (g.audible ns) (h.audible ns')
  edges : ∀ R : NodeId → NodeId → Prop,
    (∀ a ∈ (g.audible ns).zip (h.audible ns'), R a.1 a.2) → given R →
    (∀ a ∈ (g.audible ns).zip (h.audible ns'), Matches g h R (g.arrivals a.1) (h.arrivals a.2)) ∧
      Matches g h R outs outs' ∧ Matches g h R ends ends'

section Twins

variable {g h : Graph} {R : NodeId → NodeId → Prop} {given : (NodeId → NodeId → Prop) → Prop}
  {ns ns' ms ms' : List NodeId} {n n' k k' : NodeId}
  {ins ins' mid mid' outs outs' ends ends' ends₁ ends₁' : List OpenEdge}

theorem matches_nil : Matches g h R [] [] := ⟨[], [], .nil, .nil, .nil⟩

theorem Matches.append (hm : Matches g h R ins ins') (hm' : Matches g h R mid mid') :
    Matches g h R (ins ++ mid) (ins' ++ mid') := by
  obtain ⟨os, os', ho, ho', hR⟩ := hm
  obtain ⟨xs, xs', hx, hx', hR'⟩ := hm'
  exact ⟨_, _, ho.append hx, ho'.append hx', List.rel_append hR hR'⟩

/-- An edge that leaves paired nodes. -/
theorem matches_of_rel (hn : n ∉ g.silent) (hn' : n' ∉ h.silent) (hR : R n n') {l : Option Label}
    (hl : l ≠ some .throws) : Matches g h R [(n, l)] [(n', l)] :=
  ⟨_, _, comesFrom_of_not_mem hn hl, comesFrom_of_not_mem hn' hl, .cons ⟨hR, rfl⟩ .nil⟩

/-- Edges that leave one node each in another way. -/
theorem Matches.relabel (hn : n ∉ g.silent) (hn' : n' ∉ h.silent)
    (hm : Matches g h R [(n, none)] [(n', none)]) {l : Option Label} (hl : l ≠ some .throws) :
    Matches g h R [(n, l)] [(n', l)] := by
  obtain ⟨os, os', ho, ho', hR⟩ := hm
  refine matches_of_rel hn hn' ?_ hl
  cases ho with
  | skip hsilent => exact absurd hsilent hn
  | kept _ hnil =>
    cases ho' with
    | skip hsilent => exact absurd hsilent hn'
    | kept _ hnil' =>
      cases hR with
      | cons hR => exact hR.1

theorem forall₂_says {ops : List Operation} (hg : List.Forall₂ (Tells g) ops ns)
    (hh : List.Forall₂ (Tells h) ops ns') : List.Forall₂ (Says g h) ns ns' := by
  induction hg generalizing ns' with
  | nil =>
    cases hh
    exact .nil
  | cons hn _ ih =>
    cases hh with
    | cons hn' hrest => exact .cons (hn.trans hn'.symm) (ih hrest)

/-- Nodes in a row are entered in the same way, if the rows are. -/
theorem Strung.matches {xs xs' ys ys' : List OpenEdge} (hg : Strung g xs ns ys)
    (hh : Strung h xs' ns' ys') (hlength : ns.length = ns'.length)
    (hkept : ∀ n ∈ ns, n ∉ g.silent) (hkept' : ∀ n ∈ ns', n ∉ h.silent)
    (hR : ∀ a ∈ ns.zip ns', R a.1 a.2)
    (hxs : List.Forall₂ (fun x y => R x.1 y.1 ∧ x.2 = y.2) xs xs') :
    (∀ a ∈ ns.zip ns', Matches g h R (g.arrivals a.1) (h.arrivals a.2)) ∧
      List.Forall₂ (fun x y => R x.1 y.1 ∧ x.2 = y.2) ys ys' := by
  induction hg generalizing xs' ns' with
  | nil =>
    cases hh with
    | nil => exact ⟨fun a ha => absurd ha List.not_mem_nil, hxs⟩
    | cons => cases hlength
  | cons hn _ ih =>
    cases hh with
    | nil => cases hlength
    | cons hn' hrest =>
      rw [List.zip_cons_cons, List.forall_mem_cons] at hR ⊢
      rw [List.forall_mem_cons] at hkept hkept'
      obtain ⟨hedges, hys⟩ := ih hrest (Nat.succ.inj hlength) hkept.2 hkept'.2 hR.2
        (.cons ⟨hR.1, rfl⟩ .nil)
      exact ⟨⟨⟨_, _, hn, hn', hxs⟩, hedges⟩, hys⟩

theorem comesFrom_nil_of_unthrown (hends : unthrown ends = []) : g.ComesFrom ends [] := by
  rw [Graph.ComesFrom, hends]
  exact .nil

/-- The same operations in two rows. -/
theorem Spelled.twins {parent parent' : Option NodeId} {ops : List Operation}
    (hg : Spelled g parent ops ins ns outs ends) (hh : Spelled h parent' ops ins' ns' outs' ends')
    (hops : ∀ o ∈ ops, o.kind.isSilent = false) (hns : ∀ n ∈ ns, n ∈ g.order)
    (hns' : ∀ n ∈ ns', n ∈ h.order) :
    Twins g h (fun R => Matches g h R ins ins') ns ns' outs outs' ends ends' := by
  have hnodes := forall₂_says (hg.tells hops hns) (hh.tells hops hns')
  refine ⟨hnodes, fun R hR ⟨xs, xs', hxs, hxs', hsame⟩ => ?_⟩
  obtain ⟨ys, hys, hends, hstrung⟩ := hg.exists_strung hops hns hxs
  obtain ⟨ys', hys', hends', hstrung'⟩ := hh.exists_strung hops hns' hxs'
  obtain ⟨hedges, hsame'⟩ := hstrung.matches hstrung' hnodes.length_eq
    (fun n hn => of_decide_eq_true (List.mem_filter.1 hn).2)
    (fun n hn => of_decide_eq_true (List.mem_filter.1 hn).2) hR hsame
  exact ⟨hedges, ⟨ys, ys', hys, hys', hsame'⟩,
    [], [], comesFrom_nil_of_unthrown hends, comesFrom_nil_of_unthrown hends', .nil⟩

/-- One node in each graph. -/
theorem Sits.twins {kind : NodeKind} {origin : Origin} {parent parent' : Option NodeId}
    (hn : Sits g n kind origin parent ins) (hn' : Sits h n' kind origin parent' ins')
    (hkind : kind.isSilent = false) :
    Twins g h (fun R => Matches g h R ins ins') [n] [n'] [(n, none)] [(n', none)] [] [] := by
  have hkept := hn.not_mem_silent hkind
  have hkept' := hn'.not_mem_silent hkind
  have hone : g.audible [n] = [n] := audible_cons_of_not_mem hkept
  have hone' : h.audible [n'] = [n'] := audible_cons_of_not_mem hkept'
  constructor
  · rw [hone, hone']
    refine .cons ?_ .nil
    rw [Says, hn.node, hn'.node]
    rfl
  · intro R hR hins
    rw [hone, hone', List.zip_cons_cons, List.forall_mem_cons] at hR ⊢
    refine ⟨⟨?_, fun a ha => absurd ha List.not_mem_nil⟩,
      matches_of_rel hkept hkept' hR.1 (by simp), matches_nil⟩
    rw [hn.arrivals, hn'.arrivals]
    exact hins

/-- A stretch after another. -/
theorem Twins.append (t : Twins g h given ns ns' mid mid' ends ends')
    (t₁ : Twins g h (fun R => given R ∧ Matches g h R mid mid') ms ms' outs outs' ends₁ ends₁') :
    Twins g h given (ns ++ ms) (ns' ++ ms') outs outs' (ends ++ ends₁) (ends' ++ ends₁') := by
  have hzip : (g.audible (ns ++ ms)).zip (h.audible (ns' ++ ms')) =
      (g.audible ns).zip (h.audible ns') ++ (g.audible ms).zip (h.audible ms') := by
    rw [audible_append, audible_append, List.zip_append t.nodes.length_eq]
  constructor
  · rw [audible_append, audible_append]
    exact List.rel_append t.nodes t₁.nodes
  · intro R hR hgiven
    rw [hzip, List.forall_mem_append] at hR ⊢
    obtain ⟨hedges, hmid, hends⟩ := t.edges R hR.1 hgiven
    obtain ⟨hedges', houts, hends'⟩ := t₁.edges R hR.2 ⟨hgiven, hmid⟩
    exact ⟨⟨hedges, hedges'⟩, houts, hends.append hends'⟩

theorem Twins.mono {given' : (NodeId → NodeId → Prop) → Prop}
    (t : Twins g h given ns ns' outs outs' ends ends') (hgiven : ∀ R, given' R → given R) :
    Twins g h given' ns ns' outs outs' ends ends' :=
  ⟨t.nodes, fun R hR hR' => t.edges R hR (hgiven R hR')⟩

/-! ### Two graphs of one body -/

theorem Stmt.lastKind_not_silent {st : Stmt} {kind : NodeKind} (h : st.lastKind = some kind) :
    kind.isSilent = false := by
  cases st with
  | declare v init => cases init <;> cases h; rfl
  | branch | loop | ret =>
    cases h
    rfl
  | block | expr => cases h

theorem Program.Spells.not_silent {p : Program} {es : List ExprId} {ops : List Operation}
    (hops : p.Spells es ops) : ∀ o ∈ ops, o.kind.isSilent = false := by
  intro o ho
  obtain ⟨l, hl⟩ := Emits.exists_of_spells hops
  have := hl.isOperation o ho
  cases hkind : o.kind <;> simp_all [NodeKind.isOperation, NodeKind.isSilent]

variable {p : Program} {s : StmtId} {st : Stmt} {parent parent' : Option NodeId}
  {back back' : List OpenEdge}

theorem Headed.twins (hg : Headed g p parent s st back ins ns outs ends)
    (hh : Headed h p parent' s st back' ins' ns' outs' ends') (hns : ∀ n ∈ ns, n ∈ g.order)
    (hns' : ∀ n ∈ ns', n ∈ h.order) :
    Twins g h (fun R => Matches g h R ins ins' ∧ Matches g h R back back') ns ns' outs outs'
      ends ends' := by
  cases hkind : st.lastKind with
  | none =>
    obtain ⟨os, n, row, rfl, hn, hos, hrow⟩ := hg.exists_plain hkind
    obtain ⟨os', n', row', rfl, hn', hos', hrow'⟩ := hh.exists_plain hkind
    obtain rfl := hos.unique hos'
    rw [List.forall_mem_cons] at hns hns'
    have trow := hrow.twins hrow' hos.not_silent hns.2 hns'.2
    exact ((hn.twins hn' rfl).mono fun _ => And.left).append
      (trow.mono fun R ⟨⟨_, hback⟩, hhead⟩ => hhead.append hback)
  | some kind =>
    obtain ⟨os, n, k, row, mid, rfl, rfl, hn, hos, hrow, hk⟩ := hg.exists_last hkind
    obtain ⟨os', n', k', row', mid', rfl, rfl, hn', hos', hrow', hk'⟩ := hh.exists_last hkind
    obtain rfl := hos.unique hos'
    rw [List.forall_mem_cons, List.forall_mem_append] at hns hns'
    have trow := hrow.twins hrow' hos.not_silent hns.2.1 hns'.2.1
    have tbehind := trow.append
      ((hk.twins hk' (Stmt.lastKind_not_silent hkind)).mono fun _ => And.right)
    rw [List.append_nil, List.append_nil] at tbehind
    exact ((hn.twins hn' rfl).mono fun _ => And.left).append
      (tbehind.mono fun R ⟨⟨_, hback⟩, hhead⟩ => hhead.append hback)

/-- What a statement does last is the last of its nodes. -/
theorem Headed.exists_audible {kind : NodeKind} (hg : Headed g p parent s st back ins ns [(k, none)] ends)
    (hkind : st.lastKind = some kind) : k ∉ g.silent ∧ ∃ before, g.audible ns = before ++ [k] := by
  obtain ⟨_, n, k₁, row, _, rfl, hout, _, _, _, hk⟩ := hg.exists_last hkind
  obtain ⟨rfl, _⟩ : k = k₁ ∧ True := by simpa using hout
  have hkept := hk.not_mem_silent (Stmt.lastKind_not_silent hkind)
  refine ⟨hkept, g.audible (n :: row), ?_⟩
  rw [← List.cons_append, audible_append, audible_cons_of_not_mem hkept]
  rfl

/-- In two graphs, what a statement does last is paired. -/
theorem Headed.mem_zip {kind : NodeKind} (hg : Headed g p parent s st back ins ns [(k, none)] ends)
    (hh : Headed h p parent' s st back' ins' ns' [(k', none)] ends')
    (hkind : st.lastKind = some kind) (hlength : (g.audible ns).length = (h.audible ns').length) :
    (k, k') ∈ (g.audible ns).zip (h.audible ns') := by
  obtain ⟨_, before, hbefore⟩ := hg.exists_audible hkind
  obtain ⟨_, before', hbefore'⟩ := hh.exists_audible hkind
  rw [hbefore, hbefore', List.length_append, List.length_append] at hlength
  rw [hbefore, hbefore', List.zip_append (Nat.add_right_cancel hlength)]
  exact List.mem_append_right _ List.mem_cons_self

/-- Two stretches side by side, entered from one place. -/
theorem Twins.beside {given' : (NodeId → NodeId → Prop) → Prop}
    (t : Twins g h given ns ns' mid mid' ends ends')
    (t₁ : Twins g h given' ms ms' outs outs' ends₁ ends₁') :
    Twins g h (fun R => given R ∧ given' R) (ns ++ ms) (ns' ++ ms') (outs ++ mid) (outs' ++ mid')
      (ends ++ ends₁) (ends' ++ ends₁') := by
  constructor
  · rw [audible_append, audible_append]
    exact List.rel_append t.nodes t₁.nodes
  · intro R hR hgiven
    rw [audible_append, audible_append, List.zip_append t.nodes.length_eq,
      List.forall_mem_append] at hR ⊢
    obtain ⟨hedges, hmid, hends⟩ := t.edges R hR.1 hgiven.1
    obtain ⟨hedges', houts, hends'⟩ := t₁.edges R hR.2 hgiven.2
    exact ⟨⟨hedges, hedges'⟩, houts.append hmid, hends.append hends'⟩

/-- The same statements in two graphs. -/
theorem Laid.twins {part : Part} (hg : Laid g p parent part ins ns outs ends)
    (hh : Laid h p parent' part ins' ns' outs' ends') (hns : ∀ n ∈ ns, n ∈ g.order)
    (hns' : ∀ n ∈ ns', n ∈ h.order) :
    Twins g h (fun R => Matches g h R ins ins') ns ns' outs outs' ends ends' := by
  induction hg generalizing parent' ins' ns' outs' ends' with
  | block hs hn _ ih =>
    obtain ⟨n', rest', rfl, hn', hinner'⟩ := hh.of_block hs
    rw [List.forall_mem_cons] at hns hns'
    exact (hn.twins hn' rfl).append ((ih hinner' hns.2 hns'.2).mono fun _ => And.right)
  | straight hs hst hhead =>
    exact (hhead.twins (hh.of_straight hs hst) hns hns').mono fun R hins => ⟨hins, matches_nil⟩
  | ret hs hhead =>
    obtain ⟨outs', ends', rfl, rfl, hhead'⟩ := hh.of_ret hs
    have t := hhead.twins hhead' hns hns'
    refine ⟨t.nodes, fun R hR hins => ?_⟩
    obtain ⟨hedges, houts, hends⟩ := t.edges R hR ⟨hins, matches_nil⟩
    exact ⟨hedges, matches_nil, hends.append houts⟩
  | branch hs hhead _ _ iht ihe =>
    obtain ⟨n', k', row', ts', es', outs₁', outs₂', ends₀', ends₁', ends₂', rfl, rfl, rfl, hhead',
      hthen', helse'⟩ := hh.of_branch hs
    rw [← List.cons_append, List.forall_mem_append, List.forall_mem_append] at hns hns'
    have hk := (hhead.exists_audible rfl).1
    have hk' := (hhead'.exists_audible rfl).1
    have tbranches := (iht hthen' hns.2.1 hns'.2.1).beside (ihe helse' hns.2.2 hns'.2.2)
    exact ((hhead.twins hhead' hns.1 hns'.1).mono fun R hins => ⟨hins, matches_nil⟩).append
      (tbranches.mono fun R ⟨_, hlast⟩ =>
        ⟨hlast.relabel hk hk' (by simp), hlast.relabel hk hk' (by simp)⟩)
  | loop hs hhead _ ih =>
    obtain ⟨n', k', row', ts', back', ends₀', ends₁', rfl, rfl, rfl, hhead', hbody'⟩ := hh.of_loop hs
    rw [← List.cons_append, List.forall_mem_append] at hns hns'
    have hk := (hhead.exists_audible rfl).1
    have hk' := (hhead'.exists_audible rfl).1
    have thead := hhead.twins hhead' hns.1 hns'.1
    have tbody := ih hbody' hns.2 hns'.2
    have hpair := hhead.mem_zip hhead' rfl thead.nodes.length_eq
    constructor
    · rw [← List.cons_append, ← List.cons_append, audible_append, audible_append]
      exact List.rel_append thead.nodes tbody.nodes
    · -- What leads back comes from the body, which is entered behind the condition.
      intro R hR hins
      rw [← List.cons_append, ← List.cons_append, audible_append, audible_append,
        List.zip_append thead.nodes.length_eq, List.forall_mem_append] at hR ⊢
      have hRk : R _ k' := hR.1 _ hpair
      obtain ⟨hedges', hback, hends'⟩ := tbody.edges R hR.2 (matches_of_rel hk hk' hRk (by simp))
      obtain ⟨hedges, _, hends⟩ := thead.edges R hR.1 ⟨hins, hback⟩
      exact ⟨⟨hedges, hedges'⟩, matches_of_rel hk hk' hRk (by simp), hends.append hends'⟩
  | nil =>
    cases hh
    exact ⟨.nil, fun R _ hins => ⟨fun a ha => absurd ha List.not_mem_nil, hins, matches_nil⟩⟩
  | cons _ _ ih₁ ih₂ =>
    cases hh with
    | cons hfirst' hrest' =>
      rw [List.forall_mem_append] at hns hns'
      exact (ih₁ hfirst' hns.1 hns'.1).append
        ((ih₂ hrest' hns.2 hns'.2).mono fun _ => And.right)

/-- Whole graphs of one body are entered in the same way everywhere. -/
theorem Graph.LaidOut.twins {body : StmtId} (hg : g.LaidOut p body) (hh : h.LaidOut p body) :
    List.Forall₂ (Says g h) (g.audible g.order) (h.audible h.order) ∧
      ∀ a ∈ (g.audible g.order).zip (h.audible h.order),
        Matches g h (fun a b => (a, b) ∈ (g.audible g.order).zip (h.audible h.order))
          (g.arrivals a.1) (h.arrivals a.2) := by
  obtain ⟨ns, last, outs, ends, horder, hlaid, hlast⟩ := hg
  obtain ⟨ns', last', outs', ends', horder', hlaid', hlast'⟩ := hh
  have tbody := hlaid.twins hlaid' (fun n hn => horder ▸ List.mem_append_left _ hn)
    (fun n hn => horder' ▸ List.mem_append_left _ hn)
  have tlast := hlast.twins hlast' rfl
  have hzip : (g.audible g.order).zip (h.audible h.order) =
      (g.audible ns).zip (h.audible ns') ++ (g.audible [last]).zip (h.audible [last']) := by
    rw [horder, horder', audible_append, audible_append, List.zip_append tbody.nodes.length_eq]
  constructor
  · rw [horder, horder', audible_append, audible_append]
    exact List.rel_append tbody.nodes tlast.nodes
  · obtain ⟨hedges, houts, hends⟩ := tbody.edges
      (fun a b => (a, b) ∈ (g.audible g.order).zip (h.audible h.order))
      (fun a ha => by rw [hzip]; exact List.mem_append_left _ ha) matches_nil
    obtain ⟨hedges', _⟩ := tlast.edges
      (fun a b => (a, b) ∈ (g.audible g.order).zip (h.audible h.order))
      (fun a ha => by rw [hzip]; exact List.mem_append_right _ ha) (houts.append hends)
    intro a ha
    rw [hzip] at ha
    exact (List.mem_append.1 ha).elim (hedges a) (hedges' a)

theorem idxOf_eq_of_mem_zip (hns : ns.Nodup) (hns' : ns'.Nodup) (hmem : (n, n') ∈ ns.zip ns') :
    ns.idxOf n = ns'.idxOf n' := by
  obtain ⟨i, hi, heq⟩ := List.mem_iff_getElem.1 hmem
  rw [List.getElem_zip] at heq
  obtain ⟨rfl, rfl⟩ := Prod.mk.inj heq
  rw [hns.idxOf_getElem, hns'.idxOf_getElem]

theorem map_eq_map_of_forall₂ {α β γ : Type} {l : List α} {l' : List β} {f : α → γ} {f' : β → γ}
    (hl : List.Forall₂ (fun a b => f a = f' b) l l') : l.map f = l'.map f' := by
  rw [← List.forall₂_eq_eq_eq, List.forall₂_map_left_iff, List.forall₂_map_right_iff]
  exact hl

theorem Graph.ComesFrom.erasedArrivals_eq {os : List OpenEdge} (ho : g.ComesFrom (g.arrivals n) os) :
    g.erasedArrivals n = os :=
  Comes.foldl_bypass ho

/-- Two graphs of one body have the same erasure. -/
theorem Graph.LaidOut.erasure_eq {body : StmtId} (hg : g.LaidOut p body) (hh : h.LaidOut p body)
    (hgl : g.Linked) (hhl : h.Linked) : g.erasure = h.erasure := by
  obtain ⟨hnodes, hedges⟩ := hg.twins hh
  have hnodup : (g.audible g.order).Nodup := hgl.order_nodup.filter _
  have hnodup' : (h.audible h.order).Nodup := hhl.order_nodup.filter _
  refine Prod.ext (map_eq_map_of_forall₂ hnodes) ?_
  simp only [erasure, List.flatMap_def]
  congr 1
  refine map_eq_map_of_forall₂ (List.forall₂_iff_zip.2 ⟨hnodes.length_eq, fun {a b} hab => ?_⟩)
  obtain ⟨os, os', ho, ho', hsame⟩ := hedges (a, b) hab
  rw [ho.erasedArrivals_eq, ho'.erasedArrivals_eq]
  refine map_eq_map_of_forall₂ (hsame.imp fun x y ⟨hxy, hlabel⟩ => ?_)
  rw [idxOf_eq_of_mem_zip hnodup hnodup' hxy, idxOf_eq_of_mem_zip hnodup hnodup' hab, hlabel]

end Twins

end Dataflow
