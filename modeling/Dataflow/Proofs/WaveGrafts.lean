import Dataflow.Proofs.Replacements

/-!
# Waves around a spliced row

A rewrite splices a row of nodes that change nothing in place of one. Facts that a wave has come
through before are carried along the row like those that it has not, and one is still where the wave
leads to from the other (`Carried.driven`).

For each edge of the graph afterwards leaves a node that stands where some node stood (`stoodAt`), and
a value enters the row only where it begins.
-/

namespace Dataflow.Inlining

variable {g g' : Graph} {F F' G G' : FactMap Known} {E A : NodeId → Effect} {n m k : NodeId}
  {v : VarId} {y : ExprId} {a b : Option ExprId} {nodes : List Node} {U : Set EdgeId} {e : EdgeId}

/-- The node of the graph `g` that stood where the node `m` stands, which may be one of those that
    replaced `n`. -/
def stoodAt (g : Graph) (n m : NodeId) : NodeId := if m ∈ g.order then m else n

theorem Effect.after_keep (v : VarId) : Effect.keep.after v = id := rfl

section Row

variable {i : Nat} (hs : g.Spliced n nodes g') (hkeep : ∀ m ∈ g.upcoming nodes.length, A m = .keep)
include hs

theorem joins_next (hi : i + 1 < nodes.length) :
    ∃ m, g'.Joins ⟨g.edges.size + i⟩ ⟨g.nodes.size + i⟩ m := by
  refine (hs.linked.mem_outEdges _ _).1 ?_
  rw [hs.outEdges_prev i hi]
  exact List.mem_singleton_self _

include hkeep

/-- What upholds a value along the row enters it where it begins. -/
theorem Upheld.enteredFrom (hU : Upheld g' A v y U) (hi : i < nodes.length)
    (h : EnteredFrom g' U ⟨g.nodes.size + i⟩) : EnteredFrom g U n := by
  induction i with
  | zero =>
    rw [EnteredFrom, Nat.add_zero, hs.inEdges_first] at h
    exact h
  | succ i ih =>
    obtain ⟨_, hall⟩ := h
    rw [← Nat.add_assoc, hs.inEdges_next i hi] at hall
    obtain ⟨m, hm⟩ := joins_next hs hi
    have hmem : (⟨g.nodes.size + i⟩ : NodeId) ∈ g.upcoming nodes.length :=
      Graph.mem_upcoming.2 ⟨by simp, by simp; omega⟩
    rcases hU _ _ m hm (hall _ (List.mem_singleton_self _)) with hconst | ⟨_, hfrom⟩
    · rw [hkeep _ hmem, Effect.after_keep] at hconst
      cases congrFun hconst none
    · exact ih (by omega) hfrom

/-- What cannot be left is entered all along the row if it is entered where it begins. -/
theorem Swept.enteredFrom (hU : Swept g' A k v U) (hi : i < nodes.length) (h : EnteredFrom g U n) :
    EnteredFrom g' U ⟨g.nodes.size + i⟩ := by
  induction i with
  | zero =>
    rw [EnteredFrom, Nat.add_zero, hs.inEdges_first]
    exact h
  | succ i ih =>
    obtain ⟨m, hm⟩ := joins_next hs hi
    have hmem : (⟨g.nodes.size + i⟩ : NodeId) ∈ g.upcoming nodes.length :=
      Graph.mem_upcoming.2 ⟨by simp, by simp; omega⟩
    have hedge : (⟨g.edges.size + i⟩ : EdgeId) ∈ U := by
      refine hU _ _ m hm (.inr ⟨?_, ih (by omega)⟩)
      rw [hkeep _ hmem, Effect.after_keep]
    rw [EnteredFrom, ← Nat.add_assoc, hs.inEdges_next i hi]
    exact ⟨List.cons_ne_nil _ _, List.forall_mem_singleton.2 hedge⟩

end Row

section Splice

variable (hg : g.Linked) (hs : g.Spliced n nodes g')
include hg hs

/-- A node is one of the row or one that was there, and stands where some node stood. -/
theorem stoodAt_cases (hm : m ∈ g'.order) : stoodAt g n m ∈ g.order ∧
    ((∃ i < nodes.length, m = ⟨g.nodes.size + i⟩) ∧ m ∈ g.upcoming nodes.length ∧ stoodAt g n m = n ∨
      m ∈ g.order ∧ m ≠ n ∧ stoodAt g n m = m) := by
  rw [hs.order] at hm
  rcases mem_flatMap_inPlaceOf.1 hm with ⟨hn, hnew⟩ | ⟨hold, hmn⟩
  · obtain ⟨i, hi, rfl⟩ := List.mem_map.1 hnew
    rw [stoodAt, if_neg fun hold => absurd (hg.allocated _ hold) (by simp)]
    exact ⟨hn, .inl ⟨⟨i, List.mem_range.1 hi, rfl⟩, hnew, rfl⟩⟩
  · rw [stoodAt, if_pos hold]
    exact ⟨hold, .inr ⟨hold, hmn, rfl⟩⟩

/-- The edges that there were are there, and leave a node that stands where they left one. -/
theorem exists_joins_after (he : g.Joins e m k) : ∃ l l', g'.Joins e l l' ∧ stoodAt g n l = m := by
  have hm := hg.source_mem he
  have hout := (hg.mem_outEdges m e).2 ⟨k, he⟩
  by_cases hmn : m = n
  · rw [hmn, ← hs.outEdges_last] at hout
    obtain ⟨l', hl'⟩ := (hs.linked.mem_outEdges _ _).1 hout
    refine ⟨_, l', hl', (if_neg fun hmem => ?_).trans hmn.symm⟩
    exact absurd (hg.allocated _ hmem) (by simp)
  · rw [← hs.outEdges m hm hmn] at hout
    obtain ⟨l', hl'⟩ := (hs.linked.mem_outEdges _ _).1 hout
    exact ⟨m, l', hl', if_pos hm⟩

omit hs in
theorem keep_of_upcoming : ∀ m ∈ g.upcoming nodes.length, effectsIn g A m = .keep := fun m hm =>
  if_neg fun hmem => absurd (hg.allocated m hmem) (Nat.not_lt.2 (Graph.mem_upcoming.1 hm).1)

variable (hkeep : A n = .keep)
include hkeep

omit hg hs in
theorem effectsIn_eq (m : NodeId) : effectsIn g A m = A (stoodAt g n m) := by
  rw [effectsIn, stoodAt]
  split
  · rfl
  · exact hkeep.symm

/-- An edge holds what left the node that stood where the one that it leaves stands. -/
theorem Carried.get_eq (h : Carried g G A n (g.upcoming nodes.length) g' G') (he : g'.Joins e m k) :
    G'.get e = some (leaving g G A (stoodAt g n m)) := by
  rw [h.settled.get_of_joins hs.linked.toWired he, leaving, leaving, effectsIn_eq hkeep]
  rcases (stoodAt_cases hg hs (hs.linked.source_mem he)).2 with ⟨_, hnew, hstood⟩ | ⟨hold, hmn, hstood⟩
  · rw [hstood, h.new m hnew]
  · rw [hstood, h.old m hold hmn]

/-- What upholds a value upheld it before the rewrite. -/
theorem Upheld.before (hU : Upheld g' (effectsIn g A) v y U) (he : g'.Joins e m k) (heU : e ∈ U) :
    (A (stoodAt g n m)).after v = (fun _ => some y) ∨
      (A (stoodAt g n m)).after v = id ∧ EnteredFrom g U (stoodAt g n m) := by
  rw [← effectsIn_eq hkeep]
  refine (hU e m k he heU).imp_right fun ⟨hid, hfrom⟩ => ⟨hid, ?_⟩
  rcases (stoodAt_cases hg hs (hs.linked.source_mem he)).2 with
    ⟨⟨i, hi, rfl⟩, _, hstood⟩ | ⟨hold, hmn, hstood⟩
  · rw [hstood]
    exact hU.enteredFrom hs (keep_of_upcoming hg) hi hfrom
  · rw [hstood]
    rwa [EnteredFrom, hs.inEdges m hold hmn] at hfrom

/-- What cannot be left could not be left before the rewrite. -/
theorem Swept.before (hU : Swept g' (effectsIn g A) k v U) {l : NodeId} (he : g'.Joins e m l)
    (hkn : k ≠ n) (h : stoodAt g n m = k ∨
      (A (stoodAt g n m)).after v = id ∧ EnteredFrom g U (stoodAt g n m)) : e ∈ U := by
  refine hU e m l he ?_
  rw [effectsIn_eq hkeep]
  rcases (stoodAt_cases hg hs (hs.linked.source_mem he)).2 with
    ⟨⟨i, hi, rfl⟩, _, hstood⟩ | ⟨hold, hmn, hstood⟩
  · rw [hstood] at h ⊢
    refine h.imp (fun hnk => absurd hnk.symm hkn) fun ⟨hid, hfrom⟩ => ⟨hid, ?_⟩
    exact hU.enteredFrom hs (keep_of_upcoming hg) hi hfrom
  · rw [hstood] at h ⊢
    rwa [EnteredFrom, hs.inEdges m hold hmn]

end Splice

/-- What the facts `G` are to the facts `F`, they are after a rewrite of a node that changes nothing. -/
theorem Carried.driven (hg : g.Linked) (hs : g.Spliced n nodes g') (hF : Settled g F E)
    (hE : Rises g E A k v a b) (hkeep : E n = .keep)
    (hF' : Carried g F E n (g.upcoming nodes.length) g' F')
    (hG' : Carried g G A n (g.upcoming nodes.length) g' G') (h : Driven g F A k v b G) :
    Driven g' F' (effectsIn g A) k v b G' := by
  have hkn : k ≠ n := by
    rintro rfl
    cases hkeep.symm.trans hE.old
  have hkeep' : A n = .keep := (hE.same n hkn.symm).trans hkeep
  have hvalue : ∀ e m l, g'.Joins e m l → valueOn F' v e =
      (E (stoodAt g n m)).after v ((F.joinIncoming g (stoodAt g n m)).value v) := by
    intro e m l he
    rw [valueOn, hF'.get_eq hg hs hkeep he, Option.bind_some, leaving, Effect.value_apply]
  have hvalue' : ∀ e m l, g'.Joins e m l → valueOn G' v e =
      (A (stoodAt g n m)).after v ((G.joinIncoming g (stoodAt g n m)).value v) := by
    intro e m l he
    rw [valueOn, hG'.get_eq hg hs hkeep' he, Option.bind_some, leaving, Effect.value_apply]
  constructor
  case toDiffers =>
    refine ⟨hG'.settled.initial, fun e m l he u => ?_, fun e m l he u hu => ?_⟩
    · rw [hF'.get_eq hg hs hkeep he, hG'.get_eq hg hs hkeep' he, Option.map_some, Option.map_some,
        h.contains_leaving hF hg.toWired hE]
    · rw [valueOn, valueOn, hF'.get_eq hg hs hkeep he, hG'.get_eq hg hs hkeep' he, Option.bind_some,
        Option.bind_some, h.value_leaving hF hg.toWired hE _ hu]
  case remains =>
    intro e m l he y hy hb
    rw [hvalue e m l he]
    exact h.remains_due hF hg.toWired hE (hvalue' e m l he ▸ hy) hb
  case upheld =>
    intro y U hb hU hold e m l he heU
    rw [hvalue' e m l he]
    refine h.upheld_due hF hg.toWired hb ?upheld ?old (hU.before hg hs hkeep' he heU)
    case upheld =>
      intro d i j hd hdU
      obtain ⟨i', j', hd', rfl⟩ := exists_joins_after hg hs hd
      exact hU.before hg hs hkeep' hd' hdU
    case old =>
      intro d i j hd hdU
      obtain ⟨i', j', hd', rfl⟩ := exists_joins_after hg hs hd
      rw [hF.valueOn_eq hg.toWired hd, ← hvalue d i' j' hd']
      exact hold d i' j' hd' hdU
  case swept =>
    intro hb U hU e m l he hval
    have hbefore : Swept g A k v U := by
      intro d i j hd hfrom
      obtain ⟨i', j', hd', rfl⟩ := exists_joins_after hg hs hd
      exact hU.before hg hs hkeep' hd' hkn hfrom
    have hmem := (stoodAt_cases hg hs (hs.linked.source_mem he)).1
    exact hU.before hg hs hkeep' he hkn
      (h.swept_due hF hg.toWired hE hb hbefore hmem (hvalue' e m l he ▸ hval))

end Dataflow.Inlining
