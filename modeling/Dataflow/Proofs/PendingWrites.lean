import Dataflow.Proofs.Replacements

/-!
# Writes still to come

A rewrite may change what a write ahead of the sweep puts. Until the sweep comes to the write, the
facts are settled for what it put before. This happens once at most: the rewrites on the way to the
write leave it as it is then (`Firm`). For either nothing in between is rewritten; or only the
variable that is written is known there, and the value that is written does not name it any more; or
this variable is not known there, and the value names it now and will do so.

* `Clear`: the way from the sweep to a write whose effect changed;
* `Proposal.clear_of_effects`, `Proposal.clear_of_clear`: the way after a rewrite.
-/

namespace Dataflow.Inlining

variable {g₀ : Graph} {body : StmtId} {s : Sweep Known} {p q : Program} {g g' : Graph}
  {F F' G G' : FactMap Known} {E A : NodeId → Effect} {n m k : NodeId} {row : List NodeId}
  {ahead after : List NodeId} {parent : Option NodeId} {v w : VarId} {r x c y : ExprId}
  {ls : List StmtId} {le la lc l : List ExprId} {oc : List Operation} {a b : Option ExprId}

/-- Rewrites in the row before the write `k` do not change what it puts. -/
inductive Firm (p : Program) (g : Graph) (F : FactMap Known) (row : List NodeId) (k : NodeId) : Prop
  | quiet : (∀ m ∈ row, Quiet p g F m) → Firm p g F row k
  | avoids {node : Node} {w : VarId} {y : ExprId} {l : List ExprId} :
    g.nodes.get? k = some node → node.kind = .write w y → Spans p [y] l → p.Avoids l w →
    (∀ m ∈ row, ∀ u z, (F.joinIncoming g m).value u = some z → u = w) → Firm p g F row k
  | names {node : Node} {w : VarId} {y : ExprId} {l : List ExprId} :
    g.nodes.get? k = some node → node.kind = .write w y → Spans p [y] l → ¬p.Avoids l w →
    (∀ m ∈ row, (F.joinIncoming g m).value w = none) → Firm p g F row k

/-- Nothing in the row before the write `k`, which put the value `a` of `w`, changes the facts, sees
    this value or changes what the write puts now. -/
structure Clear (p : Program) (g : Graph) (F : FactMap Known) (E : NodeId → Effect)
    (row : List NodeId) (k : NodeId) (w : VarId) (a : Option ExprId) : Prop where
  keep : ∀ m ∈ row, E m = .keep
  unseen : ∀ m ∈ row, ∀ x, (F.joinIncoming g m).value w = some x → a ≠ some x
  firm : Firm p g F row k

/-! ### Past a node -/

theorem Firm.tail (h : Firm p g F (n :: row) k) : Firm p g F row k := by
  cases h with
  | quiet hquiet => exact .quiet fun m hm => hquiet m (List.mem_cons_of_mem _ hm)
  | avoids hnode hkind hspans havoids honly =>
    exact .avoids hnode hkind hspans havoids fun m hm => honly m (List.mem_cons_of_mem _ hm)
  | names hnode hkind hspans hnames hunknown =>
    exact .names hnode hkind hspans hnames fun m hm => hunknown m (List.mem_cons_of_mem _ hm)

theorem Clear.tail (h : Clear p g F E (n :: row) k w a) : Clear p g F E row k w a :=
  ⟨fun m hm => h.keep m (List.mem_cons_of_mem _ hm),
    fun m hm => h.unseen m (List.mem_cons_of_mem _ hm), h.firm.tail⟩

/-- Two nodes ahead, neither of which stands before the other one, are the same. -/
theorem eq_of_append_cons {row' after' : List NodeId} (h : row ++ k :: after = row' ++ m :: after')
    (hk : k ∉ row') (hm : m ∉ row) : k = m := by
  induction row generalizing row' with
  | nil =>
    cases row' with
    | nil => exact (List.cons.inj h).1
    | cons j row' =>
      obtain ⟨rfl, _⟩ := List.cons.inj h
      exact absurd List.mem_cons_self hk
  | cons i row ih =>
    cases row' with
    | nil =>
      obtain ⟨rfl, _⟩ := List.cons.inj h
      exact absurd List.mem_cons_self hm
    | cons j row' =>
      obtain ⟨rfl, h'⟩ := List.cons.inj h
      exact ih h' (fun hmem => hk (List.mem_cons_of_mem _ hmem))
        fun hmem => hm (List.mem_cons_of_mem _ hmem)

/-- No two writes are still to come. -/
theorem Awaits.unique (h : Awaits p g F E ahead m) (h' : Awaits p g F E ahead k) : m = k := by
  obtain ⟨row, _, _, _, _, _, hahead, _, _, _, hput, hrow⟩ := h
  obtain ⟨row', _, _, _, _, _, hahead', _, _, _, hput', hrow'⟩ := h'
  refine eq_of_append_cons (hahead.symm.trans hahead') (fun hm => ?_) fun hk => ?_
  · cases hput.symm.trans (hrow' m hm).1
  · cases hput'.symm.trans (hrow k hk).1

/-- A write whose effect changed is still to come, if the way to it is clear. -/
theorem Clear.awaits (h : Clear p g F E row k w a) (hE : Turns p g E A k w a b) (hp : p.InRange)
    (hl : p.Lists ls le) (hbody : body ∈ ls) (hlaid : g.LaidOut p body) :
    Awaits p g F E (row ++ k :: after) k := by
  obtain ⟨hw, node, y, _, hnode, hkind, _⟩ :=
    (hE.new ▸ hE.effects k hE.mem).of_put hp hl hbody hlaid hE.mem
  exact ⟨row, after, node, w, y, a, rfl, hnode, hkind, hw, hE.old,
    fun m hm => ⟨h.keep m hm, h.unseen m hm⟩⟩

/-! ### The write after a rewrite -/

namespace Proposal

variable (hs : Sound g₀ body s)
  (hin : Inlined s.program q s.graph g' n parent v r c x ls le la lc oc)
  (h : Proposal g₀ body s ahead n parent v r x E ls le la)
  (hk : k ∈ s.graph.order) (hkn : k ≠ n)
include hs hin h hk hkn

/-- What a write of a variable of the method puts after a rewrite. -/
theorem exists_write_after {node : Node} (hnode : s.graph.nodes.get? k = some node)
    (hkind : node.kind = .write w y) (hw : s.program.isOfMethod w = .ok true)
    (hspans : Spans s.program [y] l) :
    ∃ node' b, g'.nodes.get? k = some node' ∧ node'.kind = .write w (redirect r c y) ∧
      Spans q [redirect r c y] (l.flatMap (inPlaceOf r lc)) ∧ (∀ e ∈ l, e ∈ le) ∧
      HasEffect .declared q g' k (.put w b) ∧
      Remembers q w (redirect r c y) (l.flatMap (inPlaceOf r lc)) b := by
  obtain ⟨l', _, _, hspans', hsub, _⟩ :=
    hasEffect_write hs.tree.inRange h.lists h.body_mem hs.laidOut hk hnode hkind
  cases hspans.unique hspans'
  have hspans'' := hin.edited.spans hspans fun e he => hsub.subset he
  have hnode' : g'.nodes.get? k = some (node.retarget r c) := by
    rw [(hin.spliced.rewritten hs.linked).node k hk hkn, hnode]
    rfl
  have hkind' : (node.retarget r c).kind = .write w (redirect r c y) := by
    rw [Node.retarget, hkind]
    rfl
  have hk' : k ∈ g'.order := by
    rw [(hin.spliced.rewritten hs.linked).order]
    exact mem_flatMap_inPlaceOf.2 (.inr ⟨hk, hkn⟩)
  obtain ⟨l', tracked, b, hspans', _, ht, hb, heffect⟩ :=
    hasEffect_write (hin.edited.inRange hs.tree.inRange) (hin.edited.lists h.lists) h.body_mem
      (hin.laidOut hs.linked h.lists hs.laidOut h.body_mem) hk' hnode' hkind'
  cases hspans''.unique hspans'
  rw [hin.isOfMethod_eq, hw] at ht
  cases ht
  exact ⟨_, b, hnode', hkind', hspans'', fun e he => hsub.subset he, ⟨_, hnode', heffect⟩, hb⟩

/-- Rewrites in the row before a write whose effect was changed by a rewrite do not change it. -/
theorem exists_firm (hF : Carried s.graph s.facts E n (inserted s.graph parent c oc) g' F')
    (heffect : HasEffect .declared s.program s.graph k (E k))
    (hnot : ¬HasEffect .declared q g' k (E k)) :
    ∃ row after, ahead = row ++ k :: after ∧ Firm q g' F' (inserted s.graph parent c oc ++ row) k := by
  obtain hsame | ⟨node, w, y, l, hnode, hkind, hw, hspans, hinert, hr⟩ :=
    hin.hasEffect hs.tree.inRange h.lists h.body_mem hs.linked hs.laidOut hk hkn heffect
  · exact absurd hsame hnot
  obtain ⟨row, after, _, os, os', _, rfl, hrow, hem, hspelled⟩ := h.exists_row hs.linked hs.laidOut
    hs.tree.inRange hin hk hnode hkind hspans hinert hr
  refine ⟨row, after, rfl, ?_⟩
  have hmem : ∀ m ∈ row, m ∈ s.graph.order ∧ m ≠ n := fun m hm =>
    ⟨h.mem_of_ahead (List.mem_append_left _ hm),
      fun hmn => (h.not_mem hs.linked).2 (hmn ▸ List.mem_append_left _ hm)⟩
  -- What arrives at the read arrives everywhere on the way to the write.
  have hfacts : ∀ m ∈ inserted s.graph parent c oc ++ row,
      F'.joinIncoming g' m = s.facts.joinIncoming s.graph n := by
    intro m hm
    rcases List.mem_append.1 hm with hm | hm
    · exact hF.new m hm
    · rw [hF.old m (hmem m hm).1 (hmem m hm).2, (hrow m hm).2]
  obtain ⟨node', b, hnode', hkind', hspans', hle, heffect', hb⟩ :=
    h.exists_write_after hs hin hk hkn hnode hkind hw hspans
  obtain ⟨a, ha, hold⟩ : ∃ a, Remembers s.program w y l a ∧ E k = .put w a := by
    obtain ⟨l', tracked, a, hspans'', _, ht, ha, hold⟩ :=
      hasEffect_write hs.tree.inRange h.lists h.body_mem hs.laidOut hk hnode hkind
    cases hspans.unique hspans''
    rw [hw] at ht
    cases ht
    exact ⟨a, ha, heffect.unique ⟨node, hnode, hold⟩⟩
  have hab : a ≠ b := by
    rintro rfl
    exact hnot (hold ▸ heffect')
  by_cases hy : y = r
  · -- The value was the read and nothing else, so there is no other read on the way.
    subst hy
    obtain ⟨_, hos⟩ := hem.unique (Emits.cons hin.var rfl .nil .nil)
    obtain rfl : os' = [] := by
      cases os with
      | nil => exact (List.cons.inj hos).2.symm
      | cons o os => simp at hos
    refine .quiet fun m hm => ?_
    rcases List.mem_append.1 hm with hm | hm
    · exact h.quiet_after hs hin hF hm
    · obtain ⟨kind, e, hm', hkinds⟩ := hspelled.exists_of_mem hm
      have hm'' := (hin.spliced.rewritten hs.linked).node m (hmem m hm).1 (hmem m hm).2
      rw [hm'] at hm''
      rcases hkinds with hop | ⟨call, rfl⟩ | rfl
      · cases hop
      · exact ⟨⟨_, hm'', rfl⟩, fun node u hnode hkind => by rw [hm''] at hnode; cases hnode; cases hkind⟩
      · exact ⟨⟨_, hm'', rfl⟩, fun node u hnode hkind => by rw [hm''] at hnode; cases hnode; cases hkind⟩
  · have hredirect : redirect r c y = y := if_neg hy
    rw [hredirect] at hkind' hspans' hb
    have hinert' := (hin.edited.inert_iff hin.inert hle).2 hinert
    rcases ha with ⟨rfl, _, havoids⟩ | ⟨rfl, hnames⟩
    · -- The variable was not named, and now it is. It is not the one that was read.
      rcases hb with ⟨rfl, _⟩ | ⟨rfl, hnames⟩
      · exact absurd rfl hab
      · refine .names hnode' hkind' hspans' (fun havoids' => hnames ⟨hinert', havoids'⟩) fun m hm => ?_
        rw [hfacts m hm, Option.eq_none_iff_forall_ne_some]
        intro z hz
        obtain ⟨rfl, _⟩ := h.only w z hz
        exact havoids r hr _ hin.var rfl
    · -- The variable was named, and now it is not. It is the one that was read.
      rcases hb with ⟨rfl, _, havoids⟩ | ⟨rfl, _⟩
      · refine .avoids hnode' hkind' hspans' havoids fun m hm u z hz => ?_
        rw [hfacts m hm] at hz
        obtain ⟨rfl, _⟩ := h.only u z hz
        by_contra hne
        refine hnames ⟨hinert, fun e he z hz hnamed => ?_⟩
        refine hin.edited.not_avoids hle he (fun her => hne ?_) hz hnamed havoids
        rw [her, hin.var] at hz
        cases hz
        exact Option.some.inj hnamed
      · exact absurd rfl hab

/-- They do not change it either while the sweep is on its way to the write. -/
theorem firm_of_firm (hF : Carried s.graph s.facts E n (inserted s.graph parent c oc) g' F')
    (hrow : ∀ m ∈ row, m ∈ s.graph.order ∧ m ≠ n)
    (hfirm : Firm s.program s.graph s.facts (n :: row) k)
    (heffect : HasEffect .declared s.program s.graph k (.put w b)) :
    Firm q g' F' (inserted s.graph parent c oc ++ row) k ∧ HasEffect .declared q g' k (.put w b) := by
  -- What arrives on the way to the write arrived there before.
  have hfacts : ∀ m ∈ inserted s.graph parent c oc ++ row, ∃ m' ∈ n :: row,
      F'.joinIncoming g' m = s.facts.joinIncoming s.graph m' := by
    intro m hm
    rcases List.mem_append.1 hm with hm | hm
    · exact ⟨n, List.mem_cons_self, hF.new m hm⟩
    · exact ⟨m, List.mem_cons_of_mem _ hm, hF.old m (hrow m hm).1 (hrow m hm).2⟩
  obtain ⟨hw, node, y, l, hnode, hkind, hspans, _, hb⟩ :=
    heffect.of_put hs.tree.inRange h.lists h.body_mem hs.laidOut hk
  obtain ⟨node', b', hnode', hkind', hspans', hle, heffect', hb'⟩ :=
    h.exists_write_after hs hin hk hkn hnode hkind hw hspans
  cases hfirm with
  | quiet hquiet =>
    have hunknown := (hquiet n List.mem_cons_self).2 _ v h.node rfl
    cases hunknown.symm.trans h.known
  | avoids hnode₁ hkind₁ hspans₁ havoids honly =>
    cases hnode.symm.trans hnode₁
    cases hkind.symm.trans hkind₁
    cases hspans.unique hspans₁
    obtain rfl := honly n List.mem_cons_self v x h.known
    -- What is written does not name the variable that is read.
    have hr : r ∉ l := fun hr => havoids r hr _ hin.var rfl
    rw [flatMap_inPlaceOf_of_not_mem hr] at hspans' hb'
    refine ⟨.avoids hnode' hkind' hspans' ((hin.edited.avoids_iff hle _).2 havoids) ?_, ?_⟩
    · intro m hm u z hz
      obtain ⟨m', hm', hjoin⟩ := hfacts m hm
      exact honly m' hm' u z (hjoin ▸ hz)
    · obtain hsame | ⟨node₂, _, _, l₂, hnode₂, hkind₂, _, hspans₂, _, hr₂⟩ :=
        hin.hasEffect hs.tree.inRange h.lists h.body_mem hs.linked hs.laidOut hk hkn heffect
      · exact hsame
      · cases hnode.symm.trans hnode₂
        cases hkind.symm.trans hkind₂
        cases hspans.unique hspans₂
        exact absurd hr₂ hr
  | names hnode₁ hkind₁ hspans₁ hnames hunknown =>
    cases hnode.symm.trans hnode₁
    cases hkind.symm.trans hkind₁
    cases hspans.unique hspans₁
    -- The variable that is written is named elsewhere than in the read.
    have hnames' : ¬q.Avoids (l.flatMap (inPlaceOf r lc)) w := by
      intro havoids
      refine hnames fun e he z hz hnamed => ?_
      refine hin.edited.not_avoids hle he (fun her => ?_) hz hnamed havoids
      rw [her, hin.var] at hz
      cases hz
      cases Option.some.inj hnamed
      cases (hunknown n List.mem_cons_self).symm.trans h.known
    obtain rfl : b = none := by
      rcases hb with ⟨_, _, havoids⟩ | ⟨rfl, _⟩
      · exact absurd havoids hnames
      · rfl
    obtain rfl : b' = none := by
      rcases hb' with ⟨_, _, havoids⟩ | ⟨rfl, _⟩
      · exact absurd havoids hnames'
      · rfl
    refine ⟨.names hnode' hkind' hspans' hnames' fun m hm => ?_, heffect'⟩
    obtain ⟨m', hm', hjoin⟩ := hfacts m hm
    rw [hjoin]
    exact hunknown m' hm'

omit hk hkn

theorem nodup_after : (inserted s.graph parent c oc ++ ahead).Nodup := by
  rw [← h.drop_after hs hin]
  exact hin.spliced.linked.order_nodup.sublist (List.drop_sublist _ _)

/-- Where all nodes had the effects that the facts are settled for, they have them after a rewrite,
    but for one write at most. -/
theorem clear_of_effects (hF : Carried s.graph s.facts E n (inserted s.graph parent c oc) g' F')
    (hE : ∀ m ∈ s.graph.order, HasEffect .declared s.program s.graph m (E m)) :
    (∀ m ∈ g'.order, HasEffect .declared q g' m (effectsIn s.graph E m)) ∨
      ∃ A k w a b row after, inserted s.graph parent c oc ++ ahead = row ++ k :: after ∧
        Turns q g' (effectsIn s.graph E) A k w a b ∧
        Clear q g' F' (effectsIn s.graph E) row k w a := by
  by_cases hall : ∀ m ∈ g'.order, HasEffect .declared q g' m (effectsIn s.graph E m)
  · exact .inl hall
  right
  simp only [not_forall] at hall
  obtain ⟨k, hk, hnot⟩ := hall
  have hrange := hin.edited.inRange hs.tree.inRange
  have hlists := hin.edited.lists h.lists
  have hlaid := hin.laidOut hs.linked h.lists hs.laidOut h.body_mem
  -- The write is not one of the inserted nodes.
  obtain ⟨hold, hkn⟩ : k ∈ s.graph.order ∧ k ≠ n := by
    refine (mem_after hs hin hk).resolve_left fun hnew => hnot ?_
    rw [effectsIn, if_neg (not_mem_order_of_mem_inserted hs.linked hnew)]
    exact keep_of_inserted hs hin hnew
  rw [effectsIn, if_pos hold] at hnot
  obtain ⟨row, after, rfl, hfirm⟩ := h.exists_firm hs hin hold hkn hF (hE k hold) hnot
  have hawaits : ∀ m ∈ g'.order, HasEffect .declared q g' m (effectsIn s.graph E m) ∨
      Awaits q g' F' (effectsIn s.graph E) (inserted s.graph parent c oc ++ (row ++ k :: after)) m :=
    fun m hm => h.effect_after hs hin hF hm
  have haw := (hawaits k hk).resolve_left (by rwa [effectsIn, if_pos hold])
  have hothers : ∀ m ∈ g'.order, m ≠ k → HasEffect .declared q g' m (effectsIn s.graph E m) :=
    fun m hm hmk => (hawaits m hm).resolve_right fun haw' => hmk (haw'.unique haw)
  obtain ⟨w, a, b, hput, hnew⟩ := haw.exists_hasEffect hrange hlists h.body_mem hlaid hk
  have hab : a ≠ b := by
    rintro rfl
    rw [effectsIn, if_pos hold] at hput
    exact hnot (hput ▸ hnew)
  obtain ⟨A, hA⟩ := exists_turns hrange hlists h.body_mem hlaid hk hput hnew hab hothers
  refine ⟨A, k, w, a, b, inserted s.graph parent c oc ++ row, after, (List.append_assoc ..).symm, hA,
    ?_⟩
  -- The way to the write is what comes next.
  obtain ⟨row', after', _, _, _, _, hrow', _, _, _, hput', hkeep⟩ := haw
  obtain rfl : row' = inserted s.graph parent c oc ++ row := by
    have hnodup := h.nodup_after hs hin
    rw [← List.append_assoc, List.nodup_append, List.nodup_cons] at hnodup
    rw [← List.append_assoc] at hrow'
    exact ((List.append_cons_inj_of_notMem (fun hmem => hnodup.2.2 k hmem k List.mem_cons_self rfl)
      hnodup.2.1.1).1 hrow').1.symm
  cases hput.symm.trans hput'
  exact ⟨fun m hm => (hkeep m hm).1, fun m hm => (hkeep m hm).2, hfirm⟩

/-- Where the way to a write whose effect changed is clear, it is clear after a rewrite. -/
theorem clear_of_clear (hF : Carried s.graph s.facts E n (inserted s.graph parent c oc) g' F')
    (hE : Turns s.program s.graph E A k w a b) (hahead : n :: ahead = row ++ k :: after)
    (hclear : Clear s.program s.graph s.facts E row k w a) :
    ∃ row', inserted s.graph parent c oc ++ ahead = row' ++ k :: after ∧
      Turns q g' (effectsIn s.graph E) (effectsIn s.graph A) k w a b ∧
      Clear q g' F' (effectsIn s.graph E) row' k w a := by
  have hkn : k ≠ n := by
    rintro rfl
    cases h.keep.symm.trans hE.old
  have haw : Awaits s.program s.graph s.facts E (n :: ahead) k := by
    rw [hahead]
    exact hclear.awaits hE hs.tree.inRange h.lists h.body_mem hs.laidOut
  have haw' := h.awaits_after hs hin hF hkn haw
  obtain ⟨row, rfl, rfl⟩ : ∃ row', row = n :: row' ∧ ahead = row' ++ k :: after := by
    cases row with
    | nil => exact absurd (List.cons.inj hahead).1.symm hkn
    | cons m row' =>
      obtain ⟨rfl, htail⟩ := List.cons.inj hahead
      exact ⟨row', rfl, htail⟩
  have hrow : ∀ m ∈ row, m ∈ s.graph.order ∧ m ≠ n := fun m hm =>
    ⟨h.mem_of_ahead (List.mem_append_left _ hm),
      fun hmn => (h.not_mem hs.linked).2 (hmn ▸ List.mem_append_left _ hm)⟩
  obtain ⟨hfirm, heffect⟩ := h.firm_of_firm hs hin hE.mem hkn hF hrow hclear.firm
    (hE.new ▸ hE.effects k hE.mem)
  have hk' : k ∈ g'.order := by
    rw [h.order_after hs hin]
    simp
  refine ⟨inserted s.graph parent c oc ++ row, (List.append_assoc ..).symm, ?turns, ?clear⟩
  case turns =>
    constructor
    case toRises =>
      refine ⟨fun m hmk => ?_, ?_, ?_, fun hb m hm hmk => ?_⟩
      · rw [effectsIn, effectsIn, hE.same m hmk]
      · rw [effectsIn, if_pos hE.mem, hE.old]
      · rw [effectsIn, if_pos hE.mem, hE.new]
      · rw [effectsIn]
        split
        · next hmem => exact hE.unique hb m hmem hmk
        · intro hput
          cases hput
    case mem => exact hk'
    case ne => exact hE.ne
    case effects =>
      intro m hm
      by_cases hmk : m = k
      · rw [hmk, effectsIn, if_pos hE.mem, hE.new]
        exact heffect
      · rw [effectsIn, hE.same m hmk, ← effectsIn]
        exact (h.effect_after hs hin hF hm).resolve_right fun haw => hmk (haw.unique haw')
  case clear =>
    refine ⟨fun m hm => ?_, fun m hm => ?_, hfirm⟩
    all_goals rcases List.mem_append.1 hm with hm | hm
    · rw [effectsIn, if_neg (not_mem_order_of_mem_inserted hs.linked hm)]
    · rw [effectsIn, if_pos (hrow m hm).1]
      exact hclear.keep m (List.mem_cons_of_mem _ hm)
    · rw [hF.new m hm]
      exact hclear.unseen n List.mem_cons_self
    · rw [hF.old m (hrow m hm).1 (hrow m hm).2]
      exact hclear.unseen m (List.mem_cons_of_mem _ hm)

end Proposal

end Dataflow.Inlining
