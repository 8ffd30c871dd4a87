import Dataflow.Graph.Listing
import Dataflow.Proofs.Representation

/-!
# What a listing shows

A listing is read without the graph: the lines are the nodes in order, a star leads to the next
line, and a number leads to the line that has this number in front. For a graph that passes
verification, this is how its edges run.

* `Graph.JoinsLines`: an edge from the node of one line to the node of another;
* `Graph.Shows`: the lines, read with the numbers in front of them, show the edges of a graph;
* `Graph.Built.listing_shows`: listings do, and there is one unless a node has no text or a note
  fails.
-/

namespace Dataflow

/-! ### What is looked up for a list -/

section Lookups

variable {α β γ : Type}

/-- What is looked up for each member of a list, if all of it is found, and then worked on. -/
theorem forall₂_filterMap {look : γ → Option α} {R : α → β → Prop} {ks : List γ} {ys : List β}
    (hfound : ∀ k ∈ ks, ∃ x, look k = some x) : List.Forall₂ R (ks.filterMap look) ys ↔
      List.Forall₂ (fun k y => ∃ x, look k = some x ∧ R x y) ks ys := by
  induction ks generalizing ys with
  | nil => rw [List.filterMap_nil, List.forall₂_nil_left_iff, List.forall₂_nil_left_iff]
  | cons k ks ih =>
    obtain ⟨⟨x, hx⟩, hks⟩ := List.forall_mem_cons.1 hfound
    rw [List.filterMap_cons_some hx, List.forall₂_cons_left_iff, List.forall₂_cons_left_iff]
    simp only [ih hks, hx, Option.some.injEq, exists_eq_left']

/-- What is found for the places of a list is what is found for its members. -/
theorem filterMap_range_getElem? (l : List α) (look : α → Option γ) :
    (List.range l.length).filterMap (fun i => l[i]?.bind look) = l.filterMap look := by
  induction l with
  | nil => rfl
  | cons x l ih =>
    rw [List.length_cons, List.range_succ_eq_map, List.filterMap_cons, List.filterMap_cons,
      List.filterMap_map, ← ih]
    rfl

/-- Counting from 1, the members of a list have the numbers 1, 2 and so on. -/
theorem filterMap_idxOf?_self [DecidableEq α] {l : List α} (hl : l.Nodup) :
    l.filterMap (fun x => (l.idxOf? x).map (· + 1)) = List.range' 1 l.length := by
  have hplace : ∀ x ∈ l, (l.idxOf? x).map (· + 1) = some (l.idxOf x + 1) := by
    intro x hx
    obtain ⟨i, hi⟩ := Option.isSome_iff_exists.1 (List.isSome_idxOf?.2 hx)
    rw [List.idxOf_eq_getD_idxOf?, hi]
    rfl
  rw [List.filterMap_congr hplace, List.filterMap_eq_map']
  refine List.ext_getElem (by simp) fun i hi _ => ?_
  rw [List.getElem_map, hl.idxOf_getElem, List.getElem_range', Nat.one_mul, Nat.add_comm]

end Lookups

namespace Graph

/-! ### Reading a listing -/

/-- An edge that leads from the node of the line `i` to the node of the line `t`. -/
def JoinsLines (g : Graph) (i : Nat) (e : EdgeId) (t : Nat) : Prop :=
  ∃ n m, g.order[i]? = some n ∧ g.order[t]? = some m ∧ g.Joins e n m

/-- How an edge from the line `i` to the line `t` is marked: by a star if it leads to the next
    line, and else by the number in front of the line to which it leads. -/
inductive Marked (number : Nat → Option Nat) (i t : Nat) : String → Prop
  | star : t = i + 1 → Marked number i t "*"
  | jump {k : Nat} : t ≠ i + 1 → number t = some k → Marked number i t (toString k)

/-- What stands in the line `i` for an edge: its label, the mark of the line to which it leads
    and the note. -/
def ShowsEdge (g : Graph) (note : EdgeId → Run (Option String)) (number : Nat → Option Nat)
    (i : Nat) (e : EdgeId) (text : String) : Prop :=
  ∃ edge t mark remark, g.edges.get? e = some edge ∧ g.JoinsLines i e t ∧ Marked number i t mark ∧
    note e = .ok remark ∧
    text = (edge.label.elim "" fun label => label.show ++ "=") ++ mark ++
      remark.elim "" fun remark => " " ++ remark

/-- What the line `i` says of its node: its number if it has one, its operation and the edges
    that leave it, in their order. -/
def ShowsNode (g : Graph) (p : Program) (note : EdgeId → Run (Option String))
    (number : Nat → Option Nat) (i : Nat) (n : NodeId) (line : String) : Prop :=
  ∃ operation edges, g.showNode p n = .ok operation ∧
    List.Forall₂ (g.ShowsEdge note number i) (g.outEdges.get n) edges ∧
    line = ((number i).elim "" fun k => toString k ++ ": ") ++ operation ++
      if edges = [] then "" else " -> [" ++ ", ".intercalate edges ++ "]"

/-- The lines show the edges of a graph, if the lines with a number have the numbers that
    `number` gives. -/
structure Shows (g : Graph) (p : Program) (note : EdgeId → Run (Option String))
    (number : Nat → Option Nat) (lines : List String) : Prop where
  length_eq : lines.length = g.order.length
  line : ∀ i n, g.order[i]? = some n → ∃ line, lines[i]? = some line ∧
    g.ShowsNode p note number i n line
  /-- The numbers are 1, 2 and so on, from the top to the bottom. -/
  counts : ∃ k, (List.range lines.length).filterMap number = List.range' 1 k
  /-- A line has a number if an edge leads to it from another line than the one before. -/
  isSome_iff : ∀ t, (number t).isSome ↔ ∃ i e, g.JoinsLines i e t ∧ t ≠ i + 1

/-! ### Stars and numbers -/

/-- The number in front of the line `t`. -/
def numberAt (g : Graph) (t : Nat) : Option Nat := g.order[t]?.bind (lineNumber g.numbered)

section Numbers

variable {g : Graph} {n m : NodeId} {e : EdgeId} {edge : Edge} {i t : Nat}

theorem position_eq_some_iff (horder : g.order.Nodup) :
    g.position m = some t ↔ g.order[t]? = some m := by
  rw [position, List.idxOf?_eq_some_iff]
  constructor
  · rintro ⟨ht, hm, -⟩
    exact List.getElem?_eq_some_iff.2 ⟨ht, hm⟩
  · intro hm
    obtain ⟨ht, hm⟩ := List.getElem?_eq_some_iff.1 hm
    refine ⟨ht, hm, fun j hj hj' => Nat.ne_of_lt hj ?_⟩
    exact horder.getElem_inj_iff.1 (hj'.trans hm.symm)

theorem eq_of_getElem? (horder : g.order.Nodup) (hi : g.order[i]? = some n)
    (ht : g.order[t]? = some n) : i = t :=
  Option.some.inj <|
    ((position_eq_some_iff horder).2 hi).symm.trans ((position_eq_some_iff horder).2 ht)

theorem fallsThrough_iff (horder : g.order.Nodup) (htarget : edge.target = some m)
    (hm : g.order[t]? = some m) : g.fallsThrough i edge = true ↔ t = i + 1 := by
  rw [fallsThrough, htarget]
  simp only [beq_iff_eq, (position_eq_some_iff horder).2 hm, Option.some.injEq]

theorem mem_edgesFrom : (e, edge) ∈ g.edgesFrom n ↔
    e ∈ g.outEdges.get n ∧ g.edges.get? e = some edge := by
  simp [edgesFrom]

theorem showEdge_eq (g : Graph) (numbered : List NodeId) (i : Nat) (edge : Edge)
    (remark : Option String) : g.showEdge numbered i edge remark =
      (edge.label.elim "" fun label => label.show ++ "=") ++
        (if g.fallsThrough i edge then "*"
          else (edge.target.bind (lineNumber numbered)).elim "?" toString) ++
        remark.elim "" fun remark => " " ++ remark := by
  unfold showEdge
  cases edge.label <;> cases edge.target.bind (lineNumber numbered) <;> cases remark <;> rfl

variable (hg : g.Wired)
include hg

/-- An edge that is listed at the node of a line leads to some line. -/
theorem Wired.exists_joinsLines (hn : g.order[i]? = some n) (he : e ∈ g.outEdges.get n)
    (hedge : g.edges.get? e = some edge) :
    ∃ m t, edge.target = some m ∧ g.order[t]? = some m ∧ g.JoinsLines i e t := by
  obtain ⟨m, label, hedge'⟩ := (hg.mem_outEdges n e).1 he
  obtain rfl := Option.some.inj (hedge.symm.trans hedge')
  obtain ⟨_, _, m', hm', hjoins⟩ := hg.ends e _ hedge
  obtain rfl : m' = m := hjoins.target_eq ⟨label, hedge⟩
  obtain ⟨t, ht, hm⟩ := List.getElem_of_mem hm'
  have hline : g.order[t]? = some m' := List.getElem?_eq_some_iff.2 ⟨ht, hm⟩
  exact ⟨m', t, rfl, hline, n, m', hn, hline, label, hedge⟩

/-- The numbered nodes are those to which an edge leads from another line than the one before. -/
theorem Wired.mem_numbered_iff (hm : g.order[t]? = some m) :
    m ∈ g.numbered ↔ ∃ i e, g.JoinsLines i e t ∧ t ≠ i + 1 := by
  have hmem : m ∈ g.order := List.mem_of_getElem? hm
  have hnumbered : m ∈ g.numbered ↔ m ∈ g.jumpTargets := by simp [numbered, hmem]
  rw [hnumbered, jumpTargets]
  simp only [List.mem_flatMap, List.mem_filterMap, Prod.exists, List.mem_zipIdx_iff_getElem?,
    mem_edgesFrom]
  constructor
  · rintro ⟨n, i, hn, e, edge, ⟨he, hedge⟩, htarget⟩
    split at htarget
    · cases htarget
    · next hjump =>
      obtain ⟨m', k, htarget', hm', hjoins⟩ := hg.exists_joinsLines hn he hedge
      obtain rfl : m' = m := Option.some.inj (htarget'.symm.trans htarget)
      obtain rfl : k = t := eq_of_getElem? hg.order_nodup hm' hm
      exact ⟨i, e, hjoins, fun ht => hjump ((fallsThrough_iff hg.order_nodup htarget hm).2 ht)⟩
  · rintro ⟨i, e, ⟨n, m', hn, hm', hjoins⟩, ht⟩
    obtain rfl : m' = m := Option.some.inj (hm'.symm.trans hm)
    have he : e ∈ g.outEdges.get n := (hg.mem_outEdges n e).2 ⟨m', hjoins⟩
    obtain ⟨label, hedge⟩ := hjoins
    refine ⟨n, i, hn, e, _, ⟨he, hedge⟩, if_neg fun hfalls => ht ?_⟩
    exact (fallsThrough_iff hg.order_nodup rfl hm).1 hfalls

theorem Wired.isSome_numberAt_iff :
    (g.numberAt t).isSome ↔ ∃ i e, g.JoinsLines i e t ∧ t ≠ i + 1 := by
  cases hm : g.order[t]? with
  | none =>
    rw [numberAt, hm, Option.bind_none]
    constructor
    · exact fun h => absurd h Bool.false_ne_true
    · rintro ⟨i, e, ⟨n, m, _, hm', _⟩, _⟩
      cases hm.symm.trans hm'
  | some m =>
    rw [numberAt, hm, Option.bind_some, lineNumber, Option.isSome_map, List.isSome_idxOf?,
      hg.mem_numbered_iff hm]

theorem Wired.counts_numberAt :
    (List.range g.order.length).filterMap g.numberAt = List.range' 1 g.numbered.length := by
  have hnodup : g.numbered.Nodup := hg.order_nodup.filter _
  have hrest : g.order.filterMap (lineNumber g.numbered) =
      g.numbered.filterMap (lineNumber g.numbered) := by
    conv_rhs => rw [numbered, List.filterMap_filter]
    refine List.filterMap_congr fun n hn => ?_
    by_cases htarget : g.jumpTargets.contains n = true
    · rw [if_pos htarget]
      rfl
    · have hn' : n ∉ g.numbered := fun hmem => htarget (List.mem_filter.1 hmem).2
      rw [if_neg htarget, lineNumber, List.idxOf?_eq_none_iff.2 hn', Option.map_none]
  calc (List.range g.order.length).filterMap g.numberAt
    _ = g.order.filterMap (lineNumber g.numbered) := filterMap_range_getElem? g.order _
    _ = g.numbered.filterMap (lineNumber g.numbered) := hrest
    _ = List.range' 1 g.numbered.length := filterMap_idxOf?_self hnodup

/-! ### Edges and lines -/

variable {p : Program} {note : EdgeId → Run (Option String)}

theorem Wired.showsEdge_showEdge {remark : Option String} (hn : g.order[i]? = some n)
    (he : e ∈ g.outEdges.get n) (hedge : g.edges.get? e = some edge)
    (hnote : note e = .ok remark) :
    g.ShowsEdge note g.numberAt i e (g.showEdge g.numbered i edge remark) := by
  obtain ⟨m, t, htarget, hm, hjoins⟩ := hg.exists_joinsLines hn he hedge
  have hfalls : g.fallsThrough i edge = true ↔ t = i + 1 :=
    fallsThrough_iff hg.order_nodup htarget hm
  by_cases ht : t = i + 1
  · refine ⟨edge, t, "*", remark, hedge, hjoins, .star ht, hnote, ?_⟩
    rw [showEdge_eq, if_pos (hfalls.2 ht)]
  · -- The edge is no star, so that the line to which it leads has a number.
    obtain ⟨k, hk⟩ := Option.isSome_iff_exists.1 (hg.isSome_numberAt_iff.2 ⟨i, e, hjoins, ht⟩)
    have hnumber : lineNumber g.numbered m = some k := by rwa [numberAt, hm] at hk
    refine ⟨edge, t, toString k, remark, hedge, hjoins, .jump ht hk, hnote, ?_⟩
    rw [showEdge_eq, if_neg (mt hfalls.1 ht), htarget, Option.bind_some, hnumber,
      Option.elim_some]

/-- The edges that leave a node, in their order, are those that are listed there. -/
theorem Wired.forall₂_edgesFrom {α : Type} {R : EdgeId × Edge → α → Prop} {l : List α} :
    List.Forall₂ R (g.edgesFrom n) l ↔ List.Forall₂
      (fun e x => ∃ edge, g.edges.get? e = some edge ∧ R (e, edge) x) (g.outEdges.get n) l := by
  have hfound : ∀ e ∈ g.outEdges.get n,
      ∃ x, ((g.edges.get? e).map fun edge => (e, edge)) = some x := by
    intro e he
    obtain ⟨_, _, hedge⟩ := (hg.mem_outEdges n e).1 he
    exact ⟨_, by rw [hedge]; rfl⟩
  rw [edgesFrom, forall₂_filterMap hfound]
  simp

end Numbers

/-! ### Listings -/

section Lines

variable {g : Graph} {p : Program} {note : EdgeId → Run (Option String)} {n : NodeId} {i : Nat}

theorem showLine_eq_ok {numbered : List NodeId} {line : String} :
    g.showLine p note numbered n i = .ok line ↔
      ∃ operation edges, g.showNode p n = .ok operation ∧
        (g.edgesFrom n).mapM (fun x =>
          (note x.1).bind fun remark => .ok (g.showEdge numbered i x.2 remark)) = .ok edges ∧
        line = ((lineNumber numbered n).elim "" fun k => toString k ++ ": ") ++ operation ++
          if edges = [] then "" else " -> [" ++ ", ".intercalate edges ++ "]" := by
  rw [showLine, Run.bind_eq_ok]
  refine exists_congr fun operation => ?_
  rw [Run.bind_eq_ok, ← exists_and_left]
  refine exists_congr fun edges => and_congr_right fun _ => and_congr Iff.rfl ?_
  have hafter : (if edges.isEmpty then "" else " -> [" ++ ", ".intercalate edges ++ "]") =
      if edges = [] then "" else " -> [" ++ ", ".intercalate edges ++ "]" := by
    simp only [List.isEmpty_iff]
  rw [← hafter]
  cases lineNumber numbered n <;> exact ⟨fun h => (Except.ok.inj h).symm, fun h => h ▸ rfl⟩

/-- There is a line for each node that has a text, if the notes to its edges do not fail. -/
theorem Wired.exists_showLine (hg : g.Wired) {numbered : List NodeId} :
    (∃ line, g.showLine p note numbered n i = .ok line) ↔
      (∃ operation, g.showNode p n = .ok operation) ∧
        ∀ e ∈ g.outEdges.get n, ∃ remark, note e = .ok remark := by
  constructor
  · rintro ⟨line, h⟩
    obtain ⟨operation, edges, hoperation, hedges, _⟩ := showLine_eq_ok.1 h
    refine ⟨⟨operation, hoperation⟩, fun e he => ?_⟩
    obtain ⟨_, _, hedge⟩ := (hg.mem_outEdges n e).1 he
    obtain ⟨text, htext⟩ := Run.exists_mapM_eq_ok.1 ⟨edges, hedges⟩ _ (mem_edgesFrom.2 ⟨he, hedge⟩)
    obtain ⟨remark, hremark, _⟩ := Run.bind_eq_ok.1 htext
    exact ⟨remark, hremark⟩
  · rintro ⟨⟨operation, hoperation⟩, hnotes⟩
    have hshown : ∀ x ∈ g.edgesFrom n, ∃ text, ((note x.1).bind fun remark =>
        .ok (g.showEdge numbered i x.2 remark)) = .ok text := by
      intro x hx
      obtain ⟨remark, hremark⟩ := hnotes x.1 (mem_edgesFrom.1 hx).1
      exact ⟨g.showEdge numbered i x.2 remark, Run.bind_eq_ok.2 ⟨remark, hremark, rfl⟩⟩
    obtain ⟨edges, hedges⟩ := Run.exists_mapM_eq_ok.2 hshown
    exact ⟨_, showLine_eq_ok.2 ⟨operation, edges, hoperation, hedges, rfl⟩⟩

/-- The line of a node shows it, and the edges that leave it. -/
theorem Wired.showsNode_of_showLine (hg : g.Wired) (hn : g.order[i]? = some n) {line : String}
    (h : g.showLine p note g.numbered n i = .ok line) :
    g.ShowsNode p note g.numberAt i n line := by
  obtain ⟨operation, edges, hoperation, hedges, rfl⟩ := showLine_eq_ok.1 h
  refine ⟨operation, edges, hoperation, ?_, by rw [numberAt, hn, Option.bind_some]⟩
  have hlisted := hg.forall₂_edgesFrom.1 (Run.mapM_eq_ok.1 hedges)
  refine ((List.forall₂_and_left _ _).2 ⟨fun e he => he, hlisted⟩).imp ?_
  rintro e text ⟨he, edge, hedge, htext⟩
  obtain ⟨remark, hremark, htext⟩ := Run.bind_eq_ok.1 htext
  obtain rfl := Except.ok.inj htext
  exact hg.showsEdge_showEdge hn he hedge hremark

end Lines

/-- The listing of a graph that passes verification shows its edges: it has one line to a node, in
    order; the numbers in front of lines count up from 1 and stand where edges lead that are no
    stars; and each line shows the edges that leave its node, in their order, by a star if they
    lead to the next line and else by the number of the line to which they lead. The nodes that
    have a line are live, and no edge touches any other node. There is a listing unless a node has
    no text or a note fails. -/
theorem Built.listing_shows {g : Graph} (hg : g.Built) (hverify : g.verify = .ok ()) (p : Program)
    (note : EdgeId → Run (Option String)) :
    (∀ n ∈ g.order, g.isLive n = true) ∧
    (∀ n, n ∉ g.order → g.inEdges.get n = [] ∧ g.outEdges.get n = []) ∧
    ((∃ lines, g.listing p note = .ok lines) ↔ ∀ n ∈ g.order,
      (∃ operation, g.showNode p n = .ok operation) ∧
        ∀ e ∈ g.outEdges.get n, ∃ remark, note e = .ok remark) ∧
    ∀ lines, g.listing p note = .ok lines → ∃ number, g.Shows p note number lines := by
  have hwired := hg.consistent.wired hverify
  refine ⟨fun n hn => hg.intact.isLive_eq hn, fun n hn => hwired.edges_of_not_mem hn, ?_, ?_⟩
  · rw [listing, Run.exists_mapM_eq_ok]
    simp only [Prod.forall, List.mem_zipIdx_iff_getElem?, hwired.exists_showLine]
    constructor
    · intro h n hn
      obtain ⟨i, hi, hn⟩ := List.getElem_of_mem hn
      exact h n i (List.getElem?_eq_some_iff.2 ⟨hi, hn⟩)
    · exact fun h n i hn => h n (List.mem_of_getElem? hn)
  · intro lines hlines
    obtain ⟨hlength, hline⟩ := List.forall₂_iff_get.1 (Run.mapM_eq_ok.1 hlines)
    rw [List.length_zipIdx] at hlength
    refine ⟨g.numberAt, hlength.symm, fun i n hn => ?_, ⟨g.numbered.length, ?_⟩,
      fun t => hwired.isSome_numberAt_iff⟩
    · obtain ⟨hi, hn'⟩ := List.getElem?_eq_some_iff.1 hn
      have hi' : i < lines.length := hlength ▸ hi
      refine ⟨lines[i], List.getElem?_eq_getElem hi', hwired.showsNode_of_showLine hn ?_⟩
      simpa [hn'] using hline i (by simpa using hi) hi'
    · rw [← hlength]
      exact hwired.counts_numberAt

/-- A loop in place of a node in the middle: its nodes come last in the arena but not in the
    order. The loop is entered from above, from below and from itself. -/
def sampleLooped : Graph :=
  let body := ((({} : Graph).addNode { kind := .goto }).addEdge ⟨0⟩ ⟨0⟩ (some .thenBranch)
    |>.addNode { kind := .nop }).addEdge ⟨0⟩ ⟨1⟩ (some .elseBranch)
  let around := ((({} : Graph).addNode { kind := .block }).addNode { kind := .statement }
    |>.addNode { kind := .finish }).addEdge ⟨0⟩ ⟨1⟩ none |>.addEdge ⟨1⟩ ⟨1⟩ none
    |>.addEdge ⟨1⟩ ⟨2⟩ none |>.addEdge ⟨0⟩ ⟨2⟩ none
  (around.splice ⟨1⟩ { body with entry := some ⟨0⟩, exit := some ⟨1⟩ }).2

theorem listing_shows_looped : sampleLooped.Built ∧ sampleLooped.verify = .ok () ∧
    (∀ n ∈ sampleLooped.order, sampleLooped.isLive n = true) ∧
    ∃ number, sampleLooped.Shows {} (fun e => .ok (if e = ⟨1⟩ then some "again" else none)) number
      ["BLOCK -> [*, 2]", "1: GOTO -> [THEN=1, ELSE=*]", "NOP -> [1 again, *]", "2: END"] := by
  have hbuilt : sampleLooped.Built :=
    .splice _ (.addEdge _ _ _ (.addEdge _ _ _ (.addEdge _ _ _ (.addEdge _ _ _
      (.addNode _ (.addNode _ (.addNode _ .empty)))))))
      (.withEnds _ _ (.addEdge _ _ _ (.addNode _ (.addEdge _ _ _ (.addNode _ .empty)))))
  have hverify : sampleLooped.verify = .ok () := by rfl
  obtain ⟨hlive, _, _, hshows⟩ := Built.listing_shows hbuilt hverify {}
    fun e => .ok (if e = ⟨1⟩ then some "again" else none)
  exact ⟨hbuilt, hverify, hlive, hshows _ (by rfl)⟩

end Graph

end Dataflow
