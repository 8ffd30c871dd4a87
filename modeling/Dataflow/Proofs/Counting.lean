import Dataflow.Proofs.Growth
import Dataflow.Proofs.Idempotence

/-!
# Sums of ones

A method stores a sum of ones in a variable and returns a sum of reads of it. Inlining with fuel
without end leaves none of the reads: where the next statement begins, the value is known. What the
method returns is then a sum of ones itself, which has as many ones as its value says and takes fuel
for each of them. Before, a few reads of a few ones made the same value. For 33 reads of 33 ones,
sixteen times the fuel is too little.

* `Computes.exists_ones`: a sum of ones has as many parts as its value says;
* `Inlining.Exhausted.spells_nil`: no read is left behind the statement that stores what is read;
* `Program.StoresSum.two_mul_lt_of_evaluate`: the fuel that such a method takes in the end;
* `Inlining.evaluate_sixteenfold_runs_out`: a program that runs out of sixteen times its fuel.
-/

namespace Dataflow

/-! ### Sums of ones and of reads -/

/-- A one, a read of the variable, or a sum. -/
def Expr.addsUp (v : VarId) : Expr → Bool
  | int a => a == 1
  | var u => u == v
  | binary op _ _ => op == .add
  | _ => false

namespace Expr

variable {v : VarId} {x : Expr}

theorem addsUp_withOperands (v : VarId) (x : Expr) (os : List ExprId) :
    (x.withOperands os).addsUp v = x.addsUp v := by
  fun_cases withOperands x os <;> rfl

theorem addsUp_cases (h : x.addsUp v = true) :
    x = int 1 ∨ x = var v ∨ ∃ a b, x = binary .add a b := by
  cases x with
  | int a => exact .inl (congrArg int (beq_iff_eq.1 h))
  | var u => exact .inr (.inl (congrArg var (beq_iff_eq.1 h)))
  | binary op a b => exact .inr (.inr ⟨a, b, by rw [beq_iff_eq.1 h]⟩)
  | _ => cases h

end Expr

/-- The method `m` stores a sum in `v`, which is not read for that, and returns a sum. -/
structure Program.StoresSum (p : Program) (m : MethodId) (v : VarId) (body t₀ t₁ : StmtId)
    (e r : ExprId) : Prop where
  addsUp : ∀ o x, p.exprs.get? o = some x → x.addsUp v = true
  tracked : p.isOfMethod v = .ok true
  mem : (m, body) ∈ p.bodies
  block : p.stmts.get? body = some (.block [t₀, t₁])
  store : p.stmts.get? t₀ = some (.declare v (some e))
  ret : p.stmts.get? t₁ = some (.ret (some r))
  avoids : ∀ l, Spans p [e] l → p.Avoids l v

section Sums

variable {p : Program} {v : VarId} (hp : ∀ o x, p.exprs.get? o = some x → x.addsUp v = true)
include hp

theorem Program.inert_of_addsUp (l : List ExprId) : p.Inert l := by
  intro o _ x hx
  obtain rfl | rfl | ⟨a, b, rfl⟩ := Expr.addsUp_cases (hp o x hx)
  all_goals exact ⟨rfl, rfl⟩

/-- All operations of sums are reads of the variable. -/
theorem Emits.kind_eq {es l : List ExprId} {os : List Operation} (h : Emits p es l os) {o : Operation}
    (ho : o ∈ os) : o.kind = .read v := by
  obtain ⟨_, x, ins, own, hx, hemits, ho⟩ := h.exists_of_mem ho
  obtain rfl | rfl | ⟨a, b, rfl⟩ := Expr.addsUp_cases (hp _ x hx)
  all_goals cases hemits
  · cases ho
  · rw [List.mem_singleton.1 ho]
  · cases ho

/-- Sums without reads: there are as many ones as the values say, and sums to add them up. -/
theorem Computes.exists_ones {es l l' : List ExprId} {s s' : Memory} {events : List Event}
    {values : List Int64} (h : Computes p es s events values s') (hem : Emits p es l [])
    (hl' : Evaluates p es l') :
    ∃ ones : Nat, values.foldr (· + ·) 0 = Int64.ofNat ones ∧ l'.length + es.length = 2 * ones := by
  generalize hos : ([] : List Operation) = os at hem
  induction h generalizing l l' os with
  | nil =>
    cases hl'
    exact ⟨0, rfl, rfl⟩
  | @cons e x ins es s mid s₁ s' before own after values rest a hx hins hvalues hact _ ih₁ ih₂ =>
    cases hl' with | cons hx' hins' hinside hbeside =>
    cases hem with | cons hx'' hemits hem₁ hem₂ =>
    cases hx.symm.trans hx'
    cases hx.symm.trans hx''
    cases hins.symm.trans hins'
    obtain ⟨rfl, hown⟩ := List.append_eq_nil_iff.1 hos.symm
    obtain ⟨rfl, rfl⟩ := List.append_eq_nil_iff.1 hown
    obtain ⟨others, hothers, hlength⟩ := ih₂ hbeside _ rfl hem₂
    obtain rfl | rfl | ⟨lhs, rhs, rfl⟩ := Expr.addsUp_cases (hp _ x hx)
    · -- A one.
      cases hins
      cases hinside
      cases hact
      refine ⟨1 + others, ?_, ?_⟩
      · rw [List.foldr_cons, hothers, Int64.ofNat_add]
        rfl
      · rw [List.length_cons, List.length_append, List.length_nil, List.length_cons]
        omega
    · cases hemits
    · -- A sum, which stands for all the ones inside it.
      cases hins
      cases hemits
      obtain ⟨ones, hones, hsize⟩ := ih₁ hinside _ rfl hem₁
      obtain ⟨a₁, a₂, rfl⟩ : ∃ a₁ a₂, values = [a₁, a₂] := by
        cases hvalues with | cons _ _ _ _ hvalues =>
        cases hvalues with | cons _ _ _ _ hvalues =>
        cases hvalues
        exact ⟨_, _, rfl⟩
      cases hact
      refine ⟨ones + others, ?_, ?_⟩
      · rw [List.foldr_cons, hothers, Int64.ofNat_add, ← hones]
        simp
      · simp only [List.length_cons, List.length_append, List.length_nil] at hsize ⊢
        omega

end Sums

/-! ### Reads that are left -/

namespace Inlining

variable {p : Program} {φ : Flow} {body : StmtId} {v : VarId}

/-- Behind a node after which a value is known, no operation reads it first. -/
theorem Flow.Follows.kind_ne_read (hφ : φ.Follows p body)
    (hreads : ∀ n ∈ φ.graph.order, ReadsUnknown φ.graph φ.facts n) {k : NodeId} {x : ExprId}
    (hknown : φ.valueAfter k v = some x) {parent : Option NodeId} {o : Operation}
    {os : List Operation} {label : Option Label} {ns : List NodeId} {outs ends : List OpenEdge}
    (hrow : Spelled φ.graph parent (o :: os) [(k, label)] ns outs ends)
    (hns : ∀ n ∈ ns, n ∈ φ.graph.order) : o.kind ≠ .read v := by
  intro hkind
  obtain ⟨skipped, n, rest, mid, ends', rfl, hskips, hn, _⟩ :=
    Skips.exists_of_cons hφ hrow hns (List.cons_ne_nil _ _)
  have hmid : ∀ a ∈ mid, φ.valueAfter a.1 v = some x :=
    (hskips.agree.value_iff v x).1 (List.forall_mem_singleton.2 hknown)
  have hne : mid ≠ [] := mt hskips.agree.nil_iff.2 (List.cons_ne_nil _ _)
  have hvalue : φ.valueAt n v = some x := by
    rw [hφ.valueAt_eq_some_iff, hn.arrivals]
    exact ⟨hne, hmid⟩
  have hnone : φ.valueAt n v = none :=
    hreads n (hns n (by simp)) v o.expr parent (hkind ▸ hn.node)
  cases hvalue.symm.trans hnone

/-- What is known behind a statement that stores a value which may be evaluated again. -/
theorem Flow.Follows.valueAfter_write (hφ : φ.Follows p body) {k : NodeId} {e : ExprId}
    {origin : Origin} {parent : Option NodeId} {ins : List OpenEdge} (hk : k ∈ φ.graph.order)
    (hsits : Sits φ.graph k (.write v e) origin parent ins) (hv : p.isOfMethod v = .ok true)
    (he : ∀ l, Spans p [e] l → p.Inert l ∧ p.Avoids l v) : φ.valueAfter k v = some e := by
  obtain ⟨ls, le, hl, hbody⟩ := hφ.lists
  obtain ⟨l, tracked, value, hspans, _, htracked, hvalue, heffect⟩ :=
    hasEffect_write hφ.tree.inRange hl hbody hφ.laidOut hk hsits.node rfl
  cases hv.symm.trans htracked
  have hput : φ.effects k = .put v value :=
    Except.ok.inj ((hφ.effect_of_sits hsits hk).symm.trans heffect)
  obtain ⟨rfl, _⟩ := hvalue.resolve_right fun h => h.2 (he l hspans)
  rw [hφ.valueAfter_eq hk, hput]
  exact if_pos rfl

variable {m : MethodId} {t₀ t₁ : StmtId} {e r : ExprId}

/-- In a body without reads of known values, no read of what is stored is left. -/
theorem Exhausted.spells_nil (h : Exhausted p body) (hsum : p.StoresSum m v body t₀ t₁ e r) :
    p.Spells [r] [] := by
  obtain ⟨φ, hφ, hreads⟩ := h
  obtain ⟨ns, last, outs, ends, horder, hlaid, _⟩ := hφ.laidOut
  have hmem : ∀ n ∈ ns, n ∈ φ.graph.order := by
    rw [horder]
    exact fun n hn => List.mem_append_left _ hn
  obtain ⟨n, rest, rfl, _, hseq⟩ := hlaid.of_block hsum.block
  cases hseq with | cons hfirst hrest =>
  cases hrest with | cons hsecond _ =>
  obtain ⟨_, n₀, k, row, _, rfl, rfl, _, _, _, hk⟩ :=
    (hfirst.of_straight hsum.store rfl).exists_last rfl
  obtain ⟨_, _, _, _, hhead⟩ := hsecond.of_ret hsum.ret
  obtain ⟨os, n₁, _, row₁, _, rfl, _, hn₁, hos, hrow, _⟩ := hhead.exists_last rfl
  have hknown : φ.valueAfter k v = some e :=
    hφ.valueAfter_write (hmem k (by simp)) hk hsum.tracked fun l hl =>
      ⟨Program.inert_of_addsUp hsum.addsUp l, hsum.avoids l hl⟩
  have hagree : Agree φ φ [(k, none)] [(n₁, none)] :=
    .of_keep hφ hn₁ (hmem n₁ (by simp)) rfl (List.cons_ne_nil _ _)
  cases os with
  | nil => exact hos
  | cons o os =>
    -- All operations are reads, and the first one would be replaced.
    obtain ⟨l, hem⟩ := Emits.exists_of_spells hos
    refine absurd (hem.kind_eq hsum.addsUp List.mem_cons_self) (hφ.kind_ne_read hreads
      ((Agree.singleton_iff.1 hagree v).symm.trans hknown) hrow fun n hn => hmem n ?_)
    simp [hn]

/-! ### The method in the end -/

/-- After a step all expressions are still ones, reads and sums. -/
theorem Progresses.addsUp {g₀ : Graph} {s s' : Sweep Known} (h : Progresses g₀ body s s')
    (hs : Sound g₀ body s) (hsums : ∀ o x, s.program.exprs.get? o = some x → x.addsUp v = true) :
    ∀ o x, s'.program.exprs.get? o = some x → x.addsUp v = true := by
  cases h.moves with
  | pass => exact hsums
  | replace _ _ hin =>
    intro o y hy
    obtain ⟨o', x, os, hx, rfl, _⟩ := hin.edited.exists_withOperands hs.tree.inRange hy
    rw [Expr.addsUp_withOperands]
    exact hsums o' x hx

end Inlining

section Frames

variable {p q : Program} {new : ExprId → Prop}

/-- Where no variable is read nothing is replaced. -/
theorem Program.Framed.get_expr_eq (h : p.Framed q new) {es l : List ExprId} (hl : Spans p es l)
    (hnames : ∀ o ∈ l, ¬p.NamesLocal o) : ∀ o ∈ l, q.exprs.get? o = p.exprs.get? o := by
  intro o ho
  obtain ⟨x, hx⟩ := hl.exists_get ho
  obtain ⟨os, hos, hslots⟩ := h.expr o x hx
  have hunread : ∀ o' ∈ x.operands, ¬p.NamesLocal o' := fun o' ho' =>
    hnames o' (hl.mem_of_mem_operands ho hx ho')
  have hkept : List.Forall₂ (· = ·) x.operands os :=
    ((List.forall₂_and_left _ _).2 ⟨hunread, hslots⟩).imp fun o' e' hslot =>
      (hslot.2.resolve_right fun hread => hslot.1 hread.1).symm
  rw [List.forall₂_eq_eq_eq] at hkept
  rw [hos, hx, ← hkept, x.withOperands_operands]

variable {m : MethodId} {v : VarId} {body t₀ t₁ : StmtId} {e r : ExprId}

/-- What the check for references says about an expression. -/
theorem Spans.avoids_of_references {l : List ExprId} (hl : Spans p [e] l)
    (href : p.references e v = .ok false) : p.Avoids l v := by
  rw [hl.references_eq] at href
  intro o ho x hx
  exact beq_eq_false_iff_ne.1 ((Program.any_entriesOf_eq_false fun y => y.namedVar == some v).1
    (Except.ok.inj href) o ho x hx)

/-- The method still stores the same sum, and it returns another one. -/
theorem Program.StoresSum.exists_of_framed (h : p.StoresSum m v body t₀ t₁ e r) (hp : p.IsTree)
    (hframed : p.Framed q new) (hsums : ∀ o x, q.exprs.get? o = some x → x.addsUp v = true) :
    ∃ r', q.StoresSum m v body t₀ t₁ e r' := by
  obtain ⟨ls, le, hl⟩ := hp.isForest.exists_lists
  have hmem : t₀ ∈ ls := hl.spans.mem_of_mem_children
    (hl.spans.mem_of_mem_roots (List.mem_map_of_mem h.mem)) h.block List.mem_cons_self
  obtain ⟨l, hspans, _⟩ := hl.spans.exists_spans
    (hl.spans.mem_of_mem_exprs hmem h.store List.mem_cons_self)
  have hnames : ∀ o ∈ l, ¬p.NamesLocal o := by
    rintro o ho ⟨u, _, hu, _⟩
    obtain rfl : u = v := beq_iff_eq.1 (h.addsUp o _ hu)
    exact h.avoids l hspans o ho _ hu rfl
  have hsame := hframed.get_expr_eq hspans hnames
  obtain ⟨_, hblock, _⟩ := hframed.stmt _ _ h.block
  obtain ⟨_, hstore, ⟨⟩ | ⟨hslot, ⟨⟩⟩⟩ := hframed.stmt _ _ h.store
  obtain ⟨_, hret, ⟨⟩ | ⟨_, ⟨⟩⟩⟩ := hframed.stmt _ _ h.ret
  obtain rfl := hslot.resolve_right fun hread =>
    hnames e (hspans.mem_of_mem_roots (List.mem_singleton_self e)) hread.1
  refine ⟨_, hsums, ?_, ?_, hblock, hstore, hret, fun l' hl' => ?_⟩
  · rw [isOfMethod, hframed.vars]
    exact h.tracked
  · rw [bodies, hframed.methods]
    exact h.mem
  · rw [(hspans.congr hsame).unique hl']
    intro o ho x hx
    rw [hsame o ho] at hx
    exact h.avoids l hspans o ho x hx

/-- A run of the method returns what the sum evaluates to, which takes its share of the fuel. -/
theorem Program.StoresSum.exists_cost (h : p.StoresSum m v body t₀ t₁ e r) {n n' : Memory}
    {events : List Event} {c : Completion} (hrun : Runs p (.stmt body) n events c n') :
    ∃ a mid later l cost, c = .returned (some a) ∧ Computes p [r] mid later [a] n' ∧
      Evaluates p [r] l ∧ l.length + 2 ≤ cost ∧ (Task.stmt body).Costs p n c n' cost := by
  cases hrun
  case block hs hrun =>
    cases h.block.symm.trans hs
    cases hrun with
    | stop hfirst => cases (hfirst.exists_cost_of_leaf h.store rfl).2.1.2 rfl
    | next hfirst hrest =>
      obtain ⟨_, _, l₀, _, hcost₀⟩ := hfirst.exists_cost_of_leaf h.store rfl
      cases hrest with
      | next hsecond => cases (hsecond.exists_cost_of_leaf h.ret rfl).2.1.1 rfl
      | stop hsecond =>
        generalize hc : Completion.returned _ = c at hsecond ⊢
        cases hsecond
        case ret hs he =>
          cases h.ret.symm.trans hs
          obtain ⟨a, rfl⟩ := he.exists_value
          obtain ⟨l, hl, hcost⟩ := he.exists_cost
          cases hc
          have hblock := Task.Costs.block h.block (.next hcost₀ (.stop (.ret h.ret hcost)))
          exact ⟨a, _, _, l, _, rfl, he, hl, by omega, hblock⟩
        all_goals cases h.ret.symm.trans ‹p.stmts.get? _ = some _›
  all_goals cases h.block.symm.trans ‹p.stmts.get? _ = some _›

/-- A sum without reads in it takes more than two units of fuel for each one that it counts. -/
theorem Program.StoresSum.two_mul_lt_of_evaluate (h : p.StoresSum m v body t₀ t₁ e r)
    (hr : p.Spells [r] []) {args : List Int64} {fuel count : Nat} {effects : List Int64}
    (hcount : count < UInt64.size)
    (heval : p.evaluate m args fuel = .ok (some ⟨some (.ofNat count), effects⟩)) :
    2 * count < fuel := by
  obtain ⟨decl, body', d, m', hdecl, hbody, hrun, ho⟩ := evaluate_eq_some_iff.1 heval
  have hmem := mem_bodies_iff.1 h.mem
  rw [hdecl, Option.bind_some, hbody] at hmem
  cases hmem
  obtain ⟨events, hevents⟩ := exists_runs hrun
  obtain ⟨a, _, _, l, cost, rfl, hcomputes, hl, hle, hcost⟩ := h.exists_cost hevents
  obtain ⟨l', hem⟩ := Emits.exists_of_spells hr
  obtain ⟨ones, hones, hlength⟩ := hcomputes.exists_ones h.addsUp hem hl
  have hfuel : cost ≤ fuel := hcost.le_of_gives hrun
  obtain rfl : Int64.ofNat count = a := Option.some.inj (congrArg Outcome.value ho)
  -- There are at least as many ones as are counted: the sum may have gone round.
  have hmod : count % UInt64.size = ones % UInt64.size := by
    rw [List.foldr_cons, List.foldr_nil, Int64.add_zero] at hones
    exact congrArg (fun a : Int64 => a.toBitVec.toNat) hones
  have hle' : count ≤ ones := by
    rw [← Nat.mod_eq_of_lt hcount, hmod]
    exact Nat.mod_le _ _
  rw [List.length_singleton] at hlength
  omega

end Frames

namespace Inlining

/-! ### From the start to the end -/

section Optimize

variable {p : Program} {m : MethodId} {v : VarId} {body t₀ t₁ : StmtId} {e r : ExprId}

/-- Inlining with fuel without end leaves a method that returns a sum without reads. -/
theorem exists_storesSum_of_optimize (hp : p.IsTree) (hloops : p.LoopsStir)
    (hsum : p.StoresSum m v body t₀ t₁ e r) {options : Options} {o : Optimization} {changed : Bool}
    (ho : optimize .declared options Fuel.infinite p = .ok o) (houtcome : o.outcome = .ok changed) :
    ∃ r', o.program.StoresSum m v body t₀ t₁ e r' ∧ o.program.Spells [r'] [] := by
  have hsums : ∀ o' x, o.program.exprs.get? o' = some x → x.addsUp v = true :=
    keeps_of_optimizeMethods (P := fun q => ∀ o' x, q.exprs.get? o' = some x → x.addsUp v = true)
      (fun hstep hs _ hkept => hstep.addsUp hs hkept) hp hsum.addsUp ho
  obtain ⟨r', hsum'⟩ :=
    hsum.exists_of_framed hp (inlines_of_optimizeMethods hp ho).toFramed hsums
  have hstart : Halfway p Fuel.infinite (p.bodies.map Prod.fst) :=
    ⟨hp, hloops, rfl, fun m b hb hm => absurd (List.mem_map_of_mem hb) hm⟩
  obtain ⟨hend, _⟩ := hstart.of_optimizeMethods ho houtcome
  exact ⟨r', hsum', (hend.exhausted m body hsum'.mem List.not_mem_nil).spells_nil hsum'⟩

/-- Inlining in one body goes well if its reads can be counted. -/
theorem exists_optimizeMethods_singleton {decl : Method} {g : Graph} {fuel : Fuel} (hp : p.IsTree)
    (hdecl : p.methods.get m = .ok decl) (hg : Graph.ofMethod p m = .ok (.ok g))
    (hreads : fuel.consumed + g.reads ≤ Fuel.endless) (changed : Bool) :
    ∃ B o changed', o.outcome = .ok changed' ∧ ∀ options : Options, B ≤ options.bound →
      optimizeMethods .declared options [m] p fuel changed = .ok o := by
  obtain ⟨body, hbody, hg'⟩ := exists_ofBody_of_ofMethod hg
  obtain ⟨F, B, out, _, hrun, hout⟩ := exists_integrate hp hbody hg' fuel
  rw [(Graph.ofBody_laidOut hg').1.readCount_eq] at hout
  rcases hout with ⟨_, hmany⟩ | ⟨s, _, rfl⟩
  · exact absurd hmany (Nat.not_lt.2 hreads)
  · refine ⟨B, ⟨.ok (changed || decide (s.rewrites > 0)), s.program, s.fuel⟩, _, rfl,
      fun options hb => ?_⟩
    rw [optimizeMethods, hdecl, hg]
    change ((analysis .declared).integrate options fuel g p >>= _) = _
    rw [hrun options hb]
    rfl

end Optimize

/-- A sum of `n + 1` times the same leaf, from the handle `start` on. -/
def repeated (leaf : Expr) (start n : Nat) : List Expr :=
  leaf :: (List.range n).flatMap fun i =>
    [leaf, .binary .add ⟨start + 2 * i⟩ ⟨start + 2 * i + 1⟩]

/-- A method that stores a sum of 33 ones and returns a sum of 33 reads of it. -/
def sampleSquare : Program where
  vars := ⟨#[{ name := "v", type := .int, kind := .ofMethod }]⟩
  methods := ⟨#[{ name := "square", returns := .int, params := [], isPure := true, body := some ⟨2⟩ }]⟩
  exprs := ⟨(repeated (.int 1) 0 32 ++ repeated (.var ⟨0⟩) 65 32).toArray⟩
  stmts := ⟨#[.declare ⟨0⟩ (some ⟨64⟩), .ret (some ⟨129⟩), .block [⟨0⟩, ⟨1⟩]]⟩

theorem sampleSquare_isTree : sampleSquare.IsTree :=
  Program.isTree_of_check (show sampleSquare.checksAsTree 40 = true by decide +kernel)

theorem sampleSquare_storesSum : sampleSquare.StoresSum ⟨0⟩ ⟨0⟩ ⟨2⟩ ⟨0⟩ ⟨1⟩ ⟨64⟩ ⟨129⟩ where
  addsUp o x hx := by
    have hall : sampleSquare.exprs.values.all (Expr.addsUp ⟨0⟩) = true := by decide +kernel
    exact List.all_eq_true.1 hall x (Program.mem_values hx)
  tracked := rfl
  mem := List.mem_singleton_self _
  block := rfl
  store := rfl
  ret := rfl
  avoids _ hl := hl.avoids_of_references (by decide +kernel)

theorem exists_optimize_sampleSquare : ∃ B o changed, o.outcome = .ok changed ∧
    ∀ options : Options, B ≤ options.bound →
      optimize .declared options Fuel.infinite sampleSquare = .ok o := by
  have hreads : (Graph.ofMethod sampleSquare ⟨0⟩).map (·.map Graph.reads) = .ok (.ok 33) := by
    decide +kernel
  match hg : Graph.ofMethod sampleSquare ⟨0⟩ with
  | .ok (.ok g) =>
    rw [hg] at hreads
    have hreads : g.reads = 33 := Except.ok.inj (Except.ok.inj hreads)
    exact exists_optimizeMethods_singleton sampleSquare_isTree rfl hg (by rw [hreads]; decide) false
  | .ok (.error e) =>
    rw [hg] at hreads
    cases hreads
  | .error fault =>
    rw [hg] at hreads
    cases hreads

/-- Sixteen times the fuel is not enough for this method after inlining. -/
theorem evaluate_sixteenfold_runs_out : sampleSquare.IsTree ∧
    (∀ method body, (method, body) ∈ sampleSquare.bodies → sampleSquare.AssignsVariables body) ∧
    sampleSquare.evaluate ⟨0⟩ [] 133 = .ok (some ⟨some 1089, []⟩) ∧
    ∃ B o changed, o.outcome = .ok changed ∧
      (∀ options : Options, B ≤ options.bound →
        optimize .declared options Fuel.infinite sampleSquare = .ok o) ∧
      ∀ outcome, o.program.evaluate ⟨0⟩ [] (16 * 133) ≠ .ok (some outcome) := by
  have hsum := sampleSquare_storesSum
  have hvars : ∀ body, sampleSquare.AssignsVariables body := by
    intro body e x _ hx t ht
    have hinert := Program.inert_of_addsUp hsum.addsUp [e] e List.mem_cons_self x hx
    rw [Expr.targets_of_inert hinert.1] at ht
    cases ht
  have hloops : sampleSquare.LoopsStir := by
    rintro _ _ ⟨i⟩ condition t _ hst
    match i, hst with
    | 0, hst | 1, hst | 2, hst | _ + 3, hst => cases hst
  have heval : sampleSquare.evaluate ⟨0⟩ [] 133 = .ok (some ⟨some 1089, []⟩) := by decide +kernel
  obtain ⟨B, o, changed, houtcome, hrun⟩ := exists_optimize_sampleSquare
  refine ⟨sampleSquare_isTree, fun _ body _ => hvars body, heval, B, o, changed, houtcome, hrun,
    fun outcome hfinal => ?_⟩
  have ho := hrun { bound := B } (Nat.le_refl B)
  -- The method still returns 1089, and it takes more than twice as much fuel to count to that.
  obtain ⟨fuel, hfuel⟩ := (sameRuns_of_optimizeMethods sampleSquare_isTree (fun body _ => hvars body)
    ho).exists_evaluate_iff.1 ⟨133, heval⟩
  obtain rfl := Program.evaluate_unique hfuel hfinal
  obtain ⟨r, hsum', hspells⟩ :=
    exists_storesSum_of_optimize sampleSquare_isTree hloops hsum ho houtcome
  have hlt := hsum'.two_mul_lt_of_evaluate hspells (show 1089 < UInt64.size by decide) hfinal
  omega

end Inlining

end Dataflow
