import Dataflow.Proofs.ExactSolving
import Dataflow.Proofs.UpdateBounds

/-!
# Inlining as a distributive framework

About a variable a fact says one of three things: nothing, that it has a certain value, or that its
value is unknown. A fact that says nothing is no least one: where it meets a fact with a value, the
variable is unknown. So there is one step up at most for each variable, whatever a fact says about
it, and a chain of facts is no longer than there are variables (`Known.length_add_unknowns_le`).

What an operation does to a fact is told variable by variable, so it may be done before facts meet
as well as afterwards (`transfer_join`).

* `distributive_framework`: the laws of joins, the length of chains, and both of these for every
  operation.
-/

namespace Dataflow.Inlining

namespace Known

theorem lawful : Fact.Lawful Known where
  join_self := sup_idem (α := Known)
  join_comm := sup_comm (α := Known)
  join_assoc := sup_assoc (α := Known)

/-- Each step of an ascending chain makes a variable unknown that was not so before. -/
theorem length_add_unknowns_le {vs : Finset VarId} {a : Known} {chain : List Known}
    (habout : ∀ k ∈ a :: chain, k ∈ about vs) (hchain : (a :: chain).IsChain (· < ·)) :
    chain.length + a.unknowns vs ≤ vs.card := by
  induction chain generalizing a with
  | nil =>
    rw [List.length_nil, Nat.zero_add]
    exact a.unknowns_le
  | cons b chain ih =>
    obtain ⟨hab, hrest⟩ := List.isChain_cons_cons.1 hchain
    obtain ⟨ha, hbs⟩ := List.forall_mem_cons.1 habout
    have hlt : a.unknowns vs < b.unknowns vs :=
      unknowns_strictMonoOn vs ha (hbs b List.mem_cons_self) hab
    have hle := ih hbs hrest
    rw [List.length_cons]
    omega

end Known

/-- An operation may be done before facts meet as well as afterwards. -/
theorem transfer_join (oracle : Oracle) (p : Program) (kind : NodeKind) (a b : Known) :
    transfer oracle p kind (a.join b) = (do
      return (← transfer oracle p kind a).join (← transfer oracle p kind b)) := by
  rw [transfer_eq, transfer_eq, transfer_eq]
  cases effect oracle p kind with
  | error fault => rfl
  | ok f => exact congrArg Except.ok f.apply_join

theorem transfer_below {oracle : Oracle} {p : Program} {kind : NodeKind} {a b a' b' : Known}
    (hab : Fact.Below a b) (ha : transfer oracle p kind a = .ok a')
    (hb : transfer oracle p kind b = .ok b') : Fact.Below a' b' := by
  have hjoin := transfer_join oracle p kind a b
  rw [show a.join b = b from hab, ha, hb] at hjoin
  exact (Except.ok.inj hjoin).symm

/-- The facts of inlining and its operations form a distributive framework. Joining facts is
    commutative, associative and idempotent. A strictly ascending chain of facts about certain
    variables takes at most as many steps as there are such variables. And every operation, in any
    program and with any oracle, distributes over joins, so that it is monotone. -/
theorem distributive_framework (a b c : Known) :
    (a.join b = b.join a ∧ (a.join b).join c = a.join (b.join c) ∧ a.join a = a) ∧
    (∀ (vs : Finset VarId) (chain : List Known), (∀ k ∈ a :: chain, ∀ u ∈ k.keys, u ∈ vs) →
      (a :: chain).IsChain (fun k k' => Fact.Below k k' ∧ k ≠ k') → chain.length ≤ vs.card) ∧
    ∀ (oracle : Oracle) (p : Program) (kind : NodeKind),
      transfer oracle p kind (a.join b) = (do
        return (← transfer oracle p kind a).join (← transfer oracle p kind b)) ∧
      (Fact.Below a b → ∀ a' b', transfer oracle p kind a = .ok a' →
        transfer oracle p kind b = .ok b' → Fact.Below a' b') := by
  refine ⟨⟨Known.lawful.join_comm a b, Known.lawful.join_assoc a b c, Known.lawful.join_self a⟩,
    fun vs chain hkeys hchain => ?height, fun oracle p kind => ⟨transfer_join oracle p kind a b,
      fun hab a' b' ha hb => transfer_below hab ha hb⟩⟩
  case height =>
    have habout : ∀ k ∈ a :: chain, k ∈ Known.about vs := fun k hk u hu =>
      hkeys k hk u (HandleMap.mem_keys_iff.2 hu)
    have hlt : (a :: chain).IsChain (· < ·) := 
      hchain.imp fun _ _ h => lt_of_le_of_ne (Known.le_iff.2 h.1) h.2
    have hlength := Known.length_add_unknowns_le habout hlt
    omega

/-- Of two variables one has a value and nothing is said of the other. Both become unknown, one after
    the other, and a write of the first one makes its value known again. -/
theorem distributive_framework_two :
    let a : Known := Known.learn {} ⟨0⟩ ⟨0⟩
    let b : Known := a.forget ⟨1⟩
    let c : Known := b.forget ⟨0⟩
    let vs : Finset VarId := {⟨0⟩, ⟨1⟩}
    (∀ k ∈ [a, b, c], ∀ u ∈ k.keys, u ∈ vs) ∧
    [a, b, c].IsChain (fun k k' => Fact.Below k k' ∧ k ≠ k') ∧ [b, c].length ≤ vs.card ∧
    ∃ b' c', transfer .declared sampleLoop (.write ⟨0⟩ ⟨2⟩) b = .ok b' ∧
      transfer .declared sampleLoop (.write ⟨0⟩ ⟨2⟩) c = .ok c' ∧
      c'.value ⟨0⟩ = some ⟨2⟩ ∧ Fact.Below b' c' := by
  intro a b c vs
  have hkeys : ∀ k ∈ [a, b, c], ∀ u ∈ k.keys, u ∈ vs := by decide
  have hab : Fact.Below a b := show a.join b = b by decide
  have hbc : Fact.Below b c := show b.join c = c by decide
  have hchain : [a, b, c].IsChain (fun k k' => Fact.Below k k' ∧ k ≠ k') :=
    .cons_cons ⟨hab, by decide⟩ (.cons_cons ⟨hbc, by decide⟩ (.singleton c))
  refine ⟨hkeys, hchain, (distributive_framework a b c).2.1 vs [b, c] hkeys hchain, _, _, rfl, rfl, rfl, ?_⟩
  exact ((distributive_framework b c c).2.2 .declared sampleLoop (.write ⟨0⟩ ⟨2⟩)).2 hbc _ _ rfl rfl

end Dataflow.Inlining
