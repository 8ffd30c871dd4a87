import Dataflow.Run

/-!
# Handles

A handle is the position of a slot in an arena. Handles of different arenas are
kept apart by the word they are printed with: the third expression is `expr2`,
the third statement `stmt2`. A handle never keeps the slot alive, and it may
name a slot that is not there.

A handle made from a number has a position short of `Handle.limit`
(`Handle.ofIndex`), which is the position of the one handle that is *invalid* in
every arena. That an arena may run out of positions is not modelled: see
`Arena.push`.
-/

namespace Dataflow

/-- A handle to a slot of an arena whose handles are printed with the word `name`. -/
structure Handle (name : String) where
  /-- The position of the slot. -/
  index : Nat
  deriving DecidableEq, Repr

namespace Handle

variable {name : String}

instance : LawfulBEq (Handle name) := inferInstance

/-- The number of positions that a handle made from a number may have. -/
def limit : Nat := UInt32.size - 1

/-- The handle of the slot at position `i`, which has to be short of the limit. -/
def ofIndex (i : Nat) : Run (Handle name) :=
  if i < limit then .ok ⟨i⟩ else .error .badHandle

/-- The handle that names nothing in any arena of at most `limit` slots. -/
def invalid : Handle name := ⟨limit⟩

/-- Whether the handle is not the invalid one. -/
def isValid (h : Handle name) : Bool := h != invalid

/-- The text of a handle: its word, then its position. -/
def text (h : Handle name) : String := name ++ toString h.index

instance : ToString (Handle name) := ⟨text⟩

instance : Ord (Handle name) := ⟨fun a b => compare a.index b.index⟩

instance : LT (Handle name) := ⟨fun a b => a.index < b.index⟩

instance (a b : Handle name) : Decidable (a < b) := inferInstanceAs (Decidable (a.index < b.index))

theorem lt_def {a b : Handle name} : a < b ↔ a.index < b.index := Iff.rfl

theorem lt_irrefl (a : Handle name) : ¬ a < a := Nat.lt_irrefl _

theorem lt_trans {a b c : Handle name} (hab : a < b) (hbc : b < c) : a < c := Nat.lt_trans hab hbc

theorem ne_of_lt {a b : Handle name} (h : a < b) : a ≠ b := fun hab => lt_irrefl b (hab ▸ h)

theorem index_inj {a b : Handle name} : a.index = b.index ↔ a = b := by
  cases a; cases b; simp

/-- Of two distinct handles one comes first. -/
theorem lt_or_gt_of_ne {a b : Handle name} (h : a ≠ b) : a < b ∨ b < a :=
  Nat.lt_or_gt_of_ne fun hi => h (index_inj.1 hi)

end Handle

end Dataflow
