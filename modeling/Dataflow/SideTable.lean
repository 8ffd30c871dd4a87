import Dataflow.Handle

/-!
# Side tables

A side table keeps something beside every slot of an arena that lives elsewhere.
A slot never written reads as the default value, and writing one brings along
all the slots before it.
-/

namespace Dataflow

/-- A table keyed by handles that reads as `default` where nothing was written. -/
structure SideTable (name : String) (α : Type) where
  /-- The slots up to the last one written. -/
  slots : Array α := #[]
  deriving DecidableEq

namespace SideTable

variable {name : String} {α : Type}

/-- What stands at `h`. -/
def get [Inhabited α] (t : SideTable name α) (h : Handle name) : α :=
  t.slots.getD h.index default

/-- The table with `x` at `h`. -/
def set [Inhabited α] (t : SideTable name α) (h : Handle name) (x : α) : SideTable name α :=
  ⟨(t.slots ++ Array.replicate (h.index + 1 - t.slots.size) default).setIfInBounds h.index x⟩

/-- The table with what stands at `h` changed by `f`. -/
def modify [Inhabited α] (t : SideTable name α) (h : Handle name) (f : α → α) :
    SideTable name α :=
  t.set h (f (t.get h))

/-- The slots up to the last one written, in order, each with its handle. -/
def entries (t : SideTable name α) : List (Handle name × α) :=
  t.slots.toList.zipIdx.map fun (x, i) => (⟨i⟩, x)

@[simp] theorem get_empty [Inhabited α] (h : Handle name) :
    (({} : SideTable name α).get h) = default := by
  simp [get]

/-- Behind the last slot written there is nothing but the default value. -/
theorem get_of_size_le [Inhabited α] {t : SideTable name α} {h : Handle name}
    (hle : t.slots.size ≤ h.index) : t.get h = default := by
  simp [get, Array.getElem?_eq_none hle]

/-- A write is seen at its handle and nowhere else. -/
theorem get_set [Inhabited α] (t : SideTable name α) (h k : Handle name) (x : α) :
    (t.set h x).get k = if h = k then x else t.get k := by
  simp only [get, set, Array.getD_eq_getD_getElem?, Array.getElem?_setIfInBounds,
    Array.getElem?_append, Array.getElem?_replicate, Array.size_append, Array.size_replicate,
    Handle.index_inj]
  by_cases hk : h = k
  · subst hk
    rw [if_pos rfl, if_pos rfl, if_pos (by omega)]
    rfl
  · rw [if_neg hk, if_neg hk]
    by_cases hlt : k.index < t.slots.size
    · rw [if_pos hlt]
    · rw [if_neg hlt, Array.getElem?_eq_none (by omega)]
      split <;> rfl

theorem get_modify [Inhabited α] (t : SideTable name α) (h k : Handle name) (f : α → α) :
    (t.modify h f).get k = if h = k then f (t.get h) else t.get k := by
  rw [modify, get_set]

end SideTable

end Dataflow
