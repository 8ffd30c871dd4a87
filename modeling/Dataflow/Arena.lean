import Dataflow.Handle

/-!
# Arenas

An arena is a row of slots that only grows: `push` fills the next slot, whose
handle is `next`, and a slot once filled may be overwritten (`set`) but is never
taken away. So a handle that names a slot names it for good.

An arena has room for any number of slots here. One whose handles are 32-bit
numbers is full at `Handle.limit` slots, and a `push` to it has no answer; that,
like running out of memory, is not modelled. What is proved about programs and
graphs is about runs that do not come that far.
-/

namespace Dataflow

/-- A growing row of slots holding an `α` each, named by handles. -/
structure Arena (name : String) (α : Type) where
  /-- The slots, in order. -/
  items : Array α := #[]
  deriving DecidableEq

namespace Arena

variable {name : String} {α : Type}

/-- The number of slots. -/
def size (a : Arena name α) : Nat := a.items.size

/-- Whether there are no slots. -/
def isEmpty (a : Arena name α) : Bool := a.items.isEmpty

/-- The handle of the slot that the next `push` fills. It may be at or past `Handle.limit`: unlike
    `Handle.ofIndex`, an arena does not look at the limit. -/
def next (a : Arena name α) : Handle name := ⟨a.items.size⟩

/-- The arena with one more slot, holding `x`. There always is one more: running out of positions
    for slots is not modelled. -/
def push (a : Arena name α) (x : α) : Arena name α := ⟨a.items.push x⟩

/-- What the slot `h` holds, if there is such a slot. -/
def get? (a : Arena name α) (h : Handle name) : Option α := a.items[h.index]?

/-- What the slot `h` holds. -/
def get (a : Arena name α) (h : Handle name) : Run α :=
  match a.get? h with
  | some x => .ok x
  | none => .error .badHandle

/-- The arena with the content of the slot `h` changed by `f`; without such a
    slot, the same arena. -/
def modify (a : Arena name α) (h : Handle name) (f : α → α) : Arena name α :=
  ⟨a.items.modify h.index f⟩

/-- The arena with `x` in the slot `h`. -/
def set (a : Arena name α) (h : Handle name) (x : α) : Run (Arena name α) :=
  if h.index < a.items.size then .ok (a.modify h fun _ => x) else .error .badHandle

/-- Whether `h` names a slot. -/
def contains (a : Arena name α) (h : Handle name) : Bool := decide (h.index < a.items.size)

/-- The handles of the slots, in order. -/
def handles (a : Arena name α) : List (Handle name) :=
  (List.range a.items.size).map fun i => ⟨i⟩

/-- The contents of the slots, in order. -/
def values (a : Arena name α) : List α := a.items.toList

/-- The slots, in order, each with its handle. -/
def entries (a : Arena name α) : List (Handle name × α) := a.handles.zip a.values

/-! ### What a slot holds -/

@[simp] theorem size_push (a : Arena name α) (x : α) : (a.push x).size = a.size + 1 := by
  simp [size, push]

theorem get?_push (a : Arena name α) (x : α) (h : Handle name) :
    (a.push x).get? h = if h = a.next then some x else a.get? h := by
  simp only [get?, push, next, Array.getElem?_push, ← Handle.index_inj]

theorem get?_eq_none_iff (a : Arena name α) (h : Handle name) :
    a.get? h = none ↔ a.size ≤ h.index := by
  simp [get?, size]

@[simp] theorem size_modify (a : Arena name α) (h : Handle name) (f : α → α) :
    (a.modify h f).size = a.size := by
  simp [size, modify]

theorem get?_modify (a : Arena name α) (h k : Handle name) (f : α → α) :
    (a.modify h f).get? k = if h = k then (a.get? k).map f else a.get? k := by
  simp only [get?, modify, Array.getElem?_modify, Handle.index_inj]

end Arena

end Dataflow
