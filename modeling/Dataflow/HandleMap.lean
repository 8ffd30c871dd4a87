import Dataflow.Handle

/-!
# Finite maps from handles

A finite map keyed by handles is kept as a list of entries with increasing keys.
Two maps with the same entries are then the same value (`HandleMap.ext_find?`),
so equality of maps can be decided by comparing the lists.

* `find?_insert`, `find?_erase`, `find?_mapValues`, `find?_ofKeys`: what each operation does,
  seen through look-up;
* `HandleSet`: finite sets of handles, as maps to nothing.
-/

namespace Dataflow

/-- The first entry of a list under a key. -/
def findEntry {name : String} {β : Type} (k : Handle name) : List (Handle name × β) → Option β
  | [] => none
  | (l, v) :: rest => if k = l then some v else findEntry k rest

/-- A list of entries with increasing keys, with the entry under `k` replaced or put in its
    place. -/
def insertEntry {name : String} {β : Type} (k : Handle name) (v : β) :
    List (Handle name × β) → List (Handle name × β)
  | [] => [(k, v)]
  | (l, w) :: rest =>
    if k < l then (k, v) :: (l, w) :: rest
    else if k = l then (k, v) :: rest
    else (l, w) :: insertEntry k v rest

theorem increasing_nil (name : String) (β : Type) :
    ([] : List (Handle name × β)).Pairwise fun a b => a.1 < b.1 :=
  .nil

/-- A finite map from the handles of one arena to values of `β`. -/
structure HandleMap (name : String) (β : Type) where
  /-- The entries, by increasing key. -/
  toList : List (Handle name × β) := []
  /-- Keys increase along the list. -/
  increasing : toList.Pairwise fun a b => a.1 < b.1 := by exact increasing_nil _ _
  deriving DecidableEq

namespace HandleMap

variable {name : String} {β γ : Type}

theorem mem_insertEntry {k : Handle name} {v : β} {l : List (Handle name × β)}
    {e : Handle name × β} (h : e ∈ insertEntry k v l) : e = (k, v) ∨ e ∈ l := by
  induction l with
  | nil => exact .inl (by simpa [insertEntry] using h)
  | cons a l ih =>
    obtain ⟨m, w⟩ := a
    rw [insertEntry] at h
    split at h
    · simpa using h
    · split at h
      · rcases List.mem_cons.1 h with h | h
        · exact .inl h
        · exact .inr (List.mem_cons_of_mem _ h)
      · rcases List.mem_cons.1 h with h | h
        · exact .inr (h ▸ List.mem_cons_self)
        · exact (ih h).imp id (List.mem_cons_of_mem _)

theorem increasing_insertEntry {k : Handle name} {v : β} {l : List (Handle name × β)}
    (h : l.Pairwise fun a b => a.1 < b.1) :
    (insertEntry k v l).Pairwise fun a b => a.1 < b.1 := by
  induction l with
  | nil => simp [insertEntry]
  | cons a l ih =>
    obtain ⟨m, w⟩ := a
    rw [insertEntry]
    rw [List.pairwise_cons] at h
    split
    · -- The new entry comes first.
      next hk =>
      refine List.pairwise_cons.2 ⟨fun e he => ?_, List.pairwise_cons.2 h⟩
      rcases List.mem_cons.1 he with rfl | he
      · exact hk
      · exact Handle.lt_trans hk (h.1 e he)
    · split
      · -- It replaces the first entry.
        next hk =>
        subst hk
        exact List.pairwise_cons.2 h
      · -- It goes further down.
        next hlt hne =>
        refine List.pairwise_cons.2 ⟨fun e he => ?_, ih h.2⟩
        rcases mem_insertEntry he with rfl | he
        · exact (Handle.lt_or_gt_of_ne hne).resolve_left hlt
        · exact h.1 e he

/-- The value under `k`, if there is one. -/
def find? (m : HandleMap name β) (k : Handle name) : Option β := findEntry k m.toList

/-- Whether there is a value under `k`. -/
def contains (m : HandleMap name β) (k : Handle name) : Bool := (m.find? k).isSome

/-- The keys, in order. -/
def keys (m : HandleMap name β) : List (Handle name) := m.toList.map Prod.fst

/-- The map with `v` under `k`. -/
def insert (m : HandleMap name β) (k : Handle name) (v : β) : HandleMap name β where
  toList := insertEntry k v m.toList
  increasing := increasing_insertEntry m.increasing

/-- The map without a value under `k`. -/
def erase (m : HandleMap name β) (k : Handle name) : HandleMap name β where
  toList := m.toList.filter fun e => e.1 ≠ k
  increasing := m.increasing.sublist List.filter_sublist

/-- The map with every value changed by `f`. -/
def mapValues (m : HandleMap name β) (f : β → γ) : HandleMap name γ where
  toList := m.toList.map fun e => (e.1, f e.2)
  increasing := List.pairwise_map.2 m.increasing

/-- The map that holds `f k` under each `k` of a list. -/
def ofKeys (ks : List (Handle name)) (f : Handle name → β) : HandleMap name β :=
  ks.foldl (fun m k => m.insert k (f k)) {}

/-! ### Look-up -/

theorem findEntry_eq_none {k : Handle name} {l : List (Handle name × β)}
    (h : ∀ e ∈ l, e.1 ≠ k) : findEntry k l = none := by
  induction l with
  | nil => rfl
  | cons a l ih =>
    rw [findEntry, if_neg fun hk => h a List.mem_cons_self hk.symm]
    exact ih fun e he => h e (List.mem_cons_of_mem _ he)

theorem isSome_findEntry_iff {k : Handle name} {l : List (Handle name × β)} :
    (findEntry k l).isSome ↔ k ∈ l.map Prod.fst := by
  induction l with
  | nil => simp [findEntry]
  | cons a l ih =>
    by_cases hk : k = a.1
    · simp [findEntry, hk]
    · rw [findEntry, if_neg hk, ih, List.map_cons, List.mem_cons]
      exact ⟨.inr, fun h => h.resolve_left hk⟩

theorem mem_keys_iff {m : HandleMap name β} {k : Handle name} :
    k ∈ m.keys ↔ m.contains k = true :=
  isSome_findEntry_iff.symm

@[simp] theorem find?_empty (k : Handle name) : ({} : HandleMap name β).find? k = none := rfl

theorem find?_insert (m : HandleMap name β) (k j : Handle name) (v : β) :
    (m.insert k v).find? j = if k = j then some v else m.find? j := by
  obtain ⟨l, hl⟩ := m
  simp only [insert, find?]
  induction l with
  | nil => by_cases h : k = j <;> simp [insertEntry, findEntry, h, eq_comm]
  | cons a l ih =>
    obtain ⟨i, w⟩ := a
    simp only [insertEntry]
    split
    · by_cases h : k = j <;> simp [findEntry, h, eq_comm]
    · split
      · next hk =>
        subst hk
        by_cases h : k = j <;> simp [findEntry, h, eq_comm]
      · next hlt hne =>
        simp only [findEntry, ih (List.pairwise_cons.1 hl).2]
        by_cases hj : j = i
        · subst hj
          simp [hne]
        · simp [hj]

theorem find?_mapValues (m : HandleMap name β) (f : β → γ) (k : Handle name) :
    (m.mapValues f).find? k = (m.find? k).map f := by
  obtain ⟨l, hl⟩ := m
  simp only [mapValues, find?]
  clear hl
  induction l with
  | nil => rfl
  | cons a l ih =>
    rw [List.map_cons, findEntry, findEntry, ih]
    split <;> rfl

theorem find?_erase (m : HandleMap name β) (k j : Handle name) :
    (m.erase k).find? j = if k = j then none else m.find? j := by
  obtain ⟨l, hl⟩ := m
  simp only [erase, find?]
  clear hl
  by_cases hk : k = j
  · rw [if_pos hk]
    exact findEntry_eq_none fun e he => by simpa [hk] using (List.mem_filter.1 he).2
  · rw [if_neg hk]
    induction l with
    | nil => rfl
    | cons a l ih =>
      by_cases ha : a.1 = k
      · rw [List.filter_cons_of_neg (by simp [ha]), findEntry, ih, if_neg]
        exact fun hj => hk (ha.symm.trans hj.symm)
      · rw [List.filter_cons_of_pos (by simp [ha]), findEntry, findEntry, ih]

theorem find?_ofKeys (ks : List (Handle name)) (f : Handle name → β) (k : Handle name) :
    (ofKeys ks f).find? k = if k ∈ ks then some (f k) else none := by
  suffices h : ∀ m : HandleMap name β,
      (ks.foldl (fun m k => m.insert k (f k)) m).find? k =
        if k ∈ ks then some (f k) else m.find? k by
    simpa [ofKeys] using h {}
  induction ks with
  | nil => simp
  | cons a ks ih =>
    intro m
    rw [List.foldl_cons, ih, find?_insert]
    by_cases ha : a = k
    · simp [ha]
    · simp [ha, Ne.symm ha]

/-- A map is determined by what it holds under each key. -/
theorem ext_find? {m n : HandleMap name β} (h : ∀ k, m.find? k = n.find? k) : m = n := by
  obtain ⟨l, hl⟩ := m
  obtain ⟨r, hr⟩ := n
  simp only [mk.injEq]
  simp only [find?] at h
  induction l generalizing r with
  | nil =>
    cases r with
    | nil => rfl
    | cons b r => simpa [findEntry] using h b.1
  | cons a l ih =>
    cases r with
    | nil => simpa [findEntry] using h a.1
    | cons b r =>
      obtain ⟨i, v⟩ := a
      obtain ⟨j, w⟩ := b
      rw [List.pairwise_cons] at hl hr
      have hi := h i
      have hj := h j
      simp only [findEntry, if_true] at hi hj
      -- Either list has its least key first, so the first keys agree.
      have hij : i = j := by
        refine Classical.byContradiction fun hne => ?_
        rcases Handle.lt_or_gt_of_ne hne with hlt | hlt
        · rw [if_neg hne, findEntry_eq_none fun e he hk =>
            Handle.ne_of_lt (Handle.lt_trans hlt (hr.1 e he)) hk.symm] at hi
          cases hi
        · rw [if_neg (Ne.symm hne), findEntry_eq_none fun e he hk =>
            Handle.ne_of_lt (Handle.lt_trans hlt (hl.1 e he)) hk.symm] at hj
          cases hj
      subst hij
      rw [if_pos rfl] at hi
      cases hi
      refine congrArg _ (ih hl.2 r hr.2 fun k => ?_)
      have hk := h k
      simp only [findEntry] at hk
      by_cases hki : k = i
      · subst hki
        rw [findEntry_eq_none fun e he => (Handle.ne_of_lt (hl.1 e he)).symm,
          findEntry_eq_none fun e he => (Handle.ne_of_lt (hr.1 e he)).symm]
      · rwa [if_neg hki, if_neg hki] at hk

end HandleMap

/-- A finite set of handles of one arena. -/
abbrev HandleSet (name : String) := HandleMap name Unit

namespace HandleSet

variable {name : String}

/-- The set of the handles of a list. -/
def ofList (hs : List (Handle name)) : HandleSet name := HandleMap.ofKeys hs fun _ => ()

/-- The members of either set. -/
def union (a b : HandleSet name) : HandleSet name := ofList (a.keys ++ b.keys)

/-- The members of both sets. -/
def inter (a b : HandleSet name) : HandleSet name := ofList (a.keys.filter b.contains)

end HandleSet

end Dataflow
