import Mathlib.Order.Basic
import Zeth.Foundation.Dict

/-!
# Ordered maps

The map of the C++ library: entries with distinct keys in increasing order. An iterator is the key of
the entry it stands at, or `none` at the end. It stays valid when entries are added, and its
successor is the next larger key at the time of the step.

A loop that walks from one iterator to another and adds entries below the place where it stands sees
the entries that were there when it began. `OrderedMap.Split` describes a map at a place in this way:
what is before the place may change, the rest does not.

## Main definitions

* `OrderedMap`, `OrderedMap.find`, `OrderedMap.set`.
* `OrderedMap.begin`, `OrderedMap.next`.
* `OrderedMap.Split`: the entries from an iterator on.

## Main results

* `OrderedMap.find_set`, `OrderedMap.find_foldl_set`.
* `OrderedMap.Split.next`, `OrderedMap.Split.set`: a step of a loop, and an entry added below it.
-/

/-- Entries in the order of their keys. -/
structure OrderedMap (κ α : Type*) [LinearOrder κ] where
  entries : List (κ × α)
  sorted : entries.Pairwise fun p q => p.1 < q.1

namespace OrderedMap

open List

variable {κ α : Type*} [LinearOrder κ]

/-! ### Entries -/

/-- An entry at its place, over the entry with this key if there is one. -/
def insertEntry (k : κ) (v : α) : List (κ × α) → List (κ × α)
  | [] => [(k, v)]
  | p :: l =>
    if k < p.1 then (k, v) :: p :: l
    else if p.1 = k then (k, v) :: l
    else p :: insertEntry k v l

theorem mem_insertEntry {k : κ} {v : α} {l : List (κ × α)} {p : κ × α}
    (hp : p ∈ insertEntry k v l) : p = (k, v) ∨ p ∈ l := by
  induction l with
  | nil => exact .inl (mem_singleton.mp hp)
  | cons e l ih =>
    rw [insertEntry] at hp
    split_ifs at hp
    · exact mem_cons.mp hp
    · rcases mem_cons.mp hp with rfl | hp
      · exact .inl rfl
      · exact .inr (mem_cons_of_mem _ hp)
    · rcases mem_cons.mp hp with rfl | hp
      · exact .inr mem_cons_self
      · exact (ih hp).imp_right (mem_cons_of_mem _)

theorem pairwise_insertEntry (k : κ) (v : α) {l : List (κ × α)}
    (hl : l.Pairwise fun p q => p.1 < q.1) :
    (insertEntry k v l).Pairwise fun p q => p.1 < q.1 := by
  induction l with
  | nil => exact pairwise_singleton _ _
  | cons e l ih =>
    obtain ⟨he, hl'⟩ := pairwise_cons.mp hl
    rw [insertEntry]
    split_ifs with hlt heq
    · refine pairwise_cons.mpr ⟨fun p hp => ?_, hl⟩
      rcases mem_cons.mp hp with rfl | hp
      · exact hlt
      · exact hlt.trans (he p hp)
    · exact pairwise_cons.mpr ⟨heq ▸ he, hl'⟩
    · refine pairwise_cons.mpr ⟨fun p hp => ?_, ih hl'⟩
      rcases mem_insertEntry hp with rfl | hp
      · exact lt_of_le_of_ne (not_lt.mp hlt) heq
      · exact he p hp

theorem lookup_cons_of_ne {k k' : κ} (v : α) (l : List (κ × α)) (h : k' ≠ k) :
    ((k, v) :: l).lookup k' = l.lookup k' := by
  rw [lookup_cons, beq_false_of_ne h]

theorem lookup_insertEntry_self (k : κ) (v : α) (l : List (κ × α)) :
    (insertEntry k v l).lookup k = some v := by
  induction l with
  | nil => exact lookup_cons_self
  | cons e l ih =>
    rw [insertEntry]
    split_ifs with hlt heq
    · exact lookup_cons_self
    · exact lookup_cons_self
    · exact (lookup_cons_of_ne e.2 _ (Ne.symm heq)).trans ih

theorem lookup_insertEntry_of_ne {k k' : κ} (v : α) (l : List (κ × α)) (h : k' ≠ k) :
    (insertEntry k v l).lookup k' = l.lookup k' := by
  induction l with
  | nil => exact lookup_cons_of_ne v [] h
  | cons e l ih =>
    obtain ⟨k₀, v₀⟩ := e
    rw [insertEntry]
    split_ifs with hlt heq
    · exact lookup_cons_of_ne v _ h
    · rw [lookup_cons_of_ne v _ h, lookup_cons_of_ne v₀ _ fun hk => h (hk.trans heq)]
    · rw [lookup_cons, lookup_cons, ih]

theorem insertEntry_append {k : κ} {v : α} (before : List (κ × α)) {rest : List (κ × α)}
    (hrest : ∀ p ∈ rest, k < p.1) :
    insertEntry k v (before ++ rest) = insertEntry k v before ++ rest := by
  induction before with
  | nil =>
    cases rest with
    | nil => rfl
    | cons p rest =>
      exact if_pos (hrest p mem_cons_self)
  | cons p before ih =>
    simp only [cons_append, insertEntry]
    split_ifs <;> simp only [cons_append, ih]

/-! ### Maps -/

/-- The map without entries. -/
def empty : OrderedMap κ α := ⟨[], List.Pairwise.nil⟩

/-- `find`, with `none` for the end. -/
def find (m : OrderedMap κ α) (k : κ) : Option α := m.entries.lookup k

/-- `m[k] = v`. -/
def set (m : OrderedMap κ α) (k : κ) (v : α) : OrderedMap κ α :=
  ⟨insertEntry k v m.entries, pairwise_insertEntry k v m.sorted⟩

@[simp] theorem find_empty (k : κ) : (empty : OrderedMap κ α).find k = none := rfl

@[simp] theorem find_set_self (m : OrderedMap κ α) (k : κ) (v : α) : (m.set k v).find k = some v :=
  lookup_insertEntry_self k v m.entries

theorem find_set_of_ne (m : OrderedMap κ α) {k k' : κ} (v : α) (h : k' ≠ k) :
    (m.set k v).find k' = m.find k' :=
  lookup_insertEntry_of_ne v m.entries h

theorem find_set (m : OrderedMap κ α) (k : κ) (v : α) (k' : κ) :
    (m.set k v).find k' = if k' = k then some v else m.find k' := by
  split_ifs with h
  · rw [h, find_set_self]
  · exact m.find_set_of_ne v h

/-- Assignments one after the other. -/
theorem find_foldl_set (l : List (κ × α)) (m : OrderedMap κ α) (k : κ) :
    (l.foldl (fun m p => m.set p.1 p.2) m).find k = (l.reverse.lookup k).or (m.find k) := by
  induction l generalizing m with
  | nil => rfl
  | cons p l ih =>
    rw [foldl_cons, ih, reverse_cons, lookup_append, Option.or_assoc]
    congr 1
    by_cases hk : k = p.1
    · rw [hk, find_set_self]
      exact (congrArg (Option.or · _) lookup_cons_self).symm
    · rw [find_set_of_ne _ _ hk]
      exact (congrArg (Option.or · _) (lookup_cons_of_ne p.2 [] hk)).symm

/-- With distinct keys the order of entries does not matter to a lookup. -/
theorem lookup_perm {l l' : List (κ × α)} (h : l.Perm l') (hnodup : (l.map Prod.fst).Nodup) (k : κ) :
    l.lookup k = l'.lookup k := by
  have hnodup' : (l'.map Prod.fst).Nodup := (h.map Prod.fst).nodup_iff.mp hnodup
  by_cases hk : k ∈ l.map Prod.fst
  · obtain ⟨⟨_, v⟩, hmem, rfl⟩ := mem_map.mp hk
    rw [Python.lookup_of_mem hnodup hmem, Python.lookup_of_mem hnodup' (h.mem_iff.mp hmem)]
  · rw [Python.lookup_eq_none hk, Python.lookup_eq_none fun hk' => hk ((h.map _).mem_iff.mpr hk')]

theorem lookup_reverse {l : List (κ × α)} (hnodup : (l.map Prod.fst).Nodup) (k : κ) :
    l.reverse.lookup k = l.lookup k := by
  refine lookup_perm l.reverse_perm ?_ k
  rw [map_reverse]
  exact nodup_reverse.mpr hnodup

/-- The map that holds the entries of a list, later ones over earlier ones. -/
def ofList (l : List (κ × α)) : OrderedMap κ α := l.foldl (fun m p => m.set p.1 p.2) empty

theorem nodup_keys (m : OrderedMap κ α) : (m.entries.map Prod.fst).Nodup :=
  pairwise_map.mpr (m.sorted.imp fun h => h.ne)

/-- The entries of a map, assigned to another one. -/
theorem find_foldl_entries (m m' : OrderedMap κ α) (k : κ) :
    (m.entries.foldl (fun m p => m.set p.1 p.2) m').find k = (m.find k).or (m'.find k) := by
  rw [find_foldl_set, lookup_reverse m.nodup_keys, ← find]

theorem find_ofList {l : List (κ × α)} (hnodup : (l.map Prod.fst).Nodup) (k : κ) :
    (ofList l).find k = l.lookup k := by
  rw [ofList, find_foldl_set, find_empty, Option.or_none, lookup_reverse hnodup]

/-- `begin()`. -/
def begin (m : OrderedMap κ α) : Option κ := m.entries.head?.map Prod.fst

/-- The successor of the iterator at a key. -/
def next (m : OrderedMap κ α) (k : κ) : Option κ :=
  (m.entries.find? fun p => decide (k < p.1)).map Prod.fst

/-! ### Places in a map -/

/-- The map consists of the entries from a place on, and of others before it. -/
def Split (m : OrderedMap κ α) (rest : List (κ × α)) : Prop := ∃ before, m.entries = before ++ rest

theorem split_entries (m : OrderedMap κ α) : m.Split m.entries := ⟨[], rfl⟩

variable {m : OrderedMap κ α} {k : κ} {v : α} {rest : List (κ × α)}

theorem Split.sorted (h : m.Split rest) : rest.Pairwise fun p q => p.1 < q.1 := by
  obtain ⟨before, hm⟩ := h
  exact (pairwise_append.mp (hm ▸ m.sorted)).2.1

theorem Split.tail (h : m.Split ((k, v) :: rest)) : m.Split rest := by
  obtain ⟨before, hm⟩ := h
  exact ⟨before ++ [(k, v)], by rw [hm, append_assoc]; rfl⟩

theorem Split.lt_of_mem (h : m.Split ((k, v) :: rest)) {p : κ × α} (hp : p ∈ rest) : k < p.1 :=
  (pairwise_cons.mp h.sorted).1 p hp

theorem Split.find (h : m.Split ((k, v) :: rest)) : m.find k = some v := by
  obtain ⟨before, hm⟩ := h
  have hsorted := pairwise_append.mp (hm ▸ m.sorted)
  refine lookup_eq_some_iff.mpr ⟨before, rest, hm, fun p hp => bne_iff_ne.mpr ?_⟩
  exact (hsorted.2.2 p hp (k, v) mem_cons_self).ne'

theorem Split.next (h : m.Split ((k, v) :: rest)) : m.next k = rest.head?.map Prod.fst := by
  obtain ⟨before, hm⟩ := h
  have hsorted := pairwise_append.mp (hm ▸ m.sorted)
  have hbefore : before.find? (fun p => decide (k < p.1)) = none := by
    rw [List.find?_eq_none]
    intro p hp hlt
    exact lt_asymm (of_decide_eq_true hlt) (hsorted.2.2 p hp (k, v) mem_cons_self)
  rw [OrderedMap.next, hm, List.find?_append, hbefore, Option.none_or,
    List.find?_cons_of_neg (by simp)]
  cases rest with
  | nil => rfl
  | cons p rest =>
    have hp : k < p.1 := (pairwise_cons.mp hsorted.2.1).1 p mem_cons_self
    rw [List.find?_cons_of_pos (by simpa using hp), List.head?_cons]

/-- An entry added below the place. -/
theorem Split.set (h : m.Split rest) (hrest : ∀ p ∈ rest, k < p.1) (v : α) :
    (m.set k v).Split rest := by
  obtain ⟨before, hm⟩ := h
  exact ⟨insertEntry k v before, (congrArg _ hm).trans (insertEntry_append before hrest)⟩

end OrderedMap
