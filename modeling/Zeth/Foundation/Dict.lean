import Mathlib.Data.List.Nodup
import Zeth.Foundation.Python

/-!
# Dictionaries of Python

A dictionary is the list of its entries in the order of insertion (`Python.dictSet`). Assignment
and deletion are described by the entries before and after them, and they keep the keys distinct.

Where every value determines the key it is stored under, a dictionary is described by the set of its
values (`Python.Keyed`).

## Main definitions

* `Python.dictErase`, `Python.delItem`.
* `Python.Keyed`: the dictionary of the values with a property.

## Main results

* `Python.mem_dictSet`, `Python.mem_dictErase`: the entries after a change.
* `Python.foldl_dictSet`: new keys are appended.
* `Python.Keyed.set`, `Python.Keyed.erase`, `Python.Keyed.lookup`, `Python.Keyed.perm`.
* `Python.Keyed.filter_keys_of_unique`: the keys that match a pattern.
-/

namespace Python

open List

variable {α β : Type*} [DecidableEq α] {d : List (α × β)} {key : α}

/-- The entries under other keys. -/
def dictErase (d : List (α × β)) (key : α) : List (α × β) := d.filter fun p => p.1 ≠ key

/-- `del d[key]`. -/
def delItem {β : Type*} (d : List (String × β)) (key : String) :
    Except Exc (List (String × β)) :=
  if (d.lookup key).isSome then .ok (dictErase d key) else .error (.keyError key)

theorem lookup_eq_none (h : key ∉ d.map Prod.fst) : d.lookup key = none := by
  rw [lookup_eq_none_iff]
  intro p hp
  rw [bne_iff_ne]
  rintro rfl
  exact h (mem_map_of_mem hp)

/-- With distinct keys, a lookup finds the entry with the key. -/
theorem lookup_of_mem (hnodup : (d.map Prod.fst).Nodup) {value : β} (h : (key, value) ∈ d) :
    d.lookup key = some value := by
  obtain ⟨before, after, rfl⟩ := append_of_mem h
  rw [map_append, map_cons, nodup_append] at hnodup
  rw [lookup_eq_some_iff]
  refine ⟨before, after, rfl, fun p hp => bne_iff_ne.mpr ?_⟩
  exact (hnodup.2.2 p.1 (mem_map_of_mem hp) key mem_cons_self).symm

/-! ### Assignment -/

/-- A new key is appended. -/
theorem dictSet_of_notMem (h : key ∉ d.map Prod.fst) (value : β) :
    dictSet d key value = d ++ [(key, value)] := by
  rw [dictSet, if_neg]
  intro hany
  obtain ⟨p, hp, heq⟩ := any_eq_true.mp hany
  exact h (mem_map.mpr ⟨p, hp, of_decide_eq_true heq⟩)

/-- An assignment to a key in use keeps the order of the entries. -/
theorem dictSet_of_mem (h : key ∈ d.map Prod.fst) (value : β) :
    dictSet d key value = d.map fun p => if p.1 = key then (key, value) else p := by
  obtain ⟨p, hp, heq⟩ := mem_map.mp h
  exact if_pos (any_eq_true.mpr ⟨p, hp, decide_eq_true heq⟩)

/-- The entries after an assignment. -/
theorem mem_dictSet {value : β} {p : α × β} :
    p ∈ dictSet d key value ↔ p = (key, value) ∨ p ∈ d ∧ p.1 ≠ key := by
  by_cases hkey : key ∈ d.map Prod.fst
  · rw [dictSet_of_mem hkey, mem_map]
    constructor
    · rintro ⟨q, hq, rfl⟩
      by_cases h : q.1 = key
      · exact .inl (if_pos h)
      · rw [if_neg h]
        exact .inr ⟨hq, h⟩
    · rintro (rfl | ⟨hp, hne⟩)
      · obtain ⟨q, hq, heq⟩ := mem_map.mp hkey
        exact ⟨q, hq, if_pos heq⟩
      · exact ⟨p, hp, if_neg hne⟩
  · rw [dictSet_of_notMem hkey, mem_append, mem_singleton, or_comm]
    refine or_congr_right (iff_self_and.mpr fun hp => ?_)
    rintro rfl
    exact hkey (mem_map_of_mem hp)

theorem keys_dictSet (d : List (α × β)) (key : α) (value : β) :
    (dictSet d key value).map Prod.fst =
      if key ∈ d.map Prod.fst then d.map Prod.fst else d.map Prod.fst ++ [key] := by
  split_ifs with h
  · rw [dictSet_of_mem h, map_map]
    refine map_congr_left fun p _ => ?_
    by_cases hp : p.1 = key
    · simp [hp]
    · simp [hp]
  · rw [dictSet_of_notMem h, map_append]
    rfl

/-- Keys stay distinct. -/
theorem nodup_keys_dictSet (h : (d.map Prod.fst).Nodup) (key : α) (value : β) :
    ((dictSet d key value).map Prod.fst).Nodup := by
  rw [keys_dictSet]
  split_ifs with hmem
  · exact h
  · rw [nodup_append]
    refine ⟨h, nodup_singleton key, fun a ha b hb => ?_⟩
    rintro rfl
    exact hmem (mem_singleton.mp hb ▸ ha)

/-- New keys are appended in order. -/
theorem foldl_dictSet {γ : Type*} (key : γ → α) (value : γ → β) (xs : List γ)
    (h : (d.map Prod.fst ++ xs.map key).Nodup) :
    xs.foldl (fun d x => dictSet d (key x) (value x)) d =
      d ++ xs.map fun x => (key x, value x) := by
  induction xs generalizing d with
  | nil => exact (append_nil d).symm
  | cons x xs ih =>
    have hkey : key x ∉ d.map Prod.fst := fun hmem =>
      (nodup_append.mp h).2.2 _ hmem _ mem_cons_self rfl
    rw [foldl_cons, dictSet_of_notMem hkey, ih, append_assoc]
    · rfl
    · rw [map_append, append_assoc]
      exact h

/-! ### Deletion -/

/-- The entries after a deletion. -/
theorem mem_dictErase {p : α × β} : p ∈ dictErase d key ↔ p ∈ d ∧ p.1 ≠ key := by
  rw [dictErase, mem_filter, decide_eq_true_iff]

theorem nodup_keys_dictErase (h : (d.map Prod.fst).Nodup) (key : α) :
    ((dictErase d key).map Prod.fst).Nodup :=
  h.sublist (filter_sublist.map _)

/-! ### Values that determine their keys -/

/-- The dictionary has exactly the values with the property, each under its own key. -/
structure Keyed (key : β → α) (d : List (α × β)) (P : β → Prop) : Prop where
  nodup : (d.map Prod.fst).Nodup
  mem_iff : ∀ p, p ∈ d ↔ p.1 = key p.2 ∧ P p.2

namespace Keyed

variable {key : β → α} {P Q : β → Prop} {v v' : β}

omit [DecidableEq α] in
theorem congr (h : Keyed key d P) (hPQ : ∀ v, P v ↔ Q v) : Keyed key d Q :=
  ⟨h.nodup, fun p => (h.mem_iff p).trans (and_congr_right' (hPQ p.2))⟩

omit [DecidableEq α] in
theorem mem (h : Keyed key d P) (hv : P v) : (key v, v) ∈ d := (h.mem_iff _).mpr ⟨rfl, hv⟩

theorem lookup (h : Keyed key d P) (hv : P v) : d.lookup (key v) = some v :=
  lookup_of_mem h.nodup (h.mem hv)

/-- Different values have different keys. -/
theorem inj (h : Keyed key d P) (hv : P v) (hv' : P v') (heq : key v = key v') : v = v' := by
  have hlookup := h.lookup hv
  rw [heq, h.lookup hv'] at hlookup
  exact (Option.some.inj hlookup).symm

omit [DecidableEq α] in
theorem mem_keys_iff (h : Keyed key d P) {k : α} : k ∈ d.map Prod.fst ↔ ∃ v, P v ∧ key v = k := by
  rw [mem_map]
  constructor
  · rintro ⟨p, hp, rfl⟩
    obtain ⟨hkey, hP⟩ := (h.mem_iff p).mp hp
    exact ⟨p.2, hP, hkey.symm⟩
  · rintro ⟨v, hv, rfl⟩
    exact ⟨_, h.mem hv, rfl⟩

/-- One more value; no other value may have its key. -/
theorem set (h : Keyed key d P) (hinj : ∀ v', P v' → key v' = key v → v' = v) :
    Keyed key (dictSet d (key v) v) fun v' => P v' ∨ v' = v := by
  refine ⟨nodup_keys_dictSet h.nodup _ _, fun p => ?_⟩
  rw [mem_dictSet, h.mem_iff]
  constructor
  · rintro (rfl | ⟨⟨hkey, hP⟩, -⟩)
    · exact ⟨rfl, .inr rfl⟩
    · exact ⟨hkey, .inl hP⟩
  · rintro ⟨hkey, hP | heq⟩
    · by_cases hne : p.1 = key v
      · have heq := hinj p.2 hP (hkey.symm.trans hne)
        exact .inl (Prod.ext hne heq)
      · exact .inr ⟨⟨hkey, hP⟩, hne⟩
    · exact .inl (Prod.ext (heq ▸ hkey) heq)

/-- More values, one after the other. -/
theorem foldl_set (vs : List β) (h : Keyed key d P)
    (hinj : ∀ v v', P v ∨ v ∈ vs → P v' ∨ v' ∈ vs → key v = key v' → v = v') :
    Keyed key (vs.foldl (fun d v => dictSet d (key v) v) d) fun v => P v ∨ v ∈ vs := by
  induction vs generalizing d P with
  | nil => exact h.congr fun v => (or_iff_left not_mem_nil).symm
  | cons v vs ih =>
    have hmem {v' : β} (hv' : (P v' ∨ v' = v) ∨ v' ∈ vs) : P v' ∨ v' ∈ v :: vs := by
      rw [mem_cons, ← or_assoc]
      exact hv'
    have hset := h.set fun v' hP => hinj v' v (.inl hP) (.inr mem_cons_self)
    refine (ih hset fun v₁ v₂ h₁ h₂ => hinj v₁ v₂ (hmem h₁) (hmem h₂)).congr fun v' => ?_
    rw [mem_cons, or_assoc]

/-- One value less. -/
theorem erase (h : Keyed key d P) (hv : P v) :
    Keyed key (dictErase d (key v)) fun v' => P v' ∧ v' ≠ v := by
  refine ⟨nodup_keys_dictErase h.nodup _, fun p => ?_⟩
  rw [mem_dictErase, h.mem_iff]
  constructor
  · rintro ⟨⟨hkey, hP⟩, hne⟩
    refine ⟨hkey, hP, fun heq => hne ?_⟩
    rw [hkey, heq]
  · rintro ⟨hkey, hP, hne⟩
    exact ⟨⟨hkey, hP⟩, fun heq => hne (h.inj hP hv (hkey.symm.trans heq))⟩

omit [DecidableEq α] in
/-- The dictionary of a list of values with distinct keys. -/
theorem of_list {vs : List β} (hnodup : (vs.map key).Nodup) :
    Keyed key (vs.map fun v => (key v, v)) (· ∈ vs) := by
  refine ⟨?_, fun p => ?_⟩
  · rw [map_map]
    exact hnodup
  · rw [mem_map]
    constructor
    · rintro ⟨v, hv, rfl⟩
      exact ⟨rfl, hv⟩
    · rintro ⟨hkey, hv⟩
      exact ⟨p.2, hv, Prod.ext hkey.symm rfl⟩

omit [DecidableEq α] in
/-- The values determine the dictionary up to the order of its entries. -/
theorem perm {d' : List (α × β)} (h : Keyed key d P) (h' : Keyed key d' P) : d.Perm d' := by
  refine (perm_ext_iff_of_nodup (.of_map _ h.nodup) (.of_map _ h'.nodup)).mpr fun p => ?_
  rw [h.mem_iff, h'.mem_iff]

/-- If a single value has a key that matches, then that key is the only one. -/
theorem filter_keys_of_unique (h : Keyed key d P) {p : α → Bool} (hv : P v) (hp : p (key v) = true)
    (hunique : ∀ v', P v' → p (key v') = true → v' = v) :
    (d.map Prod.fst).filter p = [key v] := by
  have hsame : (d.map Prod.fst).filter p = (d.map Prod.fst).filter (· = key v) := by
    refine filter_congr fun k hk => ?_
    obtain ⟨v', hv', rfl⟩ := h.mem_keys_iff.mp hk
    rw [Bool.eq_iff_iff, decide_eq_true_iff]
    constructor
    · intro hp'
      rw [hunique v' hv' hp']
    · intro heq
      rw [heq, hp]
  rw [hsame, filter_eq, count_eq_one_of_mem h.nodup (h.mem_keys_iff.mpr ⟨v, hv, rfl⟩)]
  rfl

/-- If a single key matches, then a single value has a key that does. -/
theorem eq_of_filter_keys (h : Keyed key d P) {p : α → Bool}
    (hlength : ((d.map Prod.fst).filter p).length = 1) (hv : P v) (hp : p (key v) = true)
    (hv' : P v') (hp' : p (key v') = true) : v' = v := by
  obtain ⟨k, hk⟩ := length_eq_one_iff.mp hlength
  have hmem {v : β} (hv : P v) (hp : p (key v) = true) : key v = k := by
    have hfilter := mem_filter.mpr ⟨h.mem_keys_iff.mpr ⟨v, hv, rfl⟩, hp⟩
    rw [hk] at hfilter
    exact mem_singleton.mp hfilter
  exact h.inj hv' hv ((hmem hv' hp').trans (hmem hv hp).symm)

end Keyed

end Python
