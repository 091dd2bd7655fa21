import Zeth.Core.MerkleTreeField

/-!
# The constructors of the C++ Merkle tree

`libzeth/core/merkle_tree_field.tcc` builds a tree from a vector of leaves, from an ordered map of
leaves, or by calls of `set_value`. The constructor from a map walks over the map of nodes while it
adds their parents to it, one layer after the other: the parents have smaller numbers than all nodes
that are there, so that the walk does not see them, and they are the next layer.

The constructor from a vector stores the leaves under the numbers of their nodes instead of their
addresses, so that they are not found when they are read. Its count of nodes is halved rounding down
from layer to layer, and the last node of a layer with an odd number of nodes is lost.

## Main definitions

* `MerkleTreeField.ofMap`, `MerkleTreeField.ofVector`.

## Main results

* `MerkleTreeField.represents_ofMap`.
* `MerkleTreeField.constructions_agree_iff`.
-/

namespace Zeth.Core

open List OrderedMap PerfectTree

namespace MerkleTreeField

variable {FieldT : Type} (getHash : FieldT → FieldT → FieldT)

/-! ### From a map -/

/-- The body of the walk over a layer, at an iterator that is not the end: where it goes next, and
the map with the parent. -/
def layerStep (hashDefault : FieldT) (last : Option ℕ) (idx : ℕ) (hashes : OrderedMap ℕ FieldT) :
    Option (Option ℕ × OrderedMap ℕ FieldT) := do
  let hash ← hashes.find idx
  if idx % 2 = 0 then
    -- a right child whose left sibling is missing
    let hashes := hashes.set (parentIdx idx) (getHash hashDefault hash)
    return (hashes.next idx, hashes)
  else if hashes.next idx = last ∨ hashes.next idx ≠ some (idx + 1) then
    let hashes := hashes.set (parentIdx idx) (getHash hash hashDefault)
    return (hashes.next idx, hashes)
  else
    let right ← hashes.find (idx + 1)
    let hashes := hashes.set (parentIdx idx) (getHash hash right)
    -- the iterator moves over the right sibling too
    return (hashes.next (idx + 1), hashes)

/-- The walk over a layer, from an iterator to `last`. The number of steps is bounded by the first
argument. -/
def hashLayer (hashDefault : FieldT) (last : Option ℕ) :
    ℕ → Option ℕ → OrderedMap ℕ FieldT → Option (OrderedMap ℕ FieldT)
  | 0, it, hashes => if it = last then some hashes else none
  | fuel + 1, it, hashes =>
    if it = last then some hashes
    else do
      let idx ← it
      let (it, hashes) ← layerStep getHash hashDefault last idx hashes
      hashLayer hashDefault last fuel it hashes

/-- The layers from the leaves to the root. -/
def hashLayers (hashDefault : ℕ → FieldT) :
    ℕ → Option ℕ → OrderedMap ℕ FieldT → Option (OrderedMap ℕ FieldT)
  | 0, _, hashes => some hashes
  | layer + 1, last, hashes => do
    let hashes' ← hashLayer getHash (hashDefault (layer + 1)) last hashes.entries.length hashes.begin
      hashes
    hashLayers hashDefault layer hashes.begin hashes'

variable {getHash}

/-! ### The walk over a layer -/

section Walk

variable {dflt : FieldT} {m : OrderedMap ℕ FieldT} {idx : ℕ} {hash : FieldT}
  {l post : List (ℕ × FieldT)}

/-- The hash of the children of a node that are in a list, if there are any. -/
def childHash (getHash : FieldT → FieldT → FieldT) (dflt : FieldT) (l : List (ℕ × FieldT)) (k : ℕ) :
    Option FieldT :=
  if (l.lookup (2 * k + 1)).isSome ∨ (l.lookup (2 * k + 2)).isSome then
    some (getHash ((l.lookup (2 * k + 1)).getD dflt) ((l.lookup (2 * k + 2)).getD dflt))
  else none

theorem lookup_eq_none_of_lt {k : ℕ} (h : ∀ p ∈ l, k < p.1) : l.lookup k = none :=
  lookup_eq_none_iff.mpr fun p hp => bne_iff_ne.mpr (h p hp).ne

/-- The children of another node. -/
theorem childHash_cons_of_ne {k : ℕ} (hleft : 2 * k + 1 ≠ idx) (hright : 2 * k + 2 ≠ idx) :
    childHash getHash dflt ((idx, hash) :: l) k = childHash getHash dflt l k := by
  simp only [childHash, lookup_cons_of_ne _ _ hleft,
    lookup_cons_of_ne _ _ hright]

/-- No children among larger numbers. -/
theorem childHash_of_lt {k : ℕ} (h : ∀ p ∈ l, 2 * k + 2 < p.1) : childHash getHash dflt l k = none := by
  have hleft : l.lookup (2 * k + 1) = none := lookup_eq_none_of_lt fun p hp => by
    have := h p hp
    omega
  rw [childHash, hleft, lookup_eq_none_of_lt h]
  rfl

theorem childHash_right {k : ℕ} (h : ∀ p ∈ l, 2 * k + 2 < p.1) :
    childHash getHash dflt ((2 * k + 2, hash) :: l) k = some (getHash dflt hash) := by
  have hleft : ((2 * k + 2, hash) :: l).lookup (2 * k + 1) = none := by
    rw [lookup_cons_of_ne _ _ (by omega)]
    exact lookup_eq_none_of_lt fun p hp => Nat.lt_of_succ_lt (h p hp)
  rw [childHash, hleft, lookup_cons_self]
  rfl

theorem childHash_left {k : ℕ} (h : ∀ p ∈ l, 2 * k + 2 < p.1) :
    childHash getHash dflt ((2 * k + 1, hash) :: l) k = some (getHash hash dflt) := by
  rw [childHash, lookup_cons_self, lookup_cons_of_ne _ _ (by omega),
    lookup_eq_none_of_lt h]
  rfl

theorem childHash_both (k : ℕ) (right : FieldT) :
    childHash getHash dflt ((2 * k + 1, hash) :: (2 * k + 2, right) :: l) k =
      some (getHash hash right) := by
  rw [childHash, lookup_cons_self, lookup_cons_of_ne _ _ (by omega),
    lookup_cons_self]
  rfl

theorem split_set_parent (hsplit : m.Split ((idx, hash) :: l)) (hpos : 0 < idx) (hlt : idx < 2 ^ 64)
    (x : FieldT) : (m.set (parentIdx idx) x).Split ((idx, hash) :: l) := by
  have hparent : parentIdx idx < idx := by
    rw [parentIdx_of_pos hpos hlt]
    omega
  refine hsplit.set (fun p hp => ?_) x
  rcases mem_cons.mp hp with rfl | hp
  · exact hparent
  · exact hparent.trans (hsplit.lt_of_mem hp)

theorem layerStep_right (hsplit : m.Split ((idx, hash) :: l)) (hpos : 0 < idx) (hlt : idx < 2 ^ 64)
    (heven : idx % 2 = 0) (last : Option ℕ) :
    layerStep getHash dflt last idx m =
      some (l.head?.map Prod.fst, m.set (parentIdx idx) (getHash dflt hash)) := by
  simp only [layerStep, hsplit.find, Option.bind_eq_bind, Option.bind_some, if_pos heven,
    (split_set_parent hsplit hpos hlt _).next]
  rfl

theorem layerStep_left (hsplit : m.Split ((idx, hash) :: l)) (hpos : 0 < idx) (hlt : idx < 2 ^ 64)
    (hodd : ¬ idx % 2 = 0) {last : Option ℕ}
    (halone : l.head?.map Prod.fst = last ∨ l.head?.map Prod.fst ≠ some (idx + 1)) :
    layerStep getHash dflt last idx m =
      some (l.head?.map Prod.fst, m.set (parentIdx idx) (getHash hash dflt)) := by
  simp only [layerStep, hsplit.find, Option.bind_eq_bind, Option.bind_some, if_neg hodd,
    hsplit.next, if_pos halone, (split_set_parent hsplit hpos hlt _).next]
  rfl

theorem layerStep_both {right : FieldT} (hsplit : m.Split ((idx, hash) :: (idx + 1, right) :: l))
    (hpos : 0 < idx) (hlt : idx < 2 ^ 64) (hodd : ¬ idx % 2 = 0) {last : Option ℕ}
    (hlast : some (idx + 1) ≠ last) :
    layerStep getHash dflt last idx m =
      some (l.head?.map Prod.fst, m.set (parentIdx idx) (getHash hash right)) := by
  have hnext : m.next idx = some (idx + 1) := hsplit.next
  have hpair : ¬ (m.next idx = last ∨ m.next idx ≠ some (idx + 1)) := by
    rw [hnext]
    exact fun h => h.elim hlast fun h => h rfl
  simp only [layerStep, hsplit.find, Option.bind_eq_bind, Option.bind_some, if_neg hodd,
    if_neg hpair, hsplit.tail.find, (split_set_parent hsplit hpos hlt _).tail.next]
  rfl

/-- A parent is added and the walk goes on with other parents. -/
theorem find_after_step {k₀ : ℕ} {x : FieldT} {rest : List (ℕ × FieldT)}
    (hself : childHash getHash dflt l k₀ = some x) (hrest : childHash getHash dflt rest k₀ = none)
    (hne : ∀ k ≠ k₀, childHash getHash dflt l k = childHash getHash dflt rest k) (k : ℕ) :
    (childHash getHash dflt rest k).or ((m.set k₀ x).find k) =
      (childHash getHash dflt l k).or (m.find k) := by
  by_cases hk : k = k₀
  · rw [hk, hself, hrest, find_set_self]
    rfl
  · rw [find_set_of_ne _ _ hk, hne k hk]

theorem hashLayer_last (last : Option ℕ) (fuel : ℕ) :
    hashLayer getHash dflt last fuel last m = some m := by
  cases fuel <;> exact if_pos rfl

theorem hashLayer_step {last : Option ℕ} (hne : some idx ≠ last) {it : Option ℕ}
    {m₁ : OrderedMap ℕ FieldT} (hstep : layerStep getHash dflt last idx m = some (it, m₁)) (fuel : ℕ) :
    hashLayer getHash dflt last (fuel + 1) (some idx) m =
      hashLayer getHash dflt last fuel it m₁ := by
  rw [hashLayer, if_neg hne]
  simp only [Option.bind_eq_bind, Option.bind_some, hstep]

/-- The walk adds the parents of the nodes that it meets and keeps all entries. -/
theorem exists_hashLayer (getHash : FieldT → FieldT → FieldT) (dflt : FieldT)
    {whole : List (ℕ × FieldT)} {fuel : ℕ} (hfuel : l.length ≤ fuel) (hwhole : m.Split whole)
    (hsplit : m.Split (l ++ post)) (hpos : ∀ p ∈ l, 0 < p.1 ∧ p.1 < 2 ^ 64)
    (hlow : ∀ p ∈ l, ∀ q ∈ whole, (p.1 - 1) / 2 < q.1) :
    ∃ m', hashLayer getHash dflt (post.head?.map Prod.fst) fuel ((l ++ post).head?.map Prod.fst) m =
        some m' ∧ m'.Split whole ∧
      ∀ k, m'.find k = (childHash getHash dflt l k).or (m.find k) := by
  induction fuel generalizing l m with
  | zero =>
    obtain rfl : l = [] := eq_nil_of_length_eq_zero (by omega)
    exact ⟨m, hashLayer_last _ _, hwhole, fun k => rfl⟩
  | succ fuel ih =>
    rcases l with _ | ⟨⟨idx, hash⟩, l⟩
    · exact ⟨m, hashLayer_last _ _, hwhole, fun k => rfl⟩
    · obtain ⟨hidx, hlt⟩ := hpos _ mem_cons_self
      have hparent : parentIdx idx = (idx - 1) / 2 := parentIdx_of_pos hidx hlt
      have hlast : ∀ {j}, (∀ q ∈ post, j < q.1) → some j ≠ post.head?.map Prod.fst := by
        intro j hj heq
        obtain ⟨q, hq, hqj⟩ := Option.map_eq_some_iff.mp heq.symm
        exact (hj q (mem_of_mem_head? hq)).ne hqj.symm
      have hpost : ∀ q ∈ post, idx < q.1 := fun q hq =>
        hsplit.lt_of_mem (mem_append_right l hq)
      -- what remains to be done after the step to a map `m₁` that continues with `rest`
      have hgo : ∀ {rest : List (ℕ × FieldT)} {x : FieldT}, rest.length ≤ fuel →
          (∀ p ∈ rest, p ∈ l) → (m.set (parentIdx idx) x).Split (rest ++ post) →
          layerStep getHash dflt (post.head?.map Prod.fst) idx m =
            some ((rest ++ post).head?.map Prod.fst, m.set (parentIdx idx) x) →
          childHash getHash dflt ((idx, hash) :: l) ((idx - 1) / 2) = some x →
          childHash getHash dflt rest ((idx - 1) / 2) = none →
          (∀ k ≠ (idx - 1) / 2, childHash getHash dflt ((idx, hash) :: l) k =
            childHash getHash dflt rest k) →
          ∃ m', hashLayer getHash dflt (post.head?.map Prod.fst) (fuel + 1) (some idx) m = some m' ∧
            m'.Split whole ∧
            ∀ k, m'.find k = (childHash getHash dflt ((idx, hash) :: l) k).or (m.find k) := by
        intro rest x hlen hmem hsplit₁ hstep hself hrest hne
        have hwhole₁ : (m.set (parentIdx idx) x).Split whole :=
          hwhole.set (fun q hq => hparent ▸ hlow _ mem_cons_self q hq) x
        obtain ⟨m', hm', hwhole', hfind⟩ := ih hlen hwhole₁ hsplit₁
          (fun p hp => hpos p (mem_cons_of_mem _ (hmem p hp)))
          fun p hp => hlow p (mem_cons_of_mem _ (hmem p hp))
        refine ⟨m', ?_, hwhole', fun k => ?_⟩
        · rw [hashLayer_step (hlast hpost) hstep, hm']
        · rw [hfind, hparent, find_after_step hself hrest hne]
      have hlen : l.length ≤ fuel := by simpa using hfuel
      have hsorted := hsplit.sorted
      by_cases heven : idx % 2 = 0
      · obtain ⟨k, rfl⟩ : ∃ k, idx = 2 * k + 2 := ⟨(idx - 1) / 2, by omega⟩
        have hk : (2 * k + 2 - 1) / 2 = k := by omega
        have hl : ∀ p ∈ l, 2 * k + 2 < p.1 := fun p hp =>
          hsplit.lt_of_mem (mem_append_left post hp)
        rw [hk] at hgo
        exact hgo hlen (fun p hp => hp) (split_set_parent hsplit hidx hlt _).tail
          (layerStep_right hsplit hidx hlt heven _) (childHash_right hl) (childHash_of_lt hl)
          fun j hj => childHash_cons_of_ne (by omega) (by omega)
      · obtain ⟨k, rfl⟩ : ∃ k, idx = 2 * k + 1 := ⟨(idx - 1) / 2, by omega⟩
        have hk : (2 * k + 1 - 1) / 2 = k := by omega
        rw [hk] at hgo
        -- the left child alone
        have halone : (∀ p ∈ l, 2 * k + 2 < p.1) →
            ((l ++ post).head?.map Prod.fst = post.head?.map Prod.fst ∨
              (l ++ post).head?.map Prod.fst ≠ some (2 * k + 1 + 1)) → _ := fun hl hnext =>
          hgo hlen (fun p hp => hp) (split_set_parent hsplit hidx hlt _).tail
            (layerStep_left hsplit hidx hlt heven hnext) (childHash_left hl) (childHash_of_lt hl)
            fun j hj => childHash_cons_of_ne (by omega) (by omega)
        rcases l with _ | ⟨⟨j, right⟩, l⟩
        · exact halone (by simp) (.inl rfl)
        · have hj : 2 * k + 1 < j := hsplit.lt_of_mem mem_cons_self
          by_cases hpair : j = 2 * k + 2
          · subst hpair
            have hl : ∀ p ∈ l, 2 * k + 2 < p.1 := fun p hp =>
              hsplit.tail.lt_of_mem (mem_append_left post hp)
            have hend : some (2 * k + 1 + 1) ≠ post.head?.map Prod.fst :=
              hlast fun q hq => hsplit.tail.lt_of_mem (mem_append_right l hq)
            refine hgo (Nat.le_of_succ_le hlen) (fun p hp => mem_cons_of_mem _ hp)
              (split_set_parent hsplit hidx hlt _).tail.tail
              (layerStep_both hsplit hidx hlt heven hend) (childHash_both k right)
              (childHash_of_lt hl) fun j hj => ?_
            rw [childHash_cons_of_ne (by omega) (by omega), childHash_cons_of_ne (by omega) (by omega)]
          · refine halone (fun p hp => ?_) (.inr ?_)
            · rcases mem_cons.mp hp with rfl | hp
              · exact lt_of_le_of_ne hj (Ne.symm hpair)
              · have := hsplit.tail.lt_of_mem (mem_append_left post hp)
                omega
            · exact fun h => hpair (Option.some.inj h)

/-- The layers from a layer on are those of the tree, and the map begins with the nodes of this
layer, up to an iterator. -/
structure LayersDone (getHash : FieldT → FieldT → FieldT) [Zero FieldT] (d : ℕ) (leaf : ℕ → FieldT)
    (n : ℕ) (last : Option ℕ) (m : OrderedMap ℕ FieldT) : Prop where
  split : ∃ l post, m.entries = l ++ post ∧ last = post.head?.map Prod.fst ∧
    (∀ p ∈ l, 2 ^ n - 1 ≤ p.1 ∧ p.1 < 2 ^ (n + 1) - 1) ∧
    ∀ p ∈ post, 2 ^ (n + 1) - 1 ≤ p.1 ∧ p.1 < 2 ^ (d + 1) - 1
  reads : ∀ l, n ≤ l → l ≤ d → ReadsLayer getHash d leaf m l

theorem exists_mem_of_childHash {k : ℕ} {x : FieldT} (h : childHash getHash dflt l k = some x) :
    ∃ p ∈ l, p.1 = 2 * k + 1 ∨ p.1 = 2 * k + 2 := by
  have hmem : ∀ {j}, (l.lookup j).isSome → ∃ p ∈ l, p.1 = j := by
    intro j hj
    obtain ⟨v, hv⟩ := Option.isSome_iff_exists.mp hj
    obtain ⟨l₁, l₂, rfl, -⟩ := lookup_eq_some_iff.mp hv
    exact ⟨(j, v), mem_append_right _ mem_cons_self, rfl⟩
  rw [childHash, Option.ite_none_right_eq_some] at h
  rcases h.1 with h | h
  · exact (hmem h).imp fun p hp => ⟨hp.1, .inl hp.2⟩
  · exact (hmem h).imp fun p hp => ⟨hp.1, .inr hp.2⟩

/-- Without children the hash is that of two empty subtrees. -/
theorem getD_childHash (k : ℕ) :
    (childHash getHash dflt l k).getD (getHash dflt dflt) =
      getHash ((l.lookup (2 * k + 1)).getD dflt) ((l.lookup (2 * k + 2)).getD dflt) := by
  rw [childHash]
  split_ifs with h
  · rfl
  · simp only [not_or, Option.not_isSome_iff_eq_none] at h
    rw [h.1, h.2]
    rfl

/-- One layer more. -/
theorem LayersDone.step [Zero FieldT] {d n : ℕ} {leaf : ℕ → FieldT} {last : Option ℕ} (hd : d < 64)
    (hn : n + 1 ≤ d) (h : LayersDone getHash d leaf (n + 1) last m) :
    ∃ m', hashLayer getHash (PerfectTree.default getHash 0 (d - (n + 1))) last m.entries.length
        m.begin m = some m' ∧
      LayersDone getHash d leaf n m.begin m' := by
  obtain ⟨l, post, hentries, rfl, hl, hpost⟩ := h.split
  have hpow : 2 ^ (n + 1 + 1) = 4 * 2 ^ n ∧ 2 ^ (n + 1) = 2 * 2 ^ n := ⟨by ring, by ring⟩
  have hpos := Nat.two_pow_pos n
  have hbound : 2 ^ (d + 1) ≤ 2 ^ 64 := Nat.pow_le_pow_right (by omega) hd
  have hbound' : 2 ^ (n + 1 + 1) ≤ 2 ^ (d + 1) := Nat.pow_le_pow_right (by omega) (by omega)
  have hge : ∀ p ∈ m.entries, 2 ^ (n + 1) - 1 ≤ p.1 := by
    intro p hp
    rw [hentries] at hp
    rcases mem_append.mp hp with hp | hp
    · exact (hl p hp).1
    · have := (hpost p hp).1
      omega
  have hlt : ∀ p ∈ m.entries, p.1 < 2 ^ (d + 1) - 1 := by
    intro p hp
    rw [hentries] at hp
    rcases mem_append.mp hp with hp | hp
    · have := (hl p hp).2
      omega
    · exact (hpost p hp).2
  have hfuel : l.length ≤ m.entries.length := by rw [hentries, length_append]; omega
  have hsplit : m.Split (l ++ post) := ⟨[], hentries⟩
  have hsize : ∀ p ∈ l, 0 < p.1 ∧ p.1 < 2 ^ 64 := by
    intro p hp
    have := hl p hp
    omega
  have hlow : ∀ p ∈ l, ∀ q ∈ m.entries, (p.1 - 1) / 2 < q.1 := by
    intro p hp q hq
    have := hl p hp
    have := hge q hq
    omega
  obtain ⟨m', hwalk, ⟨before, hbefore⟩, hfind⟩ := exists_hashLayer getHash
    (PerfectTree.default getHash 0 (d - (n + 1))) hfuel m.split_entries hsplit hsize hlow
  have hsorted := pairwise_append.mp (hbefore ▸ m'.sorted)
  refine ⟨m', ?_, ⟨before, m.entries, hbefore, rfl, fun p hp => ?_,
    fun p hp => ⟨hge p hp, hlt p hp⟩⟩, ?_⟩
  · rw [OrderedMap.begin, hentries]
    rwa [hentries] at hwalk
  · -- what is new is a parent of a node of the layer
    have hnew : m'.find p.1 = some p.2 := by
      refine Python.lookup_of_mem m'.nodup_keys ?_
      rw [hbefore]
      exact mem_append_left _ hp
    have hold : m.find p.1 = none := lookup_eq_none_of_lt fun q hq => hsorted.2.2 p hp q hq
    rw [hfind, hold, Option.or_none] at hnew
    obtain ⟨q, hq, hqp⟩ := exists_mem_of_childHash hnew
    have := hl q hq
    omega
  · intro k hnk hk p hp
    rw [hfind]
    rcases hnk.eq_or_lt with rfl | hlt'
    · have hidx : heapIdx n p < 2 ^ (n + 1) - 1 := by
        rw [heapIdx]
        omega
      have hold : m.find (heapIdx n p) = none :=
        lookup_eq_none_of_lt fun q hq => hidx.trans_le (hge q hq)
      have hlookup : ∀ j, j < 2 ^ (n + 1 + 1) - 1 → l.lookup j = m.find j := by
        intro j hj
        have hnone : post.lookup j = none :=
          lookup_eq_none_of_lt fun q hq => hj.trans_le (hpost q hq).1
        rw [OrderedMap.find, hentries, lookup_append, hnone, Option.or_none]
      have hleft : 2 * heapIdx n p + 1 = heapIdx (n + 1) (2 * p) := by
        rw [heapIdx, heapIdx]
        omega
      have hright : 2 * heapIdx n p + 2 = heapIdx (n + 1) (2 * p + 1) := by
        rw [heapIdx, heapIdx]
        omega
      rw [hold, Option.or_none, show d - n = d - (n + 1) + 1 by omega, default_succ,
        getD_childHash, hlookup _ (by omega), hlookup _ (by omega), hleft, hright,
        h.reads (n + 1) le_rfl hn (2 * p) (by omega), h.reads (n + 1) le_rfl hn (2 * p + 1) (by omega),
        ← node_succ getHash]
    · have hidx : 2 ^ (n + 1) - 1 ≤ heapIdx k p := by
        have hpow' : 2 ^ (n + 1) ≤ 2 ^ k := Nat.pow_le_pow_right (by omega) hlt'
        rw [heapIdx]
        omega
      have hnone : childHash getHash (PerfectTree.default getHash 0 (d - (n + 1))) l (heapIdx k p) =
          none := by
        by_contra hne
        obtain ⟨x, hx⟩ := Option.ne_none_iff_exists'.mp hne
        obtain ⟨q, hq, hqp⟩ := exists_mem_of_childHash hx
        have := hl q hq
        omega
      rw [hnone, Option.none_or]
      exact h.reads k hlt' hk p hp

/-- All layers. -/
theorem exists_hashLayers [Zero FieldT] {hashDefault : ℕ → FieldT} {d n : ℕ} {leaf : ℕ → FieldT}
    {last : Option ℕ} (hd : d < 64) (hn : n ≤ d)
    (hdefault : ∀ l ≤ d, hashDefault l = PerfectTree.default getHash 0 (d - l))
    (h : LayersDone getHash d leaf n last m) :
    ∃ m', hashLayers getHash hashDefault n last m = some m' ∧
      ∀ l ≤ d, ReadsLayer getHash d leaf m' l := by
  induction n generalizing m last with
  | zero => exact ⟨m, rfl, fun l hl => h.reads l (Nat.zero_le l) hl⟩
  | succ n ih =>
    obtain ⟨m₁, hlayer, h₁⟩ := h.step hd hn
    obtain ⟨m', hlayers, hreads⟩ := ih (by omega) h₁
    refine ⟨m', ?_, hreads⟩
    rw [hashLayers, hdefault (n + 1) hn, hlayer]
    exact hlayers

end Walk

section Constructors

variable [Zero FieldT]

variable (getHash) in
/-- The constructor from a map. -/
def ofMap (depth : ℕ) (contents : OrderedMap ℕ FieldT) : Option (MerkleTreeField FieldT) := do
  let t ← new getHash depth
  match contents.entries.getLast? with
  | none => return t
  | some largest =>
    if largest.1 < 2 ^ depth then
      let values := contents.entries.foldl (fun m p => m.set p.1 p.2) t.values
      let leaves := contents.entries.map fun p => (leafIdx depth p.1, p.2)
      let hashes := leaves.foldl (fun m p => m.set p.1 p.2) t.hashes
      let hashes ← hashLayers getHash t.hashDefault depth none hashes
      return { t with values, hashes }
    else none

variable {d : ℕ}

omit [Zero FieldT] in
theorem lookup_map_key {f : ℕ → ℕ} {l : List (ℕ × FieldT)} {a : ℕ}
    (hf : ∀ p ∈ l, f p.1 = f a → p.1 = a) :
    (l.map fun p => (f p.1, p.2)).lookup (f a) = l.lookup a := by
  induction l with
  | nil => rfl
  | cons p l ih =>
    have ih' := ih fun q hq => hf q (mem_cons_of_mem _ hq)
    obtain ⟨k, v⟩ := p
    by_cases hk : a = k
    · rw [hk, map_cons, lookup_cons_self, lookup_cons_self]
    · have hne : f a ≠ f k := fun h => hk (hf _ mem_cons_self h.symm).symm
      rw [map_cons, lookup_cons_of_ne _ _ hne, lookup_cons_of_ne _ _ hk, ih']

/-- The leaves as nodes. -/
theorem layersDone_leaves (getHash : FieldT → FieldT → FieldT) (hd : d < 64)
    {contents : OrderedMap ℕ FieldT} (hkeys : ∀ p ∈ contents.entries, p.1 < 2 ^ d) :
    LayersDone getHash d (fun a => (contents.find a).getD 0) d none
      ((contents.entries.map fun p => (leafIdx d p.1, p.2)).foldl (fun m p => m.set p.1 p.2)
        .empty) := by
  set m : OrderedMap ℕ FieldT := (contents.entries.map fun p => (leafIdx d p.1, p.2)).foldl
    (fun m p => m.set p.1 p.2) .empty with hm
  have hfind : ∀ k, m.find k =
      (contents.entries.reverse.map fun p => (leafIdx d p.1, p.2)).lookup k := by
    intro k
    rw [hm, find_foldl_set, find_empty, Option.or_none, map_reverse]
  have hleaf : ∀ p ∈ contents.entries, leafIdx d p.1 = heapIdx d p.1 := fun p hp =>
    leafIdx_eq hd (hkeys p hp)
  refine ⟨⟨m.entries, [], (append_nil _).symm, rfl, fun p hp => ?_, by simp⟩, ?_⟩
  · have hp' : m.find p.1 = some p.2 := Python.lookup_of_mem m.nodup_keys hp
    rw [hfind] at hp'
    obtain ⟨l₁, l₂, heq, -⟩ := lookup_eq_some_iff.mp hp'
    obtain ⟨q, hq, hqp⟩ := mem_map.mp (heq ▸ mem_append_right l₁ mem_cons_self)
    have hq' := mem_reverse.mp hq
    have hlt := hkeys q hq'
    rw [← congrArg Prod.fst hqp, hleaf q hq', heapIdx, pow_succ]
    omega
  · intro l hdl hl a ha
    obtain rfl : l = d := by omega
    rw [← leafIdx_eq hd ha, hfind, lookup_map_key, lookup_reverse contents.nodup_keys,
      Nat.sub_self]
    · rfl
    · intro p hp heq
      have hp' := mem_reverse.mp hp
      rw [hleaf p hp', leafIdx_eq hd ha] at heq
      exact (heapIdx_inj (hkeys p hp') ha heq).2

/-- The constructor from a map makes the tree over its leaves. -/
theorem represents_ofMap (getHash : FieldT → FieldT → FieldT) (hd : d < 64)
    {contents : OrderedMap ℕ FieldT} (hkeys : ∀ p ∈ contents.entries, p.1 < 2 ^ d) :
    ∃ t, ofMap getHash d contents = some t ∧
      Represents getHash t d fun a => (contents.find a).getD 0 := by
  obtain ⟨t, hnew, hvalues, hhashes, ht⟩ := represents_new getHash hd
  cases hlast : contents.entries.getLast? with
  | none =>
    have hempty : contents.entries = [] := List.getLast?_eq_none_iff.mp hlast
    refine ⟨t, ?_, ?_⟩
    · simp only [ofMap, hnew, hlast, Option.bind_eq_bind, Option.bind_some, Option.pure_def]
    · have hleaf : (fun a => (contents.find a).getD 0) = fun _ => 0 := by
        funext a
        rw [OrderedMap.find, hempty]
        rfl
      rwa [hleaf]
  | some largest =>
    have hlargest : largest.1 < 2 ^ d := hkeys largest (mem_of_mem_getLast? hlast)
    obtain ⟨hashes, hlayers, hreads⟩ :=
      exists_hashLayers hd le_rfl ht.hashDefault_eq (layersDone_leaves getHash hd hkeys)
    refine ⟨{ t with
      values := contents.entries.foldl (fun m p => m.set p.1 p.2) t.values
      hashes := hashes }, ?_, ht.depth_eq, hd, ht.hashDefault_eq, fun a _ => ?_, hreads⟩
    · simp only [ofMap, hnew, hlast, Option.bind_eq_bind, Option.bind_some, if_pos hlargest, hhashes,
        hlayers, Option.pure_def]
    · rw [find_foldl_entries, hvalues, find_empty, Option.or_none]

/-! ### From a vector -/

/-- The leaves of a vector with their addresses. -/
def addressed (contents : List FieldT) : List (ℕ × FieldT) :=
  contents.zipIdx.map fun p => (p.2, p.1)

variable (getHash) in
/-- The body of the loop over a layer, at the node `idxBegin + 2 * k`. The nodes that are read are in
the map. -/
def sweepStep (hashDefault : FieldT) (idxBegin idxEnd : ℕ) (hashes : OrderedMap ℕ FieldT) (k : ℕ) :
    OrderedMap ℕ FieldT :=
  let idx := idxBegin + 2 * k
  let l := (hashes.find idx).getD 0
  let r := if idx + 1 < idxEnd then (hashes.find (idx + 1)).getD 0 else hashDefault
  hashes.set (parentIdx idx) (getHash l r)

variable (getHash) in
/-- The loop over a layer. -/
def sweepLayer (hashDefault : FieldT) (idxBegin idxEnd : ℕ) (hashes : OrderedMap ℕ FieldT) :
    OrderedMap ℕ FieldT :=
  (List.range ((idxEnd - idxBegin + 1) / 2)).foldl (sweepStep getHash hashDefault idxBegin idxEnd)
    hashes

variable (getHash) in
/-- The layers from the leaves to the root. -/
def sweepLayers (hashDefault : ℕ → FieldT) :
    ℕ → ℕ → ℕ → OrderedMap ℕ FieldT → OrderedMap ℕ FieldT
  | 0, _, _, hashes => hashes
  | layer + 1, idxBegin, idxEnd, hashes =>
    sweepLayers hashDefault layer (parentIdx idxBegin) (parentIdx idxEnd)
      (sweepLayer getHash (hashDefault (layer + 1)) idxBegin idxEnd hashes)

variable (getHash) in
/-- The constructor from a vector. -/
def ofVector (depth : ℕ) (contents : List FieldT) : Option (MerkleTreeField FieldT) := do
  let t ← new getHash depth
  if Nat.clog 2 contents.length ≤ depth then
    -- both maps have the numbers of nodes for keys
    let leaves := (addressed contents).map fun p => (leafIdx depth p.1, p.2)
    let values := leaves.foldl (fun m p => m.set p.1 p.2) t.values
    let hashes := leaves.foldl (fun m p => m.set p.1 p.2) t.hashes
    return { t with
      values
      hashes := sweepLayers getHash t.hashDefault depth (leafIdx depth 0)
        (leafIdx depth contents.length) hashes }
  else none

omit [Zero FieldT] in
theorem nodup_addressed (contents : List FieldT) : ((addressed contents).map Prod.fst).Nodup := by
  have hkeys : (addressed contents).map Prod.fst = List.range contents.length := by
    rw [addressed, map_map, range_eq_range', ← zipIdx_map_snd 0 contents]
    rfl
  rw [hkeys]
  exact nodup_range

omit [Zero FieldT] in
theorem mem_addressed {contents : List FieldT} {p : ℕ × FieldT} :
    p ∈ addressed contents ↔ contents[p.1]? = some p.2 := by
  rw [addressed, mem_map]
  constructor
  · rintro ⟨q, hq, rfl⟩
    exact mem_zipIdx_iff_getElem?.mp hq
  · intro h
    exact ⟨(p.2, p.1), mem_zipIdx_iff_getElem?.mpr h, rfl⟩

omit [Zero FieldT] in
theorem lookup_addressed (contents : List FieldT) (a : ℕ) :
    (addressed contents).lookup a = contents[a]? := by
  cases h : contents[a]? with
  | some v => exact Python.lookup_of_mem (nodup_addressed contents) (mem_addressed.mpr h)
  | none =>
    refine Python.lookup_eq_none fun hmem => ?_
    obtain ⟨p, hp, rfl⟩ := mem_map.mp hmem
    exact absurd (h.symm.trans (mem_addressed.mp hp)) nofun

omit [Zero FieldT] in
theorem lt_of_mem_addressed {contents : List FieldT} (hlen : contents.length ≤ 2 ^ d) :
    ∀ p ∈ addressed contents, p.1 < 2 ^ d := by
  intro p hp
  obtain ⟨hlt, -⟩ := List.getElem?_eq_some_iff.mp (mem_addressed.mp hp)
  omega

/-! ### The vector of zeros -/

section Zeros

variable {m : OrderedMap ℕ FieldT} {n c : ℕ}

theorem node_zero_leaves (h i : ℕ) :
    node getHash (fun _ => (0 : FieldT)) h i = PerfectTree.default getHash 0 h :=
  node_eq_default getHash 0 (fun _ _ => rfl) h i (Nat.zero_le _)

/-- All nodes are those of the empty tree, and the first nodes of a layer are in the map. -/
structure EmptyNodes (getHash : FieldT → FieldT → FieldT) (d n c : ℕ) (m : OrderedMap ℕ FieldT) :
    Prop where
  reads : ∀ l ≤ d, ReadsLayer getHash d (fun _ => 0) m l
  present : ∀ p < c, (m.find (heapIdx n p)).isSome

theorem EmptyNodes.find (h : EmptyNodes getHash d n c m) (hn : n ≤ d) (hc : c ≤ 2 ^ n) {p : ℕ}
    (hp : p < c) : m.find (heapIdx n p) = some (PerfectTree.default getHash 0 (d - n)) := by
  obtain ⟨x, hx⟩ := Option.isSome_iff_exists.mp (h.present p hp)
  have hread := h.reads n hn p (hp.trans_le hc)
  rw [hx, node_zero_leaves] at hread
  exact hx.trans (congrArg some hread)

/-- A node of the empty tree is added. -/
theorem EmptyNodes.set (h : EmptyNodes getHash d n c m) {l p : ℕ} (hp : p < 2 ^ l) :
    EmptyNodes getHash d n c (m.set (heapIdx l p) (PerfectTree.default getHash 0 (d - l))) := by
  refine ⟨fun k hk j hj => ?_, fun j hj => ?_⟩
  · rw [find_set]
    split_ifs with heq
    · obtain ⟨rfl, rfl⟩ := heapIdx_inj hj hp heq
      exact (node_zero_leaves _ _).symm
    · exact h.reads k hk j hj
  · rw [find_set]
    split_ifs
    · rfl
    · exact h.present j hj

/-- The parent of nodes of the empty tree. -/
theorem EmptyNodes.sweepStep (h : EmptyNodes getHash d (n + 1) c m) (hd : d < 64) (hn : n + 1 ≤ d)
    (hc : c ≤ 2 ^ (n + 1)) {k : ℕ} (hk : 2 * k < c) :
    sweepStep getHash (PerfectTree.default getHash 0 (d - (n + 1))) (heapIdx (n + 1) 0)
      (heapIdx (n + 1) c) m k =
        m.set (heapIdx n k) (PerfectTree.default getHash 0 (d - n)) := by
  have hidx : heapIdx (n + 1) 0 + 2 * k = heapIdx (n + 1) (2 * k) := by
    rw [heapIdx, heapIdx]
    omega
  have hparent : parentIdx (heapIdx (n + 1) (2 * k)) = heapIdx n k := by
    rw [parentIdx_heapIdx (by omega) (hk.trans_le hc), Nat.mul_div_cancel_left k two_pos]
  have hright : (if heapIdx (n + 1) (2 * k) + 1 < heapIdx (n + 1) c then
      (m.find (heapIdx (n + 1) (2 * k) + 1)).getD 0
      else PerfectTree.default getHash 0 (d - (n + 1))) =
        PerfectTree.default getHash 0 (d - (n + 1)) := by
    split_ifs with hlt
    · have hk' : 2 * k + 1 < c := by
        rw [heapIdx, heapIdx] at hlt
        omega
      rw [show heapIdx (n + 1) (2 * k) + 1 = heapIdx (n + 1) (2 * k + 1) from rfl, h.find hn hc hk']
      rfl
    · rfl
  rw [MerkleTreeField.sweepStep, hidx, hparent, h.find hn hc hk, hright, Option.getD_some,
    ← default_succ getHash, show d - (n + 1) + 1 = d - n by omega]

/-- The loop over a layer of the empty tree. -/
theorem EmptyNodes.sweepLayer (h : EmptyNodes getHash d (n + 1) c m) (hd : d < 64) (hn : n + 1 ≤ d)
    (hc : c ≤ 2 ^ (n + 1)) :
    EmptyNodes getHash d n (c / 2)
      (sweepLayer getHash (PerfectTree.default getHash 0 (d - (n + 1))) (heapIdx (n + 1) 0)
        (heapIdx (n + 1) c) m) := by
  have hcount : heapIdx (n + 1) c - heapIdx (n + 1) 0 = c := by
    rw [heapIdx, heapIdx]
    omega
  rw [pow_succ] at hc
  rw [MerkleTreeField.sweepLayer, hcount]
  set step := MerkleTreeField.sweepStep getHash (PerfectTree.default getHash 0 (d - (n + 1)))
    (heapIdx (n + 1) 0) (heapIdx (n + 1) c)
  -- after `j` steps the first `j` parents are there
  have hloop : ∀ j ≤ (c + 1) / 2, EmptyNodes getHash d (n + 1) c ((List.range j).foldl step m) ∧
      EmptyNodes getHash d n j ((List.range j).foldl step m) := by
    intro j hj
    induction j with
    | zero => exact ⟨h, h.reads, fun p hp => absurd hp (Nat.not_lt_zero p)⟩
    | succ j ih =>
      obtain ⟨hold, hnew⟩ := ih (by omega)
      have hstep : step ((List.range j).foldl step m) j = _ :=
        hold.sweepStep hd hn (by rw [pow_succ]; exact hc) (by omega)
      rw [range_succ, foldl_append, foldl_cons, foldl_nil, hstep]
      refine ⟨hold.set (by omega), (hnew.set (by omega)).reads, fun p hp => ?_⟩
      rw [find_set]
      split_ifs with heq
      · rfl
      · refine hnew.present p (lt_of_le_of_ne (Nat.le_of_lt_succ hp) ?_)
        rintro rfl
        exact heq rfl
  have hdone := (hloop _ le_rfl).2
  exact ⟨hdone.reads, fun p hp => hdone.present p (by omega)⟩

/-- All layers of the empty tree. -/
theorem EmptyNodes.sweepLayers {hashDefault : ℕ → FieldT} (h : EmptyNodes getHash d n c m)
    (hd : d < 64) (hn : n ≤ d) (hc : c ≤ 2 ^ n)
    (hdefault : ∀ l ≤ d, hashDefault l = PerfectTree.default getHash 0 (d - l)) :
    ∀ l ≤ d, ReadsLayer getHash d (fun _ => 0)
      (sweepLayers getHash hashDefault n (heapIdx n 0) (heapIdx n c) m) l := by
  induction n generalizing m c with
  | zero => exact h.reads
  | succ n ih =>
    have hpow : 2 ^ (n + 1 + 1) ≤ 2 ^ 64 := Nat.pow_le_pow_right (by omega) (by omega)
    have hpos := Nat.two_pow_pos n
    have hlayer := h.sweepLayer hd hn hc
    rw [pow_succ] at hc
    have hbegin : parentIdx (heapIdx (n + 1) 0) = heapIdx n 0 :=
      parentIdx_heapIdx (by omega) (Nat.two_pow_pos _)
    have hend : parentIdx (heapIdx (n + 1) c) = heapIdx n (c / 2) := by
      rw [pow_succ, pow_succ] at hpow
      rw [heapIdx, heapIdx, pow_succ, parentIdx_of_pos (by omega) (by omega)]
      omega
    rw [MerkleTreeField.sweepLayers, hbegin, hend, hdefault (n + 1) hn]
    exact ih hlayer (by omega) (by omega)

end Zeros

/-- What the constructor from a vector makes of its leaves. -/
theorem exists_ofVector (getHash : FieldT → FieldT → FieldT) (hd : d < 64) {contents : List FieldT}
    (hlen : contents.length ≤ 2 ^ d) :
    ∃ t, ofVector getHash d contents = some t ∧ t.depth = d ∧
      (∀ l ≤ d, t.hashDefault l = PerfectTree.default getHash 0 (d - l)) ∧
      (∀ a < 2 ^ d, t.values.find (heapIdx d a) = contents[a]?) ∧
      (∀ k, (∀ a < 2 ^ d, k ≠ heapIdx d a) → t.values.find k = none) ∧
      t.hashes = sweepLayers getHash t.hashDefault d (leafIdx d 0) (leafIdx d contents.length)
        t.values := by
  obtain ⟨t, hnew, hvalues, hhashes, ht⟩ := represents_new getHash hd
  set leaves := (addressed contents).map fun p => (leafIdx d p.1, p.2)
  have hfind : ∀ k, (leaves.foldl (fun m p => m.set p.1 p.2) t.values).find k =
      ((addressed contents).reverse.map fun p => (leafIdx d p.1, p.2)).lookup k := by
    intro k
    rw [hvalues, find_foldl_set, find_empty, Option.or_none, map_reverse]
  have hleaf : ∀ p ∈ addressed contents, leafIdx d p.1 = heapIdx d p.1 := fun p hp =>
    leafIdx_eq hd (lt_of_mem_addressed hlen p hp)
  refine ⟨{ t with
    values := leaves.foldl (fun m p => m.set p.1 p.2) t.values
    hashes := sweepLayers getHash t.hashDefault d (leafIdx d 0) (leafIdx d contents.length)
      (leaves.foldl (fun m p => m.set p.1 p.2) t.values) },
    ?_, ht.depth_eq, ht.hashDefault_eq, fun a ha => ?_, fun k hk => ?_, rfl⟩
  · have hassert : Nat.clog 2 contents.length ≤ d := by rwa [Nat.clog_le_iff_le_pow one_lt_two]
    simp only [ofVector, hnew, Option.bind_eq_bind, Option.bind_some, if_pos hassert, hhashes,
      hvalues, Option.pure_def]
    rfl
  · rw [hfind, ← leafIdx_eq hd ha, lookup_map_key, lookup_reverse (nodup_addressed _),
      lookup_addressed]
    intro p hp heq
    have hp' := mem_reverse.mp hp
    rw [hleaf p hp', leafIdx_eq hd ha] at heq
    exact (heapIdx_inj (lt_of_mem_addressed hlen p hp') ha heq).2
  · rw [hfind, lookup_eq_none_iff]
    intro q hq
    obtain ⟨p, hp, rfl⟩ := mem_map.mp hq
    have hp' := mem_reverse.mp hp
    rw [bne_iff_ne, hleaf p hp']
    exact hk p.1 (lt_of_mem_addressed hlen p hp')

theorem padded_eq_zero {contents : List FieldT} (hzero : ∀ v ∈ contents, v = 0) :
    padded 0 contents = fun _ => 0 := by
  funext a
  rw [padded, getD_eq_getElem?_getD]
  cases h : contents[a]? with
  | none => rfl
  | some v => exact hzero v (mem_of_getElem? h)

/-- Zeros make the empty tree. -/
theorem represents_ofVector_zeros (getHash : FieldT → FieldT → FieldT) (hd : d < 64)
    {contents : List FieldT} (hlen : contents.length ≤ 2 ^ d) (hzero : ∀ v ∈ contents, v = 0) :
    ∃ t, ofVector getHash d contents = some t ∧ Represents getHash t d fun _ => 0 := by
  obtain ⟨t, hofVector, hdepth, hdefault, hleaf, hother, hhashes⟩ := exists_ofVector getHash hd hlen
  have hzero' : ∀ a : ℕ, contents[a]?.getD 0 = 0 := by
    intro a
    rw [← getD_eq_getElem?_getD]
    exact congrFun (padded_eq_zero hzero) a
  have hnodes : EmptyNodes getHash d d contents.length t.values := by
    refine ⟨fun l hl p hp => ?_, fun p hp => ?_⟩
    · rw [node_zero_leaves]
      rcases hl.eq_or_lt with rfl | hlt
      · rw [hleaf p hp, Nat.sub_self]
        exact hzero' p
      · rw [hother _ fun a ha => heapIdx_ne_of_layer hp ha hlt.ne, Option.getD_none]
    · rw [hleaf p (hp.trans_le hlen), List.getElem?_eq_getElem hp]
      rfl
  refine ⟨t, hofVector, hdepth, hd, hdefault, fun a ha => ?_, ?_⟩
  · by_cases hlast : ∃ j < 2 ^ d, a = heapIdx d j
    · obtain ⟨j, hj, rfl⟩ := hlast
      rw [hleaf j hj]
      exact hzero' j
    · push Not at hlast
      rw [hother a hlast]
      rfl
  · rw [hhashes, leafIdx_eq hd (Nat.two_pow_pos d), leafIdx_eq_of_le hd hlen]
    exact hnodes.sweepLayers hd le_rfl hlen hdefault

/-! ### Agreement -/

/-- Two trees that cannot be told apart. -/
def Agree (d : ℕ) (t t' : MerkleTreeField FieldT) : Prop :=
  t.getRoot = t'.getRoot ∧ ∀ a < 2 ^ d, t.getValue a = t'.getValue a ∧ t.getPath a = t'.getPath a

/-- The path of every leaf gives the root. -/
def Authenticates (getHash : FieldT → FieldT → FieldT) (d : ℕ) (t : MerkleTreeField FieldT) : Prop :=
  ∀ a < 2 ^ d, ∃ value path, t.getValue a = some value ∧ t.getPath a = some path ∧
    foldPath getHash a value path = t.getRoot

theorem Represents.authenticates {t : MerkleTreeField FieldT} {leaf : ℕ → FieldT}
    (ht : Represents getHash t d leaf) : Authenticates getHash d t := by
  intro a ha
  obtain ⟨path, hpath, hfold⟩ := ht.foldPath ha
  exact ⟨leaf a, path, ht.getValue ha, hpath, hfold⟩

/-- The tree from a map and the trees that are made by calls of `set_value`, in any order, cannot be
told apart. The tree from a vector is the same if and only if all leaves are zero. -/
theorem constructions_agree_iff (getHash : FieldT → FieldT → FieldT) {d : ℕ} (hd : 1 ≤ d)
    (hd64 : d < 64) (contents : List FieldT) (hlen : contents.length ≤ 2 ^ d) :
    ∃ tv tm, ofVector getHash d contents = some tv ∧
      ofMap getHash d (.ofList (addressed contents)) = some tm ∧
      Authenticates getHash d tm ∧
      (∀ calls : List (ℕ × FieldT), calls.Perm (addressed contents) →
        ∃ ts, (new getHash d).bind (MerkleTreeField.setValues getHash · calls) = some ts ∧
          Agree d tm ts ∧ Authenticates getHash d ts) ∧
      ((Agree d tv tm ∧ Authenticates getHash d tv) ↔ ∀ v ∈ contents, v = 0) := by
  have hnodup := nodup_addressed contents
  have hkeys : ∀ p ∈ (OrderedMap.ofList (addressed contents)).entries, p.1 < 2 ^ d := by
    intro p hp
    have hfind := Python.lookup_of_mem (nodup_keys _) hp
    rw [← OrderedMap.find, find_ofList hnodup, lookup_addressed] at hfind
    exact lt_of_mem_addressed hlen p (mem_addressed.mpr hfind)
  obtain ⟨tm, hofMap, hm⟩ := represents_ofMap getHash hd64 hkeys
  have hleaf : (fun a => ((OrderedMap.ofList (addressed contents)).find a).getD 0) =
      padded 0 contents := by
    funext a
    rw [find_ofList hnodup, lookup_addressed, ← getD_eq_getElem?_getD]
    rfl
  rw [hleaf] at hm
  obtain ⟨tv, hofVector, hdepth, -, hvalue, hvalue', -⟩ := exists_ofVector getHash hd64 hlen
  refine ⟨tv, tm, hofVector, hofMap, hm.authenticates, fun calls hcalls => ?_, ?_⟩
  · have hsmall : ∀ call ∈ calls, call.1 < 2 ^ d := fun call hcall =>
      lt_of_mem_addressed hlen call (hcalls.mem_iff.mp hcall)
    obtain ⟨ts, hset, hs⟩ := exists_setValues getHash hd64 hsmall
    have hlast : lastValue calls = padded 0 contents := by
      funext a
      have hperm := (hcalls.symm.trans calls.reverse_perm.symm)
      rw [lastValue, ← lookup_perm hperm hnodup, lookup_addressed,
        ← getD_eq_getElem?_getD]
      rfl
    rw [hlast] at hs
    exact ⟨ts, hset, hm.agree hs, hs.authenticates⟩
  · constructor
    · rintro ⟨⟨-, hagree⟩, -⟩
      have hread : ∀ a < 2 ^ d, (tv.values.find a).getD 0 = padded 0 contents a := by
        intro a ha
        have hadmits : tv.admits a = true := by
          rw [admits_iff, hdepth]
          exact ha.le
        have heq := (hagree a ha).1
        rw [hm.getValue ha, MerkleTreeField.getValue, if_pos hadmits] at heq
        exact Option.some.inj heq
      have hpow : 2 ≤ 2 ^ d := Nat.le_self_pow (by omega) 2
      -- the leaves are not found under their addresses, but for the last one
      have hmost : ∀ a < 2 ^ d - 1, padded 0 contents a = 0 := by
        intro a ha
        rw [← hread a (by omega), hvalue' a fun j _ => by rw [heapIdx]; omega]
        rfl
      have hlast : padded 0 contents (2 ^ d - 1) = 0 := by
        rw [← hread _ (by omega), show 2 ^ d - 1 = heapIdx d 0 from rfl, hvalue 0 (by omega),
          ← getD_eq_getElem?_getD]
        exact hmost 0 (by omega)
      intro v hv
      obtain ⟨a, ha, rfl⟩ := getElem_of_mem hv
      have hpadded : padded 0 contents a = contents[a] := getD_eq_getElem _ _ ha
      rw [← hpadded]
      by_cases hlt : a < 2 ^ d - 1
      · exact hmost a hlt
      · rwa [show a = 2 ^ d - 1 by omega]
    · intro hzero
      obtain ⟨tv', hofVector', hv⟩ := represents_ofVector_zeros getHash hd64 hlen hzero
      obtain rfl := Option.some.inj (hofVector.symm.trans hofVector')
      rw [padded_eq_zero hzero] at hm
      exact ⟨hv.agree hm, hv.authenticates⟩

end Constructors

/-- Two leaves, the second one of them not zero. -/
theorem constructions_agree_pair :
    ∃ tm : MerkleTreeField ℤ, ofMap (fun l r => l + 2 * r) 1 (.ofList (addressed [3, 5])) = some tm ∧
      ∃ ts, (new (fun l r => l + 2 * r) 1).bind
          (MerkleTreeField.setValues (fun l r => l + 2 * r) · [(1, 5), (0, 3)]) = some ts ∧
        Agree 1 tm ts := by
  obtain ⟨tv, tm, -, hofMap, -, hset, -⟩ := constructions_agree_iff
    (fun l r : ℤ => l + 2 * r) (le_refl 1) (by decide) [3, 5] (by decide)
  obtain ⟨ts, hts, hagree, -⟩ := hset [(1, 5), (0, 3)] (List.Perm.swap _ _ _)
  exact ⟨tm, hofMap, ts, hts, hagree⟩

/-- One leaf in a tree of four: the constructor from a vector does not find the leaf and loses its
node, so that the root is that of the empty tree. -/
theorem constructions_disagree_one_leaf :
    ∃ tv tm : MerkleTreeField ℤ, ofVector (fun l r => l + 2 * r) 2 [1] = some tv ∧
      ofMap (fun l r => l + 2 * r) 2 (.ofList (addressed [1])) = some tm ∧
      tv.getRoot = 0 ∧ tm.getRoot = 1 ∧ tv.getValue 0 = some 0 ∧ tm.getValue 0 = some 1 := by
  have hassert : Nat.clog 2 ([1] : List ℤ).length ≤ 2 := by simp
  have hadmits : decide (Nat.clog 2 0 ≤ 2) = true := by simp
  exact ⟨_, _, if_pos (e := none) hassert, rfl, rfl, rfl, if_pos hadmits, if_pos hadmits⟩

end MerkleTreeField

end Zeth.Core
