import Mathlib.Init

/-!
# Stateful computations that may raise

Rules for computations over a state that is kept when an exception is raised. `Returns` says that
a computation ends without an exception and in what, `Raises` that it ends in one.

## Main definitions

* `Stateful`, `Stateful.Returns`, `Stateful.Raises`, `Stateful.call`.

## Main results

* `Stateful.Returns.bind`, `Stateful.Raises.bind`, `Stateful.raises_bind_of_ok`: sequences.
* `Stateful.Returns.not_raises`: a computation does one or the other.
* `Stateful.foldlM_returns_or_raises`: a loop with an invariant.
-/

/-- A computation over a state, which survives an exception. -/
abbrev Stateful (ε σ : Type) := EStateM ε σ

namespace Stateful

open List

variable {ε σ α β : Type}

/-- The computation returns, with a result and a state that have the property. -/
def Returns (x : Stateful ε σ α) (s : σ) (P : α → σ → Prop) : Prop :=
  ∃ a s', x s = .ok a s' ∧ P a s'

/-- The computation raises the exception. -/
def Raises (x : Stateful ε σ α) (s : σ) (e : ε) : Prop := ∃ s', x s = .error e s'

/-- Run a computation that has no state. -/
def call : Except ε α → Stateful ε σ α
  | .ok a => pure a
  | .error e => throw e

/-- The state that a computation ends in, with or without an exception. -/
def finalState : EStateM.Result ε σ α → σ
  | .ok _ s => s
  | .error _ s => s

theorem Returns.not_raises {x : Stateful ε σ α} {s : σ} {P : α → σ → Prop}
    (h : Returns x s P) (e : ε) : ¬ Raises x s e := by
  obtain ⟨a, s', hx, -⟩ := h
  rintro ⟨s'', hx'⟩
  rw [hx] at hx'
  cases hx'

theorem Returns.mono {x : Stateful ε σ α} {s : σ} {P Q : α → σ → Prop} (h : Returns x s P)
    (hPQ : ∀ a s', P a s' → Q a s') : Returns x s Q := by
  obtain ⟨a, s', hx, hP⟩ := h
  exact ⟨a, s', hx, hPQ a s' hP⟩

theorem returns_pure {a : α} {s : σ} {P : α → σ → Prop} (h : P a s) :
    Returns (pure a : Stateful ε σ α) s P :=
  ⟨a, s, rfl, h⟩

theorem returns_modify {f : σ → σ} {s : σ} {P : PUnit → σ → Prop} (h : P ⟨⟩ (f s)) :
    Returns (modify f : Stateful ε σ PUnit) s P :=
  ⟨⟨⟩, f s, rfl, h⟩

/-- A sequence returns when its first step returns and the rest does from there. -/
theorem Returns.bind {x : Stateful ε σ α} {f : α → Stateful ε σ β} {s : σ} {P : α → σ → Prop}
    {Q : β → σ → Prop} (hx : Returns x s P) (hf : ∀ a s', P a s' → Returns (f a) s' Q) :
    Returns (x >>= f) s Q := by
  obtain ⟨a, s', hx, hP⟩ := hx
  obtain ⟨b, s'', hfa, hQ⟩ := hf a s' hP
  refine ⟨b, s'', ?_, hQ⟩
  change EStateM.bind x f s = _
  rw [EStateM.bind, hx]
  exact hfa

/-- A sequence raises when its first step does. -/
theorem Raises.bind {x : Stateful ε σ α} {s : σ} {e : ε} (hx : Raises x s e)
    (f : α → Stateful ε σ β) : Raises (x >>= f) s e := by
  obtain ⟨s', hx⟩ := hx
  refine ⟨s', ?_⟩
  change EStateM.bind x f s = _
  rw [EStateM.bind, hx]

/-- A sequence raises when its first step returns and the rest raises from there. -/
theorem raises_bind_of_ok {x : Stateful ε σ α} {f : α → Stateful ε σ β} {s s' : σ} {a : α} {e : ε}
    (hx : x s = .ok a s') (hf : Raises (f a) s' e) : Raises (x >>= f) s e := by
  obtain ⟨s'', hfa⟩ := hf
  refine ⟨s'', ?_⟩
  change EStateM.bind x f s = _
  rw [EStateM.bind, hx]
  exact hfa

theorem returns_bind_of_ok {x : Stateful ε σ α} {f : α → Stateful ε σ β} {s s' : σ} {a : α}
    {P : β → σ → Prop} (hx : x s = .ok a s') (hf : Returns (f a) s' P) :
    Returns (x >>= f) s P :=
  Returns.bind (P := fun b s'' => b = a ∧ s'' = s') ⟨a, s', hx, rfl, rfl⟩ fun _ _ h => by
    rw [h.1, h.2]
    exact hf

/-- A result and a state given by equations. -/
theorem Returns.eq_ok {x : Stateful ε σ α} {s s' : σ} {a : α}
    (h : Returns x s fun b s'' => b = a ∧ s'' = s') : x s = .ok a s' := by
  obtain ⟨_, _, hx, rfl, rfl⟩ := h
  exact hx

theorem bind_of_ok {x : Stateful ε σ α} (f : α → Stateful ε σ β) {s s' : σ} {a : α}
    (hx : x s = .ok a s') : (x >>= f) s = f a s' := by
  change EStateM.bind x f s = _
  rw [EStateM.bind, hx]

theorem finalState_bind_pure (x : Stateful ε σ α) (b : β) (s : σ) :
    finalState ((x >>= fun _ => pure b) s) = finalState (x s) := by
  change finalState (EStateM.bind x _ s) = _
  rw [EStateM.bind]
  cases x s with
  | ok a s' => rfl
  | error e s' => rfl

/-- A sequence that returns is made of steps that return. -/
theorem bind_eq_ok {x : Stateful ε σ α} {f : α → Stateful ε σ β} {s s'' : σ} {b : β}
    (h : (x >>= f) s = .ok b s'') : ∃ a s', x s = .ok a s' ∧ f a s' = .ok b s'' := by
  change EStateM.bind x f s = _ at h
  rw [EStateM.bind] at h
  cases hx : x s with
  | ok a s' =>
    rw [hx] at h
    exact ⟨a, s', rfl, h⟩
  | error e s' =>
    rw [hx] at h
    cases h

/-! ### Sequences that start with a single operation -/

section Bind

variable {s : σ} {P : β → σ → Prop}

theorem returns_get_bind {f : σ → Stateful ε σ β} (h : Returns (f s) s P) :
    Returns (get >>= f) s P := h

theorem raises_get_bind {f : σ → Stateful ε σ β} {e : ε} (h : Raises (f s) s e) :
    Raises (get >>= f) s e := h

theorem returns_modify_bind {g : σ → σ} {f : PUnit → Stateful ε σ β}
    (h : Returns (f ⟨⟩) (g s) P) : Returns (modify g >>= f) s P := h

theorem raises_modify_bind {g : σ → σ} {f : PUnit → Stateful ε σ β} {e : ε}
    (h : Raises (f ⟨⟩) (g s) e) : Raises (modify g >>= f) s e := h

theorem returns_call_bind {x : Except ε α} {a : α} (hx : x = .ok a) {f : α → Stateful ε σ β}
    (h : Returns (f a) s P) : Returns (call x >>= f) s P := by
  subst hx
  exact h

theorem raises_call_bind {x : Except ε α} {e : ε} (hx : x = .error e)
    (f : α → Stateful ε σ β) : Raises (call x >>= f) s e := by
  subst hx
  exact ⟨s, rfl⟩

end Bind

/-! ### Loops -/

section Loop

variable {f : α → β → Stateful ε σ α} (Inv : List β → α → σ → Prop) (Good : List β → β → Prop)
  {total : List β}

/-- A loop over a list, where `Inv` is kept by the steps that are good and the others raise. -/
theorem foldlM_returns_or_raises
    (hgood : ∀ before x after a s, total = before ++ x :: after → Inv before a s → Good before x →
      Returns (f a x) s fun a' s' => Inv (before ++ [x]) a' s')
    (hbad : ∀ before x after a s, total = before ++ x :: after → Inv before a s → ¬ Good before x →
      ∃ e, Raises (f a x) s e)
    (xs : List β) {done rest : List β} (htotal : total = done ++ xs ++ rest) {a : α} {s : σ}
    (h : Inv done a s) :
    ((∀ before x after, xs = before ++ x :: after → Good (done ++ before) x) ∧
      Returns (xs.foldlM f a) s fun a' s' => Inv (done ++ xs) a' s') ∨
    ((¬ ∀ before x after, xs = before ++ x :: after → Good (done ++ before) x) ∧
      ∃ e, Raises (xs.foldlM f a) s e) := by
  induction xs generalizing done a s with
  | nil =>
    refine .inl ⟨fun before x after hnil => ?_, returns_pure ?_⟩
    · exact absurd hnil.symm (append_ne_nil_of_right_ne_nil _ (cons_ne_nil _ _))
    · rwa [append_nil]
  | cons x xs ih =>
    have hfirst : total = done ++ x :: (xs ++ rest) := by
      rw [htotal, append_assoc, cons_append]
    have hrest : total = done ++ [x] ++ xs ++ rest := by
      rw [htotal, append_assoc done [x] xs, singleton_append]
    rw [foldlM_cons]
    by_cases hx : Good done x
    · obtain ⟨a', s', hok, hinv⟩ := hgood done x _ a s hfirst h hx
      rcases ih hrest hinv with ⟨hall, hreturns⟩ | ⟨hnot, e, hraises⟩
      · refine .inl ⟨fun before y after hsplit => ?_, returns_bind_of_ok hok ?_⟩
        · rcases cons_eq_append_iff.mp hsplit with ⟨rfl, hcons⟩ | ⟨before', rfl, hcons⟩
          · obtain ⟨rfl, rfl⟩ := cons_eq_cons.mp hcons
            rwa [append_nil]
          · have hy := hall before' y after hcons
            rwa [append_assoc] at hy
        · rwa [append_assoc] at hreturns
      · refine .inr ⟨fun hall => hnot fun before y after hsplit => ?_, e,
          raises_bind_of_ok hok hraises⟩
        have hy := hall (x :: before) y after (by rw [hsplit, cons_append])
        rwa [append_assoc]
    · obtain ⟨e, hraises⟩ := hbad done x _ a s hfirst h hx
      refine .inr ⟨fun hall => hx ?_, e, hraises.bind _⟩
      have hy := hall [] x xs rfl
      rwa [append_nil] at hy

end Loop

end Stateful
