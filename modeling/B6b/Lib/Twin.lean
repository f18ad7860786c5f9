/-
# Two operations side by side

`Twin x y s t Q E`: from `s` and from `t`, the operations `x` and `y` end alike. Both succeed, with
results and states as in `Q`, or both fail, in states as in `E`, or neither returns. The states may
be of different kinds: `y` may be what `x` is meant to be. The rules follow the text of both
operations where they go in step, and that of one of them where it goes alone.

Key definitions: `Op.Twin`.
-/
import B6b.Lib.Op

namespace Op

variable {σ τ α β γ δ : Type}

/-- `x` from `s` and `y` from `t` end alike. -/
def Twin (x : Op σ α) (y : Op τ β) (s : σ) (t : τ) (Q : α → σ → β → τ → Prop)
    (E : σ → τ → Prop) : Prop :=
  match x s, y t with
  | .ok a s', .ok b t' => Q a s' b t'
  | .fail s', .fail t' => E s' t'
  | .crash, .crash => True
  | _, _ => False

variable {x : Op σ α} {y : Op τ β} {f : α → Op σ γ} {g : β → Op τ δ} {s s' : σ} {t t' : τ}
  {Q Q' : α → σ → β → τ → Prop} {T : γ → σ → δ → τ → Prop} {E E' : σ → τ → Prop}

theorem twin_pure {a : α} {b : β} (h : Q a s b t) : Twin (pure a) (pure b) s t Q E := h

theorem twin_fail (h : E s t) : Twin (Op.fail : Op σ α) (Op.fail : Op τ β) s t Q E := h

theorem twin_crash : Twin (crash : Op σ α) (crash : Op τ β) s t Q E := trivial

theorem twin_ok {a : α} {b : β} (hx : x s = .ok a s') (hy : y t = .ok b t') (h : Q a s' b t') :
    Twin x y s t Q E := by
  unfold Twin
  rw [hx, hy]
  exact h

/-- What becomes of the two operations. -/
theorem Twin.cases (h : Twin x y s t Q E) :
    (∃ a s' b t', x s = .ok a s' ∧ y t = .ok b t' ∧ Q a s' b t') ∨
      (∃ s' t', x s = .fail s' ∧ y t = .fail t' ∧ E s' t') ∨ (x s = .crash ∧ y t = .crash) := by
  unfold Twin at h
  cases hx : x s with
  | ok a s' =>
    cases hy : y t with
    | ok b t' =>
      rw [hx, hy] at h
      exact .inl ⟨a, s', b, t', rfl, rfl, h⟩
    | fail t' =>
      rw [hx, hy] at h
      exact h.elim
    | crash =>
      rw [hx, hy] at h
      exact h.elim
  | fail s' =>
    cases hy : y t with
    | ok b t' =>
      rw [hx, hy] at h
      exact h.elim
    | fail t' =>
      rw [hx, hy] at h
      exact .inr (.inl ⟨s', t', rfl, rfl, h⟩)
    | crash =>
      rw [hx, hy] at h
      exact h.elim
  | crash =>
    cases hy : y t with
    | ok b t' =>
      rw [hx, hy] at h
      exact h.elim
    | fail t' =>
      rw [hx, hy] at h
      exact h.elim
    | crash => exact .inr (.inr ⟨rfl, rfl⟩)

theorem Twin.mono (h : Twin x y s t Q E) (hQ : ∀ a s' b t', Q a s' b t' → Q' a s' b t')
    (hE : ∀ s' t', E s' t' → E' s' t') : Twin x y s t Q' E' := by
  unfold Twin
  rcases h.cases with ⟨a, s', b, t', hx, hy, hq⟩ | ⟨s', t', hx, hy, he⟩ | ⟨hx, hy⟩
  · rw [hx, hy]
    exact hQ a s' b t' hq
  · rw [hx, hy]
    exact hE s' t' he
  · rw [hx, hy]
    trivial

/-- Both go on. -/
theorem twin_bind (h : Twin x y s t Q E)
    (hf : ∀ a s' b t', Q a s' b t' → Twin (f a) (g b) s' t' T E) :
    Twin (x >>= f) (y >>= g) s t T E := by
  unfold Twin
  rw [bind_apply, bind_apply]
  rcases h.cases with ⟨a, s', b, t', hx, hy, hq⟩ | ⟨s', t', hx, hy, he⟩ | ⟨hx, hy⟩
  · rw [hx, hy]
    exact hf a s' b t' hq
  · rw [hx, hy]
    exact he
  · rw [hx, hy]
    trivial

/-- The first one takes a step alone. -/
theorem twin_bind_left {a : α} {y : Op τ δ} (hx : x s = .ok a s') (h : Twin (f a) y s' t T E) :
    Twin (x >>= f) y s t T E := by
  unfold Twin
  rw [bind_ok hx]
  exact h

end Op
