/-
# Operations on a state that may fail or crash

`Op σ α` is an operation on a state `σ`, as a C function is one: it returns a
value, or it fails and leaves the state as far as it got (`return 0`), or it
never returns.

`Ends x s Q E` says how `x` may end when it starts in `s`: with a result and a state
as in `Q`, or failed in a state as in `E`, or never. A `Frame` is a reflexive and
transitive relation between states; an operation keeps it (`Keeps`) if it ends in a
state above the one it started in. `Gives` is about the result alone. The rules follow the
operation's text.

Key definitions: `Op`, `Op.Ends`, `Op.Returns`, `Op.Gives`, `Op.Keeps`.
-/
import Mathlib.Data.List.Basic
import Mathlib.Tactic.TypeStar

/-- What becomes of an operation. -/
inductive Outcome (σ α : Type)
  | ok (a : α) (s : σ)
  | fail (s : σ)
  | crash

/-- An operation on a state `σ` with a result in `α`. -/
def Op (σ α : Type) := σ → Outcome σ α

namespace Op

variable {σ α β γ : Type}

/-- Run `x`; if it succeeds, run `f` on its result. -/
def bind (x : Op σ α) (f : α → Op σ β) : Op σ β := fun s =>
  match x s with
  | .ok a s' => f a s'
  | .fail s' => .fail s'
  | .crash => .crash

instance : Monad (Op σ) where
  pure a := fun s => .ok a s
  bind := bind

/-- Return without success. -/
def fail : Op σ α := fun s => .fail s

/-- Never return. -/
def crash : Op σ α := fun _ => .crash

/-- Read something off the state. -/
def read (f : σ → α) : Op σ α := fun s => .ok (f s) s

/-- Change the state. -/
def modify (f : σ → σ) : Op σ Unit := fun s => .ok () (f s)

/-- Run `x` and tell whether it succeeded. -/
def attempt (x : Op σ α) : Op σ (Option α) := fun s =>
  match x s with
  | .ok a s' => .ok (some a) s'
  | .fail s' => .ok none s'
  | .crash => .crash

/-- The state an outcome leaves, if the operation returned. -/
def state? : Outcome σ α → Option σ
  | .ok _ s => some s
  | .fail s => some s
  | .crash => none

theorem bind_apply (x : Op σ α) (f : α → Op σ β) (s : σ) :
    (x >>= f) s = match x s with
      | .ok a s' => f a s'
      | .fail s' => .fail s'
      | .crash => .crash := rfl

theorem pure_bind (a : α) (f : α → Op σ β) : ((pure a : Op σ α) >>= f) = f a := rfl

theorem bind_assoc (x : Op σ α) (f : α → Op σ β) (g : β → Op σ γ) :
    (x >>= f) >>= g = x >>= fun a => f a >>= g := by
  funext s
  simp only [bind_apply]
  cases x s <;> rfl

theorem bind_congr {x : Op σ α} {f g : α → Op σ β} (h : ∀ a, f a = g a) : x >>= f = x >>= g := by
  rw [funext h]

theorem bind_ok {x : Op σ α} {s s' : σ} {a : α} (h : x s = .ok a s') (f : α → Op σ β) :
    (x >>= f) s = f a s' := by
  rw [bind_apply, h]

theorem bind_eq_ok {x : Op σ α} {f : α → Op σ β} {s s' : σ} {b : β} :
    (x >>= f) s = .ok b s' ↔ ∃ a s₁, x s = .ok a s₁ ∧ f a s₁ = .ok b s' := by
  rw [bind_apply]
  cases x s <;> simp

/-- What follows an operation that returns returns if it does so from every result. -/
theorem bind_ne_crash {x : Op σ α} {f : α → Op σ β} {s : σ} (hx : x s ≠ .crash)
    (hf : ∀ a s', x s = .ok a s' → f a s' ≠ .crash) : (x >>= f) s ≠ .crash := by
  rw [bind_apply]
  cases hxs : x s with
  | ok a s' => exact hf a s' hxs
  | fail s' => exact nofun
  | crash => exact absurd hxs hx

theorem attempt_ok {x : Op σ α} {s s' : σ} {a : α} (h : x s = .ok a s') :
    attempt x s = .ok (some a) s' := by
  unfold attempt
  rw [h]

theorem attempt_eq_some {x : Op σ α} {s s' : σ} {a : α} (h : attempt x s = .ok (some a) s') :
    x s = .ok a s' := by
  unfold attempt at h
  cases hx : x s with
  | ok b s₁ =>
    rw [hx] at h
    cases h
    rfl
  | fail s₁ =>
    rw [hx] at h
    cases h
  | crash =>
    rw [hx] at h
    cases h

/-! ### How an operation ends -/

/-- If `x` returns from `s`, it has succeeded as in `Q` or failed as in `E`. -/
def Ends (x : Op σ α) (s : σ) (Q : α → σ → Prop) (E : σ → Prop) : Prop :=
  match x s with
  | .ok a s' => Q a s'
  | .fail s' => E s'
  | .crash => True

/-- If `x` returns from `s`, it has succeeded as in `Q`. -/
abbrev Returns (x : Op σ α) (s : σ) (Q : α → σ → Prop) : Prop := Ends x s Q fun _ => False

section Ends

variable {x : Op σ α} {f : α → Op σ β} {s : σ} {Q : α → σ → Prop} {R : β → σ → Prop} {E : σ → Prop}

theorem Ends.ok (h : Ends x s Q E) {a : α} {s' : σ} (hx : x s = .ok a s') : Q a s' := by
  unfold Ends at h
  rw [hx] at h
  exact h

theorem Ends.fail (h : Ends x s Q E) {s' : σ} (hx : x s = .fail s') : E s' := by
  unfold Ends at h
  rw [hx] at h
  exact h

theorem ends_of {Q : α → σ → Prop} (hok : ∀ a s', x s = .ok a s' → Q a s')
    (hfail : ∀ s', x s = .fail s' → E s') : Ends x s Q E := by
  unfold Ends
  cases hx : x s with
  | ok a s' => exact hok a s' hx
  | fail s' => exact hfail s' hx
  | crash => trivial

theorem Ends.mono (h : Ends x s Q E) {Q' : α → σ → Prop} {E' : σ → Prop}
    (hQ : ∀ a s', Q a s' → Q' a s') (hE : ∀ s', E s' → E' s') : Ends x s Q' E' :=
  ends_of (fun _ _ hx => hQ _ _ (h.ok hx)) fun _ hx => hE _ (h.fail hx)

/-- Whatever way `x` returns, it leaves a state as in `E`. -/
theorem Ends.state {E : σ → Prop} (h : Ends x s (fun _ => E) E) {s' : σ}
    (hx : state? (x s) = some s') : E s' := by
  cases hxs : x s with
  | ok a s₁ =>
    rw [hxs] at hx
    obtain rfl := Option.some.inj hx
    exact h.ok hxs
  | fail s₁ =>
    rw [hxs] at hx
    obtain rfl := Option.some.inj hx
    exact h.fail hxs
  | crash =>
    rw [hxs] at hx
    cases hx

theorem Returns.mono (h : Returns x s Q) {Q' : α → σ → Prop} (hQ : ∀ a s', Q a s' → Q' a s') :
    Ends x s Q' E :=
  Ends.mono h hQ fun _ => False.elim

theorem ends_pure {a : α} (h : Q a s) : Ends (pure a) s Q E := h

theorem ends_crash : Ends (crash : Op σ α) s Q E := trivial

theorem ends_fail (h : E s) : Ends (Op.fail : Op σ α) s Q E := h

theorem ends_modify {g : σ → σ} {Q : Unit → σ → Prop} (h : Q () (g s)) : Ends (modify g) s Q E := h

theorem ends_bind (hx : Ends x s Q E) (hf : ∀ a s', Q a s' → Ends (f a) s' R E) :
    Ends (x >>= f) s R E := by
  unfold Ends
  rw [bind_apply]
  cases hxs : x s with
  | ok a s' => exact hf a s' (hx.ok hxs)
  | fail s' => exact hx.fail hxs
  | crash => trivial

/-- What follows an operation, which may know what came before. -/
theorem ends_bind_of (hf : ∀ a s', x s = .ok a s' → Ends (f a) s' R fun _ => True) :
    Ends (x >>= f) s R fun _ => True :=
  ends_bind (ends_of (Q := fun a s' => x s = .ok a s') (fun _ _ h => h) fun _ _ => trivial) hf

/-- What follows an operation that does not fail. -/
theorem returns_bind (hx : Returns x s Q) (hf : ∀ a s', Q a s' → Ends (f a) s' R E) :
    Ends (x >>= f) s R E :=
  ends_bind (hx.mono fun _ _ => id) hf

/-- What follows an operation whose result is known. -/
theorem ends_bind_ok {a : α} {s' : σ} (hx : x s = .ok a s') (hf : Ends (f a) s' R E) :
    Ends (x >>= f) s R E := by
  unfold Ends
  rw [bind_ok hx]
  exact hf

theorem returns_attempt {T : Option α → σ → Prop}
    (hx : Ends x s (fun a => T (some a)) (T none)) : Returns (attempt x) s T := by
  unfold Returns Ends attempt
  cases hxs : x s with
  | ok a s' => exact hx.ok hxs
  | fail s' => exact hx.fail hxs
  | crash => trivial

end Ends

/-! ### What an operation returns -/

/-- Whatever `x` returns is as in `Q`, from any state. -/
def Gives (x : Op σ α) (Q : α → Prop) : Prop := ∀ s, Ends x s (fun a _ => Q a) fun _ => True

section Gives

variable {x : Op σ α} {f : α → Op σ β} {Q : α → Prop} {R : β → Prop}

theorem Gives.ok (h : Gives x Q) {s s' : σ} {a : α} (hx : x s = .ok a s') : Q a := (h s).ok hx

theorem Gives.mono {R : α → Prop} (h : Gives x Q) (hR : ∀ a, Q a → R a) : Gives x R :=
  fun s => (h s).mono (fun a _ => hR a) fun _ => id

theorem gives_pure {a : α} (h : Q a) : Gives (pure a : Op σ α) Q := fun _ => ends_pure h

theorem gives_crash : Gives (crash : Op σ α) Q := fun _ => ends_crash

theorem gives_bind (hx : Gives x Q) (hf : ∀ a, Q a → Gives (f a) R) : Gives (x >>= f) R :=
  fun s => ends_bind (hx s) fun a s' ha => hf a ha s'

theorem Gives.and {R : α → Prop} (h : Gives x Q) (h' : Gives x R) : Gives x fun a => Q a ∧ R a :=
  fun _ => ends_of (fun _ _ hx => ⟨h.ok hx, h'.ok hx⟩) fun _ _ => trivial

/-- What follows an operation of which nothing is known. -/
theorem gives_of_bind (hf : ∀ a, Gives (f a) R) : Gives (x >>= f) R :=
  fun _ => ends_bind_of fun a s' _ => hf a s'

end Gives

/-! ### Mapped results -/

/-- `x`, with `g` on its result. -/
def map (g : α → β) (x : Op σ α) : Op σ β := x >>= fun a => pure (g a)

section Map

variable {δ : Type} {x : Op σ α} {f : α → Op σ β} {g : β → γ}

/-- What follows an operation is mapped. -/
theorem map_of_bind {f' : α → Op σ γ} (hf : ∀ a, f' a = map g (f a)) : x >>= f' = map g (x >>= f) := by
  unfold map
  rw [bind_assoc]
  exact bind_congr hf

/-- What follows a mapped operation is mapped. -/
theorem map_bind {u : α → δ} {x' : Op σ δ} {f' : δ → Op σ γ} (hx : x' = map u x)
    (hf : ∀ a, f' (u a) = map g (f a)) : x' >>= f' = map g (x >>= f) := by
  subst hx
  unfold map
  rw [bind_assoc, bind_assoc]
  exact bind_congr hf

theorem map_apply (g : β → γ) (x : Op σ β) (s : σ) : map g x s = match x s with
    | .ok b s' => .ok (g b) s'
    | .fail s' => .fail s'
    | .crash => .crash := rfl

end Map

/-! ### Frames -/

/-- What operations leave alone, as a relation between the state before and after. -/
structure Frame (σ : Type) where
  Rel : σ → σ → Prop
  refl : ∀ s, Rel s s
  trans : ∀ {a b c}, Rel a b → Rel b c → Rel a c

variable {R : Frame σ}

/-- If `x` returns from `s`, it returns in a state above `s`. -/
def KeepsAt (R : Frame σ) (x : Op σ α) (s : σ) : Prop := Ends x s (fun _ => R.Rel s) (R.Rel s)

/-- Wherever `x` returns, it returns in a state above the one it started in. -/
def Keeps (R : Frame σ) (x : Op σ α) : Prop := ∀ s, KeepsAt R x s

/-- What comes next starts in a state above `s`, and may know what came before. -/
theorem keepsAt_bind {x : Op σ α} {f : α → Op σ β} {s : σ} (hx : KeepsAt R x s)
    (hf : ∀ a s₁, x s = .ok a s₁ → KeepsAt R (f a) s₁) : KeepsAt R (x >>= f) s := by
  refine ends_bind (ends_of (Q := fun a s₁ => x s = .ok a s₁) (fun _ _ h => h) fun _ => hx.fail) ?_
  intro a s₁ h
  exact (hf a s₁ h).mono (fun _ _ => R.trans (hx.ok h)) fun _ => R.trans (hx.ok h)

/-- What follows an operation that keeps the frame. -/
theorem ends_bind_keepsAt {x : Op σ α} {f : α → Op σ β} {s : σ} {Q : β → σ → Prop}
    (hx : KeepsAt R x s) (hf : ∀ a s', R.Rel s s' → Ends (f a) s' Q fun _ => True) :
    Ends (x >>= f) s Q fun _ => True :=
  ends_bind (hx.mono (fun _ _ => id) fun _ _ => trivial) hf

theorem keeps_bind {x : Op σ α} {f : α → Op σ β} (hx : Keeps R x) (hf : ∀ a, Keeps R (f a)) :
    Keeps R (x >>= f) :=
  fun s => keepsAt_bind (hx s) fun a s₁ _ => hf a s₁

theorem keeps_pure (a : α) : Keeps R (pure a : Op σ α) := fun s => ends_pure (R.refl s)

theorem keeps_fail : Keeps R (Op.fail : Op σ α) := fun s => ends_fail (R.refl s)

theorem keeps_crash : Keeps R (crash : Op σ α) := fun _ => ends_crash

/-- What an operation returns that keeps the frame. -/
theorem Returns.keepsAt {x : Op σ α} {s : σ} {Q : α → σ → Prop} (h : Returns x s Q) (hx : KeepsAt R x s) :
    Returns x s fun a s' => R.Rel s s' ∧ Q a s' :=
  ends_of (fun _ _ hok => ⟨hx.ok hok, h.ok hok⟩) fun _ => h.fail

theorem keepsAt_attempt {x : Op σ α} {s : σ} (hx : KeepsAt R x s) : KeepsAt R (attempt x) s :=
  (returns_attempt (T := fun _ => R.Rel s) hx).mono fun _ _ => id

theorem keeps_attempt {x : Op σ α} (hx : Keeps R x) : Keeps R (attempt x) :=
  fun s => keepsAt_attempt (hx s)

end Op
