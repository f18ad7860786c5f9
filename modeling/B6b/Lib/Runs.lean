/-
# Runs of a machine that moves one action at a time

A machine is a partial step function: `step s a` is the state behind the action `a`,
if the machine can take it. A run is a list of actions, and it ends at the first one
the machine cannot take. `Throughout P` says that `P` holds of every state a run
passes, `EachStep C` that every action it takes meets `C` in the state it is taken in.

`throughout_of_eachStep` turns what one step keeps into what a run keeps;
`throughout_iff_eachStep` is the same for a condition that is exact, and `run_rel` for two
machines that go in step.
-/
import Mathlib.Tactic.TypeStar

namespace Runs

variable {σ α : Type*} (step : σ → α → Option σ)

/-- `P` holds of every state the run passes. -/
def Throughout (P : σ → Prop) : σ → List α → Prop
  | s, [] => P s
  | s, a :: as => P s ∧ match step s a with
    | some s' => Throughout P s' as
    | none => True

/-- Every action the run takes meets `C` where it is taken. -/
def EachStep (C : σ → α → Prop) : σ → List α → Prop
  | _, [] => True
  | s, a :: as => match step s a with
    | some s' => C s a ∧ EachStep C s' as
    | none => True

variable {step} {P : σ → Prop} {C : σ → α → Prop}

instance decThroughout [DecidablePred P] :
    ∀ (s : σ) (as : List α), Decidable (Throughout step P s as)
  | s, [] => inferInstanceAs (Decidable (P s))
  | s, a :: as =>
    have : Decidable (match step s a with
        | some s' => Throughout step P s' as
        | none => True) :=
      match step s a with
      | some s' => decThroughout s' as
      | none => inferInstanceAs (Decidable True)
    inferInstanceAs (Decidable (P s ∧ _))

instance decEachStep [∀ s a, Decidable (C s a)] :
    ∀ (s : σ) (as : List α), Decidable (EachStep step C s as)
  | _, [] => inferInstanceAs (Decidable True)
  | s, a :: as =>
    match h : step s a with
    | some s' =>
      have : Decidable (EachStep step C s' as) := decEachStep s' as
      decidable_of_iff (C s a ∧ EachStep step C s' as) (by simp [EachStep, h])
    | none => .isTrue (by simp [EachStep, h])

theorem Throughout.head {s : σ} {as : List α} (h : Throughout step P s as) : P s := by
  cases as with
  | nil => exact h
  | cons a as => exact h.1

theorem Throughout.mono {Q : σ → Prop} (hPQ : ∀ s, P s → Q s) :
    ∀ {s : σ} {as : List α}, Throughout step P s as → Throughout step Q s as
  | s, [], h => hPQ s h
  | s, a :: as, h => by
    refine ⟨hPQ s h.1, ?_⟩
    have hrest := h.2
    rcases hs : step s a with _ | s' <;> simp only [hs] at hrest ⊢
    exact Throughout.mono hPQ hrest

theorem Throughout.and {Q : σ → Prop} : ∀ {s : σ} {as : List α}, Throughout step P s as →
    Throughout step Q s as → Throughout step (fun s => P s ∧ Q s) s as
  | s, [], h, hq => ⟨h, hq⟩
  | s, a :: as, h, hq => by
    refine ⟨⟨h.1, hq.1⟩, ?_⟩
    have hrest := h.2
    have hrest' := hq.2
    rcases hs : step s a with _ | s' <;> simp only [hs] at hrest hrest' ⊢
    exact hrest.and hrest'

theorem EachStep.mono {D : σ → α → Prop} (hCD : ∀ s a, C s a → D s a) :
    ∀ {s : σ} {as : List α}, EachStep step C s as → EachStep step D s as
  | _, [], _ => trivial
  | s, a :: as, h => by
    unfold EachStep at h ⊢
    rcases hs : step s a with _ | s' <;> simp only [hs] at h ⊢
    exact ⟨hCD s a h.1, EachStep.mono hCD h.2⟩

theorem eachStep_true : ∀ (s : σ) (as : List α), EachStep step (fun _ _ => True) s as
  | _, [] => trivial
  | s, a :: as => by
    unfold EachStep
    cases step s a with
    | none => trivial
    | some s' => exact ⟨trivial, eachStep_true s' as⟩

/-- What every step that meets `C` keeps, every run whose steps meet `C` keeps. -/
theorem throughout_of_eachStep (hstep : ∀ s a s', P s → C s a → step s a = some s' → P s') :
    ∀ {s : σ} {as : List α}, P s → EachStep step C s as → Throughout step P s as
  | s, [], h, _ => h
  | s, a :: as, h, hc => by
    refine ⟨h, ?_⟩
    unfold EachStep at hc
    rcases hs : step s a with _ | s' <;> simp only [hs] at hc ⊢
    exact throughout_of_eachStep hstep (hstep s a s' h hc.1 hs) hc.2

/-- If a step keeps `P` exactly when it meets `C`, a run keeps `P` exactly when all its
steps meet `C`. -/
theorem throughout_iff_eachStep (hstep : ∀ s a s', P s → step s a = some s' → (P s' ↔ C s a)) :
    ∀ {s : σ} {as : List α}, P s → (Throughout step P s as ↔ EachStep step C s as)
  | s, [], h => iff_of_true h trivial
  | s, a :: as, h => by
    unfold Throughout EachStep
    rcases hs : step s a with _ | s'
    · exact iff_of_true ⟨h, trivial⟩ trivial
    · refine ⟨fun ht => ?_, fun hc => ⟨h, ?_⟩⟩
      · have h' : P s' := ht.2.head
        exact ⟨(hstep s a s' h hs).mp h', (throughout_iff_eachStep hstep h').mp ht.2⟩
      · exact (throughout_iff_eachStep hstep ((hstep s a s' h hs).mpr hc.1)).mpr hc.2

/-- Two conditions that say the same wherever `I` holds say the same of a run, if they keep `I`. -/
theorem eachStep_iff_of_inv {I : σ → Prop} {G : σ → α → Prop}
    (hstep : ∀ s a s', I s → step s a = some s' → (C s a → I s') ∧ (G s a ↔ C s a)) :
    ∀ {s : σ} {as : List α}, I s → (EachStep step G s as ↔ EachStep step C s as)
  | _, [], _ => Iff.rfl
  | s, a :: as, h => by
    unfold EachStep
    rcases hs : step s a with _ | s'
    · exact Iff.rfl
    · obtain ⟨hkeep, hiff⟩ := hstep s a s' h hs
      constructor
      · rintro ⟨hg, hrest⟩
        have hc : C s a := hiff.mp hg
        exact ⟨hc, (eachStep_iff_of_inv hstep (hkeep hc)).mp hrest⟩
      · rintro ⟨hc, hrest⟩
        exact ⟨hiff.mpr hc, (eachStep_iff_of_inv hstep (hkeep hc)).mpr hrest⟩

/-! ### What a run has done -/

/-- The machine with a record of what its run has done, which each step brings up to date. -/
def tracked {γ : Type*} (step : σ → α → Option σ) (upd : σ → γ → σ → γ) :
    σ × γ → α → Option (σ × γ) :=
  fun p a => (step p.1 a).map fun s' => (s', upd p.1 p.2 s')

theorem tracked_eq_some {γ : Type*} {upd : σ → γ → σ → γ} {p p' : σ × γ} {a : α} :
    tracked step upd p a = some p' ↔ step p.1 a = some p'.1 ∧ p'.2 = upd p.1 p.2 p'.1 := by
  unfold tracked
  rw [Option.map_eq_some_iff]
  refine ⟨?_, fun ⟨hs, hg⟩ => ⟨p'.1, hs, by rw [← hg]⟩⟩
  rintro ⟨s', hs, rfl⟩
  exact ⟨hs, rfl⟩

/-- The state a run leads to, if all its actions can be taken. -/
def run (step : σ → α → Option σ) : σ → List α → Option σ
  | s, [] => some s
  | s, a :: as =>
    match step s a with
    | some s' => run step s' as
    | none => none

theorem Throughout.run : ∀ {s s' : σ} {as : List α}, Throughout step P s as →
    Runs.run step s as = some s' → P s'
  | s, s', [], h, hr => by
    obtain rfl := Option.some.inj hr
    exact h
  | s, s', a :: as, h, hr => by
    have hrest := h.2
    unfold Runs.run at hr
    rcases hs : step s a with _ | s₁ <;> simp only [hs] at hrest hr
    · cases hr
    · exact Throughout.run hrest hr

/-! ### Two machines -/

/-- Every action the run tries meets `C`, the one it stops at too. -/
def Tries (step : σ → α → Option σ) (C : σ → α → Prop) : σ → List α → Prop
  | _, [] => True
  | s, a :: as => C s a ∧ match step s a with
    | some s' => Tries step C s' as
    | none => True

instance decTries [∀ s a, Decidable (C s a)] : ∀ (s : σ) (as : List α), Decidable (Tries step C s as)
  | _, [] => inferInstanceAs (Decidable True)
  | s, a :: as =>
    have : Decidable (match step s a with
        | some s' => Tries step C s' as
        | none => True) :=
      match step s a with
      | some s' => decTries s' as
      | none => inferInstanceAs (Decidable True)
    inferInstanceAs (Decidable (C s a ∧ _))

theorem Tries.mono {D : σ → α → Prop} (hCD : ∀ s a, C s a → D s a) :
    ∀ {s : σ} {as : List α}, Tries step C s as → Tries step D s as
  | _, [], _ => trivial
  | s, a :: as, h => by
    obtain ⟨hc, hrest⟩ := h
    refine ⟨hCD s a hc, ?_⟩
    rcases hs : step s a with _ | s' <;> simp only [hs] at hrest ⊢
    exact hrest.mono hCD

theorem Tries.eachStep : ∀ {s : σ} {as : List α}, Tries step C s as → EachStep step C s as
  | _, [], _ => trivial
  | s, a :: as, h => by
    obtain ⟨hc, hrest⟩ := h
    unfold EachStep
    rcases hs : step s a with _ | s' <;> simp only [hs] at hrest ⊢
    exact ⟨hc, hrest.eachStep⟩

/-- Two machines that go in step, from states in `S`, through every action that meets `C`, go through
a run in step. -/
theorem run_rel {τ β : Type*} {step' : τ → β → Option τ} {S : σ → τ → Prop} {f : α → β}
    (hstep : ∀ s t a, S s t → C s a → Option.Rel S (step s a) (step' t (f a))) :
    ∀ {s : σ} {t : τ} {as : List α}, S s t → Tries step C s as →
      Option.Rel S (run step s as) (run step' t (as.map f))
  | _, _, [], h, _ => .some h
  | s, t, a :: as, h, hc => by
    obtain ⟨hca, hrest⟩ := hc
    have hrel := hstep s t a h hca
    show Option.Rel S (run step s (a :: as)) (run step' t (f a :: as.map f))
    unfold run
    rcases hs : step s a with _ | s' <;> rw [hs] at hrel <;> simp only [hs] at hrest
    · rcases ht : step' t (f a) with _ | t'
      · exact .none
      · rw [ht] at hrel
        cases hrel
    · rcases ht : step' t (f a) with _ | t'
      · rw [ht] at hrel
        cases hrel
      · rw [ht] at hrel
        cases hrel with
        | some hst => exact run_rel hstep hst hrest

end Runs
