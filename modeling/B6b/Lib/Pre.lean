/-
# Preconditions of a machine that calls

A machine moves one action at a time until it stops with a result. `Wp step stop Q s` says that
wherever it stops from `s` is as in `Q`, and `Twp` that it does stop, whatever the actions are, and
never sticks.

What a machine does may be part of something larger: a call, with others that wait for it. `Lifts`
says that `lift` puts the machine into such a context, in which it moves as it does alone until it
stops. Then what it has to do there is what it has to do alone, and to go on with (`w_lift`). `W` is
`Wp` or `Twp`, for what is the same for both.

`wp_of_later` is the rule for code that comes back to itself by way of calls. A call that is made again
and again has an invariant (`Repeats.wp_of_inv`), and goes down in a relation that is well founded if it
has to come to its end (`Repeats.twp_of_wf`); `Repeats.w_turn` and `Repeats.acc` say that there are such.

Key definitions: `Comes`, `Wp`, `Twp`, `Lifts`, `W`, `Op.Leads`, `Later`, `Repeats`.
-/
import B6b.Lib.Op
import Mathlib.Order.WellFounded

namespace Pre

variable {σ α ρ ρ' : Type*} (step : σ → α → Option σ) (stop : σ → Option ρ)

/-- In `n` steps the machine comes from `s` to `s'`, where it stops with `r`. -/
inductive Comes : ℕ → σ → σ → ρ → Prop
  | stop {s : σ} {r : ρ} (hstop : stop s = some r) : Comes 0 s s r
  | step {n : ℕ} {s s₁ s' : σ} {a : α} {r : ρ} (hgo : stop s = none) (hstep : step s a = some s₁)
      (hrest : Comes n s₁ s' r) : Comes (n + 1) s s' r

/-- Wherever the machine stops is as in `Q`. -/
def Wp (Q : ρ → σ → Prop) (s : σ) : Prop := ∀ n s' r, Comes step stop n s s' r → Q r s'

/-- The machine does not stick, and stops as in `Q`, whatever the actions are. -/
inductive Twp (Q : ρ → σ → Prop) : σ → Prop
  | stop {s : σ} {r : ρ} (hstop : stop s = some r) (hQ : Q r s) : Twp Q s
  | step {s : σ} (hgo : stop s = none) (hmoves : ∀ a, ∃ s₁, step s a = some s₁)
      (hrest : ∀ a s₁, step s a = some s₁ → Twp Q s₁) : Twp Q s

/-- `lift` puts a machine into a context, in which it moves as it does alone until it stops. -/
structure Lifts (stop : σ → Option ρ) (stop' : σ → Option ρ') (Ok : σ → Prop) (lift : σ → σ) : Prop where
  ok {s s' : σ} {a : α} : Ok s → stop s = none → step s a = some s' → Ok s'
  go {s : σ} : Ok s → stop s = none → stop' (lift s) = none
  step {s : σ} {a : α} : Ok s → stop s = none → step (lift s) a = (step s a).map lift

variable {step stop} {stop' : σ → Option ρ'} {Ok : σ → Prop} {lift : σ → σ} {Q Q' : ρ → σ → Prop}
  {R : ρ' → σ → Prop} {s s' : σ} {n : ℕ} {r : ρ}

/-! ### Alone -/

theorem Comes.stopped (h : Comes step stop n s s' r) : stop s' = some r := by
  induction h with
  | stop hstop => exact hstop
  | step _ _ _ ih => exact ih

theorem wp_stop (hstop : stop s = some r) : Wp step stop Q s ↔ Q r s := by
  refine ⟨fun h => h 0 s r (.stop hstop), fun hQ n s' r' h => ?_⟩
  cases h with
  | stop hstop' =>
    obtain rfl := Option.some.inj (hstop.symm.trans hstop')
    exact hQ
  | step hgo => exact nomatch hstop.symm.trans hgo

theorem wp_step (hgo : stop s = none) :
    Wp step stop Q s ↔ ∀ a s₁, step s a = some s₁ → Wp step stop Q s₁ := by
  constructor
  · intro h a s₁ hstep n s' r hrest
    exact h (n + 1) s' r (.step hgo hstep hrest)
  · intro h n s' r hcomes
    cases hcomes with
    | stop hstop => exact nomatch hgo.symm.trans hstop
    | step _ hstep hrest => exact h _ _ hstep _ _ _ hrest

theorem Wp.mono (h : Wp step stop Q s) (hQ : ∀ n s' r, Comes step stop n s s' r → Q r s' → Q' r s') :
    Wp step stop Q' s :=
  fun n s' r hcomes => hQ n s' r hcomes (h n s' r hcomes)

theorem wp_congr (hQ : ∀ n s' r, Comes step stop n s s' r → (Q r s' ↔ Q' r s')) :
    Wp step stop Q s ↔ Wp step stop Q' s :=
  ⟨fun h => h.mono fun n s' r hc => (hQ n s' r hc).mp, fun h => h.mono fun n s' r hc => (hQ n s' r hc).mpr⟩

theorem twp_stop (hstop : stop s = some r) : Twp step stop Q s ↔ Q r s := by
  refine ⟨fun h => ?_, fun hQ => .stop hstop hQ⟩
  cases h with
  | stop hstop' hQ =>
    obtain rfl := Option.some.inj (hstop.symm.trans hstop')
    exact hQ
  | step hgo => exact nomatch hstop.symm.trans hgo

theorem twp_step (hgo : stop s = none) : Twp step stop Q s ↔
    (∀ a, ∃ s₁, step s a = some s₁) ∧ ∀ a s₁, step s a = some s₁ → Twp step stop Q s₁ := by
  refine ⟨fun h => ?_, fun ⟨hmoves, hrest⟩ => .step hgo hmoves hrest⟩
  cases h with
  | stop hstop => exact nomatch hgo.symm.trans hstop
  | step _ hmoves hrest => exact ⟨hmoves, hrest⟩

theorem Twp.mono (h : Twp step stop Q s) (hQ : ∀ n s' r, Comes step stop n s s' r → Q r s' → Q' r s') :
    Twp step stop Q' s := by
  induction h with
  | stop hstop hq => exact .stop hstop (hQ 0 _ _ (.stop hstop) hq)
  | step hgo hmoves _ ih =>
    exact .step hgo hmoves fun a s₁ hstep => ih a s₁ hstep fun n s' r hcomes =>
      hQ (n + 1) s' r (.step hgo hstep hcomes)

theorem twp_congr (hQ : ∀ n s' r, Comes step stop n s s' r → (Q r s' ↔ Q' r s')) :
    Twp step stop Q s ↔ Twp step stop Q' s :=
  ⟨fun h => h.mono fun n s' r hc => (hQ n s' r hc).mp, fun h => h.mono fun n s' r hc => (hQ n s' r hc).mpr⟩

/-- What stops as in `Q` stops nowhere else. -/
theorem Twp.wp (h : Twp step stop Q s) : Wp step stop Q s := by
  induction h with
  | stop hstop hQ => exact (wp_stop hstop).mpr hQ
  | step hgo _ _ ih => exact (wp_step hgo).mpr ih

/-- A property that the machine keeps holds where it stops. -/
theorem Comes.keeps {P : σ → Prop} (hP : ∀ s a s', P s → stop s = none → step s a = some s' → P s')
    (h : Comes step stop n s s' r) (hs : P s) : P s' := by
  induction h with
  | stop _ => exact hs
  | step hgo hstep _ ih => exact ih (hP _ _ _ hs hgo hstep)

/-! ### In a context -/

section Lifts

variable (hl : Lifts step stop stop' Ok lift)
include hl

/-- In a context the machine first comes to where it stops alone. -/
theorem comes_lift {r' : ρ'} (hok : Ok s) : Comes step stop' n (lift s) s' r' ↔
    ∃ i j s₁ r, n = i + j ∧ Comes step stop i s s₁ r ∧ Comes step stop' j (lift s₁) s' r' := by
  constructor
  · intro h
    induction n generalizing s with
    | zero =>
      rcases hstop : stop s with _ | r
      · cases h with
        | stop hstop' => exact nomatch (hl.go hok hstop).symm.trans hstop'
      · exact ⟨0, 0, s, r, rfl, .stop hstop, h⟩
    | succ n ih =>
      rcases hstop : stop s with _ | r
      · cases h with
        | step _ hstep hrest =>
          rw [hl.step hok hstop] at hstep
          obtain ⟨s₁, hstep₁, rfl⟩ := Option.map_eq_some_iff.mp hstep
          obtain ⟨i, j, s₂, r, rfl, hfirst, hlast⟩ := ih (hl.ok hok hstop hstep₁) hrest
          exact ⟨i + 1, j, s₂, r, Nat.succ_add_eq_add_succ i j ▸ rfl, .step hstop hstep₁ hfirst, hlast⟩
      · exact ⟨0, n + 1, s, r, (Nat.zero_add _).symm, .stop hstop, h⟩
  · rintro ⟨i, j, s₁, r, rfl, hfirst, hlast⟩
    induction hfirst with
    | stop _ =>
      rw [Nat.zero_add]
      exact hlast
    | @step i s s₂ _ a _ hgo hstep _ ih =>
      have hstep' : step (lift s) a = some (lift s₂) := by rw [hl.step hok hgo, hstep, Option.map_some]
      rw [Nat.add_right_comm]
      exact .step (hl.go hok hgo) hstep' (ih (hl.ok hok hgo hstep) hlast)

/-- **What has to be done in a context** is what has to be done alone, and to go on with. -/
theorem wp_lift (hok : Ok s) : Wp step stop' R (lift s) ↔
    Wp step stop (fun _ s₁ => Wp step stop' R (lift s₁)) s := by
  constructor
  · intro h i s₁ r hfirst j s' r' hlast
    exact h (i + j) s' r' ((comes_lift hl hok).mpr ⟨i, j, s₁, r, rfl, hfirst, hlast⟩)
  · intro h n s' r' hcomes
    obtain ⟨i, j, s₁, r, -, hfirst, hlast⟩ := (comes_lift hl hok).mp hcomes
    exact h i s₁ r hfirst j s' r' hlast

theorem twp_lift (hok : Ok s) : Twp step stop' R (lift s) ↔
    Twp step stop (fun _ s₁ => Twp step stop' R (lift s₁)) s := by
  constructor
  · intro h
    generalize hx : lift s = x at h
    induction h generalizing s with
    | @stop x r hstop hR =>
      subst hx
      rcases hs : stop s with _ | r'
      · exact nomatch (hl.go hok hs).symm.trans hstop
      · exact .stop hs (.stop hstop hR)
    | @step x hgo hmoves hrest ih =>
      subst hx
      rcases hs : stop s with _ | r'
      · refine .step hs (fun a => ?_) fun a s₁ hstep => ?_
        · obtain ⟨x₁, hx₁⟩ := hmoves a
          rw [hl.step hok hs] at hx₁
          obtain ⟨s₁, hs₁, -⟩ := Option.map_eq_some_iff.mp hx₁
          exact ⟨s₁, hs₁⟩
        · have hstep' : step (lift s) a = some (lift s₁) := by rw [hl.step hok hs, hstep, Option.map_some]
          exact ih a _ hstep' (hl.ok hok hs hstep) rfl
      · exact .stop hs (.step hgo hmoves hrest)
  · intro h
    induction h with
    | stop _ hQ => exact hQ
    | @step s hgo hmoves _ ih =>
      refine .step (hl.go hok hgo) (fun a => ?_) fun a x₁ hx₁ => ?_
      · obtain ⟨s₁, hs₁⟩ := hmoves a
        exact ⟨lift s₁, by rw [hl.step hok hgo, hs₁, Option.map_some]⟩
      · rw [hl.step hok hgo] at hx₁
        obtain ⟨s₁, hs₁, rfl⟩ := Option.map_eq_some_iff.mp hx₁
        exact ih a s₁ hs₁ (hl.ok hok hgo hs₁)

end Lifts

/-! ### Either of them -/

/-- Where the machine stops is as in `Q`; and if `t` is set, it does stop, without sticking. -/
def W (t : Bool) (step : σ → α → Option σ) (stop : σ → Option ρ) (Q : ρ → σ → Prop) (s : σ) : Prop :=
  match t with
  | true => Twp step stop Q s
  | false => Wp step stop Q s

variable {t : Bool}

theorem w_stop (hstop : stop s = some r) : W t step stop Q s ↔ Q r s := by
  cases t with
  | true => exact twp_stop hstop
  | false => exact wp_stop hstop

theorem W.mono (h : W t step stop Q s) (hQ : ∀ n s' r, Comes step stop n s s' r → Q r s' → Q' r s') :
    W t step stop Q' s := by
  cases t with
  | true => exact Twp.mono h hQ
  | false => exact Wp.mono h hQ

theorem w_congr (hQ : ∀ n s' r, Comes step stop n s s' r → (Q r s' ↔ Q' r s')) :
    W t step stop Q s ↔ W t step stop Q' s :=
  ⟨fun h => h.mono fun n s' r hc => (hQ n s' r hc).mp, fun h => h.mono fun n s' r hc => (hQ n s' r hc).mpr⟩

theorem w_lift (hl : Lifts step stop stop' Ok lift) (hok : Ok s) :
    W t step stop' R (lift s) ↔ W t step stop (fun _ s₁ => W t step stop' R (lift s₁)) s := by
  cases t with
  | true => exact twp_lift hl hok
  | false => exact wp_lift hl hok

/-- What is to be done where there is one step to take. -/
theorem w_next [Nonempty α] {s₁ : σ} (hgo : stop s = none) (hstep : ∀ a, step s a = some s₁) :
    W t step stop Q s ↔ W t step stop Q s₁ := by
  obtain ⟨a₀⟩ := ‹Nonempty α›
  have hone : (∀ a s', step s a = some s' → W t step stop Q s') ↔ W t step stop Q s₁ :=
    ⟨fun h => h a₀ s₁ (hstep a₀), fun h a s' hs' => Option.some.inj ((hstep a).symm.trans hs') ▸ h⟩
  cases t with
  | true => exact (twp_step hgo).trans ((and_iff_right fun a => ⟨s₁, hstep a⟩).trans hone)
  | false => exact (wp_step hgo).trans hone

/-- What is to be done where there is none. -/
theorem w_stuck [Nonempty α] (hgo : stop s = none) (hstep : ∀ a, step s a = none) :
    W t step stop Q s ↔ t = false := by
  obtain ⟨a₀⟩ := ‹Nonempty α›
  cases t with
  | true =>
    refine iff_of_false (fun h => ?_) nofun
    obtain ⟨s₁, hs₁⟩ := ((twp_step hgo).mp h).1 a₀
    exact nomatch (hstep a₀).symm.trans hs₁
  | false => exact iff_of_true ((wp_step hgo).mpr fun a s₁ h => nomatch (hstep a).symm.trans h) rfl

/-! ### Code that comes back to itself -/

/-- From `s` the machine stops as in `Q`, or comes to a state in `J`, by way of calls. -/
inductive Later (step : σ → α → Option σ) (stop : σ → Option ρ) (Q : ρ → σ → Prop) (J : σ → Prop) : σ → Prop
  | done {s : σ} (h : Wp step stop Q s) : Later step stop Q J s
  | back {s : σ} (h : J s) : Later step stop Q J s
  | go {s : σ} (hgo : stop s = none) (h : ∀ a s₁, step s a = some s₁ → Later step stop Q J s₁) :
      Later step stop Q J s
  | call {Ok : σ → Prop} {lift : σ → σ} {s : σ} (hl : Lifts step stop stop Ok lift) (hok : Ok s)
      (h : ∀ n s₁ r, Comes step stop n s s₁ r → Later step stop Q J (lift s₁)) :
      Later step stop Q J (lift s)

variable {J : σ → Prop}

/-- Up to `m` steps, if the states in `J` are right for as many. -/
theorem Later.upto {m : ℕ} (hJ : ∀ k ≤ m, ∀ s s' r, J s → Comes step stop k s s' r → Q r s')
    (h : Later step stop Q J s) : ∀ k ≤ m, ∀ s' r, Comes step stop k s s' r → Q r s' := by
  induction h with
  | done h => exact fun k _ s' r hc => h k s' r hc
  | back h => exact fun k hk s' r hc => hJ k hk _ s' r h hc
  | go hgo _ ih =>
    intro k hk s' r hc
    cases hc with
    | stop hstop => exact nomatch hgo.symm.trans hstop
    | step _ hstep hrest => exact ih _ _ hstep _ (Nat.le_of_succ_le hk) s' r hrest
  | call hl hok _ ih =>
    intro k hk s' r hc
    obtain ⟨i, j, s₁, r₁, rfl, hfirst, hlast⟩ := (comes_lift hl hok).mp hc
    exact ih i s₁ r₁ hfirst j (Nat.le_of_add_left_le hk) s' r hlast

/-- **An invariant**: from each state in `J` a step is taken, behind which the machine stops as in `Q` or
comes back to `J`. By induction on the steps up to the stop. -/
theorem wp_of_later (hJ : ∀ s, J s → stop s = none ∧ ∀ a s₁, step s a = some s₁ → Later step stop Q J s₁)
    (hs : J s) : Wp step stop Q s := by
  intro n
  induction n using Nat.strongRecOn generalizing s with
  | _ n ih =>
    intro s' r hc
    obtain ⟨hgo, hlater⟩ := hJ s hs
    cases hc with
    | stop hstop => exact nomatch hgo.symm.trans hstop
    | @step n _ s₁ _ a _ _ hstep hrest =>
      refine (hlater a s₁ hstep).upto (m := n) (fun k hk t t' r' ht hc' => ?_) n (Nat.le_refl n) s' r hrest
      exact ih k (Nat.lt_succ_of_le hk) ht t' r' hc'

/-! ### Calls that are made again -/

/-- The context `lift` starts the machine again, at `enter`, when it has stopped with a result as in
`again`. -/
structure Repeats (step : σ → α → Option σ) (stop : σ → Option ρ) (Ok : σ → Prop) (lift enter : σ → σ)
    (again : ρ → Prop) : Prop where
  lifts : Lifts step stop stop Ok lift
  waits {s : σ} : Ok s → stop (lift s) = none
  okEnter {s : σ} : Ok s → Ok (enter s)
  begins {s : σ} : stop (enter s) = none
  step {s : σ} {r : ρ} {a : α} : Ok s → stop s = some r → again r →
    step (lift s) a = some (lift (enter s))

/-- The machine that was started at `s₀` has stopped at `s₁`, and is started again. -/
def Again (step : σ → α → Option σ) (stop : σ → Option ρ) (Ok : σ → Prop) (enter : σ → σ) (again : ρ → Prop)
    (s₁ s₀ : σ) : Prop :=
  Ok s₀ ∧ ∃ n r, again r ∧ Comes step stop n (enter s₀) s₁ r

section Repeats

variable {enter : σ → σ} {again : ρ → Prop} (hr : Repeats step stop Ok lift enter again)
include hr

theorem Repeats.ok_of_comes (hok : Ok s) (h : Comes step stop n s s' r) : Ok s' :=
  h.keeps (fun _ _ _ hs hgo hstep => hr.lifts.ok hs hgo hstep) hok

/-- What each turn keeps, a call that is repeated may rely on. -/
theorem Repeats.wp_of_inv {I : σ → Prop} (hbody : ∀ s₀, Ok s₀ → I s₀ → Wp step stop
      (fun r s₁ => (again r → I s₁) ∧ (¬ again r → Wp step stop Q (lift s₁))) (enter s₀))
    (hok : Ok s) (hI : I s) : Wp step stop Q (lift (enter s)) := by
  refine wp_of_later (J := fun x => ∃ s, Ok s ∧ I s ∧ x = lift (enter s)) ?_ ⟨s, hok, hI, rfl⟩
  rintro _ ⟨s, hok, hI, rfl⟩
  refine ⟨hr.waits (hr.okEnter hok), fun a x₁ hstep => ?_⟩
  rw [hr.lifts.step (hr.okEnter hok) hr.begins] at hstep
  obtain ⟨s₁, hs₁, rfl⟩ := Option.map_eq_some_iff.mp hstep
  refine .call hr.lifts (hr.lifts.ok (hr.okEnter hok) hr.begins hs₁) fun n s₂ r hc => ?_
  have hc' : Comes step stop (n + 1) (enter s) s₂ r := .step hr.begins hs₁ hc
  have hok₂ : Ok s₂ := hr.ok_of_comes (hr.okEnter hok) hc'
  obtain ⟨hgoOn, hleave⟩ := hbody s hok hI _ _ _ hc'
  by_cases hagain : again r
  · refine .go (hr.waits hok₂) fun a x hx => .back ?_
    rw [hr.step hok₂ hc.stopped hagain] at hx
    exact ⟨s₂, hok₂, hgoOn hagain, (Option.some.inj hx).symm⟩
  · exact .done (hleave hagain)

variable [Nonempty α]

theorem Repeats.w_again (hok : Ok s) (hstop : stop s = some r) (hagain : again r) :
    W t step stop Q (lift s) ↔ W t step stop Q (lift (enter s)) :=
  w_next (hr.waits hok) fun _ => hr.step hok hstop hagain

/-- What one turn has to do. -/
theorem Repeats.w_turn (hok : Ok s) : W t step stop Q (lift (enter s)) ↔
    W t step stop (fun r s₁ => (again r → W t step stop Q (lift (enter s₁))) ∧
      (¬ again r → W t step stop Q (lift s₁))) (enter s) := by
  rw [w_lift hr.lifts (hr.okEnter hok)]
  refine w_congr fun n s₁ r hc => ?_
  by_cases hagain : again r
  · rw [hr.w_again (hr.ok_of_comes (hr.okEnter hok) hc) hc.stopped hagain]
    exact ⟨fun h => ⟨fun _ => h, absurd hagain⟩, fun h => h.1 hagain⟩
  · exact ⟨fun h => ⟨fun ha => absurd ha hagain, fun _ => h⟩, fun h => h.2 hagain⟩

/-- A call that comes to its end is not repeated for ever. By induction on the steps of its context, from
any state of the machine in a turn. -/
theorem Repeats.acc (hok : Ok s) (h : Twp step stop Q (lift (enter s))) :
    Acc (Again step stop Ok enter again) s := by
  have hturn : ∀ x, Twp step stop Q x → ∀ s, Ok s → x = lift s → ∀ n s₁ r, again r →
      Comes step stop n s s₁ r → Acc (Again step stop Ok enter again) s₁ := by
    intro x hx
    induction hx with
    | stop hstop _ =>
      rintro s hok rfl
      exact nomatch (hr.waits hok).symm.trans hstop
    | step hgo hmoves _ ih =>
      rintro s hok rfl n s₁ r hagain hc
      cases hc with
      | stop hs =>
        obtain ⟨a⟩ := ‹Nonempty α›
        refine .intro _ fun s₂ ⟨_, n, r', hagain', hc⟩ => ?_
        exact ih a _ (hr.step hok hs hagain) (enter s) (hr.okEnter hok) rfl n s₂ r' hagain' hc
      | @step n _ s₂ _ a _ hs hstep hrest =>
        have hstep' : step (lift s) a = some (lift s₂) := by
          rw [hr.lifts.step hok hs, hstep, Option.map_some]
        exact ih a _ hstep' s₂ (hr.lifts.ok hok hs hstep) rfl n s₁ r hagain hrest
  refine .intro _ fun s₁ ⟨_, n, r, hagain, hc⟩ => ?_
  exact hturn _ h (enter s) (hr.okEnter hok) rfl n s₁ r hagain hc

/-- What each turn goes down in, a call that is repeated comes to its end in. By induction on the
relation. -/
theorem Repeats.twp_of_wf {I : σ → Prop} {D : σ → σ → Prop} (hwf : WellFounded D)
    (hbody : ∀ s₀, Ok s₀ → I s₀ → Twp step stop
      (fun r s₁ => (again r → I s₁ ∧ D s₁ s₀) ∧ (¬ again r → Twp step stop Q (lift s₁))) (enter s₀))
    (hok : Ok s) (hI : I s) : Twp step stop Q (lift (enter s)) := by
  induction s using hwf.induction with
  | _ s ih =>
    refine (hr.w_turn (t := true) hok).mpr ((hbody s hok hI).mono fun n s₁ r hc ⟨hgoOn, hleave⟩ => ?_)
    have hok₁ : Ok s₁ := hr.ok_of_comes (hr.okEnter hok) hc
    exact ⟨fun hagain => ih s₁ (hgoOn hagain).2 hok₁ (hgoOn hagain).1, hleave⟩

end Repeats

end Pre

namespace Op

variable {σ α β : Type} {t : Bool} {x : Op σ α} {s s' : σ} {Q Q' : α → σ → Prop}

/-- Where `x` succeeds from `s` is as in `Q`; and if `t` is set, it does. -/
def Leads (t : Bool) (x : Op σ α) (s : σ) (Q : α → σ → Prop) : Prop :=
  match t, x s with
  | _, .ok a s' => Q a s'
  | t, _ => t = false

theorem leads_ok {a : α} (h : x s = .ok a s') : Leads t x s Q ↔ Q a s' := by
  unfold Leads
  rw [h]

theorem leads_pure {a : α} : Leads t (pure a : Op σ α) s Q ↔ Q a s := Iff.rfl

theorem leads_bind {f : α → Op σ β} {R : β → σ → Prop} :
    Leads t (x >>= f) s R ↔ Leads t x s fun a s' => Leads t (f a) s' R := by
  unfold Leads
  rw [bind_apply]
  cases x s <;> rfl

theorem leads_congr (h : ∀ a s', x s = .ok a s' → (Q a s' ↔ Q' a s')) :
    Leads t x s Q ↔ Leads t x s Q' := by
  unfold Leads
  cases hx : x s with
  | ok a s' => exact h a s' hx
  | fail s' => exact Iff.rfl
  | crash => exact Iff.rfl

theorem Leads.mono (h : Leads t x s Q) (hQ : ∀ a s', x s = .ok a s' → Q a s' → Q' a s') :
    Leads t x s Q' := by
  unfold Leads at h ⊢
  cases hx : x s with
  | ok a s' =>
    rw [hx] at h
    exact hQ a s' hx h
  | fail s' =>
    rw [hx] at h
    exact h
  | crash =>
    rw [hx] at h
    exact h

end Op
