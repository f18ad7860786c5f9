/-
# The two loops

`loop` and `map` call their body once for each iteration, and both get the result code of
that call. `map` goes on after `B6B_OK` and `B6B_CONT`, returns `B6B_OK` after `B6B_BREAK`,
and returns every other code itself (`map_handles`). `loop` has no case for `B6B_CONT`, so it
returns that code like any other: `loop_handles_iff`.

Key definitions: `Iterating`, `Iterations`, `Handles`.
-/
import B6b.Nesting

namespace B6b

variable {F S I : Type} {N : Num F}

/-- What a return to the call `k` that waits leads to, if that needs no heap. -/
theorem Machine.step_ret {nat : Natives N S I} {m : Machine F S} {inp : Input I} {res : Res} {k : Kont}
    {ks : List Kont} {σ : Interp S} (hctl : m.interp.fg.ctl = .ret res)
    (hk : m.interp.fg.konts = k :: ks) (hσ : m.interp.pop.resume (F := F) res k = pure σ) :
    m.step nat inp = some ⟨m.heap, σ⟩ := by
  unfold Machine.step Interp.step Interp.ret
  rw [hctl]
  dsimp only
  rw [hk]
  dsimp only
  rw [hσ]
  rfl

namespace Loops

open Literals

/-- The code after which a loop goes on to its next iteration. -/
def goesOn : Res → Bool
  | .ok | .cont => true
  | _ => false

/-- What a loop returns when it stops after an iteration with the code. -/
def leaves : Res → Res
  | .brk => .ok
  | r => r

/-! ### `loop` -/

/-- `loop` is about to call its body `b` in the fiber `id`, with the calls `ks` around it. -/
structure Iterating (b : Addr) (ks : List Kont) (id : ℕ) (σ : Interp S) : Prop where
  fiber : σ.fg.id = id
  ctl : σ.fg.ctl = .call b
  konts : σ.fg.konts = .loop b :: ks

instance (b : Addr) (ks : List Kont) (id : ℕ) (σ : Interp S) : Decidable (Iterating b ks id σ) :=
  decidable_of_iff (σ.fg.id = id ∧ Calls σ b ∧ σ.fg.konts = .loop b :: ks)
    ⟨fun h => ⟨h.1, h.2.1, h.2.2⟩, fun h => ⟨h.fiber, h.ctl, h.konts⟩⟩

/-- The fiber `id` returns `r` from `loop`. -/
structure Left (r : Res) (ks : List Kont) (id : ℕ) (σ : Interp S) : Prop where
  fiber : σ.fg.id = id
  ctl : σ.fg.ctl = .ret r
  konts : σ.fg.konts = ks

/-- The iterations of `loop` from `m` on have the outcomes `rs`, and `m'` is what `loop` has made
of the last one. -/
inductive Iterations (nat : Natives N S I) (b : Addr) (ks : List Kont) (id : ℕ) :
    Machine F S → List Res → Machine F S → Prop
  | done (m : Machine F S) : Iterations nat b ks id m [] m
  | turn {m m₁ m₂ m' : Machine F S} {inps : List (Input I)} {inp : Input I} {r : Res} {rs : List Res}
      (hm : Iterating b ks id m.interp) (hcall : callResult nat m inps = some (m₁, r))
      (hstep : m₁.step nat inp = some m₂) (hrest : Iterations nat b ks id m₂ rs m') :
      Iterations nat b ks id m (r :: rs) m'

/-- The loop goes on after every outcome `B6B_OK` or `B6B_CONT`, stops at the first other one, and
returns what it should. -/
def Handles (b : Addr) (ks : List Kont) (id : ℕ) (σ : Interp S) : List Res → Prop
  | [] => Iterating b ks id σ
  | [r] => if goesOn r then Iterating b ks id σ else Left (leaves r) ks id σ
  | r :: rs => goesOn r = true ∧ Handles b ks id σ rs

/-- What `loop` makes of the outcome of an iteration. -/
theorem loop_step {nat : Natives N S I} {b : Addr} {ks : List Kont} {id : ℕ} {m m₁ m₂ : Machine F S}
    {inps : List (Input I)} {inp : Input I} {r : Res} (hm : Iterating b ks id m.interp)
    (hcall : callResult nat m inps = some (m₁, r)) (hstep : m₁.step nat inp = some m₂) :
    if r = .ok then Iterating b ks id m₂.interp else Left (leaves r) ks id m₂.interp := by
  have hno := Nesting.Calling.not_returned (.inr ⟨b, hm.ctl⟩)
  obtain ⟨-, hret⟩ := Nesting.runTo_invariant (P := fun _ => True) (fun _ _ _ _ _ _ => trivial)
    trivial hno hcall
  obtain ⟨hctl, hk, hid⟩ := Nesting.returned_eq_some.mp hret
  rw [hm.konts] at hk
  rw [hm.fiber] at hid
  have htail : m₁.interp.pop.fg.konts = ks := by simp [Interp.pop, hk]
  by_cases hok : r = .ok
  · subst hok
    rw [Machine.step_ret hctl hk (σ := m₁.interp.pop.push (.loop b) (.call b)) rfl] at hstep
    obtain rfl := Option.some.inj hstep
    refine ⟨hid, rfl, ?_⟩
    show Kont.loop b :: m₁.interp.pop.fg.konts = Kont.loop b :: ks
    rw [htail]
  · rw [if_neg hok]
    have hres : m₁.interp.pop.resume (F := F) r (.loop b) =
        pure (m₁.interp.pop.goto (.ret (leaves r))) := by
      cases r with
      | ok => exact absurd rfl hok
      | _ => rfl
    rw [Machine.step_ret hctl hk hres] at hstep
    obtain rfl := Option.some.inj hstep
    exact ⟨hid, rfl, htail⟩

/-- A loop that has returned is not at an iteration. -/
theorem Left.not_iterating {r : Res} {b : Addr} {ks : List Kont} {id : ℕ} {σ : Interp S}
    (h : Left r ks id σ) : ¬ Iterating b ks id σ :=
  fun hi => nomatch hi.ctl.symm.trans h.ctl

/-- `loop` starts with an iteration, unless its arguments do not fit. -/
theorem loopProcLoop_gives (σ : Interp S) (args : Addr) : Op.Gives (σ.loopProcLoop N args) fun σ' =>
    (∃ b, Iterating b σ.fg.konts σ.fg.id σ') ∨ Left .err σ.fg.konts σ.fg.id σ' := by
  refine Op.gives_of_bind fun r => ?_
  cases r with
  | some xs =>
    dsimp only
    split
    · next b => exact Op.gives_pure (.inl ⟨b, rfl, rfl, rfl⟩)
    · exact Op.gives_crash
  | none =>
    refine Op.gives_of_bind fun o => Op.gives_pure (.inr ?_)
    cases o with
    | none => exact ⟨rfl, rfl, rfl⟩
    | some o => exact ⟨rfl, rfl, rfl⟩

/-- For every sequence of outcomes, `loop` goes on and stops and returns as it should exactly when
no outcome is `B6B_CONT`. -/
theorem handles_iff (nat : Natives N S I) {b : Addr} {ks : List Kont} {id : ℕ}
    {m m' : Machine F S} (hm : Iterating b ks id m.interp) {rs : List Res}
    (h : Iterations nat b ks id m rs m') : Handles b ks id m'.interp rs ↔ .cont ∉ rs := by
  induction h with
  | done m => exact iff_of_true hm List.not_mem_nil
  | @turn m m₁ m₂ m' inps inp r rs hm hcall hstep hrest ih =>
    have hturn := loop_step hm hcall hstep
    cases hrest with
    | done =>
      by_cases hok : r = .ok
      · subst hok
        exact iff_of_true hturn (by decide)
      · rw [if_neg hok] at hturn
        by_cases hcont : r = .cont
        · subst hcont
          exact iff_of_false hturn.not_iterating (by decide)
        · have hstop : goesOn r = false := by cases r <;> first | rfl | contradiction
          refine iff_of_true ?_ (by simpa [eq_comm] using hcont)
          unfold Handles
          rw [if_neg (by simp [hstop])]
          exact hturn
    | @turn _ _ _ _ _ _ r' rs' hm₂ _ _ _ =>
      by_cases hok : r = .ok
      · subst hok
        have htail := ih hm₂
        simp only [Handles, goesOn, true_and, htail, List.mem_cons, reduceCtorEq, false_or]
      · rw [if_neg hok] at hturn
        exact absurd hm₂ hturn.not_iterating

/-! ### `map` -/

/-- What `map` should make of the outcome `r` of an iteration, with the results `o` so far and the
next item `li`. -/
def MapHandles (ks l b : Addr) (li : Option Litem) (o : List Addr) (K : List Kont) (r : Res)
    (σ : Interp S) : Prop :=
  σ.fg.konts = K ∧
    if goesOn r then ∃ o', σ.fg.ctl = .mapAt ks l b li o' ∧ (r = .cont → o' = o)
    else if r = .brk then σ.fg.ctl = .mapAt ks l b none o
    else σ.fg.ctl = .ret r

/-- **`map` honours `continue`.** -/
theorem map_handles {nat : Natives N S I} {m m' : Machine F S} {inp : Input I} {r : Res}
    {ks l b : Addr} {li : Option Litem} {o : List Addr} {K : List Kont}
    (hctl : m.interp.fg.ctl = .ret r) (hk : m.interp.fg.konts = .map ks l b li o :: K)
    (hstep : m.step nat inp = some m') : MapHandles ks l b li o K r m'.interp := by
  have htail : m.interp.pop.fg.konts = K := by simp [Interp.pop, hk]
  have hres : ∃ c, m.interp.pop.resume (F := F) r (.map ks l b li o) = pure (m.interp.pop.goto c) ∧
      if goesOn r then ∃ o', c = .mapAt ks l b li o' ∧ (r = .cont → o' = o)
      else if r = .brk then c = .mapAt ks l b none o else c = .ret r := by
    cases r with
    | ok => exact ⟨_, rfl, _, rfl, fun h => by cases h⟩
    | cont => exact ⟨_, rfl, _, rfl, fun _ => rfl⟩
    | _ => exact ⟨_, rfl, rfl⟩
  obtain ⟨c, hres, hc⟩ := hres
  rw [Machine.step_ret hctl hk hres] at hstep
  obtain rfl := Option.some.inj hstep
  exact ⟨htail, hc⟩

/-- A loop without items left returns its results with `B6B_OK`. -/
theorem map_ends {nat : Natives N S I} {m m' : Machine F S} {inp : Input I} {ks l b : Addr}
    {o : List Addr} (hctl : m.interp.fg.ctl = .mapAt ks l b none o)
    (hstep : m.step nat inp = some m') :
    m'.interp.fg.ctl = .ret .ok ∧ m'.interp.fg.konts = m.interp.fg.konts := by
  have hgives : Op.Gives (m.interp.step nat inp) fun σ' =>
      σ'.fg.ctl = .ret .ok ∧ σ'.fg.konts = m.interp.fg.konts := by
    unfold Interp.step
    rw [hctl]
    exact Op.gives_of_bind fun a => Op.gives_pure ⟨rfl, rfl⟩
  exact Machine.step_gives hgives hstep

/-! ### Both -/

/-- **Where `loop` honours `continue`.** `loop` starts with an iteration. For every sequence of
outcomes of its iterations, it goes on and stops and returns as it should exactly when no outcome
is `B6B_CONT`; and `map` does as it should after every outcome, with `B6B_OK` at its end. -/
theorem loop_handles_iff (nat : Natives N S I) :
    (∀ (σ : Interp S) args, Op.Gives (σ.loopProcLoop N args) fun σ' =>
      (∃ b, Iterating b σ.fg.konts σ.fg.id σ') ∨ Left .err σ.fg.konts σ.fg.id σ') ∧
    (∀ (b : Addr) (ks : List Kont) (id : ℕ) (m m' : Machine F S) (rs : List Res),
      Iterating b ks id m.interp → Iterations nat b ks id m rs m' →
        (Handles b ks id m'.interp rs ↔ .cont ∉ rs)) ∧
    (∀ (m m' : Machine F S) (inp : Input I) (r : Res) (ks l b : Addr) (li : Option Litem)
      (o : List Addr) (K : List Kont), m.interp.fg.ctl = .ret r →
      m.interp.fg.konts = .map ks l b li o :: K → m.step nat inp = some m' →
        MapHandles ks l b li o K r m'.interp) ∧
    ∀ (m m' : Machine F S) (inp : Input I) (ks l b : Addr) (o : List Addr),
      m.interp.fg.ctl = .mapAt ks l b none o → m.step nat inp = some m' →
        m'.interp.fg.ctl = .ret .ok ∧ m'.interp.fg.konts = m.interp.fg.konts :=
  ⟨loopProcLoop_gives, fun _ _ _ _ _ _ hm h => handles_iff nat hm h,
    fun _ _ _ _ _ _ _ _ _ _ hctl hk hstep => map_handles hctl hk hstep,
    fun _ _ _ _ _ _ _ hctl hstep => map_ends hctl hstep⟩

/-- A loop that goes round twice, in front of its first iteration. -/
def twoRounds : Option (Machine ℤ Unit) :=
  (wholeStart shortNames "{$g B 0} {$w {{$i $B {{$b}}} {$g B 1}}}").bind fun m₀ =>
    Runs.run wholeStep m₀ (quiet 28)

/-- An iteration, its outcome, and what the loop makes of it. -/
def iteration (m : Machine ℤ Unit) : Option (Machine ℤ Unit × Res × Machine ℤ Unit) :=
  (callResult (Natives.none wholeNum) m (quiet 60)).bind fun p =>
    (wholeStep p.1 ⟨(), true, none⟩).map fun m' => (p.1, p.2, m')

theorem iteration_turn {m m₁ m₂ m' : Machine ℤ Unit} {b : Addr} {ks : List Kont} {id : ℕ} {r : Res}
    {rs : List Res} (hm : Iterating b ks id m.interp) (hit : iteration m = some (m₁, r, m₂))
    (hrest : Iterations (Natives.none wholeNum) b ks id m₂ rs m') :
    Iterations (Natives.none wholeNum) b ks id m (r :: rs) m' := by
  obtain ⟨⟨m₁', r'⟩, hcall, hit⟩ := Option.bind_eq_some_iff.mp hit
  obtain ⟨m₂', hstep, heq⟩ := Option.map_eq_some_iff.mp hit
  cases heq
  exact .turn hm hcall hstep hrest

/-- The first iteration goes on, and the second one breaks and ends the loop. -/
theorem loop_breaks : ∃ m m' : Machine ℤ Unit, twoRounds = some m ∧
    Iterations (Natives.none wholeNum) 66 m.interp.fg.konts.tail m.interp.fg.id m [.ok, .brk] m' ∧
    (Handles 66 m.interp.fg.konts.tail m.interp.fg.id m'.interp [.ok, .brk] ↔
      .cont ∉ [Res.ok, Res.brk]) := by
  have hrun : (twoRounds.bind fun m => (iteration m).bind fun p =>
      (iteration p.2.2).map fun q => (m, p, q)).any (fun (m, p, q) =>
        decide (Iterating 66 m.interp.fg.konts.tail m.interp.fg.id m.interp ∧ p.2.1 = .ok ∧
          Iterating 66 m.interp.fg.konts.tail m.interp.fg.id p.2.2.interp ∧ q.2.1 = .brk)) = true := by
    decide +kernel
  obtain ⟨p, hp, hreads⟩ := (Option.any_eq_true _ _).mp hrun
  obtain ⟨m, hm, hp⟩ := Option.bind_eq_some_iff.mp hp
  obtain ⟨⟨m₁, r, m₂⟩, hfirst, hp⟩ := Option.bind_eq_some_iff.mp hp
  obtain ⟨⟨m₃, r', m'⟩, hsecond, rfl⟩ := Option.map_eq_some_iff.mp hp
  obtain ⟨hit, rfl, hit', rfl⟩ := of_decide_eq_true hreads
  have his := iteration_turn hit hfirst (iteration_turn hit' hsecond (.done m'))
  exact ⟨m, m', hm, his, (loop_handles_iff (Natives.none wholeNum)).2.1 _ _ _ m m' _ hit his⟩

/-- An iteration that continues ends it too. -/
theorem loop_continue_ends : ¬ ∀ (text : String) (m₀ m m' : Machine ℤ Unit) (inps : List (Input Unit))
    (b : Addr) (ks : List Kont) (id : ℕ) (rs : List Res), wholeStart shortNames text = some m₀ →
    Runs.run wholeStep m₀ inps = some m → Iterating b ks id m.interp →
    Iterations (Natives.none wholeNum) b ks id m rs m' → Handles b ks id m'.interp rs := by
  intro hall
  have hrun : ((wholeStart shortNames "{$w {{$k}}}").bind fun m₀ =>
      (Runs.run wholeStep m₀ (quiet 12)).bind fun m => (iteration m).map fun p => (m₀, m, p)).any
        (fun (_, m, p) => decide (Iterating 60 m.interp.fg.konts.tail m.interp.fg.id m.interp ∧
          p.2.1 = .cont ∧ ¬ Iterating 60 m.interp.fg.konts.tail m.interp.fg.id p.2.2.interp)) = true := by
    decide +kernel
  obtain ⟨p, hp, hreads⟩ := (Option.any_eq_true _ _).mp hrun
  obtain ⟨m₀, hm₀, hp⟩ := Option.bind_eq_some_iff.mp hp
  obtain ⟨m, hm, hp⟩ := Option.bind_eq_some_iff.mp hp
  obtain ⟨⟨m₁, r, m'⟩, hfirst, rfl⟩ := Option.map_eq_some_iff.mp hp
  obtain ⟨hit, rfl, hnot⟩ := of_decide_eq_true hreads
  exact hnot (hall _ m₀ m m' _ _ _ _ _ hm₀ hm hit (iteration_turn hit hfirst (.done m')))

end Loops

end B6b
