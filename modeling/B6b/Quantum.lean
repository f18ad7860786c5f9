/-
# The quantum of a fiber

`b6b_on_res` counts statements in `interp->qstep`, an 8-bit counter, and switches when
it is 16. The counter starts again at a switch and at nothing else. While no other fiber is
pending it runs on beyond 16, so a fiber that is then spawned waits until the counter has
wrapped around; and a statement that takes it to 16 and ends the program does not switch.
`quantum_kept`: without these two, the running fiber completes at most 16 statements in any
period in which another one is pending.

Key definitions: `count`, `Within`, `Careful`.
-/
import B6b.Lib.Runs
import B6b.Moves

namespace B6b

namespace Quantum

variable {F S I : Type} {N : Num F}

/-- The statements that the running fiber has completed in the period: it ends when no other
fiber is pending, or another one runs. -/
def count (m : Machine F S) (n : ℕ) (m' : Machine F S) : ℕ :=
  if m.interp.OtherPending ∧ m'.interp.fg.id = m.interp.fg.id then
    if m.interp.completes then n + 1 else n
  else 0

/-- A statement that completes while another fiber is pending is one of the first 16. -/
def Within (p : Machine F S × ℕ) : Prop :=
  p.1.interp.OtherPending → p.1.interp.completes = true → p.2 < 16

instance (p : Machine F S × ℕ) : Decidable (Within p) :=
  inferInstanceAs (Decidable (p.1.interp.OtherPending → p.1.interp.completes = true → p.2 < 16))

/-- It waits in a `try` that has a finally block. -/
def hasFinally : Kont → Bool
  | .tryBody _ f => f.isSome
  | .tryExcept f => f.isSome
  | .tryFinally _ _ _ _ => true
  | _ => false

/-- A fiber that is spawned while no other is pending finds the counter below 16; and where a
statement ends the program, takes the counter to 16 and another fiber is pending, it is in
no `try` that has a finally block. -/
structure Careful (p : Machine F S × ℕ) : Prop where
  spawn : p.1.interp.Spawns p.1.heap → ¬ p.1.interp.OtherPending → p.1.interp.qstep < 16
  exit : p.1.interp.fg.ctl = .onRes .exit → p.1.interp.OtherPending → p.1.interp.qstep = 15 →
    ∀ k ∈ p.1.interp.fg.konts, hasFinally k = false

/-! ### Unwinding -/

/-- The result `B6B_EXIT` is on its way out. -/
def Leaving : Ctl S → Prop
  | .ret .exit | .onRes .exit | .join | .sweep | .halt => True
  | .tryEnd .exit _ none | .tryEnd .err .exit none => True
  | _ => False

/-- `B6B_EXIT` is on its way out of a fiber, and there is no finally block on the way. -/
structure Unwinds (σ : Interp S) : Prop where
  ctl : Leaving σ.fg.ctl
  konts : ∀ k ∈ σ.fg.konts, hasFinally k = false

/-- Behind a step of a fiber that unwinds: it unwinds, or another one runs. -/
def Onward (σ σ' : Interp S) : Prop :=
  Unwinds σ' ∨ ∃ σ₁ t, Interp.Own σ σ₁ ∧ Interp.Switched σ₁ σ' t

theorem Unwinds.completes {σ : Interp S} (h : Unwinds σ) : σ.completes = false := by
  have hctl := h.ctl
  unfold Interp.completes
  cases hc : σ.fg.ctl with
  | onRes res =>
    rw [hc] at hctl
    cases res with
    | exit => rfl
    | ok | err | «yield» | brk | cont | ret => exact hctl.elim
  | _ => rfl

section Unwinding

variable {σ : Interp S}

theorem framePop_konts : Op.Gives (σ.framePop (F := F)) fun σ' => σ'.fg.konts = σ.fg.konts := by
  unfold Interp.framePop
  cases σ.fg.prev with
  | cons f fs => exact Op.gives_pure rfl
  | nil => exact Op.gives_crash

/-- A call that waits passes `B6B_EXIT` on. -/
theorem resume_onward {k : Kont} {ks : List Kont} (hks : σ.fg.konts = k :: ks)
    (h : ∀ k ∈ σ.fg.konts, hasFinally k = false) :
    Op.Gives (σ.pop.resume (F := F) .exit k) (Onward σ) := by
  have hk : hasFinally k = false := h k (hks ▸ List.mem_cons_self)
  have hpop : ∀ k' ∈ σ.pop.fg.konts, hasFinally k' = false := fun k' hk' => by
    refine h k' ?_
    rw [hks]
    exact List.mem_cons_of_mem k (by simpa [Interp.pop, hks] using hk')
  -- the frame of the statement is popped, and the statement has the same result
  have hstmt : Op.Gives (do
      let σ ← σ.pop.framePop (F := F)
      pure (σ.goto (.onRes .exit))) (Onward σ) := by
    refine Op.gives_bind framePop_konts fun σ' hkonts => Op.gives_pure (.inl ⟨trivial, ?_⟩)
    exact fun k' hk' => hpop k' (hkonts ▸ hk')
  have hret : Onward σ (σ.pop.goto (.ret .exit)) := .inl ⟨trivial, hpop⟩
  unfold Interp.resume
  cases k with
  | stmtArg stmt li vs => exact hstmt
  | stmtProc => exact hstmt
  | call stmts li => exact Op.gives_pure hret
  | proc => exact Op.gives_pure hret
  | map ks l b li r => exact Op.gives_pure hret
  | loop b => exact Op.gives_pure hret
  | tryBody e f =>
    cases f with
    | none => exact Op.gives_pure (.inl ⟨trivial, hpop⟩)
    | some f => cases hk
  | tryExcept f =>
    cases f with
    | none =>
      have he : (if σ.pop.opts.raise = true ∧ Res.exit ≠ .exit then Res.err else .exit) = .exit :=
        if_neg fun hc => hc.2 rfl
      dsimp only
      rw [he]
      exact Op.gives_pure (.inl ⟨trivial, hpop⟩)
    | some f => cases hk
  | tryFinally r eres e o => cases hk
  | thread =>
    dsimp only
    rcases hend : σ.pop.threadEnd with _ | σ' <;> dsimp only
    · exact Op.gives_crash
    · obtain ⟨t, ht⟩ := Interp.swap_switched hend
      have hown := Interp.own_pop hks rfl
      refine Op.gives_pure (.inr ⟨_, t, hown.trans ?_, ht⟩)
      exact ⟨rfl, rfl, rfl, rfl, rfl, rfl, rfl, rfl⟩
  | main progs => cases progs <;> exact Op.gives_pure (.inl ⟨trivial, hpop⟩)

/-- A fiber that unwinds completes no statement before another one runs. -/
theorem step_onward (nat : Natives N S I) (inp : Input I) (h : Unwinds σ) :
    Op.Gives (σ.step nat inp) (Onward σ) := by
  obtain ⟨hctl, hkonts⟩ := h
  unfold Interp.step
  cases hc : σ.fg.ctl with
  | ret res =>
    rw [hc] at hctl
    cases res with
    | exit =>
      unfold Interp.ret
      rcases hks : σ.fg.konts with _ | ⟨k, ks⟩ <;> dsimp only
      · exact Op.gives_crash
      · exact resume_onward hks hkonts
    | ok | err | «yield» | brk | cont | ret => exact hctl.elim
  | onRes res =>
    rw [hc] at hctl
    cases res with
    | exit =>
      refine Op.gives_bind (Interp.setAt_own 0 _ _ _) fun σ₁ ⟨_, hk⟩ => ?_
      exact Op.gives_pure (.inl ⟨trivial, fun k' hk' => hkonts k' (hk ▸ hk')⟩)
    | ok | err | «yield» | brk | cont | ret => exact hctl.elim
  | tryEnd res eres f =>
    rw [hc] at hctl
    refine Op.gives_pure (.inl ?_)
    cases f with
    | none =>
      have hexit : (if res = .err then eres else res) = .exit := by
        cases res <;> cases eres <;> first | rfl | exact hctl.elim
      unfold Interp.tryEnd
      dsimp only
      rw [hexit]
      exact ⟨trivial, hkonts⟩
    | some f => cases res <;> cases eres <;> exact hctl.elim
  | join => exact Op.gives_pure (.inl ⟨trivial, hkonts⟩)
  | sweep =>
    refine Op.gives_pure ?_
    unfold Interp.yield
    rcases hs : (σ.goto .sweep).swap with _ | σ' <;> simp only [hs, if_true]
    · exact .inl ⟨trivial, hkonts⟩
    · obtain ⟨t, ht⟩ := Interp.swap_switched hs
      exact .inr ⟨_, t, (Interp.own_refl σ).goto .sweep, ht⟩
  | halt => exact Op.gives_crash
  | _ =>
    rw [hc] at hctl
    exact hctl.elim

end Unwinding

/-! ### The invariant -/

/-- The counter is below 16, and has counted the statements of the period. -/
def InTime (σ : Interp S) (n : ℕ) : Prop := n ≤ σ.qstep.toNat ∧ σ.qstep.toNat < 16

/-- While another fiber is pending, the counter is in time, or the running fiber unwinds. -/
structure Counted (p : Machine F S × ℕ) : Prop where
  distinct : p.1.interp.Distinct
  counted : p.1.interp.OtherPending → InTime p.1.interp p.2 ∨ p.2 < 16 ∧ Unwinds p.1.interp

theorem Counted.within {p : Machine F S × ℕ} (h : Counted p) : Within p := fun ho _ => by
  rcases h.counted ho with hin | hun
  · exact Nat.lt_of_le_of_lt hin.1 hin.2
  · exact hun.1

section Moves

variable {σ σ' σ₁ : Interp S} {e : Bool} {q : UInt8} {fs : List Bool}

theorem otherPending_same (h : Interp.Same σ σ' e q fs) : σ'.OtherPending ↔ σ.OtherPending := by
  unfold Interp.OtherPending
  rw [h.before, h.after]

/-- Alone, the fiber stays alone. -/
theorem not_otherPending_alone (hnext : σ.next = none)
    (hrest : ∀ u ∈ σ'.before ++ σ'.after, u ∈ σ.before ++ σ.after) : ¬ σ'.OtherPending :=
  fun ⟨t, ht, hp⟩ => Interp.next_eq_none.mp hnext ⟨t, hrest t ht, hp⟩

theorem noResult_completes (h : σ.NoResult) : σ.completes = false := by
  unfold Interp.completes
  cases hctl : σ.fg.ctl with
  | onRes res => simp [h res hctl]
  | _ => rfl

theorem toNat_succ (hq : q.toNat < 16) : (q + 1).toNat = q.toNat + 1 := by
  rw [UInt8.toNat_add]
  exact Nat.mod_eq_of_lt (by simp; omega)

end Moves

/-- A step of the period that does not complete a statement. -/
theorem count_of_not_completes {m m' : Machine F S} (n : ℕ) (hc : m.interp.completes = false)
    (ho : m.interp.OtherPending) (hid : m'.interp.fg.id = m.interp.fg.id) : count m n m' = n := by
  unfold count
  rw [if_pos ⟨ho, hid⟩, hc]
  rfl

/-- The count starts again. -/
theorem count_of_not_otherPending {m m' : Machine F S} (n : ℕ) (ho : ¬ m.interp.OtherPending) :
    count m n m' = 0 := if_neg fun h => ho h.1

theorem count_of_switch {m m' : Machine F S} (n : ℕ) (hid : m'.interp.fg.id ≠ m.interp.fg.id) :
    count m n m' = 0 := if_neg fun h => hid h.2

/-- A switch starts the period and the counter again. -/
theorem inTime_switched {m m' : Machine F S} {σ₁ : Interp S} {e : Bool} {q : UInt8}
    {fs : List Bool} {t : Fiber S} (n : ℕ) (hd : m.interp.Distinct)
    (hs : Interp.Same m.interp σ₁ e q fs) (h : Interp.Switched σ₁ m'.interp t) :
    InTime m'.interp (count m n m') := by
  have hne : m'.interp.fg.id ≠ m.interp.fg.id := hs.id ▸ h.id_ne (hd.same hs)
  unfold InTime
  rw [count_of_switch n hne, h.qstep]
  decide

theorem inTime_yielded {m m' : Machine F S} {σ₁ : Interp S} {e : Bool} {q : UInt8}
    {fs : List Bool} (n : ℕ) (hd : m.interp.Distinct) (hs : Interp.Same m.interp σ₁ e q fs)
    (hy : Interp.Yielded σ₁ m'.interp) (ho : m'.interp.OtherPending) :
    InTime m'.interp (count m n m') := by
  cases hy with
  | switched t h => exact inTime_switched n hd hs h
  | alone hnext _ _ _ _ _ hrest => exact absurd ho (not_otherPending_alone hnext hrest)

/-- A step in time: the counter stays in time, or the fiber unwinds. -/
theorem inTime_move {nat : Natives N S I} {inp : Input I} {m m' : Machine F S} {n : ℕ} (hd : m.interp.Distinct)
    (hin : m.interp.OtherPending → InTime m.interp n) (hc : Careful (m, n))
    (hm : Interp.Move nat inp m.heap m.interp m'.interp) (ho : m'.interp.OtherPending) :
    InTime m'.interp (count m n m') ∨ count m n m' < 16 ∧ Unwinds m'.interp := by
  -- a step that leaves the other fibers and the counter as they are
  have stays : ∀ {e fs}, Interp.Same m.interp m'.interp e m.interp.qstep fs →
      m.interp.NoResult → InTime m'.interp (count m n m') := by
    intro e fs hs hr
    have ho' := (otherPending_same hs).mp ho
    unfold InTime
    rw [count_of_not_completes n (noResult_completes hr) ho' hs.id, hs.qstep]
    exact hin ho'
  cases hm with
  | own hr hs => exact .inl (stays hs hr)
  | spawn fn σ₁ hr hsp hs hst =>
    left
    have hq : m'.interp.qstep = m.interp.qstep := by rw [hst]; exact hs.qstep
    have hid : m'.interp.fg.id = m.interp.fg.id := by rw [hst]; exact hs.id
    unfold InTime
    rw [hq]
    by_cases ho' : m.interp.OtherPending
    · rw [count_of_not_completes n (noResult_completes hr) ho' hid]
      exact hin ho'
    · rw [count_of_not_otherPending n ho']
      exact ⟨Nat.zero_le _, hc.spawn hsp ho'⟩
  | finallyIn hr hs => exact .inl (stays hs hr)
  | finallyOut e fs hr _ hs => exact .inl (stays hs hr)
  | joins hr hs => exact .inl (stays hs hr)
  | yields σ₁ _ _ hs hy => exact .inl (inTime_yielded n hd hs hy ho)
  | exits hr hret hkonts hs =>
    have ho' := (otherPending_same hs).mp ho
    obtain ⟨hle, hlt⟩ := hin ho'
    have hcomp : m.interp.completes = false := by simp [Interp.completes, hr]
    unfold InTime
    rw [count_of_not_completes n hcomp ho' hs.id, hs.qstep, toNat_succ hlt]
    by_cases h15 : m.interp.qstep.toNat = 15
    · -- the counter passes 16 here, and the fiber leaves all its calls
      refine .inr ⟨Nat.lt_of_le_of_lt hle hlt, ?_, ?_⟩
      · rw [hret]
        trivial
      · rw [hkonts]
        exact hc.exit hr ho' (UInt8.toNat_inj.mp h15)
    · left
      omega
  | counts hr hq hs =>
    left
    have ho' := (otherPending_same hs).mp ho
    obtain ⟨hle, hlt⟩ := hin ho'
    have hne : (m.interp.qstep + 1).toNat ≠ 16 := fun h16 => hq (UInt8.toNat_inj.mp h16)
    rw [toNat_succ hlt] at hne
    have hcount : count m n m' = n + 1 := by
      unfold count
      rw [if_pos ⟨ho', hs.id⟩, if_pos hr]
    unfold InTime
    rw [hcount, hs.qstep, toNat_succ hlt]
    omega
  | quantum σ₁ _ _ hs hy => exact .inl (inTime_yielded n hd hs hy ho)

/-- A fiber that unwinds completes nothing more in the period. -/
theorem unwinds_move {m m' : Machine F S} {n : ℕ} (hd : m.interp.Distinct) (hlt : n < 16)
    (hun : Unwinds m.interp) (hon : Onward m.interp m'.interp) :
    InTime m'.interp (count m n m') ∨ count m n m' < 16 ∧ Unwinds m'.interp := by
  rcases hon with hun' | ⟨σ₁, t, hs, ht⟩
  · refine .inr ⟨?_, hun'⟩
    unfold count
    rw [hun.completes]
    split <;> simp [hlt]
  · exact .inl (inTime_switched n hd hs ht)

/-- **One step.** -/
theorem step_counted {nat : Natives N S I} {p p' : Machine F S × ℕ} {inp : Input I} (hp : Counted p)
    (hc : Careful p) (hstep : Runs.tracked (Machine.step nat) count p inp = some p') : Counted p' := by
  obtain ⟨m, n⟩ := p
  obtain ⟨m', n'⟩ := p'
  obtain ⟨hm, hn⟩ := Runs.tracked_eq_some.mp hstep
  dsimp only at hm hn
  subst hn
  have hmove := (Machine.step_spec hm).1
  refine ⟨hp.distinct.move hmove, fun ho => ?_⟩
  by_cases hun : m.interp.OtherPending ∧ n < 16 ∧ Unwinds m.interp
  · obtain ⟨-, hlt, hun⟩ := hun
    exact unwinds_move hp.distinct hlt hun (Machine.step_gives (step_onward nat inp hun) hm)
  · have hin : m.interp.OtherPending → InTime m.interp n := fun ho' =>
      (hp.counted ho').resolve_right fun h => hun ⟨ho', h⟩
    exact inTime_move hp.distinct hin hc hmove ho

/-! ### Every run -/

theorem start_counted {args : List Bytes} {exts : List ExtObj} {progs : List (Opts × Bytes)}
    {m : Machine F S} (hm : Machine.start? N args exts progs = some m) : Counted (m, 0) := by
  have hf := Machine.start_fresh hm
  refine ⟨hf.distinct, ?_⟩
  rintro ⟨t, ht, -⟩
  rw [hf.before, hf.after] at ht
  cases ht

/-- **The quantum is kept.** In every run of every program whose steps are all careful, the
running fiber completes at most 16 statements in any period in which another fiber is
pending. -/
theorem quantum_kept (nat : Natives N S I) (args : List Bytes) (exts : List ExtObj)
    (progs : List (Opts × Bytes)) (m : Machine F S)
    (hm : Machine.start? N args exts progs = some m) (inps : List (Input I))
    (hc : Runs.EachStep (Runs.tracked (Machine.step nat) count) (fun p _ => Careful p) (m, 0) inps) :
    Runs.Throughout (Runs.tracked (Machine.step nat) count) Within (m, 0) inps := by
  have hrun : Runs.Throughout (Runs.tracked (Machine.step nat) count) Counted (m, 0) inps :=
    Runs.throughout_of_eachStep (fun _ _ _ hp hc hstep => step_counted hp hc hstep)
      (start_counted hm) hc
  exact hrun.mono fun _ hp => hp.within

/-- A step is careful wherever the counter is below 15. -/
theorem careful_of_lt {p : Machine F S × ℕ} (h : p.1.interp.qstep < 15) : Careful p where
  spawn _ _ := UInt8.lt_trans h (by decide)
  exit _ _ h15 := absurd h15 (UInt8.ne_of_lt h)

/-- A fiber that is spawned at once runs beside the main one. -/
theorem spawned_early : ∃ m, wholeStart shortNames "{$s {{$o} {$o}}} {$o}" = some m ∧
    Runs.Throughout (Runs.tracked wholeStep count) Within (m, 0) (quiet 50) := by
  have hlow : (wholeStart shortNames "{$s {{$o} {$o}}} {$o}").any (fun m => decide (Runs.EachStep
      (Runs.tracked wholeStep count) (fun p _ => p.1.interp.qstep < 15) (m, 0) (quiet 50))) = true := by
    decide +kernel
  obtain ⟨m, hm, hsteps⟩ := (Option.any_eq_true _ _).mp hlow
  refine ⟨m, hm, quantum_kept _ _ _ _ m hm _ ?_⟩
  exact (of_decide_eq_true hsteps).mono fun _ _ hlt => careful_of_lt hlt

/-- A fiber that is spawned behind 21 statements waits for more than 16 others. -/
theorem spawned_late : ¬ ∀ (args : List Bytes) (exts : List ExtObj) (progs : List (Opts × Bytes))
    (m : Machine ℤ Unit), Machine.start? wholeNum args exts progs = some m →
    ∀ inps, Runs.Throughout (Runs.tracked wholeStep count) Within (m, 0) inps := by
  intro hall
  have hlate : ((wholeStart shortNames
      "{$m X {1 2 3 4} {{$o} {$o} {$o} {$o}}} {$s {}} {$m X {1 2 3 4} {{$o} {$o} {$o} {$o}}}").bind
      fun m => Runs.run (Runs.tracked wholeStep count) (m, 0) (quiet 399)).any
        (fun p => decide (¬ Within p)) = true := by
    decide +kernel
  obtain ⟨p, hp, hnot⟩ := (Option.any_eq_true _ _).mp hlate
  obtain ⟨m, hm, hrun⟩ := Option.bind_eq_some_iff.mp hp
  exact of_decide_eq_true hnot ((hall _ _ _ m hm _).run hrun)

end Quantum

end B6b
