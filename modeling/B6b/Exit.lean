/-
# An exit request

A statement that completes with `B6B_EXIT` sets `interp->exit`, and `b6b_stmt_call` starts
no statement while it is set. `try` clears it for its finally block and then puts it back
as it was (`b6b_exc_proc_try`), and two things can go wrong in between. The block may have
been entered before the request, and then puts back 0. And another fiber may run while the
flag is clear. `exit_kept`: without these two, a request is never lost.

Key definitions: `requested`, `Kept`, `Careful`, `Safe`.
-/
import B6b.Lib.Runs
import B6b.Moves

namespace B6b

namespace Exit

variable {F S I : Type} {N : Num F}

/-- The statement of the foreground fiber completes with `B6B_EXIT`. -/
def exits (σ : Interp S) : Bool :=
  match σ.fg.ctl with
  | .onRes .exit => true
  | _ => false

/-- The foreground fiber starts a statement. -/
def starts (σ : Interp S) : Bool :=
  match σ.fg.ctl with
  | .stmt _ => !σ.exit
  | _ => false

/-- Whether a statement has completed with `B6B_EXIT`. -/
def requested (m : Machine F S) (r : Bool) (_ : Machine F S) : Bool := r || exits m.interp

/-- A finally block is running. -/
def InFinally (σ : Interp S) : Prop := ∃ t ∈ σ.before ++ σ.fg :: σ.after, t.finals ≠ []

instance (σ : Interp S) : Decidable (InFinally σ) :=
  inferInstanceAs (Decidable (∃ t ∈ σ.before ++ σ.fg :: σ.after, t.finals ≠ []))

/-- Once requested, the exit flag is set while no finally block is running, and while one is,
a fiber outside all of them starts no statement. -/
def Kept (p : Machine F S × Bool) : Prop := p.2 = true →
  (¬ InFinally p.1.interp → p.1.interp.exit = true) ∧
    (InFinally p.1.interp → p.1.interp.fg.finals = [] → starts p.1.interp = false)

instance (p : Machine F S × Bool) : Decidable (Kept p) :=
  inferInstanceAs (Decidable (p.2 = true → _ ∧ _))

/-- The outermost of these finally blocks, if there is one, puts back 1. -/
def PutsBack (finals : List Bool) : Prop := finals.getLast? ≠ some false

instance (finals : List Bool) : Decidable (PutsBack finals) :=
  inferInstanceAs (Decidable (_ ≠ _))

/-- Where the first statement completes with `B6B_EXIT`, every finally block that is running
puts back 1 in the end; and from then on, a fiber that waits while the flag is clear leaves
to a fiber inside a finally block. -/
structure Careful (nat : Natives N S I) (p : Machine F S × Bool) (inp : Input I) : Prop where
  first : p.2 = false → exits p.1.interp = true →
    ∀ t ∈ p.1.interp.before ++ p.1.interp.fg :: p.1.interp.after, PutsBack t.finals
  leaves : p.2 = true → p.1.interp.exit = false → p.1.interp.waits nat inp p.1.heap = true →
    ∀ t ∈ p.1.interp.next, t.finals ≠ []

instance (nat : Natives N S I) (p : Machine F S × Bool) (inp : Input I) :
    Decidable (Careful nat p inp) :=
  decidable_of_iff ((p.2 = false → exits p.1.interp = true →
      ∀ t ∈ p.1.interp.before ++ p.1.interp.fg :: p.1.interp.after, PutsBack t.finals) ∧
    (p.2 = true → p.1.interp.exit = false → p.1.interp.waits nat inp p.1.heap = true →
      ∀ t ∈ p.1.interp.next, t.finals ≠ []))
    ⟨fun h => ⟨h.1, h.2⟩, fun h => ⟨h.first, h.leaves⟩⟩

/-! ### The invariant -/

/-- Every finally block that is running puts back 1 in the end, and the flag is set unless the
foreground fiber is inside one. -/
structure Safe (σ : Interp S) : Prop where
  others : ∀ t ∈ σ.before ++ σ.after, PutsBack t.finals
  own : PutsBack σ.fg.finals
  flag : σ.exit = true ∨ σ.fg.finals ≠ []

theorem Safe.kept {m : Machine F S} {r : Bool} (h : Safe m.interp) : Kept (m, r) := by
  intro _
  have hflag := h.flag
  refine ⟨fun hno => ?_, fun _ hout => ?_⟩
  · refine hflag.resolve_right fun hin => hno ⟨m.interp.fg, ?_, hin⟩
    exact List.mem_append_right _ List.mem_cons_self
  · have hexit : m.interp.exit = true := hflag.resolve_right fun hin => hin hout
    unfold starts
    dsimp only
    rw [hexit]
    split <;> rfl

section Moves

variable {σ σ' σ₁ : Interp S} {e : Bool} {q : UInt8} {fs : List Bool}

theorem putsBack_nil : PutsBack [] := nofun

/-- A block inside others leaves the outermost one as it is. -/
theorem putsBack_cons {fs : List Bool} (hfs : fs ≠ []) (e : Bool) :
    PutsBack (e :: fs) ↔ PutsBack fs := by
  unfold PutsBack
  rw [List.getLast?_cons_of_ne_nil hfs]

/-- The outermost block puts back what it keeps. -/
theorem putsBack_singleton (e : Bool) : PutsBack [e] ↔ e = true := by
  cases e <;> decide

/-- A step of the foreground fiber by itself. -/
theorem Safe.same (h : Safe σ) (hs : Interp.Same σ σ' e q fs) (hfs : PutsBack fs)
    (hflag : e = true ∨ fs ≠ []) : Safe σ' where
  others := by
    rw [hs.before, hs.after]
    exact h.others
  own := by
    rw [hs.finals]
    exact hfs
  flag := by
    rw [hs.exit, hs.finals]
    exact hflag

theorem Safe.start (h : Safe σ) (fn : Addr) : Safe (σ.start fn) where
  others t ht := by
    rcases List.mem_append.mp ht with ht | ht
    · exact h.others t (List.mem_append_left _ ht)
    · rcases List.mem_cons.mp ht with rfl | ht
      · exact putsBack_nil
      · exact h.others t (List.mem_append_right _ ht)
  own := h.own
  flag := h.flag

/-- A switch to a fiber inside a finally block, unless the flag is set. -/
theorem Safe.yielded (h : Safe σ) (hy : Interp.Yielded σ σ')
    (hto : σ.exit = false → ∀ t ∈ σ.next, t.finals ≠ []) : Safe σ' := by
  cases hy with
  | switched t ht =>
    refine ⟨fun u hu => ?_, ?_, ?_⟩
    · rcases ht.rest u hu with hu | ⟨c, rfl⟩
      · exact h.others u hu
      · exact h.own
    · rw [ht.fg]
      exact h.others t (Interp.next_mem ht.next)
    · rw [ht.exit, ht.fg]
      by_cases hexit : σ.exit = true
      · exact .inl hexit
      · exact .inr (hto (Bool.eq_false_iff.mpr hexit) t ht.next)
  | alone hnext hshared hexit hqstep hnextId hfg hrest hids =>
    obtain ⟨c, hfg⟩ := hfg
    have hfinals : σ'.fg.finals = σ.fg.finals := by rw [hfg]; rfl
    refine ⟨fun u hu => h.others u (hrest u hu), ?_, ?_⟩
    · rw [hfinals]
      exact h.own
    · rw [hexit, hfinals]
      exact h.flag

/-- **What a step keeps.** -/
theorem Safe.move {nat : Natives N S I} {inp : Input I} {h : Heap F} (hsafe : Safe σ)
    (hto : σ.exit = false → σ.waits nat inp h = true → ∀ t ∈ σ.next, t.finals ≠ [])
    (hm : Interp.Move nat inp h σ σ') : Safe σ' := by
  cases hm with
  | own _ hs => exact hsafe.same hs hsafe.own hsafe.flag
  | spawn fn σ₁ _ _ hs hst => exact hst ▸ (hsafe.same hs hsafe.own hsafe.flag).start fn
  | finallyIn _ hs =>
    refine hsafe.same hs ?_ (.inr (List.cons_ne_nil _ _))
    by_cases hfs : σ.fg.finals = []
    · -- the outermost block: the flag is set, or else another would be running
      rw [hfs, putsBack_singleton]
      exact hsafe.flag.resolve_right fun hin => hin hfs
    · exact (putsBack_cons hfs _).mpr hsafe.own
  | finallyOut e fs _ hf hs =>
    have hown := hsafe.own
    rw [hf] at hown
    by_cases hfs : fs = []
    · subst hfs
      exact hsafe.same hs putsBack_nil (.inl ((putsBack_singleton e).mp hown))
    · exact hsafe.same hs ((putsBack_cons hfs e).mp hown) (.inr hfs)
  | joins _ hs => exact hsafe.same hs hsafe.own (.inl rfl)
  | yields σ₁ _ hw hs hy =>
    refine (hsafe.same hs hsafe.own hsafe.flag).yielded hy fun hexit t ht => ?_
    exact hto (hs.exit ▸ hexit) hw t (hs.next ▸ ht)
  | exits _ _ _ hs => exact hsafe.same hs hsafe.own (.inl rfl)
  | counts _ _ hs => exact hsafe.same hs hsafe.own hsafe.flag
  | quantum σ₁ hr hq hs hy =>
    refine (hsafe.same hs hsafe.own hsafe.flag).yielded hy fun hexit t ht => ?_
    exact hto (hs.exit ▸ hexit) (Interp.waits_of_quantum hr hq) t (hs.next ▸ ht)

/-- A request makes the state safe, if the finally blocks are. -/
theorem safe_of_exits {nat : Natives N S I} {inp : Input I} {h : Heap F} (hx : exits σ = true)
    (hback : ∀ t ∈ σ.before ++ σ.fg :: σ.after, PutsBack t.finals)
    (hm : Interp.Move nat inp h σ σ') : Safe σ' := by
  have hctl : σ.fg.ctl = .onRes .exit := by
    unfold exits at hx
    split at hx
    · assumption
    · cases hx
  -- no other step starts from a statement that ends the program
  have noResult : ¬ σ.NoResult := fun hr => nomatch hr .exit hctl
  have completes : ¬ σ.completes = true := by simp [Interp.completes, hctl]
  cases hm with
  | exits _ _ _ hs =>
    refine ⟨?_, ?_, .inl hs.exit⟩
    · rw [hs.before, hs.after]
      intro t ht
      refine hback t ?_
      rcases List.mem_append.mp ht with ht | ht
      · exact List.mem_append_left _ ht
      · exact List.mem_append_right _ (List.mem_cons_of_mem _ ht)
    · rw [hs.finals]
      exact hback σ.fg (List.mem_append_right _ List.mem_cons_self)
  | own hr | spawn _ _ hr | finallyIn hr | finallyOut _ _ hr | joins hr | yields _ hr =>
    exact absurd hr noResult
  | counts hr | quantum _ hr => exact absurd hr completes

end Moves

/-! ### Every run -/

/-- **One step.** -/
theorem step_safe {nat : Natives N S I} {p p' : Machine F S × Bool} {inp : Input I}
    (hp : p.2 = true → Safe p.1.interp) (hc : Careful nat p inp)
    (hstep : Runs.tracked (Machine.step nat) requested p inp = some p') :
    p'.2 = true → Safe p'.1.interp := by
  intro hreq
  obtain ⟨hm, hr⟩ := Runs.tracked_eq_some.mp hstep
  have hmove := (Machine.step_spec hm).1
  by_cases hp2 : p.2 = true
  · exact (hp hp2).move (hc.leaves hp2) hmove
  · have hfalse : p.2 = false := Bool.eq_false_iff.mpr hp2
    have hx : exits p.1.interp = true := by
      rw [hr, requested, hfalse] at hreq
      exact hreq
    exact safe_of_exits hx (hc.first hfalse hx) hmove

/-- **An exit request is kept.** In every run whose steps are all careful, from the first
statement that completes with `B6B_EXIT` on, the exit flag is set whenever no finally block
is running, and no fiber outside the finally blocks starts a statement. -/
theorem exit_kept (nat : Natives N S I) (m : Machine F S) (inps : List (Input I))
    (hc : Runs.EachStep (Runs.tracked (Machine.step nat) requested) (Careful nat) (m, false) inps) :
    Runs.Throughout (Runs.tracked (Machine.step nat) requested) Kept (m, false) inps := by
  have hrun : Runs.Throughout (Runs.tracked (Machine.step nat) requested)
      (fun p => p.2 = true → Safe p.1.interp) (m, false) inps :=
    Runs.throughout_of_eachStep (fun _ _ _ hp hc hstep => step_safe hp hc hstep) nofun hc
  exact hrun.mono fun p hp hreq => (hp hreq).kept hreq

/-- A `try` whose first block exits, beside another fiber. -/
theorem exit_in_try : ∃ m, wholeStart shortNames "{$s {{$o}}} {$t {{$x}} {} {{$o}}}" = some m ∧
    Runs.Throughout (Runs.tracked wholeStep requested) Kept (m, false) (quiet 80) := by
  have hcareful : (wholeStart shortNames "{$s {{$o}}} {$t {{$x}} {} {{$o}}}").any (fun m =>
      decide (Runs.EachStep (Runs.tracked wholeStep requested) (Careful (Natives.none wholeNum))
        (m, false) (quiet 80))) = true := by
    decide +kernel
  obtain ⟨m, hm, hsteps⟩ := (Option.any_eq_true _ _).mp hcareful
  exact ⟨m, hm, exit_kept _ m _ (of_decide_eq_true hsteps)⟩

/-- A fiber exits while another one is inside a finally block, which then puts back 0. -/
theorem exit_lost : ¬ ∀ (args : List Bytes) (exts : List ExtObj) (progs : List (Opts × Bytes))
    (m : Machine ℤ Unit), Machine.start? wholeNum args exts progs = some m →
    ∀ inps, Runs.Throughout (Runs.tracked wholeStep requested) Kept (m, false) inps := by
  intro hall
  have hlost : ((wholeStart shortNames "{$s {{$x}}} {$t {} {} {{$y}}}").bind
      fun m => Runs.run (Runs.tracked wholeStep requested) (m, false) (quiet 61)).any
        (fun p => decide (¬ Kept p)) = true := by
    decide +kernel
  obtain ⟨p, hp, hnot⟩ := (Option.any_eq_true _ _).mp hlost
  obtain ⟨m, hm, hrun⟩ := Option.bind_eq_some_iff.mp hp
  exact of_decide_eq_true hnot ((hall _ _ _ m hm _).run hrun)

end Exit

end B6b
