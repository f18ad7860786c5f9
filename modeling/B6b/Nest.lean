/-
# Interpreters on one native thread

The procedure `b6b` makes an interpreter and `b6b_b6b_proc` calls it, so a fiber of one
interpreter can be in the middle of another. `active` are the interpreters the native
thread is in, innermost first: it goes on in the first of them, and the offload threads of
all run beside it. A fiber that waits in `b6b_offload` has switched to another one of its
interpreter, which may call a second interpreter.

The `i`-th offload threads of all these interpreters use one signal number and send it to
one native thread, so `sigwait` may take a signal that is meant for another interpreter.
`matched_run` is what holds of the runs in which this does not happen, and `mismatched` a
run in which it does.

Key definitions: `World`, `step`, `Matched`, `Unmixed`.
-/
import B6b.Owned

namespace B6b

namespace Nest

open Sched Offload

/-- The interpreters of a native thread, each with its offload threads. -/
structure World where
  interps : List State
  /-- The signals queued for the native thread under each number. -/
  queue : ℕ → List ℕ
  /-- The interpreters it is in, innermost first. -/
  active : List ℕ

/-- What can happen next. -/
inductive Act
  /-- `b6b_interp_proc_b6b` -/
  | create
  /-- `b6b_b6b_proc`, of the interpreter `j`. -/
  | call (j : ℕ)
  /-- It returns. -/
  | ret
  /-- The innermost interpreter, or a fiber of it, goes on. -/
  | native (a : Offload.Act)
  /-- The `i`-th offload thread of the interpreter `j` goes on. -/
  | off (j i : ℕ)
deriving DecidableEq

/-- The interpreter is up, and its foreground fiber is not in `b6b_offload` or `b6b_yield`. -/
def outside (s : State) : Bool :=
  s.boot = .up && match s.threads.cur with
    | some t =>
      match t.pc with
      | .run (.site .body _) => true
      | _ => false
    | none => false

namespace World

/-- The interpreter of the main program, before `b6b_interp_new` starts its `n` offload threads. -/
def start (n : ℕ) : World := ⟨[.new 0 n], fun _ => [], [0]⟩

/-- The interpreter `j`, with the signals of the native thread. -/
def get (w : World) (j : ℕ) : Option State := (w.interps[j]?).map fun s => { s with queue := w.queue }

/-- The interpreter `j` goes on. -/
def stepAt (w : World) (j : ℕ) (a : Offload.Act) : Option World :=
  match w.get j with
  | some s => (Offload.step s a).map fun s' => { w with interps := w.interps.set j s', queue := s'.queue }
  | none => none

end World

/-- It is the native thread that takes the step. -/
def isNative : Offload.Act → Bool
  | .off _ => false
  | _ => true

/-- **One step.** The options are those of the interpreter that makes the new one, and so is the
size of the pool. -/
def step (w : World) (a : Act) : Option World :=
  match a, w.active with
  | .off j i, _ => w.stepAt j (.off i)
  | .native a, j :: _ => if isNative a then w.stepAt j a else none
  | .create, j :: js =>
    match w.get j with
    | some s =>
      if outside s then
        some { w with interps := w.interps ++ [.new w.interps.length s.size], active := w.interps.length :: j :: js }
      else none
    | none => none
  | .call k, j :: js =>
    match w.get j with
    | some s => if outside s ∧ k < w.interps.length then some { w with active := k :: j :: js } else none
    | none => none
  | .ret, j :: k :: js =>
    match w.get j with
    | some s => if outside s then some { w with active := k :: js } else none
    | none => none
  | _, _ => none

/-- What is right about the offload threads of all interpreters. -/
def Matched (w : World) : Prop := ∀ j s, w.get j = some s →
  (∀ t ∈ s.threads.list, ∀ c i p, .idle c i p ∈ t.pc.point.sites → (s.pool i).state = .done ∧ .ret c ∈ s.log) ∧
    (s.boot = .up → ∀ i < s.size, (∀ t ∈ s.threads.list, ∀ k ∈ t.pc.point.sites, k.owns ≠ some i) →
      (s.pool i).state = .idle)

/-- If the native thread takes a signal in an interpreter, none of another interpreter is queued
under its number. -/
def Unmixed (w : World) : Act → Prop
  | .native a =>
    match w.active with
    | j :: _ =>
      match w.get j with
      | some s => OwnSignals s a
      | none => True
    | [] => True
  | _ => True

instance (w : World) (a : Act) : Decidable (Unmixed w a) := by
  unfold Unmixed
  split
  · split
    · split <;> infer_instance
    · infer_instance
  · infer_instance

/-! ### Runs without mixed signals -/

/-- Every interpreter is right by itself, and sends its own signals. -/
structure Sound (w : World) : Prop where
  me : ∀ (j : ℕ) (s : State), w.interps[j]? = some s → s.me = j
  inv : ∀ j s, w.get j = some s → Inv False s
  senders : ∀ i, ∀ k ∈ w.queue i, k < w.interps.length

theorem get_eq_some {w : World} {j : ℕ} {s : State} :
    w.get j = some s ↔ ∃ s₀, w.interps[j]? = some s₀ ∧ s = { s₀ with queue := w.queue } := by
  unfold World.get
  rw [Option.map_eq_some_iff]
  exact exists_congr fun s₀ => and_congr_right fun _ => eq_comm

theorem Sound.me_get {w : World} (h : Sound w) {j : ℕ} {s : State} (hs : w.get j = some s) : s.me = j := by
  obtain ⟨s₀, hs₀, rfl⟩ := get_eq_some.mp hs
  exact h.me j s₀ hs₀

/-- **A step of one interpreter** keeps all of them right. -/
theorem Sound.stepAt {w w' : World} {j : ℕ} {a : Offload.Act} (h : Sound w)
    (hown : ∀ s, w.get j = some s → OwnSignals s a) (hs : w.stepAt j a = some w') : Sound w' := by
  unfold World.stepAt at hs
  rcases hj : w.get j with _ | s <;> rw [hj] at hs <;> dsimp only at hs
  · cases hs
  obtain ⟨s', hstep, rfl⟩ := Option.map_eq_some_iff.mp hs
  have hinv' : Inv False s' := (h.inv j s hj).step (hown s hj) False.elim hstep
  obtain ⟨hsig, hme⟩ := step_signals hstep
  have hmej : s'.me = j := hme.trans (h.me_get hj)
  obtain ⟨s₀, hs₀, rfl⟩ := get_eq_some.mp hj
  have hlt : j < w.interps.length := (List.getElem?_eq_some_iff.mp hs₀).1
  have hset : ∀ {k : ℕ} {t : State}, (w.interps.set j s')[k]? = some t →
      k = j ∧ t = s' ∨ k ≠ j ∧ w.interps[k]? = some t := by
    intro k t hk
    by_cases hkj : k = j
    · subst hkj
      rw [List.getElem?_set_self hlt] at hk
      exact .inl ⟨rfl, (Option.some.inj hk).symm⟩
    · rw [List.getElem?_set_ne (Ne.symm hkj)] at hk
      exact .inr ⟨hkj, hk⟩
  refine ⟨fun k t hk => ?_, fun k t hk => ?_, fun i k hk => ?_⟩
  · rcases hset hk with ⟨rfl, rfl⟩ | ⟨-, hk⟩
    · exact hmej
    · exact h.me k t hk
  · obtain ⟨t₀, ht₀, rfl⟩ := get_eq_some.mp hk
    rcases hset ht₀ with ⟨rfl, rfl⟩ | ⟨hkj, hold⟩
    · exact hinv'
    · have hmek : t₀.me = k := h.me k t₀ hold
      refine (h.inv k _ (get_eq_some.mpr ⟨t₀, hold, rfl⟩)).requeue fun i => ?_
      show (s'.queue i).count t₀.me = (w.queue i).count t₀.me
      rw [hsig.count (hown _ hj) (k := t₀.me) fun he => hkj (hmek.symm.trans (he.trans (h.me_get hj)))]
  · show k < (w.interps.set j s').length
    rw [List.length_set]
    rcases hsig.mem hk with hold | rfl
    · exact h.senders i k hold
    · rw [h.me_get hj]
      exact hlt

/-- A new interpreter has sent no signals. -/
theorem Sound.create {w : World} (h : Sound w) {n : ℕ} (hn : 0 < n) (js : List ℕ) :
    Sound { w with interps := w.interps ++ [.new w.interps.length n], active := js } := by
  have happend : ∀ {k : ℕ} {t : State}, (w.interps ++ [State.new w.interps.length n])[k]? = some t →
      w.interps[k]? = some t ∨ k = w.interps.length ∧ t = .new w.interps.length n := by
    intro k t hk
    rcases Nat.lt_or_ge k w.interps.length with hlt | hge
    · rw [List.getElem?_append_left hlt] at hk
      exact .inl hk
    · rw [List.getElem?_append_right hge, List.getElem?_singleton] at hk
      split at hk
      · exact .inr ⟨Nat.le_antisymm (Nat.le_of_sub_eq_zero ‹_›) hge, (Option.some.inj hk).symm⟩
      · cases hk
  refine ⟨fun k t hk => ?_, fun k t hk => ?_, fun i k hk => ?_⟩
  · rcases happend hk with hold | ⟨rfl, rfl⟩
    · exact h.me k t hold
    · rfl
  · obtain ⟨t₀, ht₀, rfl⟩ := get_eq_some.mp hk
    rcases happend ht₀ with hold | ⟨rfl, rfl⟩
    · exact h.inv k _ (get_eq_some.mpr ⟨t₀, hold, rfl⟩)
    · refine (inv_new False w.interps.length hn).requeue fun i => ?_
      exact List.count_eq_zero.mpr fun hmem => Nat.lt_irrefl _ (h.senders i _ hmem)
  · show k < (w.interps ++ [_]).length
    rw [List.length_append]
    exact Nat.lt_add_right _ (h.senders i k hk)

/-- **A step keeps all interpreters right**, if the signals are not mixed. -/
theorem Sound.step {w w' : World} {a : Act} (h : Sound w) (hu : Unmixed w a) (hs : step w a = some w') :
    Sound w' := by
  have hactive : ∀ js, Sound { w with active := js } := fun js => ⟨h.me, h.inv, h.senders⟩
  unfold Nest.step at hs
  split at hs
  · exact h.stepAt (fun s _ i hi => by cases hi) hs
  · rename_i a j js hact
    split at hs
    · refine h.stepAt (fun s hj => ?_) hs
      unfold Unmixed at hu
      rw [hact] at hu
      dsimp only at hu
      rwa [hj] at hu
    · cases hs
  · rename_i j js hact
    split at hs
    · rename_i s hj
      split at hs
      · obtain rfl := Option.some.inj hs
        exact h.create (h.inv j s hj).size _
      · cases hs
    · cases hs
  · split at hs
    · split at hs
      · obtain rfl := Option.some.inj hs
        exact hactive _
      · cases hs
    · cases hs
  · split at hs
    · split at hs
      · obtain rfl := Option.some.inj hs
        exact hactive _
      · cases hs
    · cases hs
  · cases hs

/-- All interpreters that are right have their signals matched. -/
theorem Sound.matched {w : World} (h : Sound w) : Matched w := by
  intro j s hj
  have hinv := h.inv j s hj
  refine ⟨fun t ht c i p hk => ?_, fun hup i hi hnone => ((free_up hup).mp (hinv.free i fun k hk => ?_) hi).1⟩
  swap
  · obtain ⟨t, ht, hsite, -⟩ := mem_inCalls.mp hk
    exact hnone t ht k hsite
  obtain ⟨hmark, hrest⟩ := hinv.holds _ (mem_inCalls.mpr ⟨t, ht, hk, rfl⟩)
  refine ⟨hrest.1, List.count_pos_iff.mp ?_⟩
  simp only [State.mark, Mark.mk.injEq] at hmark
  rw [hmark.2.1]
  exact Nat.zero_lt_one

theorem sound_start {n : ℕ} (hn : 0 < n) : Sound (World.start n) := by
  have hone : ∀ {j : ℕ} {s : State}, (World.start n).interps[j]? = some s → j = 0 ∧ s = .new 0 n := by
    intro j s hj
    unfold World.start at hj
    dsimp only at hj
    rw [List.getElem?_singleton] at hj
    split at hj
    · exact ⟨‹_›, (Option.some.inj hj).symm⟩
    · cases hj
  refine ⟨fun j s hj => ?_, fun j s hj => ?_, nofun⟩
  · obtain ⟨rfl, rfl⟩ := hone hj
    rfl
  · obtain ⟨s₀, hs₀, rfl⟩ := get_eq_some.mp hj
    obtain ⟨rfl, rfl⟩ := hone hs₀
    exact inv_new False 0 hn

/-- **Completions are matched** in every run in which no wait of the native thread finds a signal
of another interpreter. -/
theorem matched_run (n : ℕ) (hn : 1 ≤ n) (acts : List Act)
    (hu : Runs.EachStep step Unmixed (World.start n) acts) :
    Runs.Throughout step Matched (World.start n) acts := by
  have hstep : ∀ w a w', Sound w → Unmixed w a → step w a = some w' → Sound w' :=
    fun w a w' h hu hs => h.step hu hs
  exact (Runs.throughout_of_eachStep hstep (sound_start hn) hu).mono fun _ => Sound.matched

/-! ### A run with mixed signals -/

/-- The interpreter `j` starts its offload thread. -/
def starts (j : ℕ) : List Act :=
  [.native .boot, .off j 0, .off j 0, .native .boot, .native .boot, .native .boot, .native .boot]

/-- A fiber spawns another, calls `b6b_offload` and switches to the other. -/
def hands : List Act :=
  [.native .spawn, .native .offload, .native .go, .native .go, .native .go, .native .go, .native .go]

/-- The offload thread of the interpreter `j` does its work. -/
def works (j : ℕ) : List Act := List.replicate 6 (.off j 0)

/-- The other fiber ends, the first one pops it and waits for its offload thread. -/
def awaits : List Act :=
  .native .finish :: List.replicate 3 (.native .go) ++ .native .back :: List.replicate 5 (.native .go)

/-- While a fiber of one interpreter waits, a second interpreter hands out work and gets it back. -/
theorem matched_run_nested : Runs.Throughout step Matched (World.start 1)
    (starts 0 ++ hands ++ .create :: starts 1 ++ hands ++ works 1 ++ awaits ++ works 0) :=
  matched_run 1 (Nat.le_refl 1) _ (by decide +kernel)

/-- The function of the first interpreter returns while the second one waits for its own. -/
theorem mismatched : ¬ ∀ n, 1 ≤ n → ∀ acts, Runs.Throughout step Matched (World.start n) acts := by
  intro hall
  have hmixed : (Runs.run step (World.start 1)
      (starts 0 ++ hands ++ .create :: starts 1 ++ hands ++ works 0 ++ awaits)).any (fun w =>
        (w.get 1).any fun s => s.threads.list.any fun t =>
          decide (At.idle 0 0 false ∈ t.pc.point.sites ∧ (s.pool 0).state = .running)) = true := by
    decide +kernel
  obtain ⟨w, hw, hat⟩ := (Option.any_eq_true _ _).mp hmixed
  obtain ⟨s, hs, hany⟩ := (Option.any_eq_true _ _).mp hat
  obtain ⟨t, ht, hbad⟩ := List.any_eq_true.mp hany
  obtain ⟨hpoint, hrunning⟩ := of_decide_eq_true hbad
  have hdone := (((hall 1 (Nat.le_refl 1) _).run hw 1 s hs).1 t ht 0 0 false hpoint).1
  rw [hrunning] at hdone
  cases hdone

end Nest

end B6b
