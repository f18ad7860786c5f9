/-
# The queue of coroutines and its workers

`co` puts a list of statements in the queue `_cos` and starts a worker if the flag
`_fco` says that none is there. Both are scripts (`B6B_CO_BODY`), run by any number
of fibers, and a fiber can be switched out behind every statement. A step here is
what happens between two such points, so a test of an `if` and the first statement
of its block are one step:

    {$proc co {
        {$list.append $_cos $1}                        append
        {$if $_fco { {$spawn {..}}                     check
                     {$global _fco 0} }}               clear
    }}
    {$loop {{$if $_cos
        {{$try {{$call [$list.pop $_cos 0]}}}}         take, finish
        {{$global _fco 1} {$return}}}}}                wind, leave

The worker can run between `check` and `clear`, find the queue empty and leave, and
`clear` then takes back the flag it has set; a coroutine that ends neither with `B6B_OK`
nor with an error that `try` silences takes its worker with it; at the nesting limit `co`
appends and does not spawn, as `{$spawn {..}}` is one frame deeper, and so it does if there
is no memory for the worker's stack; and where the interpreter exits, every statement
returns `B6B_EXIT` instead. `served_iff` says that nothing else goes wrong: a run keeps
every queued coroutine served exactly when its steps are `Careful`. (Objects find their
memory here, and a trace of statements can be written.)

Key definitions: `State`, `step`, `Served`, `Careful`.
-/
import Mathlib.Data.List.Basic
import B6b.Lib.Runs
import B6b.Fibers

namespace B6b

namespace Co

/-! ### Fibers, queue and flag -/

/-- Where a fiber stands in the body of `co`. -/
inductive Caller
  | outside
  /-- Behind `{$list.append $_cos $1}`. -/
  | appended
  /-- Behind `{$spawn {..}}`. -/
  | spawned
deriving DecidableEq

/-- Where a fiber that `co` spawned stands in its loop. -/
inductive Worker
  /-- In front of `{$if $_cos ..}`. -/
  | test
  /-- Running what it took from the queue. -/
  | busy
  /-- Behind `{$global _fco 1}`. -/
  | leaving
  | gone
deriving DecidableEq

/-- A fiber, with its depth in the body of `co`. One that `co` did not spawn is no worker. -/
structure Fiber where
  caller : Caller
  depth : ℕ
  worker : Option Worker
deriving DecidableEq

/-- `interp->exit`, the flag `_fco`, the queue `_cos` and the fibers. -/
structure State (α : Type) where
  exit : Bool
  fco : Bool
  cos : List α
  fibers : List Fiber
deriving DecidableEq

/-- What a fiber does between two points at which it can be switched out, and what happens to
`interp->exit` meanwhile. -/
inductive Act (α : Type)
  | append (i d : ℕ) (c : α)
  /-- `room` is whether `b6b_thread_new` has the memory for a fiber. -/
  | check (i : ℕ) (room : Bool)
  | clear (i : ℕ)
  | fork (i : ℕ)
  | take (i : ℕ)
  | finish (i : ℕ) (r : Res)
  | wind (i : ℕ)
  | leave (i : ℕ)
  /-- The next statement of the script is not run, as the interpreter exits. -/
  | quit (i : ℕ)
  /-- A statement has returned `B6B_EXIT`, or `b6b_join` is called, or a third block is over that has
  postponed an exit. -/
  | exit
  /-- The third block of a `try` begins, or is over. -/
  | resume

variable {α : Type}

/-- The fiber runs code of the program, which may call `co`. -/
def Fiber.RunsCode (f : Fiber) : Prop :=
  f.caller = .outside ∧ (f.worker = none ∨ f.worker = some .busy)

/-- The worker comes back to its test of the queue. -/
def Fiber.Tests (f : Fiber) : Prop := f.worker = some .test ∨ f.worker = some .busy

instance (f : Fiber) : Decidable f.RunsCode := inferInstanceAs (Decidable (_ ∧ _))

instance (f : Fiber) : Decidable f.Tests := inferInstanceAs (Decidable (_ ∨ _))

/-- A fiber of the program. -/
def plain : Fiber := ⟨.outside, 1, none⟩

/-- The worker `co` spawns. -/
def worker : Fiber := ⟨.outside, 1, some .test⟩

def State.put (s : State α) (i : ℕ) (f : Fiber) : State α := { s with fibers := s.fibers.set i f }

def State.spawn (s : State α) (f : Fiber) : State α := { s with fibers := s.fibers ++ [f] }

/-- What `try` without an `except` makes of a result. -/
def caught (raise : Bool) (r : Res) : Res := if r = .err ∧ !raise then .ok else r

/-- If there is a fiber `i` and it stands as `p` says, go on with it. -/
def State.atFiber (s : State α) (i : ℕ) (p : Fiber → Prop) [DecidablePred p]
    (k : Fiber → Option (State α)) : Option (State α) :=
  match s.fibers[i]? with
  | some f => if p f then k f else none
  | none => none

/-- If the interpreter does not exit, and there is a fiber `i` that stands as `p` says, its next
statement is run. -/
def State.runs (s : State α) (i : ℕ) (p : Fiber → Prop) [DecidablePred p]
    (k : Fiber → Option (State α)) : Option (State α) :=
  if s.exit then none else s.atFiber i p k

/-- Where a fiber stands whose next statement returns `B6B_EXIT`. What a coroutine then returns is
`B6B_EXIT` in the end. -/
def Fiber.stopped (f : Fiber) : Fiber :=
  { f with caller := .outside, worker := f.worker.map fun w => if w = .busy then .busy else .gone }

/-- One step. `raise` is `B6B_OPT_RAISE`. -/
def step (raise : Bool) (s : State α) : Act α → Option (State α)
  | .append i d c => s.runs i (fun f => f.RunsCode ∧ d < Interp.maxNesting) fun f =>
    some ({ s with cos := s.cos ++ [c] }.put i { f with caller := .appended, depth := d })
  | .check i room => s.runs i (·.caller = .appended) fun f =>
    if s.fco then
      -- `{$if ..}` has a frame when it runs its block
      if f.depth + 1 < Interp.maxNesting ∧ room then some ((s.put i { f with caller := .spawned }).spawn worker)
      else some (s.put i { f with caller := .outside })
    else some (s.put i { f with caller := .outside })
  | .clear i => s.runs i (·.caller = .spawned) fun f =>
    some ({ s with fco := false }.put i { f with caller := .outside })
  | .fork i => s.runs i Fiber.RunsCode fun _ => some (s.spawn plain)
  | .take i => s.runs i (·.worker = some .test) fun f =>
    match s.cos with
    | [] => none
    | _ :: cos => some ({ s with cos := cos }.put i { f with worker := some .busy })
  | .finish i r => s.atFiber i (fun f => f.worker = some .busy ∧ f.caller = .outside) fun f =>
    -- `loop` goes on behind `B6B_OK` only
    some ({ s with exit := s.exit || decide (r = Res.exit) }.put i
      { f with worker := some (if caught raise r = Res.ok then .test else .gone) })
  | .wind i => s.runs i (fun f => f.worker = some .test ∧ s.cos = []) fun f =>
    some ({ s with fco := true }.put i { f with worker := some .leaving })
  | .leave i => s.runs i (·.worker = some .leaving) fun f =>
    some (s.put i { f with worker := some .gone })
  | .quit i => if s.exit then s.atFiber i (fun _ => True) fun f => some (s.put i f.stopped) else none
  | .exit => some { s with exit := true }
  | .resume => some { s with exit := false }

/-- `n` fibers of the program, and the globals as `B6B_CO_BODY` sets them. -/
def init (n : ℕ) : State α := ⟨false, true, [], List.replicate n plain⟩

/-! ### What is claimed -/

/-- A worker is alive that will test the queue. Where the interpreter exits, it is stopped by `quit`
only. -/
def State.WillTest (s : State α) : Prop := ∃ f ∈ s.fibers, f.Tests

/-- A fiber is between its append and its check of the flag. -/
def State.Appending (s : State α) : Prop := ∃ f ∈ s.fibers, f.caller = .appended

/-- No coroutine is stranded, and none is about to be: where the interpreter exits, nobody calls
`co` any more. -/
structure Served (s : State α) : Prop where
  queued : s.cos ≠ [] → (s.fco = true ∧ s.Appending) ∨ s.WillTest
  quiet : s.fco = false → s.exit = false → s.WillTest

instance (s : State α) : Decidable s.WillTest := inferInstanceAs (Decidable (∃ f ∈ s.fibers, f.Tests))

instance (s : State α) : Decidable s.Appending :=
  inferInstanceAs (Decidable (∃ f ∈ s.fibers, f.caller = .appended))

instance [DecidableEq α] (s : State α) : Decidable (Served s) :=
  decidable_of_iff ((s.cos ≠ [] → (s.fco = true ∧ s.Appending) ∨ s.WillTest) ∧
    (s.fco = false → s.exit = false → s.WillTest)) ⟨fun h => ⟨h.1, h.2⟩, fun h => ⟨h.1, h.2⟩⟩

/-- A fiber other than `i` for which `p` holds. -/
def Another (p : Fiber → Prop) (i : ℕ) (l : List Fiber) : Prop :=
  ∃ j f, j ≠ i ∧ l[j]? = some f ∧ p f

/-- Fibers other than `i` serve the queue: one that will test it, or, with the flag set, one that
will check for it. -/
def State.ServedPast (s : State α) (i : ℕ) : Prop :=
  s.cos = [] ∨ (s.fco = true ∧ Another (·.caller = .appended) i s.fibers) ∨
    Another Fiber.Tests i s.fibers

/-- The flag is cleared, by `co` or as `co` is called again behind an exit, only while a worker is
alive that will test the queue. A coroutine whose result ends its worker leaves another such worker
behind, or nothing in the queue that nobody will check for, and the flag set or an exit. A `co` that
cannot spawn, and a fiber that the exit stops, leave the queue to others, or to the coroutine that
the fiber is running. -/
def Careful (raise : Bool) (s : State α) : Act α → Prop
  | .clear _ => s.WillTest
  | .check i room => ∀ f, s.fibers[i]? = some f →
      (f.depth + 1 < Interp.maxNesting ∧ room) ∨ s.fco = false ∨ f.Tests ∨ s.ServedPast i
  | .finish i r => caught raise r = .ok ∨ Another Fiber.Tests i s.fibers ∨
      (s.ServedPast i ∧ (s.fco = true ∨ s.exit = true ∨ r = .exit))
  | .quit i => s.ServedPast i ∨ ∃ f, s.fibers[i]? = some f ∧ f.worker = some .busy
  | .resume => s.fco = true ∨ s.WillTest
  | _ => True

/-! ### Fibers in a list -/

theorem exists_at {p : Fiber → Prop} {l : List Fiber} {i : ℕ} {f : Fiber} (h : l[i]? = some f) :
    (∃ g ∈ l, p g) ↔ p f ∨ Another p i l := by
  refine ⟨fun ⟨g, hg, hp⟩ => ?_, fun hor => ?_⟩
  · obtain ⟨j, hj⟩ := List.mem_iff_getElem?.mp hg
    by_cases hij : j = i
    · rw [hij, h] at hj
      exact .inl (Option.some.inj hj ▸ hp)
    · exact .inr ⟨j, g, hij, hj, hp⟩
  · rcases hor with hp | ⟨j, g, _, hj, hp⟩
    · exact ⟨f, List.mem_of_getElem? h, hp⟩
    · exact ⟨g, List.mem_of_getElem? hj, hp⟩

theorem another_set {p : Fiber → Prop} {l : List Fiber} {i : ℕ} {f : Fiber} :
    Another p i (l.set i f) ↔ Another p i l := by
  unfold Another
  refine exists_congr fun j => exists_congr fun g => and_congr_right fun hj => ?_
  rw [List.getElem?_set_ne (Ne.symm hj)]

theorem exists_set {p : Fiber → Prop} {l : List Fiber} {i : ℕ} {f f' : Fiber}
    (h : l[i]? = some f) : (∃ g ∈ l.set i f', p g) ↔ p f' ∨ Another p i l := by
  have hi : (l.set i f')[i]? = some f' := by
    rw [List.getElem?_set_self (List.getElem?_eq_some_iff.mp h).1]
  rw [exists_at hi, another_set]

theorem atFiber_eq_some {s s' : State α} {i : ℕ} {p : Fiber → Prop} [DecidablePred p]
    {k : Fiber → Option (State α)} (h : s.atFiber i p k = some s') :
    ∃ f, s.fibers[i]? = some f ∧ p f ∧ k f = some s' := by
  unfold State.atFiber at h
  rcases hf : s.fibers[i]? with _ | f <;> simp only [hf] at h
  · cases h
  · by_cases hp : p f
    · exact ⟨f, rfl, hp, by rwa [if_pos hp] at h⟩
    · rw [if_neg hp] at h
      cases h

theorem runs_eq_some {s s' : State α} {i : ℕ} {p : Fiber → Prop} [DecidablePred p]
    {k : Fiber → Option (State α)} (h : s.runs i p k = some s') :
    s.exit = false ∧ ∃ f, s.fibers[i]? = some f ∧ p f ∧ k f = some s' := by
  unfold State.runs at h
  split_ifs at h with hexit
  exact ⟨by simpa using hexit, atFiber_eq_some h⟩

section At

variable {s : State α} {i : ℕ} {f : Fiber} (h : s.fibers[i]? = some f)
include h

theorem willTest_at : s.WillTest ↔ f.Tests ∨ Another Fiber.Tests i s.fibers := exists_at h

theorem appending_at :
    s.Appending ↔ f.caller = .appended ∨ Another (·.caller = .appended) i s.fibers := exists_at h

theorem willTest_put (f' : Fiber) (exit fco : Bool) (cos : List α) :
    (State.put ⟨exit, fco, cos, s.fibers⟩ i f').WillTest ↔ f'.Tests ∨ Another Fiber.Tests i s.fibers :=
  exists_set h

theorem appending_put (f' : Fiber) (exit fco : Bool) (cos : List α) :
    (State.put ⟨exit, fco, cos, s.fibers⟩ i f').Appending ↔
      f'.caller = .appended ∨ Another (·.caller = .appended) i s.fibers :=
  exists_set h

/-- A fiber that is not calling `co` serves the queue by testing it, and otherwise the others do. -/
theorem served_put (f' : Fiber) (exit fco : Bool) (cos : List α) (hout : f'.caller ≠ .appended) :
    Served (State.put ⟨exit, fco, cos, s.fibers⟩ i f') ↔ f'.Tests ∨ Another Fiber.Tests i s.fibers ∨
      (State.ServedPast ⟨exit, fco, cos, s.fibers⟩ i ∧ (fco = true ∨ exit = true)) := by
  have hw := willTest_put h f' exit fco cos
  have ha := appending_put h f' exit fco cos
  by_cases ht : f'.Tests ∨ Another Fiber.Tests i s.fibers
  · refine iff_of_true ⟨fun _ => .inr (hw.mpr ht), fun _ _ => hw.mpr ht⟩ ?_
    exact ht.imp_right .inl
  · have hnot : ¬ (State.put ⟨exit, fco, cos, s.fibers⟩ i f').WillTest := fun hc => ht (hw.mp hc)
    obtain ⟨hf', hother⟩ := not_or.mp ht
    constructor
    · intro hs
      refine .inr (.inr ⟨?_, ?_⟩)
      · by_cases hc : cos = []
        · exact .inl hc
        · obtain ⟨hfco, happ⟩ := (hs.queued hc).resolve_right hnot
          exact .inr (.inl ⟨hfco, (ha.mp happ).resolve_left hout⟩)
      · by_contra hc
        obtain ⟨hfco, hexit⟩ := not_or.mp hc
        exact hnot (hs.quiet (Bool.eq_false_iff.mpr hfco) (Bool.eq_false_iff.mpr hexit))
    · intro hor
      obtain ⟨hpast, hflag⟩ := (hor.resolve_left hf').resolve_left hother
      refine ⟨fun hc => .inl ?_, fun hfco hexit => ?_⟩
      · obtain ⟨hfco, happ⟩ := (hpast.resolve_left hc).resolve_right hother
        exact ⟨hfco, ha.mpr (.inr happ)⟩
      · rcases hflag with hf | he
        · exact absurd (hf.symm.trans hfco) (by decide)
        · exact absurd (he.symm.trans hexit) (by decide)

end At

theorem willTest_spawn (s : State α) (f : Fiber) : (s.spawn f).WillTest ↔ s.WillTest ∨ f.Tests := by
  simp [State.WillTest, State.spawn, or_and_right, exists_or]

theorem appending_spawn (s : State α) (f : Fiber) :
    (s.spawn f).Appending ↔ s.Appending ∨ f.caller = .appended := by
  simp [State.Appending, State.spawn, or_and_right, exists_or]

/-! ### One step -/

theorem served_of_willTest {s : State α} (h : s.WillTest) : Served s :=
  ⟨fun _ => .inr h, fun _ _ => h⟩

theorem append_served {s : State α} {i : ℕ} {f : Fiber} (hs : Served s) (hexit : s.exit = false)
    (hf : s.fibers[i]? = some f) (d : ℕ) (c : α) :
    Served ({ s with cos := s.cos ++ [c] }.put i { f with caller := .appended, depth := d }) := by
  have hw := willTest_put hf { f with caller := .appended, depth := d } s.exit s.fco (s.cos ++ [c])
  have ha := appending_put hf { f with caller := .appended, depth := d } s.exit s.fco (s.cos ++ [c])
  by_cases ht : s.WillTest
  · exact served_of_willTest (hw.mpr ((willTest_at hf).mp ht))
  · have hfco : s.fco = true := by
      by_contra hc
      exact ht (hs.quiet (by simpa using hc) hexit)
    refine ⟨fun _ => .inl ⟨hfco, ha.mpr (.inl rfl)⟩, fun hc => ?_⟩
    exact absurd (hfco.symm.trans hc) (by decide)

/-- `co` spawns a worker, or finds the flag cleared, or cannot spawn one. -/
theorem check_served {s s' : State α} {i : ℕ} {room : Bool} {f : Fiber} (hs : Served s)
    (hexit : s.exit = false) (hf : s.fibers[i]? = some f)
    (h : (if s.fco then
        if f.depth + 1 < Interp.maxNesting ∧ room then some ((s.put i { f with caller := .spawned }).spawn worker)
        else some (s.put i { f with caller := .outside })
      else some (s.put i { f with caller := .outside })) = some s') :
    Served s' ↔
      (f.depth + 1 < Interp.maxNesting ∧ room) ∨ s.fco = false ∨ f.Tests ∨ s.ServedPast i := by
  split_ifs at h with hfco hdepth
  · obtain rfl := Option.some.inj h
    exact iff_of_true (served_of_willTest ((willTest_spawn _ _).mpr (.inr (.inl rfl)))) (.inl hdepth)
  · obtain rfl := Option.some.inj h
    have hput := served_put hf { f with caller := .outside } s.exit s.fco s.cos nofun
    refine hput.trans ⟨?_, ?_⟩
    · rintro (ht | ht | ⟨hpast, -⟩)
      · exact .inr (.inr (.inl ht))
      · exact .inr (.inr (.inr (.inr (.inr ht))))
      · exact .inr (.inr (.inr hpast))
    · rintro (hlt | hclear | ht | hpast)
      · exact absurd hlt hdepth
      · exact absurd (hfco.symm.trans hclear) (by decide)
      · exact .inl ht
      · exact .inr (.inr ⟨hpast, .inl hfco⟩)
  · obtain rfl := Option.some.inj h
    have hclear : s.fco = false := by simpa using hfco
    have ht : s.WillTest := hs.quiet hclear hexit
    refine iff_of_true (served_of_willTest ?_) (.inr (.inl hclear))
    exact (willTest_put hf _ s.exit s.fco s.cos).mpr ((willTest_at hf).mp ht)

theorem clear_served {s : State α} {i : ℕ} {f : Fiber} (hexit : s.exit = false)
    (hf : s.fibers[i]? = some f) :
    Served ({ s with fco := false }.put i { f with caller := .outside }) ↔ s.WillTest := by
  have hw := willTest_put hf { f with caller := .outside } s.exit false s.cos
  refine ⟨fun hs => (willTest_at hf).mpr (hw.mp (hs.quiet rfl hexit)), fun ht => ?_⟩
  exact served_of_willTest (hw.mpr ((willTest_at hf).mp ht))

/-- A coroutine that ends leaves its worker at the test, or dead. -/
theorem finish_served {s : State α} {i : ℕ} {f : Fiber} (hf : s.fibers[i]? = some f)
    (hout : f.caller = .outside) (r r' : Res) :
    Served ({ s with exit := s.exit || decide (r' = Res.exit) }.put i
        { f with worker := some (if r = Res.ok then .test else .gone) }) ↔
      r = .ok ∨ Another Fiber.Tests i s.fibers ∨
        (s.ServedPast i ∧ (s.fco = true ∨ s.exit = true ∨ r' = .exit)) := by
  have hcaller : f.caller ≠ .appended := by rw [hout]; decide
  have hput := served_put hf { f with worker := some (if r = Res.ok then .test else .gone) }
    (s.exit || decide (r' = Res.exit)) s.fco s.cos hcaller
  refine hput.trans (or_congr ?_ (or_congr_right ?_))
  · unfold Fiber.Tests
    by_cases hr : r = .ok
    · simp [hr]
    · simp [hr]
  · simp only [Bool.or_eq_true, decide_eq_true_eq]
    rfl

theorem leave_served {s : State α} {i : ℕ} {f : Fiber} (hs : Served s)
    (hf : s.fibers[i]? = some f) (hleave : f.worker = some .leaving) :
    Served (s.put i { f with worker := some .gone }) := by
  have hw := willTest_put hf { f with worker := some .gone } s.exit s.fco s.cos
  have ha := appending_put hf { f with worker := some .gone } s.exit s.fco s.cos
  have hw' : (s.put i { f with worker := some .gone }).WillTest ↔ s.WillTest := by
    refine hw.trans ((or_congr_left ?_).trans (willTest_at hf).symm)
    simp [Fiber.Tests, hleave]
  have ha' := ha.trans (appending_at hf).symm
  refine ⟨fun hc => ?_, fun hc hexit => hw'.mpr (hs.quiet hc hexit)⟩
  exact (hs.queued hc).imp (fun ⟨h1, h2⟩ => ⟨h1, ha'.mpr h2⟩) hw'.mpr

/-- A fiber that the exit stops serves the queue only if it is running a coroutine. -/
theorem quit_served {s : State α} {i : ℕ} {f : Fiber} (hexit : s.exit = true)
    (hf : s.fibers[i]? = some f) :
    Served (s.put i f.stopped) ↔ s.ServedPast i ∨ ∃ g, s.fibers[i]? = some g ∧ g.worker = some .busy := by
  have hbusy : (∃ g, s.fibers[i]? = some g ∧ g.worker = some .busy) ↔ f.stopped.Tests := by
    rw [hf]
    simp only [Option.some.injEq, exists_eq_left']
    unfold Fiber.Tests Fiber.stopped
    rcases f.worker with _ | w
    · simp
    · cases w <;> simp
  rw [hbusy]
  refine (served_put hf f.stopped s.exit s.fco s.cos nofun).trans ⟨?_, ?_⟩
  · rintro (ht | ht | ⟨hpast, -⟩)
    · exact .inr ht
    · exact .inl (.inr (.inr ht))
    · exact .inl hpast
  · rintro (hpast | ht)
    · exact .inr (.inr ⟨hpast, .inr hexit⟩)
    · exact .inl ht

/-- **One step.** From a state in which every coroutine is served, a step keeps it so
exactly when it is careful. -/
theorem step_served (raise : Bool) {s s' : State α} {a : Act α} (hs : Served s)
    (h : step raise s a = some s') : Served s' ↔ Careful raise s a := by
  cases a with
  | append i d c =>
    obtain ⟨hexit, f, hf, -, hk⟩ := runs_eq_some h
    obtain rfl := Option.some.inj hk
    exact iff_of_true (append_served hs hexit hf d c) trivial
  | check i room =>
    obtain ⟨hexit, f, hf, -, hk⟩ := runs_eq_some h
    refine (check_served hs hexit hf hk).trans ⟨fun hc g hg => ?_, fun hc => hc f hf⟩
    obtain rfl := Option.some.inj (hf.symm.trans hg)
    exact hc
  | clear i =>
    obtain ⟨hexit, f, hf, -, hk⟩ := runs_eq_some h
    obtain rfl := Option.some.inj hk
    exact clear_served hexit hf
  | fork i =>
    obtain ⟨hexit, f, hf, -, hk⟩ := runs_eq_some h
    obtain rfl := Option.some.inj hk
    refine iff_of_true ⟨fun hc => ?_, fun hc _ => ?_⟩ trivial
    · rw [willTest_spawn, appending_spawn]
      exact (hs.queued hc).imp (fun ⟨h1, h2⟩ => ⟨h1, .inl h2⟩) .inl
    · exact (willTest_spawn _ _).mpr (.inl (hs.quiet hc hexit))
  | take i =>
    obtain ⟨-, f, hf, -, hk⟩ := runs_eq_some h
    rcases hc : s.cos with _ | ⟨c, cos⟩ <;> simp only [hc] at hk
    · cases hk
    · obtain rfl := Option.some.inj hk
      refine iff_of_true (served_of_willTest ?_) trivial
      exact (willTest_put hf _ s.exit s.fco cos).mpr (.inl (.inr rfl))
  | finish i r =>
    obtain ⟨f, hf, ⟨-, hout⟩, hk⟩ := atFiber_eq_some h
    obtain rfl := Option.some.inj hk
    exact finish_served hf hout (caught raise r) r
  | wind i =>
    obtain ⟨-, f, hf, ⟨-, hempty⟩, hk⟩ := runs_eq_some h
    obtain rfl := Option.some.inj hk
    exact iff_of_true ⟨fun hc => absurd hempty hc, fun hc => by cases hc⟩ trivial
  | leave i =>
    obtain ⟨-, f, hf, hleave, hk⟩ := runs_eq_some h
    obtain rfl := Option.some.inj hk
    exact iff_of_true (leave_served hs hf hleave) trivial
  | quit i =>
    have hquit : (if s.exit then s.atFiber i (fun _ => True) fun f => some (s.put i f.stopped)
      else none) = some s' := h
    split_ifs at hquit with hexit
    obtain ⟨f, hf, -, hk⟩ := atFiber_eq_some hquit
    obtain rfl := Option.some.inj hk
    exact quit_served hexit hf
  | exit =>
    obtain rfl := Option.some.inj h
    exact iff_of_true ⟨hs.queued, fun _ hexit => nomatch hexit⟩ trivial
  | resume =>
    obtain rfl := Option.some.inj h
    refine ⟨fun hs' => ?_, fun hc => ⟨hs.queued, fun hfco _ => ?_⟩⟩
    · by_cases hfco : s.fco = true
      · exact .inl hfco
      · exact .inr (hs'.quiet (by simpa using hfco) rfl)
    · exact hc.resolve_left fun hset => absurd (hset.symm.trans hfco) (by decide)

/-! ### Every run -/

theorem served_init (n : ℕ) : Served (init n : State α) :=
  ⟨fun h => absurd rfl h, fun h _ => by cases h⟩

/-- **Queued coroutines are served.** However many fibers call `co` and however they are
interleaved, every state of the run serves the queue exactly when every step of it is
careful. -/
theorem served_iff (n : ℕ) (raise : Bool) (acts : List (Act α)) :
    Runs.Throughout (step raise) Served (init n) acts ↔
      Runs.EachStep (step raise) (Careful raise) (init n) acts :=
  Runs.throughout_iff_eachStep (fun _ _ _ hs h => step_served raise hs h) (served_init n)

/-- A switch between `{$spawn ..}` and `{$global _fco 0}` lets the worker run, find the queue
empty and leave. The flag is then cleared, and the next coroutine waits for nobody. At the nesting
limit no worker is spawned, and one that is spawned right before the interpreter exits does not
test the queue. -/
theorem stranded : (¬ ∀ (n : ℕ) (raise : Bool) (acts : List (Act ℕ)),
      Runs.Throughout (step raise) Served (init n) acts) ∧
    (¬ Runs.Throughout (step false) Served (init 1) [.append 0 63 7, .check 0 true]) ∧
    ¬ Runs.Throughout (step false) Served (init 1) [.append 0 2 7, .check 0 true, .clear 0, .exit, .quit 1] := by
  refine ⟨fun h => ?_, by decide, by decide⟩
  exact absurd (h 1 false [.append 0 2 7, .check 0 true, .take 1, .finish 1 .ok, .wind 1, .leave 1,
    .clear 0, .append 0 2 8, .check 0 true]) (by decide)

end Co

end B6b
