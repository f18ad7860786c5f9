/-
# Offload threads

The pool of offload threads of an interpreter (`b6b_offload.c`) and `b6b_offload`, which
hands them work. The fibers of an interpreter run on one native thread, one after another;
the offload threads run beside it. So a step is either what the foreground fiber does up
to its next access to something an offload thread sees, or one access of an offload
thread, in any order.

A signal is queued for the thread it is directed at. An offload thread has a signal number
of its own among those of its interpreter; what is queued for the native thread under the
number of the `i`-th offload thread is `queue i`, with the interpreter whose thread has
sent it.

A `b6b_yield` in `b6b_offload` returns through `b6b_wait`, and a file that goes with a fiber
is closed there, by `b6b_offload`. So a fiber can be in several calls, one in the destructor
that another one's `b6b_wait` has called: where it is, is a `Spot`.

That the fibers themselves are sound is taken from `B6b.Sched` (`toPoint`). What holds of
their calls and of the offload threads is in `B6b.Pool`.

Key definitions: `OffThread`, `At`, `Spot`, `State`, `step`.
-/
import B6b.Sched

namespace B6b

namespace Offload

open Sched

/-- `enum b6b_offload_state` -/
inductive OffState
  | init
  | up
  | idle
  | running
  | done
deriving DecidableEq

/-- Where an offload thread is in `b6b_offload_thread_routine`. -/
inductive OffPc
  /-- It has not been created. -/
  | none
  | up
  /-- In front of the signal that it is up. -/
  | report
  /-- In `sigwait`. -/
  | sleep
  /-- Behind `sigwait`. -/
  | check
  | call
  /-- In the function of the call `c`. -/
  | inside (c : ℕ)
  | done
  /-- In front of the signal that it is done. -/
  | notify
  | exit
deriving DecidableEq

/-- `struct b6b_offload_thread` -/
structure OffThread where
  state : OffState
  /-- The call whose `fn` and `arg` it has. -/
  work : ℕ
  pc : OffPc
  /-- How many signals are queued for it. -/
  woken : ℕ
deriving DecidableEq

/-- `b6b_offload_thread_init` -/
def OffThread.init : OffThread := ⟨.init, 0, .none, 0⟩

/-- Where a fiber is in its call `c` of `b6b_offload`, with the offload thread `i`. -/
inductive At
  /-- Anywhere but in `b6b_offload`. -/
  | body
  /-- In the function, with no fiber to switch to. -/
  | direct (c : ℕ)
  /-- `b6b_pick_thread`, at the offload thread `i`. -/
  | pick (c i : ℕ)
  /-- No offload thread is ready, and `b6b_yield` has found no fiber. -/
  | giveUp (c : ℕ)
  /-- `b6b_offload_start` -/
  | start (c i : ℕ)
  | prepare (c i : ℕ)
  | wake (c i : ℕ)
  /-- The head of the polling loop. -/
  | poll (c i : ℕ) (pending : Bool)
  /-- Its condition. -/
  | check (c i : ℕ) (pending : Bool)
  /-- Behind the loop. -/
  | unblock (c i : ℕ) (pending : Bool)
  /-- `b6b_offload_finish` -/
  | finish (c i : ℕ) (pending : Bool)
  /-- In `b6b_offload_finish`, behind `sigwait`. -/
  | idle (c i : ℕ) (pending : Bool)
  /-- Behind `b6b_offload_finish`. -/
  | last (c : ℕ) (pending : Bool)
deriving DecidableEq

/-- The calls of `b6b_wait` that wait for a destructor, the innermost one first: each with the address at
which its loop goes on, and the point at which the fiber goes on behind it. -/
abbrev Waits := List (Option ℕ × At)

/-- Where a fiber is. -/
inductive Spot
  /-- At `k`, above the calls `w` on its stack. -/
  | site (k : At) (w : Waits)
  /-- Behind the last `b6b_yield` of `b6b_thread_routine`. -/
  | past
deriving DecidableEq

namespace Spot

/-- Anywhere but in `b6b_offload`, and in no destructor that `b6b_wait` has called. -/
def body : Spot := .site .body []

/-- In a destructor of a fiber that `b6b_wait` has popped. -/
def into : Spot → Option ℕ → Spot
  | .site k w, i => .site .body ((i, k) :: w)
  | .past, _ => .past

end Spot

/-- What has happened to a call. -/
inductive Event
  /-- Its function has been called. -/
  | call (c : ℕ)
  /-- Its function has returned. -/
  | ret (c : ℕ)
  /-- `b6b_offload` has returned. -/
  | out (c : ℕ) (ok : Bool)
deriving DecidableEq

/-- Where `b6b_interp_new` is in its loop over the offload threads, and in
`b6b_offload_thread_start`. -/
inductive Boot
  | create (i : ℕ)
  | wait (i : ℕ)
  | check (i : ℕ)
  | store (i : ℕ)
  /-- Behind the loop. -/
  | up
deriving DecidableEq

/-- An interpreter and its offload threads. -/
structure State where
  /-- Its address. -/
  me : ℕ
  threads : Threads Spot
  /-- `noffths` -/
  size : ℕ
  /-- `offths` -/
  pool : ℕ → OffThread
  boot : Boot
  /-- The signals queued for the native thread under each number, by the interpreters whose
  threads have sent them. -/
  queue : ℕ → List ℕ
  /-- The number of calls so far. -/
  calls : ℕ
  log : List Event

/-- What can happen next. -/
inductive Act
  /-- `b6b_interp_new` goes on. -/
  | boot
  /-- The offload thread `i` goes on. -/
  | off (i : ℕ)
  /-- The foreground fiber starts another. -/
  | spawn
  | yield
  /-- It ends. -/
  | finish
  /-- It calls `b6b_offload`. -/
  | offload
  /-- It goes on, in `b6b_offload` or `b6b_yield`. -/
  | go
  /-- The destructors of a fiber return to `b6b_wait`. -/
  | back
deriving DecidableEq

namespace State

/-- The interpreter before `b6b_interp_new` starts its offload threads. -/
def new (me size : ℕ) : State := ⟨me, .init .body, size, fun _ => .init, .create 0, fun _ => [], 0, []⟩

/-- `b6b_threaded` -/
def threaded (s : State) : Bool := 2 ≤ s.threads.list.length

/-- The fibers but the foreground one. -/
def others (s : State) : List (Thread Spot) := s.threads.list.filter (·.id ≠ s.threads.fg)

/-- The foreground fiber goes on at `k`, above `w`. -/
def goto (s : State) (w : Waits) (k : At) : State := { s with threads := s.threads.goto (.site k w) }

/-- The same, blocked or unblocked. -/
def gotoBlock (s : State) (b : Bool) (w : Waits) (k : At) : State :=
  { s with threads := (s.threads.block b).goto (.site k w) }

/-- `b6b_yield`, and go on at `k`, above `w`. -/
def yield (s : State) (w : Waits) (k : Bool → At) : State :=
  { s with threads := s.threads.yield fun y => .site (k y) w }

def setOff (s : State) (i : ℕ) (t : OffThread) : State := { s with pool := Function.update s.pool i t }

def setQueue (s : State) (i : ℕ) (q : List ℕ) : State := { s with queue := Function.update s.queue i q }

def record (s : State) (es : List Event) : State := { s with log := es ++ s.log }

/-- `pthread_kill` of the native thread, by the offload thread `i`. -/
def notify (s : State) (i : ℕ) : State := s.setQueue i (s.queue i ++ [s.me])

/-- `sigwait` in the native thread, for the number of the offload thread `i`. -/
def sigwait (s : State) (i : ℕ) : Option State :=
  match s.queue i with
  | [] => none
  | _ :: q => some (s.setQueue i q)

/-- `b6b_offload`, up to `b6b_pick_thread` or the function. -/
def enter (s : State) (w : Waits) : State :=
  let s' := { s with calls := s.calls + 1 }
  if s.threaded then s'.gotoBlock true w (.pick s.calls 0)
  else (s'.record [.call s.calls]).goto w (.direct s.calls)

/-- The foreground fiber goes on at a point of `b6b_offload`, above `w`. -/
def go (s : State) (w : Waits) : At → Option State
  | .body => none
  | .direct c => some ((s.record [.out c true, .ret c]).goto w .body)
  | .pick c i =>
    if i < s.size then
      if (s.pool i).state = .idle then some (s.goto w (.start c i)) else some (s.goto w (.pick c (i + 1)))
    else some (s.yield w fun y => if y then .pick c 0 else .giveUp c)
  | .giveUp c => some ((s.record [.out c false]).gotoBlock false w .body)
  | .start c i => some ((s.setOff i { s.pool i with state := .running }).goto w (.prepare c i))
  | .prepare c i => some ((s.setOff i { s.pool i with work := c }).goto w (.wake c i))
  | .wake c i => some ((s.setOff i { s.pool i with woken := (s.pool i).woken + 1 }).goto w (.poll c i false))
  | .poll c i p =>
    if s.threaded then
      let pending := s.others.any (·.blocked)
      let swap := s.others.any (!·.blocked)
      if swap then some (s.yield w fun y => if y then .check c i pending else .unblock c i pending)
      else some (s.goto w (.unblock c i pending))
    else some (s.goto w (.unblock c i p))
  | .check c i p => some (s.goto w (if (s.pool i).state = .done then .unblock c i p else .poll c i p))
  | .unblock c i p => some (s.gotoBlock false w (.finish c i p))
  | .finish c i p => (s.sigwait i).map (·.goto w (.idle c i p))
  | .idle c i p => some ((s.setOff i { s.pool i with state := .idle }).goto w (.last c p))
  | .last c p =>
    if p then some (s.yield w fun _ => .last c false) else some ((s.record [.out c true]).goto w .body)

/-- The offload thread `i` goes on. -/
def off (s : State) (i : ℕ) : Option State :=
  let t := s.pool i
  match t.pc with
  | .none => none
  | .up => some (s.setOff i { t with state := .up, pc := .report })
  | .report => some ((s.setOff i { t with pc := .sleep }).notify i)
  | .sleep => if t.woken = 0 then none else some (s.setOff i { t with woken := t.woken - 1, pc := .check })
  | .check => some (s.setOff i { t with pc := if t.state = .running then .call else .exit })
  | .call => some ((s.setOff i { t with pc := .inside t.work }).record [.call t.work])
  | .inside c => some ((s.setOff i { t with pc := .done }).record [.ret c])
  | .done => some (s.setOff i { t with state := .done, pc := .notify })
  | .notify => some ((s.setOff i { t with pc := .sleep }).notify i)
  | .exit => none

/-- `b6b_interp_new` goes on. -/
def bootStep (s : State) : Option State :=
  match s.boot with
  | .create i =>
    if i < s.size then some { s.setOff i { s.pool i with pc := .up } with boot := .wait i }
    else some { s with boot := .up }
  | .wait i => (s.sigwait i).map fun s => { s with boot := .check i }
  | .check i => some { s with boot := if (s.pool i).state = .up then .store i else .wait i }
  | .store i => some { s.setOff i { s.pool i with state := .idle } with boot := .create (i + 1) }
  | .up => none

/-- What the foreground fiber `t` does. In a destructor it calls nothing but `b6b_offload`. -/
def fiberStep (s : State) (t : Thread Spot) (a : Act) : Option State :=
  match a, t.pc with
  | .spawn, .run (.site .body []) => some { s with threads := s.threads.start .body }
  | .yield, .run (.site .body []) => some (s.yield [] fun _ => .body)
  | .finish, .run (.site .body []) =>
    if t.spawned then some { s with threads := s.threads.finish.yield fun _ => .past } else none
  | .offload, .run (.site .body w) => some (s.enter w)
  | .go, .run (.site k w) => s.go w k
  | .go, .wait p => some { s with threads := s.threads.wait p }
  | .go, .loop p i => some { s with threads := s.threads.sweep Spot.into p i }
  | .back, .run (.site .body ((i, k) :: w)) => some { s with threads := s.threads.place (.loop (.site k w) i) }
  | _, _ => none

end State

/-- **One step.** -/
def step (s : State) (a : Act) : Option State :=
  match a with
  | .boot => s.bootStep
  | .off i => if i < s.size then s.off i else none
  | a =>
    match s.boot, s.threads.cur with
    | .up, some t => s.fiberStep t a
    | _, _ => none

/-- What a step is: one of `b6b_offload_start`, of a thread of the pool, or of the fiber that runs. -/
theorem step_cases {s s' : State} {a : Act} (hs : step s a = some s') :
    (a = .boot ∧ s.bootStep = some s') ∨ (∃ i < s.size, a = .off i ∧ s.off i = some s') ∨
      ∃ t, s.boot = .up ∧ s.threads.cur = some t ∧ s.fiberStep t a = some s' := by
  unfold step at hs
  split at hs
  · exact .inl ⟨rfl, hs⟩
  · next i =>
    split at hs
    · next hi => exact .inr (.inl ⟨i, hi, rfl, hs⟩)
    · cases hs
  · split at hs
    · next t hb hcur => exact .inr (.inr ⟨t, hb, hcur, hs⟩)
    · cases hs

/-! ### The fibers -/

/-- The point to the scheduler. -/
def Spot.toPoint : Spot → Point
  | .site _ w => .body (w.map (·.1))
  | .past => .past

theorem Spot.toPoint_eq {p : Spot} : p.toPoint = .past ↔ p = .past := by
  cases p <;> simp [Spot.toPoint]

theorem Spot.into_toPoint (p : Spot) (i : Option ℕ) : (p.into i).toPoint = p.toPoint.into i := by
  cases p <;> rfl

/-- The fibers are sound, whatever they do between two calls of the scheduler. -/
abbrev Fibers (T : Threads Spot) : Prop := Sched.Sound (T.map Spot.toPoint)

section Fibers

variable {T : Threads Spot} {t : Thread Spot} {p : Spot} {k : At} {w : Waits}

theorem Fibers.listed (h : Fibers T) : Listed T where
  distinct := by
    have hd := (Sched.Sound.listed h).distinct
    unfold Threads.map at hd
    rwa [List.map_map] at hd
  fresh t ht := (Sched.Sound.listed h).fresh _ (List.mem_map_of_mem ht)
  here := by
    obtain ⟨t, ht, hid⟩ := (Sched.Sound.listed h).here
    obtain ⟨u, hu, rfl⟩ := List.mem_map.mp ht
    exact ⟨u, hu, hid⟩
  flags t ht := (Sched.Sound.listed h).flags _ (List.mem_map_of_mem ht)

/-- A fiber behind the last `b6b_yield` is done, and the others are not. -/
theorem Fibers.done_iff (h : Fibers T) (ht : t ∈ T.list) : t.done = true ↔ t.pc.point = .past := by
  have hf := (h.fits _ (List.mem_map_of_mem ht)).done_iff
  rw [show (t.map Spot.toPoint).pc.point = t.pc.point.toPoint from Pc.map_point .., Spot.toPoint_eq] at hf
  exact hf

/-- What the scheduler does is sound. -/
theorem Fibers.step (h : Fibers T) (hcur : T.cur = some t) {a : Sched.Act} {T' : Threads Spot}
    (hdoes : Does (T.map Spot.toPoint) (t.map Spot.toPoint) a (T'.map Spot.toPoint)) : Fibers T' := by
  have hcur' : (T.map Spot.toPoint).cur = some (t.map Spot.toPoint) := by
    rw [Threads.map_cur, hcur, Option.map_some]
  exact (step_moved h (does_step hcur' hdoes)).sound

/-- A fiber that goes on in the same destructors is where it was, to the scheduler. -/
theorem Fibers.goto (h : Fibers T) (hcur : T.cur = some t) (hpc : t.pc = .run (.site k w)) (k' : At) :
    Fibers (T.goto (.site k' w)) := by
  have ht : t ∈ T.list := List.mem_of_find?_eq_some hcur
  have htid : t.id = T.fg := by simpa using List.find?_some hcur
  have heq : (T.goto (.site k' w)).map Spot.toPoint = T.map Spot.toPoint := by
    unfold Threads.goto Threads.place
    rw [← Threads.map_set Spot.toPoint T (e := fun t => t) T.fg]
    · unfold Threads.set
      simp
    · intro u hu hid
      obtain rfl := h.listed.unique hu ht (hid.trans htid.symm)
      have hmap : u.pc.map Spot.toPoint = Pc.map Spot.toPoint (.run (.site k' w)) := by
        rw [hpc]
        rfl
      exact congrArg (Thread.mk u.id u.bg u.fg u.done u.blocked u.spawned) hmap
  rw [Fibers, heq]
  exact h

theorem Fibers.block (h : Fibers T) (hcur : T.cur = some t) (hpc : t.pc = .run (.site k w)) (b : Bool) :
    Fibers (T.block b) := by
  refine h.step hcur (a := .block b) ?_
  have hmap : (T.block b).map Spot.toPoint = (T.map Spot.toPoint).block b :=
    (Threads.map_set Spot.toPoint T T.fg fun _ _ _ => rfl).symm
  rw [hmap]
  exact .block _ b (congrArg (Pc.map Spot.toPoint) hpc)

theorem block_cur (hcur : T.cur = some t) (b : Bool) : (T.block b).cur = some { t with blocked := b } := by
  have htid : t.id = T.fg := by simpa using List.find?_some hcur
  unfold Threads.cur Threads.block Threads.set
  dsimp only
  rw [List.find?_map]
  have hsame : ((fun u : Thread Spot => decide (u.id = T.fg)) ∘ fun u : Thread Spot =>
      if u.id = T.fg then { u with blocked := b } else u) = fun u => decide (u.id = T.fg) := by
    funext u
    simp only [Function.comp_apply]
    split <;> rfl
  rw [hsame, show T.list.find? _ = some t from hcur, Option.map_some, if_pos htid]

theorem Fibers.gotoBlock (h : Fibers T) (hcur : T.cur = some t) (hpc : t.pc = .run (.site k w)) (b : Bool)
    (k' : At) : Fibers ((T.block b).goto (.site k' w)) :=
  Fibers.goto (h.block hcur hpc b) (block_cur hcur b) hpc k'

theorem Fibers.yield (h : Fibers T) (hcur : T.cur = some t) (hpc : t.pc = .run (.site k w)) (f : Bool → At) :
    Fibers (T.yield fun y => .site (f y) w) := by
  refine h.step hcur (a := .yield) ?_
  rw [← Threads.map_yield]
  exact .yield _ (congrArg (Pc.map Spot.toPoint) hpc)

theorem Fibers.start (h : Fibers T) (hcur : T.cur = some t) (hpc : t.pc = .run .body) :
    Fibers (T.start .body) := by
  refine h.step hcur (a := .spawn) ?_
  rw [← Threads.map_start]
  exact .spawn (congrArg (Pc.map Spot.toPoint) hpc)

theorem Fibers.finish (h : Fibers T) (hcur : T.cur = some t) (hpc : t.pc = .run .body) (hs : t.spawned = true) :
    Fibers (T.finish.yield fun _ => .past) := by
  refine h.step hcur (a := .finish) ?_
  have hmap : (T.map Spot.toPoint).finish = T.finish.map Spot.toPoint :=
    Threads.map_set Spot.toPoint T T.fg fun _ _ _ => rfl
  rw [← Threads.map_yield, ← hmap]
  exact .finish (congrArg (Pc.map Spot.toPoint) hpc) hs

theorem Fibers.wait (h : Fibers T) (hcur : T.cur = some t) (hpc : t.pc = .wait p) : Fibers (T.wait p) := by
  refine h.step hcur (a := .wait) ?_
  rw [← Threads.map_wait]
  exact .wait _ (congrArg (Pc.map Spot.toPoint) hpc)

theorem Fibers.sweep (h : Fibers T) (hcur : T.cur = some t) {i : Option ℕ} (hpc : t.pc = .loop p i) :
    Fibers (T.sweep Spot.into p i) := by
  refine h.step hcur (a := .sweep) ?_
  rw [← Threads.map_sweep Spot.toPoint T p (Spot.into_toPoint p)]
  exact .sweep _ _ (congrArg (Pc.map Spot.toPoint) hpc)

theorem Fibers.back (h : Fibers T) (hcur : T.cur = some t) {i : Option ℕ}
    (hpc : t.pc = .run (.site .body ((i, k) :: w))) : Fibers (T.place (.loop (.site k w) i)) := by
  refine h.step hcur (a := .back) ?_
  rw [← Threads.map_place]
  exact .back _ _ (congrArg (Pc.map Spot.toPoint) hpc)

end Fibers

end Offload

end B6b
