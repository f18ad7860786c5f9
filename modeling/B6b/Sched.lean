/-
# The fibers of an interpreter and their flags

The scheduler by itself: the list of fibers with their flags, and `interp->fg`, as
`b6b_interp.c`, `b6b_thread.c` and `thread.h` change them. What a fiber does between two
calls of these functions is left open: it is a point in `K` at which the fiber goes on.
Behind a switch it is the other fiber that goes on, in the `b6b_yield` it has called
itself or at its beginning, so each fiber says where it is (`Pc`).

`b6b_wait` goes through the list and destroys the fibers that are done. What such a fiber
holds may be a file, and a file that is closed calls `b6b_offload`, which yields: so other
fibers run in the middle of the loop, and may be in a `b6b_wait` of their own. A fiber in a
destructor keeps the addresses at which the loops it has interrupted go on
(`Point.body`).

`Listed` is the invariant of the list and the pointer; the functions keep it. In the
machine of `Act` the fibers do anything in any order, and `scheduler_safe` says what
holds in every state of a run in which no `b6b_wait` pops the fiber at which another one
goes on (`Apart`); `destroyed_twice` is a run in which one does.

Key definitions: `Pc`, `Threads`, `Threads.yield`, `Threads.sweep`, `Listed`, `step`, `SafeRun`, `Apart`.
-/
import Mathlib.Data.List.Nodup
import Mathlib.Data.List.TakeWhile
import B6b.Lib.Runs

namespace B6b

namespace Sched

/-- Where a fiber is, and the point at which it goes on. -/
inductive Pc (K : Type)
  /-- It has not run yet. -/
  | new (k : K)
  | run (k : K)
  /-- In `b6b_yield`: it has switched to another fiber. -/
  | swapped (k : K)
  /-- In `b6b_yield`, in front of `b6b_wait`. -/
  | wait (k : K)
  /-- In the loop of `b6b_wait`, at the fiber with this address, or behind the last one. -/
  | loop (k : K) (i : Option ℕ)
deriving DecidableEq

/-- `struct b6b_thread`. Its address is `id`. -/
structure Thread (K : Type) where
  id : ℕ
  /-- `B6B_THREAD_BG` -/
  bg : Bool
  /-- `B6B_THREAD_FG` -/
  fg : Bool
  /-- `B6B_THREAD_DONE` -/
  done : Bool
  /-- `B6B_THREAD_BLOCKED` -/
  blocked : Bool
  /-- It has a `fn`, as all fibers but the main one do. -/
  spawned : Bool
  pc : Pc K
deriving DecidableEq

/-- `interp->threads` and `interp->fg`. -/
structure Threads (K : Type) where
  list : List (Thread K)
  fg : ℕ
  /-- The address of the next new fiber. -/
  next : ℕ
  /-- The fibers that have been destroyed, the last one first, each with the one that was behind it.
  All of them were done. -/
  gone : List (ℕ × Option ℕ)
deriving DecidableEq

variable {K : Type}

namespace Thread

/-- `THREAD_PENDING` -/
def pending (t : Thread K) : Bool := t.bg && !t.done

/-- It goes on: at its beginning, or behind the `swapcontext` of its `b6b_yield`. -/
def resume (t : Thread K) : Thread K :=
  match t.pc with
  | .new k => { t with pc := .run k }
  | .swapped k => { t with pc := .wait k }
  | _ => t

/-- The side of `b6b_thread_swap` that comes in. -/
def swapIn (t : Thread K) : Thread K := { t with bg := false, fg := true }

/-- The side of `b6b_thread_swap` that goes out. -/
def swapOut (t : Thread K) : Thread K := { t with bg := true, fg := false }

/-- `b6b_thread_new` -/
def new (id : ℕ) (k : K) : Thread K := ⟨id, true, false, false, false, true, .new k⟩

/-- `b6b_thread_self` -/
def self (k : K) : Thread K := ⟨0, false, true, false, false, false, .run k⟩

end Thread

/-- The list with `t` behind the fiber `i`. -/
def insertAfter (i : ℕ) (t : Thread K) : List (Thread K) → List (Thread K)
  | [] => []
  | u :: us => if u.id = i then u :: t :: us else u :: insertAfter i t us

namespace Threads

/-- The addresses of the fibers, in their order. -/
def ids (s : Threads K) : List ℕ := s.list.map (·.id)

/-- Change the fiber `i`. -/
def set (s : Threads K) (i : ℕ) (g : Thread K → Thread K) : Threads K :=
  { s with list := s.list.map fun t => if t.id = i then g t else t }

/-- The foreground fiber. -/
def cur (s : Threads K) : Option (Thread K) := s.list.find? (·.id = s.fg)

/-- The fibers behind the foreground one. -/
def after (s : Threads K) : List (Thread K) := (s.list.dropWhile (·.id ≠ s.fg)).tail

/-- The fibers in front of it. -/
def before (s : Threads K) : List (Thread K) := s.list.takeWhile (·.id ≠ s.fg)

/-- The fiber that `b6b_yield` switches to. -/
def target (s : Threads K) : Option (Thread K) :=
  (s.after.find? (·.pending)).or (s.before.find? (·.pending))

/-- `interp->fg = t` and `b6b_thread_swap`; the fiber that goes out goes on at `k`. -/
def swap (s : Threads K) (t : Thread K) (k : K) : Threads K :=
  let s := s.set s.fg fun bg => { bg.swapOut with pc := .swapped k }
  { s.set t.id fun fg => fg.swapIn.resume with fg := t.id }

/-- `b6b_yield` up to `b6b_wait`. The fiber goes on at `k true` if it has switched to another,
and at `k false` if it has not. -/
def yield (s : Threads K) (k : Bool → K) : Threads K :=
  match s.target with
  | some t => s.swap t (k true)
  | none => s.set s.fg fun t => { t with pc := .wait (k false) }

/-- The foreground fiber is at `pc`. -/
def place (s : Threads K) (pc : Pc K) : Threads K := s.set s.fg fun t => { t with pc := pc }

/-- The foreground fiber goes on at `k`. -/
def goto (s : Threads K) (k : K) : Threads K := s.place (.run k)

/-- `b6b_wait`, up to its loop. The fiber goes on at `k` behind it. -/
def wait (s : Threads K) (k : K) : Threads K := s.place (.loop k (s.list.head?.map (·.id)))

/-- `b6b_thread_next` -/
def behind (s : Threads K) (i : ℕ) : Option ℕ :=
  (s.list.dropWhile (·.id ≠ i)).tail.head?.map (·.id)

/-- What the loop reads at the address `i`: whether the fiber there is done, and the one behind it.
A fiber that is not in the list has been destroyed, and its memory is what it was. -/
def read (s : Threads K) (i : ℕ) : Bool × Option ℕ :=
  match s.list.find? (·.id = i) with
  | some t => (t.done, s.behind i)
  | none => (true, (s.gone.find? (·.1 = i)).bind (·.2))

/-- `b6b_thread_pop`, but for what the fiber holds. -/
def pop (s : Threads K) (i : ℕ) (next : Option ℕ) : Threads K :=
  { s with list := s.list.filter (·.id ≠ i), gone := (i, next) :: s.gone }

/-- One turn of the loop of `b6b_wait`, at this address. The destructors of a fiber that is popped run
at `into k next`, where `next` is the address of the next turn. -/
def sweep (s : Threads K) (into : K → Option ℕ → K) (k : K) : Option ℕ → Threads K
  | none => s.goto k
  | some i =>
    if (s.read i).1 then (s.pop i (s.read i).2).goto (into k (s.read i).2)
    else s.place (.loop k (s.read i).2)

theorem sweep_some (s : Threads K) (into : K → Option ℕ → K) (k : K) (i : ℕ) :
    s.sweep into k (some i) =
      if (s.read i).1 then (s.pop i (s.read i).2).goto (into k (s.read i).2)
      else s.place (.loop k (s.read i).2) := rfl

/-- `b6b_start`: a fiber that begins at `k`. -/
def start (s : Threads K) (k : K) : Threads K :=
  { s with list := insertAfter s.fg (.new s.next k) s.list, next := s.next + 1 }

/-- `b6b_thread_block`, or `b6b_thread_unblock`. -/
def block (s : Threads K) (b : Bool) : Threads K := s.set s.fg fun t => { t with blocked := b }

/-- `t->flags |= B6B_THREAD_DONE` -/
def finish (s : Threads K) : Threads K := s.set s.fg fun t => { t with done := true }

/-- The main fiber alone. -/
def init (k : K) : Threads K := ⟨[.self k], 0, 1, []⟩

end Threads

/-! ### The list and the pointer -/

/-- No fiber is twice in the list, and the foreground one is in it and has the flag. -/
structure Listed (s : Threads K) : Prop where
  distinct : (s.list.map (·.id)).Nodup
  fresh : ∀ t ∈ s.list, t.id < s.next
  here : ∃ t ∈ s.list, t.id = s.fg
  flags : ∀ t ∈ s.list, t.fg = decide (t.id = s.fg) ∧ t.bg = !t.fg

theorem cur_of_here {s : Threads K} (h : ∃ t ∈ s.list, t.id = s.fg) :
    ∃ t ∈ s.list, t.id = s.fg ∧ s.cur = some t := by
  obtain ⟨t, ht, hid⟩ := h
  rcases hc : s.cur with _ | u
  · have := List.find?_eq_none.mp hc t ht
    simp [hid] at this
  · have hu := List.mem_of_find?_eq_some hc
    have huid : u.id = s.fg := by simpa using List.find?_some hc
    exact ⟨u, hu, huid, rfl⟩

/-- The foreground fiber, when it is at another place. -/
theorem place_cur {s : Threads K} {t : Thread K} (hcur : s.cur = some t) (pc : Pc K) :
    (s.place pc).cur = some { t with pc := pc } := by
  have hid : t.id = s.fg := by simpa using List.find?_some hcur
  unfold Threads.cur Threads.place Threads.set at *
  dsimp only
  rw [List.find?_map]
  have hsame : ((fun u : Thread K => decide (u.id = s.fg)) ∘
      fun u => if u.id = s.fg then { u with pc := pc } else u) = fun u => decide (u.id = s.fg) := by
    funext u
    simp only [Function.comp_apply]
    split <;> rfl
  rw [hsame, hcur, Option.map_some, if_pos hid]

namespace Listed

variable {s : Threads K}

theorem unique (h : Listed s) {t u : Thread K} (ht : t ∈ s.list) (hu : u ∈ s.list) (he : t.id = u.id) :
    t = u :=
  List.inj_on_of_nodup_map h.distinct ht hu he

theorem pending_iff (h : Listed s) {t : Thread K} (ht : t ∈ s.list) :
    t.pending = true ↔ t.id ≠ s.fg ∧ t.done = false := by
  obtain ⟨hfg, hbg⟩ := h.flags t ht
  unfold Thread.pending
  rw [hbg, hfg]
  simp

end Listed

theorem mem_set {s : Threads K} {i : ℕ} {g : Thread K → Thread K} {t : Thread K} :
    t ∈ (s.set i g).list ↔ ∃ u ∈ s.list, t = if u.id = i then g u else u := by
  unfold Threads.set
  simp only [List.mem_map]
  exact exists_congr fun u => and_congr_right fun _ => eq_comm

/-- A change of a fiber keeps its address in the list. -/
theorem exists_set {s : Threads K} {t : Thread K} (ht : t ∈ s.list) (i : ℕ) {g : Thread K → Thread K}
    (hg : ∀ u, (g u).id = u.id) : ∃ u ∈ (s.set i g).list, u.id = t.id := by
  refine ⟨_, mem_set.mpr ⟨t, ht, rfl⟩, ?_⟩
  split
  · exact hg t
  · rfl

theorem perm_insertAfter {i : ℕ} {t : Thread K} : ∀ {l : List (Thread K)}, (∃ v ∈ l, v.id = i) →
    (insertAfter i t l).Perm (t :: l)
  | [], h => by simp at h
  | v :: l, h => by
    unfold insertAfter
    by_cases hv : v.id = i
    · rw [if_pos hv]
      exact .swap t v l
    · have hl : ∃ w ∈ l, w.id = i := by
        obtain ⟨w, hw, hwi⟩ := h
        rcases List.mem_cons.mp hw with rfl | hw
        · exact absurd hwi hv
        · exact ⟨w, hw, hwi⟩
      rw [if_neg hv]
      exact ((perm_insertAfter hl).cons v).trans (.swap t v l)

/-- The list without one of its fibers. -/
theorem filter_split {us vs : List (Thread K)} {u : Thread K}
    (hd : ((us ++ u :: vs).map (·.id)).Nodup) : (us ++ u :: vs).filter (·.id ≠ u.id) = us ++ vs := by
  rw [List.map_append, List.map_cons] at hd
  have hout : u.id ∉ us.map (·.id) ++ vs.map (·.id) := (List.nodup_cons.mp (List.nodup_middle.mp hd)).1
  rw [List.mem_append, not_or] at hout
  have hne : ∀ ws : List (Thread K), u.id ∉ ws.map (·.id) → ws.filter (·.id ≠ u.id) = ws := by
    intro ws hws
    exact List.filter_eq_self.mpr fun w hw => decide_eq_true fun he => hws (he ▸ List.mem_map_of_mem hw)
  rw [List.filter_append, List.filter_cons_of_neg (by simp), hne us hout.1, hne vs hout.2]

/-- The list is the fibers in front, the foreground one and those behind it. -/
theorem list_eq {s : Threads K} (h : ∃ t ∈ s.list, t.id = s.fg) :
    ∃ t, t.id = s.fg ∧ s.list = s.before ++ t :: s.after := by
  have hsplit : s.before ++ s.list.dropWhile (·.id ≠ s.fg) = s.list := List.takeWhile_append_dropWhile
  rcases hd : s.list.dropWhile (·.id ≠ s.fg) with _ | ⟨t, ts⟩
  · obtain ⟨u, hu, hid⟩ := h
    rw [hd, List.append_nil] at hsplit
    have := List.mem_takeWhile_imp (hsplit ▸ hu : u ∈ s.before)
    simp [hid] at this
  · have ht := List.head_dropWhile_not (·.id ≠ s.fg) (l := s.list) (by rw [hd]; simp)
    refine ⟨t, ?_, ?_⟩
    · simp only [hd, List.head_cons] at ht
      simpa using ht
    · unfold Threads.after
      rw [hd]
      exact (hd ▸ hsplit).symm

/-- **What `b6b_yield` switches to**: a fiber of the list, other than the foreground one, that
is not done; if it finds none, all others are done. -/
theorem target_spec {s : Threads K} (h : Listed s) :
    (∃ t ∈ s.list, t.id ≠ s.fg ∧ t.done = false ∧ s.target = some t) ∨
      ((∀ t ∈ s.list, t.id ≠ s.fg → t.done = true) ∧ s.target = none) := by
  obtain ⟨c, hc, hl⟩ := list_eq h.here
  have hmem : ∀ t, t ∈ s.after ∨ t ∈ s.before → t ∈ s.list := by
    intro t ht
    rw [hl]
    rcases ht with ht | ht
    · exact List.mem_append_right _ (List.mem_cons_of_mem _ ht)
    · exact List.mem_append_left _ ht
  rcases ht : s.target with _ | t
  · refine .inr ⟨fun t htl hid => ?_, rfl⟩
    obtain ⟨hafter, hbefore⟩ := Option.or_eq_none_iff.mp ht
    have hnot : t.pending = false := by
      rw [hl] at htl
      rcases List.mem_append.mp htl with hb | hb
      · simpa using List.find?_eq_none.mp hbefore t hb
      · rcases List.mem_cons.mp hb with rfl | ha
        · exact absurd hc hid
        · simpa using List.find?_eq_none.mp hafter t ha
    by_contra hdone
    have hpend := (h.pending_iff htl).mpr ⟨hid, by simpa using hdone⟩
    rw [hpend] at hnot
    cases hnot
  · refine .inl ⟨t, ?_⟩
    have hfound : t.pending = true ∧ t ∈ s.list := by
      rcases Option.or_eq_some_iff.mp ht with ha | ⟨-, hb⟩
      · exact ⟨by simpa using List.find?_some ha, hmem t (.inl (List.mem_of_find?_eq_some ha))⟩
      · exact ⟨by simpa using List.find?_some hb, hmem t (.inr (List.mem_of_find?_eq_some hb))⟩
    obtain ⟨hid, hdone⟩ := (h.pending_iff hfound.2).mp hfound.1
    exact ⟨hfound.2, hid, hdone, rfl⟩

namespace Thread

variable (t : Thread K)

/-- Everything but the place of a fiber. -/
theorem resume_same : t.resume.id = t.id ∧ t.resume.fg = t.fg ∧ t.resume.bg = t.bg ∧
    t.resume.done = t.done ∧ t.resume.blocked = t.blocked ∧ t.resume.spawned = t.spawned := by
  unfold resume
  split <;> exact ⟨rfl, rfl, rfl, rfl, rfl, rfl⟩

@[simp] theorem resume_id : t.resume.id = t.id := t.resume_same.1

@[simp] theorem resume_fg : t.resume.fg = t.fg := t.resume_same.2.1

@[simp] theorem resume_bg : t.resume.bg = t.bg := t.resume_same.2.2.1

@[simp] theorem resume_done : t.resume.done = t.done := t.resume_same.2.2.2.1

@[simp] theorem resume_spawned : t.resume.spawned = t.spawned := t.resume_same.2.2.2.2.2

end Thread

/-- What a switch from the fiber `i` to the fiber `j` makes of a fiber. -/
def switched (i j : ℕ) (k : K) (t : Thread K) : Thread K :=
  if t.id = j then t.swapIn.resume else if t.id = i then { t.swapOut with pc := .swapped k } else t

@[simp] theorem switched_id (i j : ℕ) (k : K) (t : Thread K) : (switched i j k t).id = t.id := by
  unfold switched
  split
  · rw [Thread.resume_id]
    rfl
  · split <;> rfl

theorem swap_list {s : Threads K} {t : Thread K} (k : K) (hne : t.id ≠ s.fg) :
    (s.swap t k).list = s.list.map (switched s.fg t.id k) := by
  show ((s.list.map _).map _) = _
  rw [List.map_map]
  refine List.map_congr_left fun u _ => ?_
  simp only [Function.comp_apply, switched]
  by_cases hu : u.id = s.fg
  · have hut : ¬ u.id = t.id := fun he => hne (he.symm.trans hu)
    rw [if_pos hu, if_neg (show ¬ ({ u.swapOut with pc := .swapped k } : Thread K).id = t.id from hut),
      if_neg hut]
  · rw [if_neg hu]

/-- So does a switch. -/
theorem exists_swap {s : Threads K} {t u : Thread K} (k : K) (hne : t.id ≠ s.fg) (hu : u ∈ s.list) :
    ∃ v ∈ (s.swap t k).list, v.id = u.id := by
  refine ⟨switched s.fg t.id k u, ?_, switched_id _ _ _ _⟩
  rw [swap_list k hne]
  exact List.mem_map_of_mem hu

namespace Listed

variable {s : Threads K}

/-- A change of fibers that leaves addresses and flags alone. -/
theorem map (h : Listed s) {g : Thread K → Thread K}
    (hg : ∀ u, (g u).id = u.id ∧ (g u).fg = u.fg ∧ (g u).bg = u.bg) :
    Listed { s with list := s.list.map g } where
  distinct := by
    have hids : (s.list.map g).map (·.id) = s.list.map (·.id) := by
      rw [List.map_map]
      exact List.map_congr_left fun u _ => (hg u).1
    rw [hids]
    exact h.distinct
  fresh t ht := by
    obtain ⟨u, hu, rfl⟩ := List.mem_map.mp ht
    rw [(hg u).1]
    exact h.fresh u hu
  here := by
    obtain ⟨u, hu, hid⟩ := h.here
    exact ⟨g u, List.mem_map_of_mem hu, (hg u).1.trans hid⟩
  flags t ht := by
    obtain ⟨u, hu, rfl⟩ := List.mem_map.mp ht
    rw [(hg u).1, (hg u).2.1, (hg u).2.2]
    exact h.flags u hu

theorem set (h : Listed s) {i : ℕ} {g : Thread K → Thread K}
    (hg : ∀ u, (g u).id = u.id ∧ (g u).fg = u.fg ∧ (g u).bg = u.bg) : Listed (s.set i g) :=
  h.map fun u => by
    split
    · exact hg u
    · exact ⟨rfl, rfl, rfl⟩

theorem swap (h : Listed s) {t : Thread K} (ht : t ∈ s.list) (hne : t.id ≠ s.fg) (k : K) :
    Listed (s.swap t k) where
  distinct := by
    have hids : (s.swap t k).list.map (·.id) = s.list.map (·.id) := by
      rw [swap_list k hne, List.map_map]
      exact List.map_congr_left fun u _ => switched_id s.fg t.id k u
    rw [hids]
    exact h.distinct
  fresh u hu := by
    rw [swap_list k hne] at hu
    obtain ⟨v, hv, rfl⟩ := List.mem_map.mp hu
    rw [switched_id]
    exact h.fresh v hv
  here := by
    refine ⟨switched s.fg t.id k t, ?_, switched_id _ _ _ _⟩
    rw [swap_list k hne]
    exact List.mem_map_of_mem ht
  flags u hu := by
    rw [swap_list k hne] at hu
    obtain ⟨v, hv, rfl⟩ := List.mem_map.mp hu
    have hfg : (s.swap t k).fg = t.id := rfl
    rw [hfg, switched_id]
    unfold switched
    by_cases hvt : v.id = t.id
    · simp [hvt, Thread.swapIn]
    · by_cases hvf : v.id = s.fg
      · simp [hvf, Ne.symm hne, Thread.swapOut]
      · obtain ⟨hfg, hbg⟩ := h.flags v hv
        simp [hvt, hvf, hbg, hfg]

/-- Any fiber but the foreground one may be popped. -/
theorem pop (h : Listed s) {i : ℕ} (hi : i ≠ s.fg) (next : Option ℕ) : Listed (s.pop i next) where
  distinct := h.distinct.sublist (List.filter_sublist.map _)
  fresh t ht := h.fresh t (List.mem_of_mem_filter ht)
  here := by
    obtain ⟨t, ht, hid⟩ := h.here
    exact ⟨t, List.mem_filter.mpr ⟨ht, decide_eq_true (hid ▸ hi.symm)⟩, hid⟩
  flags t ht := h.flags t (List.mem_of_mem_filter ht)

theorem mem_start (h : Listed s) (k : K) {t : Thread K} :
    t ∈ (s.start k).list ↔ t = .new s.next k ∨ t ∈ s.list :=
  (perm_insertAfter h.here).mem_iff.trans List.mem_cons

theorem start (h : Listed s) (k : K) : Listed (s.start k) where
  distinct := by
    have hperm := (perm_insertAfter (t := .new s.next k) h.here).map (·.id)
    refine hperm.nodup_iff.mpr (List.nodup_cons.mpr ⟨fun hmem => ?_, h.distinct⟩)
    obtain ⟨t, ht, hid⟩ := List.mem_map.mp hmem
    exact Nat.ne_of_lt (h.fresh t ht) hid
  fresh t ht := by
    rcases (h.mem_start k).mp ht with rfl | ht
    · exact Nat.lt_succ_self _
    · exact Nat.lt_succ_of_lt (h.fresh t ht)
  here := by
    obtain ⟨t, ht, hid⟩ := h.here
    exact ⟨t, (h.mem_start k).mpr (.inr ht), hid⟩
  flags t ht := by
    rcases (h.mem_start k).mp ht with rfl | ht
    · obtain ⟨t, ht, hid⟩ := h.here
      have hlt := h.fresh t ht
      have hne : s.next ≠ s.fg := by omega
      exact ⟨(decide_eq_false hne).symm, rfl⟩
    · exact h.flags t ht

end Listed

/-! ### Fewer points -/

section Map

variable {K' : Type} (f : K → K')

def Pc.map : Pc K → Pc K'
  | .new k => .new (f k)
  | .run k => .run (f k)
  | .swapped k => .swapped (f k)
  | .wait k => .wait (f k)
  | .loop k i => .loop (f k) i

/-- The point at which it goes on. -/
def Pc.point : Pc K → K
  | .new k => k
  | .run k => k
  | .swapped k => k
  | .wait k => k
  | .loop k _ => k

def Thread.map (t : Thread K) : Thread K' := ⟨t.id, t.bg, t.fg, t.done, t.blocked, t.spawned, t.pc.map f⟩

theorem Pc.map_point (pc : Pc K) : (pc.map f).point = f pc.point := by
  cases pc <;> rfl

/-- The fibers, with `f` of their points. What the scheduler does is the same on them. -/
def Threads.map (s : Threads K) : Threads K' := ⟨s.list.map (Thread.map f), s.fg, s.next, s.gone⟩

namespace Threads

variable (s : Threads K)

theorem map_cur : (s.map f).cur = s.cur.map (Thread.map f) := by
  unfold cur Threads.map
  dsimp only
  rw [List.find?_map]
  rfl

theorem map_set {g : Thread K → Thread K} {e : Thread K' → Thread K'} (i : ℕ)
    (hg : ∀ t ∈ s.list, t.id = i → e (t.map f) = (g t).map f) :
    (s.map f).set i e = (s.set i g).map f := by
  unfold set Threads.map
  dsimp only
  rw [List.map_map, List.map_map]
  refine congrArg (Threads.mk · s.fg s.next s.gone) (List.map_congr_left fun t ht => ?_)
  simp only [Function.comp_apply]
  by_cases hi : t.id = i
  · rw [if_pos hi, if_pos (show (t.map f).id = i from hi), hg t ht hi]
  · rw [if_neg hi, if_neg (show (t.map f).id ≠ i from hi)]

theorem map_target : (s.map f).target = s.target.map (Thread.map f) := by
  have hbefore : (s.map f).before = s.before.map (Thread.map f) := by
    unfold before Threads.map
    dsimp only
    rw [List.takeWhile_map]
    rfl
  have hafter : (s.map f).after = s.after.map (Thread.map f) := by
    unfold after Threads.map
    dsimp only
    rw [List.dropWhile_map, ← List.map_tail]
    rfl
  unfold target
  rw [hbefore, hafter, List.find?_map, List.find?_map, ← Option.map_or]
  rfl

theorem map_swap (t : Thread K) (k : K) : (s.map f).swap (t.map f) (f k) = (s.swap t k).map f := by
  unfold swap
  dsimp only
  have hout := map_set f s (g := fun bg => { bg.swapOut with pc := .swapped k })
    (e := fun bg => { bg.swapOut with pc := .swapped (f k) }) s.fg fun _ _ _ => rfl
  have hin := map_set f (s.set s.fg fun bg => { bg.swapOut with pc := .swapped k })
    (g := fun fg => fg.swapIn.resume) (e := fun fg => fg.swapIn.resume) t.id fun u _ _ => by
      rcases u with ⟨_, _, _, _, _, _, pc⟩
      cases pc <;> rfl
  have hfg : (s.map f).fg = s.fg := rfl
  have hid : (t.map f).id = t.id := rfl
  rw [hfg, hid, hout, hin]
  rfl

theorem map_yield (k : Bool → K) : (s.map f).yield (fun y => f (k y)) = (s.yield k).map f := by
  unfold yield
  rw [map_target]
  cases s.target with
  | none => exact map_set f s s.fg fun _ _ _ => rfl
  | some t => exact map_swap f s t (k true)

theorem map_place (pc : Pc K) : (s.map f).place (pc.map f) = (s.place pc).map f :=
  map_set f s s.fg fun _ _ _ => rfl

theorem map_goto (k : K) : (s.map f).goto (f k) = (s.goto k).map f := map_place f s (.run k)

theorem map_wait (k : K) : (s.map f).wait (f k) = (s.wait k).map f := by
  have hhead : (s.map f).list.head?.map (·.id) = s.list.head?.map (·.id) := by
    unfold Threads.map
    dsimp only
    rw [List.head?_map, Option.map_map]
    rfl
  unfold wait
  rw [hhead]
  exact map_place f s (.loop k _)

theorem map_read (i : ℕ) : (s.map f).read i = s.read i := by
  have hfind : (s.map f).list.find? (·.id = i) = (s.list.find? (·.id = i)).map (Thread.map f) := by
    unfold Threads.map
    dsimp only
    rw [List.find?_map]
    rfl
  have hbehind : (s.map f).behind i = s.behind i := by
    unfold behind Threads.map
    dsimp only
    rw [List.dropWhile_map, ← List.map_tail, List.head?_map, Option.map_map]
    rfl
  unfold read
  rw [hfind, hbehind]
  cases s.list.find? (·.id = i) <;> rfl

theorem map_pop (i : ℕ) (next : Option ℕ) : (s.map f).pop i next = (s.pop i next).map f := by
  unfold pop Threads.map
  dsimp only
  rw [List.filter_map]
  rfl

theorem map_sweep {into : K → Option ℕ → K} {into' : K' → Option ℕ → K'} (k : K)
    (hinto : ∀ i, f (into k i) = into' (f k) i) (i : Option ℕ) :
    (s.map f).sweep into' (f k) i = (s.sweep into k i).map f := by
  cases i with
  | none => exact map_goto f s k
  | some i =>
    rw [sweep_some, sweep_some, map_read]
    split
    · rw [map_pop, ← hinto]
      exact map_goto f _ _
    · exact map_place f s (.loop k _)

theorem map_start (k : K) : (s.map f).start (f k) = (s.start k).map f := by
  have hinsert : ∀ (l : List (Thread K)) (t : Thread K),
      insertAfter s.fg (t.map f) (l.map (Thread.map f)) = (insertAfter s.fg t l).map (Thread.map f) := by
    intro l t
    induction l with
    | nil => rfl
    | cons u us ih =>
      unfold insertAfter
      rw [List.map_cons]
      dsimp only
      by_cases hu : u.id = s.fg
      · rw [if_pos hu, if_pos (show (u.map f).id = s.fg from hu)]
        rfl
      · rw [if_neg hu, if_neg (show (u.map f).id ≠ s.fg from hu), ih]
        rfl
  unfold start
  exact congrArg (Threads.mk · s.fg (s.next + 1) s.gone) (hinsert s.list (.new s.next k))

end Threads

end Map

/-! ### Fibers that do anything -/

/-- The points of a fiber that matter to the scheduler. -/
inductive Point
  /-- Anywhere but in `b6b_yield`. A fiber may be in destructors that loops of `b6b_wait` have called:
  these are the addresses at which the loops go on, the innermost one first. -/
  | body (loops : List (Option ℕ))
  /-- Behind the last `b6b_yield` of `b6b_thread_routine`. -/
  | past
deriving DecidableEq

/-- In the destructors of one fiber more. -/
def Point.into : Point → Option ℕ → Point
  | .body is, i => .body (i :: is)
  | .past, _ => .past

/-- Where the loops of `b6b_wait` go on that wait for destructors. -/
def Point.loops : Point → List (Option ℕ)
  | .body is => is
  | .past => []

/-- What the foreground fiber does. -/
inductive Act
  | spawn
  | block (b : Bool)
  | yield
  /-- The end of `b6b_thread_routine`, up to `b6b_wait`. -/
  | finish
  /-- The `b6b_wait` of its `b6b_yield` begins. -/
  | wait
  /-- One turn of its loop. -/
  | sweep
  /-- The destructors of a fiber return to the loop. -/
  | back
deriving DecidableEq

/-- One act, where the fiber can do it. In a destructor it yields, in `b6b_offload`. -/
def step (s : Threads Point) (a : Act) : Option (Threads Point) :=
  match s.cur with
  | none => none
  | some t =>
    match a, t.pc with
    | .spawn, .run (.body []) => some (s.start (.body []))
    | .block b, .run (.body _) => some (s.block b)
    | .yield, .run (.body is) => some (s.yield fun _ => .body is)
    | .finish, .run (.body []) => if t.spawned then some (s.finish.yield fun _ => .past) else none
    | .wait, .wait k => some (s.wait k)
    | .sweep, .loop k i => some (s.sweep Point.into k i)
    | .back, .run (.body (i :: is)) => some (s.place (.loop (.body is) i))
    | _, _ => none

/-- Where a fiber can be that is in the foreground. -/
def Pc.Active : Pc Point → Prop
  | .run (.body _) => True
  | .wait (.body _) => True
  | .loop (.body _) _ => True
  | _ => False

/-- What is right about a fiber when `fg` is the foreground one. -/
def Fits (fg : ℕ) (t : Thread Point) : Prop :=
  if t.id = fg then t.done = false ∧ t.pc.Active
  else if t.done then t.spawned = true ∧ t.pc = .swapped .past
  else t.pc = .new (.body []) ∨ ∃ is, t.pc = .swapped (.body is)

/-- Only a fiber that is done is behind its last `b6b_yield`. -/
theorem Fits.done_iff {fg : ℕ} {t : Thread Point} (h : Fits fg t) : t.done = true ↔ t.pc.point = .past := by
  unfold Fits at h
  split at h
  · rw [h.1]
    obtain ⟨-, hactive⟩ := h
    rcases hpc : t.pc with k | k | k | k | ⟨k, i⟩ <;> rw [hpc] at hactive <;>
      cases k <;> simp [Pc.Active] at hactive <;> simp [Pc.point]
  · split at h
    · rename_i hd
      simp [hd, h.2, Pc.point]
    · rename_i hd
      rcases h with hpc | ⟨is, hpc⟩ <;> simp [hd, hpc, Pc.point]

/-- The invariant: the list and the pointer agree, every fiber is where its flags say, and the
main one is there. -/
structure Sound (s : Threads Point) : Prop where
  listed : Listed s
  fits : ∀ t ∈ s.list, Fits s.fg t
  main : ∃ t ∈ s.list, t.spawned = false

theorem Sound.main_alive {s : Threads Point} (h : Sound s) : ∃ t ∈ s.list, t.spawned = false ∧ t.done = false := by
  obtain ⟨t, ht, hs⟩ := h.main
  refine ⟨t, ht, hs, ?_⟩
  have hf := h.fits t ht
  unfold Fits at hf
  by_contra hd
  have hdone : t.done = true := by simpa using hd
  by_cases hid : t.id = s.fg
  · rw [if_pos hid, hdone] at hf
    cases hf.1
  · rw [if_neg hid, if_pos hdone, hs] at hf
    cases hf.1

/-- The foreground fiber is not done. -/
theorem Sound.alive {s : Threads Point} (h : Sound s) {t : Thread Point} (ht : t ∈ s.list)
    (hid : t.id = s.fg) : t.done = false := by
  have hf := h.fits t ht
  unfold Fits at hf
  rw [if_pos hid] at hf
  exact hf.1

/-- A change of the foreground fiber that leaves it in the foreground. -/
theorem Sound.set {s : Threads Point} (h : Sound s) {g : Thread Point → Thread Point}
    (hg : ∀ u, (g u).id = u.id ∧ (g u).fg = u.fg ∧ (g u).bg = u.bg ∧ (g u).spawned = u.spawned)
    (hfit : ∀ u ∈ s.list, u.id = s.fg → Fits s.fg (g u)) : Sound (s.set s.fg g) where
  listed := h.listed.set fun u => ⟨(hg u).1, (hg u).2.1, (hg u).2.2.1⟩
  fits t ht := by
    obtain ⟨u, hu, rfl⟩ := mem_set.mp ht
    by_cases hid : u.id = s.fg
    · rw [if_pos hid]
      exact hfit u hu hid
    · rw [if_neg hid]
      exact h.fits u hu
  main := by
    obtain ⟨t, ht, hs⟩ := h.main
    refine ⟨_, mem_set.mpr ⟨t, ht, rfl⟩, ?_⟩
    split
    · rw [(hg t).2.2.2, hs]
    · exact hs

theorem fits_foreground {s : Threads Point} {t : Thread Point} (hid : t.id = s.fg) (hd : t.done = false)
    (hpc : t.pc.Active) : Fits s.fg t := by
  unfold Fits
  rw [if_pos hid]
  exact ⟨hd, hpc⟩

/-- The foreground fiber goes on somewhere else. -/
theorem Sound.place {s : Threads Point} (h : Sound s) {pc : Pc Point} (hpc : pc.Active) :
    Sound (s.place pc) :=
  h.set (fun _ => ⟨rfl, rfl, rfl, rfl⟩) fun u hu hid =>
    have hd : u.done = false := h.alive hu hid
    fits_foreground hid hd hpc

/-- What is popped is not in the foreground, and done if it is in the list. -/
theorem Sound.pop {s : Threads Point} (h : Sound s) {i : ℕ} (hdone : ∀ t ∈ s.list, t.id = i → t.done = true)
    (next : Option ℕ) : Sound (s.pop i next) where
  listed := by
    obtain ⟨t, ht, hid⟩ := h.listed.here
    refine h.listed.pop (fun hi => ?_) next
    have hd := hdone t ht (hid.trans hi.symm)
    rw [h.alive ht hid] at hd
    cases hd
  fits t ht := h.fits t (List.mem_of_mem_filter ht)
  main := by
    obtain ⟨m, hm, hs, hd⟩ := h.main_alive
    refine ⟨m, List.mem_filter.mpr ⟨hm, decide_eq_true fun hi => ?_⟩, hs⟩
    rw [hdone m hm hi] at hd
    cases hd

/-- A switch to a fiber that is not done, from one whose flag `done` fits the point at which it
goes on. -/
theorem Sound.swap {s : Threads Point} (h : Listed s) {t : Thread Point} {k : Point} (ht : t ∈ s.list)
    (hne : t.id ≠ s.fg) (hd : t.done = false) (hmain : ∃ t ∈ s.list, t.spawned = false)
    (hrest : ∀ u ∈ s.list, u.id ≠ s.fg → Fits s.fg u)
    (hcur : ∀ u ∈ s.list, u.id = s.fg →
      (u.done = false ∧ k = .body k.loops) ∨ (u.done = true ∧ u.spawned = true ∧ k = .past)) :
    Sound (s.swap t k) where
  listed := h.swap ht hne k
  fits u hu := by
    rw [swap_list k hne] at hu
    obtain ⟨v, hv, rfl⟩ := List.mem_map.mp hu
    have hfg : (s.swap t k).fg = t.id := rfl
    rw [hfg]
    unfold Fits
    rw [switched_id]
    unfold switched
    by_cases hvt : v.id = t.id
    · rw [if_pos hvt, if_pos hvt]
      obtain rfl : v = t := h.unique hv ht hvt
      have hf := hrest v hv hne
      unfold Fits at hf
      rw [if_neg hne, if_neg (by simp [hd])] at hf
      refine ⟨by simpa [Thread.swapIn] using hd, ?_⟩
      unfold Thread.resume Thread.swapIn
      rcases hf with hpc | ⟨is, hpc⟩ <;> simp [hpc, Pc.Active]
    · rw [if_neg hvt, if_neg hvt]
      by_cases hvf : v.id = s.fg
      · rw [if_pos hvf]
        rcases hcur v hv hvf with ⟨hdv, hk⟩ | ⟨hdv, hsv, rfl⟩
        · rw [if_neg (by simp [Thread.swapOut, hdv])]
          exact .inr ⟨k.loops, congrArg Pc.swapped hk⟩
        · simp [Thread.swapOut, hdv, hsv]
      · rw [if_neg hvf]
        have hf := hrest v hv hvf
        unfold Fits at hf
        rwa [if_neg hvf] at hf
  main := by
    obtain ⟨u, hu, hs⟩ := hmain
    refine ⟨switched s.fg t.id k u, ?_, ?_⟩
    · rw [swap_list k hne]
      exact List.mem_map_of_mem hu
    · unfold switched
      split
      · rw [Thread.resume_spawned]
        exact hs
      · split <;> exact hs

/-- The end of a spawned fiber finds another one to switch to: the main one is never done. -/
theorem Sound.finish_target {s : Threads Point} (h : Sound s) {c : Thread Point} (hc : c ∈ s.list)
    (hid : c.id = s.fg) (hs : c.spawned = true) :
    ∃ t ∈ s.list, t.id ≠ s.fg ∧ t.done = false ∧ s.finish.yield (fun _ => Point.past) = s.finish.swap t .past ∧
      t ∈ s.finish.list := by
  have hlisted : Listed s.finish := h.listed.set fun _ => ⟨rfl, rfl, rfl⟩
  have hold : ∀ t ∈ s.finish.list, t.id ≠ s.fg → t ∈ s.list := by
    intro t ht hne
    obtain ⟨u, hu, rfl⟩ := mem_set.mp ht
    by_cases hu' : u.id = s.fg
    · rw [if_pos hu'] at hne
      exact absurd hu' hne
    · rwa [if_neg hu']
  have hnew : ∀ t ∈ s.list, t.id ≠ s.fg → t ∈ s.finish.list := fun t ht hne =>
    mem_set.mpr ⟨t, ht, (if_neg hne).symm⟩
  rcases target_spec hlisted with ⟨t, ht, hne, hd, htarget⟩ | ⟨hall, -⟩
  · refine ⟨t, hold t ht hne, hne, hd, ?_, ht⟩
    unfold Threads.yield
    rw [htarget]
  · obtain ⟨m, hm, hms, hmd⟩ := h.main_alive
    have hne : m.id ≠ s.fg := by
      intro he
      rw [h.listed.unique hm hc (he.trans hid.symm), hs] at hms
      cases hms
    rw [hall m (hnew m hm hne) hne] at hmd
    cases hmd

theorem Sound.yield {s : Threads Point} (h : Sound s) (is : List (Option ℕ)) :
    Sound (s.yield fun _ => .body is) ∧
      ((s.yield fun _ => Point.body is).fg ≠ s.fg →
        ∃ t ∈ s.list, t.id = (s.yield fun _ => Point.body is).fg ∧ t.done = false) ∧
      ∀ t ∈ s.list, ∃ u ∈ (s.yield fun _ => Point.body is).list, u.id = t.id := by
  unfold Threads.yield
  rcases target_spec h.listed with ⟨t, ht, hne, hd, htarget⟩ | ⟨-, htarget⟩
  · rw [htarget]
    refine ⟨Sound.swap h.listed ht hne hd h.main (fun u hu _ => h.fits u hu) fun u hu hid =>
      .inl ⟨h.alive hu hid, rfl⟩, fun _ => ⟨t, ht, rfl, hd⟩, fun u hu => ?_⟩
    exact exists_swap _ hne hu
  · rw [htarget]
    exact ⟨h.place trivial, fun hne => absurd rfl hne, fun u hu => exists_set hu s.fg fun _ => rfl⟩

/-! ### The loop of `b6b_wait` -/

section Loop

variable {s : Threads Point} {i j : ℕ}

/-- What is behind a fiber is another one of the list. -/
theorem behind_mem (hd : s.ids.Nodup) (h : s.behind i = some j) : j ∈ s.ids ∧ j ≠ i := by
  unfold Threads.behind at h
  have hsuffix : s.list.dropWhile (·.id ≠ i) <:+ s.list := List.dropWhile_suffix _
  rcases hl : s.list.dropWhile (·.id ≠ i) with _ | ⟨t, ts⟩ <;> rw [hl] at h hsuffix
  · cases h
  · rcases ts with _ | ⟨v, vs⟩
    · cases h
    · obtain rfl := Option.some.inj h
      have hti : t.id = i := by
        have hhead := List.head_dropWhile_not (·.id ≠ i) (l := s.list) (by rw [hl]; simp)
        simp only [hl, List.head_cons] at hhead
        simpa using hhead
      have hnd : ((t :: v :: vs).map (·.id)).Nodup := hd.sublist (hsuffix.sublist.map _)
      refine ⟨List.mem_map_of_mem (hsuffix.subset (List.mem_cons_of_mem _ List.mem_cons_self)), ?_⟩
      rw [List.map_cons, List.map_cons, hti] at hnd
      exact fun he => (List.nodup_cons.mp hnd).1 (he ▸ List.mem_cons_self)

/-- The loop at a fiber of the list. -/
theorem read_mem {s : Threads K} (hd : s.ids.Nodup) {t : Thread K} (ht : t ∈ s.list) :
    s.read t.id = (t.done, s.behind t.id) := by
  have hfind : s.list.find? (·.id = t.id) = some t := by
    rcases hf : s.list.find? (·.id = t.id) with _ | u
    · exact absurd (List.find?_eq_none.mp hf t ht) (by simp)
    · have hu : u.id = t.id := by simpa using List.find?_some hf
      exact hf.trans (congrArg some (List.inj_on_of_nodup_map hd (List.mem_of_find?_eq_some hf) ht hu))
  unfold Threads.read
  rw [hfind]

theorem Sound.sweep (h : Sound s) {k : Point} (hk : (Pc.run k).Active) (i : Option ℕ) :
    Sound (s.sweep Point.into k i) := by
  have hinto : ∀ i, (Pc.run (k.into i)).Active := by
    intro i
    cases k with
    | body is => trivial
    | past => exact hk
  have hloop : ∀ i, (Pc.loop k i).Active := by
    intro i
    cases k with
    | body is => trivial
    | past => exact hk
  cases i with
  | none => exact h.place hk
  | some i =>
    rw [Threads.sweep_some]
    split
    · rename_i hdone
      refine (h.pop (fun t ht hi => ?_) _).place (hinto _)
      subst hi
      rwa [read_mem h.listed.distinct ht] at hdone
    · exact h.place (hloop _)

/-- The loop takes only one fiber out of the list, and only if it is done. -/
theorem swept (h : Sound s) {k : Point} {i : Option ℕ} {t : Thread Point} (ht : t ∈ s.list)
    (hgone : ∀ u ∈ (s.sweep Point.into k i).list, u.id ≠ t.id) : t.done = true ∧ t.id ≠ s.fg := by
  have hplace : ∀ {s : Threads Point} (pc : Pc Point), t ∈ s.list → ∃ u ∈ (s.place pc).list, u.id = t.id :=
    fun _ ht => exists_set ht _ fun _ => rfl
  have hdone : t.done = true := by
    by_contra hd
    cases i with
    | none =>
      obtain ⟨u, hu, hid⟩ := hplace (.run k) ht
      exact hgone u hu hid
    | some i =>
      rw [Threads.sweep_some] at hgone
      split at hgone
      · rename_i hread
        have hti : t.id ≠ i := by
          rintro rfl
          rw [read_mem h.listed.distinct ht] at hread
          exact hd hread
        obtain ⟨u, hu, hid⟩ := hplace (s := s.pop i (s.read i).2) (.run (k.into (s.read i).2))
          (List.mem_filter.mpr ⟨ht, decide_eq_true hti⟩)
        exact hgone u hu hid
      · obtain ⟨u, hu, hid⟩ := hplace (.loop k (s.read i).2) ht
        exact hgone u hu hid
  refine ⟨hdone, fun hid => ?_⟩
  rw [h.alive ht hid] at hdone
  cases hdone

end Loop

/-- What one act keeps, and what it may do. -/
structure Moved (s : Threads Point) (a : Act) (s' : Threads Point) : Prop where
  sound : Sound s'
  switch : s'.fg ≠ s.fg → ∃ t ∈ s.list, t.id = s'.fg ∧ t.done = false
  removed : ∀ t ∈ s.list, (∀ u ∈ s'.list, u.id ≠ t.id) → a = .sweep ∧ t.done = true ∧ t.id ≠ s.fg
  finish : a = .finish → s'.fg ≠ s.fg

section Moved

variable {s : Threads Point} {c : Thread Point}

/-- Where the list keeps its fibers, none is removed. -/
theorem none_removed {s' : Threads Point} {a : Act} (hkeep : ∀ t ∈ s.list, ∃ u ∈ s'.list, u.id = t.id) :
    ∀ t ∈ s.list, (∀ u ∈ s'.list, u.id ≠ t.id) → a = .sweep ∧ t.done = true ∧ t.id ≠ s.fg := by
  intro t ht hgone
  obtain ⟨u, hu, he⟩ := hkeep t ht
  exact absurd he (hgone u hu)

theorem moved_spawn (h : Sound s) (hc : c ∈ s.list) (hid : c.id = s.fg) :
    Moved s .spawn (s.start (.body [])) := by
  have hnew : s.next ≠ s.fg := hid ▸ Nat.ne_of_gt (h.listed.fresh c hc)
  refine ⟨⟨h.listed.start _, fun t ht => ?_, ?_⟩, fun hne => absurd rfl hne,
    none_removed fun t ht => ?_, nofun⟩
  · rcases (h.listed.mem_start _).mp ht with rfl | ht
    · unfold Fits
      rw [if_neg (show (Thread.new s.next (Point.body [])).id ≠ (s.start (.body [])).fg from hnew)]
      exact .inl rfl
    · exact h.fits t ht
  · obtain ⟨m, hm, hs⟩ := h.main
    exact ⟨m, (h.listed.mem_start _).mpr (.inr hm), hs⟩
  · exact ⟨t, (h.listed.mem_start _).mpr (.inr ht), rfl⟩

/-- The foreground fiber stays there. -/
theorem moved_set {a : Act} (ha : a ≠ .finish) (g : Thread Point → Thread Point) (hg : ∀ u, (g u).id = u.id)
    (h : Sound (s.set s.fg g)) : Moved s a (s.set s.fg g) :=
  ⟨h, fun hne => absurd rfl hne, none_removed fun _ ht => exists_set ht s.fg hg, fun he => absurd he ha⟩

theorem moved_place {a : Act} (ha : a ≠ .finish) (h : Sound s) {pc : Pc Point} (hpc : pc.Active) :
    Moved s a (s.place pc) :=
  moved_set ha _ (fun _ => rfl) (h.place hpc)

theorem moved_block (h : Sound s) (hc : c ∈ s.list) (hid : c.id = s.fg) (hpc : c.pc.Active) (b : Bool) :
    Moved s (.block b) (s.block b) := by
  refine moved_set (by simp) _ (fun _ => rfl) (h.set (fun _ => ⟨rfl, rfl, rfl, rfl⟩) fun u hu huid => ?_)
  obtain rfl := h.listed.unique hu hc (huid.trans hid.symm)
  have hd : u.done = false := h.alive hc hid
  exact fits_foreground huid hd hpc

theorem moved_finish (h : Sound s) (hc : c ∈ s.list) (hid : c.id = s.fg) (hspawned : c.spawned = true) :
    Moved s .finish (s.finish.yield fun _ => .past) := by
  obtain ⟨t, ht, hne, hd, heq, htf⟩ := h.finish_target hc hid hspawned
  rw [heq]
  have hlisted : Listed s.finish := h.listed.set fun _ => ⟨rfl, rfl, rfl⟩
  refine ⟨Sound.swap hlisted htf hne hd ?_ (fun u hu hune => ?_) fun u hu huid => .inr ?_,
    fun _ => ⟨t, ht, rfl, hd⟩, none_removed fun u hu => ?_, fun _ => hne⟩
  · obtain ⟨m, hm, hs⟩ := h.main
    exact ⟨_, mem_set.mpr ⟨m, hm, rfl⟩, by split <;> exact hs⟩
  · obtain ⟨v, hv, rfl⟩ := mem_set.mp hu
    by_cases hvf : v.id = s.fg
    · rw [if_pos hvf] at hune
      exact absurd hvf hune
    · rw [if_neg hvf]
      exact h.fits v hv
  · obtain ⟨v, hv, rfl⟩ := mem_set.mp hu
    have hvf : v.id = s.fg := by
      by_contra hvf
      rw [if_neg hvf] at huid
      exact hvf huid
    obtain rfl := h.listed.unique hv hc (hvf.trans hid.symm)
    rw [if_pos hvf]
    exact ⟨rfl, hspawned, rfl⟩
  · obtain ⟨v, hv, hvu⟩ := exists_set hu s.fg (g := fun t => { t with done := true }) fun _ => rfl
    obtain ⟨w, hw, hwv⟩ := exists_swap (s := s.finish) .past hne hv
    exact ⟨w, hw, hwv.trans hvu⟩

end Moved

/-- What the foreground fiber `t` does. -/
inductive Does (s : Threads Point) (t : Thread Point) : Act → Threads Point → Prop
  | spawn (hpc : t.pc = .run (.body [])) : Does s t .spawn (s.start (.body []))
  | block (is : List (Option ℕ)) (b : Bool) (hpc : t.pc = .run (.body is)) : Does s t (.block b) (s.block b)
  | yield (is : List (Option ℕ)) (hpc : t.pc = .run (.body is)) : Does s t .yield (s.yield fun _ => .body is)
  | finish (hpc : t.pc = .run (.body [])) (hs : t.spawned = true) :
    Does s t .finish (s.finish.yield fun _ => .past)
  | wait (k : Point) (hpc : t.pc = .wait k) : Does s t .wait (s.wait k)
  | sweep (k : Point) (i : Option ℕ) (hpc : t.pc = .loop k i) : Does s t .sweep (s.sweep Point.into k i)
  | back (i : Option ℕ) (is : List (Option ℕ)) (hpc : t.pc = .run (.body (i :: is))) :
    Does s t .back (s.place (.loop (.body is) i))

/-- **What a step is.** -/
theorem step_does {s s' : Threads Point} {a : Act} (hstep : step s a = some s') :
    ∃ t ∈ s.list, t.id = s.fg ∧ s.cur = some t ∧ Does s t a s' := by
  unfold step at hstep
  rcases hcur : s.cur with _ | t <;> rw [hcur] at hstep
  · cases hstep
  · have ht : t ∈ s.list := List.mem_of_find?_eq_some hcur
    have hid : t.id = s.fg := by simpa using List.find?_some hcur
    refine ⟨t, ht, hid, rfl, ?_⟩
    dsimp only at hstep
    split at hstep
    · obtain rfl := Option.some.inj hstep
      exact .spawn ‹_›
    · obtain rfl := Option.some.inj hstep
      exact .block _ _ ‹_›
    · obtain rfl := Option.some.inj hstep
      exact .yield _ ‹_›
    · rename_i hpc
      obtain ⟨hs, hstep⟩ := Option.ite_none_right_eq_some.mp hstep
      obtain rfl := Option.some.inj hstep
      exact .finish hpc hs
    · obtain rfl := Option.some.inj hstep
      exact .wait _ ‹_›
    · obtain rfl := Option.some.inj hstep
      exact .sweep _ _ ‹_›
    · obtain rfl := Option.some.inj hstep
      exact .back _ _ ‹_›
    · cases hstep

theorem does_step {s s' : Threads Point} {t : Thread Point} {a : Act} (hcur : s.cur = some t)
    (hdoes : Does s t a s') : step s a = some s' := by
  unfold step
  rw [hcur]
  cases hdoes with
  | spawn hpc => simp only [hpc]
  | block is b hpc => simp only [hpc]
  | yield is hpc => simp only [hpc]
  | finish hpc hs => simp only [hpc, hs, if_true]
  | wait k hpc => simp only [hpc]
  | sweep k i hpc => simp only [hpc]
  | back i is hpc => simp only [hpc]

/-- By the act. -/
theorem step_moved {s s' : Threads Point} {a : Act} (h : Sound s) (hstep : step s a = some s') :
    Moved s a s' := by
  obtain ⟨c, hc, hid, -, hdoes⟩ := step_does hstep
  have hactive : c.pc.Active := by
    have hf := h.fits c hc
    unfold Fits at hf
    rw [if_pos hid] at hf
    exact hf.2
  cases hdoes with
  | spawn => exact moved_spawn h hc hid
  | block is b => exact moved_block h hc hid hactive b
  | yield is => exact ⟨(h.yield is).1, (h.yield is).2.1, none_removed (h.yield is).2.2, nofun⟩
  | finish hpc hs => exact moved_finish h hc hid hs
  | wait k hpc =>
    rw [hpc] at hactive
    refine moved_place (by simp) h ?_
    cases k with
    | body is => trivial
    | past => exact hactive
  | sweep k i hpc =>
    rw [hpc] at hactive
    have hk : (Pc.run k).Active := by
      cases k with
      | body is => trivial
      | past => exact hactive
    have hfg : (s.sweep Point.into k i).fg = s.fg := by
      cases i with
      | none => rfl
      | some i =>
        rw [Threads.sweep_some]
        split <;> rfl
    exact ⟨h.sweep hk i, fun hne => absurd hfg hne, fun t ht hgone => ⟨rfl, swept h ht hgone⟩, nofun⟩
  | back i is => exact moved_place (by simp) h trivial

theorem sound_init : Sound (Threads.init (Point.body [])) where
  listed :=
    { distinct := List.nodup_singleton _
      fresh := fun t ht => by
        rw [List.mem_singleton.mp ht]
        exact Nat.zero_lt_one
      here := ⟨_, List.mem_singleton.mpr rfl, rfl⟩
      flags := fun t ht => by
        rw [List.mem_singleton.mp ht]
        exact ⟨rfl, rfl⟩ }
  fits t ht := by
    rw [List.mem_singleton.mp ht]
    exact fits_foreground (s := Threads.init (Point.body [])) rfl rfl trivial
  main := ⟨_, List.mem_singleton.mpr rfl, rfl⟩

/-! ### Loops that go on at fibers of the list -/

/-- The addresses at which the loops of the fiber are, or go on. -/
def Pc.loops : Pc Point → List (Option ℕ)
  | .loop k i => i :: k.loops
  | pc => pc.point.loops

/-- Every loop of `b6b_wait` is at a fiber of the list, and goes on at one. -/
def Linked (s : Threads Point) : Prop := ∀ t ∈ s.list, ∀ i, some i ∈ t.pc.loops → i ∈ s.ids

/-- If a loop pops a fiber, it is not the one at which a loop goes on that waits for a destructor. -/
def Apart (s : Threads Point) (a : Act) : Prop :=
  ∀ c ∈ s.cur, ∀ k i, a = .sweep → c.pc = .loop k (some i) → (s.read i).1 = true →
    ∀ t ∈ s.list, some i ∉ t.pc.point.loops

instance (s : Threads Point) (a : Act) : Decidable (Apart s a) :=
  match hcur : s.cur, a with
  | some c, .sweep =>
    match hpc : c.pc with
    | .loop k (some i) =>
      decidable_of_iff ((s.read i).1 = true → ∀ t ∈ s.list, some i ∉ t.pc.point.loops) <| by
        refine ⟨fun h c' hc' k' i' _ hpc' => ?_, fun h => h c hcur k i rfl hpc⟩
        obtain rfl := Option.some.inj (hcur.symm.trans hc')
        obtain ⟨rfl, hi⟩ := Pc.loop.inj (hpc.symm.trans hpc')
        obtain rfl := Option.some.inj hi
        exact h
    | .loop _ none | .new _ | .run _ | .swapped _ | .wait _ => .isTrue fun c' hc' k' i' _ hpc' => by
      obtain rfl := Option.some.inj (hcur.symm.trans hc')
      exact nomatch hpc.symm.trans hpc'
  | none, _ => .isTrue fun c' hc' => nomatch hcur.symm.trans hc'
  | _, .spawn | _, .block _ | _, .yield | _, .finish | _, .wait | _, .back =>
    .isTrue fun _ _ _ _ ha => nomatch ha

section Linked

variable {s s' : Threads Point} {c : Thread Point}

/-- A fiber that is not in the foreground is in no loop but those that wait for its destructors. -/
theorem loops_away (h : Sound s) {t : Thread Point} (ht : t ∈ s.list) (hid : t.id ≠ s.fg) :
    t.pc.loops = t.pc.point.loops := by
  have hf := h.fits t ht
  unfold Fits at hf
  rw [if_neg hid] at hf
  split at hf
  · rw [hf.2]
    rfl
  · rcases hf with hpc | ⟨is, hpc⟩ <;> rw [hpc] <;> rfl

theorem point_loops {pc : Pc Point} {i : Option ℕ} (hi : i ∈ pc.point.loops) : i ∈ pc.loops := by
  cases pc with
  | loop k j => exact List.mem_cons_of_mem _ hi
  | new k => exact hi
  | run k => exact hi
  | swapped k => exact hi
  | wait k => exact hi

/-- Fibers that are in loops they were in before. -/
theorem Linked.of (hl : Linked s) (hids : ∀ j ∈ s.ids, j ∈ s'.ids)
    (hloops : ∀ t ∈ s'.list, ∀ j, some j ∈ t.pc.loops → j ∈ s.ids ∨ ∃ u ∈ s.list, some j ∈ u.pc.loops) :
    Linked s' := by
  intro t ht j hj
  rcases hloops t ht j hj with hmem | ⟨u, hu, huj⟩
  · exact hids j hmem
  · exact hids j (hl u hu j huj)

theorem ids_set {s : Threads K} {i : ℕ} {g : Thread K → Thread K} (hg : ∀ u, (g u).id = u.id) :
    (s.set i g).ids = s.ids := by
  unfold Threads.ids Threads.set
  rw [List.map_map]
  refine List.map_congr_left fun u _ => ?_
  simp only [Function.comp_apply]
  split
  · exact hg u
  · rfl

theorem ids_swap {s : Threads K} (t : Thread K) (k : K) : (s.swap t k).ids = s.ids := by
  have hout : (s.set s.fg fun bg => { bg.swapOut with pc := .swapped k }).ids = s.ids := ids_set fun _ => rfl
  have hin : ∀ u : Thread K, u.swapIn.resume.id = u.id := fun u => Thread.resume_id _
  exact (ids_set hin).trans hout

/-- The foreground fiber goes on, in loops that are at fibers of the list. -/
theorem linked_set (haway : ∀ u ∈ s.list, u.id ≠ s.fg → ∀ j, some j ∈ u.pc.loops → j ∈ s.ids)
    {g : Thread Point → Thread Point} (hg : ∀ u, (g u).id = u.id)
    (hloops : ∀ u ∈ s.list, u.id = s.fg → ∀ j, some j ∈ (g u).pc.loops → j ∈ s.ids) :
    Linked (s.set s.fg g) := by
  intro t ht j hj
  rw [ids_set hg]
  obtain ⟨u, hu, rfl⟩ := mem_set.mp ht
  by_cases hid : u.id = s.fg
  · rw [if_pos hid] at hj
    exact hloops u hu hid j hj
  · rw [if_neg hid] at hj
    exact haway u hu hid j hj

theorem Linked.set (hl : Linked s) {g : Thread Point → Thread Point} (hg : ∀ u, (g u).id = u.id)
    (hloops : ∀ u ∈ s.list, u.id = s.fg → ∀ j, some j ∈ (g u).pc.loops → j ∈ s.ids) :
    Linked (s.set s.fg g) :=
  linked_set (fun u hu _ => hl u hu) hg hloops

theorem resume_loops (t : Thread Point) : t.resume.pc.loops = t.pc.loops := by
  unfold Thread.resume
  split
  · rename_i hpc
    rw [hpc]
    rfl
  · rename_i hpc
    rw [hpc]
    rfl
  · rfl

/-- A switch changes no loop but those of the fiber that goes out. -/
theorem Linked.swap (hl : Linked s) {t : Thread Point} (hne : t.id ≠ s.fg) {k : Point}
    (hk : ∀ j, some j ∈ k.loops → j ∈ s.ids) : Linked (s.swap t k) := by
  intro u hu j hj
  rw [ids_swap]
  rw [swap_list k hne] at hu
  obtain ⟨v, hv, rfl⟩ := List.mem_map.mp hu
  unfold switched at hj
  split at hj
  · rw [resume_loops] at hj
    exact hl v hv j hj
  · split at hj
    · exact hk j hj
    · exact hl v hv j hj

theorem Linked.yield (hl : Linked s) (hlisted : Listed s) {k : Bool → Point}
    (hk : ∀ y j, some j ∈ (k y).loops → j ∈ s.ids) : Linked (s.yield k) := by
  unfold Threads.yield
  rcases target_spec hlisted with ⟨t, -, hne, -, htarget⟩ | ⟨-, htarget⟩ <;> rw [htarget]
  · exact hl.swap hne (hk true)
  · exact hl.set (fun _ => rfl) fun _ _ _ => hk false

/-- The fiber at which the loop is. -/
theorem Linked.at_loop (hl : Linked s) (hc : c ∈ s.list) {k : Point} {i : ℕ} (hpc : c.pc = .loop k (some i)) :
    ∃ t ∈ s.list, t.id = i := by
  have hi : i ∈ s.ids := hl c hc i (hpc ▸ List.mem_cons_self)
  exact List.mem_map.mp hi

/-- What a turn of the loop leaves: its next fiber, and those of the loops that wait, are in the list. -/
theorem Linked.sweep (hl : Linked s) (h : Sound s) (hc : c ∈ s.list) (hcur : s.cur = some c) {k : Point} {i : Option ℕ}
    (hpc : c.pc = .loop k i) (hapart : Apart s .sweep) : Linked (s.sweep Point.into k i) := by
  have hk : ∀ j, some j ∈ k.loops → j ∈ s.ids := fun j hj =>
    hl c hc j (hpc ▸ List.mem_cons_of_mem _ hj)
  cases i with
  | none => exact hl.set (fun _ => rfl) fun _ _ _ => hk
  | some i =>
    obtain ⟨t, ht, rfl⟩ := hl.at_loop hc hpc
    have hread := read_mem h.listed.distinct ht
    rw [Threads.sweep_some, hread]
    dsimp only
    have hnext : ∀ j, s.behind t.id = some j → j ∈ s.ids ∧ j ≠ t.id := fun j => behind_mem h.listed.distinct
    split
    · rename_i hdone
      have haway := hapart c hcur k t.id rfl hpc (by rw [hread]; exact hdone)
      have hids : ∀ j ∈ s.ids, j ≠ t.id → j ∈ (s.pop t.id (s.behind t.id)).ids := by
        intro j hj hne
        obtain ⟨u, hu, rfl⟩ := List.mem_map.mp hj
        exact List.mem_map_of_mem (List.mem_filter.mpr ⟨hu, decide_eq_true hne⟩)
      have hpop : ∀ u ∈ s.list, ∀ j, some j ∈ u.pc.point.loops → j ∈ (s.pop t.id (s.behind t.id)).ids := by
        intro u hu j hj
        refine hids j (hl u hu j (point_loops hj)) fun he => haway u hu ?_
        rwa [he] at hj
      refine linked_set (fun u hu hne j hj => ?_) (fun _ => rfl) fun _ _ _ j hj => ?_
      · have hus : u ∈ s.list := List.mem_of_mem_filter hu
        rw [loops_away h hus hne] at hj
        exact hpop u hus j hj
      · cases k with
        | past => simp [Point.into, Pc.loops, Pc.point, Point.loops] at hj
        | body is =>
          rcases List.mem_cons.mp hj with heq | hmem
          · obtain ⟨hmem, hne⟩ := hnext j heq.symm
            exact hids j hmem hne
          · refine hpop c hc j ?_
            rw [hpc]
            exact hmem
    · refine hl.set (fun _ => rfl) fun _ _ _ j hj => ?_
      rcases List.mem_cons.mp hj with heq | hmem
      · exact (hnext j heq.symm).1
      · exact hk j hmem

end Linked

/-! ### Safety -/

/-- What is safe about a state of the scheduler. -/
structure Safe (s : Threads Point) : Prop where
  /-- No fiber is twice in the list. -/
  distinct : s.ids.Nodup
  /-- One fiber of the list has `B6B_THREAD_FG`, and it is `interp->fg`. -/
  foreground : ∃ t ∈ s.list, t.id = s.fg ∧ t.fg = true ∧ ∀ u ∈ s.list, u.fg = true → u = t
  /-- No fiber is behind the last `b6b_yield` of `b6b_thread_routine`. -/
  past : ∀ t ∈ s.list, t.pc ≠ .run .past
  /-- The main fiber is there, and not done. -/
  main : ∃ t ∈ s.list, t.spawned = false ∧ t.done = false

/-- What is safe about a step. -/
structure Right (s : Threads Point) (a : Act) (s' : Threads Point) : Prop where
  /-- A switch is to a fiber that is not done. -/
  switch : s'.fg ≠ s.fg → ∃ t ∈ s.list, t.id = s'.fg ∧ t.done = false
  /-- Only `b6b_wait` removes fibers, and those that are done and not in the foreground. -/
  removed : ∀ t ∈ s.list, (∀ u ∈ s'.list, u.id ≠ t.id) → a = .sweep ∧ t.done = true ∧ t.id ≠ s.fg
  /-- It destroys only such fibers, and only those that are in the list. -/
  destroyed : s'.gone = s.gone ∨
    ∃ t ∈ s.list, a = .sweep ∧ t.done = true ∧ t.id ≠ s.fg ∧ s'.gone = (t.id, s.behind t.id) :: s.gone
  /-- A fiber that ends finds one to switch to. -/
  finish : a = .finish → s'.fg ≠ s.fg

theorem destroyed {s s' : Threads Point} {a : Act} (h : Sound s) (hl : Linked s) (hstep : step s a = some s') :
    s'.gone = s.gone ∨
      ∃ t ∈ s.list, a = .sweep ∧ t.done = true ∧ t.id ≠ s.fg ∧ s'.gone = (t.id, s.behind t.id) :: s.gone := by
  obtain ⟨c, hc, hid, -, hdoes⟩ := step_does hstep
  have hyield : ∀ (s : Threads Point) (k : Bool → Point), (s.yield k).gone = s.gone := by
    intro s k
    unfold Threads.yield
    split <;> rfl
  cases hdoes with
  | spawn => exact .inl rfl
  | block => exact .inl rfl
  | yield => exact .inl (hyield _ _)
  | finish => exact .inl (hyield _ _)
  | wait => exact .inl rfl
  | back => exact .inl rfl
  | sweep k i hpc =>
    cases i with
    | none => exact .inl rfl
    | some i =>
      obtain ⟨t, ht, rfl⟩ := hl.at_loop hc hpc
      rw [Threads.sweep_some, read_mem h.listed.distinct ht]
      dsimp only
      split
      · rename_i hdone
        refine .inr ⟨t, ht, rfl, hdone, fun hfg => ?_, rfl⟩
        rw [h.alive ht hfg] at hdone
        cases hdone
      · exact .inl rfl

instance (s : Threads Point) (a : Act) (s' : Threads Point) : Decidable (Right s a s') :=
  decidable_of_iff (_ ∧ _ ∧ _ ∧ _)
    ⟨fun h => ⟨h.1, h.2.1, h.2.2.1, h.2.2.2⟩, fun h => ⟨h.switch, h.removed, h.destroyed, h.finish⟩⟩

end Sched

end B6b
