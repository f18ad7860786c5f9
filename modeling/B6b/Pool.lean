/-
# The fibers and the offload threads they own

A call of `b6b_offload` has an offload thread of its own from `b6b_offload_start` to
`b6b_offload_finish` (`At.owns`). A fiber can be in several calls, so what counts is
not the fibers but the points of all their calls (`inCalls`): no two of them are in one call
or have one offload thread, and each offload thread is where the point that has it
expects it (`Holds`), or where it rests (`Free`). This is `Inv`, and every step keeps it.

A call gives up if no offload thread is idle and there is no other fiber. It can do so
if the calls below it, in the same fiber, have all of them. `Room` says that this is not so
where a call looks for one. `Inv` is proved with it and without (`P`).

Key definitions: `inCalls`, `Holds`, `Free`, `Room`, `Inv`, `Advance`.
-/
import Mathlib.Data.List.Pairwise
import Mathlib.Data.List.Perm.Subperm
import B6b.Offload

namespace B6b

namespace Offload

open Sched

/-! ### The calls of the fibers -/

/-- The call that a fiber is in. -/
def At.call : At → Option ℕ
  | .body => none
  | .direct c => some c
  | .pick c _ => some c
  | .giveUp c => some c
  | .start c _ => some c
  | .prepare c _ => some c
  | .wake c _ => some c
  | .poll c _ _ => some c
  | .check c _ _ => some c
  | .unblock c _ _ => some c
  | .finish c _ _ => some c
  | .idle c _ _ => some c
  | .last c _ => some c

/-- The offload thread that works for it. -/
def At.owns : At → Option ℕ
  | .prepare _ i => some i
  | .wake _ i => some i
  | .poll _ i _ => some i
  | .check _ i _ => some i
  | .unblock _ i _ => some i
  | .finish _ i _ => some i
  | .idle _ i _ => some i
  | _ => none

/-- The points of a fiber, the innermost one first. -/
def Spot.sites : Spot → List At
  | .site k w => k :: w.map (·.2)
  | .past => []

/-- Those in `b6b_offload`. -/
def Spot.inCalls (p : Spot) : List At := p.sites.filter (·.call.isSome)

/-- Where the fibers are. -/
def points (T : Threads Spot) : List Spot := T.list.map (·.pc.point)

/-- The points of all fibers in `b6b_offload`. -/
def inCalls (T : Threads Spot) : List At := (points T).flatMap Spot.inCalls

theorem inCalls_into (p : Spot) (i : Option ℕ) : (p.into i).inCalls = p.inCalls := by
  cases p <;> rfl

theorem mem_inCalls {T : Threads Spot} {k : At} :
    k ∈ inCalls T ↔ ∃ t ∈ T.list, k ∈ t.pc.point.sites ∧ k.call.isSome = true := by
  unfold inCalls points Spot.inCalls
  rw [List.flatMap_map]
  simp only [List.mem_flatMap, List.mem_filter]

/-- The foreground fiber goes from `p` to `q`, and the others are where they were. Those that are
done may be gone, and a new one may be there. -/
structure Advance (T T' : Threads Spot) (p q : Spot) : Prop where
  origin : ∀ r ∈ points T', r = q ∨ r = .body ∨ r ∈ points T
  others : ∃ rest, (inCalls T).Perm (p.inCalls ++ rest) ∧ (inCalls T').Perm (q.inCalls ++ rest)

section Advance

variable {T T' : Threads Spot} {t : Thread Spot} {p q : Spot}

theorem Advance.of_perm {rest : List Spot} (h : (points T).Perm (p :: rest)) (h' : (points T').Perm (q :: rest)) :
    Advance T T' p q where
  origin r hr := by
    rcases List.mem_cons.mp (h'.mem_iff.mp hr) with rfl | hmem
    · exact .inl rfl
    · exact .inr (.inr (h.mem_iff.mpr (List.mem_cons_of_mem _ hmem)))
  others := by
    refine ⟨rest.flatMap Spot.inCalls, ?_, ?_⟩
    · exact h.flatMap_right Spot.inCalls
    · exact h'.flatMap_right Spot.inCalls

theorem Advance.congr {T'' : Threads Spot} (h : Advance T T' p q) (hp : points T'' = points T') : Advance T T'' p q where
  origin := hp ▸ h.origin
  others := by
    have hothers := h.others
    unfold inCalls at hothers ⊢
    rwa [hp]

/-- The others, when the foreground fiber is at another place. -/
theorem points_place (hd : T.ids.Nodup) (hcur : T.cur = some t) : ∃ rest, (points T).Perm (t.pc.point :: rest) ∧
    ∀ pc, (points (T.place pc)).Perm (pc.point :: rest) := by
  have ht : t ∈ T.list := List.mem_of_find?_eq_some hcur
  have htid : t.id = T.fg := by simpa using List.find?_some hcur
  obtain ⟨us, vs, hl⟩ := List.append_of_mem ht
  unfold Threads.ids at hd
  rw [hl, List.map_append, List.map_cons] at hd
  have hout : t.id ∉ us.map (·.id) ++ vs.map (·.id) := (List.nodup_cons.mp (List.nodup_middle.mp hd)).1
  rw [List.mem_append, not_or] at hout
  refine ⟨us.map (·.pc.point) ++ vs.map (·.pc.point), ?_, fun pc => ?_⟩
  · unfold points
    rw [hl, List.map_append, List.map_cons]
    exact List.perm_middle
  · have hsame : ∀ ws : List (Thread Spot), t.id ∉ ws.map (·.id) →
        (ws.map fun u => if u.id = T.fg then { u with pc := pc } else u) = ws := by
      intro ws hws
      refine (List.map_congr_left fun u hu => if_neg fun he => hws ?_).trans (List.map_id' ws)
      exact List.mem_map.mpr ⟨u, hu, he.trans htid.symm⟩
    unfold points Threads.place Threads.set
    dsimp only
    rw [hl, List.map_append, List.map_cons, hsame us hout.1, hsame vs hout.2, if_pos htid, List.map_append,
      List.map_cons]
    exact List.perm_middle

theorem Advance.place (hd : T.ids.Nodup) (hcur : T.cur = some t) (pc : Pc Spot) :
    Advance T (T.place pc) t.pc.point pc.point := by
  obtain ⟨rest, h, h'⟩ := points_place hd hcur
  exact .of_perm h (h' pc)

theorem points_swap (hne : t.id ≠ T.fg) (p : Spot) : points (T.swap t p) = points (T.goto p) := by
  have hresume : ∀ u : Thread Spot, u.resume.pc.point = u.pc.point := by
    rintro ⟨_, _, _, _, _, _, pc⟩
    cases pc <;> rfl
  unfold points Threads.goto Threads.place Threads.set
  rw [swap_list p hne]
  dsimp only
  rw [List.map_map, List.map_map]
  refine List.map_congr_left fun u _ => ?_
  simp only [Function.comp_apply, switched]
  by_cases hu : u.id = T.fg
  · rw [if_neg (hu ▸ Ne.symm hne), if_pos hu, if_pos hu]
    rfl
  · rw [if_neg hu, if_neg hu]
    split
    · exact hresume _
    · rfl

/-- A `b6b_yield` that finds a fiber, or finds that there is none. -/
theorem points_yield (h : Fibers T) (f : Bool → Spot) :
    points (T.yield f) = points (T.goto (f true)) ∨
      points (T.yield f) = points (T.goto (f false)) ∧ ∀ u ∈ T.list, u.id ≠ T.fg → u.pc.point = .past := by
  unfold Threads.yield
  rcases target_spec h.listed with ⟨t, ht, hne, hd, htarget⟩ | ⟨hall, htarget⟩
  · rw [htarget]
    exact .inl (points_swap hne _)
  · rw [htarget]
    refine .inr ⟨?_, fun u hu hne => (h.done_iff hu).mp (hall u hu hne)⟩
    unfold points Threads.goto Threads.place Threads.set
    dsimp only
    rw [List.map_map, List.map_map]
    refine List.map_congr_left fun u _ => ?_
    simp only [Function.comp_apply]
    split <;> rfl

theorem points_set {g : Thread Spot → Thread Spot} (hid : ∀ u, (g u).id = u.id)
    (pc : Pc Spot) : points ((T.set T.fg g).place pc) = points (T.place pc) := by
  unfold points Threads.place Threads.set
  dsimp only
  simp only [List.map_map]
  refine List.map_congr_left fun u _ => ?_
  simp only [Function.comp_apply]
  by_cases hu : u.id = T.fg
  · rw [if_pos hu, if_pos hu, if_pos ((hid u).trans hu)]
  · rw [if_neg hu, if_neg hu]

/-- The end of a fiber: it finds another. -/
theorem points_finish (h : Fibers T) (hcur : T.cur = some t) (hs : t.spawned = true) :
    points (T.finish.yield fun _ => .past) = points (T.goto .past) := by
  have ht : t ∈ T.list := List.mem_of_find?_eq_some hcur
  have htid : t.id = T.fg := by simpa using List.find?_some hcur
  have hlisted : Listed T.finish := h.listed.set fun _ => ⟨rfl, rfl, rfl⟩
  unfold Threads.yield
  rcases target_spec hlisted with ⟨u, hu, hne, -, htarget⟩ | ⟨hall, -⟩
  · rw [htarget]
    exact (points_swap hne _).trans (points_set (T := T) (g := fun t => { t with done := true }) (fun _ => rfl) _)
  · obtain ⟨m, hm, hms, hmd⟩ := Sched.Sound.main_alive h
    obtain ⟨u, hu, rfl⟩ := List.mem_map.mp hm
    have hne : u.id ≠ T.fg := by
      intro he
      obtain rfl := h.listed.unique hu ht (he.trans htid.symm)
      exact Bool.false_ne_true (hms.symm.trans hs)
    have hd : u.done = true := hall u (mem_set.mpr ⟨u, hu, (if_neg hne).symm⟩) hne
    exact absurd (hmd.symm.trans hd) Bool.false_ne_true

theorem Advance.start (h : Fibers T) (hcur : T.cur = some t) :
    Advance T (T.start .body) t.pc.point t.pc.point := by
  have hperm : (points (T.start .body)).Perm (.body :: points T) :=
    (perm_insertAfter (t := Thread.new T.next Spot.body) h.listed.here).map fun t : Thread Spot => t.pc.point
  obtain ⟨rest, hrest, -⟩ := points_place h.listed.distinct hcur
  refine ⟨fun r hr => .inr (List.mem_cons.mp (hperm.mem_iff.mp hr)), rest.flatMap Spot.inCalls,
    hrest.flatMap_right Spot.inCalls, ?_⟩
  exact (hperm.flatMap_right Spot.inCalls).trans (hrest.flatMap_right Spot.inCalls)

/-- A fiber that is popped is done, and in no call. -/
theorem inCalls_pop (h : Fibers T) {i : ℕ} (hdone : (T.read i).1 = true) (next : Option ℕ) :
    (inCalls T).Perm (inCalls (T.pop i next)) := by
  by_cases hi : ∃ u ∈ T.list, u.id = i
  · obtain ⟨u, hu, rfl⟩ := hi
    rw [read_mem h.listed.distinct hu] at hdone
    obtain ⟨us, vs, hl⟩ := List.append_of_mem hu
    have hpast : u.pc.point = .past := (h.done_iff hu).mp hdone
    have hpop : (T.pop u.id next).list = us ++ vs := by
      unfold Threads.pop
      dsimp only
      rw [hl]
      exact filter_split (hl ▸ h.listed.distinct)
    unfold inCalls points
    rw [hpop, hl]
    simp only [List.map_append, List.map_cons, List.flatMap_append, List.flatMap_cons, hpast]
    exact List.Perm.refl _
  · have hpop : (T.pop i next).list = T.list :=
      List.filter_eq_self.mpr fun u hu => decide_eq_true fun he => hi ⟨u, hu, he⟩
    unfold inCalls points
    rw [hpop]

/-- A turn of the loop of `b6b_wait`. -/
theorem Advance.sweep (h : Fibers T) (hcur : T.cur = some t) {i : Option ℕ} (hpc : t.pc = .loop p i) :
    ∃ q, Advance T (T.sweep Spot.into p i) p q ∧ (q = p ∨ ∃ j, q = p.into j) := by
  have hpoint : t.pc.point = p := by
    rw [hpc]
    rfl
  cases i with
  | none => exact ⟨p, hpoint ▸ Advance.place h.listed.distinct hcur (.run p), .inl rfl⟩
  | some i =>
    rw [Threads.sweep_some]
    split
    · rename_i hdone
      have hne : i ≠ T.fg := by
        rintro rfl
        obtain ⟨u, hu, hid⟩ := h.listed.here
        rw [← hid, read_mem h.listed.distinct hu] at hdone
        have hd : u.done = false := Sched.Sound.alive h (List.mem_map_of_mem hu) hid
        rw [hd] at hdone
        cases hdone
      have hcur' : (T.pop i (T.read i).2).cur = some t := by
        unfold Threads.cur Threads.pop
        dsimp only
        rw [List.find?_filter]
        refine (congrArg (List.find? · T.list) (funext fun u => ?_)).trans hcur
        by_cases hu : u.id = T.fg
        · simp [hu, hne.symm]
        · simp [hu]
      have hplace := Advance.place (h.listed.pop hne (T.read i).2).distinct hcur' (.run (p.into (T.read i).2))
      rw [hpoint] at hplace
      obtain ⟨rest, hrest, hrest'⟩ := hplace.others
      refine ⟨_, ⟨fun r hr => ?_, rest, (inCalls_pop h hdone _).trans hrest, hrest'⟩, .inr ⟨_, rfl⟩⟩
      refine (hplace.origin r hr).imp_right fun hr => hr.imp_right fun hr => ?_
      exact (List.filter_sublist.map _).subset hr
    · exact ⟨p, hpoint ▸ Advance.place h.listed.distinct hcur (.loop p _), .inl rfl⟩

end Advance

/-- How often a call has run its function, and has returned. -/
structure Mark where
  called : ℕ
  returned : ℕ
  good : ℕ
  bad : ℕ
deriving DecidableEq

namespace State

def mark (s : State) (c : ℕ) : Mark :=
  ⟨s.log.count (.call c), s.log.count (.ret c), s.log.count (.out c true), s.log.count (.out c false)⟩

/-- How many signals of the offload thread `i` are queued. -/
def own (s : State) (i : ℕ) : ℕ := (s.queue i).count s.me

/-- The offload thread `i` waits for a signal, and there is none. -/
def Rests (s : State) (st : OffState) (i : ℕ) : Prop :=
  (s.pool i).state = st ∧ (s.pool i).pc = .sleep ∧ (s.pool i).woken = 0 ∧ s.own i = 0

end State

/-- An offload thread that works for the call `c`, with the number of its signals that are queued
and what has happened to the call. -/
inductive Busy (c : ℕ) : OffThread → ℕ → Mark → Prop
  | woken : Busy c ⟨.running, c, .sleep, 1⟩ 0 ⟨0, 0, 0, 0⟩
  | check : Busy c ⟨.running, c, .check, 0⟩ 0 ⟨0, 0, 0, 0⟩
  | call : Busy c ⟨.running, c, .call, 0⟩ 0 ⟨0, 0, 0, 0⟩
  | inside : Busy c ⟨.running, c, .inside c, 0⟩ 0 ⟨1, 0, 0, 0⟩
  | back : Busy c ⟨.running, c, .done, 0⟩ 0 ⟨1, 1, 0, 0⟩
  | notify : Busy c ⟨.done, c, .notify, 0⟩ 0 ⟨1, 1, 0, 0⟩
  | sent : Busy c ⟨.done, c, .sleep, 0⟩ 1 ⟨1, 1, 0, 0⟩

/-- What holds where a fiber is. With `P`, no call gives up. -/
def Holds (P : Prop) (s : State) : At → Prop
  | .body => True
  | .direct c => s.mark c = ⟨1, 0, 0, 0⟩
  | .pick c i => s.mark c = ⟨0, 0, 0, 0⟩ ∧ ∀ j < i, (s.pool j).state ≠ .idle
  | .giveUp c => ¬ P ∧ s.mark c = ⟨0, 0, 0, 0⟩
  | .start c i => s.mark c = ⟨0, 0, 0, 0⟩ ∧ i < s.size ∧ s.Rests .idle i
  | .prepare c i => s.mark c = ⟨0, 0, 0, 0⟩ ∧ s.Rests .running i
  | .wake c i => s.mark c = ⟨0, 0, 0, 0⟩ ∧ s.Rests .running i ∧ (s.pool i).work = c
  | .poll c i _ => Busy c (s.pool i) (s.own i) (s.mark c)
  | .check c i _ => Busy c (s.pool i) (s.own i) (s.mark c)
  | .unblock c i _ => Busy c (s.pool i) (s.own i) (s.mark c)
  | .finish c i _ => Busy c (s.pool i) (s.own i) (s.mark c)
  | .idle c i _ => s.mark c = ⟨1, 1, 0, 0⟩ ∧ s.Rests .done i
  | .last c _ => s.mark c = ⟨1, 1, 0, 0⟩

/-- Where a fiber can be while others go on, or while it is in a destructor. -/
def Parked : At → Prop
  | .pick _ i => i = 0
  | .start .. => False
  | _ => True

/-- What has happened to a call that no fiber is in. -/
def Settled (P : Prop) (s : State) (c : ℕ) : Prop :=
  s.mark c = ⟨0, 0, 0, 0⟩ ∨ c < s.calls ∧ (s.mark c = ⟨1, 1, 1, 0⟩ ∨ ¬ P ∧ s.mark c = ⟨0, 0, 0, 1⟩)

/-- An offload thread that has not been created. -/
def Unborn (s : State) (i : ℕ) : Prop :=
  (s.pool i).state = .init ∧ (s.pool i).pc = .none ∧ (s.pool i).woken = 0 ∧ s.own i = 0

/-- An offload thread that comes up. -/
inductive Rises : OffThread → ℕ → Prop
  | up (c : ℕ) : Rises ⟨.init, c, .up, 0⟩ 0
  | report (c : ℕ) : Rises ⟨.up, c, .report, 0⟩ 0
  | sent (c : ℕ) : Rises ⟨.up, c, .sleep, 0⟩ 1

/-- Where an offload thread can be that works for no fiber. -/
inductive Place
  | any
  | unborn
  | rises
  | up
  | idle

/-- Where the offload thread `i` of `n` is while the interpreter starts, and behind that. -/
def Boot.place (n i : ℕ) : Boot → Place
  | .up => if i < n then .idle else .any
  | .create k => if i < k then .idle else .unborn
  | .wait k => if i < k then .idle else if i = k then .rises else .unborn
  | .check k => if i < k then .idle else if i = k then .up else .unborn
  | .store k => if i < k then .idle else if i = k then .up else .unborn

def Stands (s : State) (i : ℕ) : Place → Prop
  | .any => True
  | .unborn => Unborn s i
  | .rises => Rises (s.pool i) (s.own i)
  | .up => s.Rests .up i
  | .idle => s.Rests .idle i

/-- The offload thread is where one is that works for no fiber. -/
def Free (s : State) (i : ℕ) : Prop := Stands s i (s.boot.place s.size i)

theorem free_up {s : State} (hup : s.boot = .up) {i : ℕ} : Free s i ↔ (i < s.size → s.Rests .idle i) := by
  unfold Free
  rw [hup]
  unfold Boot.place
  by_cases hi : i < s.size
  · rw [if_pos hi]
    exact ⟨fun h _ => h, fun h => h hi⟩
  · rw [if_neg hi]
    exact ⟨fun _ hlt => absurd hlt hi, fun _ => trivial⟩

theorem Boot.place_ne (b : Boot) {n i : ℕ} (hi : i < n) : b.place n i ≠ .any := by
  cases b <;> grind [Boot.place]

/-- It depends on the offload thread and its signals. -/
theorem Stands.frame {s s' : State} {i : ℕ} {p : Place} (h : Stands s i p) (hpool : s'.pool i = s.pool i)
    (hown : s'.own i = s.own i) : Stands s' i p := by
  cases p with
  | any => trivial
  | unborn =>
    simp only [Stands, Unborn] at h ⊢
    rwa [hpool, hown]
  | rises =>
    simp only [Stands] at h ⊢
    rwa [hpool, hown]
  | up =>
    simp only [Stands, State.Rests] at h ⊢
    rwa [hpool, hown]
  | idle =>
    simp only [Stands, State.Rests] at h ⊢
    rwa [hpool, hown]

/-- It looks for an offload thread. -/
def At.picks : At → Bool
  | .pick .. => true
  | _ => false

/-- Where a call looks for an offload thread, the calls below it leave one of `n`. -/
def Room (n : ℕ) : List At → Prop
  | [] => True
  | k :: ks => (k.picks = true → (ks.filterMap At.owns).length < n) ∧ Room n ks

/-- **The invariant.** -/
structure Inv (P : Prop) (s : State) : Prop where
  fibers : Fibers s.threads
  size : 0 < s.size
  parked : ∀ k ∈ inCalls s.threads, Parked k ∨ ∃ t w, s.threads.cur = some t ∧ t.pc = .run (.site k w)
  holds : ∀ k ∈ inCalls s.threads, Holds P s k
  /-- No two points are in one call. -/
  calls : ((inCalls s.threads).filterMap At.call).Nodup
  /-- An offload thread works for one of them. -/
  owns : ((inCalls s.threads).filterMap At.owns).Nodup
  fresh : ∀ k ∈ inCalls s.threads, ∀ c, k.call = some c → c < s.calls
  settled : ∀ c, (∀ k ∈ inCalls s.threads, k.call ≠ some c) → Settled P s c
  free : ∀ i, (∀ k ∈ inCalls s.threads, k.owns ≠ some i) → Free s i
  room : P → ∀ p ∈ points s.threads, Room s.size p.sites
  boot : s.boot ≠ .up → inCalls s.threads = []

/-- An offload thread that works for a fiber does not rest. -/
theorem Holds.not_idle {P : Prop} {s : State} {k : At} {i : ℕ} (h : Holds P s k) (ho : k.owns = some i) :
    (s.pool i).state ≠ .idle := by
  have hbusy : ∀ {c q m}, Busy c (s.pool i) q m → (s.pool i).state ≠ .idle := by
    intro c q m hb
    generalize s.pool i = t at hb
    cases hb <;> simp
  cases k <;> simp only [At.owns, Option.some.injEq, reduceCtorEq] at ho <;> subst ho
  · rw [h.2.1]
    decide
  · rw [h.2.1.1]
    decide
  · exact hbusy h
  · exact hbusy h
  · exact hbusy h
  · exact hbusy h
  · rw [h.2.1]
    decide

/-- What holds where a fiber is depends on its call and its offload thread. -/
theorem Holds.frame {P : Prop} {s s' : State} {k : At} (h : Holds P s k) (hsize : s'.size = s.size)
    (hcall : ∀ c, k.call = some c → s'.mark c = s.mark c)
    (howns : ∀ i, k.owns = some i → s'.pool i = s.pool i ∧ s'.own i = s.own i)
    (hrest : Parked k ∨ (∀ j, (s'.pool j).state = .idle → (s.pool j).state = .idle) ∧
      ∀ j, s.Rests .idle j → s'.Rests .idle j) : Holds P s' k := by
  have hrests : ∀ {st i}, k.owns = some i → s.Rests st i → s'.Rests st i := by
    intro st i hi hr
    unfold State.Rests at hr ⊢
    rwa [(howns i hi).1, (howns i hi).2]
  have hbusy : ∀ {c i}, k.call = some c → k.owns = some i → Busy c (s.pool i) (s.own i) (s.mark c) →
      Busy c (s'.pool i) (s'.own i) (s'.mark c) := by
    intro c i hc hi hb
    rwa [(howns i hi).1, (howns i hi).2, hcall c hc]
  cases k with
  | body => trivial
  | direct c => exact (hcall c rfl).trans h
  | pick c i =>
    refine ⟨(hcall c rfl).trans h.1, fun j hj hidle => ?_⟩
    rcases hrest with hp | ⟨hidle', -⟩
    · have hi : i = 0 := hp
      omega
    · exact h.2 j hj (hidle' j hidle)
  | giveUp c => exact ⟨h.1, (hcall c rfl).trans h.2⟩
  | start c i =>
    rcases hrest with hp | ⟨-, hrest⟩
    · exact hp.elim
    · exact ⟨(hcall c rfl).trans h.1, hsize ▸ h.2.1, hrest i h.2.2⟩
  | prepare c i => exact ⟨(hcall c rfl).trans h.1, hrests rfl h.2⟩
  | wake c i => exact ⟨(hcall c rfl).trans h.1, hrests rfl h.2.1, (howns i rfl).1 ▸ h.2.2⟩
  | poll c i p => exact hbusy rfl rfl h
  | check c i p => exact hbusy rfl rfl h
  | unblock c i p => exact hbusy rfl rfl h
  | finish c i p => exact hbusy rfl rfl h
  | idle c i p => exact ⟨(hcall c rfl).trans h.1, hrests rfl h.2⟩
  | last c p => exact (hcall c rfl).trans h

/-! ### One point goes on -/

/-- The point `k`, if it is in a call. -/
def At.inCall (k : At) : List At := [k].filter (·.call.isSome)

theorem At.inCall_call (k : At) : k.inCall.filterMap At.call = k.call.toList := by
  cases k <;> rfl

theorem At.inCall_owns (k : At) : k.inCall.filterMap At.owns = k.owns.toList := by
  cases k <;> rfl

theorem inCalls_site (k : At) (w : Waits) :
    (Spot.site k w).inCalls = k.inCall ++ (w.map (·.2)).filter (·.call.isSome) := by
  unfold Spot.inCalls Spot.sites At.inCall
  rw [← List.filter_append]
  rfl

theorem nodup_toList_append {α : Type*} {o : Option α} {l : List α} :
    (o.toList ++ l).Nodup ↔ (∀ a, o = some a → a ∉ l) ∧ l.Nodup := by
  cases o <;> simp

section Point

variable {P : Prop} {s s' : State} {t : Thread Spot} {k k' : At} {w : Waits}

/-- The calls, or the offload threads, of all points are those of the foreground fiber's point and of
the others. -/
theorem nodup_inCall {g : At → Option ℕ} (hg : ∀ k : At, k.inCall.filterMap g = (g k).toList) {ks rest : List At}
    (hperm : ks.Perm (k.inCall ++ rest)) :
    (ks.filterMap g).Nodup ↔ (∀ x ∈ rest, ∀ c, g x = some c → g k ≠ some c) ∧ (rest.filterMap g).Nodup := by
  rw [(hperm.filterMap g).nodup_iff, List.filterMap_append, hg, nodup_toList_append]
  refine and_congr_left fun _ => ⟨fun h x hx c hc hk => ?_, fun h c hk hmem => ?_⟩
  · exact h c hk (List.mem_filterMap.mpr ⟨x, hx, hc⟩)
  · obtain ⟨x, hx, hc⟩ := List.mem_filterMap.mp hmem
    exact h x hx c hc hk

theorem inCall_ne_iff {g : At → Option ℕ} (hg : ∀ k : At, k.inCall.filterMap g = (g k).toList) {ks rest : List At}
    (hperm : ks.Perm (k.inCall ++ rest)) {c : ℕ} :
    (∀ x ∈ ks, g x ≠ some c) ↔ g k ≠ some c ∧ ∀ x ∈ rest, g x ≠ some c := by
  have hmem : ∀ l : List At, (∀ x ∈ l, g x ≠ some c) ↔ c ∉ l.filterMap g := fun l => by simp
  rw [hmem, hmem, (hperm.filterMap g).mem_iff, List.filterMap_append, hg, List.mem_append, not_or]
  simp

theorem mem_points (hcur : s.threads.cur = some t) {p : Spot} (hpc : t.pc = .run p) : p ∈ points s.threads := by
  refine List.mem_map.mpr ⟨t, List.mem_of_find?_eq_some hcur, ?_⟩
  rw [hpc]
  rfl

/-- The calls of the fibers that are not the call of the foreground one. -/
structure Others (P : Prop) (s : State) (k : At) (rest : List At) : Prop where
  perm : (inCalls s.threads).Perm (k.inCall ++ rest)
  calls : ∀ x ∈ rest, ∀ c, x.call = some c → k.call ≠ some c
  owns : ∀ x ∈ rest, ∀ i, x.owns = some i → k.owns ≠ some i
  parked : ∀ x ∈ rest, Parked x
  holds : ∀ x ∈ rest, Holds P s x
  fresh : ∀ x ∈ rest, ∀ c, x.call = some c → c < s.calls

theorem Inv.others (h : Inv P s) (hcur : s.threads.cur = some t) (hpc : t.pc = .run (.site k w)) {rest : List At}
    (hperm : (inCalls s.threads).Perm (k.inCall ++ rest)) : Others P s k rest := by
  have hmem : ∀ x ∈ rest, x ∈ inCalls s.threads := fun x hx => hperm.mem_iff.mpr (List.mem_append_right _ hx)
  have hcall := ((nodup_inCall At.inCall_call hperm).mp h.calls).1
  have howns := ((nodup_inCall At.inCall_owns hperm).mp h.owns).1
  refine ⟨hperm, hcall, howns, fun x hx => ?_, fun x hx => h.holds x (hmem x hx), fun x hx => h.fresh x (hmem x hx)⟩
  refine (h.parked x (hmem x hx)).resolve_right ?_
  rintro ⟨u, v, hu, hxpc⟩
  obtain rfl := Option.some.inj (hcur.symm.trans hu)
  obtain ⟨rfl, -⟩ := Spot.site.inj (Pc.run.inj (hpc.symm.trans hxpc))
  obtain ⟨_, -, -, hsome⟩ := mem_inCalls.mp (hmem _ hx)
  obtain ⟨c, hc⟩ := Option.isSome_iff_exists.mp hsome
  exact hcall _ hx c hc hc

/-- Below the foreground fiber's point. -/
theorem room_site {n : ℕ} (h : Room n (Spot.site k w).sites)
    (hk : k'.picks = true → k.picks = true ∨ ((w.map (·.2)).filterMap At.owns).length < n) :
    Room n (Spot.site k' w).sites := by
  refine ⟨fun hp => ?_, h.2⟩
  rcases hk hp with hpicks | hlt
  · exact h.1 hpicks
  · exact hlt

/-- The foreground fiber goes on. It keeps its call and its offload thread, or gives them up as
they should be, or takes new ones. -/
theorem Inv.advance (h : Inv P s) (hcur : s.threads.cur = some t) (hpc : t.pc = .run (.site k w))
    (hup : s.boot = .up) (hboot : s'.boot = .up) (hsize : s'.size = s.size) (hfibers : Fibers s'.threads)
    (hadv : Advance s.threads s'.threads (.site k w) (.site k' w))
    (hpark : Parked k' ∨ ∃ t w, s'.threads.cur = some t ∧ t.pc = .run (.site k' w))
    (hpicks : P → k'.picks = true → k.picks = true ∨ ((w.map (·.2)).filterMap At.owns).length < s.size)
    (hholds : Holds P s' k') (hcalls : s.calls ≤ s'.calls)
    (hcall : ∀ c, k'.call = some c → (k.call = some c ∨ c = s.calls) ∧ c < s'.calls)
    (hmark : ∀ c, k.call ≠ some c → k'.call ≠ some c → s'.mark c = s.mark c)
    (hsettled : ∀ c, k.call = some c → k'.call ≠ some c → Settled P s' c)
    (howns : ∀ i, k'.owns = some i → k.owns = some i ∨ s.Rests .idle i)
    (hslot : ∀ i, k.owns ≠ some i → k'.owns ≠ some i → s'.pool i = s.pool i ∧ s'.own i = s.own i)
    (hfree : ∀ i, k.owns = some i → k'.owns ≠ some i → s'.Rests .idle i) : Inv P s' := by
  obtain ⟨rest₀, hrest, hrest'⟩ := hadv.others
  rw [inCalls_site, List.append_assoc] at hrest hrest'
  generalize (w.map (·.2)).filter (·.call.isSome) ++ rest₀ = rest at hrest hrest'
  have ho := h.others hcur hpc hrest
  have hmem' : ∀ x, x ∈ inCalls s'.threads ↔ x ∈ k'.inCall ∨ x ∈ rest := fun x =>
    hrest'.mem_iff.trans List.mem_append
  have hnew : ∀ x ∈ k'.inCall, x = k' := fun x hx => List.mem_singleton.mp (List.mem_of_mem_filter hx)
  -- the others are in other calls and have other offload threads than `k'`
  have hcall' : ∀ x ∈ rest, ∀ c, x.call = some c → k'.call ≠ some c := by
    intro x hx c hc hk
    rcases (hcall c hk).1 with hkc | rfl
    · exact ho.calls x hx c hc hkc
    · exact Nat.lt_irrefl _ (ho.fresh x hx _ hc)
  have howns' : ∀ x ∈ rest, ∀ i, x.owns = some i → k'.owns ≠ some i := by
    intro x hx i hi hk
    rcases howns i hk with hki | hidle
    · exact ho.owns x hx i hi hki
    · exact (ho.holds x hx).not_idle hi hidle.1
  refine
    { fibers := hfibers
      size := hsize ▸ h.size
      parked := fun x hx => ?_
      holds := fun x hx => ?_
      calls := ?_
      owns := ?_
      fresh := fun x hx c hc => ?_
      settled := fun c hc => ?_
      free := fun i hi => ?_
      room := fun hP p hp => ?_
      boot := fun hne => absurd hboot hne }
  · rcases (hmem' x).mp hx with hx | hx
    · rwa [hnew x hx]
    · exact .inl (ho.parked x hx)
  · rcases (hmem' x).mp hx with hx | hx
    · rwa [hnew x hx]
    · exact (ho.holds x hx).frame hsize (fun c hc => hmark c (ho.calls x hx c hc) (hcall' x hx c hc))
        (fun i hi => hslot i (ho.owns x hx i hi) (howns' x hx i hi)) (.inl (ho.parked x hx))
  · have hold := (nodup_inCall At.inCall_call hrest).mp h.calls
    exact (nodup_inCall At.inCall_call hrest').mpr ⟨hcall', hold.2⟩
  · have hold := (nodup_inCall At.inCall_owns hrest).mp h.owns
    exact (nodup_inCall At.inCall_owns hrest').mpr ⟨howns', hold.2⟩
  · rcases (hmem' x).mp hx with hx | hx
    · rw [hnew x hx] at hc
      exact (hcall c hc).2
    · exact Nat.lt_of_lt_of_le (ho.fresh x hx c hc) hcalls
  · obtain ⟨hk', hothers⟩ := (inCall_ne_iff At.inCall_call hrest').mp hc
    by_cases hk : k.call = some c
    · exact hsettled c hk hk'
    · have hold := h.settled c ((inCall_ne_iff At.inCall_call hrest).mpr ⟨hk, hothers⟩)
      unfold Settled at hold ⊢
      rw [hmark c hk hk']
      exact hold.imp_right fun hs => ⟨Nat.lt_of_lt_of_le hs.1 hcalls, hs.2⟩
  · obtain ⟨hk', hothers⟩ := (inCall_ne_iff At.inCall_owns hrest').mp hi
    refine (free_up hboot).mpr fun hlt => ?_
    by_cases hk : k.owns = some i
    · exact hfree i hk hk'
    · obtain ⟨hpool, hown⟩ := hslot i hk hk'
      have hold := h.free i ((inCall_ne_iff At.inCall_owns hrest).mpr ⟨hk, hothers⟩)
      have hidle := (free_up hup).mp hold (hsize ▸ hlt)
      unfold State.Rests at hidle ⊢
      rwa [hpool, hown]
  · rw [hsize]
    rcases hadv.origin p hp with rfl | rfl | hold
    · exact room_site (h.room hP _ (mem_points hcur hpc)) (hpicks hP)
    · exact ⟨nofun, trivial⟩
    · exact h.room hP p hold

/-- The fibers go on with the same calls. -/
theorem Inv.same (h : Inv P s) (hup : s.boot = .up) {T : Threads Spot} (hfibers : Fibers T)
    (hperm : (inCalls T).Perm (inCalls s.threads)) (hparked : ∀ k ∈ inCalls T, Parked k)
    (hroom : P → ∀ p ∈ points T, Room s.size p.sites) : Inv P { s with threads := T } where
  fibers := hfibers
  size := h.size
  parked k hk := .inl (hparked k hk)
  holds k hk := (h.holds k (hperm.mem_iff.mp hk)).frame rfl (fun _ _ => rfl) (fun _ _ => ⟨rfl, rfl⟩)
    (.inr ⟨fun _ hi => hi, fun _ hr => hr⟩)
  calls := (hperm.filterMap At.call).nodup_iff.mpr h.calls
  owns := (hperm.filterMap At.owns).nodup_iff.mpr h.owns
  fresh k hk := h.fresh k (hperm.mem_iff.mp hk)
  settled c hc := h.settled c fun k hk => hc k (hperm.mem_iff.mpr hk)
  free i hi := h.free i fun k hk => hi k (hperm.mem_iff.mpr hk)
  room := hroom
  boot hne := absurd hup hne

/-- Where the foreground fiber is in no call, or not on its way, all points can wait. -/
theorem Inv.all_parked (h : Inv P s) (hcur : s.threads.cur = some t)
    (hpc : ∀ k w, t.pc = .run (.site k w) → k.call = none) : ∀ k ∈ inCalls s.threads, Parked k := by
  intro k hk
  refine (h.parked k hk).resolve_right ?_
  rintro ⟨u, w, hu, hupc⟩
  obtain rfl := Option.some.inj (hcur.symm.trans hu)
  obtain ⟨_, -, -, hsome⟩ := mem_inCalls.mp hk
  rw [hpc k w hupc] at hsome
  cases hsome

end Point

/-! ### What the foreground fiber does -/

section Fiber

variable {P : Prop} {s s' : State} {t : Thread Spot} {k k' : At} {w : Waits}

/-- What holds where the foreground fiber is. -/
theorem Inv.here (h : Inv P s) (hcur : s.threads.cur = some t) (hpc : t.pc = .run (.site k w)) : Holds P s k := by
  by_cases hk : k.call.isSome = true
  · refine h.holds k (mem_inCalls.mpr ⟨t, List.mem_of_find?_eq_some hcur, ?_, hk⟩)
    rw [hpc]
    exact List.mem_cons_self
  · cases k with
    | body => trivial
    | _ => exact absurd rfl hk

theorem Inv.fresh_here (h : Inv P s) (hcur : s.threads.cur = some t) (hpc : t.pc = .run (.site k w)) {c : ℕ}
    (hc : k.call = some c) : c < s.calls := by
  refine h.fresh k (mem_inCalls.mpr ⟨t, List.mem_of_find?_eq_some hcur, ?_, hc ▸ rfl⟩) c hc
  rw [hpc]
  exact List.mem_cons_self

/-- The foreground fiber is at another place, with the others where they were. -/
theorem Inv.goto_advance (h : Inv P s) (hcur : s.threads.cur = some t) (hpc : t.pc = .run (.site k w)) (q : Spot) :
    Advance s.threads (s.threads.goto q) (.site k w) q := by
  have hadv := Advance.place h.fibers.listed.distinct hcur (.run q)
  rwa [hpc] at hadv

/-- The foreground fiber goes on with the same call and the same offload thread, and changes
nothing. -/
theorem Inv.moves (h : Inv P s) (hcur : s.threads.cur = some t) (hpc : t.pc = .run (.site k w)) (hup : s.boot = .up)
    {T : Threads Spot} (hfibers : Fibers T) (hadv : Advance s.threads T (.site k w) (.site k' w))
    (hpark : Parked k' ∨ ∃ t w, T.cur = some t ∧ t.pc = .run (.site k' w)) (hcall : k'.call = k.call)
    (howns : k'.owns = k.owns) (hpicks : k'.picks = true → k.picks = true) (hholds : Holds P s k') :
    Inv P { s with threads := T } := by
  refine h.advance hcur hpc hup hup rfl hfibers hadv hpark (fun _ hp => .inl (hpicks hp)) ?_ (Nat.le_refl _)
    (fun c hc => ?_) (fun _ _ _ => rfl) (fun c hkc hkc' => absurd (hcall.trans hkc) hkc')
    (fun i hi => .inl (howns ▸ hi)) (fun _ _ _ => ⟨rfl, rfl⟩) fun i hki hki' => absurd (howns.trans hki) hki'
  · exact hholds.frame rfl (fun _ _ => rfl) (fun _ _ => ⟨rfl, rfl⟩) (.inr ⟨fun _ hi => hi, fun _ hr => hr⟩)
  · rw [hcall] at hc
    exact ⟨.inl hc, h.fresh_here hcur hpc hc⟩

theorem Inv.yields (h : Inv P s) (hcur : s.threads.cur = some t) (hpc : t.pc = .run (.site k w))
    (hup : s.boot = .up) {f : Bool → At} (hpark : ∀ y, Parked (f y)) (hcall : ∀ y, (f y).call = k.call)
    (howns : ∀ y, (f y).owns = k.owns) (hpicks : ∀ y, (f y).picks = true → k.picks = true)
    (htrue : Holds P s (f true))
    (hfalse : (∀ u ∈ s.threads.list, u.id ≠ s.threads.fg → u.pc.point = .past) → Holds P s (f false)) :
    Inv P (s.yield w f) := by
  have hfibers := h.fibers.yield hcur hpc f
  have hadv := fun y => h.goto_advance hcur hpc (.site (f y) w)
  unfold State.yield
  rcases points_yield h.fibers (fun y => .site (f y) w) with hp | ⟨hp, hall⟩
  · exact h.moves hcur hpc hup hfibers ((hadv true).congr hp) (.inl (hpark true)) (hcall true) (howns true)
      (hpicks true) htrue
  · exact h.moves hcur hpc hup hfibers ((hadv false).congr hp) (.inl (hpark false)) (hcall false) (howns false)
      (hpicks false) (hfalse hall)

theorem Inv.goes (h : Inv P s) (hcur : s.threads.cur = some t) (hpc : t.pc = .run (.site k w)) (hup : s.boot = .up)
    (hcall : k'.call = k.call) (howns : k'.owns = k.owns) (hpicks : k'.picks = true → k.picks = true)
    (hholds : Holds P s k') : Inv P (s.goto w k') :=
  h.moves hcur hpc hup (h.fibers.goto hcur hpc k') (h.goto_advance hcur hpc _)
    (.inr ⟨_, w, place_cur hcur _, rfl⟩) hcall howns hpicks hholds

/-- Where all others are done, the points in `b6b_offload` are those of the foreground fiber. -/
theorem Inv.alone (h : Inv P s) (hcur : s.threads.cur = some t)
    (hall : ∀ u ∈ s.threads.list, u.id ≠ s.threads.fg → u.pc.point = .past) :
    ∀ x ∈ inCalls s.threads, x ∈ t.pc.point.sites := by
  have ht : t ∈ s.threads.list := List.mem_of_find?_eq_some hcur
  have htid : t.id = s.threads.fg := by simpa using List.find?_some hcur
  intro x hx
  obtain ⟨u, hu, hsite, -⟩ := mem_inCalls.mp hx
  by_cases hid : u.id = s.threads.fg
  · rwa [h.fibers.listed.unique hu ht (hid.trans htid.symm)] at hsite
  · rw [hall u hu hid] at hsite
    cases hsite

/-- **No call gives up** where the calls below it leave an offload thread, and there is no other fiber. -/
theorem Inv.some_idle (h : Inv P s) (hP : P) (hcur : s.threads.cur = some t) {c i : ℕ}
    (hpc : t.pc = .run (.site (.pick c i) w)) (hup : s.boot = .up)
    (hall : ∀ u ∈ s.threads.list, u.id ≠ s.threads.fg → u.pc.point = .past) :
    ∃ j < s.size, (s.pool j).state = .idle := by
  have halone := h.alone hcur hall
  rw [hpc] at halone
  have hroom : ((w.map (·.2)).filterMap At.owns).length < s.size :=
    (h.room hP _ (mem_points hcur hpc)).1 rfl
  by_contra hnone
  -- otherwise each of them works for one of the calls below
  have hsub : List.range s.size ⊆ (w.map (·.2)).filterMap At.owns := by
    intro j hj
    have hlt : j < s.size := List.mem_range.mp hj
    by_contra hout
    refine hnone ⟨j, hlt, ((free_up hup).mp (h.free j fun x hx hxj => ?_) hlt).1⟩
    rcases List.mem_cons.mp (halone x hx) with rfl | hmem
    · cases hxj
    · exact hout (List.mem_filterMap.mpr ⟨x, hmem, hxj⟩)
  have hle := (List.subperm_of_subset List.nodup_range hsub).length_le
  rw [List.length_range] at hle
  omega

end Fiber

/-- The call that an event is about. -/
def Event.of : Event → ℕ
  | .call c => c
  | .ret c => c
  | .out c _ => c

theorem mark_record {s : State} {es : List Event} {c : ℕ} (hes : ∀ e ∈ es, e.of ≠ c) :
    (s.record es).mark c = s.mark c := by
  have hcount : ∀ e : Event, e.of = c → (es ++ s.log).count e = s.log.count e := by
    intro e he
    rw [List.count_append, List.count_eq_zero.mpr fun hmem => hes e hmem he, Nat.zero_add]
  unfold State.mark State.record
  dsimp only
  rw [hcount _ rfl, hcount _ rfl, hcount _ rfl, hcount _ rfl]

theorem setOff_pool_ne (s : State) {i j : ℕ} (t : OffThread) (h : j ≠ i) : (s.setOff i t).pool j = s.pool j :=
  Function.update_of_ne h _ _

@[simp] theorem setOff_pool (s : State) (i : ℕ) (t : OffThread) : (s.setOff i t).pool i = t :=
  Function.update_self ..

section Go

variable {P : Prop} {s s' : State} {t : Thread Spot} {k : At} {w : Waits}

/-- The foreground fiber leaves `b6b_offload`. -/
theorem Inv.leaves (h : Inv P s) (hcur : s.threads.cur = some t) (hpc : t.pc = .run (.site k w))
    (hup : s.boot = .up) {T : Threads Spot} (hfibers : Fibers T)
    (hadv : Advance s.threads T (.site k w) (.site .body w)) {c : ℕ} (hcall : k.call = some c)
    (howns : k.owns = none) {es : List Event} (hes : ∀ e ∈ es, e.of = c)
    (hmark : Settled P (s.record es) c) : Inv P { s.record es with threads := T } := by
  refine h.advance hcur hpc hup hup rfl hfibers hadv (.inl trivial) (fun _ => nofun) trivial (Nat.le_refl _) nofun
    (fun c' hc' _ => mark_record fun e he => ?_) (fun c' hc' _ => ?_) nofun (fun _ _ _ => ⟨rfl, rfl⟩) fun i hi => ?_
  · rintro rfl
    rw [hcall, hes e he] at hc'
    exact hc' rfl
  · rw [hcall] at hc'
    obtain rfl := Option.some.inj hc'
    exact hmark
  · rw [howns] at hi
    cases hi

/-- The foreground fiber changes its offload thread. -/
theorem Inv.sets (h : Inv P s) (k' : At) (hcur : s.threads.cur = some t) (hpc : t.pc = .run (.site k w))
    (hup : s.boot = .up) (hcall : k'.call = k.call) (hpicks : k'.picks = true → k.picks = true) {i : ℕ}
    {u : OffThread} (hold : k.owns = some i ∨ k.owns = none ∧ k'.owns = some i ∧ s.Rests .idle i)
    (hnew : k'.owns = some i ∨ k'.owns = none ∧ (s.setOff i u).Rests .idle i)
    (hholds : Holds P (s.setOff i u) k') : Inv P ((s.setOff i u).goto w k') := by
  refine h.advance hcur hpc hup hup rfl (h.fibers.goto hcur hpc k') (h.goto_advance hcur hpc _)
    (.inr ⟨_, w, place_cur hcur _, rfl⟩) (fun _ hp => .inl (hpicks hp)) ?_ (Nat.le_refl _) (fun c hc => ?_)
    (fun _ _ _ => rfl) (fun c hc hkc => absurd (hcall.trans hc) hkc) (fun j hj => ?_) (fun j hj hkj => ?_)
    fun j hj hkj => ?_
  · exact hholds.frame rfl (fun _ _ => rfl) (fun _ _ => ⟨rfl, rfl⟩) (.inr ⟨fun _ hi => hi, fun _ hr => hr⟩)
  · rw [hcall] at hc
    exact ⟨.inl hc, h.fresh_here hcur hpc hc⟩
  · rcases hold with hold | ⟨-, hki, hrest⟩
    · rcases hnew with hnew | ⟨hnew, -⟩
      · exact .inl (hold.trans (hnew.symm.trans hj))
      · rw [hnew] at hj
        cases hj
    · obtain rfl := Option.some.inj (hki.symm.trans hj)
      exact .inr hrest
  · have hji : j ≠ i := by
      rintro rfl
      rcases hold with hold | ⟨-, hki, -⟩
      · exact hj hold
      · exact hkj hki
    exact ⟨setOff_pool_ne s u hji, rfl⟩
  · rcases hold with hold | ⟨hnone, -⟩
    · obtain rfl := Option.some.inj (hold.symm.trans hj)
      rcases hnew with hnew | ⟨-, hrest⟩
      · exact absurd hnew hkj
      · exact hrest
    · rw [hnone] at hj
      cases hj

/-- The foreground fiber calls `b6b_offload`. -/
theorem Inv.enter (h : Inv P s) (hcur : s.threads.cur = some t) (hpc : t.pc = .run (.site .body w))
    (hup : s.boot = .up)
    (hroom : P → s.threaded = true → ((w.map (·.2)).filterMap At.owns).length < s.size) : Inv P (s.enter w) := by
  have hfresh : s.mark s.calls = ⟨0, 0, 0, 0⟩ := by
    refine (h.settled s.calls fun x hx hc => ?_).resolve_right fun hs => Nat.lt_irrefl _ hs.1
    exact Nat.lt_irrefl _ (h.fresh x hx _ hc)
  unfold State.enter
  dsimp only
  by_cases hth : s.threaded = true
  · rw [if_pos hth]
    have hadv : Advance s.threads ((s.threads.block true).goto (.site (.pick s.calls 0) w)) (.site .body w)
        (.site (.pick s.calls 0) w) :=
      (h.goto_advance hcur hpc _).congr (points_set (g := fun t => { t with blocked := true }) (fun _ => rfl) _)
    refine h.advance hcur hpc hup hup rfl (h.fibers.gotoBlock hcur hpc true _) hadv (.inl rfl)
      (fun hP _ => .inr (hroom hP hth)) ⟨hfresh, nofun⟩ (Nat.le_succ _) (fun c hc => ?_) (fun _ _ _ => rfl) nofun nofun
      (fun _ _ _ => ⟨rfl, rfl⟩) nofun
    obtain rfl := Option.some.inj hc
    exact ⟨.inr rfl, Nat.lt_succ_self _⟩
  · rw [if_neg hth]
    refine h.advance hcur hpc hup hup rfl (h.fibers.goto hcur hpc _) (h.goto_advance hcur hpc _) (.inl trivial)
      (fun _ => nofun) ?_ (Nat.le_succ _) (fun c hc => ?_) (fun c _ hc => mark_record fun e he => ?_) nofun nofun
      (fun _ _ _ => ⟨rfl, rfl⟩) nofun
    · have hcount := hfresh
      simp only [State.mark, Mark.mk.injEq] at hcount
      show State.mark _ _ = _
      simp [State.mark, State.record, State.goto, hcount]
    · obtain rfl := Option.some.inj hc
      exact ⟨.inr rfl, Nat.lt_succ_self _⟩
    · rw [List.mem_singleton.mp he]
      rintro rfl
      exact hc rfl

/-- The blocking wait of `b6b_offload_finish`, if all signals that are queued are its own. -/
theorem Inv.waits (h : Inv P s) (hcur : s.threads.cur = some t) {c i : ℕ} {p : Bool}
    (hpc : t.pc = .run (.site (.finish c i p) w)) (hup : s.boot = .up) (hown : ∀ k ∈ s.queue i, k = s.me)
    {s₁ : State} (hs : s.sigwait i = some s₁) : Inv P (s₁.goto w (.idle c i p)) := by
  unfold State.sigwait at hs
  rcases hq : s.queue i with _ | ⟨k, q⟩ <;> rw [hq] at hs <;> dsimp only at hs
  · cases hs
  obtain rfl := Option.some.inj hs
  have hme : k = s.me := hown k (hq ▸ List.mem_cons_self ..)
  have hcount : s.own i = q.count s.me + 1 := by
    unfold State.own
    rw [hq, hme, List.count_cons_self]
  -- a signal of its own is queued, so the function has returned
  have hbusy : Busy c (s.pool i) (s.own i) (s.mark c) := h.here hcur hpc
  have hrests : (s.setQueue i q).Rests .done i ∧ s.mark c = ⟨1, 1, 0, 0⟩ := by
    unfold State.Rests State.own State.setQueue
    dsimp only
    rw [Function.update_self]
    generalize s.pool i = u at hbusy
    generalize s.mark c = m at hbusy
    rw [hcount] at hbusy
    generalize q.count s.me = n at hbusy
    cases hbusy
    exact ⟨⟨rfl, rfl, rfl, rfl⟩, rfl⟩
  refine h.advance hcur hpc hup hup rfl (h.fibers.goto hcur hpc _) (h.goto_advance hcur hpc _) (.inl trivial)
    (fun _ => nofun) ⟨hrests.2, hrests.1⟩ (Nat.le_refl _) (fun c' hc => ?_) (fun _ _ _ => rfl)
    (fun c' hc hkc => absurd hc hkc) (fun j hj => .inl hj) (fun j _ hkj => ⟨rfl, ?_⟩) fun j hj hkj => absurd hj hkj
  · exact ⟨.inl hc, h.fresh_here hcur hpc hc⟩
  · have hji : j ≠ i := by
      rintro rfl
      exact hkj rfl
    unfold State.own State.setQueue State.goto
    dsimp only
    rw [Function.update_of_ne hji]

theorem Inv.goDirect {c : ℕ} (h : Inv P s) (hcur : s.threads.cur = some t)
    (hpc : t.pc = .run (.site (.direct c) w)) (hup : s.boot = .up) (hs : s.go w (.direct c) = some s') :
    Inv P s' := by
  obtain rfl := Option.some.inj hs
  refine h.leaves hcur hpc hup (h.fibers.goto hcur hpc _) (h.goto_advance hcur hpc _) rfl rfl (fun e he => ?_)
    (.inr ⟨h.fresh_here hcur hpc rfl, .inl ?_⟩)
  · simp only [List.mem_cons, List.not_mem_nil, or_false] at he
    rcases he with rfl | rfl <;> rfl
  · have hcount : s.mark c = ⟨1, 0, 0, 0⟩ := h.here hcur hpc
    simp only [State.mark, Mark.mk.injEq] at hcount
    simp [State.mark, State.record, hcount]

/-- The scan of `b6b_offload` for an offload thread that is idle. -/
theorem Inv.goPick {c i : ℕ} (h : Inv P s) (hcur : s.threads.cur = some t)
    (hpc : t.pc = .run (.site (.pick c i) w)) (hup : s.boot = .up) (hs : s.go w (.pick c i) = some s') :
    Inv P s' := by
  obtain ⟨hmark, hbusy⟩ := h.here hcur hpc
  simp only [State.go] at hs
  by_cases hi : i < s.size
  · rw [if_pos hi] at hs
    by_cases hidle : (s.pool i).state = .idle
    · rw [if_pos hidle] at hs
      obtain rfl := Option.some.inj hs
      refine h.goes hcur hpc hup rfl rfl nofun ⟨hmark, hi, ?_⟩
      -- it is idle, so no call has it
      have hfree : Free s i := h.free i fun x hx hxi => (h.holds x hx).not_idle hxi hidle
      exact (free_up hup).mp hfree hi
    · rw [if_neg hidle] at hs
      obtain rfl := Option.some.inj hs
      refine h.goes hcur hpc hup rfl rfl (fun _ => rfl) ⟨hmark, fun j hj => ?_⟩
      rcases Nat.lt_succ_iff_lt_or_eq.mp hj with hj | rfl
      · exact hbusy j hj
      · exact hidle
  · rw [if_neg hi] at hs
    obtain rfl := Option.some.inj hs
    refine h.yields hcur hpc hup (fun y => by cases y <;> first | rfl | trivial) (fun y => by cases y <;> rfl)
      (fun y => by cases y <;> rfl) (fun _ _ => rfl) ⟨hmark, nofun⟩ fun hall => ⟨fun hP => ?_, hmark⟩
    obtain ⟨j, hj, hidle⟩ := h.some_idle hP hcur hpc hup hall
    exact hbusy j (by omega) hidle

/-- The branch that gives up. -/
theorem Inv.goGiveUp {c : ℕ} (h : Inv P s) (hcur : s.threads.cur = some t)
    (hpc : t.pc = .run (.site (.giveUp c) w)) (hup : s.boot = .up) (hs : s.go w (.giveUp c) = some s') :
    Inv P s' := by
  obtain rfl := Option.some.inj hs
  obtain ⟨hP, hmark⟩ := h.here hcur hpc
  have hadv : Advance s.threads ((s.threads.block false).goto (.site .body w)) (.site (.giveUp c) w)
      (.site .body w) :=
    (h.goto_advance hcur hpc _).congr (points_set (g := fun t => { t with blocked := false }) (fun _ => rfl) _)
  refine h.leaves hcur hpc hup (h.fibers.gotoBlock hcur hpc false _) hadv rfl rfl (fun e he => ?_)
    (.inr ⟨h.fresh_here hcur hpc rfl, .inr ⟨hP, ?_⟩⟩)
  · rw [List.mem_singleton.mp he]
    rfl
  · simp only [State.mark, Mark.mk.injEq] at hmark
    simp [State.mark, State.record, hmark]

/-- The signal to the offload thread, which works from then on. -/
theorem Inv.goWake {c i : ℕ} (h : Inv P s) (hcur : s.threads.cur = some t)
    (hpc : t.pc = .run (.site (.wake c i) w)) (hup : s.boot = .up) (hs : s.go w (.wake c i) = some s') :
    Inv P s' := by
  obtain rfl := Option.some.inj hs
  obtain ⟨hmark, ⟨hstate, hpcs, hwoken, hq⟩, hwork⟩ := h.here hcur hpc
  refine h.sets (.poll c i false) hcur hpc hup rfl nofun (.inl rfl) (.inl rfl) ?_
  have hbusy : Busy c { s.pool i with woken := (s.pool i).woken + 1 } (s.own i) (s.mark c) := by
    rw [hq, hmark]
    rcases hp : s.pool i with ⟨st, w, pc, n⟩
    rw [hp] at hstate hpcs hwoken hwork
    dsimp only at hstate hpcs hwoken hwork ⊢
    rw [hstate, hpcs, hwoken, hwork]
    exact .woken
  show Busy c _ _ _
  rw [setOff_pool]
  exact hbusy

/-- The loop of `b6b_offload` that waits for the signal. -/
theorem Inv.goPoll {c i : ℕ} {p : Bool} (h : Inv P s) (hcur : s.threads.cur = some t)
    (hpc : t.pc = .run (.site (.poll c i p) w)) (hup : s.boot = .up) (hs : s.go w (.poll c i p) = some s') :
    Inv P s' := by
  have hholds := h.here hcur hpc
  simp only [State.go] at hs
  split at hs
  · split at hs
    · obtain rfl := Option.some.inj hs
      exact h.yields hcur hpc hup (fun y => by cases y <;> trivial) (fun y => by cases y <;> rfl)
        (fun y => by cases y <;> rfl) (fun y => by cases y <;> exact nofun) hholds fun _ => hholds
    · obtain rfl := Option.some.inj hs
      exact h.goes hcur hpc hup rfl rfl nofun hholds
  · obtain rfl := Option.some.inj hs
    exact h.goes hcur hpc hup rfl rfl nofun hholds

theorem Inv.goLast {c : ℕ} {p : Bool} (h : Inv P s) (hcur : s.threads.cur = some t)
    (hpc : t.pc = .run (.site (.last c p) w)) (hup : s.boot = .up) (hs : s.go w (.last c p) = some s') :
    Inv P s' := by
  have hholds := h.here hcur hpc
  simp only [State.go] at hs
  split at hs
  · obtain rfl := Option.some.inj hs
    exact h.yields hcur hpc hup (fun _ => trivial) (fun _ => rfl) (fun _ => rfl) (fun _ => nofun) hholds
      fun _ => hholds
  · obtain rfl := Option.some.inj hs
    refine h.leaves hcur hpc hup (h.fibers.goto hcur hpc _) (h.goto_advance hcur hpc _) rfl rfl (fun e he => ?_)
      (.inr ⟨h.fresh_here hcur hpc rfl, .inl ?_⟩)
    · rw [List.mem_singleton.mp he]
      rfl
    · have hcount : s.mark c = ⟨1, 1, 0, 0⟩ := hholds
      simp only [State.mark, Mark.mk.injEq] at hcount
      simp [State.mark, State.record, hcount]

/-- **What the foreground fiber does in `b6b_offload`.** -/
theorem Inv.go (h : Inv P s) (hcur : s.threads.cur = some t) (hpc : t.pc = .run (.site k w)) (hup : s.boot = .up)
    (hown : ∀ c i p, k = .finish c i p → ∀ j ∈ s.queue i, j = s.me) (hs : s.go w k = some s') : Inv P s' := by
  have hholds := h.here hcur hpc
  cases k with
  | body => cases hs
  | direct c => exact h.goDirect hcur hpc hup hs
  | pick c i => exact h.goPick hcur hpc hup hs
  | giveUp c => exact h.goGiveUp hcur hpc hup hs
  | start c i =>
    obtain rfl := Option.some.inj hs
    obtain ⟨hmark, -, hrest⟩ := hholds
    refine h.sets (.prepare c i) hcur hpc hup rfl nofun (.inr ⟨rfl, rfl, hrest⟩) (.inl rfl) ⟨hmark, ?_⟩
    unfold State.Rests
    rw [setOff_pool]
    exact ⟨rfl, hrest.2⟩
  | prepare c i =>
    obtain rfl := Option.some.inj hs
    obtain ⟨hmark, hrest⟩ := hholds
    refine h.sets (.wake c i) hcur hpc hup rfl nofun (.inl rfl) (.inl rfl) ⟨hmark, ?_, by rw [setOff_pool]⟩
    unfold State.Rests
    rw [setOff_pool]
    exact hrest
  | wake c i => exact h.goWake hcur hpc hup hs
  | poll c i p => exact h.goPoll hcur hpc hup hs
  | check c i p =>
    obtain rfl := Option.some.inj hs
    split
    · exact h.goes hcur hpc hup rfl rfl nofun hholds
    · exact h.goes hcur hpc hup rfl rfl nofun hholds
  | unblock c i p =>
    obtain rfl := Option.some.inj hs
    have hadv : Advance s.threads ((s.threads.block false).goto (.site (.finish c i p) w)) (.site (.unblock c i p) w)
        (.site (.finish c i p) w) :=
      (h.goto_advance hcur hpc _).congr (points_set (g := fun t => { t with blocked := false }) (fun _ => rfl) _)
    exact h.moves hcur hpc hup (h.fibers.gotoBlock hcur hpc false _) hadv (.inl trivial) rfl rfl nofun hholds
  | finish c i p =>
    obtain ⟨s₁, hw, rfl⟩ := Option.map_eq_some_iff.mp hs
    exact h.waits hcur hpc hup (hown c i p rfl) hw
  | idle c i p =>
    obtain rfl := Option.some.inj hs
    obtain ⟨hmark, hrest⟩ := hholds
    refine h.sets (.last c p) hcur hpc hup rfl nofun (.inl rfl) (.inr ⟨rfl, ?_⟩) hmark
    unfold State.Rests
    rw [setOff_pool]
    exact ⟨rfl, hrest.2⟩
  | last c p => exact h.goLast hcur hpc hup hs

end Go

/-- The foreground fiber is in the same calls, and in none that is on its way. -/
theorem Inv.quiet {P : Prop} {s : State} {t : Thread Spot} (h : Inv P s) (hcur : s.threads.cur = some t)
    (hup : s.boot = .up) (hpc : ∀ k w, t.pc = .run (.site k w) → k.call = none) {T : Threads Spot}
    (hfibers : Fibers T) {p q : Spot} (hadv : Advance s.threads T p q) (hsame : q.inCalls = p.inCalls)
    (hroom : P → Room s.size q.sites) : Inv P { s with threads := T } := by
  obtain ⟨rest, hrest, hrest'⟩ := hadv.others
  have hperm : (inCalls T).Perm (inCalls s.threads) := hrest'.trans (hsame ▸ hrest.symm)
  have hparked := h.all_parked hcur hpc
  refine h.same hup hfibers hperm (fun k hk => hparked k (hperm.mem_iff.mp hk)) fun hP r hr => ?_
  rcases hadv.origin r hr with rfl | rfl | hold
  · exact hroom hP
  · exact ⟨nofun, trivial⟩
  · exact h.room hP r hold

theorem room_into {n : ℕ} {p : Spot} (h : Room n p.sites) (i : Option ℕ) : Room n (p.into i).sites := by
  cases p with
  | site k w => exact ⟨nofun, h⟩
  | past => exact h

/-- **What the foreground fiber does.** -/
theorem Inv.fiber {P : Prop} {s s' : State} {t : Thread Spot} {a : Act} (h : Inv P s)
    (hcur : s.threads.cur = some t) (hup : s.boot = .up)
    (hown : ∀ c i p w, a = .go → t.pc = .run (.site (.finish c i p) w) → ∀ j ∈ s.queue i, j = s.me)
    (hroom : P → ∀ w, a = .offload → t.pc = .run (.site .body w) → s.threaded = true →
      ((w.map (·.2)).filterMap At.owns).length < s.size)
    (hs : s.fiberStep t a = some s') : Inv P s' := by
  have hpoint : t.pc.point ∈ points s.threads := List.mem_map_of_mem (List.mem_of_find?_eq_some hcur)
  have hbody : ∀ {w}, t.pc = .run (.site .body w) → ∀ k w', t.pc = .run (.site k w') → k.call = none := by
    intro w hpc k w' hk
    obtain ⟨rfl, -⟩ := Spot.site.inj (Pc.run.inj (hpc.symm.trans hk))
    rfl
  unfold State.fiberStep at hs
  split at hs
  · rename_i hpc
    obtain rfl := Option.some.inj hs
    exact h.quiet hcur hup (hbody hpc) (h.fibers.start hcur hpc) (Advance.start h.fibers hcur) rfl
      fun hP => h.room hP _ hpoint
  · rename_i hpc
    obtain rfl := Option.some.inj hs
    exact h.yields hcur hpc hup (fun _ => trivial) (fun _ => rfl) (fun _ => rfl) (fun _ => nofun) trivial
      fun _ => trivial
  · rename_i hpc
    split at hs
    · rename_i hspawned
      obtain rfl := Option.some.inj hs
      exact h.quiet hcur hup (hbody hpc) (h.fibers.finish hcur hpc hspawned)
        ((h.goto_advance hcur hpc .past).congr (points_finish h.fibers hcur hspawned)) rfl fun _ => trivial
    · cases hs
  · rename_i w hpc
    obtain rfl := Option.some.inj hs
    exact h.enter hcur hpc hup fun hP => hroom hP w rfl hpc
  · rename_i k w hpc
    exact h.go hcur hpc hup (fun c i p hk => hown c i p w rfl (hk ▸ hpc)) hs
  -- `b6b_wait`: the fiber is at the same point, or in a destructor above it
  · rename_i p hpc
    obtain rfl := Option.some.inj hs
    refine h.quiet hcur hup (fun k w hk => by rw [hpc] at hk; cases hk) (h.fibers.wait hcur hpc)
      (Advance.place h.fibers.listed.distinct hcur _) ?_ fun hP => ?_
    · rw [hpc]
      rfl
    · rw [hpc] at hpoint
      exact h.room hP _ hpoint
  · rename_i p i hpc
    obtain rfl := Option.some.inj hs
    obtain ⟨q, hadv, hq⟩ := Advance.sweep h.fibers hcur hpc
    rw [hpc] at hpoint
    refine h.quiet hcur hup (fun k w hk => by rw [hpc] at hk; cases hk) (h.fibers.sweep hcur hpc) hadv ?_ fun hP => ?_
    · rcases hq with rfl | ⟨j, rfl⟩
      · rfl
      · exact inCalls_into p j
    · rcases hq with rfl | ⟨j, rfl⟩
      · exact h.room hP _ hpoint
      · exact room_into (h.room hP p hpoint) j
  · rename_i i k w hpc
    obtain rfl := Option.some.inj hs
    refine h.quiet hcur hup (hbody hpc) (h.fibers.back hcur hpc)
      (Advance.place h.fibers.listed.distinct hcur (.loop (.site k w) i)) ?_ fun hP => ?_
    · rw [hpc]
      rfl
    · rw [hpc] at hpoint
      exact (h.room hP _ hpoint).2
  · cases hs

end Offload

end B6b
