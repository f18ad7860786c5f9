/-
# The fibers of the interpreter and the scheduler

The interpreter of `B6b.Fibers` has its fibers in two lists around the foreground one, and its
`b6b_wait` takes all at once that are done. Here that is the scheduler of `B6b.Sched`: a
`b6b_wait` that nothing interrupts takes the same fibers, one after another (`waits`), and
what switches a fiber in the interpreter, and what starts and ends one, is an act of the
scheduler with such a `b6b_wait` behind it. Every act is one that `scheduler_safe`
allows.

Key definitions: `Waits`, `abs`, `Arrives`.
-/
import B6b.Moves
import B6b.Sched

namespace B6b

namespace Sched

variable {K : Type}

/-! ### A `b6b_wait` that is not interrupted -/

section Wait

variable {t : Threads Point}

theorem place_place (s : Threads K) (pc pc' : Pc K) : (s.place pc).place pc' = s.place pc' := by
  unfold Threads.place Threads.set
  dsimp only
  rw [List.map_map]
  refine congrArg (Threads.mk · s.fg s.next s.gone) (List.map_congr_left fun u _ => ?_)
  simp only [Function.comp_apply]
  by_cases hu : u.id = s.fg
  · rw [if_pos hu, if_pos hu, if_pos (show ({ u with pc := pc } : Thread K).id = s.fg from hu)]
  · rw [if_neg hu, if_neg hu]

theorem place_pop (s : Threads K) (pc : Pc K) (i : ℕ) (next : Option ℕ) :
    (s.place pc).pop i next = (s.pop i next).place pc := by
  unfold Threads.place Threads.set Threads.pop
  dsimp only
  rw [List.filter_map]
  have hsame : ((fun u : Thread K => decide (u.id ≠ i)) ∘
      fun u => if u.id = s.fg then { u with pc := pc } else u) = fun u => decide (u.id ≠ i) := by
    funext u
    simp only [Function.comp_apply]
    split <;> rfl
  rw [hsame]

/-- The loop reads the same, wherever the foreground fiber is. -/
theorem place_read (s : Threads K) (pc : Pc K) (i : ℕ) : (s.place pc).read i = s.read i := by
  have hid : ∀ u : Thread K, (if u.id = s.fg then { u with pc := pc } else u).id = u.id := by
    intro u
    split <;> rfl
  have hdone : ∀ u : Thread K, (if u.id = s.fg then { u with pc := pc } else u).done = u.done := by
    intro u
    split <;> rfl
  unfold Threads.read Threads.behind Threads.place Threads.set
  dsimp only
  rw [List.find?_map, List.dropWhile_map, ← List.map_tail, List.head?_map, Option.map_map]
  simp only [Function.comp_def, hid]
  cases s.list.find? (·.id = i) with
  | none => rfl
  | some u => simp only [Option.map_some, hdone]

theorem exists_place_cur (h : ∃ u ∈ t.list, u.id = t.fg) (pc : Pc Point) :
    ∃ c, (t.place pc).cur = some c ∧ c.pc = pc := by
  obtain ⟨c, -, -, hcur⟩ := cur_of_here h
  exact ⟨_, place_cur hcur pc, rfl⟩

/-- What is behind a fiber. -/
theorem behind_split {s : Threads K} (hd : s.ids.Nodup) {us vs : List (Thread K)} {u : Thread K}
    (hl : s.list = us ++ u :: vs) : s.behind u.id = vs.head?.map (·.id) := by
  have hne : ∀ v ∈ us, decide (v.id ≠ u.id) = true := by
    intro v hv
    unfold Threads.ids at hd
    rw [hl, List.map_append, List.map_cons] at hd
    exact decide_eq_true ((List.nodup_append.mp hd).2.2 v.id (List.mem_map_of_mem hv) u.id List.mem_cons_self)
  unfold Threads.behind
  rw [hl, List.dropWhile_append_of_pos hne, List.dropWhile_cons_of_neg (by simp), List.tail_cons]

/-- No loop waits for a destructor. -/
def Calm (s : Threads Point) : Prop := ∀ u ∈ s.list, u.id ≠ s.fg → u.pc.point.loops = []

theorem Calm.apart (h : Calm t) (i : Option ℕ) : Apart (t.place (.loop (.body []) i)) .sweep := by
  intro c _ k j _ _ _ u hu
  obtain ⟨v, hv, rfl⟩ := mem_set.mp hu
  by_cases hid : v.id = t.fg
  · rw [if_pos hid]
    simp [Pc.point, Point.loops]
  · rw [if_neg hid, h v hv hid]
    simp

/-- The acts of a `b6b_wait` of the foreground fiber that nothing interrupts. -/
def Waits (s : Threads Point) (s' : Threads Point) : Prop :=
  ∃ acts, (∀ a ∈ acts, a = .wait ∨ a = .sweep ∨ a = .back) ∧ Runs.EachStep step Apart s acts ∧
    Runs.run step s acts = some s'

theorem Waits.cons {s r s' : Threads Point} {a : Act} (ha : a = .wait ∨ a = .sweep ∨ a = .back)
    (hstep : step s a = some r) (hapart : Apart s a) (h : Waits r s') : Waits s s' := by
  obtain ⟨acts, hacts, hap, hrun⟩ := h
  refine ⟨a :: acts, List.forall_mem_cons.mpr ⟨ha, hacts⟩, ?_, ?_⟩
  · unfold Runs.EachStep
    rw [hstep]
    exact ⟨hapart, hap⟩
  · unfold Runs.run
    rw [hstep]
    exact hrun

section Turns

variable (hhere : ∃ u ∈ t.list, u.id = t.fg) (i : Option ℕ)
include hhere

/-- One turn of the loop. -/
theorem step_sweep : step (t.place (.loop (.body []) i)) .sweep =
    some ((t.place (.loop (.body []) i)).sweep Point.into (.body []) i) := by
  obtain ⟨c, hcur, hpc⟩ := exists_place_cur hhere (.loop (.body []) i)
  unfold step
  rw [hcur]
  simp only [hpc]

/-- The destructors of a fiber return to the loop. -/
theorem step_back : step (t.place (.run (.body [i]))) .back = some (t.place (.loop (.body []) i)) := by
  obtain ⟨c, hcur, hpc⟩ := exists_place_cur hhere (.run (.body [i]))
  unfold step
  rw [hcur]
  simp only [hpc]
  exact congrArg some (place_place t _ _)

end Turns

/-- The loop, from a fiber of the list on. -/
theorem waits_loop : ∀ (post pre : List (Thread Point)) (t : Threads Point), t.ids.Nodup →
    (∃ u ∈ t.list, u.id = t.fg) → Calm t → (∀ u ∈ t.list, u.id = t.fg → u.done = false) →
    t.list = pre ++ post → ∃ g,
      Waits (t.place (.loop (.body []) (post.head?.map (·.id))))
        (({ t with list := pre ++ post.filter (!·.done), gone := g } : Threads Point).place (.run (.body [])))
  | [], pre, t, _, hhere, hcalm, _, hl => by
    refine ⟨t.gone, .cons (.inr (.inl rfl)) (r := t.place (.run (.body []))) ?_ (hcalm.apart _) ?_⟩
    · exact (step_sweep hhere none).trans (congrArg some (place_place t _ _))
    · refine ⟨[], by simp, trivial, ?_⟩
      rw [List.filter_nil, ← hl]
      rfl
  | u :: post, pre, t, hd, hhere, hcalm, hfg, hl => by
    have hu : u ∈ t.list := hl ▸ List.mem_append_right _ List.mem_cons_self
    have hnodup : ((pre ++ u :: post).map (·.id)).Nodup := hl ▸ hd
    have hread : (t.place (.loop (.body []) (some u.id))).read u.id = (u.done, post.head?.map (·.id)) := by
      rw [place_read, read_mem hd hu, behind_split hd hl]
    have hstep := step_sweep hhere (some u.id)
    rw [Threads.sweep_some, hread] at hstep
    dsimp only at hstep
    by_cases hdone : u.done = true
    · rw [if_pos hdone, place_pop] at hstep
      have hne : u.id ≠ t.fg := fun he => by
        rw [hfg u hu he] at hdone
        cases hdone
      have hpop : (t.pop u.id (post.head?.map (·.id))).list = pre ++ post := by
        unfold Threads.pop
        dsimp only
        rw [hl, filter_split hnodup]
      have hpopped : (t.pop u.id (post.head?.map (·.id))).ids.Nodup := hd.sublist (List.filter_sublist.map _)
      have hhere' : ∃ v ∈ (t.pop u.id (post.head?.map (·.id))).list, v.id = t.fg := by
        obtain ⟨v, hv, hid⟩ := hhere
        exact ⟨v, List.mem_filter.mpr ⟨hv, decide_eq_true (hid ▸ hne.symm)⟩, hid⟩
      obtain ⟨g, hg⟩ := waits_loop post pre _ hpopped hhere'
        (fun v hv => hcalm v (List.mem_of_mem_filter hv)) (fun v hv => hfg v (List.mem_of_mem_filter hv)) hpop
      refine ⟨g, .cons (.inr (.inl rfl)) hstep (hcalm.apart _) (.cons (.inr (.inr rfl))
        (r := (t.pop u.id (post.head?.map (·.id))).place (.loop (.body []) (post.head?.map (·.id)))) ?_ ?_ ?_)⟩
      · unfold Threads.goto
        rw [place_place]
        exact step_back hhere' _
      · exact fun _ _ _ _ ha => by cases ha
      · rw [List.filter_cons_of_neg (by simp [hdone])]
        exact hg
    · rw [if_neg hdone, place_place] at hstep
      obtain ⟨g, hg⟩ := waits_loop post (pre ++ [u]) t hd hhere hcalm hfg (by simpa using hl)
      refine ⟨g, .cons (.inr (.inl rfl)) hstep (hcalm.apart _) ?_⟩
      rw [List.filter_cons_of_pos (by simpa using hdone)]
      simpa using hg

/-- **A `b6b_wait` that is not interrupted** takes all the fibers out of the list that are done. -/
theorem waits (hd : t.ids.Nodup) (hhere : ∃ u ∈ t.list, u.id = t.fg) (hcalm : Calm t)
    (hfg : ∀ u ∈ t.list, u.id = t.fg → u.done = false) : ∃ g, Waits (t.place (.wait (.body [])))
      (({ t with list := t.list.filter (!·.done), gone := g } : Threads Point).place (.run (.body []))) := by
  obtain ⟨g, hg⟩ := waits_loop t.list [] t hd hhere hcalm hfg rfl
  obtain ⟨c, hcur, hpc⟩ := exists_place_cur hhere (.wait (.body []))
  refine ⟨g, .cons (.inl rfl) (r := t.place (.loop (.body []) (t.list.head?.map (·.id)))) ?_ ?_ hg⟩
  · have hhead : (t.place (.wait (.body []))).list.head?.map (·.id) = t.list.head?.map (·.id) := by
      unfold Threads.place Threads.set
      dsimp only
      rw [List.head?_map, Option.map_map]
      refine congrArg (Option.map · _) (funext fun u => ?_)
      simp only [Function.comp_apply]
      split <;> rfl
    unfold step
    rw [hcur]
    simp only [hpc]
    unfold Threads.wait
    rw [hhead, place_place]
  · exact fun _ _ _ _ ha => by cases ha

end Wait

/-! ### The fibers of the interpreter -/

variable {S : Type}

/-- The point of a fiber of the interpreter. -/
def point (t : Fiber S) : Point := if t.done then .past else .body []

/-- A fiber of the interpreter, to the scheduler. -/
def absFiber (t : Fiber S) (pc : Pc Point) : Thread Point :=
  ⟨t.id, t.bg, t.fg, t.done, false, t.fn.isSome, pc⟩

/-- One that is not in the foreground. -/
def absAway (t : Fiber S) : Thread Point :=
  absFiber t (if t.isNew then .new (point t) else .swapped (point t))

/-- The fibers of the interpreter, to the scheduler, when the foreground one is at `pc`. -/
def absAt (σ : Interp S) (pc : Pc Point) (gone : List (ℕ × Option ℕ)) : Threads Point :=
  ⟨σ.before.map absAway ++ absFiber σ.fg pc :: σ.after.map absAway, σ.fg.id, σ.nextId, gone⟩

/-- The fibers of the interpreter, to the scheduler. -/
def abs (σ : Interp S) (gone : List (ℕ × Option ℕ)) : Threads Point := absAt σ (.run (point σ.fg)) gone

section Abs

variable {σ : Interp S} {gone : List (ℕ × Option ℕ)}

/-- The others have other addresses than the fiber in the middle. -/
theorem others_ne {us vs : List (Fiber S)} {t : Fiber S} (hd : ((us ++ t :: vs).map (·.id)).Nodup) :
    ∀ u ∈ us ++ vs, u.id ≠ t.id := by
  rw [List.map_append, List.map_cons] at hd
  have ht : t.id ∉ us.map (·.id) ++ vs.map (·.id) := (List.nodup_cons.mp (List.nodup_middle.mp hd)).1
  rw [← List.map_append] at ht
  exact fun u hu he => ht (List.mem_map.mpr ⟨u, hu, he⟩)

theorem away_ne (hd : σ.ids.Nodup) {t : Fiber S} (ht : t ∈ σ.before ++ σ.after) : t.id ≠ σ.fg.id :=
  others_ne hd t ht

theorem abs_before (hd : σ.ids.Nodup) (pc : Pc Point) : (absAt σ pc gone).before = σ.before.map absAway := by
  unfold Threads.before absAt
  rw [List.takeWhile_append_of_pos]
  · rw [List.takeWhile_cons_of_neg (by simp [absFiber]), List.append_nil]
  · intro t ht
    obtain ⟨u, hu, rfl⟩ := List.mem_map.mp ht
    exact decide_eq_true (away_ne hd (List.mem_append_left _ hu))

theorem abs_after (hd : σ.ids.Nodup) (pc : Pc Point) : (absAt σ pc gone).after = σ.after.map absAway := by
  unfold Threads.after absAt
  rw [List.dropWhile_append_of_pos]
  · rw [List.dropWhile_cons_of_neg (by simp [absFiber]), List.tail_cons]
  · intro t ht
    obtain ⟨u, hu, rfl⟩ := List.mem_map.mp ht
    exact decide_eq_true (away_ne hd (List.mem_append_left _ hu))

theorem find_away (ts : List (Fiber S)) :
    (ts.map absAway).find? (·.pending) = (ts.find? Fiber.pending).map absAway := by
  rw [List.find?_map]
  rfl

/-- Both look for the same fiber. -/
theorem abs_target (hd : σ.ids.Nodup) (pc : Pc Point) : (absAt σ pc gone).target = σ.next.map absAway := by
  unfold Threads.target
  rw [abs_before hd, abs_after hd, find_away, find_away, ← Option.map_or, Interp.next, List.find?_append]

/-- Only the fiber in the middle has the address. -/
theorem find_middle {i : ℕ} {us vs : List (Fiber S)} {x : Thread Point} (hx : x.id = i)
    (hu : ∀ u ∈ us, u.id ≠ i) :
    (us.map absAway ++ x :: vs.map absAway).find? (·.id = i) = some x := by
  rw [List.find?_append, List.find?_eq_none.mpr, Option.none_or, List.find?_cons_of_pos (by simpa using hx)]
  intro t ht
  obtain ⟨u, hmem, rfl⟩ := List.mem_map.mp ht
  have hne : (absAway u).id ≠ i := hu u hmem
  simpa using hne

theorem map_away {g : Thread Point → Thread Point} {us : List (Fiber S)}
    (hg : ∀ u ∈ us, g (absAway u) = absAway u) : (us.map absAway).map g = us.map absAway := by
  rw [List.map_map]
  exact List.map_congr_left hg

theorem filter_away (us : List (Fiber S)) :
    (us.map absAway).filter (!·.done) = (us.filter (!·.done)).map absAway := by
  rw [List.filter_map]
  rfl

theorem abs_cur (hd : σ.ids.Nodup) (pc : Pc Point) : (absAt σ pc gone).cur = some (absFiber σ.fg pc) :=
  find_middle rfl fun _ hu => away_ne hd (List.mem_append_left _ hu)

/-- A change of the foreground fiber. -/
theorem abs_set (hd : σ.ids.Nodup) (pc : Pc Point) (g : Thread Point → Thread Point) :
    (absAt σ pc gone).set σ.fg.id g =
      ⟨σ.before.map absAway ++ g (absFiber σ.fg pc) :: σ.after.map absAway, σ.fg.id, σ.nextId, gone⟩ := by
  unfold Threads.set absAt
  dsimp only
  rw [List.map_append, List.map_cons, map_away, map_away]
  · rw [if_pos (show (absFiber σ.fg pc).id = σ.fg.id from rfl)]
  · exact fun u hu => if_neg (away_ne hd (List.mem_append_right _ hu))
  · exact fun u hu => if_neg (away_ne hd (List.mem_append_left _ hu))

variable (gone) in
theorem abs_place (hd : σ.ids.Nodup) (pc pc' : Pc Point) :
    (absAt σ pc gone).place pc' = absAt σ pc' gone := abs_set hd pc _

theorem abs_ids (pc : Pc Point) : (absAt σ pc gone).ids = σ.ids := by
  unfold Threads.ids absAt Interp.ids
  simp only [List.map_append, List.map_cons, List.map_map]
  rfl

theorem point_loops_nil (t : Fiber S) : (point t).loops = [] := by
  unfold point
  split <;> rfl

/-- It is where it begins, or in front of its `b6b_wait`, which nothing interrupts. -/
def Arrives (s : Threads Point) (σ : Interp S) : Prop := ∃ gone, Waits s (abs σ gone)

theorem arrives_abs : Arrives (abs σ gone) σ := ⟨gone, [], by simp, trivial, rfl⟩

variable (gone) in
/-- The `b6b_wait` of the foreground fiber. -/
theorem abs_wait (hd : σ.ids.Nodup) (hf : σ.fg.done = false) :
    Arrives (absAt σ (.wait (point σ.fg)) gone) σ.wait := by
  have hpoint : point σ.fg = .body [] := if_neg (by simp [hf])
  have hwaitids : σ.wait.ids.Nodup := by
    refine hd.sublist ?_
    unfold Interp.ids Interp.wait
    exact ((List.filter_sublist).append (List.Sublist.cons_cons _ List.filter_sublist)).map _
  obtain ⟨g, hg⟩ := waits (t := abs σ gone) (by rw [abs, abs_ids]; exact hd)
    ⟨_, List.mem_append_right _ List.mem_cons_self, rfl⟩
    (fun u hu hne => by
      have haway : ∀ v ∈ σ.before ++ σ.after, (absAway v).pc.point.loops = [] := by
        intro v _
        unfold absAway
        split <;> exact point_loops_nil v
      rcases List.mem_append.mp hu with hb | ha
      · obtain ⟨v, hv, rfl⟩ := List.mem_map.mp hb
        exact haway v (List.mem_append_left _ hv)
      · rcases List.mem_cons.mp ha with rfl | ha
        · exact absurd rfl hne
        · obtain ⟨v, hv, rfl⟩ := List.mem_map.mp ha
          exact haway v (List.mem_append_right _ hv))
    (fun u hu hid => by
      rcases List.mem_append.mp hu with hb | ha
      · obtain ⟨v, hv, rfl⟩ := List.mem_map.mp hb
        exact absurd hid (away_ne hd (List.mem_append_left _ hv))
      · rcases List.mem_cons.mp ha with rfl | ha
        · exact hf
        · obtain ⟨v, hv, rfl⟩ := List.mem_map.mp ha
          exact absurd hid (away_ne hd (List.mem_append_right _ hv)))
  refine ⟨g, ?_⟩
  have hfilter : (({ abs σ gone with list := (abs σ gone).list.filter (!·.done), gone := g } : Threads Point)) =
      absAt σ.wait (.run (point σ.fg)) g := by
    unfold abs absAt
    dsimp only
    rw [List.filter_append, List.filter_cons_of_pos (by simpa [absFiber] using hf), filter_away, filter_away]
    rfl
  rw [hfilter, abs_place _ hwaitids, abs, abs_place _ hd] at hg
  rw [hpoint]
  unfold abs
  rwa [show point σ.wait.fg = .body [] from hpoint]

/-- The fiber that is switched to, among the others. -/
theorem arrives {before after : List (Fiber S)} {t : Fiber S} (hd : ((before ++ t :: after).map (·.id)).Nodup)
    (ht : t.done = false) : Arrives
      ⟨before.map absAway ++ (absAway t).swapIn.resume :: after.map absAway, t.id, σ.nextId, gone⟩
      (σ.swapTo before t after) := by
  let σ₁ : Interp S := { σ with qstep := 0, before := before, fg := t.swapIn, after := after }
  have hd₁ : σ₁.ids.Nodup := by
    have hids : σ₁.ids = (before ++ t :: after).map (·.id) := by simp [Interp.ids, σ₁, Fiber.swapIn]
    rw [hids]
    exact hd
  by_cases hnew : t.isNew
  · have hin : (absAway t).swapIn.resume = absFiber t.swapIn (.run (point t)) := by
      unfold absAway Thread.resume Thread.swapIn absFiber
      simp only [hnew, if_true]
      rfl
    rw [hin]
    unfold Interp.swapTo
    rw [if_pos hnew]
    exact arrives_abs (σ := σ₁)
  · have hin : (absAway t).swapIn.resume = absFiber t.swapIn (.wait (point t)) := by
      unfold absAway Thread.resume Thread.swapIn absFiber
      simp only [hnew]
      rfl
    rw [hin]
    unfold Interp.swapTo
    rw [if_neg hnew]
    exact abs_wait (σ := σ₁) _ hd₁ ht

/-- The fiber that is switched to. -/
theorem switched_target {t : Fiber S} {i : ℕ} {k : Point} :
    switched i t.id k (absAway t) = (absAway t).swapIn.resume := if_pos rfl

/-- The fiber that is left. -/
theorem switched_foreground {c : Ctl S} {t : Fiber S} (hc : c ≠ .begin) (hne : σ.fg.id ≠ t.id) (pc : Pc Point) :
    switched σ.fg.id t.id (point σ.fg) (absFiber σ.fg pc) = absAway (σ.goto c).fg.swapOut := by
  unfold switched
  rw [if_neg (show (absFiber σ.fg pc).id ≠ t.id from hne), if_pos (show (absFiber σ.fg pc).id = σ.fg.id from rfl)]
  have hnew : (σ.goto c).fg.swapOut.isNew = false := by
    unfold Fiber.isNew
    split
    · exact absurd ‹_› hc
    · rfl
  unfold absAway
  rw [if_neg (by rw [hnew]; simp)]
  rfl

/-- The others. -/
theorem switched_others (hd : σ.ids.Nodup) {t : Fiber S} {k : Point} {us : List (Fiber S)}
    (hus : ∀ u ∈ us, u ∈ σ.before ++ σ.after ∧ u.id ≠ t.id) :
    (us.map absAway).map (switched σ.fg.id t.id k) = us.map absAway := by
  refine map_away fun u hu => ?_
  unfold switched
  rw [if_neg (show (absAway u).id ≠ t.id from (hus u hu).2),
    if_neg (show (absAway u).id ≠ σ.fg.id from away_ne hd (hus u hu).1)]

/-- The switch to the next fiber, with the others around it as they are then. -/
theorem abs_swapTo (hd : σ.ids.Nodup) (pc : Pc Point) {c : Ctl S} {before after : List (Fiber S)} {t : Fiber S}
    (hnext : (σ.goto c).next = some t) (hids : ((before ++ t :: after).map (·.id)).Nodup)
    (hlist : (absAt σ pc gone).list.map (switched σ.fg.id t.id (point σ.fg)) =
      before.map absAway ++ (absAway t).swapIn.resume :: after.map absAway) :
    ∃ u, (absAt σ pc gone).target = some u ∧ u.id ≠ σ.fg.id ∧
      Arrives ((absAt σ pc gone).swap u (point σ.fg)) ((σ.goto c).swapTo before t after) := by
  have hne : (absAway t).id ≠ σ.fg.id := away_ne hd (Interp.next_mem hnext)
  have hdone : t.done = false := by
    have hpending := List.find?_some hnext
    unfold Fiber.pending at hpending
    simpa using (Bool.and_eq_true_iff.mp hpending).2
  refine ⟨absAway t, ?_, hne, ?_⟩
  · rw [abs_target hd]
    exact congrArg (Option.map absAway) hnext
  · have heq : (absAt σ pc gone).swap (absAway t) (point σ.fg) =
        ⟨before.map absAway ++ (absAway t).swapIn.resume :: after.map absAway, t.id, σ.nextId, gone⟩ := by
      rw [← hlist]
      show (⟨((absAt σ pc gone).swap (absAway t) _).list, _, _, _⟩ : Threads Point) = _
      rw [swap_list _ hne]
      rfl
    rw [heq]
    exact arrives (σ := σ.goto c) hids hdone

variable (gone) in
/-- **The switch of the interpreter** is that of the scheduler. -/
theorem abs_swap (hd : σ.ids.Nodup) (pc : Pc Point) {c : Ctl S} (hc : c ≠ .begin) :
    match (σ.goto c).swap with
    | some σ' => ∃ t, (absAt σ pc gone).target = some t ∧ t.id ≠ σ.fg.id ∧
        Arrives ((absAt σ pc gone).swap t (point σ.fg)) σ'
    | none => (absAt σ pc gone).target = none := by
  have hnodup := hd
  unfold Interp.ids at hnodup
  rcases hs : (σ.goto c).swap with _ | σ' <;> dsimp only
  · rw [abs_target hd]
    exact congrArg (Option.map absAway) (Interp.swap_none hs)
  · unfold Interp.swap at hs
    rcases ha : Interp.splitPending (σ.goto c).after with _ | ⟨as, t, bs⟩ <;> rw [ha] at hs <;> dsimp only at hs
    · rcases hb : Interp.splitPending (σ.goto c).before with _ | ⟨as, t, bs⟩ <;> rw [hb] at hs <;>
        dsimp only at hs
      · cases hs
      · obtain rfl := Option.some.inj hs
        obtain ⟨hsplit, hfind⟩ := Interp.splitPending_some hb
        have hσ : σ.before = as ++ t :: bs := hsplit
        have hnext : (σ.goto c).next = some t := by
          rw [Interp.next, List.find?_append, Interp.splitPending_none ha, hfind]
          rfl
        have hids : ((as ++ t :: (bs ++ (σ.goto c).fg.swapOut :: σ.after)).map (·.id)).Nodup := by
          rw [hσ] at hnodup
          simpa [Interp.goto, Fiber.swapOut] using hnodup
        have hother := others_ne hids
        refine abs_swapTo hd pc hnext hids ?_
        unfold absAt
        dsimp only
        rw [hσ]
        simp only [List.map_append, List.map_cons]
        rw [switched_others hd fun u hu => ⟨?_, hother u ?_⟩,
          switched_others hd fun u hu => ⟨?_, hother u ?_⟩,
          switched_others hd fun u hu => ⟨?_, hother u ?_⟩, switched_target,
          switched_foreground hc (away_ne hd (Interp.next_mem hnext)).symm]
        · simp only [List.append_assoc, List.cons_append]
          rfl
        all_goals simp [hσ, hu]
    · obtain rfl := Option.some.inj hs
      obtain ⟨hsplit, hfind⟩ := Interp.splitPending_some ha
      have hσ : σ.after = as ++ t :: bs := hsplit
      have hnext : (σ.goto c).next = some t := by
        rw [Interp.next, List.find?_append, hfind]
        rfl
      have hids : ((σ.before ++ (σ.goto c).fg.swapOut :: as ++ t :: bs).map (·.id)).Nodup := by
        rw [hσ] at hnodup
        simpa [Interp.goto, Fiber.swapOut] using hnodup
      have hother := others_ne hids
      refine abs_swapTo hd pc hnext hids ?_
      unfold absAt
      dsimp only
      rw [hσ]
      simp only [List.map_append, List.map_cons]
      rw [switched_others hd fun u hu => ⟨?_, hother u ?_⟩,
        switched_others hd fun u hu => ⟨?_, hother u ?_⟩,
        switched_others hd fun u hu => ⟨?_, hother u ?_⟩, switched_target,
        switched_foreground hc (away_ne hd (Interp.next_mem hnext)).symm]
      · simp only [List.append_assoc, List.cons_append]
        rfl
      all_goals simp [hσ, hu]

/-- **A `b6b_yield` of the interpreter** is one of the scheduler, with the `b6b_wait` of the fiber
that goes on if it is not new. -/
theorem abs_yield (hd : σ.ids.Nodup) (hf : σ.fg.done = false) {c : Bool → Ctl S} (hc : ∀ y, c y ≠ .begin) :
    ∃ s, step (abs σ gone) .yield = some s ∧ Arrives s (σ.yield c) := by
  have hpoint : point σ.fg = .body [] := if_neg (by simp [hf])
  have hstep : step (abs σ gone) .yield = some ((abs σ gone).yield fun _ => .body []) := by
    unfold step abs
    rw [abs_cur hd, hpoint]
    rfl
  refine ⟨_, hstep, ?_⟩
  have hswap := abs_swap gone hd (.run (point σ.fg)) (hc true)
  unfold Threads.yield Interp.yield
  rcases hs : (σ.goto (c true)).swap with _ | σ' <;> rw [hs] at hswap <;> dsimp only at hswap ⊢
  · have hids : (σ.goto (c false)).ids.Nodup := (Interp.goto_ids σ _).symm ▸ hd
    have halone := abs_wait gone hids hf
    rw [abs, hswap]
    have hplace := abs_place gone hd (.run (point σ.fg)) (.wait (point σ.fg))
    rw [hpoint] at hplace
    rw [show point (σ.goto (c false)).fg = .body [] from hpoint] at halone
    rw [hpoint]
    show Arrives ((absAt σ (.run (.body [])) gone).place (.wait (.body []))) _
    rw [hplace]
    exact halone
  · obtain ⟨t, htarget, -, harrives⟩ := hswap
    rw [abs, htarget]
    rwa [hpoint] at harrives ⊢

theorem abs_start (hd : σ.ids.Nodup) (fn : Addr) : abs (σ.start fn) gone = (abs σ gone).start (.body []) := by
  have hinsert : ∀ {us : List (Fiber S)} {x y : Thread Point} {ts : List (Thread Point)}, x.id = σ.fg.id →
      (∀ u ∈ us, u.id ≠ σ.fg.id) →
      insertAfter σ.fg.id y (us.map absAway ++ x :: ts) = us.map absAway ++ x :: y :: ts := by
    intro us x y ts hx hus
    induction us with
    | nil => exact if_pos hx
    | cons u us ih =>
      have hu : (absAway u).id ≠ σ.fg.id := hus u (List.mem_cons_self ..)
      refine (if_neg hu).trans (congrArg _ (ih fun v hv => hus v (List.mem_cons_of_mem _ hv)))
  unfold Threads.start abs absAt
  dsimp only
  rw [hinsert rfl fun u hu => away_ne hd (List.mem_append_left _ hu)]
  rfl

/-- **The end of a fiber** is that of the scheduler. -/
theorem abs_threadEnd {σ' : Interp S} (hd : σ.ids.Nodup) (hf : σ.fg.done = false)
    (hs : σ.fg.fn.isSome = true) (h : σ.threadEnd = some σ') :
    ∃ s, step (abs σ gone) .finish = some s ∧ Arrives s σ' := by
  let σ₁ : Interp S := { σ with fg := { σ.fg with done := true } }
  have hfinish : absAt σ₁ (.run (point σ.fg)) gone = (abs σ gone).finish :=
    (abs_set hd _ fun t => { t with done := true }).symm
  have hstep : step (abs σ gone) .finish = some ((abs σ gone).finish.yield fun _ => .past) := by
    unfold step abs
    rw [abs_cur hd, show point σ.fg = .body [] from if_neg (by simp [hf])]
    exact if_pos hs
  refine ⟨_, hstep, ?_⟩
  have hd₁ : σ₁.ids.Nodup := by simpa [Interp.ids, σ₁] using hd
  have hswap := abs_swap gone hd₁ (.run (point σ.fg)) (c := .dead) (by simp)
  unfold Interp.threadEnd at h
  rw [h, hfinish] at hswap
  obtain ⟨t, htarget, -, harrives⟩ := hswap
  unfold Threads.yield
  rw [htarget]
  exact harrives

end Abs

end Sched

end B6b
