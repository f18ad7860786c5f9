/-
# Round robin

`b6b_yield` looks for a fiber to switch to behind the foreground one, on to the end of the list and on
from its start: around the list (`target_eq`). A fiber that is done leaves the list in a
`b6b_wait`, and that changes the order of the others as little as a switch does. So of two
fibers that stay pending each is switched to once between two switches to the other:
`round_robin`.

Key definitions: `Stays`, `activations`.
-/
import B6b.Lib.Ring
import B6b.Sched

namespace B6b

namespace Sched

variable {K : Type}

/-- The other fibers, around the list. -/
def Threads.around (s : Threads K) : List (Thread K) := s.after ++ s.before

/-- The fiber `i` is pending, or in the foreground. -/
def Stays (i : ℕ) (s : Threads K) : Prop := ∃ t ∈ s.list, t.id = i ∧ (i = s.fg ∨ t.pending = true)

/-- The fibers that are switched to. -/
def activations : Threads Point → List Act → List ℕ
  | _, [] => []
  | s, a :: as =>
    match step s a with
    | some s' => if s'.fg = s.fg then activations s' as else s'.fg :: activations s' as
    | none => []

/-! ### One `b6b_yield` -/

section Yield

variable {s : Threads K}

/-- The two scans are one, around the list. -/
theorem target_eq (s : Threads K) : s.target = s.around.find? (·.pending) := List.find?_append.symm

theorem around_split {us vs : List (Thread K)} {c : Thread K} (hd : s.ids.Nodup) (hl : s.list = us ++ c :: vs)
    (hc : c.id = s.fg) : s.around = vs ++ us := by
  have hne : ∀ u ∈ us, decide (u.id ≠ s.fg) = true := by
    intro u hu
    unfold Threads.ids at hd
    rw [hl, List.map_append, List.map_cons] at hd
    have hdis := (List.nodup_append.mp hd).2.2 u.id (List.mem_map_of_mem hu) c.id List.mem_cons_self
    exact decide_eq_true (hc ▸ hdis)
  unfold Threads.around Threads.after Threads.before
  rw [hl, List.dropWhile_append_of_pos hne, List.takeWhile_append_of_pos hne,
    List.dropWhile_cons_of_neg (by simp [hc]), List.takeWhile_cons_of_neg (by simp [hc]), List.append_nil,
    List.tail_cons]

theorem around_ids (s : Threads K) : s.around.map (·.id) = Ring.behind s.fg s.ids := by
  have hdrop : s.ids.dropWhile (· ≠ s.fg) = (s.list.dropWhile (·.id ≠ s.fg)).map (·.id) :=
    List.dropWhile_map ..
  have htake : s.ids.takeWhile (· ≠ s.fg) = (s.list.takeWhile (·.id ≠ s.fg)).map (·.id) :=
    List.takeWhile_map ..
  unfold Ring.behind
  rw [hdrop, htake, ← List.map_tail, ← List.map_append]
  rfl

/-- What `b6b_yield` does with the order of the fibers: it switches to the first one around the list
that is pending, or to none. -/
theorem yield_turn (s : Threads K) (k : Bool → K) : (s.yield k).ids = s.ids ∧
    ((s.yield k).fg = s.fg ∧ (∀ u ∈ s.around, u.pending = false) ∨
      ∃ us t vs, s.around = us ++ t :: vs ∧ (∀ u ∈ us, u.pending = false) ∧
        (s.yield k).fg = t.id) := by
  unfold Threads.yield
  rcases ht : s.target with _ | t
  · rw [target_eq] at ht
    exact ⟨ids_set fun _ => rfl, .inl ⟨rfl, fun u hu => by simpa using List.find?_eq_none.mp ht u hu⟩⟩
  · rw [target_eq] at ht
    obtain ⟨-, us, vs, hsplit, hus⟩ := List.find?_eq_some_iff_append.mp ht
    exact ⟨ids_swap t _, .inr ⟨us, t, vs, hsplit, fun u hu => by simpa using hus u hu, rfl⟩⟩

/-- What `b6b_yield` returns to the fiber that has called it. -/
theorem yield_returns {us vs : List (Thread K)} {c : Thread K} (hd : s.ids.Nodup)
    (hl : s.list = us ++ c :: vs) (hc : c.id = s.fg) (k : Bool → K) : ∃ t ∈ (s.yield k).list, t.id = s.fg ∧
      t.pc.point = k (decide (∃ u ∈ vs ++ us, u.pending = true)) := by
  have hmem : c ∈ s.list := hl ▸ List.mem_append_right _ List.mem_cons_self
  have hidc : s.fg ∈ s.ids := hc ▸ List.mem_map_of_mem hmem
  have haround := around_split hd hl hc
  unfold Threads.yield
  rcases ht : s.target with _ | t
  · rw [target_eq, haround] at ht
    have hnone : ¬ ∃ u ∈ vs ++ us, u.pending = true := by
      rintro ⟨u, hu, hpend⟩
      exact List.find?_eq_none.mp ht u hu hpend
    refine ⟨{ c with pc := .wait (k false) }, mem_set.mpr ⟨c, hmem, (if_pos hc).symm⟩, hc, ?_⟩
    rw [decide_eq_false hnone]
    rfl
  · rw [target_eq, haround] at ht
    have hin : t ∈ vs ++ us := List.mem_of_find?_eq_some ht
    have hsome : ∃ u ∈ vs ++ us, u.pending = true := ⟨t, hin, List.find?_some ht⟩
    have hne : t.id ≠ s.fg := by
      refine ((Ring.mem_behind hd hidc).mp ?_).2
      rw [← around_ids, haround]
      exact List.mem_map_of_mem hin
    refine ⟨switched s.fg t.id (k true) c, ?_, (switched_id _ _ _ _).trans hc, ?_⟩
    · dsimp only
      rw [swap_list _ hne]
      exact List.mem_map_of_mem hmem
    · unfold switched
      rw [if_neg fun he => hne (he.symm.trans hc), if_pos hc, decide_eq_true hsome]
      rfl

end Yield

/-! ### One act -/

/-- What an act does with the order of the fibers. -/
inductive Turn (s s' : Threads K) : Prop
  /-- No switch; fibers may leave. -/
  | stays (hfg : s'.fg = s.fg) (hsub : s'.ids.Sublist s.ids)
  /-- A switch, past fibers that are not pending. -/
  | turns (us vs : List ℕ) (hids : s'.ids = s.ids) (hfg : s'.fg ≠ s.fg)
      (hb : Ring.behind s.fg s.ids = us ++ s'.fg :: vs) (hus : ∀ i ∈ us, ¬ Stays i s)

/-- The fibers behind the foreground one that are passed over do not stay. -/
theorem not_stays {s : Threads K} (hd : s.ids.Nodup) (hc : s.fg ∈ s.ids) {us vs : List (Thread K)}
    (hsplit : s.around = us ++ vs) (hus : ∀ u ∈ us, u.pending = false) :
    ∀ i ∈ us.map (·.id), ¬ Stays i s := by
  rintro i hi ⟨t, ht, htid, hor⟩
  have hmem : i ∈ Ring.behind s.fg s.ids := by
    rw [← around_ids, hsplit, List.map_append]
    exact List.mem_append_left _ hi
  obtain ⟨u, hu, rfl⟩ := List.mem_map.mp hi
  have hus' : u ∈ s.list := by
    have hin : u ∈ s.around := hsplit ▸ List.mem_append_left _ hu
    rcases List.mem_append.mp hin with ha | hb
    · exact (List.dropWhile_sublist _).subset (List.mem_of_mem_tail ha)
    · exact (List.takeWhile_sublist _).subset hb
  obtain rfl : t = u := List.inj_on_of_nodup_map hd ht hus' htid
  rcases hor with hfg | hpend
  · exact ((Ring.mem_behind hd hc).mp hmem).2 hfg
  · rw [hus t hu] at hpend
    cases hpend

/-- A `b6b_yield` in a state that differs from `s` only in what the foreground fiber has. -/
theorem turn_yield {s s₁ : Threads K} (hd : s.ids.Nodup) (hc : s.fg ∈ s.ids) (hids : s₁.ids = s.ids)
    (hfg : s₁.fg = s.fg) (hstays : ∀ i, i ≠ s.fg → Stays i s → Stays i s₁) (k : Bool → K) :
    Turn s (s₁.yield k) := by
  obtain ⟨hids', hor⟩ := yield_turn s₁ k
  rcases hor with ⟨hstay, -⟩ | ⟨us, t, vs, hsplit, hus, ht⟩
  · exact .stays (hstay.trans hfg) (by rw [hids', hids])
  · have hb : Ring.behind s.fg s.ids = us.map (·.id) ++ (s₁.yield k).fg :: vs.map (·.id) := by
      rw [← hids, ← hfg, ← around_ids, hsplit, ht, List.map_append, List.map_cons]
    have hnot := not_stays (hids.symm ▸ hd) (hids.symm ▸ hfg.symm ▸ hc) hsplit hus
    have hne : ∀ i ∈ us.map (·.id) ++ (s₁.yield k).fg :: vs.map (·.id), i ≠ s.fg := fun i hi =>
      ((Ring.mem_behind hd hc).mp (hb ▸ hi)).2
    have hfg' : (s₁.yield k).fg ≠ s.fg := hne _ (List.mem_append_right _ List.mem_cons_self)
    refine .turns _ _ (hids'.trans hids) hfg' hb fun i hi hs => ?_
    exact hnot i hi (hstays i (hne i (List.mem_append_left _ hi)) hs)

/-- **What an act does with the order**, if it spawns no fiber. -/
theorem step_turn {s s' : Threads Point} {a : Act} (hd : s.ids.Nodup) (ha : a ≠ .spawn)
    (hstep : step s a = some s') : Turn s s' := by
  obtain ⟨t, ht, hid, -, hdoes⟩ := step_does hstep
  have hc : s.fg ∈ s.ids := hid ▸ List.mem_map_of_mem ht
  have hplace : ∀ (s : Threads Point) (pc : Pc Point), (s.place pc).ids = s.ids := fun _ _ => ids_set fun _ => rfl
  have hsame : ∀ {s' : Threads Point}, s'.fg = s.fg → s'.ids = s.ids → Turn s s' := fun hfg hids =>
    .stays hfg (by rw [hids])
  cases hdoes with
  | spawn => exact absurd rfl ha
  | block => exact hsame rfl (ids_set fun _ => rfl)
  | yield => exact turn_yield hd hc rfl rfl (fun _ _ => id) _
  | finish =>
    have hids : s.finish.ids = s.ids := ids_set fun _ => rfl
    refine turn_yield hd hc hids rfl (fun i hi hst => ?_) _
    obtain ⟨u, hu, rfl, hor⟩ := hst
    exact ⟨u, mem_set.mpr ⟨u, hu, (if_neg hi).symm⟩, rfl, hor⟩
  | wait => exact hsame rfl (hplace _ _)
  | back => exact hsame rfl (hplace _ _)
  | sweep k i =>
    cases i with
    | none => exact hsame rfl (hplace _ _)
    | some i =>
      rw [Threads.sweep_some]
      split
      · refine .stays rfl ?_
        unfold Threads.goto
        rw [hplace]
        exact List.filter_sublist.map _
      · exact hsame rfl (hplace _ _)

/-! ### Every run -/

/-- Without its foreground fiber the list stands still. -/
theorem activations_of_gone {s : Threads Point} (h : s.fg ∉ s.ids) (as : List Act) :
    activations s as = [] := by
  have hcur : s.cur = none := List.find?_eq_none.mpr fun t ht he =>
    h (List.mem_map.mpr ⟨t, ht, of_decide_eq_true he⟩)
  cases as with
  | nil => rfl
  | cons a as =>
    unfold activations step
    rw [hcur]

theorem Stays.mem {i : ℕ} {s : Threads K} (h : Stays i s) : i ∈ s.ids := by
  obtain ⟨t, ht, rfl, -⟩ := h
  exact List.mem_map_of_mem ht

/-- Two fibers that stay are switched to by turns, first the one that is ahead. -/
theorem alternates_activations : ∀ {acts : List Act} {s : Threads Point} {i j : ℕ}, i ≠ j →
    s.ids.Nodup → .spawn ∉ acts → Runs.Throughout step (fun s => Stays i s ∧ Stays j s) s acts →
    Ring.Ahead i j (Ring.behind s.fg s.ids) → Ring.Alternates i j (activations s acts)
  | [], _, _, _, _, _, _, _, _ => trivial
  | a :: acts, s, i, j, hij, hd, hspawn, hst, hahead => by
    obtain ⟨ha, hacts⟩ := List.ne_and_not_mem_of_not_mem_cons hspawn
    obtain ⟨⟨hi, hj⟩, hrest⟩ := hst
    unfold activations
    rcases hstep : step s a with _ | s' <;> rw [hstep] at hrest
    · trivial
    dsimp only at hrest ⊢
    obtain ⟨hi', hj'⟩ := hrest.head
    cases step_turn hd ha.symm hstep with
    | stays hfg hsub =>
      rw [if_pos hfg]
      by_cases hc : s'.fg ∈ s'.ids
      · refine alternates_activations hij (hd.sublist hsub) hacts hrest ?_
        rw [hfg] at hc ⊢
        exact hahead.leave hd hsub hc hi'.mem
      · rw [activations_of_gone hc]
        trivial
    | turns us vs hids hfg hb hus =>
      have hc : s.fg ∈ s.ids := by
        by_contra hgone
        have hnone := activations_of_gone hgone (a :: acts)
        unfold activations at hnone
        rw [hstep] at hnone
        dsimp only at hnone
        rw [if_neg hfg] at hnone
        cases hnone
      have hturn := hahead.turn hd hc hj.mem hij hb (fun hu => hus i hu hi) fun hu => hus j hu hj
      rw [if_neg hfg, Ring.alternates_cons]
      by_cases heq : s'.fg = i
      · rw [if_pos heq] at hturn ⊢
        refine alternates_activations hij.symm (hids ▸ hd) hacts (hrest.mono fun _ h => h.symm) ?_
        rw [hids]
        exact hturn
      · rw [if_neg heq] at hturn ⊢
        refine ⟨hturn.1, alternates_activations hij (hids ▸ hd) hacts hrest ?_⟩
        rw [hids]
        exact hturn.2

/-- Between two switches to the one there is exactly one to the other. -/
theorem count_activations {acts : List Act} {s : Threads Point} {i j : ℕ} (hij : i ≠ j) (hd : s.ids.Nodup)
    (hspawn : .spawn ∉ acts) (hst : Runs.Throughout step (fun s => Stays i s ∧ Stays j s) s acts)
    {xs ys zs : List ℕ} (heq : activations s acts = xs ++ j :: (ys ++ j :: zs)) (hj : j ∉ ys) :
    ys.count i = 1 := by
  have hc : s.fg ∈ s.ids := by
    by_contra hgone
    rw [activations_of_gone hgone] at heq
    simp at heq
  obtain ⟨hi, hj'⟩ := hst.head
  have hbehind : i ∈ Ring.behind s.fg s.ids ∨ j ∈ Ring.behind s.fg s.ids := by
    rw [Ring.mem_behind hd hc, Ring.mem_behind hd hc]
    by_cases hfg : i = s.fg
    · exact .inr ⟨hj'.mem, fun he => hij (hfg.trans he.symm)⟩
    · exact .inl ⟨hi.mem, hfg⟩
  have hrest : Ring.Alternates i j (ys ++ j :: zs) := by
    rcases Ring.ahead_or hbehind with hahead | hahead
    · have halt := alternates_activations hij hd hspawn hst hahead
      rw [heq] at halt
      exact halt.of_append.1 rfl
    · have halt := alternates_activations hij.symm hd hspawn (hst.mono fun _ h => h.symm) hahead
      rw [heq] at halt
      exact halt.of_append.2 rfl
  exact hrest.count_between hij hj

/-- **`b6b_yield` is fair.** Whatever the fibers, their flags and the foreground one are, it switches
to the first fiber behind it, around the list, that is pending, and returns 0 exactly if there is none.
And in every run in which no fiber is spawned, of two fibers that stay pending the one is switched to
exactly once between two switches to the other, whichever others finish and leave the list. -/
theorem round_robin :
    (∀ (s : Threads Bool) (us vs : List (Thread Bool)) (c : Thread Bool), s.ids.Nodup →
      s.list = us ++ c :: vs → c.id = s.fg →
      (s.yield id).fg = ((vs ++ us).find? (·.pending)).elim s.fg (·.id) ∧
      ∃ t ∈ (s.yield id).list, t.id = s.fg ∧
        (t.pc.point = false ↔ ¬ ∃ u ∈ vs ++ us, u.pending = true)) ∧
    ∀ (s : Threads Point) (acts : List Act) (i j : ℕ) (xs ys zs : List ℕ), i ≠ j → s.ids.Nodup →
      .spawn ∉ acts → Runs.Throughout step (fun s => Stays i s ∧ Stays j s) s acts →
      activations s acts = xs ++ j :: (ys ++ j :: zs) → j ∉ ys → ys.count i = 1 := by
  refine ⟨fun s us vs c hd hl hc => ⟨?_, ?_⟩, fun s acts i j xs ys zs hij hd hspawn hst heq hj =>
    count_activations hij hd hspawn hst heq hj⟩
  · rw [← around_split hd hl hc, ← target_eq]
    unfold Threads.yield
    cases s.target with
    | none => rfl
    | some t => rfl
  · obtain ⟨t, ht, hid, hpoint⟩ := yield_returns hd hl hc id
    refine ⟨t, ht, hid, ?_⟩
    rw [hpoint]
    exact decide_eq_false_iff_not

instance (i : ℕ) (s : Threads K) : Decidable (Stays i s) :=
  inferInstanceAs (Decidable (∃ t ∈ s.list, t.id = i ∧ (i = s.fg ∨ t.pending = true)))

/-- The main fiber and three that have not run yet. -/
def four : Threads Point :=
  ⟨[.self (.body []), .new 1 (.body []), .new 2 (.body []), .new 3 (.body [])], 0, 4, []⟩

/-- The fiber 2 finishes between two switches to the fiber 1, and leaves the list; the fiber 3 is
switched to once. -/
theorem round_robin_four :
    activations four [.yield, .yield, .finish, .yield, .wait, .sweep, .sweep, .sweep, .back, .sweep, .sweep,
      .yield] = [1, 2, 3, 0, 1] ∧ [2, 3, 0].count 3 = 1 :=
  ⟨by decide, round_robin.2 four [.yield, .yield, .finish, .yield, .wait, .sweep, .sweep, .sweep, .back,
    .sweep, .sweep, .yield] 3 1 [] [2, 3, 0] [] (by decide) (by decide) (by decide) (by decide) (by decide)
    (by decide)⟩

end Sched

end B6b
