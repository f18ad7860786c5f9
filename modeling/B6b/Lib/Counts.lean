/-
# Reference counts

Nodes hold references to each other (`held`), and every node counts the references to it. Whoever
gives up the last reference to a node destroys it: the node gives up the references it holds, one
by one, and is freed (`unref`). There is no other way to free one.

The counts are `Exact` for the references `R` from outside if every node counts those in `R` and
those that nodes with a count hold. Giving one up then never meets a node without a count, ends,
and frees every node once that loses its last reference (`unref_exact`). What has a count is what
can be reached from outside, but for what a circle of references keeps (`Exact.reached`).

Key definitions: `Counts`, `unref`, `Exact`, `Reached`.
-/
import Mathlib.Algebra.Order.BigOperators.Group.Finset
import B6b.Lib.Op
import B6b.Lib.Reach

namespace Refcount

open Function Relation

variable {α : Type}

/-- The counts, and the nodes that have been freed, in their order. -/
structure Counts (α : Type) where
  refc : α → ℕ
  freed : List α

/-- Give up a reference to `a`. It never returns if there is none. -/
def unref [DecidableEq α] (held : α → List α) : ℕ → α → Op (Counts α) Unit
  | 0, _ => Op.crash
  | n + 1, a => fun c =>
    match c.refc a with
    | 0 => .crash
    | 1 => (do
        (held a).forM (unref held n)
        Op.modify fun c => { c with freed := c.freed ++ [a] }) { c with refc := update c.refc a 0 }
    | k + 2 => .ok () { c with refc := update c.refc a (k + 1) }

/-- The nodes that have a count. -/
def live (s : Finset α) (refc : α → ℕ) : Finset α := s.filter fun a => 0 < refc a

/-- Every node counts the references to it: those in `R`, and those that nodes with a count hold. -/
structure Exact [DecidableEq α] (s : Finset α) (held : α → List α) (refc : α → ℕ) (R : List α) : Prop where
  mem : ∀ a, 0 < refc a → a ∈ s
  count : ∀ a, refc a = R.count a + ∑ b ∈ live s refc, (held b).count a

/-- From `c` to `c'`, counts have only gone down, and the nodes that have lost theirs have been
freed, each once. -/
structure Frees (c c' : Counts α) : Prop where
  le : ∀ b, c'.refc b ≤ c.refc b
  freed : ∃ l, c'.freed = c.freed ++ l ∧ l.Nodup ∧ ∀ b, b ∈ l ↔ 0 < c.refc b ∧ c'.refc b = 0

variable {s : Finset α} {held held' : α → List α} {refc : α → ℕ} {R R' : List α} {a b d : α} {n : ℕ}
  {c c' c₁ c₂ : Counts α}

/-! ### Counts that go down -/

theorem Frees.refl (c : Counts α) : Frees c c where
  le _ := Nat.le_refl _
  freed := ⟨[], (List.append_nil _).symm, List.nodup_nil, fun b => by
    refine iff_of_false List.not_mem_nil ?_
    omega⟩

theorem Frees.trans (h : Frees c c₁) (h' : Frees c₁ c') : Frees c c' where
  le b := (h'.le b).trans (h.le b)
  freed := by
    obtain ⟨l, hl, hnd, hmem⟩ := h.freed
    obtain ⟨l', hl', hnd', hmem'⟩ := h'.freed
    refine ⟨l ++ l', ?_, List.nodup_append.mpr ⟨hnd, hnd', ?_⟩, fun b => ?_⟩
    · rw [hl', hl, List.append_assoc]
    · rintro b hb _ hb' rfl
      have := (hmem b).mp hb
      have := (hmem' b).mp hb'
      omega
    · have hle := h.le b
      have hle' := h'.le b
      rw [List.mem_append, hmem, hmem']
      omega

/-- A node that has lost its count, and what has been freed on the way. -/
theorem Frees.destroy [DecidableEq α] (ha : c.refc a = 1) (h : Frees { c with refc := update c.refc a 0 } c') :
    Frees c { c' with freed := c'.freed ++ [a] } where
  le b := by
    have hle : c'.refc b ≤ update c.refc a 0 b := h.le b
    by_cases hb : b = a
    · subst hb
      rw [update_self] at hle
      exact hle.trans (Nat.zero_le _)
    · rwa [update_of_ne hb] at hle
  freed := by
    obtain ⟨l, hl, hnd, hmem⟩ := h.freed
    have hzero : c'.refc a = 0 := by
      have hle : c'.refc a ≤ update c.refc a 0 a := h.le a
      rw [update_self] at hle
      omega
    have hnot : a ∉ l := fun hmem' => by
      have hpos := ((hmem a).mp hmem').1
      dsimp only at hpos
      rw [update_self] at hpos
      omega
    refine ⟨l ++ [a], ?_, List.nodup_append.mpr ⟨hnd, List.nodup_singleton a, ?_⟩, fun b => ?_⟩
    · dsimp only
      rw [hl, List.append_assoc]
    · rintro b hb _ hb' rfl
      rw [List.mem_singleton.mp hb'] at hb
      exact hnot hb
    · rw [List.mem_append, List.mem_singleton]
      by_cases hb : b = a
      · subst hb
        refine iff_of_true (.inr rfl) ⟨?_, hzero⟩
        omega
      · rw [or_iff_left hb, hmem]
        dsimp only
        rw [update_of_ne hb]

theorem Frees.dead (h : Frees c c') (hb : c.refc b = 0) : c'.refc b = 0 :=
  Nat.le_zero.mp (hb ▸ h.le b)

theorem Frees.live_subset (h : Frees c c') : live s c'.refc ⊆ live s c.refc := by
  intro b hb
  obtain ⟨hs, hpos⟩ := Finset.mem_filter.mp hb
  exact Finset.mem_filter.mpr ⟨hs, hpos.trans_le (h.le b)⟩

theorem mem_live : a ∈ live s refc ↔ a ∈ s ∧ 0 < refc a := Finset.mem_filter

/-! ### References that are given up -/

variable [DecidableEq α]

/-- What is held outside has a count. -/
theorem Exact.pos_of_mem (h : Exact s held refc R) (ha : a ∈ R) : 0 < refc a := by
  have hc := h.count a
  have hpos := List.count_pos_iff.mpr ha
  omega

/-- What a node with a count holds has one. -/
theorem Exact.pos_of_held (h : Exact s held refc R) (hb : 0 < refc b) (ha : a ∈ held b) :
    0 < refc a := by
  have hc := h.count a
  have hpos := List.count_pos_iff.mpr ha
  have hle : (held b).count a ≤ ∑ b ∈ live s refc, (held b).count a :=
    Finset.single_le_sum (f := fun b => (held b).count a) (fun _ _ => Nat.zero_le _)
      (mem_live.mpr ⟨h.mem b hb, hb⟩)
  omega

/-- Only how often a node is held outside matters. -/
theorem Exact.of_perm (h : Exact s held refc R) (hR : ∀ a, R.count a = R'.count a) :
    Exact s held refc R' :=
  ⟨h.mem, fun a => by rw [← hR, h.count a]⟩

/-- What nodes without a count hold does not matter. -/
theorem Exact.congr (h : Exact s held refc R) (hh : ∀ b, 0 < refc b → held' b = held b) :
    Exact s held' refc R := by
  refine ⟨h.mem, fun a => ?_⟩
  have hsum : ∑ b ∈ live s refc, (held' b).count a = ∑ b ∈ live s refc, (held b).count a :=
    Finset.sum_congr rfl fun b hb => by rw [hh b (mem_live.mp hb).2]
  rw [hsum, h.count a]

/-- One more reference from outside. -/
theorem Exact.ref (h : Exact s held refc R) (ha : 0 < refc a) :
    Exact s held (update refc a (refc a + 1)) (a :: R) := by
  have hpos : ∀ b, 0 < update refc a (refc a + 1) b ↔ 0 < refc b := by
    intro b
    by_cases hb : b = a
    · subst hb
      rw [update_self]
      omega
    · rw [update_of_ne hb]
  have hlive : live s (update refc a (refc a + 1)) = live s refc := Finset.filter_congr fun b _ => hpos b
  refine ⟨fun b hb => h.mem b ((hpos b).mp hb), fun b => ?_⟩
  have hc := h.count b
  rw [hlive, List.count_cons]
  by_cases hb : b = a
  · subst hb
    rw [update_self, beq_self_eq_true, if_pos rfl]
    omega
  · have hne : (a == b) = false := beq_eq_false_iff_ne.mpr (Ne.symm hb)
    rw [update_of_ne hb, hne]
    simpa using hc

/-- One reference from outside less, and it was not the last one. -/
theorem Exact.drop {k : ℕ} (h : Exact s held refc (a :: R)) (ha : refc a = k + 2) :
    Exact s held (update refc a (k + 1)) R := by
  have hpos : ∀ b, 0 < update refc a (k + 1) b ↔ 0 < refc b := by
    intro b
    by_cases hb : b = a
    · subst hb
      rw [update_self]
      omega
    · rw [update_of_ne hb]
  have hlive : live s (update refc a (k + 1)) = live s refc := Finset.filter_congr fun b _ => hpos b
  refine ⟨fun b hb => h.mem b ((hpos b).mp hb), fun b => ?_⟩
  have hc := h.count b
  rw [List.count_cons] at hc
  rw [hlive]
  by_cases hb : b = a
  · subst hb
    rw [beq_self_eq_true, if_pos rfl] at hc
    rw [update_self]
    omega
  · have hne : (a == b) = false := beq_eq_false_iff_ne.mpr (Ne.symm hb)
    rw [hne] at hc
    rw [update_of_ne hb]
    simpa using hc

/-- The last reference to `a` is gone: what it holds is now held by whoever destroys it. -/
theorem Exact.last (h : Exact s held refc (a :: R)) (ha : refc a = 1) :
    Exact s held (update refc a 0) (held a ++ R) := by
  have hmem : a ∈ live s refc := by
    have hpos : 0 < refc a := by omega
    exact mem_live.mpr ⟨h.mem a hpos, hpos⟩
  have hlive : live s (update refc a 0) = (live s refc).erase a := by
    ext b
    rw [mem_live, Finset.mem_erase, mem_live]
    by_cases hb : b = a
    · subst hb
      rw [update_self]
      simp
    · rw [update_of_ne hb]
      simp [hb]
  refine ⟨fun b hb => ?_, fun b => ?_⟩
  · by_cases hba : b = a
    · subst hba
      exact (mem_live.mp hmem).1
    · rw [update_of_ne hba] at hb
      exact h.mem b hb
  · have hc := h.count b
    have hsum := Finset.add_sum_erase (live s refc) (fun d => (held d).count b) hmem
    rw [List.count_cons] at hc
    rw [hlive, List.count_append]
    by_cases hb : b = a
    · subst hb
      rw [beq_self_eq_true, if_pos rfl] at hc
      rw [update_self]
      omega
    · have hne : (a == b) = false := beq_eq_false_iff_ne.mpr (Ne.symm hb)
      rw [hne] at hc
      rw [update_of_ne hb]
      simp only [Bool.false_eq_true, if_false] at hc
      omega

/-- A node holds others than before, and what it has let go or taken on is held outside now or was. -/
theorem Exact.exchange (h : Exact s held refc R) (hd : 0 < refc d) (hh : ∀ b, b ≠ d → held' b = held b)
    (hR : ∀ a, R.count a + (held d).count a = R'.count a + (held' d).count a) :
    Exact s held' refc R' := by
  have hmem : d ∈ live s refc := mem_live.mpr ⟨h.mem d hd, hd⟩
  refine ⟨h.mem, fun a => ?_⟩
  have hc := h.count a
  have hsum := Finset.add_sum_erase (live s refc) (fun b => (held b).count a) hmem
  have hsum' := Finset.add_sum_erase (live s refc) (fun b => (held' b).count a) hmem
  have hrest : ∑ b ∈ (live s refc).erase d, (held' b).count a =
      ∑ b ∈ (live s refc).erase d, (held b).count a :=
    Finset.sum_congr rfl fun b hb => by rw [hh b (Finset.ne_of_mem_erase hb)]
  have := hR a
  omega

/-- A new node, of which there is one reference outside, takes references over that were outside. -/
theorem Exact.alloc {l : List α} (h : Exact s held refc (l ++ R)) (ha : a ∉ s)
    (hh : ∀ b ∈ s, held' b = held b) (hl : held' a = l) :
    Exact (insert a s) held' (update refc a 1) (a :: R) := by
  have hzero : refc a = 0 := by
    by_contra hne
    exact ha (h.mem a (Nat.pos_of_ne_zero hne))
  have hlive : live (insert a s) (update refc a 1) = insert a (live s refc) := by
    ext b
    rw [mem_live, Finset.mem_insert, Finset.mem_insert, mem_live]
    by_cases hb : b = a
    · subst hb
      rw [update_self]
      simp
    · rw [update_of_ne hb]
      simp [hb]
  have hnot : a ∉ live s refc := fun hmem => ha (mem_live.mp hmem).1
  refine ⟨fun b hb => ?_, fun b => ?_⟩
  · by_cases hba : b = a
    · exact Finset.mem_insert.mpr (.inl hba)
    · rw [update_of_ne hba] at hb
      exact Finset.mem_insert_of_mem (h.mem b hb)
  · have hc := h.count b
    have hsum : ∑ d ∈ live s refc, (held' d).count b = ∑ d ∈ live s refc, (held d).count b :=
      Finset.sum_congr rfl fun d hd => by rw [hh d (mem_live.mp hd).1]
    rw [hlive, Finset.sum_insert hnot, hl, hsum, List.count_cons]
    rw [List.count_append] at hc
    by_cases hb : b = a
    · subst hb
      rw [update_self, beq_self_eq_true, if_pos rfl]
      omega
    · have hne : (a == b) = false := beq_eq_false_iff_ne.mpr (Ne.symm hb)
      rw [update_of_ne hb, hne]
      simp only [Bool.false_eq_true, if_false]
      omega

/-- Each of a list of references is given up, if each one can be. -/
theorem forM_exact
    (hone : ∀ {a R c}, Exact s held c.refc (a :: R) → (live s c.refc).card < n →
      ∃ c', unref held n a c = .ok () c' ∧ Exact s held c'.refc R ∧ Frees c c') :
    ∀ {l : List α} {c : Counts α}, Exact s held c.refc (l ++ R) → (live s c.refc).card < n →
      ∃ c', l.forM (unref held n) c = .ok () c' ∧ Exact s held c'.refc R ∧ Frees c c'
  | [], c, hx, _ => ⟨c, rfl, hx, Frees.refl c⟩
  | a :: l, c, hx, hn => by
    obtain ⟨c₁, hrun, hx₁, hf₁⟩ := hone hx hn
    have hn₁ : (live s c₁.refc).card < n := (Finset.card_le_card hf₁.live_subset).trans_lt hn
    obtain ⟨c', hrest, hx', hf'⟩ := forM_exact hone hx₁ hn₁
    refine ⟨c', ?_, hx', hf₁.trans hf'⟩
    exact (Op.bind_ok hrun _).trans hrest

/-- **A reference is given up.** With exact counts there is one to give up, every count is exact
behind it, and each node that has lost its last reference has been freed once. The recursion needs
no more fuel than there are nodes with a count. -/
theorem unref_exact : ∀ {n : ℕ} {a : α} {R : List α} {c : Counts α}, Exact s held c.refc (a :: R) →
    (live s c.refc).card < n →
      ∃ c', unref held n a c = .ok () c' ∧ Exact s held c'.refc R ∧ Frees c c'
  | 0, _, _, _, _, hn => absurd hn (Nat.not_lt_zero _)
  | n + 1, a, R, c, hx, hn => by
    have hpos : 0 < c.refc a := hx.pos_of_mem List.mem_cons_self
    unfold unref
    rcases hk : c.refc a with _ | _ | k
    · omega
    · dsimp only
      have hx₁ : Exact s held (update c.refc a 0) (held a ++ R) := hx.last hk
      have hlt : (live s (update c.refc a 0)).card < (live s c.refc).card := by
        refine Finset.card_lt_card ((Finset.ssubset_iff_of_subset ?_).mpr ⟨a, ?_, ?_⟩)
        · intro b hb
          obtain ⟨hs, hb⟩ := mem_live.mp hb
          by_cases hba : b = a
          · subst hba
            rw [update_self] at hb
            exact absurd hb (Nat.lt_irrefl _)
          · rw [update_of_ne hba] at hb
            exact mem_live.mpr ⟨hs, hb⟩
        · exact mem_live.mpr ⟨hx.mem a hpos, hpos⟩
        · intro hmem
          have hz := (mem_live.mp hmem).2
          rw [update_self] at hz
          exact absurd hz (Nat.lt_irrefl _)
      have hlt' : (live s (update c.refc a 0)).card < n := by omega
      obtain ⟨c₁, hrun, hx', hf⟩ :=
        forM_exact (n := n) (c := { c with refc := update c.refc a 0 }) unref_exact hx₁ hlt'
      exact ⟨{ c₁ with freed := c₁.freed ++ [a] }, Op.bind_ok hrun _, hx', hf.destroy hk⟩
    · refine ⟨_, rfl, hx.drop hk, fun b => ?_, [], (List.append_nil _).symm, List.nodup_nil, fun b => ?_⟩
      · dsimp only
        by_cases hb : b = a
        · subst hb
          rw [update_self]
          omega
        · rw [update_of_ne hb]
      · refine iff_of_false List.not_mem_nil ?_
        dsimp only
        by_cases hb : b = a
        · subst hb
          rw [update_self]
          omega
        · rw [update_of_ne hb]
          omega

/-! ### What a node holds that is not destroyed -/

/-- Counts only go down. -/
theorem forM_le (hone : ∀ {a c c'}, unref held n a c = .ok () c' → ∀ b, c'.refc b ≤ c.refc b) :
    ∀ {l : List α} {c c' : Counts α}, l.forM (unref held n) c = .ok () c' → ∀ b, c'.refc b ≤ c.refc b
  | [], c, c', h, b => by
    cases h
    exact Nat.le_refl _
  | a :: l, c, c', h, b => by
    obtain ⟨_, c₁, hrun, hrest⟩ := Op.bind_eq_ok.mp h
    exact (forM_le hone hrest b).trans (hone hrun b)

theorem unref_le : ∀ {n : ℕ} {a : α} {c c' : Counts α}, unref held n a c = .ok () c' →
    ∀ b, c'.refc b ≤ c.refc b
  | 0, _, _, _, h, _ => by cases h
  | n + 1, a, c, c', h, b => by
    unfold unref at h
    rcases hk : c.refc a with _ | _ | k <;> rw [hk] at h
    · cases h
    · obtain ⟨_, c₁, hrun, hfree⟩ := Op.bind_eq_ok.mp h
      cases hfree
      have hle : c₁.refc b ≤ update c.refc a 0 b := forM_le unref_le hrun b
      refine hle.trans ?_
      by_cases hb : b = a
      · subst hb
        rw [update_self]
        exact Nat.zero_le _
      · rw [update_of_ne hb]
    · cases h
      dsimp only
      by_cases hb : b = a
      · subst hb
        rw [update_self]
        omega
      · rw [update_of_ne hb]

theorem forM_congr (hone : ∀ {a c c'}, unref held n a c = .ok () c' → 0 < c'.refc d →
    unref held' n a c = .ok () c') : ∀ {l : List α} {c c' : Counts α},
      l.forM (unref held n) c = .ok () c' → 0 < c'.refc d → l.forM (unref held' n) c = .ok () c'
  | [], _, _, h, _ => h
  | a :: l, c, c', h, hd => by
    obtain ⟨_, c₁, hrun, hrest⟩ := Op.bind_eq_ok.mp h
    have hd₁ : 0 < c₁.refc d := hd.trans_le (forM_le unref_le hrest d)
    exact (Op.bind_ok (hone hrun hd₁) _).trans (forM_congr hone hrest hd)

/-- What a node holds is not looked at if it still has a count in the end. -/
theorem unref_congr (hh : ∀ b, b ≠ d → held' b = held b) : ∀ {n : ℕ} {a : α} {c c' : Counts α},
    unref held n a c = .ok () c' → 0 < c'.refc d → unref held' n a c = .ok () c'
  | 0, _, _, _, h, _ => by cases h
  | n + 1, a, c, c', h, hd => by
    unfold unref at h ⊢
    rcases hk : c.refc a with _ | _ | k <;> rw [hk] at h
    · cases h
    · obtain ⟨_, c₁, hrun, hfree⟩ := Op.bind_eq_ok.mp h
      have hrefc : c'.refc = c₁.refc := by
        cases hfree
        rfl
      rw [hrefc] at hd
      have hne : a ≠ d := by
        rintro rfl
        have hle : c₁.refc a ≤ update c.refc a 0 a := forM_le unref_le hrun a
        rw [update_self] at hle
        omega
      dsimp only
      rw [hh a hne]
      exact (Op.bind_ok (forM_congr (unref_congr hh) hrun hd) _).trans hfree
    · exact h

/-- What is held along a path from outside has a count. -/
theorem Exact.pos_of_path (h : Exact s held refc R) (ha : a ∈ R)
    (hpath : ReflTransGen (fun b c => b ≠ d ∧ c ∈ held b) a b) : 0 < refc b := by
  induction hpath with
  | refl => exact h.pos_of_mem ha
  | tail _ hedge ih => exact h.pos_of_held ih hedge.2

/-! ### What has a count -/

/-- `b` has a count and holds `a`. -/
def Edge (held : α → List α) (refc : α → ℕ) (b a : α) : Prop := 0 < refc b ∧ a ∈ held b

/-- `a` can be reached from outside. -/
def Reached (held : α → List α) (refc : α → ℕ) (R : List α) (a : α) : Prop :=
  ∃ r ∈ R, ReflTransGen (Edge held refc) r a

/-- On the way to `d`, nothing that `d` holds is needed. -/
theorem path_past {E : α → α → Prop} (h : ReflTransGen E a d) :
    ReflTransGen (fun b c => b ≠ d ∧ E b c) a d := by
  induction h using ReflTransGen.head_induction_on with
  | refl => exact .refl
  | @head b c hedge _ ih =>
    by_cases hb : b = d
    · rw [hb]
    · exact ih.head ⟨hb, hedge⟩

/-- What can be reached from a node with a count has one. -/
theorem Exact.pos_of_edges (h : Exact s held refc R) (hb : 0 < refc b)
    (hpath : ReflTransGen (Edge held refc) b a) : 0 < refc a := by
  induction hpath with
  | refl => exact hb
  | tail _ hedge _ => exact h.pos_of_held hedge.1 hedge.2

/-- What can be reached has a count. -/
theorem Exact.pos_of_reached (h : Exact s held refc R) (ha : Reached held refc R a) : 0 < refc a := by
  obtain ⟨r, hr, hpath⟩ := ha
  exact h.pos_of_edges (h.pos_of_mem hr) hpath

/-- A node with a count is held outside, or by a node with a count. -/
theorem Exact.holder (h : Exact s held refc R) (ha : 0 < refc a) : a ∈ R ∨ ∃ b, Edge held refc b a := by
  by_contra hno
  rw [not_or] at hno
  obtain ⟨hR, hedge⟩ := hno
  have hc := h.count a
  have hsum : ∑ b ∈ live s refc, (held b).count a = 0 := by
    refine Finset.sum_eq_zero fun b hb => List.count_eq_zero.mpr fun hmem => ?_
    exact hedge ⟨b, (mem_live.mp hb).2, hmem⟩
  rw [List.count_eq_zero.mpr hR] at hc
  omega

/-- **Nothing else is kept.** A node with a count can be reached from outside, or from a node that
can be reached from itself. -/
theorem Exact.reached (h : Exact s held refc R) (ha : 0 < refc a) : Reached held refc R a ∨
    ∃ b, TransGen (Edge held refc) b b ∧ ReflTransGen (Edge held refc) b a := by
  by_cases hloop : ∃ b, TransGen (Edge held refc) b b ∧ ReflTransGen (Edge held refc) b a
  · exact .inr hloop
  · left
    -- along the references backwards, where no circle is met
    have hback : ∀ (_ : ℕ) d, (∀ b, flip (Edge held refc) d b → 0 < refc b → Reached held refc R b) →
        0 < refc d → Reached held refc R d := by
      intro _ d hd hpos
      rcases h.holder hpos with hmem | ⟨b, hb⟩
      · exact ⟨d, hmem, .refl⟩
      · obtain ⟨r, hr, hpath⟩ := hd b hb hb.1
        exact ⟨r, hr, hpath.tail hb⟩
    refine Reach.fuel (R := flip (Edge held refc)) (P := fun _ d => 0 < refc d → Reached held refc R d)
      hback (s.card + 1) s a (fun b hab => ?_) (Nat.lt_succ_self _) ha
    have hba : TransGen (Edge held refc) b a := transGen_swap.mp hab
    refine ⟨?_, fun hbb => hloop ⟨b, transGen_swap.mp hbb, hba.to_reflTransGen⟩⟩
    obtain ⟨d, hd, -⟩ := TransGen.head'_iff.mp hba
    exact h.mem b hd.1

end Refcount
