/-
# Scanners that find the end of a token

A scanner splits a token off the front of a text. The scanners here are
automata: `scanWith δ q` reads symbols from the state `q` and ends the token
with the symbol at which `δ` gives up. Where such a token ends depends on the
token alone (`SelfDelimiting`).

`Balanced` is the language of one nesting counter: as many closing symbols as
opening ones, and no prefix with more closing than opening. The counter that
starts at one level ends its token at the first closing symbol after a
balanced text (`scan_nest_iff`).
-/
import Mathlib.Data.List.Basic
import Mathlib.Data.List.Infix
import Mathlib.Tactic.Ring
import Mathlib.Tactic.Push

namespace Scanner

variable {α σ : Type*}

/-- A scanner returns the token at the front of a text and what follows it. -/
abbrev Scan (α : Type*) := List α → Option (List α × List α)

/-- The end of a token depends on nothing behind the token. -/
structure SelfDelimiting (f : Scan α) : Prop where
  split : ∀ {s x r}, f s = some (x, r) → s = x ++ r
  extend : ∀ {s x r} (t : List α), f s = some (x, r) → f (x ++ t) = some (x, t)

/-- The automaton `δ` from state `q`: it gives up (`none`) at the last symbol of
the token, and there is no token if it never does. -/
def scanWith (δ : σ → α → Option σ) : σ → Scan α
  | _, [] => none
  | q, c :: s =>
    match δ q c with
    | none => some ([c], s)
    | some q' => (scanWith δ q' s).map fun p => (c :: p.1, p.2)

theorem scanWith_stop {δ : σ → α → Option σ} {q : σ} {c : α} (h : δ q c = none) (s : List α) :
    scanWith δ q (c :: s) = some ([c], s) := by
  simp [scanWith, h]

theorem scanWith_go {δ : σ → α → Option σ} {q q' : σ} {c : α} (h : δ q c = some q') (s : List α) :
    scanWith δ q (c :: s) = (scanWith δ q' s).map fun p => (c :: p.1, p.2) := by
  simp [scanWith, h]

/-- Past a symbol that the automaton reads on, its token is that symbol and the
token of the rest. -/
theorem scanWith_go_iff {δ : σ → α → Option σ} {q q' : σ} {c : α} (h : δ q c = some q')
    (s x r : List α) : scanWith δ q (c :: s) = some (x, r) ↔
      ∃ y, x = c :: y ∧ scanWith δ q' s = some (y, r) := by
  rw [scanWith_go h, Option.map_eq_some_iff]
  constructor
  · rintro ⟨⟨y, r'⟩, hy, he⟩
    obtain ⟨rfl, rfl⟩ := Prod.mk.inj he
    exact ⟨y, rfl, hy⟩
  · rintro ⟨y, rfl, hy⟩
    exact ⟨(y, r), hy, rfl⟩

theorem scanWith_stop_iff {δ : σ → α → Option σ} {q : σ} {c : α} (h : δ q c = none)
    (s x r : List α) : scanWith δ q (c :: s) = some (x, r) ↔ x = [c] ∧ r = s := by
  rw [scanWith_stop h]
  simp [eq_comm]

theorem selfDelimiting_scanWith (δ : σ → α → Option σ) (q : σ) : SelfDelimiting (scanWith δ q) := by
  constructor
  · intro s
    induction s generalizing q with
    | nil => intro x r h; simp [scanWith] at h
    | cons c s ih =>
      intro x r h
      cases hd : δ q c with
      | none =>
        obtain ⟨rfl, rfl⟩ := (scanWith_stop_iff hd s x r).mp h
        rfl
      | some q' =>
        obtain ⟨y, rfl, hy⟩ := (scanWith_go_iff hd s x r).mp h
        rw [ih q' hy, List.cons_append]
  · intro s
    induction s generalizing q with
    | nil => intro x r t h; simp [scanWith] at h
    | cons c s ih =>
      intro x r t h
      cases hd : δ q c with
      | none =>
        obtain ⟨rfl, -⟩ := (scanWith_stop_iff hd s x r).mp h
        exact scanWith_stop hd t
      | some q' =>
        obtain ⟨y, rfl, hy⟩ := (scanWith_go_iff hd s x r).mp h
        exact (scanWith_go_iff hd _ _ _).mpr ⟨y, rfl, ih q' t hy⟩

theorem scanWith_ne_nil {δ : σ → α → Option σ} {q : σ} {s x r : List α}
    (h : scanWith δ q s = some (x, r)) : x ≠ [] := by
  rintro rfl
  have := (selfDelimiting_scanWith δ q).extend [] h
  simp [scanWith] at this

/-- A text is a token by itself when the automaton reads on up to its last symbol, and gives up
there. -/
theorem scanWith_snoc_iff {δ : σ → α → Option σ} {c : α} : ∀ {q : σ} {x : List α},
    scanWith δ q (x ++ [c]) = some (x ++ [c], []) ↔ ∃ q', x.foldlM δ q = some q' ∧ δ q' c = none
  | q, [] => by
    simp only [List.nil_append, List.foldlM_nil, Option.pure_def, Option.some.injEq, exists_eq_left']
    cases hd : δ q c with
    | none => simp [scanWith_stop hd]
    | some q' =>
      rw [scanWith_go_iff hd]
      simp [scanWith]
  | q, d :: x => by
    rw [List.cons_append, List.foldlM_cons]
    cases hd : δ q d with
    | none => simp [scanWith_stop hd]
    | some q' =>
      rw [scanWith_go_iff hd, Option.bind_eq_bind, Option.bind_some, ← scanWith_snoc_iff]
      simp

/-! ### One nesting counter -/

section Nest

variable [DecidableEq α] (o c : α)

/-- As many `c` as `o`, and no prefix with more `c` than `o`. -/
def Balanced (s : List α) : Prop :=
  s.count o = s.count c ∧ ∀ p, p <+: s → p.count c ≤ p.count o

/-- `Balanced` below `d` open levels: the text closes all of them and no more. -/
def Closes (d : ℕ) (s : List α) : Prop :=
  d + s.count o = s.count c ∧ ∀ p, p <+: s → p.count c ≤ d + p.count o

theorem balanced_iff_closes (s : List α) : Balanced o c s ↔ Closes o c 0 s := by
  simp [Balanced, Closes]

/-- One step of the counter: the token ends at the `c` that closes the last level. -/
def nest (n : ℕ) (x : α) : Option ℕ :=
  if x = o then some (n + 1)
  else if x = c then if n - 1 = 0 then none else some (n - 1)
  else some n

theorem closes_nil (d : ℕ) : Closes o c d [] ↔ d = 0 := by
  simp [Closes]

variable {o c}

/-- Reading one symbol changes the number of open levels. -/
theorem closes_cons_iff {d e : ℕ} {x : α}
    (h : ∀ s : List α, d + (x :: s).count o + s.count c = e + s.count o + (x :: s).count c)
    (s : List α) : Closes o c d (x :: s) ↔ Closes o c e s := by
  constructor
  · rintro ⟨h1, h2⟩
    refine ⟨by have := h s; omega, fun p hp => ?_⟩
    have := h2 (x :: p) ((List.prefix_cons_inj x).mpr hp)
    have := h p
    omega
  · rintro ⟨h1, h2⟩
    refine ⟨by have := h s; omega, fun p hp => ?_⟩
    rcases List.prefix_cons_iff.mp hp with rfl | ⟨t, rfl, ht⟩
    · simp
    · have := h2 t ht
      have := h t
      omega

theorem closes_open (hne : o ≠ c) (d : ℕ) (s : List α) :
    Closes o c d (o :: s) ↔ Closes o c (d + 1) s :=
  closes_cons_iff (fun s => by simp [hne]; omega) s

theorem closes_close (hne : o ≠ c) (d : ℕ) (s : List α) :
    Closes o c (d + 1) (c :: s) ↔ Closes o c d s :=
  closes_cons_iff (fun s => by simp [hne.symm]; omega) s

theorem closes_other {x : α} (ho : x ≠ o) (hc : x ≠ c) (d : ℕ) (s : List α) :
    Closes o c d (x :: s) ↔ Closes o c d s :=
  closes_cons_iff (fun s => by simp [ho, hc]) s

theorem not_closes_zero_close (hne : o ≠ c) (s : List α) : ¬ Closes o c 0 (c :: s) := by
  rintro ⟨-, h⟩
  have := h [c] ⟨s, rfl⟩
  simp [hne.symm] at this

/-- One text closes `d` of the open levels, and the next one the others. -/
theorem Closes.append {d e : ℕ} {s t : List α} (hs : Closes o c d s) (ht : Closes o c e t) :
    Closes o c (d + e) (s ++ t) := by
  refine ⟨by rw [List.count_append, List.count_append, ← hs.1, ← ht.1]; omega, fun p hp => ?_⟩
  rcases List.prefix_or_prefix_of_prefix hp (List.prefix_append s t) with hps | ⟨q, rfl⟩
  · exact Nat.le_trans (hs.2 p hps) (by omega)
  · have hq := ht.2 q ((List.prefix_append_right_inj s).mp hp)
    rw [List.count_append, List.count_append, ← hs.1]
    omega

theorem Balanced.append {s t : List α} (hs : Balanced o c s) (ht : Balanced o c t) :
    Balanced o c (s ++ t) := by
  rw [balanced_iff_closes] at hs ht ⊢
  exact hs.append ht

theorem Balanced.enclose (hne : o ≠ c) {s : List α} (hs : Balanced o c s) :
    Balanced o c (o :: s ++ [c]) := by
  rw [balanced_iff_closes] at hs ⊢
  have hlast : Closes o c 1 [c] := (closes_close hne 0 []).mpr ((closes_nil o c 0).mpr rfl)
  exact (closes_open hne 0 (s ++ [c])).mpr (hs.append hlast)

theorem Balanced.cons {a : α} (ho : a ≠ o) (hc : a ≠ c) {s : List α} (hs : Balanced o c s) :
    Balanced o c (a :: s) := by
  rw [balanced_iff_closes] at hs ⊢
  exact (closes_other ho hc 0 s).mpr hs

/-- A symbol `a` that takes the counter from `d + 1` to `e + 1` levels: what holds of
the text behind it holds of the text with it. -/
theorem scan_nest_step {a : α} {d e : ℕ} {s x r : List α} (hac : a ≠ c ∨ d ≠ 0)
    (hgo : nest o c (d + 1) a = some (e + 1))
    (hcl : ∀ y, Closes o c d (a :: y) ↔ Closes o c e y)
    (ih : ∀ y, scanWith (nest o c) (e + 1) s = some (y ++ [c], r) ↔ s = y ++ c :: r ∧ Closes o c e y) :
    scanWith (nest o c) (d + 1) (a :: s) = some (x ++ [c], r) ↔
      a :: s = x ++ c :: r ∧ Closes o c d x := by
  rw [scanWith_go_iff hgo]
  cases x with
  | nil =>
    have hleft : ¬ ∃ y, [c] = a :: y ∧ scanWith (nest o c) (e + 1) s = some (y, r) := by
      rintro ⟨y, hy, hs⟩
      obtain ⟨rfl, rfl⟩ := List.cons.inj hy
      exact scanWith_ne_nil hs rfl
    have hright : ¬ (a :: s = [] ++ c :: r ∧ Closes o c d []) := by
      rintro ⟨he, h0⟩
      have := (closes_nil o c d).mp h0
      rcases hac with h | h
      · exact h (List.cons.inj he).1
      · exact h this
    exact iff_of_false hleft hright
  | cons b x =>
    simp only [List.cons_append, List.cons.injEq]
    constructor
    · rintro ⟨y, ⟨rfl, rfl⟩, hy⟩
      obtain ⟨rfl, h⟩ := (ih x).mp hy
      exact ⟨⟨rfl, rfl⟩, (hcl x).mpr h⟩
    · rintro ⟨⟨rfl, rfl⟩, h⟩
      exact ⟨x ++ [c], ⟨rfl, rfl⟩, (ih x).mpr ⟨rfl, (hcl x).mp h⟩⟩

/-- The counter that stands at `d + 1` ends its token at the first `c` after a text
that closes `d` levels. -/
theorem scan_nest_iff_closes (hne : o ≠ c) : ∀ (s : List α) (d : ℕ) (x r : List α),
    scanWith (nest o c) (d + 1) s = some (x ++ [c], r) ↔ s = x ++ c :: r ∧ Closes o c d x
  | [], d, x, r => by simp [scanWith]
  | a :: s, d, x, r => by
    have ih := fun e y => scan_nest_iff_closes hne s e y r
    by_cases ho : a = o
    · subst ho
      exact scan_nest_step (Or.inl hne) (by simp [nest]) (closes_open hne d) (ih (d + 1))
    · by_cases hc : a = c
      · subst hc
        cases d with
        | zero =>
          -- the closing symbol of the last level: the token ends here
          rw [scanWith_stop_iff (by simp [nest, ho])]
          cases x with
          | nil => simp [closes_nil, eq_comm]
          | cons b x =>
            refine iff_of_false (by simp) ?_
            rintro ⟨he, hcl⟩
            obtain ⟨rfl, -⟩ := List.cons.inj he
            exact not_closes_zero_close hne x hcl
        | succ d =>
          exact scan_nest_step (Or.inr (Nat.succ_ne_zero d)) (by simp [nest, ho])
            (closes_close hne d) (ih d)
      · exact scan_nest_step (Or.inl hc) (by simp [nest, ho, hc]) (closes_other ho hc d) (ih d)

/-- From one open level the token is a balanced text and the `c` behind it. -/
theorem scan_nest_iff (hne : o ≠ c) (s x r : List α) :
    scanWith (nest o c) 1 s = some (x ++ [c], r) ↔ s = x ++ c :: r ∧ Balanced o c x := by
  rw [balanced_iff_closes]
  exact scan_nest_iff_closes hne s 0 x r

/-- The last symbol of the counter's token is the closing one. -/
theorem scan_nest_last : ∀ {s : List α} {n : ℕ} {x r : List α},
    scanWith (nest o c) n s = some (x, r) → ∃ y, x = y ++ [c]
  | [], _, _, _, h => by simp [scanWith] at h
  | a :: s, n, x, r, h => by
    cases hd : nest o c n a with
    | none =>
      have ha : a = c := by
        unfold nest at hd
        split_ifs at hd with h1 h2
        exact h2
      obtain ⟨rfl, -⟩ := (scanWith_stop_iff hd s x r).mp h
      exact ⟨[], by rw [ha]; rfl⟩
    | some n' =>
      obtain ⟨y, rfl, hy⟩ := (scanWith_go_iff hd s x r).mp h
      obtain ⟨z, rfl⟩ := scan_nest_last hy
      exact ⟨a :: z, rfl⟩

end Nest

end Scanner
