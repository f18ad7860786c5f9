/-
# Brackets inside braces

The scan of a `[` token is meant to skip what is in braces: it ends at no `]` inside them.
But it counts the brackets inside braces with the others, so those have to cancel out.
`brak_literal_iff`: a bracket token around a text with balanced braces, and balanced brackets
outside them, is one item exactly when they do (`Cancels`).

Key definitions: `outside`, `inside`, `Cancels`.
-/
import B6b.Codec

namespace B6b

namespace Brackets

open Scanner

/-- The bytes outside all braces, behind `d` braces that are open. -/
def outside : ℕ → Bytes → Bytes
  | _, [] => []
  | d, c :: s =>
    if c = lbrac then outside (d + 1) s
    else if c = rbrac then outside (d - 1) s
    else if d = 0 then c :: outside d s
    else outside d s

/-- The bytes inside braces, behind `d` braces that are open. -/
def inside : ℕ → Bytes → Bytes
  | _, [] => []
  | d, c :: s =>
    if c = lbrac then inside (d + 1) s
    else if c = rbrac then inside (d - 1) s
    else if d = 0 then inside d s
    else c :: inside d s

/-- The brackets that a text opens, less those that it closes. -/
def excess (s : Bytes) : ℤ := s.count lbrak - s.count rbrak

/-- The braces that a text opens, less those that it closes. -/
def bracExcess (s : Bytes) : ℤ := s.count lbrac - s.count rbrac

/-- The brackets inside the braces cancel out: over the whole text, and at no `]` outside the
braces do those before it close exactly the brackets that are open outside. -/
def Cancels (w : Bytes) : Prop :=
  excess (inside 0 w) = 0 ∧ ∀ p, p ++ [rbrak] <+: w → p.count lbrac = p.count rbrac →
    -excess (inside 0 p) ≠ excess (outside 0 p)

theorem excess_append (s t : Bytes) : excess (s ++ t) = excess s + excess t := by
  simp only [excess, List.count_append]
  omega

theorem bracExcess_append (s t : Bytes) : bracExcess (s ++ t) = bracExcess s + bracExcess t := by
  simp only [bracExcess, List.count_append]
  omega

theorem excess_cons (c : UInt8) (s : Bytes) : excess (c :: s) = excess [c] + excess s :=
  excess_append [c] s

@[simp] theorem excess_nil : excess [] = 0 := rfl
@[simp] theorem bracExcess_nil : bracExcess [] = 0 := rfl
@[simp] theorem excess_lbrac : excess [lbrac] = 0 := by decide
@[simp] theorem excess_rbrac : excess [rbrac] = 0 := by decide
@[simp] theorem excess_lbrak : excess [lbrak] = 1 := by decide
@[simp] theorem excess_rbrak : excess [rbrak] = -1 := by decide
@[simp] theorem bracExcess_lbrac : bracExcess [lbrac] = 1 := by decide
@[simp] theorem bracExcess_rbrac : bracExcess [rbrac] = -1 := by decide

theorem excess_other {c : UInt8} (h1 : c ≠ lbrak) (h2 : c ≠ rbrak) : excess [c] = 0 := by
  simp [excess, h1, h2]

theorem bracExcess_other {c : UInt8} (h1 : c ≠ lbrac) (h2 : c ≠ rbrac) : bracExcess [c] = 0 := by
  simp [bracExcess, h1, h2]

/-- The brackets are those outside and those inside. -/
theorem excess_split : ∀ (d : ℕ) (s : Bytes), excess s = excess (outside d s) + excess (inside d s)
  | _, [] => rfl
  | d, c :: s => by
    rw [excess_cons]
    by_cases ho : c = lbrac
    · have ih := excess_split (d + 1) s
      simp only [outside, inside, if_pos ho]
      rw [ho, excess_lbrac, ih, zero_add]
    · by_cases hc : c = rbrac
      · have ih := excess_split (d - 1) s
        simp only [outside, inside, if_neg ho, if_pos hc]
        rw [hc, excess_rbrac, ih, zero_add]
      · have ih := excess_split d s
        simp only [outside, inside, if_neg ho, if_neg hc]
        by_cases hd : d = 0
        · rw [if_pos hd, if_pos hd, excess_cons c (outside d s), ih, add_assoc]
        · rw [if_neg hd, if_neg hd, excess_cons c (inside d s), ih, add_left_comm]

/-! ### The scan -/

/-- The brackets and braces that are open behind a text. -/
def behind (q : ℤ × ℤ) (s : Bytes) : ℤ × ℤ := (q.1 + excess s, q.2 + bracExcess s)

theorem behind_append (q : ℤ × ℤ) (s t : Bytes) : behind q (s ++ t) = behind (behind q s) t := by
  simp only [behind, excess_append, bracExcess_append, add_assoc]

/-- The scan ends at `c`. -/
def Ends (q : ℤ × ℤ) (c : UInt8) : Prop := c = rbrak ∧ q.1 - 1 = 0 ∧ q.2 = 0

/-- Where the scan does not end, it counts. -/
theorem brakStep_eq_some {q q' : ℤ × ℤ} {c : UInt8} :
    brakStep q c = some q' ↔ ¬ Ends q c ∧ behind q [c] = q' := by
  unfold brakStep Ends behind
  by_cases h1 : c = lbrac
  · subst h1
    simp [show lbrac ≠ rbrak by decide]
  by_cases h2 : c = rbrac
  · subst h2
    simp [show rbrac ≠ lbrac by decide, show rbrac ≠ rbrak by decide, sub_eq_add_neg]
  by_cases h3 : c = lbrak
  · subst h3
    simp [show lbrak ≠ rbrac by decide, show lbrak ≠ rbrak by decide,
      bracExcess_other (c := lbrak) (by decide) (by decide)]
  by_cases h4 : c = rbrak
  · subst h4
    by_cases he : q.1 - 1 = 0 ∧ q.2 = 0
    · simp [h1, h2, h3, he]
    · simp [h1, h2, h3, bracExcess_other h1 h2, sub_eq_add_neg]
  · simp [h1, h2, h3, h4, excess_other h3 h4, bracExcess_other h1 h2]

theorem brakStep_eq_none {q : ℤ × ℤ} {c : UInt8} : brakStep q c = none ↔ Ends q c := by
  rw [Option.eq_none_iff_forall_ne_some]
  constructor
  · intro h
    by_contra hc
    exact h _ (brakStep_eq_some.mpr ⟨hc, rfl⟩)
  · intro h q' hq
    exact (brakStep_eq_some.mp hq).1 h

/-- The scan reads a text to its end when it ends at no byte of it. -/
theorem foldlM_brakStep {q q' : ℤ × ℤ} (w : Bytes) : w.foldlM brakStep q = some q' ↔
    (∀ p c, p ++ [c] <+: w → ¬ Ends (behind q p) c) ∧ behind q w = q' := by
  induction w using List.reverseRecOn generalizing q' with
  | nil => simp [behind]
  | append_singleton w c ih =>
    have hlast : ∀ r, [c].foldlM brakStep r = brakStep r c := fun r => by simp
    rw [List.foldlM_append, Option.bind_eq_bind, Option.bind_eq_some_iff]
    simp only [hlast, ih, brakStep_eq_some, behind_append]
    constructor
    · rintro ⟨_, ⟨hw, rfl⟩, hc, rfl⟩
      refine ⟨fun p d hp => ?_, rfl⟩
      rcases List.prefix_concat_iff.mp hp with heq | hp
      · obtain ⟨rfl, hd⟩ := List.append_inj' heq rfl
        obtain rfl := List.singleton_inj.mp hd
        exact hc
      · exact hw p d hp
    · rintro ⟨hw, rfl⟩
      refine ⟨_, ⟨fun p d hp => hw p d (hp.trans (List.prefix_append _ _)), rfl⟩, ?_, rfl⟩
      exact hw w c List.prefix_rfl

/-- A text in brackets is one token when the scan ends at its last byte. -/
theorem isBrak_snoc_iff (w : Bytes) : IsBrak (lbrak :: w ++ [rbrak]) ↔
    (∀ p, p ++ [rbrak] <+: w → ¬ (excess p = 0 ∧ bracExcess p = 0)) ∧
      excess w = 0 ∧ bracExcess w = 0 := by
  have hends : ∀ p, Ends (behind (1, 0) p) rbrak ↔ excess p = 0 ∧ bracExcess p = 0 := by
    intro p
    simp [Ends, behind]
  unfold IsBrak
  simp only [List.cons_append, List.cons.injEq, true_and, exists_eq_left', scanWith_snoc_iff,
    foldlM_brakStep, brakStep_eq_none]
  constructor
  · rintro ⟨_, ⟨hw, rfl⟩, hend⟩
    exact ⟨fun p hp => mt (hends p).mpr (hw p _ hp), (hends w).mp hend⟩
  · rintro ⟨hw, hend⟩
    refine ⟨_, ⟨fun p c hp => ?_, rfl⟩, (hends w).mpr hend⟩
    rintro hc
    obtain rfl := hc.1
    exact hw p hp ((hends p).mp hc)

/-- A text in brackets is one item when it is one token. -/
theorem doAsList_brak_iff (w : Bytes) :
    doAsList (lbrak :: w ++ [rbrak]) = .ok [lbrak :: w ++ [rbrak]] ↔ IsBrak (lbrak :: w ++ [rbrak]) := by
  rw [doAsList_iff]
  constructor
  · intro h
    obtain ⟨x, t, l, -, hx, hl, -⟩ := tokens_brak h
    rwa [(List.cons.inj hl).1]
  · intro h
    simpa using Tokens.brak h Tokens.nil

/-! ### Where braced text is literal -/

theorem bracExcess_eq_zero_iff (s : Bytes) : bracExcess s = 0 ↔ s.count lbrac = s.count rbrac := by
  unfold bracExcess
  omega

/-- **A bracket token around braced text.** For every text with balanced braces, and balanced
brackets outside the braces, the text in brackets is one item exactly when the brackets inside
the braces cancel out. -/
theorem brak_literal_iff (w : Bytes) (hbrac : BracBalanced w)
    (hbrak : Balanced lbrak rbrak (outside 0 w)) :
    doAsList (lbrak :: w ++ [rbrak]) = .ok [lbrak :: w ++ [rbrak]] ↔ Cancels w := by
  have hw : bracExcess w = 0 := (bracExcess_eq_zero_iff w).mpr hbrac.1
  have hout : excess (outside 0 w) = 0 := by
    have := hbrak.1
    unfold excess
    omega
  rw [doAsList_brak_iff, isBrak_snoc_iff]
  unfold Cancels
  have htotal : (excess w = 0 ∧ bracExcess w = 0) ↔ excess (inside 0 w) = 0 := by
    rw [and_iff_left hw, excess_split 0 w, hout, zero_add]
  rw [htotal, and_comm]
  refine and_congr_right fun _ => forall₂_congr fun p _ => ?_
  rw [bracExcess_eq_zero_iff, excess_split 0 p, not_and']
  refine imp_congr_right fun _ => not_congr ?_
  rw [neg_eq_iff_add_eq_zero, add_comm]

/-- Braces are balanced as soon as the scan of a brace token ends behind them. -/
theorem balanced_of_scan {w : Bytes}
    (h : scanWith (nest lbrac rbrac) 1 (w ++ [rbrac]) = some (w ++ [rbrac], [])) : BracBalanced w :=
  ((scan_nest_iff lbrac_ne_rbrac _ _ _).mp h).2

theorem balanced_nil' : Balanced lbrak rbrak [] := by simp [Scanner.Balanced]

/-- `[{[]}]` -/
theorem brak_literal_nested :
    doAsList [lbrak, lbrac, lbrak, rbrak, rbrac, rbrak] =
      .ok [[lbrak, lbrac, lbrak, rbrak, rbrac, rbrak]] ↔ Cancels [lbrac, lbrak, rbrak, rbrac] :=
  brak_literal_iff [lbrac, lbrak, rbrak, rbrac] (balanced_of_scan (by decide)) balanced_nil'

/-- The text `[{]}]` is not even parsed: its last `]` is the second one. -/
theorem brak_not_literal : ¬ ∀ w : Bytes, BracBalanced w → Balanced lbrak rbrak (outside 0 w) →
    doAsList (lbrak :: w ++ [rbrak]) = .ok [lbrak :: w ++ [rbrak]] := by
  intro h
  have hparse := h [lbrac, rbrak, rbrac] (balanced_of_scan (by decide)) balanced_nil'
  revert hparse
  decide +kernel

end Brackets

end B6b
