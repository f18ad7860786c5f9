/-
# Which lists survive their text

`roundtrip_iff`: a list is read back from its text exactly when it has an item
and every item is `Safe`: empty, or with whitespace and balanced braces, or
without whitespace and a token of the parser by itself. `b6b_as_str` quotes an
item only for its whitespace (`quote`), so the first item that is not safe
swallows a neighbour, splits, or stops the parser; the other direction reads the
text item by item (`tokens_quote_iff`).

`reparse_iff`: the items of a text survive being written out again exactly when
the text is `Stable`. Not every text the parser accepts is: it strips the braces
of a token like `{{a}}`, and nothing puts them back.
-/
import B6b.Tokens

namespace B6b

open Scanner

/-- An item that `b6b_as_str` writes as something the parser reads back. -/
def Safe (x : Bytes) : Prop :=
  x = [] ∨ (spaced x = true ∧ BracBalanced x) ∨
    (x ≠ [] ∧ spaced x = false ∧ x.head? ≠ some lbrac ∧
      (x.head? = some lbrak → brakScan x 1 1 0 = .ok (x.length - 1)))

/-- An item as it stands in the text. -/
def quote (x : Bytes) : Bytes :=
  if x = [] ∨ spaced x = true then lbrac :: x ++ [rbrac] else x

/-- The items behind the first one, each behind a blank. -/
def tailStr (l : List Bytes) : Bytes := l.flatMap fun x => blank :: quote x

theorem joinItem_none (x : Bytes) : joinItem none x = quote x := by
  unfold joinItem quote
  by_cases h0 : x = []
  · simp [h0]
  · by_cases hs : spaced x = true <;> simp [h0, hs]

theorem joinItem_some (s x : Bytes) : joinItem (some s) x = s ++ blank :: quote x := by
  unfold joinItem quote
  by_cases h0 : x = []
  · simp [h0]
  · by_cases hs : spaced x = true <;> simp [h0, hs]

theorem foldl_joinItem : ∀ (l : List Bytes) (s : Bytes),
    l.foldl (fun s x => some (joinItem s x)) (some s) = some (s ++ tailStr l)
  | [], s => by simp [tailStr]
  | x :: l, s => by
    rw [List.foldl_cons, joinItem_some, foldl_joinItem l]
    simp [tailStr]

theorem listStr_nil : listStr [] = [lbrac, rbrac] := rfl

/-- The text of a list is its items, quoted, with a blank between them. -/
theorem listStr_cons (x : Bytes) (l : List Bytes) : listStr (x :: l) = quote x ++ tailStr l := by
  unfold listStr
  rw [List.foldl_cons, joinItem_none, foldl_joinItem l]

theorem breaks_tailStr (l : List Bytes) : Breaks (tailStr l) := by
  cases l with
  | nil => simp [Breaks, tailStr]
  | cons x l => simp [Breaks, tailStr]

/-! ### What a text begins with -/

theorem tokens_space_iff {c : UInt8} (hc : isspace c = true) (s : Bytes) (l : List Bytes) :
    Tokens (c :: s) l ↔ Tokens s l := by
  refine ⟨fun h => ?_, Tokens.space hc⟩
  generalize hs : c :: s = u at h
  cases h with
  | nil => cases hs
  | space _ h => obtain ⟨-, rfl⟩ := List.cons.inj hs; exact h
  | @word w t l hw _ _ =>
    obtain ⟨d, v, rfl⟩ := List.exists_cons_of_ne_nil hw.1
    obtain ⟨rfl, -⟩ := List.cons.inj hs
    rw [hw.2.1 c List.mem_cons_self] at hc
    cases hc
  | brac _ _ =>
    obtain ⟨rfl, -⟩ := List.cons.inj hs
    simp at hc
  | brak hx _ =>
    obtain ⟨y, rfl, -⟩ := hx
    obtain ⟨rfl, -⟩ := List.cons.inj hs
    simp at hc

theorem tokens_brac {s : Bytes} {l : List Bytes} (h : Tokens (lbrac :: s) l) :
    ∃ x t l', s = x ++ rbrac :: t ∧ BracBalanced x ∧ l = x :: l' ∧ Tokens t l' := by
  generalize hs : lbrac :: s = u at h
  cases h with
  | nil => cases hs
  | space hc _ => obtain ⟨rfl, -⟩ := List.cons.inj hs; simp at hc
  | @word w t l hw _ _ =>
    obtain ⟨d, v, rfl⟩ := List.exists_cons_of_ne_nil hw.1
    obtain ⟨rfl, -⟩ := List.cons.inj hs
    exact absurd rfl hw.2.2.1
  | @brac x t l hx ht =>
    obtain ⟨-, rfl⟩ := List.cons.inj hs
    exact ⟨x, t, l, rfl, hx, rfl, ht⟩
  | brak hx _ =>
    obtain ⟨y, rfl, -⟩ := hx
    exact absurd (List.cons.inj hs).1 (by decide)

theorem tokens_brak {s : Bytes} {l : List Bytes} (h : Tokens (lbrak :: s) l) :
    ∃ x t l', lbrak :: s = x ++ t ∧ IsBrak x ∧ l = x :: l' ∧ Tokens t l' := by
  generalize hs : lbrak :: s = u at h
  cases h with
  | nil => cases hs
  | space hc _ => obtain ⟨rfl, -⟩ := List.cons.inj hs; simp at hc
  | @word w t l hw _ _ =>
    obtain ⟨d, v, rfl⟩ := List.exists_cons_of_ne_nil hw.1
    obtain ⟨rfl, -⟩ := List.cons.inj hs
    exact absurd rfl hw.2.2.2
  | brac _ _ => exact absurd (List.cons.inj hs).1 (by decide)
  | @brak x t l hx ht => exact ⟨x, t, l, rfl, hx, rfl, ht⟩

theorem tokens_word {c : UInt8} {s : Bytes} {l : List Bytes} (hc : isspace c = false)
    (hb : c ≠ lbrac) (hk : c ≠ lbrak) (h : Tokens (c :: s) l) :
    ∃ w t l', c :: s = w ++ t ∧ l = w :: l' ∧ Tokens t l' := by
  generalize hs : c :: s = u at h
  cases h with
  | nil => cases hs
  | space hc' _ => obtain ⟨rfl, -⟩ := List.cons.inj hs; rw [hc] at hc'; cases hc'
  | @word w t l _ _ ht => exact ⟨w, t, l, rfl, rfl, ht⟩
  | brac _ _ => exact absurd (List.cons.inj hs).1 hb
  | brak hx _ =>
    obtain ⟨y, rfl, -⟩ := hx
    exact absurd (List.cons.inj hs).1 hk

/-! ### One item -/

theorem spaced_eq_false {x : Bytes} : spaced x = false ↔ ∀ c ∈ x, isspace c = false := by
  simp [spaced]

theorem balanced_nil : BracBalanced [] := by simp [BracBalanced, Scanner.Balanced]

theorem isBrak_iff (x : Bytes) :
    IsBrak x ↔ x.head? = some lbrak ∧ brakScan x 1 1 0 = .ok (x.length - 1) := by
  constructor
  · rintro ⟨y, rfl, hy⟩
    refine ⟨rfl, ?_⟩
    have := List.length_pos_iff.mpr (scanWith_ne_nil hy)
    rw [brakScan_eq (List.cons_ne_nil _ _), List.drop_one, List.tail_cons, hy]
    simp [endOf]
  · rintro ⟨h, hs⟩
    obtain ⟨y, rfl⟩ : ∃ y, x = lbrak :: y := by
      cases x with
      | nil => cases h
      | cons c y => obtain rfl := Option.some.inj h; exact ⟨y, rfl⟩
    obtain ⟨x, hd, hx, hend⟩ := brakScan_ok (Nat.succ_pos y.length) rfl hs
    have hall : (lbrak :: y).drop ((lbrak :: y).length - 1 + 1) = [] :=
      List.drop_eq_nil_of_le (Nat.le_refl _)
    rw [List.drop_zero, hall, List.append_nil] at hd
    rwa [hd]

/-- An item without whitespace is read back if it is a token by itself. -/
theorem tokens_plain_iff {x t : Bytes} {l : List Bytes} (hne : x ≠ []) (hsp : spaced x = false)
    (ht : Breaks t) : Tokens (x ++ t) (x :: l) ↔
      (x.head? ≠ some lbrac ∧ (x.head? = some lbrak → IsBrak x)) ∧ Tokens t l := by
  obtain ⟨c, y, rfl⟩ := List.exists_cons_of_ne_nil hne
  have hc : isspace c = false := spaced_eq_false.mp hsp c List.mem_cons_self
  constructor
  · intro h
    by_cases hb : c = lbrac
    · -- the parser strips a pair of braces, so a byte of `t` would be part of `x`
      subst hb
      obtain ⟨x', t', l', hs, -, hl, -⟩ := tokens_brac h
      obtain ⟨rfl, -⟩ := List.cons.inj hl
      cases t with
      | nil =>
        have := congrArg List.length hs
        simp at this
        omega
      | cons d t =>
        have hd : d ∈ lbrac :: y := by
          have hget : (y ++ d :: t)[y.length]? = some d := by simp
          rw [show List.append y (d :: t) = y ++ d :: t from rfl] at hs
          rw [hs, List.getElem?_append_left (by simp)] at hget
          exact List.mem_of_getElem? hget
        have h1 := spaced_eq_false.mp hsp d hd
        rw [ht d rfl] at h1
        cases h1
    · by_cases hk : c = lbrak
      · subst hk
        obtain ⟨x', t', l', hs, hx', hl, ht'⟩ := tokens_brak h
        obtain ⟨rfl, rfl⟩ := List.cons.inj hl
        obtain rfl := (List.append_right_inj (lbrak :: y)).mp hs
        exact ⟨⟨by simp, fun _ => hx'⟩, ht'⟩
      · obtain ⟨w, t', l', hs, hl, ht'⟩ := tokens_word hc hb hk h
        obtain ⟨rfl, rfl⟩ := List.cons.inj hl
        obtain rfl := (List.append_right_inj (c :: y)).mp hs
        exact ⟨⟨by simpa using hb, fun h => absurd (Option.some.inj h) hk⟩, ht'⟩
  · rintro ⟨⟨hb, hk⟩, hl⟩
    by_cases hck : c = lbrak
    · exact Tokens.brak (hk (by rw [hck]; rfl)) hl
    · refine Tokens.word ⟨hne, spaced_eq_false.mp hsp, hb, ?_⟩ ht hl
      simpa using hck

/-- In front of whitespace or of the end, a quoted item is read back if it is safe. -/
theorem tokens_quote_iff {x t : Bytes} {l : List Bytes} (ht : Breaks t) :
    Tokens (quote x ++ t) (x :: l) ↔ Safe x ∧ Tokens t l := by
  by_cases hq : x = [] ∨ spaced x = true
  · have hquote : quote x ++ t = lbrac :: (x ++ rbrac :: t) := by simp [quote, hq]
    have hsafe : Safe x ↔ BracBalanced x := by
      unfold Safe
      rcases hq with rfl | hq
      · simp [balanced_nil]
      · have hne : x ≠ [] := by rintro rfl; simp [spaced] at hq
        simp [hq, hne]
    rw [hquote, hsafe]
    constructor
    · intro h
      obtain ⟨x', t', l', hs, hx', hl, ht'⟩ := tokens_brac h
      obtain ⟨rfl, rfl⟩ := List.cons.inj hl
      obtain ⟨-, rfl⟩ := List.cons.inj (List.append_cancel_left hs)
      exact ⟨hx', ht'⟩
    · rintro ⟨hx, hl⟩
      exact Tokens.brac hx hl
  · obtain ⟨hne, hsp⟩ := not_or.mp hq
    have hsp : spaced x = false := by simpa using hsp
    have hsafe : Safe x ↔ x.head? ≠ some lbrac ∧ (x.head? = some lbrak → IsBrak x) := by
      unfold Safe
      simp only [hne, hsp, Bool.false_eq_true, false_and, false_or, ne_eq, not_false_eq_true, true_and]
      refine and_congr_right fun _ => ⟨fun h hx => (isBrak_iff x).mpr ⟨hx, h hx⟩, fun h hx => ?_⟩
      exact ((isBrak_iff x).mp (h hx)).2
    rw [hsafe, show quote x = x from if_neg hq]
    exact tokens_plain_iff hne hsp ht

theorem tokens_tailStr_iff : ∀ l : List Bytes, Tokens (tailStr l) l ↔ ∀ x ∈ l, Safe x
  | [] => by simpa [tailStr] using Tokens.nil
  | x :: l => by
    have hs : tailStr (x :: l) = blank :: (quote x ++ tailStr l) := by simp [tailStr]
    rw [hs, tokens_space_iff isspace_blank, tokens_quote_iff (breaks_tailStr l),
      tokens_tailStr_iff l, List.forall_mem_cons]

/-! ### The round trip -/

/-- **A list survives its text exactly when it has an item and all its items are
safe.** -/
theorem roundtrip_iff (l : List Bytes) :
    doAsList (listStr l) = .ok l ↔ l ≠ [] ∧ ∀ x ∈ l, Safe x := by
  rw [doAsList_iff]
  cases l with
  | nil =>
    refine iff_of_false (fun h => ?_) (by simp)
    obtain ⟨x, t, l', -, -, hl, -⟩ := tokens_brac (listStr_nil ▸ h)
    cases hl
  | cons x l =>
    rw [listStr_cons, tokens_quote_iff (breaks_tailStr l), tokens_tailStr_iff l, List.forall_mem_cons]
    simp

/-! ### Texts that are written as they were read -/

/-- Texts whose tokens can be written out again: what stands between the braces of
a token is empty, has whitespace, or is a token without them; a bracket token has
no whitespace, or balanced braces. -/
inductive StableTokens : Bytes → Prop
  | nil : StableTokens []
  | space {c : UInt8} {t : Bytes} : isspace c = true → StableTokens t → StableTokens (c :: t)
  | word {w t : Bytes} : IsWord w → Breaks t → StableTokens t → StableTokens (w ++ t)
  | brac {x t : Bytes} : BracBalanced x →
      (x = [] ∨ spaced x = true ∨ (x.head? ≠ some lbrac ∧ (x.head? = some lbrak → IsBrak x))) →
      StableTokens t → StableTokens (lbrac :: x ++ rbrac :: t)
  | brak {x t : Bytes} : IsBrak x → (spaced x = true → BracBalanced x) →
      StableTokens t → StableTokens (x ++ t)

/-- A text with a token, all of whose tokens can be written out again. -/
def Stable (s : Bytes) : Prop := (∃ c ∈ s, isspace c = false) ∧ StableTokens s

theorem safe_word {w : Bytes} (hw : IsWord w) : Safe w :=
  Or.inr (Or.inr ⟨hw.1, spaced_eq_false.mpr hw.2.1, hw.2.2.1, fun h => absurd h hw.2.2.2⟩)

theorem safe_brak_iff {x : Bytes} (hx : IsBrak x) : Safe x ↔ (spaced x = true → BracBalanced x) := by
  obtain ⟨hhead, hscan⟩ := (isBrak_iff x).mp hx
  have hne : x ≠ [] := by rintro rfl; cases hhead
  unfold Safe
  cases hsp : spaced x <;> simp [hne, hhead, hscan]

theorem safe_brac_iff {x : Bytes} (hx : BracBalanced x) : Safe x ↔
    (x = [] ∨ spaced x = true ∨ (x.head? ≠ some lbrac ∧ (x.head? = some lbrak → IsBrak x))) := by
  have hbrak : (x.head? = some lbrak → brakScan x 1 1 0 = .ok (x.length - 1)) ↔
      (x.head? = some lbrak → IsBrak x) := by
    refine forall_congr' fun h => ?_
    rw [isBrak_iff]
    simp [h]
  unfold Safe
  rw [hbrak]
  by_cases hne : x = []
  · simp [hne]
  · cases hsp : spaced x <;> simp [hne, hx]

theorem tokens_of_stableTokens {s : Bytes} (h : StableTokens s) :
    ∃ l, Tokens s l ∧ ∀ x ∈ l, Safe x := by
  induction h with
  | nil => exact ⟨[], Tokens.nil, by simp⟩
  | space hc _ ih =>
    obtain ⟨l, hl, hs⟩ := ih
    exact ⟨l, Tokens.space hc hl, hs⟩
  | word hw ht _ ih =>
    obtain ⟨l, hl, hs⟩ := ih
    exact ⟨_ :: l, Tokens.word hw ht hl, List.forall_mem_cons.mpr ⟨safe_word hw, hs⟩⟩
  | brac hx hq _ ih =>
    obtain ⟨l, hl, hs⟩ := ih
    exact ⟨_ :: l, Tokens.brac hx hl, List.forall_mem_cons.mpr ⟨(safe_brac_iff hx).mpr hq, hs⟩⟩
  | brak hx hq _ ih =>
    obtain ⟨l, hl, hs⟩ := ih
    exact ⟨_ :: l, Tokens.brak hx hl, List.forall_mem_cons.mpr ⟨(safe_brak_iff hx).mpr hq, hs⟩⟩

theorem stableTokens_of_safe {s : Bytes} {l : List Bytes} (h : Tokens s l) (hs : ∀ x ∈ l, Safe x) :
    StableTokens s := by
  induction h with
  | nil => exact StableTokens.nil
  | space hc _ ih => exact StableTokens.space hc (ih hs)
  | word hw ht _ ih =>
    obtain ⟨-, hs⟩ := List.forall_mem_cons.mp hs
    exact StableTokens.word hw ht (ih hs)
  | brac hx _ ih =>
    obtain ⟨h1, hs⟩ := List.forall_mem_cons.mp hs
    exact StableTokens.brac hx ((safe_brac_iff hx).mp h1) (ih hs)
  | brak hx _ ih =>
    obtain ⟨h1, hs⟩ := List.forall_mem_cons.mp hs
    exact StableTokens.brak hx ((safe_brak_iff hx).mp h1) (ih hs)

/-- A text has an item exactly when it has a byte that is not whitespace. -/
theorem tokens_ne_nil_iff {s : Bytes} {l : List Bytes} (h : Tokens s l) :
    l ≠ [] ↔ ∃ c ∈ s, isspace c = false := by
  induction h with
  | nil => simp
  | @space c t l hc _ ih => simp [ih, hc]
  | @word w t l hw _ _ _ =>
    obtain ⟨c, v, rfl⟩ := List.exists_cons_of_ne_nil hw.1
    exact iff_of_true (by simp) ⟨c, by simp, hw.2.1 c List.mem_cons_self⟩
  | brac _ _ _ => exact iff_of_true (by simp) ⟨lbrac, by simp, by simp⟩
  | brak hx _ _ =>
    obtain ⟨y, rfl, -⟩ := hx
    exact iff_of_true (by simp) ⟨lbrak, by simp, by simp⟩

/-- **The items of a text survive being written out again exactly when the text is
stable.** -/
theorem reparse_iff (s : Bytes) (l : List Bytes) (h : doAsList s = .ok l) :
    doAsList (listStr l) = .ok l ↔ Stable s := by
  have ht := (doAsList_iff s l).mp h
  rw [roundtrip_iff, tokens_ne_nil_iff ht]
  refine and_congr_right fun _ => ⟨stableTokens_of_safe ht, fun hst => ?_⟩
  obtain ⟨l', hl', hsafe⟩ := tokens_of_stableTokens hst
  have : (.ok l' : Except ParseError _) = .ok l := by rw [← (doAsList_iff s l').mpr hl', h]
  exact Except.ok.inj this ▸ hsafe

/-- `a {b c}` -/
theorem reparse_a_bc :
    doAsList (listStr [[0x61], [0x62, 0x20, 0x63]]) = .ok [[0x61], [0x62, 0x20, 0x63]] ↔
      Stable [0x61, 0x20, lbrac, 0x62, 0x20, 0x63, rbrac] :=
  reparse_iff _ _ (by decide +kernel)

/-- The text `{{a}}` has the item `{a}`; written out again, it has the item `a`. -/
theorem reparse_nested_braces :
    ¬ ∀ s l, doAsList s = .ok l → doAsList (listStr l) = .ok l := by
  intro h
  have := h [lbrac, lbrac, 0x61, rbrac, rbrac] [[lbrac, 0x61, rbrac]] (by decide +kernel)
  revert this
  decide +kernel

end B6b
