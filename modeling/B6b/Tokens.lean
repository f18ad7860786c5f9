/-
# The grammar of a list's text

`Tokens s l`: the text `s` is whitespace and tokens, and the tokens stand for
the items `l`. A token is a word (no whitespace, does not begin with `{` or
`[`), a balanced text in braces, which stands for the text between them, or a
bracket token, which stands for itself. A word ends at whitespace or at the end
of the text; the other tokens end where their scan ends.

`doAsList_iff`: the parser of `b6b_list.c` accepts a text with the items `l`
exactly when `Tokens s l`.
-/
import B6b.Text
import B6b.Lib.Scanner

namespace B6b

open Scanner

/-- One byte of a `[` token: the open brackets and the open braces before it, and
after it; the token ends with the `]` that leaves none of both. -/
def brakStep (q : ℤ × ℤ) (c : UInt8) : Option (ℤ × ℤ) :=
  if c = lbrac then some (q.1, q.2 + 1)
  else if c = rbrac then some (q.1, q.2 - 1)
  else if c = lbrak then some (q.1 + 1, q.2)
  else if c = rbrak then if q.1 - 1 = 0 ∧ q.2 = 0 then none else some (q.1 - 1, q.2)
  else some q

/-- A word. -/
def IsWord (w : Bytes) : Prop :=
  w ≠ [] ∧ (∀ c ∈ w, isspace c = false) ∧ w.head? ≠ some lbrac ∧ w.head? ≠ some lbrak

/-- A bracket token: the scan that starts behind its `[` ends with it. -/
def IsBrak (x : Bytes) : Prop := ∃ y, x = lbrak :: y ∧ scanWith brakStep (1, 0) y = some (y, [])

@[simp] theorem lbrac_ne_rbrac : lbrac ≠ rbrac := by decide
@[simp] theorem lbrak_ne_lbrac : lbrak ≠ lbrac := by decide
@[simp] theorem isspace_lbrac : isspace lbrac = false := by decide
@[simp] theorem isspace_lbrak : isspace lbrak = false := by decide
@[simp] theorem isspace_blank : isspace blank = true := by decide

/-- A text with as many `{` as `}`, and no prefix with more `}` than `{`. -/
abbrev BracBalanced (x : Bytes) : Prop := Balanced lbrac rbrac x

/-- Where a word ends: at whitespace or at the end of the text. -/
def Breaks (t : Bytes) : Prop := ∀ c ∈ t.head?, isspace c = true

/-- The texts of the items `l`. -/
inductive Tokens : Bytes → List Bytes → Prop
  | nil : Tokens [] []
  | space {c : UInt8} {t : Bytes} {l : List Bytes} : isspace c = true → Tokens t l → Tokens (c :: t) l
  | word {w t : Bytes} {l : List Bytes} : IsWord w → Breaks t → Tokens t l → Tokens (w ++ t) (w :: l)
  | brac {x t : Bytes} {l : List Bytes} : BracBalanced x → Tokens t l →
      Tokens (lbrac :: x ++ rbrac :: t) (x :: l)
  | brak {x t : Bytes} {l : List Bytes} : IsBrak x → Tokens t l → Tokens (x ++ t) (x :: l)

/-! ### The scans -/

theorem read_of_lt {s : Bytes} {j : ℕ} (h : j < s.length) : read s j = .ok s[j] := by
  simp [read, h]

theorem le_last_iff {s : Bytes} {i j : ℕ} (hi : i < s.length) : j ≤ last s ↔ j < s.length := by
  unfold last
  rw [if_neg (by omega)]
  omega

/-- The index at which a token found from `j` on ends. -/
def endOf (j : ℕ) : Option (Bytes × Bytes) → Except ParseError ℕ
  | none => .error .uneven
  | some (x, _) => .ok (j + x.length - 1)

theorem endOf_map (j : ℕ) (c : UInt8) (o : Option (Bytes × Bytes)) :
    endOf j (o.map fun p => (c :: p.1, p.2)) = endOf (j + 1) o := by
  cases o with
  | none => rfl
  | some p => simp only [Option.map_some, endOf, List.length_cons]; congr 1; omega

theorem endOf_go {δ : α → UInt8 → Option α} {q q' : α} {s : Bytes} {j : ℕ} (h : j < s.length)
    (hd : δ q s[j] = some q') :
    endOf j (scanWith δ q (s.drop j)) = endOf (j + 1) (scanWith δ q' (s.drop (j + 1))) := by
  rw [List.drop_eq_getElem_cons h, scanWith_go hd, endOf_map]

theorem endOf_stop {δ : α → UInt8 → Option α} {q : α} {s : Bytes} {j : ℕ} (h : j < s.length)
    (hd : δ q s[j] = none) : endOf j (scanWith δ q (s.drop j)) = .ok j := by
  rw [List.drop_eq_getElem_cons h, scanWith_stop hd]
  rfl

theorem endOf_drop {δ : α → UInt8 → Option α} {q : α} {s : Bytes} {j : ℕ} (h : ¬ j < s.length) :
    endOf j (scanWith δ q (s.drop j)) = .error .uneven := by
  rw [List.drop_eq_nil_of_le (Nat.le_of_not_lt h)]
  rfl

/-- The brace scan is the nesting counter. -/
theorem bracScan_eq {s : Bytes} (hs : s ≠ []) (j nbrac : ℕ) :
    bracScan s j nbrac = endOf j (scanWith (nest lbrac rbrac) nbrac (s.drop j)) := by
  have hlast : ∀ {j : ℕ}, j ≤ last s ↔ j < s.length := le_last_iff (List.length_pos_iff.mpr hs)
  fun_induction bracScan s j nbrac with
  | case1 j n h e he => rw [read_of_lt (hlast.mp h)] at he; cases he
  | case2 j n h hc ih =>
    rw [read_of_lt (hlast.mp h)] at hc
    rw [ih, endOf_go (hlast.mp h)]
    simp [nest, Except.ok.inj hc]
  | case3 j n h hn hc h1 =>
    rw [read_of_lt (hlast.mp h)] at hc
    rw [endOf_stop (hlast.mp h)]
    simp [nest, Except.ok.inj hc, h1, hn]
  | case4 j n h hn hc h1 ih =>
    rw [read_of_lt (hlast.mp h)] at hc
    rw [ih, endOf_go (hlast.mp h)]
    simp [nest, Except.ok.inj hc, h1, hn]
  | case5 j n h c hc h1 h2 ih =>
    rw [read_of_lt (hlast.mp h)] at hc
    rw [ih, endOf_go (hlast.mp h)]
    simp [nest, Except.ok.inj hc, h1, h2]
  | case6 j n h => rw [endOf_drop (mt hlast.mpr h)]

/-- The bracket scan is the automaton `brakStep`. -/
theorem brakScan_eq {s : Bytes} (hs : s ≠ []) (j : ℕ) (nbrak nbrac : ℤ) :
    brakScan s j nbrak nbrac = endOf j (scanWith brakStep (nbrak, nbrac) (s.drop j)) := by
  have hlast : ∀ {j : ℕ}, j ≤ last s ↔ j < s.length := le_last_iff (List.length_pos_iff.mpr hs)
  fun_induction brakScan s j nbrak nbrac with
  | case1 j m n h e he => rw [read_of_lt (hlast.mp h)] at he; cases he
  | case2 j m n h hc ih =>
    rw [read_of_lt (hlast.mp h)] at hc
    rw [ih, endOf_go (hlast.mp h)]
    simp [brakStep, Except.ok.inj hc]
  | case3 j m n h hc h1 ih =>
    rw [read_of_lt (hlast.mp h)] at hc
    rw [ih, endOf_go (hlast.mp h)]
    simp [brakStep, Except.ok.inj hc, h1]
  | case4 j m n h hc h1 h2 ih =>
    rw [read_of_lt (hlast.mp h)] at hc
    rw [ih, endOf_go (hlast.mp h)]
    simp [brakStep, Except.ok.inj hc, h1, h2]
  | case5 j m n h hn hc h1 h2 h3 =>
    rw [read_of_lt (hlast.mp h)] at hc
    rw [endOf_stop (hlast.mp h)]
    simp [brakStep, Except.ok.inj hc, h1, h2, h3, hn]
  | case6 j m n h hn hc h1 h2 h3 ih =>
    rw [read_of_lt (hlast.mp h)] at hc
    rw [ih, endOf_go (hlast.mp h)]
    simp only [brakStep, Except.ok.inj hc, if_neg h1, if_neg h2, if_neg h3, if_neg hn, if_true]
  | case7 j m n h c hc h1 h2 h3 h4 ih =>
    rw [read_of_lt (hlast.mp h)] at hc
    rw [ih, endOf_go (hlast.mp h)]
    simp [brakStep, Except.ok.inj hc, h1, h2, h3, h4]
  | case8 j m n h => rw [endOf_drop (mt hlast.mpr h)]

theorem wordEnd_read {s : Bytes} {j : ℕ} {c : UInt8} (h : read s j = .ok c) :
    wordEnd s j = if isspace c then .ok j else wordEnd s (j + 1) := by
  rw [wordEnd, if_pos (Nat.ne_of_lt (lt_of_read h))]
  split
  · rename_i e he
    rw [h] at he
    cases he
  · rename_i d hd
    rw [h] at hd
    rw [Except.ok.inj hd]

theorem wordEnd_append {s : Bytes} {t : Bytes} (ht : Breaks t) : ∀ {w : Bytes} {j : ℕ},
    (∀ c ∈ w, isspace c = false) → s.drop j = w ++ t → j ≤ s.length →
      wordEnd s j = .ok (j + w.length)
  | [], j, _, h, hj => by
    rcases Nat.lt_or_eq_of_le hj with hlt | heq
    · rw [List.nil_append, List.drop_eq_getElem_cons hlt] at h
      have hsp : isspace s[j] = true := ht s[j] (by rw [← h]; rfl)
      rw [wordEnd_read (read_of_lt hlt), if_pos hsp]
      rfl
    · rw [wordEnd, if_neg (not_not.mpr heq)]
      rfl
  | c :: w, j, hw, h, _ => by
    have hlt : j < s.length := by
      by_contra hc
      rw [List.drop_eq_nil_of_le (Nat.le_of_not_lt hc)] at h
      simp at h
    rw [List.drop_eq_getElem_cons hlt, List.cons_append] at h
    obtain ⟨hc, h'⟩ := List.cons.inj h
    have hsp : isspace s[j] = false := hc ▸ hw c List.mem_cons_self
    have ih := wordEnd_append ht (fun x hx => hw x (List.mem_cons_of_mem _ hx)) h' hlt
    rw [wordEnd_read (read_of_lt hlt), hsp, if_neg Bool.false_ne_true, ih, List.length_cons]
    congr 1
    omega

/-- What the word scan has passed when it ends at `k`. -/
theorem wordEnd_ok {s : Bytes} {j k : ℕ} (h : wordEnd s j = .ok k) (hj : j ≤ s.length) :
    j ≤ k ∧ k ≤ s.length ∧ (∀ c ∈ slice s j k, isspace c = false) ∧ Breaks (s.drop k) := by
  fun_induction wordEnd s j with
  | case1 => cases h
  | case2 j hne c hc hsp =>
    obtain rfl := Except.ok.inj h
    have hlt := lt_of_read hc
    rw [read_of_lt hlt] at hc
    refine ⟨le_rfl, hj, by simp [slice], ?_⟩
    intro x hx
    rw [List.drop_eq_getElem_cons hlt, Except.ok.inj hc] at hx
    obtain rfl := Option.some.inj hx
    exact hsp
  | case3 j hne c hc hsp ih =>
    have hlt := lt_of_read hc
    obtain ⟨h1, h2, h3, h4⟩ := ih h hlt
    rw [read_of_lt hlt] at hc
    refine ⟨by omega, h2, ?_, h4⟩
    intro x hx
    rw [slice, List.drop_eq_getElem_cons hlt, show k - j = (k - (j + 1)) + 1 by omega,
      List.take_succ_cons, Except.ok.inj hc] at hx
    rcases List.mem_cons.mp hx with rfl | hx
    · simpa using hsp
    · exact h3 x hx
  | case4 j hne =>
    obtain rfl := Except.ok.inj h
    refine ⟨le_rfl, hj, by simp [slice], ?_⟩
    rw [List.drop_eq_nil_of_le (by omega)]
    simp [Breaks]

/-! ### The parser, one token at a time -/

theorem drop_drop_append {s x t : Bytes} {i n : ℕ} (h : s.drop i = x ++ t) (hn : n = i + x.length) :
    s.drop n = t := by
  rw [hn, ← List.drop_drop, h, List.drop_left]

theorem lt_of_drop {s t : Bytes} {c : UInt8} {i : ℕ} (h : s.drop i = c :: t) : i < s.length := by
  by_contra hc
  rw [List.drop_eq_nil_of_le (Nat.le_of_not_lt hc)] at h
  cases h

theorem read_of_drop {s t : Bytes} {c : UInt8} {i : ℕ} (h : s.drop i = c :: t) : read s i = .ok c := by
  have hlt := lt_of_drop h
  rw [List.drop_eq_getElem_cons hlt] at h
  rw [read_of_lt hlt, (List.cons.inj h).1]

theorem ne_nil_of_lt {s : Bytes} {i : ℕ} (h : i < s.length) : s ≠ [] :=
  List.length_pos_iff.mp (Nat.zero_lt_of_lt h)

theorem slice_of_drop {s x t : Bytes} {i j : ℕ} (h : s.drop i = x ++ t) (hj : j = i + x.length) :
    slice s i j = x := by
  rw [slice, h, hj, Nat.add_sub_cancel_left, List.take_left]

/-- A copy of what stands at `i` reads nothing behind the text. -/
theorem strCopy_of_drop {s x t : Bytes} {i j : ℕ} (h : s.drop i = x ++ t) (hi : i ≤ s.length)
    (hj : j = i + x.length) : strCopy s i j = .ok x := by
  have hlen : s.length - i = x.length + t.length := by
    rw [← List.length_drop, h, List.length_append]
  unfold strCopy
  rw [if_pos (by omega), slice_of_drop h hj]

theorem strCopy_ok {s x : Bytes} {i j : ℕ} (h : strCopy s i j = .ok x) :
    i ≤ j ∧ j ≤ s.length ∧ x = slice s i j := by
  unfold strCopy at h
  split_ifs at h with hij
  exact ⟨hij.1, hij.2, (Except.ok.inj h).symm⟩

theorem doAsListAt_end {s : Bytes} {i : ℕ} (h : s.length ≤ i) : doAsListAt s i = .ok [] := by
  rw [doAsListAt, if_neg (Nat.not_lt.mpr h)]

theorem doAsListAt_space {s t : Bytes} {c : UInt8} {i : ℕ} (h : s.drop i = c :: t)
    (hc : isspace c = true) : doAsListAt s i = doAsListAt s (i + 1) := by
  have hb : c ≠ lbrac := by rintro rfl; simp at hc
  have hk : c ≠ lbrak := by rintro rfl; simp at hc
  rw [doAsListAt]
  simp only [lt_of_drop h, ↓reduceIte, read_of_drop h, hb, hk, hc]

theorem doAsListAt_brac {s x t : Bytes} {i : ℕ} (h : s.drop i = lbrac :: x ++ rbrac :: t)
    (hx : BracBalanced x) : doAsListAt s i = (doAsListAt s (i + x.length + 2)).map (x :: ·) := by
  have hd : s.drop (i + 1) = x ++ rbrac :: t := drop_drop_append (x := [lbrac]) h rfl
  have hscan : bracScan s (i + 1) 1 = .ok (i + 1 + x.length) := by
    rw [bracScan_eq (ne_nil_of_lt (lt_of_drop h)), (scan_nest_iff lbrac_ne_rbrac _ _ _).mpr ⟨hd, hx⟩]
    simp only [endOf, List.length_append, List.length_singleton]
    rfl
  rw [List.cons_append] at h
  have hcopy : strCopy s (i + 1) (i + 1 + x.length) = .ok x := strCopy_of_drop hd (lt_of_drop h) rfl
  rw [doAsListAt]
  simp only [lt_of_drop h, ↓reduceIte, read_of_drop h, hscan, hcopy]
  congr 2
  omega

theorem doAsListAt_brak {s x t : Bytes} {i : ℕ} (h : s.drop i = x ++ t) (hx : IsBrak x) :
    doAsListAt s i = (doAsListAt s (i + x.length)).map (x :: ·) := by
  obtain ⟨y, rfl, hy⟩ := hx
  have hd : s.drop (i + 1) = y ++ t := drop_drop_append (x := [lbrak]) h rfl
  have hpos : y ≠ [] := scanWith_ne_nil hy
  have hscan : brakScan s (i + 1) 1 0 = .ok (i + y.length) := by
    rw [brakScan_eq (ne_nil_of_lt (lt_of_drop h)), hd, (selfDelimiting_scanWith _ _).extend t hy]
    simp only [endOf]
    congr 1
    have := List.length_pos_iff.mpr hpos
    omega
  have hcopy : strCopy s i (i + y.length + 1) = .ok (lbrak :: y) :=
    strCopy_of_drop h (Nat.le_of_lt (lt_of_drop h)) (by simp; omega)
  rw [List.cons_append] at h
  rw [doAsListAt]
  simp only [lt_of_drop h, ↓reduceIte, read_of_drop h, lbrak_ne_lbrac]
  split
  · rename_i e he; rw [hscan] at he; cases he
  · rename_i j hj
    rw [hscan] at hj
    obtain rfl := Except.ok.inj hj
    simp only [hcopy]
    congr 2
    simp only [List.length_cons]
    omega

theorem doAsListAt_word {s w t : Bytes} {i : ℕ} (h : s.drop i = w ++ t) (hw : IsWord w)
    (ht : Breaks t) : doAsListAt s i = (doAsListAt s (i + w.length)).map (w :: ·) := by
  obtain ⟨hne, hsp, hb, hk⟩ := hw
  obtain ⟨c, v, rfl⟩ := List.exists_cons_of_ne_nil hne
  have hc : isspace c = false := hsp c List.mem_cons_self
  have hcb : c ≠ lbrac := fun he => hb (by rw [he]; rfl)
  have hck : c ≠ lbrak := fun he => hk (by rw [he]; rfl)
  have hlt : i < s.length := lt_of_drop (by rw [h]; rfl)
  have hd : s.drop (i + 1) = v ++ t := drop_drop_append (x := [c]) h rfl
  have hend : wordEnd s (i + 1) = .ok (i + 1 + v.length) :=
    wordEnd_append ht (fun x hx => hsp x (List.mem_cons_of_mem _ hx)) hd hlt
  have hcopy : strCopy s i (i + 1 + v.length) = .ok (c :: v) :=
    strCopy_of_drop h (Nat.le_of_lt hlt) (by simp; omega)
  have hnext : i + (i + 1 + v.length - i) + 1 = i + (c :: v).length + 1 := by simp; omega
  have hdrop : s.drop (i + (c :: v).length) = t := drop_drop_append h rfl
  -- the source skips one byte behind a word: whitespace, or the end of the text
  have hskip : doAsListAt s (i + (c :: v).length + 1) = doAsListAt s (i + (c :: v).length) := by
    cases t with
    | nil =>
      have hle : s.length ≤ i + (c :: v).length := List.drop_eq_nil_iff.mp hdrop
      rw [doAsListAt_end hle, doAsListAt_end (Nat.le_succ_of_le hle)]
    | cons d t => exact (doAsListAt_space hdrop (ht d (by rfl))).symm
  rw [List.cons_append] at h
  rw [doAsListAt]
  simp only [lt_of_drop h, ↓reduceIte, read_of_drop h, hcb, hck, hc, Bool.false_eq_true, hend, hcopy,
    hnext, hskip]

/-! ### The parser and the grammar -/

/-- A text of the grammar is parsed to its items, wherever in `s` it is the rest. -/
theorem doAsListAt_of_tokens {s t : Bytes} {l : List Bytes} (h : Tokens t l) :
    ∀ {i : ℕ}, s.drop i = t → doAsListAt s i = .ok l := by
  induction h with
  | nil => intro i hi; exact doAsListAt_end (List.drop_eq_nil_iff.mp hi)
  | space hc _ ih =>
    intro i hi
    rw [doAsListAt_space hi hc]
    exact ih (drop_drop_append (x := [_]) hi rfl)
  | word hw ht _ ih =>
    intro i hi
    rw [doAsListAt_word hi hw ht, ih (drop_drop_append hi rfl)]
    rfl
  | brac hx _ ih =>
    intro i hi
    rw [doAsListAt_brac hi hx, ih (drop_drop_append (x := lbrac :: _ ++ [rbrac]) (by simpa using hi) (by simp; omega))]
    rfl
  | brak hx _ ih =>
    intro i hi
    rw [doAsListAt_brak hi hx, ih (drop_drop_append hi rfl)]
    rfl

theorem map_eq_ok {α β ε : Type*} {f : α → β} {e : Except ε α} {b : β} (h : e.map f = .ok b) :
    ∃ a, e = .ok a ∧ f a = b := by
  cases e with
  | error e => cases h
  | ok a => exact ⟨a, rfl, Except.ok.inj h⟩

theorem endOf_ok {j k : ℕ} {o : Option (Bytes × Bytes)} (h : endOf j o = .ok k) :
    ∃ x r, o = some (x, r) ∧ k = j + x.length - 1 := by
  cases o with
  | none => cases h
  | some p => exact ⟨p.1, p.2, rfl, (Except.ok.inj h).symm⟩

/-- A `{` token whose scan ends. -/
theorem bracScan_ok {s : Bytes} {i j : ℕ} (hlt : i < s.length) (h : bracScan s (i + 1) 1 = .ok j) :
    ∃ x, s.drop (i + 1) = x ++ rbrac :: s.drop (j + 1) ∧ BracBalanced x ∧ j = i + 1 + x.length := by
  rw [bracScan_eq (ne_nil_of_lt hlt)] at h
  obtain ⟨x, t, hscan, rfl⟩ := endOf_ok h
  obtain ⟨y, rfl⟩ := scan_nest_last hscan
  obtain ⟨hd, hy⟩ := (scan_nest_iff lbrac_ne_rbrac _ _ _).mp hscan
  have hend : i + 1 + (y ++ [rbrac]).length - 1 = i + 1 + y.length := by simp
  have hnext : s.drop (i + 1 + y.length + 1) = t :=
    drop_drop_append (x := y ++ [rbrac]) (by simpa using hd) (by simp; omega)
  rw [hend, hnext]
  exact ⟨y, hd, hy, rfl⟩

/-- A `[` token whose scan ends. -/
theorem brakScan_ok {s : Bytes} {i j : ℕ} (hlt : i < s.length) (hc : s[i] = lbrak)
    (h : brakScan s (i + 1) 1 0 = .ok j) :
    ∃ x, s.drop i = x ++ s.drop (j + 1) ∧ IsBrak x ∧ j + 1 = i + x.length := by
  rw [brakScan_eq (ne_nil_of_lt hlt)] at h
  obtain ⟨x, t, hscan, rfl⟩ := endOf_ok h
  have hsd := selfDelimiting_scanWith brakStep (1, 0)
  have hd : s.drop i = (lbrak :: x) ++ t := by
    rw [List.drop_eq_getElem_cons hlt, hc, hsd.split hscan]
    rfl
  have hend : i + 1 + x.length - 1 + 1 = i + (lbrak :: x).length := by
    rw [List.length_cons]
    omega
  rw [drop_drop_append hd hend]
  exact ⟨lbrak :: x, hd, ⟨x, rfl, by simpa using hsd.extend [] hscan⟩, hend⟩

/-- Any other token. -/
theorem wordScan_ok {s : Bytes} {i j : ℕ} (hlt : i < s.length) (hb : s[i] ≠ lbrac) (hk : s[i] ≠ lbrak)
    (hsp : isspace s[i] = false) (h : wordEnd s (i + 1) = .ok j) :
    ∃ w, s.drop i = w ++ s.drop j ∧ IsWord w ∧ Breaks (s.drop j) ∧ j = i + w.length := by
  obtain ⟨h1, h2, h3, h4⟩ := wordEnd_ok h hlt
  have hw : slice s i j = s[i] :: slice s (i + 1) j := by
    rw [slice, List.drop_eq_getElem_cons hlt, show j - i = (j - (i + 1)) + 1 by omega,
      List.take_succ_cons]
    rfl
  have hlen : (slice s i j).length = j - i := by simp [slice]; omega
  have hd : s.drop i = slice s i j ++ s.drop j := by
    have := (List.take_append_drop (j - i) (s.drop i)).symm
    rwa [List.drop_drop, show i + (j - i) = j by omega] at this
  have hword : IsWord (slice s i j) := by
    rw [hw]
    refine ⟨by simp, fun x hx => ?_, by simpa using hb, by simpa using hk⟩
    rcases List.mem_cons.mp hx with rfl | hx
    · exact hsp
    · exact h3 x hx
  exact ⟨slice s i j, hd, hword, h4, by omega⟩

/-- The byte behind a word is skipped with it. -/
theorem tokens_skip {t : Bytes} {l : List Bytes} (ht : Breaks t) (h : Tokens (t.drop 1) l) :
    Tokens t l := by
  cases t with
  | nil => exact h
  | cons c t => exact .space (ht c rfl) h

/-- What is parsed from `i` on is a text of the grammar. -/
theorem tokens_of_doAsListAt {s : Bytes} {i : ℕ} {l : List Bytes} (h : doAsListAt s i = .ok l) :
    Tokens (s.drop i) l := by
  fun_induction doAsListAt s i generalizing l with
  | case1 | case2 | case3 | case5 | case6 | case9 | case10 => cases h
  | case4 i hlt j hj x hx hc ih =>
    -- a brace token
    rw [read_of_lt hlt] at hc
    obtain ⟨l', hl', rfl⟩ := map_eq_ok h
    obtain ⟨-, -, rfl⟩ := strCopy_ok hx
    obtain ⟨x, hd, hbal, hend⟩ := bracScan_ok hlt hj
    have ih := ih hl'
    rw [show i + (j - (i + 1)) + 2 = j + 1 by omega] at ih
    rw [slice_of_drop hd hend, List.drop_eq_getElem_cons hlt, Except.ok.inj hc, hd]
    exact Tokens.brac hbal ih
  | case7 i hlt j hj x hx hc _ ih =>
    -- a bracket token
    rw [read_of_lt hlt] at hc
    obtain ⟨l', hl', rfl⟩ := map_eq_ok h
    obtain ⟨-, -, rfl⟩ := strCopy_ok hx
    obtain ⟨x, hd, hbrak, hend⟩ := brakScan_ok hlt (Except.ok.inj hc) hj
    have ih := ih hl'
    rw [show i + (j + 1 - i) + 0 = j + 1 by omega] at ih
    rw [slice_of_drop hd hend, hd]
    exact Tokens.brak hbrak ih
  | case8 i hlt c hc hb hk hsp ih =>
    rw [read_of_lt hlt] at hc
    rw [List.drop_eq_getElem_cons hlt, Except.ok.inj hc]
    exact Tokens.space hsp (ih h)
  | case11 i hlt c hc hb hk hsp j hj x hx ih =>
    -- a word
    rw [read_of_lt hlt] at hc
    obtain rfl := Except.ok.inj hc
    obtain ⟨l', hl', rfl⟩ := map_eq_ok h
    obtain ⟨-, -, rfl⟩ := strCopy_ok hx
    obtain ⟨w, hd, hw, ht, hend⟩ := wordScan_ok hlt hb hk (Bool.eq_false_iff.mpr hsp) hj
    have ih := ih hl'
    rw [show i + (j - i) + 1 = j + 1 by omega, ← List.drop_drop] at ih
    rw [slice_of_drop hd hend, hd]
    exact Tokens.word hw ht (tokens_skip ht ih)
  | case12 i hlt =>
    obtain rfl := Except.ok.inj h
    rw [List.drop_eq_nil_of_le (Nat.le_of_not_lt hlt)]
    exact Tokens.nil

theorem endOf_error {j : ℕ} {o : Option (Bytes × Bytes)} {e : ParseError} (h : endOf j o = .error e) :
    o = none ∧ e = .uneven := by
  cases o with
  | none => exact ⟨rfl, (Except.error.inj h).symm⟩
  | some p => cases h

theorem map_eq_error {α β ε : Type*} {f : α → β} {e : Except ε α} {x : ε} (h : e.map f = .error x) :
    e = .error x := by
  cases e with
  | error e => exact congrArg _ (Except.error.inj h)
  | ok a => cases h

theorem wordEnd_ne_error {s : Bytes} {j : ℕ} (hj : j ≤ s.length) (e : ParseError) :
    wordEnd s j ≠ .error e := by
  fun_induction wordEnd s j with
  | case1 j hne e' he =>
    rw [read_of_lt (Nat.lt_of_le_of_ne hj hne)] at he
    cases he
  | case2 => nofun
  | case3 j hne c hc hsp ih => exact ih (lt_of_read hc)
  | case4 => nofun

/-- The parser gives up for nothing but an uneven token: it reads the text only. -/
theorem doAsListAt_error {s : Bytes} {i : ℕ} {e : ParseError} (h : doAsListAt s i = .error e) :
    e = .uneven := by
  fun_induction doAsListAt s i with
  | case1 i hlt e' he =>
    rw [read_of_lt hlt] at he
    cases he
  | case2 i hlt e' he =>
    obtain rfl := Except.error.inj h
    rw [bracScan_eq (ne_nil_of_lt hlt)] at he
    exact (endOf_error he).2
  | case3 i hlt j hj e' he =>
    obtain ⟨x, hd, -, hend⟩ := bracScan_ok hlt hj
    rw [strCopy_of_drop hd hlt hend] at he
    cases he
  | case5 i hlt e' he =>
    obtain rfl := Except.error.inj h
    rw [brakScan_eq (ne_nil_of_lt hlt)] at he
    exact (endOf_error he).2
  | case6 i hlt j hj e' he hc =>
    rw [read_of_lt hlt] at hc
    obtain ⟨x, hd, -, hend⟩ := brakScan_ok hlt (Except.ok.inj hc) hj
    rw [strCopy_of_drop hd hlt.le hend] at he
    cases he
  | case9 i hlt c hc hb hk hsp e' he => exact absurd he (wordEnd_ne_error hlt _)
  | case10 i hlt c hc hb hk hsp j hj e' he =>
    rw [read_of_lt hlt] at hc
    obtain rfl := Except.ok.inj hc
    obtain ⟨w, hd, -, -, hend⟩ := wordScan_ok hlt hb hk (Bool.eq_false_iff.mpr hsp) hj
    rw [strCopy_of_drop hd hlt.le hend] at he
    cases he
  | case4 _ _ _ _ _ _ _ ih | case7 _ _ _ _ _ _ _ _ ih | case11 _ _ _ _ _ _ _ _ _ _ _ ih =>
    exact ih (map_eq_error h)
  | case8 _ _ _ _ _ _ _ ih => exact ih h
  | case12 => cases h

/-- **The parser accepts the grammar.** -/
theorem doAsList_iff (s : Bytes) (l : List Bytes) : doAsList s = .ok l ↔ Tokens s l :=
  ⟨fun h => by simpa using tokens_of_doAsListAt h, fun h => doAsListAt_of_tokens h rfl⟩

end B6b
