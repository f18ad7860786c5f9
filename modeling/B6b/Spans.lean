/-
# What the parser makes of a text

A text that `b6b_do_as_list` accepts is cut into parts (`Part`): the whitespace in front of
an item and the span the item is made of. The span is the item itself, or the item in the
braces that the parser strips.

`doAsList_parts`: the parser ends on every text, it reads no byte outside, and what it
accepts is its parts and the whitespace behind them, so that every byte that is not
whitespace is in the span of exactly one item.

Key definitions: `Part`, `text`, `spanStart`, `spanStop`.
-/
import B6b.Tokens

namespace B6b

namespace Spans

open Scanner

/-- Whitespace only. -/
def Blank (s : Bytes) : Prop := ∀ c ∈ s, isspace c = true

/-- An item of a text, with its span and the whitespace in front of it. -/
structure Part where
  gap : Bytes
  span : Bytes
  item : Bytes
  blank : Blank gap
  span_ne : span ≠ []
  /-- The item is the span, or what is in the braces of the span, and the `}` at its end is the
  one that closes the `{` at its beginning. -/
  item_eq : (span.head? ≠ some lbrac ∧ item = span) ∨
    (span = lbrac :: item ++ [rbrac] ∧ BracBalanced item)

/-- The part as it stands in the text. -/
def Part.text (p : Part) : Bytes := p.gap ++ p.span

/-- The text of parts, one behind the other. -/
def text (ps : List Part) : Bytes := ps.flatMap Part.text

/-- Where the `k`-th span begins. -/
def spanStart (ps : List Part) (k : ℕ) : ℕ :=
  (text (ps.take k)).length + (ps[k]?.elim 0 fun p => p.gap.length)

/-- Where the `k`-th span ends: at the end of its part. -/
def spanStop (ps : List Part) (k : ℕ) : ℕ := (text (ps.take (k + 1))).length

@[simp] theorem text_nil : text [] = [] := rfl

@[simp] theorem text_cons (p : Part) (ps : List Part) : text (p :: ps) = p.gap ++ p.span ++ text ps := rfl

@[simp] theorem spanStart_zero (p : Part) (ps : List Part) : spanStart (p :: ps) 0 = p.gap.length := by
  simp [spanStart]

@[simp] theorem spanStop_zero (p : Part) (ps : List Part) :
    spanStop (p :: ps) 0 = p.gap.length + p.span.length := by
  simp [spanStop]

@[simp] theorem spanStart_succ (p : Part) (ps : List Part) (k : ℕ) :
    spanStart (p :: ps) (k + 1) = p.gap.length + p.span.length + spanStart ps k := by
  simp [spanStart]
  omega

@[simp] theorem spanStop_succ (p : Part) (ps : List Part) (k : ℕ) :
    spanStop (p :: ps) (k + 1) = p.gap.length + p.span.length + spanStop ps k := by
  simp [spanStop]
  omega

/-! ### Whitespace -/

theorem blank_nil : Blank [] := fun _ h => nomatch h

theorem blank_cons {c : UInt8} {s : Bytes} (hc : isspace c = true) (hs : Blank s) : Blank (c :: s) := by
  intro d hd
  rcases List.mem_cons.mp hd with rfl | hd
  · exact hc
  · exact hs d hd

/-! ### The parts of a text -/

/-- The span of a word. -/
def ofWord (w : Bytes) (hw : IsWord w) : Part := ⟨[], w, w, blank_nil, hw.1, .inl ⟨hw.2.2.1, rfl⟩⟩

/-- The span of a bracket token. -/
def ofBrak (x : Bytes) (hx : IsBrak x) : Part where
  gap := []
  span := x
  item := x
  blank := blank_nil
  span_ne := by
    obtain ⟨y, rfl, -⟩ := hx
    exact List.cons_ne_nil _ _
  item_eq := by
    obtain ⟨y, rfl, -⟩ := hx
    exact .inl ⟨by simp, rfl⟩

/-- The span of an item in braces. -/
def ofBrac (x : Bytes) (hx : BracBalanced x) : Part :=
  ⟨[], lbrac :: x ++ [rbrac], x, blank_nil, by simp, .inr ⟨rfl, hx⟩⟩

/-- Whitespace in front of the first part. -/
def Part.indent (p : Part) (c : UInt8) (hc : isspace c = true) : Part :=
  { p with gap := c :: p.gap, blank := blank_cons hc p.blank }

/-- A text of the grammar is its parts and the whitespace behind them. -/
theorem parts_of_tokens {s : Bytes} {l : List Bytes} (h : Tokens s l) :
    ∃ (ps : List Part) (tail : Bytes), ps.map (·.item) = l ∧ s = text ps ++ tail ∧ Blank tail := by
  induction h with
  | nil => exact ⟨[], [], rfl, rfl, blank_nil⟩
  | @space c t l hc _ ih =>
    obtain ⟨ps, tail, hl, ht, hb⟩ := ih
    cases ps with
    | nil => exact ⟨[], c :: tail, hl, by rw [ht]; rfl, blank_cons hc hb⟩
    | cons p ps => exact ⟨p.indent c hc :: ps, tail, hl, by rw [ht]; rfl, hb⟩
  | @word w t l hw _ _ ih =>
    obtain ⟨ps, tail, rfl, rfl, hb⟩ := ih
    exact ⟨ofWord w hw :: ps, tail, rfl, by simp [ofWord], hb⟩
  | @brac x t l hx _ ih =>
    obtain ⟨ps, tail, rfl, rfl, hb⟩ := ih
    exact ⟨ofBrac x hx :: ps, tail, rfl, by simp [ofBrac], hb⟩
  | @brak x t l hx _ ih =>
    obtain ⟨ps, tail, rfl, rfl, hb⟩ := ih
    exact ⟨ofBrak x hx :: ps, tail, rfl, by simp [ofBrak], hb⟩

/-! ### Every byte is in one span -/

/-- A byte that is not whitespace is in a span. -/
theorem exists_span {tail : Bytes} (ht : Blank tail) : ∀ (ps : List Part) {i : ℕ}
    (hi : i < (text ps ++ tail).length), isspace (text ps ++ tail)[i] = false →
    ∃ k, k < ps.length ∧ spanStart ps k ≤ i ∧ i < spanStop ps k
  | [], i, hi, hc => by
    have hsp := ht (text [] ++ tail)[i] (List.getElem_mem hi)
    rw [hc] at hsp
    cases hsp
  | p :: ps, i, hi, hc => by
    by_cases hgap : i < p.gap.length
    · have hget : (text (p :: ps) ++ tail)[i] = p.gap[i] := by
        simp only [text_cons, List.append_assoc]
        exact List.getElem_append_left hgap
      rw [hget, p.blank _ (List.getElem_mem hgap)] at hc
      cases hc
    · by_cases hspan : i < p.gap.length + p.span.length
      · exact ⟨0, by simp, by rw [spanStart_zero]; omega, by rw [spanStop_zero]; exact hspan⟩
      · have hlen : (p.gap ++ p.span).length ≤ i := by rw [List.length_append]; omega
        have hcut : text (p :: ps) ++ tail = (p.gap ++ p.span) ++ (text ps ++ tail) := by simp
        have hi' : i - (p.gap ++ p.span).length < (text ps ++ tail).length := by
          rw [hcut, List.length_append] at hi
          omega
        have hget : (text (p :: ps) ++ tail)[i] = (text ps ++ tail)[i - (p.gap ++ p.span).length] := by
          simp only [hcut]
          exact List.getElem_append_right hlen
        rw [hget] at hc
        obtain ⟨k, hk, h1, h2⟩ := exists_span ht ps hi' hc
        rw [List.length_append] at h1 h2 hlen
        exact ⟨k + 1, Nat.succ_lt_succ hk, by rw [spanStart_succ]; omega, by rw [spanStop_succ]; omega⟩

/-- The spans stand one behind the other. -/
theorem spanStop_le_spanStart : ∀ (ps : List Part) {k k' : ℕ}, k < k' → k' < ps.length →
    spanStop ps k ≤ spanStart ps k'
  | [], _, _, _, h => absurd h (Nat.not_lt_zero _)
  | p :: ps, k, k' + 1, hlt, h => by
    cases k with
    | zero => rw [spanStop_zero, spanStart_succ]; omega
    | succ k =>
      have ih := spanStop_le_spanStart ps (Nat.lt_of_succ_lt_succ hlt) (Nat.lt_of_succ_lt_succ h)
      rw [spanStop_succ, spanStart_succ]
      omega

/-- **The parser loses nothing.** On every text it ends, and it reads no byte outside the text.
What it accepts is the spans of its items, in their order, with whitespace in front of each and
behind the last; each span is its item, or its item in one pair of braces; and every byte that
is not whitespace is in exactly one span. -/
theorem doAsList_parts (s : Bytes) : doAsList s = .error .uneven ∨
    ∃ (ps : List Part) (tail : Bytes), doAsList s = .ok (ps.map (·.item)) ∧
      s = text ps ++ tail ∧ Blank tail ∧
      ∀ i (hi : i < s.length), isspace s[i] = false →
        ∃! k, k < ps.length ∧ spanStart ps k ≤ i ∧ i < spanStop ps k := by
  cases hp : doAsList s with
  | error e => exact .inl (congrArg _ (doAsListAt_error hp))
  | ok l =>
    obtain ⟨ps, tail, rfl, rfl, hb⟩ := parts_of_tokens ((doAsList_iff s l).mp hp)
    refine .inr ⟨ps, tail, rfl, rfl, hb, fun i hi hc => ?_⟩
    obtain ⟨k, hk, h1, h2⟩ := exists_span hb ps hi hc
    refine ⟨k, ⟨hk, h1, h2⟩, ?_⟩
    rintro k' ⟨hk', h1', h2'⟩
    rcases Nat.lt_trichotomy k' k with hlt | rfl | hlt
    · have hle := spanStop_le_spanStart ps hlt hk
      omega
    · rfl
    · have hle := spanStop_le_spanStart ps hlt hk'
      omega

end Spans

end B6b
