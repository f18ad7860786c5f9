/-
# The statements of a file

`b6b_source` reads a file and executes its text. If the file begins with `#!`, the code starts
behind the first newline: there `b6b_source` copies from the newline itself, but no more bytes than
there are behind it. So the last byte of the file is lost, which makes no difference if it is
whitespace: `source_iff`.

Key definitions: `source`, `code`, `Refused`, `LastIdle`.
-/
import B6b.Interp
import B6b.Codec
import B6b.Spans

namespace B6b

namespace Source

open Spans

/-! ### The procedure -/

abbrev newline : UInt8 := 0x0a

/-- The file begins with `#!`. -/
def Shebang (s : Bytes) : Prop := ∃ t, s = 0x23 :: 0x21 :: t

/-- The statements that `b6b_source` executes of a file with these bytes, or why its text is none:
of a file that is refused nothing is executed. -/
def source (s : Bytes) : Except ParseError (List Bytes) :=
  if s.length ≥ ssizeMax then .ok []
  else
    match sourceText s with
    | none => .ok []
    | some t => doAsList t

/-! ### What it is for -/

/-- The code of a file: behind the first newline if it begins with `#!`, else all of it. -/
def code : Bytes → Bytes
  | 0x23 :: 0x21 :: s => (s.dropWhile (· ≠ newline)).tail
  | s => s

/-- The file is empty, or too large, or it begins with `#!` and the line with it does not end before
the first zero byte. -/
def Refused (s : Bytes) : Prop := s = [] ∨ ssizeMax ≤ s.length ∨ Shebang s ∧ newline ∉ cstr s

/-- The last byte makes no difference: there is none, or it is whitespace, or there is a token that is
not closed with it or without it. -/
def LastIdle (t : Bytes) : Prop :=
  t = [] ∨ (∃ c, t.getLast? = some c ∧ isspace c = true) ∨
    (¬ ∃ l, Tokens t l) ∧ ¬ ∃ l, Tokens t.dropLast l

/-! ### Texts with the same statements -/

variable {s t u : Bytes} {c : UInt8} {l l' : List Bytes}

/-- Two texts have the same statements if they have the same items. -/
theorem doAsList_eq_iff : doAsList s = doAsList t ↔ ∀ l, Tokens s l ↔ Tokens t l := by
  constructor
  · intro heq l
    rw [← doAsList_iff, ← doAsList_iff, heq]
  · intro hall
    cases hs : doAsList s with
    | ok l => exact ((doAsList_iff t l).mpr ((hall l).mp ((doAsList_iff s l).mp hs))).symm
    | error e =>
      cases ht : doAsList t with
      | ok l =>
        have hok := (doAsList_iff s l).mpr ((hall l).mpr ((doAsList_iff t l).mp ht))
        rw [hs] at hok
        cases hok
      | error e' => rw [doAsListAt_error hs, doAsListAt_error ht]

/-- A text has one list of items. -/
theorem tokens_unique (h : Tokens s l) (h' : Tokens s l') : l = l' :=
  Except.ok.inj (((doAsList_iff s l).mpr h).symm.trans ((doAsList_iff s l').mpr h'))

/-- Whitespace in front. -/
theorem tokens_space (hc : isspace c = true) : Tokens (c :: t) l ↔ Tokens t l := by
  refine ⟨fun h => ?_, Tokens.space hc⟩
  have hall : doAsListAt (c :: t) 0 = .ok l := (doAsList_iff _ l).mpr h
  rw [doAsListAt_space rfl hc] at hall
  exact tokens_of_doAsListAt hall

/-- Whitespace behind. -/
theorem tokens_snoc_space (hc : isspace c = true) (h : Tokens t l) : Tokens (t ++ [c]) l := by
  induction h with
  | nil => exact .space hc .nil
  | space hd _ ih => exact .space hd ih
  | @word w t l hw ht _ ih =>
    rw [List.append_assoc]
    refine .word hw ?_ ih
    cases t with
    | nil =>
      intro d hd
      obtain rfl : c = d := Option.some.inj hd
      exact hc
    | cons d t => exact ht
  | @brac x t l hx _ ih =>
    rw [List.append_assoc, List.cons_append]
    exact .brac hx ih
  | @brak x t l hx _ ih =>
    rw [List.append_assoc]
    exact .brak hx ih

/-- A byte at the end of a text that is not the last one of its first part is the last one of the
second part. -/
theorem split_snoc {x : Bytes} (h : x ++ u = t ++ [c]) (hx : x.getLast? ≠ some c) :
    ∃ v, u = v ++ [c] ∧ t = x ++ v := by
  rcases List.eq_nil_or_concat u with rfl | ⟨v, d, rfl⟩
  · rw [List.append_nil] at h
    rw [h, List.getLast?_concat] at hx
    exact absurd rfl hx
  · rw [List.concat_eq_append, ← List.append_assoc] at h
    obtain ⟨rfl, hd⟩ := List.append_inj' h rfl
    exact ⟨v, by rw [List.concat_eq_append, hd], rfl⟩

/-- A bracket token ends with `]`. -/
theorem getLast?_of_isBrak {x : Bytes} (hx : IsBrak x) : x.getLast? = some rbrak := by
  obtain ⟨y, rfl, hy⟩ := hx
  rcases List.eq_nil_or_concat y with rfl | ⟨z, d, rfl⟩
  · exact absurd rfl (Scanner.scanWith_ne_nil hy)
  · rw [List.concat_eq_append] at hy ⊢
    obtain ⟨q, -, hstop⟩ := Scanner.scanWith_snoc_iff.mp hy
    have hd : d = rbrak := by
      unfold brakStep at hstop
      split_ifs at hstop with h1 h2 h3 h4
      exact h4
    rw [hd, ← List.cons_append, List.getLast?_concat]

theorem breaks_of_snoc (h : Breaks (u ++ [c])) : Breaks u := by
  cases u with
  | nil => exact nofun
  | cons d u => exact h

/-- A text with whitespace behind it has the items of the text. -/
theorem tokens_of_snoc_space (hc : isspace c = true) (h : Tokens s l) :
    ∀ {t : Bytes}, s = t ++ [c] → Tokens t l := by
  have hlast : ∀ {x : Bytes} {d : UInt8}, x.getLast? = some d → isspace d = false →
      x.getLast? ≠ some c := by
    intro x d hx hd heq
    obtain rfl : d = c := Option.some.inj (hx.symm.trans heq)
    rw [hc] at hd
    cases hd
  induction h with
  | nil => exact fun heq => absurd heq.symm (by simp)
  | @space d u l hd hu ih =>
    intro t heq
    cases t with
    | nil =>
      obtain rfl : u = [] := (List.cons.inj heq).2
      exact hu
    | cons e t =>
      obtain ⟨rfl, hrest⟩ := List.cons.inj heq
      exact .space hd (ih hrest)
  | @word w u l hw hu htok ih =>
    intro t heq
    have hend : w.getLast? ≠ some c :=
      hlast (List.getLast?_eq_some_getLast hw.1) (hw.2.1 _ (List.getLast_mem hw.1))
    obtain ⟨v, rfl, rfl⟩ := split_snoc heq hend
    exact .word hw (breaks_of_snoc hu) (ih rfl)
  | @brac x u l hx htok ih =>
    intro t heq
    have hcut : lbrac :: x ++ rbrac :: u = (lbrac :: x ++ [rbrac]) ++ u := List.append_cons _ _ _
    rw [hcut] at heq
    obtain ⟨v, rfl, rfl⟩ := split_snoc heq (hlast List.getLast?_concat (by decide))
    rw [← List.append_cons]
    exact .brac hx (ih rfl)
  | @brak x u l hx htok ih =>
    intro t heq
    obtain ⟨v, rfl, rfl⟩ := split_snoc heq (hlast (getLast?_of_isBrak hx) (by decide))
    exact .brak hx (ih rfl)

/-- Behind its first item a text has the others. -/
theorem tokens_behind {x : Bytes} {n : ℕ}
    (hfirst : doAsListAt s 0 = (doAsListAt s n).map (x :: ·)) (h : Tokens s l) :
    ∃ l₁, l = x :: l₁ ∧ Tokens (s.drop n) l₁ := by
  have hall : doAsListAt s 0 = .ok l := (doAsList_iff s l).mpr h
  rw [hfirst] at hall
  obtain ⟨l₁, hrest, rfl⟩ := map_eq_ok hall
  exact ⟨l₁, rfl, tokens_of_doAsListAt hrest⟩

/-- A last byte that is not whitespace is in an item. -/
theorem tokens_snoc_ne (hc : isspace c = false) (h : Tokens t l) :
    ∀ {l' : List Bytes}, Tokens (t ++ [c]) l' → l' ≠ l := by
  induction h with
  | nil => exact fun h' => (tokens_ne_nil_iff h').mpr ⟨c, List.mem_cons_self, hc⟩
  | @space d t l hd _ ih => exact fun h' => ih ((tokens_space hd).mp h')
  | @word w t l hw ht htok ih =>
    intro l' h' heq
    subst heq
    cases t with
    | nil =>
      -- the word is longer by this byte
      rw [List.append_nil] at h'
      have hword : IsWord (w ++ [c]) := by
        obtain ⟨d, v, rfl⟩ := List.exists_cons_of_ne_nil hw.1
        refine ⟨by simp, fun e he => ?_, hw.2.2.1, hw.2.2.2⟩
        rcases List.mem_append.mp he with he | he
        · exact hw.2.1 e he
        · rw [List.mem_singleton.mp he]
          exact hc
      have hone : Tokens (w ++ [c]) [w ++ [c]] := by
        have hall := Tokens.word (t := []) hword nofun .nil
        rwa [List.append_nil] at hall
      have hlist := tokens_unique h' hone
      have hlen := congrArg List.length (List.cons.inj hlist).1
      simp at hlen
    | cons d t =>
      rw [List.append_assoc] at h'
      have hbreaks : Breaks (d :: t ++ [c]) := ht
      obtain ⟨l₁, heq, hrest⟩ := tokens_behind (doAsListAt_word (i := 0) rfl hw hbreaks) h'
      rw [Nat.zero_add, List.drop_left] at hrest
      exact ih hrest (List.cons.inj heq).2.symm
  | @brac x t l hx _ ih =>
    intro l' h' heq
    subst heq
    have hcut : (lbrac :: x ++ rbrac :: t) ++ [c] = lbrac :: x ++ rbrac :: (t ++ [c]) :=
      List.append_assoc _ _ _
    rw [hcut] at h'
    obtain ⟨l₁, heq, hrest⟩ := tokens_behind (doAsListAt_brac (i := 0) rfl hx) h'
    have hdrop : (lbrac :: x ++ rbrac :: (t ++ [c])).drop (0 + x.length + 2) = t ++ [c] := by
      have hlen : 0 + x.length + 2 = (lbrac :: x ++ [rbrac]).length := by simp
      rw [List.append_cons, hlen, List.drop_left]
    rw [hdrop] at hrest
    exact ih hrest (List.cons.inj heq).2.symm
  | @brak x t l hx _ ih =>
    intro l' h' heq
    subst heq
    rw [List.append_assoc] at h'
    obtain ⟨l₁, heq, hrest⟩ := tokens_behind (doAsListAt_brak (i := 0) rfl hx) h'
    rw [Nat.zero_add, List.drop_left] at hrest
    exact ih hrest (List.cons.inj heq).2.symm

/-- **A text has the same statements without its last byte exactly if this makes no difference.** -/
theorem doAsList_dropLast_iff (t : Bytes) : doAsList t.dropLast = doAsList t ↔ LastIdle t := by
  rcases List.eq_nil_or_concat t with rfl | ⟨t, c, rfl⟩
  · exact iff_of_true rfl (.inl rfl)
  rw [List.concat_eq_append, List.dropLast_concat, doAsList_eq_iff]
  unfold LastIdle
  rw [List.dropLast_concat, List.getLast?_concat]
  constructor
  · intro hall
    by_cases hc : isspace c = true
    · exact .inr (.inl ⟨c, rfl, hc⟩)
    · have hnone : ¬ ∃ l, Tokens t l := by
        rintro ⟨l, hl⟩
        exact tokens_snoc_ne (Bool.eq_false_iff.mpr hc) hl ((hall l).mp hl) rfl
      refine .inr (.inr ⟨?_, hnone⟩)
      rintro ⟨l, hl⟩
      exact hnone ⟨l, (hall l).mpr hl⟩
  · rintro (hnil | ⟨d, hd, hsp⟩ | ⟨h1, h2⟩) l
    · exact absurd hnil (by simp)
    · obtain rfl := Option.some.inj hd
      exact ⟨tokens_snoc_space hsp, fun h => tokens_of_snoc_space hsp h rfl⟩
    · exact iff_of_false (fun h => h2 ⟨l, h⟩) fun h => h1 ⟨l, h⟩

/-! ### Files -/

/-- A text has no statements if it is whitespace. -/
theorem doAsList_eq_nil_iff (t : Bytes) : doAsList t = .ok [] ↔ Blank t := by
  rw [doAsList_iff]
  constructor
  · intro h c hc
    by_contra hsp
    exact (tokens_ne_nil_iff h).mpr ⟨c, hc, Bool.eq_false_iff.mpr hsp⟩ rfl
  · intro h
    induction t with
    | nil => exact .nil
    | cons c t ih => exact .space (h c List.mem_cons_self) (ih fun d hd => h d (List.mem_cons_of_mem _ hd))

/-- The code of a file with `#!` is behind its first newline. -/
theorem code_shebang (hs : Shebang s) : code s = (s.dropWhile (· ≠ newline)).tail := by
  obtain ⟨t, rfl⟩ := hs
  rfl

/-- `strchr` finds the first newline of a text, if no zero byte is in front of it. -/
theorem drop_newline (hnl : newline ∈ cstr s) :
    (cstr s).findIdx (· = newline) < (cstr s).length ∧
      s.drop ((cstr s).findIdx (· = newline)) = newline :: (s.dropWhile (· ≠ newline)).tail := by
  have hoff : (cstr s).findIdx (· = newline) < (cstr s).length :=
    List.findIdx_lt_length_of_exists ⟨newline, hnl, by simp⟩
  have hprefix : cstr s <+: s := List.takeWhile_prefix _
  have hidx := hprefix.findIdx_eq_of_findIdx_lt_length hoff
  have hlt : s.findIdx (· = newline) < s.length := by
    rw [hidx]
    exact Nat.lt_of_lt_of_le hoff hprefix.length_le
  have hrest : s.dropWhile (· ≠ newline) = s.drop (s.findIdx (· = newline)) := by
    rw [List.dropWhile_eq_drop_findIdx_not]
    simp
  have hat : s[s.findIdx (· = newline)] = newline := by simpa using List.findIdx_getElem (w := hlt)
  refine ⟨hoff, ?_⟩
  rw [hrest, ← hidx, List.drop_eq_getElem_cons hlt, hat, List.tail_cons]

theorem sourceText_eq (hs : Shebang s) : sourceText s =
    if (cstr s).findIdx (· = newline) < (cstr s).length then
      some ((s.drop ((cstr s).findIdx (· = newline))).take
        (s.length - ((cstr s).findIdx (· = newline) + 1)))
    else none := by
  obtain ⟨t, rfl⟩ := hs
  rfl

/-- The text of a file with `#!` begins with the newline, and is as long as the code. -/
theorem sourceText_shebang (hs : Shebang s) (hnl : newline ∈ cstr s) :
    sourceText s = some ((newline :: code s).take (code s).length) := by
  obtain ⟨hoff, hdrop⟩ := drop_newline hnl
  rw [← code_shebang hs] at hdrop
  have hlen := congrArg List.length hdrop
  rw [List.length_drop, List.length_cons] at hlen
  have hrest : s.length - ((cstr s).findIdx (· = newline) + 1) = (code s).length := by omega
  rw [sourceText_eq hs, if_pos hoff, hdrop, hrest]

theorem sourceText_none (hs : Shebang s) (hnl : newline ∉ cstr s) : sourceText s = none := by
  have hoff : ¬ (cstr s).findIdx (· = newline) < (cstr s).length := by
    rw [List.findIdx_lt_length]
    rintro ⟨c, hc, heq⟩
    rw [of_decide_eq_true heq] at hc
    exact hnl hc
  rw [sourceText_eq hs, if_neg hoff]

theorem sourceText_plain (hne : s ≠ []) (hs : ¬ Shebang s) : sourceText s = some s ∧ code s = s := by
  constructor
  · unfold sourceText
    split
    · exact absurd rfl hne
    · rename_i t
      exact absurd ⟨t, rfl⟩ hs
    · rfl
  · unfold code
    split
    · rename_i t
      exact absurd ⟨t, rfl⟩ hs
    · rfl

/-- As many bytes from a newline in front of a text as it has: it is without its last one. -/
theorem doAsList_newline (t : Bytes) :
    doAsList ((newline :: t).take t.length) = doAsList t.dropLast := by
  rcases List.eq_nil_or_concat t with rfl | ⟨t, c, rfl⟩
  · rfl
  · have hlen : (t ++ [c]).length = t.length + 1 := List.length_append
    rw [List.concat_eq_append, List.dropLast_concat, hlen, List.take_succ_cons, List.take_left,
      doAsList_eq_iff]
    exact fun l => tokens_space (by decide)

/-- **`b6b_source` executes the statements of a file exactly if, where the file begins with `#!`, its
last byte makes no difference;** or it refuses the file, and there is nothing to execute. -/
theorem source_iff (s : Bytes) : source s = doAsList (code s) ↔
    Refused s ∧ Blank (code s) ∨ ¬ Refused s ∧ (Shebang s → LastIdle (code s)) := by
  have hrefused (hr : Refused s) : source s = .ok [] := by
    unfold source
    split_ifs with hlong
    · rfl
    · rcases hr with rfl | hlen | ⟨hs, hnl⟩
      · rfl
      · exact absurd hlen hlong
      · rw [sourceText_none hs hnl]
  by_cases hr : Refused s
  · rw [hrefused hr, eq_comm, doAsList_eq_nil_iff]
    exact ⟨fun h => .inl ⟨hr, h⟩, fun h => h.elim And.right fun h => absurd hr h.1⟩
  obtain ⟨hne, hlen, hline⟩ : s ≠ [] ∧ ¬ s.length ≥ ssizeMax ∧ ¬ (Shebang s ∧ newline ∉ cstr s) := by
    unfold Refused at hr
    exact ⟨fun h => hr (.inl h), fun h => hr (.inr (.inl h)), fun h => hr (.inr (.inr h))⟩
  have hright : (Refused s ∧ Blank (code s) ∨ ¬ Refused s ∧ (Shebang s → LastIdle (code s))) ↔
      (Shebang s → LastIdle (code s)) :=
    ⟨fun h => h.elim (fun h => absurd h.1 hr) And.right, fun h => .inr ⟨hr, h⟩⟩
  rw [hright]
  unfold source
  rw [if_neg hlen]
  by_cases hs : Shebang s
  · have hnl : newline ∈ cstr s := by
      by_contra hnl
      exact hline ⟨hs, hnl⟩
    rw [sourceText_shebang hs hnl]
    dsimp only
    rw [doAsList_newline, doAsList_dropLast_iff]
    exact ⟨fun h _ => h, fun h => h hs⟩
  · obtain ⟨htext, hcode⟩ := sourceText_plain hne hs
    rw [htext, hcode]
    exact iff_of_true rfl fun h => absurd h hs

/-- `#!`, a newline and `{$exit 7}` without a newline behind: the brace that closes it is lost. -/
theorem source_loses_last : ¬ ∀ s, source s = doAsList (code s) := by
  intro hall
  have hone := hall (bytes "#!\n{$exit 7}")
  have hsource : source (bytes "#!\n{$exit 7}") = .error .uneven := by decide +kernel
  have hcode : doAsList (code (bytes "#!\n{$exit 7}")) = .ok [bytes "$exit 7"] := by
    decide +kernel
  rw [hsource, hcode] at hone
  cases hone

end Source

end B6b
