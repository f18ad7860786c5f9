/-
# Cutting a list at a delimiter

`Cut d s ps q`: read from its start, `s` is the pieces `ps`, each with the delimiter `d` behind it and
no earlier, and the rest `q`, in which there is no delimiter. Every list has a cut (`exists_cut`),
and the pieces and the rest with the delimiter in between are the list again (`Cut.intercalate`).
-/
import Mathlib.Data.List.Basic
import Mathlib.Data.List.Infix
import Mathlib.Order.Basic
import Mathlib.Data.Nat.Find

namespace Cuts

open List

variable {α : Type*}

/-- The delimiter does not stand in `s` at any of the first `n` places. -/
def Free (d s : List α) (n : ℕ) : Prop := ∀ k, k < n → ¬ d <+: s.drop k

/-- The pieces of a list, and what is behind its last delimiter. -/
inductive Cut (d : List α) : List α → List (List α) → List α → Prop
  | last {q : List α} : Free d q q.length → Cut d q [] q
  | cons {p s : List α} {ps : List (List α)} {q : List α} : Free d (p ++ d ++ s) p.length →
      Cut d s ps q → Cut d (p ++ d ++ s) (p :: ps) q

variable {d s q : List α} {ps l : List (List α)} {c : α}

/-- The list is its pieces. -/
theorem Cut.intercalate (h : Cut d s ps q) : d.intercalate (ps ++ [q]) = s := by
  induction h with
  | last _ => rw [nil_append, intercalate_singleton]
  | @cons p s ps q _ _ ih =>
    have hne : ps ++ [q] ≠ [] := append_ne_nil_of_right_ne_nil _ (cons_ne_nil _ _)
    rw [cons_append, intercalate_cons_of_ne_nil hne, ih]

/-- The rest is at the end of the list. -/
theorem Cut.suffix (h : Cut d s ps q) : q <:+ s := by
  induction h with
  | last _ => exact suffix_rfl
  | cons _ _ ih => exact ih.trans (suffix_append _ _)

/-- In the rest there is no delimiter. -/
theorem Cut.free (h : Cut d s ps q) : Free d q q.length := by
  induction h with
  | last hfree => exact hfree
  | cons _ _ ih => exact ih

/-- A delimiter that is not empty stands in front of the end of a list. -/
theorem lt_of_prefix_drop (hd : d ≠ []) {k : ℕ} (h : d <+: s.drop k) : k < s.length := by
  by_contra hle
  rw [drop_eq_nil_of_le (Nat.le_of_not_lt hle)] at h
  exact hd (prefix_nil.mp h)

/-- **Every list has a cut.** -/
theorem exists_cut [DecidableEq α] (hd : d ≠ []) (s : List α) : ∃ ps q, Cut d s ps q := by
  induction hn : s.length using Nat.strong_induction_on generalizing s with
  | _ n ih =>
    by_cases hex : ∃ k, d <+: s.drop k
    · obtain ⟨t, ht⟩ := Nat.find_spec hex
      have hlt := lt_of_prefix_drop hd (Nat.find_spec hex)
      have hcut : s = s.take (Nat.find hex) ++ d ++ t := by
        rw [append_assoc, ht, take_append_drop]
      have hlen := congrArg length hcut
      rw [length_append, length_append] at hlen
      have hpos := length_pos_of_ne_nil hd
      obtain ⟨ps, q, hcuts⟩ := ih t.length (by omega) t rfl
      refine ⟨s.take (Nat.find hex) :: ps, q, ?_⟩
      have hfree : Free d (s.take (Nat.find hex) ++ d ++ t) (s.take (Nat.find hex)).length := by
        intro k hk
        rw [← hcut]
        refine Nat.find_min hex (Nat.lt_of_lt_of_le hk ?_)
        rw [length_take]
        exact Nat.min_le_left _ _
      have hall := Cut.cons hfree hcuts
      rwa [← hcut] at hall
    · exact ⟨[], s, .last fun k _ hk => hex ⟨k, hk⟩⟩

/-- A delimiter of one symbol stands nowhere in a list without that symbol. -/
theorem free_of_not_mem {p t : List α} (h : c ∉ p) : Free [c] (p ++ t) p.length := by
  intro k hk hpre
  rw [drop_append_of_le_length (Nat.le_of_lt hk), drop_eq_getElem_cons hk, cons_append] at hpre
  have hc : c = p[k] := (cons_prefix_cons.mp hpre).1
  rw [hc] at h
  exact h (getElem_mem hk)

/-- Pieces without the symbol of the delimiter are those of the list that they make. -/
theorem cut_of_not_mem : ∀ {ps : List (List α)}, (∀ p ∈ ps, c ∉ p) → c ∉ q →
    Cut [c] ([c].intercalate (ps ++ [q])) ps q
  | [], _, hq => by
    have hfree : Free [c] (q ++ []) q.length := free_of_not_mem hq
    rw [append_nil] at hfree
    rw [nil_append, intercalate_singleton]
    exact .last hfree
  | p :: ps, hps, hq => by
    have hne : ps ++ [q] ≠ [] := append_ne_nil_of_right_ne_nil _ (cons_ne_nil _ _)
    rw [cons_append, intercalate_cons_of_ne_nil hne]
    refine .cons ?_ (cut_of_not_mem (fun p hp => hps p (mem_cons_of_mem _ hp)) hq)
    rw [append_assoc]
    exact free_of_not_mem (hps p mem_cons_self)

end Cuts
