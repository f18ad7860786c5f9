/-
# Association lists in the order of their keys

`upsert` sets the value of a key: in its place if the key is there, else at the end.
With `List.kerase`, which removes a key, it keeps keys distinct and the order of the
other keys.
-/
import Mathlib.Data.List.Sigma

namespace Upsert

open List

variable {α β : Type*} [DecidableEq α]

/-- Set the value of `a`, in its place or at the end. -/
def upsert (a : α) (b : β) : List ((_ : α) × β) → List ((_ : α) × β)
  | [] => [⟨a, b⟩]
  | s :: l => if a = s.1 then ⟨a, b⟩ :: l else s :: upsert a b l

theorem upsert_of_notMem {a : α} (b : β) : ∀ {l : List ((_ : α) × β)}, a ∉ l.keys →
    upsert a b l = l ++ [⟨a, b⟩]
  | [], _ => rfl
  | s :: l, h => by
    simp only [keys_cons, mem_cons, not_or] at h
    rw [upsert, if_neg h.1, upsert_of_notMem b h.2]
    rfl

theorem keys_upsert_of_mem {a : α} (b : β) : ∀ {l : List ((_ : α) × β)}, a ∈ l.keys →
    (upsert a b l).keys = l.keys
  | [], h => absurd h List.not_mem_nil
  | s :: l, h => by
    unfold upsert
    by_cases ha : a = s.1
    · rw [if_pos ha, keys_cons, keys_cons, ← ha]
    · rw [keys_cons] at h
      rw [if_neg ha, keys_cons, keys_cons, keys_upsert_of_mem b ((mem_cons.mp h).resolve_left ha)]

theorem dlookup_upsert (a : α) (b : β) : ∀ l : List ((_ : α) × β), dlookup a (upsert a b l) = some b
  | [] => dlookup_cons_eq _ _ _
  | s :: l => by
    unfold upsert
    by_cases h : a = s.1
    · rw [if_pos h, dlookup_cons_eq]
    · rw [if_neg h, dlookup_cons_ne _ _ h, dlookup_upsert a b l]

theorem dlookup_upsert_ne {a a' : α} (b : β) (hne : a' ≠ a) :
    ∀ l : List ((_ : α) × β), dlookup a' (upsert a b l) = dlookup a' l
  | [] => dlookup_cons_ne _ _ hne
  | s :: l => by
    unfold upsert
    by_cases h : a = s.1
    · rw [if_pos h, dlookup_cons_ne _ _ hne, dlookup_cons_ne _ _ (h ▸ hne)]
    · rw [if_neg h]
      by_cases h' : a' = s.1
      · obtain ⟨c, d⟩ := s
        obtain rfl : a' = c := h'
        rw [dlookup_cons_eq, dlookup_cons_eq]
      · rw [dlookup_cons_ne _ _ h', dlookup_cons_ne _ _ h', dlookup_upsert_ne b hne l]

/-- No key goes, and none changes its place. -/
theorem keys_sublist_upsert (a : α) (b : β) : ∀ l : List ((_ : α) × β), l.keys <+ (upsert a b l).keys
  | [] => nil_sublist _
  | s :: l => by
    unfold upsert
    by_cases h : a = s.1
    · rw [if_pos h, keys_cons, keys_cons, ← h]
    · rw [if_neg h, keys_cons, keys_cons]
      exact (keys_sublist_upsert a b l).cons_cons s.1

theorem nodupKeys_upsert {a : α} (b : β) : ∀ {l : List ((_ : α) × β)}, l.NodupKeys →
    (upsert a b l).NodupKeys
  | [], _ => nodupKeys_singleton _
  | s :: l, h => by
    obtain ⟨hs, hl⟩ := nodupKeys_cons.mp h
    unfold upsert
    by_cases ha : a = s.1
    · rw [if_pos ha]
      refine nodupKeys_cons.mpr ⟨?_, hl⟩
      rw [← ha] at hs
      exact hs
    · rw [if_neg ha]
      refine nodupKeys_cons.mpr ⟨?_, nodupKeys_upsert b hl⟩
      intro hmem
      refine hs (dlookup_isSome.mp ?_)
      rw [← dlookup_upsert_ne b (Ne.symm ha) l]
      exact dlookup_isSome.mpr hmem

/-- The keys that stay keep their order. -/
theorem filter_sublist_kerase {a : α} {ks : List α} {l : List ((_ : α) × β)} (hnd : l.NodupKeys)
    (hks : ks <+ l.keys) : ks.filter (· ≠ a) <+ (kerase a l).keys := by
  have herase : l.keys.erase a = l.keys.filter (· ≠ a) := by
    rw [Nodup.erase_eq_filter hnd]
    exact filter_congr fun c _ => by by_cases hc : c = a <;> simp [hc]
  rw [keys_kerase, herase]
  exact hks.filter _

end Upsert
