/-
# Graphs without a cycle

`Acyclic R`: nothing reaches itself along `R`. New edges out of one node keep a graph
acyclic when they lead to nodes that do not reach it (`Acyclic.insert`). A recursion
along `R` through finitely many nodes, none of which reaches itself, needs no more fuel
than there are nodes (`fuel`).
-/
import Mathlib.Data.Finset.Card
import Mathlib.Logic.Relation

namespace Reach

open Relation

variable {α : Type*} {R S : α → α → Prop}

/-- Nothing reaches itself. -/
def Acyclic (R : α → α → Prop) : Prop := ∀ a, ¬ TransGen R a a

theorem Acyclic.mono (hSR : ∀ a b, S a b → R a b) (hR : Acyclic R) : Acyclic S :=
  fun a ha => hR a (TransGen.mono hSR a a ha)

/-- **New edges.** A graph stays acyclic when edges are added that all leave `l`, each to a
node from which `l` is not reached. -/
theorem Acyclic.insert {l : α} (hR : Acyclic R)
    (hS : ∀ a b, S a b → R a b ∨ (a = l ∧ ¬ ReflTransGen R b l)) : Acyclic S := by
  -- a path is an old one, or it passes `l` on the way to where `l` is not reached
  have hpath : ∀ a b, TransGen S a b →
      TransGen R a b ∨ (ReflTransGen R a l ∧ ¬ ReflTransGen R b l) := by
    intro a b hab
    induction hab with
    | single hs =>
      rcases hS _ _ hs with hr | ⟨rfl, hb⟩
      · exact .inl (.single hr)
      · exact .inr ⟨.refl, hb⟩
    | tail _ hs ih =>
      rcases hS _ _ hs with hr | ⟨rfl, hc⟩
      · rcases ih with hold | ⟨hal, hb⟩
        · exact .inl (hold.tail hr)
        · exact .inr ⟨hal, fun hc => hb (.head hr hc)⟩
      · rcases ih with hold | ⟨-, hb⟩
        · exact .inr ⟨hold.to_reflTransGen, hc⟩
        · exact absurd .refl hb
  intro a haa
  rcases hpath a a haa with hr | ⟨hal, hna⟩
  · exact hR a hr
  · exact hna hal

/-- **Fuel.** What holds of a node with one unit of fuel more than it takes to hold of the
next nodes, holds of a node with more fuel than there are nodes to reach. -/
theorem fuel {P : ℕ → α → Prop} (hP : ∀ n a, (∀ b, R a b → P n b) → P (n + 1) a) :
    ∀ (n : ℕ) (s : Finset α) (a : α), (∀ b, TransGen R a b → b ∈ s ∧ ¬ TransGen R b b) →
      s.card < n → P n a
  | 0, _, _, _, hn => absurd hn (Nat.not_lt_zero _)
  | n + 1, s, a, hs, hn => by
    classical
    refine hP n a fun b hab => ?_
    obtain ⟨hbs, hbb⟩ := hs b (.single hab)
    refine fuel hP n (s.erase b) b (fun c hbc => ?_) ?_
    · obtain ⟨hcs, hcc⟩ := hs c (.head hab hbc)
      refine ⟨Finset.mem_erase.mpr ⟨?_, hcs⟩, hcc⟩
      rintro rfl
      exact hbb hbc
    · have hcard := Finset.card_erase_of_mem hbs
      have hpos : 0 < s.card := Finset.card_pos.mpr ⟨b, hbs⟩
      omega

end Reach
