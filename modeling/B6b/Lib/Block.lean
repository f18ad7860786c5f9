/-
# Blocks of memory

A block that `malloc` returns has no values in it; `store` and `memcpy` put values in their
place, and `realloc` keeps those that fit. What is stored outside of a block goes somewhere else,
and the block stays as it is. `Starts b xs` says that `xs` is at the start of the block: with
room behind it, `memcpy` at its end appends to it (`Starts.memcpy`).
-/
import Mathlib.Data.List.Basic

namespace Block

open List

variable {α : Type*}

/-- `malloc`: nothing is known of what is there. -/
def malloc (n : ℕ) : List (Option α) := replicate n none

/-- `realloc` -/
def realloc (b : List (Option α)) (n : ℕ) : List (Option α) := b.take n ++ malloc (n - b.length)

/-- `b[i] = c` -/
def store (b : List (Option α)) (i : ℕ) (c : α) : List (Option α) := b.set i (some c)

/-- `memcpy(b + i, xs, len)`, of all of `xs`. -/
def memcpy (b : List (Option α)) : ℕ → List α → List (Option α)
  | _, [] => b
  | i, x :: xs => memcpy (store b i x) (i + 1) xs

/-- The block starts with these values. -/
def Starts (b : List (Option α)) (xs : List α) : Prop := xs.map some <+: b

variable {b : List (Option α)} {xs ys : List α} {c : α} {i j n : ℕ}

@[simp] theorem length_malloc : (malloc n : List (Option α)).length = n := length_replicate

@[simp] theorem length_realloc : (realloc b n).length = n := by
  simp only [realloc, length_append, length_take, length_malloc]
  omega

@[simp] theorem length_store : (store b i c).length = b.length := length_set

@[simp] theorem length_memcpy : ∀ {xs : List α} {b : List (Option α)} {i : ℕ},
    (memcpy b i xs).length = b.length
  | [], _, _ => rfl
  | x :: xs, b, i => by rw [memcpy, length_memcpy, length_store]

theorem getElem?_malloc_ne : (malloc n : List (Option α))[i]? ≠ some (some c) := by
  unfold malloc
  rw [getElem?_replicate]
  split
  · exact nofun
  · exact nofun

/-- What is stored inside is there. -/
theorem getElem?_store_self : (store b i c)[i]? = some (some c) ↔ i < b.length := by
  unfold store
  rw [getElem?_set_self']
  cases h : b[i]? with
  | none => exact iff_of_false nofun (Nat.not_lt.mpr (getElem?_eq_none_iff.mp h))
  | some o => exact iff_of_true rfl (List.getElem?_eq_some_iff.mp h).1

theorem getElem?_store_ne (h : i ≠ j) : (store b i c)[j]? = b[j]? := getElem?_set_ne h

/-- `memcpy` leaves what is behind. -/
theorem getElem?_memcpy_of_le : ∀ {xs : List α} {b : List (Option α)} {i : ℕ},
    i + xs.length ≤ j → (memcpy b i xs)[j]? = b[j]?
  | [], _, _, _ => rfl
  | x :: xs, b, i, h => by
    rw [length_cons] at h
    have hne : i ≠ j := by omega
    rw [memcpy, getElem?_memcpy_of_le (by omega), getElem?_store_ne hne]

theorem starts_nil : Starts b [] := nil_prefix

theorem Starts.length_le (h : Starts b xs) : xs.length ≤ b.length := by
  have hle := IsPrefix.length_le h
  rwa [length_map] at hle

theorem Starts.left (h : Starts b (xs ++ ys)) : Starts b xs := by
  unfold Starts at h
  rw [map_append] at h
  exact (prefix_append _ _).trans h

theorem Starts.getElem? (h : Starts b xs) (hi : xs[i]? = some c) : b[i]? = some (some c) := by
  obtain ⟨t, rfl⟩ := h
  have hlt : i < (xs.map some).length := by
    rw [length_map]
    exact (List.getElem?_eq_some_iff.mp hi).1
  rw [getElem?_append_left hlt, getElem?_map, hi]
  rfl

/-- One more value. -/
theorem Starts.store (h : Starts b xs) (hlt : xs.length < b.length) :
    Starts (store b xs.length c) (xs ++ [c]) := by
  obtain ⟨t, rfl⟩ := h
  cases t with
  | nil =>
    rw [append_nil, length_map] at hlt
    exact absurd hlt (Nat.lt_irrefl _)
  | cons o t =>
    refine ⟨t, ?_⟩
    have hlen : xs.length = (xs.map some).length := (length_map _).symm
    unfold Block.store
    rw [hlen, set_append_right _ _ (Nat.le_refl _), Nat.sub_self, set_cons_zero, map_append, append_assoc]
    rfl

/-- **`memcpy` at the end appends.** -/
theorem Starts.memcpy : ∀ {ys : List α} {b : List (Option α)} {xs : List α}, Starts b xs →
    xs.length + ys.length ≤ b.length → Starts (memcpy b xs.length ys) (xs ++ ys)
  | [], b, xs, h, _ => by
    rw [append_nil]
    exact h
  | y :: ys, b, xs, h, hle => by
    rw [length_cons] at hle
    have hone : Starts (Block.store b xs.length y) (xs ++ [y]) := h.store (by omega)
    have hlen : (xs ++ [y]).length = xs.length + 1 := length_append
    have hroom : (xs ++ [y]).length + ys.length ≤ (Block.store b xs.length y).length := by
      rw [hlen, length_store]
      omega
    have hmore := hone.memcpy hroom
    rw [append_assoc, hlen] at hmore
    exact hmore

/-- At the end, by its index. -/
theorem Starts.store_at (h : Starts b xs) (hi : i = xs.length) (hlt : i < b.length) :
    Starts (Block.store b i c) (xs ++ [c]) := by
  subst hi
  exact h.store hlt

theorem Starts.memcpy_at (h : Starts b xs) (hi : i = xs.length) (hle : i + ys.length ≤ b.length) :
    Starts (Block.memcpy b i ys) (xs ++ ys) := by
  subst hi
  exact h.memcpy hle

/-- A block that is made larger keeps its start. -/
theorem Starts.realloc (h : Starts b xs) (hle : xs.length ≤ n) : Starts (realloc b n) xs := by
  have hlen : (xs.map some).length ≤ n := by rwa [length_map]
  exact (prefix_take_iff.mpr ⟨h, hlen⟩).trans (prefix_append _ _)

end Block
