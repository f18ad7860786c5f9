/-
# Trimming whitespace at the end

`b6b_str_proc_rtrim` walks down from the last byte with two indices, `i` and `j = i - 1`; it tests
`i`, and reads at `j`. In a string that has nothing but whitespace it so comes to read at -1, in
front of the string; what it returns depends on what it finds there. In every other string it
finds the last byte that is not whitespace: `rtrim_iff`.

Key definitions: `rtrim`, `Trimmed`, `Right`.
-/
import B6b.Spans
import Mathlib.Algebra.Order.Ring.Int

namespace B6b

namespace Trim

open Spans

/-! ### The procedure -/

/-- Memory, by the distance from the first byte of the string: `s->s[j]`. -/
abbrev Memory := ℤ → UInt8

/-- The string is there. -/
def Holds (mem : Memory) (s : Bytes) : Prop := ∀ j (h : j < s.length), mem j = s[j]

/-- The loop: where `i` ends, and every `j` that is read. -/
def rtrimLoop (mem : Memory) (i j : ℤ) : ℤ × List ℤ :=
  if 0 ≤ i then
    if isspace (mem j) = false then (i, [j])
    else
      let (i', reads) := rtrimLoop mem (i - 1) (j - 1)
      (i', j :: reads)
  else (i, [])
termination_by (i + 1).toNat

/-- What `b6b_str_proc_rtrim` does: the length that it gives to `b6b_return_str`, and where it
reads. -/
structure Result where
  len : ℕ
  reads : List ℤ
  deriving DecidableEq

/-- `b6b_str_proc_rtrim`, behind its argument; `none` is `B6B_ERR`. -/
def rtrim (mem : Memory) (slen : ℕ) : Option Result :=
  if slen > ssizeMax then none
  else
    let i : ℤ := slen
    let (i, reads) := if i ≠ 0 then rtrimLoop mem i (i - 1) else (i, [])
    some ⟨(i % 2 ^ 64).toNat, reads⟩

/-- The bytes that `b6b_str_copy` takes. -/
def copied (mem : Memory) (len : ℕ) : Bytes := (List.range len).map fun j : ℕ => mem j

/-! ### What it is for -/

/-- `t` is `s` up to its last byte that is not whitespace. -/
structure Trimmed (s t : Bytes) : Prop where
  rest : ∃ u, s = t ++ u ∧ Blank u
  last : ∀ c ∈ t.getLast?, isspace c = false

/-- It reads nothing but the string, and the length is no more than the length of the string; what
it returns is the string without the whitespace at its end, and this is not changed by another
`rtrim`. -/
structure Right (mem : Memory) (s : Bytes) (r : Result) : Prop where
  reads : ∀ j ∈ r.reads, 0 ≤ j ∧ j < s.length
  len : r.len ≤ s.length
  trimmed : Trimmed s (copied mem r.len)
  again : ∀ mem', Holds mem' (copied mem r.len) → ∃ r', rtrim mem' (copied mem r.len).length = some r' ∧
    copied mem' r'.len = copied mem r.len

variable {mem : Memory} {s t u : Bytes}

theorem length_copied (mem : Memory) (len : ℕ) : (copied mem len).length = len := by
  unfold copied
  rw [List.length_map, List.length_range]

/-- The copy of a string's first bytes. -/
theorem copied_append (h : Holds mem (t ++ u)) : copied mem t.length = t := by
  refine List.ext_getElem (length_copied mem _) fun j _ hj => ?_
  have hlt : j < (t ++ u).length := by
    rw [List.length_append]
    omega
  simp only [copied, List.getElem_map, List.getElem_range]
  rw [h j hlt, List.getElem_append_left hj]

theorem copied_self (h : Holds mem s) : copied mem s.length = s :=
  copied_append (u := []) (by rwa [List.append_nil])

/-! ### The walk -/

/-- At a byte that is not whitespace the walk ends. -/
theorem rtrimLoop_stop {i j : ℤ} (hi : 0 ≤ i) (hc : isspace (mem j) = false) :
    rtrimLoop mem i j = (i, [j]) := by
  rw [rtrimLoop, if_pos hi, if_pos hc]

/-- At whitespace it goes on. -/
theorem rtrimLoop_next {i j : ℤ} (hi : 0 ≤ i) (hc : isspace (mem j) = true) :
    rtrimLoop mem i j =
      ((rtrimLoop mem (i - 1) (j - 1)).1, j :: (rtrimLoop mem (i - 1) (j - 1)).2) := by
  rw [rtrimLoop, if_pos hi, if_neg (by rw [hc]; exact nofun)]

/-- The walk over `n` bytes of whitespace, down to a byte at `k` that is none. -/
theorem rtrimLoop_ok {k : ℕ} (hstop : isspace (mem k) = false) : ∀ n : ℕ,
    (∀ j : ℕ, k < j → j ≤ k + n → isspace (mem j) = true) →
    ∃ reads, rtrimLoop mem ((k + n : ℕ) + 1) (k + n : ℕ) = ((k : ℤ) + 1, reads) ∧
      ∀ j ∈ reads, 0 ≤ j ∧ j ≤ (k + n : ℕ)
  | 0, _ => by
    refine ⟨[(k : ℤ)], rtrimLoop_stop (by omega) hstop, fun j hj => ?_⟩
    rw [List.mem_singleton.mp hj]
    exact ⟨Int.natCast_nonneg k, Int.le_refl _⟩
  | n + 1, hsp => by
    obtain ⟨reads, hrun, hin⟩ := rtrimLoop_ok hstop n fun j h1 h2 => hsp j h1 (by omega)
    have hc : isspace (mem ((k + (n + 1) : ℕ) : ℤ)) = true := hsp _ (by omega) (Nat.le_refl _)
    have hi : ((k + (n + 1) : ℕ) : ℤ) + 1 - 1 = (k + n : ℕ) + 1 := by omega
    have hj : ((k + (n + 1) : ℕ) : ℤ) - 1 = (k + n : ℕ) := by omega
    refine ⟨((k + (n + 1) : ℕ) : ℤ) :: reads, ?_, ?_⟩
    · rw [rtrimLoop_next (by omega) hc, hi, hj, hrun]
    · refine List.forall_mem_cons.mpr ⟨⟨Int.natCast_nonneg _, Int.le_refl _⟩, fun j hj => ?_⟩
      obtain ⟨h1, h2⟩ := hin j hj
      exact ⟨h1, by omega⟩

/-- The walk over whitespace down to the start of the string: it reads what is in front, and goes over
it if this is whitespace too. -/
theorem rtrimLoop_blank : ∀ n : ℕ, (∀ j : ℕ, j < n → isspace (mem j) = true) →
    ∃ reads, rtrimLoop mem n ((n : ℤ) - 1) = (if isspace (mem (-1)) = false then 0 else -1, reads) ∧
      -1 ∈ reads
  | 0, _ => by
    have hj : ((0 : ℕ) : ℤ) - 1 = -1 := rfl
    rw [hj]
    by_cases hc : isspace (mem (-1)) = false
    · rw [rtrimLoop_stop (Int.natCast_nonneg 0) hc, if_pos hc]
      exact ⟨_, rfl, List.mem_singleton.mpr rfl⟩
    · have hend : rtrimLoop mem (-1) (-2) = (-1, []) := by rw [rtrimLoop, if_neg (by decide)]
      rw [rtrimLoop_next (Int.natCast_nonneg 0) (by simpa using hc), if_neg hc]
      exact ⟨_, congrArg (fun r => (r.1, -1 :: r.2)) hend, List.mem_cons_self⟩
  | n + 1, hsp => by
    have hj : ((n + 1 : ℕ) : ℤ) - 1 = n := by omega
    have hc : isspace (mem (((n + 1 : ℕ) : ℤ) - 1)) = true := by
      rw [hj]
      exact hsp n (Nat.lt_succ_self n)
    obtain ⟨reads, hrun, hin⟩ := rtrimLoop_blank n fun j hj => hsp j (Nat.lt_succ_of_lt hj)
    refine ⟨(n : ℤ) :: reads, ?_, List.mem_cons_of_mem _ hin⟩
    rw [rtrimLoop_next (Int.natCast_nonneg _) hc, hj, hrun]

/-! ### Strings -/

/-- A string is its bytes up to the last one that is not whitespace, and whitespace behind, or it
is whitespace only. -/
theorem blank_or_split : ∀ s : Bytes, Blank s ∨
    ∃ t c u, s = t ++ c :: u ∧ isspace c = false ∧ Blank u
  | [] => .inl blank_nil
  | a :: s => by
    rcases blank_or_split s with hs | ⟨t, c, u, rfl, hc, hu⟩
    · by_cases ha : isspace a = true
      · exact .inl (blank_cons ha hs)
      · exact .inr ⟨[], a, s, rfl, Bool.eq_false_iff.mpr ha, hs⟩
    · exact .inr ⟨a :: t, c, u, rfl, hc, hu⟩

/-- Of a string that is not empty, the procedure is its walk. -/
theorem rtrim_eq {n : ℕ} (hlen : n ≤ ssizeMax) (hpos : n ≠ 0) : rtrim mem n =
    some ⟨((rtrimLoop mem n (n - 1)).1 % 2 ^ 64).toNat, (rtrimLoop mem n (n - 1)).2⟩ := by
  have hne : (n : ℤ) ≠ 0 := by omega
  unfold rtrim
  rw [if_neg (Int.not_lt.mpr hlen)]
  dsimp only
  rw [if_pos hne]

/-- In a string that has a byte other than whitespace, the last one of these is found. -/
theorem rtrim_split {c : UInt8} (hlen : (t ++ c :: u).length ≤ ssizeMax) (hc : isspace c = false)
    (hu : Blank u) (h : Holds mem (t ++ c :: u)) :
    ∃ reads, rtrim mem (t ++ c :: u).length = some ⟨t.length + 1, reads⟩ ∧
      ∀ j ∈ reads, 0 ≤ j ∧ j < (t ++ c :: u).length := by
  have hl : (t ++ c :: u).length = t.length + u.length + 1 := by
    rw [List.length_append, List.length_cons]
    omega
  have hstop : isspace (mem t.length) = false := by
    have hlt : t.length < (t ++ c :: u).length := by omega
    rw [h _ hlt, List.getElem_append_right (Nat.le_refl _)]
    simpa using hc
  have hsp : ∀ j : ℕ, t.length < j → j ≤ t.length + u.length → isspace (mem j) = true := by
    intro j h1 h2
    have hlt : j < (t ++ c :: u).length := by omega
    have hmem : (t ++ c :: u)[j] ∈ u := by
      obtain ⟨k, rfl⟩ : ∃ k, j = t.length + (k + 1) := ⟨j - t.length - 1, by omega⟩
      rw [List.getElem_append_right (Nat.le_add_right _ _)]
      simp
    rw [h _ hlt]
    exact hu _ hmem
  obtain ⟨reads, hrun, hin⟩ := rtrimLoop_ok hstop u.length hsp
  refine ⟨reads, ?_, fun j hj => ?_⟩
  · have hi : ((t ++ c :: u).length : ℤ) = (t.length + u.length : ℕ) + 1 := by omega
    have hj : ((t.length + u.length : ℕ) : ℤ) + 1 - 1 = (t.length + u.length : ℕ) := by omega
    have hmod : ((t.length : ℤ) + 1) % 2 ^ 64 = t.length + 1 :=
      Int.emod_eq_of_lt (by omega) (by unfold ssizeMax at hlen; omega)
    rw [rtrim_eq hlen (by omega), hi, hj, hrun, hmod]
    rfl
  · obtain ⟨h1, h2⟩ := hin j hj
    exact ⟨h1, by omega⟩

/-- Of the empty string nothing is read. -/
theorem rtrim_nil (mem : Memory) : rtrim mem 0 = some ⟨0, []⟩ := rfl

/-- Where nothing but whitespace is, the byte in front is read, and decides what is left. -/
theorem rtrim_blank (hlen : s.length ≤ ssizeMax) (hne : s ≠ []) (hs : Blank s) (h : Holds mem s) :
    ∃ reads, rtrim mem s.length =
      some ⟨if isspace (mem (-1)) = false then 0 else 2 ^ 64 - 1, reads⟩ ∧ -1 ∈ reads := by
  have hsp : ∀ j : ℕ, j < s.length → isspace (mem j) = true := fun j hj => by
    rw [h j hj]
    exact hs _ (List.getElem_mem hj)
  have hpos : s.length ≠ 0 := Nat.ne_of_gt (List.length_pos_of_ne_nil hne)
  obtain ⟨reads, hrun, hin⟩ := rtrimLoop_blank s.length hsp
  refine ⟨reads, ?_, hin⟩
  rw [rtrim_eq hlen hpos, hrun]
  split_ifs <;> rfl

/-- What comes in front of whitespace at the end of a string is found right. -/
theorem right_split {c : UInt8} (hlen : (t ++ c :: u).length ≤ ssizeMax) (hc : isspace c = false)
    (hu : Blank u) (h : Holds mem (t ++ c :: u)) :
    ∃ r, rtrim mem (t ++ c :: u).length = some r ∧ Right mem (t ++ c :: u) r := by
  obtain ⟨reads, hrun, hin⟩ := rtrim_split hlen hc hu h
  have hcut : t ++ c :: u = (t ++ [c]) ++ u := List.append_cons t c u
  have hl : (t ++ [c]).length = t.length + 1 := List.length_append
  have hcopy : copied mem (t.length + 1) = t ++ [c] := by
    rw [hcut] at h
    rw [← hl]
    exact copied_append h
  refine ⟨_, hrun, hin, ?_, ?_, fun mem' hmem' => ?_⟩
  · rw [hcut, List.length_append, hl]
    exact Nat.le_add_right _ _
  · refine ⟨⟨u, ?_, hu⟩, fun d hd => ?_⟩
    · rw [hcopy]
      exact hcut
    · rw [hcopy, List.getLast?_append] at hd
      obtain rfl : c = d := Option.some.inj hd
      exact hc
  · dsimp only at hmem' ⊢
    rw [hcopy] at hmem' ⊢
    have hshort : (t ++ [c]).length ≤ ssizeMax := by
      rw [hcut, List.length_append] at hlen
      omega
    obtain ⟨reads', hrun', -⟩ := rtrim_split hshort hc blank_nil hmem'
    refine ⟨_, hrun', ?_⟩
    rw [← hl]
    exact copied_self hmem'

/-- Of an empty string there is nothing to trim. -/
theorem right_nil (mem : Memory) : ∃ r, rtrim mem 0 = some r ∧ Right mem [] r := by
  refine ⟨_, rtrim_nil mem, nofun, Nat.le_refl _, ⟨⟨[], rfl, blank_nil⟩, nofun⟩, fun mem' _ => ?_⟩
  exact ⟨_, rtrim_nil mem', rfl⟩

/-- **`rtrim` trims what is in the string, and reads nothing else, exactly if the string is empty
or has a byte that is not whitespace.** (Of a string that is too long for `ssize_t` it reads
nothing, and fails.) -/
theorem rtrim_iff (s : Bytes) :
    (∀ mem, Holds mem s → if s.length > ssizeMax then rtrim mem s.length = none
      else ∃ r, rtrim mem s.length = some r ∧ Right mem s r) ↔
    s = [] ∨ (∃ c ∈ s, isspace c = false) ∨ s.length > ssizeMax := by
  by_cases hlen : s.length > ssizeMax
  · refine iff_of_true (fun mem _ => ?_) (.inr (.inr hlen))
    rw [if_pos hlen]
    unfold rtrim
    rw [if_pos hlen]
  simp only [if_neg hlen]
  constructor
  · intro hall
    by_contra hnot
    obtain ⟨hne, hnot⟩ := not_or.mp hnot
    have hs : Blank s := fun c hc => by
      by_contra hsp
      exact hnot (.inl ⟨c, hc, Bool.eq_false_iff.mpr hsp⟩)
    have hmem : Holds (fun j => s.getD j.toNat 0) s := fun j hj => by simp [hj]
    obtain ⟨r, hrun, hr⟩ := hall _ hmem
    obtain ⟨reads, hrun', hread⟩ := rtrim_blank (Int.not_lt.mp hlen) hne hs hmem
    obtain rfl := Option.some.inj (hrun.symm.trans hrun')
    have hin := (hr.reads _ hread).1
    omega
  · intro hor mem hmem
    rcases blank_or_split s with hs | ⟨t, c, u, rfl, hc, hu⟩
    · have hnil : s = [] := by
        rcases hor with hnil | ⟨c, hc, hns⟩ | hlong
        · exact hnil
        · rw [hs c hc] at hns
          cases hns
        · exact absurd hlong hlen
      subst hnil
      exact right_nil mem
    · exact right_split (Int.not_lt.mp hlen) hc hu hmem

/-- `{$rtrim { }}`, with another space in front of it in the memory: both are read, and the length
that is left is -1. -/
theorem rtrim_reads_before : ¬ ∀ (s : Bytes) (mem : Memory), Holds mem s →
    if s.length > ssizeMax then rtrim mem s.length = none
    else ∃ r, rtrim mem s.length = some r ∧ Right mem s r := by
  intro hall
  have hmem : Holds (fun _ => 0x20) [0x20] := fun j hj => by
    obtain rfl : j = 0 := Nat.lt_one_iff.mp hj
    rfl
  obtain ⟨r, hrun, hr⟩ := hall [0x20] _ hmem
  have hrun' : rtrim (fun _ => 0x20) 1 = some ⟨2 ^ 64 - 1, [0, -1]⟩ := by decide +kernel
  obtain rfl := Option.some.inj (hrun.symm.trans hrun')
  have hin := (hr.reads (-1) (by decide)).1
  omega

end Trim

end B6b
