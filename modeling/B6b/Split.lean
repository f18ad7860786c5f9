/-
# Splitting and joining strings

`b6b_str_proc_split` compares the delimiter with what stands at its cursor, however little is left of
the string. So near the end the comparison goes on over the terminator, and if the delimiter has a
zero byte it may match there: then the cursor steps over the end, which the loop tests for with an
equality. How far `memcmp` reads behind the first difference is left open by C; both ways are
modelled.

`split_iff`: the pieces, joined, are the string, exactly if no comparison behind the last delimiter
goes over the terminator.

Key definitions: `split`, `join`, `Clear`.
-/
import B6b.Text
import B6b.Lib.Cuts

namespace B6b

namespace Split

open Cuts

/-! ### The procedures -/

/-- What goes wrong: `memcmp` compares bytes behind the terminator, or the cursor is behind the end. -/
inductive Fault
  | compares
  | steps
  deriving DecidableEq

/-- Whether the memory starts with these bytes; `none` if that takes bytes behind its end. -/
def compare : Bytes → Bytes → Option Bool
  | _, [] => some true
  | [], _ :: _ => none
  | x :: mem, c :: d => if x = c then compare mem d else some false

/-- `memcmp(p, d->s, d->slen) == 0`, where `mem` is what is at `p` up to the terminator. It may read
all of its bytes, or stop at the first difference. -/
def memcmp (all : Bool) (mem d : Bytes) : Option Bool :=
  if all = true ∧ mem.length < d.length then none else compare mem d

/-- The loop of `b6b_str_proc_split`: the pieces from `prev` on, with the cursor at `p`. -/
def splitLoop (all : Bool) (s d : Bytes) (p prev : ℕ) : Except Fault (List Bytes) :=
  if p = s.length then
    if d ≠ [] then .ok [slice s prev s.length] else .ok []
  else if _hp : s.length < p then .error .steps
  else if _hd : d ≠ [] then
    match memcmp all (s.drop p ++ [0]) d with
    | none => .error .compares
    | some false => splitLoop all s d (p + 1) prev
    | some true => (splitLoop all s d (p + d.length) (p + d.length)).map (slice s prev p :: ·)
  else (splitLoop all s d (p + 1) (p + 1)).map (slice s prev (prev + 1) :: ·)
termination_by s.length - p
decreasing_by
  · omega
  · have hpos := List.length_pos_of_ne_nil _hd
    omega
  · omega

/-- `b6b_str_proc_split`, behind its arguments. -/
def split (all : Bool) (s d : Bytes) : Except Fault (List Bytes) := splitLoop all s d 0 0

/-- `b6b_str_proc_join`, behind its arguments: the delimiter and an item are appended in turn. -/
def join (d : Bytes) : List Bytes → Bytes
  | [] => []
  | x :: l => l.foldl (fun s y => s ++ d ++ y) x

/-! ### The comparison -/

variable {all : Bool} {s d mem r q : Bytes} {c : UInt8} {p prev k : ℕ} {ps l : List Bytes}

theorem compare_eq_true : ∀ {mem d : Bytes}, compare mem d = some true ↔ d <+: mem
  | _, [] => by simp [compare]
  | [], _ :: _ => by simp [compare]
  | x :: mem, c :: d => by
    rw [compare, List.cons_prefix_cons]
    split_ifs with h
    · rw [compare_eq_true]
      exact ⟨fun hd => ⟨h.symm, hd⟩, And.right⟩
    · exact iff_of_false nofun fun hd => h hd.1.symm

theorem compare_eq_none : ∀ {mem d : Bytes}, compare mem d = none ↔ mem <+: d ∧ mem.length < d.length
  | _, [] => by simp [compare]
  | [], _ :: _ => by simp [compare]
  | x :: mem, c :: d => by
    rw [compare, List.cons_prefix_cons, and_assoc, List.length_cons, List.length_cons, Nat.succ_lt_succ_iff]
    split_ifs with h
    · rw [compare_eq_none]
      exact ⟨fun hd => ⟨h, hd⟩, And.right⟩
    · exact iff_of_false nofun fun hd => h hd.1

/-- At `r`, where the delimiter does not stand, the comparison does not go over the terminator. -/
def ClearAt (all : Bool) (d r : Bytes) : Prop :=
  if all then d.length ≤ r.length + 1 ∧ d ≠ r ++ [0] else ¬ r ++ [0] <+: d

/-- At no place of `q`. -/
def Clear (all : Bool) (d q : Bytes) : Prop := ∀ k, k < q.length → ClearAt all d (q.drop k)

/-- Where the delimiter stands, it is found. -/
theorem memcmp_prefix (h : d <+: r) : memcmp all (r ++ [0]) d = some true := by
  have hpre : d <+: r ++ [0] := h.trans (List.prefix_append _ _)
  have hshort : ¬ (all = true ∧ (r ++ [0]).length < d.length) := by
    have hle := hpre.length_le
    omega
  unfold memcmp
  rw [if_neg hshort]
  exact compare_eq_true.mpr hpre

/-- Where there is room for it, and it does not stand, it is not found. -/
theorem clearAt_of_le (hle : d.length ≤ r.length) : ClearAt all d r := by
  have hlen : (r ++ [0]).length = r.length + 1 := List.length_append
  unfold ClearAt
  split_ifs
  · refine ⟨Nat.le_succ_of_le hle, ?_⟩
    rintro rfl
    omega
  · intro hpre
    have hmore := hpre.length_le
    omega

/-- A delimiter that ends with the terminator stands in front of it. -/
theorem prefix_snoc (h : d <+: r ++ [0]) : d <+: r ∨ d = r ++ [0] := by
  rcases List.prefix_concat_iff.mp h with heq | hpre
  · exact .inr heq
  · exact .inl hpre

theorem memcmp_clear (hno : ¬ d <+: r) (hclear : ClearAt all d r) :
    memcmp all (r ++ [0]) d = some false := by
  have hlen : (r ++ [0]).length = r.length + 1 := List.length_append
  have hne : d ≠ r ++ [0] := by
    rintro rfl
    unfold ClearAt at hclear
    split_ifs at hclear
    · exact hclear.2 rfl
    · exact hclear (List.prefix_refl _)
  have hshort : ¬ (all = true ∧ (r ++ [0]).length < d.length) := by
    rintro ⟨hall, hlt⟩
    unfold ClearAt at hclear
    rw [if_pos hall] at hclear
    omega
  unfold memcmp
  rw [if_neg hshort]
  cases hcmp : compare (r ++ [0]) d with
  | none =>
    exfalso
    obtain ⟨hpre, hlt⟩ := compare_eq_none.mp hcmp
    cases all with
    | true => exact hshort ⟨rfl, hlt⟩
    | false => exact hclear hpre
  | some b =>
    cases b with
    | false => rfl
    | true => exact ((prefix_snoc (compare_eq_true.mp hcmp)).elim hno hne).elim

/-- Where it goes over the terminator, it reads on, or the delimiter is found with the terminator. -/
theorem memcmp_not_clear (hclear : ¬ ClearAt all d r) :
    memcmp all (r ++ [0]) d = none ∨ memcmp all (r ++ [0]) d = some true ∧ d = r ++ [0] := by
  have hlen : (r ++ [0]).length = r.length + 1 := List.length_append
  by_cases hd : d = r ++ [0]
  · refine .inr ⟨?_, hd⟩
    unfold memcmp
    rw [if_neg (by rw [hd]; omega)]
    exact compare_eq_true.mpr (by rw [hd])
  · left
    unfold memcmp
    split_ifs with hshort
    · rfl
    · unfold ClearAt at hclear
      cases all with
      | true =>
        have hle : ¬ (r ++ [0]).length < d.length := fun hlt => hshort ⟨rfl, hlt⟩
        exact absurd ⟨by omega, hd⟩ hclear
      | false =>
        have hpre : r ++ [0] <+: d := not_not.mp hclear
        refine compare_eq_none.mpr ⟨hpre, Nat.lt_of_le_of_ne hpre.length_le fun heq => ?_⟩
        exact hd (hpre.eq_of_length heq).symm

/-! ### The loop -/

theorem splitLoop_end (prev : ℕ) (hd : d ≠ []) :
    splitLoop all s d s.length prev = .ok [slice s prev s.length] := by
  rw [splitLoop, if_pos rfl, if_pos hd]

theorem splitLoop_steps (prev : ℕ) (hp : s.length < p) : splitLoop all s d p prev = .error .steps := by
  rw [splitLoop, if_neg (Nat.ne_of_gt hp), dif_pos hp]

/-- The loop in front of the end. -/
theorem splitLoop_at (prev : ℕ) (hd : d ≠ []) (hp : p < s.length) : splitLoop all s d p prev =
    match memcmp all (s.drop p ++ [0]) d with
    | none => .error .compares
    | some false => splitLoop all s d (p + 1) prev
    | some true => (splitLoop all s d (p + d.length) (p + d.length)).map (slice s prev p :: ·) := by
  rw [splitLoop, if_neg (Nat.ne_of_lt hp), dif_neg (Nat.not_lt_of_lt hp), dif_pos hd]

/-- The cursor goes over places where the delimiter does not stand. -/
theorem splitLoop_walk (prev : ℕ) (hd : d ≠ []) : ∀ (n p : ℕ), p + n ≤ s.length →
    (∀ k, k < n → ¬ d <+: s.drop (p + k) ∧ ClearAt all d (s.drop (p + k))) →
    splitLoop all s d p prev = splitLoop all s d (p + n) prev
  | 0, _, _, _ => rfl
  | n + 1, p, hle, hall => by
    obtain ⟨hno, hclear⟩ := hall 0 (Nat.succ_pos n)
    rw [Nat.add_zero] at hno hclear
    have hone : splitLoop all s d p prev = splitLoop all s d (p + 1) prev := by
      rw [splitLoop_at prev hd (by omega), memcmp_clear hno hclear]
    have hrest := splitLoop_walk prev hd n (p + 1) (by omega) fun k hk => by
      have hk' := hall (k + 1) (Nat.succ_lt_succ hk)
      rwa [Nat.add_right_comm, Nat.add_assoc p]
    rw [hone, hrest, Nat.add_right_comm, Nat.add_assoc]

/-- At a piece with its delimiter the loop makes the piece. -/
theorem splitLoop_piece {x t : Bytes} (hd : d ≠ []) (hs : s.drop p = x ++ d ++ t)
    (hfree : Free d (x ++ d ++ t) x.length) : splitLoop all s d p p =
      (splitLoop all s d (p + x.length + d.length) (p + x.length + d.length)).map (x :: ·) := by
  have hpos := List.length_pos_of_ne_nil hd
  have hlen := congrArg List.length hs
  rw [List.length_drop, List.length_append, List.length_append] at hlen
  have hat (k : ℕ) : s.drop (p + k) = (x ++ d ++ t).drop k := by rw [← hs, List.drop_drop]
  have hwalk : splitLoop all s d p p = splitLoop all s d (p + x.length) p := by
    refine splitLoop_walk p hd x.length p (by omega) fun k hk => ⟨?_, clearAt_of_le ?_⟩
    · rw [hat k]
      exact hfree k hk
    · rw [List.length_drop]
      omega
  have hstand : d <+: s.drop (p + x.length) := by
    rw [hat, List.append_assoc, List.drop_left]
    exact List.prefix_append d t
  have hslice : slice s p (p + x.length) = x := by
    rw [List.append_assoc] at hs
    unfold slice
    rw [hs, Nat.add_sub_cancel_left, List.take_left]
  rw [hwalk, splitLoop_at p hd (by omega), memcmp_prefix hstand, hslice]

/-- Behind a piece and its delimiter. -/
theorem drop_piece {x t : Bytes} (hp : p ≤ s.length) (hs : s.drop p = x ++ d ++ t) :
    p + x.length + d.length ≤ s.length ∧ s.drop (p + x.length + d.length) = t := by
  have hlen := congrArg List.length hs
  rw [List.length_drop, List.length_append, List.length_append] at hlen
  refine ⟨by omega, ?_⟩
  calc s.drop (p + x.length + d.length)
    _ = (s.drop p).drop (x ++ d).length := by rw [List.drop_drop, List.length_append, Nat.add_assoc]
    _ = (x ++ d ++ t).drop (x ++ d).length := by rw [hs]
    _ = t := List.drop_left

/-- **The loop makes the pieces of the cut**, if no comparison in its rest goes over the terminator. -/
theorem splitLoop_ok (hd : d ≠ []) {u : Bytes} (hcut : Cut d u ps q) (hclear : Clear all d q) :
    ∀ {p : ℕ}, p ≤ s.length → s.drop p = u → splitLoop all s d p p = .ok (ps ++ [q]) := by
  induction hcut with
  | @last q hfree =>
    intro p hp hs
    have hlen := congrArg List.length hs
    rw [List.length_drop] at hlen
    have hend : p + q.length = s.length := by omega
    have hat (k : ℕ) : s.drop (p + k) = q.drop k := by rw [← hs, List.drop_drop]
    have hwalk : splitLoop all s d p p = splitLoop all s d (p + q.length) p := by
      refine splitLoop_walk p hd q.length p (by omega) fun k hk => ?_
      rw [hat k]
      exact ⟨hfree k hk, hclear k hk⟩
    have hslice : slice s p s.length = q := by
      unfold slice
      rw [hs, List.take_of_length_le (by omega)]
    rw [hwalk, hend, splitLoop_end p hd, hslice]
    rfl
  | @cons x t ps q hfree _ ih =>
    intro p hp hs
    obtain ⟨hle, hnext⟩ := drop_piece hp hs
    rw [splitLoop_piece hd hs hfree, ih hclear hle hnext]
    rfl

/-- If one does, something goes wrong. -/
theorem splitLoop_error (hd : d ≠ []) {u : Bytes} (hcut : Cut d u ps q) (hclear : ¬ Clear all d q) :
    ∀ {p : ℕ}, p ≤ s.length → s.drop p = u → ∃ e, splitLoop all s d p p = .error e := by
  induction hcut with
  | @last q hfree =>
    intro p hp hs
    have hlen := congrArg List.length hs
    rw [List.length_drop] at hlen
    have hat (k : ℕ) : s.drop (p + k) = q.drop k := by rw [← hs, List.drop_drop]
    -- the first place at which the comparison goes over the terminator
    have hex : ∃ k, k < q.length ∧ ¬ ClearAt all d (q.drop k) := by
      unfold Clear at hclear
      push Not at hclear
      exact hclear
    classical
    obtain ⟨hk, hbad⟩ := Nat.find_spec hex
    set k := Nat.find hex with hdef
    have hwalk : splitLoop all s d p p = splitLoop all s d (p + k) p := by
      refine splitLoop_walk p hd k p (by omega) fun m hm => ?_
      rw [hat m]
      refine ⟨hfree m (by omega), ?_⟩
      by_contra hbad'
      exact Nat.find_min hex hm ⟨by omega, hbad'⟩
    rw [hwalk, splitLoop_at p hd (by omega), hat k]
    rcases memcmp_not_clear hbad with hnone | ⟨hmatch, heq⟩
    · rw [hnone]
      exact ⟨_, rfl⟩
    · have hover : s.length < p + k + d.length := by
        rw [heq, List.length_append, List.length_drop, List.length_singleton]
        omega
      rw [hmatch]
      dsimp only
      rw [splitLoop_steps _ hover]
      exact ⟨_, rfl⟩
  | @cons x t ps q hfree _ ih =>
    intro p hp hs
    obtain ⟨hle, hnext⟩ := drop_piece hp hs
    obtain ⟨e, he⟩ := ih hclear hle hnext
    rw [splitLoop_piece hd hs hfree, he]
    exact ⟨e, rfl⟩

/-- Without a delimiter each byte is a piece. -/
theorem splitLoop_nil (all : Bool) (s : Bytes) : ∀ (n : ℕ) {p : ℕ}, p + n = s.length →
    splitLoop all s [] p p = .ok ((s.drop p).map fun c => [c])
  | 0, p, hp => by
    obtain rfl : p = s.length := hp
    rw [splitLoop, if_pos rfl, List.drop_length]
    rfl
  | n + 1, p, hp => by
    have hlt : p < s.length := by omega
    have hslice : slice s p (p + 1) = [s[p]] := by
      unfold slice
      rw [Nat.add_sub_cancel_left, List.drop_eq_getElem_cons hlt]
      rfl
    rw [splitLoop, if_neg (Nat.ne_of_lt hlt), dif_neg (Nat.not_lt_of_lt hlt), dif_neg (fun h => h rfl),
      splitLoop_nil all s n (by omega), hslice, List.drop_eq_getElem_cons hlt]
    rfl

/-! ### Split and join -/

theorem intercalate_append (d x y : Bytes) : ∀ l : List Bytes,
    d.intercalate ((x ++ y) :: l) = x ++ d.intercalate (y :: l)
  | [] => by rw [List.intercalate_singleton, List.intercalate_singleton]
  | z :: l => by
    rw [List.intercalate_cons_cons, List.intercalate_cons_cons]
    simp only [List.append_assoc]

theorem foldl_eq (d : Bytes) : ∀ (l : List Bytes) (x : Bytes),
    l.foldl (fun s y => s ++ d ++ y) x = d.intercalate (x :: l)
  | [], _ => List.intercalate_singleton.symm
  | y :: l, x => by rw [List.foldl_cons, foldl_eq d l, intercalate_append, List.intercalate_cons_cons]

/-- `join` writes the delimiter between the items. -/
theorem join_eq (d : Bytes) (l : List Bytes) : join d l = d.intercalate l := by
  cases l with
  | nil => rfl
  | cons x l => exact foldl_eq d l x

theorem join_bytes : ∀ s : Bytes, join [] (s.map fun c => [c]) = s
  | [] => rfl
  | [_] => rfl
  | c :: c' :: s => by
    have hrest := join_bytes (c' :: s)
    rw [join_eq, List.map_cons] at hrest
    rw [join_eq, List.map_cons, List.map_cons, List.intercalate_cons_cons, hrest]
    rfl

/-- The pieces, joined, are the string, if nothing goes wrong. -/
theorem split_cut_iff (hd : d ≠ []) (hcut : Cut d s ps q) :
    (∃ l, split all s d = .ok l ∧ join d l = s) ↔ Clear all d q := by
  constructor
  · rintro ⟨l, hl, -⟩
    by_contra hclear
    obtain ⟨e, he⟩ : ∃ e, splitLoop all s d 0 0 = .error e :=
      splitLoop_error hd hcut hclear (Nat.zero_le _) List.drop_zero
    have hl' : splitLoop all s d 0 0 = .ok l := hl
    rw [he] at hl'
    cases hl'
  · intro hclear
    refine ⟨ps ++ [q], splitLoop_ok hd hcut hclear (Nat.zero_le _) List.drop_zero, ?_⟩
    rw [join_eq]
    exact hcut.intercalate

/-- A delimiter of one byte never goes over the terminator. -/
theorem clear_one (c : UInt8) (q : Bytes) : Clear all [c] q := by
  intro k hk
  refine clearAt_of_le ?_
  rw [List.length_drop, List.length_singleton]
  omega

/-- **`str.join` undoes `str.split` exactly if no comparison behind the last delimiter goes over the
terminator of the string;** and with a delimiter of one byte, `str.split` undoes `str.join` of strings
without it. -/
theorem split_iff (all : Bool) :
    (∀ s d, (∃ l, split all s d = .ok l ∧ join d l = s) ↔
      (d ≠ [] → ∀ ps q, Cut d s ps q → Clear all d q)) ∧
    ∀ (c : UInt8) (l : List Bytes), l ≠ [] → (∀ x ∈ l, c ∉ x) →
      split all (join [c] l) [c] = .ok l := by
  constructor
  · intro s d
    by_cases hd : d = []
    · subst hd
      refine iff_of_true ⟨_, splitLoop_nil all s s.length (Nat.zero_add _), ?_⟩ fun h => absurd rfl h
      rw [List.drop_zero]
      exact join_bytes s
    · constructor
      · exact fun hl _ ps q hcut => (split_cut_iff hd hcut).mp hl
      · intro hall
        obtain ⟨ps, q, hcut⟩ := exists_cut hd s
        exact (split_cut_iff hd hcut).mpr (hall hd ps q hcut)
  · intro c l hne hl
    obtain ⟨ps, q, rfl⟩ : ∃ ps q, l = ps ++ [q] := ⟨_, _, (List.dropLast_concat_getLast hne).symm⟩
    have hcut : Cut [c] (join [c] (ps ++ [q])) ps q := by
      rw [join_eq]
      refine cut_of_not_mem (fun p hp => hl p ?_) (hl q ?_)
      · exact List.mem_append_left _ hp
      · exact List.mem_append_right _ List.mem_cons_self
    have hd : [c] ≠ [] := List.cons_ne_nil _ _
    exact splitLoop_ok hd hcut (clear_one c q) (Nat.zero_le _) List.drop_zero

/-- `{$str.split {a b} { }}`, and back. -/
theorem split_a_b : split true (join [blank] [[0x61], [0x62]]) [blank] = .ok [[0x61], [0x62]] :=
  (split_iff true).2 blank [[0x61], [0x62]] (by decide) (by decide)

/-- `a` is split at `a` with a zero byte: they match, and the cursor is behind the end. -/
theorem split_steps : ¬ ∃ all, ∀ s d, ∃ l, split all s d = .ok l ∧ join d l = s := by
  rintro ⟨all, hall⟩
  obtain ⟨l, hl, -⟩ := hall [0x61] [0x61, 0]
  have hrun : split all [0x61] [0x61, 0] = .error .steps := by
    cases all <;> decide +kernel
  rw [hrun] at hl
  cases hl

end Split

end B6b
