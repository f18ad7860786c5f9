/-
# Around a list

A list read as a ring: `behind c l` is what comes behind `c`, on to the end of the list and on from
its start. A turn goes from `c` to something behind it; what it has passed over comes last then
(`behind_turn`).

Of two elements that are never passed over, the one that is ahead stays ahead until a turn goes
to it, and then it is the other one (`Ahead.turn`). Elements that leave the list do not matter
(`Ahead.leave`). So turns go to the two by turns, which is `Alternates`; and between two turns
to the one there is exactly one to the other: `Alternates.count_between`.

Key definitions: `behind`, `Ahead`, `Alternates`.
-/
import Mathlib.Data.List.Nodup
import Mathlib.Data.List.TakeWhile
import Mathlib.Tactic.TypeStar

namespace Ring

variable {α : Type*} [DecidableEq α]

/-- What comes behind `c`, around the list. -/
def behind (c : α) (l : List α) : List α := (l.dropWhile (· ≠ c)).tail ++ l.takeWhile (· ≠ c)

/-- It is one of the two. -/
def either (x y z : α) : Bool := decide (z = x ∨ z = y)

/-- Of `x` and `y`, the list has `x` first. -/
def Ahead (x y : α) (l : List α) : Prop := l.find? (either x y) = some x

variable {c t x y : α} {l l' us vs : List α}

/-! ### The order -/

theorem behind_split (h : c ∉ us) : behind c (us ++ c :: vs) = vs ++ us := by
  have hne : ∀ z ∈ us, decide (z ≠ c) = true := fun z hz => decide_eq_true fun he => h (he ▸ hz)
  unfold behind
  rw [List.dropWhile_append_of_pos hne, List.takeWhile_append_of_pos hne,
    List.dropWhile_cons_of_neg (by simp), List.takeWhile_cons_of_neg (by simp), List.append_nil,
    List.tail_cons]

theorem mem_behind (hl : l.Nodup) (hc : c ∈ l) : x ∈ behind c l ↔ x ∈ l ∧ x ≠ c := by
  obtain ⟨us, vs, rfl, hus⟩ := List.eq_append_cons_of_mem hc
  have hvs : c ∉ us ++ vs := (List.nodup_cons.mp (List.nodup_middle.mp hl)).1
  rw [behind_split hus]
  constructor
  · intro hx
    refine ⟨?_, fun he => hvs (he ▸ List.mem_append.mpr (List.mem_append.mp hx).symm)⟩
    rcases List.mem_append.mp hx with hx | hx
    · exact List.mem_append_right _ (List.mem_cons_of_mem _ hx)
    · exact List.mem_append_left _ hx
  · rintro ⟨hx, hne⟩
    rcases List.mem_append.mp hx with hx | hx
    · exact List.mem_append_right _ hx
    · exact List.mem_append_left _ (List.mem_of_ne_of_mem hne hx)

/-- A turn from `c` to `t` puts what it has passed over last. -/
theorem behind_turn (hl : l.Nodup) (hc : c ∈ l) (h : behind c l = us ++ t :: vs) :
    behind t l = vs ++ c :: us := by
  obtain ⟨as, bs, rfl, has⟩ := List.eq_append_cons_of_mem hc
  rw [behind_split has] at h
  rcases List.append_eq_append_iff.mp h with ⟨ws, rfl, hws⟩ | ⟨ws, rfl, hws⟩
  · -- `t` is in front of `c` in the list
    subst hws
    have hnot : t ∉ ws := fun ht =>
      (List.nodup_append.mp (List.nodup_append.mp hl).1).2.2 t ht t List.mem_cons_self rfl
    rw [List.append_assoc, List.cons_append, behind_split hnot]
    simp
  · cases ws with
    | nil =>
      rw [List.nil_append] at hws
      subst hws
      have hnot : t ∉ ([] : List α) := List.not_mem_nil
      have hfirst : behind t ([] ++ t :: (vs ++ c :: us)) = vs ++ c :: us ++ [] := behind_split hnot
      rwa [List.append_nil] at hfirst ⊢
    | cons w ws =>
      rw [List.cons_append, List.cons.injEq] at hws
      obtain ⟨rfl, rfl⟩ := hws
      have hsplit : as ++ c :: (us ++ t :: ws) = (as ++ c :: us) ++ t :: ws := by simp
      rw [hsplit] at hl ⊢
      have hnot : t ∉ as ++ c :: us := fun ht => (List.nodup_append.mp hl).2.2 t ht t List.mem_cons_self rfl
      rw [behind_split hnot, List.append_assoc]

/-- Where elements leave the list, the others keep their order. -/
theorem behind_sublist (hl : l.Nodup) (hsub : l'.Sublist l) (hc : c ∈ l') : (behind c l').Sublist (behind c l) := by
  obtain ⟨us, vs, rfl, hus⟩ := List.eq_append_cons_of_mem (hsub.subset hc)
  have hvs : c ∉ us ++ vs := (List.nodup_cons.mp (List.nodup_middle.mp hl)).1
  obtain ⟨us', ws, rfl, husub, hws⟩ := List.sublist_append_iff.mp hsub
  have hus' : c ∉ us' := fun h => hus (husub.subset h)
  rcases List.sublist_cons_iff.mp hws with hws | ⟨vs', rfl, hvsub⟩
  · have hcw : c ∈ ws := (List.mem_append.mp hc).resolve_left hus'
    exact absurd (List.mem_append_right us (hws.subset hcw)) hvs
  · rw [behind_split hus, behind_split hus']
    exact hvsub.append husub

/-! ### Which of two comes first -/

theorem either_iff {z : α} : either x y z = true ↔ z = x ∨ z = y := decide_eq_true_iff

theorem either_comm (x y : α) : either x y = either y x := by
  funext z
  exact decide_eq_decide.mpr or_comm

theorem Ahead.of_mem (hx : x ∈ l) (hy : y ∉ l) : Ahead x y l := by
  obtain ⟨z, hz⟩ := Option.isSome_iff_exists.mp (List.find?_isSome.mpr ⟨x, hx, either_iff.mpr (.inl rfl)⟩)
  have hxy : z = x ∨ z = y := either_iff.mp (List.find?_some hz)
  have hne : z ≠ y := fun he => hy (he ▸ List.mem_of_find?_eq_some hz)
  exact hxy.resolve_right hne ▸ hz

/-- One of the two is ahead. -/
theorem ahead_or (h : x ∈ l ∨ y ∈ l) : Ahead x y l ∨ Ahead y x l := by
  have hsome : (l.find? (either x y)).isSome := by
    rcases h with h | h
    · exact List.find?_isSome.mpr ⟨x, h, either_iff.mpr (.inl rfl)⟩
    · exact List.find?_isSome.mpr ⟨y, h, either_iff.mpr (.inr rfl)⟩
  obtain ⟨z, hz⟩ := Option.isSome_iff_exists.mp hsome
  rcases either_iff.mp (List.find?_some hz) with rfl | rfl
  · exact .inl hz
  · refine .inr ?_
    unfold Ahead
    rw [either_comm]
    exact hz

/-- The one that is ahead stays so where others leave the list. -/
theorem Ahead.sublist (h : Ahead x y l) (hl : l.Nodup) (hsub : l'.Sublist l) (hx : x ∈ l') : Ahead x y l' := by
  induction hsub with
  | slnil => exact absurd hx List.not_mem_nil
  | @cons ks ls z hsub ih =>
    obtain ⟨hz, hls⟩ := List.nodup_cons.mp hl
    unfold Ahead at h
    by_cases hq : either x y z = true
    · rw [List.find?_cons_of_pos hq] at h
      obtain rfl := Option.some.inj h
      exact absurd (hsub.subset hx) hz
    · rw [List.find?_cons_of_neg hq] at h
      exact ih h hls hx
  | @cons_cons ks ls z hsub ih =>
    obtain ⟨hz, hls⟩ := List.nodup_cons.mp hl
    unfold Ahead at h ⊢
    by_cases hq : either x y z = true
    · rw [List.find?_cons_of_pos hq] at h ⊢
      exact h
    · rw [List.find?_cons_of_neg hq] at h ⊢
      exact ih h hls (List.mem_of_ne_of_mem (fun he => hq (either_iff.mpr (.inl he.symm))) hx)

/-- Elements other than the two leave the list. -/
theorem Ahead.leave (h : Ahead x y (behind c l)) (hl : l.Nodup) (hsub : l'.Sublist l) (hc : c ∈ l') (hx : x ∈ l') :
    Ahead x y (behind c l') := by
  have hcl : c ∈ l := hsub.subset hc
  have hbehind : (behind c l).Nodup := by
    obtain ⟨us, vs, rfl, hus⟩ := List.eq_append_cons_of_mem hcl
    rw [behind_split hus]
    exact List.nodup_append_comm.mp (List.nodup_cons.mp (List.nodup_middle.mp hl)).2
  have hne : x ≠ c := ((mem_behind hl hcl).mp (List.mem_of_find?_eq_some h)).2
  exact h.sublist hbehind (behind_sublist hl hsub hc) ((mem_behind (hl.sublist hsub) hc).mpr ⟨hx, hne⟩)

/-- A turn that passes over neither of the two goes to the one ahead, and then the other is, or to
something else, and it still is. -/
theorem Ahead.turn (h : Ahead x y (behind c l)) (hl : l.Nodup) (hc : c ∈ l) (hy : y ∈ l) (hxy : x ≠ y)
    (hb : behind c l = us ++ t :: vs) (hx' : x ∉ us) (hy' : y ∉ us) :
    if t = x then Ahead y x (behind t l) else t ≠ y ∧ Ahead x y (behind t l) := by
  have ht : t ∈ l := by
    refine ((mem_behind hl hc).mp ?_).1
    rw [hb]
    exact List.mem_append_right _ List.mem_cons_self
  have hfind : (t :: vs).find? (either x y) = some x := by
    unfold Ahead at h
    rw [hb, List.find?_append, List.find?_eq_none.mpr, Option.none_or] at h
    · exact h
    · intro z hz hor
      rcases either_iff.mp hor with rfl | rfl
      · exact hx' hz
      · exact hy' hz
  by_cases htx : t = x
  · rw [if_pos htx]
    refine Ahead.of_mem ((mem_behind hl ht).mpr ⟨hy, fun he => hxy (htx.symm.trans he.symm)⟩) fun hx => ?_
    exact ((mem_behind hl ht).mp hx).2 htx.symm
  · rw [if_neg htx]
    by_cases hty : t = y
    · rw [List.find?_cons_of_pos (either_iff.mpr (.inr hty))] at hfind
      exact absurd (Option.some.inj hfind) htx
    · rw [List.find?_cons_of_neg fun hor => (either_iff.mp hor).elim htx hty] at hfind
      refine ⟨hty, ?_⟩
      unfold Ahead
      rw [behind_turn hl hc hb, List.find?_append, hfind, Option.some_or]

/-! ### By turns -/

/-- Of `x` and `y` the sequence has `x` first, and then the other one each time. -/
def Alternates : α → α → List α → Prop
  | _, _, [] => True
  | x, y, t :: ts => if t = x then Alternates y x ts else t ≠ y ∧ Alternates x y ts

theorem alternates_cons {ts : List α} :
    Alternates x y (t :: ts) ↔ if t = x then Alternates y x ts else t ≠ y ∧ Alternates x y ts := Iff.rfl

/-- Behind one of the two, the other comes first. -/
theorem Alternates.of_append : ∀ {ts : List α} {x y : α}, Alternates x y (ts ++ t :: us) →
    (t = y → Alternates x y us) ∧ (t = x → Alternates y x us)
  | [], x, y, h => by
    rw [List.nil_append, alternates_cons] at h
    by_cases htx : t = x
    · rw [if_pos htx] at h
      exact ⟨fun hty => by rwa [← htx, hty] at h ⊢, fun _ => h⟩
    · rw [if_neg htx] at h
      exact ⟨fun hty => absurd hty h.1, fun he => absurd he htx⟩
  | s :: ts, x, y, h => by
    rw [List.cons_append, alternates_cons] at h
    by_cases hsx : s = x
    · rw [if_pos hsx] at h
      exact (Alternates.of_append h).symm
    · rw [if_neg hsx] at h
      exact Alternates.of_append h.2

/-- Without the first one there is none of the other. -/
theorem Alternates.not_mem : ∀ {ts : List α}, Alternates x y (ts ++ us) → x ∉ ts → y ∉ ts
  | [], _, _ => List.not_mem_nil
  | t :: ts, h, hx => by
    obtain ⟨htx, hts⟩ := List.ne_and_not_mem_of_not_mem_cons hx
    rw [List.cons_append, alternates_cons] at h
    rw [if_neg htx.symm] at h
    exact List.not_mem_cons_of_ne_of_not_mem h.1.symm (Alternates.not_mem h.2 hts)

/-- Up to the other one, there is the first one once. -/
theorem Alternates.count_between (hxy : x ≠ y) : ∀ {ts : List α}, Alternates x y (ts ++ y :: us) → y ∉ ts →
    ts.count x = 1
  | [], h, _ => by
    rw [List.nil_append, alternates_cons] at h
    rw [if_neg hxy.symm] at h
    exact absurd rfl h.1
  | t :: ts, h, hy => by
    obtain ⟨-, hts⟩ := List.ne_and_not_mem_of_not_mem_cons hy
    rw [List.cons_append, alternates_cons] at h
    by_cases htx : t = x
    · rw [if_pos htx] at h
      rw [htx, List.count_cons_self, List.count_eq_zero.mpr (Alternates.not_mem h hts)]
    · rw [if_neg htx] at h
      rw [List.count_cons_of_ne htx]
      exact Alternates.count_between hxy h.2 hts

end Ring
