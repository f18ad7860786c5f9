/-
# A list extended with another

`b6b_list_extend` walks the items of one list and adds each to the other. Nothing checks that the
two are different objects: a list that is extended with itself has one more item at the end with
each that is added, so the walk never comes to an end, unless the list is empty.

Key definitions: `extendWith`, `Extended`.
-/
import B6b.Dict

namespace B6b

namespace Extend

variable {F : Type} {l l2 : Addr} {lis lis2 : List Litem} {h : Heap F}

/-- `b6b_list_extend`, if its loop takes no more than `fuel` turns. -/
def extendWith (fuel : ℕ) (l l2 : Addr) : Op (Heap F) Unit := do
  listExtendFrom l l2 fuel 0
  listFlush l

/-- `l` has the items it had, and those that `l2` had behind them; and `l2` is as it was, if it is
another object. -/
structure Extended (l l2 : Addr) (lis lis2 : List Litem) (h h' : Heap F) : Prop where
  items : ∃ new, (h'.obj l).l = some (lis ++ new) ∧ new.map (·.o) = lis2.map (·.o)
  other : l2 ≠ l → h'.obj l2 = h.obj l2

/-- The object is a list with these items. -/
structure IsList (h : Heap F) (l : Addr) (lis : List Litem) : Prop where
  lt : l < h.next
  items : (h.obj l).l = some lis

/-! ### One item -/

/-- The walk at an item. -/
theorem listExtendFrom_cons (fuel : ℕ) {k : ℕ} {li : Litem} (hl2 : IsList h l2 lis2)
    (hk : lis2[k]? = some li) : listExtendFrom l l2 (fuel + 1) k h =
      (listDoAdd l li.o >>= fun _ => listExtendFrom l l2 fuel (k + 1)) h := by
  rw [listExtendFrom, Op.bind_ok (items_ok hl2.lt hl2.items), hk]

/-- The walk behind the last item. -/
theorem listExtendFrom_nil (fuel : ℕ) {k : ℕ} (hl2 : IsList h l2 lis2) (hk : lis2[k]? = none) :
    listExtendFrom l l2 (fuel + 1) k h = .ok () h := by
  rw [listExtendFrom, Op.bind_ok (items_ok hl2.lt hl2.items), hk]
  rfl

/-! ### All of them -/

/-- Of another list, every item from `k` on is added. -/
theorem listExtendFrom_ok (hne : l2 ≠ l) : ∀ (fuel k : ℕ) {h : Heap F} {lis : List Litem},
    IsList h l lis → IsList h l2 lis2 → lis2.length < fuel + k →
    k ≤ lis2.length → ∃ h' new, listExtendFrom l l2 fuel k h = .ok () h' ∧ IsList h' l (lis ++ new) ∧
      new.map (·.o) = (lis2.drop k).map (·.o) ∧ h'.obj l2 = h.obj l2
  | 0, k, h, lis, _, _, hlt, hle => absurd hlt (by omega)
  | fuel + 1, k, h, lis, hl, hl2, hlt, hle => by
    cases hk : lis2[k]? with
    | none =>
      have hdrop : lis2.drop k = [] := List.drop_eq_nil_of_le (List.getElem?_eq_none_iff.mp hk)
      refine ⟨h, [], listExtendFrom_nil fuel hl2 hk, ?_, ?_, rfl⟩
      · rw [List.append_nil]
        exact hl
      · rw [hdrop]
    | some li =>
      obtain ⟨hk', hget⟩ := List.getElem?_eq_some_iff.mp hk
      obtain ⟨h₁, hadd, hre, hothers⟩ := listDoAdd_ok li.o hl.lt hl.items
      have hl₁ : IsList h₁ l (lis ++ [⟨h.nextLi, li.o⟩]) := ⟨hre.next ▸ hl.lt, hre.items⟩
      have hl2₁ : IsList h₁ l2 lis2 := ⟨hre.next ▸ hl2.lt, (hothers l2 hne).symm ▸ hl2.items⟩
      obtain ⟨h', new, hrest, hl', hnew, hsame⟩ :=
        listExtendFrom_ok hne fuel (k + 1) hl₁ hl2₁ (by omega) (by omega)
      have hdrop : lis2.drop k = li :: lis2.drop (k + 1) := by
        rw [← hget]
        exact List.drop_eq_getElem_cons hk'
      refine ⟨h', ⟨h.nextLi, li.o⟩ :: new, ?_, ?_, ?_, hsame.trans (hothers l2 hne)⟩
      · rw [listExtendFrom_cons fuel hl2 hk, Op.bind_ok hadd]
        exact hrest
      · rw [List.append_cons]
        exact hl'
      · rw [hdrop, List.map_cons, List.map_cons, hnew]

/-- Of the list itself, there is always one more. -/
theorem listExtendFrom_self : ∀ (fuel k : ℕ) {h : Heap F} {lis : List Litem}, IsList h l lis →
    k < lis.length → listExtendFrom l l fuel k h = .crash
  | 0, _, _, _, _, _ => rfl
  | fuel + 1, k, h, lis, hl, hk => by
    have hget : lis[k]? = some lis[k] := List.getElem?_eq_getElem hk
    obtain ⟨h₁, hadd, hre, -⟩ := listDoAdd_ok lis[k].o hl.lt hl.items
    rw [listExtendFrom_cons fuel hl hget, Op.bind_ok hadd]
    refine listExtendFrom_self fuel (k + 1) ⟨hre.next ▸ hl.lt, hre.items⟩ ?_
    rw [List.length_append, List.length_singleton]
    exact Nat.succ_lt_succ hk

/-- `b6b_list_flush` keeps the items. -/
theorem listFlush_keeps (hl : IsList h l lis) : ∃ h', listFlush l h = .ok () h' ∧
    (h'.obj l).l = some lis ∧ ∀ b, b ≠ l → h'.obj b = h.obj b := by
  refine ⟨_, Op.bind_ok (items_ok hl.lt hl.items) _, ?_, fun b hb => Heap.set_obj_of_ne _ _ hb⟩
  rw [Heap.set_obj_self]
  rfl

/-- A list is extended with another one in as many turns as that has items. -/
theorem extendWith_ok (hne : l2 ≠ l) (hl : IsList h l lis) (hl2 : IsList h l2 lis2) :
    ∃ h', extendWith (lis2.length + 1) l l2 h = .ok () h' ∧ Extended l l2 lis lis2 h h' := by
  obtain ⟨h₁, new, hwalk, hl₁, hnew, hsame⟩ :=
    listExtendFrom_ok hne (lis2.length + 1) 0 hl hl2 (by omega) (Nat.zero_le _)
  obtain ⟨h', hflush, hitems, hothers⟩ := listFlush_keeps hl₁
  refine ⟨h', ?_, ⟨new, hitems, hnew⟩, fun _ => (hothers l2 hne).trans hsame⟩
  exact (Op.bind_ok hwalk _).trans hflush

/-- An empty list is extended with itself in one turn. -/
theorem extendWith_nil (hl : IsList h l []) :
    ∃ h', extendWith 1 l l h = .ok () h' ∧ Extended l l [] [] h h' := by
  obtain ⟨h', hflush, hitems, -⟩ := listFlush_keeps hl
  refine ⟨h', ?_, ⟨[], hitems, rfl⟩, fun hne => absurd rfl hne⟩
  exact (Op.bind_ok (listExtendFrom_nil 0 hl rfl) _).trans hflush

/-- `b6b_list_extend` takes as many turns as the list has items. -/
theorem listExtend_eq (hl2 : IsList h l2 lis2) :
    listExtend l l2 h = extendWith (lis2.length + 1) l l2 h := by
  unfold listExtend
  rw [Op.bind_ok (items_ok hl2.lt hl2.items)]
  rfl

/-- A list that has items never comes to the end of itself. -/
theorem extendWith_self (hl : IsList h l lis) (hne : lis ≠ []) (fuel : ℕ) :
    extendWith fuel l l h = .crash := by
  have hcrash : listExtendFrom l l fuel 0 h = .crash :=
    listExtendFrom_self fuel 0 hl (List.length_pos_of_ne_nil hne)
  unfold extendWith
  rw [Op.bind_apply, hcrash]

/-- **`list.extend` ends, and concatenates, exactly if the two lists are different objects** or
have no items; and then in as many turns as the model of the procedure gives it. -/
theorem extend_iff (h : Heap F) (l l2 : Addr) (lis lis2 : List Litem) (hl : IsList h l lis)
    (hl2 : IsList h l2 lis2) :
    ((∃ fuel h', extendWith fuel l l2 h = .ok () h' ∧ Extended l l2 lis lis2 h h') ↔
      l ≠ l2 ∨ lis2 = []) ∧
    ((∃ h', listExtend l l2 h = .ok () h' ∧ Extended l l2 lis lis2 h h') ↔ l ≠ l2 ∨ lis2 = []) := by
  have hends : ∀ {fuel h'}, extendWith fuel l l2 h = .ok () h' → l ≠ l2 ∨ lis2 = [] := by
    intro fuel h' hrun
    by_contra hnot
    obtain ⟨heq, hne⟩ := not_or.mp hnot
    obtain rfl := not_not.mp heq
    cases (extendWith_self hl2 hne fuel).symm.trans hrun
  have hextends : l ≠ l2 ∨ lis2 = [] →
      ∃ h', extendWith (lis2.length + 1) l l2 h = .ok () h' ∧ Extended l l2 lis lis2 h h' := by
    intro hor
    by_cases heq : l = l2
    · subst heq
      obtain rfl : lis2 = [] := hor.resolve_left fun hne => hne rfl
      obtain rfl : [] = lis := Option.some.inj (hl2.items.symm.trans hl.items)
      exact extendWith_nil hl
    · exact extendWith_ok (Ne.symm heq) hl hl2
  rw [listExtend_eq hl2]
  exact ⟨⟨fun ⟨fuel, h', hrun, _⟩ => hends hrun, fun hor => ⟨_, hextends hor⟩⟩,
    fun ⟨h', hrun, _⟩ => hends hrun, hextends⟩

/-- Two lists, of two objects and of one. -/
def twoLists : Heap ℤ := (((Heap.empty.push (.ofStr [])).push (.ofStr [0x61])).push
  (.ofList [⟨0, 0⟩, ⟨1, 1⟩])).push (.ofList [⟨2, 1⟩, ⟨3, 1⟩, ⟨4, 1⟩])

/-- One is extended with the other. -/
theorem extend_two :
    (∃ fuel h', extendWith fuel 2 3 twoLists = .ok () h' ∧
      Extended 2 3 [⟨0, 0⟩, ⟨1, 1⟩] [⟨2, 1⟩, ⟨3, 1⟩, ⟨4, 1⟩] twoLists h') ∧
    ∃ h', listExtend 2 3 twoLists = .ok () h' ∧
      Extended 2 3 [⟨0, 0⟩, ⟨1, 1⟩] [⟨2, 1⟩, ⟨3, 1⟩, ⟨4, 1⟩] twoLists h' :=
  have hextends := extend_iff twoLists 2 3 [⟨0, 0⟩, ⟨1, 1⟩] [⟨2, 1⟩, ⟨3, 1⟩, ⟨4, 1⟩] ⟨by decide, rfl⟩
    ⟨by decide, rfl⟩
  ⟨hextends.1.mpr (.inl (by decide)), hextends.2.mpr (.inl (by decide))⟩

/-- One is extended with itself. -/
theorem extend_itself : ¬ ∀ (h : Heap ℤ) (l l2 : Addr) (lis lis2 : List Litem), IsList h l lis →
    IsList h l2 lis2 → ∃ fuel h', extendWith fuel l l2 h = .ok () h' ∧ Extended l l2 lis lis2 h h' := by
  intro hall
  have hl : IsList twoLists 2 [⟨0, 0⟩, ⟨1, 1⟩] := ⟨by decide, rfl⟩
  obtain ⟨fuel, h', hrun, -⟩ := hall twoLists 2 2 _ _ hl hl
  cases (extendWith_self hl (by decide) fuel).symm.trans hrun

end Extend

end B6b
