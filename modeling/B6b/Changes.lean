/-
# What the container operations change

`Changed l`: the items of the list `l` are others, it is flushed, and nothing else has
changed. Every operation of `b6b_list.c` and `b6b_dict.c` that changes a list is such a
change behind the conversions it needs, with one exception: `b6b_list_proc_pop` removes
an item and does not flush (`listRemove_returns`).

The lemmas named `_keeps` put the operations and the procedures in their frames; what
they require of `P` is what the operation touches.
-/
import B6b.Evolve

namespace B6b

variable {F : Type} {N : Num F} {P : Touch → Prop}

/-! ### Items -/

/-- The heap with another counter of list items. -/
def Heap.withLi (h : Heap F) (n : ℕ) : Heap F := { h with nextLi := n }

@[simp] theorem Heap.withLi_obj (h : Heap F) (n : ℕ) : (h.withLi n).obj = h.obj := rfl

@[simp] theorem Heap.withLi_next (h : Heap F) (n : ℕ) : (h.withLi n).next = h.next := rfl

@[simp] theorem Heap.withLi_nextLi (h : Heap F) (n : ℕ) : (h.withLi n).nextLi = n := rfl

theorem Heap.set_set (h : Heap F) (a : Addr) (o o' : Obj F) : (h.set a o).set a o' = h.set a o' := by
  simp [Heap.set]

theorem Heap.withLi_set (h : Heap F) (n m : ℕ) (a : Addr) (o : Obj F) :
    ((h.withLi n).set a o).withLi m = (h.withLi m).set a o := rfl

theorem items_returns (l : Addr) (h : Heap F) :
    Op.Returns (items l) h fun lis h' => h = h' ∧ l < h.next ∧ (h.obj l).l = some lis := by
  refine ends_load_bind fun hlt => ?_
  rcases hl : (h.obj l).l with _ | lis
  · exact Op.ends_crash
  · exact Op.ends_pure ⟨rfl, hlt, rfl⟩

theorem intOf_returns (a : Addr) (h : Heap F) : Op.Returns (intOf a) h fun _ h' => h = h' := by
  refine ends_load_bind fun _ => ?_
  rcases (h.obj a).i with _ | i
  · exact Op.ends_crash
  · exact Op.ends_pure rfl

theorem alloc_returns (o : Obj F) (h : Heap F) :
    Op.Returns (alloc o) h fun a h' => a = h.next ∧ h' = h.push o := ⟨rfl, rfl⟩

/-- A new list item changes the counter. -/
theorem newLitem_returns (o : Addr) (h : Heap F) :
    Op.Returns (newLitem o) h fun li h' => li = ⟨h.nextLi, o⟩ ∧ h' = h.withLi (h.nextLi + 1) :=
  ⟨rfl, rfl⟩

theorem newLitems_returns : ∀ (xs : List Addr) (h : Heap F), Op.Returns (newLitems xs) h fun lis h' =>
    lis.map (·.o) = xs ∧ ∃ n, h.nextLi ≤ n ∧ h' = h.withLi n
  | [], h => Op.ends_pure ⟨rfl, h.nextLi, Nat.le_refl _, rfl⟩
  | x :: xs, h => by
    refine Op.returns_bind (newLitem_returns x h) ?_
    rintro li _ ⟨rfl, rfl⟩
    refine Op.returns_bind (newLitems_returns xs _) ?_
    rintro lis _ ⟨rfl, n, hn, rfl⟩
    exact Op.ends_pure ⟨rfl, n, Nat.le_of_succ_le hn, rfl⟩

/-- A new list of objects. -/
theorem listBuild_returns (xs : List Addr) (h : Heap F) : Op.Returns (listBuild xs) h fun a h' =>
    a = h.next ∧ ∃ n lis, lis.map (·.o) = xs ∧ h.nextLi ≤ n ∧ h' = (h.withLi n).push (.ofList lis) := by
  refine Op.returns_bind (newLitems_returns xs h) ?_
  rintro lis _ ⟨hlis, n, hn, rfl⟩
  exact ⟨rfl, n, lis, hlis, hn, rfl⟩

theorem newLitems_ok : ∀ (xs : List Addr) (h : Heap F), ∃ n lis,
    newLitems xs h = .ok lis (h.withLi n) ∧ lis.map (·.o) = xs
  | [], h => ⟨h.nextLi, [], rfl, rfl⟩
  | x :: xs, h => by
    obtain ⟨n, lis, hok, hlis⟩ := newLitems_ok xs (h.withLi (h.nextLi + 1))
    have hone : newLitem x h = .ok ⟨h.nextLi, x⟩ (h.withLi (h.nextLi + 1)) := rfl
    refine ⟨n, ⟨h.nextLi, x⟩ :: lis, ?_, congrArg (x :: ·) hlis⟩
    unfold newLitems
    rw [Op.bind_ok hone, Op.bind_ok hok]
    rfl

/-- It can always be made. -/
theorem listBuild_ok (xs : List Addr) (h : Heap F) : ∃ n lis,
    listBuild xs h = .ok h.next ((h.withLi n).push (.ofList lis)) ∧ lis.map (·.o) = xs := by
  obtain ⟨n, lis, hok, hlis⟩ := newLitems_ok xs h
  exact ⟨n, lis, Op.bind_ok hok _, hlis⟩

/-- The items `lis'` of a list that had `lis` are of objects in `G`, if those were. -/
def Within (G : Addr → Prop) (lis lis' : List Litem) : Prop :=
  (∀ li ∈ lis, G li.o) → ∀ li ∈ lis', G li.o

/-- The items of `l` are others, of objects in `G` if those were, it is not flushed, and
nothing else has changed. -/
def Relinked (G : Addr → Prop) (l : Addr) (h h' : Heap F) : Prop :=
  ∃ n lis lis', (h.obj l).l = some lis ∧ Within G lis lis' ∧ h.nextLi ≤ n ∧
    h' = (h.withLi n).set l ((h.obj l).withItems lis')

/-- The items of `l` are others, of objects in `G` if those were, it is flushed, and nothing
else has changed. -/
def Changed (G : Addr → Prop) (l : Addr) (h h' : Heap F) : Prop :=
  ∃ n lis lis', (h.obj l).l = some lis ∧ Within G lis lis' ∧ h.nextLi ≤ n ∧
    h' = (h.withLi n).set l ((h.obj l).flushed lis')

variable {G : Addr → Prop}

/-- What `Relinked` and `Changed` have in common: the object becomes what `f` makes of it. -/
def Sets (f : Obj F → List Litem → Obj F) (G : Addr → Prop) (l : Addr) (h h' : Heap F) : Prop :=
  ∃ n lis lis', (h.obj l).l = some lis ∧ Within G lis lis' ∧ h.nextLi ≤ n ∧
    h' = (h.withLi n).set l (f (h.obj l) lis')

/-- Of two changes the second one remains, with the items of both. -/
theorem Sets.trans {f g : Obj F → List Litem → Obj F} {l : Addr} {h₁ h₂ h₃ : Heap F}
    (hf : ∀ o lis, (f o lis).l = some lis) (hg : ∀ o lis lis', g (f o lis) lis' = g o lis')
    (h12 : Sets f G l h₁ h₂) (h23 : Sets g G l h₂ h₃) : Sets g G l h₁ h₃ := by
  obtain ⟨n, lis, lis', hl, hw, hn, rfl⟩ := h12
  obtain ⟨m, lis₂, lis'', hl₂, hw₂, hm, rfl⟩ := h23
  rw [Heap.set_obj_self] at hl₂ ⊢
  rw [hf] at hl₂
  obtain rfl : lis' = lis₂ := Option.some.inj hl₂
  refine ⟨m, lis, lis'', hl, hw₂ ∘ hw, Nat.le_trans hn hm, ?_⟩
  rw [Heap.withLi_set, Heap.set_set, hg]

theorem Relinked.trans {l : Addr} {h₁ h₂ h₃ : Heap F} (h12 : Relinked G l h₁ h₂)
    (h23 : Relinked G l h₂ h₃) : Relinked G l h₁ h₃ :=
  Sets.trans (f := Obj.withItems) (g := Obj.withItems) (fun _ _ => rfl) (fun _ _ _ => rfl) h12 h23

/-- The flush behind a change of the items. -/
theorem Relinked.flushed {l : Addr} {h₁ h₂ h₃ : Heap F} (h12 : Relinked G l h₁ h₂)
    (h23 : Changed G l h₂ h₃) : Changed G l h₁ h₃ :=
  Sets.trans (f := Obj.withItems) (g := Obj.flushed) (fun _ _ => rfl) (fun _ _ _ => rfl) h12 h23

theorem Changed.trans {l : Addr} {h₁ h₂ h₃ : Heap F} (h12 : Changed G l h₁ h₂)
    (h23 : Changed G l h₂ h₃) : Changed G l h₁ h₃ :=
  Sets.trans (f := Obj.flushed) (g := Obj.flushed) (fun _ _ => rfl) (fun _ _ _ => rfl) h12 h23

theorem Changed.rel {l : Addr} {h h' : Heap F} (hch : Changed G l h h') (hc : P .conv)
    (hl : P (.change l)) : (evolve N P).Rel h h' := by
  obtain ⟨n, _, lis, hlis, -, hn, rfl⟩ := hch
  have his : (h.obj l).l.isSome := by simp [hlis]
  have hli : (evolve N P).Rel h (h.withLi n) := (Event.litem hn).evolve hc
  have hset : Event N (.change l) (h.withLi n) ((h.withLi n).set l ((h.obj l).flushed lis)) :=
    .change lis his
  exact hli.trans (hset.evolve hl)

/-! ### Changing a list -/

theorem listFlush_returns (l : Addr) (h : Heap F) :
    Op.Returns (listFlush l) h fun _ h' => Changed G l h h' := by
  refine Op.returns_bind (items_returns l h) ?_
  rintro lis _ ⟨rfl, -, hl⟩
  refine (returns_update l _ h).mono ?_
  rintro _ _ rfl
  exact ⟨h.nextLi, lis, lis, hl, id, Nat.le_refl _, rfl⟩

theorem listDoAdd_returns (l : Addr) {o : Addr} (ho : G o) (h : Heap F) :
    Op.Returns (listDoAdd l o) h fun _ h' => Relinked G l h h' := by
  refine Op.returns_bind (items_returns l h) ?_
  rintro lis _ ⟨rfl, -, hl⟩
  refine Op.returns_bind (newLitem_returns o h) ?_
  rintro li _ ⟨rfl, rfl⟩
  refine (returns_update l _ _).mono ?_
  rintro _ _ rfl
  refine ⟨h.nextLi + 1, lis, _, hl, fun hG li hli => ?_, Nat.le_succ _, rfl⟩
  rcases List.mem_append.mp hli with hli | hli
  · exact hG li hli
  · rw [List.mem_singleton.mp hli]
    exact ho

theorem listAdd_returns (l : Addr) {o : Addr} (ho : G o) (h : Heap F) :
    Op.Returns (listAdd l o) h fun _ h' => Changed G l h h' := by
  refine Op.returns_bind (listDoAdd_returns l ho h) fun _ h₁ h01 => ?_
  exact (listFlush_returns l h₁).mono fun _ _ => h01.flushed

/-- The items of a list, if `a` is one, are of objects in `G`. -/
def ItemsIn (G : Addr → Prop) (h : Heap F) (a : Addr) : Prop :=
  ∀ lis, (h.obj a).l = some lis → ∀ li ∈ lis, G li.o

/-- Nothing is asked of the items. -/
def Anything (_ : Addr) : Prop := True

theorem anything {h : Heap F} {a : Addr} : ItemsIn Anything h a := fun _ _ _ _ => trivial

theorem Relinked.itemsIn {l a : Addr} {h h' : Heap F} (hre : Relinked G l h h')
    (hl : ItemsIn G h l) (ha : ItemsIn G h a) : ItemsIn G h' a := by
  obtain ⟨n, lis, lis', hlis, hw, -, rfl⟩ := hre
  by_cases hal : a = l
  · subst hal
    intro lis₂ hlis₂
    rw [Heap.set_obj_self] at hlis₂
    obtain rfl : lis' = lis₂ := Option.some.inj hlis₂
    exact hw (hl lis hlis)
  · intro lis₂ hlis₂
    rw [Heap.set_obj_of_ne _ _ hal] at hlis₂
    exact ha lis₂ hlis₂

theorem listExtendFrom_returns (l l2 : Addr) : ∀ (fuel k : ℕ) (h : Heap F),
    ItemsIn G h l → ItemsIn G h l2 →
      Op.Returns (listExtendFrom l l2 fuel k) h fun _ h' => h = h' ∨ Relinked G l h h'
  | 0, _, _, _, _ => Op.ends_crash
  | fuel + 1, k, h, hl, hl2 => by
    refine Op.returns_bind (items_returns l2 h) ?_
    rintro lis _ ⟨rfl, -, hlis⟩
    rcases hk : lis[k]? with _ | li
    · exact Op.ends_pure (.inl rfl)
    · have ho : G li.o := hl2 lis hlis li (List.mem_of_getElem? hk)
      refine Op.returns_bind (listDoAdd_returns l ho h) fun _ h₁ h01 => ?_
      have hrest := listExtendFrom_returns l l2 fuel (k + 1) h₁ (h01.itemsIn hl hl) (h01.itemsIn hl hl2)
      refine hrest.mono fun _ h₂ h12 => ?_
      rcases h12 with rfl | h12
      · exact .inr h01
      · exact .inr (h01.trans h12)

theorem listExtend_returns (l l2 : Addr) (h : Heap F) (hl : ItemsIn G h l) (hl2 : ItemsIn G h l2) :
    Op.Returns (listExtend l l2) h fun _ h' => Changed G l h h' := by
  refine Op.returns_bind (items_returns l2 h) ?_
  rintro lis _ ⟨rfl, -, -⟩
  refine Op.returns_bind (listExtendFrom_returns l l2 _ 0 h hl hl2) fun _ h₁ h01 => ?_
  refine (listFlush_returns (G := G) l h₁).mono fun _ h₂ h12 => ?_
  rcases h01 with rfl | h01
  · exact h12
  · exact h01.flushed h12

theorem listRemove_returns (l : Addr) (li : Litem) (h : Heap F) :
    Op.Returns (listRemove l li) h fun _ h' => Relinked G l h h' := by
  refine Op.returns_bind (items_returns l h) ?_
  rintro lis _ ⟨rfl, -, hl⟩
  refine (returns_update l _ h).mono ?_
  rintro _ _ rfl
  exact ⟨h.nextLi, lis, _, hl, fun hG li' hli' => hG li' (List.mem_of_mem_erase hli'),
    Nat.le_refl _, rfl⟩

/-- A pop fails only for want of an item, and changes nothing then. -/
theorem listPop_ends (l : Addr) (li : Option Litem) (h : Heap F) :
    Op.Ends (listPop l li) h (fun _ h' => Changed G l h h') fun h' => li = none ∧ h = h' := by
  refine Op.returns_bind (items_returns l h) ?_
  rintro lis _ ⟨rfl, -, hl⟩
  rcases hli : li.or lis.getLast? with _ | li'
  · exact Op.ends_fail ⟨(Option.or_eq_none_iff.mp hli).1, rfl⟩
  · refine Op.returns_bind (listRemove_returns (G := G) l li' h) fun _ h₁ h01 => ?_
    refine Op.returns_bind (listFlush_returns (G := G) l h₁) fun _ h₂ h12 => ?_
    exact Op.ends_pure (h01.flushed h12)

theorem listPop_returns (l : Addr) (li : Litem) (h : Heap F) :
    Op.Returns (listPop l (some li)) h fun _ h' => Changed G l h h' :=
  (listPop_ends l (some li) h).mono (fun _ _ => id) fun _ hq => nomatch hq.1

theorem setItem_returns (d : Addr) (vli : Litem) {v : Addr} (hv : G v) (h : Heap F) :
    Op.Returns (setItem d vli v) h fun _ h' => Relinked G d h h' := by
  refine Op.returns_bind (items_returns d h) ?_
  rintro lis _ ⟨rfl, -, hl⟩
  refine (returns_update d _ h).mono ?_
  rintro _ _ rfl
  refine ⟨h.nextLi, lis, _, hl, fun hG li hli => ?_, Nat.le_refl _, rfl⟩
  obtain ⟨li', hli', rfl⟩ := List.mem_map.mp hli
  by_cases he : li' = vli
  · rw [if_pos he]
    exact hv
  · rw [if_neg he]
    exact hG li' hli'

/-! ### The searches of dictionaries -/

section Keeps

variable (hc : P .conv)

theorem items_keeps (l : Addr) : Op.Keeps (evolve N P) (items l) :=
  fun h => (items_returns l h).mono fun _ _ hq => by rw [← hq.1]; exact .refl

include hc

theorem dictSetSeek_keeps (k : Addr) : ∀ lis, Op.Keeps (evolve N P) (dictSetSeek N k lis)
  | [] => Op.keeps_pure _
  | [kli] => Op.keeps_bind (objHash_keeps hc kli.o) fun _ => Op.keeps_fail
  | kli :: vli :: lis => by
    refine Op.keeps_bind (objHash_keeps hc kli.o) fun _ => ?_
    refine Op.keeps_bind (objEq_keeps kli.o k) fun eq => ?_
    cases eq with
    | true => exact Op.keeps_pure _
    | false => exact dictSetSeek_keeps k lis

theorem dictSeek_keeps (k : Addr) : ∀ lis, Op.Keeps (evolve N P) (dictSeek N k lis)
  | [] => Op.keeps_pure _
  | [_] => Op.keeps_fail
  | kli :: vli :: lis => by
    refine Op.keeps_bind (objHash_keeps hc kli.o) fun _ => ?_
    refine Op.keeps_bind (objEq_keeps kli.o k) fun eq => ?_
    cases eq with
    | true => exact Op.keeps_pure _
    | false => exact dictSeek_keeps k lis

/-- A dictionary is changed only behind the search. -/
theorem dictSet_ends (d : Addr) {k v : Addr} (hk : G k) (hv : G v) (h : Heap F) :
    Op.Ends (dictSet N d k v) h (fun _ h' => ∃ h₁, (evolve N P).Rel h h₁ ∧ Changed G d h₁ h')
      ((evolve N P).Rel h) := by
  have hhash := objHash_keeps (N := N) hc k h
  refine Op.ends_bind (Q := fun _ h₁ => (evolve N P).Rel h h₁) hhash fun _ h₁ h01 => ?_
  refine Op.returns_bind (items_returns d h₁) ?_
  rintro lis _ ⟨rfl, -, -⟩
  have hseek := (dictSetSeek_keeps hc k lis h₁).mono (fun _ _ => h01.trans) fun _ => h01.trans
  refine Op.ends_bind hseek fun r h₂ h02 => ?_
  cases r with
  | some vli =>
    refine Op.returns_bind (setItem_returns d vli hv h₂) fun _ h₃ h23 => ?_
    exact (listFlush_returns d h₃).mono fun _ h₄ h34 => ⟨h₂, h02, h23.flushed h34⟩
  | none =>
    refine Op.returns_bind (listAdd_returns d hk h₂) fun _ h₃ h23 => ?_
    exact (listAdd_returns d hv h₃).mono fun _ h₄ h34 => ⟨h₂, h02, h23.trans h34⟩

/-- The same, unless the key is not there. -/
theorem dictUnset_ends (d k : Addr) (h : Heap F) :
    Op.Ends (dictUnset N d k) h
      (fun _ h' => (evolve N P).Rel h h' ∨ ∃ h₁, (evolve N P).Rel h h₁ ∧ Changed G d h₁ h')
      ((evolve N P).Rel h) := by
  have hhash := objHash_keeps (N := N) hc k h
  refine Op.ends_bind (Q := fun _ h₁ => (evolve N P).Rel h h₁) hhash fun _ h₁ h01 => ?_
  refine Op.returns_bind (items_returns d h₁) ?_
  rintro lis _ ⟨rfl, -, -⟩
  have hseek := (dictSeek_keeps hc k lis h₁).mono (fun _ _ => h01.trans) fun _ => h01.trans
  refine Op.ends_bind hseek fun r h₂ h02 => ?_
  cases r with
  | some p =>
    refine Op.returns_bind (listPop_returns (G := G) d p.1 h₂) fun _ h₃ h23 => ?_
    refine Op.returns_bind (listPop_returns (G := G) d p.2 h₃) fun _ h₄ h34 => ?_
    exact Op.ends_pure (.inr ⟨h₂, h02, h23.trans h34⟩)
  | none => exact Op.ends_pure (.inl h02)

theorem dictGetIn_keeps (lis : List Litem) (k : Addr) : Op.Keeps (evolve N P) (dictGetIn N lis k) := by
  refine Op.keeps_bind (objHash_keeps hc k) fun _ => Op.keeps_bind (dictSeek_keeps hc k lis) fun r => ?_
  rcases r with _ | ⟨kli, vli⟩
  · exact Op.keeps_pure _
  · exact Op.keeps_pure _

theorem dictGet_keeps (d k : Addr) : Op.Keeps (evolve N P) (dictGet N d k) :=
  Op.keeps_bind (items_keeps d) fun lis => dictGetIn_keeps hc lis k

end Keeps

/-! ### Arguments -/

/-- The conversions of arguments, one after the other. -/
def convertAll (N : Num F) : List (Char × Addr) → Op (Heap F) Unit
  | [] => pure ()
  | (c, a) :: ps => do
    convert N c a
    convertAll N ps

/-- Arguments that fit a format without optional ones are the items of the list, and each
was converted. -/
theorem vparseFrom_ok : ∀ {cs : List Char} {lis : List Litem} {xs : List Addr} {h h' : Heap F},
    '|' ∉ cs → vparseFrom N cs lis false false h = .ok xs h' →
      xs = lis.map (·.o) ∧ cs.length = lis.length ∧ convertAll N (cs.zip xs) h = .ok () h'
  | [], lis, xs, h, h', _, hv => by
    unfold vparseFrom at hv
    cases lis with
    | nil =>
      obtain ⟨rfl, rfl⟩ := Outcome.ok.inj hv
      exact ⟨rfl, rfl, rfl⟩
    | cons li lis => cases hv
  | c :: cs, lis, xs, h, h', hbar, hv => by
    obtain ⟨hc, hcs⟩ : c ≠ '|' ∧ '|' ∉ cs := by simpa [eq_comm] using hbar
    unfold vparseFrom at hv
    rw [if_neg hc] at hv
    cases lis with
    | nil => cases hv
    | cons li lis =>
      obtain ⟨_, h₁, hconv, hrest⟩ := Op.bind_eq_ok.mp hv
      obtain ⟨xs', h₂, hparse, hxs⟩ := Op.bind_eq_ok.mp hrest
      obtain ⟨rfl, rfl⟩ := Outcome.ok.inj hxs
      obtain ⟨rfl, hlen, hall⟩ := vparseFrom_ok hcs hparse
      refine ⟨rfl, by simp [hlen], ?_⟩
      exact Op.bind_eq_ok.mpr ⟨_, _, hconv, hall⟩

/-- An argument in front of others. -/
theorem vparseFrom_cons {c : Char} {p : List Char} {li : Litem} {lis : List Litem} {opt skip : Bool}
    {xs : List Addr} {h h₁ h₂ : Heap F} (hc : c ≠ '|') (hconv : convertArg N skip c li.o h = .ok () h₁)
    (hrest : vparseFrom N p lis opt false h₁ = .ok xs h₂) :
    vparseFrom N (c :: p) (li :: lis) opt skip h = .ok (li.o :: xs) h₂ := by
  unfold vparseFrom
  rw [if_neg hc]
  dsimp only
  rw [Op.bind_ok hconv, Op.bind_ok hrest]
  rfl

/-- The arguments are the first items of the list. -/
theorem vparseFrom_items : ∀ (cs : List Char) (lis : List Litem) (opt skip : Bool) (h : Heap F),
    Op.Ends (vparseFrom N cs lis opt skip) h (fun xs _ => xs <+: lis.map (·.o)) fun _ => True
  | [], lis, _, _, h => by
    unfold vparseFrom
    cases lis with
    | nil => exact List.prefix_refl _
    | cons li lis => trivial
  | c :: cs, lis, opt, skip, h => by
    unfold vparseFrom
    by_cases hc : c = '|'
    · rw [if_pos hc]
      exact vparseFrom_items cs lis true skip h
    · rw [if_neg hc]
      cases lis with
      | nil =>
        cases opt with
        | true => exact List.nil_prefix
        | false => trivial
      | cons li lis =>
        refine Op.ends_bind (Q := fun _ _ => True) (Op.ends_of (fun _ _ _ => trivial) fun _ _ => trivial) ?_
        intro _ h₁ _
        refine Op.ends_bind (vparseFrom_items cs lis opt false h₁) fun xs h₂ hxs => ?_
        exact Op.ends_pure (List.cons_prefix_cons.mpr ⟨rfl, hxs⟩)

/-- The arguments that a format converts to lists. -/
def listArgs : List Char → List Litem → Bool → List Addr
  | [], _, _ => []
  | c :: p, lis, skip =>
    if c = '|' then listArgs p lis skip
    else
      match lis with
      | [] => []
      | li :: lis => if c = 'l' ∧ !skip then li.o :: listArgs p lis false else listArgs p lis false

theorem orErr_ok {x : Op (Heap F) Reply} {h h' : Heap F} {r : Option Addr}
    (hx : orErr x h = .ok (.ok, r) h') : x h = .ok (.ok, r) h' := by
  unfold orErr at hx
  obtain ⟨o, h₁, ho, hr⟩ := Op.bind_eq_ok.mp hx
  unfold Op.attempt at ho
  cases hxh : x h with
  | ok a s =>
    rw [hxh] at ho
    obtain ⟨rfl, rfl⟩ := Outcome.ok.inj ho
    exact hr
  | fail s =>
    rw [hxh] at ho
    obtain ⟨rfl, rfl⟩ := Outcome.ok.inj ho
    cases hr
  | crash =>
    rw [hxh] at ho
    cases ho

/-- A procedure that succeeds has got its arguments, converted, and its body succeeds on them. -/
theorem getArgs_ok {args : Addr} {fmt : String} {c : Char} {cs : List Char}
    {body : List Addr → Op (Heap F) Reply} {h h' : Heap F} {r : Option Addr}
    (hfmt : fmt.toList = c :: cs) (hbar : '|' ∉ c :: cs)
    (hrun : getArgs N args fmt body h = .ok (.ok, r) h') :
    ∃ li lis h₁, (h.obj args).l = some (li :: lis) ∧ cs.length = lis.length ∧
      convertAll N (cs.zip (lis.map (·.o))) h = .ok () h₁ ∧
      body (li.o :: lis.map (·.o)) h₁ = .ok (.ok, r) h' := by
  unfold getArgs getArgsThen at hrun
  obtain ⟨o, h₁, ho, hr⟩ := Op.bind_eq_ok.mp hrun
  unfold Op.attempt at ho
  cases hx : listVparse N args fmt true h with
  | ok xs s =>
    rw [hx] at ho
    obtain ⟨rfl, rfl⟩ := Outcome.ok.inj ho
    obtain ⟨lis, _, hitems, hparse⟩ := Op.bind_eq_ok.mp hx
    obtain ⟨rfl, -, hlis⟩ := (items_returns args h).ok hitems
    obtain ⟨hc, hcs⟩ : c ≠ '|' ∧ '|' ∉ cs := by simpa [eq_comm] using hbar
    rw [hfmt] at hparse
    unfold vparseFrom at hparse
    rw [if_neg hc] at hparse
    cases lis with
    | nil => cases hparse
    | cons li lis =>
      obtain ⟨_, _, hskip, hrest⟩ := Op.bind_eq_ok.mp hparse
      obtain ⟨-, rfl⟩ := Outcome.ok.inj hskip
      obtain ⟨xs', h₂, hparse', hxs⟩ := Op.bind_eq_ok.mp hrest
      obtain ⟨rfl, rfl⟩ := Outcome.ok.inj hxs
      obtain ⟨rfl, hlen, hall⟩ := vparseFrom_ok hcs hparse'
      exact ⟨li, lis, _, hlis, hlen, hall, hr⟩
  | fail s =>
    rw [hx] at ho
    obtain ⟨rfl, rfl⟩ := Outcome.ok.inj ho
    obtain ⟨m, h₂, -, hm⟩ := Op.bind_eq_ok.mp hr
    cases hm
  | crash =>
    rw [hx] at ho
    cases ho

section Args

variable (hc : P .conv)
include hc

theorem convertAll_keeps : ∀ ps : List (Char × Addr), (∀ p ∈ ps, p.1 = 'l' → P (.list p.2)) →
    Op.Keeps (evolve N P) (convertAll N ps)
  | [], _ => Op.keeps_pure _
  | (c, a) :: ps, hl => by
    refine Op.keeps_bind (convert_keeps hc (hl _ List.mem_cons_self)) fun _ => ?_
    exact convertAll_keeps ps fun p hp => hl p (List.mem_cons_of_mem _ hp)

theorem vparseFrom_keeps : ∀ (cs : List Char) (lis : List Litem) (opt skip : Bool),
    (∀ a ∈ listArgs cs lis skip, P (.list a)) → Op.Keeps (evolve N P) (vparseFrom N cs lis opt skip)
  | [], lis, _, _, _ => by
    unfold vparseFrom
    cases lis with
    | nil => exact Op.keeps_pure _
    | cons li lis => exact Op.keeps_fail
  | c :: cs, lis, opt, skip, hl => by
    unfold vparseFrom
    unfold listArgs at hl
    by_cases hbar : c = '|'
    · rw [if_pos hbar] at hl ⊢
      exact vparseFrom_keeps cs lis true skip hl
    · rw [if_neg hbar] at hl ⊢
      cases lis with
      | nil =>
        cases opt with
        | true => exact Op.keeps_pure _
        | false => exact Op.keeps_fail
      | cons li lis =>
        have hrest : ∀ a ∈ listArgs cs lis false, P (.list a) := by
          intro a ha
          refine hl a ?_
          dsimp only
          split
          · exact List.mem_cons_of_mem _ ha
          · exact ha
        refine Op.keeps_bind ?_ fun _ => ?_
        · cases skip with
          | true => exact Op.keeps_pure _
          | false =>
            refine convert_keeps hc (c := c) fun hcl => hl li.o ?_
            simp [hcl]
        · exact Op.keeps_bind (vparseFrom_keeps cs lis opt false hrest) fun _ => Op.keeps_pure _

theorem returnStr_keeps (s : Bytes) : Op.Keeps (evolve N P) (returnStr s) :=
  Op.keeps_bind (allocStr_keeps hc s) fun _ => Op.keeps_pure _

theorem badCall_keeps (l : Addr) (fmt : String) : Op.Keeps (evolve N P) (badCall N l fmt) := by
  refine Op.keeps_bind (items_keeps l) fun lis => ?_
  cases lis with
  | nil => exact Op.keeps_crash
  | cons li lis =>
    refine Op.keeps_bind (asStr_keeps hc li.o) fun _ => Op.keeps_bind (asStr_keeps hc l) fun _ => ?_
    exact returnStr_keeps hc _

/-- A procedure keeps what its conversions and its body keep. The body gets the first items
of the list of arguments. -/
theorem getArgs_keepsAt {α : Type} {l : Addr} {fmt : String} {skip : Bool} {bad : Reply → α}
    {body : List Addr → Op (Heap F) α} {h : Heap F}
    (hl : ∀ lis, (h.obj l).l = some lis → ∀ a ∈ listArgs fmt.toList lis skip, P (.list a))
    (hbody : ∀ lis xs, (h.obj l).l = some lis → xs <+: lis.map (·.o) →
      Op.Keeps (evolve N P) (body xs)) :
    Op.KeepsAt (evolve N P) (getArgsThen N l fmt skip bad body) h := by
  have hparse : Op.Ends (listVparse N l fmt skip) h
      (fun xs h' => (evolve N P).Rel h h' ∧ ∃ lis, (h.obj l).l = some lis ∧ xs <+: lis.map (·.o))
      ((evolve N P).Rel h) := by
    refine Op.returns_bind (items_returns l h) ?_
    rintro lis _ ⟨rfl, -, hlis⟩
    have hkeep := vparseFrom_keeps (N := N) hc fmt.toList lis false skip (hl lis hlis) h
    refine Op.ends_of (fun xs h' hok => ⟨hkeep.ok hok, lis, hlis, ?_⟩) fun _ => hkeep.fail
    exact (vparseFrom_items fmt.toList lis false skip _).ok hok
  have hattempt : Op.Returns (Op.attempt (listVparse N l fmt skip)) h fun r h' =>
      (evolve N P).Rel h h' ∧
        ∀ xs, r = some xs → ∃ lis, (h.obj l).l = some lis ∧ xs <+: lis.map (·.o) := by
    refine Op.returns_attempt (hparse.mono (fun xs h' hq => ⟨hq.1, ?_⟩) fun h' hrel => ⟨hrel, nofun⟩)
    rintro _ ⟨⟩
    exact hq.2
  refine Op.returns_bind hattempt fun r h₁ ⟨hrel, hr⟩ => ?_
  have habove : ∀ {x : Op (Heap F) α}, Op.Keeps (evolve N P) x →
      Op.Ends x h₁ (fun _ => (evolve N P).Rel h) ((evolve N P).Rel h) := fun hx =>
    (hx h₁).mono (fun _ _ => hrel.trans) fun _ => hrel.trans
  cases r with
  | none => exact habove (Op.keeps_bind (badCall_keeps hc l fmt) fun _ => Op.keeps_pure _)
  | some xs =>
    obtain ⟨lis, hlis, hpre⟩ := hr xs rfl
    exact habove (hbody lis xs hlis hpre)

end Args

end B6b
