/-
# The graph of lists and items

The string of a list is made of the strings of its items, so the conversion of an object
that is in itself does not end. `Holds` is the graph of lists and items. Conversions
put no old object into a list and leave the graph without a cycle (`Grows`); where there
is none, every conversion ends (`asStr_ok`).

Key definitions: `Holds`, `Closed`, `Tidy`, `Grows`.
-/
import Mathlib.Data.Finset.Range
import B6b.Lib.Reach
import B6b.Coherent

namespace B6b

open Relation Reach

variable {F : Type} {N : Num F}

/-! ### The graph of lists and items -/

/-- `c` is an item of `a`. -/
def Holds (h : Heap F) (a c : Addr) : Prop := ∃ lis, (h.obj a).l = some lis ∧ ∃ li ∈ lis, li.o = c

/-- Only objects have items, and only objects are items. -/
def Closed (h : Heap F) : Prop := ∀ a c, Holds h a c → a < h.next ∧ c < h.next

/-- A heap in which nothing is in itself. -/
structure Tidy (h : Heap F) : Prop where
  closed : Closed h
  acyclic : Acyclic (Holds h)

theorem Holds.of_l {h h' : Heap F} {a c : Addr} (hl : (h'.obj a).l = (h.obj a).l ∨ (h'.obj a).l = none)
    (hh : Holds h' a c) : Holds h a c := by
  obtain ⟨lis, hlis, hli⟩ := hh
  rcases hl with hl | hl
  · exact ⟨lis, hl ▸ hlis, hli⟩
  · rw [hl] at hlis
    cases hlis

/-- Objects are new, and no old one has become an item. -/
structure Grows (h h' : Heap F) : Prop where
  next : h.next ≤ h'.next
  old : ∀ a c, c < h.next → Holds h' a c → Holds h a c
  tidy : Tidy h → Tidy h'

/-- The frame of operations that put no old object into a list. -/
def grows : Op.Frame (Heap F) where
  Rel := Grows
  refl _ := ⟨Nat.le_refl _, fun _ _ _ => id, id⟩
  trans h12 h23 :=
    { next := Nat.le_trans h12.next h23.next
      old := fun a c hc hh => h12.old a c hc (h23.old a c (Nat.lt_of_lt_of_le hc h12.next) hh)
      tidy := h23.tidy ∘ h12.tidy }

/-- What reaches an old object has reached it before. -/
theorem Grows.reach {h h' : Heap F} (hg : Grows h h') (hc : Closed h) {a c : Addr} (hlt : c < h.next)
    (hr : ReflTransGen (Holds h') a c) : a < h.next ∧ ReflTransGen (Holds h) a c := by
  induction hr using ReflTransGen.head_induction_on with
  | refl => exact ⟨hlt, .refl⟩
  | head hab _ ih =>
    have hold : Holds h _ _ := hg.old _ _ ih.1 hab
    exact ⟨(hc _ _ hold).1, .head hold ih.2⟩

/-- No object has got an item. -/
theorem grows_of_le {h h' : Heap F} (hnext : h.next ≤ h'.next)
    (hh : ∀ a c, Holds h' a c → Holds h a c) : Grows h h' where
  next := hnext
  old a c _ := hh a c
  tidy ht :=
    { closed := fun a c hac =>
        have hold := ht.closed a c (hh a c hac)
        ⟨Nat.lt_of_lt_of_le hold.1 hnext, Nat.lt_of_lt_of_le hold.2 hnext⟩
      acyclic := ht.acyclic.mono hh }

theorem holds_set {h : Heap F} {a : Addr} {o : Obj F} (ho : o.l = (h.obj a).l ∨ o.l = none) (b c : Addr)
    (hh : Holds (h.set a o) b c) : Holds h b c := by
  by_cases hb : b = a
  · subst hb
    refine hh.of_l ?_
    rwa [Heap.set_obj_self]
  · refine hh.of_l (.inl ?_)
    rw [Heap.set_obj_of_ne _ _ hb]

theorem holds_push {h : Heap F} {o : Obj F} (ho : o.l = none) (b c : Addr)
    (hh : Holds (h.push o) b c) : Holds h b c :=
  holds_set (.inr ho) b c hh

theorem closed_empty : Closed (Heap.empty : Heap F) := by
  rintro a c ⟨lis, hl, -⟩
  cases hl

/-- What is new holds old objects. -/
theorem holds_push_iff {h : Heap F} (o : Obj F) (b c : Addr) : Holds (h.push o) b c ↔
    (b = h.next ∧ ∃ lis, o.l = some lis ∧ ∃ li ∈ lis, li.o = c) ∨ (b ≠ h.next ∧ Holds h b c) := by
  unfold Holds
  by_cases hb : b = h.next
  · subst hb
    rw [Heap.push_obj_self]
    simp
  · rw [Heap.push_obj_of_ne _ _ hb]
    simp [hb]

theorem Closed.push {h : Heap F} (hc : Closed h) {o : Obj F}
    (ho : ∀ lis, o.l = some lis → ∀ li ∈ lis, li.o < h.next) : Closed (h.push o) := by
  intro b c hh
  rcases (holds_push_iff o b c).mp hh with ⟨rfl, lis, hl, li, hli, rfl⟩ | ⟨-, hold⟩
  · exact ⟨Nat.lt_succ_self _, Nat.lt_succ_of_lt (ho lis hl li hli)⟩
  · exact ⟨Nat.lt_succ_of_lt (hc b c hold).1, Nat.lt_succ_of_lt (hc b c hold).2⟩

/-- A new object is in nothing, so not in itself. -/
theorem Tidy.push {h : Heap F} (ht : Tidy h) {o : Obj F}
    (ho : ∀ lis, o.l = some lis → ∀ li ∈ lis, li.o < h.next) : Tidy (h.push o) where
  closed := ht.closed.push ho
  acyclic := by
    refine ht.acyclic.insert (l := h.next) fun b c hh => ?_
    rcases (holds_push_iff o b c).mp hh with ⟨rfl, lis, hl, li, hli, rfl⟩ | ⟨-, hold⟩
    · refine .inr ⟨rfl, fun hr => ?_⟩
      rcases hr.cases_tail with he | ⟨d, -, hd⟩
      · exact absurd (he ▸ ho lis hl li hli) (Nat.lt_irrefl _)
      · exact absurd (ht.closed d _ hd).2 (Nat.lt_irrefl _)
    · exact .inl hold

/-! ### Conversions -/

/-- The steps of conversions that read no list. -/
def Reading (t : Touch) : Prop := t = .conv

theorem Event.grows {t : Touch} {h h' : Heap F} (he : Event N t h h') (ht : Reading t) : Grows h h' := by
  refine grows_of_le he.next_le ?_
  cases he with
  | str b => exact holds_push rfl
  | litem => exact fun _ _ => id
  | strs hs => exact fun a c hh => hh.of_l (.inl (hs.l a))
  | float => exact holds_set (.inl rfl)
  | int => exact holds_set (.inl rfl)
  | hash =>
    refine holds_set (.inl ?_)
    unfold Obj.withHash
    split <;> rfl
  | list | build | change | pop => cases ht

theorem grows_of_evolve {h h' : Heap F} (hr : (evolve N Reading).Rel h h') : Grows h h' :=
  evolve_invariant (I := Grows h) (fun _ _ _ ht he hg => grows.trans hg (he.grows ht)) hr (grows.refl h)

theorem keeps_grows {α : Type} {x : Op (Heap F) α} (hx : Op.Keeps (evolve N Reading) x) :
    Op.Keeps grows x :=
  fun h => (hx h).mono (fun _ _ => grows_of_evolve) fun _ => grows_of_evolve

/-- The objects of the tokens of a string are new, and hold nothing. -/
theorem tokenItems_fresh : ∀ (xs : List Bytes) (h : Heap F),
    Op.Returns (tokenItems xs) h fun lis h' => h.next ≤ h'.next ∧
      (∀ a, h'.obj a = h.obj a ∨ (h'.obj a).l = none) ∧ (∀ a < h.next, h'.obj a = h.obj a) ∧
      ∀ li ∈ lis, h.next ≤ li.o ∧ li.o < h'.next ∧ (h'.obj li.o).l = none
  | [], h => Op.ends_pure ⟨Nat.le_refl _, fun _ => .inl rfl, fun _ _ => rfl, nofun⟩
  | x :: xs, h => by
    refine Op.returns_bind (alloc_returns (.ofStr x) h) ?_
    rintro _ _ ⟨rfl, rfl⟩
    refine Op.returns_bind (newLitem_returns h.next _) ?_
    rintro _ _ ⟨rfl, rfl⟩
    refine Op.returns_bind (tokenItems_fresh xs _) fun lis h₂ ⟨hnext, hobj, hold, hlis⟩ => ?_
    have hle : h.next + 1 ≤ h₂.next := hnext
    have hself : h₂.obj h.next = .ofStr x := by
      rw [hold h.next (Nat.lt_succ_self _)]
      exact h.push_obj_self _
    refine Op.ends_pure ⟨Nat.le_of_succ_le hle, fun a => ?_, fun a ha => ?_, fun li hli => ?_⟩
    · by_cases ha : a = h.next
      · subst ha
        exact .inr (by rw [hself]; rfl)
      · rw [← h.push_obj_of_ne (.ofStr x) ha]
        exact hobj a
    · rw [hold a (Nat.lt_succ_of_lt ha)]
      exact h.push_obj_of_ne _ (Nat.ne_of_lt ha)
    · rcases List.mem_cons.mp hli with rfl | hli
      · exact ⟨Nat.le_refl _, hle, by rw [hself]; rfl⟩
      · obtain ⟨hfresh, hlt, hleaf⟩ := hlis li hli
        exact ⟨Nat.le_of_succ_le hfresh, hlt, hleaf⟩

/-- An object that had no items gets new ones. -/
theorem grows_withItems {h h₂ : Heap F} {a : Addr} {lis : List Litem} (hg : Grows h h₂)
    (ha : a < h.next) (hl : (h₂.obj a).l = none)
    (hlis : ∀ li ∈ lis, h.next ≤ li.o ∧ li.o < h₂.next ∧ (h₂.obj li.o).l = none) :
    Grows h (h₂.set a ((h₂.obj a).withItems lis)) := by
  have hedge : ∀ b c, Holds (h₂.set a ((h₂.obj a).withItems lis)) b c →
      Holds h₂ b c ∨ (b = a ∧ ∃ li ∈ lis, li.o = c) := by
    intro b c hh
    by_cases hb : b = a
    · subst hb
      obtain ⟨lis', hlis', hli⟩ := hh
      rw [Heap.set_obj_self] at hlis'
      obtain rfl : lis = lis' := Option.some.inj hlis'
      exact .inr ⟨rfl, hli⟩
    · refine .inl (hh.of_l (.inl ?_))
      rw [Heap.set_obj_of_ne _ _ hb]
  refine ⟨hg.next, fun b c hc hh => ?_, fun ht => ⟨fun b c hh => ?_, ?_⟩⟩
  · rcases hedge b c hh with hold | ⟨-, li, hli, rfl⟩
    · exact hg.old b c hc hold
    · exact absurd hc (Nat.not_lt_of_le (hlis li hli).1)
  · rcases hedge b c hh with hold | ⟨rfl, li, hli, rfl⟩
    · exact (hg.tidy ht).closed b c hold
    · exact ⟨Nat.lt_of_lt_of_le ha hg.next, (hlis li hli).2.1⟩
  · refine (hg.tidy ht).acyclic.insert (l := a) fun b c hh => ?_
    rcases hedge b c hh with hold | ⟨rfl, li, hli, rfl⟩
    · exact .inl hold
    · refine .inr ⟨rfl, fun hr => ?_⟩
      -- the new item holds nothing, and it is not `a`
      obtain ⟨hfresh, -, hleaf⟩ := hlis li hli
      rcases hr.cases_head with heq | ⟨c, ⟨lis', hlis', -⟩, -⟩
      · rw [heq] at hfresh
        exact absurd ha (Nat.not_lt_of_le hfresh)
      · rw [hleaf] at hlis'
        cases hlis'

theorem reading_conv : Reading .conv := rfl

/-- `b6b_as_list` -/
theorem asList_grows (a : Addr) : Op.Keeps grows (asList N a) := by
  intro h
  refine ends_load_bind fun hlt => ?_
  rcases hl : (h.obj a).l with _ | lis
  · refine Op.returns_bind (asStr_returns N a h) fun b h₁ ⟨hs, _, _⟩ => ?_
    have hg₁ : Grows h h₁ := grows_of_evolve ((Event.strs hs).evolve reading_conv)
    rcases doAsList b with e | xs
    · exact hg₁
    · refine Op.returns_bind (tokenItems_fresh xs h₁) fun lis h₂ ⟨hnext, hobj, hold, hlis⟩ => ?_
      have hg₂ : Grows h₁ h₂ := grows_of_le hnext fun c d hh => hh.of_l ((hobj c).imp (congrArg _) id)
      refine Op.returns_bind (returns_update a _ h₂) ?_
      rintro _ _ rfl
      have hlt₁ : a < h₁.next := hs.next ▸ hlt
      refine Op.ends_pure (grows_withItems (grows.trans hg₁ hg₂) hlt ?_ fun li hli => ?_)
      · rw [hold a hlt₁, hs.l, hl]
      · obtain ⟨hfresh, hrest⟩ := hlis li hli
        exact ⟨Nat.le_trans hg₁.next hfresh, hrest⟩
  · exact Op.keeps_pure _ h

/-! ### Conversions end -/

/-- The string of `c` is needed for the string of `a`. -/
def Below (h : Heap F) (a c : Addr) : Prop := (h.obj a).s = none ∧ Holds h a c

/-- More strings are known. -/
theorem Below.strs {h h' : Heap F} (hs : Strs N h h') {a c : Addr} (hb : Below h' a c) : Below h a c := by
  have he := hs.s_of_none hb.1
  refine ⟨he ▸ hb.1, hb.2.of_l (.inl (by rw [he]))⟩

theorem load_ok {a : Addr} {h : Heap F} (ha : a < h.next) : load a h = .ok (h.obj a) h := by
  rw [load_apply, if_pos ha]

/-- The text of an object that has one. -/
theorem asStr_of_text {h : Heap F} {a : Addr} {s : Bytes} (hlt : a < h.next)
    (hs : (h.obj a).s = some s) : asStr N a h = .ok s h := by
  unfold asStr asStrAux
  simp only [Op.bind_ok (load_ok hlt), hs]
  rfl

/-- The strings of the items are joined if the conversion of each ends. -/
theorem joinLoop_ok {f : Addr → Op (Heap F) Bytes} {h : Heap F} :
    ∀ (lis : List Litem) (s : Option Bytes) (h₁ : Heap F),
      (∀ li ∈ lis, ∀ h₁, Strs N h h₁ → ∃ b h₂, f li.o h₁ = .ok b h₂ ∧ Strs N h₁ h₂) → Strs N h h₁ →
        ∃ s' h₂, joinLoop f lis s h₁ = .ok s' h₂
  | [], s, h₁, _, _ => ⟨s, h₁, rfl⟩
  | li :: lis, s, h₁, hf, hs => by
    obtain ⟨b, h₂, hb, hs₂⟩ := hf li List.mem_cons_self h₁ hs
    obtain ⟨s', h₃, hrest⟩ := joinLoop_ok lis (some (joinItem s b)) h₂
      (fun li' hli' => hf li' (List.mem_cons_of_mem _ hli')) (hs.trans hs₂)
    exact ⟨s', h₃, (Op.bind_ok hb _).trans hrest⟩

/-- **The conversion to a string ends** if no object it has to read is in itself. -/
theorem asStr_ok {h : Heap F} (hc : Closed h) {a : Addr} (ha : a < h.next)
    (hloop : ∀ c, TransGen (Below h) a c → ¬ TransGen (Below h) c c) : ∃ b h', asStr N a h = .ok b h' := by
  let P : ℕ → Addr → Prop := fun n a =>
    a < h.next → ∀ h₁, Strs N h h₁ → ∃ b h₂, asStrAux N n a h₁ = .ok b h₂
  have hstep : ∀ n a, (∀ c, Below h a c → P n c) → P (n + 1) a := by
    intro n a hbelow ha h₁ hs
    have hload : load a h₁ = .ok (h₁.obj a) h₁ := load_ok (hs.next ▸ ha)
    unfold asStrAux
    rw [Op.bind_ok hload]
    rcases hstr : (h₁.obj a).s with _ | b
    · rcases hl : (h₁.obj a).l with _ | lis
      · exact ⟨_, _, rfl⟩
      · have hitem : ∀ li ∈ lis, ∀ h₂, Strs N h₁ h₂ →
            ∃ b h₃, asStrAux N n li.o h₂ = .ok b h₃ ∧ Strs N h₂ h₃ := by
          intro li hli h₂ hs₂
          have hb : Below h a li.o := Below.strs hs ⟨hstr, lis, hl, li, hli, rfl⟩
          obtain ⟨b, h₃, hok⟩ := hbelow li.o hb (hc _ _ hb.2).2 h₂ (hs.trans hs₂)
          exact ⟨b, h₃, hok, ((asStrAux_returns N n li.o h₂).ok hok).1⟩
        obtain ⟨s, h₂, hjoin⟩ := joinLoop_ok lis none h₁ hitem (Strs.refl N h₁)
        exact ⟨_, _, Op.bind_ok hjoin _⟩
    · exact ⟨b, h₁, rfl⟩
  have hcard : (Finset.range h.next).card < h.next + 1 := by
    rw [Finset.card_range]
    exact Nat.lt_succ_self _
  refine fuel hstep (h.next + 1) (Finset.range h.next) a (fun c hac => ⟨?_, hloop c hac⟩) hcard ha h
    (Strs.refl N h)
  obtain ⟨b, -, hbc⟩ := TransGen.tail'_iff.mp hac
  exact Finset.mem_range.mpr (hc _ _ hbc.2).2

theorem Tidy.asStr_ok {h : Heap F} (ht : Tidy h) {a : Addr} (ha : a < h.next) :
    ∃ b h', asStr N a h = .ok b h' :=
  B6b.asStr_ok ht.closed ha fun c _ => ht.acyclic.mono (fun _ _ hb => hb.2) c

/-- `b6b_obj_hash` ends when the conversion does. -/
theorem objHash_ok {h : Heap F} {a : Addr} (hstr : ∃ b h', asStr N a h = .ok b h') :
    ∃ h', objHash N a h = .ok () h' := by
  obtain ⟨b, h', hb⟩ := hstr
  by_cases ha : a < h.next
  · unfold objHash
    rw [Op.bind_ok (load_ok ha)]
    rcases (h.obj a).hash with _ | x
    · exact ⟨_, Op.bind_ok hb _⟩
    · exact ⟨h, rfl⟩
  · unfold asStr asStrAux at hb
    rw [Op.bind_apply, load_apply, if_neg ha] at hb
    cases hb

end B6b
