/-
# Operations do not look at objects they cannot reach

Two heaps are `Alike` but for the objects in `D` if they agree on all others, and no other object
holds one in `D`. An operation that is given no object in `D` ends alike on both, with the same
result, and leaves them alike (`Blind`): it looks at nothing in `D`, and changes nothing there that
it would see.

Key definitions: `Alike`, `Blind`.
-/
import B6b.Lib.Twin
import B6b.Refs

namespace B6b

namespace Refs

variable {F α β : Type} {N : Num F} {D : Addr → Prop} {Q : α → Prop} {R : β → Prop}

/-- The objects that are not in `D` are the same, and hold none that is. -/
structure Alike (D : Addr → Prop) (h h' : Heap F) : Prop where
  next : h'.next = h.next
  nextLi : h'.nextLi = h.nextLi
  obj : ∀ a < h.next, ¬ D a → h'.obj a = h.obj a
  apart : ∀ a < h.next, ¬ D a → ∀ c ∈ (h.obj a).held, ¬ D c
  dead : ∀ a, D a → a < h.next

/-- On heaps that are alike but for `D`, `x` ends alike, with a result as in `Q`. -/
def Blind (D : Addr → Prop) (x : Op (Heap F) α) (Q : α → Prop) : Prop := ∀ h h', Alike D h h' →
  Op.Twin x x h h' (fun a k b k' => a = b ∧ Q a ∧ Alike D k k') (Alike D)

theorem blind_pure {a : α} (ha : Q a) : Blind D (pure a : Op (Heap F) α) Q :=
  fun _ _ hl => Op.twin_pure ⟨rfl, ha, hl⟩

theorem blind_fail : Blind D (Op.fail : Op (Heap F) α) Q := fun _ _ hl => Op.twin_fail hl

theorem blind_crash : Blind D (Op.crash : Op (Heap F) α) Q := fun _ _ _ => Op.twin_crash

theorem blind_bind {x : Op (Heap F) α} {f : α → Op (Heap F) β} (hx : Blind D x Q)
    (hf : ∀ a, Q a → Blind D (f a) R) : Blind D (x >>= f) R := by
  intro h h' hl
  refine Op.twin_bind (hx h h' hl) ?_
  rintro a k _ k' ⟨rfl, ha, hk⟩
  exact hf a ha k k' hk

theorem Blind.mono {Q' : α → Prop} {x : Op (Heap F) α} (hx : Blind D x Q) (hQ : ∀ a, Q a → Q' a) :
    Blind D x Q' :=
  fun h h' hl => (hx h h' hl).mono (fun a _ _ _ hq => ⟨hq.1, hQ a hq.2.1, hq.2.2⟩) fun _ _ => id

/-! ### Objects -/

/-- The object holds none in `D`. -/
def Apart (D : Addr → Prop) (o : Obj F) : Prop := ∀ c ∈ o.held, ¬ D c

theorem apart_of_same {o o' : Obj F} (ho : Apart D o) (hl : o'.l = o.l) (hp : o'.proc = o.proc) :
    Apart D o' := by
  intro c hc
  unfold Obj.held at hc
  rw [hl, hp] at hc
  exact ho c hc

theorem Apart.items {o : Obj F} (ho : Apart D o) {lis : List Litem} (hl : o.l = some lis) :
    ∀ li ∈ lis, ¬ D li.o := by
  intro li hli
  refine ho li.o (List.mem_append_left _ ?_)
  rw [hl]
  exact List.mem_map_of_mem hli

/-- Other items, none of them in `D`. -/
theorem apart_of_items {o o' : Obj F} (ho : Apart D o) {lis : List Litem} (hl : o'.l = some lis)
    (hp : o'.proc = o.proc) (hlis : ∀ li ∈ lis, ¬ D li.o) : Apart D o' := by
  intro c hc
  unfold Obj.held at hc
  rw [hl, hp] at hc
  rcases List.mem_append.mp hc with hc | hc
  · obtain ⟨li, hli, rfl⟩ := List.mem_map.mp hc
    exact hlis li hli
  · exact ho c (List.mem_append_right _ hc)

theorem withHash_proc (o : Obj F) : o.withHash.proc = o.proc := by
  unfold Obj.withHash
  split <;> rfl

theorem withHash_l (o : Obj F) : o.withHash.l = o.l := by
  unfold Obj.withHash
  split <;> rfl

theorem blind_load {a : Addr} (ha : ¬ D a) : Blind D (load a : Op (Heap F) (Obj F)) (Apart D) := by
  intro h h' hl
  unfold Op.Twin load
  rw [hl.next]
  by_cases hlt : a < h.next
  · rw [if_pos hlt, if_pos hlt]
    exact ⟨(hl.obj a hlt ha).symm, hl.apart a hlt ha, hl⟩
  · rw [if_neg hlt, if_neg hlt]
    trivial

/-- An object is changed, and still holds none in `D`. -/
theorem blind_update {a : Addr} {g : Obj F → Obj F} (ha : ¬ D a)
    (hg : ∀ o, Apart D o → Apart D (g o)) : Blind D (update a g) fun _ => True := by
  intro h h' hl
  refine Op.twin_ok rfl rfl ⟨rfl, trivial, hl.next, hl.nextLi, fun b hb hD => ?_, fun b hb hD => ?_,
    hl.dead⟩
  · by_cases hba : b = a
    · subst hba
      rw [Heap.set_obj_self, Heap.set_obj_self, hl.obj b hb hD]
    · rw [Heap.set_obj_of_ne _ _ hba, Heap.set_obj_of_ne _ _ hba, hl.obj b hb hD]
  · by_cases hba : b = a
    · subst hba
      rw [Heap.set_obj_self]
      exact hg _ (hl.apart b hb hD)
    · rw [Heap.set_obj_of_ne _ _ hba]
      exact hl.apart b hb hD

theorem blind_alloc {o : Obj F} (ho : Apart D o) :
    Blind D (alloc o : Op (Heap F) Addr) fun a => ¬ D a := by
  intro h h' hl
  have hpush : ∀ b < h.next + 1, ¬ D b → b ≠ h.next → b < h.next := by
    intro b hb _ hne
    exact Nat.lt_of_le_of_ne (Nat.le_of_lt_succ hb) hne
  refine Op.twin_ok rfl rfl ⟨hl.next.symm, fun hD => Nat.lt_irrefl _ (hl.dead _ hD), ?_, hl.nextLi,
    fun b hb hD => ?_, fun b hb hD => ?_, fun b hb => Nat.lt_succ_of_lt (hl.dead b hb)⟩
  · rw [Heap.push_next, Heap.push_next, hl.next]
  · by_cases hbn : b = h.next
    · have hself : (h'.push o).obj b = o := by
        rw [hbn, ← hl.next]
        exact h'.push_obj_self o
      rw [hself, hbn, Heap.push_obj_self]
    · have hbn' : b ≠ h'.next := hl.next ▸ hbn
      rw [Heap.push_obj_of_ne _ _ hbn, Heap.push_obj_of_ne _ _ hbn', hl.obj b (hpush b hb hD hbn) hD]
  · by_cases hbn : b = h.next
    · rw [hbn, Heap.push_obj_self]
      exact ho
    · rw [Heap.push_obj_of_ne _ _ hbn]
      exact hl.apart b (hpush b hb hD hbn) hD

theorem blind_newLitem (o : Addr) : Blind D (newLitem o : Op (Heap F) Litem) fun li => li.o = o := by
  intro h h' hl
  refine Op.twin_ok rfl rfl ⟨?_, rfl, hl.next, ?_, hl.obj, hl.apart, hl.dead⟩
  · rw [hl.nextLi]
  · exact congrArg (· + 1) hl.nextLi

/-! ### Conversions -/

theorem blind_joinLoop {f : Addr → Op (Heap F) Bytes} (hf : ∀ a, ¬ D a → Blind D (f a) fun _ => True) :
    ∀ (lis : List Litem) (s : Option Bytes), (∀ li ∈ lis, ¬ D li.o) →
      Blind D (joinLoop f lis s) fun _ => True
  | [], _, _ => blind_pure trivial
  | li :: lis, _, hlis => by
    refine blind_bind (hf li.o (hlis li List.mem_cons_self)) fun x _ => ?_
    exact blind_joinLoop hf lis _ fun li' hli' => hlis li' (List.mem_cons_of_mem _ hli')

theorem blind_withStr {a : Addr} (ha : ¬ D a) (b : Bytes) :
    Blind D (update a (·.withStr b) : Op (Heap F) Unit) fun _ => True :=
  blind_update ha fun _ ho => apart_of_same ho rfl rfl

theorem blind_asStrAux : ∀ (n : ℕ) {a : Addr}, ¬ D a → Blind D (asStrAux N n a) fun _ => True
  | 0, _, _ => blind_crash
  | n + 1, a, ha => by
    refine blind_bind (blind_load ha) fun o ho => ?_
    rcases hs : o.s with _ | b
    · rcases hl : o.l with _ | lis
      · exact blind_bind (blind_withStr ha _) fun _ _ => blind_pure trivial
      · refine blind_bind (blind_joinLoop (fun _ => blind_asStrAux n) lis none (ho.items hl)) fun s _ => ?_
        exact blind_bind (blind_withStr ha _) fun _ _ => blind_pure trivial
    · exact blind_pure trivial

theorem blind_asStr {a : Addr} (ha : ¬ D a) : Blind D (asStr N a) fun _ => True := by
  intro h h' hl
  have hrun := blind_asStrAux (N := N) (h.next + 1) ha h h' hl
  unfold Op.Twin asStr
  rw [hl.next]
  exact hrun

theorem blind_tokenItems : ∀ xs : List Bytes,
    Blind D (tokenItems xs : Op (Heap F) (List Litem)) fun lis => ∀ li ∈ lis, ¬ D li.o
  | [] => blind_pure nofun
  | x :: xs => by
    have hleaf : Apart D (Obj.ofStr x : Obj F) := nofun
    refine blind_bind (blind_alloc hleaf) fun a ha => ?_
    refine blind_bind (blind_newLitem a) fun li hli => ?_
    refine blind_bind (blind_tokenItems xs) fun lis hlis => ?_
    exact blind_pure (List.forall_mem_cons.mpr ⟨hli ▸ ha, hlis⟩)

theorem blind_asList {a : Addr} (ha : ¬ D a) :
    Blind D (asList N a) fun lis => ∀ li ∈ lis, ¬ D li.o := by
  refine blind_bind (blind_load ha) fun o ho => ?_
  rcases hl : o.l with _ | lis
  · refine blind_bind (blind_asStr ha) fun b _ => ?_
    rcases doAsList b with e | xs
    · exact blind_fail
    · refine blind_bind (blind_tokenItems xs) fun lis hlis => ?_
      refine blind_bind (blind_update ha fun o ho => ?_) fun _ _ => blind_pure hlis
      exact apart_of_items ho rfl rfl hlis
  · exact blind_pure (ho.items hl)

theorem blind_asFloat {a : Addr} (ha : ¬ D a) : Blind D (asFloat N a) fun _ => True := by
  have hupdate : ∀ f, Blind D (update a (·.withFloat f) : Op (Heap F) Unit) fun _ => True :=
    fun f => blind_update ha fun _ ho => apart_of_same ho rfl rfl
  refine blind_bind (blind_load ha) fun o _ => ?_
  rcases o.f with _ | f
  · dsimp only
    split
    · refine blind_bind (blind_asStr ha) fun b _ => ?_
      rcases strFloat N b with _ | f
      · exact blind_fail
      · exact blind_bind (hupdate f) fun _ _ => blind_pure trivial
    · exact blind_bind (hupdate _) fun _ _ => blind_pure trivial
  · exact blind_pure trivial

theorem blind_asInt {a : Addr} (ha : ¬ D a) : Blind D (asInt N a) fun _ => True := by
  refine blind_bind (blind_load ha) fun o _ => ?_
  rcases o.i with _ | i
  · refine blind_bind (blind_asFloat ha) fun f _ => ?_
    rcases N.floor f with _ | i
    · exact blind_fail
    · refine blind_bind (blind_update ha fun _ ho => ?_) fun _ _ => blind_pure trivial
      exact apart_of_same ho rfl rfl
  · exact blind_pure trivial

theorem blind_objHash {a : Addr} (ha : ¬ D a) : Blind D (objHash N a) fun _ => True := by
  refine blind_bind (blind_load ha) fun o _ => ?_
  rcases o.hash with _ | x
  · refine blind_bind (blind_asStr ha) fun _ _ => ?_
    exact blind_update ha fun o ho => apart_of_same ho (withHash_l o) (withHash_proc o)
  · exact blind_pure trivial

theorem blind_objEq {a b : Addr} (ha : ¬ D a) (hb : ¬ D b) :
    Blind D (objEq a b : Op (Heap F) Bool) fun _ => True := by
  refine blind_bind (blind_load ha) fun x _ => ?_
  refine blind_bind (blind_load hb) fun y _ => ?_
  split
  · exact blind_pure trivial
  · exact blind_crash

/-! ### Lists -/

theorem blind_items {l : Addr} (hl : ¬ D l) :
    Blind D (items l : Op (Heap F) (List Litem)) fun lis => ∀ li ∈ lis, ¬ D li.o := by
  refine blind_bind (blind_load hl) fun o ho => ?_
  rcases hlis : o.l with _ | lis
  · exact blind_crash
  · exact blind_pure (ho.items hlis)

/-- The items of a list become others, none of them in `D`. -/
theorem blind_setItems {l : Addr} (hl : ¬ D l) {f : Obj F → List Litem → Obj F} {lis : List Litem}
    (hlis : ∀ li ∈ lis, ¬ D li.o) (hfl : ∀ o lis, (f o lis).l = some lis)
    (hfp : ∀ o lis, (f o lis).proc = o.proc) : Blind D (update l fun o => f o lis) fun _ => True :=
  blind_update hl fun o ho => apart_of_items ho (hfl o lis) (hfp o lis) hlis

theorem blind_listFlush {l : Addr} (hl : ¬ D l) :
    Blind D (listFlush l : Op (Heap F) Unit) fun _ => True :=
  blind_bind (blind_items hl) fun _ hlis =>
    blind_setItems (f := Obj.flushed) hl hlis (fun _ _ => rfl) fun _ _ => rfl

theorem blind_listDoAdd {l o : Addr} (hl : ¬ D l) (ho : ¬ D o) :
    Blind D (listDoAdd l o : Op (Heap F) Unit) fun _ => True := by
  refine blind_bind (blind_items hl) fun lis hlis => ?_
  refine blind_bind (blind_newLitem o) fun li hli => ?_
  refine blind_setItems (f := Obj.withItems) hl (fun x hx => ?_) (fun _ _ => rfl) fun _ _ => rfl
  rcases List.mem_append.mp hx with hx | hx
  · exact hlis x hx
  · rw [List.mem_singleton.mp hx, hli]
    exact ho

theorem blind_listRemove {l : Addr} (hl : ¬ D l) (li : Litem) :
    Blind D (listRemove l li : Op (Heap F) Unit) fun _ => True :=
  blind_bind (blind_items hl) fun _ hlis =>
    blind_setItems (f := Obj.withItems) hl (fun x hx => hlis x (List.mem_of_mem_erase hx))
      (fun _ _ => rfl) fun _ _ => rfl

theorem blind_listPop {l : Addr} (hl : ¬ D l) {li : Option Litem} (hli : ∀ x, li = some x → ¬ D x.o) :
    Blind D (listPop l li : Op (Heap F) Addr) fun o => ¬ D o := by
  refine blind_bind (blind_items hl) fun lis hlis => ?_
  rcases hor : li.or lis.getLast? with _ | x
  · exact blind_fail
  · refine blind_bind (blind_listRemove hl x) fun _ _ => ?_
    refine blind_bind (blind_listFlush hl) fun _ _ => blind_pure ?_
    rcases li with _ | y
    · exact hlis x (List.mem_of_getLast? hor)
    · exact hli x hor

/-! ### Dictionaries -/

theorem blind_dictSetSeek {k : Addr} (hk : ¬ D k) : ∀ lis : List Litem, (∀ li ∈ lis, ¬ D li.o) →
    Blind D (dictSetSeek N k lis) fun r => ∀ li, r = some li → li ∈ lis
  | [], _ => blind_pure nofun
  | [kli], hlis =>
    blind_bind (blind_objHash (hlis kli List.mem_cons_self)) fun _ _ => blind_fail
  | kli :: vli :: lis, hlis => by
    have hkli : ¬ D kli.o := hlis kli List.mem_cons_self
    refine blind_bind (blind_objHash hkli) fun _ _ => ?_
    refine blind_bind (blind_objEq hkli hk) fun eq _ => ?_
    cases eq with
    | true =>
      refine blind_pure fun li hli => ?_
      rw [← Option.some.inj hli]
      exact List.mem_cons_of_mem _ List.mem_cons_self
    | false =>
      refine (blind_dictSetSeek hk lis fun li hli => ?_).mono fun r hr li hli => ?_
      · exact hlis li (List.mem_cons_of_mem _ (List.mem_cons_of_mem _ hli))
      · exact List.mem_cons_of_mem _ (List.mem_cons_of_mem _ (hr li hli))

theorem blind_dictSeek {k : Addr} (hk : ¬ D k) : ∀ lis : List Litem, (∀ li ∈ lis, ¬ D li.o) →
    Blind D (dictSeek N k lis) fun r => ∀ p, r = some p → [p.1, p.2].Sublist lis
  | [], _ => blind_pure nofun
  | [_], _ => blind_fail
  | kli :: vli :: lis, hlis => by
    have hkli : ¬ D kli.o := hlis kli List.mem_cons_self
    refine blind_bind (blind_objHash hkli) fun _ _ => ?_
    refine blind_bind (blind_objEq hkli hk) fun eq _ => ?_
    cases eq with
    | true =>
      refine blind_pure fun p hp => ?_
      rw [← Option.some.inj hp]
      exact List.Sublist.cons_cons _ (List.Sublist.cons_cons _ (List.nil_sublist _))
    | false =>
      refine (blind_dictSeek hk lis fun li hli => ?_).mono fun r hr p hp => ?_
      · exact hlis li (List.mem_cons_of_mem _ (List.mem_cons_of_mem _ hli))
      · exact ((hr p hp).cons _).cons _

theorem blind_dictGet {d k : Addr} (hd : ¬ D d) (hk : ¬ D k) :
    Blind D (dictGet N d k) fun _ => True := by
  refine blind_bind (blind_items hd) fun lis hlis => ?_
  refine blind_bind (blind_objHash hk) fun _ _ => ?_
  refine blind_bind (blind_dictSeek hk lis hlis) fun r _ => ?_
  rcases r with _ | ⟨kli, vli⟩
  · exact blind_pure trivial
  · exact blind_pure trivial

end Refs

end B6b
