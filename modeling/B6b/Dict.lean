/-
# Dictionaries are finite maps

A dictionary is one flat list, keys and values in turn (`Pairs`). The searches of
`b6b_dict.c` compare the strings of keys, through the hash, the length and the bytes that
the objects keep (`objEq_spec`), and find the first pair with the key (`Found`). So, on a
list of even length with distinct keys, `b6b_dict_get` is the lookup of an association
list, `b6b_dict_set` is `upsert` and `b6b_dict_unset` is `kerase` (`dictGet_spec`,
`dictSet_spec`, `dictUnset_spec`), and `dict_is_map` says what that makes of every run.

Key definitions: `Calm`, `Pairs`, `Found`, `Dict`, `DictRun`.
-/
import Mathlib.Algebra.Ring.Parity
import B6b.Lib.Upsert
import B6b.Graph

namespace B6b

open Relation Upsert

variable {F : Type} {N : Num F}

/-! ### Conversions of keys -/

/-- Items, strings and hashes are kept. -/
structure Calm (N : Num F) (h h' : Heap F) : Prop where
  next : h'.next = h.next
  nextLi : h'.nextLi = h.nextLi
  l : ∀ a, (h'.obj a).l = (h.obj a).l
  val : ∀ a b, Val N h a b → Val N h' a b
  text : ∀ a b, (h.obj a).s = some b → (h'.obj a).s = some b
  hash : ∀ a x, (h.obj a).hash = some x → (h'.obj a).hash = some x

theorem Calm.refl (N : Num F) (h : Heap F) : Calm N h h :=
  ⟨rfl, rfl, fun _ => rfl, fun _ _ => id, fun _ _ => id, fun _ _ => id⟩

theorem Calm.trans {h₁ h₂ h₃ : Heap F} (h12 : Calm N h₁ h₂) (h23 : Calm N h₂ h₃) : Calm N h₁ h₃ where
  next := h23.next.trans h12.next
  nextLi := h23.nextLi.trans h12.nextLi
  l a := (h23.l a).trans (h12.l a)
  val a b := h23.val a b ∘ h12.val a b
  text a b := h23.text a b ∘ h12.text a b
  hash a x := h23.hash a x ∘ h12.hash a x

theorem Calm.closed {h h' : Heap F} (hcalm : Calm N h h') (hc : Closed h) : Closed h' := by
  intro a c hac
  rw [hcalm.next]
  exact hc a c (hac.of_l (.inl (hcalm.l a)))

theorem Calm.of_strs {h h' : Heap F} (hs : Strs N h h') : Calm N h h' where
  next := hs.next
  nextLi := hs.nextLi
  l := hs.l
  val _ _ hv := hv.strs hs
  text a b ha := by rw [hs.s_of_some ha, ha]
  hash a x hx := by
    obtain ⟨b, hb, -⟩ := (h.obj a).hash_eq x hx
    rw [hs.s_of_some hb, hx]

theorem withHash_same (o : Obj F) : o.withHash.l = o.l ∧ o.withHash.s = o.s ∧
    o.withHash.i = o.i ∧ o.withHash.f = o.f := by
  unfold Obj.withHash
  split <;> exact ⟨rfl, rfl, rfl, rfl⟩

theorem withHash_hash {o : Obj F} {b : Bytes} (hs : o.s = some b) : o.withHash.hash = some (b6bHash b) := by
  unfold Obj.withHash
  split
  · rename_i c hc
    rw [Option.some.inj (hs.symm.trans hc)]
  · rename_i hn
    rw [hs] at hn
    cases hn

theorem withHash_keeps {o : Obj F} {x : UInt32} (hx : o.hash = some x) : o.withHash.hash = some x := by
  obtain ⟨b, hb, rfl⟩ := o.hash_eq x hx
  exact withHash_hash hb

/-- Everything of an object but its hash is as it was. -/
theorem withHash_obj {α : Type} (g : Obj F → α) (hg : ∀ o : Obj F, g o.withHash = g o) (h : Heap F)
    (a c : Addr) : g ((h.set a (h.obj a).withHash).obj c) = g (h.obj c) := by
  by_cases hc : c = a
  · subst hc
    rw [h.set_obj_self, hg]
  · rw [h.set_obj_of_ne _ hc]

theorem withHash_text (h : Heap F) (a c : Addr) :
    ((h.set a (h.obj a).withHash).obj c).s = (h.obj c).s ∧
    ((h.set a (h.obj a).withHash).obj c).l = (h.obj c).l ∧
    numStr N ((h.set a (h.obj a).withHash).obj c) = numStr N (h.obj c) := by
  refine ⟨withHash_obj Obj.s (fun o => (withHash_same o).2.1) h a c,
    withHash_obj Obj.l (fun o => (withHash_same o).1) h a c, withHash_obj (numStr N) (fun o => ?_) h a c⟩
  unfold numStr
  rw [(withHash_same o).2.2.1, (withHash_same o).2.2.2]

/-- A hash gives no object another string. -/
theorem val_withHash (h : Heap F) (a c : Addr) (b : Bytes) :
    Val N (h.set a (h.obj a).withHash) c b ↔ Val N h c b := by
  refine ⟨Val.transport (S := fun _ => True) ⟨fun _ _ _ _ _ _ _ => trivial, fun c _ => .inr ?_⟩ trivial,
    Val.transport (S := fun _ => True) ⟨fun _ _ _ _ _ _ _ => trivial, fun c _ => .inr ?_⟩ trivial⟩
  · obtain ⟨hs, hl, hnum⟩ := withHash_text (N := N) h a c
    exact ⟨hs.symm, fun _ => hl.symm, fun _ _ => hnum.symm⟩
  · obtain ⟨hs, hl, hnum⟩ := withHash_text (N := N) h a c
    exact ⟨hs, fun _ => hl, fun _ _ => hnum⟩

theorem Calm.withHash (h : Heap F) (a : Addr) : Calm N h (h.set a (h.obj a).withHash) := by
  have htext := withHash_text (N := N) h a
  refine ⟨rfl, rfl, fun c => (htext c).2.1, fun c b => (val_withHash h a c b).mpr,
    fun c b hb => (htext c).1.trans hb, fun c x hx => ?_⟩
  by_cases hc : c = a
  · subst hc
    rw [h.set_obj_self]
    exact withHash_keeps hx
  · rwa [h.set_obj_of_ne _ hc]

mutual

/-- An object with a string is not needed for its own string. -/
theorem Val.not_loop {h : Heap F} {a : Addr} {b : Bytes} : Val N h a b → ¬ TransGen (Below h) a a
  | .str hs => fun hr => by
    obtain ⟨c, hac, -⟩ := TransGen.head'_iff.mp hr
    rw [hac.1] at hs
    cases hs
  | .list hs hl hv => fun hr => by
    obtain ⟨c, ⟨-, lis, hl', li, hli, rfl⟩, hca⟩ := TransGen.head'_iff.mp hr
    rw [← Option.some.inj (hl.symm.trans hl')] at hli
    exact Vals.not_loop hv li hli (TransGen.tail' hca ⟨hs, _, hl, li, hli, rfl⟩)
  | .num hs hl => fun hr => by
    obtain ⟨c, ⟨-, lis, hl', -⟩, -⟩ := TransGen.head'_iff.mp hr
    rw [hl] at hl'
    cases hl'

theorem Vals.not_loop {h : Heap F} {lis : List Litem} {bs : List Bytes} :
    Vals N h lis bs → ∀ li ∈ lis, ¬ TransGen (Below h) li.o li.o
  | .nil => nofun
  | .cons hv hvs => fun li hli => by
    rcases List.mem_cons.mp hli with he | hli
    · rw [he]
      exact Val.not_loop hv
    · exact Vals.not_loop hvs li hli

end

theorem Vals.mem {h : Heap F} : ∀ {lis : List Litem} {bs : List Bytes}, Vals N h lis bs →
    ∀ li ∈ lis, ∃ b, Val N h li.o b
  | _, _, .nil => nofun
  | _, _, .cons hv hvs => fun li hli => by
    rcases List.mem_cons.mp hli with rfl | hli
    · exact ⟨_, hv⟩
    · exact Vals.mem hvs li hli

theorem Val.of_below {h : Heap F} {a c : Addr} {b : Bytes} (hv : Val N h a b) (hac : Below h a c) :
    ∃ b', Val N h c b' := by
  obtain ⟨hn, lis, hl, li, hli, rfl⟩ := hac
  cases hv with
  | str hs =>
    rw [hn] at hs
    cases hs
  | list _ hl' hvs =>
    obtain rfl := Option.some.inj (hl.symm.trans hl')
    exact hvs.mem li hli
  | num _ hl' =>
    rw [hl] at hl'
    cases hl'

/-- An object that has a string is converted to it. -/
theorem Val.asStr_ok {h : Heap F} (hc : Closed h) {a : Addr} (ha : a < h.next) {b : Bytes}
    (hv : Val N h a b) : ∃ h', asStr N a h = .ok b h' := by
  have hval : ∀ c, TransGen (Below h) a c → ∃ b', Val N h c b' := by
    intro c hac
    induction hac with
    | single hb => exact hv.of_below hb
    | tail _ hb ih =>
      obtain ⟨b', hv'⟩ := ih
      exact hv'.of_below hb
  obtain ⟨b', h', hok⟩ := B6b.asStr_ok (N := N) hc ha fun c hac => (hval c hac).elim fun _ hv => hv.not_loop
  obtain rfl : b' = b := ((asStr_returns N a h).ok hok).2.1.unique hv
  exact ⟨h', hok⟩

/-- The object has its string, and the hash of it. -/
def Hashed (h : Heap F) (a : Addr) (b : Bytes) : Prop :=
  (h.obj a).s = some b ∧ (h.obj a).hash = some (b6bHash b)

theorem Hashed.calm {h h' : Heap F} (hcalm : Calm N h h') {a : Addr} {b : Bytes} (hh : Hashed h a b) :
    Hashed h' a b :=
  ⟨hcalm.text a b hh.1, hcalm.hash a _ hh.2⟩

/-- `b6b_obj_hash` -/
theorem objHash_spec {h : Heap F} (hc : Closed h) {a : Addr} (ha : a < h.next) {b : Bytes}
    (hv : Val N h a b) : ∃ h', objHash N a h = .ok () h' ∧ Calm N h h' ∧ Hashed h' a b := by
  unfold objHash
  rw [Op.bind_ok (load_ok ha)]
  rcases hx : (h.obj a).hash with _ | x
  · obtain ⟨h₁, hok⟩ := hv.asStr_ok hc ha
    obtain ⟨hs, -, hsome⟩ := (asStr_returns N a h).ok hok
    refine ⟨_, Op.bind_ok hok _, (Calm.of_strs hs).trans (Calm.withHash h₁ a), ?_, ?_⟩
    · rw [Heap.set_obj_self, (withHash_same _).2.1, hsome]
    · rw [Heap.set_obj_self, withHash_hash hsome]
  · refine ⟨h, rfl, Calm.refl N h, ?_⟩
    obtain ⟨c, hcs, rfl⟩ := (h.obj a).hash_eq x hx
    obtain rfl : c = b := (Val.str hcs).unique hv
    exact ⟨hcs, hx⟩

/-- `b6b_obj_eq`: two objects with a hash are equal when their strings are. -/
theorem objEq_spec {h : Heap F} {a c : Addr} {x y : Bytes} (ha : a < h.next) (hc : c < h.next)
    (hx : Hashed h a x) (hy : Hashed h c y) : objEq a c h = .ok (decide (x = y)) h := by
  unfold objEq
  rw [Op.bind_ok (load_ok ha), Op.bind_ok (load_ok hc), hx.1, hy.1, hx.2, hy.2]
  show Outcome.ok _ _ = _
  by_cases hxy : x = y
  · subst hxy
    simp
  · simp [hxy]

/-! ### Pairs -/

/-- The pairs of a list of keys and values, with the strings of the keys. The last key may
have no value. -/
inductive Pairs (str : Addr → Option Bytes) : List Litem → List ((_ : Bytes) × Addr) → Prop
  | nil : Pairs str [] []
  | odd {kli b} (hk : str kli.o = some b) : Pairs str [kli] []
  | cons {kli vli lis b m} (hk : str kli.o = some b) (hm : Pairs str lis m) :
      Pairs str (kli :: vli :: lis) (⟨b, vli.o⟩ :: m)

/-- `kli` and `vli` are the first key with the string `b`, and its value. -/
inductive Found (str : Addr → Option Bytes) (b : Bytes) (kli vli : Litem) :
    List Litem → List ((_ : Bytes) × Addr) → Prop
  | here {lis m} (hk : str kli.o = some b) (hm : Pairs str lis m) :
      Found str b kli vli (kli :: vli :: lis) (⟨b, vli.o⟩ :: m)
  | later {kli' vli' lis b' m} (hk : str kli'.o = some b') (hne : b' ≠ b)
      (hf : Found str b kli vli lis m) :
      Found str b kli vli (kli' :: vli' :: lis) (⟨b', vli'.o⟩ :: m)

/-- The objects with a string `str` are there, and have that string. -/
structure Steady (N : Num F) (str : Addr → Option Bytes) (h : Heap F) : Prop where
  closed : Closed h
  val : ∀ a b, str a = some b → a < h.next ∧ Val N h a b

variable {str : Addr → Option Bytes}

theorem Steady.calm {h h' : Heap F} (hst : Steady N str h) (hcalm : Calm N h h') : Steady N str h' where
  closed := hcalm.closed hst.closed
  val a b hb := ⟨hcalm.next ▸ (hst.val a b hb).1, hcalm.val a b (hst.val a b hb).2⟩

/-- A search for the key `b`, which keeps the heap calm: it finds the first one, or there is
none, and then it fails if the last key has no value. -/
def Seeks {α : Type} (N : Num F) (str : Addr → Option Bytes) (b : Bytes) (lis : List Litem)
    (m : List ((_ : Bytes) × Addr)) (found : Litem → Litem → α) (x : Op (Heap F) (Option α))
    (h : Heap F) : Prop :=
  ∃ h', Calm N h h' ∧
    ((∃ kli vli, Found str b kli vli lis m ∧ x h = .ok (some (found kli vli)) h') ∨
      (b ∉ m.keys ∧ Even lis.length ∧ x h = .ok none h') ∨
      (b ∉ m.keys ∧ ¬ Even lis.length ∧ x h = .fail h'))

theorem even_add_two {n : ℕ} : Even (n + 1 + 1) ↔ Even n := by
  simp [Nat.even_add_one]

/-- One turn of a search. -/
theorem seeks_cons {α : Type} {h : Heap F} {k : Addr} {b c : Bytes} {kli vli : Litem} {lis : List Litem}
    {m : List ((_ : Bytes) × Addr)} {found : Litem → Litem → α} {rest : Op (Heap F) (Option α)}
    (hst : Steady N str h) (hk : k < h.next) (hkb : Hashed h k b) (hkli : str kli.o = some c)
    (hm : Pairs str lis m)
    (hrest : ∀ h₁, Steady N str h₁ → k < h₁.next → Hashed h₁ k b → Seeks N str b lis m found rest h₁) :
    Seeks N str b (kli :: vli :: lis) (⟨c, vli.o⟩ :: m) found
      (do objHash N kli.o
          if ← objEq kli.o k then pure (some (found kli vli)) else rest) h := by
  obtain ⟨hlt, hv⟩ := hst.val kli.o c hkli
  obtain ⟨h₁, hhash, hcalm, hhashed⟩ := objHash_spec hst.closed hlt hv
  have hk₁ : k < h₁.next := hcalm.next ▸ hk
  have heq := objEq_spec (hcalm.next ▸ hlt) hk₁ hhashed (hkb.calm hcalm)
  unfold Seeks
  rw [Op.bind_ok hhash, Op.bind_ok heq]
  by_cases hcb : c = b
  · subst hcb
    exact ⟨h₁, hcalm, .inl ⟨kli, vli, .here hkli hm, by rw [decide_eq_true rfl, if_pos rfl]; rfl⟩⟩
  · rw [decide_eq_false hcb]
    obtain ⟨h₂, hcalm₂, hcase⟩ := hrest h₁ (hst.calm hcalm) hk₁ (hkb.calm hcalm)
    refine ⟨h₂, hcalm.trans hcalm₂, ?_⟩
    rw [List.keys_cons, List.mem_cons, List.length_cons, List.length_cons, even_add_two]
    have hne : ¬ b = c := Ne.symm hcb
    rcases hcase with ⟨kli', vli', hf, hx⟩ | ⟨hn, hrest⟩ | ⟨hn, hrest⟩
    · exact .inl ⟨kli', vli', .later hkli hcb hf, hx⟩
    · exact .inr (.inl ⟨not_or.mpr ⟨hne, hn⟩, hrest⟩)
    · exact .inr (.inr ⟨not_or.mpr ⟨hne, hn⟩, hrest⟩)

/-- The loop of `b6b_dict_get` and `b6b_dict_unset`. -/
theorem dictSeek_spec {k : Addr} {b : Bytes} : ∀ {lis : List Litem} {m : List ((_ : Bytes) × Addr)}
    {h : Heap F}, Steady N str h → k < h.next → Hashed h k b → Pairs str lis m →
      Seeks N str b lis m Prod.mk (dictSeek N k lis) h
  | _, _, h, _, _, _, .nil => ⟨h, Calm.refl N h, .inr (.inl ⟨nofun, Even.zero, rfl⟩)⟩
  | _, _, h, _, _, _, .odd _ => ⟨h, Calm.refl N h, .inr (.inr ⟨nofun, Nat.not_even_one, rfl⟩)⟩
  | _, _, _, hst, hk, hkb, .cons hkli hm =>
    seeks_cons hst hk hkb hkli hm fun _ hst₁ hk₁ hkb₁ => dictSeek_spec hst₁ hk₁ hkb₁ hm

/-- The loop of `b6b_dict_set`. -/
theorem dictSetSeek_spec {k : Addr} {b : Bytes} : ∀ {lis : List Litem} {m : List ((_ : Bytes) × Addr)}
    {h : Heap F}, Steady N str h → k < h.next → Hashed h k b → Pairs str lis m →
      Seeks N str b lis m (fun _ vli => vli) (dictSetSeek N k lis) h
  | _, _, h, _, _, _, .nil => ⟨h, Calm.refl N h, .inr (.inl ⟨nofun, Even.zero, rfl⟩)⟩
  | _, _, h, hst, hk, hkb, .odd hkli => by
    obtain ⟨hlt, hv⟩ := hst.val _ _ hkli
    obtain ⟨h₁, hhash, hcalm, -⟩ := objHash_spec hst.closed hlt hv
    exact ⟨h₁, hcalm, .inr (.inr ⟨nofun, Nat.not_even_one, Op.bind_ok hhash _⟩)⟩
  | _, _, _, hst, hk, hkb, .cons hkli hm =>
    seeks_cons hst hk hkb hkli hm fun _ hst₁ hk₁ hkb₁ => dictSetSeek_spec hst₁ hk₁ hkb₁ hm

theorem Found.dlookup {b : Bytes} {kli vli : Litem} {lis : List Litem} {m : List ((_ : Bytes) × Addr)}
    (hf : Found str b kli vli lis m) : m.dlookup b = some vli.o := by
  induction hf with
  | here => exact List.dlookup_cons_eq _ _ _
  | later _ hne _ ih => rw [List.dlookup_cons_ne _ _ (Ne.symm hne), ih]

theorem Found.mem {b : Bytes} {kli vli : Litem} {lis : List Litem} {m : List ((_ : Bytes) × Addr)}
    (hf : Found str b kli vli lis m) : kli ∈ lis ∧ vli ∈ lis := by
  induction hf with
  | here => exact ⟨List.mem_cons_self, List.mem_cons_of_mem _ List.mem_cons_self⟩
  | later _ _ _ ih =>
    exact ⟨List.mem_cons_of_mem _ (List.mem_cons_of_mem _ ih.1),
      List.mem_cons_of_mem _ (List.mem_cons_of_mem _ ih.2)⟩

/-- The value behind the key is replaced. -/
theorem Found.replace {b : Bytes} {kli vli : Litem} {lis : List Litem} {m : List ((_ : Bytes) × Addr)}
    (v : Addr) (hf : Found str b kli vli lis m) (hnd : lis.Nodup) :
    Pairs str (lis.map fun li => if li = vli then { li with o := v } else li) (upsert b v m) := by
  induction hf with
  | @here lis m hk hm =>
    simp only [List.nodup_cons, List.mem_cons, not_or] at hnd
    obtain ⟨⟨hkv, -⟩, hvl, -⟩ := hnd
    have hrest : (lis.map fun li => if li = vli then { li with o := v } else li) = lis := by
      refine (List.map_congr_left fun li hli => if_neg ?_).trans (List.map_id lis)
      rintro rfl
      exact hvl hli
    simp only [List.map_cons, if_neg hkv, if_true, hrest, upsert]
    exact .cons hk hm
  | @later kli' vli' lis b' m hk hne hf ih =>
    simp only [List.nodup_cons, List.mem_cons, not_or] at hnd
    obtain ⟨⟨-, hkl⟩, hvl, hnd⟩ := hnd
    have hkv : kli' ≠ vli := fun he => hkl (he ▸ hf.mem.2)
    have hvv : vli' ≠ vli := fun he => hvl (he ▸ hf.mem.2)
    simp only [List.map_cons, if_neg hkv, if_neg hvv, upsert, if_neg (Ne.symm hne)]
    exact .cons hk (ih hnd)

/-- The key and the value are removed, one after the other. -/
theorem Found.erase {b : Bytes} {kli vli : Litem} {lis : List Litem} {m : List ((_ : Bytes) × Addr)}
    (hf : Found str b kli vli lis m) (hnd : lis.Nodup) :
    Pairs str ((lis.erase kli).erase vli) (m.kerase b) := by
  induction hf with
  | @here lis m hk hm =>
    rw [List.erase_cons_head, List.erase_cons_head]
    have hm' : List.kerase b (⟨b, vli.o⟩ :: m) = m := by simp
    rwa [hm']
  | @later kli' vli' lis b' m hk hne hf ih =>
    simp only [List.nodup_cons, List.mem_cons, not_or] at hnd
    obtain ⟨⟨-, hkl⟩, hvl, hnd⟩ := hnd
    have hne' : ∀ li ∈ lis, kli' ≠ li ∧ vli' ≠ li := fun li hli =>
      ⟨fun he => hkl (he ▸ hli), fun he => hvl (he ▸ hli)⟩
    obtain ⟨hkk, hvk⟩ := hne' kli hf.mem.1
    obtain ⟨hkv, hvv⟩ := hne' vli hf.mem.2
    rw [List.erase_cons_tail (by simpa using hkk), List.erase_cons_tail (by simpa using hkv),
      List.erase_cons_tail (by simpa using hvk), List.erase_cons_tail (by simpa using hvv),
      List.kerase_cons_ne (Ne.symm hne)]
    exact .cons hk (ih hnd)

theorem Found.length_erase {b : Bytes} {kli vli : Litem} {lis : List Litem}
    {m : List ((_ : Bytes) × Addr)} (hf : Found str b kli vli lis m) (hnd : lis.Nodup) :
    ((lis.erase kli).erase vli).length + 1 + 1 = lis.length := by
  have hne : kli ≠ vli := by
    induction hf with
    | here => exact fun he => (List.nodup_cons.mp hnd).1 (he ▸ List.mem_cons_self)
    | later _ _ _ ih => exact ih (hnd.sublist ((List.sublist_cons_self _ _).trans (List.sublist_cons_self _ _)))
  have hv : vli ∈ lis.erase kli := (List.mem_erase_of_ne (Ne.symm hne)).mpr hf.mem.2
  have hk := List.length_erase_add_one hf.mem.1
  rw [List.length_erase_add_one hv, hk]

/-- A key and a value are added. -/
theorem Pairs.append {b : Bytes} {lis : List Litem} {m : List ((_ : Bytes) × Addr)}
    (hm : Pairs str lis m) (kli vli : Litem) (hk : str kli.o = some b) (heven : Even lis.length) :
    Pairs str (lis ++ [kli, vli]) (m ++ [⟨b, vli.o⟩]) := by
  induction hm with
  | nil => exact .cons hk .nil
  | odd => exact absurd heven Nat.not_even_one
  | cons hk' _ ih => exact .cons hk' (ih (even_add_two.mp heven))

/-! ### The operations -/

theorem items_ok {l : Addr} {h : Heap F} {lis : List Litem} (hlt : l < h.next)
    (hl : (h.obj l).l = some lis) : items l h = .ok lis h := by
  unfold items
  rw [Op.bind_ok (load_ok hlt), hl]
  rfl

theorem intOf_ok {a : Addr} {h : Heap F} {i : ℤ} (hlt : a < h.next) (hi : (h.obj a).i = some i) :
    intOf a h = .ok i h := by
  unfold intOf
  rw [Op.bind_ok (load_ok hlt), hi]
  rfl

/-- The items of `d` are `lis`, and no object is new. -/
structure Relisted (d : Addr) (lis : List Litem) (n : ℕ) (h h' : Heap F) : Prop where
  items : (h'.obj d).l = some lis
  next : h'.next = h.next
  nextLi : h'.nextLi = n

theorem listFlush_ok {d : Addr} {h : Heap F} {lis : List Litem} (hlt : d < h.next)
    (hl : (h.obj d).l = some lis) :
    ∃ h', listFlush d h = .ok () h' ∧ Relisted d lis h.nextLi h h' := by
  refine ⟨_, Op.bind_ok (items_ok hlt hl) _, ?_, rfl, rfl⟩
  rw [Heap.set_obj_self]
  rfl

/-- `b6b_list_do_add` changes the list at its end, and nothing else. -/
theorem listDoAdd_ok {d : Addr} (o : Addr) {h : Heap F} {lis : List Litem} (hlt : d < h.next)
    (hl : (h.obj d).l = some lis) :
    ∃ h₁, listDoAdd d o h = .ok () h₁ ∧ Relisted d (lis ++ [⟨h.nextLi, o⟩]) (h.nextLi + 1) h h₁ ∧
      ∀ b, b ≠ d → h₁.obj b = h.obj b := by
  refine ⟨_, Op.bind_ok (items_ok hlt hl) _, ⟨?_, rfl, rfl⟩, fun b hb => Heap.set_obj_of_ne _ _ hb⟩
  rw [Heap.set_obj_self]
  rfl

theorem listAdd_ok {d : Addr} (o : Addr) {h : Heap F} {lis : List Litem} (hlt : d < h.next)
    (hl : (h.obj d).l = some lis) :
    ∃ h', listAdd d o h = .ok () h' ∧ Relisted d (lis ++ [⟨h.nextLi, o⟩]) (h.nextLi + 1) h h' := by
  obtain ⟨h₁, hok, hre, -⟩ := listDoAdd_ok o hlt hl
  obtain ⟨h₂, hok₂, hre₂⟩ := listFlush_ok (hre.next ▸ hlt) hre.items
  exact ⟨h₂, (Op.bind_ok hok _).trans hok₂, hre₂.items, hre₂.next.trans hre.next,
    hre₂.nextLi.trans hre.nextLi⟩

theorem listPop_ok {d : Addr} (li : Litem) {h : Heap F} {lis : List Litem} (hlt : d < h.next)
    (hl : (h.obj d).l = some lis) :
    ∃ h', listPop d (some li) h = .ok li.o h' ∧ Relisted d (lis.erase li) h.nextLi h h' := by
  have hrem : ∃ h₁, listRemove d li h = .ok () h₁ ∧ Relisted d (lis.erase li) h.nextLi h h₁ := by
    refine ⟨_, Op.bind_ok (items_ok hlt hl) _, ?_, rfl, rfl⟩
    rw [Heap.set_obj_self]
    rfl
  obtain ⟨h₁, hok, hre⟩ := hrem
  obtain ⟨h₂, hok₂, hre₂⟩ := listFlush_ok (hre.next ▸ hlt) hre.items
  refine ⟨h₂, ?_, hre₂.items, hre₂.next.trans hre.next, hre₂.nextLi.trans hre.nextLi⟩
  unfold listPop
  rw [Op.bind_ok (items_ok hlt hl)]
  exact (Op.bind_ok hok _).trans (Op.bind_ok hok₂ _)

theorem setItem_ok {d : Addr} (v : Addr) (vli : Litem) {h : Heap F} {lis : List Litem} (hlt : d < h.next)
    (hl : (h.obj d).l = some lis) :
    ∃ h', setItem d vli v h = .ok () h' ∧
      Relisted d (lis.map fun li => if li = vli then { li with o := v } else li) h.nextLi h h' := by
  refine ⟨_, Op.bind_ok (items_ok hlt hl) _, ?_, rfl, rfl⟩
  rw [Heap.set_obj_self]
  rfl

/-- `d` is a dictionary of the pairs `m`. -/
structure Dict (str : Addr → Option Bytes) (h : Heap F) (d : Addr) (lis : List Litem)
    (m : List ((_ : Bytes) × Addr)) : Prop where
  lt : d < h.next
  items : (h.obj d).l = some lis
  pairs : Pairs str lis m
  even : Even lis.length
  keys : m.NodupKeys
  ids : (lis.map (·.id)).Nodup
  fresh : ∀ li ∈ lis, li.id < h.nextLi

variable {h : Heap F} {d k : Addr} {b : Bytes} {lis : List Litem} {m : List ((_ : Bytes) × Addr)}

theorem Dict.nodup (hd : Dict str h d lis m) : lis.Nodup := hd.ids.of_map _

/-- Nothing that leaves the items alone matters to a dictionary. -/
theorem Dict.other {h' : Heap F} (hd : Dict str h d lis m) (hl : (h'.obj d).l = (h.obj d).l)
    (hnext : h.next ≤ h'.next) (hli : h.nextLi ≤ h'.nextLi) : Dict str h' d lis m :=
  { hd with
    lt := Nat.lt_of_lt_of_le hd.lt hnext
    items := hl.trans hd.items
    fresh := fun li hm => Nat.lt_of_lt_of_le (hd.fresh li hm) hli }

theorem Dict.calm {h' : Heap F} (hd : Dict str h d lis m) (hcalm : Calm N h h') : Dict str h' d lis m :=
  hd.other (hcalm.l d) (Nat.le_of_eq hcalm.next.symm) (Nat.le_of_eq hcalm.nextLi.symm)

theorem Relisted.trans {h₁ h₂ h₃ : Heap F} {lis' : List Litem} {n n' : ℕ} (h12 : Relisted d lis n h₁ h₂)
    (h23 : Relisted d lis' n' h₂ h₃) : Relisted d lis' n' h₁ h₃ :=
  ⟨h23.items, h23.next.trans h12.next, h23.nextLi⟩

/-- A dictionary gets other items. -/
theorem Dict.relisted {h' : Heap F} {lis' : List Litem} {m' : List ((_ : Bytes) × Addr)} {n : ℕ}
    (hd : Dict str h d lis m) (hre : Relisted d lis' n h h')
    (hnew : Pairs str lis' m' ∧ Even lis'.length ∧ m'.NodupKeys ∧ (lis'.map (·.id)).Nodup ∧
      ∀ li ∈ lis', li.id < n) : Dict str h' d lis' m' where
  lt := hre.next ▸ hd.lt
  items := hre.items
  pairs := hnew.1
  even := hnew.2.1
  keys := hnew.2.2.1
  ids := hnew.2.2.2.1
  fresh := hre.nextLi ▸ hnew.2.2.2.2

/-- `b6b_obj_hash` of a key, and the search behind it, on a dictionary. -/
theorem Dict.hash (hd : Dict str h d lis m) (hst : Steady N str h) (hk : str k = some b) :
    ∃ h₁, objHash N k h = .ok () h₁ ∧ Calm N h h₁ ∧ Dict str h₁ d lis m ∧ Steady N str h₁ ∧
      k < h₁.next ∧ Hashed h₁ k b := by
  obtain ⟨hlt, hv⟩ := hst.val k b hk
  obtain ⟨h₁, hok, hcalm, hhashed⟩ := objHash_spec hst.closed hlt hv
  exact ⟨h₁, hok, hcalm, hd.calm hcalm, hst.calm hcalm, hcalm.next ▸ hlt, hhashed⟩

/-- **`b6b_dict_get` is the lookup.** -/
theorem dictGet_spec (hd : Dict str h d lis m) (hst : Steady N str h) (hk : str k = some b) :
    ∃ h', dictGet N d k h = .ok (m.dlookup b) h' := by
  obtain ⟨h₁, hhash, -, -, hst₁, hlt, hkb⟩ := hd.hash hst hk
  obtain ⟨h₂, -, hcase⟩ := dictSeek_spec hst₁ hlt hkb hd.pairs
  refine ⟨h₂, ?_⟩
  unfold dictGet dictGetIn
  rw [Op.bind_ok (items_ok hd.lt hd.items), Op.bind_ok hhash]
  rcases hcase with ⟨kli, vli, hf, hseek⟩ | ⟨hn, -, hseek⟩ | ⟨-, hodd, -⟩
  · rw [Op.bind_ok hseek, hf.dlookup]
    rfl
  · rw [Op.bind_ok hseek, List.dlookup_eq_none.mpr hn]
    rfl
  · exact absurd hd.even hodd

/-- **`b6b_dict_set` sets the value of the key**, in its place or at the end. -/
theorem dictSet_spec (hd : Dict str h d lis m) (hst : Steady N str h) (hk : str k = some b) (v : Addr) :
    ∃ h' lis', dictSet N d k v h = .ok () h' ∧ Dict str h' d lis' (upsert b v m) := by
  obtain ⟨h₁, hhash, hcalm₁, hd₁, hst₁, hlt, hkb⟩ := hd.hash hst hk
  obtain ⟨h₂, hcalm₂, hcase⟩ := dictSetSeek_spec hst₁ hlt hkb hd.pairs
  have hd₂ : Dict str h₂ d lis m := hd₁.calm hcalm₂
  unfold dictSet
  rw [Op.bind_ok hhash, Op.bind_ok (items_ok hd₁.lt hd₁.items)]
  rcases hcase with ⟨kli, vli, hf, hseek⟩ | ⟨hn, -, hseek⟩ | ⟨-, hodd, -⟩
  · rw [Op.bind_ok hseek]
    obtain ⟨h₃, hset, hre₃⟩ := setItem_ok v vli hd₂.lt hd₂.items
    obtain ⟨h₄, hflush, hre₄⟩ := listFlush_ok (hre₃.next ▸ hd₂.lt) hre₃.items
    refine ⟨h₄, _, (Op.bind_ok hset _).trans hflush, hd₂.relisted (hre₃.trans hre₄) ?_⟩
    have hid : ∀ li : Litem, (if li = vli then { li with o := v } else li).id = li.id := by
      intro li
      split <;> rfl
    refine ⟨hf.replace v hd.nodup, by simpa using hd.even, nodupKeys_upsert v hd.keys, ?_, ?_⟩
    · rw [List.map_map]
      exact (List.map_congr_left fun li _ => hid li) ▸ hd.ids
    · intro li hli
      obtain ⟨li', hli', rfl⟩ := List.mem_map.mp hli
      rw [hid, hre₃.nextLi]
      exact hd₂.fresh li' hli'
  · rw [Op.bind_ok hseek]
    obtain ⟨h₃, hadd, hre₃⟩ := listAdd_ok k hd₂.lt hd₂.items
    obtain ⟨h₄, hadd', hre₄⟩ := listAdd_ok v (hre₃.next ▸ hd₂.lt) hre₃.items
    refine ⟨h₄, _, (Op.bind_ok hadd _).trans hadd', hd₂.relisted (hre₃.trans hre₄) ?_⟩
    rw [upsert_of_notMem v hn, hre₃.nextLi, List.append_assoc, List.cons_append, List.nil_append]
    refine ⟨hd.pairs.append ⟨h₂.nextLi, k⟩ ⟨h₂.nextLi + 1, v⟩ hk hd.even, ?_, ?_, ?_, ?_⟩
    · simpa [Nat.even_add_one] using hd.even
    · exact upsert_of_notMem v hn ▸ nodupKeys_upsert v hd.keys
    · have hlt : ∀ i ∈ lis.map (·.id), i < h₂.nextLi := by
        intro i hi
        obtain ⟨li, hli, rfl⟩ := List.mem_map.mp hi
        exact hd₂.fresh li hli
      rw [List.map_append]
      refine List.nodup_append.mpr ⟨hd.ids, by simp, fun i hi j hj => ?_⟩
      have hi' := hlt i hi
      simp only [List.map_cons, List.map_nil, List.mem_cons, List.not_mem_nil, or_false] at hj
      omega
    · intro li hli
      rcases List.mem_append.mp hli with hli | hli
      · have := hd₂.fresh li hli
        omega
      · simp only [List.mem_cons, List.not_mem_nil, or_false] at hli
        rcases hli with rfl | rfl
        · show h₂.nextLi < h₂.nextLi + 1 + 1
          omega
        · exact Nat.lt_succ_self _
  · exact absurd hd.even hodd

/-- **`b6b_dict_unset` removes the key**, if it is there. -/
theorem dictUnset_spec (hd : Dict str h d lis m) (hst : Steady N str h) (hk : str k = some b) :
    ∃ h' lis', dictUnset N d k h = .ok () h' ∧ Dict str h' d lis' (m.kerase b) := by
  obtain ⟨h₁, hhash, -, hd₁, hst₁, hlt, hkb⟩ := hd.hash hst hk
  obtain ⟨h₂, hcalm₂, hcase⟩ := dictSeek_spec hst₁ hlt hkb hd.pairs
  have hd₂ : Dict str h₂ d lis m := hd₁.calm hcalm₂
  unfold dictUnset
  rw [Op.bind_ok hhash, Op.bind_ok (items_ok hd₁.lt hd₁.items)]
  rcases hcase with ⟨kli, vli, hf, hseek⟩ | ⟨hn, -, hseek⟩ | ⟨-, hodd, -⟩
  · rw [Op.bind_ok hseek]
    obtain ⟨h₃, hpop, hre₃⟩ := listPop_ok kli hd₂.lt hd₂.items
    obtain ⟨h₄, hpop', hre₄⟩ := listPop_ok vli (hre₃.next ▸ hd₂.lt) hre₃.items
    have hsub : ((lis.erase kli).erase vli).Sublist lis :=
      List.erase_sublist.trans List.erase_sublist
    have heven : Even ((lis.erase kli).erase vli).length := by
      have hlen := hf.length_erase hd.nodup
      rw [← even_add_two, hlen]
      exact hd.even
    refine ⟨h₄, _, (Op.bind_ok hpop _).trans (Op.bind_ok hpop' _), hd₂.relisted (hre₃.trans hre₄) ?_⟩
    refine ⟨hf.erase hd.nodup, heven, hd.keys.kerase b, hd.ids.sublist (hsub.map _), fun li hli => ?_⟩
    rw [hre₃.nextLi]
    exact hd₂.fresh li (hsub.subset hli)
  · rw [Op.bind_ok hseek, List.kerase_of_notMem_keys hn]
    exact ⟨h₂, lis, rfl, hd₂⟩
  · exact absurd hd.even hodd

/-- A conversion leaves the items and the string of a list alone. -/
theorem reading_kept {h' : Heap F} (hlt : d < h.next) (hl : (h.obj d).l = some lis)
    (hr : (evolve N Reading).Rel h h') :
    (h'.obj d).l = some lis ∧ ∀ s, (h.obj d).s = some s → (h'.obj d).s = some s := by
  have hinv := evolve_invariant (I := fun h₁ => d < h₁.next ∧ (h₁.obj d).l = some lis ∧
    ∀ s, (h.obj d).s = some s → (h₁.obj d).s = some s) ?_ hr ⟨hlt, hl, fun _ => id⟩
  · exact hinv.2
  · rintro t h₁ h₂ rfl he ⟨hlt₁, hl₁, hs₁⟩
    refine ⟨Nat.lt_of_lt_of_le hlt₁ he.next_le, he.list_kept nofun nofun hlt₁ hl₁, fun s hs => ?_⟩
    exact he.str_kept nofun hlt₁ (hs₁ s hs)

/-- An operation that fails has changed neither the items nor the string of the dictionary. -/
theorem failed_kept {h' : Heap F} {v : Addr} (hlt : d < h.next) (hl : (h.obj d).l = some lis)
    (hfail : dictSet N d k v h = .fail h' ∨ dictUnset N d k h = .fail h' ∨ dictGet N d k h = .fail h') :
    (h'.obj d).l = some lis ∧ ∀ s, (h.obj d).s = some s → (h'.obj d).s = some s := by
  refine reading_kept (N := N) hlt hl ?_
  rcases hfail with hset | hunset | hget
  · exact (dictSet_ends (G := Anything) reading_conv d trivial trivial h).fail hset
  · exact (dictUnset_ends (G := Anything) reading_conv d k h).fail hunset
  · exact (dictGet_keeps reading_conv d k h).fail hget

/-! ### Runs -/

/-- A run of operations on the dictionary `d`, with keys that have the strings `str` in every
state, and the keys it has unset. Between two operations anything may happen that leaves
the items of `d` alone. -/
inductive DictRun (N : Num F) (d : Addr) (str : Addr → Option Bytes) (h₀ : Heap F) :
    List Bytes → Heap F → Prop
  | start (hst : Steady N str h₀) : DictRun N d str h₀ [] h₀
  | set {bs h h' k b v} (hr : DictRun N d str h₀ bs h) (hk : str k = some b)
      (hop : dictSet N d k v h = .ok () h') (hst : Steady N str h') : DictRun N d str h₀ bs h'
  | unset {bs h h' k b} (hr : DictRun N d str h₀ bs h) (hk : str k = some b)
      (hop : dictUnset N d k h = .ok () h') (hst : Steady N str h') : DictRun N d str h₀ (b :: bs) h'
  | other {bs h h'} (hr : DictRun N d str h₀ bs h) (hl : (h'.obj d).l = (h.obj d).l)
      (hnext : h.next ≤ h'.next) (hli : h.nextLi ≤ h'.nextLi) (hst : Steady N str h') :
      DictRun N d str h₀ bs h'

theorem DictRun.steady {h₀ : Heap F} {bs : List Bytes} (hr : DictRun N d str h₀ bs h) :
    Steady N str h := by
  cases hr with
  | start hst => exact hst
  | set _ _ _ hst => exact hst
  | unset _ _ _ hst => exact hst
  | other _ _ _ _ hst => exact hst

/-- A dictionary stays one, and the keys that were not unset keep their order. -/
theorem DictRun.dict {h₀ : Heap F} {bs : List Bytes} {lis₀ : List Litem} {m₀ : List ((_ : Bytes) × Addr)}
    (hr : DictRun N d str h₀ bs h) (hd₀ : Dict str h₀ d lis₀ m₀) :
    ∃ lis m, Dict str h d lis m ∧ (m₀.keys.filter (· ∉ bs)).Sublist m.keys := by
  induction hr with
  | start => exact ⟨lis₀, m₀, hd₀, List.filter_sublist⟩
  | @set bs h h' k b v hr hk hop hst ih =>
    obtain ⟨lis, m, hd, hsub⟩ := ih
    obtain ⟨h₁, lis', hok, hd'⟩ := dictSet_spec hd hr.steady hk v
    obtain ⟨-, rfl⟩ := Outcome.ok.inj (hop.symm.trans hok)
    exact ⟨lis', _, hd', hsub.trans (keys_sublist_upsert b v m)⟩
  | @unset bs h h' k b hr hk hop hst ih =>
    obtain ⟨lis, m, hd, hsub⟩ := ih
    obtain ⟨h₁, lis', hok, hd'⟩ := dictUnset_spec hd hr.steady hk
    obtain ⟨-, rfl⟩ := Outcome.ok.inj (hop.symm.trans hok)
    refine ⟨lis', _, hd', ?_⟩
    have hfilter : m₀.keys.filter (· ∉ b :: bs) = (m₀.keys.filter (· ∉ bs)).filter (· ≠ b) := by
      rw [List.filter_filter]
      refine List.filter_congr fun c _ => ?_
      simp [not_or]
    rw [hfilter]
    exact filter_sublist_kerase hd.keys hsub
  | other hr hl hnext hli hst ih =>
    obtain ⟨lis, m, hd, hsub⟩ := ih
    exact ⟨lis, m, hd.other hl hnext hli, hsub⟩

/-- `b6b_dict_get` answers `r`. -/
def Answers (N : Num F) (h : Heap F) (d k : Addr) (r : Option Addr) : Prop :=
  ∃ h', dictGet N d k h = .ok r h'

theorem Dict.answers_iff (hd : Dict str h d lis m) (hst : Steady N str h) (hk : str k = some b)
    (r : Option Addr) : Answers N h d k r ↔ r = m.dlookup b := by
  obtain ⟨h', hok⟩ := dictGet_spec hd hst hk
  refine ⟨fun ⟨h₁, hr⟩ => (Outcome.ok.inj (hr.symm.trans hok)).1, ?_⟩
  rintro rfl
  exact ⟨h', hok⟩

/-- `d` is a finite map from strings to objects: its keys are distinct, and setting or unsetting
a key is seen by that key alone. -/
structure FiniteMap (N : Num F) (d : Addr) (str : Addr → Option Bytes) (h : Heap F) : Prop where
  distinct : ∃ lis m, (h.obj d).l = some lis ∧ Pairs str lis m ∧ Even lis.length ∧ m.keys.Nodup
  set : ∀ k b v, str k = some b → ∃ h', dictSet N d k v h = .ok () h' ∧ (Steady N str h' →
    ∀ k' b' r, str k' = some b' →
      (Answers N h' d k' r ↔ if b' = b then r = some v else Answers N h d k' r))
  unset : ∀ k b, str k = some b → ∃ h', dictUnset N d k h = .ok () h' ∧ (Steady N str h' →
    ∀ k' b' r, str k' = some b' →
      (Answers N h' d k' r ↔ if b' = b then r = none else Answers N h d k' r))

theorem Dict.finiteMap (hd : Dict str h d lis m) (hst : Steady N str h) : FiniteMap N d str h where
  distinct := ⟨lis, m, hd.items, hd.pairs, hd.even, hd.keys⟩
  set k b v hk := by
    obtain ⟨h', lis', hok, hd'⟩ := dictSet_spec hd hst hk v
    refine ⟨h', hok, fun hst' k' b' r hk' => ?_⟩
    rw [hd'.answers_iff hst' hk', hd.answers_iff hst hk']
    by_cases hb : b' = b
    · rw [if_pos hb, hb, dlookup_upsert]
    · rw [if_neg hb, dlookup_upsert_ne v hb]
  unset k b hk := by
    obtain ⟨h', lis', hok, hd'⟩ := dictUnset_spec hd hst hk
    refine ⟨h', hok, fun hst' k' b' r hk' => ?_⟩
    rw [hd'.answers_iff hst' hk', hd.answers_iff hst hk']
    by_cases hb : b' = b
    · rw [if_pos hb, hb, List.dlookup_kerase b hd.keys]
    · rw [if_neg hb, List.dlookup_kerase_ne hb]

/-- **Dictionaries are finite maps.** What is reached from the empty list by setting and
unsetting keys whose strings do not change is a finite map, and the keys that are not unset
keep their order; and an operation that fails on a list of odd length leaves it as it is. -/
theorem dict_is_map (N : Num F) (d : Addr) :
    (∀ (str : Addr → Option Bytes) (h₀ h : Heap F) (bs : List Bytes), d < h₀.next →
      (h₀.obj d).l = some [] → DictRun N d str h₀ bs h → FiniteMap N d str h ∧
        ∀ (cs : List Bytes) (h' : Heap F), DictRun N d str h cs h' → ∃ lis m lis' m',
          (h.obj d).l = some lis ∧ Pairs str lis m ∧ (h'.obj d).l = some lis' ∧ Pairs str lis' m' ∧
            (m.keys.filter (· ∉ cs)).Sublist m'.keys) ∧
    ∀ (k v : Addr) (h h' : Heap F) (lis : List Litem), d < h.next → (h.obj d).l = some lis →
      ¬ Even lis.length →
        dictSet N d k v h = .fail h' ∨ dictUnset N d k h = .fail h' ∨ dictGet N d k h = .fail h' →
          (h'.obj d).l = some lis ∧ ∀ s, (h.obj d).s = some s → (h'.obj d).s = some s := by
  refine ⟨fun str h₀ h bs hlt hempty hr => ?_, fun k v h h' lis hlt hl _ => failed_kept hlt hl⟩
  have hd₀ : Dict str h₀ d [] [] :=
    ⟨hlt, hempty, .nil, Even.zero, List.nodupKeys_nil, List.nodup_nil, nofun⟩
  obtain ⟨lis, m, hd, -⟩ := hr.dict hd₀
  refine ⟨hd.finiteMap hr.steady, fun cs h' hr' => ?_⟩
  obtain ⟨lis', m', hd', hsub⟩ := hr'.dict hd
  exact ⟨lis, m, lis', m', hd.items, hd.pairs, hd'.items, hd'.pairs, hsub⟩

/-- An empty list and the strings `a` and `b`. -/
def mapHeap : Heap ℤ :=
  ((Heap.empty.push (.ofList [])).push (.ofStr (bytes "a"))).push (.ofStr (bytes "b"))

/-- The strings of the two string objects. -/
def mapStr (a : Addr) : Option Bytes :=
  if a = 1 then some (bytes "a") else if a = 2 then some (bytes "b") else none

theorem map_steady {h : Heap ℤ} (hnext : h.next = 3)
    (hlis : ∀ lis, (h.obj 0).l = some lis → ∀ li ∈ lis, li.o < 3)
    (hrest : (h.obj 1).l = none ∧ (h.obj 2).l = none ∧ ∀ a, (h.obj (a + 3)).l = none)
    (ha : (h.obj 1).s = some (bytes "a")) (hb : (h.obj 2).s = some (bytes "b")) :
    Steady wholeNum mapStr h where
  closed a c := by
    rintro ⟨lis, hl, li, hli, rfl⟩
    rw [hnext]
    obtain ⟨h1, h2, hrest⟩ := hrest
    rcases a with _ | _ | _ | a
    · exact ⟨by decide, hlis lis hl li hli⟩
    · cases h1.symm.trans hl
    · cases h2.symm.trans hl
    · cases (hrest a).symm.trans hl
  val a b hs := by
    unfold mapStr at hs
    rw [hnext]
    split at hs
    · subst_vars
      obtain rfl := Option.some.inj hs
      exact ⟨by decide, .str ha⟩
    · split at hs
      · subst_vars
        obtain rfl := Option.some.inj hs
        exact ⟨by decide, .str hb⟩
      · cases hs

/-- The empty list, with `b` under the key `a`. -/
def mapOne : Heap ℤ := (Op.state? (dictSet wholeNum 0 1 2 mapHeap)).getD mapHeap

/-- And with `a` under the key `b`. -/
def mapTwo : Heap ℤ := (Op.state? (dictSet wholeNum 0 2 1 mapOne)).getD mapHeap

/-- And with `b` under the key `b`. -/
def mapSame : Heap ℤ := (Op.state? (dictSet wholeNum 0 2 2 mapTwo)).getD mapHeap

/-- And without the key `a`. -/
def mapUnset : Heap ℤ := (Op.state? (dictUnset wholeNum 0 1 mapSame)).getD mapHeap

/-- The keys and values of `mapUnset`, and one more key. -/
def mapOdd : Heap ℤ := (Op.state? (listAdd 0 1 mapUnset)).getD mapHeap

/-- Keys that are set, set again and unset, and a list of odd length. -/
theorem dict_set_unset : (FiniteMap wholeNum 0 mapStr mapUnset ∧ ∃ lis m lis' m',
      (mapTwo.obj 0).l = some lis ∧ Pairs mapStr lis m ∧ (mapUnset.obj 0).l = some lis' ∧ Pairs mapStr lis' m' ∧
        (m.keys.filter (· ∉ [bytes "a"])).Sublist m'.keys) ∧
    ∃ h', dictUnset wholeNum 0 1 mapOdd = .fail h' ∧ (h'.obj 0).l = (mapOdd.obj 0).l := by
  have hlis {h : Heap ℤ} {lis₀ : List Litem} (hl : (h.obj 0).l = some lis₀) (hlt : ∀ li ∈ lis₀, li.o < 3) :
      ∀ lis, (h.obj 0).l = some lis → ∀ li ∈ lis, li.o < 3 := by
    intro lis hl'
    obtain rfl := Option.some.inj (hl.symm.trans hl')
    exact hlt
  have hst₀ := map_steady (h := mapHeap) rfl (hlis rfl nofun) ⟨rfl, rfl, fun _ => rfl⟩ rfl rfl
  have hst₁ := map_steady (h := mapOne) rfl (hlis rfl (by decide)) ⟨rfl, rfl, fun _ => rfl⟩ rfl rfl
  have hst₂ := map_steady (h := mapTwo) rfl (hlis rfl (by decide)) ⟨rfl, rfl, fun _ => rfl⟩ rfl rfl
  have hst₃ := map_steady (h := mapSame) rfl (hlis rfl (by decide)) ⟨rfl, rfl, fun _ => rfl⟩ rfl rfl
  have hst₄ := map_steady (h := mapUnset) rfl (hlis rfl (by decide)) ⟨rfl, rfl, fun _ => rfl⟩ rfl rfl
  have hset : DictRun wholeNum 0 mapStr mapHeap [] mapTwo :=
    ((DictRun.start hst₀).set (k := 1) rfl rfl hst₁).set (k := 2) rfl rfl hst₂
  have hunset : DictRun wholeNum 0 mapStr mapTwo [bytes "a"] mapUnset :=
    ((DictRun.start hst₂).set (k := 2) rfl rfl hst₃).unset (k := 1) rfl rfl hst₄
  have hall : DictRun wholeNum 0 mapStr mapHeap [bytes "a"] mapUnset :=
    (hset.set (k := 2) rfl rfl hst₃).unset (k := 1) rfl rfl hst₄
  obtain ⟨hmaps, hfails⟩ := dict_is_map wholeNum 0
  refine ⟨⟨(hmaps mapStr mapHeap mapUnset _ (by decide) rfl hall).1,
    (hmaps mapStr mapHeap mapTwo [] (by decide) rfl hset).2 _ mapUnset hunset⟩, _, rfl, ?_⟩
  exact (hfails 1 0 mapOdd _ _ (by decide) rfl (by decide) (.inr (.inl rfl))).1

end B6b
