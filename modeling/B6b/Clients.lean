/-
# Clients see nothing of what is freed

Whatever a fair client calls, the memory stays sound and the client is told what it would be told if
no object were ever freed (`act_tracks`). `b6b_dict_set` is the one that needs care: it gives up the
old value while the item still names it, so the item names a freed object until `vli->o = v`. The
dictionary and the new value are still there then, as both can be reached without the items of the
dictionary (`setItem_tracks`).

A run then never sees what freed objects become (`freeing_unseen`), its counts are exact in every
state (`counts_exact`), and what it keeps is what can be reached or hangs on a circle
(`kept_iff_reached`).

Key definitions: `Past`, `Good`.
-/
import B6b.Freeing
import B6b.Extend

namespace B6b

namespace Refs

open Refcount Relation

variable {F α : Type} {N : Num F} {junk : Addr → Obj F} {m m' : Mem F} {h h' : Heap F}
  {R R' : List Addr} {a d k l l2 o v : Addr}

/-! ### Lists -/

theorem grow_self (m : Mem F) : m.grow m.heap = m := by
  have hrefc : (m.grow m.heap).refc = m.refc := by
    funext a
    exact if_neg fun ha => absurd ha.2 (Nat.not_lt.mpr ha.1)
  unfold Mem.grow at hrefc ⊢
  dsimp only at hrefc
  rw [hrefc]

theorem lift_ok {x : Op (Heap F) α} {a : α} {k : Heap F} (hx : x m.heap = .ok a k) :
    Mem.lift x m = .ok a (m.grow k) := by
  unfold Mem.lift
  rw [hx]

/-- The new item is all that changes on the heap. -/
theorem listDoAdd_only {h h' : Heap F} (hrun : B6b.listDoAdd l o h = .ok () h') :
    h'.next = h.next ∧ ∀ b, b ≠ l → h'.obj b = h.obj b := by
  obtain ⟨lis, h₁, hitems, -⟩ := Op.bind_eq_ok.mp hrun
  obtain ⟨rfl, hlt, hlis⟩ := (items_returns l h).ok hitems
  obtain ⟨h₂, hok, hre, hold⟩ := listDoAdd_ok o hlt hlis
  obtain rfl : h₂ = h' := by
    rw [hok] at hrun
    cases hrun
    rfl
  exact ⟨hre.next, hold⟩

theorem tracks_listDoAdd (hs : Sound R m) (hl : Like m h) (hlp : 0 < m.refc l) (ho : 0 < m.refc o)
    (hroom : m.refc o < refMax) : Tracks (Mem.listDoAdd l o) (B6b.listDoAdd l o) m h
      (fun _ m' => Sound R m' ∧ Kept m m' ∧ Takes [o] m m' ∧ ∀ b, b ≠ l → m'.heap.obj b = m.heap.obj b) R := by
  obtain ⟨m₁, hrun, hs₁, hl₁, hk₁, hheap, ht₁⟩ := ref_sound hs hl ho hroom
  refine tracks_bind_left hrun ?_
  have hheld : m₁.held = m.held := by
    unfold Mem.held
    rw [hheap]
  have hs₂ : Sound (o :: R) m₁ := by
    unfold Sound
    rwa [hheld]
  refine (tracks_lift hs₂ hl₁ (blind_listDoAdd (not_dead (hk₁ l hlp)) (not_dead (hk₁ o ho)))
    (listDoAdd_leaves hs₂ (hk₁ l hlp))).mono ?_
  rintro _ m' ⟨-, hok, hm', hs'⟩
  obtain ⟨hnext, hold⟩ := listDoAdd_only hok
  have hrefc : m'.refc = m₁.refc := by
    rw [hm']
    funext a
    exact if_neg fun ha => absurd ha.2 (Nat.not_lt.mpr (hnext ▸ ha.1))
  refine ⟨hs', hk₁.trans (hm' ▸ kept_grow _), fun a => ?_, fun b hb => ?_⟩
  · rw [hrefc]
    exact ht₁ a
  · rw [hold b hb, hheap]

theorem tracks_listFlush (hs : Sound R m) (hl : Like m h) (hlp : 0 < m.refc l) :
    Tracks (Mem.lift (listFlush l)) (listFlush l) m h (fun _ m' => Sound R m' ∧ Unmoved m m') R :=
  (tracks_conv hs hl (blind_listFlush (not_dead hlp)) (listFlush_unmoved l)).mono
    fun _ _ hq => ⟨hq.2.2.2, hq.2.2.1⟩

theorem tracks_listAdd (hs : Sound R m) (hl : Like m h) (hlp : 0 < m.refc l) (ho : 0 < m.refc o)
    (hroom : m.refc o < refMax) : Tracks (Mem.listAdd l o) (B6b.listAdd l o) m h
      (fun _ m' => Sound R m' ∧ Kept m m' ∧ Takes [o] m m') R := by
  refine tracks_bind (tracks_listDoAdd hs hl hlp ho hroom) ?_
  rintro _ m₁ h₁ ⟨hs₁, hk₁, ht₁, -⟩ hl₁
  refine (tracks_listFlush hs₁ hl₁ (hk₁ l hlp)).mono fun _ m₂ hq => ⟨hq.1, hk₁.trans hq.2.kept, ?_⟩
  intro a
  rw [hq.2.refc]
  exact ht₁ a

/-- The items of an object with a count have one. -/
theorem tracks_items (hs : Sound R m) (hl : Like m h) (hlp : 0 < m.refc l) :
    Tracks (Mem.lift (items l)) (items l) m h (fun lis m' => Unmoved m m' ∧ Sound R m' ∧
      (m.heap.obj l).l = some lis ∧ ∀ li ∈ lis, 0 < m.refc li.o) R := by
  refine (tracks_conv hs hl (blind_items (not_dead hlp)) (items_unmoved l)).mono ?_
  rintro lis m' ⟨-, hrun, hu, hs'⟩
  obtain ⟨-, -, hlis⟩ := (items_returns l m.heap).ok hrun
  refine ⟨hu, hs', hlis, fun li hli => hs.exact.pos_of_held hlp ?_⟩
  refine List.mem_append_left _ ?_
  rw [hlis]
  exact List.mem_map_of_mem hli

/-- The items from `k` on are counted, as long as the list is another one than that they go into. -/
theorem tracks_listExtendFrom (hne : l2 ≠ l) {lis : List Litem} : ∀ (fuel k : ℕ) {m : Mem F} {h : Heap F},
    Sound R m → Like m h → 0 < m.refc l → 0 < m.refc l2 → (m.heap.obj l2).l = some lis →
      m.Room ((lis.drop k).map (·.o)) → Tracks (Mem.listExtendFrom l l2 fuel k)
        (B6b.listExtendFrom l l2 fuel k) m h (fun _ m' => Sound R m' ∧ Kept m m') R
  | 0, _, _, _, _, _, _, _, _, _ => Op.twin_crash
  | fuel + 1, k, m, h, hs, hl, hlp, hlp2, hlis, hroom => by
    refine tracks_bind (tracks_items hs hl hlp2) ?_
    rintro lis' m₁ h₁ ⟨hu, hs₁, hlis', hpos⟩ hl₁
    obtain rfl : lis = lis' := Option.some.inj (hlis.symm.trans hlis')
    rcases hk : lis[k]? with _ | li
    · exact tracks_pure hl₁ ⟨hs₁, hu.kept⟩
    · have ho : 0 < m₁.refc li.o := hu.kept _ (hpos li (List.mem_of_getElem? hk))
      have hdrop : (lis.drop k).map (·.o) = [li.o] ++ (lis.drop (k + 1)).map (·.o) := by
        obtain ⟨hlt, hget⟩ := List.getElem?_eq_some_iff.mp hk
        rw [List.drop_eq_getElem_cons hlt, hget]
        rfl
      rw [hdrop] at hroom
      have hroom₁ : m₁.Room ([li.o] ++ (lis.drop (k + 1)).map (·.o)) := hroom.rest [] hu.takes
      refine tracks_bind (tracks_listDoAdd hs₁ hl₁ (hu.kept l hlp) ho hroom₁.lt) ?_
      rintro _ m₂ h₂ ⟨hs₂, hk₂, ht₂, hold⟩ hl₂
      have hkept : Kept m m₂ := hu.kept.trans hk₂
      have hlis₂ : (m₂.heap.obj l2).l = some lis := by rw [hold l2 hne, (hu.heap.2.2 l2).1, hlis]
      exact (tracks_listExtendFrom hne fuel (k + 1) hs₂ hl₂ (hkept l hlp) (hkept l2 hlp2) hlis₂
        (hroom₁.rest _ ht₂)).mono fun _ _ hq => ⟨hq.1, hkept.trans hq.2⟩

/-- `b6b_ref` takes a reference, or the count cannot be. -/
theorem ref_cases (a : Addr) (m : Mem F) :
    Mem.ref a m = .crash ∨ ∃ m', Mem.ref a m = .ok a m' ∧ m'.heap = m.heap := by
  unfold Mem.ref
  split_ifs
  · exact .inl rfl
  · exact .inr ⟨_, rfl, rfl⟩

/-- A list that is extended with itself gets longer with every turn, until a count is at its end. -/
theorem listExtendFrom_self : ∀ (fuel k : ℕ) {m : Mem F} {lis : List Litem}, l < m.heap.next →
    (m.heap.obj l).l = some lis → k < lis.length → Mem.listExtendFrom l l fuel k m = .crash
  | 0, _, _, _, _, _, _ => rfl
  | fuel + 1, k, m, lis, hlt, hlis, hk => by
    unfold Mem.listExtendFrom
    rw [Op.bind_ok (lift_ok (items_ok hlt hlis)), List.getElem?_eq_getElem hk]
    dsimp only
    unfold Mem.listDoAdd
    rw [Op.bind_apply, Op.bind_apply]
    rcases ref_cases lis[k].o (m.grow m.heap) with hcrash | ⟨m₁, hrun, hheap⟩
    · rw [hcrash]
    · rw [hrun]
      have hlt₁ : l < m₁.heap.next := hheap ▸ hlt
      have hlis₁ : (m₁.heap.obj l).l = some lis := by
        rw [hheap]
        exact hlis
      obtain ⟨k₁, hadd, hre, -⟩ := listDoAdd_ok lis[k].o hlt₁ hlis₁
      dsimp only
      rw [lift_ok hadd]
      refine listExtendFrom_self fuel (k + 1) (m := m₁.grow k₁) (hre.next ▸ hlt₁) hre.items ?_
      rw [List.length_append, List.length_singleton]
      exact Nat.succ_lt_succ hk

theorem tracks_listExtend (hs : Sound R m) (hl : Like m h) (hlp : 0 < m.refc l) (hlp2 : 0 < m.refc l2)
    (hroom : m.Room (((m.heap.obj l2).l.getD []).map (·.o))) :
    Tracks (Mem.listExtend l l2) (B6b.listExtend l l2) m h (fun _ m' => Sound R m') R := by
  refine tracks_bind (tracks_items hs hl hlp2) ?_
  rintro lis m₁ h₁ ⟨hu, hs₁, hlis, -⟩ hl₁
  have hlp₁ : 0 < m₁.refc l := hu.kept l hlp
  have hlp2₁ : 0 < m₁.refc l2 := hu.kept l2 hlp2
  have hlis₁ : (m₁.heap.obj l2).l = some lis := by rw [(hu.heap.2.2 l2).1, hlis]
  have hwalk : Tracks (Mem.listExtendFrom l l2 (lis.length + 1) 0)
      (B6b.listExtendFrom l l2 (lis.length + 1) 0) m₁ h₁ (fun _ m' => Sound R m' ∧ Kept m₁ m') R := by
    by_cases heq : l2 = l
    · subst heq
      have hlis' : (h₁.obj l2).l = some lis := by rw [hl₁.obj l2 hlp2₁, hlis₁]
      have hlist : Extend.IsList h₁ l2 lis := ⟨hl₁.next ▸ hs₁.lt hlp2₁, hlis'⟩
      rcases Nat.eq_zero_or_pos lis.length with hnil | hpos
      · -- there is nothing to add
        have hget : lis[0]? = none := List.getElem?_eq_none (Nat.le_of_eq hnil)
        have hrun : Mem.listExtendFrom l2 l2 (lis.length + 1) 0 m₁ = .ok () m₁ := by
          unfold Mem.listExtendFrom
          rw [Op.bind_ok (lift_ok (items_ok (hs₁.lt hlp2₁) hlis₁)), grow_self, hget]
          rfl
        exact Op.twin_ok hrun (Extend.listExtendFrom_nil _ hlist hget) ⟨rfl, hl₁, hs₁, Kept.refl _⟩
      · have hcrash := Extend.listExtendFrom_self (lis.length + 1) 0 hlist hpos
        have hcrash' := listExtendFrom_self (lis.length + 1) 0 (hs₁.lt hlp2₁) hlis₁ hpos
        unfold Tracks Op.Twin
        rw [hcrash, hcrash']
        trivial
    · refine tracks_listExtendFrom heq _ 0 hs₁ hl₁ hlp₁ hlp2₁ hlis₁ ?_
      rw [hlis] at hroom
      exact hroom.rest [] hu.takes
  refine tracks_bind hwalk ?_
  rintro _ m₂ h₂ ⟨hs₂, hk₂⟩ hl₂
  exact (tracks_listFlush hs₂ hl₂ (hk₂ l hlp₁)).mono fun _ _ hq => hq.1

theorem tracks_listPop {li : Option Litem} (hs : Sound R m) (hl : Like m h) (hlp : 0 < m.refc l)
    (hli : ∀ x, li = some x → ∃ lis, (m.heap.obj l).l = some lis ∧ x ∈ lis) :
    Tracks (Mem.listPop l li) (B6b.listPop l li) m h (fun o m' => B6b.listPop l li m.heap = .ok o m'.heap ∧
      Sound (o :: R) m' ∧ Kept m m') R := by
  have hblind : Blind m.Dead (B6b.listPop l li : Op (Heap F) Addr) fun o => ¬ m.Dead o := by
    refine blind_listPop (not_dead hlp) fun x hx => not_dead (hs.exact.pos_of_held hlp ?_)
    obtain ⟨lis, hlis, hmem⟩ := hli x hx
    refine List.mem_append_left _ ?_
    rw [hlis]
    exact List.mem_map_of_mem hmem
  refine (tracks_lift hs hl hblind (listPop_leaves hs hlp hli)).mono ?_
  rintro o m' ⟨-, hrun, hm', hs'⟩
  exact ⟨hrun, hs', hm' ▸ kept_grow _⟩

/-! ### Dictionaries -/

/-- What can be reached without what `d` holds has a count as long as no other object changes. -/
theorem pos_past {r : Addr} (hs : Sound R m') (hr : r ∈ R)
    (hheld : ∀ b, b ≠ d → 0 < m'.refc b → m'.held b = m.held b)
    (hpath : ReflTransGen (fun b c => b ≠ d ∧ c ∈ m.held b) r a) : 0 < m'.refc a := by
  induction hpath with
  | refl => exact hs.exact.pos_of_mem hr
  | @tail b c _ hedge ih =>
    refine hs.exact.pos_of_held ih ?_
    rw [hheld b hedge.1 ih]
    exact hedge.2

/-- `vli->o = v` -/
theorem setItem_apply {lis : List Litem} (vli : Litem) (v : Addr) (hlt : d < h.next)
    (hlis : (h.obj d).l = some lis) :
    setItem d vli v h = .ok () (h.set d ((h.obj d).withItems
      (lis.map fun li => if li = vli then { li with o := v } else li))) :=
  Op.bind_ok (items_ok hlt hlis) _

/-- The objects of the items where one names another object. -/
theorem perm_setItem {lis : List Litem} {vli : Litem} (v : Addr) (hnd : lis.Nodup) (hvli : vli ∈ lis) :
    ((lis.map fun li => if li = vli then { li with o := v } else li).map (·.o)).Perm
      (v :: (lis.erase vli).map (·.o)) := by
  have hrest : (lis.erase vli).map (fun li => if li = vli then { li with o := v } else li) =
      lis.erase vli :=
    (List.map_congr_left fun li hli => if_neg (hnd.mem_erase_iff.mp hli).1).trans (List.map_id _)
  have hperm := ((List.perm_cons_erase hvli).map
    fun li => if li = vli then { li with o := v } else li).map (·.o)
  rwa [List.map_cons, if_pos rfl, hrest] at hperm

theorem map_id_setItem (lis : List Litem) (vli : Litem) (v : Addr) :
    (lis.map fun li => if li = vli then { li with o := v } else li).map (·.id) = lis.map (·.id) := by
  rw [List.map_map]
  refine List.map_congr_left fun li _ => ?_
  show (if li = vli then { li with o := v } else li).id = li.id
  split <;> rfl

/-- `a` can be reached from `R` without what `d` holds. -/
def Past (m : Mem F) (R : List Addr) (d a : Addr) : Prop :=
  ∃ r ∈ R, ReflTransGen (fun b c => b ≠ d ∧ c ∈ m.held b) r a

theorem Past.pos (hp : Past m R d a) (hs : Sound R m) : 0 < m.refc a := by
  obtain ⟨r, hr, hpath⟩ := hp
  exact pos_past hs hr (fun _ _ _ => rfl) hpath

theorem Past.unmoved (hp : Past m R d a) (hu : Unmoved m m') : Past m' R d a := by
  unfold Past
  rw [hu.held]
  exact hp

/-- The same object takes its place on both heaps. -/
theorem like_set (hl : Like m h) (o : Obj F) : Like (m.grow (m.heap.set d o)) (h.set d o) where
  next := hl.next
  nextLi := hl.nextLi
  obj a ha := by
    by_cases had : a = d
    · subst had
      exact (h.set_obj_self a o).trans (m.heap.set_obj_self a o).symm
    · have hold : 0 < m.refc a := by
        unfold Mem.grow at ha
        dsimp only at ha
        rwa [if_neg fun hb => absurd hb.2 (Nat.not_lt.mpr hb.1)] at ha
      exact (h.set_obj_of_ne o had).trans ((hl.obj a hold).trans (m.heap.set_obj_of_ne o had).symm)

/-- `b6b_dict_set` where there is the key: the old value goes, and the item names it until it names
the new one. -/
theorem tracks_setItem {lis : List Litem} {vli : Litem} (hs : Sound R m) (hl : Like m h)
    (hd : Past m R d d) (hv : Past m R d v) (hroom : m.refc v < refMax)
    (hlis : (m.heap.obj d).l = some lis) (hvli : vli ∈ lis) :
    Tracks (do
        Mem.unref junk vli.o
        let v ← Mem.ref v
        Mem.lift (setItem d vli v)
        Mem.lift (listFlush d))
      (do
        setItem d vli v
        listFlush d) m h (fun _ m' => Sound R m') R := by
  have hdp : 0 < m.refc d := hd.pos hs
  obtain ⟨hnd, hid⟩ := hs.items d hdp lis hlis
  have hmem : vli.o ∈ m.held d := by
    refine List.mem_append_left _ ?_
    rw [hlis]
    exact List.mem_map_of_mem hvli
  -- the reference in the item is given up, so the dictionary does not hold it any more
  have hx : Exact (Finset.range m.heap.next) (Function.update m.held d ((m.held d).erase vli.o))
      m.refc (vli.o :: R) := by
    refine hs.exact.exchange hdp (fun b hb => Function.update_of_ne hb _ _) fun c => ?_
    have hperm := (List.perm_cons_erase hmem).count_eq c
    rw [List.count_cons] at hperm
    rw [Function.update_self, List.count_cons, hperm]
    omega
  obtain ⟨c, hrun, hx', hf⟩ := unref_exact (c := ⟨m.refc, []⟩) hx (card_live_lt m)
  have hpos : ∀ {a}, Past m R d a → 0 < c.refc a := by
    rintro a ⟨r, hr, hpath⟩
    refine hx'.pos_of_path (d := d) hr (ReflTransGen.mono ?_ _ _ hpath)
    rintro b b' ⟨hb, hheld⟩
    refine ⟨hb, ?_⟩
    rwa [Function.update_of_ne hb]
  have hrun' : Refcount.unref m.held (m.heap.next + 1) vli.o ⟨m.refc, []⟩ = .ok () c :=
    unref_congr (fun b hb => (Function.update_of_ne hb _ _).symm) hrun (hpos hd)
  have hfree : Mem.unref junk vli.o m = .ok () (m.free junk c) := by
    unfold Mem.unref
    rw [hrun']
  refine tracks_bind_left hfree ?_
  have hs₁ : SoundFor (Function.update (m.free junk c).held d ((m.held d).erase vli.o)) R
      (m.free junk c) := by
    refine sound_free hs (hx'.congr fun b hb => ?_) hf
    by_cases hbd : b = d
    · subst hbd
      rw [Function.update_self, Function.update_self]
    · rw [Function.update_of_ne hbd, Function.update_of_ne hbd]
      exact congrArg Obj.held (free_obj hf hb)
  obtain ⟨m₂, hrun₂, hs₂, hl₂, hk₂, hheap, -⟩ :=
    ref_sound hs₁ (like_free junk hl hf) (hpos hv) (Nat.lt_of_le_of_lt (hf.le v) hroom)
  refine tracks_bind_left hrun₂ ?_
  have hobj : m₂.heap.obj d = m.heap.obj d := by
    rw [hheap]
    exact free_obj hf (hpos hd)
  have hdp₂ : 0 < m₂.refc d := hk₂ d (hpos hd)
  have hobj' : h.obj d = m.heap.obj d := (hl₂.obj d hdp₂).trans hobj
  have hlt : d < m₂.heap.next := hs₂.lt hdp₂
  have hset := setItem_apply vli v hlt (by rw [hobj, hlis])
  have hset' := setItem_apply (h := h) vli v (hl₂.next ▸ hlt) (by rw [hobj', hlis])
  rw [hobj] at hset
  rw [hobj'] at hset'
  refine tracks_bind (P := fun _ m' => Sound R m' ∧ 0 < m'.refc d) ?_ ?_
  · refine Op.twin_ok (lift_ok hset) hset' ⟨rfl, like_set hl₂ _, ?_, ?_⟩
    · refine hs₂.change (n := m₂.heap.nextLi) hdp₂ (fun b hb => ?_) (Nat.le_refl _) rfl ?_ ?_ fun c' => ?_
      · rw [Function.update_of_ne hb]
        exact congrArg (fun h' : Heap F => (h'.obj b).held) hheap.symm
      · rwa [map_id_setItem]
      · intro li hli
        rw [hheap]
        obtain ⟨x, hx, rfl⟩ := List.mem_map.mp hli
        have hlt' : x.id < m.heap.nextLi := hid x hx
        split
        · exact hlt'
        · exact hlt'
      · have hperm := (perm_setItem v (hnd.of_map _) hvli).count_eq c'
        have hold := ((List.perm_cons_erase hvli).map (·.o)).count_eq c'
        have herase := (List.perm_cons_erase hmem).count_eq c'
        have hheld : (m.held d).count c' = _ := held_count hlis c'
        rw [List.count_cons] at hperm herase
        rw [List.map_cons, List.count_cons] at hold
        rw [Function.update_self, held_count_withItems, List.count_cons, hperm]
        omega
    · exact kept_grow _ d hdp₂
  · rintro _ m₃ h₃ ⟨hs₃, hdp₃⟩ hl₃
    exact (tracks_listFlush hs₃ hl₃ hdp₃).mono fun _ _ hq => hq.1

theorem tracks_objHash (hs : Sound R m) (hl : Like m h) (ha : 0 < m.refc a) :
    Tracks (Mem.lift (objHash N a)) (objHash N a) m h (fun _ m' => Unmoved m m' ∧ Sound R m') R :=
  (tracks_conv hs hl (blind_objHash (not_dead ha)) (objHash_unmoved a)).mono fun _ _ hq => hq.2.2

theorem tracks_dictSet (hs : Sound R m) (hl : Like m h) (hd : Past m R d d) (hk : 0 < m.refc k)
    (hv : Past m R d v) (hroom : m.Room [k, v]) :
    Tracks (Mem.dictSet N junk d k v) (B6b.dictSet N d k v) m h (fun _ m' => Sound R m') R := by
  refine tracks_bind (tracks_objHash hs hl hk) ?_
  rintro _ m₁ h₁ ⟨hu₁, hs₁⟩ hl₁
  refine tracks_bind (tracks_items hs₁ hl₁ (hu₁.kept d (hd.pos hs))) ?_
  rintro lis m₂ h₂ ⟨hu₂, hs₂, hlis, hpos⟩ hl₂
  have hkp : 0 < m₂.refc k := (hu₁.trans hu₂).kept k hk
  refine tracks_bind (tracks_conv hs₂ hl₂ (blind_dictSetSeek (not_dead hkp) lis fun li hli =>
    not_dead (hu₂.kept _ (hpos li hli))) (dictSetSeek_unmoved k lis)) ?_
  rintro r m₃ h₃ ⟨hr, -, hu₃, hs₃⟩ hl₃
  have hu : Unmoved m m₃ := (hu₁.trans hu₂).trans hu₃
  rcases r with _ | vli
  · have hdp : 0 < m₃.refc d := hu.kept d (hd.pos hs)
    have hroom₃ : m₃.Room ([k] ++ [v]) := hroom.rest [] hu.takes
    refine tracks_bind (tracks_listAdd hs₃ hl₃ hdp (hu.kept k hk) hroom₃.lt) ?_
    rintro _ m₄ h₄ ⟨hs₄, hk₄, ht₄⟩ hl₄
    exact (tracks_listAdd hs₄ hl₄ (hk₄ d hdp) (hk₄ v (hu.kept v (hv.pos hs)))
      (hroom₃.rest _ ht₄).lt).mono fun _ _ hq => hq.1
  · have hlis₃ : (m₃.heap.obj d).l = some lis := by
      rw [((hu₂.trans hu₃).heap.2.2 d).1, hlis]
    have hroom₃ : m₃.Room [v] := hroom.rest [k] hu.takes
    exact tracks_setItem hs₃ hl₃ (hd.unmoved hu) (hv.unmoved hu) hroom₃.lt hlis₃ (hr vli rfl)

/-- What a pop leaves: the other items, and all other objects. -/
theorem listPop_popped {li : Litem} {lis : List Litem} {k : Heap F} (hlis : (m.heap.obj l).l = some lis)
    (hlt : l < m.heap.next) (hrun : B6b.listPop l (some li) m.heap = .ok o k) :
    (k.obj l).l = some (lis.erase li) ∧ ∀ b, b ≠ l → k.obj b = m.heap.obj b := by
  obtain ⟨k', hok, hre⟩ := listPop_ok li hlt hlis
  obtain ⟨-, rfl⟩ : li.o = o ∧ k' = k := by
    rw [hok] at hrun
    cases hrun
    exact ⟨rfl, rfl⟩
  refine ⟨hre.items, fun b hb => ?_⟩
  obtain ⟨n, _, lis', -, -, -, rfl⟩ := (listPop_returns (G := Anything) l li m.heap).ok hok
  exact Heap.set_obj_of_ne _ _ hb

theorem tracks_unref (hs : Sound (a :: R) m) (hl : Like m h) :
    Tracks (Mem.unref junk a) (pure ()) m h (fun _ m' => Sound R m') R' := by
  obtain ⟨m', hrun, hs', hl', -, -⟩ := unref_sound junk hs hl
  exact Op.twin_ok hrun rfl ⟨rfl, hl', hs'⟩

theorem tracks_dictUnset (hs : Sound R m) (hl : Like m h) (hd : Past m R d d) (hk : 0 < m.refc k) :
    Tracks (Mem.dictUnset N junk d k) (B6b.dictUnset N d k) m h (fun _ m' => Sound R m') R := by
  refine tracks_bind (tracks_objHash hs hl hk) ?_
  rintro _ m₁ h₁ ⟨hu₁, hs₁⟩ hl₁
  refine tracks_bind (tracks_items hs₁ hl₁ (hu₁.kept d (hd.pos hs))) ?_
  rintro lis m₂ h₂ ⟨hu₂, hs₂, hlis, hpos⟩ hl₂
  have hkp : 0 < m₂.refc k := (hu₁.trans hu₂).kept k hk
  refine tracks_bind (tracks_conv hs₂ hl₂ (blind_dictSeek (not_dead hkp) lis fun li hli =>
    not_dead (hu₂.kept _ (hpos li hli))) (dictSeek_unmoved k lis)) ?_
  rintro r m₃ h₃ ⟨hr, -, hu₃, hs₃⟩ hl₃
  have hu : Unmoved m m₃ := (hu₁.trans hu₂).trans hu₃
  rcases r with _ | ⟨kli, vli⟩
  · exact tracks_pure hl₃ hs₃
  · have hd₃ : Past m₃ R d d := hd.unmoved hu
    have hdp : 0 < m₃.refc d := hd₃.pos hs₃
    have hlis₃ : (m₃.heap.obj d).l = some lis := by
      rw [((hu₂.trans hu₃).heap.2.2 d).1, hlis]
    have hsub : [kli, vli].Sublist lis := hr _ rfl
    have hkli : kli ∈ lis := hsub.subset List.mem_cons_self
    have hnd : lis.Nodup := (hs₃.items d hdp lis hlis₃).1.of_map _
    have hvli : vli ∈ lis.erase kli := by
      refine hnd.mem_erase_iff.mpr ⟨?_, hsub.subset (List.mem_cons_of_mem _ List.mem_cons_self)⟩
      rintro rfl
      exact (List.nodup_cons.mp (hsub.nodup hnd)).1 List.mem_cons_self
    refine tracks_bind (tracks_listPop hs₃ hl₃ hdp fun x hx => ⟨lis, hlis₃, Option.some.inj hx ▸ hkli⟩) ?_
    rintro x m₄ h₄ ⟨hrun, hs₄, hk₄⟩ hl₄
    obtain ⟨hlis₄, hobj₄⟩ := listPop_popped hlis₃ (hs₃.lt hdp) hrun
    obtain ⟨m₅, hfree, hs₅, hl₅, -, hobj₅⟩ := unref_sound junk hs₄ hl₄
    refine tracks_bind_left hfree ?_
    have hdp₅ : 0 < m₅.refc d := by
      obtain ⟨r, hr, hpath⟩ := hd₃
      refine pos_past hs₅ hr (fun b hb hpos => ?_) hpath
      refine congrArg Obj.held ?_
      rw [(hobj₅ b hpos).2, hobj₄ b hb]
    have hlis₅ : (m₅.heap.obj d).l = some (lis.erase kli) := by
      rw [(hobj₅ d hdp₅).2, hlis₄]
    refine tracks_bind (tracks_listPop hs₅ hl₅ hdp₅ fun x hx =>
      ⟨_, hlis₅, Option.some.inj hx ▸ hvli⟩) ?_
    rintro y m₆ h₆ ⟨-, hs₆, -⟩ hl₆
    exact tracks_unref hs₆ hl₆

/-! ### Calls -/

theorem tracks_map {β : Type} {x : Op (Mem F) α} {y : Op (Heap F) α} {P : α → Mem F → Prop}
    {P' : β → Mem F → Prop} (g : α → β) (hx : Tracks x y m h P R') (hp : ∀ a m', P a m' → P' (g a) m') :
    Tracks (Op.map g x) (Op.map g y) m h P' R' :=
  tracks_bind hx fun a m' _ hq hl => tracks_pure hl (hp a m' hq)

theorem tracks_newProc {n : Bytes} {body priv : Addr} (hs : Sound R m) (hl : Like m h)
    (hb : 0 < m.refc body) (hp : 0 < m.refc priv) (hroom : m.Room [body, priv]) : Tracks (Mem.newProc n body priv)
      (alloc ((Obj.ofStr n).withProc (.user body priv))) m h (fun a m' => Sound (a :: R) m') R' := by
  obtain ⟨m₁, hrun₁, hs₁, hl₁, hk₁, hheap₁, ht₁⟩ := ref_sound hs hl hb hroom.lt
  have hroom₁ : m₁.Room [priv] := hroom.rest [body] ht₁
  obtain ⟨m₂, hrun₂, hs₂, hl₂, hk₂, hheap₂, -⟩ := ref_sound hs₁ hl₁ (hk₁ priv hp) hroom₁.lt
  refine tracks_bind_left hrun₁ (tracks_bind_left hrun₂ ?_)
  have hs₃ : Sound (priv :: body :: R) m₂ := by
    have hheld : m₂.held = m.held := by
      unfold Mem.held
      rw [hheap₂, hheap₁]
    unfold Sound
    rwa [hheld]
  have hblind : Blind m₂.Dead (alloc ((Obj.ofStr n).withProc (.user body priv)) : Op (Heap F) Addr)
      fun a => ¬ m₂.Dead a :=
    blind_alloc fun c hc => not_dead (hs₃.exact.pos_of_mem (List.mem_append_left R hc))
  have hleaves : Leaves (alloc ((Obj.ofStr n).withProc (.user body priv)) : Op (Heap F) Addr) m₂
      (fun a => a :: R) R' :=
    leaves_alloc hs₃ fun _ hlis => nomatch hlis
  refine (tracks_lift hs₃ hl₂ hblind hleaves).mono ?_
  rintro a m' ⟨-, -, -, hs'⟩
  exact hs'

theorem Past.of_reaches {s : Client F} (hr : s.Reaches d) : Past s.mem s.roots d d := by
  obtain ⟨r, hr, hpath⟩ := hr
  exact ⟨r, hr, ReflTransGen.mono (fun b _ hb => ⟨hb.1, hb.2.2⟩) _ _ (path_past hpath)⟩

theorem Past.of_reachesPast {s : Client F} (hr : s.ReachesPast d a) : Past s.mem s.roots d a := by
  obtain ⟨r, hr, hpath⟩ := hr
  exact ⟨r, hr, ReflTransGen.mono (fun b _ hb => ⟨hb.1, hb.2.2⟩) _ _ hpath⟩

variable {s : Client F} {x : Act F}

/-- A call of a fair client ends like the same call where no object is freed, and leaves the memory
sound for the references the client has then. -/
theorem act_tracks (hs : Sound s.roots s.mem) (hl : Like s.mem h) (hfair : s.Fair (x, junk)) :
    Tracks (x.run N junk) (x.plain N) s.mem h (fun r m' => Sound (x.after s.roots (some r)) m')
      (x.after s.roots none) := by
  have hpos : ∀ {a}, s.Reaches a → 0 < s.mem.refc a := hs.exact.pos_of_reached
  have hdead : ∀ {a}, s.Reaches a → ¬ s.mem.Dead a := fun hr => not_dead (hpos hr)
  obtain ⟨hf, hroom⟩ := hfair
  cases x with
  | newStr b =>
    have hu : Leaves (alloc (.ofStr b)) s.mem (fun a => a :: s.roots) s.roots := leaves_alloc hs nofun
    exact tracks_map _ (tracks_lift hs hl (blind_alloc nofun) hu) fun _ _ hq => hq.2.2.2
  | newInt i =>
    have hu : Leaves (alloc (.ofInt i)) s.mem (fun a => a :: s.roots) s.roots := leaves_alloc hs nofun
    exact tracks_map _ (tracks_lift hs hl (blind_alloc nofun) hu) fun _ _ hq => hq.2.2.2
  | newFloat f =>
    have hu : Leaves (alloc (.ofFloat f)) s.mem (fun a => a :: s.roots) s.roots := leaves_alloc hs nofun
    exact tracks_map _ (tracks_lift hs hl (blind_alloc nofun) hu) fun _ _ hq => hq.2.2.2
  | newList =>
    have hu : Leaves (alloc (.ofList [])) s.mem (fun a => a :: s.roots) s.roots := by
      refine leaves_alloc hs fun lis hlis => ?_
      obtain rfl : [] = lis := Option.some.inj hlis
      exact ⟨List.nodup_nil, nofun⟩
    exact tracks_map _ (tracks_lift hs hl (blind_alloc nofun) hu) fun _ _ hq => hq.2.2.2
  | newProc n body priv =>
    exact tracks_map _ (tracks_newProc hs hl (hpos hf.1) (hpos hf.2) hroom) fun _ _ => id
  | ref a =>
    obtain ⟨m', hrun, hs', hl', -, hheap, -⟩ := ref_sound hs hl (hpos hf) hroom.lt
    have hs₁ : Sound (a :: s.roots) m' := by
      unfold Sound Mem.held
      rw [hheap]
      exact hs'
    exact tracks_bind_left hrun (tracks_pure hl' hs₁)
  | unref a =>
    have hs₁ : Sound (a :: s.roots.erase a) s.mem :=
      hs.of_count fun c => (List.perm_cons_erase hf).count_eq c
    obtain ⟨m', hrun, hs', hl', -, -⟩ := unref_sound junk hs₁ hl
    exact tracks_bind_left hrun (tracks_pure hl' hs')
  | asStr a =>
    exact tracks_map _ (tracks_conv hs hl (blind_asStr (hdead hf)) (asStr_unmoved a))
      fun _ _ hq => hq.2.2.2
  | asList a =>
    exact tracks_map _ (tracks_lift hs hl (blind_asList (hdead hf)) (asList_leaves hs (hpos hf)))
      fun _ _ hq => hq.2.2.2
  | asInt a =>
    exact tracks_map _ (tracks_conv hs hl (blind_asInt (hdead hf)) (asInt_unmoved a))
      fun _ _ hq => hq.2.2.2
  | asFloat a =>
    exact tracks_map _ (tracks_conv hs hl (blind_asFloat (hdead hf)) (asFloat_unmoved a))
      fun _ _ hq => hq.2.2.2
  | objHash a => exact tracks_map _ (tracks_objHash hs hl (hpos hf)) fun _ _ hq => hq.2
  | listAdd l o =>
    exact tracks_map _ (tracks_listAdd hs hl (hpos hf.1) (hpos hf.2) hroom.lt) fun _ _ hq => hq.1
  | listExtend l l2 =>
    exact tracks_map _ (tracks_listExtend hs hl (hpos hf.1) (hpos hf.2) hroom) fun _ _ => id
  | listPop l li => exact tracks_map _ (tracks_listPop hs hl (hpos hf.1) hf.2) fun _ _ hq => hq.2.1
  | dictSet d k v =>
    exact tracks_map _ (tracks_dictSet hs hl (.of_reaches hf.1) (hpos hf.2.1) (.of_reachesPast hf.2.2) hroom)
      fun _ _ => id
  | dictGet d k =>
    exact tracks_map _ (tracks_conv hs hl (blind_dictGet (hdead hf.1) (hdead hf.2)) (dictGet_unmoved d k))
      fun _ _ hq => hq.2.2.2
  | dictUnset d k =>
    exact tracks_map _ (tracks_dictUnset hs hl (.of_reaches hf.1) (hpos hf.2)) fun _ _ => id

/-! ### Runs -/

/-- A client that has references to all it names is fair. -/
theorem fair_of_owns {c : Act F × (Addr → Obj F)} (ho : s.Owns c) : s.Fair c := by
  obtain ⟨x, junk⟩ := c
  obtain ⟨⟨hnames, hpicks⟩, hroom⟩ := ho
  refine ⟨?_, hroom⟩
  have hr : ∀ {a}, a ∈ x.names → s.Reaches a := fun ha => ⟨_, hnames _ ha, .refl⟩
  cases x with
  | newStr _ | newInt _ | newFloat _ | newList => trivial
  | ref a | asStr a | asList a | asInt a | asFloat a | objHash a => exact hr List.mem_cons_self
  | unref a => exact hnames a List.mem_cons_self
  | newProc _ _ _ | listAdd _ _ | listExtend _ _ | dictGet _ _ | dictUnset _ _ =>
    exact ⟨hr List.mem_cons_self, hr (List.mem_cons_of_mem _ List.mem_cons_self)⟩
  | listPop l li => exact ⟨hr List.mem_cons_self, fun x hx => nomatch hpicks.symm.trans hx⟩
  | dictSet d k v =>
    refine ⟨hr List.mem_cons_self, hr (List.mem_cons_of_mem _ List.mem_cons_self), v, hnames v ?_, .refl⟩
    exact List.mem_cons_of_mem _ (List.mem_cons_of_mem _ List.mem_cons_self)

/-- The memory is sound for the references of the client, and it has been told what it is told on the
heap that keeps every object. -/
structure Good (s : Client F) (p : Plain F) : Prop where
  sound : Sound s.roots s.mem
  like : Like s.mem p.heap
  log : s.log = p.log

theorem good_start : Good (.start : Client F) .start := ⟨sound_empty, like_empty, rfl⟩

/-- A call, and the same one where no object is freed. -/
theorem Good.step {p : Plain F} {c : Act F × (Addr → Obj F)} (hg : Good s p) (hf : s.Fair c) :
    Option.Rel Good (s.step N c) (p.step N c.1) := by
  obtain ⟨x, junk⟩ := c
  unfold Client.step Plain.step Op.attempt
  rcases (act_tracks (N := N) hg.sound hg.like hf).cases with
    ⟨r, m', _, h', hrun, hrun', rfl, hl', hs'⟩ | ⟨m', h', hrun, hrun', hs', hl'⟩ | ⟨hrun, hrun'⟩
  · rw [hrun, hrun']
    exact .some ⟨hs', hl', by rw [hg.log]⟩
  · rw [hrun, hrun']
    exact .some ⟨hs', hl', by rw [hg.log]⟩
  · rw [hrun, hrun']
    exact .none

theorem good_run {cs : List (Act F × (Addr → Obj F))} (hf : Runs.Tries (Client.step N) Client.Fair .start cs) :
    Option.Rel Good (Runs.run (Client.step N) .start cs) (Runs.run (Plain.step N) .start (cs.map Prod.fst)) :=
  Runs.run_rel (fun _ _ _ hg hc => hg.step hc) good_start hf

/-- **What is freed is never seen.** The calls of a fair client end as they would if no object were
freed, whatever the memory of freed objects becomes: the client is told the same, and the objects with
a count are the same. -/
theorem freeing_unseen (cs : List (Act F × (Addr → Obj F)))
    (hf : Runs.Tries (Client.step N) Client.Fair .start cs) :
    Option.Rel (fun s p => s.log = p.log ∧ p.heap.next = s.mem.heap.next ∧
        ∀ a, 0 < s.mem.refc a → p.heap.obj a = s.mem.heap.obj a)
      (Runs.run (Client.step N) .start cs) (Runs.run (Plain.step N) .start (cs.map Prod.fst)) := by
  have hrel := good_run hf
  generalize Runs.run (Client.step N) .start cs = r, Runs.run (Plain.step N) .start (cs.map Prod.fst) = r'
    at hrel ⊢
  cases hrel with
  | none => exact .none
  | some hg => exact .some ⟨hg.log, hg.like.next, hg.like.obj⟩

/-- A value of a dictionary is replaced, and then the dictionary goes. -/
def replacing : List (Act ℤ × (Addr → Obj ℤ)) :=
  [.newStr [0x6b], .newStr [0x76], .newList, .dictSet 2 0 1, .unref 1, .newStr [0x77], .dictSet 2 0 3,
    .dictGet 2 0, .unref 2].map fun x => (x, fun _ => .ofInt 7)

theorem replacing_fair : Runs.Tries (Client.step wholeNum) Client.Fair .start replacing := by
  have howns : Runs.Tries (Client.step wholeNum) Client.Owns .start replacing := by decide +kernel
  exact howns.mono fun _ _ => fair_of_owns

/-- Two objects are freed on the way. -/
example : (Runs.run (Client.step wholeNum) .start replacing).map (·.mem.freed) = some [1, 2] := by
  decide +kernel

theorem freeing_replacing :
    Option.Rel (fun s p => s.log = p.log ∧ p.heap.next = s.mem.heap.next ∧
        ∀ a, 0 < s.mem.refc a → p.heap.obj a = s.mem.heap.obj a)
      (Runs.run (Client.step wholeNum) .start replacing)
      (Runs.run (Plain.step wholeNum) .start (replacing.map Prod.fst)) :=
  freeing_unseen replacing replacing_fair

/-- The run of a fair client keeps the memory sound. -/
theorem sound_throughout {s : Client F} {cs : List (Act F × (Addr → Obj F))} (hs : Sound s.roots s.mem)
    (hf : Runs.EachStep (Client.step N) Client.Fair s cs) :
    Runs.Throughout (Client.step N) (fun s => Sound s.roots s.mem) s cs := by
  refine Runs.throughout_of_eachStep (fun s c s' hs hc hstep => ?_) hs hf
  have hgood : Good s ⟨s.mem.heap, s.log⟩ := ⟨hs, ⟨rfl, rfl, fun _ _ => rfl⟩, rfl⟩
  have hrel := hgood.step (N := N) hc
  rw [hstep] at hrel
  rcases hp : Plain.step N ⟨s.mem.heap, s.log⟩ c.1 with _ | p
  · rw [hp] at hrel
    cases hrel
  · rw [hp] at hrel
    cases hrel with
    | some hg => exact hg.sound

/-- **Counts are exact.** In every state of a fair client's run each object counts the references to
it, the client's and those of objects with a count, and what has no count has been freed, once. -/
theorem counts_exact (cs : List (Act F × (Addr → Obj F)))
    (hf : Runs.EachStep (Client.step N) Client.Fair .start cs) :
    Runs.Throughout (Client.step N) (fun s =>
      (∀ a, s.mem.refc a = s.roots.count a +
        ∑ b ∈ (Finset.range s.mem.heap.next).filter fun b => 0 < s.mem.refc b, (s.mem.held b).count a) ∧
      s.mem.freed.Nodup ∧ ∀ a, a ∈ s.mem.freed ↔ a < s.mem.heap.next ∧ s.mem.refc a = 0) .start cs :=
  (sound_throughout sound_empty hf).mono fun _ hs => ⟨hs.exact.count, hs.nodup, hs.freed⟩

theorem counts_replacing : Runs.Throughout (Client.step wholeNum) (fun s =>
    (∀ a, s.mem.refc a = s.roots.count a +
      ∑ b ∈ (Finset.range s.mem.heap.next).filter fun b => 0 < s.mem.refc b, (s.mem.held b).count a) ∧
    s.mem.freed.Nodup ∧ ∀ a, a ∈ s.mem.freed ↔ a < s.mem.heap.next ∧ s.mem.refc a = 0) .start replacing :=
  counts_exact replacing replacing_fair.eachStep

/-- **What is kept.** In every state of a fair client's run an object has not been freed exactly if
the client can reach it, or if it hangs on a circle of references. -/
theorem kept_iff_reached (cs : List (Act F × (Addr → Obj F)))
    (hf : Runs.EachStep (Client.step N) Client.Fair .start cs) :
    Runs.Throughout (Client.step N) (fun s => ∀ a < s.mem.heap.next, a ∉ s.mem.freed ↔
      s.Reaches a ∨ ∃ b, TransGen (Edge s.mem.held s.mem.refc) b b ∧
        ReflTransGen (Edge s.mem.held s.mem.refc) b a) .start cs := by
  refine (sound_throughout sound_empty hf).mono fun s hs a ha => ?_
  have hfreed : a ∉ s.mem.freed ↔ 0 < s.mem.refc a := by
    rw [hs.freed, Nat.pos_iff_ne_zero]
    exact not_congr (and_iff_right ha)
  refine hfreed.trans ⟨hs.exact.reached, ?_⟩
  rintro (hr | ⟨b, hloop, hpath⟩)
  · exact hs.exact.pos_of_reached hr
  · obtain ⟨_, hedge, -⟩ := TransGen.head'_iff.mp hloop
    exact hs.exact.pos_of_edges hedge.1 hpath

theorem kept_replacing : Runs.Throughout (Client.step wholeNum) (fun s => ∀ a < s.mem.heap.next,
    a ∉ s.mem.freed ↔ s.Reaches a ∨ ∃ b, TransGen (Edge s.mem.held s.mem.refc) b b ∧
      ReflTransGen (Edge s.mem.held s.mem.refc) b a) .start replacing :=
  kept_iff_reached replacing replacing_fair.eachStep

end Refs

end B6b
