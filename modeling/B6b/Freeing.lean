/-
# Operations with counts keep the memory sound

`Sound R m`: with the references `R` from outside, every object counts the references to it, and what
has no count has been freed, once. An operation that neither takes nor gives up references has new
objects with one reference each, and may move references between lists and the caller (`Leaves`);
`b6b_ref` and `b6b_unref` do the rest. Where an operation is given only objects with a count, it
looks at nothing that has been freed, so it ends as it does on the heap that keeps every object
(`Tracks`), and the two heaps stay `Like`.

Key definitions: `SoundFor`, `Sound`, `Like`, `Leaves`, `Tracks`.
-/
import B6b.Blind
import B6b.Changes

namespace B6b

namespace Refs

open Refcount

variable {F α : Type} {N : Num F} {m m' : Mem F} {h h' k : Heap F} {R R' : List Addr} {Q : α → Prop}
  {a d l o : Addr}

/-! ### The invariants -/

/-- With the references `R` from outside and those that `held` says, counts are exact. The items of
a list are distinct, and what has no count has been freed, once. -/
structure SoundFor (held : Addr → List Addr) (R : List Addr) (m : Mem F) : Prop where
  exact : Exact (Finset.range m.heap.next) held m.refc R
  items : ∀ a, 0 < m.refc a → ∀ lis, (m.heap.obj a).l = some lis →
    (lis.map (·.id)).Nodup ∧ ∀ li ∈ lis, li.id < m.heap.nextLi
  nodup : m.freed.Nodup
  freed : ∀ a, a ∈ m.freed ↔ a < m.heap.next ∧ m.refc a = 0

/-- With the references `R` from outside, counts are exact. -/
abbrev Sound (R : List Addr) (m : Mem F) : Prop := SoundFor m.held R m

/-- Objects with a count are the same. -/
structure Like (m : Mem F) (h : Heap F) : Prop where
  next : h.next = m.heap.next
  nextLi : h.nextLi = m.heap.nextLi
  obj : ∀ a, 0 < m.refc a → h.obj a = m.heap.obj a

/-- There was an object, and it has no count. -/
def Mem.Dead (m : Mem F) (a : Addr) : Prop := a < m.heap.next ∧ m.refc a = 0

theorem not_dead (ha : 0 < m.refc a) : ¬ m.Dead a := fun hd => by
  have := hd.2
  omega

theorem SoundFor.lt {held : Addr → List Addr} (hs : SoundFor held R m) (ha : 0 < m.refc a) :
    a < m.heap.next :=
  Finset.mem_range.mp (hs.exact.mem a ha)

theorem sound_empty : Sound [] (Mem.empty : Mem F) where
  exact := ⟨fun _ ha => absurd ha (Nat.lt_irrefl _), fun _ => rfl⟩
  items _ ha := absurd ha (Nat.lt_irrefl _)
  nodup := List.nodup_nil
  freed _ := iff_of_false List.not_mem_nil fun ha => absurd ha.1 (Nat.not_lt_zero _)

theorem like_empty : Like (Mem.empty : Mem F) Heap.empty := ⟨rfl, rfl, fun _ _ => rfl⟩

theorem Sound.alike (hs : Sound R m) (hl : Like m h) : Alike m.Dead m.heap h where
  next := hl.next
  nextLi := hl.nextLi
  obj a ha hD := hl.obj a (Nat.pos_of_ne_zero fun hz => hD ⟨ha, hz⟩)
  apart _ ha hD _ hc :=
    not_dead (hs.exact.pos_of_held (Nat.pos_of_ne_zero fun hz => hD ⟨ha, hz⟩) hc)
  dead _ hD := hD.1

/-- Behind an operation that leaves the heaps alike, and makes the memory sound. -/
theorem like_grow {k' : Heap F} (hs : Sound R m) (hnext : m.heap.next ≤ k.next)
    (hk : Alike m.Dead k k') : Like (m.grow k) k' where
  next := hk.next
  nextLi := hk.nextLi
  obj a ha := by
    by_cases hnew : m.heap.next ≤ a ∧ a < k.next
    · exact hk.obj a hnew.2 fun hD => absurd hD.1 (Nat.not_lt.mpr hnew.1)
    · have hold : 0 < m.refc a := by
        unfold Mem.grow at ha
        dsimp only at ha
        rwa [if_neg hnew] at ha
      exact hk.obj a (Nat.lt_of_lt_of_le (hs.lt hold) hnext) (not_dead hold)

/-! ### Operations on the objects -/

/-- The memory is sound for `R a` behind an operation that returns `a`, and for `R₀` behind one that
fails; and no object has gone. -/
def Leaves (x : Op (Heap F) α) (m : Mem F) (R : α → List Addr) (R₀ : List Addr) : Prop :=
  Op.Ends x m.heap (fun a k => m.heap.next ≤ k.next ∧ Sound (R a) (m.grow k))
    fun k => m.heap.next ≤ k.next ∧ Sound R₀ (m.grow k)

/-- `x` ends like `y` does on the heap that keeps every object, with a result and memory as in `Q`;
where both fail, the memory is sound for `R'`. -/
def Tracks (x : Op (Mem F) α) (y : Op (Heap F) α) (m : Mem F) (h : Heap F) (Q : α → Mem F → Prop)
    (R' : List Addr) : Prop :=
  Op.Twin x y m h (fun a m' b h' => a = b ∧ Like m' h' ∧ Q a m') fun m' h' => Sound R' m' ∧ Like m' h'

theorem tracks_bind {β : Type} {x : Op (Mem F) α} {y : Op (Heap F) α} {f : α → Op (Mem F) β}
    {g : α → Op (Heap F) β} {P : α → Mem F → Prop} {T : β → Mem F → Prop} (hx : Tracks x y m h P R')
    (hf : ∀ a m' h', P a m' → Like m' h' → Tracks (f a) (g a) m' h' T R') :
    Tracks (x >>= f) (y >>= g) m h T R' := by
  refine Op.twin_bind hx ?_
  rintro a m' _ h' ⟨rfl, hl, hq⟩
  exact hf a m' h' hq hl

/-- The memory alone takes a step. -/
theorem tracks_bind_left {β : Type} {x : Op (Mem F) α} {f : α → Op (Mem F) β} {y : Op (Heap F) β}
    {b : α} {T : β → Mem F → Prop} (hx : x m = .ok b m') (hf : Tracks (f b) y m' h T R') :
    Tracks (x >>= f) y m h T R' :=
  Op.twin_bind_left hx hf

theorem tracks_pure {b : α} {P : α → Mem F → Prop} (hl : Like m h) (hp : P b m) :
    Tracks (pure b) (pure b) m h P R' :=
  Op.twin_pure ⟨rfl, hl, hp⟩

theorem Tracks.mono {x : Op (Mem F) α} {y : Op (Heap F) α} {P P' : α → Mem F → Prop}
    (hx : Tracks x y m h P R') (hp : ∀ b m', P b m' → P' b m') : Tracks x y m h P' R' :=
  Op.Twin.mono hx (fun b m' _ _ hq => ⟨hq.1, hq.2.1, hp b m' hq.2.2⟩) fun _ _ => id

/-- An operation on the objects sees nothing of those that are freed. -/
theorem tracks_lift {x : Op (Heap F) α} {S : α → List Addr} (hs : Sound R m) (hl : Like m h)
    (hx : Blind m.Dead x Q) (hu : Leaves x m S R') :
    Tracks (Mem.lift x) x m h
      (fun a m' => Q a ∧ x m.heap = .ok a m'.heap ∧ m' = m.grow m'.heap ∧ Sound (S a) m') R' := by
  unfold Tracks Op.Twin Mem.lift
  rcases (hx m.heap h (hs.alike hl)).cases with
    ⟨a, k, b, k', hok, hok', rfl, ha, hk⟩ | ⟨k, k', hf, hf', hk⟩ | ⟨hc, hc'⟩
  · rw [hok, hok']
    obtain ⟨hnext, hsound⟩ := hu.ok hok
    exact ⟨rfl, like_grow hs hnext hk, ha, rfl, rfl, hsound⟩
  · rw [hf, hf']
    obtain ⟨hnext, hsound⟩ := hu.fail hf
    exact ⟨hsound, like_grow hs hnext hk⟩
  · rw [hc, hc']
    trivial

/-! ### Conversions -/

/-- Items and procedures are what they were. -/
def unmoved : Op.Frame (Heap F) where
  Rel h h' := h'.next = h.next ∧ h'.nextLi = h.nextLi ∧
    ∀ a, (h'.obj a).l = (h.obj a).l ∧ (h'.obj a).proc = (h.obj a).proc
  refl _ := ⟨rfl, rfl, fun _ => ⟨rfl, rfl⟩⟩
  trans h₁ h₂ := ⟨h₂.1.trans h₁.1, h₂.2.1.trans h₁.2.1,
    fun a => ⟨(h₂.2.2 a).1.trans (h₁.2.2 a).1, (h₂.2.2 a).2.trans (h₁.2.2 a).2⟩⟩

theorem load_unmoved (a : Addr) : Op.Keeps unmoved (load a : Op (Heap F) (Obj F)) := by
  intro h
  unfold Op.KeepsAt Op.Ends
  rw [load_apply]
  by_cases ha : a < h.next
  · rw [if_pos ha]
    exact unmoved.refl h
  · rw [if_neg ha]
    trivial

theorem update_unmoved (a : Addr) {g : Obj F → Obj F} (hl : ∀ o, (g o).l = o.l)
    (hp : ∀ o, (g o).proc = o.proc) : Op.Keeps unmoved (update a g) := by
  intro h
  refine (returns_update a g h).mono ?_
  rintro _ _ rfl
  refine ⟨rfl, rfl, fun b => ?_⟩
  by_cases hb : b = a
  · subst hb
    rw [Heap.set_obj_self]
    exact ⟨hl _, hp _⟩
  · rw [Heap.set_obj_of_ne _ _ hb]
    exact ⟨rfl, rfl⟩

theorem asStr_unmoved (a : Addr) : Op.Keeps unmoved (asStr N a) := by
  intro h
  refine (asStr_returns N a h).mono fun b h' hb => ?_
  obtain ⟨hs, -, -⟩ := hb
  exact ⟨hs.next, hs.nextLi, fun c => ⟨hs.l c, hs.same Obj.proc (fun _ _ => rfl) c⟩⟩

theorem asFloat_unmoved (a : Addr) : Op.Keeps unmoved (asFloat N a) := by
  have hupdate : ∀ f, Op.Keeps unmoved (update a (·.withFloat f) : Op (Heap F) Unit) :=
    fun f => update_unmoved a (fun _ => rfl) fun _ => rfl
  refine Op.keeps_bind (load_unmoved a) fun o => ?_
  rcases o.f with _ | f
  · dsimp only
    split
    · refine Op.keeps_bind (asStr_unmoved a) fun b => ?_
      rcases strFloat N b with _ | f
      · exact Op.keeps_fail
      · exact Op.keeps_bind (hupdate f) fun _ => Op.keeps_pure _
    · exact Op.keeps_bind (hupdate _) fun _ => Op.keeps_pure _
  · exact Op.keeps_pure _

theorem asInt_unmoved (a : Addr) : Op.Keeps unmoved (asInt N a) := by
  refine Op.keeps_bind (load_unmoved a) fun o => ?_
  rcases o.i with _ | i
  · refine Op.keeps_bind (asFloat_unmoved a) fun f => ?_
    rcases N.floor f with _ | i
    · exact Op.keeps_fail
    · exact Op.keeps_bind (update_unmoved a (fun _ => rfl) fun _ => rfl) fun _ => Op.keeps_pure _
  · exact Op.keeps_pure _

theorem objHash_unmoved (a : Addr) : Op.Keeps unmoved (objHash N a) := by
  refine Op.keeps_bind (load_unmoved a) fun o => ?_
  rcases o.hash with _ | x
  · exact Op.keeps_bind (asStr_unmoved a) fun _ => update_unmoved a withHash_l withHash_proc
  · exact Op.keeps_pure _

theorem objEq_unmoved (a b : Addr) : Op.Keeps unmoved (objEq a b : Op (Heap F) Bool) := by
  refine Op.keeps_bind (load_unmoved a) fun x => Op.keeps_bind (load_unmoved b) fun y => ?_
  split
  · exact Op.keeps_pure _
  · exact Op.keeps_crash

theorem items_unmoved (l : Addr) : Op.Keeps unmoved (items l : Op (Heap F) (List Litem)) := by
  refine Op.keeps_bind (load_unmoved l) fun o => ?_
  rcases o.l with _ | lis
  · exact Op.keeps_crash
  · exact Op.keeps_pure _

/-- `b6b_list_flush` does not fail. -/
theorem listFlush_moves (l : Addr) (h : Heap F) :
    Op.Returns (listFlush l) h fun _ h' => unmoved.Rel h h' := by
  refine Op.returns_bind (items_returns l h) ?_
  rintro lis _ ⟨rfl, -, hlis⟩
  refine (returns_update l _ h).mono ?_
  rintro _ _ rfl
  refine ⟨rfl, rfl, fun b => ?_⟩
  by_cases hb : b = l
  · subst hb
    rw [Heap.set_obj_self, hlis]
    exact ⟨rfl, rfl⟩
  · rw [Heap.set_obj_of_ne _ _ hb]
    exact ⟨rfl, rfl⟩

theorem listFlush_unmoved (l : Addr) : Op.Keeps unmoved (listFlush l : Op (Heap F) Unit) :=
  fun h => (listFlush_moves l h).mono fun _ _ => id

theorem dictSetSeek_unmoved (k : Addr) : ∀ lis, Op.Keeps unmoved (dictSetSeek N k lis)
  | [] => Op.keeps_pure _
  | [kli] => Op.keeps_bind (objHash_unmoved kli.o) fun _ => Op.keeps_fail
  | kli :: vli :: lis => by
    refine Op.keeps_bind (objHash_unmoved kli.o) fun _ => ?_
    refine Op.keeps_bind (objEq_unmoved kli.o k) fun eq => ?_
    cases eq with
    | true => exact Op.keeps_pure _
    | false => exact dictSetSeek_unmoved k lis

theorem dictSeek_unmoved (k : Addr) : ∀ lis, Op.Keeps unmoved (dictSeek N k lis)
  | [] => Op.keeps_pure _
  | [_] => Op.keeps_fail
  | kli :: vli :: lis => by
    refine Op.keeps_bind (objHash_unmoved kli.o) fun _ => ?_
    refine Op.keeps_bind (objEq_unmoved kli.o k) fun eq => ?_
    cases eq with
    | true => exact Op.keeps_pure _
    | false => exact dictSeek_unmoved k lis

theorem dictGet_unmoved (d k : Addr) : Op.Keeps unmoved (dictGet N d k) := by
  refine Op.keeps_bind (items_unmoved d) fun lis => ?_
  refine Op.keeps_bind (objHash_unmoved k) fun _ => ?_
  refine Op.keeps_bind (dictSeek_unmoved k lis) fun r => ?_
  rcases r with _ | ⟨kli, vli⟩
  · exact Op.keeps_pure _
  · exact Op.keeps_pure _

/-- Counts, items and procedures are what they were. -/
structure Unmoved (m m' : Mem F) : Prop where
  refc : m'.refc = m.refc
  freed : m'.freed = m.freed
  heap : unmoved.Rel m.heap m'.heap

theorem Unmoved.held (hu : Unmoved m m') : m'.held = m.held := by
  funext a
  unfold Mem.held Obj.held
  rw [(hu.heap.2.2 a).1, (hu.heap.2.2 a).2]

theorem Unmoved.trans {m'' : Mem F} (hu : Unmoved m m') (hu' : Unmoved m' m'') : Unmoved m m'' :=
  ⟨hu'.refc.trans hu.refc, hu'.freed.trans hu.freed, unmoved.trans hu.heap hu'.heap⟩

/-- No object is new. -/
theorem unmoved_grow (hk : unmoved.Rel m.heap k) : Unmoved m (m.grow k) := by
  refine ⟨?_, rfl, hk⟩
  funext a
  have hnot : ¬ (m.heap.next ≤ a ∧ a < k.next) := by
    rw [hk.1]
    exact fun ha => absurd ha.2 (Nat.not_lt.mpr ha.1)
  exact if_neg hnot

theorem SoundFor.unmoved {held : Addr → List Addr} (hs : SoundFor held R m) (hu : Unmoved m m') :
    SoundFor held R m' where
  exact := by
    rw [hu.heap.1, hu.refc]
    exact hs.exact
  items a ha lis hlis := by
    rw [hu.refc] at ha
    rw [(hu.heap.2.2 a).1] at hlis
    rw [hu.heap.2.1]
    exact hs.items a ha lis hlis
  nodup := hu.freed ▸ hs.nodup
  freed a := by
    rw [hu.freed, hu.heap.1, hu.refc]
    exact hs.freed a

theorem Sound.unmoved (hs : Sound R m) (hu : Unmoved m m') : Sound R m' := by
  unfold Sound
  rw [hu.held]
  exact SoundFor.unmoved hs hu

/-- A conversion. -/
theorem leaves_conv {x : Op (Heap F) α} (hs : Sound R m) (hk : Op.Keeps Refs.unmoved x) :
    Leaves x m (fun _ => R) R :=
  (hk m.heap).mono (fun _ _ hr => ⟨Nat.le_of_eq hr.1.symm, hs.unmoved (unmoved_grow hr)⟩)
    fun _ hr => ⟨Nat.le_of_eq hr.1.symm, hs.unmoved (unmoved_grow hr)⟩

/-- A conversion moves nothing, and sees nothing of the objects that are freed. -/
theorem tracks_conv {x : Op (Heap F) α} (hs : Sound R m) (hl : Like m h) (hx : Blind m.Dead x Q)
    (hk : Op.Keeps Refs.unmoved x) : Tracks (Mem.lift x) x m h
      (fun a m' => Q a ∧ x m.heap = .ok a m'.heap ∧ Unmoved m m' ∧ Sound R m') R := by
  refine (tracks_lift hs hl hx (leaves_conv hs hk)).mono ?_
  rintro a m' ⟨ha, hok, hm', hs'⟩
  have hr : Refs.unmoved.Rel m.heap m'.heap := (hk m.heap).ok hok
  exact ⟨ha, hok, hm' ▸ unmoved_grow hr, hs'⟩

/-! ### New objects and other items -/

theorem grow_grow {k' : Heap F} (hk : m.heap.next ≤ k.next) (hk' : k.next ≤ k'.next) :
    (m.grow k).grow k' = m.grow k' := by
  have hrefc : ((m.grow k).grow k').refc = (m.grow k').refc := by
    funext a
    show (if k.next ≤ a ∧ a < k'.next then 1 else if m.heap.next ≤ a ∧ a < k.next then 1 else m.refc a) =
      if m.heap.next ≤ a ∧ a < k'.next then 1 else m.refc a
    by_cases h₁ : k.next ≤ a ∧ a < k'.next
    · rw [if_pos h₁, if_pos ⟨Nat.le_trans hk h₁.1, h₁.2⟩]
    · rw [if_neg h₁]
      by_cases h₂ : m.heap.next ≤ a ∧ a < k.next
      · rw [if_pos h₂, if_pos ⟨h₂.1, Nat.lt_of_lt_of_le h₂.2 hk'⟩]
      · rw [if_neg h₂, if_neg fun h₃ => ?_]
        rcases Nat.lt_or_ge a k.next with hlt | hge
        · exact h₂ ⟨h₃.1, hlt⟩
        · exact h₁ ⟨hge, h₃.2⟩
  exact congrArg (fun refc => Mem.mk k' refc m.freed) hrefc

/-- Behind two operations, as behind one. -/
theorem Sound.grown {k' : Heap F} (hs : Sound R ((m.grow k).grow k')) (hk : m.heap.next ≤ k.next)
    (hk' : k.next ≤ k'.next) : Sound R (m.grow k') :=
  grow_grow hk hk' ▸ hs

/-- Behind more operations on the objects. -/
theorem Leaves.trans {β : Type} {x : Op (Heap F) α} {f : α → Op (Heap F) β} {S : α → List Addr}
    {T : β → List Addr} (hx : Leaves x m S R')
    (hf : ∀ a k, x m.heap = .ok a k → Sound (S a) (m.grow k) → Leaves (f a) (m.grow k) T R') :
    Leaves (x >>= f) m T R' := by
  refine Op.ends_bind (Q := fun a k => x m.heap = .ok a k ∧ m.heap.next ≤ k.next ∧ Sound (S a) (m.grow k))
    (Op.ends_of (fun a k hok => ⟨hok, hx.ok hok⟩) fun k => hx.fail) ?_
  rintro a k ⟨hok, hle, hs⟩
  refine (hf a k hok hs).mono (fun b k' hk' => ?_) fun k' hk' => ?_
  · exact ⟨Nat.le_trans hle hk'.1, hk'.2.grown hle hk'.1⟩
  · exact ⟨Nat.le_trans hle hk'.1, hk'.2.grown hle hk'.1⟩

theorem leaves_pure {a : α} {S : α → List Addr} (hs : Sound (S a) m) : Leaves (pure a) m S R' :=
  ⟨Nat.le_refl _, hs.unmoved (unmoved_grow (Refs.unmoved.refl _))⟩

theorem leaves_fail {S : α → List Addr} (hs : Sound R' m) : Leaves (Op.fail : Op (Heap F) α) m S R' :=
  ⟨Nat.le_refl _, hs.unmoved (unmoved_grow (Refs.unmoved.refl _))⟩

theorem held_count {x : Obj F} {lis : List Litem} (hx : x.l = some lis) (c : Addr) :
    x.held.count c = (lis.map (·.o)).count c + x.proc.held.count c := by
  unfold Obj.held
  rw [hx, List.count_append]
  rfl

theorem held_count_withItems (x : Obj F) (lis : List Litem) (c : Addr) :
    (x.withItems lis).held.count c = (lis.map (·.o)).count c + x.proc.held.count c :=
  held_count rfl c

/-- The items of `a` are others; what that takes on or lets go is outside before or behind it. -/
theorem SoundFor.change {held : Addr → List Addr} (hs : SoundFor held R m) (ha : 0 < m.refc a)
    (hh : ∀ b, b ≠ a → held b = m.held b) {o : Obj F} {lis : List Litem} {n : ℕ}
    (hn : m.heap.nextLi ≤ n) (ho : o.l = some lis) (hnd : (lis.map (·.id)).Nodup)
    (hid : ∀ li ∈ lis, li.id < n)
    (hcount : ∀ c, R.count c + (held a).count c = R'.count c + o.held.count c) :
    Sound R' (m.grow ((m.heap.withLi n).set a o)) := by
  have hrefc : (m.grow ((m.heap.withLi n).set a o)).refc = m.refc := by
    funext b
    exact if_neg fun hb => absurd hb.2 (Nat.not_lt.mpr hb.1)
  have hself : (m.grow ((m.heap.withLi n).set a o)).held a = o.held :=
    congrArg Obj.held ((m.heap.withLi n).set_obj_self a o)
  refine ⟨?_, fun b hb lis' hlis' => ?_, hs.nodup, fun b => ?_⟩
  · rw [hrefc]
    refine hs.exact.exchange ha (fun b hb => ?_) fun c => ?_
    · rw [hh b hb]
      exact congrArg Obj.held ((m.heap.withLi n).set_obj_of_ne o hb)
    · rw [hself]
      exact hcount c
  · rw [hrefc] at hb
    by_cases hba : b = a
    · subst hba
      have hl : ((m.heap.withLi n).set b o).obj b = o := (m.heap.withLi n).set_obj_self b o
      obtain rfl : lis = lis' := by
        have hlis : (((m.heap.withLi n).set b o).obj b).l = some lis' := hlis'
        rw [hl, ho] at hlis
        exact Option.some.inj hlis
      exact ⟨hnd, hid⟩
    · have hl : (((m.heap.withLi n).set a o).obj b).l = some lis' := hlis'
      rw [Heap.set_obj_of_ne _ _ hba] at hl
      obtain ⟨hnd', hid'⟩ := hs.items b hb lis' hl
      exact ⟨hnd', fun li hli => Nat.lt_of_lt_of_le (hid' li hli) hn⟩
  · rw [hrefc]
    exact hs.freed b

/-- An object is new, and takes over what it holds. -/
theorem sound_push {o : Obj F} (hs : Sound (o.held ++ R) m)
    (ho : ∀ lis, o.l = some lis → (lis.map (·.id)).Nodup ∧ ∀ li ∈ lis, li.id < m.heap.nextLi) :
    Sound (m.heap.next :: R) (m.grow (m.heap.push o)) := by
  have hrefc : (m.grow (m.heap.push o)).refc = Function.update m.refc m.heap.next 1 := by
    funext a
    show (if m.heap.next ≤ a ∧ a < m.heap.next + 1 then 1 else m.refc a) = _
    by_cases ha : a = m.heap.next
    · subst ha
      rw [if_pos ⟨Nat.le_refl _, Nat.lt_succ_self _⟩, Function.update_self]
    · rw [Function.update_of_ne ha, if_neg fun h => ha (Nat.le_antisymm (Nat.le_of_lt_succ h.2) h.1)]
  have hold : ∀ a, a ≠ m.heap.next → (m.heap.push o).obj a = m.heap.obj a :=
    fun a ha => m.heap.push_obj_of_ne o ha
  refine ⟨?_, fun a ha lis hlis => ?_, hs.nodup, fun a => ?_⟩
  · rw [hrefc]
    have hrange : Finset.range (m.heap.next + 1) = insert m.heap.next (Finset.range m.heap.next) :=
      Finset.range_add_one
    show Exact (Finset.range (m.heap.next + 1)) _ _ _
    rw [hrange]
    refine hs.exact.alloc (fun h => Nat.lt_irrefl _ (Finset.mem_range.mp h)) (fun b hb => ?_) ?_
    · exact congrArg Obj.held (hold b (Nat.ne_of_lt (Finset.mem_range.mp hb)))
    · exact congrArg Obj.held (m.heap.push_obj_self o)
  · rw [hrefc] at ha
    have hl : ((m.heap.push o).obj a).l = some lis := hlis
    by_cases han : a = m.heap.next
    · rw [han, Heap.push_obj_self] at hl
      exact ho lis hl
    · rw [Function.update_of_ne han] at ha
      rw [hold a han] at hl
      exact hs.items a ha lis hl
  · rw [hrefc]
    show a ∈ m.freed ↔ a < m.heap.next + 1 ∧ _
    rw [hs.freed]
    by_cases han : a = m.heap.next
    · subst han
      rw [Function.update_self]
      exact iff_of_false (fun h => Nat.lt_irrefl _ h.1) fun h => absurd h.2 Nat.one_ne_zero
    · rw [Function.update_of_ne han]
      exact and_congr_left fun _ =>
        ⟨Nat.lt_succ_of_lt, fun h => Nat.lt_of_le_of_ne (Nat.le_of_lt_succ h) han⟩

theorem leaves_alloc {o : Obj F} (hs : Sound (o.held ++ R) m)
    (ho : ∀ lis, o.l = some lis → (lis.map (·.id)).Nodup ∧ ∀ li ∈ lis, li.id < m.heap.nextLi) :
    Leaves (alloc o) m (fun a => a :: R) R' :=
  ⟨Nat.le_succ _, sound_push hs ho⟩

/-- Only how often a node is outside matters. -/
theorem SoundFor.of_count {held : Addr → List Addr} (hs : SoundFor held R m)
    (hR : ∀ a, R.count a = R'.count a) : SoundFor held R' m :=
  ⟨hs.exact.of_perm hR, hs.items, hs.nodup, hs.freed⟩

/-- More list items have been made. -/
theorem sound_withLi {n : ℕ} (hs : Sound R m) (hn : m.heap.nextLi ≤ n) :
    Sound R (m.grow (m.heap.withLi n)) := by
  have hrefc : (m.grow (m.heap.withLi n)).refc = m.refc := by
    funext b
    exact if_neg fun hb => absurd hb.2 (Nat.not_lt.mpr hb.1)
  refine ⟨?_, fun b hb lis hlis => ?_, hs.nodup, fun b => ?_⟩
  · rw [hrefc]
    exact hs.exact
  · rw [hrefc] at hb
    obtain ⟨hnd, hid⟩ := hs.items b hb lis hlis
    exact ⟨hnd, fun li hli => Nat.lt_of_lt_of_le (hid li hli) hn⟩
  · rw [hrefc]
    exact hs.freed b

/-- The objects of tokens, which are outside as long as they are in no list. -/
theorem tokenItems_leaves : ∀ (xs : List Bytes) {m : Mem F} {R : List Addr}, Sound R m →
    Op.Returns (tokenItems xs) m.heap fun lis k => m.heap.next ≤ k.next ∧ m.heap.nextLi ≤ k.nextLi ∧
      Sound (lis.map (·.o) ++ R) (m.grow k) ∧ (∀ a < m.heap.next, k.obj a = m.heap.obj a) ∧
      (lis.map (·.id)).Nodup ∧ ∀ li ∈ lis, m.heap.nextLi ≤ li.id ∧ li.id < k.nextLi
  | [], m, R, hs => Op.ends_pure ⟨Nat.le_refl _, Nat.le_refl _,
      hs.unmoved (unmoved_grow (Refs.unmoved.refl _)), fun _ _ => rfl, List.nodup_nil, nofun⟩
  | x :: xs, m, R, hs => by
    refine Op.returns_bind (alloc_returns (.ofStr x) m.heap) ?_
    rintro _ _ ⟨rfl, rfl⟩
    refine Op.returns_bind (newLitem_returns m.heap.next _) ?_
    rintro _ _ ⟨rfl, rfl⟩
    have hs₁ : Sound (m.heap.next :: R) (m.grow (m.heap.push (.ofStr x))) := sound_push hs nofun
    have hs₂ : Sound (m.heap.next :: R)
        (m.grow ((m.heap.push (.ofStr x)).withLi (m.heap.nextLi + 1))) :=
      (sound_withLi hs₁ (Nat.le_succ m.heap.nextLi)).grown (Nat.le_succ m.heap.next) (Nat.le_refl _)
    refine Op.returns_bind (tokenItems_leaves xs hs₂) ?_
    rintro lis k ⟨hnext, hli, hs', hobj, hnd, hid⟩
    have hle : m.heap.next + 1 ≤ k.next := hnext
    have hli' : m.heap.nextLi + 1 ≤ k.nextLi := hli
    have hs₃ : Sound (lis.map (·.o) ++ m.heap.next :: R) (m.grow k) :=
      hs'.grown (Nat.le_succ m.heap.next) hnext
    refine Op.ends_pure ⟨Nat.le_of_succ_le hle, Nat.le_of_succ_le hli', hs₃.of_count fun a => ?_,
      fun a ha => ?_, ?_, ?_⟩
    · simp only [List.map_cons, List.cons_append, List.count_append, List.count_cons]
      omega
    · rw [hobj a (Nat.lt_succ_of_lt ha)]
      exact m.heap.push_obj_of_ne _ (Nat.ne_of_lt ha)
    · rw [List.map_cons, List.nodup_cons]
      refine ⟨fun hmem => ?_, hnd⟩
      obtain ⟨li, hmem, heq⟩ := List.mem_map.mp hmem
      have hge : m.heap.nextLi + 1 ≤ li.id := (hid li hmem).1
      rw [heq] at hge
      exact Nat.not_succ_le_self _ hge
    · refine List.forall_mem_cons.mpr ⟨⟨Nat.le_refl _, hli'⟩, fun li hmem => ?_⟩
      exact ⟨Nat.le_of_succ_le (hid li hmem).1, (hid li hmem).2⟩

/-- `b6b_as_list`: the list has the only reference to each of its items. -/
theorem asList_leaves (hs : Sound R m) (ha : 0 < m.refc a) : Leaves (asList N a) m (fun _ => R) R := by
  refine ends_load_bind fun hlt => ?_
  rcases hl : (m.heap.obj a).l with _ | lis
  · refine Leaves.trans (leaves_conv hs (asStr_unmoved a)) fun b k₁ hrun hs₁ => ?_
    have hu : Unmoved m (m.grow k₁) := unmoved_grow ((asStr_unmoved a m.heap).ok hrun)
    rcases doAsList b with e | xs
    · exact leaves_fail hs₁
    · refine Op.returns_bind (tokenItems_leaves xs hs₁) ?_
      rintro lis k₂ ⟨hnext, hli, hs₂, hobj, hnd, hid⟩
      refine Op.returns_bind (returns_update a _ k₂) ?_
      rintro _ _ rfl
      have hlt₁ : a < (m.grow k₁).heap.next := hu.heap.1 ▸ hlt
      have hl₂ : (k₂.obj a).l = none := by
        rw [hobj a hlt₁, (hu.heap.2.2 a).1, hl]
      have ha₂ : 0 < ((m.grow k₁).grow k₂).refc a := by
        show 0 < if (m.grow k₁).heap.next ≤ a ∧ a < k₂.next then 1 else (m.grow k₁).refc a
        rw [if_neg fun h => absurd hlt₁ (Nat.not_lt.mpr h.1), hu.refc]
        exact ha
      have hheld : (k₂.obj a).held = (k₂.obj a).proc.held := by
        unfold Obj.held
        rw [hl₂]
        rfl
      have hs₃ : Sound R (((m.grow k₁).grow k₂).grow
          ((k₂.withLi k₂.nextLi).set a ((k₂.obj a).withItems lis))) :=
        hs₂.change ha₂ (fun _ _ => rfl) (Nat.le_refl k₂.nextLi) rfl hnd
          (fun li hmem => (hid li hmem).2) fun c => by
            rw [held_count_withItems, List.count_append]
            show _ + (k₂.obj a).held.count c = _
            rw [hheld]
            omega
      exact Op.ends_pure ⟨hnext, hs₃.grown hnext (Nat.le_refl _)⟩
  · exact leaves_pure hs

/-- `b6b_list_do_add`: the reference goes into the list. -/
theorem listDoAdd_leaves (hs : Sound (o :: R) m) (hl : 0 < m.refc l) :
    Leaves (listDoAdd l o) m (fun _ => R) R' := by
  refine Op.returns_bind (items_returns l m.heap) ?_
  rintro lis _ ⟨rfl, -, hlis⟩
  refine Op.returns_bind (newLitem_returns o m.heap) ?_
  rintro li _ ⟨rfl, rfl⟩
  refine (returns_update l _ _).mono ?_
  rintro _ _ rfl
  obtain ⟨hnd, hid⟩ := hs.items l hl lis hlis
  refine ⟨Nat.le_refl _, hs.change (o := (m.heap.obj l).withItems (lis ++ [⟨m.heap.nextLi, o⟩])) hl
    (fun _ _ => rfl) (Nat.le_succ _) rfl ?_ (fun li hli => ?_) fun c => ?_⟩
  · rw [List.map_append, List.nodup_append]
    refine ⟨hnd, List.nodup_singleton _, ?_⟩
    rintro i hi _ hj rfl
    obtain ⟨li, hli, rfl⟩ := List.mem_map.mp hi
    rw [List.map_singleton, List.mem_singleton] at hj
    exact absurd (hid li hli) (by rw [hj]; exact Nat.lt_irrefl _)
  · rcases List.mem_append.mp hli with hli | hli
    · exact Nat.lt_succ_of_lt (hid li hli)
    · rw [List.mem_singleton.mp hli]
      exact Nat.lt_succ_self _
  · have hheld : (m.held l).count c = _ := held_count hlis c
    rw [hheld, held_count_withItems, List.map_append, List.count_append, List.count_cons]
    simp only [List.map_cons, List.map_nil, List.count_cons, List.count_nil]
    omega

/-- `b6b_list_remove`: the reference of an item goes out of the list. -/
theorem listRemove_leaves {x : Litem} {lis : List Litem} (hs : Sound R m) (hl : 0 < m.refc l)
    (hlis : (m.heap.obj l).l = some lis) (hx : x ∈ lis) :
    Leaves (listRemove l x) m (fun _ => x.o :: R) R' := by
  refine Op.returns_bind (items_returns l m.heap) ?_
  rintro lis' _ ⟨rfl, -, hlis'⟩
  obtain rfl : lis = lis' := Option.some.inj (hlis.symm.trans hlis')
  refine (returns_update l _ _).mono ?_
  rintro _ _ rfl
  obtain ⟨hnd, hid⟩ := hs.items l hl lis hlis
  have hsub : (lis.erase x).Sublist lis := List.erase_sublist
  refine ⟨Nat.le_refl _, hs.change (o := (m.heap.obj l).withItems (lis.erase x)) hl (fun _ _ => rfl)
    (Nat.le_refl m.heap.nextLi) rfl ((hsub.map _).nodup hnd) (fun li hli => hid li (hsub.subset hli))
    fun c => ?_⟩
  have hheld : (m.held l).count c = _ := held_count hlis c
  have hperm : (lis.map (·.o)).count c = ((x :: lis.erase x).map (·.o)).count c :=
    ((List.perm_cons_erase hx).map _).count_eq c
  rw [List.map_cons, List.count_cons] at hperm
  rw [hheld, held_count_withItems, List.count_cons, hperm]
  omega

/-- `b6b_list_pop`: the reference of the item is the caller's. -/
theorem listPop_leaves {li : Option Litem} (hs : Sound R m) (hl : 0 < m.refc l)
    (hli : ∀ x, li = some x → ∃ lis, (m.heap.obj l).l = some lis ∧ x ∈ lis) :
    Leaves (listPop l li) m (fun o => o :: R) R := by
  refine Op.returns_bind (items_returns l m.heap) ?_
  rintro lis _ ⟨rfl, -, hlis⟩
  rcases hor : li.or lis.getLast? with _ | x
  · exact leaves_fail hs
  · have hx : x ∈ lis := by
      rcases li with _ | y
      · exact List.mem_of_getLast? hor
      · obtain rfl : y = x := Option.some.inj hor
        obtain ⟨lis', hlis', hmem⟩ := hli y rfl
        rwa [Option.some.inj (hlis.symm.trans hlis')]
    refine Leaves.trans (listRemove_leaves hs hl hlis hx) fun _ k _ hs₁ => ?_
    refine Leaves.trans (S := fun _ => x.o :: R) ?_ fun _ _ _ hs₂ => leaves_pure hs₂
    exact (listFlush_moves l k).mono fun _ _ hr =>
      ⟨Nat.le_of_eq hr.1.symm, hs₁.unmoved (unmoved_grow hr)⟩

/-! ### References -/

/-- What has a count keeps one. -/
def Kept (m m' : Mem F) : Prop := ∀ a, 0 < m.refc a → 0 < m'.refc a

theorem Kept.refl (m : Mem F) : Kept m m := fun _ => id

theorem Kept.trans {m'' : Mem F} (hk : Kept m m') (hk' : Kept m' m'') : Kept m m'' :=
  fun a ha => hk' a (hk a ha)

theorem kept_grow (k : Heap F) : Kept m (m.grow k) := by
  intro a ha
  show 0 < if m.heap.next ≤ a ∧ a < k.next then 1 else m.refc a
  split
  · exact Nat.one_pos
  · exact ha

theorem Unmoved.kept (hu : Unmoved m m') : Kept m m' := fun _ ha => hu.refc ▸ ha

/-- No object has more references than it had, but for those to `os`. -/
def Takes (os : List Addr) (m m' : Mem F) : Prop := ∀ a, m'.refc a ≤ m.refc a + os.count a

theorem Unmoved.takes {os : List Addr} (hu : Unmoved m m') : Takes os m m' := fun a => by
  rw [hu.refc]
  exact Nat.le_add_right _ _

/-- There is room for one reference. -/
theorem Mem.Room.lt {os : List Addr} (hr : m.Room (a :: os)) : m.refc a < refMax := by
  have h := hr a List.mem_cons_self
  rw [List.count_cons_self] at h
  omega

/-- There is room for the rest behind some of the references. -/
theorem Mem.Room.rest (os : List Addr) {os' : List Addr} (hr : m.Room (os ++ os')) (ht : Takes os m m') :
    m'.Room os' := by
  intro a ha
  have h := hr a (List.mem_append_right os ha)
  have h' := ht a
  rw [List.count_append] at h
  omega

/-- `b6b_ref` -/
theorem ref_sound {held : Addr → List Addr} (hs : SoundFor held R m) (hl : Like m h)
    (ha : 0 < m.refc a) (hroom : m.refc a < refMax) : ∃ m', Mem.ref a m = .ok a m' ∧
      SoundFor held (a :: R) m' ∧ Like m' h ∧ Kept m m' ∧ m'.heap = m.heap ∧ Takes [a] m m' := by
  have hpos : ∀ b, 0 < Function.update m.refc a (m.refc a + 1) b ↔ 0 < m.refc b := by
    intro b
    by_cases hb : b = a
    · subst hb
      rw [Function.update_self]
      omega
    · rw [Function.update_of_ne hb]
  refine ⟨{ m with refc := Function.update m.refc a (m.refc a + 1) }, ?_, ?_, ?_, ?_, rfl, ?_⟩
  · unfold Mem.ref
    rw [if_neg (by omega)]
  · refine ⟨hs.exact.ref ha, fun b hb => hs.items b ((hpos b).mp hb), hs.nodup, fun b => ?_⟩
    rw [hs.freed]
    refine and_congr_right fun _ => ?_
    have := hpos b
    dsimp only
    omega
  · exact ⟨hl.next, hl.nextLi, fun b hb => hl.obj b ((hpos b).mp hb)⟩
  · exact fun b hb => (hpos b).mpr hb
  · intro b
    by_cases hb : b = a
    · subst hb
      simp
    · show Function.update m.refc a (m.refc a + 1) b ≤ _
      rw [Function.update_of_ne hb]
      exact Nat.le_add_right _ _

variable {junk : Addr → Obj F} {held held' : Addr → List Addr} {c : Counts Addr}

/-- No object has more to free than there are. -/
theorem card_live_lt (m : Mem F) : (live (Finset.range m.heap.next) m.refc).card < m.heap.next + 1 := by
  have hle := Finset.card_filter_le (Finset.range m.heap.next) fun a => 0 < m.refc a
  rw [Finset.card_range] at hle
  exact Nat.lt_succ_of_le hle

/-- What has been freed has no count, so what is there instead does not matter. -/
theorem free_obj (hf : Frees ⟨m.refc, []⟩ c) (ha : 0 < c.refc a) :
    (m.free junk c).heap.obj a = m.heap.obj a := by
  obtain ⟨l, hl, -, hmem⟩ := hf.freed
  have hnot : a ∉ c.freed := by
    rw [hl]
    exact fun hin => absurd ((hmem a).mp hin).2 (Nat.pos_iff_ne_zero.mp ha)
  exact if_neg hnot

theorem like_free (junk : Addr → Obj F) (hl : Like m h) (hf : Frees ⟨m.refc, []⟩ c) : Like (m.free junk c) h where
  next := hl.next
  nextLi := hl.nextLi
  obj a ha := by
    rw [free_obj hf ha]
    exact hl.obj a (Nat.lt_of_lt_of_le ha (hf.le a))

theorem sound_free (hs : SoundFor held R m) (hx : Exact (Finset.range m.heap.next) held' c.refc R')
    (hf : Frees ⟨m.refc, []⟩ c) : SoundFor held' R' (m.free junk c) where
  exact := hx
  items a ha lis hlis := by
    rw [free_obj hf ha] at hlis
    exact hs.items a (Nat.lt_of_lt_of_le ha (hf.le a)) lis hlis
  nodup := by
    obtain ⟨l, hl, hnd, hmem⟩ := hf.freed
    refine List.nodup_append.mpr ⟨hs.nodup, by rwa [hl], ?_⟩
    rintro a ha _ hc rfl
    rw [hl] at hc
    exact absurd ((hs.freed a).mp ha).2 (Nat.pos_iff_ne_zero.mp ((hmem a).mp hc).1)
  freed a := by
    obtain ⟨l, hl, -, hmem⟩ := hf.freed
    have hmem' : a ∈ c.freed ↔ 0 < m.refc a ∧ c.refc a = 0 := by
      rw [hl]
      exact hmem a
    refine List.mem_append.trans ((or_congr (hs.freed a) hmem').trans ⟨?_, fun ⟨hlt, hz⟩ => ?_⟩)
    · rintro (⟨hlt, hz⟩ | ⟨hpos, hz⟩)
      · exact ⟨hlt, Nat.le_zero.mp (hz ▸ hf.le a)⟩
      · exact ⟨hs.lt hpos, hz⟩
    · rcases Nat.eq_zero_or_pos (m.refc a) with hz' | hpos
      · exact .inl ⟨hlt, hz'⟩
      · exact .inr ⟨hpos, hz⟩

/-- `b6b_unref` of a reference from outside. -/
theorem unref_sound (junk : Addr → Obj F) (hs : Sound (a :: R) m) (hl : Like m h) :
    ∃ m', Mem.unref junk a m = .ok () m' ∧ Sound R m' ∧ Like m' h ∧ m'.heap.next = m.heap.next ∧
      ∀ b, 0 < m'.refc b → 0 < m.refc b ∧ m'.heap.obj b = m.heap.obj b := by
  obtain ⟨c, hrun, hx, hf⟩ := unref_exact (c := ⟨m.refc, []⟩) hs.exact (card_live_lt m)
  refine ⟨m.free junk c, ?_, ?_, like_free junk hl hf, rfl, fun b hb => ?_⟩
  · unfold Mem.unref
    rw [hrun]
  · refine sound_free hs (hx.congr fun b hb => ?_) hf
    exact congrArg Obj.held (free_obj hf hb)
  · exact ⟨Nat.lt_of_lt_of_le hb (hf.le b), free_obj hf hb⟩

end Refs

end B6b
