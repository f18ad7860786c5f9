/-
# Objects that are in themselves

Nothing checks what is put into a list: a list may be put into itself, or into one of its
own items, and no conversion of it to a string ends then. `acyclic_run` is about the runs
that do not do so: where nothing is put into a list that is in it (`Puts`), the graph of
lists and items has no cycle, every conversion ends, and so does every release.

The dictionaries of the frames are lists that a script never gets hold of, so binding a
name is always such a step (`World`, `Deed`). The release of an object ends in any case,
since each turn of `b6b_unref` takes a reference away (`unref_ends`).

Key definitions: `unref`, `Terminates`, `Puts`, `World`, `Deed`.
-/
import Mathlib.Algebra.BigOperators.Group.Finset.Basic
import B6b.Dict

namespace B6b

open Relation Reach

variable {F : Type} {N : Num F}

/-! ### Releases -/

/-- What `b6b_destroy` lets go of: the items of a list, and what `b6b_proc_del` does. -/
def heldBy (h : Heap F) (a : Addr) : List Addr :=
  ((h.obj a).l.getD []).map (·.o) ++
    match (h.obj a).proc with
    | .user body priv => [priv, body]
    | _ => []

/-- `b6b_unref` of one object after the other, with the reference counts behind it. An
object that has lost its last reference is destroyed, and lets go of what it holds first.
It is out of fuel if the recursion is longer, and `none` too when an object had no
reference to lose. -/
def unref (h : Heap F) : ℕ → List Addr → (Addr → ℕ) → Option (Addr → ℕ)
  | _, [], rc => some rc
  | 0, _ :: _, _ => none
  | fuel + 1, a :: as, rc =>
    match rc a with
    | 0 => none
    | 1 => unref h fuel (heldBy h a ++ as) (Function.update rc a 0)
    | n + 2 => unref h fuel as (Function.update rc a (n + 1))

/-- The references to `a` from objects that are alive. -/
def refs (h : Heap F) (rc : Addr → ℕ) (a : Addr) : ℕ :=
  ∑ b ∈ Finset.range h.next, if rc b = 0 then 0 else (heldBy h b).count a

/-- The counts are no lower than the references there are: those in `as`, and those from
objects that are alive. -/
def Refcounted (h : Heap F) (as : List Addr) (rc : Addr → ℕ) : Prop :=
  ∀ a, as.count a + refs h rc a ≤ rc a ∧ (0 < rc a → a < h.next)

/-- A sum of which one term changes. -/
theorem sum_change {f g : ℕ → ℕ} {n a : ℕ} (ha : a < n) (hne : ∀ b, b ≠ a → g b = f b) :
    ∑ b ∈ Finset.range n, g b + f a = ∑ b ∈ Finset.range n, f b + g a := by
  have hmem : a ∈ Finset.range n := Finset.mem_range.mpr ha
  rw [← Finset.add_sum_erase _ g hmem, ← Finset.add_sum_erase _ f hmem]
  have hrest : ∑ b ∈ (Finset.range n).erase a, g b = ∑ b ∈ (Finset.range n).erase a, f b :=
    Finset.sum_congr rfl fun b hb => hne b (Finset.ne_of_mem_erase hb)
  omega

theorem Refcounted.alive {h : Heap F} {a : Addr} {as : List Addr} {rc : Addr → ℕ}
    (hc : Refcounted h (a :: as) rc) : 0 < rc a ∧ a < h.next := by
  have hpos : 0 < rc a := by
    have := (hc a).1
    rw [List.count_cons_self] at this
    omega
  exact ⟨hpos, (hc a).2 hpos⟩

/-- The last reference is released: what the object holds is released next. -/
theorem Refcounted.destroy {h : Heap F} {a : Addr} {as : List Addr} {rc : Addr → ℕ}
    (hc : Refcounted h (a :: as) rc) (hrc : rc a = 1) :
    Refcounted h (heldBy h a ++ as) (Function.update rc a 0) := by
  intro c
  have hrefs := sum_change (f := fun b => if rc b = 0 then 0 else (heldBy h b).count c)
    (g := fun b => if Function.update rc a 0 b = 0 then 0 else (heldBy h b).count c) hc.alive.2
    fun b hb => by rw [Function.update_of_ne hb]
  simp only [hrc, Function.update_self, if_pos, Nat.one_ne_zero, if_false] at hrefs
  have hcc := hc c
  unfold refs at hcc ⊢
  rw [List.count_append]
  by_cases hca : c = a
  · subst hca
    rw [List.count_cons_self] at hcc
    rw [Function.update_self]
    exact ⟨by omega, fun h0 => absurd h0 (Nat.lt_irrefl 0)⟩
  · rw [List.count_cons_of_ne (Ne.symm hca)] at hcc
    rw [Function.update_of_ne hca]
    exact ⟨by omega, hcc.2⟩

/-- Another reference is released: the object stays alive, and all that it holds. -/
theorem Refcounted.release {h : Heap F} {a : Addr} {as : List Addr} {rc : Addr → ℕ} {n : ℕ}
    (hc : Refcounted h (a :: as) rc) (hrc : rc a = n + 2) :
    Refcounted h as (Function.update rc a (n + 1)) := by
  intro c
  have hrefs : refs h (Function.update rc a (n + 1)) c = refs h rc c := by
    refine Finset.sum_congr rfl fun b _ => ?_
    by_cases hb : b = a
    · subst hb
      rw [Function.update_self, hrc]
      rfl
    · rw [Function.update_of_ne hb]
  rw [hrefs]
  have hcc := hc c
  by_cases hca : c = a
  · subst hca
    rw [List.count_cons_self] at hcc
    rw [Function.update_self]
    exact ⟨by omega, fun _ => hc.alive.2⟩
  · rw [List.count_cons_of_ne (Ne.symm hca)] at hcc
    rw [Function.update_of_ne hca]
    exact hcc

/-- **A release ends**, whatever holds what: it needs no more turns than there are references. -/
theorem unref_ends (h : Heap F) : ∀ (fuel : ℕ) (as : List Addr) (rc : Addr → ℕ), Refcounted h as rc →
    ∑ b ∈ Finset.range h.next, rc b ≤ fuel → ∃ rc', unref h fuel as rc = some rc'
  | fuel, [], rc, _, _ => ⟨rc, by unfold unref; rfl⟩
  | fuel, a :: as, rc, hc, hfuel => by
    obtain ⟨hpos, hlt⟩ := hc.alive
    have hle : rc a ≤ ∑ b ∈ Finset.range h.next, rc b := by
      rw [← Finset.add_sum_erase _ rc (Finset.mem_range.mpr hlt)]
      exact Nat.le_add_right _ _
    have hsum : ∀ n, ∑ b ∈ Finset.range h.next, Function.update rc a n b + rc a =
        ∑ b ∈ Finset.range h.next, rc b + n := by
      intro n
      have := sum_change (f := rc) (g := Function.update rc a n) hlt fun b hb => Function.update_of_ne hb n rc
      rwa [Function.update_self] at this
    cases fuel with
    | zero => omega
    | succ fuel =>
      unfold unref
      match hrc : rc a with
      | 0 => omega
      | 1 =>
        have hfuel' := hsum 0
        exact unref_ends h fuel _ _ (hc.destroy hrc) (by omega)
      | n + 2 =>
        have hfuel' := hsum (n + 1)
        exact unref_ends h fuel _ _ (hc.release hrc) (by omega)

/-! ### What is put into a list -/

/-- Nothing is in itself, every conversion ends, and so does every release. -/
structure Terminates (N : Num F) (h : Heap F) : Prop where
  acyclic : ∀ a, ¬ TransGen (Holds h) a a
  asStr : ∀ a < h.next, ∃ b h', asStr N a h = .ok b h'
  hash : ∀ a < h.next, ∃ h', objHash N a h = .ok () h'
  eq : ∀ a < h.next, ∀ c < h.next, ∃ r h', (do objHash N a; objHash N c; objEq a c) h = .ok r h'
  release : ∀ as rc, Refcounted h as rc → ∃ fuel rc', unref h fuel as rc = some rc'

/-- The strings of the items of `a`, read as a list. -/
def Texts (N : Num F) (h : Heap F) (a : Addr) (bs : List Bytes) : Prop :=
  (∃ lis, (h.obj a).l = some lis ∧ Vals N h lis bs) ∨
    ((h.obj a).l = none ∧ ∃ s, Val N h a s ∧ doAsList s = .ok bs)

/-- The keys of a list of keys and values. -/
def keysOf {α : Type} : List α → List α
  | k :: _ :: l => k :: keysOf l
  | _ => []

/-- The objects that `b6b_dict_set` puts into a list whose items have the strings `bs`. An odd
list is no dictionary, unless the key is found before its end. -/
def Inserted (k v : Addr) (b : Bytes) (bs : List Bytes) (x : Addr) : Prop :=
  if b ∈ keysOf bs then x = v else Even bs.length ∧ (x = k ∨ x = v)

theorem Inserted.one_of {k v x : Addr} {b : Bytes} {bs : List Bytes} (hx : Inserted k v b bs x) :
    x = k ∨ x = v := by
  unfold Inserted at hx
  split at hx
  · exact .inr hx
  · exact hx.2

/-- The command puts `x` into the list `a`. -/
def Puts (N : Num F) (h : Heap F) : Cmd → Addr → Addr → Prop
  | .listAppend l o, x, a => a = l ∧ x = o ∧ ∃ bs, Texts N h l bs
  | .listExtend l l2, x, a => a = l ∧ Holds h l2 x ∧ ∃ bs, Texts N h l bs
  | .dictSet d k v, x, a => a = d ∧ ∃ bs b, Texts N h d bs ∧ Val N h k b ∧ Inserted k v b bs x
  | _, _, _ => False

/-- The items of `l` are as in `X`, or were items before. -/
theorem Changed.holds {X : Addr → Prop} {l : Addr} {h h' : Heap F}
    (hch : Changed (fun x => Holds h l x ∨ X x) l h h') (b c : Addr) (hh : Holds h' b c) :
    Holds h b c ∨ (b = l ∧ X c) := by
  obtain ⟨n, lis, lis', hl, hw, -, rfl⟩ := hch
  by_cases hb : b = l
  · subst hb
    obtain ⟨lis₂, hl₂, li, hli, rfl⟩ := hh
    rw [Heap.set_obj_self] at hl₂
    obtain rfl : lis' = lis₂ := Option.some.inj hl₂
    rcases hw (fun li hli => .inl ⟨lis, hl, li, hli, rfl⟩) li hli with hold | hx
    · exact .inl hold
    · exact .inr ⟨rfl, hx⟩
  · refine .inl (hh.of_l (.inl ?_))
    rw [Heap.set_obj_of_ne _ _ hb]
    rfl

/-- **A change that puts nothing into a list that is in it** leaves the graph without a cycle. -/
theorem Tidy.changed {X : Addr → Prop} {l : Addr} {h h' : Heap F} (ht : Tidy h) (hlt : l < h.next)
    (hch : Changed (fun x => Holds h l x ∨ X x) l h h')
    (hX : ∀ x, X x → x < h.next ∧ ¬ ReflTransGen (Holds h) x l) : Tidy h' := by
  have hnext : h'.next = h.next := by
    obtain ⟨n, lis, lis', -, -, -, rfl⟩ := hch
    rfl
  refine ⟨fun b c hh => ?_, ht.acyclic.insert (l := l) fun b c hh => ?_⟩
  · rw [hnext]
    rcases hch.holds b c hh with hold | ⟨rfl, hx⟩
    · exact ht.closed b c hold
    · exact ⟨hlt, (hX c hx).1⟩
  · rcases hch.holds b c hh with hold | ⟨rfl, hx⟩
    · exact .inl hold
    · exact .inr ⟨rfl, (hX c hx).2⟩

/-! ### Commands -/

/-- What a command leaves: nothing is in itself, and what was an item of nothing, and is not
among `args`, still is not. -/
structure Leaves (args : List Addr) (h h' : Heap F) : Prop where
  next : h.next ≤ h'.next
  tidy : Tidy h'
  unheld : ∀ d < h.next, d ∉ args → (∀ a, ¬ Holds h a d) → ∀ a, ¬ Holds h' a d

theorem Grows.leaves {args : List Addr} {h h' : Heap F} (hg : Grows h h') (ht : Tidy h) :
    Leaves args h h' where
  next := hg.next
  tidy := hg.tidy ht
  unheld d hd _ hn a hh := hn a (hg.old a d hd hh)

/-- Conversions, and then a change that puts the objects `X` into `l`. -/
theorem Grows.changed {X : Addr → Prop} {args : List Addr} {l : Addr} {h h₁ h' : Heap F}
    (hg : Grows h h₁) (ht : Tidy h) (hl : l < h.next)
    (hch : Changed (fun x => Holds h₁ l x ∨ X x) l h₁ h')
    (hX : ∀ x, X x → x < h₁.next ∧ ¬ ReflTransGen (Holds h₁) x l)
    (hargs : ∀ x, X x → x ∈ args ∨ ∃ a, Holds h₁ a x) : Leaves args h h' where
  next := by
    obtain ⟨n, lis, lis', -, -, -, rfl⟩ := hch
    exact hg.next
  tidy := (hg.tidy ht).changed (Nat.lt_of_lt_of_le hl hg.next) hch hX
  unheld d hd hda hn a hh := by
    have hn₁ : ∀ a, ¬ Holds h₁ a d := fun a hh => hn a (hg.old a d hd hh)
    rcases hch.holds a d hh with hold | ⟨-, hx⟩
    · exact hn₁ a hold
    · rcases hargs d hx with hmem | ⟨a', ha'⟩
      · exact hda hmem
      · exact hn₁ a' ha'

theorem Tidy.val {h : Heap F} (ht : Tidy h) {a : Addr} (ha : a < h.next) : ∃ b, Val N h a b := by
  obtain ⟨b, h', hok⟩ := ht.asStr_ok (N := N) ha
  exact ⟨b, ((asStr_returns N a h).ok hok).2.1⟩

/-- The comparison of two objects, which are hashed first. -/
theorem Tidy.eq_ok {h : Heap F} (ht : Tidy h) {a c : Addr} (ha : a < h.next) (hc : c < h.next) :
    ∃ r h', (do objHash N a; objHash N c; objEq a c) h = .ok r h' := by
  obtain ⟨x, hx⟩ := ht.val (N := N) ha
  obtain ⟨y, hy⟩ := ht.val (N := N) hc
  obtain ⟨h₁, hhash₁, hcalm₁, hhashed⟩ := objHash_spec ht.closed ha hx
  have hc₁ : c < h₁.next := hcalm₁.next.symm ▸ hc
  obtain ⟨h₂, hhash₂, hcalm₂, hhashed₂⟩ := objHash_spec (hcalm₁.closed ht.closed) hc₁ (hcalm₁.val c y hy)
  have ha₂ : a < h₂.next := hcalm₂.next.symm ▸ hcalm₁.next.symm ▸ ha
  refine ⟨decide (x = y), h₂, ?_⟩
  rw [Op.bind_ok hhash₁, Op.bind_ok hhash₂]
  exact objEq_spec ha₂ (hcalm₂.next.symm ▸ hc₁) (hhashed.calm hcalm₂) hhashed₂

theorem Tidy.terminates {h : Heap F} (ht : Tidy h) : Terminates N h where
  acyclic := ht.acyclic
  asStr _ ha := ht.asStr_ok ha
  hash _ ha := objHash_ok (ht.asStr_ok ha)
  eq _ ha _ hc := ht.eq_ok ha hc
  release as rc hc := ⟨_, unref_ends h _ as rc hc (Nat.le_refl _)⟩

theorem vals_of_val {h : Heap F} : ∀ {lis : List Litem}, (∀ li ∈ lis, ∃ b, Val N h li.o b) →
    ∃ bs, Vals N h lis bs
  | [], _ => ⟨[], .nil⟩
  | li :: lis, hv => by
    obtain ⟨b, hb⟩ := hv li List.mem_cons_self
    obtain ⟨bs, hbs⟩ := vals_of_val fun li' hli' => hv li' (List.mem_cons_of_mem li hli')
    exact ⟨b :: bs, .cons hb hbs⟩

/-- What is read as a list has items with strings, and no string changes. -/
theorem asList_texts {a : Addr} {h : Heap F} (ht : Tidy h) :
    Op.Ends (asList N a) h (fun lis h' => (h'.obj a).l = some lis ∧
      (∀ c < h.next, ∀ b, Val N h c b → Val N h' c b) ∧ ∃ bs, Texts N h a bs ∧ Vals N h' lis bs)
      fun _ => True := by
  refine ends_load_bind fun hlt => ?_
  rcases hl : (h.obj a).l with _ | lis
  · refine Op.returns_bind (asStr_returns N a h) fun b h₁ ⟨hs, hv, hsome⟩ => ?_
    rcases hp : doAsList b with e | xs
    · trivial
    · refine Op.returns_bind (tokenItems_returns (N := N) reading_conv xs h₁) ?_
      rintro lis h₂ ⟨-, -, hold, hlis⟩
      refine Op.returns_bind (returns_update a _ h₂) ?_
      rintro _ _ rfl
      have hobj : ∀ c, ((h₂.set a ((h₂.obj a).withItems lis)).obj c).s = (h₂.obj c).s := by
        intro c
        by_cases hc : c = a
        · subst hc
          rw [Heap.set_obj_self]
          rfl
        · rw [Heap.set_obj_of_ne _ _ hc]
      have hclosed : Closed h₁ := ((grows_of_evolve ((Event.strs hs).evolve reading_conv)).tidy ht).closed
      have htr : Transport N h₁ (h₂.set a ((h₂.obj a).withItems lis)) (· < h₁.next) := by
        refine ⟨fun c lis' hc _ hl' li hli => (hclosed c li.o ⟨lis', hl', li, hli, rfl⟩).2, fun c hc => .inr ?_⟩
        by_cases hca : c = a
        · subst hca
          refine ⟨by rw [hobj, hold c hc], fun hn => ?_, fun hn => ?_⟩
          · rw [hsome] at hn
            cases hn
          · rw [hsome] at hn
            cases hn
        · have he : (h₂.set a ((h₂.obj a).withItems lis)).obj c = h₁.obj c := by
            rw [Heap.set_obj_of_ne _ _ hca, hold c hc]
          exact ⟨by rw [he], fun _ => by rw [he], fun _ _ => by rw [he]⟩
      refine Op.ends_pure ⟨by rw [Heap.set_obj_self]; rfl, fun c hc v hcv => ?_, xs, .inr ⟨hl, b, hv, hp⟩, ?_⟩
      · exact (hcv.strs hs).transport htr (hs.next ▸ hc)
      · exact vals_of_strs (hlis.imp fun li x hx => ⟨(hobj li.o).trans hx.1, hx.2⟩)
  · obtain ⟨bs, hbs⟩ := vals_of_val (N := N) fun li hli => ht.val (ht.closed a li.o ⟨lis, hl, li, hli, rfl⟩).2
    exact Op.ends_pure ⟨hl, fun _ _ _ => id, bs, .inl ⟨lis, hl, hbs⟩, hbs⟩

/-- The strings of all objects. -/
theorem Tidy.steady {h : Heap F} (ht : Tidy h) : ∃ str : Addr → Option Bytes, Steady N str h ∧
    ∀ a < h.next, ∃ b, str a = some b := by
  classical
  let str : Addr → Option Bytes := fun a =>
    if ha : a < h.next then some (ht.val (N := N) ha).choose else none
  refine ⟨str, ⟨ht.closed, fun a b hb => ?_⟩, fun a ha => ⟨_, dif_pos ha⟩⟩
  by_cases ha : a < h.next
  · obtain rfl : (ht.val (N := N) ha).choose = b := Option.some.inj ((dif_pos ha).symm.trans hb)
    exact ⟨ha, (ht.val ha).choose_spec⟩
  · rw [show str a = none from dif_neg ha] at hb
    cases hb

/-- Every list of objects with strings is a list of keys and values. -/
theorem pairs_of_str {str : Addr → Option Bytes} {h : Heap F} (hst : Steady N str h) :
    ∀ {lis : List Litem} {bs : List Bytes}, (∀ li ∈ lis, ∃ b, str li.o = some b) → Vals N h lis bs →
      ∃ m, Pairs str lis m ∧ m.keys = keysOf bs
  | [], _, _, .nil => ⟨[], .nil, rfl⟩
  | [kli], _, hstr, .cons hv .nil => by
    obtain ⟨b, hb⟩ := hstr kli List.mem_cons_self
    exact ⟨[], .odd hb, rfl⟩
  | kli :: vli :: lis, _, hstr, .cons hv (.cons _ hvs) => by
    obtain ⟨b, hb⟩ := hstr kli List.mem_cons_self
    obtain ⟨m, hm, hkeys⟩ := pairs_of_str hst (fun li hli =>
      hstr li (List.mem_cons_of_mem _ (List.mem_cons_of_mem _ hli))) hvs
    refine ⟨_, .cons hb hm, ?_⟩
    rw [List.keys_cons, hkeys, (hst.val _ _ hb).2.unique hv]
    rfl

theorem Calm.grows {h h' : Heap F} (hcalm : Calm N h h') : Grows h h' :=
  grows_of_le (Nat.le_of_eq hcalm.next.symm) fun a _ hh => hh.of_l (.inl (hcalm.l a))

theorem Vals.length {h : Heap F} : ∀ {lis : List Litem} {bs : List Bytes}, Vals N h lis bs →
    lis.length = bs.length
  | _, _, .nil => rfl
  | _, _, .cons _ hvs => congrArg (· + 1) hvs.length

/-- `b6b_dict_set` puts the value into the list, and the key if it is not there. -/
theorem dictSet_inserts {h : Heap F} {d k v : Addr} {b : Bytes} {lis : List Litem} {bs : List Bytes}
    (ht : Tidy h) (hk : k < h.next) (hkb : Val N h k b) (hl : (h.obj d).l = some lis)
    (hbs : Vals N h lis bs) :
    Op.Ends (dictSet N d k v) h (fun _ h' => ∃ h₁, Grows h h₁ ∧
      Changed (fun x => Holds h₁ d x ∨ Inserted k v b bs x) d h₁ h') (Grows h) := by
  obtain ⟨str, hst, hstr⟩ := ht.steady (N := N)
  obtain ⟨m, hm, hkeys⟩ := pairs_of_str hst (fun li hli =>
    hstr li.o (ht.closed d li.o ⟨lis, hl, li, hli, rfl⟩).2) hbs
  obtain ⟨h₁, hhash, hcalm, hhashed⟩ := objHash_spec ht.closed hk hkb
  obtain ⟨h₂, hcalm₂, hcase⟩ := dictSetSeek_spec (hst.calm hcalm) (hcalm.next ▸ hk) hhashed hm
  have hg : Grows h h₂ := (hcalm.trans hcalm₂).grows
  refine Op.ends_bind (Q := fun _ h' => h' = h₁) (Op.ends_of (fun _ _ hok => ?_) fun _ hf => ?_) ?_
  · exact (Outcome.ok.inj (hok.symm.trans hhash)).2
  · rw [hhash] at hf
    cases hf
  rintro _ _ rfl
  refine Op.returns_bind (items_returns d _) ?_
  rintro lis' _ ⟨rfl, -, hl'⟩
  obtain rfl : lis = lis' := by
    rw [hcalm.l, hl] at hl'
    exact Option.some.inj hl'
  rw [hkeys, hbs.length] at hcase
  unfold Inserted
  rcases hcase with ⟨kli, vli, hf, hseek⟩ | ⟨hn, heven, hseek⟩ | ⟨-, -, hseek⟩
  · have hfound : b ∈ keysOf bs := by
      rw [← hkeys]
      exact List.dlookup_isSome.mp (by rw [hf.dlookup]; rfl)
    simp only [if_pos hfound]
    unfold Op.Ends
    rw [Op.bind_ok hseek]
    have hset := setItem_returns (G := fun x => Holds h₂ d x ∨ x = v) d vli (.inr rfl) h₂
    refine Op.returns_bind hset fun _ h₃ h23 => ?_
    exact (listFlush_returns d h₃).mono fun _ h₄ h34 => ⟨h₂, hg, h23.flushed h34⟩
  · simp only [if_neg hn]
    unfold Op.Ends
    rw [Op.bind_ok hseek]
    have hadd := listAdd_returns (G := fun x => Holds h₂ d x ∨ Even bs.length ∧ (x = k ∨ x = v)) d
      (.inr ⟨heven, .inl rfl⟩) h₂
    refine Op.returns_bind hadd fun _ h₃ h23 => ?_
    exact (listAdd_returns d (.inr ⟨heven, .inr rfl⟩) h₃).mono fun _ h₄ h34 => ⟨h₂, hg, h23.trans h34⟩
  · unfold Op.Ends
    rw [Op.bind_apply, hseek]
    exact hg

section Commands

variable {h : Heap F} (ht : Tidy h)

include ht in
/-- The list of a command, and what is left if there is none. -/
theorem asList_leaves (as : List Addr) (a : Addr) :
    Op.Ends (asList N a) h (fun lis h' => Grows h h' ∧ (h'.obj a).l = some lis ∧
      (∀ c < h.next, ∀ b, Val N h c b → Val N h' c b) ∧ ∃ bs, Texts N h a bs ∧ Vals N h' lis bs)
      (Leaves as h) :=
  Op.ends_of (fun _ _ hok => ⟨(asList_grows a h).ok hok, (asList_texts ht).ok hok⟩)
    fun _ hf => Grows.leaves ((asList_grows a h).fail hf) ht

include ht in
theorem listNew_leaves {xs : List Addr} (hargs : ∀ a ∈ xs, a < h.next) :
    Op.Ends (exec N (.listNew xs)) h (fun _ => Leaves xs h) (Leaves xs h) := by
  refine Op.returns_bind (listBuild_returns xs h) ?_
  rintro _ _ ⟨rfl, n, lis, rfl, -, rfl⟩
  have htn : Tidy (h.withLi n) := ⟨ht.closed, ht.acyclic⟩
  refine Op.ends_pure ⟨Nat.le_succ _, htn.push ?_, fun d hd hda hn a hh => ?_⟩
  · rintro _ ⟨⟩ li hli
    exact hargs li.o (List.mem_map_of_mem hli)
  · rcases (holds_push_iff _ a d).mp hh with ⟨rfl, _, ⟨⟩, li, hli, rfl⟩ | ⟨-, hold⟩
    · exact hda (List.mem_map_of_mem hli)
    · exact hn a hold

include ht in
theorem listAppend_leaves {l o : Addr} (hl : l < h.next) (ho : o < h.next)
    (hsafe : ∀ x l', Puts N h (.listAppend l o) x l' → ¬ ReflTransGen (Holds h) x l') :
    Op.Ends (exec N (.listAppend l o)) h (fun _ => Leaves [l, o] h) (Leaves [l, o] h) := by
  refine Op.ends_bind (asList_leaves ht _ l) ?_
  rintro lis h₁ ⟨hg, hl₁, -, bs, hbs, -⟩
  have hadd := listAdd_returns (G := fun x => Holds h₁ l x ∨ x = o) l (.inr rfl) h₁
  refine hadd.mono fun _ h₂ hch => hg.changed ht hl hch ?_ ?_
  · rintro x rfl
    refine ⟨Nat.lt_of_lt_of_le ho hg.next, fun hr => ?_⟩
    exact hsafe x l ⟨rfl, rfl, bs, hbs⟩ (hg.reach ht.closed hl hr).2
  · rintro x rfl
    exact .inl (by simp)

include ht in
theorem listExtend_leaves {l l2 : Addr} (hl : l < h.next)
    (hsafe : ∀ x l', Puts N h (.listExtend l l2) x l' → ¬ ReflTransGen (Holds h) x l') :
    Op.Ends (exec N (.listExtend l l2)) h (fun _ => Leaves [l, l2] h) (Leaves [l, l2] h) := by
  refine Op.ends_bind (asList_leaves ht _ l) ?_
  rintro lis h₁ ⟨hg₁, hl₁, -, bs, hbs, -⟩
  have hkeep := asList_grows (N := N) l2 h₁
  refine Op.ends_bind (hkeep.mono (fun _ _ => id) fun _ hg => (grows.trans hg₁ hg).leaves ht) ?_
  intro lis₂ h₂ hg₂
  have hg : Grows h h₂ := grows.trans hg₁ hg₂
  have hext := listExtend_returns (G := fun x => Holds h₂ l x ∨ Holds h₂ l2 x) l l2 h₂
    (fun lis hl li hli => .inl ⟨lis, hl, li, hli, rfl⟩) fun lis hl li hli => .inr ⟨lis, hl, li, hli, rfl⟩
  refine hext.mono fun _ h₃ hch => hg.changed ht hl hch (fun x hx => ?_) fun x hx => .inr ⟨l2, hx⟩
  refine ⟨((hg.tidy ht).closed l2 x hx).2, fun hr => ?_⟩
  obtain ⟨hxlt, hr'⟩ := hg.reach ht.closed hl hr
  exact hsafe x l ⟨rfl, hg.old l2 x hxlt hx, bs, hbs⟩ hr'

include ht in
theorem dictSet_leaves {d k v : Addr} (hd : d < h.next) (hk : k < h.next) (hv : v < h.next)
    (hsafe : ∀ x l', Puts N h (.dictSet d k v) x l' → ¬ ReflTransGen (Holds h) x l') :
    Op.Ends (exec N (.dictSet d k v)) h (fun _ => Leaves [d, k, v] h) (Leaves [d, k, v] h) := by
  refine Op.ends_bind (asList_leaves ht _ d) ?_
  rintro lis h₁ ⟨hg₁, hl₁, hval, bs, hbs, hvs⟩
  obtain ⟨b, hkb⟩ := ht.val (N := N) hk
  have hset := dictSet_inserts (v := v) (hg₁.tidy ht) (Nat.lt_of_lt_of_le hk hg₁.next) (hval k hk b hkb)
    hl₁ hvs
  refine hset.mono (fun _ h₃ hins => ?_) fun _ hg₂ => (grows.trans hg₁ hg₂).leaves ht
  obtain ⟨h₂, hg₂, hch⟩ := hins
  have hg : Grows h h₂ := grows.trans hg₁ hg₂
  have hkv : ∀ x, Inserted k v b bs x → x = k ∨ x = v := fun x hx => hx.one_of
  refine hg.changed ht hd hch (fun x hx => ⟨?_, fun hr => ?_⟩) fun x hx => .inl ?_
  · rcases hkv x hx with rfl | rfl
    · exact Nat.lt_of_lt_of_le hk hg.next
    · exact Nat.lt_of_lt_of_le hv hg.next
  · exact hsafe x d ⟨rfl, bs, b, hbs, hkb, hx⟩ (hg.reach ht.closed hd hr).2
  · rcases hkv x hx with rfl | rfl <;> simp

include ht in
theorem dictUnset_leaves {d : Addr} (k : Addr) (hd : d < h.next) :
    Op.Ends (exec N (.dictUnset d k)) h (fun _ => Leaves [d, k] h) (Leaves [d, k] h) := by
  refine Op.ends_bind (asList_leaves ht _ d) ?_
  rintro lis h₁ ⟨hg₁, hl₁, -⟩
  have hunset := dictUnset_ends (N := N) (G := fun x => Holds h₁ d x ∨ False) reading_conv d k h₁
  refine hunset.mono (fun _ h₃ hq => ?_) fun _ hr => (grows.trans hg₁ (grows_of_evolve hr)).leaves ht
  rcases hq with hr | ⟨h₂, hr, hch⟩
  · exact (grows.trans hg₁ (grows_of_evolve hr)).leaves ht
  · have hg : Grows h h₂ := grows.trans hg₁ (grows_of_evolve hr)
    have hl₂ := (reading_kept (Nat.lt_of_lt_of_le hd hg₁.next) hl₁ hr).1
    have hsame : ∀ x, Holds h₁ d x ↔ Holds h₂ d x := fun x => by
      unfold Holds
      rw [hl₁, hl₂]
    simp only [hsame] at hch
    exact hg.changed ht hd hch (fun _ hx => hx.elim) fun _ hx => hx.elim

end Commands

/-- **A command that puts nothing into a list that is in it** leaves the graph without a cycle. -/
theorem exec_leaves (c : Cmd) {h : Heap F} (ht : Tidy h) (hargs : ∀ a ∈ c.args, a < h.next)
    (hsafe : ∀ x l, Puts N h c x l → ¬ ReflTransGen (Holds h) x l) :
    Op.Ends (exec N c) h (fun _ => Leaves c.args h) (Leaves c.args h) := by
  have hconv : ∀ {α : Type} {x : Op (Heap F) α}, Op.Keeps grows x →
      Op.Ends x h (fun _ => Leaves c.args h) (Leaves c.args h) := fun hx =>
    (hx h).mono (fun _ _ hg => hg.leaves ht) fun _ hg => hg.leaves ht
  cases c with
  | str b =>
    exact hconv (Op.keeps_bind (keeps_grows (allocStr_keeps (N := N) reading_conv b)) fun _ => Op.keeps_pure _)
  | listNew xs => exact listNew_leaves ht hargs
  | listAppend l o => exact listAppend_leaves ht (hargs l (by simp [Cmd.args])) (hargs o (by simp [Cmd.args])) hsafe
  | listExtend l l2 => exact listExtend_leaves ht (hargs l (by simp [Cmd.args])) hsafe
  | listIndex l i =>
    refine hconv (Op.keeps_bind (asList_grows l) fun _ => ?_)
    exact Op.keeps_bind (keeps_grows (asInt_keeps reading_conv i)) fun _ => Op.keeps_pure _
  | dictSet d k v =>
    exact dictSet_leaves ht (hargs d (by simp [Cmd.args])) (hargs k (by simp [Cmd.args]))
      (hargs v (by simp [Cmd.args])) hsafe
  | dictUnset d k => exact dictUnset_leaves ht k (hargs d (by simp [Cmd.args]))
  | asStr a =>
    exact hconv (Op.keeps_bind (keeps_grows (asStr_keeps reading_conv a)) fun _ => Op.keeps_pure _)

/-! ### Runs -/

/-- The objects, and the dictionaries that hold the bindings of the frames. -/
structure World (F : Type) where
  heap : Heap F
  scopes : List Addr

/-- No objects, and no frames. -/
def World.empty : World F := ⟨Heap.empty, []⟩

/-- A command of a script, a new frame, or a name that is bound in one. A script is never
given the dictionary of a frame. -/
inductive Deed
  | cmd (c : Cmd)
  | scope
  | bind (d k v : Addr)

/-- One deed. -/
def act (N : Num F) (w : World F) : Deed → Option (World F)
  | .cmd c =>
    if ∀ a ∈ c.args, a < w.heap.next ∧ a ∉ w.scopes then
      (Op.state? (exec N c w.heap)).map fun h => { w with heap := h }
    else none
  | .scope => some ⟨w.heap.push (.ofList []), w.heap.next :: w.scopes⟩
  | .bind d k v =>
    if d ∈ w.scopes ∧ ∀ a ∈ [k, v], a < w.heap.next ∧ a ∉ w.scopes then
      (Op.state? (dictSet N d k v w.heap)).map fun h => { w with heap := h }
    else none

/-- Nothing is put into a list that is in it. -/
def Deed.Safe (N : Num F) (w : World F) : Deed → Prop
  | .cmd c => ∀ x l, Puts N w.heap c x l → ¬ ReflTransGen (Holds w.heap) x l
  | _ => True

/-- Nothing is in itself, and the dictionaries of the frames are in nothing. -/
structure World.Good (w : World F) : Prop where
  tidy : Tidy w.heap
  scope : ∀ d ∈ w.scopes, d < w.heap.next ∧ ∀ a, ¬ Holds w.heap a d

/-- A binding puts nothing into a list that is in it: nothing holds the dictionary of a frame. -/
theorem bind_leaves {h : Heap F} {d k v : Addr} (ht : Tidy h) (hd : d < h.next) (hk : k < h.next)
    (hv : v < h.next) (hdk : k ≠ d) (hdv : v ≠ d) (hn : ∀ a, ¬ Holds h a d) :
    Op.Ends (dictSet N d k v) h (fun _ => Leaves [k, v] h) (Leaves [k, v] h) := by
  obtain ⟨b, hkb⟩ := ht.val (N := N) hk
  rcases hl : (h.obj d).l with _ | lis
  · obtain ⟨h₁, hhash, hcalm, -⟩ := objHash_spec ht.closed hk hkb
    unfold Op.Ends dictSet
    rw [Op.bind_ok hhash]
    refine Op.returns_bind (items_returns d h₁) ?_
    rintro lis _ ⟨rfl, -, hl₁⟩
    rw [hcalm.l, hl] at hl₁
    cases hl₁
  · obtain ⟨bs, hbs⟩ := vals_of_val (N := N) fun li hli => ht.val (ht.closed d li.o ⟨lis, hl, li, hli, rfl⟩).2
    refine (dictSet_inserts (v := v) ht hk hkb hl hbs).mono (fun _ h₂ ⟨h₁, hg, hch⟩ => ?_) fun _ hg =>
      hg.leaves ht
    have hkv : ∀ x, Inserted k v b bs x → x = k ∨ x = v := fun x hx => hx.one_of
    refine hg.changed ht hd hch (fun x hx => ⟨?_, fun hr => ?_⟩) fun x hx => .inl ?_
    · rcases hkv x hx with rfl | rfl
      · exact Nat.lt_of_lt_of_le hk hg.next
      · exact Nat.lt_of_lt_of_le hv hg.next
    · rcases (hg.reach ht.closed hd hr).2.cases_tail with he | ⟨a, -, ha⟩
      · rcases hkv x hx with rfl | rfl
        · exact hdk he.symm
        · exact hdv he.symm
      · exact hn a ha
    · rcases hkv x hx with rfl | rfl <;> simp

theorem World.good_empty : (World.empty : World F).Good where
  tidy := ⟨closed_empty, fun a ha => by
    obtain ⟨b, hab, -⟩ := TransGen.head'_iff.mp ha
    exact absurd (closed_empty a b hab).1 (Nat.not_lt_zero _)⟩
  scope _ hd := nomatch hd

/-- What a deed leaves of the heap, it leaves of a good world. -/
theorem World.Good.leaves {w : World F} (hw : w.Good) {args : List Addr} {h' : Heap F}
    (hargs : ∀ a ∈ args, a ∉ w.scopes) (hle : Leaves args w.heap h') :
    ({ w with heap := h' } : World F).Good where
  tidy := hle.tidy
  scope d hd := by
    obtain ⟨hlt, hn⟩ := hw.scope d hd
    exact ⟨Nat.lt_of_lt_of_le hlt hle.next, hle.unheld d hlt (fun hmem => hargs d hmem hd) hn⟩

theorem act_good {w w' : World F} {c : Deed} (hw : w.Good) (hs : c.Safe N w) (hact : act N w c = some w') :
    w'.Good := by
  cases c with
  | cmd c =>
    simp only [act] at hact
    by_cases hargs : ∀ a ∈ c.args, a < w.heap.next ∧ a ∉ w.scopes
    · rw [if_pos hargs] at hact
      obtain ⟨h', hstate, rfl⟩ := Option.map_eq_some_iff.mp hact
      have hle := (exec_leaves c hw.tidy (fun a ha => (hargs a ha).1) hs).state hstate
      exact hw.leaves (fun a ha => (hargs a ha).2) hle
    · rw [if_neg hargs] at hact
      cases hact
  | scope =>
    obtain rfl := Option.some.inj hact
    refine ⟨hw.tidy.push fun _ hl li hli => ?_, fun d hd => ?_⟩
    · obtain rfl := Option.some.inj hl
      cases hli
    · have hheld : ∀ a c, Holds (w.heap.push (.ofList [])) a c → Holds w.heap a c := by
        intro a c hh
        rcases (holds_push_iff _ a c).mp hh with ⟨-, _, hl, li, hli, -⟩ | ⟨-, hold⟩
        · obtain rfl := Option.some.inj hl
          cases hli
        · exact hold
      rcases List.mem_cons.mp hd with rfl | hd
      · refine ⟨Nat.lt_succ_self _, fun a hh => ?_⟩
        exact absurd (hw.tidy.closed a _ (hheld a _ hh)).2 (Nat.lt_irrefl _)
      · obtain ⟨hlt, hn⟩ := hw.scope d hd
        exact ⟨Nat.lt_succ_of_lt hlt, fun a hh => hn a (hheld a d hh)⟩
  | bind d k v =>
    simp only [act] at hact
    by_cases hargs : d ∈ w.scopes ∧ ∀ a ∈ [k, v], a < w.heap.next ∧ a ∉ w.scopes
    · rw [if_pos hargs] at hact
      obtain ⟨h', hstate, rfl⟩ := Option.map_eq_some_iff.mp hact
      obtain ⟨hd, hkv⟩ := hargs
      obtain ⟨hlt, hn⟩ := hw.scope d hd
      obtain ⟨hk, hks⟩ := hkv k (by simp)
      obtain ⟨hv, hvs⟩ := hkv v (by simp)
      have hdk : k ≠ d := fun he => hks (he ▸ hd)
      have hdv : v ≠ d := fun he => hvs (he ▸ hd)
      have hle := (bind_leaves (N := N) hw.tidy hlt hk hv hdk hdv hn).state hstate
      exact hw.leaves (fun a ha => (hkv a ha).2) hle
    · rw [if_neg hargs] at hact
      cases hact

/-- **Objects stay out of themselves.** In every run from no objects at all in which nothing is
put into a list that is in it, no object is ever in itself, and conversions and releases
end. -/
theorem acyclic_run (N : Num F) (deeds : List Deed)
    (hs : Runs.EachStep (act N) (fun w c => c.Safe N w) World.empty deeds) :
    Runs.Throughout (act N) (fun w => Terminates N w.heap) World.empty deeds := by
  have hrun : Runs.Throughout (act N) World.Good World.empty deeds :=
    Runs.throughout_of_eachStep (fun _ _ _ hw hs hact => act_good hw hs hact) World.good_empty hs
  exact hrun.mono fun _ hw => hw.tidy.terminates

/-- From the objects below `n` no other is reached, if they hold none. -/
theorem not_reached {h : Heap F} {n x l : ℕ} (hn : ∀ b < n, ∀ li ∈ (h.obj b).l.getD [], li.o < n)
    (hx : x < n) (hl : n ≤ l) : ¬ ReflTransGen (Holds h) x l := by
  intro hr
  have hlt : ∀ {c}, ReflTransGen (Holds h) x c → c < n := by
    intro c hc
    induction hc with
    | refl => exact hx
    | tail _ hstep ih =>
      obtain ⟨lis, hlis, li, hli, rfl⟩ := hstep
      exact hn _ ih li (by rwa [hlis])
  exact absurd (hlt hr) (Nat.not_lt_of_le hl)

/-- A string is put into a list, both into a dictionary, and the items of the dictionary into another list,
which is bound to the string. -/
def fillLists : List Deed :=
  [.cmd (.str (bytes "a")), .cmd (.listNew []), .cmd (.listAppend 1 0), .cmd (.listNew []), .cmd (.dictSet 2 0 1),
    .cmd (.listNew []), .cmd (.listExtend 3 2), .scope, .bind 4 0 3]

/-- Nothing of it is put into a list that is in it. -/
theorem fill_lists : Runs.Throughout (act wholeNum) (fun w => Terminates wholeNum w.heap) World.empty
    fillLists := by
  refine acyclic_run wholeNum fillLists ⟨nofun, nofun, ?_, nofun, ?_, nofun, ?_, trivial, trivial, trivial⟩
  · rintro x l ⟨rfl, rfl, -⟩
    exact not_reached (n := 1) (by decide) (by decide) (by decide)
  · rintro x l ⟨rfl, bs, b, -, -, hx⟩
    refine not_reached (n := 2) (by decide) ?_ (by decide)
    rcases hx.one_of with rfl | rfl <;> decide
  · rintro x l ⟨rfl, ⟨lis, hlis, li, hli, rfl⟩, -⟩
    have hitems : ∀ li ∈ lis, li.o < 2 := Option.some.inj hlis ▸ by decide
    exact not_reached (n := 3) (by decide) (Nat.lt_succ_of_lt (hitems li hli)) (by decide)

/-- A list is put into itself. -/
def appendItself : List Deed := [.cmd (.listNew []), .cmd (.listAppend 0 0)]

/-- It is in itself then. -/
theorem append_itself : ¬ ∀ deeds : List Deed,
    Runs.Throughout (act wholeNum) (fun w => Terminates wholeNum w.heap) World.empty deeds := by
  intro hall
  obtain ⟨-, -, hlast⟩ := hall appendItself
  exact hlast.acyclic 0 (.single ⟨_, rfl, _, List.mem_singleton.mpr rfl, rfl⟩)

end B6b
