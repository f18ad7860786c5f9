/-
# What a change of the heap can be

The string of an object is what `b6b_as_str` leaves in it (`Val`). The conversion keeps
it: it changes nothing but to set the strings of objects that had none, each to its own
string (`Strs`, `asStr_spec`).

Every operation changes the heap in steps of a few kinds (`Event`): a new object, a kept
representation, items of a list changed with or without a flush. `evolve P` is the frame
of operations whose steps are all of kinds in `P`; the lemmas of this module put every
operation in its frame, and what a step keeps is then shown once for each kind.

Key definitions: `Val`, `Strs`, `Touch`, `Event`, `evolve`.
-/
import Mathlib.Data.List.Forall2
import Mathlib.Logic.Relation
import B6b.Container

namespace B6b

variable {F : Type}

/-! ### The string of an object -/

mutual

/-- `b` is the string of the object at `a`: the one it keeps, or the one its items or its
number give. -/
inductive Val (N : Num F) (h : Heap F) : Addr → Bytes → Prop
  | str {a b} (hs : (h.obj a).s = some b) : Val N h a b
  | list {a lis bs} (hs : (h.obj a).s = none) (hl : (h.obj a).l = some lis)
      (hv : Vals N h lis bs) : Val N h a (listStr bs)
  | num {a} (hs : (h.obj a).s = none) (hl : (h.obj a).l = none) : Val N h a (numStr N (h.obj a))

/-- The strings of the items of a list. -/
inductive Vals (N : Num F) (h : Heap F) : List Litem → List Bytes → Prop
  | nil : Vals N h [] []
  | cons {li lis b bs} (hv : Val N h li.o b) (hvs : Vals N h lis bs) : Vals N h (li :: lis) (b :: bs)

end

mutual

theorem Val.unique {N : Num F} {h : Heap F} {a : Addr} {b c : Bytes} :
    Val N h a b → Val N h a c → b = c
  | .str hs, hc => by
    cases hc with
    | str hs' => exact Option.some.inj (hs.symm.trans hs')
    | list hs' => simp [hs] at hs'
    | num hs' => simp [hs] at hs'
  | .list hs hl hv, hc => by
    cases hc with
    | str hs' => simp [hs] at hs'
    | list _ hl' hv' =>
      obtain rfl := Option.some.inj (hl.symm.trans hl')
      rw [Vals.unique hv hv']
    | num _ hl' => simp [hl] at hl'
  | .num hs hl, hc => by
    cases hc with
    | str hs' => simp [hs] at hs'
    | list _ hl' => simp [hl] at hl'
    | num => rfl

theorem Vals.unique {N : Num F} {h : Heap F} {lis : List Litem} {bs cs : List Bytes} :
    Vals N h lis bs → Vals N h lis cs → bs = cs
  | .nil, hc => by cases hc; rfl
  | .cons hv hvs, hc => by
    cases hc with
    | cons hv' hvs' => rw [Val.unique hv hv', Vals.unique hvs hvs']

end

/-! ### The conversion to a string -/

/-- Strings are set: objects that had none may have theirs now. -/
structure Strs (N : Num F) (h h' : Heap F) : Prop where
  next : h'.next = h.next
  nextLi : h'.nextLi = h.nextLi
  obj : ∀ a, h'.obj a = h.obj a ∨
    ((h.obj a).s = none ∧ ∃ b, Val N h a b ∧ h'.obj a = (h.obj a).withStr b)

theorem Strs.refl (N : Num F) (h : Heap F) : Strs N h h := ⟨rfl, rfl, fun _ => .inl rfl⟩

/-- Everything of an object but its string, and so its hash, is as it was. -/
theorem Strs.same {N : Num F} {h h' : Heap F} (hs : Strs N h h') {α : Type} (g : Obj F → α)
    (hg : ∀ o b, g (o.withStr b) = g o) (a : Addr) : g (h'.obj a) = g (h.obj a) := by
  rcases hs.obj a with he | ⟨-, b, -, he⟩
  · rw [he]
  · rw [he, hg]

theorem Strs.l {N : Num F} {h h' : Heap F} (hs : Strs N h h') (a : Addr) :
    (h'.obj a).l = (h.obj a).l :=
  hs.same Obj.l (fun _ _ => rfl) a

theorem Strs.s_of_none {N : Num F} {h h' : Heap F} (hs : Strs N h h') {a : Addr}
    (ha : (h'.obj a).s = none) : h'.obj a = h.obj a := by
  rcases hs.obj a with he | ⟨-, b, -, he⟩
  · exact he
  · rw [he] at ha
    cases ha

theorem Strs.s_of_some {N : Num F} {h h' : Heap F} (hs : Strs N h h') {a : Addr} {b : Bytes}
    (ha : (h.obj a).s = some b) : h'.obj a = h.obj a := by
  rcases hs.obj a with he | ⟨hn, -⟩
  · exact he
  · rw [ha] at hn
    cases hn

mutual

/-- Setting strings gives no object another string than its own. -/
theorem Val.of_strs {N : Num F} {h h' : Heap F} (hs : Strs N h h') {a : Addr} {b : Bytes} :
    Val N h' a b → Val N h a b
  | .str ha => by
    rcases hs.obj a with he | ⟨-, c, hc, he⟩
    · exact .str (by rw [← he, ha])
    · rw [he] at ha
      obtain rfl : c = b := Option.some.inj ha
      exact hc
  | .list ha hl hv => by
    have he := hs.s_of_none ha
    rw [he] at ha hl
    exact .list ha hl (Vals.of_strs hs hv)
  | .num ha hl => by
    have he := hs.s_of_none ha
    rw [he] at ha hl ⊢
    exact .num ha hl

theorem Vals.of_strs {N : Num F} {h h' : Heap F} (hs : Strs N h h') {lis : List Litem}
    {bs : List Bytes} : Vals N h' lis bs → Vals N h lis bs
  | .nil => .nil
  | .cons hv hvs => .cons (Val.of_strs hs hv) (Vals.of_strs hs hvs)

end

mutual

/-- Setting strings leaves every object its string. -/
theorem Val.strs {N : Num F} {h h' : Heap F} (hs : Strs N h h') {a : Addr} {b : Bytes} :
    Val N h a b → Val N h' a b
  | .str ha => .str (by rw [hs.s_of_some ha, ha])
  | .list ha hl hv => by
    have hvs := Vals.strs hs hv
    rcases hs.obj a with he | ⟨-, c, hc, he⟩
    · exact .list (by rw [he, ha]) (by rw [he, hl]) hvs
    · obtain rfl := hc.unique (.list ha hl hv)
      exact .str (by rw [he]; rfl)
  | .num ha hl => by
    rcases hs.obj a with he | ⟨-, c, hc, he⟩
    · have := Val.num (N := N) (h := h') (a := a) (by rw [he, ha]) (by rw [he, hl])
      rwa [he] at this
    · obtain rfl := hc.unique (.num ha hl)
      exact .str (by rw [he]; rfl)

theorem Vals.strs {N : Num F} {h h' : Heap F} (hs : Strs N h h') {lis : List Litem}
    {bs : List Bytes} : Vals N h lis bs → Vals N h' lis bs
  | .nil => .nil
  | .cons hv hvs => .cons (Val.strs hs hv) (Vals.strs hs hvs)

end

theorem Strs.trans {N : Num F} {h₁ h₂ h₃ : Heap F} (h12 : Strs N h₁ h₂) (h23 : Strs N h₂ h₃) :
    Strs N h₁ h₃ := by
  refine ⟨h23.next.trans h12.next, h23.nextLi.trans h12.nextLi, fun a => ?_⟩
  rcases h12.obj a with he | ⟨hn, b, hb, he⟩
  · rcases h23.obj a with he' | ⟨hn', b, hb, he'⟩
    · exact .inl (he'.trans he)
    · exact .inr ⟨by rw [← he, hn'], b, Val.of_strs h12 hb, by rw [he', he]⟩
  · refine .inr ⟨hn, b, hb, ?_⟩
    rw [h23.s_of_some (b := b) (by rw [he]; rfl), he]

/-- The string of one object is set, behind the strings of others. -/
theorem Strs.set {N : Num F} {h h' : Heap F} (hs : Strs N h h') {a : Addr} {b : Bytes}
    (ha : (h.obj a).s = none) (hv : Val N h a b) :
    Strs N h (h'.set a ((h'.obj a).withStr b)) := by
  refine ⟨hs.next, hs.nextLi, fun c => ?_⟩
  by_cases hc : c = a
  · subst hc
    refine .inr ⟨ha, b, hv, ?_⟩
    rw [Heap.set_obj_self]
    rcases hs.obj c with he | ⟨-, b', -, he⟩ <;> rw [he]
    rfl
  · rw [Heap.set_obj_of_ne _ _ hc]
    exact hs.obj c

theorem joinLoop_returns {N : Num F} {f : Addr → Op (Heap F) Bytes}
    (hf : ∀ a h, Op.Returns (f a) h fun b h' => Strs N h h' ∧ Val N h a b) :
    ∀ (lis : List Litem) (s : Option Bytes) (h : Heap F),
      Op.Returns (joinLoop f lis s) h fun s' h' => Strs N h h' ∧
        ∃ bs, Vals N h lis bs ∧ s' = bs.foldl (fun s x => some (joinItem s x)) s
  | [], s, h => Op.ends_pure ⟨Strs.refl N h, [], .nil, rfl⟩
  | li :: lis, s, h => by
    refine Op.returns_bind (hf li.o h) fun b h₁ ⟨hs₁, hb⟩ => ?_
    refine (joinLoop_returns hf lis _ h₁).mono fun s' h₂ ⟨hs₂, bs, hbs, he⟩ => ?_
    exact ⟨hs₁.trans hs₂, b :: bs, .cons hb (hbs.of_strs hs₁), he⟩

theorem load_apply (a : Addr) (h : Heap F) :
    load a h = if a < h.next then .ok (h.obj a) h else .crash := rfl

theorem ends_load_bind {a : Addr} {h : Heap F} {α : Type} {k : Obj F → Op (Heap F) α}
    {Q : α → Heap F → Prop} {E : Heap F → Prop}
    (hk : a < h.next → Op.Ends (k (h.obj a)) h Q E) : Op.Ends (load a >>= k) h Q E := by
  unfold Op.Ends
  rw [Op.bind_apply, load_apply]
  by_cases ha : a < h.next
  · rw [if_pos ha]
    exact hk ha
  · rw [if_neg ha]
    trivial

theorem returns_update (a : Addr) (g : Obj F → Obj F) (h : Heap F) :
    Op.Returns (update a g) h fun _ h' => h' = h.set a (g (h.obj a)) :=
  Op.ends_modify rfl

theorem listStr_eq (bs : List Bytes) :
    listStr bs = (bs.foldl (fun s x => some (joinItem s x)) none).getD [lbrac, rbrac] := by
  unfold listStr
  cases bs.foldl (fun s x => some (joinItem s x)) none <;> rfl

/-- **The conversion to a string.** If it returns, the object's string is set, and so may be
strings of others; it does not fail. -/
theorem asStrAux_returns (N : Num F) : ∀ (n : ℕ) (a : Addr) (h : Heap F),
    Op.Returns (asStrAux N n a) h fun b h' => Strs N h h' ∧ Val N h a b ∧ (h'.obj a).s = some b
  | 0, _, _ => Op.ends_crash
  | n + 1, a, h => by
    refine ends_load_bind fun _ => ?_
    rcases hs : (h.obj a).s with _ | b
    · rcases hl : (h.obj a).l with _ | lis
      · have hv : Val N h a (numStr N (h.obj a)) := .num hs hl
        refine Op.returns_bind (returns_update a _ h) ?_
        rintro _ _ rfl
        exact ⟨(Strs.refl N h).set hs hv, hv, by simp [Obj.withStr]⟩
      · refine Op.returns_bind (joinLoop_returns (fun a h =>
          (asStrAux_returns N n a h).mono fun b h' hb => ⟨hb.1, hb.2.1⟩) lis none h) ?_
        rintro s h₁ ⟨hs₁, bs, hbs, rfl⟩
        have hv : Val N h a (listStr bs) := .list hs hl hbs
        rw [← listStr_eq]
        refine Op.returns_bind (returns_update a _ h₁) ?_
        rintro _ _ rfl
        exact ⟨hs₁.set hs hv, hv, by simp [Obj.withStr]⟩
    · exact Op.ends_pure ⟨Strs.refl N h, .str hs, hs⟩

/-- `b6b_as_str` -/
theorem asStr_returns (N : Num F) (a : Addr) (h : Heap F) :
    Op.Returns (asStr N a) h fun b h' => Strs N h h' ∧ Val N h a b ∧ (h'.obj a).s = some b :=
  asStrAux_returns N (h.next + 1) a h

/-! ### The steps of a change -/

/-- What a step of a change does to objects that were there before. -/
inductive Touch
  /-- It keeps a string, a number or a hash; or a string object is new. -/
  | conv
  /-- Nothing: another object is new. -/
  | build
  /-- It keeps the items of the string of `a`. -/
  | list (a : Addr)
  /-- It changes the items of `a`, and flushes. -/
  | change (a : Addr)
  /-- It changes the items of `a`, and does not flush. -/
  | pop (a : Addr)
deriving DecidableEq

/-- The float that `b6b_as_float` computes. -/
def FloatOf (N : Num F) (o : Obj F) (f : F) : Prop :=
  (∃ b, o.s = some b ∧ strFloat N b = some f) ∨
    (o.s = none ∧ o.l = none ∧ f = N.ofInt (o.i.getD 0))

/-- A step of a change of the heap. -/
inductive Event (N : Num F) : Touch → Heap F → Heap F → Prop
  | str {h} (b : Bytes) : Event N .conv h (h.push (.ofStr b))
  | litem {h n} (hn : h.nextLi ≤ n) : Event N .conv h { h with nextLi := n }
  | strs {h h'} (hs : Strs N h h') : Event N .conv h h'
  | float {h a f} (ha : (h.obj a).f = none) (hf : FloatOf N (h.obj a) f) :
      Event N .conv h (h.set a ((h.obj a).withFloat f))
  | int {h a f i} (ha : (h.obj a).i = none) (hf : (h.obj a).f = some f) (hi : N.floor f = some i) :
      Event N .conv h (h.set a ((h.obj a).withInt i))
  | hash {h a b} (hs : (h.obj a).s = some b) : Event N .conv h (h.set a (h.obj a).withHash)
  | build {h} (o : Obj F) : Event N .build h (h.push o)
  | list {h a b xs lis} (hs : (h.obj a).s = some b) (hl : (h.obj a).l = none)
      (hp : doAsList b = .ok xs)
      (hlis : List.Forall₂ (fun li x => (h.obj li.o).s = some x ∧ li.o < h.next) lis xs) :
      Event N (.list a) h (h.set a ((h.obj a).withItems lis))
  | change {h a} (lis : List Litem) (hl : (h.obj a).l.isSome) :
      Event N (.change a) h (h.set a ((h.obj a).flushed lis))
  | pop {h a old lis} (hl : (h.obj a).l = some old) (hsub : lis.Sublist old) :
      Event N (.pop a) h (h.set a ((h.obj a).withItems lis))

/-- The frame of operations whose steps are all of kinds in `P`. -/
def evolve (N : Num F) (P : Touch → Prop) : Op.Frame (Heap F) where
  Rel := Relation.ReflTransGen fun h h' => ∃ t, P t ∧ Event N t h h'
  refl _ := .refl
  trans := .trans

/-- What every step of a kind in `P` keeps, every change of kinds in `P` keeps. -/
theorem evolve_invariant {N : Num F} {P : Touch → Prop} {I : Heap F → Prop}
    (hI : ∀ t h h', P t → Event N t h h' → I h → I h') {h h' : Heap F}
    (hr : (evolve N P).Rel h h') (hi : I h) : I h' := by
  induction hr with
  | refl => exact hi
  | tail _ he ih =>
    obtain ⟨t, ht, he⟩ := he
    exact hI t _ _ ht he ih

/-- A change of other kinds is a change of more kinds. -/
theorem evolve_mono {N : Num F} {P Q : Touch → Prop} (hPQ : ∀ t, P t → Q t) {h h' : Heap F}
    (hr : (evolve N P).Rel h h') : (evolve N Q).Rel h h' :=
  Relation.ReflTransGen.mono (fun _ _ ⟨t, ht, he⟩ => ⟨t, hPQ t ht, he⟩) _ _ hr

/-! ### What a step keeps -/

theorem Event.next_le {N : Num F} {t : Touch} {h h' : Heap F} (he : Event N t h h') :
    h.next ≤ h'.next := by
  cases he with
  | str | build => exact Nat.le_succ _
  | strs hs => exact Nat.le_of_eq hs.next.symm
  | litem | float | int | hash | list | change | pop => exact Nat.le_refl _

/-- What `g` reads of an object is kept, if every kind of step keeps it at its object. -/
theorem Event.kept {N : Num F} {t : Touch} {h h' : Heap F} (he : Event N t h h') {a : Addr}
    (ha : a < h.next) (K : Obj F → Prop) (hk : K (h.obj a))
    (hstr : ∀ b, (h.obj a).s = none → Val N h a b → K ((h.obj a).withStr b))
    (hint : ∀ i, (h.obj a).i = none → K ((h.obj a).withInt i))
    (hfloat : ∀ f, (h.obj a).f = none → FloatOf N (h.obj a) f → K ((h.obj a).withFloat f))
    (hhash : K (h.obj a).withHash)
    (hlist : t = .list a → ∀ b xs lis, (h.obj a).s = some b → (h.obj a).l = none →
      doAsList b = .ok xs → lis.length = xs.length → K ((h.obj a).withItems lis))
    (hchange : t = .change a → ∀ lis, (h.obj a).l.isSome → K ((h.obj a).flushed lis))
    (hpop : t = .pop a → ∀ old lis, (h.obj a).l = some old → lis.Sublist old →
      K ((h.obj a).withItems lis)) : K (h'.obj a) := by
  -- a step at another object leaves this one as it is
  have at_set : ∀ {c o}, (c = a → K o) → K ((h.set c o).obj a) := by
    intro c o hco
    by_cases hc : c = a
    · subst hc
      rw [Heap.set_obj_self]
      exact hco rfl
    · rwa [Heap.set_obj_of_ne _ _ (Ne.symm hc)]
  cases he with
  | str b => rwa [Heap.push_obj_of_ne _ _ (Nat.ne_of_lt ha)]
  | build o => rwa [Heap.push_obj_of_ne _ _ (Nat.ne_of_lt ha)]
  | litem => exact hk
  | strs hs =>
    rcases hs.obj a with he | ⟨hn, b, hb, he⟩
    · rwa [he]
    · rw [he]
      exact hstr b hn hb
  | float hf hx => exact at_set fun hc => by subst hc; exact hfloat _ hf hx
  | int hi => exact at_set fun hc => by subst hc; exact hint _ hi
  | hash => exact at_set fun hc => by subst hc; exact hhash
  | list hs hl hp hlis =>
    exact at_set fun hc => by subst hc; exact hlist rfl _ _ _ hs hl hp hlis.length_eq
  | change lis hl => exact at_set fun hc => by subst hc; exact hchange rfl lis hl
  | pop hl hsub => exact at_set fun hc => by subst hc; exact hpop rfl _ _ hl hsub

/-- A string stays, unless the object is changed in place. -/
theorem Event.str_kept {N : Num F} {t : Touch} {h h' : Heap F} (he : Event N t h h') {a : Addr}
    {b : Bytes} (ht : t ≠ .change a) (ha : a < h.next) (hs : (h.obj a).s = some b) :
    (h'.obj a).s = some b := by
  refine he.kept ha (·.s = some b) hs (fun _ hn _ => ?_) (fun _ _ => hs) (fun _ _ _ => hs) ?_
    (fun _ _ _ _ _ _ _ _ => hs) (fun hc => absurd hc ht) fun _ _ _ _ _ => hs
  · rw [hs] at hn
    cases hn
  · unfold Obj.withHash
    split <;> exact hs

/-- The items of a list stay, unless it is changed in place. -/
theorem Event.list_kept {N : Num F} {t : Touch} {h h' : Heap F} (he : Event N t h h') {a : Addr}
    {lis : List Litem} (hc : t ≠ .change a) (hp : t ≠ .pop a) (ha : a < h.next)
    (hl : (h.obj a).l = some lis) : (h'.obj a).l = some lis := by
  refine he.kept ha (·.l = some lis) hl (fun _ _ _ => hl) (fun _ _ => hl) (fun _ _ _ => hl) ?_
    (fun _ _ _ _ _ hn => ?_) (fun ht => absurd ht hc) fun ht => absurd ht hp
  · unfold Obj.withHash
    split <;> exact hl
  · rw [hl] at hn
    cases hn

/-- What an object does when it is called never changes. -/
theorem Event.proc_kept {N : Num F} {t : Touch} {h h' : Heap F} (he : Event N t h h') {a : Addr}
    (ha : a < h.next) : (h'.obj a).proc = (h.obj a).proc := by
  refine he.kept ha (·.proc = (h.obj a).proc) rfl (fun _ _ _ => rfl) (fun _ _ => rfl)
    (fun _ _ _ => rfl) ?_ (fun _ _ _ _ _ _ _ _ => rfl) (fun _ _ _ => rfl) fun _ _ _ _ _ => rfl
  unfold Obj.withHash
  split <;> rfl

section Keeps

variable {N : Num F} {P : Touch → Prop} {h h' : Heap F}

theorem Event.evolve {t : Touch} (he : Event N t h h') (hP : P t) : (evolve N P).Rel h h' :=
  .single ⟨t, hP, he⟩

theorem load_keeps (a : Addr) : Op.Keeps (evolve N P) (load a) := by
  intro h
  unfold Op.KeepsAt Op.Ends
  rw [load_apply]
  by_cases ha : a < h.next
  · rw [if_pos ha]
    exact .refl
  · rw [if_neg ha]
    trivial

theorem keepsAt_load_bind {a : Addr} {α : Type} {k : Obj F → Op (Heap F) α}
    (hk : a < h.next → Op.KeepsAt (evolve N P) (k (h.obj a)) h) :
    Op.KeepsAt (evolve N P) (load a >>= k) h :=
  ends_load_bind hk

theorem alloc_keeps (hb : P .build) (o : Obj F) : Op.Keeps (evolve N P) (alloc o) :=
  fun _ => (Event.build o).evolve hb

variable (hc : P .conv)
include hc

theorem allocStr_keeps (b : Bytes) : Op.Keeps (evolve N P) (alloc (.ofStr b)) :=
  fun _ => (Event.str b).evolve hc

theorem asStr_keeps (a : Addr) : Op.Keeps (evolve N P) (asStr N a) :=
  fun h => (asStr_returns N a h).mono fun _ _ hb => (Event.strs hb.1).evolve hc

/-- The string objects of the tokens are new. -/
theorem tokenItems_returns : ∀ (xs : List Bytes) (h : Heap F),
    Op.Returns (tokenItems xs) h fun lis h' => (evolve N P).Rel h h' ∧ h.next ≤ h'.next ∧
      (∀ a < h.next, h'.obj a = h.obj a) ∧
      List.Forall₂ (fun li x => (h'.obj li.o).s = some x ∧ li.o < h'.next) lis xs
  | [], h => ⟨.refl, Nat.le_refl _, fun _ _ => rfl, .nil⟩
  | x :: xs, h => by
    have hpush : (evolve N P).Rel h (h.push (.ofStr x)) := (Event.str x).evolve hc
    refine Op.returns_bind (Q := fun a h₁ => a = h.next ∧ h₁ = h.push (.ofStr x)) ⟨rfl, rfl⟩ ?_
    rintro _ _ ⟨rfl, rfl⟩
    have hli : (evolve N P).Rel (h.push (.ofStr x)) { h.push (.ofStr x) with nextLi := h.nextLi + 1 } :=
      (Event.litem (Nat.le_succ _)).evolve hc
    refine Op.returns_bind (Q := fun li h₁ => li = ⟨h.nextLi, h.next⟩ ∧
      h₁ = { h.push (.ofStr x) with nextLi := h.nextLi + 1 }) ⟨rfl, rfl⟩ ?_
    rintro _ _ ⟨rfl, rfl⟩
    refine Op.returns_bind (tokenItems_returns xs _) fun lis h₂ ⟨hrel, hnext, hold, hlis⟩ => ?_
    refine Op.ends_pure ⟨(hpush.trans hli).trans hrel, ?_, fun a ha => ?_, .cons ⟨?_, ?_⟩ hlis⟩
    · exact Nat.le_of_succ_le hnext
    · rw [hold a (Nat.lt_succ_of_lt ha)]
      exact h.push_obj_of_ne _ (Nat.ne_of_lt ha)
    · rw [hold h.next (Nat.lt_succ_self _)]
      exact congrArg Obj.s (h.push_obj_self _)
    · exact hnext

theorem asList_keeps {a : Addr} (ha : P (.list a)) : Op.Keeps (evolve N P) (asList N a) := by
  intro h
  refine keepsAt_load_bind fun hlt => ?_
  rcases hl : (h.obj a).l with _ | lis
  · refine Op.keepsAt_bind (asStr_keeps hc a h) fun b h₁ hb => ?_
    obtain ⟨hs, -, hsome⟩ := (asStr_returns N a h).ok hb
    rcases hp : doAsList b with e | xs
    · exact Op.keeps_fail h₁
    · have htok := tokenItems_returns (N := N) hc xs h₁
      refine Op.keepsAt_bind (htok.mono fun _ _ hq => hq.1) fun lis h₂ hlis => ?_
      obtain ⟨-, -, hold, hall⟩ := htok.ok hlis
      have heq : h₂.obj a = h₁.obj a := hold a (by rw [hs.next]; exact hlt)
      refine Op.keepsAt_bind ?_ fun _ h₃ _ => Op.keeps_pure _ h₃
      have hev : Event N (.list a) h₂ (h₂.set a ((h₂.obj a).withItems lis)) :=
        .list (by rw [heq, hsome]) (by rw [heq, hs.l, hl]) hp hall
      exact hev.evolve ha
  · exact Op.keeps_pure _ h

/-- `b6b_as_float` -/
theorem asFloat_ends (a : Addr) (h : Heap F) :
    Op.Ends (asFloat N a) h
      (fun f h' => (evolve N P).Rel h h' ∧ (h'.obj a).f = some f ∧ (h'.obj a).i = (h.obj a).i)
      ((evolve N P).Rel h) := by
  refine ends_load_bind fun _ => ?_
  rcases hf : (h.obj a).f with _ | f
  · by_cases hsl : (h.obj a).s.isSome ∨ (h.obj a).l.isSome
    · simp only [if_pos hsl]
      refine Op.returns_bind (asStr_returns N a h) fun b h₁ ⟨hs, _, hb⟩ => ?_
      have hrel : (evolve N P).Rel h h₁ := (Event.strs hs).evolve hc
      rcases hx : strFloat N b with _ | f
      · exact hrel
      · have hnone : (h₁.obj a).f = none := by rw [hs.same Obj.f (fun _ _ => rfl), hf]
        have hev : Event N .conv h₁ (h₁.set a ((h₁.obj a).withFloat f)) :=
          .float hnone (.inl ⟨b, hb, hx⟩)
        refine Op.returns_bind (returns_update a _ h₁) ?_
        rintro _ _ rfl
        refine Op.ends_pure ⟨hrel.trans (hev.evolve hc), ?_, ?_⟩
        · rw [Heap.set_obj_self]
          rfl
        · rw [Heap.set_obj_self, ← hs.same Obj.i (fun _ _ => rfl)]
          rfl
    · simp only [if_neg hsl]
      obtain ⟨hs, hl⟩ : (h.obj a).s = none ∧ (h.obj a).l = none := by simpa using hsl
      have hev : Event N .conv h (h.set a ((h.obj a).withFloat (N.ofInt ((h.obj a).i.getD 0)))) :=
        .float hf (.inr ⟨hs, hl, rfl⟩)
      refine Op.returns_bind (returns_update a _ h) ?_
      rintro _ _ rfl
      refine Op.ends_pure ⟨hev.evolve hc, ?_, ?_⟩
      · rw [Heap.set_obj_self]
        rfl
      · rw [Heap.set_obj_self]
        rfl
  · exact Op.ends_pure ⟨.refl, hf, rfl⟩

theorem asFloat_keeps (a : Addr) : Op.Keeps (evolve N P) (asFloat N a) :=
  fun h => (asFloat_ends hc a h).mono (fun _ _ hq => hq.1) fun _ => id

theorem asInt_keeps (a : Addr) : Op.Keeps (evolve N P) (asInt N a) := by
  intro h
  refine keepsAt_load_bind fun _ => ?_
  rcases hi : (h.obj a).i with _ | i
  · refine Op.keepsAt_bind (asFloat_keeps hc a h) fun f h₁ hf => ?_
    obtain ⟨-, hsome, hsame⟩ := (asFloat_ends hc a h).ok hf
    rcases hx : N.floor f with _ | i
    · exact Op.keeps_fail h₁
    · have hev : Event N .conv h₁ (h₁.set a ((h₁.obj a).withInt i)) :=
        .int (hsame.trans hi) hsome hx
      exact Op.keepsAt_bind (hev.evolve hc) fun _ h₂ _ => Op.keeps_pure _ h₂
  · exact Op.keeps_pure _ h

theorem objHash_keeps (a : Addr) : Op.Keeps (evolve N P) (objHash N a) := by
  intro h
  refine keepsAt_load_bind fun _ => ?_
  rcases (h.obj a).hash with _ | x
  · refine Op.keepsAt_bind (asStr_keeps hc a h) fun b h₁ hb => ?_
    obtain ⟨-, -, hsome⟩ := (asStr_returns N a h).ok hb
    exact (Event.hash hsome).evolve hc
  · exact Op.keeps_pure _ h

omit hc in
theorem objEq_keeps (a b : Addr) : Op.Keeps (evolve N P) (objEq a b) := by
  refine Op.keeps_bind (load_keeps a) fun x => Op.keeps_bind (load_keeps b) fun y => ?_
  rcases x.s with _ | s <;> rcases y.s with _ | t
  · exact Op.keeps_crash
  · exact Op.keeps_crash
  · exact Op.keeps_crash
  · exact Op.keeps_pure _

theorem convert_keeps {c : Char} {a : Addr} (ha : c = 'l' → P (.list a)) :
    Op.Keeps (evolve N P) (convert N c a) := by
  unfold convert
  split
  · exact Op.keeps_pure _
  · exact Op.keeps_bind (asStr_keeps hc a) fun _ => Op.keeps_pure _
  · exact Op.keeps_bind (asList_keeps hc (ha rfl)) fun _ => Op.keeps_pure _
  · exact Op.keeps_bind (asInt_keeps hc a) fun _ => Op.keeps_pure _
  · exact Op.keeps_bind (asFloat_keeps hc a) fun _ => Op.keeps_pure _
  · exact Op.keeps_fail

end Keeps

end B6b
