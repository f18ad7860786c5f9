/-
# What is flushed when a list changes

Ten operations change the items of a list that exists (`Mutator`). Nine of them flush it:
behind them the list has no string, number or hash. The tenth, `b6b_list_proc_pop`,
leaves what the list had, and what the conversion of its arguments has just given it:
reading the index as a number may need the string of a list that holds the list
(`Reads`). `flushed_iff` is the exact condition.

Key definitions: `Reads`, `Mutator`, `Mutator.Flushes`.
-/
import B6b.Changes

namespace B6b

variable {F : Type} {N : Num F}

/-! ### Which strings a conversion sets -/

/-- The string of `c` is part of the string of `a`: it is `a`'s own, or one that is read
through lists without a string. -/
inductive Reads (h : Heap F) : Addr → Addr → Prop
  | here (a) : Reads h a a
  | item {a c lis li} (hs : (h.obj a).s = none) (hl : (h.obj a).l = some lis) (hli : li ∈ lis)
      (hr : Reads h li.o c) : Reads h a c

theorem Reads.trans {h : Heap F} {a b c : Addr} (hab : Reads h a b) (hbc : Reads h b c) :
    Reads h a c := by
  induction hab with
  | here => exact hbc
  | item hs hl hli _ ih => exact .item hs hl hli (ih hbc)

/-- With more strings set, fewer are read. -/
theorem Reads.of_strs {h h' : Heap F} (hst : Strs N h h') {a c : Addr} (hr : Reads h' a c) :
    Reads h a c := by
  induction hr with
  | here a => exact .here a
  | item hs hl hli _ ih =>
    have he := hst.s_of_none hs
    rw [he] at hs hl
    exact .item hs hl hli ih

/-- What is read in `h` is read in `h'`, unless a string on the way there has been set. -/
theorem Reads.strs {h h' : Heap F} (hst : Strs N h h') {a c : Addr} (hr : Reads h a c) :
    Reads h' a c ∨ ∃ b, Reads h a b ∧ Reads h b c ∧ (h.obj b).s = none ∧ (h'.obj b).s.isSome := by
  induction hr with
  | here a => exact .inl (.here a)
  | @item a c lis li hs hl hli hr ih =>
    rcases hs' : (h'.obj a).s with _ | b
    · rcases ih with hr' | ⟨b, hab, hbc, hb⟩
      · exact .inl (.item hs' ((hst.l a).trans hl) hli hr')
      · exact .inr ⟨b, .item hs hl hli hab, hbc, hb⟩
    · exact .inr ⟨a, .here a, .item hs hl hli hr, hs, by simp [hs']⟩

/-- The strings that are set are those that `R` says. -/
def SetsStrs (N : Num F) (h h' : Heap F) (R : Addr → Prop) : Prop :=
  Strs N h h' ∧ ∀ c, (h.obj c).s = none → ((h'.obj c).s.isSome ↔ R c)

theorem joinLoop_sets {f : Addr → Op (Heap F) Bytes}
    (hf : ∀ a h, Op.Returns (f a) h fun _ h' => SetsStrs N h h' (Reads h a)) :
    ∀ (lis : List Litem) (s : Option Bytes) (h : Heap F),
      Op.Returns (joinLoop f lis s) h fun _ h' => SetsStrs N h h' fun c => ∃ li ∈ lis, Reads h li.o c
  | [], s, h => Op.ends_pure ⟨Strs.refl N h, fun c hc => by simp [hc]⟩
  | li :: lis, s, h => by
    refine Op.returns_bind (hf li.o h) fun b h₁ ⟨hs₁, h01⟩ => ?_
    refine (joinLoop_sets hf lis _ h₁).mono fun _ h₂ ⟨hs₂, h12⟩ => ⟨hs₁.trans hs₂, fun c hc => ?_⟩
    simp only [List.mem_cons, exists_eq_or_imp]
    rw [← h01 c hc]
    rcases hc₁ : (h₁.obj c).s with _ | b
    · rw [h12 c hc₁]
      simp only [Option.isSome_none, Bool.false_eq_true, false_or]
      refine ⟨fun ⟨li', hm, hr⟩ => ⟨li', hm, hr.of_strs hs₁⟩, fun ⟨li', hm, hr⟩ => ⟨li', hm, ?_⟩⟩
      rcases hr.strs hs₁ with hr' | ⟨b, -, hbc, hb, hb₁⟩
      · exact hr'
      · have hset := (h01 c hc).mpr (((h01 b hb).mp hb₁).trans hbc)
        simp [hc₁] at hset
    · rw [hs₂.s_of_some hc₁]
      simp [hc₁]

theorem reads_iff_of_ne {h : Heap F} {a c : Addr} (hne : c ≠ a) :
    Reads h a c ↔ (h.obj a).s = none ∧ ∃ lis, (h.obj a).l = some lis ∧ ∃ li ∈ lis, Reads h li.o c := by
  refine ⟨fun hr => ?_, fun ⟨hs, lis, hl, li, hli, hr⟩ => .item hs hl hli hr⟩
  cases hr with
  | here => exact absurd rfl hne
  | item hs hl hli hr => exact ⟨hs, _, hl, _, hli, hr⟩

/-- **What a conversion to a string sets.** An object that had no string has one behind the
conversion of `a` exactly when its string is part of the string of `a`. -/
theorem asStrAux_sets : ∀ (n : ℕ) (a : Addr) (h : Heap F),
    Op.Returns (asStrAux N n a) h fun _ h' => SetsStrs N h h' (Reads h a)
  | 0, _, _ => Op.ends_crash
  | n + 1, a, h => by
    have hspec := asStrAux_returns N (n + 1) a h
    refine Op.ends_of (fun b h' hok => ⟨(hspec.ok hok).1, fun c hc => ?_⟩) fun h' hfail =>
      hspec.fail hfail
    by_cases hca : c = a
    · subst hca
      exact iff_of_true (by simp [(hspec.ok hok).2.2]) (.here c)
    · rw [reads_iff_of_ne hca]
      refine Op.Ends.ok (x := asStrAux N (n + 1) a) (Q := fun _ h' => (h'.obj c).s.isSome ↔ _)
        (E := fun _ => True) ?_ hok
      refine ends_load_bind fun _ => ?_
      rcases hs : (h.obj a).s with _ | b
      · rcases hl : (h.obj a).l with _ | lis
        · refine Op.returns_bind (returns_update a _ h) ?_
          rintro _ _ rfl
          refine Op.ends_pure ?_
          rw [Heap.set_obj_of_ne _ _ hca]
          simp [hc]
        · refine Op.returns_bind (joinLoop_sets (asStrAux_sets n) lis none h) fun s h₁ hsets => ?_
          refine Op.returns_bind (returns_update a _ h₁) ?_
          rintro _ _ rfl
          refine Op.ends_pure ?_
          rw [Heap.set_obj_of_ne _ _ hca, hsets.2 c hc]
          simp
      · refine Op.ends_pure ?_
        simp [hc]

/-! ### Flushed objects -/

/-- The object has no string, no number and no hash. -/
structure Obj.Flushed (o : Obj F) : Prop where
  s : o.s = none
  i : o.i = none
  f : o.f = none
  hash : o.hash = none

theorem Changed.isFlushed {G : Addr → Prop} {l : Addr} {h h' : Heap F} (hch : Changed G l h h') : (h'.obj l).Flushed := by
  obtain ⟨n, _, lis, -, -, -, rfl⟩ := hch
  rw [Heap.set_obj_self]
  exact ⟨rfl, rfl, rfl, rfl⟩

theorem Relinked.isFlushed_iff {G : Addr → Prop} {l : Addr} {h h' : Heap F}
    (hre : Relinked G l h h') : (h'.obj l).Flushed ↔ (h.obj l).Flushed := by
  obtain ⟨n, _, lis, -, -, -, rfl⟩ := hre
  rw [Heap.set_obj_self]
  exact ⟨fun hf => ⟨hf.s, hf.i, hf.f, hf.hash⟩, fun hf => ⟨hf.s, hf.i, hf.f, hf.hash⟩⟩

/-- A flushed object has no hash to lose when its string stays away. -/
theorem SetsStrs.isFlushed_iff {h h' : Heap F} {R : Addr → Prop} (hset : SetsStrs N h h' R) (l : Addr) :
    (h'.obj l).Flushed ↔ (h.obj l).Flushed ∧ ¬ R l := by
  refine ⟨fun hf => ?_, fun ⟨hf, hr⟩ => ?_⟩
  · have he := hset.1.s_of_none hf.s
    rw [he] at hf
    refine ⟨hf, fun hr => ?_⟩
    have := (hset.2 l hf.s).mpr hr
    simp [he, hf.s] at this
  · have hs : (h'.obj l).s = none := by
      by_contra hne
      exact hr ((hset.2 l hf.s).mp (Option.isSome_iff_ne_none.mpr hne))
    rwa [hset.1.s_of_none hs]

/-- The list `l` is flushed, and reading the number of `i` does not ask for its string. -/
def PopClean (h : Heap F) (l i : Addr) : Prop :=
  (h.obj l).Flushed ∧ ((h.obj i).i.isSome ∨ (h.obj i).f.isSome ∨ ¬ Reads h i l)

/-- What the conversion of `i` to a float leaves of a flushed object. -/
theorem asFloat_flushed (i l : Addr) (h : Heap F) (hi : (h.obj i).i = none) :
    Op.Ends (asFloat N i) h (fun _ h' => (h'.obj l).Flushed ∧ l ≠ i ↔
      (h.obj l).Flushed ∧ l ≠ i ∧ ((h.obj i).f.isSome ∨ ¬ Reads h i l)) fun _ => True := by
  refine ends_load_bind fun _ => ?_
  rcases hf : (h.obj i).f with _ | f
  · have hsl : (h.obj i).s.isSome ∨ (h.obj i).l.isSome := by
      rcases (h.obj i).valid with hv | hv | hv | hv
      · exact .inr hv
      · exact .inl hv
      · rw [hi] at hv
        cases hv
      · rw [hf] at hv
        cases hv
    simp only [if_pos hsl]
    refine Op.returns_bind (asStrAux_sets (h.next + 1) i h) fun b h₁ hsets => ?_
    rcases strFloat N b with _ | f
    · trivial
    · refine Op.returns_bind (returns_update i _ h₁) ?_
      rintro _ _ rfl
      refine Op.ends_pure ?_
      by_cases hli : l = i
      · simp [hli]
      · rw [Heap.set_obj_of_ne _ _ hli, hsets.isFlushed_iff]
        simp [hli]
  · exact Op.ends_pure (by simp)

theorem asInt_flushed (i l : Addr) (h : Heap F) :
    Op.Ends (asInt N i) h (fun _ h' => (h'.obj l).Flushed ↔ PopClean h l i) fun _ => True := by
  refine ends_load_bind fun _ => ?_
  unfold PopClean
  rcases hi : (h.obj i).i with _ | n
  · refine Op.ends_bind (asFloat_flushed i l h hi) fun f h₁ hiff => ?_
    rcases N.floor f with _ | n
    · trivial
    · refine Op.returns_bind (returns_update i _ h₁) ?_
      rintro _ _ rfl
      refine Op.ends_pure ?_
      by_cases hli : l = i
      · subst hli
        rw [Heap.set_obj_self]
        refine iff_of_false (fun hf => by cases hf.i) ?_
        rintro ⟨hf, h1 | h1 | h1⟩
        · cases h1
        · simp [hf.f] at h1
        · exact h1 (.here l)
      · rw [Heap.set_obj_of_ne _ _ hli]
        simpa [hli] using hiff
  · exact Op.ends_pure (by simp)

/-! ### The operations that change a list -/

/-- The operations that change the items of a list, in C and in scripts. -/
inductive Mutator
  | listAdd (l o : Addr)
  | listExtend (l l2 : Addr)
  | listPop (l : Addr) (li : Option Litem)
  | dictSet (d k v : Addr)
  | dictUnset (d k : Addr)
  | listProcAppend (args : Addr)
  | listProcExtend (args : Addr)
  | listProcPop (args : Addr)
  | dictProcSet (args : Addr)
  | dictProcUnset (args : Addr)

/-- A procedure succeeds with `B6B_OK`. -/
def succeeds (x : Op (Heap F) Reply) : Op (Heap F) Unit := do
  let r ← x
  if r.1 = .ok then pure () else Op.fail

def Mutator.run (N : Num F) : Mutator → Op (Heap F) Unit
  | .listAdd l o => B6b.listAdd l o
  | .listExtend l l2 => B6b.listExtend l l2
  | .listPop l li => do let _ ← B6b.listPop l li
  | .dictSet d k v => B6b.dictSet N d k v
  | .dictUnset d k => B6b.dictUnset N d k
  | .listProcAppend args => succeeds (B6b.listProcAppend N args)
  | .listProcExtend args => succeeds (B6b.listProcExtend N args)
  | .listProcPop args => succeeds (B6b.listProcPop N args)
  | .dictProcSet args => succeeds (B6b.dictProcSet N args)
  | .dictProcUnset args => succeeds (B6b.dictProcUnset N args)

/-- The argument `k` of a procedure. -/
def arg (h : Heap F) (args : Addr) (k : ℕ) : Option Addr := do
  let lis ← (h.obj args).l
  let li ← lis[k]?
  return li.o

/-- The list that is changed. -/
def Mutator.target (h : Heap F) : Mutator → Option Addr
  | .listAdd l _ => some l
  | .listExtend l _ => some l
  | .listPop l _ => some l
  | .dictSet d _ _ => some d
  | .dictUnset d _ => some d
  | .listProcAppend args => arg h args 1
  | .listProcExtend args => arg h args 1
  | .listProcPop args => arg h args 1
  | .dictProcSet args => arg h args 1
  | .dictProcUnset args => arg h args 1

/-- The condition under which the list is flushed behind the operation. -/
def Mutator.Flushes (h : Heap F) : Mutator → Prop
  | .listProcPop args => ∃ l i, arg h args 1 = some l ∧ arg h args 2 = some i ∧ PopClean h l i
  | _ => True

theorem succeeds_ok {x : Op (Heap F) Reply} {h h' : Heap F} (hx : succeeds x h = .ok () h') :
    ∃ r, x h = .ok (.ok, r) h' := by
  obtain ⟨⟨res, r⟩, h₁, hr, hif⟩ := Op.bind_eq_ok.mp hx
  by_cases hok : res = .ok
  · subst hok
    obtain ⟨-, rfl⟩ := Outcome.ok.inj hif
    exact ⟨r, hr⟩
  · rw [if_neg hok] at hif
    cases hif

/-- The steps of conversions change no list in place. -/
def Quiet (t : Touch) : Prop := ∀ a, t ≠ .change a ∧ t ≠ .pop a

theorem quiet_list {h h' : Heap F} (hr : (evolve N Quiet).Rel h h') {l : Addr} {lis : List Litem}
    (hlt : l < h.next) (hl : (h.obj l).l = some lis) : (h'.obj l).l = some lis := by
  refine (evolve_invariant (I := fun h => l < h.next ∧ (h.obj l).l = some lis) ?_ hr ⟨hlt, hl⟩).2
  rintro t h₁ h₂ ht he ⟨hlt, hl⟩
  exact ⟨Nat.lt_of_lt_of_le hlt he.next_le, he.list_kept (ht l).1 (ht l).2 hlt hl⟩

theorem quiet_conv : Quiet .conv := fun _ => ⟨nofun, nofun⟩

theorem convertAll_quiet (ps : List (Char × Addr)) : Op.Keeps (evolve N Quiet) (convertAll N ps) :=
  convertAll_keeps quiet_conv ps fun _ _ _ _ => ⟨nofun, nofun⟩

theorem arg_eq {h : Heap F} {args : Addr} {li : Litem} {lis : List Litem}
    (hl : (h.obj args).l = some (li :: lis)) (k : ℕ) :
    arg h args (k + 1) = (lis[k]?).map (·.o) := by
  unfold arg
  rw [hl]
  cases hk : lis[k]? <;> simp [hk]

theorem listProcAppend_changed {args : Addr} {h h' : Heap F} {r : Option Addr}
    (hrun : listProcAppend N args h = .ok (.ok, r) h') :
    ∃ l h₁, arg h args 1 = some l ∧ Changed Anything l h₁ h' := by
  obtain ⟨li, lis, h₁, hlis, hlen, -, hbody⟩ := getArgs_ok rfl (by decide) hrun
  match lis, hlen with
  | [l, o], _ =>
    obtain ⟨_, h₂, hadd, hret⟩ := Op.bind_eq_ok.mp hbody
    obtain ⟨-, rfl⟩ := Outcome.ok.inj hret
    exact ⟨l.o, h₁, arg_eq hlis 0, (listAdd_returns l.o trivial h₁).ok hadd⟩

theorem listProcExtend_changed {args : Addr} {h h' : Heap F} {r : Option Addr}
    (hrun : listProcExtend N args h = .ok (.ok, r) h') :
    ∃ l h₁, arg h args 1 = some l ∧ Changed Anything l h₁ h' := by
  obtain ⟨li, lis, h₁, hlis, hlen, -, hbody⟩ := getArgs_ok rfl (by decide) hrun
  match lis, hlen with
  | [l, l2], _ =>
    obtain ⟨_, h₂, hext, hret⟩ := Op.bind_eq_ok.mp hbody
    obtain ⟨-, rfl⟩ := Outcome.ok.inj hret
    exact ⟨l.o, h₁, arg_eq hlis 0, (listExtend_returns l.o l2.o h₁ anything anything).ok hext⟩

theorem dictProcSet_changed {args : Addr} {h h' : Heap F} {r : Option Addr}
    (hrun : dictProcSet N args h = .ok (.ok, r) h') :
    ∃ d h₁, arg h args 1 = some d ∧ Changed Anything d h₁ h' := by
  obtain ⟨li, lis, h₁, hlis, hlen, -, hbody⟩ := getArgs_ok rfl (by decide) hrun
  match lis, hlen with
  | [d, k, v], _ =>
    obtain ⟨_, h₂, hset, hret⟩ := Op.bind_eq_ok.mp (orErr_ok hbody)
    obtain ⟨-, rfl⟩ := Outcome.ok.inj hret
    obtain ⟨h₃, -, hch⟩ := (dictSet_ends (G := Anything) quiet_conv d.o trivial trivial h₁).ok hset
    exact ⟨d.o, h₃, arg_eq hlis 0, hch⟩

theorem dictProcUnset_changed {args : Addr} {h h' : Heap F} {r : Option Addr}
    (hrun : dictProcUnset N args h = .ok (.ok, r) h') :
    ∃ d, arg h args 1 = some d ∧ ((evolve N Quiet).Rel h h' ∨ ∃ h₁, Changed Anything d h₁ h') := by
  obtain ⟨li, lis, h₁, hlis, hlen, hconv, hbody⟩ := getArgs_ok rfl (by decide) hrun
  match lis, hlen with
  | [d, k], _ =>
    obtain ⟨_, h₂, hunset, hret⟩ := Op.bind_eq_ok.mp (orErr_ok hbody)
    obtain ⟨-, rfl⟩ := Outcome.ok.inj hret
    refine ⟨d.o, arg_eq hlis 0, ?_⟩
    rcases (dictUnset_ends quiet_conv d.o k.o h₁).ok hunset with hrel | ⟨h₃, -, hch⟩
    · exact .inl (((convertAll_quiet _ h).ok hconv).trans hrel)
    · exact .inr ⟨h₃, hch⟩

/-- The removal leaves the flags alone. -/
theorem popBody_flushed (l i : Addr) (h : Heap F) :
    Op.Ends (popBody l i) h (fun r h' => r.1 = .ok → ((h'.obj l).Flushed ↔ (h.obj l).Flushed))
      fun _ => True := by
  refine Op.returns_bind (intOf_returns i h) ?_
  rintro n _ rfl
  by_cases hneg : n < 0
  · rw [if_pos hneg]
    exact Op.ends_pure nofun
  · rw [if_neg hneg]
    refine Op.returns_bind (items_returns l h) ?_
    rintro lis _ ⟨rfl, -, -⟩
    rcases lis[n.toNat]? with _ | li
    · by_cases hnil : lis.isEmpty
      · simp only [if_pos hnil]
        exact fun hok => nomatch hok
      · simp only [if_neg hnil]
        exact Op.ends_pure nofun
    · refine Op.returns_bind (listRemove_returns (G := Anything) l li h) fun _ h₁ hre => ?_
      exact Op.ends_pure fun _ => hre.isFlushed_iff

theorem asList_of_list {a : Addr} {lis xs : List Litem} {h h' : Heap F}
    (hl : (h.obj a).l = some lis) (hrun : asList N a h = .ok xs h') : h = h' := by
  have hends : Op.Ends (asList N a) h (fun _ h' => h = h') fun _ => True := by
    refine ends_load_bind fun _ => ?_
    rw [hl]
    exact Op.ends_pure rfl
  exact hends.ok hrun

/-- A pop of a script leaves of the list's flags what the conversion of the index left. -/
theorem listProcPop_flushed {args l : Addr} {lis : List Litem} {h h' : Heap F} {r : Option Addr}
    (ht : arg h args 1 = some l) (hl : (h.obj l).l = some lis)
    (hrun : listProcPop N args h = .ok (.ok, r) h') :
    ∃ i, arg h args 2 = some i ∧ ((h'.obj l).Flushed ↔ PopClean h l i) := by
  obtain ⟨li, args', h₁, hlis, hlen, hconv, hbody⟩ :=
    getArgs_ok (show "oli".toList = ['o', 'l', 'i'] from rfl) (by decide) hrun
  match args', hlen with
  | [l', i], _ =>
    obtain rfl : l'.o = l := by
      rw [arg_eq hlis 0] at ht
      exact Option.some.inj ht
    refine ⟨i.o, arg_eq hlis 1, ?_⟩
    obtain ⟨_, h₂, hlist, hconv⟩ := Op.bind_eq_ok.mp hconv
    obtain ⟨_, _, hlist, hpure⟩ := Op.bind_eq_ok.mp hlist
    obtain rfl := asList_of_list hl hlist
    obtain ⟨-, rfl⟩ := Outcome.ok.inj hpure
    obtain ⟨_, h₃, hconvi, hnil⟩ := Op.bind_eq_ok.mp hconv
    obtain ⟨-, rfl⟩ := Outcome.ok.inj hnil
    obtain ⟨_, _, hint, hpure⟩ := Op.bind_eq_ok.mp hconvi
    obtain ⟨-, rfl⟩ := Outcome.ok.inj hpure
    exact ((popBody_flushed l'.o i.o _).ok hbody rfl).trans ((asInt_flushed i.o l'.o h).ok hint)

/-- **What is flushed.** An operation that succeeds and changes the items of a list leaves it
without string, number and hash, unless it is a pop of a script that found the list with
one of them, or whose index is read through the string of the list. -/
theorem flushed_iff (m : Mutator) {h h' : Heap F} {l : Addr} {lis : List Litem}
    (ht : m.target h = some l) (hlt : l < h.next) (hl : (h.obj l).l = some lis)
    (hrun : m.run N h = .ok () h') (hch : (h'.obj l).l ≠ some lis) :
    (h'.obj l).Flushed ↔ m.Flushes h := by
  cases m with
  | listAdd l o =>
    obtain rfl := Option.some.inj ht
    exact iff_of_true ((listAdd_returns (G := Anything) _ trivial h).ok hrun).isFlushed trivial
  | listExtend l l2 =>
    obtain rfl := Option.some.inj ht
    exact iff_of_true ((listExtend_returns (G := Anything) _ l2 h anything anything).ok hrun).isFlushed trivial
  | listPop l li =>
    obtain rfl := Option.some.inj ht
    obtain ⟨_, h₁, hpop, hpure⟩ := Op.bind_eq_ok.mp hrun
    obtain ⟨-, rfl⟩ := Outcome.ok.inj hpure
    exact iff_of_true ((listPop_ends (G := Anything) _ li h).ok hpop).isFlushed trivial
  | dictSet d k v =>
    obtain rfl := Option.some.inj ht
    obtain ⟨h₁, -, hset⟩ := (dictSet_ends (G := Anything) quiet_conv _ trivial trivial h).ok hrun
    exact iff_of_true hset.isFlushed trivial
  | dictUnset d k =>
    obtain rfl := Option.some.inj ht
    rcases (dictUnset_ends (G := Anything) quiet_conv _ k h).ok hrun with hrel | ⟨h₁, -, hunset⟩
    · exact absurd (quiet_list hrel hlt hl) hch
    · exact iff_of_true hunset.isFlushed trivial
  | listProcAppend args =>
    obtain ⟨r, hr⟩ := succeeds_ok hrun
    obtain ⟨l', h₁, hl', happ⟩ := listProcAppend_changed hr
    obtain rfl := Option.some.inj (hl'.symm.trans ht)
    exact iff_of_true happ.isFlushed trivial
  | listProcExtend args =>
    obtain ⟨r, hr⟩ := succeeds_ok hrun
    obtain ⟨l', h₁, hl', hext⟩ := listProcExtend_changed hr
    obtain rfl := Option.some.inj (hl'.symm.trans ht)
    exact iff_of_true hext.isFlushed trivial
  | listProcPop args =>
    obtain ⟨r, hr⟩ := succeeds_ok hrun
    obtain ⟨i, hi, hiff⟩ := listProcPop_flushed ht hl hr
    rw [hiff]
    refine ⟨fun hclean => ⟨l, i, ht, hi, hclean⟩, fun ⟨l', i', hl', hi', hclean⟩ => ?_⟩
    obtain rfl := Option.some.inj (hl'.symm.trans ht)
    obtain rfl := Option.some.inj (hi'.symm.trans hi)
    exact hclean
  | dictProcSet args =>
    obtain ⟨r, hr⟩ := succeeds_ok hrun
    obtain ⟨d, h₁, hd, hset⟩ := dictProcSet_changed hr
    obtain rfl := Option.some.inj (hd.symm.trans ht)
    exact iff_of_true hset.isFlushed trivial
  | dictProcUnset args =>
    obtain ⟨r, hr⟩ := succeeds_ok hrun
    obtain ⟨d, hd, hrel | ⟨h₁, hunset⟩⟩ := dictProcUnset_changed hr
    · exact absurd (quiet_list hrel hlt hl) hch
    · obtain rfl := Option.some.inj (hd.symm.trans ht)
      exact iff_of_true hunset.isFlushed trivial

/-- A call of `list.pop` with the list `l`, of two items, and the index 0. -/
def popHeap (l : Obj ℤ) : Heap ℤ :=
  (((((Heap.empty.push (.ofStr (bytes "a"))).push (.ofStr (bytes "b"))).push l).push
    (.ofInt 0)).push (.ofStr (bytes "list.pop"))).push (.ofList [⟨2, 4⟩, ⟨3, 2⟩, ⟨4, 3⟩])

/-- The list of two items. -/
def twoItems : Obj ℤ := .ofList [⟨0, 0⟩, ⟨1, 1⟩]

/-- A pop of a list that was never read as a string leaves it without one. -/
theorem list_pop_fresh : ∃ h', (Mutator.listProcPop 5).run wholeNum (popHeap twoItems) = .ok () h' ∧
    (h'.obj 2).Flushed := by
  have hclean : PopClean (popHeap twoItems) 2 3 := ⟨⟨rfl, rfl, rfl, rfl⟩, .inl rfl⟩
  have hitems : ((popHeap twoItems).obj 2).l = some [⟨0, 0⟩, ⟨1, 1⟩] := rfl
  have hlt : 2 < (popHeap twoItems).next := by decide
  refine ⟨_, rfl, (flushed_iff (N := wholeNum) (.listProcPop 5) rfl hlt hitems rfl ?_).mpr ?_⟩
  · decide
  · exact ⟨2, 3, rfl, rfl, hclean⟩

/-- A pop of a list that has a string leaves it that string. -/
theorem list_pop_stale : ¬ ∀ (m : Mutator) (h h' : Heap ℤ) (l : Addr) (lis : List Litem),
    m.target h = some l → l < h.next → (h.obj l).l = some lis → m.run wholeNum h = .ok () h' →
      (h'.obj l).l ≠ some lis → (h'.obj l).Flushed := by
  intro hall
  have hpop := hall (.listProcPop 5) (popHeap (twoItems.withStr (bytes "a b"))) _ 2
    [⟨0, 0⟩, ⟨1, 1⟩] rfl (by decide) rfl rfl (by decide)
  exact absurd hpop.s nofun

end B6b
