/-
# The shared constants

`b6b_interp_new` makes one object each for 0, 1 and the empty string, and `b6b_return_bool`
and `b6b_stmt_call` hand out these objects themselves. So a script can get at them, and
change them: `$list.append` on the result of a comparison changes every later one, and a 0
that has been converted to a list is true, since the list is not empty.
`constants_kept`: without steps that do so, the three keep their values.

Key definitions: `Values`, `Spares`, `Consts`.
-/
import B6b.Lib.Runs
import B6b.Moves

namespace B6b

namespace Constants

variable {F S I : Type} {N : Num F}

/-- `"0"` -/
def zeroStr : Bytes := [0x30]

/-- `"1"` -/
def oneStr : Bytes := [0x31]

/-- The C library writes the numbers 0 and 1 and reads them back. -/
structure Digits (N : Num F) : Prop where
  fmt_zero : stripZeros (N.fmt (N.ofInt 0)) = zeroStr
  fmt_one : stripZeros (N.fmt (N.ofInt 1)) = oneStr
  strtod_zero : (N.strtod zeroStr).2 = 1 ∧ N.isZero (N.strtod zeroStr).1 = true
  strtod_one : (N.strtod oneStr).2 = 1 ∧ N.isZero (N.strtod oneStr).1 = false

/-- The constants have the values that `b6b_interp_new` gave them: as an integer, as a string
and as a condition. -/
structure Values (N : Num F) (h : Heap F) (C : Shared) : Prop where
  zero : (h.obj C.zero).i = some 0 ∧ Val N h C.zero zeroStr ∧ (h.obj C.zero).istrue N = false
  one : (h.obj C.one).i = some 1 ∧ Val N h C.one oneStr ∧ (h.obj C.one).istrue N = true
  null : Val N h C.null [] ∧ (h.obj C.null).istrue N = false

/-- The step converts no 0 to a list, and changes neither 1 nor the empty string in place. -/
structure Spares (nat : Natives N S I) (m : Machine F S) : Prop where
  zero : ¬ m.Touches nat (.list m.interp.shared.zero)
  one : ¬ m.Touches nat (.change m.interp.shared.one)
  one_pop : ¬ m.Touches nat (.pop m.interp.shared.one)
  null : ¬ m.Touches nat (.change m.interp.shared.null)

instance (nat : Natives N S I) (m : Machine F S) : Decidable (Spares nat m) :=
  decidable_of_iff (¬ m.Touches nat (.list m.interp.shared.zero) ∧
      ¬ m.Touches nat (.change m.interp.shared.one) ∧ ¬ m.Touches nat (.pop m.interp.shared.one) ∧
      ¬ m.Touches nat (.change m.interp.shared.null))
    ⟨fun h => ⟨h.1, h.2.1, h.2.2.1, h.2.2.2⟩, fun h => ⟨h.zero, h.one, h.one_pop, h.null⟩⟩

/-! ### A number -/

/-- The object is the number `k`, with the string `b`: it keeps it, or its number gives it. -/
structure IsNumber (N : Num F) (k : ℤ) (b : Bytes) (o : Obj F) : Prop where
  int : o.i = some k
  str : o.s = some b ∨ o.s = none ∧ o.l = none ∧ (o.f = none ∨ o.f = some (N.ofInt k))

variable {t : Touch} {h h' : Heap F} {a : Addr} {k : ℤ} {b : Bytes}

theorem isNumber_ofInt (k : ℤ) : IsNumber N k b (.ofInt k) := ⟨rfl, .inr ⟨rfl, rfl, .inl rfl⟩⟩

section IsNumber

variable (hint : fmtInt k = b) (hfmt : stripZeros (N.fmt (N.ofInt k)) = b)
include hint hfmt

/-- The string of a number. -/
theorem IsNumber.val (hn : IsNumber N k b (h.obj a)) : Val N h a b := by
  rcases hn.str with hs | ⟨hs, hl, hf⟩
  · exact .str hs
  · have hval : Val N h a (numStr N (h.obj a)) := .num hs hl
    have hnum : numStr N (h.obj a) = b := by
      unfold numStr
      rcases hf with hf | hf <;> rw [hf]
      · rw [hn.int]
        exact hint
      · exact hfmt
    rwa [hnum] at hval

/-- A number stays, unless it is changed in place as a list. -/
theorem IsNumber.event (he : Event N t h h') (ha : a < h.next)
    (ht : t = .change a → (h.obj a).l = none) (hn : IsNumber N k b (h.obj a)) :
    IsNumber N k b (h'.obj a) := by
  obtain ⟨hi, hs⟩ := hn
  refine he.kept ha (IsNumber N k b) ⟨hi, hs⟩ ?_ ?_ ?_ ?_ ?_ ?_ ?_
  · intro b' _ hb'
    obtain rfl := hb'.unique (IsNumber.val hint hfmt ⟨hi, hs⟩)
    exact ⟨hi, .inl rfl⟩
  · intro i hnone
    rw [hi] at hnone
    cases hnone
  · intro f _ hf
    refine ⟨hi, ?_⟩
    rcases hs with hs | ⟨hs, hl, -⟩
    · exact .inl hs
    · rcases hf with ⟨b', hb', -⟩ | ⟨-, -, rfl⟩
      · rw [hs] at hb'
        cases hb'
      · exact .inr ⟨hs, hl, .inr (by simp [Obj.withFloat, hi])⟩
  · unfold Obj.withHash
    split <;> exact ⟨hi, hs⟩
  · intro _ b' xs lis hb' _ _ _
    refine ⟨hi, .inl (hs.resolve_right fun hnone => ?_)⟩
    rw [hnone.1] at hb'
    cases hb'
  · intro hch lis hsome
    rw [ht hch] at hsome
    cases hsome
  · intro _ old lis hold _
    refine ⟨hi, .inl (hs.resolve_right fun hnone => ?_)⟩
    rw [hnone.2.1] at hold
    cases hold

end IsNumber

/-- An object without items has none behind a step that does not convert it to a list. -/
theorem l_none_event (he : Event N t h h') (ha : a < h.next) (ht : t ≠ .list a)
    (hl : (h.obj a).l = none) : (h'.obj a).l = none := by
  refine he.kept ha (·.l = none) hl (fun _ _ _ => hl) (fun _ _ => hl) (fun _ _ _ => hl) ?_
    (fun hc => absurd hc ht) (fun _ _ hsome => ?_) fun _ _ _ hsome _ => ?_
  · unfold Obj.withHash
    split <;> exact hl
  · rw [hl] at hsome
    cases hsome
  · rw [hl] at hsome
    cases hsome

/-- A number that is converted to a list gets items. -/
theorem l_ne_nil_event (he : Event N t h h') (ha : a < h.next) (hc : t ≠ .change a)
    (hp : t ≠ .pop a) (hn : IsNumber N k b (h.obj a)) (hb : doAsList b ≠ .ok [])
    (hl : (h.obj a).l ≠ some []) : (h'.obj a).l ≠ some [] := by
  refine he.kept ha (·.l ≠ some []) hl (fun _ _ _ => hl) (fun _ _ => hl) (fun _ _ _ => hl) ?_
    (fun _ b' xs lis hs _ hx hlen hnil => ?_) (fun ht => absurd ht hc) fun ht => absurd ht hp
  · unfold Obj.withHash
    split <;> exact hl
  · obtain rfl : lis = [] := Option.some.inj hnil
    obtain rfl : xs = [] := List.length_eq_zero_iff.mp hlen.symm
    rcases hn.str with hs' | ⟨hs', -⟩
    · obtain rfl := Option.some.inj (hs.symm.trans hs')
      exact hb hx
    · rw [hs'] at hs
      cases hs

/-! ### The empty string -/

/-- The object is the empty string, and has no items. -/
structure IsEmpty (o : Obj F) : Prop where
  str : o.s = some []
  l : o.l = none ∨ o.l = some []

theorem IsEmpty.event (he : Event N t h h') (ha : a < h.next) (hc : t ≠ .change a)
    (hn : IsEmpty (h.obj a)) : IsEmpty (h'.obj a) := by
  obtain ⟨hs, hl⟩ := hn
  refine he.kept ha IsEmpty ⟨hs, hl⟩ (fun _ hnone _ => ?_) (fun _ _ => ⟨hs, hl⟩)
    (fun _ _ _ => ⟨hs, hl⟩) ?_ ?_ (fun ht => absurd ht hc) ?_
  · rw [hs] at hnone
    cases hnone
  · unfold Obj.withHash
    split <;> exact ⟨hs, hl⟩
  · intro _ b' xs lis hb' _ hx hlen
    obtain rfl : [] = b' := Option.some.inj (hs.symm.trans hb')
    obtain rfl : xs = [] := by
      have hnil : doAsList [] = .ok [] := by decide +kernel
      rw [hnil] at hx
      exact (Except.ok.inj hx).symm
    exact ⟨hs, .inr (by rw [List.length_eq_zero_iff.mp hlen]; rfl)⟩
  · intro _ old lis hold hsub
    obtain rfl : [] = old := by
      rcases hl with hl | hl
      · rw [hl] at hold
        cases hold
      · exact Option.some.inj (hl.symm.trans hold)
    exact ⟨hs, .inr (by rw [List.eq_nil_of_sublist_nil hsub]; rfl)⟩

/-! ### The invariant -/

/-- The constants are there, and are what they were made. -/
structure Consts (N : Num F) (C : Shared) (h : Heap F) : Prop where
  zero_lt : C.zero < h.next
  one_lt : C.one < h.next
  null_lt : C.null < h.next
  zero : IsNumber N 0 zeroStr (h.obj C.zero)
  zero_l : (h.obj C.zero).l = none
  one : IsNumber N 1 oneStr (h.obj C.one)
  one_l : (h.obj C.one).l ≠ some []
  null : IsEmpty (h.obj C.null)

variable {C : Shared}

theorem istrue_of_str {o : Obj F} (hl : o.l = none) (hs : o.s = some b) (hb : b ≠ [])
    (hread : (N.strtod (cstr b)).2 = (cstr b).length) :
    o.istrue N = !N.isZero (N.strtod (cstr b)).1 := by
  unfold Obj.istrue
  simp only [hl, hs, List.isEmpty_eq_false_iff.mpr hb, hread, Nat.lt_irrefl, Bool.false_eq_true,
    if_false]

theorem Consts.values (hN : Digits N) (hc : Consts N C h) : Values N h C where
  zero := by
    refine ⟨hc.zero.int, hc.zero.val (by decide +kernel) hN.fmt_zero, ?_⟩
    rcases hc.zero.str with hs | ⟨hs, -, -⟩
    · rw [istrue_of_str hc.zero_l hs (by decide) hN.strtod_zero.1]
      simp [show cstr zeroStr = zeroStr from rfl, hN.strtod_zero.2]
    · simp [Obj.istrue, hc.zero_l, hs, hc.zero.int]
  one := by
    refine ⟨hc.one.int, hc.one.val (by decide +kernel) hN.fmt_one, ?_⟩
    rcases hl : (h.obj C.one).l with _ | lis
    · rcases hc.one.str with hs | ⟨hs, -, -⟩
      · rw [istrue_of_str hl hs (by decide) hN.strtod_one.1]
        simp [show cstr oneStr = oneStr from rfl, hN.strtod_one.2]
      · simp [Obj.istrue, hl, hs, hc.one.int]
    · have hne : lis ≠ [] := fun hnil => hc.one_l (by rw [hl, hnil])
      simp [Obj.istrue, hl, hne]
  null := by
    refine ⟨.str hc.null.str, ?_⟩
    rcases hc.null.l with hl | hl <;> simp [Obj.istrue, hl, hc.null.str]

/-- What a step of the heap keeps. -/
theorem Consts.event (hN : Digits N) (he : Event N t h h') (hz : t ≠ .list C.zero)
    (h1 : t ≠ .change C.one) (hp : t ≠ .pop C.one) (hn : t ≠ .change C.null) (hc : Consts N C h) :
    Consts N C h' where
  zero_lt := Nat.lt_of_lt_of_le hc.zero_lt he.next_le
  one_lt := Nat.lt_of_lt_of_le hc.one_lt he.next_le
  null_lt := Nat.lt_of_lt_of_le hc.null_lt he.next_le
  zero := hc.zero.event (by decide +kernel) hN.fmt_zero he hc.zero_lt fun _ => hc.zero_l
  zero_l := l_none_event he hc.zero_lt hz hc.zero_l
  one := hc.one.event (by decide +kernel) hN.fmt_one he hc.one_lt fun ht => absurd ht h1
  one_l := l_ne_nil_event he hc.one_lt h1 hp hc.one (by decide +kernel) hc.one_l
  null := hc.null.event he hc.null_lt hn

theorem Consts.evolve (hN : Digits N) {P : Touch → Prop} (hr : (evolve N P).Rel h h')
    (hz : ¬ P (.list C.zero)) (h1 : ¬ P (.change C.one)) (hp : ¬ P (.pop C.one))
    (hn : ¬ P (.change C.null)) (hc : Consts N C h) : Consts N C h' := by
  refine evolve_invariant (fun t h h' ht he hc => ?_) hr hc
  exact hc.event hN he (fun e => hz (e ▸ ht)) (fun e => h1 (e ▸ ht)) (fun e => hp (e ▸ ht))
    fun e => hn (e ▸ ht)

/-! ### The start -/

theorem ofInt_l (i : ℤ) : (Obj.ofInt i : Obj F).l = none := rfl

theorem isEmpty_ofStr : IsEmpty (.ofStr [] : Obj F) := ⟨rfl, .inl rfl⟩

/-- The constants are new, and what they are called. -/
theorem newShared_consts (h : Heap F) : Op.Returns newShared h fun C h' =>
    Consts N C h' ∧ h.next ≤ C.zero := by
  refine Op.returns_bind (alloc_returns _ h) ?_
  rintro _ _ ⟨rfl, rfl⟩
  refine Op.returns_bind (alloc_returns _ _) ?_
  rintro _ _ ⟨rfl, rfl⟩
  refine Op.returns_bind (alloc_returns _ _) ?_
  rintro _ _ ⟨rfl, rfl⟩
  refine Op.returns_bind (alloc_returns _ _) ?_
  rintro _ _ ⟨rfl, rfl⟩
  refine Op.returns_bind (alloc_returns _ _) ?_
  rintro _ _ ⟨rfl, rfl⟩
  refine Op.returns_bind (alloc_returns _ _) ?_
  rintro _ _ ⟨rfl, rfl⟩
  refine Op.ends_pure ⟨⟨?_, ?_, ?_, ?_, ?_, ?_, ?_, ?_⟩, ?_⟩
  all_goals simp [Heap.push, Heap.set, Nat.add_assoc, isNumber_ofInt, ofInt_l, isEmpty_ofStr]

/-- The start makes the constants, and neither converts nor changes them. -/
theorem interpNew_consts (hN : Digits N) (args : List Bytes) (exts : List ExtObj)
    (progs : List (Opts × Bytes)) (h : Heap F) :
    Op.Ends (interpNew (S := S) N args exts progs) h (fun σ h' => Consts N σ.shared h')
      fun _ => True := by
  refine Op.ends_bind_of fun lis h₁ _ => ?_
  refine Op.returns_bind (alloc_returns _ h₁) ?_
  rintro argv _ ⟨rfl, rfl⟩
  refine Op.returns_bind (newShared_consts (N := N) _) fun C h₂ ⟨hconsts, hzero⟩ => ?_
  let P : Touch → Prop := fun t => t = .conv ∨ t = .build ∨ t = .list h₁.next
  have hc : P .conv := .inl rfl
  have hb : P .build := .inr (.inl rfl)
  have hl : P (.list h₁.next) := .inr (.inr rfl)
  refine Op.ends_bind_keepsAt (frameSetArgs_keeps hc hb hl C [] h₂) fun ls h₃ h23 => ?_
  refine Op.ends_bind_keepsAt (interpNewExts_keeps hc hb exts ls h₃) fun ls h₄ h34 => ?_
  refine Op.ends_bind_keepsAt (newProgs_keeps (N := N) hc progs h₄) fun ps h₅ h45 => ?_
  have hrel : (evolve N P).Rel h₂ h₅ := (h23.trans h34).trans h45
  refine Op.ends_pure (hconsts.evolve hN hrel ?_ ?_ ?_ ?_)
  · simpa [P] using Nat.ne_of_gt hzero
  · simp [P]
  · simp [P]
  · simp [P]

theorem start_consts (hN : Digits N) {args : List Bytes} {exts : List ExtObj}
    {progs : List (Opts × Bytes)} {m : Machine F S}
    (hm : Machine.start? N args exts progs = some m) : Consts N m.interp.shared m.heap := by
  unfold Machine.start? at hm
  rcases hx : interpNew (S := S) N args exts progs Heap.empty with σ | h' | _ <;> rw [hx] at hm
  · obtain rfl := Option.some.inj hm
    exact (interpNew_consts hN args exts progs Heap.empty).ok hx
  · cases hm
  · cases hm

/-! ### Every run -/

/-- **One step.** -/
theorem step_consts (hN : Digits N) {nat : Natives N S I} {m m' : Machine F S} {inp : Input I}
    (hc : Consts N m.interp.shared m.heap) (hs : Spares nat m) (hstep : m.step nat inp = some m') :
    Consts N m'.interp.shared m'.heap := by
  obtain ⟨hmove, hrel⟩ := Machine.step_spec hstep
  rw [hmove.shared]
  exact hc.evolve hN hrel hs.zero hs.one hs.one_pop hs.null

/-- **The shared constants are constant.** In every run of every program whose steps all spare
them, the objects for 0, 1 and the empty string keep these values. -/
theorem constants_kept (hN : Digits N) (nat : Natives N S I) (args : List Bytes)
    (exts : List ExtObj) (progs : List (Opts × Bytes)) (m : Machine F S)
    (hm : Machine.start? N args exts progs = some m) (inps : List (Input I))
    (hs : Runs.EachStep (Machine.step nat) (fun m _ => Spares nat m) m inps) :
    Runs.Throughout (Machine.step nat) (fun m => Values N m.heap m.interp.shared) m inps := by
  have hrun : Runs.Throughout (Machine.step nat) (fun m => Consts N m.interp.shared m.heap) m inps :=
    Runs.throughout_of_eachStep (fun _ _ _ hc hs hstep => step_consts hN hc hs hstep)
      (start_consts hN hm) hs
  exact hrun.mono fun _ hc => hc.values hN

theorem digits_wholeNum : Digits wholeNum where
  fmt_zero := by decide +kernel
  fmt_one := by decide +kernel
  strtod_zero := by decide +kernel
  strtod_one := by decide +kernel

/-- A comparison whose result is only read. -/
theorem comparison_read : ∃ m, wholeStart shortNames "{$e [$q A B]} {$e [$q A A]}" = some m ∧
    Runs.Throughout wholeStep (fun m => Values wholeNum m.heap m.interp.shared) m (quiet 80) := by
  have hspares : (wholeStart shortNames "{$e [$q A B]} {$e [$q A A]}").any (fun m =>
      decide (Runs.EachStep wholeStep (fun m _ => Spares (Natives.none wholeNum) m) m
        (quiet 80))) = true := by
    decide +kernel
  obtain ⟨m, hm, hsteps⟩ := (Option.any_eq_true _ _).mp hspares
  exact ⟨m, hm, constants_kept digits_wholeNum _ _ _ _ m hm _ (of_decide_eq_true hsteps)⟩

/-- A comparison whose result is appended to. -/
theorem comparison_appended : ¬ ∀ (args : List Bytes) (exts : List ExtObj)
    (progs : List (Opts × Bytes)) (m : Machine ℤ Unit),
    Machine.start? wholeNum args exts progs = some m →
    ∀ inps, Runs.Throughout wholeStep (fun m => Values wholeNum m.heap m.interp.shared) m inps := by
  intro hall
  have hlost : ((wholeStart shortNames "{$a [$q A B] C}").bind fun m =>
      Runs.run wholeStep m (quiet 33)).any
        (fun m => decide ((m.heap.obj m.interp.shared.zero).i ≠ some 0)) = true := by
    decide +kernel
  obtain ⟨m', hm', hnot⟩ := (Option.any_eq_true _ _).mp hlost
  obtain ⟨m, hm, hrun⟩ := Option.bind_eq_some_iff.mp hm'
  exact of_decide_eq_true hnot ((hall _ _ _ m hm _).run hrun).zero.1

end Constants

end B6b
