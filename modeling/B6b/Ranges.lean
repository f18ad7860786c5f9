/-
# The numbers of a range

`b6b_loop_proc_range` adds the step to its variable before it compares it with the end. So the
variable has to be able to go one step past the last number: `range_iff`. Where it is not, the sum
overflows.

Key definitions: `IsRange`, `Calls`.
-/
import B6b.Procs
import B6b.Dict

namespace B6b

namespace Ranges

variable {F : Type} {N : Num F} {h h₁ : Heap F} {i j step : ℤ} {xs : List ℤ}

/-! ### Ranges -/

/-- The numbers `i`, `i + step`, `i + 2 * step` and so on that are at most `j`, in their order. -/
structure IsRange (i j step : ℤ) (xs : List ℤ) : Prop where
  increasing : xs.Pairwise (· < ·)
  mem_iff : ∀ x, x ∈ xs ↔ x ≤ j ∧ ∃ k : ℕ, x = i + k * step

/-- The last one of them. -/
def lastOf (i j step : ℤ) : ℤ := j - (j - i) % step

/-- It comes behind the first one. -/
theorem le_lastOf (hstep : 0 < step) (hle : i ≤ j) : i ≤ lastOf i j step := by
  have hdiv : 0 ≤ (j - i) / step := Int.ediv_nonneg (by omega) (Int.le_of_lt hstep)
  have hmul : 0 ≤ step * ((j - i) / step) := Int.mul_nonneg (Int.le_of_lt hstep) hdiv
  have hsum : (j - i) % step + step * ((j - i) / step) = j - i := Int.emod_add_mul_ediv _ _
  unfold lastOf
  omega

/-- The range from the next number on has the same last number. -/
theorem lastOf_add : lastOf (i + step) j step = lastOf i j step := by
  have hsub : j - (i + step) = (j - i) - step := by omega
  unfold lastOf
  rw [hsub, Int.sub_emod_right]

/-- A number that has no next one is the last. -/
theorem lastOf_eq (hle : i ≤ j) (hlt : j < i + step) : lastOf i j step = i := by
  unfold lastOf
  rw [Int.emod_eq_of_lt (by omega) (by omega)]
  omega

theorem isRange_nil (hstep : 0 < step) (hlt : j < i) : IsRange i j step [] where
  increasing := List.Pairwise.nil
  mem_iff := fun x => by
    refine iff_of_false List.not_mem_nil ?_
    rintro ⟨hle, k, rfl⟩
    have hpos : 0 ≤ (k : ℤ) * step := Int.mul_nonneg (Int.natCast_nonneg k) (Int.le_of_lt hstep)
    omega

/-- One number more, in front. -/
theorem IsRange.cons (hstep : 0 < step) (hle : i ≤ j) (hxs : IsRange (i + step) j step xs) :
    IsRange i j step (i :: xs) where
  increasing := by
    refine List.pairwise_cons.mpr ⟨fun x hx => ?_, hxs.increasing⟩
    obtain ⟨-, k, rfl⟩ := (hxs.mem_iff x).mp hx
    have hpos : 0 ≤ (k : ℤ) * step := Int.mul_nonneg (Int.natCast_nonneg k) (Int.le_of_lt hstep)
    omega
  mem_iff := fun x => by
    rw [List.mem_cons, hxs.mem_iff x]
    constructor
    · rintro (rfl | ⟨hx, k, rfl⟩)
      · exact ⟨hle, 0, by rw [Int.natCast_zero, Int.zero_mul, Int.add_zero]⟩
      · refine ⟨hx, k + 1, ?_⟩
        rw [Int.natCast_add, Int.natCast_one, Int.add_mul, Int.one_mul]
        omega
    · rintro ⟨hx, k, rfl⟩
      cases k with
      | zero => exact .inl (by rw [Int.natCast_zero, Int.zero_mul, Int.add_zero])
      | succ k =>
        refine .inr ⟨hx, k, ?_⟩
        rw [Int.natCast_add, Int.natCast_one, Int.add_mul, Int.one_mul]
        omega

/-! ### The loop -/

/-- The numbers are the integers of these objects. -/
def Ints (h : Heap F) (as : List Addr) (xs : List ℤ) : Prop := as.map (fun a => (h.obj a).i) = xs.map some

/-- No object of the heap has changed. -/
structure Keeps (h h' : Heap F) : Prop where
  next : h.next ≤ h'.next
  obj : ∀ a, a < h.next → h'.obj a = h.obj a

theorem Keeps.trans {h₁ h₂ h₃ : Heap F} (h12 : Keeps h₁ h₂) (h23 : Keeps h₂ h₃) : Keeps h₁ h₃ where
  next := Nat.le_trans h12.next h23.next
  obj := fun a ha => (h23.obj a (Nat.lt_of_lt_of_le ha h12.next)).trans (h12.obj a ha)

theorem keeps_push (h : Heap F) (o : Obj F) : Keeps h (h.push o) where
  next := Nat.le_succ _
  obj := fun _ ha => Heap.push_obj_of_ne h o (Nat.ne_of_lt ha)

theorem Ints.kept {h h' : Heap F} (hk : Keeps h h') {as : List Addr} (has : ∀ a ∈ as, a < h.next)
    (hxs : Ints h as xs) : Ints h' as xs := by
  unfold Ints at hxs ⊢
  rw [← hxs]
  exact List.map_congr_left fun a ha => congrArg Obj.i (hk.obj a (has a ha))

/-- The loop behind the last number. -/
theorem rangeLoop_stop (fuel : ℕ) (hlt : j < i) (h : Heap F) :
    rangeLoop j step (fuel + 1) i h = .ok [] h := by
  rw [rangeLoop, if_neg (Int.not_le.mpr hlt)]
  rfl

/-- The loop at a number, if the variable can go on. -/
theorem rangeLoop_next (fuel : ℕ) (hle : i ≤ j) (hmax : i + step ≤ intMax) (h : Heap F) :
    rangeLoop j step (fuel + 1) i h = (rangeLoop j step fuel (i + step) >>= fun ios =>
      pure (h.next :: ios)) (h.push (.ofInt i)) := by
  have halloc : alloc (.ofInt i) h = .ok h.next (h.push (.ofInt i)) := rfl
  rw [rangeLoop, if_pos hle, Op.bind_ok halloc, if_neg (Int.not_lt.mpr hmax)]

/-- Where the variable can go past the last number, the loop makes the numbers of the range. -/
theorem rangeLoop_ok (hstep : 0 < step) (hmax : lastOf i j step + step ≤ intMax) :
    ∀ (fuel : ℕ) {i' : ℤ} (h : Heap F), lastOf i' j step = lastOf i j step →
      j < i' + fuel * step → ∃ ios h' xs, rangeLoop j step (fuel + 1) i' h = .ok ios h' ∧
        IsRange i' j step xs ∧ Ints h' ios xs ∧ (∀ a ∈ ios, a < h'.next) ∧ Keeps h h'
  | 0, i', h, _, hfuel => by
    have hlt : j < i' := by omega
    refine ⟨[], h, [], rangeLoop_stop 0 hlt h, isRange_nil hstep hlt, rfl, nofun, Nat.le_refl _, ?_⟩
    exact fun _ _ => rfl
  | fuel + 1, i', h, hlast, hfuel => by
    by_cases hle : i' ≤ j
    · have hle' : i' ≤ lastOf i' j step := le_lastOf hstep hle
      have hroom : i' + step ≤ intMax := by omega
      rw [Int.natCast_add, Int.natCast_one, Int.add_mul, Int.one_mul] at hfuel
      obtain ⟨ios, h', xs, hrun, hxs, hints, hlt, hk⟩ := rangeLoop_ok hstep hmax fuel
        (h.push (.ofInt i')) (lastOf_add.trans hlast) (by omega)
      have hnew : h.next < (h.push (.ofInt i' : Obj F)).next := Nat.lt_succ_self _
      refine ⟨h.next :: ios, h', i' :: xs, ?_, hxs.cons hstep hle, ?_, ?_, (keeps_push h _).trans hk⟩
      · rw [rangeLoop_next (fuel + 1) hle hroom, Op.bind_ok hrun]
        rfl
      · have hint : (h'.obj h.next).i = some i' := by
          rw [hk.obj h.next hnew, Heap.push_obj_self]
          rfl
        unfold Ints at hints ⊢
        rw [List.map_cons, List.map_cons, hints, hint]
      · exact List.forall_mem_cons.mpr ⟨Nat.lt_of_lt_of_le hnew hk.next, hlt⟩
    · have hlt : j < i' := Int.not_le.mp hle
      refine ⟨[], h, [], rangeLoop_stop _ hlt h, isRange_nil hstep hlt, rfl, nofun, Nat.le_refl _, ?_⟩
      exact fun _ _ => rfl

/-- Where it is not, the loop overflows, whatever it may take. -/
theorem rangeLoop_overflows (hmax : intMax < lastOf i j step + step) :
    ∀ (fuel : ℕ) {i' : ℤ} (h : Heap F), lastOf i' j step = lastOf i j step → i' ≤ j →
      rangeLoop j step fuel i' h = .crash
  | 0, _, _, _, _ => rfl
  | fuel + 1, i', h, hlast, hle => by
    by_cases hroom : i' + step ≤ intMax
    · have hle' : i' + step ≤ j := by
        by_contra hlt
        have heq := lastOf_eq hle (Int.not_le.mp hlt)
        omega
      rw [rangeLoop_next fuel hle hroom, Op.bind_apply,
        rangeLoop_overflows hmax fuel _ (lastOf_add.trans hlast) hle']
    · have halloc : alloc (.ofInt i') h = .ok h.next (h.push (.ofInt i')) := rfl
      rw [rangeLoop, if_pos hle, Op.bind_ok halloc, if_pos (Int.not_le.mp hroom)]
      rfl

/-! ### The procedure -/

/-- An argument that has been converted to an integer. -/
structure IsInt (h : Heap F) (a : Addr) (i : ℤ) : Prop where
  lt : a < h.next
  int : (h.obj a).i = some i

/-- The arguments of the call, converted: the ends of the range, and the step if there is one. The
procedure admits them. -/
structure Calls (N : Num F) (args : Addr) (h h₁ : Heap F) (i j step : ℤ) : Prop where
  le : i ≤ j
  step_pos : 0 < step
  parse : ∃ self a b rest, listVparse N args "oii|i" true h = .ok (self :: a :: b :: rest) h₁ ∧
    IsInt h₁ a i ∧ IsInt h₁ b j ∧ (rest = [] ∧ step = 1 ∨ ∃ c tail, rest = c :: tail ∧ IsInt h₁ c step)

/-- The step is the one of the call. -/
theorem rangeStep_ok {rest : List Addr}
    (hrest : rest = [] ∧ step = 1 ∨ ∃ c tail, rest = c :: tail ∧ IsInt h c step) :
    rangeStep rest h = .ok step h := by
  rcases hrest with ⟨rfl, rfl⟩ | ⟨c, tail, rfl, hc⟩
  · rfl
  · exact intOf_ok hc.lt hc.int

/-- The procedure is its loop, and a list of what the loop has made. -/
theorem loopProcRange_eq {args : Addr} (hc : Calls N args h h₁ i j step) :
    loopProcRange N args h = (rangeLoop j step ((j - i).toNat / step.toNat + 2) i >>= fun ios =>
      listBuild ios >>= returnObj) h₁ := by
  obtain ⟨self, a, b, rest, hparse, ha, hb, hrest⟩ := hc.parse
  have hok : ¬ (step ≤ 0 ∨ i > j) := by
    have hpos := hc.step_pos
    have hle := hc.le
    omega
  unfold loopProcRange getArgs getArgsThen
  rw [Op.bind_ok (Op.attempt_ok hparse)]
  dsimp only
  rw [Op.bind_ok (rangeStep_ok hrest), Op.bind_ok (intOf_ok ha.lt ha.int),
    Op.bind_ok (intOf_ok hb.lt hb.int), if_neg hok]

theorem loopProcRange_overflows {args : Addr} (hc : Calls N args h h₁ i j step)
    (hmax : intMax < lastOf i j step + step) : loopProcRange N args h = .crash := by
  rw [loopProcRange_eq hc, Op.bind_apply, rangeLoop_overflows hmax _ h₁ rfl hc.le]

/-- The turns that the loop has are enough. -/
theorem fuel_enough (hstep : 0 < step) (hle : i ≤ j) :
    j < i + ((j - i).toNat / step.toNat + 1 : ℕ) * step := by
  obtain ⟨s, rfl⟩ := Int.eq_ofNat_of_zero_le (Int.le_of_lt hstep)
  obtain ⟨n, hn⟩ := Int.eq_ofNat_of_zero_le (Int.sub_nonneg.mpr hle)
  have hs : 0 < s := Int.natCast_pos.mp hstep
  have hlt : n < (n / s + 1) * s := by
    rw [Nat.mul_comm]
    exact Nat.lt_mul_div_succ n hs
  have hcast : (n : ℤ) < ((n / s + 1 : ℕ) : ℤ) * s := by exact_mod_cast hlt
  rw [hn, Int.toNat_natCast, Int.toNat_natCast]
  omega

/-- **`range` makes the right numbers exactly if its variable can go one step past the last
one.** -/
theorem range_iff (N : Num F) (args : Addr) (h h₁ : Heap F) (i j step : ℤ)
    (hc : Calls N args h h₁ i j step) :
    (∃ l h' lis xs, loopProcRange N args h = .ok (.ok, some l) h' ∧ (h'.obj l).l = some lis ∧
      Ints h' (lis.map (·.o)) xs ∧ IsRange i j step xs) ↔ lastOf i j step + step ≤ intMax := by
  constructor
  · rintro ⟨l, h', lis, xs, hrun, -⟩
    by_contra hover
    rw [loopProcRange_overflows hc (Int.not_le.mp hover)] at hrun
    cases hrun
  · intro hmax
    rw [loopProcRange_eq hc]
    obtain ⟨ios, h₂, xs, hrun, hxs, hints, hlt, -⟩ :=
      rangeLoop_ok hc.step_pos hmax _ h₁ rfl (fuel_enough hc.step_pos hc.le)
    obtain ⟨n, lis, hbuild, hlis⟩ := listBuild_ok ios h₂
    refine ⟨h₂.next, (h₂.withLi n).push (.ofList lis), lis, xs, ?_, ?_, ?_, hxs⟩
    · rw [Op.bind_ok hrun, Op.bind_ok hbuild]
      rfl
    · exact congrArg Obj.l (Heap.push_obj_self (h₂.withLi n) (.ofList lis))
    · have hkeeps : Keeps h₂ ((h₂.withLi n).push (.ofList lis)) :=
        ⟨(keeps_push (h₂.withLi n) _).next, (keeps_push (h₂.withLi n) _).obj⟩
      rw [hlis]
      exact hints.kept hkeeps hlt

/-- The list of arguments behind the ends of a range and its step. -/
def callHeap (i j step : ℤ) : Heap ℤ :=
  ((((Heap.empty.push (.ofStr (bytes "range"))).push (.ofInt i)).push (.ofInt j)).push
    (.ofInt step)).push (.ofList [⟨0, 0⟩, ⟨1, 1⟩, ⟨2, 2⟩, ⟨3, 3⟩])

theorem callHeap_calls (hle : i ≤ j) (hstep : 0 < step) :
    Calls wholeNum 4 (callHeap i j step) (callHeap i j step) i j step where
  le := hle
  step_pos := hstep
  parse :=
    have hone : (1 : Addr) < 5 := by decide
    have htwo : (2 : Addr) < 5 := by decide
    have hthree : (3 : Addr) < 5 := by decide
    ⟨0, 1, 2, [3], rfl, ⟨hone, rfl⟩, ⟨htwo, rfl⟩, .inr ⟨3, [], rfl, hthree, rfl⟩⟩

/-- `{$range 1 10 4}` -/
theorem range_one_ten : ∃ l h' lis xs, loopProcRange wholeNum 4 (callHeap 1 10 4) = .ok (.ok, some l) h' ∧
    (h'.obj l).l = some lis ∧ Ints h' (lis.map (·.o)) xs ∧ IsRange 1 10 4 xs :=
  (range_iff wholeNum 4 _ _ 1 10 4 (callHeap_calls (by decide) (by decide))).mpr (by decide)

/-- `{$range 9223372036854774784 9223372036854774784 1024}` -/
theorem range_overflows : ¬ ∀ (args : Addr) (h h₁ : Heap ℤ) (i j step : ℤ),
    Calls wholeNum args h h₁ i j step → ∃ l h' lis xs,
      loopProcRange wholeNum args h = .ok (.ok, some l) h' ∧ (h'.obj l).l = some lis ∧
        Ints h' (lis.map (·.o)) xs ∧ IsRange i j step xs := by
  intro hall
  have hc : Calls wholeNum 4 (callHeap (2 ^ 63 - 1024) (2 ^ 63 - 1024) 1024) _ _ _ 1024 :=
    callHeap_calls (Int.le_refl _) (by decide)
  obtain ⟨l, h', lis, xs, hrun, -⟩ := hall _ _ _ _ _ _ hc
  rw [loopProcRange_overflows hc (by decide)] at hrun
  cases hrun

end Ranges

end B6b
