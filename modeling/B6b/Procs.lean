/-
# The procedures that only read their arguments

Those of `b6b_core.c`, `b6b_logic.c`, `b6b_math.c` and `b6b_loop.c` that use nothing of
the interpreter but the objects it shares, and `b6b_list_proc_in`. With the procedures of
lists and dictionaries they are the ones of `heapProc`; what the others do needs the
interpreter (`Interp`).

`fmt` is the format a procedure hands to `b6b_proc_get_args`, and `Builtin.Touches` is
what a call of it touches: `heapProc_keepsAt`.

Key definitions: `Shared`, `heapProc`, `fmt`, `Builtin.Touches`.
-/
import B6b.Changes

namespace B6b

variable {F : Type}

/-- The objects that `b6b_interp_new` makes for the interpreter's own use. -/
structure Shared where
  null : Addr
  zero : Addr
  one : Addr
  dot : Addr
  at' : Addr
  us : Addr
deriving DecidableEq

/-- `b6b_return_bool` -/
def returnBool (C : Shared) (b : Bool) : Op (Heap F) Reply := returnObj (if b then C.one else C.zero)

/-! ### Core -/

/-- `b6b_core_proc_nop` -/
def coreProcNop : Op (Heap F) Reply := pure (.ok, none)

/-- `b6b_core_proc_echo` -/
def coreProcEcho (N : Num F) (args : Addr) : Op (Heap F) Reply :=
  getArgs N args "oo" fun
    | [_, o] => returnObj o
    | _ => Op.crash

/-- `b6b_core_proc_yield` -/
def coreProcYield : Op (Heap F) Reply := pure (.yield, none)

/-- A procedure of `b6b_core.c` that ends with `r`, and returns its argument if it has one. -/
def endProc (N : Num F) (r : Res) (args : Addr) : Op (Heap F) Reply :=
  getArgs N args "o|o" fun
    | [_, o] => pure (r, some o)
    | _ => pure (r, none)

/-- `b6b_core_proc_return` -/
def coreProcReturn (N : Num F) : Addr → Op (Heap F) Reply := endProc N .ret

/-- `b6b_core_proc_continue` -/
def coreProcContinue : Op (Heap F) Reply := pure (.cont, none)

/-- `b6b_core_proc_break` -/
def coreProcBreak : Op (Heap F) Reply := pure (.brk, none)

/-- `b6b_core_proc_throw` -/
def coreProcThrow (N : Num F) : Addr → Op (Heap F) Reply := endProc N .err

/-- `b6b_core_proc_exit` -/
def coreProcExit (N : Num F) : Addr → Op (Heap F) Reply := endProc N .exit

/-- `b6b_core_proc_repr` -/
def coreProcRepr (N : Num F) (args : Addr) : Op (Heap F) Reply :=
  getArgs N args "os" fun
    | [_, a] => do
      let s ← strOf a
      let braced := s.head? = some lbrac ∧ s.getLast? = some rbrac
      if s.isEmpty then
        let m ← returnStr [lbrac, rbrac]
        pure (.ok, m)
      else if ¬ braced ∧ s.any isspace then
        let m ← returnStr (lbrac :: s ++ [rbrac])
        pure (.ok, m)
      else returnObj a
    | _ => Op.crash

/-! ### Logic -/

/-- A procedure of `b6b_logic.c` that tells the truth of its two arguments. -/
def truthProc (N : Num F) (C : Shared) (f : Bool → Bool → Bool) (args : Addr) : Op (Heap F) Reply :=
  getArgs N args "ooo" fun
    | [_, a, b] => do
      let x ← load a
      let y ← load b
      returnBool C (f (x.istrue N) (y.istrue N))
    | _ => Op.crash

/-- A procedure of `b6b_logic.c` that compares its two arguments. -/
def equalProc (N : Num F) (C : Shared) (f : Bool → Bool) (args : Addr) : Op (Heap F) Reply :=
  getArgs N args "ooo" fun
    | [_, a, b] => do
      objHash N a
      objHash N b
      let eq ← objEq a b
      returnBool C (f eq)
    | _ => Op.crash

/-- `b6b_logic_proc_not` -/
def logicProcNot (N : Num F) (C : Shared) (args : Addr) : Op (Heap F) Reply :=
  getArgs N args "oo" fun
    | [_, a] => do
      let x ← load a
      returnBool C (!x.istrue N)
    | _ => Op.crash

/-- `b6b_logic_proc_eq` -/
def logicProcEq (N : Num F) (C : Shared) : Addr → Op (Heap F) Reply := equalProc N C id

/-- `b6b_logic_proc_ne` -/
def logicProcNe (N : Num F) (C : Shared) : Addr → Op (Heap F) Reply := equalProc N C not

/-- `b6b_logic_proc_and` -/
def logicProcAnd (N : Num F) (C : Shared) : Addr → Op (Heap F) Reply := truthProc N C and

/-- `b6b_logic_proc_or` -/
def logicProcOr (N : Num F) (C : Shared) : Addr → Op (Heap F) Reply := truthProc N C or

/-- `b6b_logic_proc_xor` -/
def logicProcXor (N : Num F) (C : Shared) : Addr → Op (Heap F) Reply := truthProc N C Bool.xor

/-! ### Numbers -/

/-- A procedure of `b6b_math.c` on two floats. -/
def floatProc (N : Num F) (f : F → F → Op (Heap F) Reply) (args : Addr) : Op (Heap F) Reply :=
  getArgs N args "off" fun
    | [_, m, n] => do
      let x ← floatOf m
      let y ← floatOf n
      f x y
    | _ => Op.crash

/-- A procedure of `b6b_math.c` on the bits of two integers. -/
def bitProc (N : Num F) (f : BitVec 64 → BitVec 64 → BitVec 64) (args : Addr) : Op (Heap F) Reply :=
  getArgs N args "oii" fun
    | [_, m, n] => do
      let i ← intOf m
      let j ← intOf n
      returnInt (f (BitVec.ofInt 64 i) (BitVec.ofInt 64 j)).toInt
    | _ => Op.crash

/-- `b6b_math_proc_add` -/
def mathProcAdd (N : Num F) : Addr → Op (Heap F) Reply := floatProc N fun m n => returnFloat (N.add m n)

/-- `b6b_math_proc_sub` -/
def mathProcSub (N : Num F) : Addr → Op (Heap F) Reply := floatProc N fun m n => returnFloat (N.sub m n)

/-- `b6b_math_proc_mul` -/
def mathProcMul (N : Num F) : Addr → Op (Heap F) Reply := floatProc N fun m n => returnFloat (N.mul m n)

/-- `b6b_math_proc_div` -/
def mathProcDiv (N : Num F) : Addr → Op (Heap F) Reply := floatProc N fun m n =>
  if N.isZero n then do
    let s ← returnStr (bytes "/ by 0")
    pure (.err, s)
  else returnFloat (N.div m n)

/-- `b6b_math_proc_mod` -/
def mathProcMod (N : Num F) : Addr → Op (Heap F) Reply := floatProc N fun m n =>
  if N.isZero n then do
    let s ← returnStr (bytes "% by 0")
    pure (.err, s)
  else
    match N.rem m n with
    | none => pure (.err, none)
    | some p =>
      returnFloat (if N.lt p (N.ofInt 0) && N.lt (N.ofInt 0) n then N.add p n else p)

/-- `b6b_math_proc_and` -/
def mathProcAnd (N : Num F) : Addr → Op (Heap F) Reply := bitProc N (· &&& ·)

/-- `b6b_math_proc_or` -/
def mathProcOr (N : Num F) : Addr → Op (Heap F) Reply := bitProc N (· ||| ·)

/-- `b6b_math_proc_xor` -/
def mathProcXor (N : Num F) : Addr → Op (Heap F) Reply := bitProc N (· ^^^ ·)

/-- `b6b_math_proc_lt` -/
def mathProcLt (N : Num F) (C : Shared) : Addr → Op (Heap F) Reply :=
  floatProc N fun m n => returnBool C (N.lt m n)

/-- `b6b_math_proc_le` -/
def mathProcLe (N : Num F) (C : Shared) : Addr → Op (Heap F) Reply :=
  floatProc N fun m n => returnBool C (N.le m n)

/-- `b6b_math_proc_gt` -/
def mathProcGt (N : Num F) (C : Shared) : Addr → Op (Heap F) Reply :=
  floatProc N fun m n => returnBool C (N.lt n m)

/-- `b6b_math_proc_ge` -/
def mathProcGe (N : Num F) (C : Shared) : Addr → Op (Heap F) Reply :=
  floatProc N fun m n => returnBool C (N.le n m)

/-! ### Ranges and searches -/

/-- The loop of `b6b_loop_proc_range` from `i` on. The sum behind the last number may
overflow, which is undefined. -/
def rangeLoop (stop step : ℤ) : ℕ → ℤ → Op (Heap F) (List Addr)
  | 0, _ => Op.crash
  | fuel + 1, i =>
    if i ≤ stop then do
      let io ← alloc (.ofInt i)
      if i + step > intMax then Op.crash
      else
        let ios ← rangeLoop stop step fuel (i + step)
        pure (io :: ios)
    else pure []

/-- The step of `b6b_loop_proc_range`. -/
def rangeStep : List Addr → Op (Heap F) ℤ
  | [] => pure 1
  | stepo :: _ => intOf stepo

/-- `b6b_loop_proc_range` -/
def loopProcRange (N : Num F) (args : Addr) : Op (Heap F) Reply :=
  getArgs N args "oii|i" fun
    | _ :: start :: stop :: stepo => do
      let step ← rangeStep stepo
      let i ← intOf start
      let j ← intOf stop
      if step ≤ 0 ∨ i > j then pure (.err, none)
      else
        let ios ← rangeLoop j step ((j - i).toNat / step.toNat + 2) i
        let l ← listBuild ios
        returnObj l
    | _ => pure (.err, none)

/-- `b6b_list_proc_in` -/
def listProcIn (N : Num F) (C : Shared) (args : Addr) : Op (Heap F) Reply :=
  getArgs N args "ool" fun
    | [_, o, l] => orErr do
      objHash N o
      let lis ← items l
      let found ← listInFrom N o lis
      returnBool C found
    | _ => Op.crash

/-! ### All of them -/

/-- What a call of the procedure with the list `args` does, if it only reads its arguments
and the shared objects. -/
def heapProc (N : Num F) (C : Shared) : Builtin → Option (Addr → Op (Heap F) Reply)
  | .nop => some fun _ => coreProcNop
  | .echo => some (coreProcEcho N)
  | .yield => some fun _ => coreProcYield
  | .ret => some (coreProcReturn N)
  | .cont => some fun _ => coreProcContinue
  | .brk => some fun _ => coreProcBreak
  | .throw => some (coreProcThrow N)
  | .exit => some (coreProcExit N)
  | .repr => some (coreProcRepr N)
  | .not => some (logicProcNot N C)
  | .eq => some (logicProcEq N C)
  | .ne => some (logicProcNe N C)
  | .and => some (logicProcAnd N C)
  | .or => some (logicProcOr N C)
  | .xor => some (logicProcXor N C)
  | .range => some (loopProcRange N)
  | .listNew => some listProcNew
  | .listLen => some (listProcLen N)
  | .listCopy => some (listProcCopy N)
  | .listAppend => some (listProcAppend N)
  | .listExtend => some (listProcExtend N)
  | .listIndex => some (listProcIndex N)
  | .listRange => some (listProcRange N)
  | .listIn => some (listProcIn N C)
  | .listPop => some (listProcPop N)
  | .dictGet => some (dictProcGet N)
  | .dictSet => some (dictProcSet N)
  | .dictUnset => some (dictProcUnset N)
  | .add => some (mathProcAdd N)
  | .sub => some (mathProcSub N)
  | .mul => some (mathProcMul N)
  | .div => some (mathProcDiv N)
  | .mod => some (mathProcMod N)
  | .bitAnd => some (mathProcAnd N)
  | .bitOr => some (mathProcOr N)
  | .bitXor => some (mathProcXor N)
  | .lt => some (mathProcLt N C)
  | .le => some (mathProcLe N C)
  | .gt => some (mathProcGt N C)
  | .ge => some (mathProcGe N C)
  | .loc | .glob | .export | .eval | .call | .spawn | .source | .cond | .map | .loop | .try | .proc => none

/-- The format the procedure hands to `b6b_proc_get_args`, if it does. -/
def fmt : Builtin → String
  | .nop | .yield | .cont | .brk | .listNew => ""
  | .ret | .throw | .exit => "o|o"
  | .echo | .eval | .call | .spawn | .not | .loop => "oo"
  | .loc | .glob | .eq | .ne | .and | .or | .xor => "ooo"
  | .export => "os|o"
  | .repr | .source => "os"
  | .cond => "ooo|o"
  | .map => "ollo"
  | .range => "oii|i"
  | .try => "oo|oo"
  | .proc => "oso|o"
  | .listLen | .listCopy => "ol"
  | .listAppend | .dictUnset => "olo"
  | .listExtend => "oll"
  | .listIndex | .listPop => "oli"
  | .listRange => "olii"
  | .listIn => "ool"
  | .dictGet => "olo|o"
  | .dictSet => "oloo"
  | .add | .sub | .mul | .div | .mod | .lt | .le | .gt | .ge => "off"
  | .bitAnd | .bitOr | .bitXor => "oii"

/-- The procedures that change a list in place, and flush it. -/
def Builtin.changes : Builtin → Bool
  | .listAppend | .listExtend | .dictSet | .dictUnset => true
  | _ => false

/-- What a call of the procedure with a list of the items `lis` touches. -/
def Builtin.Touches (b : Builtin) (lis : List Litem) : Touch → Prop
  | .conv | .build => True
  | .list a => a ∈ listArgs (fmt b).toList lis true
  | .change a => b.changes = true ∧ (lis.map (·.o))[1]? = some a
  | .pop a => b = .listPop ∧ (lis.map (·.o))[1]? = some a

instance (b : Builtin) (lis : List Litem) : ∀ t, Decidable (b.Touches lis t)
  | .conv => inferInstanceAs (Decidable True)
  | .build => inferInstanceAs (Decidable True)
  | .list _ => inferInstanceAs (Decidable (_ ∈ _))
  | .change _ => inferInstanceAs (Decidable (_ ∧ _))
  | .pop _ => inferInstanceAs (Decidable (_ ∧ _))

/-! ### What they touch -/

section Keeps

variable {N : Num F} {P : Touch → Prop} (hc : P .conv) (hb : P .build)

theorem intOf_keeps (a : Addr) : Op.Keeps (evolve N P) (intOf a) :=
  fun h => (intOf_returns a h).mono fun _ _ heq => heq ▸ .refl

theorem floatOf_keeps (a : Addr) : Op.Keeps (evolve N P) (floatOf (F := F) a) := by
  refine Op.keeps_bind (load_keeps a) fun o => ?_
  cases o.f with
  | none => exact Op.keeps_crash
  | some f => exact Op.keeps_pure _

theorem strOf_keeps (a : Addr) : Op.Keeps (evolve N P) (strOf (F := F) a) := by
  refine Op.keeps_bind (load_keeps a) fun o => ?_
  cases o.s with
  | none => exact Op.keeps_crash
  | some s => exact Op.keeps_pure _

theorem orErr_keeps {x : Op (Heap F) Reply} (hx : Op.Keeps (evolve N P) x) :
    Op.Keeps (evolve N P) (orErr x) := by
  refine Op.keeps_bind (Op.keeps_attempt hx) fun r => ?_
  cases r with
  | none => exact Op.keeps_pure _
  | some r => exact Op.keeps_pure _

include hb in
theorem returnInt_keeps (i : ℤ) : Op.Keeps (evolve N P) (returnInt (F := F) i) :=
  Op.keeps_bind (alloc_keeps hb _) fun _ => Op.keeps_pure _

include hb in
theorem returnFloat_keeps (f : F) : Op.Keeps (evolve N P) (returnFloat f) :=
  Op.keeps_bind (alloc_keeps hb _) fun _ => Op.keeps_pure _

include hc hb in
theorem listBuild_keeps (xs : List Addr) : Op.Keeps (evolve N P) (listBuild (F := F) xs) := by
  intro h
  refine (listBuild_returns xs h).mono ?_
  rintro _ _ ⟨-, n, lis, -, hn, rfl⟩
  have hli : (evolve N P).Rel h (h.withLi n) := (Event.litem hn).evolve hc
  exact hli.trans ((Event.build _).evolve hb)

theorem rangeStep_keeps (stepo : List Addr) : Op.Keeps (evolve N P) (rangeStep (F := F) stepo) := by
  cases stepo with
  | nil => exact Op.keeps_pure _
  | cons o _ => exact intOf_keeps o

include hb in
theorem rangeLoop_keeps (stop step : ℤ) : ∀ (fuel : ℕ) (i : ℤ),
    Op.Keeps (evolve N P) (rangeLoop (F := F) stop step fuel i)
  | 0, _ => Op.keeps_crash
  | fuel + 1, i => by
    unfold rangeLoop
    by_cases hi : i ≤ stop
    · rw [if_pos hi]
      refine Op.keeps_bind (alloc_keeps hb _) fun io => ?_
      by_cases hmax : i + step > intMax
      · rw [if_pos hmax]
        exact Op.keeps_crash
      · rw [if_neg hmax]
        exact Op.keeps_bind (rangeLoop_keeps stop step fuel _) fun _ => Op.keeps_pure _
    · rw [if_neg hi]
      exact Op.keeps_pure _

include hc in
theorem listInFrom_keeps (o : Addr) : ∀ lis, Op.Keeps (evolve N P) (listInFrom N o lis)
  | [] => Op.keeps_pure _
  | li :: lis => by
    refine Op.keeps_bind (objHash_keeps hc li.o) fun _ => Op.keeps_bind (objEq_keeps o li.o) fun eq => ?_
    cases eq with
    | true => exact Op.keeps_pure _
    | false => exact listInFrom_keeps o lis

/-! ### What a call keeps -/

variable {C : Shared} {args : Addr} {h : Heap F}

include hc in
/-- The conversions of a procedure are among what it touches. -/
theorem getArgs_touches {b : Builtin} {body : List Addr → Op (Heap F) Reply}
    (ht : ∀ lis, (h.obj args).l = some lis → ∀ t, b.Touches lis t → P t)
    (hbody : ∀ lis xs, (h.obj args).l = some lis → xs <+: lis.map (·.o) →
      Op.Keeps (evolve N P) (body xs)) :
    Op.KeepsAt (evolve N P) (getArgs N args (fmt b) body) h :=
  getArgs_keepsAt hc (fun lis hl a ha => ht lis hl (.list a) ha) hbody

/-- The second argument, which the procedures that change a list change. -/
theorem second_of_prefix {lis : List Litem} {x l : Addr} {xs : List Addr}
    (hpre : x :: l :: xs <+: lis.map (·.o)) : (lis.map (·.o))[1]? = some l := by
  obtain ⟨ys, hys⟩ := hpre
  rw [← hys]
  rfl

include hc in
theorem floatProc_keepsAt {b : Builtin} (hf : fmt b = "off")
    (ht : ∀ lis, (h.obj args).l = some lis → ∀ t, b.Touches lis t → P t)
    {f : F → F → Op (Heap F) Reply} (hk : ∀ m n, Op.Keeps (evolve N P) (f m n)) :
    Op.KeepsAt (evolve N P) (floatProc N f args) h := by
  unfold floatProc
  rw [← hf]
  refine getArgs_touches hc ht fun _ xs _ _ => ?_
  split
  · exact Op.keeps_bind (floatOf_keeps _) fun _ => Op.keeps_bind (floatOf_keeps _) fun _ => hk _ _
  · exact Op.keeps_crash

include hc hb in
theorem bitProc_keepsAt {b : Builtin} (hf : fmt b = "oii")
    (ht : ∀ lis, (h.obj args).l = some lis → ∀ t, b.Touches lis t → P t)
    {f : BitVec 64 → BitVec 64 → BitVec 64} : Op.KeepsAt (evolve N P) (bitProc N f args) h := by
  unfold bitProc
  rw [← hf]
  refine getArgs_touches hc ht fun _ xs _ _ => ?_
  split
  · refine Op.keeps_bind (intOf_keeps _) fun _ => Op.keeps_bind (intOf_keeps _) fun _ => ?_
    exact returnInt_keeps hb _
  · exact Op.keeps_crash

include hc in
theorem endProc_keepsAt {b : Builtin} {r : Res} (hf : fmt b = "o|o")
    (ht : ∀ lis, (h.obj args).l = some lis → ∀ t, b.Touches lis t → P t) :
    Op.KeepsAt (evolve N P) (endProc N r args) h := by
  unfold endProc
  rw [← hf]
  refine getArgs_touches hc ht fun _ xs _ _ => ?_
  split
  · exact Op.keeps_pure _
  · exact Op.keeps_pure _

include hc in
theorem truthProc_keepsAt {b : Builtin} (hf : fmt b = "ooo")
    (ht : ∀ lis, (h.obj args).l = some lis → ∀ t, b.Touches lis t → P t)
    {f : Bool → Bool → Bool} : Op.KeepsAt (evolve N P) (truthProc N C f args) h := by
  unfold truthProc
  rw [← hf]
  refine getArgs_touches hc ht fun _ xs _ _ => ?_
  split
  · exact Op.keeps_bind (load_keeps _) fun _ => Op.keeps_bind (load_keeps _) fun _ => Op.keeps_pure _
  · exact Op.keeps_crash

include hc in
theorem equalProc_keepsAt {b : Builtin} (hf : fmt b = "ooo")
    (ht : ∀ lis, (h.obj args).l = some lis → ∀ t, b.Touches lis t → P t)
    {f : Bool → Bool} : Op.KeepsAt (evolve N P) (equalProc N C f args) h := by
  unfold equalProc
  rw [← hf]
  refine getArgs_touches hc ht fun _ xs _ _ => ?_
  split
  · refine Op.keeps_bind (objHash_keeps hc _) fun _ => Op.keeps_bind (objHash_keeps hc _) fun _ => ?_
    exact Op.keeps_bind (objEq_keeps _ _) fun _ => Op.keeps_pure _
  · exact Op.keeps_crash

section Changing

variable {l : Addr}

include hc in
theorem listAdd_keeps (hl : P (.change l)) (o : Addr) : Op.Keeps (evolve N P) (listAdd (F := F) l o) :=
  fun h => (listAdd_returns (G := Anything) l trivial h).mono fun _ _ hch => hch.rel hc hl

include hc in
theorem listExtend_keeps (hl : P (.change l)) (l2 : Addr) :
    Op.Keeps (evolve N P) (listExtend (F := F) l l2) := fun h =>
  (listExtend_returns (G := Anything) l l2 h anything anything).mono
    fun _ _ hch => hch.rel hc hl

include hc in
theorem dictSet_keeps (hl : P (.change l)) (k v : Addr) : Op.Keeps (evolve N P) (dictSet N l k v) :=
  fun h => (dictSet_ends (G := Anything) hc l trivial trivial h).mono
    (fun _ _ ⟨_, hrel, hch⟩ => hrel.trans (hch.rel hc hl)) fun _ => id

include hc in
theorem dictUnset_keeps (hl : P (.change l)) (k : Addr) : Op.Keeps (evolve N P) (dictUnset N l k) := by
  intro h
  refine (dictUnset_ends (G := Anything) hc l k h).mono (fun _ h' hor => ?_) fun _ => id
  rcases hor with hrel | ⟨h₁, hrel, hch⟩
  · exact hrel
  · exact hrel.trans (hch.rel hc hl)

theorem listRemove_keeps (hl : P (.pop l)) (li : Litem) :
    Op.Keeps (evolve N P) (listRemove (F := F) l li) := by
  intro h
  refine Op.returns_bind (items_returns l h) ?_
  rintro lis _ ⟨rfl, -, hlis⟩
  refine (returns_update l _ h).mono ?_
  rintro _ _ rfl
  exact (Event.pop hlis List.erase_sublist).evolve hl

include hc in
theorem popBody_keeps (hl : P (.pop l)) (i : Addr) : Op.Keeps (evolve N P) (popBody (F := F) l i) := by
  refine Op.keeps_bind (intOf_keeps i) fun j => ?_
  split
  · exact Op.keeps_pure _
  · refine Op.keeps_bind (items_keeps l) fun lis => ?_
    split
    · exact Op.keeps_bind (listRemove_keeps hl _) fun _ => Op.keeps_pure _
    · split
      · exact Op.keeps_bind (returnStr_keeps hc _) fun _ => Op.keeps_pure _
      · exact Op.keeps_pure _

end Changing

include hc in
theorem coreProcEcho_keepsAt
    (ht : ∀ lis, (h.obj args).l = some lis → ∀ t, Builtin.echo.Touches lis t → P t) :
    Op.KeepsAt (evolve N P) (coreProcEcho N args) h := by
  refine getArgs_touches (b := .echo) hc ht fun _ xs _ _ => ?_
  split
  · exact Op.keeps_pure _
  · exact Op.keeps_crash

include hc in
theorem coreProcRepr_keepsAt
    (ht : ∀ lis, (h.obj args).l = some lis → ∀ t, Builtin.repr.Touches lis t → P t) :
    Op.KeepsAt (evolve N P) (coreProcRepr N args) h := by
  refine getArgs_touches (b := .repr) hc ht fun _ xs _ _ => ?_
  split
  · refine Op.keeps_bind (strOf_keeps _) fun s => ?_
    dsimp only
    split
    · exact Op.keeps_bind (returnStr_keeps hc _) fun _ => Op.keeps_pure _
    · split
      · exact Op.keeps_bind (returnStr_keeps hc _) fun _ => Op.keeps_pure _
      · exact Op.keeps_pure _
  · exact Op.keeps_crash

include hc in
theorem logicProcNot_keepsAt
    (ht : ∀ lis, (h.obj args).l = some lis → ∀ t, Builtin.not.Touches lis t → P t) :
    Op.KeepsAt (evolve N P) (logicProcNot N C args) h := by
  refine getArgs_touches (b := .not) hc ht fun _ xs _ _ => ?_
  split
  · exact Op.keeps_bind (load_keeps _) fun _ => Op.keeps_pure _
  · exact Op.keeps_crash

include hc hb in
theorem loopProcRange_keepsAt
    (ht : ∀ lis, (h.obj args).l = some lis → ∀ t, Builtin.range.Touches lis t → P t) :
    Op.KeepsAt (evolve N P) (loopProcRange N args) h := by
  refine getArgs_touches (b := .range) hc ht fun _ xs _ _ => ?_
  split
  · refine Op.keeps_bind (rangeStep_keeps _) fun step => Op.keeps_bind (intOf_keeps _) fun i =>
      Op.keeps_bind (intOf_keeps _) fun j => ?_
    split
    · exact Op.keeps_pure _
    · refine Op.keeps_bind (rangeLoop_keeps hb _ _ _ _) fun ios => ?_
      exact Op.keeps_bind (listBuild_keeps hc hb _) fun _ => Op.keeps_pure _
  · exact Op.keeps_pure _

include hc hb in
theorem listProcNew_keepsAt : Op.KeepsAt (evolve N P) (listProcNew args) h := by
  refine Op.keeps_bind (items_keeps args) (fun lis => ?_) h
  exact Op.keeps_bind (listBuild_keeps hc hb _) fun _ => Op.keeps_pure _

include hc hb in
theorem listProcLen_keepsAt
    (ht : ∀ lis, (h.obj args).l = some lis → ∀ t, Builtin.listLen.Touches lis t → P t) :
    Op.KeepsAt (evolve N P) (listProcLen N args) h := by
  refine getArgs_touches (b := .listLen) hc ht fun _ xs _ _ => ?_
  split
  · exact Op.keeps_bind (items_keeps _) fun _ => returnInt_keeps hb _
  · exact Op.keeps_crash

include hc hb in
theorem listProcCopy_keepsAt
    (ht : ∀ lis, (h.obj args).l = some lis → ∀ t, Builtin.listCopy.Touches lis t → P t) :
    Op.KeepsAt (evolve N P) (listProcCopy N args) h := by
  refine getArgs_touches (b := .listCopy) hc ht fun _ xs _ _ => ?_
  split
  · refine Op.keeps_bind (items_keeps _) fun _ => ?_
    exact Op.keeps_bind (listBuild_keeps hc hb _) fun _ => Op.keeps_pure _
  · exact Op.keeps_crash

include hc in
theorem listProcAppend_keepsAt
    (ht : ∀ lis, (h.obj args).l = some lis → ∀ t, Builtin.listAppend.Touches lis t → P t) :
    Op.KeepsAt (evolve N P) (listProcAppend N args) h := by
  refine getArgs_touches (b := .listAppend) hc ht fun lis xs hlis hpre => ?_
  split
  · have hl := ht lis hlis (.change _) ⟨rfl, second_of_prefix hpre⟩
    exact Op.keeps_bind (listAdd_keeps hc hl _) fun _ => Op.keeps_pure _
  · exact Op.keeps_crash

include hc in
theorem listProcExtend_keepsAt
    (ht : ∀ lis, (h.obj args).l = some lis → ∀ t, Builtin.listExtend.Touches lis t → P t) :
    Op.KeepsAt (evolve N P) (listProcExtend N args) h := by
  refine getArgs_touches (b := .listExtend) hc ht fun lis xs hlis hpre => ?_
  split
  · have hl := ht lis hlis (.change _) ⟨rfl, second_of_prefix hpre⟩
    exact Op.keeps_bind (listExtend_keeps hc hl _) fun _ => Op.keeps_pure _
  · exact Op.keeps_crash

include hc in
theorem listProcIndex_keepsAt
    (ht : ∀ lis, (h.obj args).l = some lis → ∀ t, Builtin.listIndex.Touches lis t → P t) :
    Op.KeepsAt (evolve N P) (listProcIndex N args) h := by
  refine getArgs_touches (b := .listIndex) hc ht fun _ xs _ _ => ?_
  split
  · refine Op.keeps_bind (intOf_keeps _) fun i => Op.keeps_bind (items_keeps _) fun lis => ?_
    split
    · exact Op.keeps_pure _
    · exact Op.keeps_pure _
  · exact Op.keeps_crash

include hc hb in
theorem listProcRange_keepsAt
    (ht : ∀ lis, (h.obj args).l = some lis → ∀ t, Builtin.listRange.Touches lis t → P t) :
    Op.KeepsAt (evolve N P) (listProcRange N args) h := by
  refine getArgs_touches (b := .listRange) hc ht fun _ xs _ _ => ?_
  split
  · refine Op.keeps_bind (intOf_keeps _) fun i => Op.keeps_bind (intOf_keeps _) fun j => ?_
    refine Op.keeps_bind (items_keeps _) fun lis => ?_
    split
    · exact Op.keeps_bind (listBuild_keeps hc hb _) fun _ => Op.keeps_pure _
    · exact Op.keeps_pure _
  · exact Op.keeps_crash

include hc in
theorem listProcIn_keepsAt
    (ht : ∀ lis, (h.obj args).l = some lis → ∀ t, Builtin.listIn.Touches lis t → P t) :
    Op.KeepsAt (evolve N P) (listProcIn N C args) h := by
  refine getArgs_touches (b := .listIn) hc ht fun _ xs _ _ => ?_
  split
  · refine orErr_keeps (Op.keeps_bind (objHash_keeps hc _) fun _ => ?_)
    refine Op.keeps_bind (items_keeps _) fun lis => ?_
    exact Op.keeps_bind (listInFrom_keeps hc _ _) fun _ => Op.keeps_pure _
  · exact Op.keeps_crash

include hc in
theorem listProcPop_keepsAt
    (ht : ∀ lis, (h.obj args).l = some lis → ∀ t, Builtin.listPop.Touches lis t → P t) :
    Op.KeepsAt (evolve N P) (listProcPop N args) h := by
  refine getArgs_touches (b := .listPop) hc ht fun lis xs hlis hpre => ?_
  split
  · exact popBody_keeps hc (ht lis hlis (.pop _) ⟨rfl, second_of_prefix hpre⟩) _
  · exact Op.keeps_crash

include hc in
theorem dictProcGet_keepsAt
    (ht : ∀ lis, (h.obj args).l = some lis → ∀ t, Builtin.dictGet.Touches lis t → P t) :
    Op.KeepsAt (evolve N P) (dictProcGet N args) h := by
  refine getArgs_touches (b := .dictGet) hc ht fun _ xs _ _ => ?_
  split
  · refine orErr_keeps (Op.keeps_bind (dictGet_keeps hc _ _) fun r => ?_)
    split
    · exact Op.keeps_pure _
    · exact Op.keeps_fail
  · exact Op.keeps_crash

include hc in
theorem dictProcSet_keepsAt
    (ht : ∀ lis, (h.obj args).l = some lis → ∀ t, Builtin.dictSet.Touches lis t → P t) :
    Op.KeepsAt (evolve N P) (dictProcSet N args) h := by
  refine getArgs_touches (b := .dictSet) hc ht fun lis xs hlis hpre => ?_
  split
  · have hl := ht lis hlis (.change _) ⟨rfl, second_of_prefix hpre⟩
    exact orErr_keeps (Op.keeps_bind (dictSet_keeps hc hl _ _) fun _ => Op.keeps_pure _)
  · exact Op.keeps_crash

include hc in
theorem dictProcUnset_keepsAt
    (ht : ∀ lis, (h.obj args).l = some lis → ∀ t, Builtin.dictUnset.Touches lis t → P t) :
    Op.KeepsAt (evolve N P) (dictProcUnset N args) h := by
  refine getArgs_touches (b := .dictUnset) hc ht fun lis xs hlis hpre => ?_
  split
  · have hl := ht lis hlis (.change _) ⟨rfl, second_of_prefix hpre⟩
    exact orErr_keeps (Op.keeps_bind (dictUnset_keeps hc hl _) fun _ => Op.keeps_pure _)
  · exact Op.keeps_crash

include hc hb in
theorem mathProcDiv_keepsAt
    (ht : ∀ lis, (h.obj args).l = some lis → ∀ t, Builtin.div.Touches lis t → P t) :
    Op.KeepsAt (evolve N P) (mathProcDiv N args) h := by
  refine floatProc_keepsAt hc rfl ht fun m n => ?_
  split
  · exact Op.keeps_bind (returnStr_keeps hc _) fun _ => Op.keeps_pure _
  · exact returnFloat_keeps hb _

include hc hb in
theorem mathProcMod_keepsAt
    (ht : ∀ lis, (h.obj args).l = some lis → ∀ t, Builtin.mod.Touches lis t → P t) :
    Op.KeepsAt (evolve N P) (mathProcMod N args) h := by
  refine floatProc_keepsAt hc rfl ht fun m n => ?_
  split
  · exact Op.keeps_bind (returnStr_keeps hc _) fun _ => Op.keeps_pure _
  · split
    · exact Op.keeps_pure _
    · exact returnFloat_keeps hb _

include hc hb in
/-- **What a call of a procedure keeps.** It changes the heap in steps of the kinds it
touches. -/
theorem heapProc_keepsAt {b : Builtin} {x : Addr → Op (Heap F) Reply} (hx : heapProc N C b = some x)
    (ht : ∀ lis, (h.obj args).l = some lis → ∀ t, b.Touches lis t → P t) :
    Op.KeepsAt (evolve N P) (x args) h := by
  cases b with
  | nop | yield | cont | brk =>
    obtain rfl := Option.some.inj hx
    exact Op.keeps_pure _ h
  | echo =>
    obtain rfl := Option.some.inj hx
    exact coreProcEcho_keepsAt hc ht
  | ret | throw | exit =>
    obtain rfl := Option.some.inj hx
    exact endProc_keepsAt hc rfl ht
  | repr =>
    obtain rfl := Option.some.inj hx
    exact coreProcRepr_keepsAt hc ht
  | not =>
    obtain rfl := Option.some.inj hx
    exact logicProcNot_keepsAt hc ht
  | eq | ne =>
    obtain rfl := Option.some.inj hx
    exact equalProc_keepsAt hc rfl ht
  | and | or | xor =>
    obtain rfl := Option.some.inj hx
    exact truthProc_keepsAt hc rfl ht
  | range =>
    obtain rfl := Option.some.inj hx
    exact loopProcRange_keepsAt hc hb ht
  | listNew =>
    obtain rfl := Option.some.inj hx
    exact listProcNew_keepsAt hc hb
  | listLen =>
    obtain rfl := Option.some.inj hx
    exact listProcLen_keepsAt hc hb ht
  | listCopy =>
    obtain rfl := Option.some.inj hx
    exact listProcCopy_keepsAt hc hb ht
  | listAppend =>
    obtain rfl := Option.some.inj hx
    exact listProcAppend_keepsAt hc ht
  | listExtend =>
    obtain rfl := Option.some.inj hx
    exact listProcExtend_keepsAt hc ht
  | listIndex =>
    obtain rfl := Option.some.inj hx
    exact listProcIndex_keepsAt hc ht
  | listRange =>
    obtain rfl := Option.some.inj hx
    exact listProcRange_keepsAt hc hb ht
  | listIn =>
    obtain rfl := Option.some.inj hx
    exact listProcIn_keepsAt hc ht
  | listPop =>
    obtain rfl := Option.some.inj hx
    exact listProcPop_keepsAt hc ht
  | dictGet =>
    obtain rfl := Option.some.inj hx
    exact dictProcGet_keepsAt hc ht
  | dictSet =>
    obtain rfl := Option.some.inj hx
    exact dictProcSet_keepsAt hc ht
  | dictUnset =>
    obtain rfl := Option.some.inj hx
    exact dictProcUnset_keepsAt hc ht
  | add | sub | mul =>
    obtain rfl := Option.some.inj hx
    exact floatProc_keepsAt hc rfl ht fun m n => returnFloat_keeps hb _
  | div =>
    obtain rfl := Option.some.inj hx
    exact mathProcDiv_keepsAt hc hb ht
  | mod =>
    obtain rfl := Option.some.inj hx
    exact mathProcMod_keepsAt hc hb ht
  | lt | le | gt | ge =>
    obtain rfl := Option.some.inj hx
    exact floatProc_keepsAt hc rfl ht fun _ _ => Op.keeps_pure _
  | bitAnd | bitOr | bitXor =>
    obtain rfl := Option.some.inj hx
    exact bitProc_keepsAt hc hb rfl ht
  | loc | glob | «export» | eval | call | spawn | source | cond | map | loop | «try» | proc => cases hx

end Keeps

end B6b
