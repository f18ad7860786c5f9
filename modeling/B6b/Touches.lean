/-
# What a step of the interpreter touches

`Machine.Touches` says which objects a step may keep the items of, and which it may change
in place, from what the foreground fiber does next: `b6b_call` and `b6b_stmt_call` convert
their statements, and a procedure touches what its arguments say. `Machine.step_evolves`:
a step changes the heap in steps of these kinds and no others.

Key definitions: `Machine.Touches`.
-/
import B6b.Interp

namespace B6b

variable {F S I : Type} {N : Num F}

/-- What a call of the procedure of the first of the items `lis` of `args` touches. -/
def InvokeTouches (h : Heap F) (args : Addr) (lis : List Litem) (t : Touch) : Prop :=
  match lis with
  | [] => False
  | li :: _ =>
    match (h.obj li.o).proc with
    | .builtin b => b.Touches lis t
    | .user _ _ => t = .list args
    | _ => False

/-- What a step touches, if the fiber does this next. -/
def CtlTouches (nat : Natives N S I) (h : Heap F) (t : Touch) : Ctl S → Prop
  | .call stmts => t = .list stmts
  | .stmt stmt => t = .list stmt
  | .invoke args => InvokeTouches h args ((h.obj args).l.getD []) t
  | .native s _ => NativeTouches (nat.lists s) t
  | _ => False

/-- What a step touches. -/
def Machine.Touches (nat : Natives N S I) (m : Machine F S) : Touch → Prop
  | .conv | .build => True
  | t => CtlTouches nat m.heap t m.interp.fg.ctl

instance (lists : List Addr) : ∀ t, Decidable (NativeTouches lists t)
  | .conv => inferInstanceAs (Decidable True)
  | .build => inferInstanceAs (Decidable True)
  | .list _ => inferInstanceAs (Decidable (_ ∈ _))
  | .change _ => inferInstanceAs (Decidable False)
  | .pop _ => inferInstanceAs (Decidable False)

instance (h : Heap F) (args : Addr) : ∀ lis t, Decidable (InvokeTouches h args lis t)
  | [], _ => inferInstanceAs (Decidable False)
  | li :: lis, t =>
    match hp : (h.obj li.o).proc with
    | .builtin b => decidable_of_iff (b.Touches (li :: lis) t) (by simp [InvokeTouches, hp])
    | .user _ _ => decidable_of_iff (t = .list args) (by simp [InvokeTouches, hp])
    | .obj => .isFalse (by simp [InvokeTouches, hp])
    | .native _ => .isFalse (by simp [InvokeTouches, hp])

instance (nat : Natives N S I) (h : Heap F) (t : Touch) : ∀ c, Decidable (CtlTouches nat h t c)
  | .call stmts => inferInstanceAs (Decidable (t = .list stmts))
  | .stmt stmt => inferInstanceAs (Decidable (t = .list stmt))
  | .invoke args => inferInstanceAs (Decidable (InvokeTouches h args ((h.obj args).l.getD []) t))
  | .native s _ => inferInstanceAs (Decidable (NativeTouches (nat.lists s) t))
  | .begin | .callAt _ _ | .argAt _ _ _ | .eval _ | .mapAt _ _ _ _ _ | .tryEnd _ _ _ | .onRes _
  | .ret _ | .join | .sweep | .halt | .dead => inferInstanceAs (Decidable False)

instance (nat : Natives N S I) (m : Machine F S) : ∀ t, Decidable (m.Touches nat t)
  | .conv => inferInstanceAs (Decidable True)
  | .build => inferInstanceAs (Decidable True)
  | .list a => inferInstanceAs (Decidable (CtlTouches nat m.heap (.list a) m.interp.fg.ctl))
  | .change a => inferInstanceAs (Decidable (CtlTouches nat m.heap (.change a) m.interp.fg.ctl))
  | .pop a => inferInstanceAs (Decidable (CtlTouches nat m.heap (.pop a) m.interp.fg.ctl))

/-! ### Variables -/

section Keeps

variable {P : Touch → Prop} (hc : P .conv) (hb : P .build)

include hc

theorem localsGet_keeps (k : Addr) : ∀ ls, Op.Keeps (evolve N P) (localsGet N k ls)
  | [] => Op.keeps_pure _
  | (k', v) :: ls => by
    refine Op.keeps_bind (objHash_keeps hc k') fun _ => Op.keeps_bind (objEq_keeps k' k) fun eq => ?_
    cases eq with
    | true => exact Op.keeps_pure _
    | false => exact localsGet_keeps k ls

theorem localsSetFrom_keeps (k v : Addr) : ∀ ls, Op.Keeps (evolve N P) (localsSetFrom N k v ls)
  | [] => Op.keeps_pure _
  | (k', v') :: ls => by
    refine Op.keeps_bind (objHash_keeps hc k') fun _ => Op.keeps_bind (objEq_keeps k' k) fun eq => ?_
    cases eq with
    | true => exact Op.keeps_pure _
    | false => exact Op.keeps_bind (localsSetFrom_keeps k v ls) fun _ => Op.keeps_pure _

theorem localsSet_keeps (k v : Addr) (ls : Locals) : Op.Keeps (evolve N P) (localsSet N k v ls) :=
  Op.keeps_bind (objHash_keeps hc k) fun _ => localsSetFrom_keeps hc k v ls

theorem framesGet_keeps (name : Addr) : ∀ fs, Op.Keeps (evolve N P) (framesGet N name fs)
  | [] => Op.keeps_pure _
  | ls :: fs => by
    refine Op.keeps_bind (objHash_keeps hc name) fun _ => ?_
    refine Op.keeps_bind (localsGet_keeps hc name ls) fun r => ?_
    cases r with
    | some o => exact Op.keeps_pure _
    | none => exact framesGet_keeps name fs

include hb in
theorem argsSet_keeps : ∀ (lis : List Litem) (i : ℤ) (ls : Locals),
    Op.Keeps (evolve N P) (argsSet N lis i ls)
  | [], _, _ => Op.keeps_pure _
  | li :: lis, i, ls => by
    refine Op.keeps_bind (alloc_keeps hb _) fun io => ?_
    exact Op.keeps_bind (localsSet_keeps hc io li.o ls) fun _ => argsSet_keeps lis (i + 1) _

include hb in
theorem frameSetArgs_keeps {args : Addr} (hl : P (.list args)) (C : Shared) (ls : Locals) :
    Op.Keeps (evolve N P) (frameSetArgs N C args ls) := by
  refine Op.keeps_bind (asList_keeps hc hl) fun lis => ?_
  exact Op.keeps_bind (localsSet_keeps hc _ _ ls) fun _ => argsSet_keeps hc hb lis 0 _

omit hc in
theorem listNext_keeps (l : Addr) (li : Litem) : Op.Keeps (evolve N P) (listNext (F := F) l li) := by
  refine Op.keeps_bind (items_keeps l) fun lis => ?_
  cases nextOf li lis with
  | some li' => exact Op.keeps_pure _
  | none => exact Op.keeps_crash

omit hc in
theorem itemAt_keeps (l : Addr) (li : Litem) : Op.Keeps (evolve N P) (itemAt (F := F) l li) := by
  refine Op.keeps_bind (items_keeps l) fun lis => ?_
  split
  · exact Op.keeps_pure _
  · exact Op.keeps_crash

theorem tokenItems_keeps (xs : List Bytes) : Op.Keeps (evolve N P) (tokenItems (F := F) xs) :=
  fun h => (tokenItems_returns hc xs h).mono fun _ _ hq => hq.1

namespace Interp

variable (σ : Interp S)

theorem setAt_keeps (i : ℕ) (k v : Addr) : Op.Keeps (evolve N P) (setAt N i k v σ) := by
  cases i with
  | zero => exact Op.keeps_bind (localsSet_keeps hc k v _) fun _ => Op.keeps_pure _
  | succ i =>
    unfold setAt
    dsimp only
    cases σ.fg.prev[i]? with
    | some f => exact Op.keeps_bind (localsSet_keeps hc k v _) fun _ => Op.keeps_pure _
    | none => exact Op.keeps_bind (localsSet_keeps hc k v _) fun _ => Op.keeps_pure _

theorem get_keeps (name : Addr) {found : Addr → Op (Heap F) (Interp S)}
    (hf : ∀ o, Op.Keeps (evolve N P) (found o)) : Op.Keeps (evolve N P) (σ.get N name found) := by
  refine Op.keeps_bind (asStr_keeps hc name) fun s => Op.keeps_bind (framesGet_keeps hc name _) fun r => ?_
  cases r with
  | some o => exact hf o
  | none => exact Op.keeps_bind (returnStr_keeps hc _) fun _ => Op.keeps_pure _

omit hc in
theorem framePop_keeps : Op.Keeps (evolve N P) (σ.framePop (F := F)) := by
  unfold framePop
  cases σ.fg.prev with
  | cons f fs => exact Op.keeps_pure _
  | nil => exact Op.keeps_crash

/-! ### Evaluation -/

include hb in
theorem eval_keeps (exp : Addr) : Op.Keeps (evolve N P) (σ.eval N exp) := by
  refine Op.keeps_bind (strOf_keeps exp) fun s => ?_
  split
  · refine Op.keeps_bind (allocStr_keeps hc _) fun o => ?_
    exact σ.get_keeps hc o fun _ => Op.keeps_pure _
  · split
    · exact Op.keeps_bind (returnStr_keeps hc _) fun _ => Op.keeps_pure _
    · split
      · exact Op.keeps_pure _
      · refine Op.keeps_bind (tokenItems_keeps hc _) fun lis => ?_
        exact Op.keeps_bind (alloc_keeps hb _) fun _ => Op.keeps_pure _
  · exact Op.keeps_pure _

theorem onRes_keeps (res : Res) : Op.Keeps (evolve N P) (σ.onRes N res) := by
  unfold onRes
  split
  · exact Op.keeps_pure _
  · refine Op.keeps_bind (setAt_keeps hc _ _ _ _) fun σ => ?_
    split
    · exact Op.keeps_pure _
    · split
      · exact Op.keeps_pure _
      · exact Op.keeps_pure _

theorem call_keeps {stmts : Addr} (hl : P (.list stmts)) : Op.Keeps (evolve N P) (σ.call N stmts) := by
  refine Op.keeps_bind (Op.keeps_attempt (asList_keeps hc hl)) fun r => ?_
  cases r with
  | some lis => exact Op.keeps_pure _
  | none => exact Op.keeps_pure _

theorem callAt_keeps (stmts : Addr) (li : Option Litem) :
    Op.Keeps (evolve N P) (σ.callAt N stmts li) := by
  cases li with
  | none => exact Op.keeps_pure _
  | some li =>
    refine Op.keeps_bind (asStr_keeps hc li.o) fun s => ?_
    split
    · exact Op.keeps_bind (listNext_keeps stmts li) fun _ => Op.keeps_pure _
    · exact Op.keeps_pure _

include hb in
theorem stmtCall_keeps {stmt : Addr} (hl : P (.list stmt)) :
    Op.Keeps (evolve N P) (σ.stmtCall N stmt) := by
  unfold stmtCall
  split
  · exact Op.keeps_pure _
  · split
    · exact Op.keeps_bind (alloc_keeps hb _) fun _ => Op.keeps_pure _
    · refine Op.keeps_bind (Op.keeps_attempt (asList_keeps hc hl)) fun r => ?_
      cases r with
      | some lis => exact Op.keeps_pure _
      | none => exact Op.keeps_pure _

include hb in
theorem argAt_keeps (inp : Input I) (stmt : Addr) (vs : List Addr) (li : Option Litem) :
    Op.Keeps (evolve N P) (σ.argAt N inp stmt vs li) := by
  cases li with
  | some li => exact Op.keeps_bind (asStr_keeps hc li.o) fun _ => Op.keeps_pure _
  | none =>
    refine Op.keeps_bind (listBuild_keeps hc hb vs) fun args => ?_
    dsimp only
    split
    · refine Op.keeps_bind (asStr_keeps hc args) fun _ => ?_
      split
      · exact Op.keeps_pure _
      · exact Op.keeps_bind (framePop_keeps σ) fun _ => Op.keeps_pure _
    · exact Op.keeps_pure _

/-! ### Procedures -/

section Calls

variable {h : Heap F} {args : Addr}

/-- The arguments of a procedure that needs the interpreter. -/
theorem getArgs_touches {b : Builtin} {body : List Addr → Op (Heap F) (Interp S)}
    (ht : ∀ lis, (h.obj args).l = some lis → ∀ t, b.Touches lis t → P t)
    (hbody : ∀ xs, Op.Keeps (evolve N P) (body xs)) :
    Op.KeepsAt (evolve N P) (σ.getArgs N args (fmt b) body) h :=
  getArgs_keepsAt hc (fun lis hl a ha => ht lis hl (.list a) ha) fun _ xs _ _ => hbody xs

theorem exportTo_keeps (k v : Addr) : Op.Keeps (evolve N P) (σ.exportTo N k v) := by
  unfold exportTo
  split
  · exact Op.keeps_pure _
  · exact Op.keeps_bind (setAt_keeps hc σ _ _ _) fun _ => Op.keeps_pure _

include hb

theorem objProc_keepsAt (decode : Bytes → Option (List Bytes)) :
    Op.KeepsAt (evolve N P) (σ.objProc N decode args) h := by
  -- a format without `l` converts nothing to a list
  have hlists : ∀ lis, listArgs "ss".toList lis false = [] := by
    intro lis
    rcases lis with _ | ⟨_, _ | ⟨_, _⟩⟩ <;> rfl
  refine getArgs_keepsAt hc (fun lis _ a ha => ?_) fun _ xs _ _ => ?_
  · rw [hlists] at ha
    cases ha
  · split
    · refine Op.keeps_bind (strOf_keeps _) fun s => Op.keeps_bind (strOf_keeps _) fun op => ?_
      split
      · exact Op.keeps_pure _
      · split
        · refine Op.keeps_bind (tokenItems_keeps hc _) fun lis => ?_
          exact Op.keeps_bind (alloc_keeps hb _) fun _ => Op.keeps_pure _
        · exact Op.keeps_pure _
    · exact Op.keeps_crash

theorem procProc_keeps (hl : P (.list args)) (body priv : Addr) :
    Op.Keeps (evolve N P) (σ.procProc N args body priv) := by
  refine Op.keeps_bind (frameSetArgs_keeps hc hb hl _ _) fun ls => ?_
  exact Op.keeps_bind (localsSet_keeps hc _ _ _) fun _ => Op.keeps_pure _

/-- A call of a procedure that is modelled. -/
theorem builtin_keepsAt (inp : Input I) {b : Builtin}
    (ht : ∀ lis, (h.obj args).l = some lis → ∀ t, b.Touches lis t → P t) :
    Op.KeepsAt (evolve N P) (σ.builtin N inp args b) h := by
  cases b with
  | loc =>
    refine σ.getArgs_touches (b := .loc) hc ht fun xs => ?_
    split
    · exact Op.keeps_bind (setAt_keeps hc σ _ _ _) fun _ => Op.keeps_pure _
    · exact Op.keeps_crash
  | glob =>
    refine σ.getArgs_touches (b := .glob) hc ht fun xs => ?_
    split
    · exact Op.keeps_bind (localsSet_keeps hc _ _ _) fun _ => Op.keeps_pure _
    · exact Op.keeps_crash
  | «export» =>
    refine σ.getArgs_touches (b := .export) hc ht fun xs => ?_
    split
    · exact σ.exportTo_keeps hc _ _
    · exact σ.get_keeps hc _ fun v => σ.exportTo_keeps hc _ v
    · exact Op.keeps_pure _
  | eval =>
    refine σ.getArgs_touches (b := .eval) hc ht fun xs => ?_
    split
    · exact Op.keeps_bind (asStr_keeps hc _) fun _ => Op.keeps_pure _
    · exact Op.keeps_crash
  | call =>
    refine σ.getArgs_touches (b := .call) hc ht fun xs => ?_
    split
    · exact Op.keeps_pure _
    · exact Op.keeps_crash
  | spawn =>
    refine σ.getArgs_touches (b := .spawn) hc ht fun xs => ?_
    split
    · exact Op.keeps_pure _
    · exact Op.keeps_crash
  | source =>
    refine σ.getArgs_touches (b := .source) hc ht fun xs => ?_
    split
    · refine Op.keeps_bind (strOf_keeps _) fun s => ?_
      split
      · exact Op.keeps_pure _
      · split
        · exact Op.keeps_bind (allocStr_keeps hc _) fun _ => Op.keeps_pure _
        · exact Op.keeps_pure _
    · exact Op.keeps_crash
  | cond =>
    refine σ.getArgs_touches (b := .cond) hc ht fun xs => ?_
    split
    · refine Op.keeps_bind (load_keeps _) fun o => ?_
      split
      · exact Op.keeps_pure _
      · split
        · exact Op.keeps_pure _
        · exact Op.keeps_pure _
    · exact Op.keeps_crash
  | map =>
    refine σ.getArgs_touches (b := .map) hc ht fun xs => ?_
    split
    · refine Op.keeps_bind (items_keeps _) fun kis => ?_
      split
      · exact Op.keeps_pure _
      · exact Op.keeps_bind (items_keeps _) fun _ => Op.keeps_pure _
    · exact Op.keeps_crash
  | loop =>
    refine σ.getArgs_touches (b := .loop) hc ht fun xs => ?_
    split
    · exact Op.keeps_pure _
    · exact Op.keeps_crash
  | «try» =>
    refine σ.getArgs_touches (b := .try) hc ht fun xs => ?_
    split
    · exact Op.keeps_pure _
    · exact Op.keeps_pure _
    · exact Op.keeps_pure _
    · exact Op.keeps_crash
  | proc =>
    refine σ.getArgs_touches (b := .proc) hc ht fun xs => ?_
    split
    · refine Op.keeps_bind (strOf_keeps _) fun s => Op.keeps_bind (alloc_keeps hb _) fun o => ?_
      split
      · exact Op.keeps_pure _
      · exact Op.keeps_bind (localsSet_keeps hc _ _ _) fun _ => Op.keeps_pure _
    · exact Op.keeps_crash
  | _ =>
    refine Op.keepsAt_bind (heapProc_keepsAt (C := σ.shared) hc hb rfl ht) fun r h₁ _ => ?_
    exact Op.keeps_pure _ h₁

end Calls

/-! ### Loops and returns -/

theorem mapBind_keeps (l : Addr) : ∀ (kis : List Litem) (li : Option Litem) (σ : Interp S),
    Op.Keeps (evolve N P) (mapBind N l kis li σ)
  | [], _, _ => Op.keeps_pure _
  | _ :: _, none, _ => Op.keeps_pure _
  | kli :: kis, some li, σ => by
    refine Op.keeps_bind (itemAt_keeps l li) fun o => ?_
    refine Op.keeps_bind (setAt_keeps hc σ _ _ _) fun σ' => ?_
    exact Op.keeps_bind (listNext_keeps l li) fun li' => mapBind_keeps l kis li' σ'

include hb in
theorem mapAt_keeps (ks l b : Addr) (r : List Addr) (li : Option Litem) :
    Op.Keeps (evolve N P) (σ.mapAt N ks l b r li) := by
  cases li with
  | none => exact Op.keeps_bind (listBuild_keeps hc hb r) fun _ => Op.keeps_pure _
  | some li =>
    refine Op.keeps_bind (items_keeps ks) fun kis => ?_
    refine Op.keeps_bind (mapBind_keeps hc l kis (some li) σ) fun r => ?_
    rcases r with _ | ⟨li', σ'⟩
    · exact Op.keeps_bind (returnStr_keeps hc _) fun _ => Op.keeps_pure _
    · exact Op.keeps_pure _

omit hc in
theorem resume_keeps (res : Res) (k : Kont) : Op.Keeps (evolve N P) (σ.resume (F := F) res k) := by
  unfold resume
  cases k with
  | stmtArg stmt li vs =>
    dsimp only
    split
    · exact Op.keeps_bind (listNext_keeps stmt li) fun _ => Op.keeps_pure _
    · exact Op.keeps_bind (framePop_keeps σ) fun _ => Op.keeps_pure _
  | stmtProc => exact Op.keeps_bind (framePop_keeps σ) fun _ => Op.keeps_pure _
  | call stmts li =>
    dsimp only
    split
    · exact Op.keeps_bind (listNext_keeps stmts li) fun _ => Op.keeps_pure _
    · exact Op.keeps_pure _
  | proc => exact Op.keeps_pure _
  | map ks l b li r => cases res <;> exact Op.keeps_pure _
  | loop b => cases res <;> exact Op.keeps_pure _
  | tryBody e f =>
    dsimp only
    split
    · cases e <;> exact Op.keeps_pure _
    · exact Op.keeps_pure _
  | tryExcept f => exact Op.keeps_pure _
  | tryFinally r eres e o =>
    dsimp only
    split
    · exact Op.keeps_pure _
    · split <;> exact Op.keeps_pure _
  | thread =>
    dsimp only
    cases σ.threadEnd with
    | some σ => exact Op.keeps_pure _
    | none => exact Op.keeps_crash
  | main progs =>
    cases progs with
    | cons p ps =>
      dsimp only
      split <;> exact Op.keeps_pure _
    | nil => exact Op.keeps_pure _

omit hc in
theorem ret_keeps (res : Res) : Op.Keeps (evolve N P) (σ.ret (F := F) res) := by
  unfold ret
  cases σ.fg.konts with
  | cons k ks => exact σ.pop.resume_keeps res k
  | nil => exact Op.keeps_crash

end Interp

end Keeps

/-! ### One step -/

theorem touches_invoke {nat : Natives N S I} {h : Heap F} {σ : Interp S} {args : Addr}
    {lis : List Litem} {t : Touch} (hctl : σ.fg.ctl = .invoke args) (hlis : (h.obj args).l = some lis)
    (ht : InvokeTouches h args lis t) : Machine.Touches nat ⟨h, σ⟩ t := by
  cases t with
  | conv | build => trivial
  | list | change | pop => simpa [Machine.Touches, CtlTouches, hctl, hlis] using ht

theorem touches_native {nat : Natives N S I} {h : Heap F} {σ : Interp S} {s : S} {y : Bool}
    {t : Touch} (hctl : σ.fg.ctl = .native s y) (ht : NativeTouches (nat.lists s) t) :
    Machine.Touches nat ⟨h, σ⟩ t := by
  cases t with
  | conv | build => trivial
  | list | change | pop => simpa [Machine.Touches, CtlTouches, hctl] using ht

/-- A call of a procedure changes the heap in steps of the kinds it touches. -/
theorem invoke_keepsAt {nat : Natives N S I} {h : Heap F} {σ : Interp S} {args : Addr}
    (inp : Input I) (hctl : σ.fg.ctl = .invoke args) :
    Op.KeepsAt (evolve N (Machine.Touches nat ⟨h, σ⟩)) (σ.invoke nat inp args) h := by
  have hc : Machine.Touches nat ⟨h, σ⟩ .conv := trivial
  have hb : Machine.Touches nat ⟨h, σ⟩ .build := trivial
  refine Op.returns_bind (items_returns args h) ?_
  rintro lis _ ⟨rfl, -, hlis⟩
  rcases lis with _ | ⟨li, lis⟩
  · exact Op.ends_crash
  refine ends_load_bind fun _ => ?_
  have ht : ∀ t, InvokeTouches h args (li :: lis) t → Machine.Touches nat ⟨h, σ⟩ t :=
    fun t => touches_invoke hctl hlis
  unfold InvokeTouches at ht
  cases hproc : (h.obj li.o).proc with
  | obj => exact σ.objProc_keepsAt hc hb nat.decode
  | builtin b =>
    refine σ.builtin_keepsAt hc hb inp fun lis' hlis' t hbt => ht t ?_
    obtain rfl := Option.some.inj (hlis.symm.trans hlis')
    simpa [hproc] using hbt
  | user body priv => exact σ.procProc_keeps hc hb (ht _ (by simp [hproc])) body priv h
  | native n => exact Op.keeps_pure _ h

/-- A step changes the heap in steps of the kinds it touches. -/
theorem Machine.step_keepsAt (nat : Natives N S I) (m : Machine F S) (inp : Input I) :
    Op.KeepsAt (evolve N (m.Touches nat)) (m.interp.step nat inp) m.heap := by
  obtain ⟨h, σ⟩ := m
  have hc : Machine.Touches nat ⟨h, σ⟩ .conv := trivial
  have hb : Machine.Touches nat ⟨h, σ⟩ .build := trivial
  unfold Interp.step
  dsimp only
  cases hctl : σ.fg.ctl with
  | begin =>
    dsimp only
    cases σ.fg.fn with
    | some fn => exact Op.keeps_pure _ h
    | none => exact Op.keeps_crash h
  | call stmts =>
    exact σ.call_keeps hc (by simp [Machine.Touches, CtlTouches, hctl]) h
  | callAt stmts li => exact σ.callAt_keeps hc stmts li h
  | stmt stmt => exact σ.stmtCall_keeps hc hb (by simp [Machine.Touches, CtlTouches, hctl]) h
  | argAt stmt li vs => exact σ.argAt_keeps hc hb inp stmt vs li h
  | invoke args => exact invoke_keepsAt inp hctl
  | eval exp => exact σ.eval_keeps hc hb exp h
  | mapAt ks l b li r => exact σ.mapAt_keeps hc hb ks l b r li h
  | tryEnd res eres f => exact Op.keeps_pure _ h
  | native s y =>
    have hrun : Op.Keeps (evolve N (Machine.Touches nat ⟨h, σ⟩)) (nat.run s y inp.native) := by
      refine fun h₀ => (nat.tame s y inp.native h₀).mono (fun _ _ => ?_) fun _ => ?_
      · exact evolve_mono fun t ht => touches_native hctl ht
      · exact evolve_mono fun t ht => touches_native hctl ht
    refine Op.keeps_bind (Op.keeps_attempt hrun) (fun r => ?_) h
    rcases r with _ | s' | r <;> exact Op.keeps_pure _
  | onRes res => exact σ.onRes_keeps hc res h
  | ret res => exact σ.ret_keeps res h
  | join => exact Op.keeps_pure _ h
  | sweep => exact Op.keeps_pure _ h
  | halt => exact Op.keeps_crash h
  | dead => exact Op.keeps_crash h

/-! ### The start -/

section Start

variable {P : Touch → Prop} (hc : P .conv) (hb : P .build)
include hc

theorem newProgs_keeps : ∀ progs, Op.Keeps (evolve N P) (newProgs (F := F) progs)
  | [] => Op.keeps_pure _
  | (_, text) :: ps => by
    refine Op.keeps_bind (allocStr_keeps hc text) fun _ => ?_
    exact Op.keeps_bind (newProgs_keeps ps) fun _ => Op.keeps_pure _

include hb

theorem interpNewExts_keeps : ∀ (exts : List ExtObj) (ls : Locals),
    Op.Keeps (evolve N P) (interpNewExts N exts ls)
  | [], _ => Op.keeps_pure _
  | eo :: os, ls => by
    refine Op.keeps_bind ?_ fun ls => interpNewExts_keeps os ls
    refine Op.keeps_bind (allocStr_keeps hc _) fun k => Op.keeps_bind (alloc_keeps hb _) fun v => ?_
    exact localsSet_keeps hc k v ls

end Start

end B6b
