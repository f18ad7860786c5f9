/-
# The interpreter

One step of the interpreter is what the foreground fiber does next (`step`): a call of
`b6b_call`, `b6b_stmt_call`, `b6b_eval` or a procedure up to the next call or return, or
`b6b_on_res`. A step is an operation on the heap that returns the interpreter behind it.
Fibers are switched in `b6b_on_res`, when a native procedure waits (`b6b_offload`), when a
fiber ends and when the main one joins the others. The source has another place: a destructor
that calls `b6b_offload`, as that of a file does, wherever the last reference to its object is
dropped (so also in the bindings of `map`, where `try` releases `_`, and in `dict.set`). The
heap keeps all objects, and there are no destructors here; `Sched` and `Offload` have them where
fibers are destroyed, and `Refs` where objects are.

Loops over a list follow it by its items, so a loop whose item has been removed from the
list reads memory that is free: it crashes (`listNext`, `itemAt`).

The procedures of the other modules are native: `Natives` says how they go on between two
calls of `b6b_yield`, and that they change no list in place that was there before.
`Input` is what a step reads from outside.

Key definitions: `Natives`, `Interp.step`, `Machine.step`, `interpNew`.
-/
import B6b.Fibers

namespace B6b

variable {F S I : Type}

/-! ### Native procedures and the outside -/

/-- What a native procedure touches, if it keeps the items of `lists`. -/
def NativeTouches (lists : List Addr) : Touch → Prop
  | .conv | .build => True
  | .list a => a ∈ lists
  | .change _ | .pop _ => False

/-- The procedures of the other modules, with states in `S` and what they read from outside
in `I`. -/
structure Natives (N : Num F) (S I : Type) where
  /-- The state in which the `n`-th procedure is called with a list of arguments. -/
  start : ℕ → Addr → S
  /-- It goes on up to its next `b6b_yield`, told what the last one has returned, or up to
  its reply. -/
  run : S → Bool → I → Op (Heap F) (S ⊕ Reply)
  /-- The objects it keeps the items of. -/
  lists : S → List Addr
  /-- The characters of a text, by `mbrtowc`. -/
  decode : Bytes → Option (List Bytes)
  tame : ∀ s y i, Op.Keeps (evolve N (NativeTouches (lists s))) (run s y i)

/-- There are none, and every byte is a character. -/
def Natives.none (N : Num F) : Natives N Unit Unit where
  start _ _ := ()
  run _ _ _ := pure (.inr (.ok, .none))
  lists _ := []
  decode s := some (s.map fun c => [c])
  tame _ _ _ := Op.keeps_pure _

/-- What a step reads from outside. -/
structure Input (I : Type) where
  native : I
  /-- Whether the trace could be written. -/
  written : Bool
  /-- The file that `source` opens, if it can be read. -/
  file : Option Bytes

/-! ### Variables -/

/-- `b6b_dict_get` on the locals of a frame. -/
def localsGet (N : Num F) (k : Addr) : Locals → Op (Heap F) (Option Addr)
  | [] => pure none
  | (k', v) :: ls => do
    objHash N k'
    if ← objEq k' k then pure (some v) else localsGet N k ls

/-- The loop of `b6b_dict_set` on the locals of a frame. -/
def localsSetFrom (N : Num F) (k v : Addr) : Locals → Op (Heap F) Locals
  | [] => pure [(k, v)]
  | (k', v') :: ls => do
    objHash N k'
    if ← objEq k' k then pure ((k', v) :: ls)
    else
      let ls' ← localsSetFrom N k v ls
      pure ((k', v') :: ls')

/-- `b6b_dict_set` on the locals of a frame. -/
def localsSet (N : Num F) (k v : Addr) (ls : Locals) : Op (Heap F) Locals := do
  objHash N k
  localsSetFrom N k v ls

/-- The loop of `b6b_get` over the frames. -/
def framesGet (N : Num F) (name : Addr) : List Locals → Op (Heap F) (Option Addr)
  | [] => pure none
  | ls :: fs => do
    objHash N name
    match ← localsGet N name ls with
    | some o => pure (some o)
    | none => framesGet N name fs

/-- The loop of `b6b_frame_set_args` over the arguments from the `i`-th on. -/
def argsSet (N : Num F) : List Litem → ℤ → Locals → Op (Heap F) Locals
  | [], _, ls => pure ls
  | li :: lis, i, ls => do
    let io ← alloc (.ofInt i)
    let ls ← localsSet N io li.o ls
    argsSet N lis (i + 1) ls

/-- `b6b_frame_set_args`, on the locals of the frame. -/
def frameSetArgs (N : Num F) (C : Shared) (args : Addr) (ls : Locals) : Op (Heap F) Locals := do
  let lis ← asList N args
  let ls ← localsSet N C.at' args ls
  argsSet N lis 0 ls

/-- The item behind the place of `li` in a list that `li` is still in. -/
def nextOf (li : Litem) : List Litem → Option (Option Litem)
  | [] => none
  | x :: xs => if x.id = li.id then some xs.head? else nextOf li xs

/-- `b6b_list_next`, of an item of `l`. -/
def listNext (l : Addr) (li : Litem) : Op (Heap F) (Option Litem) := do
  let lis ← items l
  match nextOf li lis with
  | some li' => pure li'
  | none => Op.crash

/-- `li->o`, of an item of `l`: what is in the place of `li` now. -/
def itemAt (l : Addr) (li : Litem) : Op (Heap F) Addr := do
  let lis ← items l
  match lis.find? (·.id = li.id) with
  | some x => pure x.o
  | none => Op.crash

/-- The text that `b6b_source` runs, of the content of a file. -/
def sourceText (s : Bytes) : Option Bytes :=
  match s with
  | [] => none
  | 0x23 :: 0x21 :: _ =>
    let off := (cstr s).findIdx (· = 0x0a)
    if off < (cstr s).length then some ((s.drop off).take (s.length - (off + 1))) else none
  | _ => some s

namespace Interp

variable {N : Num F} (σ : Interp S)

/-- Bind `k` to `v` in the frame that is `i` below the current one: the global frame is
below all others. -/
def setAt (N : Num F) (i : ℕ) (k v : Addr) (σ : Interp S) : Op (Heap F) (Interp S) :=
  match i with
  | 0 => do
    let ls ← localsSet N k v σ.fg.curr
    pure { σ with fg := { σ.fg with curr := ls } }
  | i + 1 =>
    match σ.fg.prev[i]? with
    | some f => do
      let ls ← localsSet N k v f
      pure { σ with fg := { σ.fg with prev := σ.fg.prev.set i ls } }
    | none => do
      let ls ← localsSet N k v σ.global
      pure { σ with global := ls }

/-- `b6b_get`, and `found` on the object if there is one. -/
def get (N : Num F) (name : Addr) (found : Addr → Op (Heap F) (Interp S)) : Op (Heap F) (Interp S) := do
  let s ← asStr N name
  match ← framesGet N name (σ.fg.curr :: σ.fg.prev ++ [σ.global]) with
  | some o => found o
  | none =>
    let m ← returnStr (bytes "no such obj: " ++ cstr s)
    pure (σ.finish (.err, m))

/-- `b6b_frame_pop` -/
def framePop : Op (Heap F) (Interp S) :=
  match σ.fg.prev with
  | f :: fs =>
    pure { σ with fg := { σ.fg with
      curr := f
      prev := fs
      frames := σ.fg.frames.tail
      depth := σ.fg.depth - 1 } }
  | [] => Op.crash

/-! ### Evaluation -/

/-- `b6b_eval` -/
def eval (N : Num F) (exp : Addr) : Op (Heap F) (Interp S) := do
  let s ← strOf exp
  match s with
  | 0x24 :: name =>
    let o ← alloc (.ofStr name)
    σ.get N o fun o => pure (σ.finish (.ok, some o))
  | 0x5b :: rest =>
    if rest = [] ∨ s.getLast? ≠ some rbrak then
      let m ← returnStr (bytes "uneven []")
      pure (σ.finish (.err, m))
    else
      match doAsList rest.dropLast with
      | .error _ => pure (σ.goto (.ret .err))
      | .ok xs =>
        let lis ← tokenItems xs
        let stmt ← alloc (.ofList lis)
        pure (σ.goto (.stmt stmt))
  | _ => pure (σ.finish (.ok, some exp))

/-- `b6b_on_res` -/
def onRes (N : Num F) (res : Res) : Op (Heap F) (Interp S) :=
  if res = .yield then pure (σ.yield fun _ => .ret .ok)
  else do
    let σ ← setAt N 0 σ.shared.us σ.fg.ret { σ with qstep := σ.qstep + 1 }
    if res = .exit then pure ({ σ with exit := true }.goto (.ret res))
    else if σ.qstep = quantLen then pure (σ.yield fun _ => .ret res)
    else pure (σ.goto (.ret res))

/-- `b6b_call`, behind the conversion to a list. -/
def call (N : Num F) (stmts : Addr) : Op (Heap F) (Interp S) := do
  match ← Op.attempt (asList N stmts) with
  | some lis => pure (σ.goto (.callAt stmts lis.head?))
  | none => pure (σ.goto (.ret .err))

/-- The loop of `b6b_call`. -/
def callAt (N : Num F) (stmts : Addr) : Option Litem → Op (Heap F) (Interp S)
  | none => pure (σ.goto (.ret .ok))
  | some li => do
    let s ← asStr N li.o
    if s.isEmpty ∨ s.head? = some 0x23 then
      let li' ← listNext stmts li
      pure (σ.goto (.callAt stmts li'))
    else pure (σ.push (.call stmts li) (.stmt li.o))

/-- `b6b_stmt_call`, up to its first argument. -/
def stmtCall (N : Num F) (stmt : Addr) : Op (Heap F) (Interp S) :=
  if σ.exit then pure (σ.goto (.ret .exit))
  else if σ.fg.depth ≥ maxNesting then do
    let m ← alloc (.ofStr (bytes "call stack overflow"))
    pure ((σ.setRet m).goto (.onRes .err))
  else do
    match ← Op.attempt (asList N stmt) with
    | some lis => pure (σ.framePush.goto (.argAt stmt lis.head? []))
    | none => pure (σ.goto (.onRes .err))

/-- The loop of `b6b_stmt_call` over the arguments, and its call of the procedure behind
them. If the trace cannot be written, what is returned is the result of the loop. -/
def argAt (N : Num F) (inp : Input I) (stmt : Addr) (vs : List Addr) :
    Option Litem → Op (Heap F) (Interp S)
  | some li => do
    let _ ← asStr N li.o
    pure (σ.push (.stmtArg stmt li vs) (.eval li.o))
  | none => do
    let args ← listBuild vs
    let σ' := (σ.setRet σ.shared.null).push .stmtProc (.invoke args)
    if σ.opts.trace then
      let _ ← asStr N args
      if inp.written then pure σ'
      else
        let σ ← σ.framePop
        pure (σ.goto (.onRes (if vs.isEmpty then .err else .ok)))
    else pure σ'

/-! ### Procedures -/

/-- `b6b_proc_get_args` of a procedure that needs the interpreter. -/
def getArgs (N : Num F) (args : Addr) (fmt : String) (body : List Addr → Op (Heap F) (Interp S)) :
    Op (Heap F) (Interp S) :=
  getArgsThen N args fmt true σ.finish body

/-- `b6b_core_proc_local` -/
def coreProcLocal (N : Num F) (args : Addr) : Op (Heap F) (Interp S) :=
  σ.getArgs N args "ooo" fun
    | [_, k, v] => do
      let σ ← setAt N 1 k v σ
      pure (σ.finish (.ok, some v))
    | _ => Op.crash

/-- `b6b_core_proc_global` -/
def coreProcGlobal (N : Num F) (args : Addr) : Op (Heap F) (Interp S) :=
  σ.getArgs N args "ooo" fun
    | [_, k, v] => do
      let ls ← localsSet N k v σ.global
      pure ({ σ with global := ls }.finish (.ok, some v))
    | _ => Op.crash

/-- The end of `b6b_core_proc_export`: there has to be a frame below that of the caller. -/
def exportTo (N : Num F) (k v : Addr) : Op (Heap F) (Interp S) :=
  if σ.fg.prev = [] then pure (σ.goto (.ret .err))
  else do
    let σ ← setAt N 2 k v σ
    pure (σ.finish (.ok, some v))

/-- `b6b_core_proc_export` -/
def coreProcExport (N : Num F) (args : Addr) : Op (Heap F) (Interp S) :=
  σ.getArgs N args "os|o" fun
    | [_, k, v] => σ.exportTo N k v
    | [_, k] => σ.get N k fun v => σ.exportTo N k v
    | _ => pure (σ.goto (.ret .err))

/-- `b6b_core_proc_eval` -/
def coreProcEval (N : Num F) (args : Addr) : Op (Heap F) (Interp S) :=
  σ.getArgs N args "oo" fun
    | [_, exp] => do
      let _ ← asStr N exp
      pure (σ.goto (.eval exp))
    | _ => Op.crash

/-- `b6b_core_proc_call` -/
def coreProcCall (N : Num F) (args : Addr) : Op (Heap F) (Interp S) :=
  σ.getArgs N args "oo" fun
    | [_, stmts] => pure (σ.goto (.call stmts))
    | _ => Op.crash

/-- `b6b_core_proc_spawn` -/
def coreProcSpawn (N : Num F) (args : Addr) : Op (Heap F) (Interp S) :=
  σ.getArgs N args "oo" fun
    | [_, o] => pure ((σ.start o).goto (.ret .ok))
    | _ => Op.crash

/-- `b6b_core_proc_source`, and `b6b_source` -/
def coreProcSource (N : Num F) (file : Option Bytes) (args : Addr) : Op (Heap F) (Interp S) :=
  σ.getArgs N args "os" fun
    | [_, path] => do
      let s ← strOf path
      if s.isEmpty then pure (σ.goto (.ret .err))
      else
        match file.bind sourceText with
        | some text =>
          let stmts ← alloc (.ofStr text)
          pure (σ.goto (.call stmts))
        | none => pure (σ.goto (.ret .err))
    | _ => Op.crash

/-- `b6b_logic_proc_if` -/
def logicProcIf (N : Num F) (args : Addr) : Op (Heap F) (Interp S) :=
  σ.getArgs N args "ooo|o" fun
    | _ :: b :: t :: f => do
      let o ← load b
      if o.istrue N then pure (σ.goto (.call t))
      else
        match f with
        | f :: _ => pure (σ.goto (.call f))
        | [] => pure (σ.goto (.ret .ok))
    | _ => Op.crash

/-- `b6b_loop_proc_map`, up to its loop. -/
def loopProcMap (N : Num F) (args : Addr) : Op (Heap F) (Interp S) :=
  σ.getArgs N args "ollo" fun
    | [_, ks, l, b] => do
      let kis ← items ks
      if kis.isEmpty then pure (σ.goto (.ret .err))
      else
        let lis ← items l
        pure (σ.goto (.mapAt ks l b lis.head? []))
    | _ => Op.crash

/-- The inner loop of `b6b_loop_proc_map`: bind the keys to the items from `li` on. It
returns the next item, or nothing if there are too few. -/
def mapBind (N : Num F) (l : Addr) : List Litem → Option Litem → Interp S →
    Op (Heap F) (Option (Option Litem × Interp S))
  | [], li, σ => pure (some (li, σ))
  | _ :: _, none, _ => pure none
  | kli :: kis, some li, σ => do
    let o ← itemAt l li
    let σ ← setAt N 0 kli.o o σ
    let li' ← listNext l li
    mapBind N l kis li' σ

/-- The loop of `b6b_loop_proc_map`. -/
def mapAt (N : Num F) (ks l b : Addr) (r : List Addr) : Option Litem → Op (Heap F) (Interp S)
  | none => do
    let o ← listBuild r
    pure (σ.finish (.ok, some o))
  | some li => do
    let kis ← items ks
    match ← mapBind N l kis (some li) σ with
    | some (li', σ) => pure (σ.push (.map ks l b li' r) (.call b))
    | none =>
      let m ← returnStr (bytes "not enough items")
      pure (σ.finish (.err, m))

/-- `b6b_loop_proc_loop` -/
def loopProcLoop (N : Num F) (args : Addr) : Op (Heap F) (Interp S) :=
  σ.getArgs N args "oo" fun
    | [_, b] => pure (σ.push (.loop b) (.call b))
    | _ => Op.crash

/-- `b6b_exc_proc_try`, up to its first block. -/
def excProcTry (N : Num F) (args : Addr) : Op (Heap F) (Interp S) :=
  σ.getArgs N args "oo|oo" fun
    | [_, t] => pure (σ.push (.tryBody none none) (.call t))
    | [_, t, e] => pure (σ.push (.tryBody (some e) none) (.call t))
    | [_, t, e, f] => pure (σ.push (.tryBody (some e) (some f)) (.call t))
    | _ => Op.crash

/-- `b6b_exc_proc_try`, from the third block on. -/
def tryEnd (res eres : Res) : Option Addr → Interp S
  | some f => { σ with exit := false }.push (.tryFinally res eres σ.exit σ.fg.ret) (.call f)
  | none => σ.goto (.ret (if res = .err then eres else res))

/-- `b6b_proc_proc_proc` -/
def procProcProc (N : Num F) (args : Addr) : Op (Heap F) (Interp S) :=
  σ.getArgs N args "oso|o" fun
    | _ :: n :: b :: p => do
      let s ← strOf n
      let o ← alloc ((Obj.ofStr s).withProc (.user b (p.head?.getD σ.shared.null)))
      if s.isEmpty then pure (σ.finish (.ok, some o))
      else
        let ls ← localsSet N n o σ.global
        pure ({ σ with global := ls }.finish (.ok, some o))
    | _ => Op.crash

/-- `b6b_proc_proc`, up to the body of the procedure. -/
def procProc (N : Num F) (args body priv : Addr) : Op (Heap F) (Interp S) := do
  let ls ← frameSetArgs N σ.shared args σ.fg.curr
  let ls ← localsSet N σ.shared.dot priv ls
  pure ({ σ with fg := { σ.fg with curr := ls } }.push (.proc args) (.call body))

/-- `b6b_obj_proc` -/
def objProc (N : Num F) (decode : Bytes → Option (List Bytes)) (args : Addr) : Op (Heap F) (Interp S) :=
  getArgsThen N args "ss" false σ.finish fun
    | [s, op] => do
      let s ← strOf s
      let op ← strOf op
      if cstr op ≠ bytes "decode" then pure (σ.goto (.ret .err))
      else
        match decode s with
        | some cs =>
          let lis ← tokenItems cs
          let l ← alloc (.ofList lis)
          pure (σ.finish (.ok, some l))
        | none => pure (σ.goto (.ret .err))
    | _ => Op.crash

/-- A call of one of the procedures that are modelled one by one. -/
def builtin (N : Num F) (inp : Input I) (args : Addr) (b : Builtin) : Op (Heap F) (Interp S) :=
  match b with
  | .loc => σ.coreProcLocal N args
  | .glob => σ.coreProcGlobal N args
  | .export => σ.coreProcExport N args
  | .eval => σ.coreProcEval N args
  | .call => σ.coreProcCall N args
  | .spawn => σ.coreProcSpawn N args
  | .source => σ.coreProcSource N inp.file args
  | .cond => σ.logicProcIf N args
  | .map => σ.loopProcMap N args
  | .loop => σ.loopProcLoop N args
  | .try => σ.excProcTry N args
  | .proc => σ.procProcProc N args
  | b =>
    match heapProc N σ.shared b with
    | some x => do
      let r ← x args
      pure (σ.finish r)
    | none => Op.crash

/-- A call of the procedure of the first of `args`. -/
def invoke (nat : Natives N S I) (inp : Input I) (args : Addr) : Op (Heap F) (Interp S) := do
  let lis ← items args
  match lis with
  | [] => Op.crash
  | li :: _ =>
    let o ← load li.o
    match o.proc with
    | .obj => σ.objProc N nat.decode args
    | .builtin b => σ.builtin N inp args b
    | .user body priv => σ.procProc N args body priv
    | .native n => pure (σ.goto (.native (nat.start n args) false))

/-- A native procedure goes on. -/
def native (nat : Natives N S I) (inp : Input I) (s : S) (yielded : Bool) : Op (Heap F) (Interp S) := do
  match ← Op.attempt (nat.run s yielded inp.native) with
  | some (.inl s') => pure (σ.yield fun y => .native s' y)
  | some (.inr r) => pure (σ.finish r)
  | none => pure (σ.goto (.ret .err))

/-! ### Returns -/

/-- The innermost call that waits gets its result. -/
def resume (res : Res) : Kont → Op (Heap F) (Interp S)
  | .stmtArg stmt li vs =>
    if res = .ok then do
      let li' ← listNext stmt li
      pure (σ.goto (.argAt stmt li' (vs ++ [σ.fg.ret])))
    else do
      let σ ← σ.framePop
      pure (σ.goto (.onRes res))
  | .stmtProc => do
    let σ ← σ.framePop
    pure (σ.goto (.onRes res))
  | .call stmts li =>
    if res = .ok then do
      let li' ← listNext stmts li
      pure (σ.goto (.callAt stmts li'))
    else pure (σ.goto (.ret res))
  | .proc _ => pure (σ.goto (.ret (if res = .ret then .ok else res)))
  | .map ks l b li r =>
    match res with
    | .ok => pure (σ.goto (.mapAt ks l b li (r ++ [σ.fg.ret])))
    | .cont => pure (σ.goto (.mapAt ks l b li r))
    | .brk => pure (σ.goto (.mapAt ks l b none r))
    | _ => pure (σ.goto (.ret res))
  | .loop b =>
    match res with
    | .brk => pure (σ.goto (.ret .ok))
    | .ok => pure (σ.push (.loop b) (.call b))
    | _ => pure (σ.goto (.ret res))
  | .tryBody e f =>
    if res = .err then
      match e with
      | none => pure (σ.goto (.ret (if σ.opts.raise then .err else .ok)))
      | some e => pure (σ.push (.tryExcept f) (.call e))
    else pure (σ.goto (.tryEnd res .err f))
  | .tryExcept f =>
    pure (σ.goto (.tryEnd .err (if σ.opts.raise ∧ res ≠ .exit then .err else res) f))
  | .tryFinally r eres exit o =>
    let σ := { σ with exit := exit }.setRet o
    if r = .ret ∨ r = .exit then pure (σ.goto (.ret r))
    else if r = .err ∧ eres ≠ .ok then pure (σ.goto (.ret eres))
    else pure (σ.goto (.ret res))
  | .thread =>
    match σ.threadEnd with
    | some σ => pure σ
    | none => Op.crash
  | .main progs =>
    match progs with
    | (opts, p) :: progs =>
      if res = .ok then pure ({ σ with opts := opts }.push (.main progs) (.call p))
      else pure (σ.goto .join)
    | [] => pure (σ.goto .join)

/-- A fiber returns to the innermost call that waits. -/
def ret (res : Res) : Op (Heap F) (Interp S) :=
  match σ.fg.konts with
  | k :: _ => σ.pop.resume res k
  | [] => Op.crash

/-- **One step of the interpreter.** -/
def step (nat : Natives N S I) (inp : Input I) : Op (Heap F) (Interp S) :=
  match σ.fg.ctl with
  | .begin =>
    match σ.fg.fn with
    | some fn => pure (σ.push .thread (.call fn))
    | none => Op.crash
  | .call stmts => σ.call N stmts
  | .callAt stmts li => σ.callAt N stmts li
  | .stmt stmt => σ.stmtCall N stmt
  | .argAt stmt li vs => σ.argAt N inp stmt vs li
  | .invoke args => σ.invoke nat inp args
  | .eval exp => σ.eval N exp
  | .mapAt ks l b li r => σ.mapAt N ks l b r li
  | .tryEnd res eres f => pure (σ.tryEnd res eres f)
  | .native s y => σ.native nat inp s y
  | .onRes res => σ.onRes N res
  | .ret res => σ.ret res
  | .join => pure ({ σ with exit := true }.goto .sweep)
  | .sweep => pure (σ.yield fun y => if y then .sweep else .halt)
  | .halt => Op.crash
  | .dead => Op.crash

end Interp

/-! ### The machine -/

/-- A heap and the interpreter on it. -/
structure Machine (F S : Type) where
  heap : Heap F
  interp : Interp S

/-- One step of the machine, if it returns. -/
def Machine.step {N : Num F} (nat : Natives N S I) (m : Machine F S) (inp : Input I) :
    Option (Machine F S) :=
  match m.interp.step nat inp m.heap with
  | .ok σ h => some ⟨h, σ⟩
  | .fail _ => none
  | .crash => none

theorem Machine.step_of_ok {N : Num F} {nat : Natives N S I} {m : Machine F S} {inp : Input I}
    {σ : Interp S} {h : Heap F} (hstep : m.interp.step nat inp m.heap = .ok σ h) :
    m.step nat inp = some ⟨h, σ⟩ := by
  unfold Machine.step
  rw [hstep]

theorem Machine.step_eq_some {N : Num F} {nat : Natives N S I} {m m' : Machine F S} {inp : Input I}
    (h : m.step nat inp = some m') : m.interp.step nat inp m.heap = .ok m'.interp m'.heap := by
  unfold Machine.step at h
  cases hx : m.interp.step nat inp m.heap with
  | ok σ h' =>
    rw [hx] at h
    obtain rfl := Option.some.inj h
    rfl
  | fail h' =>
    rw [hx] at h
    cases h
  | crash =>
    rw [hx] at h
    cases h

/-! ### The start -/

/-- `struct b6b_ext_obj` -/
structure ExtObj where
  name : Bytes
  val : Bytes ⊕ ℤ
  proc : Proc

/-- Extensions that are modelled one by one, under the names given. -/
def builtinExts (table : List (String × Builtin)) : List ExtObj :=
  table.map fun (name, b) => ⟨bytes name, .inl (bytes name), .builtin b⟩

/-- The extensions that are modelled one by one, under their own names. -/
def coreExts : List ExtObj :=
  builtinExts [("nop", .nop), ("echo", .echo), ("yield", .yield), ("return", .ret), ("continue", .cont),
    ("break", .brk), ("throw", .throw), ("exit", .exit), ("local", .loc), ("global", .glob),
    ("export", .export), ("eval", .eval), ("repr", .repr), ("call", .call), ("spawn", .spawn),
    ("source", .source), ("!", .not), ("==", .eq), ("!=", .ne), ("&&", .and), ("||", .or),
    ("^^", .xor), ("if", .cond), ("map", .map), ("loop", .loop), ("range", .range),
    ("try", .try), ("proc", .proc), ("list.new", .listNew), ("list.len", .listLen),
    ("list.copy", .listCopy), ("list.append", .listAppend), ("list.extend", .listExtend),
    ("list.index", .listIndex), ("list.range", .listRange), ("list.in", .listIn),
    ("list.pop", .listPop), ("dict.get", .dictGet), ("dict.set", .dictSet),
    ("dict.unset", .dictUnset), ("+", .add), ("-", .sub), ("*", .mul), ("/", .div), ("%", .mod),
    ("&", .bitAnd), ("|", .bitOr), ("^", .bitXor), ("<", .lt), ("<=", .le), (">", .gt),
    (">=", .ge)]

/-- `b6b_interp_new_ext_obj`, on the global variables. -/
def interpNewExtObj (N : Num F) (eo : ExtObj) (ls : Locals) : Op (Heap F) Locals := do
  let k ← alloc (.ofStr eo.name)
  let v ← alloc (match eo.val with
    | .inl s => (Obj.ofStr s).withProc eo.proc
    | .inr i => (Obj.ofInt i).withProc eo.proc)
  localsSet N k v ls

/-- The loop of `b6b_interp_new` over the extensions. -/
def interpNewExts (N : Num F) : List ExtObj → Locals → Op (Heap F) Locals
  | [], ls => pure ls
  | eo :: os, ls => do
    let ls ← interpNewExtObj N eo ls
    interpNewExts N os ls

/-- The programs of the main fiber, with the text of each in an object. -/
def newProgs : List (Opts × Bytes) → Op (Heap F) (List (Opts × Addr))
  | [] => pure []
  | (opts, text) :: ps => do
    let a ← alloc (.ofStr text)
    let rest ← newProgs ps
    pure ((opts, a) :: rest)

/-- The objects of `b6b_interp_new`. -/
def newShared : Op (Heap F) Shared := do
  let null ← alloc (.ofStr [])
  let zero' ← alloc (.ofInt 0)
  let one ← alloc (.ofInt 1)
  let dot ← alloc (.ofStr (bytes "."))
  let at' ← alloc (.ofStr (bytes "@"))
  let us ← alloc (.ofStr (bytes "_"))
  pure ⟨null, zero', one, dot, at', us⟩

/-- `b6b_interp_new_argv`, with the programs that the main fiber runs: those of the
extensions, without options, and that of the user. -/
def interpNew (N : Num F) (args : List Bytes) (exts : List ExtObj) (progs : List (Opts × Bytes)) :
    Op (Heap F) (Interp S) := do
  let lis ← tokenItems args
  let argv ← alloc (.ofList lis)
  let C ← newShared
  let ls ← frameSetArgs N C argv []
  let ls ← interpNewExts N exts ls
  let ps ← newProgs progs
  pure ⟨C, ⟨false, false⟩, ls, false, 0, 1, 1, [], .self C.null ps, []⟩

/-- The interpreter that `b6b_interp_new_argv` makes in an empty heap. -/
def Machine.start? (N : Num F) (args : List Bytes) (exts : List ExtObj)
    (progs : List (Opts × Bytes)) : Option (Machine F S) :=
  match interpNew N args exts progs Heap.empty with
  | .ok σ h => some ⟨h, σ⟩
  | .fail _ => none
  | .crash => none

/-- The procedures of programs that are run as examples, under short names. -/
def shortNames : List (String × Builtin) :=
  [("a", .listAppend), ("b", .brk), ("c", .call), ("d", .dictSet), ("e", .echo), ("g", .glob),
    ("h", .listLen), ("i", .cond), ("j", .listIndex), ("k", .cont), ("l", .loc), ("m", .map),
    ("n", .listNew), ("o", .nop), ("p", .proc), ("q", .eq), ("r", .ret), ("s", .spawn), ("t", .try),
    ("u", .listPop), ("v", .export), ("w", .loop), ("x", .exit), ("y", .yield), ("z", .not)]

/-- The start of a text on whole numbers, without native procedures. -/
def wholeStart (table : List (String × Builtin)) (text : String) : Option (Machine ℤ Unit) :=
  Machine.start? wholeNum [] (builtinExts table) [(⟨false, false⟩, bytes text)]

/-- A step of such a machine. -/
abbrev wholeStep : Machine ℤ Unit → Input Unit → Option (Machine ℤ Unit) :=
  Machine.step (Natives.none wholeNum)

/-- Nothing is read from outside in `n` steps. -/
def quiet (n : ℕ) : List (Input Unit) := List.replicate n ⟨(), true, none⟩

end B6b
