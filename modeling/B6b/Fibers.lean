/-
# Fibers and the switch between them

A fiber (`struct b6b_thread`) runs the interpreter on a stack of its own. Here the stack
is explicit: `ctl` is what the fiber does next and `konts` are the calls that wait for
its result, innermost first. The fibers of an interpreter are a list with the foreground
one in the middle, so that there is one and it is in the list.

`b6b_yield` switches to the next fiber that is pending, around the list (`swap`). A fiber
that is switched to returns from its own `b6b_yield`, which removes the ones that are done
(`wait`), unless it is new and has not called it yet.

The frame of a statement holds variables only: its list of arguments is an object, and
`f->locals` a dictionary that no script gets at, so its keys and values are kept here in
pairs. A frame has an address of its own, by which it is told from another one at its place.

Key definitions: `Ctl`, `Kont`, `Fiber`, `Interp`, `Interp.swap`, `Interp.yield`.
-/
import B6b.Procs

namespace B6b

/-- The pairs of a frame's `locals`. -/
abbrev Locals := List (Addr × Addr)

/-- The options that matter to the core of the interpreter. -/
structure Opts where
  /-- `B6B_OPT_RAISE` -/
  raise : Bool
  /-- `B6B_OPT_TRACE` -/
  trace : Bool
deriving DecidableEq

/-- A call that waits for the result of what it has called. -/
inductive Kont
  /-- `b6b_stmt_call`, at the item `li` of `stmt`, with the values of those before it. -/
  | stmtArg (stmt : Addr) (li : Litem) (vs : List Addr)
  /-- `b6b_stmt_call`, in the procedure it calls. -/
  | stmtProc
  /-- `b6b_call`, in the statement `li`. -/
  | call (stmts : Addr) (li : Litem)
  /-- `b6b_proc_proc`, with its arguments. -/
  | proc (args : Addr)
  /-- `b6b_loop_proc_map`, with the next item and the results so far. -/
  | map (ks l b : Addr) (li : Option Litem) (r : List Addr)
  /-- `b6b_loop_proc_loop` -/
  | loop (b : Addr)
  /-- `b6b_exc_proc_try`, in its first block. -/
  | tryBody (e f : Option Addr)
  /-- `b6b_exc_proc_try`, in its second block. -/
  | tryExcept (f : Option Addr)
  /-- `b6b_exc_proc_try`, in its third block, with what it keeps over it. -/
  | tryFinally (res eres : Res) (exit : Bool) (o : Addr)
  /-- `b6b_thread_routine` -/
  | thread
  /-- The main program, with what it runs next and the options it sets for it. -/
  | main (progs : List (Opts × Addr))
deriving DecidableEq

/-- What a fiber does next. `S` is the state of a native procedure. -/
inductive Ctl (S : Type)
  /-- Enter `b6b_thread_routine`. -/
  | begin
  /-- `b6b_call` -/
  | call (stmts : Addr)
  /-- `b6b_call`, at the statement `li`. -/
  | callAt (stmts : Addr) (li : Option Litem)
  /-- `b6b_stmt_call` -/
  | stmt (stmt : Addr)
  /-- `b6b_stmt_call`, at the item `li`, with the values of those before it. -/
  | argAt (stmt : Addr) (li : Option Litem) (vs : List Addr)
  /-- Call the procedure of the first of `args`. -/
  | invoke (args : Addr)
  /-- `b6b_eval` -/
  | eval (exp : Addr)
  /-- The loop of `b6b_loop_proc_map`, at the item `li`. -/
  | mapAt (ks l b : Addr) (li : Option Litem) (r : List Addr)
  /-- `b6b_exc_proc_try`, behind its first two blocks. -/
  | tryEnd (res eres : Res) (f : Option Addr)
  /-- A native procedure goes on, and is told what `b6b_yield` has returned. -/
  | native (s : S) (yielded : Bool)
  /-- `b6b_on_res` -/
  | onRes (res : Res)
  /-- Return `res`. -/
  | ret (res : Res)
  /-- `b6b_join` -/
  | join
  /-- The loop of `b6b_join`. -/
  | sweep
  /-- The main program has joined the fibers. -/
  | halt
  /-- Behind the last `b6b_yield` of `b6b_thread_routine`. -/
  | dead

/-- `struct b6b_thread`. Its address is `id`. -/
structure Fiber (S : Type) where
  id : ℕ
  /-- `B6B_THREAD_BG` -/
  bg : Bool
  /-- `B6B_THREAD_FG` -/
  fg : Bool
  /-- `B6B_THREAD_DONE` -/
  done : Bool
  fn : Option Addr
  /-- `t->_` -/
  ret : Addr
  curr : Locals
  /-- The frames below `curr`, without the global one. -/
  prev : List Locals
  /-- The addresses of the frames, that of `curr` first. -/
  frames : List ℕ
  depth : ℕ
  ctl : Ctl S
  konts : List Kont

namespace Fiber

variable {S : Type}

/-- `THREAD_PENDING` -/
def pending (t : Fiber S) : Bool := t.bg && !t.done

/-- `b6b_thread_new`, with the address of the first frame. -/
def new (id frame : ℕ) (fn null : Addr) : Fiber S :=
  ⟨id, true, false, false, some fn, null, [], [], [frame], 1, .begin, []⟩

/-- `b6b_thread_self` -/
def self (null : Addr) (progs : List (Opts × Addr)) : Fiber S :=
  ⟨0, false, true, false, none, null, [], [], [0], 1, .ret .ok, [.main progs]⟩

/-- The side of `b6b_thread_swap` that comes in. -/
def swapIn (t : Fiber S) : Fiber S := { t with bg := false, fg := true }

/-- The side of `b6b_thread_swap` that goes out. -/
def swapOut (t : Fiber S) : Fiber S := { t with bg := true, fg := false }

/-- It has not run yet. -/
def isNew (t : Fiber S) : Bool :=
  match t.ctl with
  | .begin => true
  | _ => false

end Fiber

/-- `struct b6b_interp` -/
structure Interp (S : Type) where
  shared : Shared
  opts : Opts
  global : Locals
  exit : Bool
  qstep : UInt8
  /-- The address of the next new fiber. -/
  nextId : ℕ
  /-- The address of the next new frame. -/
  nextFrame : ℕ
  /-- The fibers in front of the foreground one. -/
  before : List (Fiber S)
  fg : Fiber S
  after : List (Fiber S)

namespace Interp

variable {S : Type}

/-- `B6B_QUANT_LEN` -/
def quantLen : UInt8 := 16

/-- `B6B_MAX_NESTING` -/
def maxNesting : ℕ := 64

/-! ### The foreground fiber -/

/-- Go on with `c`. -/
def goto (σ : Interp S) (c : Ctl S) : Interp S := { σ with fg := { σ.fg with ctl := c } }

/-- Go on with `c`, and return to `k`. -/
def push (σ : Interp S) (k : Kont) (c : Ctl S) : Interp S :=
  { σ with fg := { σ.fg with ctl := c, konts := k :: σ.fg.konts } }

/-- Leave the innermost call that waits. -/
def pop (σ : Interp S) : Interp S := { σ with fg := { σ.fg with konts := σ.fg.konts.tail } }

/-- `b6b_return`, without the result. -/
def setRet (σ : Interp S) (o : Addr) : Interp S := { σ with fg := { σ.fg with ret := o } }

/-- Return what a procedure replies. -/
def finish (σ : Interp S) (r : Reply) : Interp S :=
  match r with
  | (res, some o) => (σ.setRet o).goto (.ret res)
  | (res, none) => σ.goto (.ret res)

/-- `b6b_frame_push`, below the limit. -/
def framePush (σ : Interp S) : Interp S :=
  { σ with
    nextFrame := σ.nextFrame + 1
    fg := { σ.fg with
      curr := []
      prev := σ.fg.curr :: σ.fg.prev
      frames := σ.nextFrame :: σ.fg.frames
      depth := σ.fg.depth + 1 } }

/-! ### Switching -/

/-- The first fiber that is pending, and those in front of it and behind it. -/
def splitPending : List (Fiber S) → Option (List (Fiber S) × Fiber S × List (Fiber S))
  | [] => none
  | t :: ts =>
    if t.pending then some ([], t, ts)
    else
      match splitPending ts with
      | some (as, u, bs) => some (t :: as, u, bs)
      | none => none

/-- `b6b_wait` -/
def wait (σ : Interp S) : Interp S :=
  { σ with before := σ.before.filter (!·.done), after := σ.after.filter (!·.done) }

/-- The switch of `b6b_yield` to `t`, between `before` and `after`, and the `b6b_wait` of the
`b6b_yield` that `t` returns from. -/
def swapTo (σ : Interp S) (before : List (Fiber S)) (t : Fiber S) (after : List (Fiber S)) :
    Interp S :=
  let σ := { σ with qstep := 0, before := before, fg := t.swapIn, after := after }
  if t.isNew then σ else σ.wait

/-- `b6b_yield`, if a fiber is pending. -/
def swap (σ : Interp S) : Option (Interp S) :=
  match splitPending σ.after with
  | some (as, t, bs) => some (σ.swapTo (σ.before ++ σ.fg.swapOut :: as) t bs)
  | none =>
    match splitPending σ.before with
    | some (as, t, bs) => some (σ.swapTo as t (bs ++ σ.fg.swapOut :: σ.after))
    | none => none

/-- `b6b_yield`, with what the fiber does behind it. -/
def yield (σ : Interp S) (c : Bool → Ctl S) : Interp S :=
  match (σ.goto (c true)).swap with
  | some σ' => σ'
  | none => (σ.goto (c false)).wait

/-- `b6b_start` -/
def start (σ : Interp S) (fn : Addr) : Interp S :=
  { σ with
    nextId := σ.nextId + 1
    nextFrame := σ.nextFrame + 1
    after := .new σ.nextId σ.nextFrame fn σ.shared.null :: σ.after }

/-- The end of `b6b_thread_routine`: no fiber returns to it, and there is one to switch to
since the main one is never done. -/
def threadEnd (σ : Interp S) : Option (Interp S) :=
  ({ σ with fg := { σ.fg with done := true } }.goto .dead).swap

/-- The fibers, in their order. -/
def ids (σ : Interp S) : List ℕ := (σ.before ++ σ.fg :: σ.after).map (·.id)

/-- Another fiber is pending. -/
def OtherPending (σ : Interp S) : Prop := ∃ t ∈ σ.before ++ σ.after, t.pending = true

instance (σ : Interp S) : Decidable σ.OtherPending :=
  inferInstanceAs (Decidable (∃ t ∈ σ.before ++ σ.after, t.pending = true))

end Interp

end B6b
