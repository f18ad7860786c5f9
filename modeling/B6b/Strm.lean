/-
# Streams

A stream of `b6b_strm.c` is a table of callbacks with private data and two flags. Each
procedure of a stream looks at the flags before it calls a callback; `close` calls the
callback that frees the private data, and so does the end of the object. `peer` does not
look at the flags (`Asks`).

`Strm.step` is one procedure after the other, from one callback to the next; `Lifecycle`
says which callbacks should be called. `step_move` sums up what a step can do. The module
`Overlap` has the procedures of several fibers, and the theorem about their callbacks.

Key definitions: `Strm.step`, `Strm.Lifecycle`, `Strm.Asks`, `Strm.Move`.
-/
import B6b.Lib.Runs
import B6b.Container

namespace B6b

/-- `B6B_STRM_BUFSIZ` -/
abbrev strmBufsiz : ℤ := 64 * 1024

/-- Which callbacks a `struct b6b_strm_ops` has. All have `fd`. -/
structure StrmOps where
  peeksz : Bool
  read : Bool
  write : Bool
  peer : Bool
  accept : Bool
  close : Bool
deriving DecidableEq

namespace Strm

/-- A callback, with the bytes that it may read or write. -/
inductive Callback
  | peeksz
  | read (len : ℤ)
  | write (buf : Bytes)
  | peer
  | accept
  | fd
  | close
deriving DecidableEq

/-- What a procedure leaves in `_`, which is reset to `null` before it. -/
inductive Value
  | null
  | str (s : Bytes)
  | int (i : ℤ)
  | obj (o : Addr)
  | list (os : List Addr)
deriving DecidableEq

/-- An empty string. -/
def Value.Empty : Value → Prop
  | .null => True
  | .str s => s = []
  | _ => False

/-- What has happened to a stream: a callback was called, a read has returned, and its callback
has reported the end of the file or not, another procedure has returned. -/
inductive Event
  | invoked (c : Callback)
  | read (r : Res) (v : Value) (eof : Bool)
  | returned (r : Res) (v : Value)
deriving DecidableEq

/-- Which callback a stream waits for, with the variables of the procedure that has called it. -/
inductive Ctl
  | idle
  | peeksz (want : ℤ) (buf : Bytes)
  | read (want : ℤ) (buf : Bytes)
  | write (rest : Bytes) (out : ℕ)
  | accept (os : List Addr)
  | peer
  | fd
  | close (del : Bool)
  | freed
deriving DecidableEq

/-- A callback was called that has not returned. -/
def Ctl.waits : Ctl → Bool
  | .idle | .freed => false
  | _ => true

/-- A read goes on. -/
def Ctl.reads : Ctl → Bool
  | .peeksz .. | .read .. => true
  | _ => false

/-- The callback `close` goes on. -/
def Ctl.closes : Ctl → Bool
  | .close _ => true
  | _ => false

end Strm

/-- `struct b6b_strm`, with the references to its object, the procedure that runs and what has
happened so far. -/
structure Strm where
  ops : StrmOps
  closed : Bool
  eof : Bool
  refs : ℕ
  ctl : Strm.Ctl
  trace : List Strm.Event
deriving DecidableEq

namespace Strm

/-- The third argument, as an integer and as a string, if it has these. -/
structure Arg where
  int : Option ℤ
  str : Option Bytes
deriving DecidableEq

/-- What happens to a stream: its procedure is called, a reference to its object is taken or
dropped, or the callback it waits for returns. `none` is a callback that fails: what else it has
stored, the stream does not look at. -/
inductive Input
  | call (op : Bytes) (arg : Option Arg)
  | ref
  | unref
  | peeksz (len : ℤ)
  | read (data : Option (Bytes × Bool × Bool))
  | write (chunk : ℤ)
  | accept (o : Option (Option Addr))
  | peer (o : Option Addr)
  | fd (n : ℤ)
  | close
deriving DecidableEq

/-- `b6b_strm_new` -/
def new (ops : StrmOps) : Strm := ⟨ops, false, false, 1, .idle, []⟩

/-- The procedure calls `c` and waits. -/
def invoke (s : Strm) (c : Callback) (k : Ctl) : Strm :=
  { s with ctl := k, trace := s.trace ++ [.invoked c] }

/-- The procedure is done. -/
def done (s : Strm) (e : Event) : Strm := { s with ctl := .idle, trace := s.trace ++ [e] }

/-! ### The procedures -/

/-- `b6b_strm_read`, once the amount that comes next is estimated. -/
def readNext (s : Strm) (want : ℤ) (buf : Bytes) (est : ℤ) : Strm :=
  if est < 0 then s.done (.read .err .null false)
  else if est = 0 then s.done (.read .ok (.str buf) false)
  else s.invoke (.read (min est want)) (.read want buf)

/-- `b6b_strm_peeksz`, and what `b6b_strm_read` does with it. -/
def readMore (s : Strm) (want : ℤ) (buf : Bytes) : Strm :=
  if s.ops.peeksz then s.invoke .peeksz (.peeksz want buf) else s.readNext want buf strmBufsiz

/-- `b6b_strm_read`, up to the first callback. -/
def read (s : Strm) (want : ℤ) : Strm :=
  if s.eof then s.done (.read .ok .null false)
  else if s.closed ∨ ¬ s.ops.read then s.done (.read .err .null false)
  else s.readMore want []

/-- `b6b_strm_read`, behind the callback `read`. -/
def onRead (s : Strm) (want : ℤ) (buf : Bytes) : Option (Bytes × Bool × Bool) → Strm
  | none => s.done (.read .err .null false)
  | some (data, eof, again) =>
    let buf := buf ++ data
    if eof then { s.done (.read .ok (.str buf) true) with eof := true }
    else if data = [] ∨ ¬ again then s.done (.read .ok (.str buf) false)
    else if want - data.length = 0 then s.done (.read .ok (.str buf) false)
    else s.readMore (want - data.length) buf

/-- The loop of `b6b_strm_write`. -/
def writeMore (s : Strm) (rest : Bytes) (out : ℕ) : Strm :=
  if rest = [] then s.done (.returned .ok (.int out)) else s.invoke (.write rest) (.write rest out)

/-- `b6b_strm_write` -/
def write (s : Strm) (buf : Bytes) : Strm :=
  if s.closed ∨ ¬ s.ops.write then s.done (.returned .err .null) else s.writeMore buf 0

/-- `b6b_strm_write`, behind the callback `write`. -/
def onWrite (s : Strm) (rest : Bytes) (out : ℕ) (chunk : ℤ) : Strm :=
  if chunk < 0 then s.done (.returned .err .null)
  else if chunk = 0 then s.done (.returned .ok (.int out))
  else s.writeMore (rest.drop chunk.toNat) (out + chunk.toNat)

/-- `b6b_strm_writeln` -/
def writeln (s : Strm) (buf : Bytes) : Strm := s.write (buf ++ [0x0a])

/-- `b6b_strm_accept` -/
def accept (s : Strm) : Strm :=
  if s.closed ∨ ¬ s.ops.accept then s.done (.returned .err .null) else s.invoke .accept (.accept [])

/-- `b6b_strm_accept`, behind the callback `accept`: it fails, has no stream or a new one. -/
def onAccept (s : Strm) (os : List Addr) : Option (Option Addr) → Strm
  | none => s.done (.returned .err .null)
  | some none => s.done (.returned .ok (.list os))
  | some (some o) => s.invoke .accept (.accept (os ++ [o]))

/-- `b6b_strm_peer` -/
def peer (s : Strm) : Strm :=
  if s.ops.peer then s.invoke .peer .peer else s.done (.returned .err .null)

/-- `b6b_strm_peer`, behind the callback `peer`. -/
def onPeer (s : Strm) : Option Addr → Strm
  | some o => s.done (.returned .ok (.obj o))
  | none => s.done (.returned .err .null)

/-- `b6b_strm_fd` -/
def fd (s : Strm) : Strm :=
  if s.closed then s.done (.returned .err .null) else s.invoke .fd .fd

/-- `b6b_strm_fd`, behind the callback `fd`: the integer refers to the stream. -/
def onFd (s : Strm) (n : ℤ) : Strm := { s.done (.returned .ok (.int n)) with refs := s.refs + 1 }

/-- Behind `b6b_strm_close`: the procedure returns, or `b6b_strm_del` frees the stream. -/
def closeDone (s : Strm) (del : Bool) : Strm :=
  if del then { s with refs := 0, ctl := .freed } else s.done (.returned .ok .null)

/-- `b6b_strm_close`, behind the callback `close`. -/
def onClose (s : Strm) (del : Bool) : Strm := { s with closed := true, eof := true }.closeDone del

/-- `b6b_strm_close` -/
def close (s : Strm) (del : Bool) : Strm :=
  if s.closed then s.closeDone del
  else if s.ops.close then s.invoke .close (.close del)
  else s.onClose del

/-- `b6b_strm_proc`: the procedures without an argument. -/
def proc₂ (s : Strm) (op : Bytes) : Strm :=
  if cstr op = bytes "read" then s.read (ssizeMax - 1)
  else if cstr op = bytes "accept" then s.accept
  else if cstr op = bytes "peer" then s.peer
  else if cstr op = bytes "fd" then s.fd
  else if cstr op = bytes "close" then s.close false
  else s.done (.returned .err (.str (bytes "bad strm op: " ++ cstr op)))

/-- `b6b_strm_proc`: the procedures with an argument. -/
def proc₃ (s : Strm) (op : Bytes) (arg : Arg) : Strm :=
  if cstr op = bytes "read" then
    match arg.int with
    | some want =>
      if ssizeMax ≤ want ∨ want ≤ 0 then s.done (.returned .err .null) else s.read want
    | none => s.done (.returned .err .null)
  else if cstr op = bytes "write" then
    match arg.str with
    | some buf => s.write buf
    | none => s.done (.returned .err .null)
  else if cstr op = bytes "writeln" then
    match arg.str with
    | some buf => s.writeln buf
    | none => s.done (.returned .err .null)
  else s.done (.returned .err (.str (bytes "bad strm op: " ++ cstr op)))

/-- `b6b_strm_proc` -/
def proc (s : Strm) (op : Bytes) : Option Arg → Strm
  | none => s.proc₂ op
  | some arg => s.proc₃ op arg

/-- `b6b_unref` of the object: the last one ends it. -/
def unref (s : Strm) : Strm :=
  if s.refs ≤ 1 then s.close true else { s with refs := s.refs - 1 }

/-- One step: a procedure runs to its next callback or its end. -/
def step (s : Strm) (inp : Input) : Option Strm :=
  match s.ctl, inp with
  | .idle, .call op arg => some (s.proc op arg)
  | .idle, .ref => some { s with refs := s.refs + 1 }
  | .idle, .unref => some s.unref
  | .peeksz want buf, .peeksz len => some (s.readNext want buf len)
  | .read want buf, .read data => some (s.onRead want buf data)
  | .write rest out, .write chunk => some (s.onWrite rest out chunk)
  | .accept os, .accept o => some (s.onAccept os o)
  | .peer, .peer o => some (s.onPeer o)
  | .fd, .fd n => some (s.onFd n)
  | .close del, .close => some (s.onClose del)
  | _, _ => none

/-! ### The lifecycle -/

/-- The event is a read whose callback has reported the end of the file. -/
def Event.Reports : Event → Prop
  | .read _ _ eof => eof = true
  | _ => False

/-- What may follow `e`: no callback behind `close`, and behind the end of the file no read that
calls its callback, fails or has a result. -/
def Follows (e e' : Event) : Prop :=
  (e = .invoked .close → ∀ c, e' ≠ .invoked c) ∧
    (e.Reports → (∀ len, e' ≠ .invoked (.read len)) ∧
      ∀ r v eof, e' = .read r v eof → r = .ok ∧ v.Empty)

/-- The callbacks were called as they should be: `close` at most once and none after it, and `read`
never again once it has reported the end of the file, and all reads after that are empty. -/
structure Lifecycle (trace : List Event) : Prop where
  once : trace.count (.invoked .close) ≤ 1
  follows : trace.Pairwise Follows

/-- The input asks a closed stream for its peer, which has the callbacks `close` and `peer`. -/
def Asks (s : Strm) (inp : Input) : Prop :=
  s.closed = true ∧ s.ops.close = true ∧ s.ops.peer = true ∧
    ∃ op, inp = .call op none ∧ cstr op = bytes "peer"

instance (s : Strm) : ∀ inp, Decidable (Asks s inp)
  | .call op none => decidable_of_iff
      (s.closed = true ∧ s.ops.close = true ∧ s.ops.peer = true ∧ cstr op = bytes "peer")
      ⟨fun h => ⟨h.1, h.2.1, h.2.2.1, op, rfl, h.2.2.2⟩,
        fun ⟨hc, ho, hp, _, rfl, h⟩ => ⟨hc, ho, hp, h⟩⟩
  | .call _ (some _) => .isFalse fun ⟨_, _, _, _, h, _⟩ => nomatch h
  | .ref | .unref | .peeksz _ | .read _ | .write _ | .accept _ | .peer _ | .fd _ | .close =>
    .isFalse fun ⟨_, _, _, _, h, _⟩ => nomatch h

theorem lifecycle_concat {trace : List Event} {e : Event} :
    Lifecycle (trace ++ [e]) ↔ Lifecycle trace ∧ ∀ e' ∈ trace, Follows e' e := by
  constructor
  · intro h
    obtain ⟨hfollows, -, hlast⟩ := List.pairwise_append.mp h.follows
    have hcount : trace.count (.invoked .close) ≤ (trace ++ [e]).count (.invoked .close) :=
      (List.sublist_append_left trace [e]).count_le _
    exact ⟨⟨Nat.le_trans hcount h.once, hfollows⟩, fun e' he' => hlast e' he' e List.mem_cons_self⟩
  · rintro ⟨h, hlast⟩
    refine ⟨?_, List.pairwise_append.mpr ⟨h.follows, List.pairwise_singleton _ _, ?_⟩⟩
    · rw [List.count_append]
      by_cases he : e = .invoked .close
      · have hnot : .invoked .close ∉ trace := fun hin => (hlast _ hin).1 rfl .close he
        rw [List.count_eq_zero.mpr hnot, he]
        exact Nat.le_refl 1
      · rw [List.count_singleton, if_neg (by simpa using he)]
        exact h.once
    · intro e' he' e'' he''
      exact List.mem_singleton.mp he'' ▸ hlast e' he'

/-! ### What a step does -/

/-- A read goes on, or may begin: the end of the file was not reached. -/
def Reading (s : Strm) : Prop := s.ctl.reads = true ∨ s.ctl = .idle ∧ s.eof = false

/-- A procedure goes on, or one that looks at `B6B_STRM_CLOSED` may begin. -/
def Going (s : Strm) : Prop := s.ctl.waits = true ∨ s.ctl = .idle ∧ s.closed = false

/-- A procedure is called. -/
def Input.calls : Input → Bool
  | .call .. => true
  | _ => false

/-- The procedure `close` is called. -/
def Input.closes : Input → Bool
  | .call op none => cstr op = bytes "close"
  | _ => false

/-- The callback reports the end of the file. -/
def Input.ends : Input → Bool
  | .read (some (_, eof, _)) => eof
  | _ => false

/-- What a step can do, with what it has looked at. -/
inductive Move (s : Strm) (inp : Input) : Strm → Prop
  | count (n : ℕ) : Move s inp { s with refs := n }
  | returned (r : Res) (v : Value) (n : ℕ) (hctl : s.ctl.closes = false) :
      Move s inp { s.done (.returned r v) with refs := n }
  | read (r : Res) (v : Value) (hctl : s.ctl.closes = false)
      (hres : ¬ s.Reading → r = .ok ∧ v.Empty) : Move s inp (s.done (.read r v false))
  | readEof (v : Value) (want : ℤ) (buf : Bytes) (hctl : s.ctl = .read want buf) (hends : inp.ends = true) :
      Move s inp { s.done (.read .ok v true) with eof := true }
  | invoke (c : Callback) (k : Ctl) (hctl : s.ctl.closes = false) (hgoing : s.Going)
      (hc : c ≠ .close) (hk : k.closes = false)
      (hread : s.Reading ∨ k.reads = false ∧ ∀ len, c ≠ .read len) : Move s inp (s.invoke c k)
  | peer (hctl : s.ctl = .idle) (hasks : s.closed = true → s.ops.close = true → Asks s inp) :
      Move s inp (s.invoke .peer .peer)
  | close (del : Bool) (hctl : s.ctl = .idle) (hclosed : s.closed = false)
      (hops : s.ops.close = true) (hcloses : inp.closes = true ∨ inp = .unref ∧ s.refs ≤ 1) :
      Move s inp (s.invoke .close (.close del))
  | closed (del : Bool)
      (hclose : s.ctl = .close del ∨ s.ctl = .idle ∧ (s.closed = true ∨ s.ops.close = false)) :
      Move s inp ({ s with closed := true, eof := true }.closeDone del)

section Moves

variable {s s' : Strm} {inp : Input}

theorem done_move (hctl : s.ctl.closes = false) (r : Res) (v : Value) :
    Move s inp (s.done (.returned r v)) := .returned r v s.refs hctl

theorem readNext_move (hctl : s.ctl.closes = false) (hgoing : s.Going) (hread : s.Reading) (want : ℤ)
    (buf : Bytes) (est : ℤ) : Move s inp (s.readNext want buf est) := by
  unfold readNext
  split_ifs
  · exact .read _ _ hctl fun hno => absurd hread hno
  · exact .read _ _ hctl fun hno => absurd hread hno
  · exact .invoke _ _ hctl hgoing nofun rfl (.inl hread)

theorem readMore_move (hctl : s.ctl.closes = false) (hgoing : s.Going) (hread : s.Reading) (want : ℤ)
    (buf : Bytes) : Move s inp (s.readMore want buf) := by
  unfold readMore
  split_ifs
  · exact .invoke _ _ hctl hgoing nofun rfl (.inl hread)
  · exact readNext_move hctl hgoing hread _ _ _

theorem read_move (hctl : s.ctl = .idle) (want : ℤ) : Move s inp (s.read want) := by
  have hnot : s.ctl.closes = false := by rw [hctl]; rfl
  unfold read
  split_ifs with heof hno
  · exact .read _ _ hnot fun _ => ⟨rfl, trivial⟩
  · exact .read _ _ hnot fun hn => absurd (.inr ⟨hctl, Bool.eq_false_iff.mpr heof⟩) hn
  · rw [not_or] at hno
    exact readMore_move hnot (.inr ⟨hctl, Bool.eq_false_iff.mpr hno.1⟩)
      (.inr ⟨hctl, Bool.eq_false_iff.mpr heof⟩) _ _

theorem onRead_move {want : ℤ} {buf : Bytes} (hctl : s.ctl = .read want buf)
    (data : Option (Bytes × Bool × Bool)) : Move s (.read data) (s.onRead want buf data) := by
  have hnot : s.ctl.closes = false := by rw [hctl]; rfl
  have hgoing : s.Going := .inl (by rw [hctl]; rfl)
  have hread : s.Reading := .inl (by rw [hctl]; rfl)
  unfold onRead
  split
  · exact .read _ _ hnot fun hno => absurd hread hno
  · dsimp only
    split_ifs with hends
    · exact .readEof _ want buf hctl hends
    · exact .read _ _ hnot fun hno => absurd hread hno
    · exact .read _ _ hnot fun hno => absurd hread hno
    · exact readMore_move hnot hgoing hread _ _

theorem writeMore_move (hctl : s.ctl.closes = false) (hgoing : s.Going) (rest : Bytes) (out : ℕ) :
    Move s inp (s.writeMore rest out) := by
  unfold writeMore
  split_ifs
  · exact done_move hctl _ _
  · exact .invoke _ _ hctl hgoing nofun rfl (.inr ⟨rfl, nofun⟩)

theorem write_move (hctl : s.ctl = .idle) (buf : Bytes) : Move s inp (s.write buf) := by
  have hnot : s.ctl.closes = false := by rw [hctl]; rfl
  unfold write
  split_ifs with hno
  · exact done_move hnot _ _
  · rw [not_or] at hno
    exact writeMore_move hnot (.inr ⟨hctl, Bool.eq_false_iff.mpr hno.1⟩) _ _

theorem onWrite_move (hctl : s.ctl.closes = false) (hgoing : s.Going) (rest : Bytes) (out : ℕ)
    (chunk : ℤ) : Move s inp (s.onWrite rest out chunk) := by
  unfold onWrite
  split_ifs
  · exact done_move hctl _ _
  · exact done_move hctl _ _
  · exact writeMore_move hctl hgoing _ _

theorem accept_move (hctl : s.ctl = .idle) : Move s inp s.accept := by
  have hnot : s.ctl.closes = false := by rw [hctl]; rfl
  unfold accept
  split_ifs with hno
  · exact done_move hnot _ _
  · rw [not_or] at hno
    exact .invoke _ _ hnot (.inr ⟨hctl, Bool.eq_false_iff.mpr hno.1⟩) nofun rfl (.inr ⟨rfl, nofun⟩)

theorem onAccept_move (hctl : s.ctl.closes = false) (hgoing : s.Going) (os : List Addr)
    (o : Option (Option Addr)) : Move s inp (s.onAccept os o) := by
  unfold onAccept
  split
  · exact done_move hctl _ _
  · exact done_move hctl _ _
  · exact .invoke _ _ hctl hgoing nofun rfl (.inr ⟨rfl, nofun⟩)

theorem fd_move (hctl : s.ctl = .idle) : Move s inp s.fd := by
  have hnot : s.ctl.closes = false := by rw [hctl]; rfl
  unfold fd
  split_ifs with hno
  · exact done_move hnot _ _
  · exact .invoke _ _ hnot (.inr ⟨hctl, Bool.eq_false_iff.mpr hno⟩) nofun rfl (.inr ⟨rfl, nofun⟩)

theorem close_move (hboth : s.closed = true → s.eof = true) (hctl : s.ctl = .idle)
    (hcloses : inp.closes = true ∨ inp = .unref ∧ s.refs ≤ 1) (del : Bool) : Move s inp (s.close del) := by
  unfold close
  split_ifs with hclosed hops
  · have hmove : Move s inp ({ s with closed := true, eof := true }.closeDone del) :=
      .closed del (.inr ⟨hctl, .inl hclosed⟩)
    have heq : ({ s with closed := true, eof := true } : Strm) = s := by
      rcases s with ⟨ops, closed, eof, refs, ctl, trace⟩
      obtain rfl : closed = true := hclosed
      obtain rfl : eof = true := hboth rfl
      rfl
    rwa [heq] at hmove
  · exact .close del hctl (Bool.eq_false_iff.mpr hclosed) hops hcloses
  · exact .closed del (.inr ⟨hctl, .inr (Bool.eq_false_iff.mpr hops)⟩)

/-- The procedure of a stream. -/
theorem proc_move (hboth : s.closed = true → s.eof = true) (hctl : s.ctl = .idle) (op : Bytes)
    (arg : Option Arg) : Move s (.call op arg) (s.proc op arg) := by
  have hnot : s.ctl.closes = false := by rw [hctl]; rfl
  unfold proc
  split
  · unfold proc₂
    split_ifs with hread haccept hpeer hfd hclose
    · exact read_move hctl _
    · exact accept_move hctl
    · unfold peer
      split_ifs with hops
      · exact .peer hctl fun hclosed hclose => ⟨hclosed, hclose, hops, op, rfl, hpeer⟩
      · exact done_move hnot _ _
    · exact fd_move hctl
    · have hcloses : Input.closes (.call op none) = true := decide_eq_true hclose
      exact close_move hboth hctl (.inl hcloses) false
    · exact done_move hnot _ _
  · unfold proc₃
    split_ifs
    · split
      · split_ifs
        · exact done_move hnot _ _
        · exact read_move hctl _
      · exact done_move hnot _ _
    · split
      · exact write_move hctl _
      · exact done_move hnot _ _
    · split
      · exact write_move hctl _
      · exact done_move hnot _ _
    · exact done_move hnot _ _

theorem step_move (hboth : s.closed = true → s.eof = true) (h : s.step inp = some s') :
    Move s inp s' := by
  unfold step at h
  split at h <;> try contradiction
  · rename_i op arg hctl
    obtain rfl := Option.some.inj h
    exact proc_move hboth hctl op arg
  · obtain rfl := Option.some.inj h
    exact .count _
  · rename_i hctl
    obtain rfl := Option.some.inj h
    unfold unref
    split_ifs with hlast
    · exact close_move hboth hctl (.inr ⟨rfl, hlast⟩) true
    · exact .count _
  · rename_i want buf len hctl
    obtain rfl := Option.some.inj h
    exact readNext_move (by rw [hctl]; rfl) (.inl (by rw [hctl]; rfl)) (.inl (by rw [hctl]; rfl)) _ _ _
  · rename_i want buf data hctl
    obtain rfl := Option.some.inj h
    exact onRead_move hctl data
  · rename_i hctl
    obtain rfl := Option.some.inj h
    exact onWrite_move (by rw [hctl]; rfl) (.inl (by rw [hctl]; rfl)) _ _ _
  · rename_i hctl
    obtain rfl := Option.some.inj h
    exact onAccept_move (by rw [hctl]; rfl) (.inl (by rw [hctl]; rfl)) _ _
  · rename_i o hctl
    obtain rfl := Option.some.inj h
    unfold onPeer
    split
    · exact done_move (by rw [hctl]; rfl) _ _
    · exact done_move (by rw [hctl]; rfl) _ _
  · rename_i hctl
    obtain rfl := Option.some.inj h
    exact .returned _ _ _ (by rw [hctl]; rfl)
  · rename_i hctl
    obtain rfl := Option.some.inj h
    exact .closed _ (.inl hctl)

/-- Nothing but a call and a change of the references happens while no callback was called. -/
theorem step_of_not_waits (hctl : s.ctl.waits = false) (h : s.step inp = some s') :
    inp.calls = true ∨ inp = .ref ∨ inp = .unref := by
  unfold step at h
  split at h <;> try contradiction
  · exact .inl rfl
  · exact .inr (.inl rfl)
  · exact .inr (.inr rfl)
  all_goals
    rename_i hk
    rw [hk] at hctl
    cases hctl

theorem Move.ops (h : Move s inp s') : s'.ops = s.ops := by
  cases h with
  | closed del _ => cases del <;> rfl
  | _ => rfl

theorem Move.stays_closed (h : Move s inp s') (hclosed : s.closed = true) : s'.closed = true := by
  cases h with
  | closed del _ => cases del <;> rfl
  | _ => exact hclosed

/-- A stream that is closed is at its end. -/
theorem Move.both (h : Move s inp s') (hboth : s.closed = true → s.eof = true) :
    s'.closed = true → s'.eof = true := by
  cases h with
  | readEof => exact fun _ => rfl
  | closed del _ => cases del <;> exact fun _ => rfl
  | _ => exact hboth

end Moves

end Strm

end B6b
