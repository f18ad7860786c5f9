/-
# Semaphores

`sem` makes a stream over an `eventfd` with tokens. `read` takes one, and returns `1`, or nothing if
there is none. `write` puts as many back as the numeral says that it is given. But the size of the
buffer for the `1` comes from the script: `read 1` has no room for the terminator, so it fails, and
the token that it has taken from the kernel is lost.

No other token is lost, and none comes from nowhere: in every state of every run, the tokens that are
left, those that reads have returned and those that reads have lost are the first ones and those that
writes have put back (`sem_conserves`). So where fibers put back only what they have taken, there are
never more tokens out than there were, and every `write` succeeds (`sem_excludes`).

Key definitions: `strtoull`, `fdReadU64`, `fdWriteU64`, `step`, `Conserved`, `Fair`.
-/
import B6b.Channel
import B6b.Taking
import B6b.Numerals

namespace B6b

namespace Strm

namespace Sem

open Channel Taking Numerals

/-! ### Numerals -/

/-- `isspace`, in the C locale. -/
def cspace (c : UInt8) : Bool := c == 0x20 || (0x09 ≤ c && c ≤ 0x0d)

/-- The value of a digit, or of a letter as a digit. -/
def digit (c : UInt8) : ℕ :=
  if 0x30 ≤ c ∧ c ≤ 0x39 then c.toNat - 0x30
  else if 0x61 ≤ c ∧ c ≤ 0x7a then c.toNat - 0x61 + 10
  else if 0x41 ≤ c ∧ c ≤ 0x5a then c.toNat - 0x41 + 10
  else 36

/-- The digits in base `b` at the front of a text. -/
def digitsIn (b : ℕ) (s : Bytes) : Bytes := s.takeWhile fun c => digit c < b

def valueIn (b : ℕ) (s : Bytes) : ℕ := s.foldl (fun n c => n * b + digit c) 0

/-- A sign, and what is behind it. -/
def signed : Bytes → Bool × Bytes
  | 0x2d :: t => (true, t)
  | 0x2b :: t => (false, t)
  | t => (false, t)

/-- The base that a text tells by its first bytes, and its digits with what is behind them. -/
def based : Bytes → ℕ × Bytes
  | 0x30 :: t =>
    match t with
    | x :: t' =>
      if (x = 0x78 ∨ x = 0x58) ∧ digitsIn 16 t' ≠ [] then (16, t') else (8, 0x30 :: t)
    | [] => (8, [0x30])
  | t => (10, t)

/-- `strtoull(s, &end, 0)`: the number, how many bytes have been read, and whether `errno` was set. -/
def strtoull (s : Bytes) : ℕ × ℕ × Bool :=
  let (neg, t) := signed (s.dropWhile cspace)
  let (b, t) := based t
  let ds := digitsIn b t
  if ds = [] then (0, 0, false)
  else
    let stop := s.length - t.length + ds.length
    let v := valueIn b ds
    if v ≥ 2 ^ 64 then (2 ^ 64 - 1, stop, true)
    else (if neg then (2 ^ 64 - v) % 2 ^ 64 else v, stop, false)

/-! ### The kernel -/

/-- The counter of an `eventfd`. -/
abbrev Counter := Fin (2 ^ 64 - 1)

/-- `write` to the `eventfd`: `EAGAIN` if the counter would become too large, `EINVAL` for `2 ^ 64 - 1`. -/
def Counter.post (c : Counter) (u : ℕ) : Option Counter :=
  if h : c.val + u < 2 ^ 64 - 1 then some ⟨c.val + u, h⟩ else none

/-- `read` from the `eventfd`, which is a semaphore: `EAGAIN`, or the number 1. -/
def Counter.take (c : Counter) : Option Counter :=
  if c.val = 0 then none else some ⟨c.val - 1, Nat.lt_of_le_of_lt (Nat.sub_le _ _) c.isLt⟩

/-- `b6b_fd_read_u64` -/
def fdReadU64 (c : Counter) (len : ℤ) : Option (Bytes × Bool × Bool) × Counter :=
  match c.take with
  | none => (some ([], false, true), c)
  | some c =>
    let s := fmtU64 1
    if s.length ≥ len then (none, c) else (some (s, false, false), c)

/-- `b6b_fd_write_u64` -/
def fdWriteU64 (c : Counter) (buf : Bytes) : ℤ × Counter :=
  let (u, stop, range) := strtoull (cstr buf)
  if range ∨ stop = 0 ∨ stop ≠ (cstr buf).length then (-1, c)
  else
    match c.post u with
    | some c => (buf.length, c)
    | none => (-1, c)

/-! ### The stream -/

/-- `b6b_sem_ops` -/
def semOps : StrmOps := ⟨true, true, true, false, false, true⟩

/-- A semaphore: its descriptor and its stream, and the tokens that are left. -/
structure Semaphore where
  fd : ℤ
  strm : End
  count : Counter

/-- `b6b_sem_proc_sem`, on the descriptor `fd`. The number is cast to `unsigned int`. -/
def semProcSem (fd n : ℤ) : Option Semaphore :=
  if n > 2 ^ 32 - 1 then none
  else some ⟨fd, ⟨.new semOps, none, []⟩, ⟨(n % 2 ^ 32).toNat, by omega⟩⟩

/-- What the callback returns, with the tokens that are left. -/
def answer (s : Semaphore) : Callback → Option (Input × Counter)
  | .peeksz => some (.peeksz u64Size, s.count)
  | .read len => some (.read (fdReadU64 s.count len).1, (fdReadU64 s.count len).2)
  | .write buf => some (.write (fdWriteU64 s.count buf).1, (fdWriteU64 s.count buf).2)
  | .fd => some (.fd s.fd, s.count)
  | .close => some (.close, s.count)
  | .peer | .accept => none

/-- A fiber calls a procedure of the semaphore, or takes or drops a reference to it; or the callback
that it waits for returns. -/
inductive Act
  | call (op : Bytes) (arg : Option Arg)
  | ref
  | unref
  | answer

/-- One step of the semaphore. -/
def step (s : Semaphore) : Act → Option Semaphore
  | .call op arg => (s.strm.step (.call op arg)).map fun x => { s with strm := x }
  | .ref => (s.strm.step .ref).map fun x => { s with strm := x }
  | .unref => (s.strm.step .unref).map fun x => { s with strm := x }
  | .answer => do
    let k ← asked s.strm.strm
    let (inp, c) ← answer s k
    let x ← s.strm.step inp
    pure { s with strm := x, count := c }

/-! ### The tokens -/

/-- A call that has returned, with its result. -/
abbrev Return := (Bytes × Option Arg) × Event

/-- How many bytes a call is to read. -/
def wanted : Bytes × Option Arg → Option ℤ
  | (op, arg) =>
    if cstr op = bytes "read" then
      match arg with
      | some arg => arg.int
      | none => some (ssizeMax - 1)
    else none

/-- The tokens that a read has returned. -/
def taken (p : Return) : ℕ :=
  match p.2 with
  | .read .ok (.str b) _ => if b = [] then 0 else 1
  | _ => 0

/-- The tokens that a read has lost. -/
def lost (p : Return) : ℕ :=
  match p.2 with
  | .read .err _ _ => 1
  | _ => 0

/-- The tokens that a write has put back. -/
def posted (p : Return) : ℕ :=
  match payload p.1, p.2 with
  | some buf, .returned .ok _ => if buf = [] then 0 else (strtoull (cstr buf)).1
  | _, _ => 0

/-- The sum over the calls that have returned. -/
def total (f : Return → ℕ) (log : List Return) : ℕ := (log.map f).sum

/-- A semaphore of `n` tokens keeps their number, and a read that finds none was told the truth. -/
structure Conserved (n : ℕ) (s : Semaphore) : Prop where
  count : s.count.val + total taken s.strm.log + total lost s.strm.log = n + total posted s.strm.log
  empty : ∀ log call eof, log ++ [(call, .read .ok (.str []) eof)] <+: s.strm.log →
    total taken log + total lost log = n + total posted log

/-! ### What a call does -/

variable {s s' : Strm} {call : Bytes × Option Arg}

/-- What the stream does on a call, up to the first callback: it returns without a token, or goes on. -/
inductive Starts (call : Bytes × Option Arg) (s : Strm) : Strm → Prop
  | done (ev : Event) (htaken : taken (call, ev) = 0) (hlost : lost (call, ev) = 0)
      (hposted : posted (call, ev) = 0) (hempty : ∀ eof, ev ≠ .read .ok (.str []) eof)
      (hwrites : ∀ buf, payload call = some buf → ev = .returned .ok (.int buf.length) ∨ s.closed = true) :
      Starts call s (s.done ev)
  | read (want : ℤ) (hp : payload call = none) (hw : wanted call = some want) (hpos : 0 < want) :
      Starts call s (s.invoke .peeksz (.peeksz want []))
  | write (buf : Bytes) (hp : payload call = some buf) (hne : buf ≠ []) :
      Starts call s (s.invoke (.write buf) (.write buf 0))
  | waits (k : Callback) (c : Ctl) (hp : payload call = none) (hc : Idly c) : Starts call s (s.invoke k c)

/-- A procedure that is no write. -/
theorem starts_returned (r : Res) (v : Value) (hp : payload call = none) :
    Starts call s (s.done (.returned r v)) := by
  refine .done _ rfl rfl ?_ nofun fun buf hbuf => nomatch hp.symm.trans hbuf
  unfold posted
  rw [hp]

theorem starts_read (hops : s.ops = semOps) (heof : s.closed = true → s.eof = true) (want : ℤ)
    (hp : payload call = none) (hw : wanted call = some want) (hpos : 0 < want) :
    Starts call s (s.read want) := by
  unfold Strm.read
  have hread : s.ops.read = true := by rw [hops]; rfl
  have hpeek : s.ops.peeksz = true := by rw [hops]; rfl
  split_ifs with h₁ h₂
  · refine .done _ rfl rfl ?_ nofun fun buf hbuf => nomatch hp.symm.trans hbuf
    unfold posted
    rw [hp]
  · rcases h₂ with h₂ | h₂
    · exact absurd (heof h₂) h₁
    · exact absurd hread h₂
  · unfold readMore
    rw [if_pos hpeek]
    exact .read want hp hw hpos

theorem starts_write (hops : s.ops = semOps) (buf : Bytes) (hp : payload call = some buf) :
    Starts call s (s.write buf) := by
  have hops' : s.ops.write = true := by rw [hops]; rfl
  unfold Strm.write
  split_ifs with hclosed
  · refine .done _ rfl rfl ?_ nofun fun _ _ => .inr (hclosed.resolve_right fun h => h hops')
    unfold posted
    rw [hp]
  · unfold writeMore
    split_ifs with hnil
    · refine .done _ rfl rfl ?_ nofun fun buf' hbuf => .inl ?_
      · unfold posted
        rw [hp]
        exact if_pos hnil
      · obtain rfl := Option.some.inj (hp.symm.trans hbuf)
        rw [hnil]
        rfl
    · exact .write buf hp hnil

theorem starts_proc (hops : s.ops = semOps) (heof : s.closed = true → s.eof = true) (op : Bytes)
    (arg : Option Arg) : Starts (op, arg) s (s.proc op arg) := by
  rcases arg with _ | arg
  · have hp : payload (op, none) = none := rfl
    unfold proc proc₂
    dsimp only
    split_ifs with hread
    · exact starts_read hops heof _ hp (if_pos hread) (by decide)
    · unfold Strm.accept
      rw [if_pos (.inr (by rw [hops]; exact Bool.false_ne_true))]
      exact starts_returned _ _ hp
    · unfold Strm.peer
      rw [if_neg (by rw [hops]; exact Bool.false_ne_true)]
      exact starts_returned _ _ hp
    · unfold Strm.fd
      split_ifs
      · exact starts_returned _ _ hp
      · exact .waits _ _ hp trivial
    · unfold Strm.close
      rw [if_pos (show s.ops.close = true by rw [hops]; rfl)]
      split_ifs
      · exact starts_returned _ _ hp
      · exact .waits _ _ hp trivial
    · exact starts_returned _ _ hp
  · unfold proc proc₃
    dsimp only
    split_ifs with hread hwrite hwriteln
    · have hp : payload (op, some arg) = none := if_pos hread
      cases hint : arg.int with
      | none => exact starts_returned _ _ hp
      | some want =>
        dsimp only
        split_ifs with hbad
        · exact starts_returned _ _ hp
        · exact starts_read hops heof want hp ((if_pos hread).trans hint) (not_le.mp (not_or.mp hbad).2)
    · have hp : payload (op, some arg) = arg.str := (if_neg hread).trans (if_pos hwrite)
      rcases hs : arg.str with _ | buf
      · exact starts_returned _ _ (hp.trans hs)
      · exact starts_write hops buf (hp.trans hs)
    · have hp : payload (op, some arg) = arg.str.map (· ++ [0x0a]) :=
        (if_neg hread).trans ((if_neg hwrite).trans (if_pos hwriteln))
      rcases hs : arg.str with _ | buf
      · exact starts_returned _ _ (by rw [hp, hs]; rfl)
      · exact starts_write hops _ (by rw [hp, hs]; rfl)
    · have hp : payload (op, some arg) = none :=
        (if_neg hread).trans ((if_neg hwrite).trans (if_neg hwriteln))
      exact starts_returned _ _ hp

/-! ### The tokens of a step -/

/-- Where the call that is running stands: its callback has not been answered yet. -/
inductive Stands (x : End) : Prop
  | rests (hctl : x.strm.ctl = .idle ∧ x.cur = none ∨ x.strm.ctl = .freed)
  | peeks (call : Bytes × Option Arg) (want : ℤ) (hc : x.cur = some call) (hp : payload call = none)
      (hw : wanted call = some want) (hpos : 0 < want) (hctl : x.strm.ctl = .peeksz want [])
      (hasked : asked x.strm = some .peeksz)
  | reads (call : Bytes × Option Arg) (want : ℤ) (hc : x.cur = some call) (hp : payload call = none)
      (hw : wanted call = some want) (hpos : 0 < want) (hctl : x.strm.ctl = .read want [])
      (hasked : asked x.strm = some (.read (min u64Size want)))
  | writes (call : Bytes × Option Arg) (buf : Bytes) (hc : x.cur = some call)
      (hp : payload call = some buf) (hne : buf ≠ []) (hctl : x.strm.ctl = .write buf 0)
      (hasked : asked x.strm = some (.write buf))
  | waits (hp : ∀ call, x.cur = some call → payload call = none) (hctl : Idly x.strm.ctl)

/-- What becomes of the tokens that are left, `c`, when the call `p` returns: a token is lost only where
one byte was wanted, and a write puts nothing back only if the stream is closed or its callback fails. -/
structure Returns (x : End) (c c' : Counter) (p : Return) : Prop where
  count : c'.val + taken p + lost p = c.val + posted p
  empty : ∀ eof, p.2 = .read .ok (.str []) eof → c.val = 0
  loses : lost p = 0 ∨ x.cur = some p.1 ∧ wanted p.1 = some 1
  writes : ∀ buf, payload p.1 = some buf → p.2 = .returned .ok (.int buf.length) ∨
    x.strm.closed = true ∨ x.cur = some p.1 ∧ (fdWriteU64 c buf).1 < 0
  posts : posted p = 0 ∨ x.cur = some p.1

/-- What a step makes of the tokens that are left, and of what has returned. -/
inductive Moved (x : End) (c c' : Counter) : List Return → Prop
  | quiet (hc : c' = c) : Moved x c c' x.log
  | returned (p : Return) (hp : Returns x c c' p) : Moved x c c' (x.log ++ [p])

/-- The invariant of a semaphore of `n` tokens. -/
structure Inv (n : ℕ) (s : Semaphore) : Prop where
  ops : s.strm.strm.ops = semOps
  both : s.strm.strm.closed = true → s.strm.strm.eof = true
  stands : Stands s.strm
  conserved : Conserved n s

theorem total_concat (f : Return → ℕ) (log : List Return) (p : Return) :
    total f (log ++ [p]) = total f log + f p := by
  unfold total
  rw [List.map_append, List.sum_append, List.map_singleton, List.sum_singleton]

theorem Conserved.moved {n : ℕ} {s s' : Semaphore} (h : Conserved n s)
    (hm : Moved s.strm s.count s'.count s'.strm.log) : Conserved n s' := by
  generalize hlog : s'.strm.log = log' at hm
  cases hm with
  | quiet hc => exact ⟨by rw [hc, hlog]; exact h.count, by rw [hlog]; exact h.empty⟩
  | returned p hp =>
    have hcount := h.count
    have hc := hp.count
    refine ⟨?_, fun log call eof hpre => ?_⟩
    · rw [hlog, total_concat, total_concat, total_concat]
      omega
    · rw [hlog] at hpre
      rcases List.prefix_concat_iff.mp hpre with heq | hpre
      · obtain ⟨rfl, hlast⟩ := List.append_inj' heq rfl
        have hzero := hp.empty eof (congrArg Prod.snd (List.cons.inj hlast).1).symm
        omega
      · exact h.empty log call eof hpre

/-! ### Steps -/

variable {x x' : End} {inp : Input} {c c' : Counter}

/-- What the stream and its counter do in a step of the end. -/
def Goes (x : End) (inp : Input) (c c' : Counter) (s' : Strm) : Prop :=
  ∀ x', x.step inp = some x' → x'.strm = s' ∧ Stands x' ∧ Moved x c c' x'.log

/-- The procedure waits. -/
theorem goes_busy (hs : x.strm.step inp = some s') (hctl : s'.ctl ≠ .idle ∨ x.curNext inp = none)
    (hx : Stands ⟨s', x.curNext inp, x.log⟩) : Goes x inp c c s' := by
  intro x' h
  obtain rfl := Option.some.inj ((step_of_busy hs hctl).symm.trans h)
  exact ⟨rfl, hx, .quiet rfl⟩

/-- The procedure returns. -/
theorem goes_idle {v : Event} (hs : x.strm.step inp = some s') (hc : x.curNext inp = some call)
    (hctl : s'.ctl = .idle) (htrace : s'.trace = x.strm.trace ++ [v])
    (hp : Returns x c c' (call, v)) : Goes x inp c c' s' := by
  intro x' h
  have hlast : s'.trace.getLast? = some v := by rw [htrace, List.getLast?_concat]
  obtain rfl := Option.some.inj ((step_of_idle hs hc hctl hlast).symm.trans h)
  exact ⟨rfl, .rests (.inl ⟨hctl, rfl⟩), .returned _ hp⟩

theorem goes_starts (hs : x.strm.step inp = some s') (hc : x.curNext inp = some call)
    (h : Starts call x.strm s') : Goes x inp c c s' := by
  cases h with
  | done ev htaken hlost hposted hempty hwrites =>
    refine goes_idle hs hc rfl rfl ⟨by rw [htaken, hlost, hposted], fun eof hev => ?_, .inl hlost,
      fun buf hbuf => (hwrites buf hbuf).imp_right .inl, .inl hposted⟩
    exact absurd hev (hempty eof)
  | read want hp hw hpos =>
    exact goes_busy hs (.inl nofun) (.peeks call want hc hp hw hpos rfl (asked_invoke _ _ _))
  | write buf hp hne =>
    exact goes_busy hs (.inl nofun) (.writes call buf hc hp hne rfl (asked_invoke _ _ _))
  | waits k n hp hn =>
    have hne : n ≠ .idle := by rintro rfl; exact hn
    refine goes_busy hs (.inl hne) (.waits (fun call' hc' => ?_) hn)
    obtain rfl := Option.some.inj (hc.symm.trans hc')
    exact hp

theorem take_eq_none {c : Counter} (h : c.take = none) : c.val = 0 := by
  unfold Counter.take at h
  split at h
  · next hc => exact hc
  · cases h

theorem take_eq_some {c c' : Counter} (h : c.take = some c') : c'.val + 1 = c.val := by
  unfold Counter.take at h
  split at h
  · cases h
  · next hc =>
    obtain rfl := Option.some.inj h
    exact Nat.sub_add_cancel (Nat.pos_of_ne_zero hc)

theorem post_eq_some {c c' : Counter} {u : ℕ} (h : c.post u = some c') : c'.val = c.val + u := by
  unfold Counter.post at h
  split at h
  · obtain rfl := Option.some.inj h
    rfl
  · cases h

theorem posted_read (call : Bytes × Option Arg) (r : Res) (v : Value) (eof : Bool) :
    posted (call, .read r v eof) = 0 := by
  unfold posted
  cases payload call <;> rfl

/-- `b6b_fd_read_u64` has been called: a token is returned, or lost, or there was none. -/
theorem goes_read (hc : x.cur = some call) (hp : payload call = none) {want : ℤ}
    (hw : wanted call = some want) (hpos : 0 < want) (hctl : x.strm.ctl = .read want []) :
    ∃ s', x.strm.step (.read (fdReadU64 c (min u64Size want)).1) = some s' ∧
      Goes x (.read (fdReadU64 c (min u64Size want)).1) c (fdReadU64 c (min u64Size want)).2 s' := by
  have hstep : ∀ data, x.strm.step (.read data) = some (x.strm.onRead want [] data) := by
    intro data
    unfold Strm.step
    rw [hctl]
  have hwrites : ∀ {ev : Event} {c : Counter} (buf : Bytes), payload call = some buf →
      ev = .returned .ok (.int buf.length) ∨ x.strm.closed = true ∨ x.cur = some call ∧ (fdWriteU64 c buf).1 < 0 :=
    fun buf hbuf => nomatch hp.symm.trans hbuf
  refine ⟨_, hstep _, ?_⟩
  unfold fdReadU64
  cases htake : c.take with
  | none =>
    have hnone : x.strm.onRead want [] (some ([], false, true)) = x.strm.done (.read .ok (.str []) false) :=
      rfl
    refine goes_idle (v := .read .ok (.str []) false) (hstep _) hc ?_ ?_
      ⟨?_, fun _ _ => take_eq_none htake, .inl rfl, hwrites, .inr hc⟩
    · rw [hnone]; rfl
    · rw [hnone]; rfl
    · rw [posted_read]; rfl
  | some c' =>
    have hone := take_eq_some htake
    dsimp only
    split_ifs with hlen
    · have hshort : want = 1 := by
        have hlen' : min (u64Size : ℤ) want ≤ 1 := hlen
        unfold u64Size at hlen'
        omega
      refine goes_idle (v := .read .err .null false) (hstep _) hc rfl rfl
        ⟨?_, nofun, .inr ⟨hc, hshort ▸ hw⟩, hwrites, .inr hc⟩
      rw [posted_read]
      exact hone
    · have hsome : x.strm.onRead want [] (some (fmtU64 1, false, false)) =
          x.strm.done (.read .ok (.str (fmtU64 1)) false) := rfl
      refine goes_idle (v := .read .ok (.str (fmtU64 1)) false) (hstep _) hc ?_ ?_
        ⟨?_, fun _ h => ?_, .inl rfl, hwrites, .inr hc⟩
      · rw [hsome]; rfl
      · rw [hsome]; rfl
      · rw [posted_read]
        exact hone
      · cases h

/-- `b6b_fd_write_u64` has been called: it has put back what the numeral says, or nothing. -/
theorem goes_write (hc : x.cur = some call) {buf : Bytes} (hp : payload call = some buf) (hne : buf ≠ [])
    (hctl : x.strm.ctl = .write buf 0) :
    ∃ s', x.strm.step (.write (fdWriteU64 c buf).1) = some s' ∧
      Goes x (.write (fdWriteU64 c buf).1) c (fdWriteU64 c buf).2 s' := by
  have hstep : ∀ chunk, x.strm.step (.write chunk) = some (x.strm.onWrite buf 0 chunk) := by
    intro chunk
    unfold Strm.step
    rw [hctl]
  have hfails (hneg : (fdWriteU64 c buf).1 < 0) : Goes x (.write (-1)) c c (x.strm.onWrite buf 0 (-1)) := by
    refine goes_idle (v := .returned .err .null) (hstep _) hc rfl rfl
      ⟨?_, nofun, .inl rfl, fun buf' hbuf => ?_, .inr hc⟩
    · unfold posted
      rw [hp]
      rfl
    · obtain rfl := Option.some.inj (hp.symm.trans hbuf)
      exact .inr (.inr ⟨hc, hneg⟩)
  refine ⟨_, hstep _, ?_⟩
  generalize hw : fdWriteU64 c buf = w at hfails
  unfold fdWriteU64 at hw
  dsimp only at hw
  split_ifs at hw
  · subst hw
    exact hfails (Int.negSucc_lt_zero 0)
  · cases hpost : c.post (strtoull (cstr buf)).1 with
    | none =>
      rw [hpost] at hw
      subst hw
      exact hfails (Int.negSucc_lt_zero 0)
    | some c' =>
      rw [hpost] at hw
      subst hw
      have hpos : 0 < buf.length := List.length_pos_iff.mpr hne
      have hall : x.strm.onWrite buf 0 buf.length = x.strm.done (.returned .ok (.int buf.length)) := by
        unfold onWrite writeMore
        rw [if_neg (by omega), if_neg (by omega), Int.toNat_natCast, List.drop_length, if_pos rfl, Nat.zero_add]
      refine goes_idle (v := .returned .ok (.int buf.length)) (hstep _) hc ?_ ?_
        ⟨?_, nofun, .inl rfl, fun buf' hbuf => ?_, .inr hc⟩
      · rw [hall]; rfl
      · rw [hall]; rfl
      · unfold posted
        rw [hp]
        dsimp only
        rw [if_neg hne, ← post_eq_some hpost]
        rfl
      · obtain rfl := Option.some.inj (hp.symm.trans hbuf)
        exact .inl rfl

/-- A callback has returned that neither reads nor writes. -/
theorem goes_waits (hp : ∀ call, x.cur = some call → payload call = none) (hcn : x.curNext inp = x.cur)
    (hs : x.strm.step inp = some s') {r : Res} {v : Value} (hctl : s'.ctl = .idle)
    (htrace : s'.trace = x.strm.trace ++ [.returned r v]) : Goes x inp c c s' := by
  cases hc : x.cur with
  | none =>
    have hnone : x.curNext inp = none := hcn.trans hc
    exact goes_busy hs (.inr hnone) (.rests (.inl ⟨hctl, hnone⟩))
  | some call =>
    have hposted : posted (call, .returned r v) = 0 := by
      unfold posted
      rw [hp call hc]
    refine goes_idle hs (hcn.trans hc) hctl htrace ⟨?_, nofun, .inl rfl, fun buf hbuf => ?_, .inl hposted⟩
    · rw [hposted]
      rfl
    · cases (hp call hc).symm.trans hbuf

theorem step_call {op : Bytes} {arg : Option Arg} (h : s.step (.call op arg) = some s') :
    s.ctl = .idle ∧ s' = s.proc op arg := by
  unfold Strm.step at h
  cases hctl : s.ctl with
  | idle =>
    rw [hctl] at h
    exact ⟨rfl, (Option.some.inj h).symm⟩
  | _ =>
    rw [hctl] at h
    cases h

theorem step_ref (h : s.step .ref = some s') : s.ctl = .idle ∧ s' = { s with refs := s.refs + 1 } := by
  unfold Strm.step at h
  cases hctl : s.ctl with
  | idle =>
    rw [hctl] at h
    exact ⟨rfl, (Option.some.inj h).symm⟩
  | _ =>
    rw [hctl] at h
    cases h

theorem step_unref (h : s.step .unref = some s') : s.ctl = .idle ∧ s' = s.unref := by
  unfold Strm.step at h
  cases hctl : s.ctl with
  | idle =>
    rw [hctl] at h
    exact ⟨rfl, (Option.some.inj h).symm⟩
  | _ =>
    rw [hctl] at h
    cases h

variable {n : ℕ} {m m' : Semaphore}

theorem Stands.cur_none (h : Stands x) (hctl : x.strm.ctl = .idle) : x.cur = none := by
  cases h with
  | rests h => exact h.elim And.right fun h => nomatch hctl.symm.trans h
  | peeks _ _ _ _ _ _ h | reads _ _ _ _ _ _ h | writes _ _ _ _ _ h => cases hctl.symm.trans h
  | waits _ h =>
    rw [hctl] at h
    exact h.elim

/-- The end of the object closes its stream, which waits for its callback or is gone. -/
theorem goes_unref (h : Inv n m) {s' : Strm} (hs : m.strm.strm.step .unref = some s') :
    Goes m.strm .unref c c s' := by
  obtain ⟨hctl, rfl⟩ := step_unref hs
  have hcur : m.strm.curNext .unref = none := h.stands.cur_none hctl
  refine goes_busy hs (.inr hcur) ?_
  rw [hcur]
  unfold unref Strm.close
  split_ifs
  · exact .rests (.inr rfl)
  · exact .waits nofun trivial
  · exact .rests (.inr rfl)
  · exact .rests (.inl ⟨hctl, rfl⟩)

/-- What answers a callback of a semaphore. -/
def Answers : Input → Prop
  | .call _ _ | .ref | .unref | .accept _ | .peer _ => False
  | _ => True

theorem answers_of {k : Callback} (h : answer m k = some (inp, c)) : Answers inp := by
  cases k with
  | peer | accept => cases h
  | _ =>
    obtain ⟨rfl, -⟩ := Prod.mk.inj (Option.some.inj h)
    trivial

/-- A procedure that waits for `fd` or `close` goes on. -/
theorem goes_waiting (hi : Answers inp) (hp : ∀ call, x.cur = some call → payload call = none)
    (hidly : Idly x.strm.ctl) (hs : x.strm.step inp = some s') : Goes x inp c c s' := by
  have hs' := hs
  unfold Strm.step at hs'
  cases hctl : x.strm.ctl with
  | accept os =>
    rw [hctl] at hs'
    cases inp with
    | accept o => exact hi.elim
    | _ => cases hs'
  | peer =>
    rw [hctl] at hs'
    cases inp with
    | peer o => exact hi.elim
    | _ => cases hs'
  | fd =>
    rw [hctl] at hs'
    cases inp with
    | fd n =>
      obtain rfl := Option.some.inj hs'
      exact goes_waits hp rfl hs rfl rfl
    | _ => cases hs'
  | close del =>
    rw [hctl] at hs'
    cases inp with
    | close =>
      obtain rfl := Option.some.inj hs'
      cases del with
      | true => exact goes_busy hs (.inl nofun) (.rests (.inr rfl))
      | false => exact goes_waits hp rfl hs rfl rfl
    | _ => cases hs'
  | _ =>
    rw [hctl] at hidly
    exact hidly.elim

/-- The callback that the stream waits for returns. -/
theorem goes_answer (h : Inv n m) {k : Callback} (hk : asked m.strm.strm = some k)
    (ha : answer m k = some (inp, c)) {s' : Strm} (hs : m.strm.strm.step inp = some s') :
    Goes m.strm inp m.count c s' := by
  have hi := answers_of ha
  cases h.stands with
  | rests hctl =>
    unfold Strm.step at hs
    rcases hctl with ⟨hctl, -⟩ | hctl
    · rw [hctl] at hs
      cases inp with
      | call | ref | unref => exact hi.elim
      | _ => cases hs
    · rw [hctl] at hs
      cases hs
  | peeks call want hc hp hw hpos hctl hasked =>
    obtain rfl := Option.some.inj (hk.symm.trans hasked)
    obtain ⟨rfl, rfl⟩ := Prod.mk.inj (Option.some.inj ha)
    have hs' := hs
    unfold Strm.step at hs'
    rw [hctl] at hs'
    obtain rfl := Option.some.inj hs'
    have hread : m.strm.strm.readNext want [] u64Size =
        m.strm.strm.invoke (.read (min u64Size want)) (.read want []) := rfl
    rw [hread] at hs ⊢
    exact goes_busy hs (.inl nofun) (.reads call want hc hp hw hpos rfl (asked_invoke _ _ _))
  | reads call want hc hp hw hpos hctl hasked =>
    obtain rfl := Option.some.inj (hk.symm.trans hasked)
    obtain ⟨rfl, rfl⟩ := Prod.mk.inj (Option.some.inj ha)
    obtain ⟨s₁, hs₁, hgoes⟩ := goes_read (c := m.count) hc hp hw hpos hctl
    exact Option.some.inj (hs₁.symm.trans hs) ▸ hgoes
  | writes call buf hc hp hne hctl hasked =>
    obtain rfl := Option.some.inj (hk.symm.trans hasked)
    obtain ⟨rfl, rfl⟩ := Prod.mk.inj (Option.some.inj ha)
    obtain ⟨s₁, hs₁, hgoes⟩ := goes_write (c := m.count) hc hp hne hctl
    exact Option.some.inj (hs₁.symm.trans hs) ▸ hgoes
  | waits hp hidly =>
    have hsame : c = m.count := by
      cases k with
      | peeksz | fd | close => exact (Prod.mk.inj (Option.some.inj ha)).2.symm
      | peer | accept => cases ha
      | read len | write buf =>
        obtain ⟨rfl, -⟩ := Prod.mk.inj (Option.some.inj ha)
        unfold Strm.step at hs
        cases hctl : m.strm.strm.ctl with
        | accept | peer | fd | close =>
          rw [hctl] at hs
          cases hs
        | _ =>
          rw [hctl] at hidly
          exact hidly.elim
    rw [hsame]
    exact goes_waiting hi hp hidly hs

/-! ### Runs -/

/-- What a step of a semaphore is. -/
theorem Inv.goes {a : Act} (h : Inv n m) (hstep : Sem.step m a = some m') :
    ∃ inp s', m.strm.strm.step inp = some s' ∧ m.strm.step inp = some m'.strm ∧
      Goes m.strm inp m.count m'.count s' ∧ ∀ op arg, inp = .call op arg → a = .call op arg := by
  cases a with
  | call op arg =>
    obtain ⟨x, hx, rfl⟩ := Option.map_eq_some_iff.mp hstep
    obtain ⟨s₁, hs⟩ := step_eq_some hx
    obtain ⟨hctl, rfl⟩ := step_call hs
    refine ⟨_, _, hs, hx, goes_starts hs rfl (starts_proc h.ops h.both op arg), fun _ _ hcall => ?_⟩
    obtain ⟨rfl, rfl⟩ := Input.call.inj hcall
    rfl
  | ref =>
    obtain ⟨x, hx, rfl⟩ := Option.map_eq_some_iff.mp hstep
    obtain ⟨s₁, hs⟩ := step_eq_some hx
    obtain ⟨hctl, rfl⟩ := step_ref hs
    have hcur : m.strm.curNext .ref = none := h.stands.cur_none hctl
    exact ⟨_, _, hs, hx, goes_busy hs (.inr hcur) (.rests (.inl ⟨hctl, hcur⟩)), nofun⟩
  | unref =>
    obtain ⟨x, hx, rfl⟩ := Option.map_eq_some_iff.mp hstep
    obtain ⟨s₁, hs⟩ := step_eq_some hx
    exact ⟨_, _, hs, hx, goes_unref h hs, nofun⟩
  | answer =>
    obtain ⟨k, hk, hstep⟩ := Option.bind_eq_some_iff.mp hstep
    obtain ⟨⟨inp, c⟩, ha, hstep⟩ := Option.bind_eq_some_iff.mp hstep
    obtain ⟨x, hx, hstep⟩ := Option.bind_eq_some_iff.mp hstep
    obtain rfl := Option.some.inj hstep
    obtain ⟨s₁, hs⟩ := step_eq_some hx
    refine ⟨inp, s₁, hs, hx, goes_answer h hk ha hs, fun op arg hcall => ?_⟩
    subst hcall
    exact (answers_of ha).elim

/-- **A step keeps the tokens.** -/
theorem Inv.step {a : Act} (h : Inv n m) (hstep : Sem.step m a = some m') : Inv n m' := by
  obtain ⟨inp, s', hs, hx, hgoes, -⟩ := h.goes hstep
  obtain ⟨rfl, hstands, hmoved⟩ := hgoes _ hx
  have hmove := step_move h.both hs
  exact ⟨hmove.ops.trans h.ops, hmove.both h.both, hstands, h.conserved.moved hmoved⟩

theorem inv_start {fd k : ℤ} (h : semProcSem fd k = some m) : Inv (k % 2 ^ 32).toNat m := by
  unfold semProcSem at h
  split at h
  · cases h
  · obtain rfl := Option.some.inj h
    exact ⟨rfl, nofun, .rests (.inl ⟨rfl, rfl⟩), rfl, fun log _ _ hpre =>
      absurd (List.prefix_nil.mp hpre) (List.append_ne_nil_of_right_ne_nil _ (List.cons_ne_nil _ _))⟩

/-- **No token is lost but by a read that fails, and none comes from nowhere.** In every state of every
run of a semaphore. -/
theorem sem_conserves {fd k : ℤ} (h : semProcSem fd k = some m) (acts : List Act) :
    Runs.Throughout Sem.step (Conserved (k % 2 ^ 32).toNat) m acts :=
  (Runs.throughout_of_eachStep (fun _ _ _ hi _ hs => hi.step hs) (inv_start h)
    (Runs.eachStep_true _ _)).mono fun _ hi => hi.conserved

/-- A semaphore with one token. -/
def oneToken : Semaphore := ⟨3, ⟨.new semOps, none, []⟩, ⟨1, by decide⟩⟩

theorem oneToken_start : semProcSem 3 1 = some oneToken := rfl

/-- One fiber takes the token, another one finds none, and the first one puts it back. -/
def turns : List Act :=
  [.call (bytes "read") none, .answer, .answer, .call (bytes "read") none, .answer, .answer,
    .call (bytes "write") (some ⟨some 1, some (fmtU64 1)⟩), .answer]

theorem sem_conserves_turns : Runs.Throughout Sem.step (Conserved 1) oneToken turns :=
  sem_conserves oneToken_start turns

/-! ### Fair fibers -/

/-- A digit of a numeral, as a byte. -/
theorem byte_digit {c : Char} (hc : c.isDigit = true) :
    digit (UInt8.ofNat c.toNat) = c.toNat - 48 ∧ digit (UInt8.ofNat c.toNat) < 10 ∧
      cspace (UInt8.ofNat c.toNat) = false ∧ UInt8.ofNat c.toNat ≠ 0x2d ∧ UInt8.ofNat c.toNat ≠ 0x2b ∧
      (UInt8.ofNat c.toNat = 0x30 → c = '0') := by
  have hval : 48 ≤ c.toNat ∧ c.toNat ≤ 57 := by
    unfold Char.isDigit at hc
    simp only [Bool.and_eq_true, decide_eq_true_eq] at hc
    exact hc
  have hall : ∀ n < 58, 48 ≤ n → digit (UInt8.ofNat n) = n - 48 ∧ digit (UInt8.ofNat n) < 10 ∧
      cspace (UInt8.ofNat n) = false ∧ UInt8.ofNat n ≠ 0x2d ∧ UInt8.ofNat n ≠ 0x2b ∧
      (UInt8.ofNat n = 0x30 → n = 48) := by decide
  obtain ⟨h₁, h₂, h₃, h₄, h₅, h₆⟩ := hall _ (Nat.lt_succ_of_le hval.2) hval.1
  exact ⟨h₁, h₂, h₃, h₄, h₅, fun h => Char.toNat_inj.mp (h₆ h)⟩

theorem valueIn_map : ∀ (cs : List Char), (∀ c ∈ cs, c.isDigit = true) → ∀ n,
    (cs.map fun c => UInt8.ofNat c.toNat).foldl (fun n c => n * 10 + digit c) n =
      Nat.ofDigitChars 10 cs n
  | [], _, _ => rfl
  | c :: cs, h, n => by
    obtain ⟨hc, hcs⟩ := List.forall_mem_cons.mp h
    have hstep : n * 10 + digit (UInt8.ofNat c.toNat) = 10 * n + (c.toNat - '0'.toNat) := by
      rw [(byte_digit hc).1, Nat.mul_comm]
      rfl
    rw [List.map_cons, List.foldl_cons, hstep, valueIn_map cs hcs, Nat.ofDigitChars_cons]

/-- A numeral has a digit, and its first one is `0` only if it has no other. -/
theorem toDigits_head (u : ℕ) : ∃ c cs, Nat.toDigits 10 u = c :: cs ∧ (c = '0' → u = 0) := by
  induction u using Nat.base_induction 10 (by decide) with
  | single n hn =>
    have hall : ∀ n < 10, Nat.digitChar n = '0' → n = 0 := by decide
    exact ⟨_, [], Nat.toDigits_of_lt_base hn, hall n hn⟩
  | digit n k hk hn ih =>
    obtain ⟨c, cs, hcs, hc⟩ := ih
    refine ⟨c, cs ++ Nat.toDigits 10 k, ?_, fun h => absurd (hc h) (Nat.pos_iff_ne_zero.mp hn)⟩
    rw [← Nat.toDigits_append_toDigits (by decide) hn hk, hcs, List.cons_append]

/-- `strtoull` reads a numeral. -/
theorem strtoull_fmtU64 {u : ℕ} (hu : u < 2 ^ 64) : strtoull (fmtU64 u) = (u, (fmtU64 u).length, false) := by
  rcases Nat.eq_zero_or_pos u with rfl | hpos
  · decide
  obtain ⟨c, cs, hcs, hzero⟩ := toDigits_head u
  have hdigit : ∀ d ∈ c :: cs, d.isDigit = true := fun d hd => mem_toDigits (hcs ▸ hd)
  have hfmt : fmtU64 u = (c :: cs).map fun c => UInt8.ofNat c.toNat := by
    rw [← hcs, ← Nat.toList_repr]
    rfl
  obtain ⟨-, hten, hspace, hminus, hplus, h0⟩ := byte_digit (hdigit c List.mem_cons_self)
  have hdrop : (fmtU64 u).dropWhile cspace = fmtU64 u := by
    rw [hfmt, List.map_cons, List.dropWhile_cons_of_neg]
    rw [hspace]
    exact Bool.false_ne_true
  have hsigned : signed (fmtU64 u) = (false, fmtU64 u) := by
    rw [hfmt, List.map_cons]
    unfold signed
    split
    · next h => exact absurd (List.cons.inj h).1 hminus
    · next h => exact absurd (List.cons.inj h).1 hplus
    · rfl
  have hbased : based (fmtU64 u) = (10, fmtU64 u) := by
    rw [hfmt, List.map_cons]
    unfold based
    split
    · next h => exact absurd (hzero (h0 (List.cons.inj h).1)) (Nat.pos_iff_ne_zero.mp hpos)
    · rfl
  have hdigits : digitsIn 10 (fmtU64 u) = fmtU64 u := by
    refine List.takeWhile_eq_self_iff.mpr fun b hb => ?_
    rw [hfmt] at hb
    obtain ⟨d, hd, rfl⟩ := List.mem_map.mp hb
    exact decide_eq_true (byte_digit (hdigit d hd)).2.1
  have hvalue : valueIn 10 (fmtU64 u) = u := by
    rw [hfmt]
    refine (valueIn_map _ hdigit 0).trans ?_
    rw [← hcs, Nat.ofDigitChars_ten_toDigits]
  have hne : fmtU64 u ≠ [] := (fmtInt_text u).1
  unfold strtoull
  rw [hdrop, hsigned]
  dsimp only
  rw [hbased]
  dsimp only
  rw [hdigits, if_neg hne, hvalue, if_neg (Nat.not_le.mpr hu), if_neg Bool.false_ne_true, Nat.sub_self,
    Nat.zero_add]

/-- A fair call: it reads more than one byte, and what it writes is the numeral of tokens that are out. -/
def FairCall (log : List Return) (call : Bytes × Option Arg) : Prop :=
  wanted call ≠ some 1 ∧ ∀ buf ∈ payload call, buf = fmtU64 (strtoull (cstr buf)).1 ∧
    (strtoull (cstr buf)).1 + total posted log ≤ total taken log

/-- Fibers call fairly. -/
def Fair (s : Semaphore) : Act → Prop
  | .call op arg => FairCall s.strm.log (op, arg)
  | _ => True

instance (log : List Return) (call : Bytes × Option Arg) : Decidable (FairCall log call) :=
  inferInstanceAs (Decidable (_ ∧ _))

instance (s : Semaphore) (a : Act) : Decidable (Fair s a) :=
  match a with
  | .call op arg => inferInstanceAs (Decidable (FairCall s.strm.log (op, arg)))
  | .ref | .unref | .answer => .isTrue trivial

/-- Of `n` tokens, no more are out than there are, none is lost, and while the stream is open every write
has put back what it was to. -/
structure Excludes (n : ℕ) (s : Semaphore) : Prop where
  out : total posted s.strm.log ≤ total taken s.strm.log
  bound : total taken s.strm.log ≤ n + total posted s.strm.log
  lost : total lost s.strm.log = 0
  writes : s.strm.strm.closed = false → ∀ p ∈ s.strm.log, ∀ buf, payload p.1 = some buf →
    p.2 = .returned .ok (.int buf.length)

/-- The invariant of a semaphore that is used fairly. -/
structure FairInv (n : ℕ) (s : Semaphore) : Prop where
  inv : Inv n s
  excludes : Excludes n s
  cur : ∀ call, s.strm.cur = some call → FairCall s.strm.log call

theorem FairCall.numeral {log : List Return} {buf : Bytes} (h : FairCall log call)
    (hbuf : payload call = some buf) : ∃ u, buf = fmtU64 u ∧ u + total posted log ≤ total taken log :=
  ⟨_, h.2 buf hbuf⟩

theorem cstr_fmtU64 (u : ℕ) : cstr (fmtU64 u) = fmtU64 u := (fmtInt_text u).2

/-- A fair write puts back what it says. -/
theorem fdWriteU64_fair {c : Counter} {u : ℕ} (hu : c.val + u < 2 ^ 64 - 1) :
    0 ≤ (fdWriteU64 c (fmtU64 u)).1 := by
  have hne : (fmtU64 u).length ≠ 0 := List.length_eq_zero_iff.not.mpr (fmtInt_text u).1
  have hpost : c.post u = some ⟨c.val + u, hu⟩ := dif_pos hu
  unfold fdWriteU64
  rw [cstr_fmtU64, strtoull_fmtU64 (by omega)]
  dsimp only
  rw [if_neg (by simp [hne]), hpost]
  exact Int.natCast_nonneg _

/-- A fair call that has returned. -/
theorem FairInv.returned {p : Return} (hn : n < 2 ^ 32) (h : FairInv n m)
    (hp : Returns m.strm m.count m'.count p) (hlog : m'.strm.log = m.strm.log ++ [p])
    (hclosed : m'.strm.strm.closed = false → m.strm.strm.closed = false)
    (hcount : Conserved n m') : Excludes n m' := by
  have hbefore := h.inv.conserved.count
  have hafter := hcount.count
  have hnone := h.excludes.lost
  have hout := h.excludes.out
  have hlost : lost p = 0 := hp.loses.resolve_right fun ⟨hcur, hone⟩ => (h.cur _ hcur).1 hone
  have hposted : posted p + total posted m.strm.log ≤ total taken m.strm.log := by
    rcases hp.posts with hzero | hcur
    · omega
    · cases hpay : payload p.1 with
      | none =>
        have hzero : posted p = 0 := by
          unfold posted
          rw [hpay]
        omega
      | some buf =>
        obtain ⟨u, rfl, hu⟩ := (h.cur _ hcur).numeral hpay
        have hle : posted p ≤ u := by
          unfold posted
          rw [hpay]
          split
          · next buf v hbuf hev =>
            obtain rfl := Option.some.inj hbuf
            split_ifs
            · exact Nat.zero_le u
            · rw [cstr_fmtU64, strtoull_fmtU64 (by omega)]
          · exact Nat.zero_le u
        omega
  rw [hlog, total_concat, total_concat, total_concat] at hafter
  refine ⟨?_, ?_, ?_, fun hopen q hq buf hbuf => ?_⟩
  · rw [hlog, total_concat, total_concat]
    omega
  · rw [hlog, total_concat, total_concat]
    omega
  · rw [hlog, total_concat]
    omega
  · rw [hlog] at hq
    rcases List.mem_append.mp hq with hq | hq
    · exact h.excludes.writes (hclosed hopen) q hq buf hbuf
    · obtain rfl := List.mem_singleton.mp hq
      rcases hp.writes buf hbuf with hok | hshut | ⟨hcur, hneg⟩
      · exact hok
      · cases (hclosed hopen).symm.trans hshut
      · obtain ⟨u, rfl, hu⟩ := (h.cur _ hcur).numeral hbuf
        have hle := fdWriteU64_fair (c := m.count) (u := u) (by omega)
        exact absurd hneg (not_lt.mpr hle)

/-- What becomes of the call that runs. -/
theorem cur_step (h : x.step inp = some x') : x'.cur = none ∨ x'.cur = x.curNext inp ∧ x'.log = x.log := by
  obtain ⟨s', hs⟩ := step_eq_some h
  unfold End.step at h
  rw [hs, Option.map_some] at h
  split at h
  · obtain rfl := Option.some.inj h
    exact .inl rfl
  · obtain rfl := Option.some.inj h
    exact .inr ⟨rfl, rfl⟩

/-- **A fair step keeps the others out.** -/
theorem FairInv.step {a : Act} (hn : n < 2 ^ 32) (h : FairInv n m) (hfair : Fair m a)
    (hstep : Sem.step m a = some m') : FairInv n m' := by
  have hinv := h.inv.step hstep
  obtain ⟨inp, s', hs, hx, hgoes, hcall⟩ := h.inv.goes hstep
  obtain ⟨hs', -, hmoved⟩ := hgoes _ hx
  have hclosed : m'.strm.strm.closed = false → m.strm.strm.closed = false := by
    intro hopen
    by_contra hshut
    have hstay := (step_move h.inv.both hs).stays_closed (Bool.eq_true_of_not_eq_false hshut)
    rw [hs'] at hopen
    cases hopen.symm.trans hstay
  refine ⟨hinv, ?_, fun call hcur => ?_⟩
  · generalize hlog : m'.strm.log = log at hmoved
    cases hmoved with
    | quiet hc =>
      have hsame := h.excludes
      refine ⟨?_, ?_, ?_, fun hopen => ?_⟩
      · rw [hlog]; exact hsame.out
      · rw [hlog]; exact hsame.bound
      · rw [hlog]; exact hsame.lost
      · rw [hlog]; exact hsame.writes (hclosed hopen)
    | returned p hp => exact h.returned hn hp hlog hclosed hinv.conserved
  · rcases cur_step hx with hnone | ⟨hnext, hlog⟩
    · cases hnone.symm.trans hcur
    · rw [hlog]
      rw [hnext] at hcur
      cases inp with
      | call op arg =>
        obtain rfl := hcall op arg rfl
        obtain rfl := Option.some.inj hcur
        exact hfair
      | _ => exact h.cur call hcur

theorem excludes_new (hlog : m.strm.log = []) : Excludes n m := by
  refine ⟨?_, ?_, ?_, fun _ => ?_⟩ <;> rw [hlog]
  · exact Nat.le_refl 0
  · exact Nat.zero_le _
  · rfl
  · exact fun p hp => absurd hp List.not_mem_nil

/-- **Where fibers are fair, a semaphore keeps the others out.** In every state of every run of fair calls,
no more than its tokens are out, none is lost, and every write has put back what it was to. -/
theorem sem_excludes {fd k : ℤ} (h : semProcSem fd k = some m) (acts : List Act)
    (hfair : Runs.EachStep Sem.step Fair m acts) :
    Runs.Throughout Sem.step (Excludes (k % 2 ^ 32).toNat) m acts := by
  have hn : (k % 2 ^ 32).toNat < 2 ^ 32 := by omega
  have hstart : FairInv (k % 2 ^ 32).toNat m := by
    have hinv := inv_start h
    unfold semProcSem at h
    split at h
    · cases h
    · obtain rfl := Option.some.inj h
      exact ⟨hinv, excludes_new rfl, nofun⟩
  exact (Runs.throughout_of_eachStep (fun _ _ _ hi hf hs => hi.step hn hf hs) hstart hfair).mono
    fun _ hi => hi.excludes

theorem sem_excludes_turns : Runs.Throughout Sem.step (Excludes 1) oneToken turns :=
  sem_excludes oneToken_start turns (by decide +kernel)

end Sem

end Strm

end B6b
