/-
# Two streams and what is between them

`un.pair` makes two streams over the ends of a pair of sockets. Scripts write and read at both ends,
in one process or in two, and every procedure of a stream goes through system calls, between which
the other end may do anything. A system call `send` takes some of the bytes it is given, or none;
`recv` brings some of those that are there, or none; and each may fail.

Whatever the order, a byte that was taken is on its way or has been read, once and in order. A write
that succeeds tells exactly how many of its bytes were taken. A write or a read that fails does not
tell how far it got (`channel_fifo`).

Key definitions: `End`, `Pair`, `answer`, `step`, `Carried`.
-/
import Mathlib.Data.List.Forall2
import B6b.Strm

namespace B6b

namespace Strm

namespace Channel

/-! ### The ends -/

/-- An end: its stream, the call of its procedure that is running, and those that have returned. -/
structure End where
  strm : Strm
  cur : Option (Bytes × Option Arg)
  log : List ((Bytes × Option Arg) × Event)

/-- `b6b_un_stream_client_ops` -/
def unStreamClientOps : StrmOps := ⟨true, true, true, true, false, true⟩

/-- A new end. -/
def End.new : End := ⟨.new unStreamClientOps, none, []⟩

/-- The call that is running behind an input. -/
def End.curNext (x : End) : Input → Option (Bytes × Option Arg)
  | .call op arg => some (op, arg)
  | _ => x.cur

/-- The stream of an end takes a step. A call that has returned is logged, with its result. -/
def End.step (x : End) (inp : Input) : Option End :=
  (x.strm.step inp).map fun s =>
    match s.ctl, x.curNext inp, s.trace.getLast? with
    | .idle, some call, some ev => ⟨s, none, x.log ++ [(call, ev)]⟩
    | _, cur, _ => ⟨s, cur, x.log⟩

/-! ### The pair -/

/-- The ends, and the bytes on their way to each. -/
structure Pair where
  ends : Bool → End
  queue : Bool → Bytes

/-- `b6b_socket_proc_un_pair`, of type `stream`. -/
def unPair : Pair := ⟨fun _ => .new, fun _ => []⟩

/-- What the kernel does with a system call: it succeeds, with at most `n` bytes, or fails. -/
inductive Answer
  | upto (n : ℕ)
  | fails
  | peer (o : Option Addr)
  | fd (n : ℤ)

/-- What the callback `c` returns at an end with the bytes `q` on their way to it: `b6b_socket_peeksz`,
`b6b_socket_read`, `b6b_socket_write` and the others, with what is left of `q`, and the bytes that are
taken from the end. No bytes are `EAGAIN`, which is no error, or the end of the file, of which
`b6b_fd_on_read` does not tell. -/
def answer (q : Bytes) : Callback → Answer → Option (Input × Bytes × Bytes)
  | .peeksz, .upto _ => some (.peeksz q.length, q, [])
  | .peeksz, .fails => some (.peeksz (-1), q, [])
  | .read len, .upto n =>
    some (.read (some (q.take (min n len.toNat), false, true)), q.drop (min n len.toNat), [])
  | .read _, .fails => some (.read none, q, [])
  | .write buf, .upto n => some (.write (buf.take n).length, q, buf.take n)
  | .write _, .fails => some (.write (-1), q, [])
  | .peer, .peer o => some (.peer o, q, [])
  | .fd, .fd n => some (.fd n, q, [])
  | .close, .upto _ => some (.close, q, [])
  | _, _ => none

/-- A script calls a procedure of an end, or takes or drops a reference to it; or the kernel answers
the callback it waits for. -/
inductive Act
  | call (e : Bool) (op : Bytes) (arg : Option Arg)
  | ref (e : Bool)
  | unref (e : Bool)
  | answer (e : Bool) (a : Answer)

/-- The end `e` is `x` now. -/
def Pair.set (s : Pair) (e : Bool) (x : End) : Pair := { s with ends := Function.update s.ends e x }

/-- The callback a stream has called last. -/
def asked (s : Strm) : Option Callback :=
  match s.trace.getLast? with
  | some (.invoked c) => some c
  | _ => none

theorem asked_invoke (s : Strm) (k : Callback) (c : Ctl) : asked (s.invoke k c) = some k := by
  unfold asked invoke
  rw [List.getLast?_concat]

/-- One step of the pair. -/
def step (s : Pair) : Act → Option Pair
  | .call e op arg => ((s.ends e).step (.call op arg)).map (s.set e)
  | .ref e => ((s.ends e).step .ref).map (s.set e)
  | .unref e => ((s.ends e).step .unref).map (s.set e)
  | .answer e a => do
    let c ← asked (s.ends e).strm
    let (inp, q, out) ← answer (s.queue e) c a
    let x ← (s.ends e).step inp
    pure ⟨Function.update s.ends e x,
      Function.update (Function.update s.queue e q) (!e) (s.queue (!e) ++ out)⟩

/-! ### What has become of the bytes -/

/-- The bytes a call is to write. -/
def payload : Bytes × Option Arg → Option Bytes
  | (op, some arg) =>
    if cstr op = bytes "read" then none
    else if cstr op = bytes "write" then arg.str
    else if cstr op = bytes "writeln" then arg.str.map (· ++ [0x0a])
    else none
  | (_, none) => none

/-- How many bytes a write tells it has written. -/
def told : Event → Option ℕ
  | .returned .ok (.int n) => some n.toNat
  | _ => none

/-- What a read has returned: a string, nothing, or an error. -/
def brought : Event → Option (Option Bytes)
  | .read .ok (.str b) _ => some (some b)
  | .read .ok _ _ => some (some [])
  | .read _ _ _ => some none
  | _ => none

/-- The writes that have returned, with what they were to write and what they have told. -/
def End.writes (x : End) : List (Bytes × Option ℕ) :=
  x.log.filterMap fun p => (payload p.1).map fun buf => (buf, told p.2)

/-- What the reads have returned. -/
def End.reads (x : End) : List (Option Bytes) := x.log.filterMap fun p => brought p.2

/-- What the write that is running has written. -/
def End.written (x : End) : Bytes :=
  match x.strm.ctl, x.cur.bind payload with
  | .write _ out, some buf => buf.take out
  | _, _ => []

/-- What the read that is running has read. -/
def End.gathered (x : End) : Bytes :=
  match x.strm.ctl with
  | .peeksz _ buf => buf
  | .read _ buf => buf
  | _ => []

/-- `b` is what a write has written: a prefix of its bytes, of the length it has told. -/
def Wrote (w : Bytes × Option ℕ) (b : Bytes) : Prop :=
  ∃ n ≤ w.1.length, b = w.1.take n ∧ ∀ k, w.2 = some k → k = n

/-- `b` is what a read has read: what it has returned, or anything if it has failed. -/
def Got (r : Option Bytes) (b : Bytes) : Prop := ∀ c, r = some c → b = c

/-- The bytes written at the end `e`, in their order, are those read at the other end and those on
their way there. -/
def Carried (s : Pair) (e : Bool) : Prop :=
  ∃ ws rs : List Bytes, List.Forall₂ Wrote (s.ends e).writes ws ∧
    List.Forall₂ Got (s.ends (!e)).reads rs ∧
    ws.flatten ++ (s.ends e).written = rs.flatten ++ (s.ends (!e)).gathered ++ s.queue (!e)

/-! ### One end -/

variable {x x' : End} {inp : Input} {s s' : Strm} {c : Option (Bytes × Option Arg)}
  {call : Bytes × Option Arg} {w g out got : Bytes}

/-- The stream waits for a callback that neither reads nor writes. -/
def Idly : Ctl → Prop
  | .accept _ | .peer | .fd | .close _ => True
  | _ => False

/-- The call `c` is running at `s'`, or has returned from `s`, and has written `w` and read `g`. -/
inductive Fits (c : Option (Bytes × Option Arg)) (w g : Bytes) (s s' : Strm) : Prop
  | ends (call : Bytes × Option Arg) (ev : Event) (hc : c = some call) (hctl : s'.ctl = .idle)
      (htrace : s'.trace = s.trace ++ [ev])
      (hw : (payload call).elim (w = []) fun buf => Wrote (buf, told ev) w)
      (hg : (brought ev).elim (g = []) fun r => Got r g)
  | reads (call : Bytes × Option Arg) (want : ℤ) (hc : c = some call) (hp : payload call = none)
      (hctl : s'.ctl = .peeksz want g ∨ s'.ctl = .read want g) (hw : w = [])
  | writes (call : Bytes × Option Arg) (buf : Bytes) (n : ℕ) (hc : c = some call)
      (hp : payload call = some buf) (hn : n ≤ buf.length) (hctl : s'.ctl = .write (buf.drop n) n)
      (hasked : asked s' = some (.write (buf.drop n))) (hw : w = buf.take n) (hg : g = [])
  | waits (hp : ∀ call, c = some call → payload call = none) (hctl : Idly s'.ctl) (hw : w = [])
      (hg : g = [])
  | rests (hctl : s'.ctl = .idle ∧ c = none ∨ s'.ctl = .freed) (hw : w = []) (hg : g = [])

/-- What the call that is running says about the callback its stream waits for. -/
structure Busy (x : End) : Prop where
  reads : ∀ want buf, x.strm.ctl = .peeksz want buf ∨ x.strm.ctl = .read want buf →
    ∃ call, x.cur = some call ∧ payload call = none
  writes : ∀ rest n, x.strm.ctl = .write rest n → ∃ call buf, x.cur = some call ∧
    payload call = some buf ∧ n ≤ buf.length ∧ rest = buf.drop n ∧ asked x.strm = some (.write rest)
  waits : Idly x.strm.ctl → ∀ call, x.cur = some call → payload call = none
  rests : x.strm.ctl = .idle → x.cur = none

/-- The end has written `b`. -/
def Sent (x : End) (b : Bytes) : Prop :=
  ∃ ws : List Bytes, List.Forall₂ Wrote x.writes ws ∧ ws.flatten ++ x.written = b

/-- The end has read `b`. -/
def Taken (x : End) (b : Bytes) : Prop :=
  ∃ rs : List Bytes, List.Forall₂ Got x.reads rs ∧ rs.flatten ++ x.gathered = b

theorem written_of (hctl : ∀ rest n, x.strm.ctl ≠ .write rest n) : x.written = [] := by
  unfold End.written
  split
  · next rest n _ hc _ => exact absurd hc (hctl rest n)
  · rfl

theorem gathered_of (hctl : ∀ want buf, x.strm.ctl ≠ .peeksz want buf ∧ x.strm.ctl ≠ .read want buf) :
    x.gathered = [] := by
  unfold End.gathered
  split
  · next want buf hc => exact absurd hc (hctl want buf).1
  · next want buf hc => exact absurd hc (hctl want buf).2
  · rfl

theorem gathered_eq {want : ℤ} (hctl : x.strm.ctl = .peeksz want g ∨ x.strm.ctl = .read want g) :
    x.gathered = g := by
  unfold End.gathered
  rcases hctl with h | h <;> rw [h]

/-- An end that has taken a step, if the log is as it was. -/
theorem sent_same (hs : Sent x w) (hlog : x'.log = x.log) (hw : x'.written = x.written ++ out) :
    Sent x' (w ++ out) := by
  obtain ⟨ws, hws, rfl⟩ := hs
  refine ⟨ws, ?_, ?_⟩
  · unfold End.writes
    rw [hlog]
    exact hws
  · rw [hw, List.append_assoc]

theorem taken_same (hs : Taken x w) (hlog : x'.log = x.log) (hg : x'.gathered = x.gathered ++ got) :
    Taken x' (w ++ got) := by
  obtain ⟨rs, hrs, rfl⟩ := hs
  refine ⟨rs, ?_, ?_⟩
  · unfold End.reads
    rw [hlog]
    exact hrs
  · rw [hg, List.append_assoc]

/-- A call that has returned is one piece more of what has been written. -/
theorem sent_ends {ev : Event} (hs : Sent x w) (hlog : x'.log = x.log ++ [(call, ev)])
    (hx' : x'.written = [])
    (hw : (payload call).elim (x.written ++ out = []) fun buf => Wrote (buf, told ev) (x.written ++ out)) :
    Sent x' (w ++ out) := by
  obtain ⟨ws, hws, rfl⟩ := hs
  rcases hp : payload call with _ | buf
  · rw [hp] at hw
    obtain ⟨hx, ho⟩ := List.append_eq_nil_iff.mp hw
    refine ⟨ws, ?_, ?_⟩
    · have hsame : x'.writes = x.writes := by
        unfold End.writes
        rw [hlog, List.filterMap_append]
        simp [hp]
      rwa [hsame]
    · rw [hx', hx, ho, List.append_nil, List.append_nil]
  · rw [hp] at hw
    refine ⟨ws ++ [x.written ++ out], ?_, ?_⟩
    · have hmore : x'.writes = x.writes ++ [(buf, told ev)] := by
        unfold End.writes
        rw [hlog, List.filterMap_append]
        simp [hp]
      rw [hmore]
      exact List.rel_append hws (.cons hw .nil)
    · rw [hx', List.flatten_append, List.flatten_singleton, List.append_nil, List.append_assoc]

theorem taken_ends {ev : Event} (hs : Taken x w) (hlog : x'.log = x.log ++ [(call, ev)])
    (hx' : x'.gathered = [])
    (hg : (brought ev).elim (x.gathered ++ got = []) fun r => Got r (x.gathered ++ got)) :
    Taken x' (w ++ got) := by
  obtain ⟨rs, hrs, rfl⟩ := hs
  rcases hb : brought ev with _ | r
  · rw [hb] at hg
    obtain ⟨hx, ho⟩ := List.append_eq_nil_iff.mp hg
    refine ⟨rs, ?_, ?_⟩
    · have hsame : x'.reads = x.reads := by
        unfold End.reads
        rw [hlog, List.filterMap_append]
        simp [hb]
      rwa [hsame]
    · rw [hx', hx, ho, List.append_nil, List.append_nil]
  · rw [hb] at hg
    refine ⟨rs ++ [x.gathered ++ got], ?_, ?_⟩
    · have hmore : x'.reads = x.reads ++ [r] := by
        unfold End.reads
        rw [hlog, List.filterMap_append]
        simp [hb]
      rw [hmore]
      exact List.rel_append hrs (.cons hg .nil)
    · rw [hx', List.flatten_append, List.flatten_singleton, List.append_nil, List.append_assoc]

/-- A step of an end whose stream becomes `s'`. -/
theorem step_of_idle {ev : Event} (hs : x.strm.step inp = some s') (hc : x.curNext inp = some call)
    (hctl : s'.ctl = .idle) (hlast : s'.trace.getLast? = some ev) :
    x.step inp = some ⟨s', none, x.log ++ [(call, ev)]⟩ := by
  unfold End.step
  rw [hs, Option.map_some, hctl, hc, hlast]

theorem step_of_busy (hs : x.strm.step inp = some s') (hctl : s'.ctl ≠ .idle ∨ x.curNext inp = none) :
    x.step inp = some ⟨s', x.curNext inp, x.log⟩ := by
  unfold End.step
  rw [hs, Option.map_some]
  split
  · next call _ hidle hc _ =>
    rcases hctl with hctl | hctl
    · exact absurd hidle hctl
    · rw [hctl] at hc
      cases hc
  · rfl

/-- **A step of an end.** What it has written and read grows by `out` and `got`. -/
theorem end_step (hs : x.strm.step inp = some s')
    (hf : Fits (x.curNext inp) (x.written ++ out) (x.gathered ++ got) x.strm s') :
    ∃ x', x.step inp = some x' ∧ Busy x' ∧ (∀ b, Sent x b → Sent x' (b ++ out)) ∧
      ∀ b, Taken x b → Taken x' (b ++ got) := by
  cases hf with
  | ends call ev hc hctl htrace hw hg =>
    have hlast : s'.trace.getLast? = some ev := by
      rw [htrace, List.getLast?_concat]
    refine ⟨_, step_of_idle hs hc hctl hlast, ⟨?_, ?_, ?_, fun _ => rfl⟩, fun b hb => ?_, fun b hb => ?_⟩
    · rintro want buf (h | h) <;> cases h.symm.trans hctl
    · exact fun rest n h => nomatch h.symm.trans hctl
    · intro h
      rw [hctl] at h
      exact h.elim
    · exact sent_ends hb rfl (written_of fun _ _ h => nomatch h.symm.trans hctl) hw
    · exact taken_ends hb rfl
        (gathered_of fun _ _ => ⟨fun h => (nomatch h.symm.trans hctl), fun h => nomatch h.symm.trans hctl⟩) hg
  | reads call want hc hp hctl hw =>
    have hne : s'.ctl ≠ .idle := by rcases hctl with h | h <;> rw [h] <;> exact nofun
    refine ⟨_, step_of_busy hs (.inl hne), ⟨fun _ _ _ => ⟨call, hc, hp⟩, ?_, ?_, ?_⟩, fun b hb => ?_,
      fun b hb => ?_⟩
    · intro rest n h
      rcases hctl with h' | h' <;> cases h.symm.trans h'
    · intro h
      rcases hctl with h' | h' <;> rw [h'] at h <;> exact h.elim
    · intro h
      rcases hctl with h' | h' <;> cases h.symm.trans h'
    · refine sent_same hb rfl (hw ▸ written_of fun rest n h => ?_)
      rcases hctl with h' | h' <;> cases h.symm.trans h'
    · exact taken_same hb rfl (gathered_eq hctl)
  | writes call buf n hc hp hn hctl hasked hw hg =>
    have hne : s'.ctl ≠ .idle := by rw [hctl]; exact nofun
    refine ⟨_, step_of_busy hs (.inl hne), ⟨?_, ?_, ?_, ?_⟩, fun b hb => ?_, fun b hb => ?_⟩
    · rintro want b (h | h) <;> cases h.symm.trans hctl
    · rintro rest k h
      cases h.symm.trans hctl
      exact ⟨call, buf, hc, hp, hn, rfl, hasked⟩
    · intro h
      rw [hctl] at h
      exact h.elim
    · exact fun h => nomatch h.symm.trans hctl
    · refine sent_same hb rfl ?_
      rw [hw]
      unfold End.written
      rw [hctl, hc]
      simp [hp]
    · exact taken_same hb rfl (hg ▸ gathered_of fun _ _ =>
        ⟨fun h => (nomatch h.symm.trans hctl), fun h => nomatch h.symm.trans hctl⟩)
  | waits hp hctl hw hg =>
    have hne : ∀ c, ¬ Idly c → s'.ctl ≠ c := fun c hc h => hc (h ▸ hctl)
    refine ⟨_, step_of_busy hs (.inl (hne _ id)), ⟨?_, ?_, fun _ => hp, ?_⟩, fun b hb => ?_, fun b hb => ?_⟩
    · rintro want b (h | h)
      · exact absurd h (hne _ id)
      · exact absurd h (hne _ id)
    · exact fun rest k h => absurd h (hne _ id)
    · exact fun h => absurd h (hne _ id)
    · exact sent_same hb rfl (hw ▸ written_of fun _ _ => hne _ id)
    · exact taken_same hb rfl (hg ▸ gathered_of fun _ _ => ⟨hne _ id, hne _ id⟩)
  | rests hctl hw hg =>
    have hne : ∀ c, c ≠ Ctl.idle → c ≠ .freed → s'.ctl ≠ c := by
      rintro c h₁ h₂ rfl
      exact hctl.elim (fun h => h₁ h.1) h₂
    have hbusy : s'.ctl ≠ .idle ∨ x.curNext inp = none :=
      hctl.elim (fun h => .inr h.2) fun h => .inl (by rw [h]; exact nofun)
    refine ⟨_, step_of_busy hs hbusy, ⟨?_, ?_, ?_, fun h => ?_⟩, fun b hb => ?_, fun b hb => ?_⟩
    · rintro want b (h | h)
      · exact absurd h (hne _ nofun nofun)
      · exact absurd h (hne _ nofun nofun)
    · exact fun rest k h => absurd h (hne _ nofun nofun)
    · intro h
      rcases hctl with ⟨h', -⟩ | h' <;> rw [h'] at h <;> exact h.elim
    · exact hbusy.resolve_left fun hne => hne h
    · exact sent_same hb rfl (hw ▸ written_of fun _ _ => hne _ nofun nofun)
    · exact taken_same hb rfl (hg ▸ gathered_of fun _ _ => ⟨hne _ nofun nofun, hne _ nofun nofun⟩)

/-! ### What a stream does -/

theorem wrote_of {buf : Bytes} {n : ℕ} {r : Option ℕ} (hn : n ≤ buf.length) (hr : ∀ k, r = some k → k = n) :
    Wrote (buf, r) (buf.take n) := ⟨n, hn, rfl, hr⟩

theorem wrote_nothing {buf : Bytes} {r : Option ℕ} (hr : ∀ k, r = some k → k = 0) : Wrote (buf, r) [] :=
  wrote_of (Nat.zero_le _) hr

theorem fits_done {ev : Event} (hw : (payload call).elim (w = []) fun buf => Wrote (buf, told ev) w)
    (hg : (brought ev).elim (g = []) fun r => Got r g) : Fits (some call) w g s (s.done ev) :=
  .ends call ev rfl rfl rfl hw hg

/-- A procedure that has neither written nor read. -/
theorem fits_returned {r : Res} {v : Value} (ht : ∀ k, told (.returned r v) = some k → k = 0) :
    Fits (some call) [] [] s (s.done (.returned r v)) := by
  refine fits_done ?_ rfl
  cases payload call with
  | none => rfl
  | some buf => exact wrote_nothing ht

theorem fits_readDone {r : Res} {v : Value} (eof : Bool) (hp : payload call = none)
    (hg : ∀ b, brought (.read r v eof) = some (some b) → g = b) :
    Fits (some call) [] g s (s.done (.read r v eof)) := by
  refine fits_done ?_ ?_
  · rw [hp]
    rfl
  · rcases hb : brought (.read r v eof) with _ | r'
    · cases r with
      | ok => cases v <;> cases hb
      | _ => cases hb
    · exact fun b hr => hg b (hr ▸ hb)

theorem fits_readNext (hp : payload call = none) (want est : ℤ) :
    Fits (some call) [] g s (s.readNext want g est) := by
  unfold readNext
  split_ifs
  · exact fits_readDone false hp nofun
  · exact fits_readDone false hp fun b hb => Option.some.inj (Option.some.inj hb)
  · exact .reads call want rfl hp (.inr rfl) rfl

theorem fits_readMore (hp : payload call = none) (want : ℤ) :
    Fits (some call) [] g s (s.readMore want g) := by
  unfold readMore
  split_ifs
  · exact .reads call want rfl hp (.inl rfl) rfl
  · exact fits_readNext hp want _

theorem fits_read (hp : payload call = none) (want : ℤ) : Fits (some call) [] [] s (s.read want) := by
  unfold Strm.read
  split_ifs
  · exact fits_readDone false hp fun b hb => Option.some.inj (Option.some.inj hb)
  · exact fits_readDone false hp nofun
  · exact fits_readMore hp want

/-- What a callback `read` has stored. -/
def gets : Input → Bytes
  | .read (some (data, _, _)) => data
  | _ => []

theorem fits_onRead (hp : payload call = none) (want : ℤ) (data : Option (Bytes × Bool × Bool)) :
    Fits (some call) [] (g ++ gets (.read data)) s (s.onRead want g data) := by
  rcases data with _ | ⟨data, eof, again⟩
  · exact fits_readDone false hp nofun
  · unfold onRead gets
    dsimp only
    split_ifs
    · refine .ends call (.read .ok (.str (g ++ data)) true) rfl rfl rfl ?_ fun b hb => Option.some.inj hb
      rw [hp]
      rfl
    · exact fits_readDone false hp fun b hb => Option.some.inj (Option.some.inj hb)
    · exact fits_readDone false hp fun b hb => Option.some.inj (Option.some.inj hb)
    · exact fits_readMore hp _

theorem fits_writeMore {buf : Bytes} {n : ℕ} (hp : payload call = some buf) (hn : n ≤ buf.length) :
    Fits (some call) (buf.take n) [] s (s.writeMore (buf.drop n) n) := by
  unfold writeMore
  split_ifs
  · refine fits_done ?_ rfl
    rw [hp]
    exact wrote_of hn fun k hk => (Option.some.inj hk).symm
  · refine .writes call buf n rfl hp hn rfl ?_ rfl rfl
    unfold asked invoke
    rw [List.getLast?_concat]

theorem fits_write {buf : Bytes} (hp : payload call = some buf) : Fits (some call) [] [] s (s.write buf) := by
  unfold Strm.write
  split_ifs
  · exact fits_returned nofun
  · exact fits_writeMore (n := 0) hp (Nat.zero_le _)

theorem fits_onWrite {buf : Bytes} {n : ℕ} {chunk : ℤ} (hp : payload call = some buf)
    (hn : n ≤ buf.length) (hc : chunk ≤ (buf.drop n).length) :
    Fits (some call) (buf.take n ++ (buf.drop n).take chunk.toNat) [] s
      (s.onWrite (buf.drop n) n chunk) := by
  rw [List.length_drop] at hc
  have hlen : n + chunk.toNat ≤ buf.length := by omega
  rw [← List.take_add]
  unfold onWrite
  split_ifs with hneg hzero
  · refine fits_done ?_ rfl
    rw [hp]
    exact wrote_of hlen nofun
  · refine fits_done ?_ rfl
    rw [hp]
    subst hzero
    exact wrote_of hlen fun k hk => (Option.some.inj hk).symm
  · rw [List.drop_drop]
    exact fits_writeMore hp hlen

/-- `b6b_strm_close` -/
theorem fits_close (hp : payload call = none) : Fits (some call) [] [] s (s.close false) := by
  unfold Strm.close
  split_ifs
  · exact fits_returned nofun
  · exact .waits (fun c hc => Option.some.inj hc ▸ hp) trivial rfl rfl
  · refine .ends call (.returned .ok .null) rfl rfl rfl ?_ rfl
    rw [hp]
    rfl

theorem fits_proc (op : Bytes) (arg : Option Arg) :
    Fits (some (op, arg)) [] [] s (s.proc op arg) := by
  rcases arg with _ | arg
  · have hp : payload (op, none) = none := rfl
    unfold proc proc₂
    dsimp only
    split_ifs
    · exact fits_read hp _
    · unfold Strm.accept
      split_ifs
      · exact fits_returned nofun
      · exact .waits (fun c hc => Option.some.inj hc ▸ hp) trivial rfl rfl
    · unfold Strm.peer
      split_ifs
      · exact .waits (fun c hc => Option.some.inj hc ▸ hp) trivial rfl rfl
      · exact fits_returned nofun
    · unfold Strm.fd
      split_ifs
      · exact fits_returned nofun
      · exact .waits (fun c hc => Option.some.inj hc ▸ hp) trivial rfl rfl
    · exact fits_close hp
    · exact fits_returned nofun
  · unfold proc proc₃
    dsimp only
    split_ifs with hread hwrite hwriteln
    · have hp : payload (op, some arg) = none := if_pos hread
      cases arg.int with
      | none => exact fits_returned nofun
      | some want =>
        dsimp only
        split_ifs
        · exact fits_returned nofun
        · exact fits_read hp want
    · rcases hs : arg.str with _ | buf
      · exact fits_returned nofun
      · refine fits_write ?_
        unfold payload
        dsimp only
        rw [if_neg hread, if_pos hwrite, hs]
    · rcases hs : arg.str with _ | buf
      · exact fits_returned nofun
      · refine fits_write ?_
        unfold payload
        dsimp only
        rw [if_neg hread, if_neg hwrite, if_pos hwriteln, hs]
        rfl
    · exact fits_returned nofun

/-- A procedure that only waits for its callback returns. -/
theorem fits_answered {r : Res} {v : Value} (hp : ∀ call, c = some call → payload call = none)
    (hctl : s'.ctl = .idle) (htrace : s'.trace = s.trace ++ [.returned r v]) : Fits c [] [] s s' := by
  rcases c with _ | call
  · exact .rests (.inl ⟨hctl, rfl⟩) rfl rfl
  · refine .ends call _ rfl hctl htrace ?_ rfl
    rw [hp call rfl]
    rfl

/-! ### Steps of the pair -/

/-- What a callback `write` has taken. -/
def puts (s : Strm) : Input → Bytes
  | .write chunk =>
    match s.ctl with
    | .write rest _ => rest.take chunk.toNat
    | _ => []
  | _ => []

/-- A step of a stream, unless the kernel takes more than there is. -/
theorem fits_step (hb : Busy x) (hs : x.strm.step inp = some s')
    (hc : ∀ chunk rest n, inp = .write chunk → x.strm.ctl = .write rest n → chunk ≤ rest.length) :
    Fits (x.curNext inp) (x.written ++ puts x.strm inp) (x.gathered ++ gets inp) x.strm s' := by
  have hw : (∀ rest n, x.strm.ctl ≠ .write rest n) → x.written ++ puts x.strm inp = [] := by
    intro hne
    rw [written_of hne, List.nil_append]
    unfold puts
    split
    · split
      · next rest n hctl => exact absurd hctl (hne rest n)
      · rfl
    · rfl
  have hg : (∀ want buf, x.strm.ctl ≠ .peeksz want buf ∧ x.strm.ctl ≠ .read want buf) →
      x.gathered ++ gets inp = gets inp := by
    intro hne
    rw [gathered_of hne, List.nil_append]
  unfold Strm.step at hs
  split at hs
  · next op arg hctl =>
    obtain rfl := Option.some.inj hs
    rw [hw (by simp [hctl]), hg (by simp [hctl])]
    exact fits_proc op arg
  · next hctl =>
    obtain rfl := Option.some.inj hs
    rw [hw (by simp [hctl]), hg (by simp [hctl])]
    exact .rests (.inl ⟨hctl, hb.rests hctl⟩) rfl rfl
  · next hctl =>
    obtain rfl := Option.some.inj hs
    rw [hw (by simp [hctl]), hg (by simp [hctl])]
    have hcur : x.cur = none := hb.rests hctl
    unfold unref
    split_ifs
    · unfold Strm.close
      split_ifs
      · exact .rests (.inr rfl) rfl rfl
      · exact .waits (fun c hc => nomatch hcur.symm.trans hc) trivial rfl rfl
      · exact .rests (.inr rfl) rfl rfl
    · exact .rests (.inl ⟨hctl, hcur⟩) rfl rfl
  · next want buf len hctl =>
    obtain rfl := Option.some.inj hs
    obtain ⟨call, hcur, hp⟩ := hb.reads want buf (.inl hctl)
    have hcall : x.curNext (.peeksz len) = some call := hcur
    have hnil : buf ++ gets (.peeksz len) = buf := List.append_nil buf
    rw [hw (by simp [hctl]), gathered_eq (.inl hctl), hcall, hnil]
    exact fits_readNext hp want len
  · next want buf data hctl =>
    obtain rfl := Option.some.inj hs
    obtain ⟨call, hcur, hp⟩ := hb.reads want buf (.inr hctl)
    have hcall : x.curNext (.read data) = some call := hcur
    rw [hw (by simp [hctl]), gathered_eq (.inr hctl), hcall]
    exact fits_onRead hp want data
  · next rest n chunk hctl =>
    obtain rfl := Option.some.inj hs
    obtain ⟨call, buf, hcur, hp, hn, rfl, -⟩ := hb.writes rest n hctl
    have hcall : x.curNext (.write chunk) = some call := hcur
    have hwritten : x.written = buf.take n := by
      unfold End.written
      rw [hctl, hcur]
      simp [hp]
    have hputs : puts x.strm (.write chunk) = (buf.drop n).take chunk.toNat := by
      unfold puts
      rw [hctl]
    rw [hwritten, hputs, hg (by simp [hctl]), hcall]
    exact fits_onWrite hp hn (hc chunk _ n rfl hctl)
  · next os o hctl =>
    obtain rfl := Option.some.inj hs
    rw [hw (by simp [hctl]), hg (by simp [hctl])]
    have hp := hb.waits (by rw [hctl]; trivial)
    rcases o with _ | _ | o
    · exact fits_answered hp rfl rfl
    · exact fits_answered hp rfl rfl
    · exact .waits hp trivial rfl rfl
  · next o hctl =>
    obtain rfl := Option.some.inj hs
    rw [hw (by simp [hctl]), hg (by simp [hctl])]
    have hp := hb.waits (by rw [hctl]; trivial)
    cases o with
    | none => exact fits_answered hp rfl rfl
    | some o => exact fits_answered hp rfl rfl
  · next n hctl =>
    obtain rfl := Option.some.inj hs
    rw [hw (by simp [hctl]), hg (by simp [hctl])]
    exact fits_answered (hb.waits (by rw [hctl]; trivial)) rfl rfl
  · next del hctl =>
    obtain rfl := Option.some.inj hs
    rw [hw (by simp [hctl]), hg (by simp [hctl])]
    have hp := hb.waits (by rw [hctl]; trivial)
    cases del with
    | true => exact .rests (.inr rfl) rfl rfl
    | false => exact fits_answered hp rfl rfl
  · cases hs

/-- What the kernel has done: it has brought the first bytes on their way, and taken the first of those
it was given. -/
theorem answer_spec {q q' : Bytes} {k : Callback} {a : Answer} (h : answer q k a = some (inp, q', out)) :
    q = gets inp ++ q' ∧ (∀ chunk, inp = .write chunk → ∃ buf, k = .write buf ∧ chunk ≤ buf.length ∧
      out = buf.take chunk.toNat) ∧ ((∀ chunk, inp ≠ .write chunk) → out = []) := by
  unfold answer at h
  split at h <;> try cases h
  case h_3 len n => exact ⟨(List.take_append_drop _ _).symm, nofun, fun _ => rfl⟩
  case h_5 buf n =>
    refine ⟨rfl, fun chunk hc => ⟨buf, rfl, ?_, ?_⟩, fun hne => absurd rfl (hne _)⟩
    · cases hc
      rw [List.length_take]
      omega
    · cases hc
      rw [Int.toNat_natCast, List.length_take, ← List.take_eq_take_min]
  case h_6 buf =>
    refine ⟨rfl, fun chunk hc => ⟨buf, rfl, ?_, ?_⟩, fun hne => absurd rfl (hne _)⟩
    · cases hc
      omega
    · cases hc
      rfl
  all_goals exact ⟨rfl, nofun, fun _ => rfl⟩

theorem puts_of_ne (s : Strm) (h : ∀ chunk, inp ≠ .write chunk) : puts s inp = [] := by
  unfold puts
  split
  · next chunk => exact absurd rfl (h chunk)
  · rfl

/-- Only a stream that waits for its callback `write` takes its result. -/
theorem write_of_step {chunk : ℤ} (hs : s.step (.write chunk) = some s') :
    ∃ rest n, s.ctl = .write rest n := by
  unfold Strm.step at hs
  cases hctl : s.ctl with
  | write rest n => exact ⟨rest, n, rfl⟩
  | _ =>
    rw [hctl] at hs
    cases hs

/-- The answer to the callback that the stream of an end waits for. -/
theorem answered {q q' : Bytes} {k : Callback} {a : Answer} (hb : Busy x) (hk : asked x.strm = some k)
    (ha : answer q k a = some (inp, q', out)) : q = gets inp ++ q' ∧
      ((∃ s', x.strm.step inp = some s') → puts x.strm inp = out ∧
        ∀ chunk rest n, inp = .write chunk → x.strm.ctl = .write rest n → chunk ≤ rest.length) := by
  obtain ⟨hq, hwrite, hother⟩ := answer_spec ha
  refine ⟨hq, fun ⟨s', hs⟩ => ?_⟩
  by_cases hinp : ∃ chunk, inp = .write chunk
  · obtain ⟨chunk, rfl⟩ := hinp
    obtain ⟨buf, rfl, hlen, hout⟩ := hwrite chunk rfl
    obtain ⟨rest, n, hctl⟩ := write_of_step hs
    obtain ⟨-, -, -, -, -, -, hasked⟩ := hb.writes rest n hctl
    obtain rfl : buf = rest := by
      have := hk.symm.trans hasked
      simpa using this
    refine ⟨?_, ?_⟩
    · rw [hout]
      unfold puts
      rw [hctl]
    · rintro chunk' rest' n' hc' hctl'
      cases hc'
      cases hctl.symm.trans hctl'
      exact hlen
  · have hne : ∀ chunk, inp ≠ .write chunk := fun chunk h => hinp ⟨chunk, h⟩
    exact ⟨(puts_of_ne _ hne).trans (hother hne).symm, fun chunk _ _ h => absurd h (hne chunk)⟩

/-- What holds of the pair behind every step. -/
structure Inv (s : Pair) : Prop where
  busy : ∀ e, Busy (s.ends e)
  carried : ∀ e, ∃ b, Sent (s.ends e) (b ++ s.queue (!e)) ∧ Taken (s.ends (!e)) b

theorem inv_unPair : Inv unPair where
  busy _ := ⟨fun _ _ h => h.elim nofun nofun, nofun, fun h => h.elim, fun _ => rfl⟩
  carried _ := ⟨[], ⟨[], .nil, rfl⟩, ⟨[], .nil, rfl⟩⟩

/-- An end has written `out`, which is on its way now, and read `got`, which is not any more. -/
theorem Inv.moves {p : Pair} (hi : Inv p) {e : Bool} {q : Bytes} (hbusy : Busy x)
    (hsent : ∀ b, Sent (p.ends e) b → Sent x (b ++ out))
    (htaken : ∀ b, Taken (p.ends e) b → Taken x (b ++ got)) (hq : p.queue e = got ++ q) :
    Inv ⟨Function.update p.ends e x,
      Function.update (Function.update p.queue e q) (!e) (p.queue (!e) ++ out)⟩ := by
  have hne : (!e) ≠ e := by cases e <;> decide
  refine ⟨fun d => ?_, fun d => ?_⟩
  · by_cases hd : d = e
    · subst hd
      show Busy (Function.update p.ends d x d)
      rwa [Function.update_self]
    · show Busy (Function.update p.ends e x d)
      rw [Function.update_of_ne hd]
      exact hi.busy d
  · obtain ⟨b, hb, hb'⟩ := hi.carried d
    have hde : d = e ∨ d = !e := by cases d <;> cases e <;> decide
    rcases hde with rfl | rfl
    · refine ⟨b, ?_, ?_⟩
      · show Sent (Function.update p.ends d x d) (b ++
          Function.update (Function.update p.queue d q) (!d) (p.queue (!d) ++ out) (!d))
        rw [Function.update_self, Function.update_self, ← List.append_assoc]
        exact hsent _ hb
      · show Taken (Function.update p.ends d x (!d)) b
        rwa [Function.update_of_ne hne]
    · rw [Bool.not_not] at hb hb'
      refine ⟨b ++ got, ?_, ?_⟩
      · show Sent (Function.update p.ends e x (!e)) (b ++ got ++
          Function.update (Function.update p.queue e q) (!e) (p.queue (!e) ++ out) (!(!e)))
        rw [Bool.not_not, Function.update_of_ne hne, Function.update_of_ne hne.symm, Function.update_self,
          List.append_assoc, ← hq]
        exact hb
      · show Taken (Function.update p.ends e x (!(!e))) (b ++ got)
        rw [Bool.not_not, Function.update_self]
        exact htaken b hb'

theorem step_eq_some (h : x.step inp = some x') : ∃ s', x.strm.step inp = some s' := by
  unfold End.step at h
  rcases hs : x.strm.step inp with _ | s'
  · rw [hs] at h
    cases h
  · exact ⟨s', rfl⟩

/-- A script calls a procedure, or takes or drops a reference: nothing is written or read. -/
theorem Inv.local {p p' : Pair} (hi : Inv p) {e : Bool} (h : ((p.ends e).step inp).map (p.set e) = some p')
    (hinp : ∀ chunk, inp ≠ .write chunk) (hgets : gets inp = []) : Inv p' := by
  obtain ⟨x, hx, rfl⟩ := Option.map_eq_some_iff.mp h
  obtain ⟨s', hs⟩ := step_eq_some hx
  obtain ⟨x', hx', hbusy, hsent, htaken⟩ := end_step hs
    (fits_step (hi.busy e) hs fun chunk _ _ h => absurd h (hinp chunk))
  obtain rfl : x' = x := Option.some.inj (hx'.symm.trans hx)
  rw [puts_of_ne _ hinp] at hsent
  rw [hgets] at htaken
  have hmoves := hi.moves (q := p.queue e) hbusy hsent htaken rfl
  rwa [Function.update_eq_self, List.append_nil, Function.update_eq_self] at hmoves

/-- One step keeps the invariant. -/
theorem Inv.step {p p' : Pair} {a : Act} (hi : Inv p) (h : step p a = some p') : Inv p' := by
  cases a with
  | call e op arg => exact hi.local h nofun rfl
  | ref e => exact hi.local h nofun rfl
  | unref e => exact hi.local h nofun rfl
  | answer e a =>
    obtain ⟨k, hk, h⟩ := Option.bind_eq_some_iff.mp h
    obtain ⟨⟨inp, q, out⟩, ha, h⟩ := Option.bind_eq_some_iff.mp h
    obtain ⟨x, hx, h⟩ := Option.bind_eq_some_iff.mp h
    obtain rfl := Option.some.inj h
    obtain ⟨s', hs⟩ := step_eq_some hx
    obtain ⟨hq, hrest⟩ := answered (hi.busy e) hk ha
    obtain ⟨hputs, hchunk⟩ := hrest ⟨s', hs⟩
    obtain ⟨x', hx', hbusy, hsent, htaken⟩ := end_step hs (fits_step (hi.busy e) hs hchunk)
    obtain rfl : x' = x := Option.some.inj (hx'.symm.trans hx)
    rw [hputs] at hsent
    exact hi.moves hbusy hsent htaken hq

/-- **Nothing is lost, doubled or overtaken.** In every state of every run of the pair, in both
directions. -/
theorem channel_fifo (acts : List Act) : Runs.Throughout step (fun p => ∀ e, Carried p e) unPair acts := by
  have hinv : Runs.Throughout step Inv unPair acts :=
    Runs.throughout_of_eachStep (fun _ _ _ hi _ h => hi.step h) inv_unPair (Runs.eachStep_true _ _)
  refine hinv.mono fun p hi e => ?_
  obtain ⟨b, ⟨ws, hws, hb⟩, rs, hrs, hb'⟩ := hi.carried e
  exact ⟨ws, rs, hws, hrs, by rw [hb, hb']⟩

/-! ### A read takes all that is there -/

/-- The answers to the system calls of a read, with `q` on its way and the bytes that `recv` is willing
to bring: each `FIONREAD` tells what is there, until there is nothing. -/
def drain (e : Bool) : Bytes → List ℕ → List Act
  | [], _ => [.answer e (.upto 0)]
  | _, [] => [.answer e (.upto 0)]
  | b :: q, n :: ns => .answer e (.upto 0) :: .answer e (.upto n) :: drain e ((b :: q).drop n) ns

/-- A stream that has asked how much there is. -/
structure Peeking (x : End) (call : Bytes × Option Arg) (want : ℤ) (buf : Bytes) : Prop where
  ctl : x.strm.ctl = .peeksz want buf
  asked : asked x.strm = some .peeksz
  cur : x.cur = some call
  ops : x.strm.ops.peeksz = true

/-- The kernel answers a callback. -/
theorem step_answer {p : Pair} {e : Bool} {a : Answer} {k : Callback} {q : Bytes}
    (hk : asked (p.ends e).strm = some k) (ha : answer (p.queue e) k a = some (inp, q, []))
    (hx : (p.ends e).step inp = some x) : ∃ p', step p (.answer e a) = some p' ∧ p'.ends e = x ∧
      p'.queue e = q ∧ p'.queue (!e) = p.queue (!e) := by
  have hne : (!e) ≠ e := by cases e <;> decide
  refine ⟨⟨Function.update p.ends e x,
    Function.update (Function.update p.queue e q) (!e) (p.queue (!e) ++ [])⟩,
    by simp [step, hk, ha, hx], Function.update_self e x p.ends, ?_, ?_⟩
  · show Function.update (Function.update p.queue e q) (!e) (p.queue (!e) ++ []) e = q
    rw [Function.update_of_ne hne.symm, Function.update_self]
  · show Function.update (Function.update p.queue e q) (!e) (p.queue (!e) ++ []) (!e) = _
    rw [Function.update_self, List.append_nil]

/-- There is nothing: the read returns. -/
theorem step_nothing {p : Pair} {e : Bool} {want : ℤ} {buf : Bytes} (hx : Peeking (p.ends e) call want buf)
    (hq : p.queue e = []) : ∃ p', step p (.answer e (.upto 0)) = some p' ∧ p'.queue e = [] ∧
      p'.queue (!e) = p.queue (!e) ∧
      (p'.ends e).log = (p.ends e).log ++ [(call, .read .ok (.str buf) false)] := by
  have hs : (p.ends e).strm.step (.peeksz 0) =
      some ((p.ends e).strm.done (.read .ok (.str buf) false)) := by
    unfold Strm.step
    rw [hx.ctl]
    rfl
  have hlast : ((p.ends e).strm.done (.read .ok (.str buf) false)).trace.getLast? =
      some (.read .ok (.str buf) false) := List.getLast?_concat
  have hback := step_of_idle hs hx.cur rfl hlast
  obtain ⟨p', hstep, hends, hq', hother⟩ := step_answer (a := .upto 0) hx.asked (by rw [hq]; rfl) hback
  exact ⟨p', hstep, hq', hother, by rw [hends]⟩

/-- There are bytes, and some of them are brought. -/
theorem step_brings {p : Pair} {e : Bool} {want : ℤ} {buf q : Bytes} {n : ℕ}
    (hx : Peeking (p.ends e) call want buf) (hq : p.queue e = q) (hne : q ≠ []) (hn : 0 < n)
    (hlt : (q.length : ℤ) < want) : ∃ p', (∀ as, Runs.run step p
        (.answer e (.upto 0) :: .answer e (.upto n) :: as) = Runs.run step p' as) ∧
      Peeking (p'.ends e) call (want - (q.take n).length) (buf ++ q.take n) ∧ p'.queue e = q.drop n ∧
      p'.queue (!e) = p.queue (!e) ∧ (p'.ends e).log = (p.ends e).log := by
  have hpos : 0 < q.length := List.length_pos_iff.mpr hne
  have hs : (p.ends e).strm.step (.peeksz q.length) =
      some ((p.ends e).strm.invoke (.read (min q.length want)) (.read want buf)) := by
    unfold Strm.step readNext
    rw [hx.ctl]
    dsimp only
    rw [if_neg (by omega), if_neg (by omega)]
  obtain ⟨p₁, hstep₁, hends₁, hq₁, hother₁⟩ := step_answer (a := .upto 0) hx.asked (by rw [hq]; rfl)
    (step_of_busy hs (.inl (by exact nofun)))
  have hlen : min n (min (q.length : ℤ) want).toNat = min n q.length := by omega
  have htake : q.take (min n q.length) = q.take n := List.take_eq_take_min.symm
  have hdrop : q.drop (min n q.length) = q.drop n := by
    rcases Nat.le_total n q.length with h | h
    · rw [Nat.min_eq_left h]
    · rw [Nat.min_eq_right h, List.drop_length, List.drop_eq_nil_of_le h]
  have hasked₁ : asked (p₁.ends e).strm = some (.read (min q.length want)) := by
    rw [hends₁]
    unfold asked invoke
    rw [List.getLast?_concat]
  have hs₁ : (p₁.ends e).strm.step (.read (some (q.take n, false, true))) =
      some ((p₁.ends e).strm.invoke .peeksz (.peeksz (want - (q.take n).length) (buf ++ q.take n))) := by
    have hops : (p₁.ends e).strm.ops.peeksz = true := by
      rw [hends₁]
      exact hx.ops
    have hctl : (p₁.ends e).strm.ctl = .read want buf := by rw [hends₁]; rfl
    have hsome : q.take n ≠ [] := fun h =>
      (List.take_eq_nil_iff.mp h).elim (Nat.pos_iff_ne_zero.mp hn) hne
    have hwant : want - (q.take n).length ≠ 0 := by
      have hle : (q.take n).length ≤ q.length := List.length_take_le' n q
      omega
    unfold Strm.step onRead readMore
    rw [hctl]
    dsimp only
    rw [if_neg (by decide), if_neg (by simpa using hsome), if_neg hwant, if_pos hops]
  obtain ⟨p₂, hstep₂, hends₂, hq₂, hother₂⟩ := step_answer (a := .upto n) hasked₁
    (by rw [hq₁]; unfold answer; dsimp only; rw [hlen, htake, hdrop]) (step_of_busy hs₁ (.inl (by exact nofun)))
  refine ⟨p₂, ?_, ⟨?_, ?_, ?_, ?_⟩, hq₂, hother₂.trans hother₁, ?_⟩
  · intro as
    simp only [Runs.run, hstep₁, hstep₂]
  · rw [hends₂]
    rfl
  · rw [hends₂]
    unfold asked invoke
    rw [List.getLast?_concat]
  · rw [hends₂]
    show (p₁.ends e).cur = some call
    rw [hends₁]
    exact hx.cur
  · rw [hends₂]
    show (p₁.ends e).strm.ops.peeksz = true
    rw [hends₁]
    exact hx.ops
  · rw [hends₂]
    show (p₁.ends e).log = _
    rw [hends₁]

/-- The read goes on until there is nothing more, and returns all. -/
theorem run_drain {e : Bool} : ∀ (ns : List ℕ) {p : Pair} {want : ℤ} {buf q : Bytes},
    Peeking (p.ends e) call want buf → p.queue e = q → (q.length : ℤ) < want → (∀ n ∈ ns, 0 < n) →
    q.length ≤ ns.sum → ∃ p', Runs.run step p (drain e q ns) = some p' ∧ p'.queue e = [] ∧
      p'.queue (!e) = p.queue (!e) ∧
      (p'.ends e).log = (p.ends e).log ++ [(call, .read .ok (.str (buf ++ q)) false)]
  | ns, p, want, buf, [], hx, hq, _, _, _ => by
    obtain ⟨p', hstep, hq', hother, hlog⟩ := step_nothing hx hq
    refine ⟨p', ?_, hq', hother, by rw [List.append_nil, hlog]⟩
    simp only [drain, Runs.run, hstep]
  | [], _, _, _, b :: q, _, _, _, _, hsum => by cases hsum
  | n :: ns, p, want, buf, b :: q, hx, hq, hlt, hpos, hsum => by
    obtain ⟨hn, hns⟩ := List.forall_mem_cons.mp hpos
    obtain ⟨p₁, hrun₁, hx₁, hq₁, hother₁, hlog₁⟩ :=
      step_brings hx hq (List.cons_ne_nil b q) hn hlt
    have hlen : ((b :: q).drop n).length ≤ ns.sum := by
      rw [List.length_drop]
      rw [List.sum_cons] at hsum
      omega
    have hlt₁ : (((b :: q).drop n).length : ℤ) < want - ((b :: q).take n).length := by
      have hboth : ((b :: q).take n).length + ((b :: q).drop n).length = (b :: q).length := by
        rw [← List.length_append, List.take_append_drop]
      omega
    obtain ⟨p', hrun, hq', hother, hlog⟩ := run_drain ns hx₁ hq₁ hlt₁ hns hlen
    refine ⟨p', (hrun₁ _).trans hrun, hq', hother.trans hother₁, ?_⟩
    rw [hlog, hlog₁, List.append_assoc, List.take_append_drop]

/-- **A read takes all that is there.** Where an open end has `q` on its way to it, `read` alone returns
`q` and leaves nothing, however many bytes `recv` brings at a time. -/
theorem read_drains (p : Pair) (e : Bool) (ns : List ℕ) (hidle : (p.ends e).strm.ctl = .idle)
    (hopen : (p.ends e).strm.closed = false ∧ (p.ends e).strm.eof = false)
    (hops : (p.ends e).strm.ops = unStreamClientOps) (hlt : ((p.queue e).length : ℤ) < ssizeMax - 1)
    (hpos : ∀ n ∈ ns, 0 < n) (hsum : (p.queue e).length ≤ ns.sum) :
    ∃ p', Runs.run step p (.call e (bytes "read") none :: drain e (p.queue e) ns) = some p' ∧
      p'.queue e = [] ∧ p'.queue (!e) = p.queue (!e) ∧ (p'.ends e).reads = (p.ends e).reads ++ [some (p.queue e)] := by
  have hs : (p.ends e).strm.step (.call (bytes "read") none) =
      some ((p.ends e).strm.invoke .peeksz (.peeksz (ssizeMax - 1) [])) := by
    unfold Strm.step
    rw [hidle]
    have hname : cstr (bytes "read") = bytes "read" := by decide
    simp only [proc, proc₂, hname, if_true, Strm.read, hopen.1, hopen.2, hops, unStreamClientOps, readMore]
    rfl
  obtain ⟨x, hstep, hx⟩ : ∃ x, (p.ends e).step (.call (bytes "read") none) = some x ∧
      x = ⟨(p.ends e).strm.invoke .peeksz (.peeksz (ssizeMax - 1) []), some (bytes "read", none),
        (p.ends e).log⟩ :=
    ⟨_, step_of_busy hs (.inl (by exact nofun)), rfl⟩
  have hends : (p.set e x).ends e = x := by
    show Function.update p.ends e x e = x
    exact Function.update_self _ _ _
  have hpeek : Peeking ((p.set e x).ends e) (bytes "read", none) (ssizeMax - 1) [] := by
    rw [hends, hx]
    refine ⟨rfl, ?_, rfl, ?_⟩
    · unfold asked invoke
      rw [List.getLast?_concat]
    · show (p.ends e).strm.ops.peeksz = true
      rw [hops]
      rfl
  obtain ⟨p', hrun, hq, hother, hlog⟩ := run_drain ns (p := p.set e x) hpeek rfl hlt hpos hsum
  refine ⟨p', ?_, hq, hother, ?_⟩
  · have hcall : step p (.call e (bytes "read") none) = some (p.set e x) := by
      show ((p.ends e).step (.call (bytes "read") none)).map (p.set e) = _
      rw [hstep]
      rfl
    simp only [Runs.run, hcall]
    exact hrun
  · unfold End.reads
    rw [hlog, hends, hx, List.filterMap_append]
    rfl

/-- Two bytes, of which `recv` brings one at a time. -/
theorem read_drains_two : ∃ p', Runs.run step ⟨fun _ => .new, fun _ => [0x61, 0x62]⟩
      (.call true (bytes "read") none :: drain true [0x61, 0x62] [1, 1]) = some p' ∧
    p'.queue true = [] ∧ p'.queue (!true) = [0x61, 0x62] ∧ (p'.ends true).reads = [some [0x61, 0x62]] :=
  read_drains ⟨fun _ => .new, fun _ => [0x61, 0x62]⟩ true [1, 1] rfl ⟨rfl, rfl⟩ rfl (by decide) (by decide)
    (by decide)

end Channel

end Strm

end B6b
