/-
# The way out of a procedure

`return` ends with `B6B_RET`. Every construct that waits for a call passes this result on, but
for a procedure, which returns `B6B_OK` instead, and the third block of a `try`. So the fiber
leaves the constructs around the `return` one by one (`wayOut`), and calls the third blocks that
it passes, until the procedure is back with its caller. `return_leaves`: this is all it does,
whatever the other fibers do, and what `return` has been called with is in `_`.

Key definitions: `Kont.passes`, `wayOut`, `doings`, `OnWay`.
-/
import B6b.Loops
import B6b.Statements
import B6b.Graph
import B6b.Dict

namespace B6b

variable {F S I : Type} {N : Num F}

/-! ### The way -/

/-- The call passes `B6B_RET` on. -/
def Kont.passes : Kont → Bool
  | .stmtArg _ _ _ | .stmtProc | .call _ _ | .map _ _ _ _ _ | .loop _ | .tryBody _ _ | .tryExcept _ => true
  | .proc _ | .tryFinally _ _ _ _ | .thread | .main _ => false

/-- `try`, in its third block. -/
def Kont.inThird : Kont → Bool
  | .tryFinally _ _ _ _ => true
  | _ => false

/-- The third block of a `try` that is in another one. -/
def Kont.third : Kont → Option Addr
  | .tryBody _ f | .tryExcept f => f
  | _ => none

/-- The third block that is next. -/
def Ctl.third : Ctl S → Option Addr
  | .tryEnd _ _ f => f
  | _ => none

/-- What a construct does with `B6B_RET` before it returns it. -/
def Kont.passing : Kont → List (Ctl S)
  | .stmtArg _ _ _ | .stmtProc => [.onRes .ret]
  | .tryBody _ f => [.tryEnd .ret .err f]
  | .tryExcept f => [.tryEnd .err .ret f]
  | _ => []

namespace Unwind

open Literals Nesting

/-- **The way of `B6B_RET`** through the calls `K`, out of the procedure that they are in and of
the statement that has called it. -/
def wayOut : List Kont → List (Ctl S)
  | [] => [.ret .ret, .ret .ok, .onRes .ok]
  | k :: K => .ret .ret :: (k.passing ++ wayOut K)

/-- The way calls the third blocks that it passes, each once, the innermost first. -/
theorem wayOut_third : ∀ K : List Kont, (wayOut K : List (Ctl S)).filterMap Ctl.third = K.filterMap Kont.third
  | [] => rfl
  | k :: K => by
    have hk : (k.passing : List (Ctl S)).filterMap Ctl.third = k.third.toList := by
      cases k with
      | tryBody e f | tryExcept f => cases f <;> rfl
      | _ => rfl
    have hcons : (k :: K).filterMap Kont.third = k.third.toList ++ K.filterMap Kont.third := by
      cases hthird : k.third with
      | none => rw [List.filterMap_cons_none hthird]; rfl
      | some f => rw [List.filterMap_cons_some hthird]; rfl
    rw [hcons, ← hk, ← wayOut_third K, ← List.filterMap_append]
    rfl

/-- The way executes no statement. -/
theorem stmt_not_mem_wayOut (s : Addr) : ∀ K : List Kont, Ctl.stmt s ∉ (wayOut K : List (Ctl S))
  | [] => by simp [wayOut]
  | k :: K => by
    have hk : Ctl.stmt s ∉ (k.passing : List (Ctl S)) := by cases k <;> simp [Kont.passing]
    simp only [wayOut, List.mem_cons, List.mem_append, reduceCtorEq, false_or, not_or]
    exact ⟨hk, stmt_not_mem_wayOut s K⟩

/-! ### What a fiber does -/

/-- The calls above `ks`. -/
def above (ks : List Kont) (t : Fiber S) : List Kont := t.konts.take (t.konts.length - ks.length)

/-- The fiber `id` is next, and in no third block above the calls `ks`. -/
def outside (id : ℕ) (ks : List Kont) (σ : Interp S) : Bool :=
  σ.fg.id = id && (above ks σ.fg).all (!·.inThird)

/-- What the fiber `id` does next, if it is in no third block above `ks`. -/
def doing (id : ℕ) (ks : List Kont) (m : Machine F S) : List (Ctl S) :=
  if outside id ks m.interp then [m.interp.fg.ctl] else []

/-- What the fiber `id` does until it has returned to the calls `ks`, third blocks above them
apart. -/
def doings (nat : Natives N S I) (ks : List Kont) (id : ℕ) : Machine F S → List (Input I) → List (Ctl S)
  | _, [] => []
  | m, inp :: inps =>
    match m.step nat inp with
    | some m' => doing id ks m ++
      if (returned? ks id m'.interp).isSome then [] else doings nat ks id m' inps
    | none => []

theorem doings_cons {nat : Natives N S I} {ks : List Kont} {id : ℕ} {m m' : Machine F S} {inp : Input I}
    {inps : List (Input I)} (hstep : m.step nat inp = some m') (hno : returned? ks id m'.interp = none) :
    doings nat ks id m (inp :: inps) = doing id ks m ++ doings nat ks id m' inps := by
  rw [doings, hstep]
  dsimp only
  rw [hno]
  rfl

/-- The list of arguments is that of a call of `return` with `v`. -/
structure CallsReturn (h : Heap F) (args v : Addr) : Prop where
  lt : args < h.next
  items : ∃ p li, (h.obj args).l = some [p, li] ∧ li.o = v ∧ p.o < h.next ∧
    (h.obj p.o).proc = .builtin .ret

/-- `b6b_local` has bound `_` to `v` in the frame of the fiber. -/
def Bound (N : Num F) (us v : Addr) (t : Fiber S) : Prop :=
  ∃ ls h h', localsSet N us v ls h = .ok t.curr h'

/-- `b6b_local` can bind `_` in the frame of the fiber, if that is next. -/
def CanBind (N : Num F) (m : Machine F S) : Prop := ∀ res, m.interp.fg.ctl = .onRes res →
  ∃ ls h', localsSet N m.interp.shared.us m.interp.fg.ret m.interp.fg.curr m.heap = .ok ls h'

/-! ### The steps of the way -/

/-- Where a fiber is on its way out of a procedure that a statement with the calls `ks` around it
has called, with `v` in `_`, and what it has still to do. -/
inductive OnWay (N : Num F) (us v : Addr) (ks : List Kont) (t : Fiber S) : List (Ctl S) → Prop
  /-- It returns `B6B_RET`. -/
  | returns (a : Addr) (K : List Kont) (hK : ∀ k ∈ K, k.passes = true)
      (hk : t.konts = K ++ .proc a :: .stmtProc :: ks) (hc : t.ctl = .ret .ret) (hv : t.ret = v) :
      OnWay N us v ks t (wayOut K)
  /-- A statement has its result. -/
  | onRes (a : Addr) (K : List Kont) (hK : ∀ k ∈ K, k.passes = true)
      (hk : t.konts = K ++ .proc a :: .stmtProc :: ks) (hc : t.ctl = .onRes .ret) (hv : t.ret = v) :
      OnWay N us v ks t (.onRes .ret :: wayOut K)
  /-- A `try` is behind its first two blocks. -/
  | tryEnd (a : Addr) (K : List Kont) (r e : Res) (f : Option Addr) (hK : ∀ k ∈ K, k.passes = true)
      (hre : r = .ret ∨ r = .err ∧ e = .ret) (hk : t.konts = K ++ .proc a :: .stmtProc :: ks)
      (hc : t.ctl = .tryEnd r e f) (hv : t.ret = v) :
      OnWay N us v ks t (.tryEnd r e f :: wayOut K)
  /-- It is in a third block. -/
  | third (a : Addr) (K Y : List Kont) (r e : Res) (x : Bool) (hK : ∀ k ∈ K, k.passes = true)
      (hre : r = .ret ∨ r = .err ∧ e = .ret)
      (hk : t.konts = Y ++ .tryFinally r e x v :: (K ++ .proc a :: .stmtProc :: ks)) :
      OnWay N us v ks t (wayOut K)
  /-- The procedure has returned `B6B_OK`. -/
  | out (hk : t.konts = .stmtProc :: ks) (hc : t.ctl = .ret .ok) (hv : t.ret = v) :
      OnWay N us v ks t [.ret .ok, .onRes .ok]
  /-- The statement that has called it has its result. -/
  | result (hk : t.konts = ks) (hc : t.ctl = .onRes .ok) (hv : t.ret = v) :
      OnWay N us v ks t [.onRes .ok]
  /-- It is back. -/
  | back (hk : t.konts = ks) (hc : t.ctl = .ret .ok) (hv : t.ret = v) (hb : Bound N us v t) :
      OnWay N us v ks t []

section Steps

variable {nat : Natives N S I} {inp : Input I} {m m' : Machine F S} {a us v : Addr} {K ks : List Kont}
  {todo : List (Ctl S)}

theorem OnWay.like {t u : Fiber S} (h : OnWay N us v ks t todo) (hk : u.konts = t.konts)
    (hc : u.ctl = t.ctl) (hr : u.ret = t.ret) (hcurr : u.curr = t.curr) : OnWay N us v ks u todo := by
  cases h with
  | returns a K hK hk' hc' hv => exact .returns a K hK (hk.trans hk') (hc.trans hc') (hr.trans hv)
  | onRes a K hK hk' hc' hv => exact .onRes a K hK (hk.trans hk') (hc.trans hc') (hr.trans hv)
  | tryEnd a K r e f hK hre hk' hc' hv =>
    exact .tryEnd a K r e f hK hre (hk.trans hk') (hc.trans hc') (hr.trans hv)
  | third a K Y r e x hK hre hk' => exact .third a K Y r e x hK hre (hk.trans hk')
  | out hk' hc' hv => exact .out (hk.trans hk') (hc.trans hc') (hr.trans hv)
  | result hk' hc' hv => exact .result (hk.trans hk') (hc.trans hc') (hr.trans hv)
  | back hk' hc' hv hb =>
    unfold Bound at hb
    rw [← hcurr] at hb
    exact .back (hk.trans hk') (hc.trans hc') (hr.trans hv) hb

/-- Above the calls that `B6B_RET` passes, the fiber is in no third block. -/
theorem all_above {t : Fiber S} {L : List Kont} (hk : t.konts = L ++ ks) :
    (above ks t).all (!·.inThird) = L.all (!·.inThird) := by
  unfold above
  rw [hk, List.length_append, Nat.add_sub_cancel, List.take_left]

theorem passes_outside (hK : ∀ k ∈ K, k.passes = true) {t : Fiber S}
    (hk : t.konts = K ++ .proc a :: .stmtProc :: ks) : (above ks t).all (!·.inThird) = true := by
  have hassoc : t.konts = (K ++ [.proc a, .stmtProc]) ++ ks := by rw [hk, List.append_assoc]; rfl
  rw [all_above hassoc, List.all_eq_true]
  intro k hmem
  rcases List.mem_append.mp hmem with hmem | hmem
  · have hpasses := hK k hmem
    cases k with
    | tryFinally => cases hpasses
    | _ => rfl
  · rcases List.mem_cons.mp hmem with rfl | hmem
    · rfl
    · rw [List.mem_singleton.mp hmem]
      rfl

/-- The machine goes on with the foreground fiber `t`. -/
def reached (m : Machine F S) (e : Bool) (t : Fiber S) : Machine F S :=
  ⟨m.heap, { m.interp with exit := e, fg := t }⟩

/-- A statement that has a frame pops it, and has its result. -/
theorem step_popped (hf : Framed m.interp.nextFrame m.interp.fg) {res : Res} {k : Kont}
    (hctl : m.interp.fg.ctl = .ret res) (hk : m.interp.fg.konts = k :: ks)
    (hres : m.interp.pop.resume (F := F) res k = (do
      let σ ← m.interp.pop.framePop
      pure (σ.goto (.onRes res)))) (hstmts : k.stmts = 1) :
    ∃ t, m.step nat inp = some (reached m m.interp.exit t) ∧ t.konts = ks ∧ t.ctl = .onRes res ∧
      t.ret = m.interp.fg.ret := by
  have hactive : 1 ≤ m.interp.fg.active := by
    simp only [Fiber.active, hk, activeIn, List.map_cons, List.sum_cons, hstmts]
    omega
  have hlen : m.interp.fg.stack.length = m.interp.fg.active + 1 := by
    rw [hf.stack, ← hf.depth, hf.active]
  obtain ⟨f, fs, hprev⟩ : ∃ f fs, m.interp.fg.prev = f :: fs := by
    refine List.exists_cons_of_ne_nil fun hnil => ?_
    simp only [Fiber.stack, hnil, List.length_cons, List.length_nil] at hlen
    omega
  have hpop : m.interp.pop.framePop (F := F) = pure { m.interp.pop with fg := { m.interp.pop.fg with
      curr := f, prev := fs, frames := m.interp.fg.frames.tail, depth := m.interp.fg.depth - 1 } } := by
    unfold Interp.framePop
    rw [show m.interp.pop.fg.prev = f :: fs from hprev]
    rfl
  rw [hpop, Op.pure_bind] at hres
  refine ⟨_, Machine.step_ret hctl hk hres, ?_, rfl, rfl⟩
  show m.interp.fg.konts.tail = ks
  rw [hk]
  rfl

section Next

variable (nat : Natives N S I) (inp : Input I) (us : Addr)

/-- A construct passes `B6B_RET` on. -/
theorem step_passes (hf : Framed m.interp.nextFrame m.interp.fg) (hraise : m.interp.opts.raise = false)
    {k : Kont} (hk : k.passes = true) (hK : ∀ k ∈ K, k.passes = true)
    (hkonts : m.interp.fg.konts = k :: (K ++ .proc a :: .stmtProc :: ks)) (hctl : m.interp.fg.ctl = .ret .ret)
    (hv : m.interp.fg.ret = v) : ∃ t, m.step nat inp = some (reached m m.interp.exit t) ∧
      OnWay N us v ks t (k.passing ++ wayOut K) := by
  have htail : m.interp.pop.fg.konts = K ++ .proc a :: .stmtProc :: ks := by simp [Interp.pop, hkonts]
  cases k with
  | stmtArg stmt li vs =>
    obtain ⟨t, hstep, hk', hc, hr⟩ := step_popped hf hctl hkonts rfl rfl
    exact ⟨t, hstep, .onRes a K hK hk' hc (hr.trans hv)⟩
  | stmtProc =>
    obtain ⟨t, hstep, hk', hc, hr⟩ := step_popped hf hctl hkonts rfl rfl
    exact ⟨t, hstep, .onRes a K hK hk' hc (hr.trans hv)⟩
  | call | map | loop => exact ⟨_, Machine.step_ret hctl hkonts rfl, .returns a K hK htail rfl hv⟩
  | tryBody e f =>
    exact ⟨_, Machine.step_ret hctl hkonts rfl, .tryEnd a K .ret .err f hK (.inl rfl) htail rfl hv⟩
  | tryExcept f =>
    have hres : m.interp.pop.resume (F := F) .ret (.tryExcept f) =
        pure (m.interp.pop.goto (.tryEnd .err .ret f)) := by
      have hraise' : m.interp.pop.opts.raise = false := hraise
      unfold Interp.resume
      dsimp only
      rw [hraise', if_neg (by simp)]
    exact ⟨_, Machine.step_ret hctl hkonts hres, .tryEnd a K .err .ret f hK (.inr ⟨rfl, rfl⟩) htail rfl hv⟩
  | proc | tryFinally | thread | main => cases hk

/-- The procedure returns `B6B_OK`. -/
theorem step_proc (hkonts : m.interp.fg.konts = .proc a :: .stmtProc :: ks)
    (hctl : m.interp.fg.ctl = .ret .ret) (hv : m.interp.fg.ret = v) :
    ∃ t, m.step nat inp = some (reached m m.interp.exit t) ∧
      OnWay N us v ks t [.ret .ok, .onRes .ok] := by
  have htail : m.interp.pop.fg.konts = .stmtProc :: ks := by simp [Interp.pop, hkonts]
  exact ⟨_, Machine.step_ret hctl hkonts rfl, .out htail rfl hv⟩

/-- The statement that has called the procedure has its result. -/
theorem step_out (hf : Framed m.interp.nextFrame m.interp.fg) (hkonts : m.interp.fg.konts = .stmtProc :: ks)
    (hctl : m.interp.fg.ctl = .ret .ok) (hv : m.interp.fg.ret = v) :
    ∃ t, m.step nat inp = some (reached m m.interp.exit t) ∧ OnWay N us v ks t [.onRes .ok] := by
  obtain ⟨t, hstep, hk, hc, hr⟩ := step_popped hf hctl hkonts rfl rfl
  exact ⟨t, hstep, .result hk hc (hr.trans hv)⟩

/-- `try` calls its third block, if it has one. -/
theorem step_tryEnd {r e : Res} {f : Option Addr} (hK : ∀ k ∈ K, k.passes = true)
    (hre : r = .ret ∨ r = .err ∧ e = .ret) (hkonts : m.interp.fg.konts = K ++ .proc a :: .stmtProc :: ks)
    (hctl : m.interp.fg.ctl = .tryEnd r e f) (hv : m.interp.fg.ret = v) :
    ∃ x t, m.step nat inp = some (reached m x t) ∧ OnWay N us v ks t (wayOut K) := by
  have hstep : m.step nat inp = some ⟨m.heap, m.interp.tryEnd r e f⟩ := by
    unfold Machine.step Interp.step
    rw [hctl]
    rfl
  cases f with
  | none =>
    refine ⟨_, _, hstep, .returns a K hK hkonts ?_ hv⟩
    rcases hre with rfl | ⟨rfl, rfl⟩
    · rfl
    · rfl
  | some f =>
    refine ⟨_, _, hstep, .third a K [] r e m.interp.exit hK hre ?_⟩
    show Kont.tryFinally r e m.interp.exit m.interp.fg.ret :: m.interp.fg.konts = _
    rw [hv, hkonts]
    rfl

/-- Behind the third block `try` returns `B6B_RET`, whatever the block has returned, and what was in
`_` is back. -/
theorem step_third {r e res : Res} {x : Bool} (hK : ∀ k ∈ K, k.passes = true)
    (hre : r = .ret ∨ r = .err ∧ e = .ret)
    (hkonts : m.interp.fg.konts = .tryFinally r e x v :: (K ++ .proc a :: .stmtProc :: ks))
    (hctl : m.interp.fg.ctl = .ret res) :
    ∃ t, m.step nat inp = some (reached m x t) ∧ OnWay N us v ks t (wayOut K) := by
  have htail : m.interp.pop.fg.konts = K ++ .proc a :: .stmtProc :: ks := by simp [Interp.pop, hkonts]
  have hres : m.interp.pop.resume (F := F) res (.tryFinally r e x v) =
      pure (({ m.interp.pop with exit := x }.setRet v).goto (.ret .ret)) := by
    rcases hre with rfl | ⟨rfl, rfl⟩
    · rfl
    · rfl
  exact ⟨_, Machine.step_ret hctl hkonts hres, .returns a K hK htail rfl rfl⟩

end Next

/-! ### `b6b_on_res` -/

/-- What `b6b_on_res` makes of the interpreter, with `_` bound in `ls`. -/
def resulted (res : Res) (ls : Locals) (σ : Interp S) : Interp S :=
  let σ' := { σ with qstep := σ.qstep + 1, fg := { σ.fg with curr := ls } }
  if σ.qstep + 1 = Interp.quantLen then σ'.yield fun _ => .ret res else σ'.goto (.ret res)

theorem onRes_eq (σ : Interp S) {res : Res} (hy : res ≠ .yield) (he : res ≠ .exit) :
    σ.onRes N res = (do
      let ls ← localsSet (F := F) N σ.shared.us σ.fg.ret σ.fg.curr
      pure (resulted res ls σ)) := by
  unfold Interp.onRes
  rw [if_neg hy]
  unfold Interp.setAt
  rw [Op.bind_assoc]
  refine Op.bind_congr fun ls => ?_
  rw [Op.pure_bind, if_neg he]
  unfold resulted
  dsimp only
  split
  · rfl
  · rfl

/-- A fiber with a result is where it was, and `_` is bound. -/
theorem resulted_fiber {σ : Interp S} (hd : Interp.Distinct σ) {res : Res} {ls : Locals} {u : Fiber S}
    (hu : u ∈ (resulted res ls σ).fibers) (hid : u.id = σ.fg.id) :
    u.konts = σ.fg.konts ∧ u.ctl = .ret res ∧ u.ret = σ.fg.ret ∧ u.curr = ls := by
  have hother : ¬ ∃ w ∈ σ.before ++ σ.after, u = w ∨ u = w.swapIn := by
    rintro ⟨w, hw, rfl | rfl⟩
    · exact distinct_ne_fg hd hw hid
    · exact distinct_ne_fg hd hw hid
  unfold resulted at hu
  dsimp only at hu
  split at hu
  · obtain ⟨y, hy⟩ := ((Interp.yield_fibers _ _).2 u hu).resolve_left hother
    rcases hy with rfl | rfl
    · exact ⟨rfl, rfl, rfl, rfl⟩
    · exact ⟨rfl, rfl, rfl, rfl⟩
  · rcases List.mem_append.mp hu with hu | hu
    · exact absurd ⟨u, List.mem_append_left _ hu, .inl rfl⟩ hother
    · rcases List.mem_cons.mp hu with rfl | hu
      · exact ⟨rfl, rfl, rfl, rfl⟩
      · exact absurd ⟨u, List.mem_append_right _ hu, .inl rfl⟩ hother

theorem step_onRes {res : Res} (hctl : m.interp.fg.ctl = .onRes res) (hy : res ≠ .yield)
    (he : res ≠ .exit) : m.step nat inp = some m' ↔ ∃ ls,
      localsSet N m.interp.shared.us m.interp.fg.ret m.interp.fg.curr m.heap = .ok ls m'.heap ∧
        m'.interp = resulted res ls m.interp := by
  have hstep : m.interp.step nat inp m.heap = m.interp.onRes N res m.heap := by
    unfold Interp.step
    rw [hctl]
  unfold Machine.step
  rw [hstep, onRes_eq _ hy he, Op.bind_apply]
  cases localsSet N m.interp.shared.us m.interp.fg.ret m.interp.fg.curr m.heap with
  | ok ls h =>
    constructor
    · intro h
      obtain rfl := Option.some.inj h
      exact ⟨ls, rfl, rfl⟩
    · rintro ⟨ls', hls, hσ⟩
      obtain ⟨rfl, rfl⟩ := Outcome.ok.inj hls
      obtain ⟨h', σ'⟩ := m'
      obtain rfl := hσ
      rfl
  | fail h => exact iff_of_false nofun fun ⟨_, hls, _⟩ => nomatch hls
  | crash => exact iff_of_false nofun fun ⟨_, hls, _⟩ => nomatch hls

end Steps

/-! ### A run -/

/-- The fiber `id` is on its way, with `todo` left. -/
structure Leaving (N : Num F) (id : ℕ) (us v : Addr) (ks : List Kont) (todo : List (Ctl S))
    (m : Machine F S) : Prop where
  nested : Nested m.interp
  lt : id < m.interp.nextId
  shared : m.interp.shared.us = us
  way : ∀ t ∈ m.interp.fibers, t.id = id → OnWay N us v ks t todo

section Runs

variable {nat : Natives N S I} {inp : Input I} {m m' : Machine F S} {id : ℕ} {us v : Addr}
  {K ks : List Kont} {todo todo' : List (Ctl S)}

/-- What a step makes of it is a matter of the fiber. -/
theorem Leaving.of_step (h : Leaving N id us v ks todo m) (hstep : m.step nat inp = some m')
    (hway : ∀ u ∈ m'.interp.fibers, u.id = id → OnWay N us v ks u todo') :
    Leaving N id us v ks todo' m' := by
  have hmove := (Machine.step_spec hstep).1
  exact ⟨h.nested.step hstep, Nat.lt_of_lt_of_le h.lt hmove.nextId_le,
    (congrArg Shared.us hmove.shared).trans h.shared, hway⟩

/-- A fiber that is not in the foreground keeps all it has. -/
theorem Leaving.of_other (h : Leaving N id us v ks todo m) (hid : m.interp.fg.id ≠ id)
    (hstep : m.step nat inp = some m') : Leaving N id us v ks todo m' := by
  refine h.of_step hstep fun u hu huid => ?_
  rcases Machine.step_turns hstep u hu with ⟨w, hw, rfl | rfl⟩ | ⟨hfg, -⟩ | ⟨fn, rfl⟩
  · exact h.way _ (other_mem hw) huid
  · exact (h.way w (other_mem hw) huid).like rfl rfl rfl rfl
  · exact absurd (hfg.symm.trans huid) hid
  · exact absurd huid (Nat.ne_of_gt h.lt)

/-- The fiber has done a step of its way. -/
theorem Leaving.of_reached (h : Leaving N id us v ks todo m) {x : Bool} {t : Fiber S}
    (hstep : m.step nat inp = some (reached m x t)) (hid : m.interp.fg.id = id)
    (hway : OnWay N us v ks t todo') : Leaving N id us v ks todo' (reached m x t) := by
  refine h.of_step hstep fun u hu huid => ?_
  have hne : ∀ w ∈ m.interp.before ++ m.interp.after, w.id ≠ id := fun w hw =>
    hid ▸ distinct_ne_fg h.nested.distinct hw
  rcases List.mem_append.mp hu with hu | hu
  · exact absurd huid (hne u (List.mem_append_left _ hu))
  · rcases List.mem_cons.mp hu with rfl | hu
    · exact hway
    · exact absurd huid (hne u (List.mem_append_right _ hu))

/-- A statement on the way has its result. -/
theorem Leaving.of_onRes (h : Leaving N id us v ks todo m) (hid : m.interp.fg.id = id) {res : Res}
    (hctl : m.interp.fg.ctl = .onRes res) (hy : res ≠ .yield) (he : res ≠ .exit)
    (hv : m.interp.fg.ret = v) (hstep : m.step nat inp = some m')
    (hway : ∀ u : Fiber S, u.konts = m.interp.fg.konts → u.ctl = .ret res → u.ret = v →
      Bound N us v u → OnWay N us v ks u todo') : Leaving N id us v ks todo' m' := by
  refine h.of_step hstep fun u hu huid => ?_
  obtain ⟨ls, hls, hσ⟩ := (step_onRes hctl hy he).mp hstep
  rw [hσ] at hu
  obtain ⟨hk, hc, hr, hcurr⟩ := resulted_fiber h.nested.distinct hu (huid.trans hid.symm)
  rw [h.shared, hv, ← hcurr] at hls
  exact hway u hk hc (hr.trans hv) ⟨_, _, _, hls⟩

/-- A third block goes on. -/
theorem Leaving.of_third (h : Leaving N id us v ks todo m) (hid : m.interp.fg.id = id) {Y : List Kont}
    {r e : Res} {x : Bool} (hK : ∀ k ∈ K, k.passes = true) (hre : r = .ret ∨ r = .err ∧ e = .ret)
    (hk : m.interp.fg.konts = Y ++ .tryFinally r e x v :: (K ++ .proc a :: .stmtProc :: ks))
    (hret : ∀ res, m.interp.fg.ctl = .ret res → Y ≠ []) (hstep : m.step nat inp = some m') :
    Leaving N id us v ks (wayOut K) m' := by
  refine h.of_step hstep fun u hu huid => ?_
  rcases Machine.step_turns hstep u hu with ⟨w, hw, hor⟩ | ⟨-, ht, -⟩ | ⟨fn, rfl⟩
  · have hwid : w.id = id := by
      rcases hor with rfl | rfl
      · exact huid
      · exact huid
    exact absurd hwid (hid ▸ distinct_ne_fg h.nested.distinct hw)
  · obtain ⟨new, hnew, -⟩ := Statements.turn_konts ht
    obtain ⟨Y', hY'⟩ : ∃ Y', m.interp.fg.rest =
        Y' ++ .tryFinally r e x v :: (K ++ .proc a :: .stmtProc :: ks) := by
      by_cases hctl : ∃ res, m.interp.fg.ctl = .ret res
      · obtain ⟨res, hc⟩ := hctl
        obtain ⟨k, Y, rfl⟩ := List.exists_cons_of_ne_nil (hret res hc)
        exact ⟨Y, by simp [Fiber.rest, hc, hk]⟩
      · exact ⟨Y, (Interp.rest_of_ne fun r hr => hctl ⟨r, hr⟩).trans hk⟩
    exact .third a K (new ++ Y') r e x hK hre (by rw [hnew, hY', List.append_assoc])
  · exact absurd huid (Nat.ne_of_gt h.lt)

/-- **What one step on the way does.** If the fiber is next and in no third block, it does what is
next on its way; else nothing is taken from its way. -/
theorem Leaving.step (h : Leaving N id us v ks todo m) (hno : returned? ks id m.interp = none)
    (hraise : m.interp.opts.raise = false) (hstep : m.step nat inp = some m') :
    ∃ todo', Leaving N id us v ks todo' m' ∧ todo = doing id ks m ++ todo' := by
  by_cases hid : m.interp.fg.id = id
  swap
  · refine ⟨todo, h.of_other hid hstep, ?_⟩
    simp [doing, outside, hid]
  have hframed := h.nested.framed _ (fg_mem m.interp)
  have hdoing : (above ks m.interp.fg).all (!·.inThird) = true → doing id ks m = [m.interp.fg.ctl] := by
    intro hall
    unfold doing outside
    rw [hall, decide_eq_true hid]
    rfl
  have hreached : ∀ {x t todo'}, m.step nat inp = some (reached m x t) → OnWay N us v ks t todo' →
      Leaving N id us v ks todo' m' := by
    intro x t todo' hstep' hway
    obtain rfl := Option.some.inj (hstep.symm.trans hstep')
    exact h.of_reached hstep' hid hway
  cases h.way _ (fg_mem _) hid with
  | returns a K hK hk hc hv =>
    have hown := hdoing (passes_outside hK hk)
    rw [hc] at hown
    cases K with
    | nil =>
      obtain ⟨t, hstep', hway⟩ := step_proc nat inp us hk hc hv
      exact ⟨_, hreached hstep' hway, by rw [hown]; rfl⟩
    | cons k K =>
      obtain ⟨hk₁, hK₁⟩ := List.forall_mem_cons.mp hK
      obtain ⟨t, hstep', hway⟩ := step_passes nat inp us hframed hraise hk₁ hK₁ hk hc hv
      exact ⟨_, hreached hstep' hway, by rw [hown]; rfl⟩
  | onRes a K hK hk hc hv =>
    have hown := hdoing (passes_outside hK hk)
    rw [hc] at hown
    refine ⟨wayOut K, h.of_onRes hid hc nofun nofun hv hstep ?_, by rw [hown]; rfl⟩
    exact fun u hk' hc' hr _ => .returns a K hK (hk'.trans hk) hc' hr
  | tryEnd a K r e f hK hre hk hc hv =>
    have hown := hdoing (passes_outside hK hk)
    rw [hc] at hown
    obtain ⟨x, t, hstep', hway⟩ := step_tryEnd nat inp us hK hre hk hc hv
    exact ⟨_, hreached hstep' hway, by rw [hown]; rfl⟩
  | third a K Y r e x hK hre hk =>
    have hown : doing id ks m = [] := by
      have hassoc : m.interp.fg.konts = (Y ++ .tryFinally r e x v :: (K ++ [.proc a, .stmtProc])) ++ ks := by
        rw [hk]
        simp
      unfold doing outside
      rw [all_above hassoc]
      simp [Kont.inThird]
    refine ⟨wayOut K, ?_, by rw [hown]; rfl⟩
    by_cases hback : Y = [] ∧ ∃ res, m.interp.fg.ctl = .ret res
    · obtain ⟨rfl, res, hc⟩ := hback
      obtain ⟨t, hstep', hway⟩ := step_third nat inp us hK hre hk hc
      exact hreached hstep' hway
    · exact h.of_third hid hK hre hk (fun res hc hY => hback ⟨hY, res, hc⟩) hstep
  | out hk hc hv =>
    have hown := hdoing (by rw [all_above (L := [.stmtProc]) hk]; rfl)
    rw [hc] at hown
    obtain ⟨t, hstep', hway⟩ := step_out nat inp us hframed hk hc hv
    exact ⟨_, hreached hstep' hway, by rw [hown]; rfl⟩
  | result hk hc hv =>
    have hown := hdoing (by rw [all_above (L := []) hk]; rfl)
    rw [hc] at hown
    refine ⟨[], h.of_onRes hid hc nofun nofun hv hstep ?_, by rw [hown]; rfl⟩
    exact fun u hk' hc' hr hb => .back (hk'.trans hk) hc' hr hb
  | back hk hc hv hb =>
    rw [returned_eq_some.mpr ⟨hc, hk, hid⟩] at hno
    cases hno

/-- **The way is never blocked**, as long as `_` can be bound. -/
theorem Leaving.goes (nat : Natives N S I) (inp : Input I) (h : Leaving N id us v ks todo m)
    (hno : returned? ks id m.interp = none) (hraise : m.interp.opts.raise = false)
    (hout : outside id ks m.interp = true) (hbind : CanBind N m) :
    (∃ rest, todo = m.interp.fg.ctl :: rest) ∧ (m.step nat inp).isSome := by
  obtain ⟨hid, hall⟩ := Bool.and_eq_true_iff.mp hout
  replace hid := of_decide_eq_true hid
  have hframed := h.nested.framed _ (fg_mem m.interp)
  have hresult : ∀ {res}, m.interp.fg.ctl = .onRes res → res ≠ .yield → res ≠ .exit →
      (m.step nat inp).isSome := by
    intro res hc hy he
    obtain ⟨ls, h', hls⟩ := hbind res hc
    exact Option.isSome_iff_exists.mpr
      ⟨⟨h', resulted res ls m.interp⟩, (step_onRes hc hy he).mpr ⟨ls, hls, rfl⟩⟩
  cases h.way _ (fg_mem _) hid with
  | returns a K hK hk hc hv =>
    cases K with
    | nil =>
      obtain ⟨t, hstep, -⟩ := step_proc nat inp us hk hc hv
      exact ⟨⟨_, by rw [hc]; rfl⟩, by rw [hstep]; rfl⟩
    | cons k K =>
      obtain ⟨hk₁, hK₁⟩ := List.forall_mem_cons.mp hK
      obtain ⟨t, hstep, -⟩ := step_passes nat inp us hframed hraise hk₁ hK₁ hk hc hv
      exact ⟨⟨_, by rw [hc]; rfl⟩, by rw [hstep]; rfl⟩
  | onRes a K hK hk hc hv => exact ⟨⟨_, by rw [hc]⟩, hresult hc nofun nofun⟩
  | tryEnd a K r e f hK hre hk hc hv =>
    obtain ⟨x, t, hstep, -⟩ := step_tryEnd nat inp us hK hre hk hc hv
    exact ⟨⟨_, by rw [hc]⟩, by rw [hstep]; rfl⟩
  | third a K Y r e x hK hre hk =>
    have hassoc : m.interp.fg.konts = (Y ++ .tryFinally r e x v :: (K ++ [.proc a, .stmtProc])) ++ ks := by
      rw [hk]
      simp
    rw [all_above hassoc] at hall
    simp [Kont.inThird] at hall
  | out hk hc hv =>
    obtain ⟨t, hstep, -⟩ := step_out nat inp us hframed hk hc hv
    exact ⟨⟨_, by rw [hc]⟩, by rw [hstep]; rfl⟩
  | result hk hc hv => exact ⟨⟨_, by rw [hc]⟩, hresult hc nofun nofun⟩
  | back hk hc hv hb =>
    rw [returned_eq_some.mpr ⟨hc, hk, hid⟩] at hno
    cases hno

/-- Back with the calls `ks`, there is nothing left to do. -/
theorem Leaving.returned (h : Leaving N id us v ks todo m) {res : Res}
    (hret : returned? ks id m.interp = some res) :
    todo = [] ∧ res = .ok ∧ m.interp.fg.ret = v ∧ Bound N us v m.interp.fg := by
  obtain ⟨hctl, hkonts, hid⟩ := returned_eq_some.mp hret
  have hlen : ∀ {L : List Kont}, m.interp.fg.konts = L ++ ks → L = [] := by
    intro L hL
    rw [hkonts] at hL
    exact List.self_eq_append_left.mp hL
  cases h.way _ (fg_mem _) hid with
  | returns a K hK hk hc hv =>
    have hnil := hlen (L := K ++ [.proc a, .stmtProc]) (by rw [hk, List.append_assoc]; rfl)
    simp at hnil
  | onRes a K hK hk hc hv => exact nomatch hctl.symm.trans hc
  | tryEnd a K r e f hK hre hk hc hv => exact nomatch hctl.symm.trans hc
  | third a K Y r e x hK hre hk =>
    have hnil := hlen (L := Y ++ .tryFinally r e x v :: (K ++ [.proc a, .stmtProc])) (by rw [hk]; simp)
    simp at hnil
  | out hk hc hv => exact nomatch hlen (L := [.stmtProc]) hk
  | result hk hc hv => exact nomatch hctl.symm.trans hc
  | back hk hc hv hb => exact ⟨rfl, (Ctl.ret.inj (hctl.symm.trans hc)), hv, hb⟩

/-- What it has done when it is back, is all its way. -/
theorem Leaving.runTo : ∀ {inps : List (Input I)} {m m' : Machine F S} {todo : List (Ctl S)} {res : Res},
    Leaving N id us v ks todo m → returned? ks id m.interp = none →
    Runs.Throughout (Machine.step nat) (fun m => m.interp.opts.raise = false) m inps →
    runTo nat ks id m inps = some (m', res) → doings nat ks id m inps = todo ∧
      res = .ok ∧ m'.interp.fg.ret = v ∧ Bound N us v m'.interp.fg
  | [], _, _, _, _, _, _, _, h => nomatch h
  | inp :: inps, m, m', todo, res, hm, hno, hraise, h => by
    obtain ⟨m₁, hstep, h⟩ := Option.bind_eq_some_iff.mp h
    obtain ⟨todo', hm₁, rfl⟩ := hm.step hno hraise.head hstep
    have hraise' := hraise.2
    unfold doings
    rw [hstep] at hraise' ⊢
    dsimp only at hraise' ⊢
    rcases hret : returned? ks id m₁.interp with _ | r <;> rw [hret] at h
    · obtain ⟨hdo, hrest⟩ := Leaving.runTo hm₁ hret hraise' h
      exact ⟨congrArg _ hdo, hrest⟩
    · cases h
      obtain ⟨rfl, hrest⟩ := hm₁.returned hret
      exact ⟨rfl, hrest⟩

/-- Until it is back, it has a part of its way left. -/
theorem Leaving.run : ∀ {inps : List (Input I)} {m m' : Machine F S} {todo : List (Ctl S)},
    Leaving N id us v ks todo m → returned? ks id m.interp = none →
    Runs.Throughout (Machine.step nat) (fun m => m.interp.opts.raise = false) m inps →
    Runs.run (Machine.step nat) m inps = some m' → Literals.runTo nat ks id m inps = none →
      ∃ todo', Leaving N id us v ks todo' m' ∧ todo = doings nat ks id m inps ++ todo' ∧
        returned? ks id m'.interp = none
  | [], m, m', todo, hm, hno, _, h, _ => by
    obtain rfl := Option.some.inj h
    exact ⟨todo, hm, rfl, hno⟩
  | inp :: inps, m, m', todo, hm, hno, hraise, h, hto => by
    have hraise' := hraise.2
    unfold Runs.run at h
    unfold Literals.runTo at hto
    unfold doings
    rcases hstep : m.step nat inp with _ | m₁ <;> rw [hstep] at h hto hraise'
    · cases h
    obtain ⟨todo', hm₁, rfl⟩ := hm.step hno hraise.head hstep
    rw [Option.bind_some] at hto
    dsimp only at hraise' ⊢
    rcases hret : returned? ks id m₁.interp with _ | r <;> rw [hret] at hto
    · obtain ⟨todo'', hm', hdo, hno'⟩ := Leaving.run hm₁ hret hraise' h hto
      exact ⟨todo'', hm', by rw [hdo, List.append_assoc]; rfl, hno'⟩
    · cases hto

end Runs

/-! ### Every `return` -/

section Every

variable {nat : Natives N S I} {inp : Input I} {m m' : Machine F S} {a args v : Addr} {K ks : List Kont}

/-- `return` ends with `B6B_RET`, and leaves its argument in `_`. -/
theorem step_return (nat : Natives N S I) (inp : Input I) (hctl : m.interp.fg.ctl = .invoke args)
    (hargs : CallsReturn m.heap args v) :
    m.step nat inp = some (reached m m.interp.exit { m.interp.fg with ctl := .ret .ret, ret := v }) := by
  obtain ⟨p, li, hl, rfl, hp, hproc⟩ := hargs.items
  have hitems := items_ok hargs.lt hl
  have hparse : listVparse N args "o|o" true m.heap = .ok [p.o, li.o] m.heap := by
    unfold listVparse
    rw [Op.bind_ok hitems]
    rfl
  have hreply : coreProcReturn N args m.heap = .ok (.ret, some li.o) m.heap := by
    unfold coreProcReturn endProc getArgs getArgsThen
    rw [Op.bind_ok (Op.attempt_ok hparse)]
    rfl
  have hinvoke : m.interp.invoke nat inp args m.heap = .ok (m.interp.finish (.ret, some li.o)) m.heap := by
    unfold Interp.invoke
    rw [Op.bind_ok hitems]
    dsimp only
    rw [Op.bind_ok (load_ok hp), hproc]
    exact Op.bind_ok hreply _
  unfold Machine.step Interp.step
  rw [hctl]
  dsimp only
  rw [hinvoke]
  rfl

/-- The way out begins. -/
theorem leaving_start (hm : Nested m.interp) (hctl : m.interp.fg.ctl = .invoke args)
    (hargs : CallsReturn m.heap args v) (hk : m.interp.fg.konts = K ++ .proc a :: .stmtProc :: ks)
    (hK : ∀ k ∈ K, k.passes = true) (hstep : m.step nat inp = some m') :
    Leaving N m.interp.fg.id m.interp.shared.us v ks (wayOut K) m' := by
  have hmove := (Machine.step_spec hstep).1
  have hlt : m.interp.fg.id < m.interp.nextId :=
    hm.distinct.lt _ (List.mem_map_of_mem (fg_mem _))
  refine ⟨hm.step hstep, Nat.lt_of_lt_of_le hlt hmove.nextId_le, congrArg Shared.us hmove.shared,
    fun u hu hid => ?_⟩
  rw [step_return nat inp hctl hargs] at hstep
  obtain rfl := Option.some.inj hstep
  rcases List.mem_append.mp hu with hu | hu
  · exact absurd hid (distinct_ne_fg hm.distinct (List.mem_append_left _ hu))
  · rcases List.mem_cons.mp hu with rfl | hu
    · exact .returns a K hK hk rfl rfl
    · exact absurd hid (distinct_ne_fg hm.distinct (List.mem_append_right _ hu))

/-- A caller that runs code goes on with its next statement. -/
theorem step_back {stmts : Addr} {li : Litem} (hctl : m.interp.fg.ctl = .ret .ok)
    (hk : m.interp.fg.konts = .call stmts li :: ks) (hstep : m.step nat inp = some m') :
    ∃ lis li', (m.heap.obj stmts).l = some lis ∧ nextOf li lis = some li' ∧
      m'.interp.fg.ctl = .callAt stmts li' ∧ m'.interp.fg.konts = ks := by
  have htail : m.interp.pop.fg.konts = ks := by simp [Interp.pop, hk]
  have hret : m.interp.step nat inp m.heap = (do
      let li' ← listNext stmts li
      pure (m.interp.pop.goto (.callAt stmts li'))) m.heap := by
    unfold Interp.step Interp.ret
    rw [hctl]
    dsimp only
    rw [hk]
    rfl
  have hok := Machine.step_eq_some hstep
  rw [hret] at hok
  obtain ⟨li', h₂, hnext, hgoto⟩ := Op.bind_eq_ok.mp hok
  obtain ⟨hσ, -⟩ := Outcome.ok.inj hgoto
  obtain ⟨lis, h₁, hitems, hli⟩ := Op.bind_eq_ok.mp hnext
  obtain ⟨rfl, -, hl⟩ := (items_returns stmts m.heap).ok hitems
  cases hn : nextOf li lis with
  | none =>
    rw [hn] at hli
    cases hli
  | some li'' =>
    rw [hn] at hli
    obtain ⟨rfl, -⟩ := Outcome.ok.inj hli
    rw [← hσ]
    exact ⟨lis, li'', hl, hn, rfl, htail⟩

/-- The first step of the way. -/
theorem first_step (nat : Natives N S I) (inp : Input I) (inps : List (Input I)) (hm : Nested m.interp)
    (hctl : m.interp.fg.ctl = .invoke args) (hargs : CallsReturn m.heap args v)
    (hk : m.interp.fg.konts = K ++ .proc a :: .stmtProc :: ks)
    (hK : ∀ k ∈ K, k.passes = true) :
    ∃ m₁, m.step nat inp = some m₁ ∧ Leaving N m.interp.fg.id m.interp.shared.us v ks (wayOut K) m₁ ∧
      returned? ks m.interp.fg.id m₁.interp = none ∧
      doings nat ks m.interp.fg.id m (inp :: inps) = .invoke args :: doings nat ks m.interp.fg.id m₁ inps := by
  have hstep := step_return nat inp hctl hargs
  have hleaving := leaving_start hm hctl hargs hk hK hstep
  have hno : returned? ks m.interp.fg.id (reached m m.interp.exit
      { m.interp.fg with ctl := .ret .ret, ret := v }).interp = none := by
    refine Option.eq_none_iff_forall_ne_some.mpr fun res hres => ?_
    have hnil := (hleaving.returned hres).1
    cases K <;> cases hnil
  refine ⟨_, hstep, hleaving, hno, ?_⟩
  have hdoing : doing m.interp.fg.id ks m = [.invoke args] := by
    unfold doing outside
    rw [passes_outside hK hk, decide_eq_true rfl, hctl]
    rfl
  rw [doings_cons hstep hno, hdoing]
  rfl

/-- Behind the way out, the procedure has returned. -/
theorem return_back {inps : List (Input I)} {res : Res} (hm : Nested m.interp)
    (hctl : m.interp.fg.ctl = .invoke args) (hargs : CallsReturn m.heap args v)
    (hk : m.interp.fg.konts = K ++ .proc a :: .stmtProc :: ks) (hK : ∀ k ∈ K, k.passes = true)
    (hraise : Runs.Throughout (Machine.step nat) (fun m => m.interp.opts.raise = false) m inps)
    (hto : runTo nat ks m.interp.fg.id m inps = some (m', res)) :
    (res = .ok ∧ m'.interp.fg.ret = v ∧ Bound N m.interp.shared.us v m'.interp.fg) ∧
    doings nat ks m.interp.fg.id m inps = .invoke args :: wayOut K ∧
    (∀ stmt, .stmt stmt ∉ doings nat ks m.interp.fg.id m inps) ∧
    (doings nat ks m.interp.fg.id m inps).filterMap Ctl.third = K.filterMap Kont.third ∧
    ∀ stmts li ks', ks = .call stmts li :: ks' → ∀ inp m'', m'.step nat inp = some m'' →
      ∃ lis li', (m'.heap.obj stmts).l = some lis ∧ nextOf li lis = some li' ∧
        m''.interp.fg.ctl = .callAt stmts li' ∧ m''.interp.fg.konts = ks' := by
  cases inps with
  | nil => cases hto
  | cons inp inps =>
    obtain ⟨m₁, hstep, hleaving, hno, hdoings⟩ := first_step nat inp inps hm hctl hargs hk hK
    have hraise' := hraise.2
    unfold Literals.runTo at hto
    rw [hstep] at hraise' hto
    rw [Option.bind_some, hno] at hto
    obtain ⟨hway, hres⟩ := hleaving.runTo hno hraise' hto
    rw [hdoings, hway]
    refine ⟨hres, rfl, fun stmt hmem => ?_, ?_, ?_⟩
    · rcases List.mem_cons.mp hmem with hmem | hmem
      · cases hmem
      · exact stmt_not_mem_wayOut stmt K hmem
    · rw [List.filterMap_cons_none rfl, wayOut_third]
    · rintro stmts li ks' rfl inp' m'' hstep'
      obtain ⟨-, hret⟩ := runTo_invariant (P := fun _ => True) (fun _ _ _ _ _ _ => trivial) trivial hno hto
      obtain ⟨hctl', hk', -⟩ := returned_eq_some.mp hret
      rw [hres.1] at hctl'
      exact step_back hctl' hk' hstep'

/-- Until the procedure has returned, the fiber is on the way out. -/
theorem return_underway {inps : List (Input I)} (hm : Nested m.interp)
    (hctl : m.interp.fg.ctl = .invoke args) (hargs : CallsReturn m.heap args v)
    (hk : m.interp.fg.konts = K ++ .proc a :: .stmtProc :: ks) (hK : ∀ k ∈ K, k.passes = true)
    (hraise : Runs.Throughout (Machine.step nat) (fun m => m.interp.opts.raise = false) m inps)
    (hrun : Runs.run (Machine.step nat) m inps = some m')
    (hto : runTo nat ks m.interp.fg.id m inps = none) :
    doings nat ks m.interp.fg.id m inps <+: .invoke args :: wayOut K ∧
    (outside m.interp.fg.id ks m'.interp = true → CanBind N m' →
      doings nat ks m.interp.fg.id m inps ++ [m'.interp.fg.ctl] <+: .invoke args :: wayOut K ∧
      ∀ inp, (m'.step nat inp).isSome) := by
  cases inps with
  | nil =>
    obtain rfl := Option.some.inj hrun
    refine ⟨List.nil_prefix, fun _ _ => ⟨?_, fun inp => ?_⟩⟩
    · rw [hctl]
      exact ⟨wayOut K, rfl⟩
    · rw [step_return nat inp hctl hargs]
      rfl
  | cons inp inps =>
    obtain ⟨m₁, hstep, hleaving, hno, hdoings⟩ := first_step nat inp inps hm hctl hargs hk hK
    have hraise' := hraise.2
    unfold Literals.runTo at hto
    unfold Runs.run at hrun
    rw [hstep] at hraise' hto hrun
    rw [Option.bind_some, hno] at hto
    obtain ⟨todo, hm', hway, hno'⟩ := hleaving.run hno hraise' hrun hto
    rw [hdoings, hway]
    refine ⟨⟨todo, rfl⟩, fun hout hbind => ?_⟩
    have hraise₁ := Runs.Throughout.run hraise' hrun
    have hgoes := fun inp => hm'.goes nat inp hno' hraise₁ hout hbind
    obtain ⟨rest, rfl⟩ := (hgoes inp).1
    exact ⟨⟨rest, by simp⟩, fun inp' => (hgoes inp').2⟩

end Every

/-- **`return` leaves exactly the procedure that it is called in.** Wherever a script calls `return`
with `v` in a procedure, inside the calls `K`, that a statement with the calls `ks` around it has
called, and in no third block of a `try`: without `B6B_OPT_RAISE`, whatever the other fibers do, the
statement returns `B6B_OK` to `ks`, `v` is in `_`, and up to then the fiber has only been on its way
out. It has executed no statement, and has called the third blocks that it has passed, each once and
the innermost first. Code that has called the procedure goes on behind the statement. And until the
fiber is back it has gone a part of its way, and can go on, if `_` can be bound where that is next. -/
theorem return_leaves (nat : Natives N S I) (as : List Bytes) (exts : List ExtObj)
    (progs : List (Opts × Bytes)) (m₀ : Machine F S)
    (hstart : Machine.start? N as exts progs = some m₀) (inps₀ : List (Input I)) (m : Machine F S)
    (hrun : Runs.run (Machine.step nat) m₀ inps₀ = some m) (args v : Addr)
    (hctl : m.interp.fg.ctl = .invoke args) (hargs : CallsReturn m.heap args v) (K ks : List Kont)
    (hk : m.interp.fg.konts = K ++ .proc a :: .stmtProc :: ks) (hK : ∀ k ∈ K, k.passes = true)
    (inps : List (Input I))
    (hraise : Runs.Throughout (Machine.step nat) (fun m => m.interp.opts.raise = false) m inps) :
    (∀ m' res, runTo nat ks m.interp.fg.id m inps = some (m', res) →
      (res = .ok ∧ m'.interp.fg.ret = v ∧ Bound N m.interp.shared.us v m'.interp.fg) ∧
      doings nat ks m.interp.fg.id m inps = .invoke args :: wayOut K ∧
      (∀ stmt, .stmt stmt ∉ doings nat ks m.interp.fg.id m inps) ∧
      (doings nat ks m.interp.fg.id m inps).filterMap Ctl.third = K.filterMap Kont.third ∧
      ∀ stmts li ks', ks = .call stmts li :: ks' → ∀ inp m'', m'.step nat inp = some m'' →
        ∃ lis li', (m'.heap.obj stmts).l = some lis ∧ nextOf li lis = some li' ∧
          m''.interp.fg.ctl = .callAt stmts li' ∧ m''.interp.fg.konts = ks') ∧
    ∀ m', Runs.run (Machine.step nat) m inps = some m' →
      runTo nat ks m.interp.fg.id m inps = none →
      doings nat ks m.interp.fg.id m inps <+: .invoke args :: wayOut K ∧
      (outside m.interp.fg.id ks m'.interp = true → CanBind N m' →
        doings nat ks m.interp.fg.id m inps ++ [m'.interp.fg.ctl] <+: .invoke args :: wayOut K ∧
        ∀ inp, (m'.step nat inp).isSome) := by
  have hm : Nested m.interp := (nested_start hstart).run hrun
  exact ⟨fun m' res hto => return_back hm hctl hargs hk hK hraise hto,
    fun m' hrun' hto => return_underway hm hctl hargs hk hK hraise hrun' hto⟩

deriving instance DecidableEq for Ctl

instance (h : Heap F) (args v : Addr) : Decidable (CallsReturn h args v) :=
  match hl : (h.obj args).l with
  | some [p, li] =>
    decidable_of_iff (args < h.next ∧ li.o = v ∧ p.o < h.next ∧ (h.obj p.o).proc = .builtin .ret)
      ⟨fun ⟨hlt, hv, hp, hproc⟩ => ⟨hlt, p, li, hl, hv, hp, hproc⟩, fun hc => by
        obtain ⟨p', li', hl', hv, hp, hproc⟩ := hc.items
        rw [hl] at hl'
        cases hl'
        exact ⟨hc.lt, hv, hp, hproc⟩⟩
  | some [] | some [_] | some (_ :: _ :: _ :: _) | none => .isFalse fun hc => by
    obtain ⟨p, li, hl', -⟩ := hc.items
    exact nomatch hl.symm.trans hl'

/-- A procedure that returns from the first block of a `try` with a third one. -/
def leaving : String := "{$p F {{$t {{$r X}} {} {{$o}}} {$o}}} {$F}"

/-- The third block is called, and the statement behind the `try` is not executed. -/
theorem return_from_try : ∃ m m' : Machine ℤ Unit, ∃ a : Addr, ∃ K ks : List Kont,
    (wholeStart shortNames leaving).bind (fun m₀ => Runs.run wholeStep m₀ (quiet 52)) = some m ∧
    m.interp.fg.konts = K ++ .proc a :: .stmtProc :: ks ∧ K.filterMap Kont.third = [75] ∧
    runTo (Natives.none wholeNum) ks m.interp.fg.id m (quiet 25) = some (m', .ok) ∧
    m'.interp.fg.ret = 80 ∧
    doings (Natives.none wholeNum) ks m.interp.fg.id m (quiet 25) = .invoke 82 :: wayOut K := by
  have hrun : ((wholeStart shortNames leaving).bind fun m₀ =>
      (Runs.run wholeStep m₀ (quiet 52)).bind fun m =>
      (runTo (Natives.none wholeNum) (m.interp.fg.konts.drop 7) m.interp.fg.id m (quiet 25)).map
        fun p => (m₀, m, p)).any (fun p => decide (p.2.1.interp.fg.ctl = .invoke 82 ∧
          CallsReturn p.2.1.heap 82 80 ∧ p.2.1.interp.fg.konts =
            p.2.1.interp.fg.konts.take 5 ++ .proc 68 :: .stmtProc :: p.2.1.interp.fg.konts.drop 7 ∧
          (∀ k ∈ p.2.1.interp.fg.konts.take 5, k.passes = true) ∧
          (p.2.1.interp.fg.konts.take 5).filterMap Kont.third = [75] ∧
          Runs.Throughout wholeStep (fun m => m.interp.opts.raise = false) p.2.1 (quiet 25))) = true := by
    decide +kernel
  obtain ⟨p, hp, hreads⟩ := (Option.any_eq_true _ _).mp hrun
  obtain ⟨m₀, hm₀, hp⟩ := Option.bind_eq_some_iff.mp hp
  obtain ⟨m, hm, hp⟩ := Option.bind_eq_some_iff.mp hp
  obtain ⟨⟨m', res⟩, hto, rfl⟩ := Option.map_eq_some_iff.mp hp
  obtain ⟨hctl, hargs, hk, hK, hthird, hraise⟩ := of_decide_eq_true hreads
  obtain ⟨⟨rfl, hret, -⟩, hdoings, -⟩ := (return_leaves _ _ _ _ m₀ hm₀ _ m hm 82 80 hctl hargs _ _ hk hK _
    hraise).1 m' res hto
  exact ⟨m, m', 68, _, _, by rw [hm₀]; exact hm, hk, hthird, hto, hret, hdoings⟩

end Unwind

end B6b
