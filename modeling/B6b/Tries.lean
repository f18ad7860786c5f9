/-
# What a third block changes

`try` runs its first block, the second one if the first one has failed, and then the third
one, if there is one. It returns what the first block has returned, or the second one if the
first one has failed; but with a third block that succeeds it does so only for `B6B_ERR`,
`B6B_RET` and `B6B_EXIT`, and returns `B6B_OK` for everything else: a `break` or `continue` is
lost (`finally_transparent_iff`). What is in `_` is the same with and without the block.

Key definitions: `CallsTry`, `Blocks`, `Alone`.
-/
import B6b.Under
import B6b.Loops
import B6b.Graph

namespace B6b

variable {F S I : Type} {N : Num F}

namespace Tries

open Literals Nesting

/-- The list of arguments is that of a call of `try` with the blocks `bs`. -/
structure CallsTry (h : Heap F) (args : Addr) (bs : List Addr) : Prop where
  lt : args < h.next
  items : ∃ p lis, (h.obj args).l = some (p :: lis) ∧ lis.map (·.o) = bs ∧ p.o < h.next ∧
    (h.obj p.o).proc = .builtin .try

/-- Without `B6B_OPT_RAISE`, `try` gets from its call in `m` behind its first two blocks: the
first one returns `r`, and the second one `re`, if it is called. -/
inductive Blocks (nat : Natives N S I) (inp : Input I) (inT inE : List (Input I)) (m : Machine F S) :
    Res → Res → Machine F S → Prop
  | passed {m₁ m₂ m₃ : Machine F S} {r : Res} (hstart : m.step nat inp = some m₁)
      (ht : callResult nat m₁ inT = some (m₂, r)) (hr : r ≠ .err) (hend : m₂.step nat inp = some m₃) :
      Blocks nat inp inT inE m r .err m₃
  | failed {m₁ m₂ m₃ m₄ m₅ : Machine F S} {re : Res} (hstart : m.step nat inp = some m₁)
      (ht : callResult nat m₁ inT = some (m₂, .err)) (hraise₂ : m₂.interp.opts.raise = false)
      (hexcept : m₂.step nat inp = some m₃) (he : callResult nat m₃ inE = some (m₄, re))
      (hraise₄ : m₄.interp.opts.raise = false) (hend : m₄.step nat inp = some m₅) :
      Blocks nat inp inT inE m .err re m₅

/-! ### Calls without anything around them -/

/-- The foreground fiber `id` has no call that waits. -/
structure Alone (id : ℕ) (b : Machine F S) : Prop where
  eq : b.interp.fg.id = id
  konts : b.interp.fg.konts = []
  distinct : Interp.Distinct b.interp

/-- The machine goes on with `c`. -/
def goOn (b : Machine F S) (c : Ctl S) : Machine F S := ⟨b.heap, b.interp.goto c⟩

section Alone

variable {nat : Natives N S I} {id : ℕ} {K : List Kont} {b b' m m' : Machine F S} {inp : Input I}
  {inps : List (Input I)} {res : Res}

theorem distinct_like {σ σ' : Interp S} (hσ : Interp.Distinct σ) (hbefore : σ'.before = σ.before)
    (hafter : σ'.after = σ.after) (hid : σ'.fg.id = σ.fg.id) (hnext : σ'.nextId = σ.nextId) :
    Interp.Distinct σ' := by
  have hids : σ'.ids = σ.ids := by simp [Interp.ids, hbefore, hafter, hid]
  exact ⟨hids ▸ hσ.nodup, hids ▸ hnext ▸ hσ.lt⟩

theorem Alone.goOn (hb : Alone id b) (c : Ctl S) : Alone id (goOn b c) :=
  ⟨hb.eq, hb.konts, distinct_like hb.distinct rfl rfl rfl rfl⟩

theorem Alone.lt (hb : Alone id b) : id < b.interp.nextId :=
  hb.eq ▸ hb.distinct.lt _ (List.mem_map_of_mem (fg_mem _))

/-- The calls are put under the foreground fiber alone. -/
theorem Alone.under_eq (hb : Alone id b) (K : List Kont) :
    b.interp.under id K = { b.interp with fg := { b.interp.fg with konts := K } } := by
  have hothers : ∀ ts : List (Fiber S), (∀ t ∈ ts, t ∈ b.interp.before ++ b.interp.after) →
      ts.map (Fiber.under id K) = ts := by
    intro ts hts
    refine (List.map_congr_left fun t ht => ?_).trans (List.map_id ts)
    exact Fiber.under_of_ne _ (hb.eq ▸ distinct_ne_fg hb.distinct (hts t ht))
  unfold Interp.under
  rw [hothers _ fun t ht => List.mem_append_left _ ht, hothers _ fun t ht => List.mem_append_right _ ht,
    Fiber.under_self _ hb.eq, hb.konts]
  rfl

theorem Alone.under_konts (hb : Alone id b) : (b.under id K).interp.fg.konts = K :=
  congrArg (fun σ => σ.fg.konts) (hb.under_eq K)

/-- Every machine is one without calls, with its calls under it. -/
theorem exists_alone (hm : Interp.Distinct m.interp) : ∃ b, Alone m.interp.fg.id b ∧
    m = b.under m.interp.fg.id m.interp.fg.konts := by
  have hb : Alone m.interp.fg.id
      ⟨m.heap, { m.interp with fg := { m.interp.fg with konts := [] } }⟩ :=
    ⟨rfl, rfl, distinct_like hm rfl rfl rfl rfl⟩
  exact ⟨_, hb, congrArg (Machine.mk m.heap) (hb.under_eq m.interp.fg.konts).symm⟩

/-- A call that waits is pushed on nothing. -/
theorem Alone.push (hb : Alone id b) (k : Kont) (c : Ctl S) :
    (b.interp.push k c).under id K = (b.interp.goto c).under id (k :: K) := by
  have hgoto : (b.interp.goto c).under id (k :: K) = (b.interp.under id (k :: K)).goto c := rfl
  rw [← Interp.push_under, hb.under_eq, hgoto, hb.under_eq]
  rfl

/-- A call returns the same under all calls. -/
theorem Alone.callResult (hb : Alone id b) (hctl : ∀ r, b.interp.fg.ctl ≠ .ret r) :
    callResult nat (b.under id K) inps = some (m', res) ↔
      ∃ b', runTo nat [] id b inps = some (b', res) ∧ m' = b'.under id K := by
  have hno : returned? [] id b.interp = none := by
    refine Option.eq_none_iff_forall_ne_some.mpr fun r hr => ?_
    exact hctl r (returned_eq_some.mp hr).1
  have hid : (b.under id K).interp.fg.id = id := hb.eq
  unfold Literals.callResult
  rw [hb.under_konts, hid, runTo_under inps hb.lt hno, Option.map_eq_some_iff]
  constructor
  · rintro ⟨⟨b', r⟩, hrun, heq⟩
    obtain ⟨rfl, rfl⟩ := Prod.mk.inj heq
    exact ⟨b', hrun, rfl⟩
  · rintro ⟨b', hrun, rfl⟩
    exact ⟨(b', res), hrun, rfl⟩

theorem Alone.runTo (hb : Alone id b) (hctl : ∀ r, b.interp.fg.ctl ≠ .ret r)
    (h : runTo nat [] id b inps = some (b', res)) : Alone id b' ∧ b'.interp.fg.ctl = .ret res := by
  have hno : returned? [] id b.interp = none := by
    refine Option.eq_none_iff_forall_ne_some.mpr fun r hr => ?_
    exact hctl r (returned_eq_some.mp hr).1
  obtain ⟨hdistinct, hret⟩ := runTo_invariant (P := fun m => Interp.Distinct m.interp)
    (fun _ _ _ hm _ hstep => hm.move (Machine.step_spec hstep).1) hb.distinct hno h
  obtain ⟨hctl', hk, hid⟩ := returned_eq_some.mp hret
  exact ⟨⟨hid, hk, hdistinct⟩, hctl'⟩

/-- It returns to the innermost call. -/
theorem Alone.step_ret (hb : Alone id b) {k : Kont} {σ : Interp S} (hctl : b.interp.fg.ctl = .ret res)
    (hk : b.interp.resume (F := F) res k = pure σ) :
    (b.under id (k :: K)).step nat inp = some ⟨b.heap, σ.under id K⟩ := by
  refine Machine.step_ret hctl hb.under_konts ?_
  have hpop : (b.under id (k :: K)).interp.pop = b.interp.under id K := by
    change (b.interp.under id (k :: K)).pop = _
    rw [hb.under_eq, hb.under_eq]
    rfl
  rw [hpop, Interp.resume_under, hk]
  rfl

end Alone

/-! ### The blocks -/

/-- `try` parses its arguments. -/
theorem excProcTry_calls {h : Heap F} {args t e : Addr} {f : Option Addr} (σ : Interp S)
    (hargs : CallsTry h args (t :: e :: f.toList)) :
    σ.excProcTry N args h = .ok (σ.push (.tryBody (some e) f) (.call t)) h := by
  obtain ⟨p, lis, hl, hlis, -, -⟩ := hargs.items
  have hitems : items args h = .ok (p :: lis) h := by
    unfold items
    simp only [Op.bind_ok (load_ok hargs.lt), hl]
    rfl
  have hparse : Op.attempt (listVparse N args "oo|oo" true) h = .ok (some (p.o :: lis.map (·.o))) h := by
    have hfrom : vparseFrom N "oo|oo".toList (p :: lis) false true h = .ok (p.o :: lis.map (·.o)) h := by
      obtain ⟨lt, lis₁, rfl, -, hlis₁⟩ := List.map_eq_cons_iff.mp hlis
      obtain ⟨le, lis₂, rfl, -, hlis₂⟩ := List.map_eq_cons_iff.mp hlis₁
      cases f with
      | none =>
        obtain rfl := List.map_eq_nil_iff.mp hlis₂
        rfl
      | some f =>
        obtain ⟨lf, lis₃, rfl, -, hlis₃⟩ := List.map_eq_cons_iff.mp hlis₂
        obtain rfl := List.map_eq_nil_iff.mp hlis₃
        rfl
    unfold Op.attempt listVparse
    rw [Op.bind_ok hitems, hfrom]
  unfold Interp.excProcTry Interp.getArgs getArgsThen
  rw [Op.bind_ok hparse, hlis]
  cases f with
  | none => rfl
  | some f => rfl

/-- What the first two blocks do without anything around them, from the machine `b` that calls
`t` on: `b'` is the machine behind them. -/
def Bare (nat : Natives N S I) (id : ℕ) (e : Addr) (inT inE : List (Input I)) (b : Machine F S)
    (r re : Res) (b' : Machine F S) : Prop :=
  (r ≠ .err ∧ re = .err ∧ runTo nat [] id b inT = some (b', r)) ∨
    (r = .err ∧ ∃ b₁, runTo nat [] id b inT = some (b₁, .err) ∧ b₁.interp.opts.raise = false ∧
      runTo nat [] id (goOn b₁ (.call e)) inE = some (b', re) ∧ b'.interp.opts.raise = false)

section Blocks

variable {nat : Natives N S I} {id : ℕ} {K : List Kont} {b m m' : Machine F S} {inp : Input I}
  {inT inE : List (Input I)} {r re : Res} {t e : Addr} {f : Option Addr}

/-- **Both forms of `try` do the same in their first two blocks.** -/
theorem blocks_iff (hb : Alone id b)
    (hstart : m.step nat inp = some ((goOn b (.call t)).under id (.tryBody (some e) f :: K))) :
    Blocks nat inp inT inE m r re m' ↔ ∃ b', Bare nat id e inT inE (goOn b (.call t)) r re b' ∧
      m' = (goOn b' (.tryEnd r re f)).under id K := by
  have ht : ∀ {m' res}, callResult nat ((goOn b (.call t)).under id (.tryBody (some e) f :: K)) inT =
      some (m', res) ↔ ∃ b', runTo nat [] id (goOn b (.call t)) inT = some (b', res) ∧
        m' = b'.under id (.tryBody (some e) f :: K) := (hb.goOn _).callResult nofun
  have hpassed : ∀ {b' res}, runTo nat [] id (goOn b (.call t)) inT = some (b', res) → res ≠ .err →
      (b'.under id (.tryBody (some e) f :: K)).step nat inp =
        some ((goOn b' (.tryEnd res .err f)).under id K) := by
    intro b' res hrun hres
    obtain ⟨hb', hctl⟩ := (hb.goOn (.call t)).runTo nofun hrun
    refine hb'.step_ret hctl ?_
    unfold Interp.resume
    dsimp only
    rw [if_neg hres]
    rfl
  have hfailed : ∀ {b'}, runTo nat [] id (goOn b (.call t)) inT = some (b', .err) →
      (b'.under id (.tryBody (some e) f :: K)).step nat inp =
        some ((goOn b' (.call e)).under id (.tryExcept f :: K)) := by
    intro b' hrun
    obtain ⟨hb', hctl⟩ := (hb.goOn (.call t)).runTo nofun hrun
    rw [hb'.step_ret (σ := b'.interp.push (.tryExcept f) (.call e)) hctl rfl, hb'.push]
    rfl
  have hexcept : ∀ {b₁ b'}, Alone id b₁ → runTo nat [] id (goOn b₁ (.call e)) inE = some (b', re) →
      b'.interp.opts.raise = false → (b'.under id (.tryExcept f :: K)).step nat inp =
        some ((goOn b' (.tryEnd .err re f)).under id K) := by
    intro b₁ b' hb₁ hrun hraise
    obtain ⟨hb', hctl⟩ := (hb₁.goOn (.call e)).runTo nofun hrun
    refine hb'.step_ret hctl ?_
    unfold Interp.resume
    dsimp only
    rw [hraise, if_neg (by simp)]
    rfl
  constructor
  · rintro (⟨hstart', ht', hr, hend⟩ | ⟨hstart', ht', hraise₂, hexc, he, hraise₄, hend⟩)
    · obtain rfl := Option.some.inj (hstart.symm.trans hstart')
      obtain ⟨b', hrun, rfl⟩ := ht.mp ht'
      rw [hpassed hrun hr] at hend
      exact ⟨b', .inl ⟨hr, rfl, hrun⟩, (Option.some.inj hend).symm⟩
    · obtain rfl := Option.some.inj (hstart.symm.trans hstart')
      obtain ⟨b₁, hrun, rfl⟩ := ht.mp ht'
      obtain ⟨hb₁, -⟩ := (hb.goOn (.call t)).runTo nofun hrun
      rw [hfailed hrun] at hexc
      obtain rfl := Option.some.inj hexc
      obtain ⟨b', hrun', rfl⟩ := ((hb₁.goOn (.call e)).callResult nofun).mp he
      rw [hexcept hb₁ hrun' hraise₄] at hend
      exact ⟨b', .inr ⟨rfl, b₁, hrun, hraise₂, hrun', hraise₄⟩, (Option.some.inj hend).symm⟩
  · rintro ⟨b', ⟨hr, rfl, hrun⟩ | ⟨rfl, b₁, hrun, hraise₂, hrun', hraise₄⟩, rfl⟩
    · exact .passed hstart (ht.mpr ⟨b', hrun, rfl⟩) hr (hpassed hrun hr)
    · obtain ⟨hb₁, -⟩ := (hb.goOn (.call t)).runTo nofun hrun
      exact .failed hstart (ht.mpr ⟨b₁, hrun, rfl⟩) hraise₂ (hfailed hrun)
        (((hb₁.goOn (.call e)).callResult nofun).mpr ⟨b', hrun', rfl⟩) hraise₄ (hexcept hb₁ hrun' hraise₄)

theorem Bare.alone {b' : Machine F S} (hb : Alone id b)
    (h : Bare nat id e inT inE (goOn b (.call t)) r re b') : Alone id b' := by
  rcases h with ⟨-, -, hrun⟩ | ⟨-, b₁, hrun, -, hrun', -⟩
  · exact ((hb.goOn (.call t)).runTo nofun hrun).1
  · obtain ⟨hb₁, -⟩ := (hb.goOn (.call t)).runTo nofun hrun
    exact ((hb₁.goOn (.call e)).runTo nofun hrun').1

/-- A call of `try` calls its first block. -/
theorem step_try (hb : Alone id b) {args : Addr} (hargs : CallsTry b.heap args (t :: e :: f.toList)) :
    (goOn (b.under id K) (.invoke args)).step nat inp =
      some ((goOn b (.call t)).under id (.tryBody (some e) f :: K)) := by
  obtain ⟨p, lis, hl, -, hp, hproc⟩ := hargs.items
  have hitems : items args b.heap = .ok (p :: lis) b.heap := by
    unfold items
    simp only [Op.bind_ok (load_ok hargs.lt), hl]
    rfl
  have hstep : ((b.interp.under id K).goto (.invoke args)).invoke nat inp args b.heap =
      .ok (((b.interp.under id K).goto (.invoke args)).push (.tryBody (some e) f) (.call t)) b.heap := by
    unfold Interp.invoke
    rw [Op.bind_ok hitems]
    dsimp only
    rw [Op.bind_ok (load_ok hp), hproc]
    exact excProcTry_calls _ hargs
  have hpush : ((b.interp.under id K).goto (.invoke args)).push (.tryBody (some e) f) (.call t) =
      (b.interp.goto (.call t)).under id (.tryBody (some e) f :: K) := by
    rw [← hb.push, ← Interp.push_under]
    rfl
  rw [hpush] at hstep
  exact Machine.step_of_ok hstep

/-- Behind the blocks, without a third one. -/
theorem step_tryEnd_none {b' : Machine F S} : (((goOn b' (.tryEnd r re none)).under id K).step nat inp) =
    some ((goOn b' (.ret (if r = .err then re else r))).under id K) := rfl

/-- Behind the blocks, the third one is called. -/
theorem step_tryEnd_some {b' : Machine F S} (hb' : Alone id b') (a : Addr) :
    ((goOn b' (.tryEnd r re (some a))).under id K).step nat inp =
      some ((goOn ⟨b'.heap, { b'.interp with exit := false }⟩ (.call a)).under id
        (.tryFinally r re b'.interp.exit b'.interp.fg.ret :: K)) := by
  have hexit : Alone id ⟨b'.heap, { b'.interp with exit := false }⟩ :=
    ⟨hb'.eq, hb'.konts, distinct_like hb'.distinct rfl rfl rfl rfl⟩
  have htry : ((b'.interp.goto (.tryEnd r re (some a))).under id K).tryEnd r re (some a) =
      (({ b'.interp with exit := false } : Interp S).goto (.call a)).under id
        (.tryFinally r re b'.interp.exit b'.interp.fg.ret :: K) := by
    rw [Interp.tryEnd_under, ← hexit.push]
    rfl
  exact congrArg (fun σ => some (⟨b'.heap, σ⟩ : Machine F S)) htry

/-- What `try` returns with a third block that returns `B6B_OK`. -/
def finallyCode (r re : Res) : Res :=
  if r = .ret ∨ r = .exit then r else if r = .err ∧ re ≠ .ok then re else .ok

/-- What it returns without a third block. -/
def plainCode (r re : Res) : Res := if r = .err then re else r

theorem finallyCode_eq_iff (r re : Res) :
    finallyCode r re = plainCode r re ↔ r = .ok ∨ r = .err ∨ r = .ret ∨ r = .exit := by
  unfold finallyCode plainCode
  cases r with
  | err => cases re <;> decide
  | _ => simp

/-- Behind the third block, what was kept over it is back. -/
theorem step_tryFinally {b' : Machine F S} (hb' : Alone id b') (hctl : b'.interp.fg.ctl = .ret .ok)
    (exit : Bool) (o : Addr) : (b'.under id (.tryFinally r re exit o :: K)).step nat inp =
      some ⟨b'.heap, (({ b'.interp with exit := exit }.setRet o).goto (.ret (finallyCode r re))).under id K⟩ := by
  refine hb'.step_ret hctl ?_
  unfold Interp.resume finallyCode
  dsimp only
  split
  · rfl
  · split
    · rfl
    · rfl

/-- Both forms of a call, in the machine `b` under the calls `K`. -/
theorem finally_alone (hb : Alone id b) {args₂ args₃ a : Addr} (h₃ : CallsTry b.heap args₃ [t, e, a])
    (h₂ : CallsTry b.heap args₂ [t, e]) {inF : List (Input I)} {n₃ n₄ n₅ m₃ : Machine F S}
    (hblocks : Blocks nat inp inT inE (goOn (b.under id K) (.invoke args₃)) r re n₃)
    (hthird : n₃.step nat inp = some n₄) (hf : callResult nat n₄ inF = some (n₅, .ok))
    (hend : n₅.step nat inp = some m₃) :
    ∃ n₂ m₂, Blocks nat inp inT inE (goOn (b.under id K) (.invoke args₂)) r re n₂ ∧
      n₂.step nat inp = some m₂ ∧ Loops.Left (plainCode r re) K id m₂.interp ∧
      Loops.Left (finallyCode r re) K id m₃.interp ∧ m₃.interp.fg.ret = m₂.interp.fg.ret := by
  have hstart₃ : (goOn (b.under id K) (.invoke args₃)).step nat inp =
      some ((goOn b (.call t)).under id (.tryBody (some e) (some a) :: K)) := step_try hb h₃
  have hstart₂ : (goOn (b.under id K) (.invoke args₂)).step nat inp =
      some ((goOn b (.call t)).under id (.tryBody (some e) none :: K)) := step_try hb h₂
  obtain ⟨b', hbare, rfl⟩ := (blocks_iff hb hstart₃).mp hblocks
  have hb' : Alone id b' := hbare.alone hb
  rw [step_tryEnd_some hb'] at hthird
  obtain rfl := Option.some.inj hthird
  have hexit : Alone id ⟨b'.heap, { b'.interp with exit := false }⟩ :=
    ⟨hb'.eq, hb'.konts, distinct_like hb'.distinct rfl rfl rfl rfl⟩
  obtain ⟨b₃, hrun, rfl⟩ := ((hexit.goOn (.call a)).callResult nofun).mp hf
  obtain ⟨hb₃, hctl⟩ := (hexit.goOn (.call a)).runTo nofun hrun
  rw [step_tryFinally hb₃ hctl] at hend
  obtain rfl := Option.some.inj hend
  refine ⟨_, _, (blocks_iff hb hstart₂).mpr ⟨b', hbare, rfl⟩, step_tryEnd_none, ?_, ?_, rfl⟩
  · exact ⟨hb'.eq, rfl, (hb'.goOn (.ret (plainCode r re))).under_konts⟩
  · have hback : Alone id ⟨b₃.heap, ({ b₃.interp with exit := b'.interp.exit }.setRet b'.interp.fg.ret).goto
        (.ret (finallyCode r re))⟩ := ⟨hb₃.eq, hb₃.konts, distinct_like hb₃.distinct rfl rfl rfl rfl⟩
    exact ⟨hb₃.eq, rfl, hback.under_konts⟩

end Blocks

/-! ### Every call -/

section Every

variable {nat : Natives N S I} {as : List Bytes} {exts : List ExtObj} {progs : List (Opts × Bytes)}
  {m₀ m n₃ n₄ n₅ m₃ : Machine F S} {inps₀ : List (Input I)} {t e f args₂ args₃ : Addr} {inp : Input I}
  {inT inE inF : List (Input I)} {r re : Res}

/-- Both forms of a call, wherever a script makes it. -/
theorem both_forms (hstart : Machine.start? N as exts progs = some m₀)
    (hrun : Runs.run (Machine.step nat) m₀ inps₀ = some m) (h₃ : CallsTry m.heap args₃ [t, e, f])
    (h₂ : CallsTry m.heap args₂ [t, e])
    (hblocks : Blocks nat inp inT inE (goOn m (.invoke args₃)) r re n₃)
    (hthird : n₃.step nat inp = some n₄) (hf : callResult nat n₄ inF = some (n₅, .ok))
    (hend : n₅.step nat inp = some m₃) :
    ∃ n₂ m₂, Blocks nat inp inT inE (goOn m (.invoke args₂)) r re n₂ ∧
      n₂.step nat inp = some m₂ ∧
      Loops.Left (plainCode r re) m.interp.fg.konts m.interp.fg.id m₂.interp ∧
      Loops.Left (finallyCode r re) m.interp.fg.konts m.interp.fg.id m₃.interp ∧
      m₃.interp.fg.ret = m₂.interp.fg.ret := by
  have hm : Nested m.interp := (nested_start hstart).run hrun
  obtain ⟨b, hb, heq⟩ := exists_alone hm.distinct
  generalize m.interp.fg.id = id at hb heq ⊢
  generalize m.interp.fg.konts = K at heq ⊢
  subst heq
  exact finally_alone hb h₃ h₂ hblocks hthird hf hend

end Every

/-- **Where a third block that succeeds changes nothing.** Wherever a script calls `try` with three
blocks, if the first one returns `r` and the third one returns `B6B_OK`, the call leaves the same
object in `_` as a call without the third block would, with the same first two. It returns the same
code exactly if `r` is `B6B_OK`, `B6B_ERR`, `B6B_RET` or `B6B_EXIT`. -/
theorem finally_transparent_iff (nat : Natives N S I) (as : List Bytes) (exts : List ExtObj)
    (progs : List (Opts × Bytes)) (m₀ : Machine F S)
    (hstart : Machine.start? N as exts progs = some m₀) (inps₀ : List (Input I)) (m : Machine F S)
    (hrun : Runs.run (Machine.step nat) m₀ inps₀ = some m) (t e f args₂ args₃ : Addr)
    (h₃ : CallsTry m.heap args₃ [t, e, f]) (h₂ : CallsTry m.heap args₂ [t, e]) (inp : Input I)
    (inT inE inF : List (Input I)) (r re : Res) (n₃ n₄ n₅ m₃ : Machine F S)
    (hblocks : Blocks nat inp inT inE (goOn m (.invoke args₃)) r re n₃)
    (hthird : n₃.step nat inp = some n₄) (hf : callResult nat n₄ inF = some (n₅, .ok))
    (hend : n₅.step nat inp = some m₃) :
    ∃ n₂ m₂ c₂ c₃, Blocks nat inp inT inE (goOn m (.invoke args₂)) r re n₂ ∧
      n₂.step nat inp = some m₂ ∧ Loops.Left c₂ m.interp.fg.konts m.interp.fg.id m₂.interp ∧
      Loops.Left c₃ m.interp.fg.konts m.interp.fg.id m₃.interp ∧
      m₃.interp.fg.ret = m₂.interp.fg.ret ∧
      (c₃ = c₂ ↔ r = .ok ∨ r = .err ∨ r = .ret ∨ r = .exit) := by
  obtain ⟨n₂, m₂, hblocks₂, hstep₂, hleft₂, hleft₃, hret⟩ :=
    both_forms hstart hrun h₃ h₂ hblocks hthird hf hend
  exact ⟨n₂, m₂, _, _, hblocks₂, hstep₂, hleft₂, hleft₃, hret, finallyCode_eq_iff r re⟩

/-- Two calls of the same blocks with the same inputs end in the same machine. -/
theorem Blocks.unique {nat : Natives N S I} {inp : Input I} {inT inE : List (Input I)}
    {m n n' : Machine F S} {r re : Res} (h : Blocks nat inp inT inE m r re n)
    (h' : Blocks nat inp inT inE m r re n') : n = n' := by
  cases h with
  | passed hstart ht hr hend =>
    cases h' with
    | passed hstart' ht' hr' hend' =>
      obtain rfl := Option.some.inj (hstart.symm.trans hstart')
      obtain ⟨rfl, -⟩ := Prod.mk.inj (Option.some.inj (ht.symm.trans ht'))
      exact Option.some.inj (hend.symm.trans hend')
    | failed => exact absurd rfl hr
  | failed hstart ht hraise₂ hexcept he hraise₄ hend =>
    cases h' with
    | passed hstart' ht' hr' hend' => exact absurd rfl hr'
    | failed hstart' ht' hraise₂' hexcept' he' hraise₄' hend' =>
      obtain rfl := Option.some.inj (hstart.symm.trans hstart')
      obtain ⟨rfl, -⟩ := Prod.mk.inj (Option.some.inj (ht.symm.trans ht'))
      obtain rfl := Option.some.inj (hexcept.symm.trans hexcept')
      obtain ⟨rfl, -⟩ := Prod.mk.inj (Option.some.inj (he.symm.trans he'))
      exact Option.some.inj (hend.symm.trans hend')

instance (h : Heap F) (args : Addr) (bs : List Addr) : Decidable (CallsTry h args bs) :=
  match hl : (h.obj args).l with
  | some (p :: lis) =>
    decidable_of_iff (args < h.next ∧ lis.map (·.o) = bs ∧ p.o < h.next ∧
        (h.obj p.o).proc = .builtin .try)
      ⟨fun ⟨hlt, hlis, hp, hproc⟩ => ⟨hlt, p, lis, hl, hlis, hp, hproc⟩, fun hc => by
        obtain ⟨p', lis', hl', hlis, hp, hproc⟩ := hc.items
        rw [hl] at hl'
        cases hl'
        exact ⟨hc.lt, hlis, hp, hproc⟩⟩
  | some [] => .isFalse fun hc => by
    obtain ⟨p, lis, hl', -⟩ := hc.items
    exact nomatch hl.symm.trans hl'
  | none => .isFalse fun hc => by
    obtain ⟨p, lis, hl', -⟩ := hc.items
    exact nomatch hl.symm.trans hl'

/-- A program that calls `try` with three blocks, and keeps a list of `try` and the first two. -/
def blockOk : String := "{$g A {{$o}}} {$g E {}} {$g F {{$o}}} {$n $t $A $E} {$t $A $E $F}"

/-- The same with a first block that breaks. -/
def blockBreaks : String := "{$g A {{$b}}} {$g E {}} {$g F {{$o}}} {$n $t $A $E} {$t $A $E $F}"

/-- What the call of `try` in such a program does, if its first block does not fail. -/
structure Trial where
  m₀ : Machine ℤ Unit
  m : Machine ℤ Unit
  n₃ : Machine ℤ Unit
  n₄ : Machine ℤ Unit
  n₅ : Machine ℤ Unit
  m₃ : Machine ℤ Unit

/-- The blocks of such a call return `r`, `.err` and `.ok`. -/
structure Trial.Valid (text : String) (r : Res) (x : Trial) : Prop where
  start : wholeStart shortNames text = some x.m₀
  run : Runs.run wholeStep x.m₀ (quiet 84) = some x.m
  three : CallsTry x.m.heap 96 [65, 70, 75]
  two : CallsTry x.m.heap 87 [65, 70]
  blocks : Blocks (Natives.none wholeNum) ⟨(), true, none⟩ (quiet 40) [] (goOn x.m (.invoke 96)) r .err
    x.n₃
  third : wholeStep x.n₃ ⟨(), true, none⟩ = some x.n₄
  finished : callResult (Natives.none wholeNum) x.n₄ (quiet 40) = some (x.n₅, .ok)
  done : wholeStep x.n₅ ⟨(), true, none⟩ = some x.m₃

/-- Run such a program, and check what `Trial.Valid` says about the values. -/
def trial (text : String) (r : Res) : Option Trial := do
  let m₀ ← wholeStart shortNames text
  let m ← Runs.run wholeStep m₀ (quiet 84)
  let n₁ ← wholeStep (goOn m (.invoke 96)) ⟨(), true, none⟩
  let (n₂, res) ← callResult (Natives.none wholeNum) n₁ (quiet 40)
  let n₃ ← wholeStep n₂ ⟨(), true, none⟩
  let n₄ ← wholeStep n₃ ⟨(), true, none⟩
  let (n₅, rf) ← callResult (Natives.none wholeNum) n₄ (quiet 40)
  let m₃ ← wholeStep n₅ ⟨(), true, none⟩
  if CallsTry m.heap 96 [65, 70, 75] ∧ CallsTry m.heap 87 [65, 70] ∧ res = r ∧ rf = .ok then
    some ⟨m₀, m, n₃, n₄, n₅, m₃⟩
  else none

theorem trial_valid {text : String} {r : Res} {x : Trial} (h : trial text r = some x) (hr : r ≠ .err) :
    x.Valid text r := by
  unfold trial at h
  simp only [Option.bind_eq_bind, Option.bind_eq_some_iff, Prod.exists] at h
  obtain ⟨m₀, hm₀, m, hm, n₁, hn₁, n₂, res, hn₂, n₃, hn₃, n₄, hn₄, n₅, rf, hn₅, m₃, hm₃, h⟩ := h
  split_ifs at h with hreads
  obtain rfl := Option.some.inj h
  obtain ⟨hthree, htwo, rfl, rfl⟩ := hreads
  exact ⟨hm₀, hm, hthree, htwo, .passed hn₁ hn₂ hr hn₃, hn₄, hn₅, hm₃⟩

/-- A first block that does nothing. -/
theorem finally_transparent_nop : ∃ x : Trial, x.Valid blockOk .ok ∧ ∃ n₂ m₂ c₂ c₃,
    Blocks (Natives.none wholeNum) ⟨(), true, none⟩ (quiet 40) [] (goOn x.m (.invoke 87)) .ok .err n₂ ∧
    wholeStep n₂ ⟨(), true, none⟩ = some m₂ ∧
    Loops.Left c₂ x.m.interp.fg.konts x.m.interp.fg.id m₂.interp ∧
    Loops.Left c₃ x.m.interp.fg.konts x.m.interp.fg.id x.m₃.interp ∧
    x.m₃.interp.fg.ret = m₂.interp.fg.ret ∧
    (c₃ = c₂ ↔ Res.ok = .ok ∨ Res.ok = .err ∨ Res.ok = .ret ∨ Res.ok = .exit) := by
  have hsome : (trial blockOk .ok).isSome = true := by decide +kernel
  obtain ⟨x, hx⟩ := Option.isSome_iff_exists.mp hsome
  have hv := trial_valid hx nofun
  exact ⟨x, hv, finally_transparent_iff _ _ _ _ x.m₀ hv.start _ x.m hv.run _ _ _ _ _ hv.three hv.two _ _ _
    _ _ _ _ _ _ _ hv.blocks hv.third hv.finished hv.done⟩

/-- A first block that breaks: with the third block, the `break` is lost. -/
theorem finally_loses_break : ¬ ∀ (m₀ m n₃ n₄ n₅ m₃ : Machine ℤ Unit) (text : String)
    (inps₀ inT inE inF : List (Input Unit)) (inp : Input Unit) (t e f args₂ args₃ : Addr) (r re : Res),
    wholeStart shortNames text = some m₀ → Runs.run wholeStep m₀ inps₀ = some m →
    CallsTry m.heap args₃ [t, e, f] → CallsTry m.heap args₂ [t, e] →
    Blocks (Natives.none wholeNum) inp inT inE (goOn m (.invoke args₃)) r re n₃ →
    wholeStep n₃ inp = some n₄ → callResult (Natives.none wholeNum) n₄ inF = some (n₅, .ok) →
    wholeStep n₅ inp = some m₃ →
    ∃ n₂ m₂ c, Blocks (Natives.none wholeNum) inp inT inE (goOn m (.invoke args₂)) r re n₂ ∧
      wholeStep n₂ inp = some m₂ ∧ Loops.Left c m.interp.fg.konts m.interp.fg.id m₂.interp ∧
      Loops.Left c m.interp.fg.konts m.interp.fg.id m₃.interp := by
  intro hall
  have hsome : (trial blockBreaks .brk).isSome = true := by decide +kernel
  obtain ⟨x, hx⟩ := Option.isSome_iff_exists.mp hsome
  have hv := trial_valid hx nofun
  obtain ⟨n₂, m₂, c, hblocks, hstep, hleft₂, hleft₃⟩ := hall x.m₀ x.m x.n₃ x.n₄ x.n₅ x.m₃ _ _ _ _ _ _ _ _ _ _ _
    _ _ hv.start hv.run hv.three hv.two hv.blocks hv.third hv.finished hv.done
  obtain ⟨n₂', m₂', hblocks', hstep', hleft₂', hleft₃', -⟩ :=
    both_forms hv.start hv.run hv.three hv.two hv.blocks hv.third hv.finished hv.done
  obtain rfl := hblocks.unique hblocks'
  obtain rfl := Option.some.inj (hstep.symm.trans hstep')
  have hbrk : Ctl.ret c = .ret .brk := hleft₂.ctl.symm.trans hleft₂'.ctl
  have hok : Ctl.ret c = .ret .ok := hleft₃.ctl.symm.trans hleft₃'.ctl
  exact nomatch hbrk.symm.trans hok

end Tries

end B6b
