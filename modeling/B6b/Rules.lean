/-
# Rules for scripts

What a script does is known from what its parts do. `Triple t P c Q` says that if the interpreter goes on
with `c` where `P` holds, then the call returns, if it does, with a result and in a state as in `Q`,
whatever waits for it and whatever other fibers do in the meantime; and if `t` is set, it does return.

Code and each of the control procedures have a rule, by which a triple of the whole comes from triples of
its parts: `call_iff`, `loop_iff`, `map_iff`, `try_iff`. The rules are exact, so a triple holds only if it
comes from its rule. A `loop` that has to come to its end goes down in a relation that is well founded
(`loop_total_iff`).

Key definitions: `Triple`, `Brings`, `Before`, `Invokes`, `LoopTurn`, `TryBody`, `StmtTurn`, `MapTurn`.
-/
import B6b.Lib.Pre
import B6b.Tries

namespace B6b

variable {F S I : Type} {N : Num F}

namespace Rules

open Literals Nesting Tries Pre

/-! ### Triples -/

/-- The machine without the calls that wait for its foreground fiber. -/
def bare (m : Machine F S) : Machine F S :=
  ⟨m.heap, { m.interp with fg := { m.interp.fg with konts := [] } }⟩

/-- The result of the call in the fiber `id` that `K` wait for, if it returns now. -/
def stops (K : List Kont) (id : ℕ) (m : Machine F S) : Option Res := returned? K id m.interp

/-- A call that goes on with `c` where `P` holds returns as in `Q`, if it does; and if `t` is set, it
does, and no step on the way crashes. -/
def Triple (t : Bool) (nat : Natives N S I) (P : Machine F S → Prop) (c : Ctl S)
    (Q : Res → Machine F S → Prop) : Prop :=
  ∀ m : Machine F S, Interp.Distinct m.interp → P (bare m) →
    W t (Machine.step nat) (stops m.interp.fg.konts m.interp.fg.id) (fun r m' => Q r (bare m')) (goOn m c)

/-- What a call in the fiber `id` that nothing waits for returns, from `m` on, is as in `Q`; and if `t`
is set, it does return. -/
abbrev Brings (t : Bool) (nat : Natives N S I) (id : ℕ) (Q : Res → Machine F S → Prop) (m : Machine F S) :
    Prop :=
  W t (Machine.step nat) (stops [] id) Q m

/-! ### Machines without calls that wait -/

/-- The fibers are told apart, and there has been one with the number `id`. -/
def Ok (id : ℕ) (m : Machine F S) : Prop := Interp.Distinct m.interp ∧ id < m.interp.nextId

variable {nat : Natives N S I} {id n : ℕ} {K : List Kont} {b b' m m' : Machine F S} {inp : Input I}
  {res : Res} {c : Ctl S} {k : Kont} {P : Machine F S → Prop} {Q Q' : Res → Machine F S → Prop} {t : Bool}

theorem Ok.step (h : Ok id m) (hstep : m.step nat inp = some m') : Ok id m' :=
  ⟨h.1.move (Machine.step_spec hstep).1, Nat.lt_of_lt_of_le h.2 (Machine.step_spec hstep).1.nextId_le⟩

theorem Ok.goOn (h : Ok id m) (c : Ctl S) : Ok id (goOn m c) :=
  ⟨distinct_like h.1 rfl rfl rfl rfl, h.2⟩

theorem ok_of_alone (hb : Alone id b) : Ok id b := ⟨hb.distinct, hb.lt⟩

theorem Ok.alone (h : Ok id m) (hstop : stops [] id m = some res) :
    Alone id m ∧ m.interp.fg.ctl = .ret res := by
  obtain ⟨hctl, hk, hid⟩ := returned_eq_some.mp hstop
  exact ⟨⟨hid, hk, h.1⟩, hctl⟩

theorem bare_of_alone (hb : Alone id b) : bare b = b := by
  unfold bare
  rw [← hb.konts]

theorem bare_under (hb : Alone id b) (K : List Kont) : bare (b.under id K) = b := by
  unfold bare Machine.under
  rw [hb.under_eq, ← hb.konts]

theorem alone_bare (hm : Interp.Distinct m.interp) : Alone m.interp.fg.id (bare m) :=
  ⟨rfl, rfl, distinct_like hm rfl rfl rfl rfl⟩

theorem under_bare (hm : Interp.Distinct m.interp) :
    (bare m).under m.interp.fg.id m.interp.fg.konts = m :=
  congrArg (Machine.mk m.heap) ((alone_bare hm).under_eq m.interp.fg.konts)

theorem under_nil (id : ℕ) (m : Machine F S) : m.under id [] = m := by
  have hfiber (t : Fiber S) : t.under id [] = t := by
    unfold Fiber.under
    rw [List.append_nil, ite_self]
  unfold Machine.under Interp.under
  rw [hfiber, List.map_congr_left fun t _ => hfiber t, List.map_congr_left fun t _ => hfiber t,
    List.map_id', List.map_id']

theorem stops_under : stops K id (m.under id K) = stops [] id m := returned_under

/-- A call that waits is not returned from. -/
theorem stops_wait : stops [] id (m.under id [k]) = none := by
  refine Option.eq_none_iff_forall_ne_some.mpr fun res hret => ?_
  obtain ⟨-, hk, hid⟩ := returned_eq_some.mp hret
  have hfg : m.interp.fg.id = id := hid
  have hks : (m.under id [k]).interp.fg = { m.interp.fg with konts := m.interp.fg.konts ++ [k] } :=
    Fiber.under_self [k] hfg
  rw [hks] at hk
  exact List.append_ne_nil_of_right_ne_nil _ (List.cons_ne_nil k []) hk

/-- A call does the same whatever waits for it. -/
theorem lifts_under (nat : Natives N S I) (id : ℕ) (K : List Kont) :
    Lifts (Machine.step nat) (stops [] id) (stops K id) (Ok id) (Machine.under id K) where
  ok hok _ hstep := hok.step hstep
  go _ hgo := stops_under.trans hgo
  step hok hgo := Machine.step_under hok.2 hgo

/-- A call does the same if one more waits for it. -/
theorem lifts_wait (nat : Natives N S I) (id : ℕ) (k : Kont) :
    Lifts (Machine.step nat) (stops [] id) (stops [] id) (Ok id) (Machine.under id [k]) where
  ok hok _ hstep := hok.step hstep
  go _ _ := stops_wait
  step hok hgo := Machine.step_under hok.2 hgo

theorem ok_of_comes (hok : Ok id m) (h : Comes (Machine.step nat) (stops [] id) n m m' res) : Ok id m' :=
  h.keeps (fun _ _ _ hs _ hstep => hs.step hstep) hok

/-- Where a call returns that nothing waits for. -/
theorem alone_of_comes (hok : Ok id m) (h : Comes (Machine.step nat) (stops [] id) n m m' res) :
    Alone id m' ∧ m'.interp.fg.ctl = .ret res :=
  (ok_of_comes hok h).alone h.stopped

/-- What is under a call is told from what the call leaves. -/
theorem brings_under (hb : Alone id b) : W t (Machine.step nat) (stops K id) (fun r m' => Q r (bare m'))
    ((goOn b c).under id K) ↔ Brings t nat id Q (goOn b c) := by
  have hok : Ok id (goOn b c) := (ok_of_alone hb).goOn c
  rw [w_lift (lifts_under nat id K) hok]
  refine w_congr fun n b' r hc => ?_
  rw [w_stop (stops_under.trans hc.stopped), bare_under (alone_of_comes hok hc).1]

/-- A triple is about calls that nothing waits for. -/
theorem triple_iff : Triple t nat P c Q ↔ ∀ id (b : Machine F S), Alone id b → P b →
    Brings t nat id Q (goOn b c) := by
  constructor
  · intro h id b hb hP
    have hw := h b hb.distinct ((bare_of_alone hb).symm ▸ hP)
    rw [hb.konts, hb.eq, ← under_nil id (goOn b c)] at hw
    exact (brings_under hb).mp hw
  · intro h m hm hP
    have hb := alone_bare hm
    have hw := (brings_under (K := m.interp.fg.konts) hb).mpr (h _ _ hb hP)
    exact (congrArg (fun m => goOn m c) (under_bare hm)) ▸ hw

/-- What a run to the return of a call comes to. By induction on the run. -/
theorem comes_of_runTo {inps : List (Input I)} (hgo : stops K id m = none)
    (h : runTo nat K id m inps = some (m', res)) :
    ∃ n, Comes (Machine.step nat) (stops K id) n m m' res := by
  induction inps generalizing m with
  | nil => exact nomatch h
  | cons inp inps ih =>
    obtain ⟨m₁, hstep, h⟩ := Option.bind_eq_some_iff.mp h
    rcases hret : stops K id m₁ with _ | r
    · rw [show returned? K id m₁.interp = none from hret] at h
      obtain ⟨n, hc⟩ := ih hret h
      exact ⟨n + 1, .step hgo hstep hc⟩
    · rw [show returned? K id m₁.interp = some r from hret] at h
      cases h
      exact ⟨1, .step hgo hstep (.stop hret)⟩

/-! ### One step -/

instance [Inhabited I] : Nonempty (Input I) := ⟨⟨default, true, none⟩⟩

/-- A step that reads nothing from outside. -/
theorem brings_step [Inhabited I] {x : Op (Heap F) (Interp S)} (hgo : stops [] id m = none)
    (hx : ∀ inp, m.interp.step nat inp m.heap = x m.heap) :
    Brings t nat id Q m ↔ Op.Leads t x m.heap fun σ h => Brings t nat id Q ⟨h, σ⟩ := by
  have hnone (hx' : ∀ σ h, x m.heap ≠ .ok σ h) (inp : Input I) : m.step nat inp = none := by
    refine Option.eq_none_iff_forall_ne_some.mpr fun m' hm' => ?_
    exact hx' _ _ ((hx inp).symm.trans (Machine.step_eq_some hm'))
  unfold Op.Leads
  cases hok : x m.heap with
  | ok σ h => exact w_next hgo fun inp => Machine.step_of_ok ((hx inp).trans hok)
  | fail h => exact w_stuck hgo (hnone fun σ h' => by simp [hok])
  | crash => exact w_stuck hgo (hnone fun σ h' => by simp [hok])

/-- A call returns to the one that waits for it. -/
theorem step_wait (hok : Ok id m) (hstop : stops [] id m = some res) :
    (m.under id [k]).interp.step nat inp = m.interp.resume res k := by
  obtain ⟨hb, hctl⟩ := hok.alone hstop
  have hpop : (m.under id [k]).interp.pop = m.interp := by
    change (m.interp.under id [k]).pop = _
    rw [hb.under_eq]
    unfold Interp.pop
    rw [← hb.konts]
    rfl
  unfold Interp.step Interp.ret
  rw [show (m.under id [k]).interp.fg.ctl = .ret res from hctl]
  dsimp only
  rw [hb.under_konts]
  dsimp only
  rw [hpop]

theorem brings_wait [Inhabited I] (hok : Ok id m) (hstop : stops [] id m = some res) :
    Brings t nat id Q (m.under id [k]) ↔
      Op.Leads t (m.interp.resume res k) m.heap fun σ h => Brings t nat id Q ⟨h, σ⟩ := by
  exact brings_step stops_wait fun inp => congrFun (step_wait hok hstop) m.heap

theorem push_alone (hb : Alone id b) (k : Kont) (c : Ctl S) :
    (⟨b.heap, b.interp.push k c⟩ : Machine F S) = (goOn b c).under id [k] := by
  rw [← under_nil id ⟨b.heap, b.interp.push k c⟩]
  exact congrArg (Machine.mk b.heap) (hb.push (K := []) k c)

/-- **A call that waits** has to do what is to be done with the result of what it has called. -/
theorem brings_call [Inhabited I] (hb : Alone id b) (k : Kont) (c : Ctl S) :
    Brings t nat id Q ⟨b.heap, b.interp.push k c⟩ ↔ Brings t nat id (fun r m =>
      Op.Leads t (m.interp.resume r k) m.heap fun σ h => Brings t nat id Q ⟨h, σ⟩) (goOn b c) := by
  have hok : Ok id (goOn b c) := (ok_of_alone hb).goOn c
  rw [push_alone hb]
  refine (w_lift (lifts_wait nat id k) hok).trans (w_congr fun n b' r hc => ?_)
  exact brings_wait (ok_of_comes hok hc) hc.stopped

/-- A call that returns. -/
theorem brings_ret (hb : Alone id b) :
    Brings t nat id Q (goOn b (.ret res)) ↔ Q res (goOn b (.ret res)) :=
  w_stop (returned_eq_some.mpr ⟨rfl, hb.konts, hb.eq⟩)

theorem stops_goOn (hc : ∀ r, c ≠ .ret r) : stops K id (goOn m c) = none :=
  Option.eq_none_iff_forall_ne_some.mpr fun r hr => hc r (returned_eq_some.mp hr).1

/-- **A triple says what a call returns**, wherever it is made. -/
theorem Triple.callResult (h : Triple false nat P c Q) (hm : Interp.Distinct m.interp) (hP : P (bare m))
    (hc : ∀ r, c ≠ .ret r) {inps : List (Input I)}
    (hcall : Literals.callResult nat (goOn m c) inps = some (m', res)) : Q res (bare m') := by
  obtain ⟨n, hcomes⟩ := comes_of_runTo (stops_goOn hc) hcall
  exact h m hm hP n m' res hcomes

/-! ### Procedures -/

/-- The list of arguments is that of a call of the procedure `p` with the objects `bs`. -/
structure Invokes (h : Heap F) (args : Addr) (p : Builtin) (bs : List Addr) : Prop where
  lt : args < h.next
  holds : ∃ li lis, (h.obj args).l = some (li :: lis) ∧ lis.map (·.o) = bs ∧ li.o < h.next ∧
    (h.obj li.o).proc = .builtin p

/-- `n` arguments that need no conversion fit the format. -/
def fits : List Char → ℕ → Bool → Bool
  | [], n, _ => n = 0
  | c :: p, n, opt =>
    if c = '|' then fits p n true
    else
      match n with
      | 0 => opt
      | n + 1 => c = 'o' && fits p n opt

theorem vparseFrom_fits {fmt : List Char} (lis : List Litem) {opt skip : Bool} {h : Heap F}
    (hf : fits fmt lis.length opt = true) :
    vparseFrom N fmt lis opt skip h = .ok (lis.map (·.o)) h := by
  induction fmt generalizing lis opt skip with
  | nil =>
    obtain rfl : lis = [] := List.length_eq_zero_iff.mp (of_decide_eq_true hf)
    rfl
  | cons c p ih =>
    unfold fits at hf
    unfold vparseFrom
    by_cases hbar : c = '|'
    · rw [if_pos hbar] at hf ⊢
      exact ih lis hf
    rw [if_neg hbar] at hf ⊢
    cases lis with
    | nil =>
      obtain rfl : opt = true := hf
      rfl
    | cons li lis =>
      obtain ⟨hc, hf⟩ := (Bool.and_eq_true _ _).mp hf
      obtain rfl := of_decide_eq_true hc
      have hconv : convertArg N skip 'o' li.o h = .ok () h := by
        unfold convertArg
        split_ifs
        · rfl
        · rfl
      dsimp only
      rw [Op.bind_ok hconv, Op.bind_ok (ih lis hf)]
      rfl

section Invokes

variable {args : Addr} {p : Builtin} {bs : List Addr} (hargs : Invokes b.heap args p bs)
include hargs

/-- Its arguments are parsed. -/
theorem Invokes.parsed {fmt : String} (hf : fits fmt.toList (bs.length + 1) false = true) :
    ∃ o, Op.attempt (listVparse N args fmt true) b.heap = .ok (some (o :: bs)) b.heap := by
  obtain ⟨li, lis, hl, rfl, -, -⟩ := hargs.holds
  have hitems : items args b.heap = .ok (li :: lis) b.heap := by
    unfold items
    simp only [Op.bind_ok (load_ok hargs.lt), hl]
    rfl
  rw [List.length_map] at hf
  refine ⟨li.o, Op.attempt_ok ?_⟩
  unfold listVparse
  rw [Op.bind_ok hitems]
  exact vparseFrom_fits (li :: lis) hf

/-- Its procedure is called. -/
theorem brings_invoke [Inhabited I] {x : Op (Heap F) (Interp S)}
    (hx : ∀ inp : Input I, (goOn b (.invoke args)).interp.builtin N inp args p b.heap = x b.heap) :
    Brings t nat id Q (goOn b (.invoke args)) ↔
      Op.Leads t x b.heap fun σ h => Brings t nat id Q ⟨h, σ⟩ := by
  obtain ⟨li, lis, hl, -, hp, hproc⟩ := hargs.holds
  have hitems : items args b.heap = .ok (li :: lis) b.heap := by
    unfold items
    simp only [Op.bind_ok (load_ok hargs.lt), hl]
    rfl
  refine brings_step (stops_goOn nofun) fun inp => ?_
  change (goOn b (.invoke args)).interp.invoke nat inp args b.heap = _
  unfold Interp.invoke
  rw [Op.bind_ok hitems]
  dsimp only
  rw [Op.bind_ok (load_ok hp), hproc]
  exact hx inp

theorem brings_invoke_ok [Inhabited I] {σ : Interp S} {h : Heap F}
    (hx : ∀ inp : Input I, (goOn b (.invoke args)).interp.builtin N inp args p b.heap = .ok σ h) :
    Brings t nat id Q (goOn b (.invoke args)) ↔ Brings t nat id Q ⟨h, σ⟩ := by
  have hone : Brings t nat id Q (goOn b (.invoke args)) ↔
      Op.Leads t (fun _ => .ok σ h) b.heap fun σ h => Brings t nat id Q ⟨h, σ⟩ := brings_invoke hargs hx
  exact hone

/-- Its body runs on the arguments. -/
theorem Invokes.getArgs {fmt : String} (hf : fits fmt.toList (bs.length + 1) false = true) {σ : Interp S}
    {body : List Addr → Op (Heap F) (Interp S)} {r : Outcome (Heap F) (Interp S)}
    (hbody : ∀ o, body (o :: bs) b.heap = r) : σ.getArgs N args fmt body b.heap = r := by
  obtain ⟨o, hparse⟩ := hargs.parsed (N := N) hf
  unfold Interp.getArgs getArgsThen
  rw [Op.bind_ok hparse]
  exact hbody o

end Invokes

/-! ### `loop` -/

section Loop

variable {a : Addr}

/-- `loop` calls its body again behind `B6B_OK`. -/
theorem loop_repeats (nat : Natives N S I) (id : ℕ) (a : Addr) : Repeats (Machine.step nat) (stops [] id)
    (Ok id) (Machine.under id [.loop a]) (fun m => goOn m (.call a)) (· = .ok) where
  lifts := lifts_wait nat id (.loop a)
  waits _ := stops_wait
  okEnter hok := hok.goOn (.call a)
  begins := stops_goOn nofun
  step {m _ _} hok hstop hagain := by
    obtain ⟨hb, hctl⟩ := hok.alone hstop
    subst hagain
    rw [hb.step_ret (σ := m.interp.push (.loop a) (.call a)) hctl rfl, ← push_alone hb]
    exact congrArg some (under_nil id ⟨m.heap, m.interp.push (.loop a) (.call a)⟩)

variable [Inhabited I]

/-- `loop` returns behind every other result. -/
theorem loop_leaves (hok : Ok id m) (hstop : stops [] id m = some res) (hres : res ≠ .ok) :
    Brings t nat id Q (m.under id [.loop a]) ↔ Q (Loops.leaves res) (goOn m (.ret (Loops.leaves res))) := by
  have hresume : m.interp.resume (F := F) res (.loop a) = pure (m.interp.goto (.ret (Loops.leaves res))) := by
    cases res with
    | ok => exact absurd rfl hres
    | _ => rfl
  rw [brings_wait hok hstop, hresume, Op.leads_pure]
  exact brings_ret (hok.alone hstop).1

/-- A call of `loop` calls its body. -/
theorem loop_starts (hb : Alone id b) {args : Addr} (hargs : Invokes b.heap args .loop [a]) :
    Brings t nat id Q (goOn b (.invoke args)) ↔
      Brings t nat id Q ((goOn b (.call a)).under id [.loop a]) := by
  rw [← push_alone hb]
  exact brings_invoke_ok hargs fun _ => hargs.getArgs rfl fun _ => rfl

/-- What a turn of `loop` has to do with the result of the body, if `J` is to hold in front of the next
one. -/
def LoopTurn (J : Machine F S → Prop) (Q : Res → Machine F S → Prop) (r : Res) (m : Machine F S) : Prop :=
  if r = .ok then J m else Q (Loops.leaves r) (goOn m (.ret (Loops.leaves r)))

/-- `loop` is at its body, and has to return as in `Q`. -/
def LoopAt (t : Bool) (nat : Natives N S I) (a : Addr) (Q : Res → Machine F S → Prop) (m : Machine F S) :
    Prop :=
  ∀ id, Alone id m → Brings t nat id Q ((goOn m (.call a)).under id [.loop a])

/-- What `LoopAt` says of the body. -/
theorem loopAt_turn {J : Machine F S → Prop} {m₀ : Machine F S} (hb : Alone id m₀)
    (hloop : LoopAt t nat a Q m₀) (hJ : ∀ n m, Comes (Machine.step nat) (stops [] id) n
      (goOn m₀ (.call a)) m .ok → LoopAt t nat a Q m → J m) :
    Brings t nat id (LoopTurn J Q) (goOn m₀ (.call a)) := by
  have hr := loop_repeats nat id a
  have hok : Ok id (goOn m₀ (.call a)) := (ok_of_alone hb).goOn (.call a)
  refine ((hr.w_turn (ok_of_alone hb)).mp (hloop id hb)).mono fun n m r hc ⟨hagain, hleave⟩ => ?_
  unfold LoopTurn
  split_ifs with hres
  · subst hres
    refine hJ n m hc fun id' hb' => ?_
    obtain rfl : id' = id := hb'.eq.symm.trans (alone_of_comes hok hc).1.eq
    exact hagain rfl
  · exact (loop_leaves (ok_of_comes hok hc) hc.stopped hres).mp (hleave hres)

/-- What a turn of the body does, told to `loop`. -/
theorem turn_loop {J : Machine F S → Prop} {m₀ : Machine F S} (hok : Ok id m₀)
    (hbody : Brings t nat id (LoopTurn J Q) (goOn m₀ (.call a))) : Brings t nat id (fun r m =>
      (r = .ok → Alone id m ∧ J m) ∧ (¬ r = .ok → Brings t nat id Q (m.under id [.loop a])))
      (goOn m₀ (.call a)) := by
  have hok' : Ok id (goOn m₀ (.call a)) := hok.goOn (.call a)
  refine hbody.mono fun n m r hc hturn => ⟨fun hres => ?_, fun hres => ?_⟩
  · unfold LoopTurn at hturn
    rw [if_pos hres] at hturn
    exact ⟨(alone_of_comes hok' hc).1, hturn⟩
  · unfold LoopTurn at hturn
    rw [if_neg hres] at hturn
    exact (loop_leaves (ok_of_comes hok' hc) hc.stopped hres).mpr hturn

/-- **The rule for `loop`.** A call of `loop` returns as in `Q`, if it does, exactly if there is an
invariant: it holds in front of the first iteration; an iteration that returns `B6B_OK` keeps it; and
every other result of an iteration is as in `Q`, with `B6B_OK` for `B6B_BREAK`. -/
theorem loop_iff (nat : Natives N S I) (args a : Addr) (P : Machine F S → Prop)
    (Q : Res → Machine F S → Prop) :
    Triple false nat (fun m => P m ∧ Invokes m.heap args .loop [a]) (.invoke args) Q ↔
      ∃ J : Machine F S → Prop, (∀ m, P m → Invokes m.heap args .loop [a] → J m) ∧
        Triple false nat J (.call a) (LoopTurn J Q) := by
  constructor
  · intro h
    refine ⟨LoopAt false nat a Q, fun m hP hargs id hb => ?_, triple_iff.mpr fun id b hb hJ => ?_⟩
    · exact (loop_starts hb hargs).mp (triple_iff.mp h id m hb ⟨hP, hargs⟩)
    · exact loopAt_turn hb hJ fun _ _ _ h => h
  · rintro ⟨J, hstart, hbody⟩
    refine triple_iff.mpr fun id b hb ⟨hP, hargs⟩ => (loop_starts hb hargs).mpr ?_
    refine (loop_repeats nat id a).wp_of_inv (I := fun m => Alone id m ∧ J m) (fun m hok ⟨hm, hJ⟩ => ?_)
      (ok_of_alone hb) ⟨hb, hstart b hP hargs⟩
    exact turn_loop hok (triple_iff.mp hbody id m hm hJ)

/-- An iteration of a `loop` that comes to its end, from `m₀` on, has returned `B6B_OK` at `m`. -/
def Iterates (nat : Natives N S I) (a : Addr) (Q : Res → Machine F S → Prop) (m m₀ : Machine F S) : Prop :=
  LoopAt true nat a Q m₀ ∧ ∃ id, Alone id m₀ ∧
    Again (Machine.step nat) (stops [] id) (Ok id) (fun m => goOn m (.call a)) (· = .ok) m m₀

/-- It does not go on for ever. -/
theorem iterates_wf (nat : Natives N S I) (a : Addr) (Q : Res → Machine F S → Prop) :
    WellFounded (Iterates nat a Q) := by
  have hone {id : ℕ} {m : Machine F S} (hacc : Acc (Again (Machine.step nat) (stops [] id) (Ok id)
      (fun m => goOn m (.call a)) (· = .ok)) m) : Alone id m → Acc (Iterates nat a Q) m := by
    induction hacc with
    | intro m _ ih =>
      refine fun hm => .intro m fun m₁ ⟨_, id', hm', hagain⟩ => ?_
      obtain rfl : id' = id := hm'.eq.symm.trans hm.eq
      have hrest := ih m₁ hagain
      obtain ⟨hok, n, r, -, hc⟩ := hagain
      exact hrest (alone_of_comes (hok.goOn (.call a)) hc).1
  refine ⟨fun m₀ => .intro m₀ fun m ⟨hloop, id, hm₀, hagain⟩ => ?_⟩
  have hacc := ((loop_repeats nat id a).acc (ok_of_alone hm₀) (hloop id hm₀)).inv hagain
  obtain ⟨hok, n, r, -, hc⟩ := hagain
  exact hone hacc (alone_of_comes (hok.goOn (.call a)) hc).1

/-- **The rule for a `loop` that comes to its end.** There is an invariant, and a relation that is well
founded, in which each iteration that returns `B6B_OK` goes down. -/
theorem loop_total_iff (nat : Natives N S I) (args a : Addr) (P : Machine F S → Prop)
    (Q : Res → Machine F S → Prop) :
    Triple true nat (fun m => P m ∧ Invokes m.heap args .loop [a]) (.invoke args) Q ↔
      ∃ (J : Machine F S → Prop) (D : Machine F S → Machine F S → Prop), WellFounded D ∧
        (∀ m, P m → Invokes m.heap args .loop [a] → J m) ∧
        ∀ m₀, Triple true nat (fun m => m = m₀ ∧ J m) (.call a) (LoopTurn (fun m => J m ∧ D m m₀) Q) := by
  constructor
  · intro h
    refine ⟨LoopAt true nat a Q, Iterates nat a Q, iterates_wf nat a Q, fun m hP hargs id hb => ?_,
      fun m₀ => triple_iff.mpr fun id b hb ⟨hm, hJ⟩ => ?_⟩
    · exact (loop_starts hb hargs).mp (triple_iff.mp h id m hb ⟨hP, hargs⟩)
    · subst hm
      exact loopAt_turn hb hJ fun n m hc hm => ⟨hm, hJ, id, hb, ok_of_alone hb, n, .ok, rfl, hc⟩
  · rintro ⟨J, D, hwf, hstart, hbody⟩
    refine triple_iff.mpr fun id b hb ⟨hP, hargs⟩ => (loop_starts hb hargs).mpr ?_
    refine (loop_repeats nat id a).twp_of_wf (I := fun m => Alone id m ∧ J m) hwf
      (fun m hok ⟨hm, hJ⟩ => ?_) (ok_of_alone hb) ⟨hb, hstart b hP hargs⟩
    refine W.mono (turn_loop hok (triple_iff.mp (hbody m) id m hm ⟨rfl, hJ⟩)) fun n m' r hc h => ?_
    exact ⟨fun hres => ⟨⟨(h.1 hres).1, (h.1 hres).2.1⟩, (h.1 hres).2.2⟩, h.2⟩

end Loop

/-! ### What has to hold before a call -/

/-- The machines from which a call that goes on with `c` returns as in `Q`. -/
def Before (t : Bool) (nat : Natives N S I) (c : Ctl S) (Q : Res → Machine F S → Prop) (m : Machine F S) :
    Prop :=
  ∀ id, Alone id m → Brings t nat id Q (goOn m c)

theorem before_iff (hb : Alone id b) : Before t nat c Q b ↔ Brings t nat id Q (goOn b c) := by
  refine ⟨fun h => h id hb, fun h id' hb' => ?_⟩
  obtain rfl : id' = id := hb'.eq.symm.trans hb.eq
  exact h

/-- The call goes on with `Q` behind one that it waits for. -/
theorem brings_congr (hb : Alone id b) (hQ : ∀ r m, Alone id m → m.interp.fg.ctl = .ret r →
    (Q r m ↔ Q' r m)) : Brings t nat id Q (goOn b c) ↔ Brings t nat id Q' (goOn b c) :=
  w_congr fun _ m r hc => hQ r m (alone_of_comes ((ok_of_alone hb).goOn c) hc).1
    (alone_of_comes ((ok_of_alone hb).goOn c) hc).2

/-! ### `try` -/

section Try

variable [Inhabited I]

/-- What a call of `try` returns behind its third block, which has returned `rf`. -/
def endCode (r re rf : Res) : Res :=
  if r = .ret ∨ r = .exit then r else if r = .err ∧ re ≠ .ok then re else rf

/-- What has to hold behind the first two blocks of `try`: the first one has returned `r`, and `re` is what
has become of the second one. With a third block, `exit` and `_` are put aside, and back behind it. -/
def TryEnd (t : Bool) (nat : Natives N S I) (f : Option Addr) (Q : Res → Machine F S → Prop) (r re : Res)
    (m : Machine F S) : Prop :=
  match f with
  | none => Q (plainCode r re) (goOn m (.ret (plainCode r re)))
  | some f => Before t nat (.call f) (fun rf m' => Q (endCode r re rf) (goOn ⟨m'.heap,
      { m'.interp with exit := m.interp.exit }.setRet m.interp.fg.ret⟩ (.ret (endCode r re rf))))
      ⟨m.heap, { m.interp with exit := false }⟩

/-- What has to hold behind the first block of `try`, which has returned `r`. -/
def TryBody (t : Bool) (nat : Natives N S I) (e f : Option Addr) (Q : Res → Machine F S → Prop) (r : Res)
    (m : Machine F S) : Prop :=
  if r = .err then
    match e with
    | none => Q (if m.interp.opts.raise then .err else .ok)
        (goOn m (.ret (if m.interp.opts.raise then .err else .ok)))
    | some e => Before t nat (.call e) (fun re m =>
        TryEnd t nat f Q .err (if m.interp.opts.raise ∧ re ≠ .exit then .err else re) m) m
  else TryEnd t nat f Q r .err m

theorem alone_like {σ : Interp S} {h : Heap F} (hb : Alone id b) (hbefore : σ.before = b.interp.before)
    (hafter : σ.after = b.interp.after) (hid : σ.fg.id = b.interp.fg.id) (hnext : σ.nextId = b.interp.nextId)
    (hk : σ.fg.konts = b.interp.fg.konts) : Alone id ⟨h, σ⟩ :=
  ⟨hid.trans hb.eq, hk.trans hb.konts, distinct_like hb.distinct hbefore hafter hid hnext⟩

/-- Behind the first two blocks. -/
theorem brings_tryEnd (hb : Alone id b) {f : Option Addr} {r re : Res} :
    Brings t nat id Q (goOn b (.tryEnd r re f)) ↔ TryEnd t nat f Q r re b := by
  refine (brings_step (m := goOn b (.tryEnd r re f)) (stops_goOn nofun) fun _ => rfl).trans ?_
  cases f with
  | none => exact brings_ret (hb.goOn _)
  | some f =>
    have hexit : Alone id ⟨b.heap, { b.interp with exit := false }⟩ := alone_like hb rfl rfl rfl rfl rfl
    refine (brings_call hexit (.tryFinally r re b.interp.exit b.interp.fg.ret) (.call f)).trans ?_
    refine (brings_congr hexit fun rf m' hm' _ => ?_).trans (before_iff hexit).symm
    have hresume : m'.interp.resume (F := F) rf (.tryFinally r re b.interp.exit b.interp.fg.ret) =
        pure (({ m'.interp with exit := b.interp.exit }.setRet b.interp.fg.ret).goto
          (.ret (endCode r re rf))) := by
      unfold Interp.resume endCode
      dsimp only
      split_ifs <;> rfl
    rw [hresume, Op.leads_pure]
    exact brings_ret (b := ⟨m'.heap, { m'.interp with exit := b.interp.exit }.setRet b.interp.fg.ret⟩)
      (alone_like hm' rfl rfl rfl rfl rfl)

/-- Behind the first block. -/
theorem brings_tryBody (hb : Alone id b) {e f : Option Addr} {r : Res} :
    (Op.Leads t (b.interp.resume r (.tryBody e f)) b.heap fun σ h => Brings t nat id Q ⟨h, σ⟩) ↔
      TryBody t nat e f Q r b := by
  unfold Interp.resume TryBody
  dsimp only
  by_cases hr : r = .err
  · rw [if_pos hr, if_pos hr]
    cases e with
    | none => exact brings_ret hb
    | some e =>
      refine (brings_call hb (.tryExcept f) (.call e)).trans ?_
      refine (brings_congr hb fun re m hm _ => ?_).trans (before_iff hb).symm
      exact brings_tryEnd hm
  · rw [if_neg hr, if_neg hr]
    exact brings_tryEnd hb

/-- The blocks of a call of `try`. -/
inductive TryArgs
  | body (b : Addr)
  | exc (b e : Addr)
  | fin (b e f : Addr)

/-- They are the arguments. -/
def TryArgs.list : TryArgs → List Addr
  | .body b => [b]
  | .exc b e => [b, e]
  | .fin b e f => [b, e, f]

/-- The first block. -/
def TryArgs.first : TryArgs → Addr
  | .body b | .exc b _ | .fin b _ _ => b

/-- The second block. -/
def TryArgs.second : TryArgs → Option Addr
  | .body _ => none
  | .exc _ e | .fin _ e _ => some e

/-- The third block. -/
def TryArgs.third : TryArgs → Option Addr
  | .body _ | .exc _ _ => none
  | .fin _ _ f => some f

/-- **The rule for `try`.** What has to hold before a call of `try` is what has to hold before its first
block, if what has to hold behind the blocks is as `TryBody` and `TryEnd` say. -/
theorem try_iff (t : Bool) (nat : Natives N S I) (args : Addr) (bs : TryArgs) (P : Machine F S → Prop)
    (Q : Res → Machine F S → Prop) :
    Triple t nat (fun m => P m ∧ Invokes m.heap args .try bs.list) (.invoke args) Q ↔
      Triple t nat (fun m => P m ∧ Invokes m.heap args .try bs.list) (.call bs.first)
        (TryBody t nat bs.second bs.third Q) := by
  rw [triple_iff, triple_iff]
  refine forall_congr' fun id => forall_congr' fun b => forall_congr' fun hb => forall_congr' fun hP => ?_
  have hargs := hP.2
  have hstart : Brings t nat id Q (goOn b (.invoke args)) ↔
      Brings t nat id Q ⟨b.heap, b.interp.push (.tryBody bs.second bs.third) (.call bs.first)⟩ := by
    refine brings_invoke_ok hargs fun _ => ?_
    cases bs with
    | body b => exact hargs.getArgs rfl fun _ => rfl
    | exc b e => exact hargs.getArgs rfl fun _ => rfl
    | fin b e f => exact hargs.getArgs rfl fun _ => rfl
  rw [hstart]
  refine (brings_call hb (.tryBody bs.second bs.third) (.call bs.first)).trans ?_
  exact brings_congr hb fun r m hm _ => brings_tryBody hm

end Try

/-! ### Code that comes back to itself -/

section Again

variable {J : Machine F S → Prop}

/-- The call returns as in `Q`, or comes back to `J`. -/
abbrev ComesBack (nat : Natives N S I) (id : ℕ) (Q : Res → Machine F S → Prop) (J : Machine F S → Prop)
    (m : Machine F S) : Prop :=
  Later (Machine.step nat) (stops [] id) Q J m

theorem comesBack_ret (hb : Alone id b) (hQ : Q res (goOn b (.ret res))) :
    ComesBack nat id Q J (goOn b (.ret res)) :=
  .done ((brings_ret (t := false) hb).mpr hQ)

/-- Behind a step. -/
theorem comesBack_step {x : Op (Heap F) (Interp S)} (hx : ∀ inp, m.interp.step nat inp m.heap = x m.heap)
    (h : Op.Leads false x m.heap fun σ h => ComesBack nat id Q J ⟨h, σ⟩) :
    ∀ inp m', m.step nat inp = some m' → ComesBack nat id Q J m' := by
  intro inp m' hstep
  have hok := (hx inp).symm.trans (Machine.step_eq_some hstep)
  exact (Op.leads_ok hok).mp h

/-- Behind a call that waits. -/
theorem comesBack_call (hb : Alone id b) (k : Kont) (c : Ctl S) (h : Brings false nat id (fun r m =>
      Op.Leads false (m.interp.resume r k) m.heap fun σ h => ComesBack nat id Q J ⟨h, σ⟩) (goOn b c)) :
    ComesBack nat id Q J ⟨b.heap, b.interp.push k c⟩ := by
  have hok : Ok id (goOn b c) := (ok_of_alone hb).goOn c
  rw [push_alone hb]
  refine .call (lifts_wait nat id k) hok fun n m r hc => .go stops_wait ?_
  exact comesBack_step (fun _ => congrFun (step_wait (ok_of_comes hok hc) hc.stopped) m.heap) (h n m r hc)

end Again

/-! ### Statements -/

section Call

variable {stmts : Addr} {li : Option Litem} {J : Option Litem → Machine F S → Prop}

/-- What has to hold behind the statement `li`, where the next one is looked up, if `X` says what has to
hold at the next one. -/
def NextStmt (t : Bool) (stmts : Addr) (li : Litem) (X : Option Litem → Machine F S → Prop)
    (m : Machine F S) : Prop :=
  Op.Leads t (listNext stmts li) m.heap fun li' h => X li' ⟨h, m.interp⟩

/-- What has to hold at a statement of `b6b_call`, if `X` says what has to hold at the ones behind it. A
statement that is empty or a comment is left out, and the first one that does not return `B6B_OK` is the
last one. -/
def StmtTurn (t : Bool) (nat : Natives N S I) (stmts : Addr) (X : Option Litem → Machine F S → Prop)
    (Q : Res → Machine F S → Prop) : Option Litem → Machine F S → Prop
  | none, m => Q .ok (goOn m (.ret .ok))
  | some li, m => Op.Leads t (asStr N li.o) m.heap fun s h =>
    if s.isEmpty ∨ s.head? = some 0x23 then NextStmt t stmts li X ⟨h, m.interp⟩
    else Before t nat (.stmt li.o) (fun r m =>
      if r = .ok then NextStmt t stmts li X m else Q r (goOn m (.ret r))) ⟨h, m.interp⟩

/-- `b6b_call` at a statement. -/
theorem before_callAt [Inhabited I] (hb : Alone id b) : Before t nat (.callAt stmts li) Q b ↔
    StmtTurn t nat stmts (fun li => Before t nat (.callAt stmts li) Q) Q li b := by
  rw [before_iff hb]
  refine (brings_step (m := goOn b (.callAt stmts li)) (stops_goOn nofun) fun _ => rfl).trans ?_
  have hnext {li : Litem} {σ : Interp S} {h : Heap F} (hσ : Alone id ⟨h, σ⟩) :
      (Op.Leads t (listNext stmts li >>= fun li' => pure (σ.goto (.callAt stmts li'))) h fun σ h =>
        Brings t nat id Q ⟨h, σ⟩) ↔
      NextStmt t stmts li (fun li => Before t nat (.callAt stmts li) Q) ⟨h, σ⟩ := by
    rw [Op.leads_bind]
    refine Op.leads_congr fun li' h' _ => Op.leads_pure.trans ?_
    exact (before_iff (alone_like hσ rfl rfl rfl rfl rfl)).symm
  cases li with
  | none => exact brings_ret (hb.goOn _)
  | some li =>
    refine Op.leads_bind.trans (Op.leads_congr fun s h _ => ?_)
    have hb' : Alone id ⟨h, b.interp⟩ := alone_like hb rfl rfl rfl rfl rfl
    split_ifs with hblank
    · exact hnext (σ := b.interp) hb'
    · refine (brings_call hb' (.call stmts li) (.stmt li.o)).trans ?_
      refine (brings_congr hb' fun r m hm _ => ?_).trans (before_iff hb').symm
      unfold Interp.resume
      dsimp only
      split_ifs with hr
      · exact hnext hm
      · exact brings_ret hm

/-- Behind a statement where `J` holds of the next one, the call returns as in `Q` or comes to it. -/
theorem comesBack_callAt (hb : Alone id b) (hJ : StmtTurn false nat stmts J Q li b) (inp : Input I)
    (hstep : (goOn b (.callAt stmts li)).step nat inp = some m) :
    ComesBack nat id Q (fun m => ∃ b li, Alone id b ∧ J li b ∧ m = goOn b (.callAt stmts li)) m := by
  have hnext {li : Litem} {σ : Interp S} {h : Heap F} (hσ : Alone id ⟨h, σ⟩)
      (hnext : NextStmt false stmts li J ⟨h, σ⟩) :
      Op.Leads false (listNext stmts li >>= fun li' => pure (σ.goto (.callAt stmts li'))) h fun σ h =>
        ComesBack nat id Q (fun m => ∃ b li, Alone id b ∧ J li b ∧ m = goOn b (.callAt stmts li)) ⟨h, σ⟩ := by
    refine Op.leads_bind.mpr (Op.Leads.mono hnext fun li' h' _ hJ => Op.leads_pure.mpr (.back ?_))
    exact ⟨⟨h', σ⟩, li', alone_like hσ rfl rfl rfl rfl rfl, hJ, rfl⟩
  refine comesBack_step (m := goOn b (.callAt stmts li)) (fun _ => rfl) ?_ inp m hstep
  cases li with
  | none => exact Op.leads_pure.mpr (comesBack_ret (hb.goOn _) hJ)
  | some li =>
    refine Op.leads_bind.mpr (Op.Leads.mono hJ fun s h _ hturn => ?_)
    have hb' : Alone id ⟨h, b.interp⟩ := alone_like hb rfl rfl rfl rfl rfl
    split_ifs at hturn ⊢ with hblank
    · exact hnext (σ := b.interp) hb' hturn
    · refine Op.leads_pure.mpr (comesBack_call hb' (.call stmts li) (.stmt li.o) ?_)
      refine W.mono (hturn id hb') fun n m r hc hr => ?_
      have hm : Alone id m := (alone_of_comes ((ok_of_alone hb').goOn _) hc).1
      unfold Interp.resume
      dsimp only at hr ⊢
      split_ifs at hr ⊢ with hok
      · exact hnext hm hr
      · exact comesBack_ret hm hr

/-- **The rule for code.** A call of `b6b_call` returns as in `Q`, if it does, exactly if there is an
assertion for each statement, which holds where the call comes to it. -/
theorem call_iff [Inhabited I] (nat : Natives N S I) (stmts : Addr) (P : Machine F S → Prop)
    (Q : Res → Machine F S → Prop) :
    Triple false nat P (.call stmts) Q ↔ ∃ J : Option Litem → Machine F S → Prop,
      (∀ id m, Alone id m → P m → Op.Leads false (Op.attempt (asList N stmts)) m.heap fun lis h =>
        match lis with
        | some lis => J lis.head? ⟨h, m.interp⟩
        | none => Q .err (goOn ⟨h, m.interp⟩ (.ret .err))) ∧
      ∀ id m li, Alone id m → J li m → StmtTurn false nat stmts J Q li m := by
  -- what is left of the step to the first statement
  have hstart {R : Interp S → Heap F → Prop} {σ : Interp S} {h : Heap F} :
      Op.Leads false (σ.call N stmts) h R ↔ Op.Leads false (Op.attempt (asList N stmts)) h fun lis h =>
        match lis with
        | some lis => R (σ.goto (.callAt stmts lis.head?)) h
        | none => R (σ.goto (.ret .err)) h := by
    refine Op.leads_bind.trans (Op.leads_congr fun lis h _ => ?_)
    cases lis <;> exact Op.leads_pure
  have hstep {id : ℕ} {b : Machine F S} : Brings false nat id Q (goOn b (.call stmts)) ↔
      Op.Leads false ((goOn b (.call stmts)).interp.call N stmts) b.heap fun σ h =>
        Brings false nat id Q ⟨h, σ⟩ :=
    brings_step (m := goOn b (.call stmts)) (stops_goOn nofun) fun _ => rfl
  rw [triple_iff]
  constructor
  · intro h
    refine ⟨fun li m => Before false nat (.callAt stmts li) Q m, fun id m hm hP => ?_, fun id m li hm hJ =>
      (before_callAt hm).mp hJ⟩
    refine (hstart.mp (hstep.mp (h id m hm hP))).mono fun lis h' _ hw => ?_
    have hm' : Alone id ⟨h', m.interp⟩ := alone_like hm rfl rfl rfl rfl rfl
    cases lis with
    | some lis => exact (before_iff hm').mpr hw
    | none => exact (brings_ret hm').mp hw
  · rintro ⟨J, hentry, hturn⟩ id b hb hP
    refine hstep.mpr (hstart.mpr ((hentry id b hb hP).mono fun lis h' _ hJ => ?_))
    have hb' : Alone id ⟨h', b.interp⟩ := alone_like hb rfl rfl rfl rfl rfl
    cases lis with
    | none => exact (brings_ret hb').mpr hJ
    | some lis =>
      refine wp_of_later (J := fun m => ∃ b li, Alone id b ∧ J li b ∧ m = goOn b (.callAt stmts li)) ?_
        ⟨⟨h', b.interp⟩, lis.head?, hb', hJ, rfl⟩
      rintro _ ⟨m, li, hm, hJ, rfl⟩
      exact ⟨stops_goOn nofun, fun inp m' => comesBack_callAt hm (hturn id m li hm hJ) inp⟩

end Call

/-! ### `map` -/

section Map

variable {ks l a : Addr} {li : Option Litem} {r : List Addr}
  {J : Option Litem → List Addr → Machine F S → Prop}

/-- What has to hold behind an iteration of `map` that has returned `res`, if `X` says what has to hold at
the next one: `li` is the next item, and `r` the results so far. -/
def MapResult (X : Option Litem → List Addr → Machine F S → Prop) (Q : Res → Machine F S → Prop)
    (li : Option Litem) (r : List Addr) (res : Res) (m : Machine F S) : Prop :=
  match res with
  | .ok => X li (r ++ [m.interp.fg.ret]) m
  | .cont => X li r m
  | .brk => X none r m
  | res => Q res (goOn m (.ret res))

/-- What has to hold in front of an iteration of `map`, if `X` says what has to hold in front of the next
one. Behind the last one, the results are made a list. -/
def MapTurn (t : Bool) (nat : Natives N S I) (ks l a : Addr)
    (X : Option Litem → List Addr → Machine F S → Prop) (Q : Res → Machine F S → Prop) :
    Option Litem → List Addr → Machine F S → Prop
  | none, r, m => Op.Leads t (listBuild r) m.heap fun o h => Q .ok ⟨h, m.interp.finish (.ok, some o)⟩
  | some li, r, m => Op.Leads t (items ks) m.heap fun kis h =>
    Op.Leads t (Interp.mapBind N l kis (some li) (m.interp.goto (.mapAt ks l a (some li) r))) h fun turn h =>
      match turn with
      | some (li', σ) => Before t nat (.call a) (MapResult X Q li' r) ⟨h, σ⟩
      | none => Op.Leads t (returnStr (bytes "not enough items")) h fun o h =>
        Q .err ⟨h, m.interp.finish (.err, o)⟩

/-- The bindings are variables of the fiber. -/
theorem alone_mapBind {kis : List Litem} {σ : Interp S} {h h' : Heap F}
    {turn : Option (Option Litem × Interp S)} (hσ : Alone id ⟨h, σ⟩)
    (hturn : Interp.mapBind N l kis li σ h = .ok turn h') :
    ∀ li' σ', turn = some (li', σ') → Alone id ⟨h', σ'⟩ := by
  intro li' σ' hli
  have hown := (Interp.mapBind_own l kis li σ).ok hturn li' σ' hli
  have hbinds := (Interp.mapBind_binds l kis li σ).ok hturn li' σ' hli
  exact alone_like hσ hown.before hown.after hown.id hown.nextId hbinds.konts

/-- A procedure that returns. -/
theorem brings_finish {res : Res} {o : Option Addr} {σ : Interp S} {h : Heap F} (hσ : Alone id ⟨h, σ⟩) :
    Brings t nat id Q ⟨h, σ.finish (res, o)⟩ ↔ Q res ⟨h, σ.finish (res, o)⟩ := by
  cases o with
  | none => exact brings_ret hσ
  | some o => exact brings_ret (b := ⟨h, σ.setRet o⟩) (alone_like hσ rfl rfl rfl rfl rfl)

/-- `b6b_loop_proc_map` in front of an iteration. -/
theorem before_mapAt [Inhabited I] (hb : Alone id b) : Before t nat (.mapAt ks l a li r) Q b ↔
    MapTurn t nat ks l a (fun li r => Before t nat (.mapAt ks l a li r) Q) Q li r b := by
  rw [before_iff hb]
  refine (brings_step (m := goOn b (.mapAt ks l a li r)) (stops_goOn nofun) fun _ => rfl).trans ?_
  cases li with
  | none =>
    refine Op.leads_bind.trans (Op.leads_congr fun o h _ => Op.leads_pure.trans ?_)
    exact brings_finish (σ := b.interp.goto (.mapAt ks l a none r)) (alone_like hb rfl rfl rfl rfl rfl)
  | some li =>
    refine Op.leads_bind.trans (Op.leads_congr fun kis h _ => ?_)
    refine Op.leads_bind.trans (Op.leads_congr fun turn h' hturn => ?_)
    have hb' : Alone id ⟨h, b.interp.goto (.mapAt ks l a (some li) r)⟩ := alone_like hb rfl rfl rfl rfl rfl
    rcases turn with _ | ⟨li', σ⟩
    · refine Op.leads_bind.trans (Op.leads_congr fun o h'' _ => Op.leads_pure.trans ?_)
      exact brings_finish (alone_like hb' rfl rfl rfl rfl rfl)
    · have hσ : Alone id ⟨h', σ⟩ := alone_mapBind hb' hturn li' σ rfl
      refine Op.leads_pure.trans ((brings_call hσ (.map ks l a li' r) (.call a)).trans ?_)
      refine (brings_congr hσ fun res m hm _ => ?_).trans (before_iff hσ).symm
      cases res with
      | ok => exact Op.leads_pure.trans (before_iff hm).symm
      | cont => exact Op.leads_pure.trans (before_iff hm).symm
      | brk => exact Op.leads_pure.trans (before_iff hm).symm
      | _ => exact Op.leads_pure.trans (brings_ret hm)

/-- Behind a step of `map` where `J` holds, the call returns as in `Q` or comes to the next iteration. -/
theorem comesBack_mapAt (hb : Alone id b) (hJ : MapTurn false nat ks l a J Q li r b) (inp : Input I)
    (hstep : (goOn b (.mapAt ks l a li r)).step nat inp = some m) :
    ComesBack nat id Q (fun m => ∃ b li r, Alone id b ∧ J li r b ∧ m = goOn b (.mapAt ks l a li r)) m := by
  have hback {b : Machine F S} {li : Option Litem} {r : List Addr} (hb : Alone id b) (hJ : J li r b) :
      ComesBack nat id Q (fun m => ∃ b li r, Alone id b ∧ J li r b ∧ m = goOn b (.mapAt ks l a li r))
        (goOn b (.mapAt ks l a li r)) := .back ⟨b, li, r, hb, hJ, rfl⟩
  refine comesBack_step (m := goOn b (.mapAt ks l a li r)) (fun _ => rfl) ?_ inp m hstep
  cases li with
  | none =>
    refine Op.leads_bind.mpr (Op.Leads.mono hJ fun o h _ hQ => Op.leads_pure.mpr ?_)
    exact .done ((brings_finish (t := false) (σ := b.interp.goto (.mapAt ks l a none r))
      (alone_like hb rfl rfl rfl rfl rfl)).mpr hQ)
  | some li =>
    refine Op.leads_bind.mpr (Op.Leads.mono hJ fun kis h _ hturn => ?_)
    refine Op.leads_bind.mpr (Op.Leads.mono hturn fun turn h' hbound hturn => ?_)
    have hb' : Alone id ⟨h, b.interp.goto (.mapAt ks l a (some li) r)⟩ := alone_like hb rfl rfl rfl rfl rfl
    rcases turn with _ | ⟨li', σ⟩
    · refine Op.leads_bind.mpr (Op.Leads.mono hturn fun o h'' _ hQ => Op.leads_pure.mpr ?_)
      exact .done ((brings_finish (t := false) (alone_like hb' rfl rfl rfl rfl rfl)).mpr hQ)
    · have hσ : Alone id ⟨h', σ⟩ := alone_mapBind hb' hbound li' σ rfl
      refine Op.leads_pure.mpr (comesBack_call hσ (.map ks l a li' r) (.call a) ?_)
      refine W.mono (hturn id hσ) fun n res m hc hres => ?_
      have hm : Alone id res := (alone_of_comes ((ok_of_alone hσ).goOn _) hc).1
      cases m with
      | ok => exact Op.leads_pure.mpr (hback hm hres)
      | cont => exact Op.leads_pure.mpr (hback hm hres)
      | brk => exact Op.leads_pure.mpr (hback hm hres)
      | _ => exact Op.leads_pure.mpr (comesBack_ret hm hres)

/-- **The rule for `map`.** Its loop returns as in `Q`, if it does, exactly if there is an assertion for
each item and the results so far, which holds in front of the iteration that begins there. -/
theorem map_iff [Inhabited I] (nat : Natives N S I) (ks l a : Addr) (li : Option Litem) (r : List Addr)
    (P : Machine F S → Prop) (Q : Res → Machine F S → Prop) :
    Triple false nat P (.mapAt ks l a li r) Q ↔ ∃ J : Option Litem → List Addr → Machine F S → Prop,
      (∀ id m, Alone id m → P m → J li r m) ∧
      ∀ id m li r, Alone id m → J li r m → MapTurn false nat ks l a J Q li r m := by
  rw [triple_iff]
  constructor
  · intro h
    refine ⟨fun li r m => Before false nat (.mapAt ks l a li r) Q m, fun id m hm hP => ?_,
      fun id m li r hm hJ => (before_mapAt hm).mp hJ⟩
    exact (before_iff hm).mpr (h id m hm hP)
  · rintro ⟨J, hentry, hturn⟩ id b hb hP
    refine wp_of_later (J := fun m => ∃ b li r, Alone id b ∧ J li r b ∧ m = goOn b (.mapAt ks l a li r)) ?_
      ⟨b, li, r, hb, hentry id b hb hP, rfl⟩
    rintro _ ⟨m, li, r, hm, hJ, rfl⟩
    exact ⟨stops_goOn nofun, fun inp m' => comesBack_mapAt hm (hturn id m li r hm hJ) inp⟩

end Map

end Rules

end B6b
