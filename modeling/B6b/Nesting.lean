/-
# How deep statements nest

A fiber has one frame more than it has statements between the push and the pop of
`b6b_stmt_call`, and no more than `B6B_MAX_NESTING` of them (`Framed`). And what is at the
bottom of its stack stays there as long as it does not return from it (`Inside`), so
`b6b_stmt_call` and `b6b_call` return with the frame they were called with: `frames_kept`.

Key definitions: `Framed`, `Nested`, `Inside`, `Calling`.
-/
import B6b.Frames
import B6b.Literals
import Mathlib.Data.List.Nodup

namespace B6b

variable {F S I : Type} {N : Num F}

namespace Nesting

open Literals

/-! ### Every fiber -/

theorem activeIn_append (ks ks' : List Kont) : activeIn (ks ++ ks') = activeIn ks + activeIn ks' := by
  simp [activeIn]

theorem top_add_rest (t : Fiber S) : t.top + activeIn t.rest = t.active := by
  unfold Fiber.top Fiber.rest Fiber.active
  cases t.ctl with
  | ret res =>
    show activeIn (t.konts.take 1) + activeIn t.konts.tail = 0 + activeIn t.konts
    rw [← activeIn_append, ← List.drop_one, List.take_append_drop, Nat.zero_add]
  | _ => rfl

/-- **A fiber has one frame more than it has statements with a frame.** -/
structure Framed (nf : ℕ) (t : Fiber S) : Prop where
  depth : t.depth = t.frames.length
  stack : t.stack.length = t.frames.length
  active : t.depth = t.active + 1
  le : t.depth ≤ Interp.maxNesting
  nodup : t.frames.Nodup
  lt : ∀ f ∈ t.frames, f < nf

/-- A fiber starts with one frame and no statement. -/
theorem framed_first {nf f : ℕ} {t : Fiber S} (hf : t.frames = [f]) (hd : t.depth = 1)
    (hs : t.stack.length = 1) (ha : t.active = 0) (hlt : f < nf) : Framed nf t := by
  refine ⟨?_, ?_, ?_, ?_, ?_, fun f' hf' => ?_⟩
  · rw [hd, hf, List.length_singleton]
  · rw [hs, hf, List.length_singleton]
  · rw [hd, ha]
  · rw [hd]
    decide
  · rw [hf]
    exact List.pairwise_singleton _ f
  · rw [hf] at hf'
    rw [List.mem_singleton.mp hf']
    exact hlt

theorem Framed.mono {nf nf' : ℕ} {t : Fiber S} (h : Framed nf t) (hle : nf ≤ nf') : Framed nf' t :=
  ⟨h.depth, h.stack, h.active, h.le, h.nodup, fun f hf => Nat.lt_of_lt_of_le (h.lt f hf) hle⟩

/-- A step of the fiber. -/
theorem Framed.acts {i : Option ℕ} {nf nf' : ℕ} {t t' : Fiber S} (h : Framed nf t)
    (ha : Fiber.Acts i t.top nf nf' t.rest t t') : Framed nf' t' := by
  have hactive : t.depth = t.top + activeIn t.rest + 1 := by rw [top_add_rest, h.active]
  cases ha with
  | binds new ls hk hn hnf hf hd hs =>
    refine ⟨?_, ?_, ?_, hd ▸ h.le, hf ▸ h.nodup, fun f hmem => ?_⟩
    · rw [hd, hf, h.depth]
    · rw [hs, length_rebound, hf, h.stack]
    · rw [hd, hactive, Fiber.active, hk, activeIn_append, ← hn]
      omega
    · exact Nat.lt_of_lt_of_le (h.lt f (hf ▸ hmem)) hnf
  | enters hk hn hnf hf hlt hd hs =>
    refine ⟨?_, ?_, ?_, ?_, ?_, fun f hmem => ?_⟩
    · rw [hd, hf, List.length_cons, h.depth]
    · rw [hs, hf, List.length_cons, List.length_cons, h.stack]
    · rw [hd, hactive, Fiber.active, hk, hn]
      omega
    · omega
    · rw [hf]
      exact List.nodup_cons.mpr ⟨fun hmem => Nat.lt_irrefl nf (h.lt nf hmem), h.nodup⟩
    · rw [hf] at hmem
      rcases List.mem_cons.mp hmem with rfl | hmem
      · exact hnf
      · exact Nat.lt_trans (h.lt f hmem) hnf
  | leaves hk hn hnf hf hd hs =>
    have hle := h.le
    refine ⟨?_, ?_, ?_, ?_, ?_, fun f hmem => ?_⟩
    · rw [hd, hf, List.length_tail, h.depth]
    · rw [hs, hf, List.length_tail, List.length_tail, h.stack]
    · rw [hd, hactive, Fiber.active, hk, ← hn]
      omega
    · omega
    · rw [hf]
      exact h.nodup.tail
    · rw [hf] at hmem
      exact Nat.lt_of_lt_of_le (h.lt f (List.mem_of_mem_tail hmem)) hnf

/-- So it is for all fibers. -/
def AllFramed (σ : Interp S) : Prop := ∀ t ∈ σ.fibers, Framed σ.nextFrame t

theorem fg_mem (σ : Interp S) : σ.fg ∈ σ.fibers :=
  List.mem_append_right _ List.mem_cons_self

theorem other_mem {σ : Interp S} {t : Fiber S} (ht : t ∈ σ.before ++ σ.after) : t ∈ σ.fibers := by
  rcases List.mem_append.mp ht with ht | ht
  · exact List.mem_append_left _ ht
  · exact List.mem_append_right _ (List.mem_cons_of_mem _ ht)

theorem AllFramed.steps {i : Option ℕ} {σ σ' : Interp S} (h : AllFramed σ) (hs : Interp.Steps i σ σ') :
    AllFramed σ' := by
  intro u hu
  rcases hs.fibers u hu with ⟨v, hv, hor⟩ | ⟨-, ha⟩ | ⟨hlt, fn, rfl⟩
  · have hframed : Framed σ'.nextFrame v := (h v (other_mem hv)).mono hs.nextFrame
    rcases hor with rfl | rfl
    · exact hframed
    · exact ⟨hframed.depth, hframed.stack, hframed.active, hframed.le, hframed.nodup, hframed.lt⟩
  · exact (h _ (fg_mem σ)).acts ha
  · exact framed_first rfl rfl rfl rfl hlt

theorem interpNew_framed (args : List Bytes) (exts : List ExtObj) (progs : List (Opts × Bytes)) :
    Op.Gives (interpNew (S := S) N args exts progs) AllFramed := by
  refine Op.gives_of_bind fun lis => Op.gives_of_bind fun argv => Op.gives_of_bind fun C => ?_
  refine Op.gives_of_bind fun ls => Op.gives_of_bind fun ls' => Op.gives_of_bind fun ps => ?_
  refine Op.gives_pure fun t ht => ?_
  rw [List.mem_singleton.mp ht]
  exact framed_first rfl rfl rfl rfl Nat.zero_lt_one

/-! ### Every run -/

/-- The frames are as they should be, and the fibers told apart. -/
structure Nested (σ : Interp S) : Prop where
  framed : AllFramed σ
  distinct : Interp.Distinct σ

theorem Nested.step {nat : Natives N S I} {m m' : Machine F S} {inp : Input I}
    (hm : Nested m.interp) (h : m.step nat inp = some m') : Nested m'.interp :=
  ⟨hm.framed.steps (Machine.step_steps h), hm.distinct.move (Machine.step_spec h).1⟩

theorem nested_start {args : List Bytes} {exts : List ExtObj} {progs : List (Opts × Bytes)}
    {m : Machine F S} (h : Machine.start? N args exts progs = some m) : Nested m.interp := by
  refine ⟨?_, (Machine.start_fresh h).distinct⟩
  unfold Machine.start? at h
  rcases hx : interpNew (S := S) N args exts progs Heap.empty with σ | h' | _ <;> rw [hx] at h
  · obtain rfl := Option.some.inj h
    exact (interpNew_framed args exts progs).ok hx
  · cases h
  · cases h

theorem Nested.run {nat : Natives N S I} {m m' : Machine F S} {inps : List (Input I)}
    (hm : Nested m.interp) (h : Runs.run (Machine.step nat) m inps = some m') : Nested m'.interp := by
  have hall : Runs.Throughout (Machine.step nat) (fun m => Nested m.interp) m inps :=
    Runs.throughout_of_eachStep (fun _ _ _ hm _ hstep => hm.step hstep) hm (Runs.eachStep_true _ _)
  exact hall.run h

/-! ### Calls -/

/-- What a fiber has above the calls `K` and the frames `A`: one frame for each statement that
has one. -/
def Inside (K : List Kont) (A : List ℕ) (t : Fiber S) : Prop :=
  ∃ K' A', t.konts = K' ++ K ∧ t.frames = A' ++ A ∧ A'.length = t.ctl.stmts + activeIn K'

/-- A fiber that does not return to `K` keeps it. -/
theorem Inside.rest {K : List Kont} {A : List ℕ} {t : Fiber S} (h : Inside K A t)
    (hret : ∀ res, t.ctl = .ret res → t.konts ≠ K) :
    ∃ K' A', t.rest = K' ++ K ∧ t.frames = A' ++ A ∧ A'.length = t.top + activeIn K' := by
  obtain ⟨K', A', hk, hf, hlen⟩ := h
  by_cases hctl : ∃ res, t.ctl = .ret res
  · obtain ⟨res, hctl⟩ := hctl
    cases K' with
    | nil => exact absurd hk (hret res hctl)
    | cons k K' =>
      refine ⟨K', A', ?_, hf, ?_⟩
      · simp [Fiber.rest, hctl, hk]
      · rw [hlen]
        simp [Fiber.top, hctl, hk, activeIn, Ctl.stmts]
  · have hne : ∀ r, t.ctl ≠ .ret r := fun r hr => hctl ⟨r, hr⟩
    exact ⟨K', A', (Interp.rest_of_ne hne).trans hk, hf, by rw [hlen, Interp.top_of_ne hne]⟩

theorem Inside.acts {i : Option ℕ} {nf nf' : ℕ} {K : List Kont} {A : List ℕ} {t t' : Fiber S}
    (h : Inside K A t) (hret : ∀ res, t.ctl = .ret res → t.konts ≠ K)
    (ha : Fiber.Acts i t.top nf nf' t.rest t t') : Inside K A t' := by
  obtain ⟨K', A', hk, hf, hlen⟩ := h.rest hret
  cases ha with
  | binds new ls hk' hn hnf hf' hd hs =>
    refine ⟨new ++ K', A', ?_, hf'.trans hf, ?_⟩
    · rw [hk', hk, List.append_assoc]
    · rw [activeIn_append, hlen, ← hn]
      omega
  | enters hk' hn hnf hf' hlt hd hs =>
    refine ⟨K', nf :: A', hk'.trans hk, ?_, ?_⟩
    · rw [hf', hf]
      rfl
    · rw [List.length_cons, hlen, hn]
      omega
  | leaves hk' hn hnf hf' hd hs =>
    cases A' with
    | nil =>
      rw [List.length_nil] at hlen
      omega
    | cons f A' =>
      refine ⟨K', A', hk'.trans hk, ?_, ?_⟩
      · rw [hf', hf]
        rfl
      · rw [List.length_cons] at hlen
        omega

/-- Behind the return there is nothing above `A`. -/
theorem Inside.returned {A : List ℕ} {t : Fiber S} {res : Res} (h : Inside t.konts A t)
    (hctl : t.ctl = .ret res) : t.frames = A := by
  obtain ⟨K', A', hk, hf, hlen⟩ := h
  have hK' : K' = [] := List.self_eq_append_left.mp hk
  have hA' : A' = [] := by
    rw [hK', hctl] at hlen
    exact List.eq_nil_of_length_eq_zero hlen
  rw [hf, hA', List.nil_append]

section Runs

variable {nat : Natives N S I} {ks : List Kont} {id : ℕ} {P : Machine F S → Prop}

theorem returned_eq_some {σ : Interp S} {res : Res} :
    returned? ks id σ = some res ↔ σ.fg.ctl = .ret res ∧ σ.fg.konts = ks ∧ σ.fg.id = id := by
  unfold returned?
  split
  · next r hr =>
    rw [hr, Ctl.ret.injEq]
    split <;> simp_all
  · next hne =>
    exact iff_of_false nofun fun h => hne res h.1

/-- What every step keeps until the call returns, holds when it does. -/
theorem runTo_invariant
    (hP : ∀ m inp m', P m → returned? ks id m.interp = none → m.step nat inp = some m' → P m') :
    ∀ {inps : List (Input I)} {m m' : Machine F S} {res : Res}, P m →
      returned? ks id m.interp = none → runTo nat ks id m inps = some (m', res) →
      P m' ∧ returned? ks id m'.interp = some res
  | [], _, _, _, _, _, h => nomatch h
  | inp :: inps, m, m', res, hm, hno, h => by
    obtain ⟨m₁, hstep, h⟩ := Option.bind_eq_some_iff.mp h
    have hm₁ : P m₁ := hP m inp m₁ hm hno hstep
    rcases hret : returned? ks id m₁.interp with _ | r <;> rw [hret] at h
    · exact runTo_invariant hP hm₁ hret h
    · cases h
      exact ⟨hm₁, hret⟩

/-- It holds as long as the call has not returned. -/
theorem run_invariant
    (hP : ∀ m inp m', P m → returned? ks id m.interp = none → m.step nat inp = some m' → P m') :
    ∀ {inps : List (Input I)} {m m' : Machine F S}, P m → returned? ks id m.interp = none →
      Runs.run (Machine.step nat) m inps = some m' → runTo nat ks id m inps = none →
      P m' ∧ returned? ks id m'.interp = none
  | [], m, m', hm, hno, h, _ => by
    obtain rfl := Option.some.inj h
    exact ⟨hm, hno⟩
  | inp :: inps, m, m', hm, hno, h, hto => by
    unfold Runs.run at h
    unfold runTo at hto
    rcases hstep : m.step nat inp with _ | m₁ <;> rw [hstep] at h hto
    · cases h
    have hm₁ : P m₁ := hP m inp m₁ hm hno hstep
    rw [Option.bind_some] at hto
    rcases hret : returned? ks id m₁.interp with _ | r <;> rw [hret] at hto
    · exact run_invariant hP hm₁ hret h hto
    · cases hto

end Runs

/-! ### Frames stay -/

/-- `b6b_stmt_call` or `b6b_call` is next. -/
def Calling (σ : Interp S) : Prop := (∃ stmt, σ.fg.ctl = .stmt stmt) ∨ ∃ stmts, Calls σ stmts

theorem Calling.not_returned {σ : Interp S} (h : Calling σ) :
    returned? σ.fg.konts σ.fg.id σ = none := by
  refine Option.eq_none_iff_forall_ne_some.mpr fun res hret => ?_
  obtain ⟨hctl, -, -⟩ := returned_eq_some.mp hret
  rcases h with ⟨stmt, hctl'⟩ | ⟨stmts, hctl'⟩
  · exact nomatch hctl'.symm.trans hctl
  · exact nomatch hctl'.symm.trans hctl

theorem Nested.eq_of_id {σ : Interp S} (h : Nested σ) {t u : Fiber S} (ht : t ∈ σ.fibers)
    (hu : u ∈ σ.fibers) (hid : t.id = u.id) : t = u :=
  List.inj_on_of_nodup_map h.distinct.nodup ht hu hid

theorem Nested.eq_fg {σ : Interp S} (h : Nested σ) {t : Fiber S} (ht : t ∈ σ.fibers)
    (hid : t.id = σ.fg.id) : t = σ.fg :=
  h.eq_of_id ht (fg_mem σ) hid

theorem distinct_ne_fg {σ : Interp S} (hσ : Interp.Distinct σ) {v : Fiber S}
    (hv : v ∈ σ.before ++ σ.after) : v.id ≠ σ.fg.id := by
  intro hid
  have hnodup := hσ.nodup
  rw [Interp.ids, List.map_append, List.map_cons, List.nodup_middle, ← List.map_append] at hnodup
  exact (List.nodup_cons.mp hnodup).1 (hid ▸ List.mem_map_of_mem hv)

/-- The fiber `id` has not returned from the call with `K` around it and the frames `A`. -/
structure Within (id : ℕ) (K : List Kont) (A : List ℕ) (σ : Interp S) : Prop where
  nested : Nested σ
  lt : id < σ.nextId
  inside : ∀ t ∈ σ.fibers, t.id = id → Inside K A t

section Runs

variable {nat : Natives N S I} {m m' : Machine F S} {inp : Input I} {id : ℕ} {K : List Kont}
  {A : List ℕ}

theorem within_start (hm : Nested m.interp) (hcall : Calling m.interp) :
    Within m.interp.fg.id m.interp.fg.konts m.interp.fg.frames m.interp := by
  refine ⟨hm, hm.distinct.lt _ (List.mem_map_of_mem (fg_mem _)), fun t ht hid => ?_⟩
  rw [hm.eq_fg ht hid]
  refine ⟨[], [], rfl, rfl, ?_⟩
  rcases hcall with ⟨stmt, hctl⟩ | ⟨stmts, hctl⟩
  · rw [hctl]
    rfl
  · rw [show m.interp.fg.ctl = .call stmts from hctl]
    rfl

theorem Within.step (h : Within id K A m.interp) (hno : returned? K id m.interp = none)
    (hstep : m.step nat inp = some m') : Within id K A m'.interp := by
  have hmove := (Machine.step_spec hstep).1
  refine ⟨h.nested.step hstep, Nat.lt_of_lt_of_le h.lt hmove.nextId_le, fun u hu hid => ?_⟩
  rcases (Machine.step_steps hstep).fibers u hu with ⟨v, hv, hor⟩ | ⟨hfg, ha⟩ | ⟨-, fn, rfl⟩
  · rcases hor with rfl | rfl
    · exact h.inside u (other_mem hv) hid
    · exact h.inside v (other_mem hv) hid
  · have hfg' : m.interp.fg.id = id := hfg.symm.trans hid
    refine (h.inside _ (fg_mem _) hfg').acts (fun res hctl hk => ?_) ha
    rw [returned_eq_some.mpr ⟨hctl, hk, hfg'⟩] at hno
    cases hno
  · exact absurd hid (Nat.ne_of_gt h.lt)

/-- **A call returns with the frames it was called with.** -/
theorem Nested.callResult {inps : List (Input I)} {res : Res} (hm : Nested m.interp)
    (hcall : Calling m.interp) (h : callResult nat m inps = some (m', res)) :
    m'.interp.fg.frames = m.interp.fg.frames ∧ m'.interp.fg.depth = m.interp.fg.depth := by
  have hno := hcall.not_returned
  obtain ⟨hwithin, hret⟩ := runTo_invariant
    (P := fun m' => Within m.interp.fg.id m.interp.fg.konts m.interp.fg.frames m'.interp)
    (fun _ _ _ hP hno hstep => hP.step hno hstep) (within_start hm hcall) hno h
  obtain ⟨hctl, hk, hid⟩ := returned_eq_some.mp hret
  have hin := hwithin.inside _ (fg_mem _) hid
  have hframes : m'.interp.fg.frames = m.interp.fg.frames := by
    rw [← hk] at hin
    exact hin.returned hctl
  refine ⟨hframes, ?_⟩
  rw [(hwithin.nested.framed _ (fg_mem _)).depth, (hm.framed _ (fg_mem _)).depth, hframes]

end Runs

/-! ### The limit -/

/-- The fiber is on its way to return `r` to the calls `K`, and calls no procedure. -/
def Refusing (K : List Kont) (r : Res) (t : Fiber S) : Prop :=
  t.konts = K ∧ (t.ctl = .ret r ∨ r = .err ∧ t.ctl = .onRes .err)

/-- What a statement at the limit returns. -/
def refusal (σ : Interp S) : Res := if σ.exit then .exit else .err

/-- A statement at the limit gets no frame. -/
theorem stmtCall_refused {σ : Interp S} (hlim : Interp.maxNesting ≤ σ.fg.depth) (stmt : Addr) :
    Op.Gives (σ.stmtCall N stmt) fun σ' =>
      Interp.Own σ σ' ∧ Refusing σ.fg.konts (refusal σ) σ'.fg := by
  have hσ := Interp.own_refl σ
  unfold Interp.stmtCall refusal
  cases σ.exit with
  | true => exact Op.gives_pure ⟨hσ.goto _, rfl, .inl rfl⟩
  | false =>
    rw [if_neg (by decide), if_pos hlim]
    exact Op.gives_of_bind fun m => Op.gives_pure ⟨(hσ.setRet m).goto _, rfl, .inr ⟨rfl, rfl⟩⟩

/-- The statement of the fiber `id` is refused, with the calls `K` around it. -/
structure Refused (id : ℕ) (K : List Kont) (r : Res) (σ : Interp S) : Prop where
  lt : id < σ.nextId
  fibers : ∀ t ∈ σ.fibers, t.id = id → Refusing K r t

section Runs

variable {nat : Natives N S I} {m m' : Machine F S} {inp : Input I} {id : ℕ} {K : List Kont}
  {r : Res}

theorem refused_start (hm : Nested m.interp) {stmt : Addr} (hctl : m.interp.fg.ctl = .stmt stmt)
    (hlim : Interp.maxNesting ≤ m.interp.fg.depth) (hstep : m.step nat inp = some m') :
    Refused m.interp.fg.id m.interp.fg.konts (refusal m.interp) m'.interp := by
  have hmove := (Machine.step_spec hstep).1
  have hgives : Op.Gives (m.interp.step nat inp) fun σ' =>
      Interp.Own m.interp σ' ∧ Refusing m.interp.fg.konts (refusal m.interp) σ'.fg := by
    unfold Interp.step
    rw [hctl]
    exact stmtCall_refused hlim stmt
  obtain ⟨hs, hrefusing⟩ := Machine.step_gives hgives hstep
  refine ⟨Nat.lt_of_lt_of_le (hm.distinct.lt _ (List.mem_map_of_mem (fg_mem _))) hmove.nextId_le, ?_⟩
  intro t ht hid
  rw [(hm.step hstep).eq_fg ht (hid.trans hs.id.symm)]
  exact hrefusing

theorem Refused.step (h : Refused id K r m.interp) (hno : returned? K id m.interp = none)
    (hstep : m.step nat inp = some m') : Refused id K r m'.interp := by
  have hmove := (Machine.step_spec hstep).1
  refine ⟨Nat.lt_of_lt_of_le h.lt hmove.nextId_le, fun u hu hid => ?_⟩
  have other : (∃ v ∈ m.interp.before ++ m.interp.after, u = v ∨ u = v.swapIn) →
      Refusing K r u := by
    rintro ⟨v, hv, rfl | rfl⟩
    · exact h.fibers u (other_mem hv) hid
    · exact h.fibers v (other_mem hv) hid
  by_cases hfg : m.interp.fg.id = id
  · obtain ⟨hk, hctl | ⟨rfl, hctl⟩⟩ := h.fibers _ (fg_mem _) hfg
    · rw [returned_eq_some.mpr ⟨hctl, hk, hfg⟩] at hno
      cases hno
    · rcases Machine.onRes_fibers hctl hstep u hu with hor | hcomp
      · exact other hor
      · exact ⟨hcomp.konts.trans hk, .inl hcomp.ctl⟩
  · rcases (Machine.step_steps hstep).fibers u hu with hor | ⟨hid', -⟩ | ⟨-, fn, rfl⟩
    · exact other hor
    · exact absurd (hid'.symm.trans hid) hfg
    · exact absurd hid (Nat.ne_of_gt h.lt)

/-- Until it returns, it is at its start or refused. -/
theorem refused_invariant (hm : Nested m.interp) {stmt : Addr}
    (hctl : m.interp.fg.ctl = .stmt stmt) (hlim : Interp.maxNesting ≤ m.interp.fg.depth)
    (m₁ : Machine F S) (inp : Input I) (m₂ : Machine F S)
    (h : m₁ = m ∨ Refused m.interp.fg.id m.interp.fg.konts (refusal m.interp) m₁.interp)
    (hno : returned? m.interp.fg.konts m.interp.fg.id m₁.interp = none)
    (hstep : m₁.step nat inp = some m₂) :
    m₂ = m ∨ Refused m.interp.fg.id m.interp.fg.konts (refusal m.interp) m₂.interp := by
  rcases h with rfl | hrefused
  · exact .inr (refused_start hm hctl hlim hstep)
  · exact .inr (hrefused.step hno hstep)

/-- A statement at the limit returns an error, or that the interpreter exits. -/
theorem Nested.refused_result {inps : List (Input I)} {res : Res} (hm : Nested m.interp) {stmt : Addr}
    (hctl : m.interp.fg.ctl = .stmt stmt) (hlim : Interp.maxNesting ≤ m.interp.fg.depth)
    (h : Literals.callResult nat m inps = some (m', res)) : res = refusal m.interp := by
  have hno := Calling.not_returned (.inl ⟨stmt, hctl⟩)
  obtain ⟨hrefused, hret⟩ := runTo_invariant
    (P := fun m₁ => m₁ = m ∨ Refused m.interp.fg.id m.interp.fg.konts (refusal m.interp) m₁.interp)
    (refused_invariant hm hctl hlim) (.inl rfl) hno h
  rcases hrefused with rfl | hrefused
  · rw [hno] at hret
    cases hret
  · obtain ⟨hctl', -, hid⟩ := returned_eq_some.mp hret
    obtain ⟨-, hor | ⟨-, hor⟩⟩ := hrefused.fibers _ (fg_mem _) hid
    · exact Ctl.ret.inj (hctl'.symm.trans hor)
    · exact nomatch hctl'.symm.trans hor

/-- It calls no procedure on the way. -/
theorem Nested.refused_calls {inps : List (Input I)} (hm : Nested m.interp) {stmt : Addr}
    (hctl : m.interp.fg.ctl = .stmt stmt) (hlim : Interp.maxNesting ≤ m.interp.fg.depth)
    (hrun : Runs.run (Machine.step nat) m inps = some m')
    (h : Literals.callResult nat m inps = none) :
    ∀ t ∈ m'.interp.fibers, t.id = m.interp.fg.id → ∀ args, t.ctl ≠ .invoke args := by
  intro t ht hid args hinvoke
  obtain ⟨hrefused, -⟩ := run_invariant
    (P := fun m₁ => m₁ = m ∨ Refused m.interp.fg.id m.interp.fg.konts (refusal m.interp) m₁.interp)
    (refused_invariant hm hctl hlim) (.inl rfl) (Calling.not_returned (.inl ⟨stmt, hctl⟩)) hrun h
  rcases hrefused with rfl | hrefused
  · rw [hm.eq_fg ht hid, hctl] at hinvoke
    cases hinvoke
  · obtain ⟨-, hor | ⟨-, hor⟩⟩ := hrefused.fibers t ht hid
    · exact nomatch hinvoke.symm.trans hor
    · exact nomatch hinvoke.symm.trans hor

end Runs

/-! ### Every reachable state -/

/-- **Frames are kept.** In every state that a script reaches, the depth of every fiber is 1 and
the number of its frames above the base one, and at most `B6B_MAX_NESTING`, so that at most 63
of its statements have a frame. `b6b_stmt_call` and `b6b_call` return with the frames and the
depth they were called with, whatever they return. And a statement at the limit returns
`B6B_ERR` and calls no procedure, or `B6B_EXIT` if the interpreter is exiting and would not
have pushed a frame at all. -/
theorem frames_kept (nat : Natives N S I) (args : List Bytes) (exts : List ExtObj)
    (progs : List (Opts × Bytes)) (m₀ : Machine F S)
    (hstart : Machine.start? N args exts progs = some m₀) (inps₀ : List (Input I)) (m : Machine F S)
    (hrun : Runs.run (Machine.step nat) m₀ inps₀ = some m) :
    (∀ t ∈ m.interp.fibers, t.depth = 1 + t.frames.dropLast.length ∧
      t.stack.length = t.frames.length ∧ t.frames.Nodup ∧ t.depth ≤ Interp.maxNesting ∧
      t.active ≤ 63) ∧
    (Calling m.interp → ∀ inps m' res, Literals.callResult nat m inps = some (m', res) →
      m'.interp.fg.frames = m.interp.fg.frames ∧ m'.interp.fg.depth = m.interp.fg.depth) ∧
    ∀ stmt, m.interp.fg.ctl = .stmt stmt → m.interp.fg.depth = Interp.maxNesting → ∀ inps,
      (∀ m' res, Literals.callResult nat m inps = some (m', res) →
        res = if m.interp.exit then .exit else .err) ∧
      ∀ m', Runs.run (Machine.step nat) m inps = some m' → Literals.callResult nat m inps = none →
        ∀ t ∈ m'.interp.fibers, t.id = m.interp.fg.id → ∀ args, t.ctl ≠ .invoke args := by
  have hm : Nested m.interp := (nested_start hstart).run hrun
  refine ⟨fun t ht => ?_, fun hcall inps m' res h => hm.callResult hcall h, ?_⟩
  · have hframed := hm.framed t ht
    have hdepth := hframed.depth
    have hactive := hframed.active
    have hle : t.depth ≤ 64 := hframed.le
    refine ⟨?_, hframed.stack, hframed.nodup, hle, by omega⟩
    rw [List.length_dropLast]
    omega
  · intro stmt hctl hlim inps
    refine ⟨fun m' res h => ?_, fun m' hrun' h => ?_⟩
    · exact hm.refused_result hctl (Nat.le_of_eq hlim.symm) h
    · exact hm.refused_calls hctl (Nat.le_of_eq hlim.symm) hrun' h

/-- A statement inside an argument of another one. -/
theorem frames_kept_argument : ∃ m m' : Machine ℤ Unit, ∃ res,
    (wholeStart [("n", .nop)] "{$n [$n a]}").bind (fun m₀ => Runs.run wholeStep m₀ (quiet 1)) = some m ∧
    Literals.callResult (Natives.none wholeNum) m (quiet 40) = some (m', res) ∧
    m'.interp.fg.frames = m.interp.fg.frames ∧ m'.interp.fg.depth = m.interp.fg.depth := by
  have hrun : ((wholeStart [("n", .nop)] "{$n [$n a]}").bind fun m₀ =>
      (Runs.run wholeStep m₀ (quiet 1)).bind fun m =>
      (Literals.callResult (Natives.none wholeNum) m (quiet 40)).map fun p => (m, p)).any
        (fun p => decide (Calls p.1.interp 9)) = true := by
    decide +kernel
  obtain ⟨p, hp, hcalls⟩ := (Option.any_eq_true _ _).mp hrun
  obtain ⟨m₀, hm₀, hp⟩ := Option.bind_eq_some_iff.mp hp
  obtain ⟨m, hm, hp⟩ := Option.bind_eq_some_iff.mp hp
  obtain ⟨⟨m', res⟩, hcall, rfl⟩ := Option.map_eq_some_iff.mp hp
  have hkept := frames_kept _ _ _ _ m₀ hm₀ _ m hm
  refine ⟨m, m', res, by rw [hm₀]; exact hm, hcall, ?_⟩
  exact hkept.2.1 (.inr ⟨9, of_decide_eq_true hcalls⟩) _ m' res hcall

end Nesting

end B6b
