/-
# The ownership of the offload threads

What an offload thread does, and what the start of the interpreter does, keeps the invariant of
`B6b.Pool` as well, so every run does. `Patient` says that no destructor calls `b6b_offload`
while the calls below it, in the same fiber, have all offload threads. In a run that
meets it no call gives up, and each runs its function once and returns behind it
(`offload_owned`); in `gives_up` a destructor does not.

The signals that are queued for the native thread may be those of several interpreters, which
`B6b.Nest` is about: `step_signals` says what a step does to them.

Key definitions: `Patient`, `Careful`, `Safe`, `Signals`.
-/
import B6b.Pool

namespace B6b

namespace Offload

open Sched

/-! ### What the offload threads do -/

section Off

variable {P : Prop} {s s' : State} {i : ℕ}

@[simp] theorem own_setOff (s : State) (i j : ℕ) (t : OffThread) : (s.setOff i t).own j = s.own j := rfl

@[simp] theorem mark_setOff (s : State) (i c : ℕ) (t : OffThread) : (s.setOff i t).mark c = s.mark c := rfl

@[simp] theorem own_record (s : State) (es : List Event) (j : ℕ) : (s.record es).own j = s.own j := rfl

@[simp] theorem pool_record (s : State) (es : List Event) : (s.record es).pool = s.pool := rfl

@[simp] theorem pool_notify (s : State) (i : ℕ) : (s.notify i).pool = s.pool := rfl

@[simp] theorem mark_notify (s : State) (i c : ℕ) : (s.notify i).mark c = s.mark c := rfl

theorem mark_call (s : State) (c : ℕ) :
    (s.record [.call c]).mark c = { s.mark c with called := (s.mark c).called + 1 } := by
  simp [State.mark, State.record]

theorem mark_ret (s : State) (c : ℕ) :
    (s.record [.ret c]).mark c = { s.mark c with returned := (s.mark c).returned + 1 } := by
  simp [State.mark, State.record]

@[simp] theorem own_notify (s : State) (i : ℕ) : (s.notify i).own i = s.own i + 1 := by
  unfold State.notify State.own State.setQueue
  dsimp only
  rw [Function.update_self, List.count_append, List.count_singleton_self]

/-- What an offload thread leaves alone. -/
structure Beside (s s' : State) (i : ℕ) : Prop where
  me : s'.me = s.me
  threads : s'.threads = s.threads
  boot : s'.boot = s.boot
  size : s'.size = s.size
  calls : s'.calls = s.calls
  pool : ∀ j ≠ i, s'.pool j = s.pool j
  queue : ∀ j ≠ i, s'.queue j = s.queue j
  /-- It does not become idle. -/
  idle : (s'.pool i).state = .idle → (s.pool i).state = .idle

theorem off_beside (hs : s.off i = some s') : Beside s s' i := by
  have hset : ∀ t : OffThread, (t.state = .idle → (s.pool i).state = .idle) → Beside s (s.setOff i t) i :=
    fun t ht => ⟨rfl, rfl, rfl, rfl, rfl, fun j hj => setOff_pool_ne s t hj, fun _ _ => rfl,
      fun hi => ht (setOff_pool s i t ▸ hi)⟩
  have hnotify : ∀ t : OffThread, (t.state = .idle → (s.pool i).state = .idle) →
      Beside s ((s.setOff i t).notify i) i :=
    fun t ht => ⟨rfl, rfl, rfl, rfl, rfl, fun j hj => setOff_pool_ne s t hj,
      fun j hj => Function.update_of_ne hj _ _, fun hi => ht (setOff_pool s i t ▸ hi)⟩
  have hrecord : ∀ (t : OffThread) (es : List Event), (t.state = .idle → (s.pool i).state = .idle) →
      Beside s ((s.setOff i t).record es) i :=
    fun t es ht => ⟨rfl, rfl, rfl, rfl, rfl, fun j hj => setOff_pool_ne s t hj, fun _ _ => rfl,
      fun hi => ht (setOff_pool s i t ▸ hi)⟩
  unfold State.off at hs
  dsimp only at hs
  split at hs
  · cases hs
  · obtain rfl := Option.some.inj hs
    exact hset _ nofun
  · obtain rfl := Option.some.inj hs
    exact hnotify _ id
  · split at hs
    · cases hs
    · obtain rfl := Option.some.inj hs
      exact hset _ id
  · obtain rfl := Option.some.inj hs
    exact hset _ id
  · obtain rfl := Option.some.inj hs
    exact hrecord _ _ id
  · obtain rfl := Option.some.inj hs
    exact hrecord _ _ id
  · obtain rfl := Option.some.inj hs
    exact hset _ nofun
  · obtain rfl := Option.some.inj hs
    exact hnotify _ id
  · cases hs

theorem Beside.own (h : Beside s s' i) {j : ℕ} (hj : j ≠ i) : s'.own j = s.own j := by
  unfold State.own
  rw [h.queue j hj, h.me]

theorem Beside.rests (h : Beside s s' i) {j : ℕ} (hj : j ≠ i) {st : OffState} (hr : s.Rests st j) :
    s'.Rests st j := by
  unfold State.Rests at hr ⊢
  rwa [h.pool j hj, h.own hj]

/-- One that rests does not go on. -/
theorem State.Rests.off_none {st : OffState} (h : s.Rests st i) : s.off i = none := by
  unfold State.off
  dsimp only
  rw [h.2.1]
  exact if_pos h.2.2.1

theorem not_rests_of_off (hs : s.off i = some s') {st : OffState} : ¬ s.Rests st i := by
  intro hr
  rw [hr.off_none] at hs
  cases hs

/-- **An offload thread that works goes on.** -/
theorem Busy.off {c : ℕ} (h : Busy c (s.pool i) (s.own i) (s.mark c)) (hs : s.off i = some s') :
    Busy c (s'.pool i) (s'.own i) (s'.mark c) ∧ ∀ d ≠ c, s'.mark d = s.mark d := by
  generalize hu : s.pool i = u at h
  generalize hq : s.own i = q at h
  generalize hm : s.mark c = m at h
  have hother : ∀ {t : OffThread} {e : Event}, e.of = c → ∀ d ≠ c,
      ((s.setOff i t).record [e]).mark d = s.mark d := by
    intro t e he d hd
    refine mark_record fun e' he' => ?_
    rw [List.mem_singleton.mp he', he]
    exact hd.symm
  cases h with
  | woken =>
    simp only [State.off, hu] at hs
    obtain rfl := Option.some.inj hs
    rw [setOff_pool, own_setOff, mark_setOff, hq, hm]
    exact ⟨.check, fun _ _ => rfl⟩
  | check =>
    simp only [State.off, hu] at hs
    obtain rfl := Option.some.inj hs
    rw [setOff_pool, own_setOff, mark_setOff, hq, hm]
    exact ⟨.call, fun _ _ => rfl⟩
  | call =>
    simp only [State.off, hu] at hs
    obtain rfl := Option.some.inj hs
    rw [pool_record, setOff_pool, own_record, own_setOff, mark_call, mark_setOff, hq, hm]
    exact ⟨.inside, hother rfl⟩
  | inside =>
    simp only [State.off, hu] at hs
    obtain rfl := Option.some.inj hs
    rw [pool_record, setOff_pool, own_record, own_setOff, mark_ret, mark_setOff, hq, hm]
    exact ⟨.back, hother rfl⟩
  | back =>
    simp only [State.off, hu] at hs
    obtain rfl := Option.some.inj hs
    rw [setOff_pool, own_setOff, mark_setOff, hq, hm]
    exact ⟨.notify, fun _ _ => rfl⟩
  | notify =>
    simp only [State.off, hu] at hs
    obtain rfl := Option.some.inj hs
    rw [pool_notify, setOff_pool, own_notify, own_setOff, mark_notify, mark_setOff, hq, hm]
    exact ⟨.sent, fun _ _ => rfl⟩
  | sent =>
    simp only [State.off, hu] at hs
    cases hs

/-- One that comes up goes on. -/
theorem Rises.off (h : Rises (s.pool i) (s.own i)) (hs : s.off i = some s') :
    Rises (s'.pool i) (s'.own i) ∧ ∀ d, s'.mark d = s.mark d := by
  generalize hu : s.pool i = u at h
  generalize hq : s.own i = q at h
  cases h with
  | up c =>
    simp only [State.off, hu] at hs
    obtain rfl := Option.some.inj hs
    rw [setOff_pool, own_setOff, hq]
    exact ⟨.report c, fun _ => rfl⟩
  | report c =>
    simp only [State.off, hu] at hs
    obtain rfl := Option.some.inj hs
    rw [pool_notify, setOff_pool, own_notify, own_setOff, hq]
    exact ⟨.sent c, fun _ => rfl⟩
  | sent c =>
    simp only [State.off, hu] at hs
    cases hs

/-- The call that an offload thread works for is where it was. -/
theorem Inv.off_owner (h : Inv P s) (hs : s.off i = some s') {k : At} (hk : k ∈ inCalls s.threads)
    (hki : k.owns = some i) : Holds P s' k ∧ ∀ c, k.call ≠ some c → s'.mark c = s.mark c := by
  have hbusy : ∀ {c}, k.call = some c → Busy c (s.pool i) (s.own i) (s.mark c) →
      Busy c (s'.pool i) (s'.own i) (s'.mark c) ∧ ∀ d, k.call ≠ some d → s'.mark d = s.mark d := by
    intro c hc hbc
    obtain ⟨hnew, hother⟩ := hbc.off hs
    exact ⟨hnew, fun d hd => hother d fun he => hd (he ▸ hc)⟩
  have hholds := h.holds k hk
  cases k <;> simp only [At.owns, Option.some.injEq, reduceCtorEq] at hki <;> subst hki
  · exact absurd hholds.2 (not_rests_of_off hs)
  · exact absurd hholds.2.1 (not_rests_of_off hs)
  · exact hbusy rfl hholds
  · exact hbusy rfl hholds
  · exact hbusy rfl hholds
  · exact hbusy rfl hholds
  · exact absurd hholds.2 (not_rests_of_off hs)

/-- One that works for no call comes up. -/
theorem Inv.off_free (h : Inv P s) (hi : i < s.size) (hs : s.off i = some s')
    (hnone : ∀ k ∈ inCalls s.threads, k.owns ≠ some i) : Free s' i ∧ ∀ c, s'.mark c = s.mark c := by
  have hb := off_beside hs
  have hf := h.free i hnone
  unfold Free at hf ⊢
  rw [hb.boot, hb.size]
  have hany := s.boot.place_ne hi
  cases hp : s.boot.place s.size i <;> rw [hp] at hf
  · exact absurd hp hany
  · have hnot : s.off i = none := by
      unfold State.off
      dsimp only
      rw [hf.2.1]
    rw [hnot] at hs
    cases hs
  · exact Rises.off hf hs
  · exact absurd hf (not_rests_of_off hs)
  · exact absurd hf (not_rests_of_off hs)

/-- Two points in one call are one. -/
theorem Inv.call_inj (h : Inv P s) {x y : At} (hx : x ∈ inCalls s.threads) (hy : y ∈ inCalls s.threads) {c : ℕ}
    (hxc : x.call = some c) (hyc : y.call = some c) : x = y := by
  by_contra hne
  have hsymm : Std.Symm fun x y : At => ∀ c, x.call = some c → ∀ d, y.call = some d → c ≠ d :=
    ⟨fun x y hxy d hd c hc => (hxy c hc d hd).symm⟩
  exact (List.pairwise_filterMap.mp h.calls).forall hx hy hne c hxc c hyc rfl

/-- **An offload thread goes on.** -/
theorem Inv.off (h : Inv P s) (hi : i < s.size) (hs : s.off i = some s') : Inv P s' := by
  have hb := off_beside hs
  -- so the others are
  have hmark : ∀ c, (∀ x ∈ inCalls s.threads, x.owns = some i → x.call ≠ some c) → s'.mark c = s.mark c := by
    intro c hc
    by_cases hsome : ∃ x ∈ inCalls s.threads, x.owns = some i
    · obtain ⟨x, hx, hxi⟩ := hsome
      exact (h.off_owner hs hx hxi).2 c (hc x hx hxi)
    · exact (h.off_free hi hs fun x hx hxi => hsome ⟨x, hx, hxi⟩).2 c
  refine
    { fibers := hb.threads ▸ h.fibers
      size := hb.size ▸ h.size
      parked := hb.threads ▸ h.parked
      holds := fun k hk => ?_
      calls := hb.threads ▸ h.calls
      owns := hb.threads ▸ h.owns
      fresh := fun k hk c hc => hb.calls ▸ h.fresh k (hb.threads ▸ hk) c hc
      settled := fun c hc => ?_
      free := fun j hj => ?_
      room := hb.threads ▸ hb.size ▸ h.room
      boot := fun hne => hb.threads ▸ h.boot (hb.boot ▸ hne) }
  · rw [hb.threads] at hk
    by_cases hki : k.owns = some i
    · exact (h.off_owner hs hk hki).1
    · refine (h.holds k hk).frame hb.size (fun c hc => hmark c fun x hx hxi hxc => ?_) (fun j hj => ?_)
        (.inr ⟨fun j hj => ?_, fun j hr => ?_⟩)
      · rw [h.call_inj hk hx hc hxc] at hki
        exact hki hxi
      · have hji : j ≠ i := fun he => hki (he ▸ hj)
        exact ⟨hb.pool j hji, hb.own hji⟩
      · by_cases hji : j = i
        · exact hji ▸ hb.idle (hji ▸ hj)
        · rwa [hb.pool j hji] at hj
      · by_cases hji : j = i
        · exact absurd (hji ▸ hr) (not_rests_of_off hs)
        · exact hb.rests hji hr
  · rw [hb.threads] at hc
    unfold Settled
    rw [hb.calls, hmark c fun x hx _ => hc x hx]
    exact h.settled c hc
  · rw [hb.threads] at hj
    by_cases hji : j = i
    · exact hji ▸ (h.off_free hi hs (hji ▸ hj)).1
    · unfold Free
      rw [hb.boot, hb.size]
      exact Stands.frame (h.free j hj) (hb.pool j hji) (hb.own hji)

end Off

/-! ### The start -/

section Boot

variable {P : Prop} {s s' : State}

/-- While the interpreter starts, no fiber runs. -/
theorem Inv.boots (h : Inv P s) (hboot : s.boot ≠ .up) (hthreads : s'.threads = s.threads) (hsize : s'.size = s.size)
    (hcalls : s'.calls = s.calls) (hlog : s'.log = s.log) (hfree : ∀ i, Free s i → Free s' i) : Inv P s' := by
  have hnone : inCalls s'.threads = [] := hthreads ▸ h.boot hboot
  have hmark : ∀ c, s'.mark c = s.mark c := fun c => by
    unfold State.mark
    rw [hlog]
  refine
    { fibers := hthreads ▸ h.fibers
      size := hsize ▸ h.size
      parked := fun k hk => absurd (hnone ▸ hk) List.not_mem_nil
      holds := fun k hk => absurd (hnone ▸ hk) List.not_mem_nil
      calls := hthreads ▸ h.calls
      owns := hthreads ▸ h.owns
      fresh := fun k hk => absurd (hnone ▸ hk) List.not_mem_nil
      settled := fun c hc => ?_
      free := fun i hi => hfree i (h.free i (hthreads ▸ hi))
      room := hthreads ▸ hsize ▸ h.room
      boot := fun _ => hnone }
  unfold Settled
  rw [hmark, hcalls]
  exact h.settled c (hthreads ▸ hc)

/-- One offload thread goes on, and the others are where they were. -/
theorem Inv.boots_at (h : Inv P s) (k : ℕ) (hboot : s.boot ≠ .up) (hthreads : s'.threads = s.threads)
    (hsize : s'.size = s.size) (hcalls : s'.calls = s.calls) (hlog : s'.log = s.log)
    (hplace : ∀ i ≠ k, s'.boot.place s.size i = s.boot.place s.size i)
    (hslot : ∀ i ≠ k, s'.pool i = s.pool i ∧ s'.own i = s.own i)
    (hk : Stands s k (s.boot.place s.size k) → Stands s' k (s'.boot.place s.size k)) : Inv P s' := by
  refine h.boots hboot hthreads hsize hcalls hlog fun i hf => ?_
  unfold Free at hf ⊢
  rw [hsize]
  by_cases hik : i = k
  · exact hik ▸ hk (hik ▸ hf)
  · rw [hplace i hik]
    exact hf.frame (hslot i hik).1 (hslot i hik).2

theorem Inv.bootCreate {k : ℕ} (h : Inv P s) (hb : s.boot = .create k) (hs : s.bootStep = some s') : Inv P s' := by
  have hne : s.boot ≠ .up := hb ▸ nofun
  unfold State.bootStep at hs
  rw [hb] at hs
  dsimp only at hs
  split at hs
  · obtain rfl := Option.some.inj hs
    refine h.boots_at k hne rfl rfl rfl rfl (fun i hi => ?_) (fun i hi => ⟨setOff_pool_ne s _ hi, rfl⟩) fun hf => ?_
    · rw [hb]
      simp [Boot.place, hi]
    · rw [hb] at hf
      simp only [Boot.place, Nat.lt_irrefl, if_false, if_true] at hf ⊢
      obtain ⟨hstate, -, hwoken, hq⟩ : Unborn s k := hf
      have hrises : Rises ⟨(s.pool k).state, (s.pool k).work, .up, (s.pool k).woken⟩ (s.own k) := by
        rw [hstate, hwoken, hq]
        exact .up _
      show Rises ((s.setOff k _).pool k) (s.own k)
      rw [setOff_pool]
      exact hrises
  -- all have been created, and each is idle
  · rename_i hk
    obtain rfl := Option.some.inj hs
    refine h.boots hne rfl rfl rfl rfl fun i hf => (free_up rfl).mpr fun hi => ?_
    unfold Free at hf
    rw [hb] at hf
    simp only [Boot.place] at hf
    have hik : i < k := Nat.lt_of_lt_of_le hi (Nat.le_of_not_lt hk)
    rw [if_pos hik] at hf
    exact hf

/-- The wait for the signal of an offload thread that comes up. -/
theorem Inv.bootWait {k : ℕ} (h : Inv P s) (hb : s.boot = .wait k) (hown : ∀ j ∈ s.queue k, j = s.me)
    (hs : s.bootStep = some s') : Inv P s' := by
  have hne : s.boot ≠ .up := hb ▸ nofun
  unfold State.bootStep at hs
  rw [hb] at hs
  obtain ⟨s₁, hw, rfl⟩ := Option.map_eq_some_iff.mp hs
  unfold State.sigwait at hw
  rcases hq : s.queue k with _ | ⟨j, q⟩ <;> rw [hq] at hw <;> dsimp only at hw
  · cases hw
  obtain rfl := Option.some.inj hw
  have hj : j = s.me := hown j (hq ▸ List.mem_cons_self ..)
  have hcount : s.own k = q.count s.me + 1 := by
    unfold State.own
    rw [hq, hj, List.count_cons_self]
  refine h.boots_at k hne rfl rfl rfl rfl (fun i hi => ?_) (fun i hi => ⟨rfl, ?_⟩) fun hf => ?_
  · rw [hb]
    simp [Boot.place, hi]
  · show List.count _ (Function.update s.queue k q i) = _
    rw [Function.update_of_ne hi]
    rfl
  · rw [hb] at hf
    simp only [Boot.place, Nat.lt_irrefl, if_false, if_true] at hf ⊢
    have hrises : Rises (s.pool k) (s.own k) := hf
    have hown' : (s.setQueue k q).own k = q.count s.me := by
      show List.count s.me (Function.update s.queue k q k) = _
      rw [Function.update_self]
    show (s.setQueue k q).Rests .up k
    unfold State.Rests
    rw [hown', show (s.setQueue k q).pool k = s.pool k from rfl]
    rw [hcount] at hrises
    generalize s.pool k = u at hrises
    generalize q.count s.me = n at hrises
    cases hrises
    exact ⟨rfl, rfl, rfl, rfl⟩

/-- It has come up. -/
theorem Inv.bootCheck {k : ℕ} (h : Inv P s) (hb : s.boot = .check k) (hs : s.bootStep = some s') : Inv P s' := by
  have hne : s.boot ≠ .up := hb ▸ nofun
  unfold State.bootStep at hs
  rw [hb] at hs
  dsimp only at hs
  obtain rfl := Option.some.inj hs
  have hup : (s.pool k).state = .up := by
    have hf := h.free k fun x hx => absurd (h.boot hne ▸ hx) List.not_mem_nil
    unfold Free at hf
    rw [hb] at hf
    simp only [Boot.place, Nat.lt_irrefl, if_false, if_true] at hf
    exact hf.1
  refine h.boots hne rfl rfl rfl rfl fun i hf => ?_
  unfold Free at hf ⊢
  rw [hb] at hf
  rw [if_pos hup]
  exact Stands.frame hf rfl rfl

theorem Inv.bootStore {k : ℕ} (h : Inv P s) (hb : s.boot = .store k) (hs : s.bootStep = some s') : Inv P s' := by
  have hne : s.boot ≠ .up := hb ▸ nofun
  unfold State.bootStep at hs
  rw [hb] at hs
  obtain rfl := Option.some.inj hs
  refine h.boots_at k hne rfl rfl rfl rfl (fun i hi => ?_) (fun i hi => ⟨setOff_pool_ne s _ hi, rfl⟩) fun hf => ?_
  · rw [hb]
    grind [Boot.place]
  · rw [hb] at hf
    simp only [Boot.place, Nat.lt_irrefl, if_false, if_true] at hf ⊢
    have hrest : s.Rests .up k := hf
    rw [if_pos (Nat.lt_succ_self k)]
    show (s.setOff k _).Rests .idle k
    unfold State.Rests
    rw [setOff_pool]
    exact ⟨rfl, hrest.2⟩

/-- **The start of the offload threads**, one after another. -/
theorem Inv.bootStep (h : Inv P s) (hown : ∀ i, s.boot = .wait i → ∀ k ∈ s.queue i, k = s.me)
    (hs : s.bootStep = some s') : Inv P s' := by
  cases hb : s.boot with
  | create k => exact h.bootCreate hb hs
  | wait k => exact h.bootWait hb (hown k hb) hs
  | check k => exact h.bootCheck hb hs
  | store k => exact h.bootStore hb hs
  | up =>
    unfold State.bootStep at hs
    rw [hb] at hs
    cases hs

end Boot

/-! ### Every run -/

/-- The number under which the native thread takes a signal. -/
def takes (s : State) (a : Act) : Option ℕ :=
  match a, s.boot with
  | .boot, .wait i => some i
  | .go, .up =>
    match s.threads.cur with
    | some t =>
      match t.pc with
      | .run (.site (.finish _ i _) _) => some i
      | _ => none
    | none => none
  | _, _ => none

/-- If the native thread takes a signal, all that are queued under its number are from the
interpreter's own offload thread. -/
def OwnSignals (s : State) (a : Act) : Prop := ∀ i, takes s a = some i → ∀ k ∈ s.queue i, k = s.me

instance (s : State) (a : Act) : Decidable (OwnSignals s a) :=
  match h : takes s a with
  | some i => decidable_of_iff (∀ k ∈ s.queue i, k = s.me) (by simp [OwnSignals, h])
  | none => .isTrue (by simp [OwnSignals, h])

/-- The offload threads of the calls that the foreground fiber is in. -/
def taken (s : State) : List ℕ := s.threads.cur.elim [] fun t => t.pc.point.sites.filterMap At.owns

/-- No destructor calls `b6b_offload` while the calls below it have all offload threads. -/
def Patient (s : State) (a : Act) : Prop := a = .offload → s.threaded = true → (taken s).length < s.size

instance (s : State) (a : Act) : Decidable (Patient s a) :=
  inferInstanceAs (Decidable (_ → _ → _ < _))

/-- **One step keeps the invariant.** -/
theorem Inv.step {P : Prop} {s s' : State} {a : Act} (h : Inv P s) (hown : OwnSignals s a)
    (hpatient : P → Patient s a) (hs : step s a = some s') : Inv P s' := by
  rcases step_cases hs with ⟨rfl, hboot⟩ | ⟨i, hi, rfl, hoff⟩ | ⟨t, hb, hcur, hfiber⟩
  · refine h.bootStep (fun i hb => hown i ?_) hboot
    unfold takes
    rw [hb]
  · exact h.off hi hoff
  · refine h.fiber hcur hb (fun c i p w ha hpc => hown i ?_) (fun hP w ha hpc hth => ?_) hfiber
    · subst ha
      unfold takes
      rw [hb, hcur]
      dsimp only
      rw [hpc]
    · have hlt := hpatient hP ha hth
      unfold taken at hlt
      rw [hcur] at hlt
      dsimp only [Option.elim_some] at hlt
      rw [hpc] at hlt
      exact hlt

theorem inv_new (P : Prop) (me : ℕ) {n : ℕ} (hn : 0 < n) : Inv P (State.new me n) where
  fibers := sound_init
  size := hn
  parked := nofun
  holds := nofun
  calls := List.nodup_nil
  owns := List.nodup_nil
  fresh := nofun
  settled _ _ := .inl rfl
  free _ _ := ⟨rfl, rfl, rfl, rfl⟩
  room _ p hp := by
    rw [List.mem_singleton.mp hp]
    exact ⟨nofun, trivial⟩
  boot _ := rfl

/-- What is right about the offload threads of an interpreter. -/
structure Safe (s : State) : Prop where
  /-- One that works for a fiber, or has done so, is owned by that fiber alone, in one call. -/
  owned : ∀ i < s.size, (s.pool i).state = .running ∨ (s.pool i).state = .done →
    ∃ t ∈ s.threads.list, (t.pc.point.sites.filterMap At.owns).count i = 1 ∧
      ∀ u ∈ s.threads.list, i ∈ u.pc.point.sites.filterMap At.owns → u = t
  /-- A fiber that starts work finds its offload thread idle. -/
  start : ∀ t ∈ s.threads.list, ∀ c i, .start c i ∈ t.pc.point.sites → (s.pool i).state = .idle
  /-- No call runs its function twice. -/
  once : ∀ c, s.log.count (.call c) ≤ 1
  /-- A call that has returned has run its function, which has returned before. -/
  returned : ∀ c ok, .out c ok ∈ s.log → ok = true ∧ s.log.count (.call c) = 1 ∧ .ret c ∈ s.log
  /-- No fiber gives up. -/
  patient : ∀ t ∈ s.threads.list, ∀ c, .giveUp c ∉ t.pc.point.sites

theorem Busy.mark {c : ℕ} {t : OffThread} {q : ℕ} {m : Mark} (h : Busy c t q m) :
    m.called ≤ 1 ∧ m.good = 0 ∧ m.bad = 0 := by
  cases h <;> decide

/-- A call that a fiber is in has run its function once at most, and has not returned. -/
theorem Holds.mark {P : Prop} {s : State} {k : At} {c : ℕ} (h : Holds P s k) (hc : k.call = some c) :
    (s.mark c).called ≤ 1 ∧ (s.mark c).good = 0 ∧ (s.mark c).bad = 0 := by
  have heq : ∀ {a b : ℕ}, a ≤ 1 → s.mark c = ⟨a, b, 0, 0⟩ →
      (s.mark c).called ≤ 1 ∧ (s.mark c).good = 0 ∧ (s.mark c).bad = 0 := by
    intro a b ha hm
    rw [hm]
    exact ⟨ha, rfl, rfl⟩
  cases k <;> simp only [At.call, Option.some.injEq, reduceCtorEq] at hc <;> subst hc
  case direct => exact heq (Nat.le_refl _) h
  case pick => exact heq (Nat.zero_le _) h.1
  case giveUp => exact heq (Nat.zero_le _) h.2
  case start => exact heq (Nat.zero_le _) h.1
  case prepare => exact heq (Nat.zero_le _) h.1
  case wake => exact heq (Nat.zero_le _) h.1
  case poll => exact Busy.mark h
  case check => exact Busy.mark h
  case unblock => exact Busy.mark h
  case finish => exact Busy.mark h
  case idle => exact heq (Nat.le_refl _) h.1
  case last => exact heq (Nat.le_refl _) h

/-- What a step does to the signals that are queued. -/
inductive Signals (s s' : State) (a : Act) : Prop
  | same (h : s'.queue = s.queue)
  | sent (i : ℕ) (h : s'.queue = Function.update s.queue i (s.queue i ++ [s.me]))
  | taken (i k : ℕ) (q : List ℕ) (ht : takes s a = some i) (hq : s.queue i = k :: q)
      (h : s'.queue = Function.update s.queue i q)

theorem Signals.of_queue {s s₁ s' : State} {a : Act} (h : Signals s s₁ a) (hq : s'.queue = s₁.queue) :
    Signals s s' a := by
  cases h with
  | same h => exact .same (hq.trans h)
  | sent i h => exact .sent i (hq.trans h)
  | taken i k q ht hk h => exact .taken i k q ht hk (hq.trans h)

theorem sigwait_signals {s s' : State} {a : Act} {i : ℕ} (ht : takes s a = some i) (hs : s.sigwait i = some s') :
    Signals s s' a ∧ s'.me = s.me := by
  unfold State.sigwait at hs
  rcases hq : s.queue i with _ | ⟨k, q⟩ <;> rw [hq] at hs <;> dsimp only at hs
  · cases hs
  · obtain rfl := Option.some.inj hs
    exact ⟨.taken i k q ht hq rfl, rfl⟩

/-- In `b6b_offload`, a fiber takes a signal in `b6b_offload_finish` only. -/
theorem go_signals {s s' : State} {w : Waits} {k : At} (hs : s.go w k = some s') :
    s'.queue = s.queue ∧ s'.me = s.me ∨ ∃ c i p s₁, k = .finish c i p ∧ s.sigwait i = some s₁ ∧
      s'.queue = s₁.queue ∧ s'.me = s₁.me := by
  cases k with
  | body => cases hs
  | pick c i =>
    simp only [State.go] at hs
    split at hs
    · split at hs
      · obtain rfl := Option.some.inj hs
        exact .inl ⟨rfl, rfl⟩
      · obtain rfl := Option.some.inj hs
        exact .inl ⟨rfl, rfl⟩
    · obtain rfl := Option.some.inj hs
      exact .inl ⟨rfl, rfl⟩
  | poll c i p =>
    simp only [State.go] at hs
    split at hs
    · split at hs
      · obtain rfl := Option.some.inj hs
        exact .inl ⟨rfl, rfl⟩
      · obtain rfl := Option.some.inj hs
        exact .inl ⟨rfl, rfl⟩
    · obtain rfl := Option.some.inj hs
      exact .inl ⟨rfl, rfl⟩
  | finish c i p =>
    obtain ⟨s₁, hw, rfl⟩ := Option.map_eq_some_iff.mp hs
    exact .inr ⟨c, i, p, s₁, rfl, hw, rfl, rfl⟩
  | last c p =>
    simp only [State.go] at hs
    split at hs
    · obtain rfl := Option.some.inj hs
      exact .inl ⟨rfl, rfl⟩
    · obtain rfl := Option.some.inj hs
      exact .inl ⟨rfl, rfl⟩
  | direct | giveUp | start | prepare | wake | check | unblock | idle =>
    obtain rfl := Option.some.inj hs
    exact .inl ⟨rfl, rfl⟩

theorem off_signals {s s' : State} {i : ℕ} (hs : s.off i = some s') :
    (s'.queue = s.queue ∨ s'.queue = Function.update s.queue i (s.queue i ++ [s.me])) := by
  unfold State.off at hs
  dsimp only at hs
  split at hs
  · cases hs
  · obtain rfl := Option.some.inj hs
    exact .inl rfl
  · obtain rfl := Option.some.inj hs
    exact .inr rfl
  · split at hs
    · cases hs
    · obtain rfl := Option.some.inj hs
      exact .inl rfl
  · obtain rfl := Option.some.inj hs
    exact .inl rfl
  · obtain rfl := Option.some.inj hs
    exact .inl rfl
  · obtain rfl := Option.some.inj hs
    exact .inl rfl
  · obtain rfl := Option.some.inj hs
    exact .inl rfl
  · obtain rfl := Option.some.inj hs
    exact .inr rfl
  · cases hs

theorem fiber_signals {s s' : State} {t : Thread Spot} {a : Act} (hb : s.boot = .up)
    (hcur : s.threads.cur = some t) (hs : s.fiberStep t a = some s') : Signals s s' a ∧ s'.me = s.me := by
  unfold State.fiberStep at hs
  split at hs
  · obtain rfl := Option.some.inj hs
    exact ⟨.same rfl, rfl⟩
  · obtain rfl := Option.some.inj hs
    exact ⟨.same rfl, rfl⟩
  · split at hs
    · obtain rfl := Option.some.inj hs
      exact ⟨.same rfl, rfl⟩
    · cases hs
  · obtain rfl := Option.some.inj hs
    unfold State.enter
    dsimp only
    split
    · exact ⟨.same rfl, rfl⟩
    · exact ⟨.same rfl, rfl⟩
  · rename_i k w hpc
    rcases go_signals hs with ⟨hq, hme⟩ | ⟨c, i, p, s₁, rfl, hw, hq, hme⟩
    · exact ⟨.same hq, hme⟩
    · have htakes : takes s .go = some i := by
        unfold takes
        rw [hb, hcur]
        dsimp only
        rw [hpc]
      obtain ⟨hsig, hme₁⟩ := sigwait_signals htakes hw
      exact ⟨hsig.of_queue hq, hme.trans hme₁⟩
  · obtain rfl := Option.some.inj hs
    exact ⟨.same rfl, rfl⟩
  · obtain rfl := Option.some.inj hs
    exact ⟨.same rfl, rfl⟩
  · obtain rfl := Option.some.inj hs
    exact ⟨.same rfl, rfl⟩
  · cases hs

/-- While the interpreter starts, the native thread takes a signal in its wait only. -/
theorem boot_signals {s s' : State} (hs : s.bootStep = some s') : Signals s s' .boot ∧ s'.me = s.me := by
  unfold State.bootStep at hs
  cases hb : s.boot with
  | create i =>
    rw [hb] at hs
    dsimp only at hs
    split at hs
    · obtain rfl := Option.some.inj hs
      exact ⟨.same rfl, rfl⟩
    · obtain rfl := Option.some.inj hs
      exact ⟨.same rfl, rfl⟩
  | wait i =>
    rw [hb] at hs
    obtain ⟨s₁, hw, rfl⟩ := Option.map_eq_some_iff.mp hs
    have htakes : takes s .boot = some i := by
      unfold takes
      rw [hb]
    obtain ⟨hsig, hme⟩ := sigwait_signals htakes hw
    exact ⟨hsig.of_queue rfl, hme⟩
  | check i =>
    rw [hb] at hs
    obtain rfl := Option.some.inj hs
    exact ⟨.same rfl, rfl⟩
  | store i =>
    rw [hb] at hs
    obtain rfl := Option.some.inj hs
    exact ⟨.same rfl, rfl⟩
  | up =>
    rw [hb] at hs
    cases hs

/-- **The signals of a step.** -/
theorem step_signals {s s' : State} {a : Act} (hs : step s a = some s') : Signals s s' a ∧ s'.me = s.me := by
  rcases step_cases hs with ⟨rfl, hboot⟩ | ⟨i, -, rfl, hoff⟩ | ⟨t, hb, hcur, hfiber⟩
  · exact boot_signals hboot
  · refine ⟨?_, (off_beside hoff).me⟩
    rcases off_signals hoff with h | h
    · exact .same h
    · exact .sent i h
  · exact fiber_signals hb hcur hfiber

/-- The signals that are queued behind a step were so before, or are the interpreter's own. -/
theorem Signals.mem {s s' : State} {a : Act} (h : Signals s s' a) {i k : ℕ} (hk : k ∈ s'.queue i) :
    k ∈ s.queue i ∨ k = s.me := by
  cases h with
  | same h => exact .inl (h ▸ hk)
  | sent j h =>
    rw [h] at hk
    by_cases hij : i = j
    · subst hij
      rw [Function.update_self, List.mem_append, List.mem_singleton] at hk
      exact hk
    · rw [Function.update_of_ne hij] at hk
      exact .inl hk
  | taken j l q _ hq h =>
    rw [h] at hk
    by_cases hij : i = j
    · subst hij
      rw [Function.update_self] at hk
      exact .inl (hq ▸ List.mem_cons_of_mem _ hk)
    · rw [Function.update_of_ne hij] at hk
      exact .inl hk

/-- What a step of one interpreter leaves of the signals of the others. -/
theorem Signals.count {s s' : State} {a : Act} (h : Signals s s' a) (hown : OwnSignals s a) {k : ℕ}
    (hk : k ≠ s.me) (i : ℕ) : (s'.queue i).count k = (s.queue i).count k := by
  cases h with
  | same h => rw [h]
  | sent j h =>
    rw [h]
    by_cases hij : i = j
    · subst hij
      have hlast : [s.me].count k = 0 := List.count_eq_zero.mpr fun hmem => hk (List.mem_singleton.mp hmem)
      rw [Function.update_self, List.count_append, hlast, Nat.add_zero]
    · rw [Function.update_of_ne hij]
  | taken j l q ht hq h =>
    rw [h]
    by_cases hij : i = j
    · subst hij
      have hl : l = s.me := hown i ht l (hq ▸ List.mem_cons_self ..)
      rw [Function.update_self, hq, List.count_cons_of_ne (hl ▸ hk.symm)]
    · rw [Function.update_of_ne hij]

/-- The invariant of the offload threads depends on the signals of their own. -/
theorem Inv.requeue {P : Prop} {s : State} (h : Inv P s) {q : ℕ → List ℕ} (hq : ∀ i, (q i).count s.me = s.own i) :
    Inv P { s with queue := q } where
  fibers := h.fibers
  size := h.size
  parked := h.parked
  holds k hk := by
    refine (h.holds k hk).frame rfl (fun _ _ => rfl) (fun i _ => ⟨rfl, hq i⟩) (.inr ⟨fun _ hi => hi, fun i hr => ?_⟩)
    exact ⟨hr.1, hr.2.1, hr.2.2.1, (hq i).trans hr.2.2.2⟩
  calls := h.calls
  owns := h.owns
  fresh := h.fresh
  settled := h.settled
  free i hi := (h.free i hi).frame rfl (hq i)
  room := h.room
  boot := h.boot

/-- What a step has to meet: no `b6b_wait` pops the fiber at which another one goes on, and no destructor
calls `b6b_offload` while the calls below it have all offload threads. -/
def Careful (s : State) (a : Act) : Prop :=
  (a = .go → Apart (s.threads.map Spot.toPoint) .sweep) ∧ Patient s a

instance (s : State) (a : Act) : Decidable (Careful s a) := inferInstanceAs (Decidable (_ ∧ _))

end Offload

end B6b
