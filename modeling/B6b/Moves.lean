/-
# What a step of the interpreter does beside the fiber's own work

Most steps change nothing but the foreground fiber and the variables (`Same`). The others
set `interp->exit`, start a fiber, count a statement or switch (`Move`), and `step_moves`
says that these are all; a switch in a destructor is left out, with the destructors. What
the rest of the development says about the exit flag, the finally blocks and the quantum
follows from it, with no look at `Interp.step`.

`Fiber.finals` is what the finally blocks that a fiber is inside keep of the exit flag,
innermost first.

Key definitions: `Fiber.finals`, `Same`, `Move`.
-/
import B6b.Works

namespace B6b

variable {F S I : Type} {N : Num F}

/-- What a finally block keeps of the exit flag. -/
def Kont.saved : Kont → Option Bool
  | .tryFinally _ _ exit _ => some exit
  | _ => none

/-- What the finally blocks that the fiber is inside keep of the exit flag. -/
def Fiber.finals (t : Fiber S) : List Bool := t.konts.filterMap Kont.saved

namespace Interp

/-- `σ'` is `σ` but for the variables, the options, what the foreground fiber does and the
three given. -/
structure Same (σ σ' : Interp S) (exit : Bool) (qstep : UInt8) (finals : List Bool) : Prop where
  shared : σ'.shared = σ.shared
  exit : σ'.exit = exit
  qstep : σ'.qstep = qstep
  nextId : σ'.nextId = σ.nextId
  before : σ'.before = σ.before
  after : σ'.after = σ.after
  id : σ'.fg.id = σ.fg.id
  finals : σ'.fg.finals = finals

/-- `σ'` is `σ` but for the variables, the options and the foreground fiber, which is inside
the same finally blocks. -/
abbrev Own (σ σ' : Interp S) : Prop := Same σ σ' σ.exit σ.qstep σ.fg.finals

/-- The first fiber behind the foreground one that is pending, around the list. -/
def next (σ : Interp S) : Option (Fiber S) := (σ.after ++ σ.before).find? Fiber.pending

/-- The other fibers of `σ'` are others of `σ`, or the one that was in the foreground. -/
def Rest (σ σ' : Interp S) : Prop := ∀ u ∈ σ'.before ++ σ'.after,
  u ∈ σ.before ++ σ.after ∨ ∃ c, u = { σ.fg.swapOut with ctl := c }

/-- `σ'` is `σ` behind a switch to `t`. -/
structure Switched (σ σ' : Interp S) (t : Fiber S) : Prop where
  next : σ.next = some t
  shared : σ'.shared = σ.shared
  exit : σ'.exit = σ.exit
  qstep : σ'.qstep = 0
  nextId : σ'.nextId = σ.nextId
  fg : σ'.fg = t.swapIn
  rest : Rest σ σ'
  ids : σ'.ids.Sublist σ.ids

/-- `σ'` is `σ` behind a `b6b_yield`, but for what the foreground fiber does next. -/
inductive Yielded (σ σ' : Interp S) : Prop
  | switched (t : Fiber S) (h : Switched σ σ' t)
  | alone (hnext : σ.next = none) (hshared : σ'.shared = σ.shared) (hexit : σ'.exit = σ.exit)
      (hqstep : σ'.qstep = σ.qstep) (hnextId : σ'.nextId = σ.nextId)
      (hfg : ∃ c, σ'.fg = { σ.fg with ctl := c })
      (hrest : ∀ u ∈ σ'.before ++ σ'.after, u ∈ σ.before ++ σ.after) (hids : σ'.ids.Sublist σ.ids)

/-- A statement completes, and neither yields nor ends the program. -/
def completes (σ : Interp S) : Bool :=
  match σ.fg.ctl with
  | .onRes res => res ≠ .yield ∧ res ≠ .exit
  | _ => false

/-- No statement completes, or one that yields. -/
def NoResult (σ : Interp S) : Prop := ∀ res, σ.fg.ctl = .onRes res → res = .yield

/-- The step calls `b6b_yield`. -/
def waits (nat : Natives N S I) (inp : Input I) (h : Heap F) (σ : Interp S) : Bool :=
  match σ.fg.ctl with
  | .onRes res => res = .yield || (res ≠ .exit && σ.qstep + 1 = quantLen)
  | .ret _ => σ.fg.konts.head? = some .thread
  | .sweep => true
  | .native s y =>
    match nat.run s y inp.native h with
    | .ok (.inl _) _ => true
    | _ => false
  | _ => false

/-- The foreground fiber calls `spawn`. -/
def Spawns (h : Heap F) (σ : Interp S) : Prop := ∃ args li lis, σ.fg.ctl = .invoke args ∧
  (h.obj args).l = some (li :: lis) ∧ (h.obj li.o).proc = .builtin .spawn

/-- **What a step can do.** -/
inductive Move (nat : Natives N S I) (inp : Input I) (h : Heap F) (σ σ' : Interp S) : Prop
  | own (hr : σ.NoResult) (hs : Own σ σ')
  | spawn (fn : Addr) (σ₁ : Interp S) (hr : σ.NoResult) (hsp : σ.Spawns h) (hs : Own σ σ₁)
      (hst : σ' = σ₁.start fn)
  | finallyIn (hr : σ.NoResult) (hs : Same σ σ' false σ.qstep (σ.exit :: σ.fg.finals))
  | finallyOut (e : Bool) (fs : List Bool) (hr : σ.NoResult) (hf : σ.fg.finals = e :: fs)
      (hs : Same σ σ' e σ.qstep fs)
  | joins (hr : σ.NoResult) (hs : Same σ σ' true σ.qstep σ.fg.finals)
  | yields (σ₁ : Interp S) (hr : σ.NoResult) (hw : σ.waits nat inp h = true) (hs : Own σ σ₁)
      (hy : Yielded σ₁ σ')
  | exits (hr : σ.fg.ctl = .onRes .exit) (hret : σ'.fg.ctl = .ret .exit)
      (hkonts : σ'.fg.konts = σ.fg.konts) (hs : Same σ σ' true (σ.qstep + 1) σ.fg.finals)
  | counts (hr : σ.completes = true) (hq : σ.qstep + 1 ≠ quantLen)
      (hs : Same σ σ' σ.exit (σ.qstep + 1) σ.fg.finals)
  | quantum (σ₁ : Interp S) (hr : σ.completes = true) (hq : σ.qstep + 1 = quantLen)
      (hs : Same σ σ₁ σ.exit (σ.qstep + 1) σ.fg.finals) (hy : Yielded σ₁ σ')

theorem Same.next {σ σ' : Interp S} {e : Bool} {q : UInt8} {fs : List Bool}
    (h : Same σ σ' e q fs) : σ'.next = σ.next := by
  unfold Interp.next
  rw [h.before, h.after]

theorem waits_of_quantum {nat : Natives N S I} {inp : Input I} {h : Heap F} {σ : Interp S}
    (hr : σ.completes = true) (hq : σ.qstep + 1 = quantLen) : σ.waits nat inp h = true := by
  unfold completes at hr
  unfold waits
  split at hr <;> simp_all

/-! ### Switching -/

theorem splitPending_none : ∀ {ts : List (Fiber S)}, splitPending ts = none →
    ts.find? Fiber.pending = none
  | [], _ => rfl
  | t :: ts, h => by
    unfold splitPending at h
    by_cases ht : t.pending
    · rw [if_pos ht] at h
      cases h
    · rw [if_neg ht] at h
      have hts : splitPending ts = none := by
        rcases hs : splitPending ts with _ | ⟨as, u, bs⟩
        · rfl
        · rw [hs] at h
          cases h
      rw [List.find?_cons_of_neg ht]
      exact splitPending_none hts

theorem splitPending_some : ∀ {ts as bs : List (Fiber S)} {t : Fiber S},
    splitPending ts = some (as, t, bs) → ts = as ++ t :: bs ∧ ts.find? Fiber.pending = some t
  | [], _, _, _, h => by cases h
  | u :: ts, as, bs, t, h => by
    unfold splitPending at h
    by_cases hu : u.pending
    · rw [if_pos hu] at h
      cases h
      exact ⟨rfl, List.find?_cons_of_pos hu⟩
    · rw [if_neg hu] at h
      rcases hs : splitPending ts with _ | ⟨as', u', bs'⟩ <;> rw [hs] at h
      · cases h
      · cases h
        obtain ⟨rfl, hfind⟩ := splitPending_some hs
        exact ⟨rfl, by rw [List.find?_cons_of_neg hu, hfind]⟩

theorem next_eq_none {σ : Interp S} : σ.next = none ↔ ¬ σ.OtherPending := by
  unfold next OtherPending
  rw [List.find?_eq_none]
  simp only [List.mem_append, not_exists, not_and]
  exact ⟨fun h t ht => h t ht.symm, fun h t ht => h t ht.symm⟩

/-- The fibers that are done leave the list. -/
theorem wait_rest (σ : Interp S) :
    (∀ u ∈ σ.wait.before ++ σ.wait.after, u ∈ σ.before ++ σ.after) ∧ σ.wait.ids.Sublist σ.ids := by
  refine ⟨fun u hu => ?_, ?_⟩
  · rcases List.mem_append.mp hu with hu | hu
    · exact List.mem_append_left _ (List.mem_filter.mp hu).1
    · exact List.mem_append_right _ (List.mem_filter.mp hu).1
  · exact (List.filter_sublist.append (List.filter_sublist.cons_cons σ.fg)).map _

theorem swapTo_switched {σ : Interp S} {before after : List (Fiber S)} {t : Fiber S}
    (hnext : σ.next = some t)
    (hrest : ∀ u ∈ before ++ after, u ∈ σ.before ++ σ.after ∨ u = σ.fg.swapOut)
    (hids : (before ++ t :: after).map (·.id) = σ.ids) : Switched σ (σ.swapTo before t after) t := by
  let σ₁ := { σ with qstep := 0, before := before, fg := t.swapIn, after := after }
  have hids₁ : σ₁.ids = σ.ids := by
    rw [← hids]
    simp [ids, σ₁, Fiber.swapIn]
  have hrest₁ : Rest σ σ₁ := fun u hu => (hrest u hu).imp_right fun he => ⟨σ.fg.swapOut.ctl, he⟩
  unfold swapTo
  dsimp only
  split
  · exact ⟨hnext, rfl, rfl, rfl, rfl, rfl, hrest₁, hids₁ ▸ List.Sublist.refl _⟩
  · obtain ⟨hwait, hsub⟩ := wait_rest σ₁
    exact ⟨hnext, rfl, rfl, rfl, rfl, rfl, fun u hu => hrest₁ u (hwait u hu), hids₁ ▸ hsub⟩

/-- **The switch goes to the next fiber.** -/
theorem swap_switched {σ σ' : Interp S} (h : σ.swap = some σ') : ∃ t, Switched σ σ' t := by
  unfold swap at h
  rcases ha : splitPending σ.after with _ | ⟨as, t, bs⟩ <;> rw [ha] at h <;> dsimp only at h
  · have hnone := splitPending_none ha
    rcases hb : splitPending σ.before with _ | ⟨as, t, bs⟩ <;> rw [hb] at h <;> dsimp only at h
    · cases h
    · obtain ⟨hbefore, hfind⟩ := splitPending_some hb
      obtain rfl := Option.some.inj h
      refine ⟨t, swapTo_switched (by rw [next, List.find?_append, hnone, hfind]; rfl) ?_ ?_⟩
      · rw [hbefore]
        intro u hu
        simp only [List.mem_append, List.mem_cons] at hu ⊢
        grind
      · simp [ids, hbefore, Fiber.swapOut]
  · obtain ⟨hafter, hfind⟩ := splitPending_some ha
    obtain rfl := Option.some.inj h
    refine ⟨t, swapTo_switched (by rw [next, List.find?_append, hfind]; rfl) ?_ ?_⟩
    · rw [hafter]
      intro u hu
      simp only [List.mem_append, List.mem_cons] at hu ⊢
      grind
    · simp [ids, hafter, Fiber.swapOut]

theorem swap_none {σ : Interp S} (h : σ.swap = none) : σ.next = none := by
  unfold swap at h
  rcases ha : splitPending σ.after with _ | ⟨as, t, bs⟩ <;> rw [ha] at h <;> dsimp only at h
  · rcases hb : splitPending σ.before with _ | ⟨as, t, bs⟩ <;> rw [hb] at h <;> dsimp only at h
    · rw [next, List.find?_append, splitPending_none ha, splitPending_none hb]
      rfl
    · cases h
  · cases h

theorem goto_ids (σ : Interp S) (c : Ctl S) : (σ.goto c).ids = σ.ids := by
  simp [ids, goto]

theorem yield_yielded (σ : Interp S) (c : Bool → Ctl S) : Yielded σ (σ.yield c) := by
  unfold yield
  rcases hs : (σ.goto (c true)).swap with _ | σ' <;> dsimp only
  · have hnext : (σ.goto (c true)).next = none := swap_none hs
    obtain ⟨hrest, hids⟩ := wait_rest (σ.goto (c false))
    exact .alone hnext rfl rfl rfl rfl ⟨c false, rfl⟩ hrest (goto_ids σ _ ▸ hids)
  · obtain ⟨t, ht⟩ := swap_switched hs
    have hids : σ'.ids.Sublist σ.ids := goto_ids σ (c true) ▸ ht.ids
    exact .switched t ⟨ht.next, ht.shared, ht.exit, ht.qstep, ht.nextId, ht.fg, ht.rest, hids⟩

/-! ### The fiber's own work -/

section Own

variable {σ σ₁ σ₂ : Interp S} {e : Bool} {q : UInt8} {fs : List Bool}

theorem own_refl (σ : Interp S) : Own σ σ := ⟨rfl, rfl, rfl, rfl, rfl, rfl, rfl, rfl⟩

theorem Same.trans (h : Same σ σ₁ e q fs) (h' : Own σ₁ σ₂) : Same σ σ₂ e q fs :=
  ⟨h'.shared.trans h.shared, h'.exit.trans h.exit, h'.qstep.trans h.qstep, h'.nextId.trans h.nextId,
    h'.before.trans h.before, h'.after.trans h.after, h'.id.trans h.id, h'.finals.trans h.finals⟩

theorem Same.goto (h : Same σ σ₁ e q fs) (c : Ctl S) : Same σ (σ₁.goto c) e q fs :=
  h.trans ⟨rfl, rfl, rfl, rfl, rfl, rfl, rfl, rfl⟩

theorem Same.setRet (h : Same σ σ₁ e q fs) (o : Addr) : Same σ (σ₁.setRet o) e q fs :=
  h.trans ⟨rfl, rfl, rfl, rfl, rfl, rfl, rfl, rfl⟩

theorem Same.finish (h : Same σ σ₁ e q fs) (r : Reply) : Same σ (σ₁.finish r) e q fs := by
  obtain ⟨res, _ | o⟩ := r
  · exact h.goto _
  · exact (h.setRet o).goto _

/-- A call that waits, and is not in a finally block. -/
theorem Same.push (h : Same σ σ₁ e q fs) {k : Kont} (hk : k.saved = none) (c : Ctl S) :
    Same σ (σ₁.push k c) e q fs := by
  refine h.trans ⟨rfl, rfl, rfl, rfl, rfl, rfl, rfl, ?_⟩
  simp [Fiber.finals, Interp.push, hk]

theorem own_pop {k : Kont} {ks : List Kont} (hks : σ.fg.konts = k :: ks) (hk : k.saved = none) :
    Own σ σ.pop := by
  refine ⟨rfl, rfl, rfl, rfl, rfl, rfl, rfl, ?_⟩
  simp [Fiber.finals, Interp.pop, hks, hk]

theorem Rebinds.own {i : Option ℕ} (h : Rebinds i σ σ₁) : Own σ σ₁ := by
  refine ⟨h.shared, h.exit, h.qstep, h.nextId, h.before, h.after, h.id, ?_⟩
  unfold Fiber.finals
  rw [h.konts]

/-- A procedure does its fiber's own work. -/
theorem Works.own {i : Option ℕ} {σ' : Interp S} (h : Works i σ σ') : Own σ σ' := by
  cases h with
  | goes σ₁ c hb hc h => exact h ▸ hb.own.goto c
  | calls σ₁ k c hb hk hc h =>
    have hsaved : k.saved = none := by
      cases k with
      | tryFinally => cases hk
      | _ => rfl
    exact h ▸ hb.own.push hsaved c

theorem gives_own {i : Option ℕ} {x : Op (Heap F) (Interp S)} (hx : Op.Gives x (Works i σ)) :
    Op.Gives x (Own σ) :=
  hx.mono fun _ => Works.own

/-- A binding leaves the calls that wait. -/
theorem setAt_own (i : ℕ) (k v : Addr) (σ : Interp S) :
    Op.Gives (setAt N i k v σ) fun σ' => Own σ σ' ∧ σ'.fg.konts = σ.fg.konts :=
  (setAt_rebinds i k v σ).mono fun _ h => ⟨h.own, h.konts⟩

theorem framePop_own : Op.Gives (σ.framePop (F := F)) (Own σ) := by
  unfold framePop
  cases σ.fg.prev with
  | cons f fs => exact Op.gives_pure ⟨rfl, rfl, rfl, rfl, rfl, rfl, rfl, rfl⟩
  | nil => exact Op.gives_crash

/-- A frame is popped, and the statement has its result. -/
theorem popGoto_own (c : Ctl S) : Op.Gives (do
    let σ ← σ.framePop (F := F)
    pure (σ.goto c)) (Own σ) :=
  Op.gives_bind framePop_own fun _ h => Op.gives_pure (h.goto c)

theorem call_own (stmts : Addr) : Op.Gives (σ.call N stmts) (Own σ) := by
  refine Op.gives_of_bind fun r => ?_
  cases r with
  | some lis => exact Op.gives_pure ((own_refl σ).goto _)
  | none => exact Op.gives_pure ((own_refl σ).goto _)

theorem callAt_own (stmts : Addr) (li : Option Litem) : Op.Gives (σ.callAt N stmts li) (Own σ) := by
  have hσ := own_refl σ
  cases li with
  | none => exact Op.gives_pure (hσ.goto _)
  | some li =>
    refine Op.gives_of_bind fun s => ?_
    split
    · exact Op.gives_of_bind fun li' => Op.gives_pure (hσ.goto _)
    · exact Op.gives_pure (hσ.push rfl _)

theorem stmtCall_own (stmt : Addr) : Op.Gives (σ.stmtCall N stmt) (Own σ) := by
  have hσ := own_refl σ
  have hpush : Own σ σ.framePush := ⟨rfl, rfl, rfl, rfl, rfl, rfl, rfl, rfl⟩
  unfold stmtCall
  split
  · exact Op.gives_pure (hσ.goto _)
  · split
    · exact Op.gives_of_bind fun m => Op.gives_pure ((hσ.setRet m).goto _)
    · refine Op.gives_of_bind fun r => ?_
      cases r with
      | some lis => exact Op.gives_pure (hpush.goto _)
      | none => exact Op.gives_pure (hσ.goto _)

theorem argAt_own (inp : Input I) (stmt : Addr) (vs : List Addr) (li : Option Litem) :
    Op.Gives (σ.argAt N inp stmt vs li) (Own σ) := by
  have hσ := own_refl σ
  cases li with
  | some li => exact Op.gives_of_bind fun s => Op.gives_pure (hσ.push rfl _)
  | none =>
    refine Op.gives_of_bind fun args => ?_
    have hcall := (hσ.setRet σ.shared.null).push (k := .stmtProc) rfl (.invoke args)
    dsimp only
    split
    · refine Op.gives_of_bind fun s => ?_
      split
      · exact Op.gives_pure hcall
      · exact popGoto_own _
    · exact Op.gives_pure hcall

/-! ### Loops and returns -/

theorem loopProcMap_own (args : Addr) : Op.Gives (σ.loopProcMap N args) (Own σ) := by
  refine (loopProcMap_works (i := none) args).mono fun σ' hor => ?_
  rcases hor with hw | ⟨ks, l, b, li, rfl⟩
  · exact hw.own
  · exact (own_refl σ).goto _

/-- The bindings of one turn, unless there are too few items. -/
def OwnBound (σ : Interp S) (r : Option (Option Litem × Interp S)) : Prop :=
  ∀ li σ', r = some (li, σ') → Own σ σ'

theorem mapBind_own (l : Addr) (kis : List Litem) (li : Option Litem) (σ : Interp S) :
    Op.Gives (mapBind N l kis li σ) (OwnBound σ) := by
  induction kis generalizing li σ with
  | nil =>
    refine Op.gives_pure ?_
    rintro _ _ ⟨⟩
    exact own_refl σ
  | cons kli kis ih =>
    cases li with
    | none =>
      refine Op.gives_pure ?_
      rintro _ _ ⟨⟩
    | some li =>
      refine Op.gives_of_bind fun o => Op.gives_bind (setAt_own 0 _ _ σ) fun σ₁ h₁ => ?_
      refine Op.gives_of_bind fun li' h => (ih li' σ₁ h).mono (fun r _ hr => ?_) fun _ => id
      exact fun li'' σ' hr' => h₁.1.trans (hr li'' σ' hr')

theorem mapAt_own (ks l b : Addr) (r : List Addr) (li : Option Litem) :
    Op.Gives (σ.mapAt N ks l b r li) (Own σ) := by
  cases li with
  | none => exact Op.gives_of_bind fun o => Op.gives_pure ((own_refl σ).finish _)
  | some li =>
    refine Op.gives_of_bind fun kis => Op.gives_bind (mapBind_own l kis (some li) σ) fun r' hr => ?_
    rcases r' with _ | ⟨li', σ'⟩
    · exact Op.gives_of_bind fun m => Op.gives_pure ((own_refl σ).finish _)
    · exact Op.gives_pure ((hr _ _ rfl).push rfl _)

/-- What is returned to a call that is neither in a finally block nor the last of its fiber. -/
theorem resume_own (res : Res) {k : Kont} (hk : k.saved = none) (hth : k ≠ .thread) :
    Op.Gives (σ.resume (F := F) res k) (Own σ) := by
  have hσ := own_refl σ
  unfold resume
  cases k with
  | stmtArg stmt li vs =>
    dsimp only
    split
    · exact Op.gives_of_bind fun li' => Op.gives_pure (hσ.goto _)
    · exact popGoto_own _
  | stmtProc => exact popGoto_own _
  | call stmts li =>
    dsimp only
    split
    · exact Op.gives_of_bind fun li' => Op.gives_pure (hσ.goto _)
    · exact Op.gives_pure (hσ.goto _)
  | proc => exact Op.gives_pure (hσ.goto _)
  | map ks l b li r => cases res <;> exact Op.gives_pure (hσ.goto _)
  | loop b =>
    cases res with
    | ok => exact Op.gives_pure (hσ.push rfl _)
    | brk | err | «yield» | cont | ret | exit => exact Op.gives_pure (hσ.goto _)
  | tryBody e f =>
    dsimp only
    split
    · cases e with
      | none => exact Op.gives_pure (hσ.goto _)
      | some e => exact Op.gives_pure (hσ.push rfl _)
    · exact Op.gives_pure (hσ.goto _)
  | tryExcept f => exact Op.gives_pure (hσ.goto _)
  | tryFinally r eres e o => cases hk
  | thread => exact absurd rfl hth
  | main progs =>
    cases progs with
    | cons p ps =>
      have hopts : Own σ { σ with opts := p.1 } := ⟨rfl, rfl, rfl, rfl, rfl, rfl, rfl, rfl⟩
      dsimp only
      split
      · exact Op.gives_pure (hopts.push rfl _)
      · exact Op.gives_pure (hσ.goto _)
    | nil => exact Op.gives_pure (hσ.goto _)

/-- What is returned to a finally block. -/
theorem resume_finally (res r eres : Res) (e : Bool) (o : Addr) :
    Op.Gives (σ.resume (F := F) res (.tryFinally r eres e o))
      fun σ' => Same σ σ' e σ.qstep σ.fg.finals := by
  have hσ : Same σ ({ σ with exit := e }.setRet o) e σ.qstep σ.fg.finals :=
    ⟨rfl, rfl, rfl, rfl, rfl, rfl, rfl, rfl⟩
  unfold resume
  dsimp only
  split
  · exact Op.gives_pure (hσ.goto _)
  · split
    · exact Op.gives_pure (hσ.goto _)
    · exact Op.gives_pure (hσ.goto _)

theorem threadEnd_yielded {σ' : Interp S} (h : σ.threadEnd = some σ') :
    ∃ σ₁, Own σ σ₁ ∧ Yielded σ₁ σ' := by
  obtain ⟨t, ht⟩ := swap_switched h
  refine ⟨_, ?_, .switched t ht⟩
  exact ⟨rfl, rfl, rfl, rfl, rfl, rfl, rfl, rfl⟩

/-- A fiber returns to the innermost call that waits. -/
theorem ret_moves (nat : Natives N S I) (inp : Input I) (h : Heap F) {res : Res} (hctl : σ.fg.ctl = .ret res) :
    Op.Gives (σ.ret (F := F) res) (Move nat inp h σ) := by
  have hr : σ.NoResult := fun r hr => by simp [hctl] at hr
  unfold ret
  rcases hks : σ.fg.konts with _ | ⟨k, ks⟩ <;> dsimp only
  · exact Op.gives_crash
  · rcases hsaved : k.saved with _ | e
    · have hpop := own_pop hks hsaved
      by_cases hth : k = .thread
      · subst hth
        unfold resume
        rcases hend : σ.pop.threadEnd with _ | σ' <;> dsimp only
        · exact Op.gives_crash
        · obtain ⟨σ₁, hs, hy⟩ := threadEnd_yielded hend
          exact Op.gives_pure (.yields σ₁ hr (by simp [waits, hctl, hks]) (hpop.trans hs) hy)
      · intro h₀
        refine (resume_own res hsaved hth h₀).mono (fun σ' _ hs => ?_) fun _ => id
        exact .own hr (hpop.trans hs)
    · cases k with
      | tryFinally r eres e' o =>
        obtain rfl : e' = e := Option.some.inj hsaved
        have hfinals : σ.fg.finals = e' :: σ.pop.fg.finals := by
          simp [Fiber.finals, Interp.pop, hks, Kont.saved]
        intro h₀
        refine (resume_finally res r eres e' o h₀).mono (fun σ' _ hs => ?_) fun _ => id
        exact .finallyOut e' σ.pop.fg.finals hr hfinals
          ⟨hs.shared, hs.exit, hs.qstep, hs.nextId, hs.before, hs.after, hs.id, hs.finals⟩
      | _ => cases hsaved

/-- A statement completes. -/
theorem onRes_moves (nat : Natives N S I) (inp : Input I) (h : Heap F) {res : Res}
    (hctl : σ.fg.ctl = .onRes res) :
    Op.Gives (σ.onRes N res) (Move nat inp h σ) := by
  unfold onRes
  by_cases hy : res = .yield
  · rw [if_pos hy]
    have hr : σ.NoResult := fun r hr => by
      rw [hctl] at hr
      exact (Ctl.onRes.inj hr).symm.trans hy
    exact Op.gives_pure (.yields σ hr (by simp [waits, hctl, hy]) (own_refl σ) (yield_yielded σ _))
  · rw [if_neg hy]
    refine Op.gives_bind (setAt_own 0 _ _ _) fun σ₁ ⟨hown, hkonts⟩ => ?_
    have hs : Same σ σ₁ σ.exit (σ.qstep + 1) σ.fg.finals :=
      ⟨hown.shared, hown.exit, hown.qstep, hown.nextId, hown.before, hown.after, hown.id, hown.finals⟩
    by_cases hx : res = .exit
    · rw [if_pos hx]
      subst hx
      exact Op.gives_pure (.exits hctl rfl hkonts
        ⟨hs.shared, rfl, hs.qstep, hs.nextId, hs.before, hs.after, hs.id, hs.finals⟩)
    · rw [if_neg hx]
      have hcomp : σ.completes = true := by simp [completes, hctl, hy, hx]
      by_cases hq : σ₁.qstep = quantLen
      · rw [if_pos hq]
        exact Op.gives_pure (.quantum σ₁ hcomp (hs.qstep ▸ hq) hs (yield_yielded σ₁ _))
      · rw [if_neg hq]
        exact Op.gives_pure (.counts hcomp (hs.qstep ▸ hq) (hs.goto _))

/-- A procedure is called. -/
theorem invoke_moves (nat : Natives N S I) (inp : Input I) (h : Heap F) {args : Addr}
    (hctl : σ.fg.ctl = .invoke args) :
    Op.Ends (σ.invoke nat inp args) h (fun σ' _ => Move nat inp h σ σ') fun _ => True := by
  have hr : σ.NoResult := fun r hr => by simp [hctl] at hr
  have own_moves : ∀ {x : Op (Heap F) (Interp S)} {h₀}, Op.Gives x (Own σ) →
      Op.Ends x h₀ (fun σ' _ => Move nat inp h σ σ') fun _ => True := fun hx =>
    (hx _).mono (fun _ _ hs => .own hr hs) fun _ => id
  refine Op.returns_bind (items_returns args h) ?_
  rintro lis _ ⟨rfl, -, hlis⟩
  rcases lis with _ | ⟨li, lis⟩
  · exact Op.ends_crash
  refine ends_load_bind fun _ => ?_
  cases hproc : (h.obj li.o).proc with
  | obj => exact own_moves (gives_own (objProc_works (i := none) _ _))
  | builtin b =>
    by_cases hspawn : b = .spawn
    · subst hspawn
      refine (coreProcSpawn_works (i := none) args h).mono (fun σ' _ hor => ?_) fun _ => id
      rcases hor with hw | ⟨fn, hst⟩
      · exact .own hr hw.own
      · exact .spawn fn (σ.goto (.ret .ok)) hr ⟨args, li, lis, hctl, hlis, hproc⟩ ((own_refl σ).goto _) hst
    · by_cases hmap : b = .map
      · subst hmap
        exact own_moves (loopProcMap_own args)
      · exact own_moves (gives_own (builtin_works inp args hspawn hmap))
  | user body priv => exact own_moves (gives_own (procProc_works _ _ _))
  | native n => exact own_moves (Op.gives_pure ((own_refl σ).goto _))

/-- **What a step can do**, from any heap. -/
theorem step_moves (nat : Natives N S I) (inp : Input I) (σ : Interp S) (h : Heap F) :
    Op.Ends (σ.step nat inp) h (fun σ' _ => Move nat inp h σ σ') fun _ => True := by
  have hσ := own_refl σ
  have own_moves : ∀ {x : Op (Heap F) (Interp S)}, σ.NoResult → Op.Gives x (Own σ) →
      Op.Ends x h (fun σ' _ => Move nat inp h σ σ') fun _ => True := fun hr hx =>
    (hx h).mono (fun _ _ hs => .own hr hs) fun _ => id
  have noResult : ∀ {c : Ctl S}, σ.fg.ctl = c → (∀ r, c ≠ .onRes r) → σ.NoResult :=
    fun hc hne r hr => absurd (hc.symm.trans hr) (hne r)
  unfold step
  cases hctl : σ.fg.ctl with
  | begin =>
    have hr := noResult hctl nofun
    dsimp only
    cases σ.fg.fn with
    | some fn => exact own_moves hr (Op.gives_pure (hσ.push rfl _))
    | none => exact Op.ends_crash
  | call stmts => exact own_moves (noResult hctl nofun) (call_own stmts)
  | callAt stmts li => exact own_moves (noResult hctl nofun) (callAt_own stmts li)
  | stmt stmt => exact own_moves (noResult hctl nofun) (stmtCall_own stmt)
  | argAt stmt li vs => exact own_moves (noResult hctl nofun) (argAt_own inp stmt vs li)
  | invoke args => exact invoke_moves nat inp h hctl
  | eval exp => exact own_moves (noResult hctl nofun) (gives_own (eval_works (i := none) exp))
  | mapAt ks l b li r => exact own_moves (noResult hctl nofun) (mapAt_own ks l b r li)
  | tryEnd res eres f =>
    have hr := noResult hctl nofun
    cases f with
    | some f => exact Op.ends_pure (.finallyIn hr ⟨rfl, rfl, rfl, rfl, rfl, rfl, rfl, rfl⟩)
    | none => exact own_moves hr (Op.gives_pure (hσ.goto _))
  | native s y =>
    have hr := noResult hctl nofun
    refine Op.ends_bind_of fun r h' hrun => ?_
    rcases r with _ | s' | r
    · exact Op.ends_pure (.own hr (hσ.goto _))
    · have hw : σ.waits nat inp h = true := by simp [waits, hctl, Op.attempt_eq_some hrun]
      exact Op.ends_pure (.yields σ hr hw hσ (yield_yielded σ _))
    · exact Op.ends_pure (.own hr (hσ.finish r))
  | onRes res => exact onRes_moves nat inp h hctl h
  | ret res => exact ret_moves nat inp h hctl h
  | join => exact Op.ends_pure (.joins (noResult hctl nofun) ⟨rfl, rfl, rfl, rfl, rfl, rfl, rfl, rfl⟩)
  | sweep => exact Op.ends_pure (.yields σ (noResult hctl nofun) (by simp [waits, hctl]) hσ (yield_yielded σ _))
  | halt => exact Op.ends_crash
  | dead => exact Op.ends_crash

end Own

theorem Yielded.shared {σ σ' : Interp S} (h : Yielded σ σ') : σ'.shared = σ.shared := by
  cases h with
  | switched t h => exact h.shared
  | alone _ hshared => exact hshared

theorem Yielded.nextId {σ σ' : Interp S} (h : Yielded σ σ') : σ'.nextId = σ.nextId := by
  cases h with
  | switched t h => exact h.nextId
  | alone _ _ _ _ hnextId => exact hnextId

/-- No step replaces the shared objects. -/
theorem Move.shared {nat : Natives N S I} {inp : Input I} {h : Heap F} {σ σ' : Interp S}
    (hm : Move nat inp h σ σ') : σ'.shared = σ.shared := by
  cases hm with
  | own _ hs => exact hs.shared
  | spawn fn σ₁ _ _ hs hst => exact hst ▸ hs.shared
  | finallyIn _ hs => exact hs.shared
  | finallyOut _ _ _ _ hs => exact hs.shared
  | joins _ hs => exact hs.shared
  | yields _ _ _ hs hy => exact hy.shared.trans hs.shared
  | exits _ _ _ hs => exact hs.shared
  | counts _ _ hs => exact hs.shared
  | quantum _ _ _ hs hy => exact hy.shared.trans hs.shared

/-- No step gives an address back. -/
theorem Move.nextId_le {nat : Natives N S I} {inp : Input I} {h : Heap F} {σ σ' : Interp S}
    (hm : Move nat inp h σ σ') : σ.nextId ≤ σ'.nextId := by
  cases hm with
  | own _ hs => exact Nat.le_of_eq hs.nextId.symm
  | spawn fn σ₁ _ _ hs hst =>
    subst hst
    exact hs.nextId ▸ Nat.le_succ _
  | finallyIn _ hs => exact Nat.le_of_eq hs.nextId.symm
  | finallyOut _ _ _ _ hs => exact Nat.le_of_eq hs.nextId.symm
  | joins _ hs => exact Nat.le_of_eq hs.nextId.symm
  | yields _ _ _ hs hy => exact Nat.le_of_eq (hy.nextId.trans hs.nextId).symm
  | exits _ _ _ hs => exact Nat.le_of_eq hs.nextId.symm
  | counts _ _ hs => exact Nat.le_of_eq hs.nextId.symm
  | quantum _ _ _ hs hy => exact Nat.le_of_eq (hy.nextId.trans hs.nextId).symm

end Interp

/-! ### The start -/

/-- An interpreter that `b6b_interp_new` has made. -/
structure Interp.Fresh (σ : Interp S) : Prop where
  before : σ.before = []
  after : σ.after = []
  exit : σ.exit = false
  nextId : σ.nextId = 1
  id : σ.fg.id = 0
  finals : σ.fg.finals = []

theorem interpNew_fresh (args : List Bytes) (exts : List ExtObj) (progs : List (Opts × Bytes)) :
    Op.Gives (interpNew (S := S) N args exts progs) Interp.Fresh := by
  refine Op.gives_of_bind fun lis => Op.gives_of_bind fun argv => Op.gives_of_bind fun C => ?_
  refine Op.gives_of_bind fun ls => Op.gives_of_bind fun ls' => Op.gives_of_bind fun ps => ?_
  exact Op.gives_pure ⟨rfl, rfl, rfl, rfl, rfl, rfl⟩

/-- The machine starts with one fiber. -/
theorem Machine.start_fresh {args : List Bytes} {exts : List ExtObj} {progs : List (Opts × Bytes)}
    {m : Machine F S} (h : Machine.start? N args exts progs = some m) : m.interp.Fresh := by
  unfold Machine.start? at h
  rcases hx : interpNew (S := S) N args exts progs Heap.empty with σ | h' | _ <;> rw [hx] at h
  · obtain rfl := Option.some.inj h
    exact (interpNew_fresh args exts progs).ok hx
  · cases h
  · cases h

/-! ### Fibers are told apart -/

namespace Interp

variable {σ σ' σ₁ : Interp S} {e : Bool} {q : UInt8} {fs : List Bool}

/-- No two fibers have the same address, and a new one gets another. -/
structure Distinct (σ : Interp S) : Prop where
  nodup : σ.ids.Nodup
  lt : ∀ i ∈ σ.ids, i < σ.nextId

theorem Same.ids (h : Same σ σ' e q fs) : σ'.ids = σ.ids := by
  simp [Interp.ids, h.before, h.after, h.id]

theorem Distinct.sublist (hd : Distinct σ) (hids : σ'.ids.Sublist σ.ids)
    (hnext : σ'.nextId = σ.nextId) : Distinct σ' :=
  ⟨hd.nodup.sublist hids, fun i hi => hnext ▸ hd.lt i (hids.subset hi)⟩

theorem Distinct.same (hd : Distinct σ) (h : Same σ σ' e q fs) : Distinct σ' :=
  hd.sublist (h.ids ▸ List.Sublist.refl _) h.nextId

theorem Distinct.yielded (hd : Distinct σ) (hy : Yielded σ σ') : Distinct σ' := by
  cases hy with
  | switched t h => exact hd.sublist h.ids h.nextId
  | alone _ _ _ _ hnext _ _ hids => exact hd.sublist hids hnext

theorem Distinct.start (hd : Distinct σ) (fn : Addr) : Distinct (σ.start fn) := by
  have hperm : (σ.start fn).ids.Perm (σ.nextId :: σ.ids) := by
    simp only [Interp.ids, Interp.start, List.map_append, List.map_cons]
    exact ((List.Perm.swap _ _ _).append_left _).trans List.perm_middle
  refine ⟨hperm.nodup_iff.mpr (List.nodup_cons.mpr ⟨fun hmem => ?_, hd.nodup⟩), fun i hi => ?_⟩
  · exact Nat.lt_irrefl _ (hd.lt _ hmem)
  · rcases List.mem_cons.mp (hperm.mem_iff.mp hi) with rfl | hi
    · exact Nat.lt_succ_self _
    · exact Nat.lt_succ_of_lt (hd.lt i hi)

/-- Every step keeps fibers apart. -/
theorem Distinct.move {nat : Natives N S I} {inp : Input I} {h : Heap F} (hd : Distinct σ)
    (hm : Move nat inp h σ σ') : Distinct σ' := by
  cases hm with
  | own _ hs => exact hd.same hs
  | spawn fn σ₁ _ _ hs hst => exact hst ▸ (hd.same hs).start fn
  | finallyIn _ hs => exact hd.same hs
  | finallyOut _ _ _ _ hs => exact hd.same hs
  | joins _ hs => exact hd.same hs
  | yields _ _ _ hs hy => exact (hd.same hs).yielded hy
  | exits _ _ _ hs => exact hd.same hs
  | counts _ _ hs => exact hd.same hs
  | quantum _ _ _ hs hy => exact (hd.same hs).yielded hy

theorem next_mem {t : Fiber S} (h : σ.next = some t) : t ∈ σ.before ++ σ.after := by
  have hmem := List.mem_of_find?_eq_some h
  rwa [List.mem_append, or_comm, ← List.mem_append] at hmem

/-- The foreground fiber is not among the others. -/
theorem Distinct.other_ne (hd : Distinct σ) {t : Fiber S} (ht : t ∈ σ.before ++ σ.after) :
    t.id ≠ σ.fg.id := by
  have hnodup : ((σ.fg :: (σ.before ++ σ.after)).map (·.id)).Nodup := by
    refine (List.Perm.map _ ?_).nodup_iff.mp hd.nodup
    exact List.perm_middle
  rw [List.map_cons, List.nodup_cons] at hnodup
  exact fun he => hnodup.1 (he ▸ List.mem_map_of_mem (f := (·.id)) ht)

/-- A switch is to another fiber. -/
theorem Switched.id_ne {t : Fiber S} (hd : Distinct σ) (h : Switched σ σ' t) :
    σ'.fg.id ≠ σ.fg.id := by
  rw [h.fg]
  show t.id ≠ σ.fg.id
  exact hd.other_ne (next_mem h.next)

theorem Fresh.distinct (h : Fresh σ) : Distinct σ := by
  have hids : σ.ids = [0] := by simp [Interp.ids, h.before, h.after, h.id]
  refine ⟨by simp [hids], fun i hi => ?_⟩
  rw [hids] at hi
  rw [List.mem_singleton.mp hi, h.nextId]
  exact Nat.zero_lt_one

end Interp

/-! ### The machine -/

/-- What a step of the interpreter returns, a step of the machine reaches. -/
theorem Machine.step_gives {nat : Natives N S I} {m m' : Machine F S} {inp : Input I}
    {P : Interp S → Prop} (hg : Op.Gives (m.interp.step nat inp) P)
    (h : m.step nat inp = some m') : P m'.interp :=
  hg.ok (Machine.step_eq_some h)

/-- A step of the machine is a move of the interpreter, and changes the heap as it touches it. -/
theorem Machine.step_spec {nat : Natives N S I} {m m' : Machine F S} {inp : Input I}
    (h : m.step nat inp = some m') :
    Interp.Move nat inp m.heap m.interp m'.interp ∧ (evolve N (m.Touches nat)).Rel m.heap m'.heap :=
  have hok := Machine.step_eq_some h
  ⟨(Interp.step_moves nat inp m.interp m.heap).ok hok, (m.step_keepsAt nat inp).ok hok⟩

end B6b
