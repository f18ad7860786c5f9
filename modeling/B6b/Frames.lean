/-
# The frames of a fiber

`b6b_stmt_call` pushes a frame before it looks at the first argument and pops it before it
returns. Procedures bind variables in the frame of their own statement, or in one that is a
fixed number of frames below it (`Proc.bindsAt`).

`Fiber.Acts` is what one step does to the frames, the calls that wait and the variables of
the foreground fiber: it binds variables in one frame, or pushes a frame, or pops one. The
other fibers keep all they have (`Steps`), and `step_steps` says so of every step.

Key definitions: `Fiber.active`, `Fiber.Acts`, `Steps`.
-/
import B6b.Moves

namespace B6b

variable {F S I : Type} {N : Num F}

/-- The statements with a frame that a waiting call stands for. -/
def Kont.stmts : Kont → ℕ
  | .stmtArg _ _ _ | .stmtProc => 1
  | _ => 0

/-- The statements with a frame among calls that wait. -/
def activeIn (ks : List Kont) : ℕ := (ks.map Kont.stmts).sum

/-- The statements with a frame that go on next. -/
def Ctl.stmts : Ctl S → ℕ
  | .argAt _ _ _ => 1
  | _ => 0

namespace Fiber

/-- The statements of the fiber that have a frame. -/
def active (t : Fiber S) : ℕ := t.ctl.stmts + activeIn t.konts

/-- The calls that wait and stay, in the next step. -/
def rest (t : Fiber S) : List Kont :=
  match t.ctl with
  | .ret _ => t.konts.tail
  | _ => t.konts

/-- The statements with a frame, but for those of `rest`. -/
def top (t : Fiber S) : ℕ :=
  match t.ctl with
  | .ret _ => activeIn (t.konts.take 1)
  | c => c.stmts

/-- What a step does to the frames, the calls and the variables of a fiber with `n` statements
above `ks`: it binds variables in the frame `i`, or pushes a frame, or pops one. New frames
have addresses from `nf` on, up to `nf'`. -/
inductive Acts (i : Option ℕ) (n nf nf' : ℕ) (ks : List Kont) (t t' : Fiber S) : Prop
  | binds (new : List Kont) (ls : Locals) (hk : t'.konts = new ++ ks)
      (hn : t'.ctl.stmts + activeIn new = n) (hnf : nf ≤ nf') (hf : t'.frames = t.frames)
      (hd : t'.depth = t.depth) (hs : t'.stack = rebound i ls t.stack)
  | enters (hk : t'.konts = ks) (hn : t'.ctl.stmts = n + 1) (hnf : nf < nf')
      (hf : t'.frames = nf :: t.frames) (hlt : t.depth < Interp.maxNesting)
      (hd : t'.depth = t.depth + 1) (hs : t'.stack = [] :: t.stack)
  | leaves (hk : t'.konts = ks) (hn : t'.ctl.stmts + 1 = n) (hnf : nf ≤ nf')
      (hf : t'.frames = t.frames.tail) (hd : t'.depth = t.depth - 1)
      (hs : t'.stack = t.stack.tail)

end Fiber

namespace Interp

/-- The fibers. -/
def fibers (σ : Interp S) : List (Fiber S) := σ.before ++ σ.fg :: σ.after

/-- The frame of the foreground fiber that the next step may bind variables in. -/
def bindsAt (h : Heap F) (σ : Interp S) : Option ℕ :=
  match σ.fg.ctl with
  | .invoke args =>
    match (h.obj args).l with
    | some (li :: _) => (h.obj li.o).proc.bindsAt
    | _ => none
  | .mapAt _ _ _ _ _ | .onRes _ => some 0
  | _ => none

/-- What the foreground fiber does, above the calls that wait. -/
abbrev Acts (i : Option ℕ) (n : ℕ) (σ σ' : Interp S) : Prop :=
  Fiber.Acts i n σ.nextFrame σ'.nextFrame σ.fg.konts σ.fg σ'.fg

/-- What a step of the foreground fiber does. -/
abbrev StepActs (i : Option ℕ) (σ : Interp S) (nf' : ℕ) (u : Fiber S) : Prop :=
  u.id = σ.fg.id ∧ Fiber.Acts i σ.fg.top σ.nextFrame nf' σ.fg.rest σ.fg u

/-- **What a step does to the frames of all fibers**: the others keep all they have, and one
may be new. -/
structure Steps (i : Option ℕ) (σ σ' : Interp S) : Prop where
  nextFrame : σ.nextFrame ≤ σ'.nextFrame
  fibers : ∀ u ∈ σ'.fibers, (∃ v ∈ σ.before ++ σ.after, u = v ∨ u = v.swapIn) ∨
    StepActs i σ σ'.nextFrame u ∨
    σ.nextFrame < σ'.nextFrame ∧ ∃ fn, u = .new σ.nextId σ.nextFrame fn σ.shared.null

/-! ### The fiber's own work -/

/-- `σ₁` is `σ` but for variables in the frame `i` and what the fiber does next. -/
structure Binds (i : Option ℕ) (σ σ₁ : Interp S) : Prop where
  konts : σ₁.fg.konts = σ.fg.konts
  nextFrame : σ₁.nextFrame = σ.nextFrame
  frames : σ₁.fg.frames = σ.fg.frames
  depth : σ₁.fg.depth = σ.fg.depth
  stack : ∃ ls, σ₁.fg.stack = rebound i ls σ.fg.stack

section Own

variable {σ σ₁ σ₂ : Interp S} {i : Option ℕ} {n : ℕ}

theorem binds_refl (i : Option ℕ) (σ : Interp S) : Binds i σ σ :=
  ⟨rfl, rfl, rfl, rfl, exists_rebound _ _⟩

theorem Binds.trans (h : Binds i σ σ₁) (h' : Binds i σ₁ σ₂) : Binds i σ σ₂ := by
  obtain ⟨ls, hls⟩ := h.stack
  obtain ⟨ls', hls'⟩ := h'.stack
  refine ⟨h'.konts.trans h.konts, h'.nextFrame.trans h.nextFrame, h'.frames.trans h.frames,
    h'.depth.trans h.depth, ls', ?_⟩
  rw [hls', hls, rebound_rebound]

theorem Binds.setRet (h : Binds i σ σ₁) (o : Addr) : Binds i σ (σ₁.setRet o) :=
  ⟨h.konts, h.nextFrame, h.frames, h.depth, h.stack⟩

/-- The fiber goes on, above the same calls. -/
theorem Binds.goto (h : Binds i σ σ₁) {c : Ctl S} (hc : c.stmts = n) : Acts i n σ (σ₁.goto c) := by
  obtain ⟨ls, hls⟩ := h.stack
  exact .binds [] ls h.konts hc (Nat.le_of_eq h.nextFrame.symm) h.frames h.depth hls

theorem Binds.finish (h : Binds i σ σ₁) (r : Reply) : Acts i 0 σ (σ₁.finish r) := by
  obtain ⟨res, _ | o⟩ := r
  · exact h.goto rfl
  · exact (h.setRet o).goto rfl

/-- The fiber calls. -/
theorem Binds.push (h : Binds i σ σ₁) {k : Kont} {c : Ctl S} (hn : c.stmts + k.stmts = n) :
    Acts i n σ (σ₁.push k c) := by
  obtain ⟨ls, hls⟩ := h.stack
  refine .binds [k] ls (congrArg (k :: ·) h.konts) ?_ (Nat.le_of_eq h.nextFrame.symm) h.frames h.depth hls
  show c.stmts + (k.stmts + 0) = n
  omega

theorem Rebinds.binds (h : Rebinds i σ σ₁) : Binds i σ σ₁ := ⟨h.konts, h.nextFrame, h.frames, h.depth, h.stack⟩

/-- A procedure leaves the frames, but for the variables of one. -/
theorem Works.acts {σ' : Interp S} (h : Works i σ σ') : Acts i 0 σ σ' := by
  have hstmts : ∀ {c : Ctl S}, c.ofProc = true → c.stmts = 0 := by
    intro c hc
    cases c with
    | argAt => cases hc
    | _ => rfl
  cases h with
  | goes σ₁ c hb hc h => exact h ▸ hb.binds.goto (hstmts hc)
  | calls σ₁ k c hb hk hc h =>
    have hk₀ : k.stmts = 0 := by
      cases k with
      | stmtArg | stmtProc => cases hk
      | _ => rfl
    exact h ▸ hb.binds.push (by rw [hstmts hc, hk₀])

theorem setAt_binds (i : ℕ) (k v : Addr) (σ : Interp S) :
    Op.Gives (setAt N i k v σ) (Binds (some i) σ) :=
  (setAt_rebinds i k v σ).mono fun _ => Rebinds.binds

/-- A frame is popped, and the statement has its result. -/
theorem popGoto_acts (res : Res) : Op.Gives (do
    let σ ← σ.framePop (F := F)
    pure (σ.goto (.onRes res))) (Acts i 1 σ) := by
  unfold framePop
  cases hprev : σ.fg.prev with
  | cons f fs =>
    refine Op.gives_pure (.leaves rfl rfl (Nat.le_refl _) rfl rfl ?_)
    show f :: fs = σ.fg.prev
    exact hprev.symm
  | nil => exact Op.gives_bind (Q := fun _ => False) Op.gives_crash fun _ => False.elim

theorem call_acts (stmts : Addr) : Op.Gives (σ.call N stmts) (Acts i 0 σ) := by
  have hσ := binds_refl i σ
  refine Op.gives_of_bind fun r => ?_
  cases r with
  | some lis => exact Op.gives_pure (hσ.goto rfl)
  | none => exact Op.gives_pure (hσ.goto rfl)

theorem callAt_acts (stmts : Addr) (li : Option Litem) :
    Op.Gives (σ.callAt N stmts li) (Acts i 0 σ) := by
  have hσ := binds_refl i σ
  cases li with
  | none => exact Op.gives_pure (hσ.goto rfl)
  | some li =>
    refine Op.gives_of_bind fun s => ?_
    split
    · exact Op.gives_of_bind fun li' => Op.gives_pure (hσ.goto rfl)
    · exact Op.gives_pure (hσ.push rfl)

/-- A statement pushes a frame, unless it has reached the limit. -/
theorem stmtCall_acts (stmt : Addr) : Op.Gives (σ.stmtCall N stmt) (Acts i 0 σ) := by
  have hσ := binds_refl i σ
  unfold stmtCall
  split
  · exact Op.gives_pure (hσ.goto rfl)
  · split
    · exact Op.gives_of_bind fun m => Op.gives_pure ((hσ.setRet m).goto rfl)
    · next hlt =>
      have hdepth : σ.fg.depth < maxNesting := Nat.lt_of_not_le hlt
      refine Op.gives_of_bind fun r => ?_
      cases r with
      | some lis => exact Op.gives_pure (.enters rfl rfl (Nat.lt_succ_self _) rfl hdepth rfl rfl)
      | none => exact Op.gives_pure (hσ.goto rfl)

/-- A statement whose trace cannot be written pops its frame. -/
theorem argAt_acts (inp : Input I) (stmt : Addr) (vs : List Addr) (li : Option Litem) :
    Op.Gives (σ.argAt N inp stmt vs li) (Acts i 1 σ) := by
  have hσ := binds_refl i σ
  cases li with
  | some li => exact Op.gives_of_bind fun s => Op.gives_pure (hσ.push rfl)
  | none =>
    refine Op.gives_of_bind fun args => ?_
    have hcall : Acts i 1 σ ((σ.setRet σ.shared.null).push .stmtProc (.invoke args)) :=
      (hσ.setRet σ.shared.null).push rfl
    dsimp only
    split
    · refine Op.gives_of_bind fun s => ?_
      split
      · exact Op.gives_pure hcall
      · exact popGoto_acts _
    · exact Op.gives_pure hcall

/-! ### Procedures -/

/-- A new fiber leaves the foreground one as it is. -/
theorem start_acts (fn : Addr) : Acts i 0 σ ((σ.start fn).goto (.ret .ok)) := by
  obtain ⟨ls, hls⟩ := (binds_refl i σ).stack
  exact .binds [] ls rfl rfl (Nat.le_succ _) rfl rfl hls

/-! ### Loops and returns -/

/-- The bindings of one turn, unless there are too few items. -/
def BindsTurn (σ : Interp S) (r : Option (Option Litem × Interp S)) : Prop :=
  ∀ li σ', r = some (li, σ') → Binds (some 0) σ σ'

theorem mapBind_binds (l : Addr) (kis : List Litem) (li : Option Litem) (σ : Interp S) :
    Op.Gives (mapBind N l kis li σ) (BindsTurn σ) := by
  induction kis generalizing li σ with
  | nil =>
    refine Op.gives_pure ?_
    rintro _ _ ⟨⟩
    exact binds_refl _ σ
  | cons kli kis ih =>
    cases li with
    | none =>
      refine Op.gives_pure ?_
      rintro _ _ ⟨⟩
    | some li =>
      refine Op.gives_of_bind fun o => Op.gives_bind (setAt_binds 0 _ _ σ) fun σ₁ h₁ => ?_
      refine Op.gives_of_bind fun li' h => (ih li' σ₁ h).mono (fun r _ hr => ?_) fun _ => id
      exact fun li'' σ' hr' => h₁.trans (hr li'' σ' hr')

theorem mapAt_acts (ks l b : Addr) (r : List Addr) (li : Option Litem) :
    Op.Gives (σ.mapAt N ks l b r li) (Acts (some 0) 0 σ) := by
  have hσ := binds_refl (some 0) σ
  cases li with
  | none => exact Op.gives_of_bind fun o => Op.gives_pure (hσ.finish _)
  | some li =>
    refine Op.gives_of_bind fun kis => Op.gives_bind (mapBind_binds l kis (some li) σ) fun r' hr => ?_
    rcases r' with _ | ⟨li', σ'⟩
    · exact Op.gives_of_bind fun m => Op.gives_pure (hσ.finish _)
    · exact Op.gives_pure ((hr _ _ rfl).push rfl)

/-- What is returned to a call that is not the last of its fiber. -/
theorem resume_acts (res : Res) {k : Kont} (hth : k ≠ .thread) :
    Op.Gives (σ.resume (F := F) res k) (Acts i k.stmts σ) := by
  have hσ := binds_refl i σ
  unfold resume
  cases k with
  | stmtArg stmt li vs =>
    dsimp only
    split
    · exact Op.gives_of_bind fun li' => Op.gives_pure (hσ.goto rfl)
    · exact popGoto_acts _
  | stmtProc => exact popGoto_acts _
  | call stmts li =>
    dsimp only
    split
    · exact Op.gives_of_bind fun li' => Op.gives_pure (hσ.goto rfl)
    · exact Op.gives_pure (hσ.goto rfl)
  | proc => exact Op.gives_pure (hσ.goto rfl)
  | map ks l b li r => cases res <;> exact Op.gives_pure (hσ.goto rfl)
  | loop b =>
    cases res with
    | ok => exact Op.gives_pure (hσ.push rfl)
    | brk | err | «yield» | cont | ret | exit => exact Op.gives_pure (hσ.goto rfl)
  | tryBody e f =>
    dsimp only
    split
    · cases e with
      | none => exact Op.gives_pure (hσ.goto rfl)
      | some e => exact Op.gives_pure (hσ.push rfl)
    · exact Op.gives_pure (hσ.goto rfl)
  | tryExcept f => exact Op.gives_pure (hσ.goto rfl)
  | tryFinally r eres e o =>
    have hback : Binds i σ ({ σ with exit := e }.setRet o) := ⟨rfl, rfl, rfl, rfl, hσ.stack⟩
    dsimp only
    split
    · exact Op.gives_pure (hback.goto rfl)
    · split
      · exact Op.gives_pure (hback.goto rfl)
      · exact Op.gives_pure (hback.goto rfl)
  | thread => exact absurd rfl hth
  | main progs =>
    cases progs with
    | cons p ps =>
      have hopts : Binds i σ { σ with opts := p.1 } := ⟨rfl, rfl, rfl, rfl, hσ.stack⟩
      dsimp only
      split
      · exact Op.gives_pure (hopts.push rfl)
      · exact Op.gives_pure (hσ.goto rfl)
    | nil => exact Op.gives_pure (hσ.goto rfl)

/-! ### The other fibers -/

theorem swapTo_rest (before : List (Fiber S)) (t : Fiber S) (after : List (Fiber S)) :
    ∀ u ∈ (σ.swapTo before t after).before ++ (σ.swapTo before t after).after, u ∈ before ++ after := by
  unfold swapTo
  dsimp only
  split
  · exact fun u hu => hu
  · exact (wait_rest _).1

theorem swapTo_fg (before : List (Fiber S)) (t : Fiber S) (after : List (Fiber S)) :
    (σ.swapTo before t after).fg = t.swapIn := by
  unfold swapTo
  dsimp only
  split <;> rfl

theorem swapTo_nextFrame (before : List (Fiber S)) (t : Fiber S) (after : List (Fiber S)) :
    (σ.swapTo before t after).nextFrame = σ.nextFrame := by
  unfold swapTo
  dsimp only
  split <;> rfl

/-- A switch keeps all that the fibers have. -/
theorem swapTo_fibers {before after : List (Fiber S)} {t : Fiber S} (ht : t ∈ σ.before ++ σ.after)
    (hrest : ∀ u ∈ before ++ after, u ∈ σ.before ++ σ.after ∨ u = σ.fg.swapOut) :
    ∀ u ∈ (σ.swapTo before t after).fibers,
      (∃ v ∈ σ.before ++ σ.after, u = v ∨ u = v.swapIn) ∨ u = σ.fg.swapOut := by
  intro u hu
  rcases List.mem_append.mp hu with hu | hu
  · have hmem := swapTo_rest before t after u (List.mem_append_left _ hu)
    exact (hrest u hmem).imp_left fun h => ⟨u, h, .inl rfl⟩
  · rcases List.mem_cons.mp hu with rfl | hu
    · rw [swapTo_fg]
      exact .inl ⟨t, ht, .inr rfl⟩
    · have hmem := swapTo_rest before t after u (List.mem_append_right _ hu)
      exact (hrest u hmem).imp_left fun h => ⟨u, h, .inl rfl⟩

theorem swap_fibers {σ' : Interp S} (h : σ.swap = some σ') : σ'.nextFrame = σ.nextFrame ∧
    ∀ u ∈ σ'.fibers, (∃ v ∈ σ.before ++ σ.after, u = v ∨ u = v.swapIn) ∨ u = σ.fg.swapOut := by
  unfold swap at h
  rcases ha : splitPending σ.after with _ | ⟨as, t, bs⟩ <;> rw [ha] at h <;> dsimp only at h
  · rcases hb : splitPending σ.before with _ | ⟨as, t, bs⟩ <;> rw [hb] at h <;> dsimp only at h
    · cases h
    · obtain ⟨hbefore, -⟩ := splitPending_some hb
      obtain rfl := Option.some.inj h
      refine ⟨swapTo_nextFrame _ _ _, swapTo_fibers ?_ ?_⟩
      · simp [hbefore]
      · rw [hbefore]
        intro u hu
        simp only [List.mem_append, List.mem_cons] at hu ⊢
        grind
  · obtain ⟨hafter, -⟩ := splitPending_some ha
    obtain rfl := Option.some.inj h
    refine ⟨swapTo_nextFrame _ _ _, swapTo_fibers ?_ ?_⟩
    · simp [hafter]
    · rw [hafter]
      intro u hu
      simp only [List.mem_append, List.mem_cons] at hu ⊢
      grind

/-- So does `b6b_yield`, but for what the fiber does behind it. -/
theorem yield_fibers (σ : Interp S) (c : Bool → Ctl S) : (σ.yield c).nextFrame = σ.nextFrame ∧
    ∀ u ∈ (σ.yield c).fibers, (∃ v ∈ σ.before ++ σ.after, u = v ∨ u = v.swapIn) ∨
      ∃ y, u = (σ.goto (c y)).fg ∨ u = (σ.goto (c y)).fg.swapOut := by
  unfold yield
  rcases hs : (σ.goto (c true)).swap with _ | σ' <;> dsimp only
  · refine ⟨rfl, fun u hu => ?_⟩
    have hwait := (wait_rest (σ.goto (c false))).1
    rcases List.mem_append.mp hu with hu | hu
    · exact .inl ⟨u, hwait u (List.mem_append_left _ hu), .inl rfl⟩
    · rcases List.mem_cons.mp hu with rfl | hu
      · exact .inr ⟨false, .inl rfl⟩
      · exact .inl ⟨u, hwait u (List.mem_append_right _ hu), .inl rfl⟩
  · obtain ⟨hnf, hfibers⟩ := swap_fibers hs
    exact ⟨hnf, fun u hu => (hfibers u hu).imp_right fun h => ⟨true, .inr h⟩⟩

/-! ### One step -/

theorem acts_swapOut {nf nf' : ℕ} {ks : List Kont} {t t' : Fiber S}
    (h : Fiber.Acts i n nf nf' ks t t') : Fiber.Acts i n nf nf' ks t t'.swapOut := by
  cases h with
  | binds new ls hk hn hnf hf hd hs => exact .binds new ls hk hn hnf hf hd hs
  | enters hk hn hnf hf hlt hd hs => exact .enters hk hn hnf hf hlt hd hs
  | leaves hk hn hnf hf hd hs => exact .leaves hk hn hnf hf hd hs

theorem acts_nextFrame {nf nf' : ℕ} {ks : List Kont} {t t' : Fiber S}
    (h : Fiber.Acts i n nf nf' ks t t') : nf ≤ nf' := by
  cases h with
  | binds _ _ _ _ hnf => exact hnf
  | enters _ _ hnf => exact Nat.le_of_lt hnf
  | leaves _ _ hnf => exact hnf

/-- What the fiber does behind a return, it does behind the call that waits. -/
theorem acts_pop {σ' : Interp S} (h : Acts i n σ.pop σ') :
    Fiber.Acts i n σ.nextFrame σ'.nextFrame σ.fg.konts.tail σ.fg σ'.fg := by
  cases h with
  | binds new ls hk hn hnf hf hd hs => exact .binds new ls hk hn hnf hf hd hs
  | enters hk hn hnf hf hlt hd hs => exact .enters hk hn hnf hf hlt hd hs
  | leaves hk hn hnf hf hd hs => exact .leaves hk hn hnf hf hd hs

theorem rest_of_ne {t : Fiber S} (h : ∀ r, t.ctl ≠ .ret r) : t.rest = t.konts := by
  unfold Fiber.rest
  split
  · next hr => exact absurd hr (h _)
  · rfl

theorem top_of_ne {t : Fiber S} (h : ∀ r, t.ctl ≠ .ret r) : t.top = t.ctl.stmts := by
  unfold Fiber.top
  split
  · next hr => exact absurd hr (h _)
  · rfl

/-- A step that keeps the other fibers as they are. -/
theorem steps_of_same {σ' : Interp S} {e : Bool} {q : UInt8} {fs : List Bool}
    (hs : Same σ σ' e q fs) (ha : StepActs i σ σ'.nextFrame σ'.fg) : Steps i σ σ' := by
  refine ⟨acts_nextFrame ha.2, fun u hu => ?_⟩
  rcases List.mem_append.mp hu with hu | hu
  · exact .inl ⟨u, List.mem_append_left _ (hs.before ▸ hu), .inl rfl⟩
  · rcases List.mem_cons.mp hu with rfl | hu
    · exact .inr (.inl ha)
    · exact .inl ⟨u, List.mem_append_right _ (hs.after ▸ hu), .inl rfl⟩

/-- A step that ends in `b6b_yield`. -/
theorem steps_yield {e : Bool} {q : UInt8} {fs : List Bool} (hs : Same σ σ₁ e q fs)
    (hnf : σ₁.nextFrame = σ.nextFrame) {c : Bool → Ctl S}
    (ha : ∀ y, StepActs i σ σ₁.nextFrame (σ₁.goto (c y)).fg) : Steps i σ (σ₁.yield c) := by
  obtain ⟨hnf', hfibers⟩ := yield_fibers σ₁ c
  refine ⟨Nat.le_of_eq (hnf'.trans hnf).symm, fun u hu => ?_⟩
  rw [← hs.before, ← hs.after, hnf']
  refine (hfibers u hu).imp_right fun ⟨y, hy⟩ => .inl ?_
  rcases hy with rfl | rfl
  · exact ha y
  · exact ⟨(ha y).1, acts_swapOut (ha y).2⟩

theorem stepActs_of_ne {σ' : Interp S} (hctl : ∀ r, σ.fg.ctl ≠ .ret r) (hn : σ.fg.ctl.stmts = n)
    (hid : σ'.fg.id = σ.fg.id) (ha : Acts i n σ σ') : StepActs i σ σ'.nextFrame σ'.fg := by
  refine ⟨hid, ?_⟩
  rw [top_of_ne hctl, rest_of_ne hctl, hn]
  exact ha

/-- A step that is neither a return nor ends in `b6b_yield`. -/
theorem steps_own {x : Op (Heap F) (Interp S)} (hctl : ∀ r, σ.fg.ctl ≠ .ret r)
    (ho : Op.Gives x (Own σ)) (ha : Op.Gives x (Acts i σ.fg.ctl.stmts σ)) :
    Op.Gives x (Steps i σ) := fun h =>
  ((ho.and ha) h).mono (fun _ _ hx => steps_of_same hx.1 (stepActs_of_ne hctl rfl hx.1.id hx.2)) fun _ => id

theorem works_steps {x : Op (Heap F) (Interp S)} (hctl : ∀ r, σ.fg.ctl ≠ .ret r) (hn : σ.fg.ctl.stmts = 0)
    (hx : Op.Gives x (Works i σ)) : Op.Gives x (Steps i σ) :=
  hx.mono fun _ hw => steps_of_same hw.own (stepActs_of_ne hctl hn hw.own.id hw.acts)

theorem spawn_steps (args : Addr) (hctl : ∀ r, σ.fg.ctl ≠ .ret r) (hn : σ.fg.ctl.stmts = 0) :
    Op.Gives (σ.coreProcSpawn N args) (Steps i σ) := by
  refine (coreProcSpawn_works (i := i) args).mono fun σ' hor => ?_
  rcases hor with hw | ⟨fn, rfl⟩
  · exact steps_of_same hw.own (stepActs_of_ne hctl hn hw.own.id hw.acts)
  · refine ⟨Nat.le_succ _, fun u hu => ?_⟩
    rcases List.mem_append.mp hu with hu | hu
    · exact .inl ⟨u, List.mem_append_left _ hu, .inl rfl⟩
    · rcases List.mem_cons.mp hu with rfl | hu
      · exact .inr (.inl (stepActs_of_ne hctl hn rfl (start_acts fn)))
      · rcases List.mem_cons.mp hu with rfl | hu
        · exact .inr (.inr ⟨Nat.lt_succ_self _, fn, rfl⟩)
        · exact .inl ⟨u, List.mem_append_right _ hu, .inl rfl⟩

theorem map_steps (args : Addr) (hctl : ∀ r, σ.fg.ctl ≠ .ret r) (hn : σ.fg.ctl.stmts = 0) :
    Op.Gives (σ.loopProcMap N args) (Steps i σ) := by
  refine (loopProcMap_works (i := i) args).mono fun σ' hor => ?_
  rcases hor with hw | ⟨ks, l, b, li, rfl⟩
  · exact steps_of_same hw.own (stepActs_of_ne hctl hn hw.own.id hw.acts)
  · exact steps_of_same ((own_refl σ).goto _) (stepActs_of_ne hctl hn rfl ((binds_refl i σ).goto rfl))

/-- A statement completes. -/
theorem onRes_steps {res : Res} (hctl : σ.fg.ctl = .onRes res) :
    Op.Gives (σ.onRes N res) (Steps (some 0) σ) := by
  have hne : ∀ r, σ.fg.ctl ≠ .ret r := fun r hr => nomatch hctl.symm.trans hr
  have hn : σ.fg.ctl.stmts = 0 := by rw [hctl]; rfl
  unfold onRes
  split
  · exact Op.gives_pure (steps_yield (own_refl σ) rfl fun _ =>
      stepActs_of_ne hne hn rfl ((binds_refl _ σ).goto rfl))
  · refine Op.gives_bind ((setAt_own 0 _ _ _).and (setAt_binds 0 _ _ _)) fun σ₁ ⟨⟨hown, _⟩, hb⟩ => ?_
    have hs : Same σ σ₁ σ.exit (σ.qstep + 1) σ.fg.finals :=
      ⟨hown.shared, hown.exit, hown.qstep, hown.nextId, hown.before, hown.after, hown.id, hown.finals⟩
    have hb₁ : Binds (some 0) σ σ₁ := ⟨hb.konts, hb.nextFrame, hb.frames, hb.depth, hb.stack⟩
    split
    · have hs₁ : Same σ ({ σ₁ with exit := true }.goto (.ret res)) true (σ.qstep + 1) σ.fg.finals :=
        ⟨hs.shared, rfl, hs.qstep, hs.nextId, hs.before, hs.after, hs.id, hs.finals⟩
      have hb₂ : Binds (some 0) σ { σ₁ with exit := true } :=
        ⟨hb.konts, hb.nextFrame, hb.frames, hb.depth, hb.stack⟩
      exact Op.gives_pure (steps_of_same hs₁ (stepActs_of_ne hne hn hs.id (hb₂.goto rfl)))
    · split
      · exact Op.gives_pure (steps_yield hs hb.nextFrame fun _ =>
          stepActs_of_ne hne hn hs.id (hb₁.goto rfl))
      · exact Op.gives_pure (steps_of_same (hs.goto _) (stepActs_of_ne hne hn hs.id (hb₁.goto rfl)))

/-- What `b6b_on_res` leaves of the fiber that calls it, which was as `t` in the heap `h`. -/
structure Completes (N : Num F) (h : Heap F) (us : Addr) (res : Res) (t u : Fiber S) : Prop where
  konts : u.konts = t.konts
  ctl : u.ctl = .ret (if res = .yield then .ok else res)
  stack : u.stack = t.stack ∨
    ∃ ls h', localsSet N us t.ret t.curr h = .ok ls h' ∧ u.stack = ls :: t.prev

/-- `_` is bound in the frame behind that of the statement. -/
theorem onRes_fibers (res : Res) (h : Heap F) : Op.Ends (σ.onRes N res) h (fun σ' _ =>
    ∀ u ∈ σ'.fibers, (∃ v ∈ σ.before ++ σ.after, u = v ∨ u = v.swapIn) ∨
      Completes N h σ.shared.us res σ.fg u) fun _ => True := by
  unfold onRes
  by_cases hy : res = .yield
  · rw [if_pos hy]
    obtain ⟨-, hfibers⟩ := yield_fibers σ fun _ => .ret .ok
    refine Op.ends_pure fun u hu => (hfibers u hu).imp_right fun ⟨y, hu⟩ => ?_
    rcases hu with rfl | rfl
    · exact ⟨rfl, by rw [if_pos hy]; rfl, .inl rfl⟩
    · exact ⟨rfl, by rw [if_pos hy]; rfl, .inl rfl⟩
  · rw [if_neg hy]
    refine Op.ends_bind_of fun σ₁ h₁ hset => ?_
    obtain ⟨ls, h₂, hls, hσ₁⟩ := Op.bind_eq_ok.mp hset
    obtain ⟨rfl, -⟩ := Outcome.ok.inj hσ₁
    have hcomp : ∀ {u : Fiber S}, u.konts = σ.fg.konts → u.ctl = .ret res →
        u.stack = ls :: σ.fg.prev → Completes N h σ.shared.us res σ.fg u := by
      intro u hk hctl hstack
      exact ⟨hk, by rw [hctl, if_neg hy], .inr ⟨ls, h₂, hls, hstack⟩⟩
    have here : ∀ {σ' : Interp S}, σ'.before = σ.before → σ'.after = σ.after →
        Completes N h σ.shared.us res σ.fg σ'.fg → ∀ u ∈ σ'.fibers,
          (∃ v ∈ σ.before ++ σ.after, u = v ∨ u = v.swapIn) ∨
            Completes N h σ.shared.us res σ.fg u := by
      intro σ' hbefore hafter hfg u hu
      rcases List.mem_append.mp hu with hu | hu
      · exact .inl ⟨u, List.mem_append_left _ (hbefore ▸ hu), .inl rfl⟩
      · rcases List.mem_cons.mp hu with rfl | hu
        · exact .inr hfg
        · exact .inl ⟨u, List.mem_append_right _ (hafter ▸ hu), .inl rfl⟩
    split
    · exact Op.ends_pure (here rfl rfl (hcomp rfl rfl rfl))
    · split
      · refine Op.ends_pure fun u hu => ?_
        refine ((yield_fibers _ _).2 u hu).imp_right fun ⟨y, hu⟩ => ?_
        rcases hu with rfl | rfl
        · exact hcomp rfl rfl rfl
        · exact hcomp rfl rfl rfl
      · exact Op.ends_pure (here rfl rfl (hcomp rfl rfl rfl))

/-- The last statement of a fiber has returned. -/
theorem threadEnd_steps {σ' : Interp S} {res : Res} {ks : List Kont}
    (hctl : σ.fg.ctl = .ret res) (hks : σ.fg.konts = .thread :: ks)
    (h : σ.pop.threadEnd = some σ') : Steps i σ σ' := by
  obtain ⟨hnf, hfibers⟩ := swap_fibers h
  refine ⟨Nat.le_of_eq hnf.symm, fun u hu => ?_⟩
  refine (hfibers u hu).imp_right fun hu => .inl ?_
  subst hu
  refine ⟨rfl, acts_swapOut ?_⟩
  have htop : σ.fg.top = 0 := by simp [Fiber.top, hctl, hks, activeIn, Kont.stmts]
  have hrest : σ.fg.rest = σ.fg.konts.tail := by simp [Fiber.rest, hctl]
  obtain ⟨ls, hls⟩ := exists_rebound i σ.fg.stack
  rw [htop, hrest, hnf]
  exact .binds [] ls rfl rfl (Nat.le_refl _) rfl rfl hls

/-- A fiber returns to the innermost call that waits. -/
theorem ret_steps {res : Res} (hctl : σ.fg.ctl = .ret res) :
    Op.Gives (σ.ret (F := F) res) (Steps i σ) := by
  unfold ret
  rcases hks : σ.fg.konts with _ | ⟨k, ks⟩ <;> dsimp only
  · exact Op.gives_crash
  have htop : σ.fg.top = k.stmts := by simp [Fiber.top, hctl, hks, activeIn]
  have hrest : σ.fg.rest = σ.fg.konts.tail := by simp [Fiber.rest, hctl]
  by_cases hth : k = .thread
  · subst hth
    unfold resume
    rcases hend : σ.pop.threadEnd with _ | σ' <;> dsimp only
    · exact Op.gives_crash
    · exact Op.gives_pure (threadEnd_steps hctl hks hend)
  · have hacts : ∀ {σ' : Interp S}, σ'.fg.id = σ.fg.id → Acts i k.stmts σ.pop σ' →
        StepActs i σ σ'.nextFrame σ'.fg := fun hid ha => ⟨hid, by
      rw [htop, hrest]
      exact acts_pop ha⟩
    have ha : Op.Gives (σ.pop.resume (F := F) res k) (Acts i k.stmts σ.pop) := resume_acts res hth
    rcases hsaved : k.saved with _ | e
    · intro h
      refine (((resume_own res hsaved hth).and ha) h).mono (fun σ' _ hx => ?_) fun _ => id
      have hs : Same σ σ' σ.exit σ.qstep σ.fg.finals := (own_pop hks hsaved).trans hx.1
      exact steps_of_same hs (hacts hs.id hx.2)
    · cases k with
      | tryFinally r eres e' o =>
        intro h
        refine (((resume_finally res r eres e' o).and ha) h).mono (fun σ' _ hx => ?_) fun _ => id
        have hs : Same σ σ' e' σ.qstep σ.pop.fg.finals :=
          ⟨hx.1.shared, hx.1.exit, hx.1.qstep, hx.1.nextId, hx.1.before, hx.1.after, hx.1.id, hx.1.finals⟩
        exact steps_of_same hs (hacts hs.id hx.2)
      | _ => cases hsaved

/-- A procedure is called. -/
theorem invoke_steps (nat : Natives N S I) (inp : Input I) (h : Heap F) {args : Addr}
    (hctl : σ.fg.ctl = .invoke args) :
    Op.Ends (σ.invoke nat inp args) h (fun σ' _ => Steps (σ.bindsAt h) σ σ') fun _ => True := by
  have hne : ∀ r, σ.fg.ctl ≠ .ret r := fun r hr => nomatch hctl.symm.trans hr
  have hn : σ.fg.ctl.stmts = 0 := by rw [hctl]; rfl
  refine Op.returns_bind (items_returns args h) ?_
  rintro lis _ ⟨rfl, -, hlis⟩
  rcases lis with _ | ⟨li, lis⟩
  · exact Op.ends_crash
  have hi : σ.bindsAt h = (h.obj li.o).proc.bindsAt := by simp [bindsAt, hctl, hlis]
  rw [hi]
  refine ends_load_bind fun _ => ?_
  cases hproc : (h.obj li.o).proc with
  | obj => exact works_steps hne hn (objProc_works _ _) _
  | builtin b =>
    by_cases hspawn : b = .spawn
    · subst hspawn
      exact spawn_steps args hne hn _
    · by_cases hmap : b = .map
      · subst hmap
        exact map_steps args hne hn _
      · exact works_steps hne hn (builtin_works inp args hspawn hmap) _
  | user body priv => exact works_steps hne hn (procProc_works _ _ _) _
  | native n =>
    exact Op.ends_pure (steps_of_same ((own_refl σ).goto _) (stepActs_of_ne hne hn rfl ((binds_refl _ σ).goto rfl)))

/-- **What a step does to the frames**, from any heap. -/
theorem step_steps (nat : Natives N S I) (inp : Input I) (σ : Interp S) (h : Heap F) :
    Op.Ends (σ.step nat inp) h (fun σ' _ => Steps (σ.bindsAt h) σ σ') fun _ => True := by
  have hσ := own_refl σ
  have hb := binds_refl (σ.bindsAt h) σ
  have own : ∀ {x : Op (Heap F) (Interp S)} {c : Ctl S}, σ.fg.ctl = c → (∀ r, c ≠ .ret r) →
      Op.Gives x (Own σ) → Op.Gives x (Acts (σ.bindsAt h) c.stmts σ) →
      Op.Ends x h (fun σ' _ => Steps (σ.bindsAt h) σ σ') fun _ => True := by
    intro x c hc hne ho ha
    subst hc
    exact steps_own hne ho ha h
  unfold step
  cases hctl : σ.fg.ctl with
  | begin =>
    dsimp only
    cases σ.fg.fn with
    | some fn => exact own hctl nofun (Op.gives_pure (hσ.push rfl _)) (Op.gives_pure (hb.push rfl))
    | none => exact Op.ends_crash
  | call stmts => exact own hctl nofun (call_own stmts) (call_acts stmts)
  | callAt stmts li => exact own hctl nofun (callAt_own stmts li) (callAt_acts stmts li)
  | stmt stmt => exact own hctl nofun (stmtCall_own stmt) (stmtCall_acts stmt)
  | argAt stmt li vs => exact own hctl nofun (argAt_own inp stmt vs li) (argAt_acts inp stmt vs li)
  | invoke args => exact invoke_steps nat inp h hctl
  | eval exp =>
    have hne : ∀ r, σ.fg.ctl ≠ .ret r := fun r hr => nomatch hctl.symm.trans hr
    exact works_steps hne (by rw [hctl]; rfl) (eval_works exp) h
  | mapAt ks l b li r =>
    have hi : σ.bindsAt h = some 0 := by simp [bindsAt, hctl]
    exact own hctl nofun (mapAt_own ks l b r li) (hi ▸ mapAt_acts ks l b r li)
  | tryEnd res eres f =>
    have hne : ∀ r, σ.fg.ctl ≠ .ret r := fun r hr => nomatch hctl.symm.trans hr
    have hn : σ.fg.ctl.stmts = 0 := by rw [hctl]; rfl
    cases f with
    | some f =>
      have hs : Same σ (σ.tryEnd res eres (some f)) false σ.qstep (σ.exit :: σ.fg.finals) :=
        ⟨rfl, rfl, rfl, rfl, rfl, rfl, rfl, rfl⟩
      exact Op.ends_pure (steps_of_same hs (stepActs_of_ne hne hn rfl (hb.push rfl)))
    | none => exact own hctl nofun (Op.gives_pure (hσ.goto _)) (Op.gives_pure (hb.goto rfl))
  | native s y =>
    have hne : ∀ r, σ.fg.ctl ≠ .ret r := fun r hr => nomatch hctl.symm.trans hr
    have hn : σ.fg.ctl.stmts = 0 := by rw [hctl]; rfl
    refine Op.ends_bind_of fun r h' _ => ?_
    rcases r with _ | s' | r
    · exact Op.ends_pure (steps_of_same (hσ.goto _) (stepActs_of_ne hne hn rfl (hb.goto rfl)))
    · exact Op.ends_pure (steps_yield hσ rfl fun y => stepActs_of_ne hne hn rfl (hb.goto rfl))
    · exact Op.ends_pure (steps_of_same (hσ.finish r)
        (stepActs_of_ne hne hn (hσ.finish r).id (hb.finish r)))
  | onRes res =>
    have hi : σ.bindsAt h = some 0 := by simp [bindsAt, hctl]
    exact hi ▸ onRes_steps hctl h
  | ret res => exact ret_steps hctl h
  | join =>
    have hne : ∀ r, σ.fg.ctl ≠ .ret r := fun r hr => nomatch hctl.symm.trans hr
    have hn : σ.fg.ctl.stmts = 0 := by rw [hctl]; rfl
    have hb₁ : Binds (σ.bindsAt h) σ { σ with exit := true } := ⟨rfl, rfl, rfl, rfl, hb.stack⟩
    have hs : Same σ ({ σ with exit := true }.goto .sweep) true σ.qstep σ.fg.finals :=
      ⟨rfl, rfl, rfl, rfl, rfl, rfl, rfl, rfl⟩
    exact Op.ends_pure (steps_of_same hs (stepActs_of_ne hne hn rfl (hb₁.goto rfl)))
  | sweep =>
    have hne : ∀ r, σ.fg.ctl ≠ .ret r := fun r hr => nomatch hctl.symm.trans hr
    have hn : σ.fg.ctl.stmts = 0 := by rw [hctl]; rfl
    refine Op.ends_pure (steps_yield hσ rfl fun y => stepActs_of_ne hne hn rfl (hb.goto ?_))
    cases y <;> rfl
  | halt => exact Op.ends_crash
  | dead => exact Op.ends_crash

end Own

end Interp

theorem Machine.step_steps {nat : Natives N S I} {m m' : Machine F S} {inp : Input I}
    (h : m.step nat inp = some m') :
    Interp.Steps (m.interp.bindsAt m.heap) m.interp m'.interp :=
  (Interp.step_steps nat inp m.interp m.heap).ok (Machine.step_eq_some h)

theorem Machine.onRes_fibers {nat : Natives N S I} {m m' : Machine F S} {inp : Input I} {res : Res}
    (hctl : m.interp.fg.ctl = .onRes res) (h : m.step nat inp = some m') :
    ∀ u ∈ m'.interp.fibers, (∃ v ∈ m.interp.before ++ m.interp.after, u = v ∨ u = v.swapIn) ∨
      Interp.Completes N m.heap m.interp.shared.us res m.interp.fg u := by
  unfold Machine.step Interp.step at h
  rw [hctl] at h
  rcases hx : m.interp.onRes N res m.heap with σ | h' | _ <;> dsimp only at h <;> rw [hx] at h
  · obtain rfl := Option.some.inj h
    exact (Interp.onRes_fibers res m.heap).ok hx
  · cases h
  · cases h

end B6b
