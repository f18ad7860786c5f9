/-
# What a procedure does

A procedure finishes, goes on with an evaluation or a call, or waits for its body (`Works`).
Before, it binds variables in one frame of the foreground fiber at most, or global ones, and
changes nothing else (`Rebinds`). `builtin_works` says so of the procedures that are modelled,
but for `map`, which gets to its loop, and `spawn`, which starts a fiber.

What the next modules say about the calls of procedures follows from it: what they leave of
the exit flag, of the frames and of the loops.

Key definitions: `Interp.Rebinds`, `Interp.Works`.
-/
import B6b.Touches

namespace B6b

variable {F S I : Type} {N : Num F}

/-- The frame that a procedure binds variables in, if it does, counted from that of its own
statement. -/
def Proc.bindsAt : Proc → Option ℕ
  | .user _ _ => some 0
  | .builtin .loc => some 1
  | .builtin .export => some 2
  | _ => none

/-- The frames, with other variables in the one at `i`. -/
def rebound (i : Option ℕ) (ls : Locals) (fs : List Locals) : List Locals :=
  match i with
  | some i => fs.set i ls
  | none => fs

theorem length_rebound (i : Option ℕ) (ls : Locals) (fs : List Locals) :
    (rebound i ls fs).length = fs.length := by
  cases i with
  | none => rfl
  | some i => exact List.length_set

/-- The variables of the frames, those of the current one first, without the global ones. -/
def Fiber.stack (t : Fiber S) : List Locals := t.curr :: t.prev

/-- What the fiber does next, when a procedure or an evaluation goes on. -/
def Ctl.ofProc : Ctl S → Bool
  | .ret _ | .call _ | .stmt _ | .eval _ => true
  | _ => false

/-- A procedure that binds variables in the frame `i` waits, for its body or for its first block. -/
def Kont.ofProc (i : Option ℕ) : Kont → Bool
  | .proc _ => i = some 0
  | .loop _ | .tryBody _ _ => true
  | _ => false

namespace Interp

/-- A binding may leave the frames as they are. -/
theorem exists_rebound (i : Option ℕ) (fs : List Locals) : ∃ ls, fs = rebound i ls fs := by
  cases i with
  | none => exact ⟨[], rfl⟩
  | some i =>
    by_cases hi : i < fs.length
    · exact ⟨fs[i], (List.set_getElem_self hi).symm⟩
    · exact ⟨[], (List.set_eq_of_length_le (by omega)).symm⟩

theorem rebound_rebound (i : Option ℕ) (ls ls' : Locals) (fs : List Locals) :
    rebound i ls' (rebound i ls fs) = rebound i ls' fs := by
  cases i with
  | none => rfl
  | some i => exact List.set_set ..

/-- `σ₁` is `σ` but for global variables, those in the frame `i` and the object to return. -/
structure Rebinds (i : Option ℕ) (σ σ₁ : Interp S) : Prop where
  shared : σ₁.shared = σ.shared
  exit : σ₁.exit = σ.exit
  qstep : σ₁.qstep = σ.qstep
  nextId : σ₁.nextId = σ.nextId
  nextFrame : σ₁.nextFrame = σ.nextFrame
  before : σ₁.before = σ.before
  after : σ₁.after = σ.after
  id : σ₁.fg.id = σ.fg.id
  konts : σ₁.fg.konts = σ.fg.konts
  frames : σ₁.fg.frames = σ.fg.frames
  depth : σ₁.fg.depth = σ.fg.depth
  stack : ∃ ls, σ₁.fg.stack = rebound i ls σ.fg.stack

/-- **What a procedure does.** -/
inductive Works (i : Option ℕ) (σ σ' : Interp S) : Prop
  | goes (σ₁ : Interp S) (c : Ctl S) (hb : Rebinds i σ σ₁) (hc : c.ofProc = true) (h : σ' = σ₁.goto c)
  | calls (σ₁ : Interp S) (k : Kont) (c : Ctl S) (hb : Rebinds i σ σ₁) (hk : k.ofProc i = true)
      (hc : c.ofProc = true) (h : σ' = σ₁.push k c)

section Works

variable {σ σ₁ : Interp S} {i : Option ℕ}

theorem rebinds_refl (i : Option ℕ) (σ : Interp S) : Rebinds i σ σ :=
  ⟨rfl, rfl, rfl, rfl, rfl, rfl, rfl, rfl, rfl, rfl, rfl, exists_rebound _ _⟩

theorem rebinds_global (i : Option ℕ) (σ : Interp S) (ls : Locals) : Rebinds i σ { σ with global := ls } :=
  ⟨rfl, rfl, rfl, rfl, rfl, rfl, rfl, rfl, rfl, rfl, rfl, exists_rebound _ _⟩

theorem Rebinds.setRet (h : Rebinds i σ σ₁) (o : Addr) : Rebinds i σ (σ₁.setRet o) :=
  ⟨h.shared, h.exit, h.qstep, h.nextId, h.nextFrame, h.before, h.after, h.id, h.konts, h.frames, h.depth,
    h.stack⟩

theorem Rebinds.goto (h : Rebinds i σ σ₁) {c : Ctl S} (hc : c.ofProc = true) : Works i σ (σ₁.goto c) :=
  .goes σ₁ c h hc rfl

theorem Rebinds.push (h : Rebinds i σ σ₁) {k : Kont} (hk : k.ofProc i = true) {c : Ctl S}
    (hc : c.ofProc = true) : Works i σ (σ₁.push k c) :=
  .calls σ₁ k c h hk hc rfl

theorem Rebinds.finish (h : Rebinds i σ σ₁) (r : Reply) : Works i σ (σ₁.finish r) := by
  obtain ⟨res, _ | o⟩ := r
  · exact h.goto rfl
  · exact (h.setRet o).goto rfl

theorem setAt_rebinds (i : ℕ) (k v : Addr) (σ : Interp S) :
    Op.Gives (setAt N i k v σ) (Rebinds (some i) σ) := by
  cases i with
  | zero =>
    exact Op.gives_of_bind fun ls => Op.gives_pure ⟨rfl, rfl, rfl, rfl, rfl, rfl, rfl, rfl, rfl, rfl, rfl, ls, rfl⟩
  | succ i =>
    unfold setAt
    dsimp only
    cases σ.fg.prev[i]? with
    | some f =>
      exact Op.gives_of_bind fun ls =>
        Op.gives_pure ⟨rfl, rfl, rfl, rfl, rfl, rfl, rfl, rfl, rfl, rfl, rfl, ls, rfl⟩
    | none => exact Op.gives_of_bind fun ls => Op.gives_pure (rebinds_global _ σ ls)

theorem get_works (name : Addr) {found : Addr → Op (Heap F) (Interp S)}
    (hf : ∀ o, Op.Gives (found o) (Works i σ)) : Op.Gives (σ.get N name found) (Works i σ) := by
  refine Op.gives_of_bind fun s => Op.gives_of_bind fun r => ?_
  cases r with
  | some o => exact hf o
  | none => exact Op.gives_of_bind fun m => Op.gives_pure ((rebinds_refl i σ).finish _)

/-- An evaluation finishes, or goes on with a statement. -/
theorem eval_works (exp : Addr) : Op.Gives (σ.eval N exp) (Works i σ) := by
  have hσ := rebinds_refl i σ
  refine Op.gives_of_bind fun s => ?_
  split
  · exact Op.gives_of_bind fun o => get_works o fun o => Op.gives_pure (hσ.finish _)
  · split
    · exact Op.gives_of_bind fun m => Op.gives_pure (hσ.finish _)
    · split
      · exact Op.gives_pure (hσ.goto rfl)
      · exact Op.gives_of_bind fun lis => Op.gives_of_bind fun stmt => Op.gives_pure (hσ.goto rfl)
  · exact Op.gives_pure (hσ.finish _)

theorem getArgsThen_works {args : Addr} {fmt : String} {skip : Bool}
    {body : List Addr → Op (Heap F) (Interp S)} (hbody : ∀ xs, Op.Gives (body xs) (Works i σ)) :
    Op.Gives (getArgsThen N args fmt skip σ.finish body) (Works i σ) := by
  refine Op.gives_of_bind fun r => ?_
  cases r with
  | some xs => exact hbody xs
  | none => exact Op.gives_of_bind fun m => Op.gives_pure ((rebinds_refl i σ).finish _)

theorem exportTo_works (k v : Addr) : Op.Gives (σ.exportTo N k v) (Works (some 2) σ) := by
  unfold exportTo
  split
  · exact Op.gives_pure ((rebinds_refl _ σ).goto rfl)
  · exact Op.gives_bind (setAt_rebinds 2 k v σ) fun _ h => Op.gives_pure (h.finish _)

theorem objProc_works (decode : Bytes → Option (List Bytes)) (args : Addr) :
    Op.Gives (σ.objProc N decode args) (Works i σ) := by
  have hσ := rebinds_refl i σ
  refine getArgsThen_works fun xs => ?_
  split
  · refine Op.gives_of_bind fun s => Op.gives_of_bind fun op => ?_
    split
    · exact Op.gives_pure (hσ.goto rfl)
    · split
      · exact Op.gives_of_bind fun lis => Op.gives_of_bind fun l => Op.gives_pure (hσ.finish _)
      · exact Op.gives_pure (hσ.goto rfl)
  · exact Op.gives_crash

/-- A procedure binds its arguments in the frame of the statement. -/
theorem procProc_works (args body priv : Addr) :
    Op.Gives (σ.procProc N args body priv) (Works (some 0) σ) := by
  refine Op.gives_of_bind fun ls => Op.gives_of_bind fun ls' => Op.gives_pure ?_
  have hls : Rebinds (some 0) σ { σ with fg := { σ.fg with curr := ls' } } :=
    ⟨rfl, rfl, rfl, rfl, rfl, rfl, rfl, rfl, rfl, rfl, rfl, ls', rfl⟩
  exact hls.push rfl rfl

/-- **What the procedures that are modelled do**, `spawn` and `map` apart. -/
theorem builtin_works (inp : Input I) (args : Addr) {b : Builtin} (hspawn : b ≠ .spawn) (hmap : b ≠ .map) :
    Op.Gives (σ.builtin N inp args b) (Works (Proc.bindsAt (.builtin b)) σ) := by
  have hσ : ∀ i, Rebinds i σ σ := fun i => rebinds_refl i σ
  cases b with
  | loc =>
    refine getArgsThen_works fun xs => ?_
    split
    · exact Op.gives_bind (setAt_rebinds 1 _ _ σ) fun _ h => Op.gives_pure (h.finish _)
    · exact Op.gives_crash
  | glob =>
    refine getArgsThen_works fun xs => ?_
    split
    · exact Op.gives_of_bind fun ls => Op.gives_pure ((rebinds_global _ σ ls).finish _)
    · exact Op.gives_crash
  | «export» =>
    refine getArgsThen_works fun xs => ?_
    split
    · exact exportTo_works _ _
    · exact get_works _ fun v => exportTo_works _ v
    · exact Op.gives_pure ((hσ _).goto rfl)
  | eval =>
    refine getArgsThen_works fun xs => ?_
    split
    · exact Op.gives_of_bind fun s => Op.gives_pure ((hσ _).goto rfl)
    · exact Op.gives_crash
  | call =>
    refine getArgsThen_works fun xs => ?_
    split
    · exact Op.gives_pure ((hσ _).goto rfl)
    · exact Op.gives_crash
  | spawn => exact absurd rfl hspawn
  | source =>
    refine getArgsThen_works fun xs => ?_
    split
    · refine Op.gives_of_bind fun s => ?_
      split
      · exact Op.gives_pure ((hσ _).goto rfl)
      · split
        · exact Op.gives_of_bind fun stmts => Op.gives_pure ((hσ _).goto rfl)
        · exact Op.gives_pure ((hσ _).goto rfl)
    · exact Op.gives_crash
  | cond =>
    refine getArgsThen_works fun xs => ?_
    split
    · refine Op.gives_of_bind fun o => ?_
      split
      · exact Op.gives_pure ((hσ _).goto rfl)
      · split
        · exact Op.gives_pure ((hσ _).goto rfl)
        · exact Op.gives_pure ((hσ _).goto rfl)
    · exact Op.gives_crash
  | map => exact absurd rfl hmap
  | loop =>
    refine getArgsThen_works fun xs => ?_
    split
    · exact Op.gives_pure ((hσ _).push rfl rfl)
    · exact Op.gives_crash
  | «try» =>
    refine getArgsThen_works fun xs => ?_
    split
    · exact Op.gives_pure ((hσ _).push rfl rfl)
    · exact Op.gives_pure ((hσ _).push rfl rfl)
    · exact Op.gives_pure ((hσ _).push rfl rfl)
    · exact Op.gives_crash
  | proc =>
    refine getArgsThen_works fun xs => ?_
    split
    · refine Op.gives_of_bind fun s => Op.gives_of_bind fun o => ?_
      split
      · exact Op.gives_pure ((hσ _).finish _)
      · exact Op.gives_of_bind fun ls => Op.gives_pure ((rebinds_global _ σ ls).finish _)
    · exact Op.gives_crash
  | _ => exact Op.gives_of_bind fun r => Op.gives_pure ((hσ _).finish r)

/-- `map` gets to its loop, or fails. -/
theorem loopProcMap_works (args : Addr) : Op.Gives (σ.loopProcMap N args) fun σ' => Works i σ σ' ∨
    ∃ ks l b li, σ' = σ.goto (.mapAt ks l b li []) := by
  have hσ := rebinds_refl i σ
  refine Op.gives_of_bind fun r => ?_
  cases r with
  | some xs =>
    dsimp only
    split
    · refine Op.gives_of_bind fun kis => ?_
      split
      · exact Op.gives_pure (.inl (hσ.goto rfl))
      · exact Op.gives_of_bind fun lis => Op.gives_pure (.inr ⟨_, _, _, _, rfl⟩)
    · exact Op.gives_crash
  | none => exact Op.gives_of_bind fun m => Op.gives_pure (.inl (hσ.finish _))

/-- `spawn` starts a fiber, or its arguments do not fit. -/
theorem coreProcSpawn_works (args : Addr) : Op.Gives (σ.coreProcSpawn N args) fun σ' => Works i σ σ' ∨
    ∃ fn, σ' = (σ.start fn).goto (.ret .ok) := by
  refine Op.gives_of_bind fun r => ?_
  cases r with
  | some xs =>
    dsimp only
    split
    · exact Op.gives_pure (.inr ⟨_, rfl⟩)
    · exact Op.gives_crash
  | none => exact Op.gives_of_bind fun m => Op.gives_pure (.inl ((rebinds_refl i σ).finish _))

end Works

end Interp

end B6b
