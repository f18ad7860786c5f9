/-
# What waits for a call does not matter to it

A step looks at the innermost call that waits, and at no other one. So what a call does, and
what it returns, is the same whatever calls wait for it: `under` puts calls under all that a
fiber has, and a step of the fiber leaves them there until it has returned to them
(`step_under`, `runTo_under`).

Key definitions: `Interp.under`, `Machine.under`.
-/
import B6b.Nesting

namespace B6b

variable {F S I : Type} {N : Num F}

/-- The fiber `id` has the calls `K` under its own. -/
def Fiber.under (id : ℕ) (K : List Kont) (t : Fiber S) : Fiber S :=
  { t with konts := if t.id = id then t.konts ++ K else t.konts }

theorem Fiber.under_of_ne {id : ℕ} (K : List Kont) {t : Fiber S} (h : t.id ≠ id) :
    t.under id K = t := by
  unfold under
  rw [if_neg h]

theorem Fiber.under_self {id : ℕ} (K : List Kont) {t : Fiber S} (h : t.id = id) :
    t.under id K = { t with konts := t.konts ++ K } := by
  unfold under
  rw [if_pos h]

namespace Interp

/-- The fiber `id` has the calls `K` under its own. -/
def under (id : ℕ) (K : List Kont) (σ : Interp S) : Interp S :=
  { σ with
    before := σ.before.map (Fiber.under id K)
    fg := σ.fg.under id K
    after := σ.after.map (Fiber.under id K) }

section Under

variable {id : ℕ} {K : List Kont} {σ : Interp S}

/-! ### The foreground fiber -/

theorem goto_under (c : Ctl S) : (σ.under id K).goto c = (σ.goto c).under id K := rfl

theorem finish_under (r : Reply) : (σ.under id K).finish r = (σ.finish r).under id K := by
  obtain ⟨res, _ | o⟩ := r
  · rfl
  · rfl

theorem push_under (k : Kont) (c : Ctl S) : (σ.under id K).push k c = (σ.push k c).under id K := by
  have hkonts : k :: (if σ.fg.id = id then σ.fg.konts ++ K else σ.fg.konts) =
      if σ.fg.id = id then k :: σ.fg.konts ++ K else k :: σ.fg.konts := by
    split <;> rfl
  unfold push under Fiber.under
  dsimp only
  rw [hkonts]

/-- A call that waits is the fiber's own. -/
theorem pop_under (h : σ.fg.konts ≠ []) : (σ.under id K).pop = σ.pop.under id K := by
  have hkonts : (if σ.fg.id = id then σ.fg.konts ++ K else σ.fg.konts).tail =
      if σ.fg.id = id then σ.fg.konts.tail ++ K else σ.fg.konts.tail := by
    split
    · exact List.tail_append_of_ne_nil h
    · rfl
  unfold pop under Fiber.under
  dsimp only
  rw [hkonts]

/-! ### Variables -/

theorem setAt_under (i : ℕ) (k v : Addr) :
    setAt N i k v (σ.under id K) = Op.map (under id K) (setAt N i k v σ) := by
  cases i with
  | zero => exact Op.map_of_bind fun ls => rfl
  | succ i =>
    have hprev : (σ.under id K).fg.prev[i]? = σ.fg.prev[i]? := rfl
    unfold setAt
    dsimp only
    rw [hprev]
    cases σ.fg.prev[i]? with
    | some f => exact Op.map_of_bind fun ls => rfl
    | none => exact Op.map_of_bind fun ls => rfl

theorem get_under (name : Addr) {found found' : Addr → Op (Heap F) (Interp S)}
    (hf : ∀ o, found' o = Op.map (under id K) (found o)) :
    (σ.under id K).get N name found' = Op.map (under id K) (σ.get N name found) := by
  refine Op.map_of_bind fun s => Op.map_of_bind fun r => ?_
  cases r with
  | some o => exact hf o
  | none => exact Op.map_of_bind fun m => congrArg pure (finish_under _)

theorem framePop_under :
    (σ.under id K).framePop (F := F) = Op.map (under id K) σ.framePop := by
  have hprev : (σ.under id K).fg.prev = σ.fg.prev := rfl
  unfold framePop
  rw [hprev]
  cases σ.fg.prev with
  | cons f fs => rfl
  | nil => rfl

/-- A frame is popped, and the statement has its result. -/
theorem popGoto_under (res : Res) : (do
    let σ ← (σ.under id K).framePop (F := F)
    pure (σ.goto (.onRes res))) = Op.map (under id K) (do
    let σ ← σ.framePop (F := F)
    pure (σ.goto (.onRes res))) :=
  Op.map_bind framePop_under fun _ => rfl

/-! ### Switching -/

theorem splitPending_under : ∀ ts : List (Fiber S), splitPending (ts.map (Fiber.under id K)) =
    (splitPending ts).map fun p =>
      (p.1.map (Fiber.under id K), p.2.1.under id K, p.2.2.map (Fiber.under id K))
  | [] => rfl
  | t :: ts => by
    have hpending : (t.under id K).pending = t.pending := rfl
    unfold splitPending
    rw [List.map_cons]
    dsimp only
    rw [hpending, splitPending_under ts]
    cases t.pending with
    | true => rfl
    | false =>
      rcases splitPending ts with _ | ⟨as, u, bs⟩
      · rfl
      · rfl

theorem wait_under : (σ.under id K).wait = σ.wait.under id K := by
  have hfilter : ∀ ts : List (Fiber S), (ts.map (Fiber.under id K)).filter (!·.done) =
      (ts.filter (!·.done)).map (Fiber.under id K) := fun ts => by
    rw [List.filter_map]
    rfl
  unfold wait under
  dsimp only
  rw [hfilter, hfilter]

theorem swapTo_under (before after : List (Fiber S)) (t : Fiber S) :
    (σ.under id K).swapTo (before.map (Fiber.under id K)) (t.under id K)
      (after.map (Fiber.under id K)) = (σ.swapTo before t after).under id K := by
  have hnew : (t.under id K).isNew = t.isNew := rfl
  unfold swapTo
  dsimp only
  rw [hnew]
  cases t.isNew with
  | true => rfl
  | false => exact wait_under (σ := { σ with qstep := 0, before := before, fg := t.swapIn, after := after })

theorem swap_under : (σ.under id K).swap = σ.swap.map (under id K) := by
  have hbefore : (σ.under id K).before = σ.before.map (Fiber.under id K) := rfl
  have hafter : (σ.under id K).after = σ.after.map (Fiber.under id K) := rfl
  have hout : (σ.under id K).fg.swapOut = σ.fg.swapOut.under id K := rfl
  unfold swap
  rw [hbefore, hafter, splitPending_under, splitPending_under, hout]
  rcases splitPending σ.after with _ | ⟨as, t, bs⟩
  · rcases splitPending σ.before with _ | ⟨as, t, bs⟩
    · rfl
    · dsimp only [Option.map_none, Option.map_some]
      rw [← swapTo_under, List.map_append, List.map_cons]
  · dsimp only [Option.map_some]
    rw [← swapTo_under, List.map_append, List.map_cons]

theorem yield_under (c : Bool → Ctl S) : (σ.under id K).yield c = (σ.yield c).under id K := by
  unfold yield
  rw [goto_under, swap_under]
  rcases (σ.goto (c true)).swap with _ | σ'
  · rw [goto_under]
    exact wait_under
  · rfl

theorem threadEnd_under : (σ.under id K).threadEnd = σ.threadEnd.map (under id K) := by
  have hdone : ({ σ.under id K with fg := { (σ.under id K).fg with done := true } } : Interp S).goto .dead =
      (({ σ with fg := { σ.fg with done := true } } : Interp S).goto .dead).under id K := rfl
  unfold threadEnd
  rw [hdone]
  exact swap_under

/-- A new fiber is another one. -/
theorem start_under (fn : Addr) (hid : id < σ.nextId) :
    (σ.under id K).start fn = (σ.start fn).under id K := by
  have hnew : (Fiber.new σ.nextId σ.nextFrame fn σ.shared.null : Fiber S).under id K =
      .new σ.nextId σ.nextFrame fn σ.shared.null := Fiber.under_of_ne K (Nat.ne_of_gt hid)
  unfold start under
  dsimp only
  rw [List.map_cons, hnew]

/-! ### Evaluation -/

theorem eval_under (exp : Addr) :
    (σ.under id K).eval N exp = Op.map (under id K) (σ.eval N exp) := by
  refine Op.map_of_bind fun s => ?_
  split
  · exact Op.map_of_bind fun o => get_under o fun o => congrArg pure (finish_under _)
  · split
    · exact Op.map_of_bind fun m => congrArg pure (finish_under _)
    · split
      · rfl
      · exact Op.map_of_bind fun lis => Op.map_of_bind fun stmt => rfl
  · exact congrArg pure (finish_under _)

theorem call_under (stmts : Addr) :
    (σ.under id K).call N stmts = Op.map (under id K) (σ.call N stmts) := by
  refine Op.map_of_bind fun r => ?_
  cases r with
  | some lis => rfl
  | none => rfl

theorem callAt_under (stmts : Addr) (li : Option Litem) :
    (σ.under id K).callAt N stmts li = Op.map (under id K) (σ.callAt N stmts li) := by
  cases li with
  | none => rfl
  | some li =>
    refine Op.map_of_bind fun s => ?_
    split
    · exact Op.map_of_bind fun li' => rfl
    · exact congrArg pure (push_under _ _)

theorem stmtCall_under (stmt : Addr) :
    (σ.under id K).stmtCall N stmt = Op.map (under id K) (σ.stmtCall N stmt) := by
  have hexit : (σ.under id K).exit = σ.exit := rfl
  have hdepth : (σ.under id K).fg.depth = σ.fg.depth := rfl
  unfold stmtCall
  rw [hexit, hdepth]
  split
  · rfl
  · split
    · exact Op.map_of_bind fun m => rfl
    · refine Op.map_of_bind fun r => ?_
      cases r with
      | some lis => rfl
      | none => rfl

theorem argAt_under (inp : Input I) (stmt : Addr) (vs : List Addr) (li : Option Litem) :
    (σ.under id K).argAt N inp stmt vs li = Op.map (under id K) (σ.argAt N inp stmt vs li) := by
  cases li with
  | some li => exact Op.map_of_bind fun s => congrArg pure (push_under _ _)
  | none =>
    refine Op.map_of_bind fun args => ?_
    have htrace : (σ.under id K).opts.trace = σ.opts.trace := rfl
    have hcall : ((σ.under id K).setRet (σ.under id K).shared.null).push .stmtProc (.invoke args) =
        ((σ.setRet σ.shared.null).push .stmtProc (.invoke args)).under id K :=
      push_under (σ := σ.setRet σ.shared.null) _ _
    dsimp only
    rw [htrace, hcall]
    split
    · refine Op.map_of_bind fun s => ?_
      split
      · rfl
      · exact popGoto_under _
    · rfl

theorem onRes_under (res : Res) :
    (σ.under id K).onRes N res = Op.map (under id K) (σ.onRes N res) := by
  unfold onRes
  split
  · exact congrArg pure (yield_under _)
  · refine Op.map_bind (setAt_under (σ := { σ with qstep := σ.qstep + 1 }) 0 _ _) fun σ₁ => ?_
    have hqstep : (σ₁.under id K).qstep = σ₁.qstep := rfl
    rw [hqstep]
    split
    · rfl
    · split
      · exact congrArg pure (yield_under _)
      · rfl

/-! ### Procedures -/

theorem getArgsThen_under {args : Addr} {fmt : String} {skip : Bool}
    {body body' : List Addr → Op (Heap F) (Interp S)}
    (hbody : ∀ xs, body' xs = Op.map (under id K) (body xs)) :
    getArgsThen N args fmt skip (σ.under id K).finish body' =
      Op.map (under id K) (getArgsThen N args fmt skip σ.finish body) := by
  refine Op.map_of_bind fun r => ?_
  cases r with
  | some xs => exact hbody xs
  | none => exact Op.map_of_bind fun m => congrArg pure (finish_under _)

theorem exportTo_under (k v : Addr) :
    (σ.under id K).exportTo N k v = Op.map (under id K) (σ.exportTo N k v) := by
  have hprev : (σ.under id K).fg.prev = σ.fg.prev := rfl
  unfold exportTo
  rw [hprev]
  split
  · rfl
  · exact Op.map_bind (setAt_under 2 k v) fun σ₁ => congrArg pure (finish_under _)

theorem objProc_under (decode : Bytes → Option (List Bytes)) (args : Addr) :
    (σ.under id K).objProc N decode args = Op.map (under id K) (σ.objProc N decode args) := by
  refine getArgsThen_under fun xs => ?_
  split
  · refine Op.map_of_bind fun s => Op.map_of_bind fun op => ?_
    split
    · rfl
    · split
      · exact Op.map_of_bind fun lis => Op.map_of_bind fun l => congrArg pure (finish_under _)
      · rfl
  · rfl

theorem procProc_under (args body priv : Addr) :
    (σ.under id K).procProc N args body priv = Op.map (under id K) (σ.procProc N args body priv) := by
  refine Op.map_of_bind fun ls => Op.map_of_bind fun ls' => congrArg pure ?_
  exact push_under (σ := { σ with fg := { σ.fg with curr := ls' } }) _ _

theorem procProcProc_under (args : Addr) :
    (σ.under id K).procProcProc N args = Op.map (under id K) (σ.procProcProc N args) := by
  refine getArgsThen_under fun xs => ?_
  split
  · refine Op.map_of_bind fun s => Op.map_of_bind fun o => ?_
    split
    · exact congrArg pure (finish_under _)
    · refine Op.map_of_bind fun ls => congrArg pure ?_
      exact finish_under (σ := { σ with global := ls }) _
  · rfl

theorem builtin_under (inp : Input I) (args : Addr) (b : Builtin) (hid : id < σ.nextId) :
    (σ.under id K).builtin N inp args b = Op.map (under id K) (σ.builtin N inp args b) := by
  cases b with
  | loc =>
    refine getArgsThen_under fun xs => ?_
    split
    · exact Op.map_bind (setAt_under 1 _ _) fun σ₁ => congrArg pure (finish_under _)
    · rfl
  | glob =>
    refine getArgsThen_under fun xs => ?_
    split
    · refine Op.map_of_bind fun ls => congrArg pure ?_
      exact finish_under (σ := { σ with global := ls }) _
    · rfl
  | «export» =>
    refine getArgsThen_under fun xs => ?_
    split
    · exact exportTo_under _ _
    · exact get_under _ fun v => exportTo_under _ v
    · rfl
  | eval =>
    refine getArgsThen_under fun xs => ?_
    split
    · exact Op.map_of_bind fun s => rfl
    · rfl
  | call =>
    refine getArgsThen_under fun xs => ?_
    split
    · rfl
    · rfl
  | spawn =>
    refine getArgsThen_under fun xs => ?_
    split
    · rw [start_under _ hid]
      rfl
    · rfl
  | source =>
    refine getArgsThen_under fun xs => ?_
    split
    · refine Op.map_of_bind fun s => ?_
      split
      · rfl
      · split
        · exact Op.map_of_bind fun stmts => rfl
        · rfl
    · rfl
  | cond =>
    refine getArgsThen_under fun xs => ?_
    split
    · refine Op.map_of_bind fun o => ?_
      split
      · rfl
      · split
        · rfl
        · rfl
    · rfl
  | map =>
    refine getArgsThen_under fun xs => ?_
    split
    · refine Op.map_of_bind fun kis => ?_
      split
      · rfl
      · exact Op.map_of_bind fun lis => rfl
    · rfl
  | loop =>
    refine getArgsThen_under fun xs => ?_
    split
    · exact congrArg pure (push_under _ _)
    · rfl
  | «try» =>
    refine getArgsThen_under fun xs => ?_
    split
    · exact congrArg pure (push_under _ _)
    · exact congrArg pure (push_under _ _)
    · exact congrArg pure (push_under _ _)
    · rfl
  | proc => exact procProcProc_under args
  | nop | echo | «yield» | ret | cont | brk | throw | exit | repr | not | eq | ne | and | or | xor
  | range | listNew | listLen | listCopy | listAppend | listExtend | listIndex | listRange | listIn
  | listPop | dictGet | dictSet | dictUnset | add | sub | mul | div | mod | bitAnd | bitOr | bitXor
  | lt | le | gt | ge =>
    exact Op.map_of_bind fun r => congrArg pure (finish_under r)

theorem invoke_under (nat : Natives N S I) (inp : Input I) (args : Addr) (hid : id < σ.nextId) :
    (σ.under id K).invoke nat inp args = Op.map (under id K) (σ.invoke nat inp args) := by
  refine Op.map_of_bind fun lis => ?_
  cases lis with
  | nil => rfl
  | cons li lis =>
    refine Op.map_of_bind fun o => ?_
    cases o.proc with
    | obj => exact objProc_under _ _
    | builtin b => exact builtin_under inp args b hid
    | user body priv => exact procProc_under _ _ _
    | native n => rfl

theorem native_under (nat : Natives N S I) (inp : Input I) (s : S) (y : Bool) :
    (σ.under id K).native nat inp s y = Op.map (under id K) (σ.native nat inp s y) := by
  refine Op.map_of_bind fun r => ?_
  rcases r with _ | s' | r
  · rfl
  · exact congrArg pure (yield_under _)
  · exact congrArg pure (finish_under _)

/-! ### Loops and returns -/

/-- Both parts of what a turn of `map` binds. -/
def turnUnder (id : ℕ) (K : List Kont) (r : Option (Option Litem × Interp S)) :
    Option (Option Litem × Interp S) :=
  r.map fun p => (p.1, p.2.under id K)

theorem mapBind_under (l : Addr) (kis : List Litem) (li : Option Litem) (σ : Interp S) :
    mapBind N l kis li (σ.under id K) = Op.map (turnUnder id K) (mapBind N l kis li σ) := by
  induction kis generalizing li σ with
  | nil => rfl
  | cons kli kis ih =>
    cases li with
    | none => rfl
    | some li =>
      refine Op.map_of_bind fun o => Op.map_bind (setAt_under 0 kli.o o) fun σ₁ => ?_
      exact Op.map_of_bind fun li' => ih li' σ₁

theorem mapAt_under (ks l b : Addr) (r : List Addr) (li : Option Litem) :
    (σ.under id K).mapAt N ks l b r li = Op.map (under id K) (σ.mapAt N ks l b r li) := by
  cases li with
  | none => exact Op.map_of_bind fun o => congrArg pure (finish_under _)
  | some li =>
    refine Op.map_of_bind fun kis => Op.map_bind (mapBind_under l kis (some li) σ) fun r' => ?_
    rcases r' with _ | ⟨li', σ'⟩
    · exact Op.map_of_bind fun m => congrArg pure (finish_under _)
    · exact congrArg pure (push_under _ _)

theorem tryEnd_under (res eres : Res) (f : Option Addr) :
    (σ.under id K).tryEnd res eres f = (σ.tryEnd res eres f).under id K := by
  cases f with
  | some f => exact push_under (σ := { σ with exit := false }) _ _
  | none => rfl

theorem resume_under (res : Res) (k : Kont) :
    (σ.under id K).resume (F := F) res k = Op.map (under id K) (σ.resume res k) := by
  unfold resume
  cases k with
  | stmtArg stmt li vs =>
    dsimp only
    split
    · exact Op.map_of_bind fun li' => rfl
    · exact popGoto_under _
  | stmtProc => exact popGoto_under _
  | call stmts li =>
    dsimp only
    split
    · exact Op.map_of_bind fun li' => rfl
    · rfl
  | proc => rfl
  | map ks l b li r => cases res <;> rfl
  | loop b =>
    cases res with
    | ok => exact congrArg pure (push_under _ _)
    | brk | err | «yield» | cont | ret | exit => rfl
  | tryBody e f =>
    dsimp only
    split
    · cases e with
      | none => rfl
      | some e => exact congrArg pure (push_under _ _)
    · rfl
  | tryExcept f => rfl
  | tryFinally r eres e o =>
    dsimp only
    split
    · rfl
    · split
      · rfl
      · rfl
  | thread =>
    dsimp only
    rw [threadEnd_under]
    cases σ.threadEnd with
    | some σ' => rfl
    | none => rfl
  | main progs =>
    cases progs with
    | cons p ps =>
      dsimp only
      split
      · exact congrArg pure (push_under (σ := { σ with opts := p.1 }) _ _)
      · rfl
    | nil => rfl

/-! ### One step -/

/-- The fiber has returned from its last call. -/
def Returned (id : ℕ) (σ : Interp S) : Prop :=
  σ.fg.id = id ∧ σ.fg.konts = [] ∧ ∃ res, σ.fg.ctl = .ret res

theorem ret_under {res : Res} (hctl : σ.fg.ctl = .ret res) (hno : ¬ Returned id σ) :
    (σ.under id K).ret (F := F) res = Op.map (under id K) (σ.ret res) := by
  unfold ret
  rcases hks : σ.fg.konts with _ | ⟨k, ks⟩
  · -- it is another fiber, which has no call to return to
    have hne : σ.fg.id ≠ id := fun hid => hno ⟨hid, hks, res, hctl⟩
    have hfg : (σ.under id K).fg = σ.fg := Fiber.under_of_ne K hne
    rw [hfg, hks]
    rfl
  · have hfg : ∃ ks', (σ.under id K).fg.konts = k :: ks' := by
      change ∃ ks', (if σ.fg.id = id then σ.fg.konts ++ K else σ.fg.konts) = k :: ks'
      rw [hks]
      split
      · exact ⟨ks ++ K, rfl⟩
      · exact ⟨ks, rfl⟩
    obtain ⟨ks', hks'⟩ := hfg
    rw [hks']
    dsimp only
    rw [pop_under (by rw [hks]; exact List.cons_ne_nil _ _)]
    exact resume_under res k

/-- **A step does not look at what waits under the calls of a fiber**, unless the fiber has
returned from them. -/
theorem step_under (nat : Natives N S I) (inp : Input I) (hid : id < σ.nextId)
    (hno : ¬ Returned id σ) :
    (σ.under id K).step nat inp = Op.map (under id K) (σ.step nat inp) := by
  have hctl' : (σ.under id K).fg.ctl = σ.fg.ctl := rfl
  unfold step
  rw [hctl']
  cases hctl : σ.fg.ctl with
  | begin =>
    have hfn : (σ.under id K).fg.fn = σ.fg.fn := rfl
    dsimp only
    rw [hfn]
    cases σ.fg.fn with
    | some fn => exact congrArg pure (push_under _ _)
    | none => rfl
  | call stmts => exact call_under stmts
  | callAt stmts li => exact callAt_under stmts li
  | stmt stmt => exact stmtCall_under stmt
  | argAt stmt li vs => exact argAt_under inp stmt vs li
  | invoke args => exact invoke_under nat inp args hid
  | eval exp => exact eval_under exp
  | mapAt ks l b li r => exact mapAt_under ks l b r li
  | tryEnd res eres f => exact congrArg pure (tryEnd_under res eres f)
  | native s y => exact native_under nat inp s y
  | onRes res => exact onRes_under res
  | ret res => exact ret_under hctl hno
  | join => rfl
  | sweep => exact congrArg pure (yield_under _)
  | halt => rfl
  | dead => rfl

end Under

end Interp

/-! ### Every run -/

open Literals Nesting

/-- The fiber `id` has the calls `K` under its own. -/
def Machine.under (id : ℕ) (K : List Kont) (m : Machine F S) : Machine F S :=
  ⟨m.heap, m.interp.under id K⟩

section Runs

variable {nat : Natives N S I} {id : ℕ} {K : List Kont} {m : Machine F S} {inp : Input I}

theorem returned_under {σ : Interp S} : returned? K id (σ.under id K) = returned? [] id σ := by
  unfold returned?
  have hctl : (σ.under id K).fg.ctl = σ.fg.ctl := rfl
  rw [hctl]
  split
  · have hiff : ((σ.under id K).fg.konts = K ∧ (σ.under id K).fg.id = id) ↔
        (σ.fg.konts = [] ∧ σ.fg.id = id) := by
      refine and_congr_left fun hid : σ.fg.id = id => ?_
      change (if σ.fg.id = id then σ.fg.konts ++ K else σ.fg.konts) = K ↔ _
      rw [if_pos hid, List.append_left_eq_self]
    simp only [hiff]
  · rfl

theorem not_returned_of {σ : Interp S} (hno : returned? [] id σ = none) : ¬ Interp.Returned id σ := by
  rintro ⟨hid, hk, res, hctl⟩
  rw [returned_eq_some.mpr ⟨hctl, hk, hid⟩] at hno
  cases hno

theorem Machine.step_under (hid : id < m.interp.nextId) (hno : returned? [] id m.interp = none) :
    (m.under id K).step nat inp = (m.step nat inp).map (Machine.under id K) := by
  have hstep : (m.under id K).interp.step nat inp (m.under id K).heap = _ :=
    congrFun (Interp.step_under nat inp hid (not_returned_of hno)) m.heap
  unfold Machine.step
  rw [hstep, Op.map_apply]
  cases m.interp.step nat inp m.heap with
  | ok σ h => rfl
  | fail h => rfl
  | crash => rfl

/-- **A call returns the same, whatever waits for it.** -/
theorem runTo_under : ∀ (inps : List (Input I)) {m : Machine F S}, id < m.interp.nextId →
    returned? [] id m.interp = none → runTo nat K id (m.under id K) inps =
      (runTo nat [] id m inps).map fun p => (p.1.under id K, p.2)
  | [], _, _, _ => rfl
  | inp :: inps, m, hid, hno => by
    unfold runTo
    rw [Machine.step_under hid hno]
    rcases hstep : m.step nat inp with _ | m₁
    · rfl
    · have hid₁ : id < m₁.interp.nextId := Nat.lt_of_lt_of_le hid (Machine.step_spec hstep).1.nextId_le
      have hret : returned? K id (m₁.under id K).interp = returned? [] id m₁.interp := returned_under
      rw [Option.map_some, Option.bind_some, Option.bind_some, hret]
      rcases hr : returned? [] id m₁.interp with _ | res
      · exact runTo_under inps hid₁ hr
      · rfl

end Runs

end B6b
