/-
# The first argument of a statement

`b6b_stmt_call` calls the procedure of its first argument, without a check that there is one.
`b6b_call` skips a statement without characters and `b6b_eval` takes `[]` for one, so what
decides is the tokenizer: a text that it accepts has a token iff it has a byte that is not
whitespace. A blank statement gets to its call without a first argument, unless the
interpreter is exiting or the statement is refused (`first_argument_iff`).

Key definitions: `Executes`, `Safe`, `Going`.
-/
import B6b.Turns
import B6b.Nesting
import B6b.Codec
import B6b.Graph

namespace B6b

variable {F S I : Type} {N : Num F}

namespace Statements

open Literals Nesting

/-- The statement with the text `s` is next, and has the items `old` if it is a list already:
`b6b_call` is at an item that it does not skip, or `b6b_eval` at an expression. -/
inductive Executes (N : Num F) (m : Machine F S) (s : Bytes) (old : Option (List Litem)) : Prop
  | item (stmts : Addr) (li : Litem) (h : Heap F) (hctl : m.interp.fg.ctl = .callAt stmts (some li))
      (htext : asStr N li.o m.heap = .ok s h) (hold : old = (m.heap.obj li.o).l) (hne : s ≠ [])
      (hcomment : s.head? ≠ some 0x23)
  | expr (exp : Addr) (hctl : m.interp.fg.ctl = .eval exp) (hlt : exp < m.heap.next)
      (htext : (m.heap.obj exp).s = some (lbrak :: (s ++ [rbrak]))) (hold : old = none)

/-- The statement has a token: unless it is a list already, its text decides. -/
def HasToken (s : Bytes) : Option (List Litem) → Prop
  | some lis => lis ≠ []
  | none => ∃ c ∈ s, isspace c = false

/-- As long as the call that is next has not returned, it calls a procedure only with a list of
arguments that has a first one. -/
def Safe (nat : Natives N S I) (m : Machine F S) : Prop :=
  ∀ inps m', Runs.run (Machine.step nat) m inps = some m' → callResult nat m inps = none →
    m'.interp.fg.id = m.interp.fg.id → m'.interp.fg.konts = .stmtProc :: m.interp.fg.konts →
    ∀ args, m'.interp.fg.ctl = .invoke args → ∃ li lis, (m'.heap.obj args).l = some (li :: lis)

/-! ### Background fibers -/

/-- The background fibers are at no item of a list, and call no procedure. -/
def OthersPlain (σ : Interp S) : Prop := ∀ v ∈ σ.before ++ σ.after, v.ctl.plain = true

/-- The fibers are told apart, and those in the background are plain. -/
structure Settled (σ : Interp S) : Prop where
  nested : Nested σ
  plain : OthersPlain σ

section Runs

variable {nat : Natives N S I} {m m' : Machine F S} {inp : Input I}

theorem Settled.step (hm : Settled m.interp) (hstep : m.step nat inp = some m') :
    Settled m'.interp := by
  have hm' : Nested m'.interp := hm.nested.step hstep
  refine ⟨hm', fun u hu => ?_⟩
  rcases Machine.step_turns hstep u (other_mem hu) with ⟨v, hv, hor⟩ | ⟨-, -, hor⟩ | ⟨fn, rfl⟩
  · rcases hor with rfl | rfl
    · exact hm.plain u hv
    · exact hm.plain v hv
  · exact hor.resolve_left fun hfg => distinct_ne_fg hm'.distinct hu (congrArg Fiber.id hfg)
  · rfl

theorem settled_start {args : List Bytes} {exts : List ExtObj} {progs : List (Opts × Bytes)}
    (h : Machine.start? N args exts progs = some m) : Settled m.interp := by
  refine ⟨nested_start h, ?_⟩
  have halone : Op.Gives (interpNew (S := S) N args exts progs) OthersPlain := by
    refine Op.gives_of_bind fun lis => Op.gives_of_bind fun argv => Op.gives_of_bind fun C => ?_
    refine Op.gives_of_bind fun ls => Op.gives_of_bind fun ls' => Op.gives_of_bind fun ps => ?_
    exact Op.gives_pure fun v hv => nomatch hv
  unfold Machine.start? at h
  rcases hx : interpNew (S := S) N args exts progs Heap.empty with σ | h' | _ <;> rw [hx] at h
  · obtain rfl := Option.some.inj h
    exact halone.ok hx
  · cases h
  · cases h

theorem Settled.run {inps : List (Input I)} (hm : Settled m.interp)
    (h : Runs.run (Machine.step nat) m inps = some m') : Settled m'.interp := by
  have hall : Runs.Throughout (Machine.step nat) (fun m => Settled m.interp) m inps :=
    Runs.throughout_of_eachStep (fun _ _ _ hm _ hstep => hm.step hstep) hm (Runs.eachStep_true _ _)
  exact hall.run h

end Runs

/-! ### A statement with a first argument -/

/-- Where a fiber is in a statement that has a first argument, with the calls `K` around it. -/
inductive Going (h : Heap F) (K : List Kont) (t : Fiber S) : Prop
  | args (stmt : Addr) (li : Option Litem) (vs : List Addr) (hk : t.konts = K)
      (hc : t.ctl = .argAt stmt li vs) (hvs : li = none → vs ≠ [])
  | done (res : Res) (hk : t.konts = K) (hc : t.ctl = .onRes res ∨ t.ctl = .ret res)
  | inside (new : List Kont) (k : Kont) (hk : t.konts = new ++ k :: K) (hof : k.ofStmt = true)
      (hargs : ∀ args, t.ctl = .invoke args → new = [] → ∃ li lis, (h.obj args).l = some (li :: lis))

/-- A plain fiber is where it was, whatever becomes of the heap. -/
theorem Going.of_plain {h h' : Heap F} {K : List Kont} {t u : Fiber S} (hg : Going h K t)
    (hplain : t.ctl.plain = true) (hk : u.konts = t.konts) (hc : u.ctl = t.ctl) : Going h' K u := by
  cases hg with
  | args stmt li vs hk' hc' hvs =>
    rw [hc'] at hplain
    cases hplain
  | done res hk' hc' => exact .done res (hk.trans hk') (hc ▸ hc')
  | inside new k hk' hof hargs =>
    refine .inside new k (hk.trans hk') hof fun args hinvoke => ?_
    rw [← hc, hinvoke] at hplain
    cases hplain

/-- The calls that a turn adds. A procedure is called from a statement that waits for it. -/
theorem turn_konts {h h' : Heap F} {σ : Interp S} {u : Fiber S} (ht : Interp.Turn N h h' σ u) :
    ∃ new, u.konts = new ++ σ.fg.rest ∧ ∀ args, u.ctl = .invoke args → new ≠ [] := by
  cases ht with
  | plain new _ _ hk _ hc =>
    refine ⟨new, hk, fun args hinvoke => ?_⟩
    rw [hinvoke] at hc
    cases hc
  | proc args body _ _ hk _ => exact ⟨[.proc args], hk, fun _ _ => List.cons_ne_nil _ _⟩
  | finished res _ hk hc =>
    refine ⟨[], hk, fun args hinvoke => ?_⟩
    rw [hinvoke] at hc
    exact nomatch hc
  | callAt stmts li _ _ hk hc | enter stmt lis _ _ _ hk hc | next stmt li li' vs v res _ _ hk hc
  | mapAt ks l b li r _ _ hk hc =>
    exact ⟨[], hk, fun args hinvoke => nomatch hc.symm.trans hinvoke⟩
  | stmt stmts li _ hk _ => exact ⟨[.call stmts li], hk, fun _ _ => List.cons_ne_nil _ _⟩
  | arg stmt li vs _ hk _ => exact ⟨[.stmtArg stmt li vs], hk, fun _ _ => List.cons_ne_nil _ _⟩
  | invoke stmt args vs lis _ hk _ => exact ⟨[.stmtProc], hk, fun _ _ => List.cons_ne_nil _ _⟩
  | mapBody ks l b li r _ _ hk _ => exact ⟨[.map ks l b li r], hk, fun _ _ => List.cons_ne_nil _ _⟩

section Going

variable {h h' : Heap F} {K : List Kont} {σ : Interp S} {u : Fiber S}

/-- `b6b_stmt_call` evaluates its arguments. -/
theorem going_args {stmt : Addr} {li : Option Litem} {vs : List Addr} (hk : σ.fg.konts = K)
    (hctl : σ.fg.ctl = .argAt stmt li vs) (hvs : li = none → vs ≠ []) (ht : Interp.Turn N h h' σ u) :
    Going h' K u := by
  have hrest : σ.fg.rest = K := (Interp.rest_of_ne fun r hr => by cases hctl.symm.trans hr).trans hk
  have hnext : σ.fg.stmtNext ≠ false := by simp [Fiber.stmtNext, hctl, Ctl.ofStmt]
  cases ht with
  | plain _ hstmt | proc _ _ hstmt | callAt _ _ hstmt | mapAt _ _ _ _ _ hstmt | mapBody _ _ _ _ _ hstmt =>
    exact absurd hstmt hnext
  | stmt _ _ hctl' | enter _ _ hctl' | next _ _ _ _ _ _ hctl' =>
    cases hctl.symm.trans hctl'
  | finished res _ hk' hc => exact .done res (hk'.trans hrest) hc
  | arg stmt' li' vs' _ hk' hc =>
    refine .inside [] (.stmtArg stmt' li' vs') (hk'.trans (congrArg _ hrest)) rfl fun args hinvoke => ?_
    cases hc.symm.trans hinvoke
  | invoke stmt' args vs' lis hctl' hk' hc hl hlis =>
    refine .inside [] .stmtProc (hk'.trans (congrArg _ hrest)) rfl fun args' hinvoke _ => ?_
    obtain ⟨-, hli, rfl⟩ := Ctl.argAt.inj (hctl.symm.trans hctl')
    obtain rfl := Ctl.invoke.inj (hc.symm.trans hinvoke)
    cases lis with
    | nil => exact absurd hlis.symm (hvs hli)
    | cons li lis => exact ⟨li, lis, hl⟩

/-- `b6b_stmt_call` is returned to. -/
theorem going_back {k : Kont} {res : Res} (hk : σ.fg.konts = k :: K) (hctl : σ.fg.ctl = .ret res)
    (hof : k.ofStmt = true) (ht : Interp.Turn N h h' σ u) : Going h' K u := by
  have hrest : σ.fg.rest = K := by simp [Fiber.rest, hctl, hk]
  have hnext : σ.fg.stmtNext ≠ false := by simp [Fiber.stmtNext, hctl, hk, hof]
  cases ht with
  | plain _ hstmt | proc _ _ hstmt | callAt _ _ hstmt | mapAt _ _ _ _ _ hstmt | mapBody _ _ _ _ _ hstmt =>
    exact absurd hstmt hnext
  | stmt _ _ hctl' | enter _ _ hctl' | arg _ _ _ hctl' | invoke _ _ _ _ hctl' =>
    cases hctl.symm.trans hctl'
  | finished res' _ hk' hc => exact .done res' (hk'.trans hrest) hc
  | next stmt li li' vs v _ _ _ hk' hc =>
    exact .args stmt li' (vs ++ [v]) (hk'.trans hrest) hc fun _ => by simp

/-- What a turn makes of it, unless it has returned. -/
theorem Going.turn (hg : Going h K σ.fg) (hno : ∀ res, σ.fg.ctl = .ret res → σ.fg.konts ≠ K)
    (ht : Interp.Turn N h h' σ u) : Going h' K u := by
  cases hg with
  | args stmt li vs hk hc hvs => exact going_args hk hc hvs ht
  | done res hk hc =>
    rcases hc with hc | hc
    · have hrest : σ.fg.rest = K := 
        (Interp.rest_of_ne fun r hr => by cases hc.symm.trans hr).trans hk
      have hnext : σ.fg.stmtNext ≠ false := by simp [Fiber.stmtNext, hc, Ctl.ofStmt]
      cases ht with
      | plain _ hstmt | proc _ _ hstmt | callAt _ _ hstmt | mapAt _ _ _ _ _ hstmt | mapBody _ _ _ _ _ hstmt =>
        exact absurd hstmt hnext
      | stmt _ _ hctl' | enter _ _ hctl' | arg _ _ _ hctl' | invoke _ _ _ _ hctl'
      | next _ _ _ _ _ _ hctl' =>
        cases hc.symm.trans hctl'
      | finished res' _ hk' hc' => exact .done res' (hk'.trans hrest) hc'
    · exact absurd hk (hno res hc)
  | inside new k hk hof hargs =>
    obtain ⟨new', hu, hinvoke⟩ := turn_konts ht
    by_cases hret : ∃ res, σ.fg.ctl = .ret res
    · obtain ⟨res, hctl⟩ := hret
      cases new with
      | nil => exact going_back hk hctl hof ht
      | cons k' new =>
        have hrest : σ.fg.rest = new ++ k :: K := by simp [Fiber.rest, hctl, hk]
        refine .inside (new' ++ new) k (by rw [hu, hrest, List.append_assoc]) hof fun args hc hnil => ?_
        exact absurd (List.append_eq_nil_iff.mp hnil).1 (hinvoke args hc)
    · have hrest : σ.fg.rest = new ++ k :: K := by
        rw [Interp.rest_of_ne fun r hr => hret ⟨r, hr⟩, hk]
      refine .inside (new' ++ new) k (by rw [hu, hrest, List.append_assoc]) hof fun args hc hnil => ?_
      exact absurd (List.append_eq_nil_iff.mp hnil).1 (hinvoke args hc)

end Going

/-- The fiber `id` is in a statement that has a first argument. -/
structure Doing (id : ℕ) (K : List Kont) (m : Machine F S) : Prop where
  settled : Settled m.interp
  lt : id < m.interp.nextId
  going : ∀ t ∈ m.interp.fibers, t.id = id → Going m.heap K t

section Runs

variable {nat : Natives N S I} {m m' : Machine F S} {inp : Input I} {id : ℕ} {K : List Kont}

/-- A statement with tokens, or one that gets no frame. -/
theorem doing_start (hm : Settled m.interp) {stmt : Addr} (hctl : m.interp.fg.ctl = .stmt stmt)
    (hcond : m.interp.exit = true ∨ Interp.maxNesting ≤ m.interp.fg.depth ∨
      ∀ lis h', asList N stmt m.heap = .ok lis h' → lis ≠ [])
    (hstep : m.step nat inp = some m') : Doing m.interp.fg.id m.interp.fg.konts m' := by
  have hmove := (Machine.step_spec hstep).1
  have hlt : m.interp.fg.id < m.interp.nextId :=
    hm.nested.distinct.lt _ (List.mem_map_of_mem (fg_mem _))
  refine ⟨hm.step hstep, Nat.lt_of_lt_of_le hlt hmove.nextId_le, fun u hu hid => ?_⟩
  rcases Machine.step_turns hstep u hu with ⟨v, hv, hor⟩ | ⟨-, ht, -⟩ | ⟨fn, rfl⟩
  · have hv' : v.id = m.interp.fg.id := by
      rcases hor with rfl | rfl
      · exact hid
      · exact hid
    exact absurd hv' (distinct_ne_fg hm.nested.distinct hv)
  · have hrest : m.interp.fg.rest = m.interp.fg.konts :=
      Interp.rest_of_ne fun r hr => by cases hctl.symm.trans hr
    have hnext : m.interp.fg.stmtNext ≠ false := by simp [Fiber.stmtNext, hctl, Ctl.ofStmt]
    cases ht with
    | plain _ hstmt | proc _ _ hstmt | callAt _ _ hstmt | mapAt _ _ _ _ _ hstmt | mapBody _ _ _ _ _ hstmt =>
      exact absurd hstmt hnext
    | stmt _ _ hctl' | arg _ _ _ hctl' | invoke _ _ _ _ hctl' | next _ _ _ _ _ _ hctl' =>
      cases hctl.symm.trans hctl'
    | finished res _ hk hc => exact .done res (hk.trans hrest) hc
    | enter stmt' lis hctl' hexit hdepth hk hc hlis =>
      obtain rfl := Ctl.stmt.inj (hctl.symm.trans hctl')
      have hne : lis ≠ [] := by
        rcases hcond with hexit' | hlim | hne
        · cases hexit.symm.trans hexit'
        · exact absurd hlim (Nat.not_le_of_lt hdepth)
        · exact hne lis _ hlis
      exact .args stmt _ [] (hk.trans hrest) hc fun hhead => absurd (List.head?_eq_none_iff.mp hhead) hne
  · exact absurd hid.symm (Nat.ne_of_lt hlt)

theorem Doing.step (h : Doing id K m) (hno : returned? K id m.interp = none)
    (hstep : m.step nat inp = some m') : Doing id K m' := by
  have hmove := (Machine.step_spec hstep).1
  refine ⟨h.settled.step hstep, Nat.lt_of_lt_of_le h.lt hmove.nextId_le, fun u hu hid => ?_⟩
  rcases Machine.step_turns hstep u hu with ⟨v, hv, hor⟩ | ⟨hfg, ht, -⟩ | ⟨fn, rfl⟩
  · have hplain := h.settled.plain v hv
    rcases hor with rfl | rfl
    · exact (h.going u (other_mem hv) hid).of_plain hplain rfl rfl
    · exact (h.going v (other_mem hv) hid).of_plain hplain rfl rfl
  · have hfg' : m.interp.fg.id = id := hfg.symm.trans hid
    refine (h.going _ (fg_mem _) hfg').turn (fun res hctl hk => ?_) ht
    rw [returned_eq_some.mpr ⟨hctl, hk, hfg'⟩] at hno
    cases hno
  · exact absurd hid (Nat.ne_of_gt h.lt)

/-- A statement with tokens, or one that gets no frame, calls no procedure without a first
argument. -/
theorem safe_of (hm : Settled m.interp) {stmt : Addr} (hctl : m.interp.fg.ctl = .stmt stmt)
    (hcond : m.interp.exit = true ∨ Interp.maxNesting ≤ m.interp.fg.depth ∨
      ∀ lis h', asList N stmt m.heap = .ok lis h' → lis ≠ []) : Safe nat m := by
  intro inps m' hrun hcall hid hk args hinvoke
  obtain ⟨hP, -⟩ := run_invariant (P := fun m₁ => m₁ = m ∨ Doing m.interp.fg.id m.interp.fg.konts m₁)
    (fun m₁ inp m₂ h hno hstep => by
      rcases h with rfl | hdoing
      · exact .inr (doing_start hm hctl hcond hstep)
      · exact .inr (hdoing.step hno hstep))
    (.inl rfl) (Calling.not_returned (.inl ⟨stmt, hctl⟩)) hrun hcall
  rcases hP with rfl | hdoing
  · exact nomatch hctl.symm.trans hinvoke
  · cases hdoing.going _ (fg_mem _) hid with
    | args _ _ _ _ hc => exact nomatch hc.symm.trans hinvoke
    | done _ hk' => exact absurd (congrArg List.length (hk.symm.trans hk')) (by simp)
    | inside new k hk' _ hargs =>
      refine hargs args hinvoke (List.eq_nil_of_length_eq_zero ?_)
      have hlen := congrArg List.length (hk.symm.trans hk')
      simp only [List.length_cons, List.length_append] at hlen
      omega

end Runs

/-! ### A blank statement -/

theorem lt_of_asStr {h h' : Heap F} {a : Addr} {s : Bytes} (hx : asStr N a h = .ok s h') :
    a < h.next := by
  by_contra ha
  unfold asStr asStrAux at hx
  rw [Op.bind_apply, load_apply, if_neg ha] at hx
  cases hx

theorem strOf_of_text {h : Heap F} {a : Addr} {s : Bytes} (hlt : a < h.next)
    (hs : (h.obj a).s = some s) : strOf a h = .ok s h := by
  unfold strOf
  simp only [Op.bind_ok (load_ok hlt), hs]
  rfl

theorem tokenItems_length : ∀ (xs : List Bytes) (h : Heap F),
    ∃ lis h', tokenItems xs h = .ok lis h' ∧ lis.length = xs.length
  | [], h => ⟨[], h, rfl, rfl⟩
  | x :: xs, h => by
    obtain ⟨lis, h', hok, hlen⟩ := tokenItems_length xs { h.push (.ofStr x) with nextLi := h.nextLi + 1 }
    exact ⟨_, h', Op.bind_ok hok _, congrArg (· + 1) hlen⟩

/-- The items of a list made of a text that is accepted. -/
theorem hasToken_iff {s : Bytes} {xs : List Bytes} {lis : List Litem} (hok : doAsList s = .ok xs)
    (hlen : lis.length = xs.length) : lis ≠ [] ↔ HasToken s none := by
  have hxs : xs ≠ [] ↔ ∃ c ∈ s, isspace c = false := tokens_ne_nil_iff ((doAsList_iff s xs).mp hok)
  rw [HasToken, ← hxs, ne_eq, ne_eq, ← List.length_eq_zero_iff, ← List.length_eq_zero_iff, hlen]

/-- The items of an accepted statement. -/
theorem asList_of_text {h : Heap F} {a : Addr} {s : Bytes} (hlt : a < h.next)
    (hs : (h.obj a).s = some s) (hok : (h.obj a).l = none → ∃ xs, doAsList s = .ok xs) :
    ∃ lis h', asList N a h = .ok lis h' ∧ (lis ≠ [] ↔ HasToken s (h.obj a).l) := by
  unfold asList
  rw [Op.bind_ok (load_ok hlt)]
  cases hl : (h.obj a).l with
  | some lis => exact ⟨lis, h, rfl, Iff.rfl⟩
  | none =>
    obtain ⟨xs, hxs⟩ := hok hl
    obtain ⟨lis, h', htok, hlen⟩ := tokenItems_length xs h
    refine ⟨lis, h'.set a ((h'.obj a).withItems lis), ?_, hasToken_iff hxs hlen⟩
    simp only [Op.bind_ok (asStr_of_text hlt hs), hxs, Op.bind_ok htok]
    rfl

/-- The text of a new list without items. -/
theorem asStr_empty (h : Heap F) : ∃ h', asStr N h.next (h.push (.ofList [])) = .ok [lbrac, rbrac] h' ∧
    (h'.obj h.next).l = some [] := by
  refine ⟨(h.push (.ofList [])).set h.next (((h.push (.ofList [])).obj h.next).withStr [lbrac, rbrac]),
    ?_, ?_⟩
  · have hself := h.push_obj_self (Obj.ofList [])
    unfold asStr asStrAux
    conv_lhs => rw [Op.bind_ok (load_ok (Nat.lt_succ_self _)), hself]
    rfl
  · rw [Heap.set_obj_self, h.push_obj_self]
    rfl

/-- A procedure is called without arguments. -/
theorem argAt_blank (inp : Input I) (hwritten : inp.written = true) (σ : Interp S) (stmt : Addr)
    (h : Heap F) : ∃ h', σ.argAt N inp stmt [] none h =
      .ok ((σ.setRet σ.shared.null).push .stmtProc (.invoke h.next)) h' ∧
    (h'.obj h.next).l = some [] := by
  have hbuild : listBuild [] h = .ok h.next (h.push (.ofList [])) := rfl
  dsimp only [Interp.argAt]
  rw [Op.bind_ok hbuild]
  cases σ.opts.trace with
  | false =>
    refine ⟨h.push (.ofList []), rfl, ?_⟩
    rw [h.push_obj_self]
    rfl
  | true =>
    obtain ⟨h', hstr, hl⟩ := asStr_empty (N := N) h
    refine ⟨h', ?_, hl⟩
    rw [if_pos rfl, Op.bind_ok hstr, if_pos hwritten]
    rfl

section Runs

variable {nat : Natives N S I} {m : Machine F S} {s : Bytes} {old : Option (List Litem)}

/-- The statement is called next. -/
theorem Executes.step (hx : Executes N m s old) (hok : old = none → ∃ xs, doAsList s = .ok xs)
    (inp : Input I) : ∃ m₁ stmt lis h', m.step nat inp = some m₁ ∧ m₁.interp.fg.ctl = .stmt stmt ∧
      m₁.interp.exit = m.interp.exit ∧ m₁.interp.fg.depth = m.interp.fg.depth ∧
      asList N stmt m₁.heap = .ok lis h' ∧ (lis ≠ [] ↔ HasToken s old) := by
  cases hx with
  | item stmts li h₁ hctl htext hold hne hcomment =>
    subst hold
    obtain ⟨hstrs, -, hs⟩ := (asStr_returns N li.o m.heap).ok htext
    have hlt : li.o < h₁.next := by
      rw [hstrs.next]
      exact lt_of_asStr htext
    obtain ⟨lis, h', hlis, hiff⟩ := asList_of_text (N := N) hlt hs (hstrs.l li.o ▸ hok)
    rw [hstrs.l] at hiff
    have hstep : m.interp.step nat inp m.heap =
        .ok (m.interp.push (.call stmts li) (.stmt li.o)) h₁ := by
      unfold Interp.step
      rw [hctl]
      dsimp only [Interp.callAt]
      have hskip : ¬ (s.isEmpty = true ∨ s.head? = some 0x23) := by simp [hne, hcomment]
      rw [Op.bind_ok htext, if_neg hskip]
      rfl
    refine ⟨⟨h₁, m.interp.push (.call stmts li) (.stmt li.o)⟩, li.o, lis, h', ?_, rfl, rfl, rfl, hlis, hiff⟩
    unfold Machine.step
    rw [hstep]
  | expr exp hctl hlt htext hold =>
    subst hold
    obtain ⟨xs, hok⟩ := hok rfl
    obtain ⟨lis, h', htok, hlen⟩ := tokenItems_length xs m.heap
    have hiff := hasToken_iff hok hlen
    have hstep : m.interp.step nat inp m.heap =
        .ok (m.interp.goto (.stmt h'.next)) (h'.push (.ofList lis)) := by
      unfold Interp.step
      rw [hctl]
      dsimp only [Interp.eval]
      rw [Op.bind_ok (strOf_of_text hlt htext)]
      have hlast : (lbrak :: (s ++ [rbrak])).getLast? = some rbrak := by
        rw [← List.cons_append, List.getLast?_concat]
      have hbrak : ¬ (s ++ [rbrak] = [] ∨ (lbrak :: (s ++ [rbrak])).getLast? ≠ some rbrak) := by
        simp [hlast]
      change (if s ++ [rbrak] = [] ∨ (lbrak :: (s ++ [rbrak])).getLast? ≠ some rbrak then _ else _ :
        Op (Heap F) (Interp S)) m.heap = _
      rw [if_neg hbrak, List.dropLast_concat, hok]
      dsimp only
      rw [Op.bind_ok htok]
      rfl
    refine ⟨⟨h'.push (.ofList lis), m.interp.goto (.stmt h'.next)⟩, h'.next, lis, h'.push (.ofList lis),
      ?_, rfl, rfl, rfl, ?_, hiff⟩
    · unfold Machine.step
      rw [hstep]
    · unfold asList
      rw [Op.bind_ok (load_ok (Nat.lt_succ_self _)), h'.push_obj_self]
      rfl

/-- A blank statement with a frame gets to its call. -/
theorem not_safe_of_blank {stmt : Addr} {h' : Heap F} (hctl : m.interp.fg.ctl = .stmt stmt)
    (hexit : m.interp.exit = false) (hdepth : m.interp.fg.depth < Interp.maxNesting)
    (hlis : asList N stmt m.heap = .ok [] h') (inp : Input I) : ¬ Safe nat m := by
  have henter : m.step nat inp = some ⟨h', m.interp.framePush.goto (.argAt stmt none [])⟩ := by
    have hstep : m.interp.step nat inp m.heap =
        .ok (m.interp.framePush.goto (.argAt stmt none [])) h' := by
      unfold Interp.step
      rw [hctl]
      dsimp only [Interp.stmtCall]
      rw [hexit, if_neg (by decide), if_neg (Nat.not_le_of_lt hdepth)]
      have hattempt : Op.attempt (asList N stmt) m.heap = .ok (some []) h' := by
        unfold Op.attempt
        rw [hlis]
      rw [Op.bind_ok hattempt]
      rfl
    unfold Machine.step
    rw [hstep]
  have hinvoke : ∃ m₂ args, Machine.step nat ⟨h', m.interp.framePush.goto (.argAt stmt none [])⟩
      ⟨inp.native, true, inp.file⟩ = some m₂ ∧ m₂.interp.fg.ctl = .invoke args ∧
      m₂.interp.fg.konts = .stmtProc :: m.interp.fg.konts ∧ m₂.interp.fg.id = m.interp.fg.id ∧
      (m₂.heap.obj args).l = some [] := by
    obtain ⟨h₂, hcall, hl⟩ := argAt_blank (N := N) ⟨inp.native, true, inp.file⟩ rfl
      (m.interp.framePush.goto (.argAt stmt none [])) stmt h'
    refine ⟨⟨h₂, ((m.interp.framePush.goto (.argAt stmt none [])).setRet m.interp.shared.null).push
      .stmtProc (.invoke h'.next)⟩, h'.next, ?_, rfl, rfl, rfl, hl⟩
    unfold Machine.step Interp.step
    dsimp only [Interp.goto] at hcall ⊢
    rw [hcall]
    rfl
  obtain ⟨m₂, args, hinvoke, hargs, hk, hid, hl⟩ := hinvoke
  have hrun : Runs.run (Machine.step nat) m [inp, ⟨inp.native, true, inp.file⟩] = some m₂ := by
    simp only [Runs.run, henter, hinvoke]
  have hno : callResult nat m [inp, ⟨inp.native, true, inp.file⟩] = none := by
    have hreturned₁ : returned? m.interp.fg.konts m.interp.fg.id
        (m.interp.framePush.goto (.argAt stmt none [])) = none := rfl
    have hreturned₂ : returned? m.interp.fg.konts m.interp.fg.id m₂.interp = none := by
      unfold returned?
      rw [hargs]
    simp only [callResult, runTo, henter, hinvoke, Option.bind_some, hreturned₁, hreturned₂]
  intro hsafe
  obtain ⟨li, lis, hsome⟩ := hsafe _ _ hrun hno hid hk args hargs
  cases hl.symm.trans hsome

end Runs

/-! ### Every reachable state -/

/-- **Which statements have a first argument.** Where a script executes a text that the tokenizer
accepts, as an item of a list or as an expression, the call of `b6b_stmt_call` gets to its
procedure with a first argument, or does not get to one, iff the interpreter is exiting, the
statement is at the limit or its text has a byte that is not whitespace. An item that is a list
already has to have items itself. -/
theorem first_argument_iff (nat : Natives N S I) (args : List Bytes) (exts : List ExtObj)
    (progs : List (Opts × Bytes)) (m₀ : Machine F S)
    (hstart : Machine.start? N args exts progs = some m₀) (inps₀ : List (Input I)) (m : Machine F S)
    (hrun : Runs.run (Machine.step nat) m₀ inps₀ = some m) (s : Bytes) (old : Option (List Litem))
    (hok : old = none → ∃ xs, doAsList s = .ok xs) (hx : Executes N m s old) (inp : Input I) :
    (∃ m₁ stmt, m.step nat inp = some m₁ ∧ m₁.interp.fg.ctl = .stmt stmt ∧ Safe nat m₁) ↔
      m.interp.exit = true ∨ Interp.maxNesting ≤ m.interp.fg.depth ∨ HasToken s old := by
  have hm : Settled m.interp := (settled_start hstart).run hrun
  obtain ⟨m₁, stmt, lis, h', hstep, hctl, hexit, hdepth, hlis, htokens⟩ := hx.step hok inp
  rw [← htokens, ← hexit, ← hdepth]
  constructor
  · rintro ⟨m₂, stmt', hstep', -, hsafe⟩
    obtain rfl := Option.some.inj (hstep.symm.trans hstep')
    by_contra hcond
    push Not at hcond
    obtain ⟨hexit', hdepth', rfl⟩ := hcond
    exact not_safe_of_blank hctl (eq_false_of_ne_true hexit') hdepth' hlis inp hsafe
  · intro hcond
    refine ⟨m₁, stmt, hstep, hctl, safe_of (hm.step hstep) hctl ?_⟩
    refine hcond.imp_right (Or.imp_right fun hne lis' h'' hlis' => ?_)
    obtain ⟨rfl, -⟩ := Outcome.ok.inj (hlis.symm.trans hlis')
    exact hne

/-- The item that `b6b_call` is at. -/
def itemNow (σ : Interp S) : Option Litem :=
  match σ.fg.ctl with
  | .callAt _ li => li
  | _ => none

theorem executes_of_item {m : Machine F S} {s : Bytes} {li : Litem} (hli : itemNow m.interp = some li)
    (hlt : li.o < m.heap.next) (htext : (m.heap.obj li.o).s = some s) (hl : (m.heap.obj li.o).l = none)
    (hne : s ≠ []) (hcomment : s.head? ≠ some 0x23) : Executes N m s none := by
  unfold itemNow at hli
  split at hli
  · next stmts li' hctl =>
    subst hli
    exact .item stmts li m.heap hctl (asStr_of_text hlt htext) hl.symm hne hcomment
  · cases hli

/-- `$n a` -/
theorem first_argument_of_call : ∃ m : Machine ℤ Unit,
    (wholeStart [("n", .nop)] "{$n a}").bind (fun m₀ => Runs.run wholeStep m₀ (quiet 2)) = some m ∧
    ∃ m₁ stmt, wholeStep m ⟨(), true, none⟩ = some m₁ ∧ m₁.interp.fg.ctl = .stmt stmt ∧
      Safe (Natives.none wholeNum) m₁ := by
  have hrun : ((wholeStart [("n", .nop)] "{$n a}").bind fun m₀ => Runs.run wholeStep m₀ (quiet 2)).any
      (fun m => decide (∃ li ∈ itemNow m.interp, li.o < m.heap.next ∧
        (m.heap.obj li.o).s = some (bytes "$n a") ∧ (m.heap.obj li.o).l = none)) = true := by
    decide +kernel
  obtain ⟨m, hm, hitem⟩ := (Option.any_eq_true _ _).mp hrun
  obtain ⟨li, hli, hlt, htext, hl⟩ := of_decide_eq_true hitem
  obtain ⟨m₀, hm₀, hm'⟩ := Option.bind_eq_some_iff.mp hm
  have hx : Executes wholeNum m (bytes "$n a") none :=
    executes_of_item hli hlt htext hl (by decide) (by decide)
  have hok : doAsList (bytes "$n a") = .ok [bytes "$n", bytes "a"] := by decide +kernel
  exact ⟨m, hm, (first_argument_iff _ _ _ _ m₀ hm₀ _ m hm' (bytes "$n a") none (fun _ => ⟨_, hok⟩) hx
    ⟨(), true, none⟩).mpr (.inr (.inr ⟨0x24, by decide, by decide⟩))⟩

/-- A blank statement, which is called without a first argument: the call crashes. -/
theorem blank_statement_crashes : ∃ m : Machine ℤ Unit,
    (wholeStart [] "{ }").bind (fun m₀ => Runs.run wholeStep m₀ (quiet 2)) = some m ∧
    doAsList [blank] = .ok [] ∧ Executes wholeNum m [blank] none ∧
    (∃ m', Runs.run wholeStep m (quiet 3) = some m' ∧ wholeStep m' ⟨(), true, none⟩ = none) ∧
    ¬ ∃ m₁ stmt, wholeStep m ⟨(), true, none⟩ = some m₁ ∧ m₁.interp.fg.ctl = .stmt stmt ∧
      Safe (Natives.none wholeNum) m₁ := by
  have hrun : ((wholeStart [] "{ }").bind fun m₀ => Runs.run wholeStep m₀ (quiet 2)).any
      (fun m => decide ((∃ li ∈ itemNow m.interp, li.o < m.heap.next ∧
        (m.heap.obj li.o).s = some [blank] ∧ (m.heap.obj li.o).l = none) ∧
        m.interp.exit = false ∧ m.interp.fg.depth < Interp.maxNesting ∧
        (Runs.run wholeStep m (quiet 3)).any (fun m' => (wholeStep m' ⟨(), true, none⟩).isNone) = true)) =
      true := by
    decide +kernel
  obtain ⟨m, hm, hitem⟩ := (Option.any_eq_true _ _).mp hrun
  obtain ⟨⟨li, hli, hlt, htext, hl⟩, hexit, hdepth, hcrash⟩ := of_decide_eq_true hitem
  obtain ⟨m', hm', hnone⟩ := (Option.any_eq_true _ _).mp hcrash
  have hok : doAsList [blank] = .ok [] := by decide +kernel
  have hx : Executes wholeNum m [blank] none :=
    executes_of_item hli hlt htext hl (by decide) (by decide)
  refine ⟨m, hm, hok, hx, ⟨m', hm', Option.isNone_iff_eq_none.mp hnone⟩, ?_⟩
  rintro ⟨m₂, stmt', hstep', -, hsafe⟩
  obtain ⟨m₁, stmt, lis, h', hstep, hctl, hexit', hdepth', hlis, htokens⟩ :=
    hx.step (fun _ => ⟨[], hok⟩) ⟨(), true, none⟩
  obtain rfl := Option.some.inj (hstep.symm.trans hstep')
  have hblank : ¬ HasToken [blank] none := by
    unfold HasToken
    decide
  obtain rfl := not_not.mp (mt htokens.mp hblank)
  exact not_safe_of_blank hctl (hexit'.trans hexit) (hdepth' ▸ hdepth) hlis ⟨(), true, none⟩ hsafe

end Statements

end B6b
