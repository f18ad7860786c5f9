/-
# What a statement binds

The frame of a statement has the frame it is in below it, `C`, and that has the one below
`C`. What runs inside the statement, whatever it calls, has frames of its own above `C`, and
binds variables in these. Three things bind one in `C`: `_` behind the statement, `local` as
this statement, and `export` in a block that it calls. One thing binds one in the frame below
`C`: `export` as this statement. Nothing binds one further down (`Effect`, `scope_kept`).

A frame keeps the objects that are its keys, so a key that is changed in place is another name
from then on. A lookup that passes the three frames finds what it found before, if the
statement leaves the keys of the others their strings.

Key definitions: `Finds`, `Effect`, `InStmt`.
-/
import B6b.Dict
import B6b.Nesting

namespace B6b

variable {F S I : Type} {N : Num F}

namespace Scope

open Literals Nesting

/-! ### Lookups -/

/-- `b` is no variable there. -/
def Unbound (N : Num F) (h : Heap F) (b : Bytes) (ls : Locals) : Prop := ∀ p ∈ ls, ¬ Val N h p.1 b

/-- What a lookup of `b` finds: the first variable of this name. -/
inductive Finds (N : Num F) (h : Heap F) (b : Bytes) : Locals → Option Addr → Prop
  | nil : Finds N h b [] none
  | here {k v ls} (hk : Val N h k b) : Finds N h b ((k, v) :: ls) (some v)
  | next {k v c ls r} (hk : Val N h k c) (hne : c ≠ b) (hls : Finds N h b ls r) :
      Finds N h b ((k, v) :: ls) r

/-- Names are the same in `h'` as in `h`, and what has a hash keeps it. -/
structure Alike (N : Num F) (h h' : Heap F) : Prop where
  val : ∀ a b, Val N h' a b ↔ Val N h a b
  hashed : ∀ a b, Hashed h a b → Hashed h' a b

theorem Alike.refl (N : Num F) (h : Heap F) : Alike N h h := ⟨fun _ _ => .rfl, fun _ _ => id⟩

theorem Alike.trans {h₁ h₂ h₃ : Heap F} (h12 : Alike N h₁ h₂) (h23 : Alike N h₂ h₃) :
    Alike N h₁ h₃ :=
  ⟨fun a b => (h23.val a b).trans (h12.val a b), fun a b => h23.hashed a b ∘ h12.hashed a b⟩

/-- `b6b_obj_hash`, if it returns. -/
theorem objHash_returns (a : Addr) (h : Heap F) : Op.Returns (objHash N a) h
    fun _ h' => Alike N h h' ∧ ∃ b, Val N h a b ∧ Hashed h' a b := by
  refine ends_load_bind fun _ => ?_
  rcases hx : (h.obj a).hash with _ | x
  · refine Op.returns_bind (asStr_returns N a h) fun b h₁ ⟨hs, hv, hb⟩ => ?_
    refine (returns_update a (·.withHash) h₁).mono fun _ h' he => ?_
    subst he
    have hcalm := (Calm.of_strs hs).trans (Calm.withHash h₁ a)
    refine ⟨⟨fun c d => ?_, fun c d hh => hh.calm hcalm⟩, b, hv, ?_, ?_⟩
    · exact (val_withHash h₁ a c d).trans ⟨Val.of_strs hs, Val.strs hs⟩
    · rw [Heap.set_obj_self, (withHash_same _).2.1, hb]
    · rw [Heap.set_obj_self, withHash_hash hb]
  · obtain ⟨b, hb, hxb⟩ := (h.obj a).hash_eq x hx
    refine Op.ends_pure ⟨Alike.refl N h, b, .str hb, hb, ?_⟩
    rw [hx, hxb]

/-- `b6b_obj_eq`, if it returns. -/
theorem objEq_returns {a c : Addr} {x y : Bytes} {h : Heap F} (hx : Hashed h a x) (hy : Hashed h c y) :
    Op.Returns (objEq a c) h fun r h' => h' = h ∧ (r = true ↔ x = y) := by
  refine ends_load_bind fun ha => ends_load_bind fun hc => ?_
  rw [hx.1, hy.1, hx.2, hy.2]
  refine Op.ends_pure ⟨rfl, ?_⟩
  by_cases hxy : x = y
  · subst hxy
    simp
  · simp [hxy]

section Finds

variable {h h' : Heap F} {b : Bytes} {ls ls' : Locals} {r r' : Option Addr}

theorem Finds.alike (halike : Alike N h h') (hf : Finds N h' b ls r) : Finds N h b ls r := by
  induction hf with
  | nil => exact .nil
  | here hk => exact .here ((halike.val _ _).mp hk)
  | next hk hne _ ih => exact .next ((halike.val _ _).mp hk) hne ih

theorem Finds.of_alike (halike : Alike N h h') (hf : Finds N h b ls r) : Finds N h' b ls r := by
  induction hf with
  | nil => exact .nil
  | here hk => exact .here ((halike.val _ _).mpr hk)
  | next hk hne _ ih => exact .next ((halike.val _ _).mpr hk) hne ih

/-- A lookup goes on in the next frame. -/
theorem Finds.append (hf : Finds N h b ls none) (hf' : Finds N h b ls' r') :
    Finds N h b (ls ++ ls') r' := by
  generalize hr : (none : Option Addr) = r at hf
  induction hf with
  | nil => exact hf'
  | here hk => cases hr
  | next hk hne _ ih => exact .next hk hne (ih hr)

/-- It ends in the first frame that has the variable. -/
theorem Finds.append_some {o : Addr} (hf : Finds N h b ls (some o)) (ls' : Locals) :
    Finds N h b (ls ++ ls') (some o) := by
  generalize hr : some o = r at hf
  induction hf with
  | nil => cases hr
  | here hk => exact hr ▸ .here hk
  | next hk hne _ ih => exact .next hk hne (ih hr)

/-- It passes a frame that does not have it. -/
theorem Finds.of_unbound (hun : Unbound N h b ls) (hf : Finds N h b (ls ++ ls') r) :
    Finds N h b ls' r := by
  induction ls with
  | nil => exact hf
  | cons p ls ih =>
    have hun' : Unbound N h b ls := fun q hq => hun q (List.mem_cons_of_mem _ hq)
    cases hf with
    | here hk => exact absurd hk (hun _ List.mem_cons_self)
    | next hk hne hf => exact ih hun' hf

theorem Finds.of_unbound_right (hun : Unbound N h b ls') (hf : Finds N h b (ls ++ ls') r) :
    Finds N h b ls r := by
  induction ls with
  | nil =>
    have hnil : Finds N h b [] r := by
      rw [← List.append_nil ls'] at hf
      exact hf.of_unbound hun
    exact hnil
  | cons p ls ih =>
    cases hf with
    | here hk => exact .here hk
    | next hk hne hf => exact .next hk hne (ih hf)

/-- What it finds is determined by the names. -/
theorem Finds.unique (hf : Finds N h b ls r) (hf' : Finds N h' b ls r')
    (hsame : ∀ p ∈ ls, ∀ c c', Val N h p.1 c → Val N h' p.1 c' → c = c') : r = r' := by
  induction hf with
  | nil =>
    cases hf'
    rfl
  | here hk =>
    cases hf' with
    | here => rfl
    | next hk' hne => exact absurd (hsame _ List.mem_cons_self _ _ hk hk').symm hne
  | next hk hne _ ih =>
    cases hf' with
    | here hk' => exact absurd (hsame _ List.mem_cons_self _ _ hk hk') hne
    | next hk' hne' hf' => exact ih hf' fun p hp => hsame p (List.mem_cons_of_mem _ hp)

end Finds

/-- `b6b_dict_get` in a frame finds what a lookup does. -/
theorem localsGet_ends {k : Addr} {b : Bytes} : ∀ (ls : Locals) (h : Heap F), Hashed h k b →
    Op.Ends (localsGet N k ls) h (fun r h' => Alike N h h' ∧ Finds N h b ls r) fun _ => True
  | [], h, _ => Op.ends_pure ⟨Alike.refl N h, .nil⟩
  | (k', v) :: ls, h, hk => by
    refine Op.returns_bind (objHash_returns k' h) fun _ h₁ ⟨halike, c, hc, hhash⟩ => ?_
    refine Op.returns_bind (objEq_returns hhash (halike.hashed k b hk)) fun eq h₂ ⟨hh, heq⟩ => ?_
    subst hh
    cases eq with
    | true =>
      obtain rfl : c = b := heq.mp rfl
      exact Op.ends_pure ⟨halike, .here hc⟩
    | false =>
      have hne : c ≠ b := fun hcb => nomatch heq.mpr hcb
      refine (localsGet_ends ls h₂ (halike.hashed k b hk)).mono (fun r h₃ hr => ?_) fun _ => id
      exact ⟨halike.trans hr.1, .next hc hne (hr.2.alike halike)⟩

/-- **`b6b_get` finds what a lookup does** in all its frames. -/
theorem framesGet_ends {name : Addr} {b : Bytes} : ∀ (fs : List Locals) (h : Heap F),
    Val N h name b →
    Op.Ends (framesGet N name fs) h (fun r _ => Finds N h b fs.flatten r) fun _ => True
  | [], _, _ => Op.ends_pure .nil
  | ls :: fs, h, hv => by
    refine Op.returns_bind (objHash_returns name h) fun _ h₁ ⟨halike, c, hc, hhash⟩ => ?_
    obtain rfl : c = b := hc.unique hv
    refine Op.ends_bind (localsGet_ends ls h₁ hhash) fun r h₂ ⟨halike', hf⟩ => ?_
    have hhere := hf.alike halike
    rw [List.flatten_cons]
    cases r with
    | some o => exact Op.ends_pure (hhere.append_some _)
    | none =>
      have hv₂ : Val N h₂ name c := ((halike.trans halike').val name c).mpr hv
      refine (framesGet_ends fs h₂ hv₂).mono (fun r _ hr => ?_) fun _ => id
      exact hhere.append (hr.alike (halike.trans halike'))

/-! ### The frames below a statement -/

/-- The `n` lowest frames. -/
def lowest (n : ℕ) (fs : List Locals) : List Locals := fs.drop (fs.length - n)

theorem lowest_self {n : ℕ} {fs : List Locals} (hn : fs.length = n) : lowest n fs = fs := by
  rw [lowest, hn, Nat.sub_self, List.drop_zero]

theorem lowest_cons {n : ℕ} {fs : List Locals} (hn : n ≤ fs.length) (ls : Locals) :
    lowest n (ls :: fs) = lowest n fs := by
  unfold lowest
  rw [List.length_cons, Nat.succ_sub hn, List.drop_succ_cons]

theorem lowest_tail {n : ℕ} {fs : List Locals} (hn : n < fs.length) :
    lowest n fs.tail = lowest n fs := by
  cases fs with
  | nil => exact absurd hn (Nat.not_lt_zero n)
  | cons ls fs => exact (lowest_cons (Nat.le_of_lt_succ hn) ls).symm

/-- A binding above them. -/
theorem lowest_set_of_lt {n i : ℕ} {fs : List Locals} (hi : i < fs.length - n) (ls : Locals) :
    lowest n (fs.set i ls) = lowest n fs := by
  unfold lowest
  rw [List.length_set, List.drop_set_of_lt hi]

/-- A binding in one of them. -/
theorem lowest_set {n i j : ℕ} {fs : List Locals} (hi : i = fs.length - n + j) (ls : Locals) :
    lowest n (fs.set i ls) = (lowest n fs).set j ls := by
  unfold lowest
  rw [List.length_set, List.drop_set, if_neg (by omega)]
  congr 1
  omega

/-- The procedure that the next step of the fiber calls, if it calls one. -/
def invoked? (h : Heap F) (t : Fiber S) : Option Proc :=
  match t.ctl with
  | .invoke args =>
    match (h.obj args).l with
    | some (li :: _) => some (h.obj li.o).proc
    | _ => none
  | _ => none

/-- **What a step inside a statement binds** in the `n` frames that are not its own. -/
inductive Effect (N : Num F) (h : Heap F) (us : Addr) (n : ℕ) (t t' : Fiber S) : Prop
  | none (hs : lowest n t'.stack = lowest n t.stack)
  /-- `_`, behind the statement. -/
  | result (res : Res) (hctl : t.ctl = .onRes res) (hn : t.stack.length = n) (ls : Locals)
      (h' : Heap F) (hset : localsSet N us t.ret t.curr h = .ok ls h')
      (hs : lowest n t'.stack = (lowest n t.stack).set 0 ls)
  /-- `local`, as the statement. -/
  | loc (hi : invoked? h t = some (.builtin .loc)) (hn : t.stack.length = n + 1) (ls : Locals)
      (hs : lowest n t'.stack = (lowest n t.stack).set 0 ls)
  /-- `export`, in a block that the statement calls or in one of its arguments. -/
  | block (hi : invoked? h t = some (.builtin .export)) (hn : t.stack.length = n + 2) (ls : Locals)
      (hs : lowest n t'.stack = (lowest n t.stack).set 0 ls)
  /-- `export`, as the statement. -/
  | export (hi : invoked? h t = some (.builtin .export)) (hn : t.stack.length = n + 1) (ls : Locals)
      (hs : lowest n t'.stack = (lowest n t.stack).set 1 ls)

/-- The frames below the two are as they were. -/
theorem Effect.drop {h : Heap F} {us : Addr} {n : ℕ} {t t' : Fiber S} (he : Effect N h us n t t') :
    (lowest n t'.stack).drop 2 = (lowest n t.stack).drop 2 := by
  cases he with
  | none hs => rw [hs]
  | result _ _ _ ls _ _ hs => rw [hs, List.drop_set_of_lt Nat.zero_lt_two]
  | loc _ _ ls hs => rw [hs, List.drop_set_of_lt Nat.zero_lt_two]
  | block _ _ ls hs => rw [hs, List.drop_set_of_lt Nat.zero_lt_two]
  | «export» _ _ ls hs => rw [hs, List.drop_set_of_lt Nat.one_lt_two]

/-! ### Inside a statement -/

/-- `b6b_stmt_call` goes on next, or has returned. -/
def OfStmt : Ctl S → Prop
  | .stmt _ | .argAt _ _ _ | .onRes _ | .ret _ => True
  | _ => False

/-- The fiber is in a statement with the calls `K` around it and `n` frames below it. -/
inductive InStmt (K : List Kont) (n : ℕ) (t : Fiber S) : Prop
  | direct (hk : t.konts = K) (hc : OfStmt t.ctl) (hn : t.stack.length = n + t.ctl.stmts)
  | inside (K' : List Kont) (k : Kont) (hk : t.konts = K' ++ k :: K) (hs : k.stmts = 1)
      (hn : t.stack.length = n + 1 + (t.ctl.stmts + activeIn K'))

/-- The statement goes on, with `K` around it. -/
def Stays (K : List Kont) (t : Fiber S) : Prop :=
  t.konts = K ∧ OfStmt t.ctl ∨ ∃ k, k.stmts = 1 ∧ t.konts = k :: K

section Stays

variable {σ : Interp S}

theorem stmtCall_stays (stmt : Addr) :
    Op.Gives (σ.stmtCall N stmt) fun σ' => Stays σ.fg.konts σ'.fg := by
  unfold Interp.stmtCall
  split
  · exact Op.gives_pure (.inl ⟨rfl, trivial⟩)
  · split
    · exact Op.gives_of_bind fun m => Op.gives_pure (.inl ⟨rfl, trivial⟩)
    · refine Op.gives_of_bind fun r => ?_
      cases r with
      | some lis => exact Op.gives_pure (.inl ⟨rfl, trivial⟩)
      | none => exact Op.gives_pure (.inl ⟨rfl, trivial⟩)

theorem popGoto_stays (res : Res) : Op.Gives (do
    let σ ← σ.framePop (F := F)
    pure (σ.goto (.onRes res))) fun σ' => Stays σ.fg.konts σ'.fg := by
  unfold Interp.framePop
  cases σ.fg.prev with
  | cons f fs => exact Op.gives_pure (.inl ⟨rfl, trivial⟩)
  | nil => exact Op.gives_bind (Q := fun _ => False) Op.gives_crash fun _ => False.elim

theorem argAt_stays (inp : Input I) (stmt : Addr) (vs : List Addr) (li : Option Litem) :
    Op.Gives (σ.argAt N inp stmt vs li) fun σ' => Stays σ.fg.konts σ'.fg := by
  cases li with
  | some li => exact Op.gives_of_bind fun s => Op.gives_pure (.inr ⟨_, rfl, rfl⟩)
  | none =>
    refine Op.gives_of_bind fun args => ?_
    dsimp only
    split
    · refine Op.gives_of_bind fun s => ?_
      split
      · exact Op.gives_pure (.inr ⟨.stmtProc, rfl, rfl⟩)
      · exact popGoto_stays _
    · exact Op.gives_pure (.inr ⟨.stmtProc, rfl, rfl⟩)

theorem resume_stays (res : Res) {k : Kont} (hk : k.stmts = 1) :
    Op.Gives (σ.resume (F := F) res k) fun σ' => Stays σ.fg.konts σ'.fg := by
  unfold Interp.resume
  cases k with
  | stmtArg stmt li vs =>
    dsimp only
    split
    · exact Op.gives_of_bind fun li' => Op.gives_pure (.inl ⟨rfl, trivial⟩)
    · exact popGoto_stays _
  | stmtProc => exact popGoto_stays _
  | _ => cases hk

end Stays

section Step

variable {nat : Natives N S I} {m m' : Machine F S} {inp : Input I} {id n : ℕ} {K : List Kont}

/-- An operation that keeps the other fibers. -/
theorem stays_of_own (hm : Nested m.interp) (hstep : m.step nat inp = some m')
    (hg : Op.Gives (m.interp.step nat inp) fun σ' => Interp.Own m.interp σ' ∧ Stays K σ'.fg) :
    ∀ u ∈ m'.interp.fibers, u.id = m.interp.fg.id → Stays K u := by
  intro u hu hid
  obtain ⟨hs, hstays⟩ := Machine.step_gives hg hstep
  rw [(hm.step hstep).eq_fg hu (hid.trans hs.id.symm)]
  exact hstays

/-- What goes on next in the statement stays in it. -/
theorem stays_step (hm : Nested m.interp) (hstep : m.step nat inp = some m')
    (hk : m.interp.fg.konts = K) (hc : OfStmt m.interp.fg.ctl) (hret : ∀ r, m.interp.fg.ctl ≠ .ret r) :
    ∀ u ∈ m'.interp.fibers, u.id = m.interp.fg.id → Stays K u := by
  subst hk
  cases hctl : m.interp.fg.ctl with
  | stmt stmt =>
    refine stays_of_own hm hstep ?_
    unfold Interp.step
    rw [hctl]
    exact (Interp.stmtCall_own stmt).and (stmtCall_stays stmt)
  | argAt stmt li vs =>
    refine stays_of_own hm hstep ?_
    unfold Interp.step
    rw [hctl]
    exact (Interp.argAt_own inp stmt vs li).and (argAt_stays inp stmt vs li)
  | onRes res =>
    intro u hu hid
    rcases Machine.onRes_fibers hctl hstep u hu with ⟨v, hv, hor⟩ | hcomp
    · have hne : v.id ≠ m.interp.fg.id := hm.distinct.other_ne hv
      rcases hor with rfl | rfl
      · exact absurd hid hne
      · exact absurd hid hne
    · refine .inl ⟨hcomp.konts, ?_⟩
      rw [hcomp.ctl]
      trivial
  | ret r => exact absurd hctl (hret r)
  | _ =>
    rw [hctl] at hc
    exact hc.elim

/-- What is returned to the statement stays in it. -/
theorem stays_ret (hm : Nested m.interp) (hstep : m.step nat inp = some m') {r : Res} {k : Kont}
    (hctl : m.interp.fg.ctl = .ret r) (hk : m.interp.fg.konts = k :: K) (hs : k.stmts = 1) :
    ∀ u ∈ m'.interp.fibers, u.id = m.interp.fg.id → Stays K u := by
  refine stays_of_own hm hstep ?_
  have hsaved : k.saved = none ∧ k ≠ .thread := by
    cases k with
    | stmtArg | stmtProc => exact ⟨rfl, nofun⟩
    | _ => cases hs
  have htail : m.interp.pop.fg.konts = K := by simp [Interp.pop, hk]
  unfold Interp.step
  rw [hctl]
  show Op.Gives (m.interp.ret r) _
  unfold Interp.ret
  rw [hk]
  intro h
  have hboth := (Interp.resume_own (σ := m.interp.pop) (F := F) r hsaved.1 hsaved.2).and (resume_stays r hs)
  refine (hboth h).mono (fun σ' _ hx => ?_) fun _ => id
  rw [htail] at hx
  exact ⟨(Interp.own_pop hk hsaved.1).trans hx.1, hx.2⟩

/-- How many frames the fiber has behind a step. -/
theorem acts_length {i : Option ℕ} {k nf nf' : ℕ} {ks : List Kont} {t t' : Fiber S}
    (h : Fiber.Acts i k nf nf' ks t t') : ∃ new, t'.konts = new ++ ks ∧
      t'.stack.length + k = t.stack.length + (t'.ctl.stmts + activeIn new) := by
  have hpos : t.stack.length = t.prev.length + 1 := rfl
  cases h with
  | binds new ls hk hn hnf hf hd hs => exact ⟨new, hk, by rw [hs, length_rebound, hn]⟩
  | enters hk hn hnf hf hlt hd hs =>
    refine ⟨[], hk, ?_⟩
    rw [hs, List.length_cons, hn, show activeIn [] = 0 from rfl]
    omega
  | leaves hk hn hnf hf hd hs =>
    refine ⟨[], hk, ?_⟩
    rw [hs, List.length_tail, ← hn, show activeIn [] = 0 from rfl]
    omega

/-- **A fiber that does not return from the statement stays in it.** -/
theorem InStmt.step (hm : Nested m.interp) (hstep : m.step nat inp = some m')
    (hno : ∀ r, m.interp.fg.ctl = .ret r → m.interp.fg.konts ≠ K) (hin : InStmt K n m.interp.fg)
    {u : Fiber S} (hu : u ∈ m'.interp.fibers) {i : Option ℕ}
    (ha : Interp.StepActs i m.interp m'.interp.nextFrame u) : InStmt K n u := by
  obtain ⟨hid, hacts⟩ := ha
  obtain ⟨new, hk', hlen⟩ := acts_length hacts
  -- the step is of the statement itself
  have direct : ∀ {k : ℕ}, m.interp.fg.rest = K → m.interp.fg.top = k →
      m.interp.fg.stack.length = n + k → Stays K u → InStmt K n u := by
    intro k hrest htop hn hstays
    rw [hrest] at hk'
    rw [htop, hn] at hlen
    rcases hstays with ⟨hk, hc⟩ | ⟨k₁, hk₁, hk⟩
    · have hnew : new = [] := List.self_eq_append_left.mp (hk.symm.trans hk')
      subst hnew
      refine .direct hk hc ?_
      rw [show activeIn [] = 0 from rfl] at hlen
      omega
    · have hnew : [k₁] = new := List.append_cancel_right (hk.symm.trans hk')
      subst hnew
      refine .inside [] k₁ hk hk₁ ?_
      rw [show activeIn [k₁] = k₁.stmts from rfl, hk₁] at hlen
      rw [show activeIn [] = 0 from rfl]
      omega
  cases hin with
  | direct hk hc hn =>
    have hret : ∀ r, m.interp.fg.ctl ≠ .ret r := fun r hr => hno r hr hk
    refine direct ((Interp.rest_of_ne hret).trans hk) (Interp.top_of_ne hret) hn ?_
    exact stays_step hm hstep hk hc hret u hu hid
  | inside K' k hk hs hn =>
    -- or of what it has called
    have inside : ∀ {K''}, m.interp.fg.rest = K'' ++ k :: K →
        m.interp.fg.top + activeIn K'' = m.interp.fg.ctl.stmts + activeIn K' → InStmt K n u := by
      intro K'' hrest htop
      refine .inside (new ++ K'') k (by rw [hk', hrest, List.append_assoc]) hs ?_
      rw [activeIn_append]
      omega
    by_cases hctl : ∃ r, m.interp.fg.ctl = .ret r
    · obtain ⟨r, hctl⟩ := hctl
      have hrest : m.interp.fg.rest = m.interp.fg.konts.tail := by simp [Fiber.rest, hctl]
      have hstmts : m.interp.fg.ctl.stmts = 0 := by rw [hctl]; rfl
      cases K' with
      | nil =>
        rw [hk] at hrest
        refine direct (k := 1) hrest ?_ ?_ (stays_ret hm hstep hctl hk hs u hu hid)
        · simp [Fiber.top, hctl, hk, activeIn, hs]
        · rw [hn, hstmts]
          rfl
      | cons k₁ K' =>
        rw [hk] at hrest
        refine inside hrest ?_
        rw [hstmts]
        simp [Fiber.top, hctl, hk, activeIn]
    · have hret : ∀ r, m.interp.fg.ctl ≠ .ret r := fun r hr => hctl ⟨r, hr⟩
      exact inside ((Interp.rest_of_ne hret).trans hk) (by rw [Interp.top_of_ne hret])

theorem InStmt.length_le {t : Fiber S} (h : InStmt K n t) : n ≤ t.stack.length := by
  cases h with
  | direct _ _ hn => omega
  | inside _ _ _ _ hn => omega

/-- The statement completes. -/
theorem effect_result (hm : Nested m.interp) (hstep : m.step nat inp = some m') {res : Res}
    (hctl : m.interp.fg.ctl = .onRes res) (hn : m.interp.fg.stack.length = n) {u : Fiber S}
    (hu : u ∈ m'.interp.fibers) (hid : u.id = m.interp.fg.id) :
    Effect N m.heap m.interp.shared.us n m.interp.fg u := by
  rcases Machine.onRes_fibers hctl hstep u hu with ⟨v, hv, hor⟩ | hcomp
  · have hne : v.id ≠ m.interp.fg.id := hm.distinct.other_ne hv
    rcases hor with rfl | rfl
    · exact absurd hid hne
    · exact absurd hid hne
  · rcases hcomp.stack with hs | ⟨ls, h', hset, hs⟩
    · exact .none (by rw [hs])
    · refine .result res hctl hn ls h' hset ?_
      have hlen : u.stack.length = n := by
        rw [hs, ← hn]
        rfl
      rw [lowest_self hlen, lowest_self hn, hs]
      rfl

/-- A procedure that is called in the statement binds variables. -/
theorem effect_invoke {h : Heap F} {t u : Fiber S} {p : Proc} (hi : invoked? h t = some p) {j : ℕ}
    (hj : p.bindsAt = some j) (hn : n < t.stack.length) {us : Addr} {ls : Locals}
    (hs : u.stack = t.stack.set j ls) : Effect N h us n t u := by
  by_cases hlt : j < t.stack.length - n
  · exact .none (by rw [hs, lowest_set_of_lt hlt])
  · unfold Proc.bindsAt at hj
    split at hj
    · obtain rfl := Option.some.inj hj
      omega
    · obtain rfl := Option.some.inj hj
      have hlen : t.stack.length = n + 1 := by omega
      refine .loc hi hlen ls ?_
      rw [hs, lowest_set (j := 0) (by omega)]
    · obtain rfl := Option.some.inj hj
      have hlen : t.stack.length = n + 1 ∨ t.stack.length = n + 2 := by omega
      rcases hlen with hlen | hlen
      · refine .export hi hlen ls ?_
        rw [hs, lowest_set (j := 1) (by omega)]
      · refine .block hi hlen ls ?_
        rw [hs, lowest_set (j := 0) (by omega)]
    · cases hj

/-- **What a step of the fiber binds.** -/
theorem effect_acts (hm : Nested m.interp) (hstep : m.step nat inp = some m')
    (hin : InStmt K n m.interp.fg) {u : Fiber S} (hu : u ∈ m'.interp.fibers) (hin' : InStmt K n u)
    (ha : Interp.StepActs (m.interp.bindsAt m.heap) m.interp m'.interp.nextFrame u) :
    Effect N m.heap m.interp.shared.us n m.interp.fg u := by
  obtain ⟨hid, hacts⟩ := ha
  have hlen := hin.length_le
  have hlen' := hin'.length_le
  cases hacts with
  | enters _ _ _ _ _ _ hs => exact .none (by rw [hs, lowest_cons hlen])
  | leaves _ _ _ _ _ hs =>
    refine .none ?_
    rw [hs, lowest_tail]
    rw [hs, List.length_tail] at hlen'
    have hpos : m.interp.fg.stack.length = m.interp.fg.prev.length + 1 := rfl
    omega
  | binds new ls _ _ _ _ _ hs =>
    unfold Interp.bindsAt at hs
    split at hs
    · next args hctl =>
      -- a procedure is not called by `b6b_stmt_call` itself, so there is a frame above
      have hn : n < m.interp.fg.stack.length := by
        cases hin with
        | direct _ hc =>
          rw [hctl] at hc
          exact hc.elim
        | inside _ _ _ _ hn => omega
      split at hs
      · next li lis hl =>
        cases hj : (m.heap.obj li.o).proc.bindsAt with
        | none =>
          rw [hj] at hs
          exact .none (by rw [hs]; rfl)
        | some j =>
          rw [hj] at hs
          exact effect_invoke (by simp [invoked?, hctl, hl]) hj hn hs
      · exact .none (by rw [hs]; rfl)
    · next hctl =>
      cases hin with
      | direct _ hc =>
        rw [hctl] at hc
        exact hc.elim
      | inside _ _ _ _ hn =>
        refine .none ?_
        rw [hs]
        exact lowest_set_of_lt (by omega) ls
    · next res hctl =>
      cases hin with
      | direct _ _ hn =>
        rw [hctl] at hn
        exact effect_result hm hstep hctl hn hu hid
      | inside _ _ _ _ hn =>
        refine .none ?_
        rw [hs]
        exact lowest_set_of_lt (by omega) ls
    · exact .none (by rw [hs]; rfl)

/-! ### The run of a statement -/

/-- The fiber `id` has not returned from the statement with the calls `K` around it and `n`
frames below it, those under the first two being `R`. -/
structure InScope (id n : ℕ) (K : List Kont) (R : List Locals) (σ : Interp S) : Prop where
  nested : Nested σ
  lt : id < σ.nextId
  inStmt : ∀ t ∈ σ.fibers, t.id = id → InStmt K n t
  below : ∀ t ∈ σ.fibers, t.id = id → (lowest n t.stack).drop 2 = R

variable {R : List Locals}

theorem InScope.step_of (h : InScope id n K R m.interp) (hno : returned? K id m.interp = none)
    (hstep : m.step nat inp = some m') {u : Fiber S} (hu : u ∈ m'.interp.fibers) (hid : u.id = id) :
    InStmt K n u ∧ (∃ t ∈ m.interp.fibers, t.id = id) ∧ ∀ t ∈ m.interp.fibers, t.id = id →
      Effect N m.heap m.interp.shared.us n t u := by
  rcases (Machine.step_steps hstep).fibers u hu with ⟨v, hv, hor⟩ | ha | ⟨-, fn, rfl⟩
  · have hvid : v.id = id := by
      rcases hor with rfl | rfl
      · exact hid
      · exact hid
    have hv' := h.inStmt v (other_mem hv) hvid
    refine ⟨?_, ⟨v, other_mem hv, hvid⟩, fun t ht htid => ?_⟩
    · rcases hor with rfl | rfl
      · exact hv'
      · cases hv' with
        | direct hk hc hn => exact .direct hk hc hn
        | inside K' k hk hs hn => exact .inside K' k hk hs hn
    · obtain rfl := h.nested.eq_of_id ht (other_mem hv) (htid.trans hvid.symm)
      rcases hor with rfl | rfl
      · exact .none rfl
      · exact .none rfl
  · have hfg : m.interp.fg.id = id := ha.1.symm.trans hid
    have hin := h.inStmt _ (fg_mem _) hfg
    have hret : ∀ r, m.interp.fg.ctl = .ret r → m.interp.fg.konts ≠ K := fun r hctl hk => by
      rw [returned_eq_some.mpr ⟨hctl, hk, hfg⟩] at hno
      cases hno
    have hin' := hin.step h.nested hstep hret hu ha
    refine ⟨hin', ⟨_, fg_mem _, hfg⟩, fun t ht htid => ?_⟩
    rw [h.nested.eq_fg ht (htid.trans hfg.symm)]
    exact effect_acts h.nested hstep hin hu hin' ha
  · exact absurd hid (Nat.ne_of_gt h.lt)

theorem InScope.step (h : InScope id n K R m.interp) (hno : returned? K id m.interp = none)
    (hstep : m.step nat inp = some m') : InScope id n K R m'.interp := by
  have hmove := (Machine.step_spec hstep).1
  refine ⟨h.nested.step hstep, Nat.lt_of_lt_of_le h.lt hmove.nextId_le, fun u hu hid => ?_, fun u hu hid => ?_⟩
  · exact (h.step_of hno hstep hu hid).1
  · obtain ⟨-, ⟨t, ht, htid⟩, heffect⟩ := h.step_of hno hstep hu hid
    rw [(heffect t ht htid).drop, h.below t ht htid]

theorem inScope_start (hm : Nested m.interp) {stmt : Addr} (hctl : m.interp.fg.ctl = .stmt stmt) :
    InScope m.interp.fg.id m.interp.fg.stack.length m.interp.fg.konts (m.interp.fg.stack.drop 2)
      m.interp := by
  refine ⟨hm, hm.distinct.lt _ (List.mem_map_of_mem (fg_mem _)), fun t ht hid => ?_, fun t ht hid => ?_⟩
  · rw [hm.eq_fg ht hid]
    refine .direct rfl ?_ ?_
    · rw [hctl]
      trivial
    · rw [hctl]
      rfl
  · rw [hm.eq_fg ht hid, lowest_self rfl]

/-- The statement returns with the frames below it, the first two aside. -/
theorem InScope.returned {res : Res} (h : InScope id n K R m.interp)
    (hret : returned? K id m.interp = some res) :
    m.interp.fg.stack.length = n ∧ m.interp.fg.stack.drop 2 = R := by
  obtain ⟨hctl, hk, hid⟩ := returned_eq_some.mp hret
  have hlen : m.interp.fg.stack.length = n := by
    cases h.inStmt _ (fg_mem _) hid with
    | direct _ _ hn =>
      rw [hctl] at hn
      exact hn
    | inside K' k hk' _ _ =>
      have hlong := congrArg List.length (hk'.symm.trans hk)
      rw [List.length_append, List.length_cons] at hlong
      omega
  have hbelow := h.below _ (fg_mem _) hid
  rw [lowest_self hlen] at hbelow
  exact ⟨hlen, hbelow⟩

/-- What holds throughout a run holds where a call in it returns. -/
theorem throughout_runTo {P : Machine F S → Prop} : ∀ {inps : List (Input I)} {m m' : Machine F S}
    {res : Res}, Runs.Throughout (Machine.step nat) P m inps →
    runTo nat K id m inps = some (m', res) → P m'
  | [], _, _, _, _, h => nomatch h
  | inp :: inps, m, m', res, hall, h => by
    obtain ⟨m₁, hstep, h⟩ := Option.bind_eq_some_iff.mp h
    have hrest := hall.2
    rw [hstep] at hrest
    rcases hret : returned? K id m₁.interp with _ | r <;> rw [hret] at h
    · exact throughout_runTo hrest h
    · cases h
      exact hrest.head

end Step

/-! ### Every reachable state -/

/-- The frames that `b6b_get` looks into. -/
def visible (σ : Interp S) : List Locals := σ.fg.stack ++ [σ.global]

/-- No variable `b` is in the current frame, the one below it or the global one. -/
def Passes (N : Num F) (m : Machine F S) (b : Bytes) : Prop :=
  Unbound N m.heap b (m.interp.fg.stack.take 2).flatten ∧ Unbound N m.heap b m.interp.global

/-- The keys of these frames have their strings. -/
def Keyed (h : Heap F) (fs : List Locals) : Prop :=
  ∀ p ∈ fs.flatten, p.1 < h.next ∧ (h.obj p.1).s.isSome

/-- A lookup that passes the three frames ends in the others. -/
theorem finds_below {m : Machine F S} {name : Addr} {b : Bytes} {r : Option Addr} {h' : Heap F}
    (hv : Val N m.heap name b) (hp : Passes N m b)
    (hget : framesGet N name (visible m.interp) m.heap = .ok r h') :
    Finds N m.heap b (m.interp.fg.stack.drop 2).flatten r := by
  have hf := (framesGet_ends (visible m.interp) m.heap hv).ok hget
  rw [visible, List.flatten_append, List.flatten_singleton] at hf
  rw [← List.take_append_drop 2 m.interp.fg.stack, List.flatten_append] at hf
  rw [List.append_assoc] at hf
  exact (hf.of_unbound hp.1).of_unbound_right hp.2

/-- **The scope of bindings.** Where a statement is next, whatever it then does, each step of
its fiber has one of the effects of `Effect` on the frames that were there. It returns with
the frames below the first two as they were. And a lookup that passes these two and the
global frame, before the statement and behind it, finds the same, if the keys of the others
have their strings and no step changes one of them in place. -/
theorem scope_kept (nat : Natives N S I) (args : List Bytes) (exts : List ExtObj)
    (progs : List (Opts × Bytes)) (m₀ : Machine F S)
    (hstart : Machine.start? N args exts progs = some m₀) (inps₀ : List (Input I)) (m : Machine F S)
    (hrun : Runs.run (Machine.step nat) m₀ inps₀ = some m) (stmt : Addr)
    (hctl : m.interp.fg.ctl = .stmt stmt) :
    (∀ inps₁ m₁, Runs.run (Machine.step nat) m inps₁ = some m₁ →
      Literals.callResult nat m inps₁ = none → ∀ inp m₂, m₁.step nat inp = some m₂ →
      ∀ t ∈ m₁.interp.fibers, t.id = m.interp.fg.id → ∀ u ∈ m₂.interp.fibers,
        u.id = m.interp.fg.id →
        Effect N m₁.heap m₁.interp.shared.us m.interp.fg.stack.length t u) ∧
    ∀ inps m' res, Literals.callResult nat m inps = some (m', res) →
      m'.interp.fg.stack.length = m.interp.fg.stack.length ∧
      m'.interp.fg.stack.drop 2 = m.interp.fg.stack.drop 2 ∧
      (Keyed m.heap (m.interp.fg.stack.drop 2) →
        Runs.EachStep (Machine.step nat) (fun m₁ _ => ∀ p ∈ (m.interp.fg.stack.drop 2).flatten,
          ¬ m₁.Touches nat (.change p.1)) m inps →
        ∀ name b, Val N m.heap name b → Val N m'.heap name b → Passes N m b → Passes N m' b →
        ∀ r h₁ r' h₂, framesGet N name (visible m.interp) m.heap = .ok r h₁ →
          framesGet N name (visible m'.interp) m'.heap = .ok r' h₂ → r' = r) := by
  have hm : Nested m.interp := (nested_start hstart).run hrun
  have hno := Calling.not_returned (.inl ⟨stmt, hctl⟩)
  have hP : ∀ (m₁ : Machine F S) inp m₂, InScope m.interp.fg.id m.interp.fg.stack.length
      m.interp.fg.konts (m.interp.fg.stack.drop 2) m₁.interp →
      returned? m.interp.fg.konts m.interp.fg.id m₁.interp = none → m₁.step nat inp = some m₂ →
      InScope m.interp.fg.id m.interp.fg.stack.length m.interp.fg.konts
        (m.interp.fg.stack.drop 2) m₂.interp := fun _ _ _ h hno hstep => h.step hno hstep
  refine ⟨?_, ?_⟩
  · intro inps₁ m₁ hrun₁ hnone inp m₂ hstep t ht htid u hu huid
    obtain ⟨hin, hno₁⟩ := run_invariant hP (inScope_start hm hctl) hno hrun₁ hnone
    exact (hin.step_of hno₁ hstep hu huid).2.2 t ht htid
  · intro inps m' res hcall
    obtain ⟨hin, hret⟩ := runTo_invariant hP (inScope_start hm hctl) hno hcall
    obtain ⟨hlen, hbelow⟩ := hin.returned hret
    refine ⟨hlen, hbelow, ?_⟩
    intro hkeyed hsteps name b hv hv' hp hp' r h₁ r' h₂ hget hget'
    have hf := finds_below hv hp hget
    have hf' := finds_below hv' hp' hget'
    rw [hbelow] at hf'
    refine (hf.unique hf' fun p hmem c c' hc hc' => ?_).symm
    -- the keys of these frames keep their strings, as literals do
    obtain ⟨hlt, hsome⟩ := hkeyed p hmem
    obtain ⟨d, hd⟩ := Option.isSome_iff_exists.mp hsome
    have hkept := literal_kept nat m inps p.1 d hlt hd (hsteps.mono fun _ _ hq => hq p hmem)
    have hd' : (m'.heap.obj p.1).s = some d := throughout_runTo hkept hcall
    exact (hc.unique (.str hd)).trans (hc'.unique (.str hd')).symm

/-! ### Programs -/

/-- A machine that a program reaches. -/
def Reached (m : Machine ℤ Unit) : Prop := ∃ args exts progs m₀ inps,
  Machine.start? wholeNum args exts progs = some m₀ ∧ Runs.run wholeStep m₀ inps = some m

/-- There is one fiber. -/
def Alone (σ : Interp S) : Prop := σ.fibers.length = 1

instance (σ : Interp S) : Decidable (Alone σ) := inferInstanceAs (Decidable (_ = _))

/-- The statement that is next. -/
def stmt? (t : Fiber S) : Option Addr :=
  match t.ctl with
  | .stmt stmt => some stmt
  | _ => none

theorem stmt_of_eq_some {t : Fiber S} {stmt : Addr} (h : stmt? t = some stmt) : t.ctl = .stmt stmt := by
  unfold stmt? at h
  split at h
  · next hctl =>
    obtain rfl := Option.some.inj h
    exact hctl
  · cases h

/-- The frame that a statement is in changes by `local` as this statement and by `_` only. -/
def BindsLocally : Prop := ∀ m, Reached m → Alone m.interp → ∀ stmt, m.interp.fg.ctl = .stmt stmt →
  ∀ inps₁ m₁, Runs.run wholeStep m inps₁ = some m₁ →
    callResult (Natives.none wholeNum) m inps₁ = none →
  ∀ inp m₂, wholeStep m₁ inp = some m₂ → Alone m₂.interp →
    (lowest m.interp.fg.stack.length m₂.interp.fg.stack).head? ≠
      (lowest m.interp.fg.stack.length m₁.interp.fg.stack).head? →
    invoked? m₁.heap m₁.interp.fg = some (.builtin .loc) ∨ ∃ res, m₁.interp.fg.ctl = .onRes res

/-- A lookup that passes the three frames before a statement and behind it finds the same. -/
def LookupsKept : Prop := ∀ m, Reached m → Alone m.interp → ∀ stmt, m.interp.fg.ctl = .stmt stmt →
  ∀ inps m' res, callResult (Natives.none wholeNum) m inps = some (m', res) → Alone m'.interp →
  ∀ name b, Val wholeNum m.heap name b → Val wholeNum m'.heap name b →
    Passes wholeNum m b → Passes wholeNum m' b →
  ∀ r h₁ r' h₂, framesGet wholeNum name (visible m.interp) m.heap = .ok r h₁ →
    framesGet wholeNum name (visible m'.interp) m'.heap = .ok r' h₂ → r' = r

/-- A block that exports. -/
theorem not_bindsLocally : ¬ BindsLocally := by
  intro hall
  have hrun : ((wholeStart shortNames "{$i 1 {{$v Y 1}}}").bind fun m₀ =>
      (Runs.run wholeStep m₀ (quiet 3)).bind fun m => (Runs.run wholeStep m (quiet 25)).bind fun m₁ =>
      (wholeStep m₁ ⟨(), true, none⟩).map fun m₂ => (m, m₁, m₂)).any (fun p => decide (
        Alone p.1.interp ∧ stmt? p.1.interp.fg = some 58 ∧
        (callResult (Natives.none wholeNum) p.1 (quiet 25)).isNone ∧ Alone p.2.2.interp ∧
        (lowest p.1.interp.fg.stack.length p.2.2.interp.fg.stack).head? ≠
          (lowest p.1.interp.fg.stack.length p.2.1.interp.fg.stack).head? ∧
        invoked? p.2.1.heap p.2.1.interp.fg = some (.builtin .export))) = true := by
    decide +kernel
  obtain ⟨p, hp, hbad⟩ := (Option.any_eq_true _ _).mp hrun
  obtain ⟨m₀, hm₀, hp⟩ := Option.bind_eq_some_iff.mp hp
  obtain ⟨m, hm, hp⟩ := Option.bind_eq_some_iff.mp hp
  obtain ⟨m₁, hm₁, hp⟩ := Option.bind_eq_some_iff.mp hp
  obtain ⟨m₂, hm₂, rfl⟩ := Option.map_eq_some_iff.mp hp
  obtain ⟨halone, hstmt, hnone, halone₂, hne, hinvoked⟩ := of_decide_eq_true hbad
  have hreached : Reached m := ⟨_, _, _, m₀, _, hm₀, hm⟩
  have hbinds := hall m hreached halone 58 (stmt_of_eq_some hstmt) _ m₁ hm₁
    (Option.isNone_iff_eq_none.mp hnone) _ m₂ hm₂ halone₂ hne
  rcases hbinds with hloc | ⟨res, hctl⟩
  · rw [hinvoked] at hloc
    cases hloc
  · have hno : invoked? m₁.heap m₁.interp.fg = none := by
      unfold invoked?
      rw [hctl]
    rw [hno] at hinvoked
    cases hinvoked

theorem val_of_textOf {h : Heap F} {a : Addr} {b : Bytes} (ht : textOf N h a = some b) : Val N h a b := by
  unfold textOf at ht
  split at ht
  · next hok =>
    obtain rfl := Option.some.inj ht
    exact ((asStr_returns N a h).ok hok).2.1
  · cases ht

/-- All names in these variables can be read, and are others. -/
def OtherNames (N : Num F) (h : Heap F) (b : Bytes) (ls : Locals) : Prop :=
  ∀ p ∈ ls, (textOf N h p.1).any (· ≠ b) = true

instance (h : Heap F) (b : Bytes) (ls : Locals) : Decidable (OtherNames N h b ls) :=
  inferInstanceAs (Decidable (∀ p ∈ ls, _))

theorem OtherNames.unbound {h : Heap F} {b : Bytes} {ls : Locals} (ho : OtherNames N h b ls) :
    Unbound N h b ls := by
  intro p hp hv
  obtain ⟨c, hc, hne⟩ := (Option.any_eq_true _ _).mp (ho p hp)
  exact of_decide_eq_true hne ((val_of_textOf hc).unique hv)

/-- What `b6b_get` finds. -/
def got (N : Num F) (name : Addr) (m : Machine F S) : Option (Option Addr) :=
  match framesGet N name (visible m.interp) m.heap with
  | .ok r _ => some r
  | _ => none

theorem framesGet_of_got {name : Addr} {m : Machine F S} {r : Option Addr} (h : got N name m = some r) :
    ∃ h', framesGet N name (visible m.interp) m.heap = .ok r h' := by
  unfold got at h
  split at h
  · next hok =>
    obtain rfl := Option.some.inj h
    exact ⟨_, hok⟩
  · cases h

/-- `name` is the name `b`, which passes the three frames. -/
def Past (name : Addr) (b : Bytes) (m : Machine ℤ Unit) : Prop := textOf wholeNum m.heap name = some b ∧
  OtherNames wholeNum m.heap b (m.interp.fg.stack.take 2).flatten ∧
  OtherNames wholeNum m.heap b m.interp.global

instance (name : Addr) (b : Bytes) (m : Machine ℤ Unit) : Decidable (Past name b m) :=
  inferInstanceAs (Decidable (_ ∧ _))

theorem Past.passes {name : Addr} {b : Bytes} {m : Machine ℤ Unit} (h : Past name b m) :
    Passes wholeNum m b := ⟨h.2.1.unbound, h.2.2.unbound⟩

instance (h : Heap F) (fs : List Locals) : Decidable (Keyed h fs) :=
  inferInstanceAs (Decidable (∀ p ∈ fs.flatten, _))

/-- A `local` in a block of a block, and a lookup of a variable of the program. -/
theorem scope_kept_local : ∃ (m m' : Machine ℤ Unit) (res : Res),
    ((wholeStart shortNames "{$l K 1} {$i 1 {{$i 1 {{$l Z 2}}}}}").bind
      fun m₀ => Runs.run wholeStep m₀ (quiet 47)) = some m ∧
    callResult (Natives.none wholeNum) m (quiet 14) = some (m', res) ∧
    m'.interp.fg.stack.drop 2 = m.interp.fg.stack.drop 2 ∧ ∀ r r', got wholeNum 61 m = some r →
      got wholeNum 61 m' = some r' → r' = r := by
  have hrun : ((wholeStart shortNames "{$l K 1} {$i 1 {{$i 1 {{$l Z 2}}}}}").bind fun m₀ =>
      (Runs.run wholeStep m₀ (quiet 47)).bind fun m =>
      (callResult (Natives.none wholeNum) m (quiet 14)).map fun p => (m, p)).any
        (fun p : Machine ℤ Unit × Machine ℤ Unit × Res => decide (
          stmt? p.1.interp.fg = some 76 ∧ Keyed p.1.heap (p.1.interp.fg.stack.drop 2) ∧
          Runs.EachStep wholeStep (fun m₁ _ => ∀ q ∈ (p.1.interp.fg.stack.drop 2).flatten,
            ¬ m₁.Touches (Natives.none wholeNum) (.change q.1)) p.1 (quiet 14) ∧
          Past 61 (bytes "K") p.1 ∧ Past 61 (bytes "K") p.2.1)) = true := by
    decide +kernel
  obtain ⟨p, hp, hgood⟩ := (Option.any_eq_true _ _).mp hrun
  obtain ⟨m₀, hm₀, hp⟩ := Option.bind_eq_some_iff.mp hp
  obtain ⟨m, hm, hp⟩ := Option.bind_eq_some_iff.mp hp
  obtain ⟨⟨m', res⟩, hcall, rfl⟩ := Option.map_eq_some_iff.mp hp
  obtain ⟨hstmt, hkeyed, hsteps, hpast, hpast'⟩ := of_decide_eq_true hgood
  have hscope := scope_kept _ _ _ _ m₀ hm₀ _ m hm 76 (stmt_of_eq_some hstmt)
  obtain ⟨-, hbelow, hlookup⟩ := hscope.2 _ m' res hcall
  refine ⟨m, m', res, by rw [hm₀]; exact hm, hcall, hbelow, fun r r' hgot hgot' => ?_⟩
  obtain ⟨h₁, hget⟩ := framesGet_of_got hgot
  obtain ⟨h₂, hget'⟩ := framesGet_of_got hgot'
  exact hlookup hkeyed hsteps 61 (bytes "K") (val_of_textOf hpast.1) (val_of_textOf hpast'.1)
    hpast.passes hpast'.passes r h₁ r' h₂ hget hget'

/-- A block that appends to a key of the frame below the three. -/
theorem not_lookupsKept : ¬ LookupsKept := by
  intro hall
  have hrun : ((wholeStart shortNames
        "{$l N {A B}} {$l K {A B}} {$l $K 1} {$i 1 {{$i 1 {{$a $K C}}}}}").bind fun m₀ =>
      (Runs.run wholeStep m₀ (quiet 79)).bind fun m =>
      (callResult (Natives.none wholeNum) m (quiet 20)).map fun p => (m, p)).any
        (fun p : Machine ℤ Unit × Machine ℤ Unit × Res => decide (
          Alone p.1.interp ∧ stmt? p.1.interp.fg = some 89 ∧ Alone p.2.1.interp ∧
          Past 64 (bytes "A B") p.1 ∧ Past 64 (bytes "A B") p.2.1 ∧ got wholeNum 64 p.1 = some (some 74) ∧
          got wholeNum 64 p.2.1 = some none)) = true := by
    decide +kernel
  obtain ⟨p, hp, hbad⟩ := (Option.any_eq_true _ _).mp hrun
  obtain ⟨m₀, hm₀, hp⟩ := Option.bind_eq_some_iff.mp hp
  obtain ⟨m, hm, hp⟩ := Option.bind_eq_some_iff.mp hp
  obtain ⟨⟨m', res⟩, hcall, rfl⟩ := Option.map_eq_some_iff.mp hp
  obtain ⟨halone, hstmt, halone', hpast, hpast', hgot, hgot'⟩ := of_decide_eq_true hbad
  have hreached : Reached m := ⟨_, _, _, m₀, _, hm₀, hm⟩
  obtain ⟨h₁, hget⟩ := framesGet_of_got hgot
  obtain ⟨h₂, hget'⟩ := framesGet_of_got hgot'
  have hsame := hall m hreached halone 89 (stmt_of_eq_some hstmt) _ m' res hcall halone' 64 (bytes "A B")
    (val_of_textOf hpast.1) (val_of_textOf hpast'.1) hpast.passes hpast'.passes _ h₁ _ h₂ hget hget'
  cases hsame

/-- A block of a statement binds in the frame that the statement is in; and a key that is changed
in place is another name. -/
theorem scope_left : ¬ BindsLocally ∧ ¬ LookupsKept := ⟨not_bindsLocally, not_lookupsKept⟩

end Scope

end B6b
