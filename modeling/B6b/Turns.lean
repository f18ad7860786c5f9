/-
# What a fiber does next

`Turn` is what one step makes of the control of the foreground fiber: what it does next and
the calls that wait then. A step that gets to an item of a list, or calls a procedure, has a
case of its own; all others are `plain`. `Machine.step_turns` says so of every step, and that
the other fibers keep all they have.

A loop over a list has a cursor, the item it is at (`Cursor`). What a step adds to the cursors
of a fiber is linked in its list behind the step.

Key definitions: `Cursor`, `Linked`, `Plain`, `Turn`.
-/
import B6b.Frames

namespace B6b

variable {F S I : Type} {N : Num F}

/-! ### Cursors -/

/-- A list, and the identity of the item of it that a loop is at. -/
abbrev Cursor := Addr × ℕ

/-- The cursor of a loop over `l` at `li`, unless it is at the end. -/
def cursorAt (l : Addr) : Option Litem → Option Cursor
  | some li => some (l, li.id)
  | none => none

/-- The cursor that a waiting call uses next. -/
def Kont.cursor : Kont → Option Cursor
  | .stmtArg stmt li _ => some (stmt, li.id)
  | .call stmts li => some (stmts, li.id)
  | .map _ l _ li _ => cursorAt l li
  | _ => none

/-- The cursor that the fiber uses next. -/
def Ctl.cursor : Ctl S → Option Cursor
  | .callAt a li => cursorAt a li
  | .argAt a li _ => cursorAt a li
  | .mapAt _ a _ li _ => cursorAt a li
  | _ => none

/-- The cursors of all loops that the fiber is in. -/
def Fiber.cursors (t : Fiber S) : List Cursor := t.ctl.cursor.toList ++ t.konts.filterMap Kont.cursor

/-- The item is still in its list. -/
def Linked (h : Heap F) (c : Cursor) : Prop :=
  c.1 < h.next ∧ ∃ lis, (h.obj c.1).l = some lis ∧ c.2 ∈ lis.map (·.id)

/-- `li` is an item of the list, with the object that it has there. -/
def ItemOf (h : Heap F) (l : Addr) (li : Litem) : Prop :=
  l < h.next ∧ ∃ lis, (h.obj l).l = some lis ∧ li ∈ lis

/-- The item `li` of a loop over `l`, if it is at one, is in the list. -/
def LinkedAt (h : Heap F) (l : Addr) (li : Option Litem) : Prop := ∀ x ∈ li, ItemOf h l x

/-- No loop is at an item, and no procedure is called. -/
def Ctl.plain : Ctl S → Bool
  | .callAt _ _ | .argAt _ _ _ | .invoke _ | .mapAt _ _ _ _ _ => false
  | _ => true

/-- `b6b_stmt_call` waits. -/
def Kont.ofStmt : Kont → Bool
  | .stmtArg _ _ _ | .stmtProc => true
  | _ => false

/-- `b6b_stmt_call` goes on. -/
def Ctl.ofStmt : Ctl S → Bool
  | .stmt _ | .argAt _ _ _ | .onRes _ => true
  | _ => false

/-- The list that `b6b_call` executes, if it waits. -/
def Kont.ofCall : Kont → Option Addr
  | .call stmts _ => some stmts
  | _ => none

/-- The list that `b6b_call` executes, if it goes on. -/
def Ctl.ofCall : Ctl S → Option Addr
  | .call stmts | .callAt stmts _ => some stmts
  | _ => none

/-- None of the loops over lists waits, and no procedure with a body. -/
def Kont.plain : Kont → Bool
  | .loop _ | .tryBody _ _ | .tryExcept _ | .tryFinally _ _ _ _ | .thread | .main _ => true
  | _ => false

/-- `b6b_stmt_call` goes on next, or is returned to. -/
def Fiber.stmtNext (t : Fiber S) : Bool :=
  match t.ctl with
  | .ret _ => t.konts.head?.any Kont.ofStmt
  | c => c.ofStmt

/-- The list of the `b6b_call` that goes on next, or is returned to. -/
def Fiber.callNext (t : Fiber S) : Option Addr :=
  match t.ctl with
  | .ret _ => t.konts.head?.bind Kont.ofCall
  | c => c.ofCall

theorem Kont.cursor_of_plain {k : Kont} (h : k.plain = true) : k.cursor = none := by
  cases k with
  | stmtArg | call | map => cases h
  | _ => rfl

theorem Ctl.cursor_of_plain {c : Ctl S} (h : c.plain = true) : c.cursor = none := by
  cases c with
  | callAt | argAt | invoke | mapAt => cases h
  | _ => rfl

/-- All calls that wait stay, and it is neither `b6b_stmt_call` nor `b6b_call` that goes on. -/
structure Fiber.Apart (t : Fiber S) : Prop where
  rest : t.rest = t.konts
  stmt : t.stmtNext = false
  call : t.callNext = none

theorem Fiber.stmtNext_of_ne {t : Fiber S} {c : Ctl S} (hc : t.ctl = c) (hne : ∀ r, c ≠ .ret r) :
    t.stmtNext = c.ofStmt := by
  subst hc
  unfold stmtNext
  split
  · next r hr => exact absurd hr (hne r)
  · rfl

theorem Fiber.callNext_of_ne {t : Fiber S} {c : Ctl S} (hc : t.ctl = c) (hne : ∀ r, c ≠ .ret r) :
    t.callNext = c.ofCall := by
  subst hc
  unfold callNext
  split
  · next r hr => exact absurd hr (hne r)
  · rfl

theorem Fiber.apart_of {t : Fiber S} {c : Ctl S} (hc : t.ctl = c) (hne : ∀ r, c ≠ .ret r)
    (hof : c.ofStmt = false) (hcall : c.ofCall = none) : t.Apart :=
  ⟨Interp.rest_of_ne (hc ▸ hne), (stmtNext_of_ne hc hne).trans hof, (callNext_of_ne hc hne).trans hcall⟩

theorem itemOf_iff {h : Heap F} {l : Addr} {li : Litem} :
    ItemOf h l li ↔ l < h.next ∧ li ∈ (h.obj l).l.getD [] := by
  unfold ItemOf
  cases (h.obj l).l with
  | none => simp
  | some lis => simp

theorem ItemOf.linked {h : Heap F} {l : Addr} {li : Litem} (hli : ItemOf h l li) : Linked h (l, li.id) := by
  obtain ⟨hlt, lis, hl, hmem⟩ := hli
  exact ⟨hlt, lis, hl, List.mem_map_of_mem hmem⟩

theorem LinkedAt.linked {h : Heap F} {l : Addr} {li : Option Litem} (hli : LinkedAt h l li) {c : Cursor}
    (hc : c ∈ cursorAt l li) : Linked h c := by
  cases li with
  | none => cases hc
  | some x =>
    obtain rfl := Option.some.inj hc
    exact (hli x rfl).linked

theorem linkedAt_none (h : Heap F) (l : Addr) : LinkedAt h l none := fun _ hc => nomatch hc

theorem linkedAt_head {h : Heap F} {l : Addr} {lis : List Litem} (hlt : l < h.next)
    (hl : (h.obj l).l = some lis) : LinkedAt h l lis.head? :=
  fun _ hx => ⟨hlt, lis, hl, List.mem_of_mem_head? hx⟩

theorem nextOf_mem {li li' : Litem} : ∀ {lis : List Litem}, nextOf li lis = some (some li') → li' ∈ lis
  | x :: xs, h => by
    unfold nextOf at h
    split_ifs at h
    · exact List.mem_cons_of_mem _ (List.mem_of_mem_head? (Option.some.inj h))
    · exact List.mem_cons_of_mem _ (nextOf_mem h)

/-- The next item of a list is in it. -/
theorem listNext_returns (l : Addr) (li : Litem) (h : Heap F) :
    Op.Returns (listNext l li) h fun li' h' => h = h' ∧ LinkedAt h l li' := by
  refine Op.returns_bind (items_returns l h) ?_
  rintro lis _ ⟨rfl, hlt, hl⟩
  cases hn : nextOf li lis with
  | none => exact Op.ends_crash
  | some li' =>
    refine Op.ends_pure ⟨rfl, ?_⟩
    cases li' with
    | none => exact linkedAt_none h l
    | some x =>
      rintro _ ⟨⟩
      exact ⟨hlt, lis, hl, nextOf_mem hn⟩

/-- A list keeps its items as long as it is not changed in place. -/
theorem Linked.event {t : Touch} {h h' : Heap F} {c : Cursor} (hl : Linked h c) (he : Event N t h h')
    (hc : t ≠ .change c.1) (hp : t ≠ .pop c.1) : Linked h' c := by
  obtain ⟨hlt, lis, hlis, hmem⟩ := hl
  exact ⟨Nat.lt_of_lt_of_le hlt he.next_le, lis, he.list_kept hc hp hlt hlis, hmem⟩

theorem Linked.evolve {P : Touch → Prop} {h h' : Heap F} {c : Cursor} (hl : Linked h c)
    (hr : (evolve N P).Rel h h') (hc : ¬ P (.change c.1)) (hp : ¬ P (.pop c.1)) : Linked h' c :=
  evolve_invariant (I := fun h => Linked h c)
    (fun _ _ _ ht he hi => hi.event he (fun h => hc (h ▸ ht)) fun h => hp (h ▸ ht)) hr hl

/-- So does its item, with its object. -/
theorem ItemOf.evolve {P : Touch → Prop} {h h' : Heap F} {l : Addr} {li : Litem} (hli : ItemOf h l li)
    (hr : (evolve N P).Rel h h') (hc : ¬ P (.change l)) (hp : ¬ P (.pop l)) : ItemOf h' l li := by
  refine evolve_invariant (I := fun h => ItemOf h l li) ?_ hr hli
  rintro t h₁ h₂ ht he ⟨hlt, lis, hl, hmem⟩
  have hlis := he.list_kept (fun heq => hc (heq ▸ ht)) (fun heq => hp (heq ▸ ht)) hlt hl
  exact ⟨Nat.lt_of_lt_of_le hlt he.next_le, lis, hlis, hmem⟩

theorem evolve_next_le {P : Touch → Prop} {h h' : Heap F} (hr : (evolve N P).Rel h h') :
    h.next ≤ h'.next :=
  evolve_invariant (I := fun h' => h.next ≤ h'.next) (fun _ _ _ _ he hi => Nat.le_trans hi he.next_le) hr
    (Nat.le_refl _)

/-- The list that `b6b_as_list` leaves. -/
theorem asList_linked {a : Addr} {h h' : Heap F} {lis : List Litem} (hx : asList N a h = .ok lis h') :
    a < h'.next ∧ (h'.obj a).l = some lis := by
  have hend : Op.Ends (asList N a) h (fun lis h' => a < h'.next ∧ (h'.obj a).l = some lis)
      fun _ => True := by
    refine ends_load_bind fun hlt => ?_
    split
    · next lis hl => exact Op.ends_pure ⟨hlt, hl⟩
    · refine Op.ends_bind_of fun b h₁ hb => ?_
      have hlt₁ : a < h₁.next := Nat.lt_of_lt_of_le hlt
        (evolve_next_le ((asStr_keeps (N := N) (P := fun t => t = .conv) rfl a h).ok hb))
      split
      · next xs _ =>
        refine Op.ends_bind_of fun lis h₂ hlis => ?_
        have hlt₂ : a < h₂.next := Nat.lt_of_lt_of_le hlt₁
          (evolve_next_le ((tokenItems_keeps (N := N) (P := fun t => t = .conv) rfl xs h₁).ok hlis))
        refine Op.returns_bind (returns_update a _ h₂) ?_
        rintro _ _ rfl
        exact Op.ends_pure ⟨hlt₂, by rw [Heap.set_obj_self]; rfl⟩
      · exact Op.ends_fail trivial
  exact hend.ok hx

/-! ### Turns -/

namespace Interp

/-- What a step makes of the foreground fiber of `σ`. -/
inductive Turn (N : Num F) (h h' : Heap F) (σ : Interp S) (u : Fiber S) : Prop
  | plain (new : List Kont) (hstmt : σ.fg.stmtNext = false)
      (hcall : σ.fg.callNext ≠ none → new = [] ∧ ∃ res, u.ctl = .ret res)
      (hk : u.konts = new ++ σ.fg.rest) (hnew : ∀ k ∈ new, k.plain = true) (hc : u.ctl.plain = true)
  /-- A procedure calls its body. -/
  | proc (args body : Addr) (hstmt : σ.fg.stmtNext = false) (hcall : σ.fg.callNext = none)
      (hk : u.konts = .proc args :: σ.fg.rest) (hc : u.ctl = .call body)
      (hbody : ∃ li priv, ItemOf h' args li ∧ li.o < h'.next ∧ (h'.obj li.o).proc = .user body priv)
  /-- `b6b_stmt_call` returns, or is about to. -/
  | finished (res : Res) (hstmt : σ.fg.stmtNext = true) (hk : u.konts = σ.fg.rest)
      (hc : u.ctl = .onRes res ∨ u.ctl = .ret res)
  /-- `b6b_call` gets to a statement, or to its end. -/
  | callAt (stmts : Addr) (li : Option Litem) (hstmt : σ.fg.stmtNext = false)
      (hcall : σ.fg.callNext = some stmts) (hk : u.konts = σ.fg.rest) (hc : u.ctl = .callAt stmts li) (hli : LinkedAt h' stmts li)
  /-- `b6b_call` calls a statement. -/
  | stmt (stmts : Addr) (li : Litem) (hctl : σ.fg.ctl = .callAt stmts (some li))
      (hk : u.konts = .call stmts li :: σ.fg.rest) (hc : u.ctl = .stmt li.o)
  /-- `b6b_stmt_call` gets to its first token, or to its end. -/
  | enter (stmt : Addr) (lis : List Litem) (hctl : σ.fg.ctl = .stmt stmt) (hexit : σ.exit = false)
      (hlt : σ.fg.depth < maxNesting) (hk : u.konts = σ.fg.rest)
      (hc : u.ctl = .argAt stmt lis.head? []) (hlis : asList N stmt h = .ok lis h')
  /-- `b6b_stmt_call` evaluates a token. -/
  | arg (stmt : Addr) (li : Litem) (vs : List Addr) (hctl : σ.fg.ctl = .argAt stmt (some li) vs)
      (hk : u.konts = .stmtArg stmt li vs :: σ.fg.rest) (hc : u.ctl = .eval li.o)
  /-- `b6b_stmt_call` gets to its next token, or to its end. -/
  | next (stmt : Addr) (li : Litem) (li' : Option Litem) (vs : List Addr) (v : Addr) (res : Res)
      (hctl : σ.fg.ctl = .ret res) (hkont : σ.fg.konts.head? = some (.stmtArg stmt li vs)) (hk : u.konts = σ.fg.rest)
      (hc : u.ctl = .argAt stmt li' (vs ++ [v])) (hli : LinkedAt h' stmt li')
  /-- `b6b_stmt_call` calls a procedure. -/
  | invoke (stmt args : Addr) (vs : List Addr) (lis : List Litem) (hctl : σ.fg.ctl = .argAt stmt none vs)
      (hk : u.konts = .stmtProc :: σ.fg.rest) (hc : u.ctl = .invoke args)
      (hl : (h'.obj args).l = some lis) (hlis : lis.map (·.o) = vs)
  /-- `map` gets to an item, or to its end. -/
  | mapAt (ks l b : Addr) (li : Option Litem) (r : List Addr) (hstmt : σ.fg.stmtNext = false)
      (hcall : σ.fg.callNext = none) (hk : u.konts = σ.fg.rest) (hc : u.ctl = .mapAt ks l b li r)
      (hli : ∀ c ∈ cursorAt l li, c ∈ σ.fg.cursors ∨ Linked h' c)
  /-- `map` calls its body, with the next item. -/
  | mapBody (ks l b : Addr) (li : Option Litem) (r : List Addr) (hstmt : σ.fg.stmtNext = false)
      (hcall : σ.fg.callNext = none) (hk : u.konts = .map ks l b li r :: σ.fg.rest) (hc : u.ctl = .call b)
      (hli : ∀ c ∈ cursorAt l li, c ∈ σ.fg.cursors ∨ Linked h' c)

/-- `σ'` is a plain turn of `σ`, if the calls of `σ` stay. -/
structure Plain (σ σ' : Interp S) : Prop where
  konts : ∃ new, σ'.fg.konts = new ++ σ.fg.konts ∧ ∀ k ∈ new, k.plain = true
  ctl : σ'.fg.ctl.plain = true

theorem Plain.turn {σ σ' : Interp S} (hp : Plain σ σ') (hap : σ.fg.Apart) {h h' : Heap F} :
    Turn N h h' σ σ'.fg := by
  obtain ⟨⟨new, hk, hnew⟩, hc⟩ := hp
  exact .plain new hap.stmt (absurd hap.call) (hap.rest ▸ hk) hnew hc

/-- The same calls wait. -/
def SameKonts (σ σ₁ : Interp S) : Prop := σ₁.fg.konts = σ.fg.konts

section Plain

variable {σ σ₁ : Interp S}

theorem sameKonts (σ : Interp S) : SameKonts σ σ := rfl

theorem SameKonts.goto (hk : SameKonts σ σ₁) {c : Ctl S} (hc : c.plain = true) :
    Plain σ (σ₁.goto c) :=
  ⟨⟨[], hk, fun _ h => nomatch h⟩, hc⟩

theorem SameKonts.setRet (hk : SameKonts σ σ₁) (o : Addr) : SameKonts σ (σ₁.setRet o) := hk

theorem SameKonts.finish (hk : SameKonts σ σ₁) (r : Reply) : Plain σ (σ₁.finish r) := by
  obtain ⟨res, _ | o⟩ := r
  · exact hk.goto rfl
  · exact (hk.setRet o).goto rfl

theorem SameKonts.push (hk : SameKonts σ σ₁) {k : Kont} (hcur : k.plain = true) {c : Ctl S}
    (hc : c.plain = true) : Plain σ (σ₁.push k c) := by
  refine ⟨⟨[k], congrArg (List.cons k) hk, fun k' hk' => ?_⟩, hc⟩
  rw [List.mem_singleton.mp hk']
  exact hcur

theorem setAt_konts (i : ℕ) (k v : Addr) (σ : Interp S) :
    Op.Gives (setAt N i k v σ) (SameKonts σ) :=
  fun h => (setAt_own i k v σ h).mono (fun _ _ hown => hown.2) fun _ => id

/-- A procedure without a body makes a plain turn. -/
theorem Works.plain {i : Option ℕ} {σ' : Interp S} (hi : i ≠ some 0) (h : Works i σ σ') :
    Plain σ σ' := by
  have hplain : ∀ {c : Ctl S}, c.ofProc = true → c.plain = true := by
    intro c hc
    cases c with
    | callAt | argAt | invoke | mapAt => cases hc
    | _ => rfl
  cases h with
  | goes σ₁ c hb hc h =>
    have hk : SameKonts σ σ₁ := hb.konts
    exact h ▸ hk.goto (hplain hc)
  | calls σ₁ k c hb hk hc h =>
    have hsame : SameKonts σ σ₁ := hb.konts
    have hcur : k.plain = true := by
      cases k with
      | loop | tryBody => rfl
      | proc args => exact absurd (of_decide_eq_true hk) hi
      | _ => cases hk
    exact h ▸ hsame.push hcur (hplain hc)

/-- A frame is popped, and the statement has its result. -/
theorem popGoto_finished (res : Res) (hstmt : σ.fg.stmtNext = true) (hk : σ₁.fg.konts = σ.fg.rest) (h₀ h : Heap F) : Op.Ends (do
    let σ₁ ← σ₁.framePop (F := F)
    pure (σ₁.goto (.onRes res))) h (fun σ' h' => Turn N h₀ h' σ σ'.fg) fun _ => True := by
  unfold framePop
  cases σ₁.fg.prev with
  | cons f fs => exact Op.ends_pure (.finished res hstmt hk (.inl rfl))
  | nil => exact Op.ends_bind (Q := fun _ _ => False) Op.ends_crash fun _ _ => False.elim

/-! ### Loops -/

/-- The next item of `map`, behind the bindings of a turn that begins at `li`: it is linked,
unless there are no keys. -/
theorem mapBind_linked (l : Addr) : ∀ (kis : List Litem) (li : Option Litem) (σ : Interp S)
    (h : Heap F), Op.Ends (mapBind N l kis li σ) h (fun r h' => ∀ li' σ', r = some (li', σ') →
      σ'.fg.konts = σ.fg.konts ∧ ∀ c ∈ cursorAt l li', c ∈ cursorAt l li ∨ Linked h' c) fun _ => True
  | [], li, σ, h => by
    refine Op.ends_pure ?_
    rintro _ _ ⟨⟩
    exact ⟨rfl, fun c hc => .inl hc⟩
  | _ :: _, none, _, _ => by
    refine Op.ends_pure ?_
    rintro _ _ ⟨⟩
  | kli :: kis, some li, σ, h => by
    refine Op.ends_bind_of fun o h₁ _ => Op.ends_bind_of fun σ₁ h₂ hset => ?_
    have hkonts : SameKonts σ σ₁ := (setAt_konts 0 kli.o o σ).ok hset
    refine Op.returns_bind (listNext_returns l li h₂) ?_
    rintro li₁ _ ⟨rfl, hli₁⟩
    refine Op.ends_of (fun r h' hr => ?_) fun _ _ => trivial
    have ih := (mapBind_linked l kis li₁ σ₁ h₂).ok hr
    -- the bindings behind it change no list
    have hrel := (mapBind_keeps (N := N) (P := fun t => t = .conv) rfl l kis li₁ σ₁ h₂).ok hr
    intro li' σ' heq
    obtain ⟨hk, hor⟩ := ih li' σ' heq
    refine ⟨hk.trans hkonts, fun c hc => .inr ?_⟩
    rcases hor c hc with hold | hlinked
    · exact (hli₁.linked hold).evolve hrel nofun nofun
    · exact hlinked

/-- `map` gets to the first item. -/
theorem loopProcMap_turns (args : Addr) (h : Heap F) (hap : σ.fg.Apart) :
    Op.Ends (σ.loopProcMap N args) h (fun σ' h' => Turn N h h' σ σ'.fg) fun _ => True := by
  have hσ := sameKonts σ
  refine Op.ends_bind_of fun r h₁ _ => ?_
  cases r with
  | none => exact Op.ends_bind_of fun m h₂ _ => Op.ends_pure ((hσ.finish _).turn hap)
  | some xs =>
    dsimp only
    split
    · next ks l b _ =>
      refine Op.ends_bind_of fun kis h₂ _ => ?_
      split
      · exact Op.ends_pure ((hσ.goto rfl).turn hap)
      · refine Op.returns_bind (items_returns l h₂) ?_
        rintro lis _ ⟨rfl, hlt, hl⟩
        refine Op.ends_pure (.mapAt ks l b lis.head? [] hap.stmt hap.call hap.rest.symm rfl fun c hc => .inr ?_)
        exact (linkedAt_head hlt hl).linked hc
    · exact Op.ends_crash

/-- What a return to the call `k`, with the calls `ks` behind it, makes of the fiber. -/
theorem resume_turns {res : Res} {k : Kont} {ks : List Kont} (hctl : σ.fg.ctl = .ret res)
    (hks : σ.fg.konts = k :: ks) (hth : k ≠ .thread) (h : Heap F) :
    Op.Ends (σ.pop.resume (F := F) res k) h (fun σ' h' => Turn N h h' σ σ'.fg) fun _ => True := by
  have hrest : σ.fg.rest = ks := by simp [Fiber.rest, hctl, hks]
  have hpop : σ.pop.fg.konts = ks := by simp [pop, hks]
  have hσ := sameKonts σ.pop
  have hpopped : σ.pop.fg.konts = σ.fg.rest := hpop.trans hrest.symm
  have hstmt : σ.fg.stmtNext = k.ofStmt := by simp [Fiber.stmtNext, hctl, hks]
  have hcall : σ.fg.callNext = k.ofCall := by simp [Fiber.callNext, hctl, hks]
  have plain : k.ofStmt = false → k.ofCall = none → ∀ {σ' : Interp S} {h'}, Plain σ.pop σ' →
      Turn N h h' σ σ'.fg := by
    rintro hof hno σ' h' ⟨⟨new, hk, hnew⟩, hc⟩
    exact .plain new (hstmt.trans hof) (absurd (hcall.trans hno)) (by rw [hk, hpopped]) hnew hc
  unfold resume
  cases k with
  | stmtArg stmt li vs =>
    dsimp only
    split
    · refine Op.returns_bind (listNext_returns stmt li h) ?_
      rintro li' _ ⟨rfl, hli⟩
      exact Op.ends_pure (.next stmt li li' vs _ res hctl (by simp [hks]) hpopped rfl hli)
    · exact popGoto_finished res hstmt hpopped h h
  | stmtProc => exact popGoto_finished res hstmt hpopped h h
  | call stmts li =>
    dsimp only
    split
    · refine Op.returns_bind (listNext_returns stmts li h) ?_
      rintro li' _ ⟨rfl, hli⟩
      exact Op.ends_pure (.callAt stmts li' hstmt hcall hpopped rfl hli)
    · exact Op.ends_pure (.plain [] hstmt (fun _ => ⟨rfl, res, rfl⟩) hpopped (List.forall_mem_nil _) rfl)
  | proc => exact Op.ends_pure (plain rfl rfl (hσ.goto rfl))
  | map ks' l b li r =>
    have hold : ∀ c ∈ cursorAt l li, c ∈ σ.fg.cursors := by
      intro c hc
      refine List.mem_append_right _ (List.mem_filterMap.mpr ⟨.map ks' l b li r, ?_, hc⟩)
      rw [hks]
      exact List.mem_cons_self
    cases res with
    | ok => exact Op.ends_pure (.mapAt ks' l b li _ hstmt hcall hpopped rfl fun c hc => .inl (hold c hc))
    | cont => exact Op.ends_pure (.mapAt ks' l b li r hstmt hcall hpopped rfl fun c hc => .inl (hold c hc))
    | brk =>
      refine Op.ends_pure (.mapAt ks' l b none r hstmt hcall hpopped rfl fun c hc => ?_)
      cases hc
    | err | «yield» | ret | exit => exact Op.ends_pure (plain rfl rfl (hσ.goto rfl))
  | loop b =>
    cases res with
    | ok => exact Op.ends_pure (plain rfl rfl (hσ.push rfl rfl))
    | brk | err | «yield» | cont | ret | exit => exact Op.ends_pure (plain rfl rfl (hσ.goto rfl))
  | tryBody e f =>
    dsimp only
    split
    · cases e with
      | none => exact Op.ends_pure (plain rfl rfl (hσ.goto rfl))
      | some e => exact Op.ends_pure (plain rfl rfl (hσ.push rfl rfl))
    · exact Op.ends_pure (plain rfl rfl (hσ.goto rfl))
  | tryExcept f => exact Op.ends_pure (plain rfl rfl (hσ.goto rfl))
  | tryFinally r eres e o =>
    have hback : SameKonts σ.pop ({ σ.pop with exit := e }.setRet o) := rfl
    dsimp only
    split
    · exact Op.ends_pure (plain rfl rfl (hback.goto rfl))
    · split
      · exact Op.ends_pure (plain rfl rfl (hback.goto rfl))
      · exact Op.ends_pure (plain rfl rfl (hback.goto rfl))
  | thread => exact absurd rfl hth
  | main progs =>
    cases progs with
    | cons p ps =>
      have hopts : SameKonts σ.pop { σ.pop with opts := p.1 } := rfl
      dsimp only
      split
      · exact Op.ends_pure (plain rfl rfl (hopts.push rfl rfl))
      · exact Op.ends_pure (plain rfl rfl (hσ.goto rfl))
    | nil => exact Op.ends_pure (plain rfl rfl (hσ.goto rfl))

/-- `b6b_call` gets to its first statement. -/
theorem call_turns {stmts : Addr} (hctl : σ.fg.ctl = .call stmts) (h : Heap F) :
    Op.Ends (σ.call N stmts) h (fun σ' h' => Turn N h h' σ σ'.fg) fun _ => True := by
  have hrest : σ.fg.rest = σ.fg.konts := rest_of_ne fun r hr => nomatch hctl.symm.trans hr
  have hstmt : σ.fg.stmtNext = false := Fiber.stmtNext_of_ne hctl nofun
  refine Op.ends_bind_of fun r h₁ hr => ?_
  cases r with
  | none => exact Op.ends_pure (.plain [] hstmt (fun _ => ⟨rfl, .err, rfl⟩) hrest.symm nofun rfl)
  | some lis =>
    obtain ⟨hlt, hl⟩ := asList_linked (Op.attempt_eq_some hr)
    exact Op.ends_pure (.callAt stmts lis.head? hstmt (Fiber.callNext_of_ne hctl nofun) hrest.symm rfl
      (linkedAt_head hlt hl))

/-- `b6b_call` calls a statement, or gets to the next one. -/
theorem callAt_turns {stmts : Addr} {li : Option Litem} (hctl : σ.fg.ctl = .callAt stmts li) (h : Heap F) :
    Op.Ends (σ.callAt N stmts li) h (fun σ' h' => Turn N h h' σ σ'.fg) fun _ => True := by
  have hrest : σ.fg.rest = σ.fg.konts := rest_of_ne fun r hr => nomatch hctl.symm.trans hr
  have hstmt : σ.fg.stmtNext = false := Fiber.stmtNext_of_ne hctl nofun
  cases li with
  | none => exact Op.ends_pure (.plain [] hstmt (fun _ => ⟨rfl, .ok, rfl⟩) hrest.symm nofun rfl)
  | some li =>
    refine Op.ends_bind_of fun s h₁ _ => ?_
    split
    · refine Op.returns_bind (listNext_returns stmts li h₁) ?_
      rintro li' _ ⟨rfl, hli⟩
      exact Op.ends_pure (.callAt stmts li' hstmt (Fiber.callNext_of_ne hctl nofun) hrest.symm rfl hli)
    · exact Op.ends_pure (.stmt stmts li hctl (congrArg _ hrest.symm) rfl)

/-- `b6b_stmt_call` gets to its first token. -/
theorem stmtCall_turns {stmt : Addr} (hctl : σ.fg.ctl = .stmt stmt) (h : Heap F) :
    Op.Ends (σ.stmtCall N stmt) h (fun σ' h' => Turn N h h' σ σ'.fg) fun _ => True := by
  have hrest : σ.fg.rest = σ.fg.konts := rest_of_ne fun r hr => nomatch hctl.symm.trans hr
  have hstmt : σ.fg.stmtNext = true := Fiber.stmtNext_of_ne hctl nofun
  unfold stmtCall
  split
  · exact Op.ends_pure (.finished .exit hstmt hrest.symm (.inr rfl))
  · next hexit =>
    split
    · exact Op.ends_bind_of fun m h₁ _ => Op.ends_pure (.finished .err hstmt hrest.symm (.inl rfl))
    · next hlt =>
      refine Op.ends_bind_of fun r h₁ hr => ?_
      cases r with
      | none => exact Op.ends_pure (.finished .err hstmt hrest.symm (.inl rfl))
      | some lis =>
        exact Op.ends_pure (.enter stmt lis hctl (eq_false_of_ne_true hexit) (Nat.lt_of_not_le hlt)
          hrest.symm rfl (Op.attempt_eq_some hr))

/-- `b6b_stmt_call` evaluates a token, or calls the procedure. -/
theorem argAt_turns (inp : Input I) {stmt : Addr} {li : Option Litem} {vs : List Addr}
    (hctl : σ.fg.ctl = .argAt stmt li vs) (h : Heap F) :
    Op.Ends (σ.argAt N inp stmt vs li) h (fun σ' h' => Turn N h h' σ σ'.fg) fun _ => True := by
  have hrest : σ.fg.rest = σ.fg.konts := rest_of_ne fun r hr => nomatch hctl.symm.trans hr
  have hstmt : σ.fg.stmtNext = true := Fiber.stmtNext_of_ne hctl nofun
  cases li with
  | some li =>
    exact Op.ends_bind_of fun s h₁ _ => Op.ends_pure (.arg stmt li vs hctl (congrArg _ hrest.symm) rfl)
  | none =>
    refine Op.returns_bind (listBuild_returns vs h) ?_
    rintro args _ ⟨rfl, n, lis, hlis, -, rfl⟩
    have hnew : (((h.withLi n).push (.ofList lis)).obj h.next).l = some lis := by
      have hself := Heap.push_obj_self (h.withLi n) (.ofList lis)
      rw [Heap.withLi_next] at hself
      rw [hself]
      rfl
    have hcall : ∀ {h' : Heap F}, (h'.obj h.next).l = some lis →
        Turn N h h' σ ((σ.setRet σ.shared.null).push .stmtProc (.invoke h.next)).fg := fun hl =>
      .invoke stmt h.next vs lis hctl (congrArg _ hrest.symm) rfl hl hlis
    dsimp only
    split
    · refine Op.ends_bind_of fun s h₁ hs => ?_
      split
      · -- the trace changes no list
        have hrel := (asStr_keeps (N := N) (P := fun t => t = .conv) rfl _ _).ok hs
        have hlt : h.next < ((h.withLi n).push (.ofList lis)).next := Nat.lt_succ_self _
        refine Op.ends_pure (hcall ?_)
        exact (evolve_invariant (I := fun h' => h.next < h'.next ∧ (h'.obj h.next).l = some lis)
          (fun t _ _ (ht : t = .conv) he hi => by
            subst ht
            exact ⟨Nat.lt_of_lt_of_le hi.1 he.next_le, he.list_kept nofun nofun hi.1 hi.2⟩)
          hrel ⟨hlt, hnew⟩).2
      · exact popGoto_finished _ hstmt hrest.symm h h₁
    · exact Op.ends_pure (hcall hnew)

/-- `map` calls its body, or returns. -/
theorem mapAt_turns {ks l b : Addr} {li : Option Litem} {r : List Addr}
    (hctl : σ.fg.ctl = .mapAt ks l b li r) (h : Heap F) :
    Op.Ends (σ.mapAt N ks l b r li) h (fun σ' h' => Turn N h h' σ σ'.fg) fun _ => True := by
  have hap : σ.fg.Apart := Fiber.apart_of hctl nofun rfl rfl
  have hσ := sameKonts σ
  cases li with
  | none => exact Op.ends_bind_of fun o h₁ _ => Op.ends_pure ((hσ.finish _).turn hap)
  | some li =>
    refine Op.ends_bind_of fun kis h₁ _ => Op.ends_bind (E := fun _ => True)
      (mapBind_linked l kis (some li) σ h₁) ?_
    rintro (_ | ⟨li', σ'⟩) h₂ hlinked
    · exact Op.ends_bind_of fun m h₃ _ => Op.ends_pure ((hσ.finish _).turn hap)
    · obtain ⟨hk, hor⟩ := hlinked li' σ' rfl
      refine Op.ends_pure (.mapBody ks l b li' r hap.stmt hap.call (congrArg _ (hk.trans hap.rest.symm)) rfl
        fun c hc => ?_)
      refine (hor c hc).imp_left fun hold => List.mem_append_left _ ?_
      rw [hctl]
      exact Option.mem_toList.mpr hold

end Plain

/-! ### One step -/

/-- **What a step does next in all fibers**: the others keep all they have, and one may be new.
The foreground fiber is switched only where it is plain. -/
def Turns (N : Num F) (h h' : Heap F) (σ σ' : Interp S) : Prop :=
  ∀ u ∈ σ'.fibers, (∃ v ∈ σ.before ++ σ.after, u = v ∨ u = v.swapIn) ∨
    (u.id = σ.fg.id ∧ Turn N h h' σ u ∧ (u = σ'.fg ∨ u.ctl.plain = true)) ∨
    ∃ fn, u = .new σ.nextId σ.nextFrame fn σ.shared.null

section Step

variable {σ σ₁ : Interp S} {h h' : Heap F}

theorem Turn.swapOut {u : Fiber S} (ht : Turn N h h' σ u) : Turn N h h' σ u.swapOut := by
  cases ht with
  | plain new hstmt hcall hk hnew hc => exact .plain new hstmt hcall hk hnew hc
  | proc args body hstmt hcall hk hc hbody => exact .proc args body hstmt hcall hk hc hbody
  | finished res hstmt hk hc => exact .finished res hstmt hk hc
  | callAt stmts li hstmt hcall hk hc hli => exact .callAt stmts li hstmt hcall hk hc hli
  | stmt stmts li hctl hk hc => exact .stmt stmts li hctl hk hc
  | enter stmt lis hctl hexit hlt hk hc hlis => exact .enter stmt lis hctl hexit hlt hk hc hlis
  | arg stmt li vs hctl hk hc => exact .arg stmt li vs hctl hk hc
  | next stmt li li' vs v res hctl hkont hk hc hli => exact .next stmt li li' vs v res hctl hkont hk hc hli
  | invoke stmt args vs lis hctl hk hc hl hlis => exact .invoke stmt args vs lis hctl hk hc hl hlis
  | mapAt ks l b li r hstmt hcall hk hc hli => exact .mapAt ks l b li r hstmt hcall hk hc hli
  | mapBody ks l b li r hstmt hcall hk hc hli => exact .mapBody ks l b li r hstmt hcall hk hc hli

theorem turns_of_same {σ' : Interp S} {e : Bool} {q : UInt8} {fs : List Bool}
    (hs : Same σ σ' e q fs) (ht : Turn N h h' σ σ'.fg) : Turns N h h' σ σ' := by
  intro u hu
  rcases List.mem_append.mp hu with hu | hu
  · exact .inl ⟨u, List.mem_append_left _ (hs.before ▸ hu), .inl rfl⟩
  · rcases List.mem_cons.mp hu with rfl | hu
    · exact .inr (.inl ⟨hs.id, ht, .inl rfl⟩)
    · exact .inl ⟨u, List.mem_append_right _ (hs.after ▸ hu), .inl rfl⟩

theorem turns_yield {e : Bool} {q : UInt8} {fs : List Bool} (hs : Same σ σ₁ e q fs)
    {c : Bool → Ctl S} (hc : ∀ y, (c y).plain = true) (ht : ∀ y, Turn N h h' σ (σ₁.goto (c y)).fg) :
    Turns N h h' σ (σ₁.yield c) := by
  intro u hu
  obtain ⟨-, hfibers⟩ := yield_fibers σ₁ c
  rw [← hs.before, ← hs.after]
  refine (hfibers u hu).imp_right fun ⟨y, hy⟩ => .inl ?_
  rcases hy with rfl | rfl
  · exact ⟨hs.id, ht y, .inr (hc y)⟩
  · exact ⟨hs.id, (ht y).swapOut, .inr (hc y)⟩

/-- A step that neither switches nor starts a fiber. -/
theorem turns_own {x : Op (Heap F) (Interp S)} (ho : Op.Gives x (Own σ))
    (ht : Op.Ends x h (fun σ' h' => Turn N h h' σ σ'.fg) fun _ => True) :
    Op.Ends x h (fun σ' h' => Turns N h h' σ σ') fun _ => True :=
  Op.ends_of (fun _ _ hx => turns_of_same (ho.ok hx) (ht.ok hx)) fun _ _ => trivial

/-- A plain step that neither switches nor starts a fiber. -/
theorem turns_plain {x : Op (Heap F) (Interp S)} (hap : σ.fg.Apart)
    (ho : Op.Gives x (Own σ)) (hp : Op.Gives x (Plain σ)) :
    Op.Ends x h (fun σ' h' => Turns N h h' σ σ') fun _ => True :=
  turns_own ho ((hp h).mono (fun _ _ hp => hp.turn hap) fun _ => id)

/-- A procedure without a body, other than `map` and `spawn`. -/
theorem turns_works {i : Option ℕ} {x : Op (Heap F) (Interp S)} (hap : σ.fg.Apart) (hi : i ≠ some 0)
    (hx : Op.Gives x (Works i σ)) : Op.Ends x h (fun σ' h' => Turns N h h' σ σ') fun _ => True :=
  turns_plain hap (gives_own hx) (hx.mono fun _ => Works.plain hi)

/-- A procedure calls its body, which its first argument holds. -/
theorem procProc_turns {args body priv : Addr} {li : Litem} (hap : σ.fg.Apart) (h : Heap F)
    (hli : ItemOf h args li) (hlt : li.o < h.next) (hproc : (h.obj li.o).proc = .user body priv) :
    Op.Ends (σ.procProc N args body priv) h (fun σ' h' => Turn N h h' σ σ'.fg) fun _ => True := by
  refine Op.ends_of (fun σ' h' hx => ?_) fun _ _ => trivial
  obtain ⟨hargs, lis, hl, hmem⟩ := hli
  have hrel := (σ.procProc_keeps (N := N) (P := fun t => t = .conv ∨ t = .build ∨ t = .list args) (.inl rfl)
    (.inr (.inl rfl)) (.inr (.inr rfl)) body priv h).ok hx
  -- the bindings change neither the arguments nor the procedure
  have hkept : (args < h'.next ∧ (h'.obj args).l = some lis) ∧
      li.o < h'.next ∧ (h'.obj li.o).proc = .user body priv := by
    refine evolve_invariant (I := fun h' => (args < h'.next ∧ (h'.obj args).l = some lis) ∧
      li.o < h'.next ∧ (h'.obj li.o).proc = .user body priv) ?_ hrel ⟨⟨hargs, hl⟩, hlt, hproc⟩
    rintro t h₁ h₂ ht he ⟨⟨hargs, hl⟩, hlt, hproc⟩
    have hchange : t ≠ .change args := by rintro rfl; simp at ht
    have hpop : t ≠ .pop args := by rintro rfl; simp at ht
    exact ⟨⟨Nat.lt_of_lt_of_le hargs he.next_le, he.list_kept hchange hpop hargs hl⟩,
      Nat.lt_of_lt_of_le hlt he.next_le, (he.proc_kept hlt).trans hproc⟩
  have hcall : Op.Gives (σ.procProc N args body priv) fun σ' => ∃ ls : Locals,
      σ' = { σ with fg := { σ.fg with curr := ls } }.push (.proc args) (.call body) :=
    Op.gives_of_bind fun _ => Op.gives_of_bind fun ls => Op.gives_pure ⟨ls, rfl⟩
  obtain ⟨ls, rfl⟩ := hcall.ok hx
  exact .proc args body hap.stmt hap.call (congrArg _ hap.rest.symm) rfl
    ⟨li, priv, ⟨hkept.1.1, lis, hkept.1.2, hmem⟩, hkept.2⟩

theorem spawn_turns (args : Addr) (hap : σ.fg.Apart) (h : Heap F) :
    Op.Ends (σ.coreProcSpawn N args) h (fun σ' h' => Turns N h h' σ σ') fun _ => True := by
  refine (coreProcSpawn_works (i := none) args h).mono (fun σ' h' hor => ?_) fun _ => id
  rcases hor with hw | ⟨fn, rfl⟩
  · exact turns_of_same hw.own ((Works.plain (i := none) nofun hw).turn hap)
  · intro u hu
    have hstart : SameKonts σ (σ.start fn) := rfl
    rcases List.mem_append.mp hu with hu | hu
    · exact .inl ⟨u, List.mem_append_left _ hu, .inl rfl⟩
    · rcases List.mem_cons.mp hu with rfl | hu
      · exact .inr (.inl ⟨rfl, (hstart.goto rfl).turn hap, .inl rfl⟩)
      · rcases List.mem_cons.mp hu with rfl | hu
        · exact .inr (.inr ⟨fn, rfl⟩)
        · exact .inl ⟨u, List.mem_append_right _ hu, .inl rfl⟩

theorem onRes_turns {res : Res} (hctl : σ.fg.ctl = .onRes res) (h : Heap F) :
    Op.Ends (σ.onRes N res) h (fun σ' h' => Turns N h h' σ σ') fun _ => True := by
  have hrest : σ.fg.rest = σ.fg.konts := rest_of_ne fun r hr => nomatch hctl.symm.trans hr
  have hstmt : σ.fg.stmtNext = true := Fiber.stmtNext_of_ne hctl nofun
  unfold onRes
  split
  · exact Op.ends_pure (turns_yield (own_refl σ) (fun _ => rfl) fun _ =>
      .finished .ok hstmt hrest.symm (.inr rfl))
  · refine Op.ends_bind_of fun σ₁ h₁ hset => ?_
    obtain ⟨hown, hkonts⟩ := (setAt_own 0 _ _ _).ok hset
    have hk : σ₁.fg.konts = σ.fg.rest := Eq.trans hkonts hrest.symm
    have hs : Same σ σ₁ σ.exit (σ.qstep + 1) σ.fg.finals :=
      ⟨hown.shared, hown.exit, hown.qstep, hown.nextId, hown.before, hown.after, hown.id, hown.finals⟩
    split
    · have hs₁ : Same σ ({ σ₁ with exit := true }.goto (.ret res)) true (σ.qstep + 1) σ.fg.finals :=
        ⟨hs.shared, rfl, hs.qstep, hs.nextId, hs.before, hs.after, hs.id, hs.finals⟩
      exact Op.ends_pure (turns_of_same hs₁ (.finished res hstmt hk (.inr rfl)))
    · split
      · exact Op.ends_pure (turns_yield hs (fun _ => rfl) fun _ => .finished res hstmt hk (.inr rfl))
      · exact Op.ends_pure (turns_of_same (hs.goto _) (.finished res hstmt hk (.inr rfl)))

/-- The last statement of a fiber has returned. -/
theorem threadEnd_turns {σ' : Interp S} {res : Res} {ks : List Kont} (hctl : σ.fg.ctl = .ret res)
    (hks : σ.fg.konts = .thread :: ks) (hend : σ.pop.threadEnd = some σ') : Turns N h h' σ σ' := by
  intro u hu
  obtain ⟨-, hfibers⟩ := swap_fibers hend
  refine (hfibers u hu).imp_right fun hu => .inl ?_
  subst hu
  have hrest : σ.fg.rest = σ.fg.konts.tail := by simp [Fiber.rest, hctl]
  have hstmt : σ.fg.stmtNext = false := by simp [Fiber.stmtNext, hctl, hks, Kont.ofStmt]
  have hcall : σ.fg.callNext = none := by simp [Fiber.callNext, hctl, hks, Kont.ofCall]
  exact ⟨rfl, .plain [] hstmt (absurd hcall) hrest.symm (List.forall_mem_nil _) rfl, .inr rfl⟩

theorem ret_turns {res : Res} (hctl : σ.fg.ctl = .ret res) (h : Heap F) :
    Op.Ends (σ.ret (F := F) res) h (fun σ' h' => Turns N h h' σ σ') fun _ => True := by
  unfold ret
  rcases hks : σ.fg.konts with _ | ⟨k, ks⟩ <;> dsimp only
  · exact Op.ends_crash
  by_cases hth : k = .thread
  · subst hth
    unfold resume
    rcases hend : σ.pop.threadEnd with _ | σ' <;> dsimp only
    · exact Op.ends_crash
    · exact Op.ends_pure (threadEnd_turns hctl hks hend)
  · have ht := resume_turns (N := N) hctl hks hth h
    refine Op.ends_of (fun σ' h' hx => ?_) fun _ _ => trivial
    rcases hsaved : k.saved with _ | e
    · have hs : Same σ σ' σ.exit σ.qstep σ.fg.finals :=
        (own_pop hks hsaved).trans ((resume_own res hsaved hth).ok hx)
      exact turns_of_same hs (ht.ok hx)
    · cases k with
      | tryFinally r eres e' o =>
        have hown := (resume_finally res r eres e' o).ok hx
        have hs : Same σ σ' e' σ.qstep σ.pop.fg.finals :=
          ⟨hown.shared, hown.exit, hown.qstep, hown.nextId, hown.before, hown.after, hown.id, hown.finals⟩
        exact turns_of_same hs (ht.ok hx)
      | _ => cases hsaved

/-- A procedure is called. -/
theorem invoke_turns (nat : Natives N S I) (inp : Input I) {args : Addr}
    (hctl : σ.fg.ctl = .invoke args) (h : Heap F) :
    Op.Ends (σ.invoke nat inp args) h (fun σ' h' => Turns N h h' σ σ') fun _ => True := by
  have hap : σ.fg.Apart := Fiber.apart_of hctl nofun rfl rfl
  refine Op.returns_bind (items_returns args h) ?_
  rintro lis _ ⟨rfl, hlt, hl⟩
  rcases lis with _ | ⟨li, lis⟩
  · exact Op.ends_crash
  refine ends_load_bind fun hlt' => ?_
  cases hproc : (h.obj li.o).proc with
  | obj => exact turns_works (i := none) hap nofun (objProc_works _ _)
  | builtin b =>
    by_cases hspawn : b = .spawn
    · subst hspawn
      exact spawn_turns args hap h
    · by_cases hmap : b = .map
      · subst hmap
        exact turns_own (loopProcMap_own args) (loopProcMap_turns args h hap)
      · have hi : (Proc.builtin b).bindsAt ≠ some 0 := by cases b <;> nofun
        exact turns_works hap hi (builtin_works inp args hspawn hmap)
  | user body priv =>
    have hli : ItemOf h args li := ⟨hlt, _, hl, List.mem_cons_self⟩
    exact turns_own (gives_own (procProc_works _ _ _)) (procProc_turns hap h hli hlt' hproc)
  | native n =>
    have hσ := sameKonts σ
    exact turns_plain hap (Op.gives_pure ((own_refl σ).goto _)) (Op.gives_pure (hσ.goto rfl))

/-- **What a step does next**, from any heap. -/
theorem step_turns (nat : Natives N S I) (inp : Input I) (σ : Interp S) (h : Heap F) :
    Op.Ends (σ.step nat inp) h (fun σ' h' => Turns N h h' σ σ') fun _ => True := by
  have hown := own_refl σ
  have hσ := sameKonts σ
  unfold step
  cases hctl : σ.fg.ctl with
  | begin =>
    dsimp only
    cases σ.fg.fn with
    | some fn =>
      exact turns_plain (Fiber.apart_of hctl nofun rfl rfl) (Op.gives_pure (hown.push rfl _))
        (Op.gives_pure (hσ.push rfl rfl))
    | none => exact Op.ends_crash
  | call stmts => exact turns_own (call_own stmts) (call_turns hctl h)
  | callAt stmts li => exact turns_own (callAt_own stmts li) (callAt_turns hctl h)
  | stmt stmt => exact turns_own (stmtCall_own stmt) (stmtCall_turns hctl h)
  | argAt stmt li vs => exact turns_own (argAt_own inp stmt vs li) (argAt_turns inp hctl h)
  | invoke args => exact invoke_turns nat inp hctl h
  | eval exp => exact turns_works (i := none) (Fiber.apart_of hctl nofun rfl rfl) nofun (eval_works exp)
  | mapAt ks l b li r => exact turns_own (mapAt_own ks l b r li) (mapAt_turns hctl h)
  | tryEnd res eres f =>
    cases f with
    | some f =>
      have hs : Same σ (σ.tryEnd res eres (some f)) false σ.qstep (σ.exit :: σ.fg.finals) :=
        ⟨rfl, rfl, rfl, rfl, rfl, rfl, rfl, rfl⟩
      have hk : SameKonts σ { σ with exit := false } := rfl
      exact Op.ends_pure (turns_of_same hs ((hk.push rfl rfl).turn (Fiber.apart_of hctl nofun rfl rfl)))
    | none =>
      exact turns_plain (Fiber.apart_of hctl nofun rfl rfl) (Op.gives_pure (hown.goto _)) (Op.gives_pure (hσ.goto rfl))
  | native s y =>
    refine Op.ends_bind_of fun r h' _ => ?_
    rcases r with _ | s' | r
    · exact Op.ends_pure (turns_of_same (hown.goto _) ((hσ.goto rfl).turn (Fiber.apart_of hctl nofun rfl rfl)))
    · exact Op.ends_pure (turns_yield hown (fun _ => rfl) fun y => (hσ.goto rfl).turn (Fiber.apart_of hctl nofun rfl rfl))
    · exact Op.ends_pure (turns_of_same (hown.finish r) ((hσ.finish r).turn (Fiber.apart_of hctl nofun rfl rfl)))
  | onRes res => exact onRes_turns hctl h
  | ret res => exact ret_turns hctl h
  | join =>
    have hs : Same σ ({ σ with exit := true }.goto .sweep) true σ.qstep σ.fg.finals :=
      ⟨rfl, rfl, rfl, rfl, rfl, rfl, rfl, rfl⟩
    have hk : SameKonts σ { σ with exit := true } := rfl
    exact Op.ends_pure (turns_of_same hs ((hk.goto rfl).turn (Fiber.apart_of hctl nofun rfl rfl)))
  | sweep =>
    have hplain : ∀ y : Bool, (if y then .sweep else .halt : Ctl S).plain = true := by
      rintro (_ | _) <;> rfl
    exact Op.ends_pure (turns_yield hown hplain fun y =>
      (hσ.goto (hplain y)).turn (Fiber.apart_of hctl nofun rfl rfl))
  | halt => exact Op.ends_crash
  | dead => exact Op.ends_crash

end Step

end Interp

theorem Machine.step_turns {nat : Natives N S I} {m m' : Machine F S} {inp : Input I}
    (h : m.step nat inp = some m') : Interp.Turns N m.heap m'.heap m.interp m'.interp :=
  (Interp.step_turns nat inp m.interp m.heap).ok (Machine.step_eq_some h)

end B6b
