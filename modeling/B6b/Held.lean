/-
# What holds the list of a loop

A loop over a list goes on only as long as the list is there. Most lists are held by what
the loop is in: those of `map` and of the blocks of `if`, `loop`, `try` and `call` by the
arguments of the procedure, which no script can get at, the function of a fiber by the
fiber, and a program, a file that was read and a statement in brackets by the C code that
made it. Two are not. A statement that `b6b_call` executes is held by its item alone, and
the body of a procedure by the procedure, which the arguments of the call hold; and these
are a list that the body can get at, under the name `@`.

`Fiber.lends` are the loops of these two kinds that a fiber is in, each with what holds its
list. They follow from how the calls that wait sit on each other (`Upper.sits`), and `Kept` is
what a turn keeps: `Kept.turn`.

Key definitions: `Lend`, `Lend.Holds`, `Fiber.lends`, `Kept`.
-/
import B6b.Turns

namespace B6b

variable {F S I : Type} {N : Num F}

/-- The body of a procedure. -/
def Proc.body : Proc → Option Addr
  | .user body _ => some body
  | _ => none

/-- A loop over a list that others may free, with what holds the list. -/
inductive Lend
  /-- `b6b_stmt_call` goes through `stmt`, the object of the item `id` of `stmts`. -/
  | item (stmts : Addr) (id : ℕ) (stmt : Addr)
  /-- `b6b_call` goes through the body of a procedure that was called with `args`. -/
  | proc (args body : Addr)
deriving DecidableEq

/-- It holds the list. -/
def Lend.Holds (h : Heap F) : Lend → Prop
  | .item stmts id stmt => ∃ li, ItemOf h stmts li ∧ li.id = id ∧ li.o = stmt
  | .proc args body => ∃ li, ItemOf h args li ∧ li.o < h.next ∧ (h.obj li.o).proc.body = some body

/-! ### How calls sit on each other -/

/-- What goes on above the calls that wait. -/
inductive Upper
  /-- `b6b_stmt_call`, in front of the end of its loop. -/
  | stmt (stmt : Addr)
  /-- `b6b_stmt_call`, behind it. -/
  | done
  /-- `b6b_call` -/
  | call (stmts : Addr)
  | other

/-- Statements are called by `b6b_call`, and `b6b_call` by procedures with a body, and nothing else
is by these two. -/
def Upper.sits : Upper → Option Kont → Bool
  | .stmt _, some (.proc _) | .done, some (.proc _) | .call _, some (.call _ _) => false
  | .other, some (.proc _) | .other, some (.call _ _) => false
  | _, _ => true

/-- What holds the list, if it may be freed. -/
def Upper.lend : Upper → Option Kont → Option Lend
  | .stmt a, some (.call stmts li) => some (.item stmts li.id a)
  | .call body, some (.proc args) => some (.proc args body)
  | _, _ => none

def Kont.upper : Kont → Upper
  | .stmtArg stmt _ _ => .stmt stmt
  | .stmtProc => .done
  | .call stmts _ => .call stmts
  | _ => .other

/-- A fiber that returns is in no loop but those of the calls that wait. -/
def Ctl.upper : Ctl S → Option Upper
  | .stmt a | .argAt a _ _ => some (.stmt a)
  | .onRes _ => some .done
  | .call stmts | .callAt stmts _ => some (.call stmts)
  | .ret _ => none
  | _ => some .other

/-- `b6b_call` is at a statement that it has not called yet. -/
def Ctl.lend : Ctl S → Option Lend
  | .callAt stmts (some li) => some (.item stmts li.id li.o)
  | _ => none

/-- Each call that waits sits on the next one. -/
def seated : List Kont → Bool
  | [] => true
  | k :: ks => k.upper.sits ks.head? && seated ks

/-- The loops of the calls that wait. -/
def lendsOf : List Kont → List Lend
  | [] => []
  | k :: ks => (k.upper.lend ks.head?).toList ++ lendsOf ks

/-- The loops that a fiber is in, each with what holds its list. -/
def Fiber.lends (t : Fiber S) : List Lend :=
  t.ctl.lend.toList ++ ((t.ctl.upper.bind (·.lend t.konts.head?)).toList ++ lendsOf t.konts)

/-- The lists of a fiber's loops are held. -/
structure Kept (h : Heap F) (t : Fiber S) : Prop where
  ctl : ∀ top ∈ t.ctl.upper, top.sits t.konts.head? = true
  konts : seated t.konts = true
  lends : ∀ l ∈ t.lends, l.Holds h

/-! ### What goes on next -/

/-- What goes on above `rest`, where a fiber that returns gets back to the call on top. -/
def Fiber.upper (t : Fiber S) : Upper :=
  t.ctl.upper.getD ((t.konts.head?.map Kont.upper).getD .other)

section Uppers

variable {h : Heap F} {t : Fiber S}

theorem upper_of_ne {c : Ctl S} {top : Upper} (hc : t.ctl = c) (htop : c.upper = some top) :
    t.upper = top := by
  unfold Fiber.upper
  rw [hc, htop]
  rfl

theorem upper_ret {res : Res} {k : Kont} {ks : List Kont} (hc : t.ctl = .ret res)
    (hk : t.konts = k :: ks) : t.upper = k.upper := by
  simp [Fiber.upper, hc, hk, Ctl.upper]

theorem ctl_upper_ne {c : Ctl S} (hc : ∀ r, c ≠ .ret r) : ∃ top, c.upper = some top := by
  cases c with
  | ret r => exact absurd rfl (hc r)
  | _ => exact ⟨_, rfl⟩

/-- What goes on next sits on the calls behind it, and these on each other; their lists are held. -/
theorem Kept.rest (hk : Kept h t) : t.upper.sits t.rest.head? = true ∧ seated t.rest = true ∧
    ∀ l ∈ (t.upper.lend t.rest.head?).toList ++ lendsOf t.rest, l.Holds h := by
  by_cases hret : ∃ res, t.ctl = .ret res
  · obtain ⟨res, hc⟩ := hret
    have hrest : t.rest = t.konts.tail := by simp [Fiber.rest, hc]
    rcases hks : t.konts with _ | ⟨k, ks⟩
    · have htop : t.upper = .other := by simp [Fiber.upper, hc, hks, Ctl.upper]
      rw [hrest, hks, htop]
      exact ⟨rfl, rfl, List.forall_mem_nil _⟩
    · have hseated := hk.konts
      rw [hks, seated, Bool.and_eq_true] at hseated
      rw [hrest, hks, upper_ret hc hks]
      refine ⟨hseated.1, hseated.2, fun l hl => hk.lends l ?_⟩
      refine List.mem_append_right _ (List.mem_append_right _ ?_)
      rw [hks]
      exact hl
  · have hne : ∀ r, t.ctl ≠ .ret r := fun r hr => hret ⟨r, hr⟩
    obtain ⟨top, htop⟩ := ctl_upper_ne hne
    rw [Interp.rest_of_ne hne, upper_of_ne rfl htop]
    refine ⟨hk.ctl top htop, hk.konts, fun l hl => hk.lends l (List.mem_append_right _ ?_)⟩
    rw [htop]
    exact hl

theorem upper_of_call {stmts : Addr} (hcall : t.callNext = some stmts) : t.upper = .call stmts := by
  unfold Fiber.callNext at hcall
  split at hcall
  · next res hc =>
    obtain ⟨k, hk, hof⟩ := Option.bind_eq_some_iff.mp hcall
    obtain ⟨ks, hks⟩ := List.head?_eq_some_iff.mp hk
    rw [upper_ret hc hks]
    cases k with
    | call stmts' li =>
      obtain rfl := Option.some.inj hof
      rfl
    | _ => cases hof
  · next c hne =>
    cases hc : t.ctl with
    | call stmts' | callAt stmts' li =>
      rw [hc] at hcall
      obtain rfl := Option.some.inj hcall
      exact upper_of_ne hc rfl
    | ret r => exact absurd hc (hne r)
    | _ =>
      rw [hc] at hcall
      cases hcall

theorem upper_of_stmt (hstmt : t.stmtNext = true) : (∃ stmt, t.upper = .stmt stmt) ∨ t.upper = .done := by
  unfold Fiber.stmtNext at hstmt
  split at hstmt
  · next res hc =>
    obtain ⟨k, hk, hof⟩ := (Option.any_eq_true _ _).mp hstmt
    obtain ⟨ks, hks⟩ := List.head?_eq_some_iff.mp hk
    rw [upper_ret hc hks]
    cases k with
    | stmtArg stmt li vs => exact .inl ⟨stmt, rfl⟩
    | stmtProc => exact .inr rfl
    | _ => cases hof
  · next c hne =>
    cases hc : t.ctl with
    | stmt stmt | argAt stmt li vs => exact .inl ⟨stmt, upper_of_ne hc rfl⟩
    | onRes res => exact .inr (upper_of_ne hc rfl)
    | ret r => exact absurd hc (hne r)
    | _ =>
      rw [hc] at hstmt
      cases hstmt

theorem upper_of_other (hstmt : t.stmtNext = false) (hcall : t.callNext = none) : t.upper = .other := by
  by_cases hret : ∃ res, t.ctl = .ret res
  · obtain ⟨res, hc⟩ := hret
    rcases hks : t.konts with _ | ⟨k, ks⟩
    · simp [Fiber.upper, hc, hks, Ctl.upper]
    · simp only [Fiber.stmtNext, Fiber.callNext, hc, hks, List.head?_cons, Option.any_some,
        Option.bind_some] at hstmt hcall
      rw [upper_ret hc hks]
      cases k with
      | stmtArg | stmtProc => cases hstmt
      | call => cases hcall
      | _ => rfl
  · have hne : ∀ r, t.ctl ≠ .ret r := fun r hr => hret ⟨r, hr⟩
    rw [Fiber.stmtNext_of_ne rfl hne] at hstmt
    rw [Fiber.callNext_of_ne rfl hne] at hcall
    cases hc : t.ctl with
    | stmt | argAt | onRes =>
      rw [hc] at hstmt
      cases hstmt
    | call | callAt =>
      rw [hc] at hcall
      cases hcall
    | ret r => exact absurd hc (hne r)
    | _ => exact upper_of_ne hc rfl

end Uppers

/-! ### A turn -/

/-- Neither `b6b_call` nor a procedure with a body waits for it. -/
def loose : Option Kont → Bool
  | some (.call _ _) | some (.proc _) => false
  | _ => true

theorem loose_of_other {k : Option Kont} (h : Upper.other.sits k = true) : loose k = true := by
  rcases k with _ | k
  · rfl
  · cases k with
    | call | proc => cases h
    | _ => rfl

theorem sits_of_loose {k : Option Kont} (h : loose k = true) (top : Upper) : top.sits k = true := by
  rcases k with _ | k
  · cases top <;> rfl
  · cases k with
    | call | proc => cases h
    | _ => cases top <;> rfl

theorem lend_of_loose {k : Option Kont} (h : loose k = true) (top : Upper) : top.lend k = none := by
  rcases k with _ | k
  · cases top <;> rfl
  · cases k with
    | call | proc => cases h
    | _ => cases top <;> rfl

/-- Calls in no loop of these kinds, above calls that nothing depends on. -/
theorem plain_above {new rest : List Kont} (hnew : ∀ k ∈ new, k.plain = true)
    (hrest : loose rest.head? = true) (hseated : seated rest = true) :
    loose (new ++ rest).head? = true ∧ seated (new ++ rest) = true ∧ lendsOf (new ++ rest) = lendsOf rest := by
  induction new with
  | nil => exact ⟨hrest, hseated, rfl⟩
  | cons k new ih =>
    obtain ⟨hloose, hs, hl⟩ := ih fun k' hk' => hnew k' (List.mem_cons_of_mem _ hk')
    have hk := hnew k List.mem_cons_self
    have htop : k.upper = .other ∧ loose (some k) = true := by
      cases k with
      | loop | tryBody | tryExcept | tryFinally | thread | main => exact ⟨rfl, rfl⟩
      | _ => cases hk
    refine ⟨htop.2, ?_, ?_⟩
    · rw [List.cons_append, seated, htop.1, sits_of_loose hloose, hs]
      rfl
    · rw [List.cons_append, lendsOf, htop.1, lend_of_loose hloose, hl]
      rfl

section Turn

variable {h h' : Heap F} {σ : Interp S} {u : Fiber S}

/-- The fiber has the calls `ks`, and what goes on above them sits there. -/
theorem kept_of {ks : List Kont} {c : Ctl S} (hk : u.konts = ks) (hc : u.ctl = c)
    (hctl : ∀ top ∈ c.upper, top.sits ks.head? = true) (hseated : seated ks = true)
    (hat : ∀ l ∈ c.lend, l.Holds h) (hlend : ∀ l ∈ c.upper.bind (·.lend ks.head?), l.Holds h)
    (hlends : ∀ l ∈ lendsOf ks, l.Holds h) : Kept h u := by
  subst hk hc
  refine ⟨hctl, hseated, fun l hl => ?_⟩
  rcases List.mem_append.mp hl with hl | hl
  · exact hat l (Option.mem_toList.mp hl)
  · rcases List.mem_append.mp hl with hl | hl
    · exact hlend l (Option.mem_toList.mp hl)
    · exact hlends l hl

/-- `b6b_stmt_call` sits behind its loop where it sat in it. -/
theorem done_sits {top : Upper} {k : Option Kont} (htop : (∃ stmt, top = .stmt stmt) ∨ top = .done)
    (hsits : top.sits k = true) : Upper.done.sits k = true := by
  rcases htop with ⟨stmt, rfl⟩ | rfl
  · rcases k with _ | k
    · rfl
    · cases k with
      | proc => cases hsits
      | _ => rfl
  · exact hsits

/-- **What a turn keeps.** If all lists are held behind a step, those of the fiber's new loops are. -/
theorem Kept.turn (ht : Interp.Turn N h h' σ u) (hk : Kept h' σ.fg) : Kept h' u := by
  obtain ⟨hsits, hseated, hheld⟩ := hk.rest
  have hlends : ∀ l ∈ lendsOf σ.fg.rest, l.Holds h' := fun l hl => hheld l (List.mem_append_right _ hl)
  -- the fiber stays where it was, above the calls that wait
  have same : ∀ {top c}, σ.fg.upper = top → u.konts = σ.fg.rest → u.ctl = c → c.upper = some top →
      (∀ l ∈ c.lend, l.Holds h') → Kept h' u := by
    rintro _ c rfl hk' hc htop hat
    refine kept_of hk' hc ?_ hseated hat (fun l hl => ?_) hlends
    · rw [htop]
      rintro _ ⟨⟩
      exact hsits
    · rw [htop] at hl
      exact hheld l (List.mem_append_left _ (Option.mem_toList.mpr hl))
  -- it has called something from where it was
  have calls : ∀ (k : Kont) {c}, σ.fg.upper = k.upper → u.konts = k :: σ.fg.rest → u.ctl = c →
      (∀ top ∈ c.upper, top.sits (some k) = true) → (∀ l ∈ c.lend, l.Holds h') →
      (∀ l ∈ c.upper.bind (·.lend (some k)), l.Holds h') → Kept h' u := by
    intro k c htop hk' hc hctl hat hl
    rw [htop] at hsits hheld
    exact kept_of hk' hc hctl (Bool.and_eq_true _ _ ▸ ⟨hsits, hseated⟩) hat hl hheld
  cases ht with
  | plain new hstmt hcall hk' hnew hc =>
    have hat : ∀ l ∈ u.ctl.lend, l.Holds h' := by
      cases hctl : u.ctl with
      | callAt =>
        rw [hctl] at hc
        cases hc
      | _ => nofun
    by_cases hnone : σ.fg.callNext = none
    · rw [upper_of_other hstmt hnone] at hsits
      obtain ⟨hloose, hs, hl⟩ := plain_above hnew (loose_of_other hsits) hseated
      refine kept_of hk' rfl (fun top _ => sits_of_loose hloose top) hs hat (fun l hl' => ?_) (hl ▸ hlends)
      obtain ⟨top, -, hlend'⟩ := Option.bind_eq_some_iff.mp hl'
      rw [lend_of_loose hloose] at hlend'
      cases hlend'
    · obtain ⟨rfl, res, hret⟩ := hcall hnone
      exact kept_of hk' hret nofun hseated nofun nofun hlends
  | proc args body hstmt hcall hk' hc hbody =>
    obtain ⟨li, priv, hli, hlt, hproc⟩ := hbody
    refine calls (.proc args) (upper_of_other hstmt hcall) hk' hc ?_ nofun ?_
    · rintro _ ⟨⟩
      rfl
    · rintro _ ⟨⟩
      exact ⟨li, hli, hlt, by rw [hproc]; rfl⟩
  | finished res hstmt hk' hc =>
    rcases hc with hc | hc
    · refine kept_of hk' hc ?_ hseated nofun nofun hlends
      rintro _ ⟨⟩
      exact done_sits (upper_of_stmt hstmt) hsits
    · exact kept_of hk' hc nofun hseated nofun nofun hlends
  | callAt stmts li hstmt hcall hk' hc hli =>
    refine same (upper_of_call hcall) hk' hc rfl ?_
    cases li with
    | none => nofun
    | some li =>
      rintro _ ⟨⟩
      exact ⟨li, hli li rfl, rfl, rfl⟩
  | stmt stmts li hctl hk' hc =>
    refine calls (.call stmts li) (upper_of_ne hctl rfl) hk' hc ?_ nofun ?_
    · rintro _ ⟨⟩
      rfl
    · rintro _ ⟨⟩
      refine hk.lends _ (List.mem_append_left _ (Option.mem_toList.mpr ?_))
      rw [hctl]
      rfl
  | enter stmt lis hctl _ _ hk' hc _ => exact same (upper_of_ne hctl rfl) hk' hc rfl nofun
  | arg stmt li vs hctl hk' hc =>
    refine calls (.stmtArg stmt li vs) (upper_of_ne hctl rfl) hk' hc ?_ nofun nofun
    rintro _ ⟨⟩
    rfl
  | next stmt li li' vs v res hctl hkont hk' hc hli =>
    obtain ⟨ks, hks⟩ := List.head?_eq_some_iff.mp hkont
    exact same (upper_ret hctl hks) hk' hc rfl nofun
  | invoke stmt args vs lis hctl hk' hc _ _ =>
    have hdone := done_sits (.inl ⟨stmt, upper_of_ne hctl rfl⟩) hsits
    refine kept_of hk' hc ?_ (Bool.and_eq_true _ _ ▸ ⟨hdone, hseated⟩) nofun nofun hlends
    rintro _ ⟨⟩
    rfl
  | mapAt ks l b li r hstmt hcall hk' hc _ =>
    exact same (upper_of_other hstmt hcall) hk' hc rfl nofun
  | mapBody ks l b li r hstmt hcall hk' hc _ =>
    refine calls (.map ks l b li r) (upper_of_other hstmt hcall) hk' hc ?_ nofun nofun
    rintro _ ⟨⟩
    rfl

end Turn

end B6b
