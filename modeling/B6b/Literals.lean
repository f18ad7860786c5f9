/-
# Literals in code

`b6b_eval` of a literal returns the token itself, an item of the parsed statement. So what
changes its argument in place can change a token of the program text, and scripts use this:
a `{}` in the text is the list that `$list.append` then fills. `literal_kept`: nothing else
changes the string of a token.

Key definitions: `Token`, `callResult`.
-/
import B6b.Lib.Runs
import B6b.Moves

namespace B6b

namespace Literals

variable {F S I : Type} {N : Num F}

/-- **A literal keeps its string.** In every run, from any state, an object that has a string
keeps it, if no step changes this object in place: no `$list.append`, `$list.extend`,
`$dict.set` or `$dict.unset` is called on it. -/
theorem literal_kept (nat : Natives N S I) (m : Machine F S) (inps : List (Input I)) (t : Addr)
    (b : Bytes) (ht : t < m.heap.next) (hs : (m.heap.obj t).s = some b)
    (hc : Runs.EachStep (Machine.step nat) (fun m _ => ¬ m.Touches nat (.change t)) m inps) :
    Runs.Throughout (Machine.step nat) (fun m => (m.heap.obj t).s = some b) m inps := by
  have hrun : Runs.Throughout (Machine.step nat)
      (fun m => t < m.heap.next ∧ (m.heap.obj t).s = some b) m inps := by
    refine Runs.throughout_of_eachStep (fun m inp m' hm hch hstep => ?_) ⟨ht, hs⟩ hc
    refine evolve_invariant (I := fun h => t < h.next ∧ (h.obj t).s = some b) ?_
      (Machine.step_spec hstep).2 hm
    intro e h h' he hev hh
    have hne : e ≠ .change t := fun hce => hch (hce ▸ he)
    exact ⟨Nat.lt_of_lt_of_le hh.1 hev.next_le, hev.str_kept hne hh.1 hh.2⟩
  exact hrun.mono fun _ hm => hm.2

/-! ### Calls of `b6b_call` -/

/-- The tokens of the statements of the code `stmts`, as far as they have been parsed. -/
def tokens (h : Heap F) (stmts : Addr) : List Addr :=
  ((h.obj stmts).l.getD []).flatMap fun li => ((h.obj li.o).l.getD []).map (·.o)

/-- A token that `b6b_eval` returns as it is. -/
def Literal (b : Bytes) : Prop := b.head? ≠ some 0x24 ∧ b.head? ≠ some lbrak

instance (b : Bytes) : Decidable (Literal b) := inferInstanceAs (Decidable (_ ∧ _))

/-- The result of the call with the calls `ks` around it, if the fiber returns from it now. -/
def returned? (ks : List Kont) (id : ℕ) (σ : Interp S) : Option Res :=
  match σ.fg.ctl with
  | .ret res => if σ.fg.konts = ks ∧ σ.fg.id = id then some res else none
  | _ => none

/-- Run until the call with the calls `ks` around it returns. -/
def runTo (nat : Natives N S I) (ks : List Kont) (id : ℕ) :
    Machine F S → List (Input I) → Option (Machine F S × Res)
  | _, [] => none
  | m, inp :: inps => (m.step nat inp).bind fun m' =>
    match returned? ks id m'.interp with
    | some res => some (m', res)
    | none => runTo nat ks id m' inps

/-- The machine behind the call of `b6b_call` that is next, and its result. -/
def callResult (nat : Natives N S I) (m : Machine F S) :
    List (Input I) → Option (Machine F S × Res) :=
  runTo nat m.interp.fg.konts m.interp.fg.id m

/-- `b6b_call` of `stmts` is next. -/
def Calls (σ : Interp S) (stmts : Addr) : Prop := σ.fg.ctl = .call stmts

instance (σ : Interp S) (stmts : Addr) : Decidable (Calls σ stmts) :=
  match hctl : σ.fg.ctl with
  | .call a => decidable_of_iff (a = stmts) (by simp [Calls, hctl])
  | .begin | .callAt _ _ | .stmt _ | .argAt _ _ _ | .invoke _ | .eval _ | .mapAt _ _ _ _ _
  | .tryEnd _ _ _ | .native _ _ | .onRes _ | .ret _ | .join | .sweep | .halt | .dead =>
    .isFalse (by simp [Calls, hctl])

/-- The string of an object, if it can be built. -/
def textOf (N : Num F) (h : Heap F) (a : Addr) : Option Bytes :=
  match asStr N a h with
  | .ok b _ => some b
  | _ => none

/-- The variables are bound to the same objects. -/
def SameBindings (σ σ' : Interp S) : Prop :=
  σ.fg.curr = σ'.fg.curr ∧ σ.fg.prev = σ'.fg.prev ∧ σ.global = σ'.global

instance (σ σ' : Interp S) : Decidable (SameBindings σ σ') := inferInstanceAs (Decidable (_ ∧ _))

/-- Every call of `b6b_call` leaves the literals of its code their strings. -/
def LiteralsKept : Prop := ∀ (args : List Bytes) (exts : List ExtObj) (progs : List (Opts × Bytes))
    (m₀ : Machine ℤ Unit), Machine.start? wholeNum args exts progs = some m₀ →
  ∀ inps₀ m, Runs.run wholeStep m₀ inps₀ = some m → ∀ stmts, Calls m.interp stmts →
  ∀ inps m' res, callResult (Natives.none wholeNum) m inps = some (m', res) →
  ∀ t ∈ tokens m.heap stmts, ∀ b, textOf wholeNum m.heap t = some b → Literal b →
    textOf wholeNum m'.heap t = some b

/-- Two calls of the same code where the variables have the same bindings have the same result
and the same value. -/
def CallsAgree : Prop := ∀ (args : List Bytes) (exts : List ExtObj) (progs : List (Opts × Bytes))
    (m₀ : Machine ℤ Unit), Machine.start? wholeNum args exts progs = some m₀ →
  ∀ inps₁ inps₂ m₁ m₂, Runs.run wholeStep m₀ inps₁ = some m₁ →
    Runs.run wholeStep m₀ inps₂ = some m₂ →
  ∀ stmts, Calls m₁.interp stmts → Calls m₂.interp stmts → SameBindings m₁.interp m₂.interp →
  ∀ inps p₁ p₂, callResult (Natives.none wholeNum) m₁ inps = some p₁ →
    callResult (Natives.none wholeNum) m₂ inps = some p₂ → p₁.2 = p₂.2 ∧
    textOf wholeNum p₁.1.heap p₁.1.interp.fg.ret = textOf wholeNum p₂.1.heap p₂.1.interp.fg.ret

/-- A body that is called twice, and only reads its literal. -/
def reading : String := "{$g B {{$e X}}} {$c $B} {$c $B}"

/-- The second call leaves the literal as it is. -/
theorem literal_read : ∃ m, (wholeStart shortNames reading).bind
      (fun m₀ => Runs.run wholeStep m₀ (quiet 56)) = some m ∧ Calls m.interp 63 ∧
    73 ∈ tokens m.heap 63 ∧
    Runs.Throughout wholeStep (fun m => (m.heap.obj 73).s = some (bytes "X")) m (quiet 40) := by
  have hrun : ((wholeStart shortNames reading).bind
      fun m₀ => Runs.run wholeStep m₀ (quiet 56)).any (fun m => decide (Calls m.interp 63 ∧
        73 ∈ tokens m.heap 63 ∧ 73 < m.heap.next ∧ (m.heap.obj 73).s = some (bytes "X") ∧
        Runs.EachStep wholeStep (fun m _ => ¬ m.Touches (Natives.none wholeNum) (.change 73)) m
          (quiet 40))) = true := by
    decide +kernel
  obtain ⟨m, hm, hreads⟩ := (Option.any_eq_true _ _).mp hrun
  obtain ⟨hcalls, htok, hlt, hs, hsteps⟩ := of_decide_eq_true hreads
  exact ⟨m, hm, hcalls, htok, literal_kept _ m _ 73 _ hlt hs hsteps⟩

/-- A body that is called twice, and appends to a literal. -/
def appending : String := "{$g B {{$a X Y}}} {$c $B} {$c $B}"

/-- A body that is called twice, and changes nothing in place: the 0 of the first call is a list
in the second. -/
def converting : String :=
  "{$g B {{$l Y 0} {$l R [$z $Y]} {$h $Y} {$e $R}}} {$o} {$c $B} {$o} {$c $B}"

theorem not_literalsKept : ¬ LiteralsKept := by
  intro hall
  have hrun : ((wholeStart shortNames appending).bind fun m₀ =>
      (Runs.run wholeStep m₀ (quiet 59)).bind fun m =>
      (callResult (Natives.none wholeNum) m (quiet 30)).map fun p => (m, p)).any
        (fun p : Machine ℤ Unit × Machine ℤ Unit × Res => decide (Calls p.1.interp 63 ∧
          ∃ t ∈ tokens p.1.heap 63, textOf wholeNum p.1.heap t = some (bytes "X Y") ∧
            textOf wholeNum p.2.1.heap t ≠ some (bytes "X Y"))) = true := by
    decide +kernel
  obtain ⟨p, hp, hbad⟩ := (Option.any_eq_true _ _).mp hrun
  obtain ⟨m₀, hm₀, hp⟩ := Option.bind_eq_some_iff.mp hp
  obtain ⟨m, hm, hp⟩ := Option.bind_eq_some_iff.mp hp
  obtain ⟨⟨m', res⟩, hcall, rfl⟩ := Option.map_eq_some_iff.mp hp
  obtain ⟨hcalls, t, ht, hb, hne⟩ := of_decide_eq_true hbad
  exact hne (hall _ _ _ m₀ hm₀ _ m hm 63 hcalls _ m' res hcall t ht _ hb (by decide))

theorem not_callsAgree : ¬ CallsAgree := by
  intro hall
  have hrun : ((wholeStart shortNames converting).bind fun m₀ =>
      (Runs.run wholeStep m₀ (quiet 38)).bind fun m₁ =>
      (Runs.run wholeStep m₀ (quiet 132)).bind fun m₂ =>
      (callResult (Natives.none wholeNum) m₁ (quiet 80)).bind fun p₁ =>
      (callResult (Natives.none wholeNum) m₂ (quiet 80)).map fun p₂ => ((m₁, m₂), p₁, p₂)).any
        (fun p => decide (Calls p.1.1.interp 65 ∧ Calls p.1.2.interp 65 ∧
          SameBindings p.1.1.interp p.1.2.interp ∧
          textOf wholeNum p.2.1.1.heap p.2.1.1.interp.fg.ret ≠
            textOf wholeNum p.2.2.1.heap p.2.2.1.interp.fg.ret)) = true := by
    decide +kernel
  obtain ⟨p, hp, hbad⟩ := (Option.any_eq_true _ _).mp hrun
  obtain ⟨m₀, hm₀, hp⟩ := Option.bind_eq_some_iff.mp hp
  obtain ⟨m₁, hm₁, hp⟩ := Option.bind_eq_some_iff.mp hp
  obtain ⟨m₂, hm₂, hp⟩ := Option.bind_eq_some_iff.mp hp
  obtain ⟨p₁, hcall₁, hp⟩ := Option.bind_eq_some_iff.mp hp
  obtain ⟨p₂, hcall₂, rfl⟩ := Option.map_eq_some_iff.mp hp
  obtain ⟨hcalls₁, hcalls₂, hsame, hne⟩ := of_decide_eq_true hbad
  have hagree := hall _ _ _ m₀ hm₀ _ _ m₁ m₂ hm₁ hm₂ 65 hcalls₁ hcalls₂ hsame _ p₁ p₂ hcall₁ hcall₂
  exact hne hagree.2

/-- A literal that is appended to has another string behind the call; and a literal that is
converted is another condition in the next call, with no change in place at all. -/
theorem literals_rewritten : ¬ LiteralsKept ∧ ¬ CallsAgree := ⟨not_literalsKept, not_callsAgree⟩

end Literals

end B6b
