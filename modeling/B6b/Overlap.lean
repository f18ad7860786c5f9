/-
# A stream that several fibers use

The callbacks of a file go through `b6b_offload`, and so they yield: other fibers run, and
may call procedures of the same stream before the first one has returned. Each procedure
has variables of its own; the flags, the callbacks and the private data are the stream's.
`b6b_strm_close` sets `B6B_STRM_CLOSED` behind its callback, `b6b_strm_read` sets
`B6B_STRM_EOF` behind one.

So a callback is called that should not be when a closed stream is asked for its peer, when
a procedure is called while the callback `close` goes on, when `close` is called while
another procedure is in a callback, and when the end of the file is read while another
fiber reads. In a run without these (`Orderly`) the callbacks are called as they should be,
whatever they return and whenever they yield (`overlap_lifecycle`).

Key definitions: `Overlap.step`, `Overlap.Orderly`, `Overlap.Inv`.
-/
import Mathlib.Data.List.Perm.Basic
import B6b.Strm

namespace B6b

namespace Strm

/-- A stream with the procedure of the fiber that runs, and the procedures of the other fibers. -/
structure Overlap where
  strm : Strm
  others : List Ctl
deriving DecidableEq

namespace Overlap

/-- A step of the fiber that runs, or a switch to another one: in a callback that yields, or between
two procedures. -/
inductive Act
  | go (inp : Input)
  | switch (i : ℕ)
deriving DecidableEq

/-- A new stream that `n` other fibers may use. -/
def new (ops : StrmOps) (n : ℕ) : Overlap := ⟨Strm.new ops, List.replicate n .idle⟩

/-- Where the fibers are. -/
def fibers (s : Overlap) : List Ctl := s.strm.ctl :: s.others

/-- The fibers in a callback: the arguments of each one's procedure hold the stream. -/
def busy (s : Overlap) : ℕ := s.fibers.countP Ctl.waits

/-- It is done with a reference to the stream. -/
def holds : Input → Bool
  | .call .. | .ref | .unref => true
  | _ => false

/-- The fiber that runs goes on to its next callback or to the end of its procedure, or another one
goes on where it was. Who calls a procedure, takes a reference or drops one has a reference besides
those of the procedures that have not returned. -/
def step (s : Overlap) : Act → Option Overlap
  | .go inp =>
    if holds inp = true → s.busy < s.strm.refs then (s.strm.step inp).map fun x => ⟨x, s.others⟩
    else none
  | .switch i =>
    (s.others[i]?).map fun k => ⟨{ s.strm with ctl := k }, s.others.set i s.strm.ctl⟩

/-- The procedures do not get in each other's way: no closed stream is asked for its peer, no
procedure is called while another fiber is in the callback `close`, none is in a callback where
`close` is called, and none reads where the end of the file is reported. -/
def Orderly (s : Overlap) : Act → Prop
  | .go inp => ¬ Asks s.strm inp ∧ (inp.calls = true → ∀ k ∈ s.others, k.closes = false) ∧
      (inp.closes = true → s.strm.ops.close = true → ∀ k ∈ s.others, k.waits = false) ∧
      (inp.ends = true → ∀ k ∈ s.others, k.reads = false)
  | .switch _ => True

instance (s : Overlap) : ∀ a, Decidable (s.Orderly a)
  | .go _ => inferInstanceAs (Decidable (_ ∧ _))
  | .switch _ => .isTrue trivial

/-! ### What the flags say -/

/-- What has happened, by the flags and by where the fibers are. -/
structure Inv (s : Overlap) : Prop where
  closes : .invoked .close ∈ s.strm.trace →
    s.strm.ops.close = true ∧ (s.strm.closed = true ∨ ∃ k ∈ s.fibers, k.closes = true)
  alone : (∃ k ∈ s.fibers, k.closes = true) → s.busy ≤ 1
  quiet : s.strm.closed = true → s.strm.ops.close = true → s.busy = 0
  eof : ∀ e ∈ s.strm.trace, e.Reports → s.strm.eof = true ∧ ∀ k ∈ s.fibers, k.reads = false
  both : s.strm.closed = true → s.strm.eof = true

section Steps

variable {s : Overlap} {x : Strm} {inp : Input}

theorem waits_of_closes {k : Ctl} (h : k.closes = true) : k.waits = true := by
  cases k with
  | close del => rfl
  | _ => cases h

theorem waits_of_reads {k : Ctl} (h : k.reads = true) : k.waits = true := by
  cases k with
  | peeksz want buf => rfl
  | read want buf => rfl
  | _ => cases h

theorem busy_eq (s : Overlap) :
    s.busy = s.others.countP Ctl.waits + if s.strm.ctl.waits then 1 else 0 := List.countP_cons

/-- Another fiber's callback counts. -/
theorem others_pos {k : Ctl} (hk : k ∈ s.others) (hw : k.waits = true) :
    0 < s.others.countP Ctl.waits := List.countP_pos_iff.mpr ⟨k, hk, hw⟩

theorem inv_new (ops : StrmOps) (n : ℕ) : Inv (new ops n) where
  closes := nofun
  alone := by
    rintro ⟨k, hk, hc⟩
    rcases List.mem_cons.mp hk with rfl | hk
    · cases hc
    · rw [List.eq_of_mem_replicate hk] at hc
      cases hc
  quiet := nofun
  eof := nofun
  both := nofun

/-- A switch changes only which fiber runs. -/
theorem Inv.switch (h : Inv s) {i : ℕ} {k : Ctl} (hi : s.others[i]? = some k) :
    Inv ⟨{ s.strm with ctl := k }, s.others.set i s.strm.ctl⟩ := by
  have hperm : (k :: s.others.set i s.strm.ctl).Perm s.fibers := by
    have hset := List.getD_set_perm_cons s.others i s.strm.ctl
    rwa [hi] at hset
  have hbusy : (k :: s.others.set i s.strm.ctl).countP Ctl.waits = s.busy := hperm.countP_eq _
  refine ⟨fun hin => ?_, ?_, ?_, fun e he hr => ?_, h.both⟩
  · obtain ⟨hops, hclosed | ⟨k', hk', hc⟩⟩ := h.closes hin
    · exact ⟨hops, .inl hclosed⟩
    · exact ⟨hops, .inr ⟨k', hperm.mem_iff.mpr hk', hc⟩⟩
  · rintro ⟨k', hk', hc⟩
    exact Nat.le_trans (Nat.le_of_eq hbusy) (h.alone ⟨k', hperm.mem_iff.mp hk', hc⟩)
  · exact fun hclosed hops => hbusy.trans (h.quiet hclosed hops)
  · obtain ⟨heof, hno⟩ := h.eof e he hr
    exact ⟨heof, fun k' hk' => hno k' (hperm.mem_iff.mp hk')⟩

/-- The references do not matter. -/
theorem Inv.count (h : Inv s) (n : ℕ) : Inv ⟨{ s.strm with refs := n }, s.others⟩ :=
  ⟨h.closes, h.alone, h.quiet, h.eof, h.both⟩

/-- The fiber that runs is in no callback of a stream that was closed. -/
theorem Inv.not_closed (h : Inv s) (hnone : ∀ k ∈ s.others, k.closes = false)
    (hctl : s.strm.ctl.closes = false) (hopen : ¬ (s.strm.closed = true ∧ s.strm.ops.close = true)) :
    .invoked .close ∉ s.strm.trace := by
  intro hin
  obtain ⟨hops, hclosed | ⟨k, hk, hc⟩⟩ := h.closes hin
  · exact hopen ⟨hclosed, hops⟩
  · rcases List.mem_cons.mp hk with rfl | hk
    · simp [hctl] at hc
    · simp [hnone k hk] at hc

/-- A procedure that goes on, or may begin, finds no stream that was closed. -/
theorem Inv.going (h : Inv s) (hgoing : s.strm.Going) :
    ¬ (s.strm.closed = true ∧ s.strm.ops.close = true) := by
  rintro ⟨hclosed, hops⟩
  rcases hgoing with hw | ⟨-, hopen⟩
  · have hbusy := s.busy_eq
    rw [h.quiet hclosed hops, if_pos hw] at hbusy
    omega
  · simp [hclosed] at hopen

/-- Behind the end of the file no read goes on, and none begins. -/
theorem Inv.not_reading (h : Inv s) {e : Event} (he : e ∈ s.strm.trace) (hr : e.Reports) :
    ¬ s.strm.Reading := by
  obtain ⟨heof, hno⟩ := h.eof e he hr
  rintro (hreads | ⟨-, hmore⟩)
  · simp [hno _ List.mem_cons_self] at hreads
  · simp [heof] at hmore

/-- A procedure returns. -/
theorem Inv.done (h : Inv s) (hnone : ∀ k ∈ s.others, k.closes = false)
    (hctl : s.strm.ctl.closes = false) {e : Event} (eof : Bool) (n : ℕ)
    (heof : s.strm.eof = true → eof = true)
    (he : e.Reports → eof = true ∧ ∀ k ∈ s.others, k.reads = false) (hclose : e ≠ .invoked .close) :
    Inv ⟨{ s.strm.done e with eof := eof, refs := n }, s.others⟩ where
  closes hin := by
    rcases List.mem_append.mp hin with hin | hin
    · obtain ⟨hops, hclosed | ⟨k, hk, hc⟩⟩ := h.closes hin
      · exact ⟨hops, .inl hclosed⟩
      · rcases List.mem_cons.mp hk with rfl | hk
        · simp [hctl] at hc
        · simp [hnone k hk] at hc
    · exact absurd (List.mem_singleton.mp hin).symm hclose
  alone := by
    rintro ⟨k, hk, hc⟩
    rcases List.mem_cons.mp hk with rfl | hk
    · cases hc
    · simp [hnone k hk] at hc
  quiet hclosed hops := by
    have hbusy := h.quiet hclosed hops
    rw [busy_eq] at hbusy ⊢
    exact (Nat.eq_zero_of_add_eq_zero hbusy).1
  eof e' he' hr := by
    rcases List.mem_append.mp he' with he' | he'
    · obtain ⟨hend, hno⟩ := h.eof e' he' hr
      exact ⟨heof hend, List.forall_mem_cons.mpr ⟨rfl, (List.forall_mem_cons.mp hno).2⟩⟩
    · obtain rfl := List.mem_singleton.mp he'
      exact ⟨(he hr).1, List.forall_mem_cons.mpr ⟨rfl, (he hr).2⟩⟩
  both hclosed := heof (h.both hclosed)

/-- A procedure calls a callback that is not `close`. -/
theorem Inv.invoke (h : Inv s) (hnone : ∀ k ∈ s.others, k.closes = false)
    (hctl : s.strm.ctl.closes = false) (hopen : ¬ (s.strm.closed = true ∧ s.strm.ops.close = true))
    {c : Callback} {k : Ctl} (hc : c ≠ .close) (hk : k.closes = false)
    (hread : k.reads = true → s.strm.Reading) : Inv ⟨s.strm.invoke c k, s.others⟩ where
  closes hin := by
    rcases List.mem_append.mp hin with hin | hin
    · exact absurd hin (h.not_closed hnone hctl hopen)
    · exact absurd (Event.invoked.inj (List.mem_singleton.mp hin)).symm hc
  alone := by
    rintro ⟨k', hk', hc'⟩
    rcases List.mem_cons.mp hk' with rfl | hk'
    · exact nomatch hk.symm.trans hc'
    · simp [hnone k' hk'] at hc'
  quiet hclosed hops := absurd ⟨hclosed, hops⟩ hopen
  eof e he hr := by
    rcases List.mem_append.mp he with he | he
    · obtain ⟨hend, hno⟩ := h.eof e he hr
      have hnot : k.reads = false :=
        Bool.eq_false_iff.mpr fun hreads => h.not_reading he hr (hread hreads)
      exact ⟨hend, List.forall_mem_cons.mpr ⟨hnot, (List.forall_mem_cons.mp hno).2⟩⟩
    · obtain rfl := List.mem_singleton.mp he
      exact hr.elim
  both := h.both

/-- `close` calls its callback. -/
theorem Inv.close (h : Inv s) (hclosed : s.strm.closed = false) (hops : s.strm.ops.close = true)
    (hothers : ∀ k ∈ s.others, k.waits = false) (del : Bool) :
    Inv ⟨s.strm.invoke .close (.close del), s.others⟩ where
  closes _ := ⟨hops, .inr ⟨_, List.mem_cons_self, rfl⟩⟩
  alone _ := by
    have hzero : s.others.countP Ctl.waits = 0 :=
      List.countP_eq_zero.mpr fun k hk => Bool.eq_false_iff.mp (hothers k hk)
    rw [busy_eq]
    exact Nat.le_of_eq (congrArg (· + 1) hzero)
  quiet hc := nomatch hclosed.symm.trans hc
  eof e he hr := by
    rcases List.mem_append.mp he with he | he
    · obtain ⟨hend, hno⟩ := h.eof e he hr
      exact ⟨hend, List.forall_mem_cons.mpr ⟨rfl, (List.forall_mem_cons.mp hno).2⟩⟩
    · obtain rfl := List.mem_singleton.mp he
      exact hr.elim
  both hc := nomatch hclosed.symm.trans hc

/-- The flags are set: behind the callback `close`, or if there is nothing to close. -/
theorem Inv.shut (h : Inv s) (hnone : ∀ k ∈ s.others, k.closes = false) {del : Bool}
    (hclose : s.strm.ctl = .close del ∨
      s.strm.ctl = .idle ∧ (s.strm.closed = true ∨ s.strm.ops.close = false))
    {k : Ctl} (hk : k.waits = false) (n : ℕ) :
    Inv ⟨{ s.strm with closed := true, eof := true, refs := n, ctl := k }, s.others⟩ where
  closes hin := ⟨(h.closes hin).1, .inl rfl⟩
  alone := by
    rintro ⟨k', hk', hc⟩
    rcases List.mem_cons.mp hk' with rfl | hk'
    · simp [waits_of_closes hc] at hk
    · simp [hnone k' hk'] at hc
  quiet _ hops := by
    have hbusy := s.busy_eq
    have hzero : s.others.countP Ctl.waits = 0 := by
      rcases hclose with hctl | ⟨-, hclosed | hno⟩
      · have hle := h.alone ⟨_, List.mem_cons_self, by rw [hctl]; rfl⟩
        rw [hbusy, hctl] at hle
        exact Nat.le_zero.mp (Nat.le_of_add_le_add_right hle)
      · rw [h.quiet hclosed hops] at hbusy
        exact (Nat.eq_zero_of_add_eq_zero hbusy.symm).1
      · exact nomatch hno.symm.trans hops
    rw [busy_eq]
    exact (congrArg (_ + ·) (if_neg (Bool.eq_false_iff.mp hk))).trans hzero
  eof e he hr := by
    have hread : k.reads = false := Bool.eq_false_iff.mpr fun hr => by simp [waits_of_reads hr] at hk
    exact ⟨rfl, List.forall_mem_cons.mpr ⟨hread, (List.forall_mem_cons.mp (h.eof e he hr).2).2⟩⟩
  both _ := rfl

/-- The end of `close`. -/
theorem Inv.onClose (h : Inv s) (hnone : ∀ k ∈ s.others, k.closes = false) (del : Bool)
    (hclose : s.strm.ctl = .close del ∨
      s.strm.ctl = .idle ∧ (s.strm.closed = true ∨ s.strm.ops.close = false)) :
    Inv ⟨{ s.strm with closed := true, eof := true }.closeDone del, s.others⟩ := by
  cases del with
  | true => exact h.shut hnone hclose rfl 0
  | false =>
    have hshut := h.shut hnone hclose (k := .idle) rfl s.strm.refs
    exact hshut.done hnone rfl true s.strm.refs id nofun nofun

/-! ### Every step -/

/-- While another fiber is in the callback `close`, the references are all that changes. -/
theorem Inv.while_closing (h : Inv s) (hclosing : ∃ k ∈ s.others, k.closes = true)
    (hcalls : inp.calls = true → ∀ k ∈ s.others, k.closes = false)
    (hheld : holds inp = true → s.busy < s.strm.refs) (hs : s.strm.step inp = some x) :
    ∃ n, x = { s.strm with refs := n } := by
  obtain ⟨k, hk, hc⟩ := hclosing
  have hpos := others_pos hk (waits_of_closes hc)
  have hbusy := s.busy_eq
  have hle := h.alone ⟨k, List.mem_cons_of_mem _ hk, hc⟩
  have hctl : s.strm.ctl.waits = false := by
    refine Bool.eq_false_iff.mpr fun hw => ?_
    rw [if_pos hw] at hbusy
    omega
  have hstep := hs
  unfold Strm.step at hstep
  rcases step_of_not_waits hctl hs with hcall | rfl | rfl
  · simp [hcalls hcall k hk] at hc
  · split at hstep <;> try contradiction
    exact ⟨_, (Option.some.inj hstep).symm⟩
  · split at hstep <;> try contradiction
    obtain rfl := Option.some.inj hstep
    have hmore : ¬ s.strm.refs ≤ 1 := by
      have hlt := hheld rfl
      omega
    unfold unref
    rw [if_neg hmore]
    exact ⟨_, rfl⟩

/-- **An orderly step keeps what the flags say.** -/
theorem Inv.go (h : Inv s) (ho : s.Orderly (.go inp))
    (hheld : holds inp = true → s.busy < s.strm.refs) (hs : s.strm.step inp = some x) : Inv ⟨x, s.others⟩ := by
  obtain ⟨hasks, hcalls, hclosing, hends⟩ := ho
  by_cases hother : ∃ k ∈ s.others, k.closes = true
  · obtain ⟨n, rfl⟩ := h.while_closing hother hcalls hheld hs
    exact h.count n
  have hnone : ∀ k ∈ s.others, k.closes = false := fun k hk =>
    Bool.eq_false_iff.mpr fun hc => hother ⟨k, hk, hc⟩
  cases step_move h.both hs with
  | count n => exact h.count n
  | returned r v n hctl => exact h.done hnone hctl s.strm.eof n id nofun nofun
  | read r v hctl hres => exact h.done hnone hctl s.strm.eof s.strm.refs id nofun nofun
  | readEof v want buf hctl hend =>
    exact h.done hnone (by rw [hctl]; rfl) true s.strm.refs (fun _ => rfl) (fun _ => ⟨rfl, hends hend⟩) nofun
  | invoke c k hctl hgoing hc hk hread =>
    refine h.invoke hnone hctl (h.going hgoing) hc hk fun hreads => ?_
    exact hread.resolve_right fun hno => nomatch hno.1.symm.trans hreads
  | peer hctl hpeer =>
    exact h.invoke hnone (by rw [hctl]; rfl) (fun hc => hasks (hpeer hc.1 hc.2)) nofun rfl nofun
  | close del hctl hclosed hops hcloses =>
    refine h.close hclosed hops ?_ del
    rcases hcloses with hcall | ⟨rfl, hlast⟩
    · exact hclosing hcall hops
    · have hlt := hheld rfl
      have hbusy := s.busy_eq
      have hzero : s.others.countP Ctl.waits = 0 := by omega
      exact fun k hk => Bool.eq_false_iff.mpr (List.countP_eq_zero.mp hzero k hk)
  | closed del hclose => exact h.onClose hnone del hclose

/-- **An orderly step calls the callbacks as it should.** -/
theorem Inv.lifecycle (h : Inv s) (hl : Lifecycle s.strm.trace) (ho : s.Orderly (.go inp))
    (hheld : holds inp = true → s.busy < s.strm.refs) (hs : s.strm.step inp = some x) :
    Lifecycle x.trace := by
  obtain ⟨hasks, hcalls, -, -⟩ := ho
  by_cases hother : ∃ k ∈ s.others, k.closes = true
  · obtain ⟨n, rfl⟩ := h.while_closing hother hcalls hheld hs
    exact hl
  have hnone : ∀ k ∈ s.others, k.closes = false := fun k hk =>
    Bool.eq_false_iff.mpr fun hc => hother ⟨k, hk, hc⟩
  cases step_move h.both hs with
  | count n => exact hl
  | returned r v n hctl =>
    exact lifecycle_concat.mpr ⟨hl, fun e' he' => ⟨nofun, fun _ => ⟨nofun, nofun⟩⟩⟩
  | read r v hctl hres =>
    refine lifecycle_concat.mpr ⟨hl, fun e' he' => ⟨nofun, fun hr => ⟨nofun, ?_⟩⟩⟩
    rintro r' v' eof ⟨⟩
    exact hres (h.not_reading he' hr)
  | readEof v want buf hctl hend =>
    refine lifecycle_concat.mpr ⟨hl, fun e' he' => ⟨nofun, fun hr => ?_⟩⟩
    exact absurd (.inl (by rw [hctl]; rfl)) (h.not_reading he' hr)
  | invoke c k hctl hgoing hc hk hread =>
    have hnot := h.not_closed hnone hctl (h.going hgoing)
    refine lifecycle_concat.mpr ⟨hl, fun e' he' => ⟨?_, fun hr => ⟨?_, nofun⟩⟩⟩
    · rintro rfl
      exact absurd he' hnot
    · rintro len ⟨⟩
      exact (hread.resolve_left (h.not_reading he' hr)).2 len rfl
  | peer hctl hpeer =>
    have hnot := h.not_closed hnone (by rw [hctl]; rfl) fun hc => hasks (hpeer hc.1 hc.2)
    refine lifecycle_concat.mpr ⟨hl, fun e' he' => ⟨?_, fun _ => ⟨nofun, nofun⟩⟩⟩
    rintro rfl
    exact absurd he' hnot
  | close del hctl hclosed hops hcloses =>
    have hnot := h.not_closed hnone (by rw [hctl]; rfl) fun hc => nomatch hclosed.symm.trans hc.1
    refine lifecycle_concat.mpr ⟨hl, fun e' he' => ⟨?_, fun _ => ⟨nofun, nofun⟩⟩⟩
    rintro rfl
    exact absurd he' hnot
  | closed del hclose =>
    cases del with
    | true => exact hl
    | false => exact lifecycle_concat.mpr ⟨hl, fun e' he' => ⟨nofun, fun _ => ⟨nofun, nofun⟩⟩⟩

end Steps

theorem step_go {s s' : Overlap} {inp : Input} (hs : step s (.go inp) = some s') :
    (holds inp = true → s.busy < s.strm.refs) ∧
      ∃ x, s.strm.step inp = some x ∧ s' = ⟨x, s.others⟩ := by
  by_cases hheld : holds inp = true → s.busy < s.strm.refs
  · have hmap : (s.strm.step inp).map (fun x => (⟨x, s.others⟩ : Overlap)) = some s' :=
      (if_pos hheld).symm.trans hs
    obtain ⟨x, hx, rfl⟩ := Option.map_eq_some_iff.mp hmap
    exact ⟨hheld, x, hx, rfl⟩
  · exact nomatch (if_neg hheld).symm.trans hs

theorem step_keeps {s s' : Overlap} {a : Act} (h : Inv s ∧ Lifecycle s.strm.trace) (ho : s.Orderly a)
    (hs : step s a = some s') : Inv s' ∧ Lifecycle s'.strm.trace := by
  cases a with
  | go inp =>
    obtain ⟨hheld, x, hx, rfl⟩ := step_go hs
    exact ⟨h.1.go ho hheld hx, h.1.lifecycle h.2 ho hheld hx⟩
  | switch i =>
    obtain ⟨k, hk, rfl⟩ := Option.map_eq_some_iff.mp hs
    exact ⟨h.1.switch hk, h.2⟩

/-- **When the callbacks of a stream are called as they should be.** For all callbacks, whatever
they return and whenever they yield, and whatever any number of fibers does with the stream: `close`
is called at most once and no callback after it, and `read` never again once it has reported the end
of the file, all reads after that being empty, if the procedures do not get in each other's way. -/
theorem overlap_lifecycle (ops : StrmOps) (n : ℕ) (acts : List Act)
    (ho : Runs.EachStep step Orderly (new ops n) acts) :
    Runs.Throughout step (fun s => Lifecycle s.strm.trace) (new ops n) acts :=
  (Runs.throughout_of_eachStep (fun _ _ _ h ho hs => step_keeps h ho hs)
    ⟨inv_new ops n, Nat.zero_le _, .nil⟩ ho).mono fun _ h => h.2

/-- The callbacks of a file that is read and written. -/
def fileOps : StrmOps := ⟨true, true, true, false, false, true⟩

/-- The callbacks of a TCP client. -/
def tcpClientOps : StrmOps := ⟨true, true, true, true, false, true⟩

/-- Two fibers write to a file and read it to its end: the second one is called while the first one is
in its callback. Then one closes it, the other one finds it closed, and both let it go. -/
theorem overlap_lifecycle_file :
    Runs.Throughout step (fun s => Lifecycle s.strm.trace) (new fileOps 1)
      [.go .ref, .go (.call (bytes "write") (some ⟨none, some (bytes "ab")⟩)), .switch 0,
        .go (.call (bytes "read") none), .switch 0, .go (.write 2), .switch 0, .go (.peeksz 4096),
        .go (.read (some (bytes "ab", true, true))), .go (.call (bytes "read") none),
        .go (.call (bytes "close") none), .switch 0, .go .unref, .switch 0, .go .close, .switch 0,
        .go (.call (bytes "write") (some ⟨none, some (bytes "c")⟩)), .go .unref] :=
  overlap_lifecycle fileOps 1 _ (by decide)

/-- A TCP client that is closed and asked for its peer then, and a file that two fibers close: the
callback `peer` reads freed memory, and the callback `close` frees it again. -/
theorem closed_and_used :
    ¬ Runs.Throughout step (fun s => Lifecycle s.strm.trace) (new tcpClientOps 0)
      [.go (.call (bytes "close") none), .go .close, .go (.call (bytes "peer") none)] ∧
    ¬ Runs.Throughout step (fun s => Lifecycle s.strm.trace) (new fileOps 1)
      [.go .ref, .go (.call (bytes "close") none), .switch 0, .go (.call (bytes "close") none)] := by
  constructor
  · intro hall
    have hrun : Runs.run step (new tcpClientOps 0)
        [.go (.call (bytes "close") none), .go .close, .go (.call (bytes "peer") none)] =
        some ⟨⟨tcpClientOps, true, true, 1, .peer,
          [.invoked .close, .returned .ok .null, .invoked .peer]⟩, []⟩ := by
      decide
    have hfollows : Follows (.invoked .close) (.invoked .peer) :=
      (List.pairwise_cons.mp (hall.run hrun).follows).1 _ (by decide)
    exact hfollows.1 rfl .peer rfl
  · intro hall
    have hrun : Runs.run step (new fileOps 1)
        [.go .ref, .go (.call (bytes "close") none), .switch 0, .go (.call (bytes "close") none)] =
        some ⟨⟨fileOps, false, false, 2, .close false, [.invoked .close, .invoked .close]⟩,
          [.close false]⟩ := by
      decide
    exact absurd (hall.run hrun).once (by decide)

end Overlap

end Strm

end B6b
