/-
# A read on two levels

`b6b_strm_read` is modelled twice: as the steps of a stream that waits for its callbacks, with the
bytes that it has (`Strm.read`), and as the loop over a buffer that is made larger for each callback
(`strmRead`). The loop over the buffer does what the stream does: the callbacks are asked for the same
amounts in the same order, and the read returns the same (`strm_read_refines`). So what holds of the
streams holds of the code with its buffer, as long as the capacity does not overflow.

Key definitions: `Callbacks.answer`, `Turn`, `Reply.event`.
-/
import B6b.Channel
import B6b.Reading
import Mathlib.Logic.Relation

namespace B6b

namespace Reading

open Relation Strm Strm.Channel Block

variable {σ : Type}

/-- What a callback that the stream waits for returns, and what is outside then. -/
def Callbacks.answer (cb : Callbacks σ) (e : σ) : Strm.Callback → Option (Strm.Input × σ)
  | .peeksz => cb.peeksz.map fun f => (.peeksz (f e).1, (f e).2)
  | .read len => some (.read ((cb.read e len.toNat).1.map fun c => (c.1.data, c.1.eof, c.1.again)),
      (cb.read e len.toNat).2)
  | _ => none

/-- The stream has called a callback, and goes on with what that returns. -/
def Turn (cb : Callbacks σ) (p q : Strm × σ) : Prop :=
  ∃ k inp, asked p.1 = some k ∧ cb.answer p.2 k = some (inp, q.2) ∧ p.1.step inp = some q.1

/-- How a read that has returned is told to the script. -/
def Reply.event (r : Reply σ) : Option Strm.Event :=
  match r.result with
  | .overflow | .oob => none
  | .err => some (.read .err .null false)
  | .null => some (.read .ok .null false)
  | .ok _ _ eof => some (.read .ok (.str r.chunks.flatten) eof)

/-- From `p` the stream comes to what `r` says, with its callbacks: it has returned that, and it is at its
end if that reports it. -/
def Reaches (cb : Callbacks σ) (p : Strm × σ) (r : Reply σ) : Prop :=
  ∃ s' ev, ReflTransGen (Turn cb) p (s', r.env) ∧ r.event = some ev ∧ s'.ctl = .idle ∧
    s'.trace.getLast? = some ev ∧ (s'.eof = true ↔ ev.Reports)

variable {cb : Callbacks σ} {s s' : Strm} {e e' : σ} {r : Reply σ}

theorem Reaches.head {p q : Strm × σ} (hturn : Turn cb p q) (h : Reaches cb q r) : Reaches cb p r := by
  obtain ⟨s', ev, hruns, hrest⟩ := h
  exact ⟨s', ev, .head hturn hruns, hrest⟩

theorem reaches_done {ev : Strm.Event} (hr : r.event = some ev) (hno : ¬ ev.Reports) (heof : s.eof = false) :
    Reaches cb (s.done ev, r.env) r :=
  ⟨s.done ev, ev, .refl, hr, rfl, List.getLast?_concat, iff_of_false (heof ▸ Bool.false_ne_true) hno⟩

/-- What the callback `read` has been asked for. -/
structure Waits (s : Strm) (want : ℕ) (buf : Bytes) (est : ℕ) : Prop where
  ctl : s.ctl = .read want buf
  asked : asked s = some (.read est)

/-- How much comes next is asked by the buffer's loop and by the stream alike. -/
theorem reaches_more (hpeek : s.ops.peeksz = cb.peeksz.isSome) (heof : s.eof = false) {want : ℕ}
    {buf : Bytes}
    (hnone : ∀ e', strmPeeksz cb e = (none, e') → r.env = e' ∧ r.event = some (.read .err .null false))
    (hzero : ∀ e', strmPeeksz cb e = (some 0, e') →
      r.env = e' ∧ r.event = some (.read .ok (.str buf) false))
    (hsome : ∀ est e', strmPeeksz cb e = (some est, e') → est ≠ 0 →
      ∀ s', Waits s' want buf (min est want) → s'.ops = s.ops → s'.eof = false → Reaches cb (s', e') r) :
    Reaches cb (s.readMore want buf, e) r := by
  have hnext : ∀ (s₁ : Strm) (est : ℤ) e', s₁.ops = s.ops → s₁.eof = false →
      strmPeeksz cb e = (if est < 0 then none else some est.toNat, e') →
      Reaches cb (s₁.readNext want buf est, e') r := by
    intro s₁ est e' hops heof₁ hask
    unfold readNext
    split_ifs at hask ⊢ with hneg hest
    · obtain ⟨rfl, hev⟩ := hnone e' hask
      exact reaches_done hev Bool.false_ne_true heof₁
    · subst hest
      obtain ⟨rfl, hev⟩ := hzero e' hask
      exact reaches_done hev Bool.false_ne_true heof₁
    · have hmin : min est (want : ℤ) = (min est.toNat want : ℕ) := by omega
      rw [hmin]
      exact hsome est.toNat e' hask (by omega) _ ⟨rfl, asked_invoke _ _ _⟩ hops heof₁
  unfold readMore
  cases hcb : cb.peeksz with
  | none =>
    rw [hpeek, hcb, if_neg (by exact Bool.false_ne_true)]
    refine hnext s strmBufsiz e rfl heof ?_
    unfold strmPeeksz
    rw [hcb]
    rfl
  | some peeksz =>
    rw [hpeek, hcb, if_pos (by rfl)]
    have hanswer : cb.answer e .peeksz = some (.peeksz (peeksz e).1, (peeksz e).2) := by
      unfold Callbacks.answer
      rw [hcb]
      rfl
    refine Reaches.head (q := ((s.invoke .peeksz (.peeksz want buf)).readNext want buf (peeksz e).1, _))
      ⟨.peeksz, _, asked_invoke _ _ _, hanswer, rfl⟩ (hnext _ _ _ rfl heof ?_)
    unfold strmPeeksz
    rw [hcb]
    dsimp only
    split_ifs <;> rfl

variable {want total len out est : ℕ} {buf : List (Option UInt8)} {chunks : List Bytes}

/-- What the callback `read` returns is told to the stream. -/
theorem Waits.turn {b : Bytes} (h : Waits s want b est) {c : Option { c : Chunk // c.stored.length ≤ est }}
    (hread : cb.read e est = (c, e')) : Turn cb (s, e)
      (s.onRead want b (c.map fun c => (c.1.data, c.1.eof, c.1.again)), e') := by
  refine ⟨.read est, .read (c.map fun c => (c.1.data, c.1.eof, c.1.again)), h.asked, ?_, ?_⟩
  · unfold Callbacks.answer
    dsimp only
    rw [Int.toNat_natCast, hread]
  · unfold Strm.step
    rw [h.ctl]

/-- The buffer's string is what the stream has. -/
theorem event_finish {env : σ} {eof : Bool} (hroom : out < buf.length) :
    Reply.event ⟨finish buf out eof, chunks, env⟩ = some (.read .ok (.str chunks.flatten) eof) := by
  unfold finish Reply.event
  rw [if_pos hroom]

/-- The loop does what the stream does. By induction on what is still wanted. -/
theorem readLoop_reaches : ∀ {want : ℕ} {buf : List (Option UInt8)} {len out est : ℕ}
    {chunks : List Bytes} {s : Strm} {e : σ}, Inv total want buf len out est chunks → est ≠ 0 →
    Waits s want chunks.flatten est → s.ops.peeksz = cb.peeksz.isSome → s.eof = false →
    (readLoop cb want buf len out est chunks e).result ≠ .overflow →
    Reaches cb (s, e) (readLoop cb want buf len out est chunks e) := by
  intro want
  induction want using Nat.strongRecOn with
  | _ want ih =>
    intro buf len out est chunks s e hinv hest hwaits hpeek heof hno
    obtain ⟨-, hroom⟩ := hinv.grown
    rw [readLoop] at hno ⊢
    dsimp only at hno ⊢
    split_ifs at hno ⊢ with hover hoob
    · exact absurd rfl hno
    · omega
    cases hread : cb.read e est with
    | mk c e' =>
      refine Reaches.head (hwaits.turn hread) ?_
      rw [hread] at hno
      cases c with
      | none => exact reaches_done (r := ⟨.err, chunks, e'⟩) rfl Bool.false_ne_true heof
      | some c =>
        obtain ⟨-, -, hlen, hroom', hdata, -⟩ := hinv.delivered c.2
        have hflat : chunks.flatten ++ c.1.data = (chunks ++ [c.1.data]).flatten := by
          rw [List.flatten_append, List.flatten_singleton]
        have hout : out + c.1.data.length <
            (memcpy (realloc buf (len + est)) out c.1.stored).length := by
          rw [hlen]
          exact hroom'
        have hlast : ∀ env, Reaches cb (s.done (.read .ok (.str (chunks ++ [c.1.data]).flatten) false), env)
            ⟨finish (memcpy (realloc buf (len + est)) out c.1.stored) (out + c.1.data.length) false,
              chunks ++ [c.1.data], env⟩ :=
          fun env => reaches_done (event_finish hout) Bool.false_ne_true heof
        dsimp only [Option.map_some] at hno ⊢
        unfold onRead
        dsimp only
        rw [hflat]
        by_cases hend : c.1.eof = true
        · rw [if_pos hend, if_pos hend]
          exact ⟨_, _, .refl, event_finish hout, rfl, List.getLast?_concat, iff_of_true rfl rfl⟩
        rw [if_neg hend] at hno ⊢
        rw [if_neg hend]
        by_cases hmore : c.1.data.length = 0 ∨ c.1.again = false
        · have hstop : c.1.data = [] ∨ ¬ c.1.again = true :=
            hmore.imp List.length_eq_zero_iff.mp (Bool.eq_false_iff.mp ·)
          rw [dif_pos hmore, if_pos hstop]
          exact hlast e'
        have hgo : ¬ (c.1.data = [] ∨ ¬ c.1.again = true) := fun h =>
          hmore (h.imp List.length_eq_zero_iff.mpr Bool.eq_false_iff.mpr)
        rw [dif_neg hmore] at hno ⊢
        rw [if_neg hgo]
        by_cases hwant : want - c.1.data.length = 0
        · rw [dif_pos hwant, if_pos (by omega)]
          exact hlast e'
        rw [dif_neg hwant] at hno ⊢
        have hcast : (want : ℤ) - c.1.data.length = (want - c.1.data.length : ℕ) := by omega
        rw [if_neg (by omega), hcast]
        refine reaches_more hpeek heof (fun e₁ hask => ?_) (fun e₁ hask => ?_)
          fun est₁ e₁ hask hpos s₁ hwaits₁ hops₁ heof₁ => ?_
        · rw [hask]
          exact ⟨rfl, rfl⟩
        · rw [hask]
          exact ⟨rfl, event_finish hout⟩
        · rw [hask] at hno ⊢
          dsimp only at hno ⊢
          rw [if_neg hpos] at hno ⊢
          obtain ⟨hstarts', hfill', -, -, -, -⟩ := hinv.delivered c.2
          have hbudget := hinv.budget
          have hbrings := (not_or.mp hmore).1
          exact ih (want - c.1.data.length) (by omega)
            ⟨hstarts', hfill', hroom', by omega, Nat.min_le_right _ _⟩ (by omega) hwaits₁
            (hops₁ ▸ hpeek) heof₁ hno

/-- **The two levels agree.** From the state in which a read begins, the stream comes to the state in
which it has returned what the loop over the buffer returns, with the same callbacks, unless the
capacity of the buffer overflows. It is at its end if it was or if a callback has reported it. -/
theorem strm_read_refines (cb : Callbacks σ) (s : Strm) (want : ℕ) (e : σ) (hwant : 0 < want)
    (hread : s.ops.read = true) (hpeek : s.ops.peeksz = cb.peeksz.isSome)
    (hno : (strmRead cb s.eof s.closed want e).result ≠ .overflow) :
    ∃ s' ev, ReflTransGen (Turn cb) (s.read want, e) (s', (strmRead cb s.eof s.closed want e).env) ∧
      (strmRead cb s.eof s.closed want e).event = some ev ∧ s'.ctl = .idle ∧
      s'.trace.getLast? = some ev ∧ (s'.eof = true ↔ s.eof = true ∨ ev.Reports) := by
  unfold strmRead at hno ⊢
  unfold Strm.read
  by_cases heof : s.eof = true
  · rw [if_pos heof, if_pos heof]
    exact ⟨_, _, .refl, rfl, rfl, List.getLast?_concat, iff_of_true heof (.inl heof)⟩
  rw [if_neg heof] at hno ⊢
  rw [if_neg heof]
  by_cases hclosed : s.closed = true
  · rw [if_pos hclosed, if_pos (.inl hclosed)]
    exact ⟨_, _, .refl, rfl, rfl, List.getLast?_concat, iff_of_false heof (by simp [heof, Event.Reports])⟩
  rw [if_neg hclosed] at hno ⊢
  rw [if_neg (not_or.mpr ⟨hclosed, not_not.mpr hread⟩)]
  have heof' : s.eof = false := Bool.eq_false_iff.mpr heof
  refine (reaches_more hpeek heof' (fun e' hask => ?_) (fun e' hask => ?_)
    fun est e' hask hest s' hwaits hops hs' => ?_).imp fun s' h => h.imp fun ev h =>
      ⟨h.1, h.2.1, h.2.2.1, h.2.2.2.1, by rw [h.2.2.2.2, or_iff_right heof]⟩
  · rw [hask]
    exact ⟨rfl, rfl⟩
  · have hfirst : readLoop cb want [] 1 0 (min 0 want) [] e' =
        ⟨finish (realloc [] 1) 0 false, [], e'⟩ := by
      rw [Nat.zero_min, readLoop, if_neg (by decide), if_pos rfl]
    rw [hask]
    dsimp only
    rw [hfirst]
    exact ⟨rfl, rfl⟩
  · rw [hask] at hno ⊢
    exact readLoop_reaches (inv_first want est) (by omega) hwaits (hops ▸ hpeek) hs' hno

/-- Six bytes are there, and a read of five gets them in three turns. -/
theorem refines_five : ∃ s' ev,
    ReflTransGen (Turn (inPieces 2))
        ((Strm.new ⟨false, true, false, false, false, false⟩).read 5, [1, 2, 3, 4, 5, 6])
        (s', (strmRead (inPieces 2) false false 5 [1, 2, 3, 4, 5, 6]).env) ∧
      Reply.event (strmRead (inPieces 2) false false 5 [1, 2, 3, 4, 5, 6]) = some ev ∧ s'.ctl = .idle ∧
      s'.trace.getLast? = some ev ∧ (s'.eof = true ↔ false = true ∨ ev.Reports) :=
  strm_read_refines (inPieces 2) (.new ⟨false, true, false, false, false, false⟩) 5 [1, 2, 3, 4, 5, 6]
    (by decide) rfl rfl (strmRead_no_overflow (by decide))

end Reading

end B6b
