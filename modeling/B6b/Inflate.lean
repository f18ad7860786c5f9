/-
# The output room inflate hands to the decompressor

`b6b_zlib_do_inflate` calls `mz_inflate` over and over. After every call that ends
with `MZ_OK` it makes the output buffer one chunk longer and refills the stream
(`refill`). The decompressor is outside the model: a run is any sequence of its
replies, each of them within what it was given (`Permitted`).

The refill adds the room behind `total_out` to `avail_out` as it stands, so what a
call left of its room is counted twice: `inflate_tidy_iff` says that the stream stays
`Tidy` exactly when every call that is followed by another one leaves no room
(`NoRoomLeft`, where the 32-bit sum may also wrap around).

Key definitions: `refill`, `turn`, `calls`, `Tidy`, `NoRoomLeft`.
-/
import Mathlib.Algebra.Group.Nat.Defs
import Mathlib.Tactic.TypeStar

namespace B6b

namespace Inflate

/-! ### The loop -/

/-- `B6B_INFLATE_IN_CHUNK_SZ`. -/
def inChunk : UInt32 := 64 * 1024

/-- `B6B_INFLATE_OUT_CHUNK_SZ`. -/
def outChunk : UInt64 := 256 * 1024

/-- `SIZE_MAX`. -/
def sizeMax : UInt64 := 0xffffffffffffffff

/-- The fields of `mz_stream` that both sides use. A pointer is an address. -/
structure Strm where
  nextIn : ℕ
  availIn : UInt32
  totalIn : UInt64
  nextOut : ℕ
  availOut : UInt32
  totalOut : UInt64
deriving DecidableEq

/-- `struct b6b_zlib_inflate_data`. The buffer at `dst` has `dlen + 1` bytes. -/
structure Data where
  strm : Strm
  slen : UInt64
  dlen : UInt64
  dst : ℕ
  rem : UInt32
  ok : Bool
deriving DecidableEq

/-- What `mz_inflate` returns; every other code is `error`. -/
inductive Code
  | ok
  | streamEnd
  | error
deriving DecidableEq

/-- A reply of `mz_inflate` to one call, and what becomes of the `realloc` behind it:
the new address of the buffer, unless it fails. -/
structure Reply where
  code : Code
  consumed : UInt32
  produced : UInt32
  moved : Option ℕ
deriving DecidableEq

/-- The stream after a call that consumed and produced so many bytes. -/
def Strm.advance (s : Strm) (r : Reply) : Strm where
  nextIn := s.nextIn + r.consumed.toNat
  availIn := s.availIn - r.consumed
  totalIn := s.totalIn + r.consumed.toUInt64
  nextOut := s.nextOut + r.produced.toNat
  availOut := s.availOut - r.produced
  totalOut := s.totalOut + r.produced.toUInt64

/-- The fields after `realloc` put the longer buffer at `mdst`. -/
def refill (d : Data) (mdst : ℕ) : Data :=
  let dlen := d.dlen + outChunk
  let rem := d.slen.toUInt32 - d.strm.totalIn.toUInt32
  { d with
    dlen := dlen
    dst := mdst
    rem := rem
    strm := { d.strm with
      nextOut := mdst + (d.strm.nextOut - d.dst)
      availOut := (d.strm.availOut.toUInt64 + (dlen - d.strm.totalOut)).toUInt32
      availIn := if rem > inChunk then inChunk else rem } }

/-- Where a turn of the loop ends. -/
inductive Turn
  | again (d : Data)
  | done (d : Data)

/-- One turn of the loop in `b6b_zlib_do_inflate`. -/
def turn (d : Data) (r : Reply) : Turn :=
  let d := { d with strm := d.strm.advance r }
  match r.code with
  | .streamEnd => .done { d with ok := true }
  | .error => .done d
  | .ok =>
    if d.dlen ≥ sizeMax - outChunk - 1 then .done d
    else
      match r.moved with
      | none => .done { d with dlen := d.dlen + outChunk }
      | some mdst => .again (refill d mdst)

/-- The data before every call of `mz_inflate` that `b6b_zlib_do_inflate` makes, when
the calls are answered by `rs`. The last one is still to be answered if the loop has
not returned by then. -/
def calls (d : Data) : List Reply → List Data
  | [] => [d]
  | r :: rs => d :: match turn d r with
    | .again d' => calls d' rs
    | .done _ => []

/-- What `b6b_zlib_inflate` passes to the loop: `slen` bytes of input at `src` and room
for `dlen` bytes at `dst`. -/
def start (src dst : ℕ) (slen dlen : UInt64) : Data where
  strm := ⟨src, slen.toUInt32, 0, dst, dlen.toUInt32, 0⟩
  slen := slen
  dlen := dlen
  dst := dst
  rem := slen.toUInt32
  ok := false

/-! ### What is assumed and what is claimed -/

/-- A call consumes at most the input and produces at most the output it was given. -/
def Within (d : Data) (r : Reply) : Prop :=
  r.consumed ≤ d.strm.availIn ∧ r.produced ≤ d.strm.availOut

/-- Every reply is within what its call was given. -/
def Permitted (d : Data) (rs : List Reply) : Prop :=
  ∀ p ∈ (calls d rs).zip rs, Within p.1 p.2

/-- The next byte goes behind those written, and the room is inside the buffer. -/
def Tidy (d : Data) : Prop :=
  d.strm.nextOut = d.dst + d.strm.totalOut.toNat ∧
    d.strm.totalOut.toNat + d.strm.availOut.toNat ≤ d.dlen.toNat

/-- The call left no room, or so much that the 32-bit sum of it and the room of the
longer buffer wraps around. -/
def Fits (d : Data) (r : Reply) : Prop :=
  r.produced = d.strm.availOut ∨
    2 ^ 32 ≤ (d.strm.availOut.toNat - r.produced.toNat) +
      (d.dlen.toNat + outChunk.toNat - (d.strm.totalOut.toNat + r.produced.toNat))

/-- Every call that is followed by another one fits. -/
def NoRoomLeft (d : Data) (rs : List Reply) : Prop :=
  ∀ p ∈ (calls d rs).dropLast.zip rs, Fits p.1 p.2

instance (d : Data) (r : Reply) : Decidable (Within d r) := inferInstanceAs (Decidable (_ ∧ _))

instance (d : Data) (r : Reply) : Decidable (Fits d r) := inferInstanceAs (Decidable (_ ∨ _))

instance (d : Data) (rs : List Reply) : Decidable (Permitted d rs) :=
  inferInstanceAs (Decidable (∀ p ∈ (calls d rs).zip rs, Within p.1 p.2))

instance (d : Data) (rs : List Reply) : Decidable (NoRoomLeft d rs) :=
  inferInstanceAs (Decidable (∀ p ∈ (calls d rs).dropLast.zip rs, Fits p.1 p.2))

theorem tidy_start (src dst : ℕ) (slen dlen : UInt64) : Tidy (start src dst slen dlen) := by
  refine ⟨rfl, ?_⟩
  have : dlen.toNat % 2 ^ 32 ≤ dlen.toNat := Nat.mod_le _ _
  simpa [start] using this

/-! ### One turn -/

/-- A call within its room moves the output counters by what it produced. -/
theorem advance_counters {d : Data} {r : Reply} (ht : Tidy d) (hr : Within d r) :
    (d.strm.advance r).totalOut.toNat = d.strm.totalOut.toNat + r.produced.toNat ∧
      (d.strm.advance r).availOut.toNat = d.strm.availOut.toNat - r.produced.toNat := by
  have hp : r.produced.toNat ≤ d.strm.availOut.toNat := hr.2
  have hroom : d.strm.totalOut.toNat + d.strm.availOut.toNat ≤ d.dlen.toNat := ht.2
  have hd : d.dlen.toNat < 2 ^ 64 := d.dlen.toNat_lt
  refine ⟨?_, UInt32.toNat_sub_of_le _ _ hr.2⟩
  simp only [Strm.advance, UInt64.toNat_add, UInt32.toNat_toUInt64]
  omega

theorem tidy_advance {d : Data} {r : Reply} (ht : Tidy d) (hr : Within d r) :
    Tidy { d with strm := d.strm.advance r } := by
  obtain ⟨htot, havail⟩ := advance_counters ht hr
  have hp : r.produced.toNat ≤ d.strm.availOut.toNat := hr.2
  obtain ⟨hn, hroom⟩ := ht
  refine ⟨?_, ?_⟩
  · simp only [htot]
    simp only [Strm.advance, hn, Nat.add_assoc]
  · simp only [htot, havail]
    omega

/-- The room the refill claims, in whole numbers. -/
theorem refill_availOut (d : Data) (mdst : ℕ) (hd : d.dlen.toNat + outChunk.toNat < 2 ^ 64)
    (ht : d.strm.totalOut.toNat ≤ d.dlen.toNat) :
    (refill d mdst).strm.availOut.toNat =
      (d.strm.availOut.toNat + (d.dlen.toNat + outChunk.toNat - d.strm.totalOut.toNat)) % 2 ^ 32 := by
  have h : (d.dlen + outChunk).toNat = d.dlen.toNat + outChunk.toNat := by
    rw [UInt64.toNat_add, Nat.mod_eq_of_lt hd]
  have hle : d.strm.totalOut ≤ d.dlen + outChunk := by
    rw [UInt64.le_iff_toNat_le, h]
    omega
  have hroom : (d.dlen + outChunk - d.strm.totalOut).toNat =
      d.dlen.toNat + outChunk.toNat - d.strm.totalOut.toNat := by
    rw [UInt64.toNat_sub_of_le _ _ hle, h]
  change ((d.strm.availOut.toUInt64 + (d.dlen + outChunk - d.strm.totalOut)).toUInt32).toNat = _
  rw [UInt64.toNat_toUInt32, UInt64.toNat_add, hroom, UInt32.toNat_toUInt64]
  omega

/-- The loop goes on only behind `MZ_OK`, below the length limit and with a new buffer. -/
theorem turn_again {d d' : Data} {r : Reply} (h : turn d r = .again d') :
    d.dlen < sizeMax - outChunk - 1 ∧
      ∃ mdst, d' = refill { d with strm := d.strm.advance r } mdst := by
  unfold turn at h
  rcases hc : r.code with _ | _ | _ <;> simp only [hc] at h
  · by_cases hl : d.dlen ≥ sizeMax - outChunk - 1
    · rw [if_pos hl] at h
      cases h
    · rw [if_neg hl] at h
      rcases hm : r.moved with _ | mdst <;> simp only [hm] at h
      · cases h
      · exact ⟨UInt64.not_le.mp hl, mdst, by injection h with h; exact h.symm⟩
  · cases h
  · cases h

/-- Counting the room twice leaves at most the room of the buffer only by wrapping around. -/
theorem wrapped_le_iff {a room : ℕ} (ha : a < 2 ^ 32) (hroom : 0 < room) :
    (a + room) % 2 ^ 32 ≤ room ↔ a = 0 ∨ 2 ^ 32 ≤ a + room := by
  by_cases hw : a + room < 2 ^ 32
  · rw [Nat.mod_eq_of_lt hw]
    omega
  · have := Nat.mod_lt (a + room) (show 0 < 2 ^ 32 by decide)
    refine iff_of_true ?_ (by omega)
    rcases Nat.lt_or_ge room (2 ^ 32) with hr | hr
    · rw [Nat.mod_eq_sub_mod (by omega), Nat.mod_eq_of_lt (by omega)]
      omega
    · omega

/-- The refill keeps a tidy stream tidy exactly when the call left no room, or wraps. -/
theorem tidy_refill {d : Data} (ht : Tidy d) (mdst : ℕ)
    (hd : d.dlen.toNat + outChunk.toNat < 2 ^ 64) :
    Tidy (refill d mdst) ↔ d.strm.availOut.toNat = 0 ∨
      2 ^ 32 ≤ d.strm.availOut.toNat + (d.dlen.toNat + outChunk.toNat - d.strm.totalOut.toNat) := by
  obtain ⟨hn, hroom⟩ := ht
  have hchunk : outChunk.toNat = 262144 := rfl
  have hnext : (refill d mdst).strm.nextOut = mdst + d.strm.totalOut.toNat := by
    simp only [refill, hn]
    omega
  have hlen : (refill d mdst).dlen.toNat = d.dlen.toNat + outChunk.toNat := by
    simp only [refill, UInt64.toNat_add, Nat.mod_eq_of_lt hd]
  have hclaim := refill_availOut d mdst hd (by omega)
  rw [← wrapped_le_iff d.strm.availOut.toNat_lt (by omega)]
  unfold Tidy
  rw [hlen, hclaim]
  have htot : (refill d mdst).strm.totalOut = d.strm.totalOut := rfl
  have hdst : (refill d mdst).dst = mdst := rfl
  rw [hnext, htot, hdst]
  omega

/-- **One turn.** The stream is tidy before the next call exactly when the call before it
fitted. -/
theorem tidy_turn {d d' : Data} {r : Reply} (ht : Tidy d) (hr : Within d r)
    (hturn : turn d r = .again d') : Tidy d' ↔ Fits d r := by
  obtain ⟨hlt, mdst, rfl⟩ := turn_again hturn
  obtain ⟨htot, havail⟩ := advance_counters ht hr
  have hp : r.produced.toNat ≤ d.strm.availOut.toNat := hr.2
  have hd : d.dlen.toNat + outChunk.toNat < 2 ^ 64 := by
    have hmax : d.dlen.toNat < (sizeMax - outChunk - 1).toNat := hlt
    have hsum : (sizeMax - outChunk - 1).toNat + outChunk.toNat < 2 ^ 64 := by decide
    omega
  rw [tidy_refill (tidy_advance ht hr) mdst hd]
  simp only [htot, havail]
  unfold Fits
  rw [← UInt32.toNat_inj]
  omega

/-! ### The whole run -/

theorem calls_again {d d' : Data} {r : Reply} (h : turn d r = .again d') (rs : List Reply) :
    calls d (r :: rs) = d :: calls d' rs := by
  rw [calls, h]

theorem calls_done {d d' : Data} {r : Reply} (h : turn d r = .done d') (rs : List Reply) :
    calls d (r :: rs) = [d] := by
  rw [calls, h]

/-- The loop calls at least once. -/
theorem calls_head (d : Data) (rs : List Reply) : ∃ l, calls d rs = d :: l := by
  cases rs with
  | nil => exact ⟨[], rfl⟩
  | cons r rs => exact ⟨_, rfl⟩

theorem noRoomLeft_again {d d' : Data} {r : Reply} (h : turn d r = .again d') (rs : List Reply) :
    NoRoomLeft d (r :: rs) ↔ Fits d r ∧ NoRoomLeft d' rs := by
  obtain ⟨l, hl⟩ := calls_head d' rs
  unfold NoRoomLeft
  rw [calls_again h, hl, List.dropLast_cons_cons, List.zip_cons_cons, List.forall_mem_cons]

/-- Of a tidy stream: every call of the loop finds it tidy exactly when every call that is
followed by another one fits. -/
theorem calls_tidy : ∀ {d : Data} {rs : List Reply}, Tidy d → Permitted d rs →
    ((∀ s ∈ calls d rs, Tidy s) ↔ NoRoomLeft d rs)
  | d, [], ht, _ => by simpa [calls, NoRoomLeft] using ht
  | d, r :: rs, ht, hp => by
    rcases hturn : turn d r with d' | d'
    · unfold Permitted at hp
      rw [calls_again hturn, List.zip_cons_cons, List.forall_mem_cons] at hp
      obtain ⟨hr, hp⟩ := hp
      obtain ⟨l, hl⟩ := calls_head d' rs
      rw [calls_again hturn, List.forall_mem_cons, noRoomLeft_again hturn, ← tidy_turn ht hr hturn]
      refine ⟨fun h => ?_, fun h => ⟨ht, (calls_tidy h.1 hp).mpr h.2⟩⟩
      have hd' : Tidy d' := h.2 d' (by rw [hl]; exact List.mem_cons_self)
      exact ⟨hd', (calls_tidy hd' hp).mp h.2⟩
    · rw [calls_done hturn]
      unfold NoRoomLeft
      rw [calls_done hturn]
      simpa using ht

/-- **The room of the output buffer.** Whatever the decompressor replies, within what it was
given, every call of it finds the output pointer behind what it wrote and no more room than
the buffer has, exactly when every call that is followed by another one left no room. -/
theorem inflate_tidy_iff (src dst : ℕ) (slen dlen : UInt64) (rs : List Reply)
    (h : Permitted (start src dst slen dlen) rs) :
    (∀ d ∈ calls (start src dst slen dlen) rs,
      d.strm.nextOut = d.dst + d.strm.totalOut.toNat ∧
        d.strm.totalOut.toNat + d.strm.availOut.toNat ≤ d.dlen.toNat) ↔
      NoRoomLeft (start src dst slen dlen) rs :=
  calls_tidy (tidy_start src dst slen dlen) h

/-- The first call fills its 256K, the second one ends its input chunk 172144 bytes short of
its 256K: the third one is told of 606432 bytes where the buffer has 434288. -/
theorem inflate_short_chunk : ¬ ∀ (src dst : ℕ) (slen dlen : UInt64) (rs : List Reply),
    Permitted (start src dst slen dlen) rs → ∀ d ∈ calls (start src dst slen dlen) rs,
      d.strm.nextOut = d.dst + d.strm.totalOut.toNat ∧
        d.strm.totalOut.toNat + d.strm.availOut.toNat ≤ d.dlen.toNat := by
  intro h
  exact absurd (h 0 0 400000 outChunk [⟨.ok, 200000, 262144, some 0⟩, ⟨.ok, 65536, 90000, some 0⟩]
    (by decide)) (by decide)

/-- The replies of a run with a second call that fills its room. -/
def fullChunks : List Reply := [⟨.ok, 200000, 262144, some 0⟩, ⟨.ok, 60000, 262144, some 0⟩]

/-- It comes to a third call, and none of them is told of too much room. -/
theorem inflate_full_chunk : (calls (start 0 0 400000 outChunk) fullChunks).length = 3 ∧
    ∀ d ∈ calls (start 0 0 400000 outChunk) fullChunks,
      d.strm.nextOut = d.dst + d.strm.totalOut.toNat ∧
        d.strm.totalOut.toNat + d.strm.availOut.toNat ≤ d.dlen.toNat :=
  ⟨by decide, (inflate_tidy_iff 0 0 400000 outChunk fullChunks (by decide)).mpr (by decide)⟩

end Inflate

end B6b
