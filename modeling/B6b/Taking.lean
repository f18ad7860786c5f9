/-
# What a read that fails has taken

A read of a stream over a descriptor fails if one of its system calls does. If this is not the first
turn of the read loop, the turns before have taken bytes, and these are lost. A semaphore or a timer
has one turn: `b6b_fd_read_u64` takes the number from the descriptor before it writes it into the
buffer, and the size of the buffer comes from the script. So a read that fails has taken nothing
exactly if no such turn is there: `read_takes_nothing_iff`.

Key definitions: `Kernel`, `fdCallbacks`, `u64Callbacks`, `LaterFails`, `Truncates`.
-/
import B6b.Reading
import B6b.Lib.Word

namespace B6b

namespace Taking

open Reading

/-! ### Descriptors -/

/-- What a system call `read` finds: bytes, nothing at the moment (`EAGAIN`), or an error. -/
inductive Found
  | bytes (b : Bytes)
  | again
  | error

/-- What the kernel has for a turn: the answer to `FIONREAD`, which may be an error, and to `read`. -/
structure Turn where
  peek : Option ℕ
  read : Found

/-- The turns of a descriptor, one after another. -/
abbrev Kernel := ℕ → Turn

/-- The turn that is next, and the bytes that have been taken from the descriptor. -/
structure Fd where
  turn : ℕ
  taken : Bytes

/-- A descriptor from which nothing has been taken. -/
def Fd.start : Fd := ⟨0, []⟩

/-- `read`, of at most `len` bytes: `none` is an error, and no bytes are what `b6b_fd_on_read` makes of
`EAGAIN`. -/
def fdRead (K : Kernel) (fd : Fd) (len : ℕ) : Option Bytes × Fd :=
  match (K fd.turn).read with
  | .bytes b => (some (b.take len), ⟨fd.turn + 1, fd.taken ++ b.take len⟩)
  | .again => (some [], { fd with turn := fd.turn + 1 })
  | .error => (none, { fd with turn := fd.turn + 1 })

theorem fdRead_length {K : Kernel} {fd fd' : Fd} {len : ℕ} {b : Bytes}
    (h : fdRead K fd len = (some b, fd')) : b.length ≤ len := by
  unfold fdRead at h
  split at h
  · rw [← Option.some.inj (Prod.mk.inj h).1, List.length_take]
    exact Nat.min_le_left _ _
  · rw [← Option.some.inj (Prod.mk.inj h).1]
    exact Nat.zero_le _
  · cases h

/-- `b6b_fd_peeksz`, and `b6b_fd_read` or `b6b_fd_recv`; of datagrams `recvfrom`, which clears `again`. -/
def fdCallbacks (K : Kernel) (datagram : Bool) : Callbacks Fd where
  peeksz := some fun fd => ((K fd.turn).peek.elim (-1) fun n => n, fd)
  read fd len :=
    match h : fdRead K fd len with
    | (none, fd) => (none, fd)
    | (some b, fd) => (some ⟨⟨b, [], false, !datagram⟩, by
        unfold Chunk.stored
        rw [List.append_nil]
        exact fdRead_length h⟩, fd)

/-- `"%" PRIu64` -/
def fmtU64 (u : ℕ) : Bytes := fmtInt u

/-- `sizeof("18446744073709551615")` -/
def u64Size : ℕ := 21

/-- `b6b_fd_peeksz_u64` and `b6b_fd_read_u64`: a number of eight bytes is read, and written into the
buffer as a numeral with a terminator behind it. -/
def u64Callbacks (K : Kernel) (little : Bool) : Callbacks Fd where
  peeksz := some fun fd => (u64Size, fd)
  read fd len :=
    match fdRead K fd 8 with
    | (none, fd) => (none, fd)
    | (some b, fd) =>
      if b = [] then (some ⟨⟨[], [], false, true⟩, Nat.zero_le _⟩, fd)
      else if b.length ≠ 8 then (none, fd)
      else
        let s := fmtU64 (Word.unsigned little b).toNat
        if h : s.length ≥ len then (none, fd)
        else (some ⟨⟨s, [0], false, false⟩, by
          unfold Chunk.stored
          rw [List.length_append, List.length_singleton]
          exact Nat.succ_le_of_lt (Nat.not_le.mp h)⟩, fd)

/-- Byte streams, datagrams, and numbers: semaphores and timers. Files of stdio, which have a buffer of
their own, and streams of signals are none of these. -/
inductive Kind
  | bytes (datagram : Bool)
  | u64 (little : Bool)

def callbacks (K : Kernel) : Kind → Callbacks Fd
  | .bytes datagram => fdCallbacks K datagram
  | .u64 little => u64Callbacks K little

/-! ### What is lost -/

/-- The bytes that a turn can bring: those that `read` finds, but no more than `FIONREAD` has told. -/
def Turn.amount (t : Turn) : ℕ :=
  match t.peek, t.read with
  | some n, .bytes b => min n b.length
  | _, _ => 0

/-- From turn `k` on a system call fails, with `want` bytes still wanted and `len` bytes of capacity:
in this turn, or behind it, if it brings some bytes but not all. (Unless the capacity overflows
before.) -/
inductive FailsFrom (K : Kernel) : (k want len : ℕ) → Prop
  | peek {k want len : ℕ} : (K k).peek = none → FailsFrom K k want len
  | read {k want len n : ℕ} : (K k).peek = some n → 0 < n →
      ((len + min n want : ℕ) : ℤ) ≤ ssizeMax → (K k).read = .error → FailsFrom K k want len
  | later {k want len n : ℕ} : (K k).peek = some n → 0 < (K k).amount → (K k).amount < want →
      ((len + min n want : ℕ) : ℤ) ≤ ssizeMax →
      FailsFrom K (k + 1) (want - (K k).amount) (len + min n want) → FailsFrom K k want len

/-- A system call fails behind the first turn, which has brought some bytes but not all. -/
def LaterFails (K : Kernel) (want : ℕ) : Prop :=
  ∃ n, (K 0).peek = some n ∧ 0 < (K 0).amount ∧ (K 0).amount < want ∧
    FailsFrom K 1 (want - (K 0).amount) (1 + min n want)

/-- Something is there that is no number, or a number with a numeral that is too long for what is
wanted. -/
def Truncates (K : Kernel) (little : Bool) (want : ℕ) : Prop :=
  ∃ b, (K 0).read = .bytes b ∧ b ≠ [] ∧
    (b.length < 8 ∨ min u64Size want ≤ (fmtU64 (Word.unsigned little (b.take 8)).toNat).length)

/-- A read loses what it has taken. -/
def Loses (K : Kernel) (want : ℕ) : Kind → Prop
  | .bytes datagram => datagram = false ∧ LaterFails K want
  | .u64 little => Truncates K little want

/-! ### Turns of a byte stream -/

variable {K : Kernel} {datagram eof closed : Bool} {k n want total len out est : ℕ}
  {buf : List (Option UInt8)} {chunks : List Bytes} {fd : Fd} {b : Bytes}

theorem amount_of_bytes (hpeek : (K k).peek = some n) (hread : (K k).read = .bytes b) :
    (K k).amount = min n b.length := by
  unfold Turn.amount
  rw [hpeek, hread]

theorem amount_of_not_bytes (hread : (K k).read = .again ∨ (K k).read = .error) : (K k).amount = 0 := by
  unfold Turn.amount
  rcases hread with hread | hread
  · rw [hread]
    cases (K k).peek <;> rfl
  · rw [hread]
    cases (K k).peek <;> rfl

/-- A turn that can bring something has an estimate, and bytes. -/
theorem amount_pos (h : 0 < (K k).amount) (hpeek : (K k).peek = some n) :
    0 < n ∧ ∃ b, (K k).read = .bytes b ∧ b ≠ [] := by
  cases hread : (K k).read with
  | again =>
    rw [amount_of_not_bytes (.inl hread)] at h
    exact absurd h (Nat.lt_irrefl 0)
  | error =>
    rw [amount_of_not_bytes (.inr hread)] at h
    exact absurd h (Nat.lt_irrefl 0)
  | bytes b =>
    rw [amount_of_bytes hpeek hread] at h
    exact ⟨by omega, b, rfl, List.ne_nil_of_length_pos (by omega)⟩

/-- The failures of a turn with an estimate. -/
theorem failsFrom_iff (hpeek : (K k).peek = some n) : FailsFrom K k want len ↔
    0 < n ∧ ((len + min n want : ℕ) : ℤ) ≤ ssizeMax ∧ ((K k).read = .error ∨
      0 < (K k).amount ∧ (K k).amount < want ∧
        FailsFrom K (k + 1) (want - (K k).amount) (len + min n want)) := by
  constructor
  · intro h
    cases h with
    | peek hnone =>
      rw [hpeek] at hnone
      cases hnone
    | read hn hpos hmax herr =>
      obtain rfl := Option.some.inj (hpeek.symm.trans hn)
      exact ⟨hpos, hmax, .inl herr⟩
    | later hn hpos hlt hmax hrest =>
      obtain rfl := Option.some.inj (hpeek.symm.trans hn)
      exact ⟨(amount_pos hpos hpeek).1, hmax, .inr ⟨hpos, hlt, hrest⟩⟩
  · rintro ⟨hpos, hmax, herr | ⟨hamount, hlt, hrest⟩⟩
    · exact .read hpeek hpos hmax herr
    · exact .later hpeek hamount hlt hmax hrest

theorem finish_ne_err {eof : Bool} : finish buf out eof ≠ .err := by
  unfold finish
  split_ifs <;> exact nofun

theorem peeksz_fd : strmPeeksz (fdCallbacks K datagram) fd = ((K fd.turn).peek, fd) := by
  cases hpeek : (K fd.turn).peek with
  | none => simp [strmPeeksz, fdCallbacks, hpeek]
  | some n => simp [strmPeeksz, fdCallbacks, hpeek, Int.not_lt.mpr (Int.natCast_nonneg n)]

theorem stored_take (b : Bytes) (len : ℕ) {eof again : Bool} :
    (⟨b.take len, [], eof, again⟩ : Chunk).stored.length ≤ len := by
  unfold Chunk.stored
  rw [List.append_nil, List.length_take]
  exact Nat.min_le_left _ _

/-- What the callback stores, by what the kernel has. -/
theorem read_fd (len : ℕ) : (fdCallbacks K datagram).read fd len =
    match (K fd.turn).read with
    | .bytes b => (some ⟨⟨b.take len, [], false, !datagram⟩, stored_take b len⟩,
        ⟨fd.turn + 1, fd.taken ++ b.take len⟩)
    | .again => (some ⟨⟨[], [], false, !datagram⟩, Nat.zero_le _⟩, { fd with turn := fd.turn + 1 })
    | .error => (none, { fd with turn := fd.turn + 1 }) := by
  unfold fdCallbacks
  dsimp only
  split
  · rename_i fd' h
    unfold fdRead at h
    split at h
    · cases h
    · cases h
    · obtain rfl := (Prod.mk.inj h).2
      rfl
  · rename_i b fd' h
    unfold fdRead at h
    split at h
    · obtain ⟨hb, rfl⟩ := Prod.mk.inj h
      obtain rfl := Option.some.inj hb
      rfl
    · obtain ⟨hb, rfl⟩ := Prod.mk.inj h
      obtain rfl := Option.some.inj hb
      rfl
    · cases h

/-- What the callback has read is what the kernel has, up to the estimate. -/
theorem data_of_read {c : { c : Chunk // c.stored.length ≤ est }} {fd' : Fd}
    (h : (fdCallbacks K datagram).read fd est = (some c, fd')) : fd'.turn = fd.turn + 1 ∧
      c.1.eof = false ∧ c.1.again = !datagram ∧
        (c.1.data = [] ∧ (K fd.turn).read = .again ∨
          ∃ b, (K fd.turn).read = .bytes b ∧ c.1.data = b.take est) := by
  rw [read_fd] at h
  cases hread : (K fd.turn).read with
  | error =>
    rw [hread] at h
    cases h
  | again =>
    rw [hread] at h
    cases h
    exact ⟨rfl, rfl, rfl, .inl ⟨rfl, rfl⟩⟩
  | bytes b =>
    rw [hread] at h
    cases h
    exact ⟨rfl, rfl, rfl, .inr ⟨b, rfl, rfl⟩⟩

theorem error_of_read {fd' : Fd} (h : (fdCallbacks K datagram).read fd est = (none, fd')) :
    (K fd.turn).read = .error ∧ fd'.taken = fd.taken := by
  rw [read_fd] at h
  cases hread : (K fd.turn).read with
  | error =>
    rw [hread] at h
    cases h
    exact ⟨rfl, rfl⟩
  | again =>
    rw [hread] at h
    cases h
  | bytes b =>
    rw [hread] at h
    cases h

/-- The length of a chunk, and whether the callback had an error, by what the turn can bring. -/
theorem length_of_read {c : { c : Chunk // c.stored.length ≤ min n want }} {fd' : Fd}
    (hpeek : (K fd.turn).peek = some n)
    (h : (fdCallbacks K datagram).read fd (min n want) = (some c, fd')) :
    c.1.data.length = min (K fd.turn).amount want ∧ (K fd.turn).read ≠ .error := by
  obtain ⟨-, -, -, ⟨hnil, hread⟩ | ⟨b, hread, hdata⟩⟩ := data_of_read h
  · rw [hnil, amount_of_not_bytes (.inl hread), hread]
    exact ⟨(Nat.zero_min want).symm, nofun⟩
  · rw [hdata, amount_of_bytes hpeek hread, hread, List.length_take]
    exact ⟨by omega, nofun⟩

/-- **A byte stream's loop fails where its kernel does.** By induction on what is still wanted. -/
theorem readLoop_err_iff : ∀ {want : ℕ} {buf : List (Option UInt8)} {len out n : ℕ}
    {chunks : List Bytes} {fd : Fd}, 0 < want → Inv total want buf len out (min n want) chunks →
    (K fd.turn).peek = some n →
    ((readLoop (fdCallbacks K false) want buf len out (min n want) chunks fd).result = .err ↔
      FailsFrom K fd.turn want len) := by
  intro want
  induction want using Nat.strongRecOn with
  | _ want ih =>
    intro buf len out n chunks fd hwant hinv hpeek
    obtain ⟨-, hroom⟩ := hinv.grown
    obtain ⟨r, hr, hturn⟩ := readLoop_turn (fdCallbacks K false) want buf len out (min n want) chunks fd
    rw [hr, failsFrom_iff hpeek]
    cases hturn with
    | overflow hover => exact iff_of_false nofun fun h => absurd h.2.1 (Int.not_le.mpr hover)
    | nothing _ hest => exact iff_of_false finish_ne_err fun h => by omega
    | oob _ _ hoob => omega
    | fails hmax hest hread =>
      exact iff_of_true rfl ⟨by omega, hmax, .inl (error_of_read hread).1⟩
    | @last c fd' eof _ _ hread hends =>
      obtain ⟨hlen, hno⟩ := length_of_read hpeek hread
      obtain ⟨-, heof, hagain, -⟩ := data_of_read hread
      refine iff_of_false finish_ne_err ?_
      rintro ⟨-, -, herr | ⟨hpos, hlt, -⟩⟩
      · exact hno herr
      · rw [heof, hagain] at hends
        obtain hends | hends | hends | hends := hends
        · cases hends
        · omega
        · cases hends
        · omega
    | @unknown c fd' fd'' hmax hest hon hnone =>
      obtain ⟨hlen, -⟩ := length_of_read hpeek hon.read
      obtain ⟨hnext, -⟩ := data_of_read hon.read
      have hbrings := hon.brings
      have hwanted := hon.wanted
      rw [peeksz_fd, hnext] at hnone
      have hpeek' : (K (fd.turn + 1)).peek = none := (Prod.mk.inj hnone).1
      exact iff_of_true rfl ⟨by omega, hmax, .inr ⟨by omega, by omega, .peek hpeek'⟩⟩
    | @noMore c fd' fd'' hmax hest hon hzero =>
      obtain ⟨hnext, -⟩ := data_of_read hon.read
      obtain ⟨-, hno⟩ := length_of_read hpeek hon.read
      rw [peeksz_fd, hnext] at hzero
      have hpeek' : (K (fd.turn + 1)).peek = some 0 := (Prod.mk.inj hzero).1
      refine iff_of_false finish_ne_err ?_
      rintro ⟨-, -, herr | ⟨-, -, hrest⟩⟩
      · exact hno herr
      · have hpos := ((failsFrom_iff hpeek').mp hrest).1
        omega
    | @again c fd' fd'' n' hmax hest hon hsome hne =>
      obtain ⟨hlen, hno⟩ := length_of_read hpeek hon.read
      obtain ⟨hnext, -⟩ := data_of_read hon.read
      obtain ⟨hstarts', hfill', -, hroom', -⟩ := hinv.delivered c.2
      have hbudget := hinv.budget
      have hbrings := hon.brings
      have hwanted := hon.wanted
      have hamount : c.1.data.length = (K fd.turn).amount := by omega
      rw [peeksz_fd, hnext] at hsome
      obtain ⟨hpeek', rfl⟩ := Prod.mk.inj hsome
      rw [← hnext] at hpeek'
      have hrest := ih (want - c.1.data.length) (by omega) (by omega)
        ⟨hstarts', hfill', hroom', by omega, Nat.min_le_right _ _⟩ hpeek'
      rw [hrest, hnext, or_iff_right hno, ← hamount]
      exact ⟨fun h => ⟨by omega, hmax, by omega, by omega, h⟩, fun h => h.2.2.2.2⟩

/-! ### What a byte stream takes -/

theorem fdRead_taken (K : Kernel) (fd : Fd) (len : ℕ) : fd.taken <+: (fdRead K fd len).2.taken := by
  unfold fdRead
  split
  · exact List.prefix_append _ _
  · exact List.prefix_refl _
  · exact List.prefix_refl _

theorem read_fd_env (fd : Fd) (len : ℕ) :
    ((fdCallbacks K datagram).read fd len).2 = (fdRead K fd len).2 := by
  rw [read_fd]
  unfold fdRead
  cases (K fd.turn).read <;> rfl

/-- What has been taken is not given back. -/
theorem readLoop_taken (len : ℕ) : fd.taken <+:
    (readLoop (fdCallbacks K datagram) want buf len out est chunks fd).env.taken := by
  refine readLoop_env (P := fun fd' : Fd => fd.taken <+: fd'.taken) ?_ ?_ (List.prefix_refl _)
  · intro fd' h
    rw [peeksz_fd]
    exact h
  · intro fd' len h
    rw [read_fd_env]
    exact h.trans (fdRead_taken K fd' len)

/-- A turn that calls `read` takes what it has found. -/
theorem turn_taken (hest : 0 < est) (hmax : ((len + est : ℕ) : ℤ) ≤ ssizeMax)
    (hinv : Inv total want buf len out est chunks) : (fdRead K fd est).2.taken <+:
      (readLoop (fdCallbacks K datagram) want buf len out est chunks fd).env.taken := by
  obtain ⟨-, hroom⟩ := hinv.grown
  obtain ⟨r, hr, hturn⟩ := readLoop_turn (fdCallbacks K datagram) want buf len out est chunks fd
  rw [hr]
  have hkept {o : Option { c : Chunk // c.stored.length ≤ est }} {fd' : Fd}
      (hread : (fdCallbacks K datagram).read fd est = (o, fd')) : fd' = (fdRead K fd est).2 := by
    have hsame : ((fdCallbacks K datagram).read fd est).2 = (fdRead K fd est).2 := read_fd_env fd est
    rw [← hsame, hread]
  cases hturn with
  | overflow hover => exact absurd hmax (Int.not_le.mpr hover)
  | nothing _ hzero => exact absurd hzero (Nat.ne_of_gt hest)
  | oob _ _ hoob => omega
  | fails _ _ hread => exact hkept hread ▸ List.prefix_refl _
  | last _ _ _ hread => exact hkept hread ▸ List.prefix_refl _
  | unknown _ _ hon hpeek =>
    rw [peeksz_fd] at hpeek
    exact (Prod.mk.inj hpeek).2 ▸ hkept hon.read ▸ List.prefix_refl _
  | noMore _ _ hon hpeek =>
    rw [peeksz_fd] at hpeek
    exact (Prod.mk.inj hpeek).2 ▸ hkept hon.read ▸ List.prefix_refl _
  | again _ _ hon hpeek =>
    rw [peeksz_fd] at hpeek
    rw [← hkept hon.read, (Prod.mk.inj hpeek).2]
    exact readLoop_taken _

/-- A turn that finds an error has taken nothing. -/
theorem turn_error (hread : (K fd.turn).read = .error) :
    (readLoop (fdCallbacks K datagram) want buf len out est chunks fd).env.taken = fd.taken := by
  obtain ⟨r, hr, hturn⟩ := readLoop_turn (fdCallbacks K datagram) want buf len out est chunks fd
  rw [hr]
  have hno {c : { c : Chunk // c.stored.length ≤ est }} {fd' : Fd}
      (hsome : (fdCallbacks K datagram).read fd est = (some c, fd')) : False := by
    rw [read_fd, hread] at hsome
    cases hsome
  cases hturn with
  | overflow => rfl
  | nothing => rfl
  | oob => rfl
  | fails _ _ hnone => exact (error_of_read hnone).2
  | last _ _ _ hsome => exact (hno hsome).elim
  | unknown _ _ hon => exact (hno hon.read).elim
  | noMore _ _ hon => exact (hno hon.read).elim
  | again _ _ hon => exact (hno hon.read).elim

/-- A datagram is all that is read. -/
theorem turn_datagram
    (h : (readLoop (fdCallbacks K true) want buf len out est chunks fd).result = .err) :
    (K fd.turn).read = .error := by
  obtain ⟨r, hr, hturn⟩ := readLoop_turn (fdCallbacks K true) want buf len out est chunks fd
  rw [hr] at h
  have hlast {c : { c : Chunk // c.stored.length ≤ est }} {fd' : Fd}
      (hon : GoesOn (fdCallbacks K true) want est fd c fd') : False := by
    have hagain := (data_of_read hon.read).2.2.1
    rw [hon.again] at hagain
    cases hagain
  cases hturn with
  | overflow => cases h
  | nothing => exact absurd h finish_ne_err
  | oob => cases h
  | fails _ _ hnone => exact (error_of_read hnone).1
  | last => exact absurd h finish_ne_err
  | unknown _ _ hon => exact (hlast hon).elim
  | noMore _ _ hon => exact (hlast hon).elim
  | again _ _ hon => exact (hlast hon).elim

/-! ### A whole read -/

/-- The first estimate, of a stream that is open. -/
theorem strmRead_open (K : Kernel) (datagram : Bool) (want : ℕ) :
    strmRead (fdCallbacks K datagram) false false want Fd.start =
      match (K 0).peek with
      | none => ⟨.err, [], Fd.start⟩
      | some n => readLoop (fdCallbacks K datagram) want [] 1 0 (min n want) [] Fd.start := by
  unfold strmRead
  rw [if_neg (by exact nofun), if_neg (by exact nofun), peeksz_fd]
  cases hpeek : (K 0).peek with
  | none =>
    have hstart : (K Fd.start.turn).peek = none := hpeek
    rw [hstart]
  | some n =>
    have hstart : (K Fd.start.turn).peek = some n := hpeek
    rw [hstart]

/-- A failure behind the first turn is one behind a turn that has brought something. -/
theorem laterFails_iff (hpeek : (K 0).peek = some n) : LaterFails K want ↔ 0 < (K 0).amount ∧
    (K 0).amount < want ∧ FailsFrom K 1 (want - (K 0).amount) (1 + min n want) := by
  constructor
  · rintro ⟨m, hm, h⟩
    obtain rfl := Option.some.inj (hpeek.symm.trans hm)
    exact h
  · exact fun h => ⟨n, hpeek, h⟩

/-- A read of a byte stream that fails has taken nothing, unless it fails behind its first turn. -/
theorem bytes_iff (hwant : 0 < want) (hmax : (want : ℤ) < ssizeMax) :
    ((strmRead (fdCallbacks K false) false false want Fd.start).result = .err →
      (strmRead (fdCallbacks K false) false false want Fd.start).env.taken = []) ↔
      ¬ LaterFails K want := by
  rw [strmRead_open]
  cases hpeek : (K 0).peek with
  | none =>
    refine iff_of_true (fun _ => rfl) ?_
    rintro ⟨n, hn, -⟩
    rw [hpeek] at hn
    cases hn
  | some n =>
    have hinv := inv_first want n
    have hcap : ((1 + min n want : ℕ) : ℤ) ≤ ssizeMax := by omega
    have herr : (readLoop (fdCallbacks K false) want [] 1 0 (min n want) [] Fd.start).result = .err ↔
        FailsFrom K 0 want 1 := readLoop_err_iff hwant hinv hpeek
    dsimp only
    rw [herr, failsFrom_iff hpeek, laterFails_iff hpeek]
    constructor
    · rintro h ⟨hpos, hlt, hrest⟩
      -- the bytes of the first turn are among those that have been taken
      obtain ⟨hn, b, hread, hb⟩ := amount_pos hpos hpeek
      have hnil := h ⟨hn, hcap, .inr ⟨hpos, hlt, hrest⟩⟩
      have htaken : (fdRead K Fd.start (min n want)).2.taken <+:
          (readLoop (fdCallbacks K false) want [] 1 0 (min n want) [] Fd.start).env.taken :=
        turn_taken (by omega) hcap hinv
      have hfirst : (fdRead K Fd.start (min n want)).2.taken = b.take (min n want) := by
        unfold fdRead
        rw [show (K Fd.start.turn).read = .bytes b from hread]
        rfl
      rw [hnil, List.prefix_nil, hfirst, List.take_eq_nil_iff] at htaken
      rcases htaken with hzero | hnone
      · omega
      · exact hb hnone
    · rintro h ⟨-, -, hread | hlater⟩
      · exact turn_error hread
      · exact absurd hlater h

/-- A read of a datagram that fails has taken nothing. -/
theorem datagram_taken (h : (strmRead (fdCallbacks K true) false false want Fd.start).result = .err) :
    (strmRead (fdCallbacks K true) false false want Fd.start).env.taken = [] := by
  rw [strmRead_open] at h ⊢
  cases hpeek : (K 0).peek with
  | none => rfl
  | some n =>
    rw [hpeek] at h
    exact turn_error (turn_datagram h)

/-! ### Numbers -/

/-- Behind a number, the loop ends. -/
theorem u64_read_last {little : Bool} {fd' : Fd} {c : { c : Chunk // c.stored.length ≤ len }}
    (h : (u64Callbacks K little).read fd len = (some c, fd')) :
    c.1.eof = false ∧ (c.1.data.length = 0 ∨ c.1.again = false) := by
  unfold u64Callbacks at h
  dsimp only at h
  split at h
  · cases h
  split_ifs at h
  · cases h
    exact ⟨rfl, .inl rfl⟩
  · cases h
  · cases h
  · cases h
    exact ⟨rfl, .inr rfl⟩

/-- The callback fails with an error, or if it truncates. -/
theorem u64_read_none (K : Kernel) (little : Bool) (want : ℕ) :
    ((u64Callbacks K little).read Fd.start (min u64Size want)).1 = none ↔
      (K 0).read = .error ∨ Truncates K little want := by
  unfold u64Callbacks fdRead Truncates
  dsimp only
  have hstart : (K Fd.start.turn).read = (K 0).read := rfl
  rw [hstart]
  cases hread : (K 0).read with
  | error => simp
  | again => simp
  | bytes b =>
    have hnil : b.take 8 = [] ↔ b = [] := by simp
    have hlen : (b.take 8).length = min 8 b.length := List.length_take
    dsimp only
    split_ifs with hb hshort hfits
    · refine iff_of_false nofun ?_
      rintro (herr | ⟨b', hb', hne, -⟩)
      · cases herr
      · cases hb'
        exact hne (hnil.mp hb)
    · exact iff_of_true rfl (.inr ⟨b, rfl, hnil.not.mp hb, .inl (by omega)⟩)
    · exact iff_of_true rfl (.inr ⟨b, rfl, hnil.not.mp hb, .inr hfits⟩)
    · refine iff_of_false nofun ?_
      rintro (herr | ⟨b', hb', -, hless | hlong⟩)
      · cases herr
      · cases hb'
        omega
      · cases hb'
        exact hfits hlong

/-- What the callback takes is what it finds, also where it fails. -/
theorem u64_read_taken (K : Kernel) (little : Bool) (len : ℕ) :
    ((u64Callbacks K little).read Fd.start len).2 = (fdRead K Fd.start 8).2 := by
  unfold u64Callbacks
  dsimp only
  split
  · rename_i h
    rw [h]
  · rename_i h
    rw [h]
    split_ifs <;> rfl

/-- A number is read in one turn: the read fails if the callback does. -/
theorem strmRead_u64 (K : Kernel) (little : Bool) (hwant : 0 < want) :
    ((strmRead (u64Callbacks K little) false false want Fd.start).result = .err ↔
        (K 0).read = .error ∨ Truncates K little want) ∧
      (strmRead (u64Callbacks K little) false false want Fd.start).env = (fdRead K Fd.start 8).2 := by
  have hpeek : strmPeeksz (u64Callbacks K little) Fd.start = (some u64Size, Fd.start) := rfl
  have hsize : u64Size = 21 := rfl
  have hcap : ¬ ((1 + min u64Size want : ℕ) : ℤ) > ssizeMax := by
    have hmax : (22 : ℤ) ≤ ssizeMax := by decide
    omega
  rw [← u64_read_none, ← u64_read_taken K little (min u64Size want)]
  unfold strmRead
  rw [if_neg (by exact nofun), if_neg (by exact nofun), hpeek]
  dsimp only
  rw [readLoop]
  dsimp only
  rw [if_neg hcap, if_neg (by omega), Block.length_realloc, if_neg (by omega)]
  split
  · rename_i hnone
    rw [hnone]
    exact ⟨iff_of_true rfl rfl, rfl⟩
  · rename_i hsome
    rw [hsome, (u64_read_last hsome).1, if_neg (by exact nofun), dif_pos (u64_read_last hsome).2]
    exact ⟨iff_of_false finish_ne_err nofun, rfl⟩

/-- A read of a number that fails has taken nothing, unless the number is lost. -/
theorem u64_iff {little : Bool} (hwant : 0 < want) :
    ((strmRead (u64Callbacks K little) false false want Fd.start).result = .err →
      (strmRead (u64Callbacks K little) false false want Fd.start).env.taken = []) ↔
      ¬ Truncates K little want := by
  obtain ⟨herr, henv⟩ := strmRead_u64 K little hwant
  rw [herr, henv]
  constructor
  · rintro h ⟨b, hread, hb, hlost⟩
    have hnil := h (.inr ⟨b, hread, hb, hlost⟩)
    unfold fdRead at hnil
    rw [show (K Fd.start.turn).read = .bytes b from hread] at hnil
    simp [Fd.start] at hnil
    exact hb hnil
  · rintro h (hread | hlost)
    · unfold fdRead
      rw [show (K Fd.start.turn).read = .error from hread]
      rfl
    · exact absurd hlost h

/-- **What a read that fails has taken.** For every kind of stream over a descriptor and whatever its
system calls find, a read that ends with `B6B_ERR` has taken nothing, unless a later turn of a byte
stream fails, or the numeral of a number does not fit. -/
theorem read_takes_nothing_iff (K : Kernel) (kind : Kind) (eof closed : Bool) (want : ℕ)
    (hwant : 0 < want) (hmax : (want : ℤ) < ssizeMax) :
    ((strmRead (callbacks K kind) eof closed want Fd.start).result = .err →
      (strmRead (callbacks K kind) eof closed want Fd.start).env.taken = []) ↔
      eof = true ∨ closed = true ∨ ¬ Loses K want kind := by
  cases eof with
  | true => exact iff_of_true nofun (.inl rfl)
  | false =>
    cases closed with
    | true => exact iff_of_true (fun _ => rfl) (.inr (.inl rfl))
    | false =>
      rw [or_iff_right (by exact nofun), or_iff_right (by exact nofun)]
      cases kind with
      | u64 little => exact u64_iff hwant
      | bytes datagram =>
        cases datagram with
        | true => exact iff_of_true datagram_taken fun h => nomatch h.1
        | false =>
          have hloses : Loses K want (.bytes false) ↔ LaterFails K want := and_iff_right rfl
          rw [hloses]
          exact bytes_iff hwant hmax

/-- A semaphore with a token, of which one byte is read. -/
def tokenKernel : Kernel := fun _ => ⟨none, .bytes [1, 0, 0, 0, 0, 0, 0, 0]⟩

/-- With two bytes wanted, the numeral of the token fits. -/
theorem read_token_two :
    (0 < 2 ∧ ((2 : ℕ) : ℤ) < ssizeMax) ∧
    (((strmRead (callbacks tokenKernel (.u64 true)) false false 2 Fd.start).result = .err →
      (strmRead (callbacks tokenKernel (.u64 true)) false false 2 Fd.start).env.taken = []) ↔
      false = true ∨ false = true ∨ ¬ Loses tokenKernel 2 (.u64 true)) :=
  ⟨by decide, read_takes_nothing_iff tokenKernel (.u64 true) false false 2 (by decide) (by decide)⟩

/-- With one byte wanted, the token is taken, and the read fails. -/
theorem read_token_one :
    ¬ ∀ (K : Kernel) (kind : Kind) (eof closed : Bool) (want : ℕ), 0 < want → (want : ℤ) < ssizeMax →
      (strmRead (callbacks K kind) eof closed want Fd.start).result = .err →
      (strmRead (callbacks K kind) eof closed want Fd.start).env.taken = [] := by
  intro h
  have hnil := h tokenKernel (.u64 true) false false 1 (by decide) (by decide) (by decide +kernel)
  exact absurd hnil (by decide +kernel)

end Taking

end B6b
