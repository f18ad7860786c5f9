/-
# Packed structures

`ffi.pack` writes numbers into a buffer of at most `B6B_FFI_MAX_STRUCT_SZ` bytes, each where a
C structure would have it or, behind a dot, right behind the last one; `ffi.unpack` reads them.
Both walk the format and compute the padding on their own. They agree on every layout that fits
(`pack_unpack`): the format has to have a code, and an integer that is packed as a pointer has
to be as wide as one. The integers are those that `b6b_as_int` finds in the objects; a numeral
of more than 53 binary digits is rounded there, before it is packed.

Key definitions: `Abi`, `ffiProcPack`, `ffiProcUnpack`, `Fits`, `Reads`, `offsets`.
-/
import B6b.Lib.Word
import B6b.Dict
import B6b.Numerals

namespace B6b

namespace Ffi

open Numerals

variable {F : Type}

/-- The types of `b6b_ffi_types`. -/
inductive FfiType
  | sint
  | uint
  | slong
  | ulong
  | pointer
  | schar
  | uchar
  | sshort
  | ushort
  | sint64
  | uint64
  | float
  | double
deriving DecidableEq

/-- A platform: the size and the alignment that libffi has for each type, the byte order, and the
C types `char`, `float` and `double`. -/
structure Abi (F : Type) where
  size : FfiType → ℕ
  align : FfiType → ℕ
  little : Bool
  charSigned : Bool
  ofFloat : FfiType → F → Bytes
  toFloat : FfiType → Bytes → F
  size_pos : ∀ t, 0 < size t
  align_pos : ∀ t, 0 < align t
  align_dvd : ∀ t, align t ∣ size t

/-- `B6B_FFI_MAX_STRUCT_SZ` -/
def maxStructSz : ℕ := 4096

/-- `b6b_ffi_types` -/
def ffiTypes : List (Char × FfiType) :=
  [('i', .sint), ('I', .uint), ('l', .slong), ('L', .ulong), ('p', .pointer), ('b', .schar), ('B', .uchar),
    ('h', .sshort), ('H', .ushort), ('q', .sint64), ('Q', .uint64), ('f', .float), ('d', .double)]

/-- `b6b_ffi_type` -/
def ffiType (name : UInt8) : Option FfiType :=
  (ffiTypes.find? fun p => UInt8.ofNat p.1.toNat = name).map (·.2)

/-- The type has a sign. The pointer has the one of `intptr_t`. -/
def Abi.isSigned (A : Abi F) : FfiType → Bool
  | .sint => true
  | .slong => true
  | .pointer => true
  | .schar => A.charSigned
  | .sshort => true
  | .sint64 => true
  | _ => false

/-- The integer is between the limits of the type. -/
def Abi.Within (A : Abi F) (t : FfiType) (i : ℤ) : Prop :=
  if A.isSigned t then -256 ^ A.size t ≤ i * 2 ∧ i * 2 < 256 ^ A.size t else 0 ≤ i ∧ i < 256 ^ A.size t

instance (A : Abi F) (t : FfiType) (i : ℤ) : Decidable (A.Within t i) := by
  unfold Abi.Within
  infer_instance

/-! ### The procedures -/

/-- `b6b_ffi_encode`, with the bytes of the value. An integer that becomes a pointer is cut. -/
def ffiEncode (N : Num F) (A : Abi F) (o : Addr) (t : FfiType) : Op (Heap F) Bytes :=
  if t = .float ∨ t = .double then do
    let f ← asFloat N o
    pure (A.ofFloat t f)
  else do
    let i ← asInt N o
    if t = .pointer ∨ A.Within t i then pure (Word.ofInt A.little (A.size t) i) else Op.fail

/-- `b6b_ffi_decode` of the bytes `val`. The integer becomes a `b6b_int`. -/
def ffiDecode (A : Abi F) (val : Bytes) (t : FfiType) : Op (Heap F) Addr :=
  if val.length < A.size t then Op.fail
  else
    let val := val.take (A.size t)
    if t = .float ∨ t = .double then alloc (.ofFloat (A.toFloat t val))
    else
      let i := if A.isSigned t then Word.signed A.little val else Word.unsigned A.little val
      alloc (.ofInt (i.bmod (2 ^ 64)))

/-- The bytes up to where a field of the type can start, `len` bytes behind the first one. -/
def Abi.pad (A : Abi F) (packed : Bool) (t : FfiType) (len : ℕ) : ℕ :=
  if packed ∨ len % A.align t = 0 then 0 else A.align t - len % A.align t

/-- The leading dot of a format, and the codes behind it: there has to be one. -/
def formatCodes (fmt : Bytes) : Option (Bool × Bytes) :=
  match fmt with
  | [] => none
  | c :: cs => if c = 0x2e then (if cs = [] then none else some (true, cs)) else some (false, c :: cs)

/-- `b6b_list_vparse` for `os*`, where the first argument is left as it is: the format and the
values, of which there has to be one. -/
def packArgs (N : Num F) (args : Addr) : Op (Heap F) (Bytes × List Addr) := do
  match ← items args with
  | _ :: fmt :: vals => do
    let s ← asStr N fmt.o
    if vals = [] then Op.fail else pure (s, vals.map (·.o))
  | _ => Op.fail

/-- The loop of `b6b_ffi_proc_pack`, with the buffer so far. -/
def packLoop (N : Num F) (A : Abi F) (packed : Bool) : Bytes → List Addr → Bytes → Op (Heap F) Bytes
  | [], _, buf => pure buf
  | _ :: _, [], _ => Op.fail
  | c :: cs, v :: vs, buf =>
    match ffiType c with
    | none => Op.fail
    | some t => do
      let val ← ffiEncode N A v t
      let pad := A.pad packed t buf.length
      if pad ≠ 0 ∧ maxStructSz < buf.length + pad then Op.fail
      else if maxStructSz < buf.length + pad + A.size t then Op.fail
      else packLoop N A packed cs vs (buf ++ List.replicate pad 0 ++ val)

/-- `b6b_ffi_proc_pack`. The procedure of the buffer is `bufProc`, that is `b6b_ffi_buf_proc`. -/
def ffiProcPack (N : Num F) (A : Abi F) (bufProc : Proc) (args : Addr) : Op (Heap F) Reply := do
  match ← Op.attempt (packArgs N args) with
  | none =>
    let m ← badCall N args "os*"
    pure (.err, m)
  | some (fmt, vals) =>
    match formatCodes fmt with
    | none => pure (.err, none)
    | some (packed, cs) => orErr do
      let buf ← packLoop N A packed cs vals []
      let b ← alloc ((Obj.ofStr buf).withProc bufProc)
      returnObj b

/-- The loop of `b6b_ffi_proc_unpack`: it adds the numbers to the list `l`. -/
def unpackLoop (A : Abi F) (packed : Bool) (s : Bytes) (l : Addr) : Bytes → ℕ → Op (Heap F) Unit
  | [], _ => pure ()
  | c :: cs, off =>
    if s.length ≤ off then Op.fail
    else
      match ffiType c with
      | none => Op.fail
      | some t =>
        let pad := A.pad packed t off
        if pad ≠ 0 ∧ s.length - off ≤ pad then Op.fail
        else do
          let dec ← ffiDecode A (s.drop (off + pad)) t
          listAdd l dec
          unpackLoop A packed s l cs (off + pad + A.size t)

/-- `b6b_ffi_proc_unpack` -/
def ffiProcUnpack (N : Num F) (A : Abi F) (args : Addr) : Op (Heap F) Reply :=
  getArgs N args "oss" fun
    | [_, fmt, o] => do
      let fmt ← asStr N fmt
      let s ← asStr N o
      match formatCodes fmt with
      | none => pure (.err, none)
      | some (packed, cs) => orErr do
        let l ← listBuild []
        unpackLoop A packed s l cs 0
        returnObj l
    | _ => Op.crash

/-! ### Layouts -/

/-- The integer can be packed with the type, and is a `b6b_int`. -/
structure Fits (A : Abi F) (t : FfiType) (i : ℤ) : Prop where
  kind : t ≠ .float ∧ t ≠ .double
  within : A.Within t i
  ge : -2 ^ 63 ≤ i
  lt : i < 2 ^ 63

/-- `b6b_ffi_encode` accepts the integer, and it is a `b6b_int`. -/
structure Accepts (A : Abi F) (t : FfiType) (i : ℤ) : Prop where
  kind : t ≠ .float ∧ t ≠ .double
  within : t = .pointer ∨ A.Within t i
  ge : -2 ^ 63 ≤ i
  lt : i < 2 ^ 63

/-- Where pointers have 64 bits, what is accepted fits. -/
theorem fits_iff_accepts (A : Abi F) (hptr : A.size .pointer = 8) (t : FfiType) (i : ℤ) :
    Fits A t i ↔ Accepts A t i := by
  refine ⟨fun h => ⟨h.kind, .inr h.within, h.ge, h.lt⟩, fun h => ⟨h.kind, ?_, h.ge, h.lt⟩⟩
  rcases h.within with rfl | hwithin
  · have hge := h.ge
    have hlt := h.lt
    unfold Abi.Within
    rw [hptr]
    exact ⟨by omega, by omega⟩
  · exact hwithin

/-- Where the fields of a structure start, from the offset on. -/
def offsets (A : Abi F) (packed : Bool) : ℕ → List FfiType → List ℕ
  | _, [] => []
  | off, t :: ts =>
    (off + A.pad packed t off) :: offsets A packed (off + A.pad packed t off + A.size t) ts

/-- Where it ends. -/
def layoutEnd (A : Abi F) (packed : Bool) : ℕ → List FfiType → ℕ
  | off, [] => off
  | off, t :: ts => layoutEnd A packed (off + A.pad packed t off + A.size t) ts

/-- The field of the integer `i` is in the buffer, where its type can start. -/
structure Placed (A : Abi F) (packed : Bool) (buf : Bytes) (off : ℕ) (t : FfiType) (i : ℤ) : Prop where
  inside : off + A.size t ≤ buf.length
  aligned : packed = false → A.align t ∣ off
  bytes : (buf.drop off).take (A.size t) = Word.ofInt A.little (A.size t) i

/-- Integers with their types. -/
abbrev Fields := List (FfiType × ℤ)

/-- The buffer with more fields. -/
def written (A : Abi F) (packed : Bool) : Bytes → Fields → Bytes
  | buf, [] => buf
  | buf, (t, i) :: fs =>
    written A packed (buf ++ List.replicate (A.pad packed t buf.length) 0 ++ Word.ofInt A.little (A.size t) i) fs

section Layout

variable {A : Abi F} {packed : Bool} {t : FfiType} {i : ℤ}

/-- Behind the padding is a multiple of the alignment. -/
theorem dvd_pad (hpacked : packed = false) (len : ℕ) : A.align t ∣ len + A.pad packed t len := by
  unfold Abi.pad
  rw [hpacked]
  by_cases hmod : len % A.align t = 0
  · rw [if_pos (.inr hmod)]
    exact Nat.dvd_of_mod_eq_zero hmod
  · rw [if_neg (by simpa using hmod)]
    have hlt : len % A.align t < A.align t := Nat.mod_lt _ (A.align_pos t)
    have hdiv : A.align t * (len / A.align t) + len % A.align t = len := Nat.div_add_mod _ _
    refine ⟨len / A.align t + 1, ?_⟩
    rw [Nat.mul_add, Nat.mul_one]
    omega

theorem le_layoutEnd : ∀ (ts : List FfiType) (off : ℕ), off ≤ layoutEnd A packed off ts
  | [], off => Nat.le_refl off
  | t :: ts, off => by
    have hrest := le_layoutEnd ts (off + A.pad packed t off + A.size t)
    rw [layoutEnd]
    omega

/-- More fields come behind the buffer. -/
theorem prefix_written : ∀ (fs : Fields) (buf : Bytes), buf <+: written A packed buf fs
  | [], _ => List.prefix_refl _
  | (t, i) :: fs, buf => by
    have hbuf : buf <+: buf ++ List.replicate (A.pad packed t buf.length) 0 ++
        Word.ofInt A.little (A.size t) i := by
      rw [List.append_assoc]
      exact List.prefix_append _ _
    exact hbuf.trans (prefix_written fs _)

theorem length_written : ∀ (fs : Fields) (buf : Bytes),
    (written A packed buf fs).length = layoutEnd A packed buf.length (fs.map (·.1))
  | [], _ => rfl
  | (t, i) :: fs, buf => by
    rw [written, length_written fs, List.map_cons, layoutEnd]
    simp only [List.length_append, List.length_replicate, Word.length_ofInt]

/-- The bytes of the first field, and what is behind it. -/
theorem drop_written (t : FfiType) (i : ℤ) (fs : Fields) (buf : Bytes) :
    ∃ rest, (written A packed buf ((t, i) :: fs)).drop (buf.length + A.pad packed t buf.length) =
      Word.ofInt A.little (A.size t) i ++ rest := by
  have hprefix : buf ++ List.replicate (A.pad packed t buf.length) 0 ++ Word.ofInt A.little (A.size t) i <+:
      written A packed buf ((t, i) :: fs) := prefix_written fs _
  obtain ⟨rest, hrest⟩ := hprefix
  refine ⟨rest, ?_⟩
  rw [← hrest, List.append_assoc, List.drop_left']
  rw [List.length_append, List.length_replicate]

/-- Every field is in the buffer. -/
theorem placed_written : ∀ (fs : Fields) (buf : Bytes),
    List.Forall₂ (fun (p : ℕ × FfiType) i => Placed A packed (written A packed buf fs) p.1 p.2 i)
      ((offsets A packed buf.length (fs.map (·.1))).zip (fs.map (·.1))) (fs.map (·.2))
  | [], _ => .nil
  | (t, i) :: fs, buf => by
    have hrest := placed_written fs
      (buf ++ List.replicate (A.pad packed t buf.length) 0 ++ Word.ofInt A.little (A.size t) i)
    simp only [List.length_append, List.length_replicate, Word.length_ofInt] at hrest
    refine .cons ⟨?_, fun hpacked => dvd_pad hpacked _, ?_⟩ hrest
    · rw [length_written, List.map_cons, layoutEnd]
      exact le_layoutEnd _ _
    · obtain ⟨rest, hdrop⟩ := drop_written t i fs buf
      rw [hdrop, List.take_left' Word.length_ofInt]

end Layout

/-! ### The loops -/

/-- The codes of a format, and integers that fit their types. -/
def Codes (A : Abi F) (cs : Bytes) (fs : Fields) : Prop :=
  List.Forall₂ (fun c f => ffiType c = some f.1 ∧ Fits A f.1 f.2) cs fs

/-- `b6b_as_int` converts the objects to these integers, one after the other. -/
def Reads (N : Num F) : List Addr → List ℤ → Heap F → Heap F → Prop
  | [], [], h, h' => h' = h
  | v :: vs, i :: is, h, h' => ∃ h₁, asInt N v h = .ok i h₁ ∧ Reads N vs is h₁ h'
  | _, _, _, _ => False

/-- Objects that can be converted to the integers. -/
def Ints (N : Num F) (h : Heap F) (vs : List Addr) (is : List ℤ) : Prop := ∃ h', Reads N vs is h h'

section Loops

variable {N : Num F} {A : Abi F} {packed : Bool} {t : FfiType} {i : ℤ} {h : Heap F}

theorem ffiEncode_ok {v : Addr} {h' : Heap F} (hread : asInt N v h = .ok i h') (hfit : Fits A t i) :
    ffiEncode N A v t h = .ok (Word.ofInt A.little (A.size t) i) h' := by
  unfold ffiEncode
  rw [if_neg (by simpa using hfit.kind), Op.bind_ok hread, if_pos (.inr hfit.within)]
  rfl

/-- What fits a type is read back. -/
theorem decode_ofInt (hfit : Fits A t i) : (if A.isSigned t then
    Word.signed A.little (Word.ofInt A.little (A.size t) i) else
    Word.unsigned A.little (Word.ofInt A.little (A.size t) i)) = i := by
  have hwithin := hfit.within
  unfold Abi.Within at hwithin
  split_ifs with hsigned
  · rw [if_pos hsigned] at hwithin
    exact Word.signed_ofInt hwithin.1 hwithin.2
  · rw [if_neg hsigned] at hwithin
    exact Word.unsigned_ofInt hwithin.1 hwithin.2

theorem ffiDecode_ok (hfit : Fits A t i) (rest : Bytes) :
    ffiDecode A (Word.ofInt A.little (A.size t) i ++ rest) t h = .ok h.next (h.push (.ofInt i)) := by
  have hlen : ¬ (Word.ofInt A.little (A.size t) i ++ rest).length < A.size t := by
    rw [List.length_append, Word.length_ofInt]
    omega
  have hint : i.bmod (2 ^ 64) = i := by
    have hge := hfit.ge
    have hlt := hfit.lt
    exact Int.bmod_eq_of_le_mul_two (by omega) (by omega)
  unfold ffiDecode
  rw [if_neg hlen]
  dsimp only
  rw [if_neg (by simpa using hfit.kind), List.take_left' Word.length_ofInt, decode_ofInt hfit, hint]
  rfl

/-- A layout that fits is packed. -/
theorem packLoop_ok {cs : Bytes} {fs : Fields} (hcs : Codes A cs fs) :
    ∀ {vs : List Addr} {h h' : Heap F} (buf : Bytes), Reads N vs (fs.map (·.2)) h h' →
      layoutEnd A packed buf.length (fs.map (·.1)) ≤ maxStructSz →
      packLoop N A packed cs vs buf h = .ok (written A packed buf fs) h' := by
  induction hcs with
  | nil =>
    intro vs h h' buf hvs _
    cases vs with
    | nil =>
      obtain rfl : h' = h := hvs
      rfl
    | cons v vs => exact hvs.elim
  | @cons c f cs fs hc _ ih =>
    intro vs h h' buf hvs hend
    cases vs with
    | nil => exact hvs.elim
    | cons v vs =>
      obtain ⟨h₁, hv, hvs⟩ := hvs
      have hle : buf.length + A.pad packed f.1 buf.length + A.size f.1 ≤
          layoutEnd A packed (buf.length + A.pad packed f.1 buf.length + A.size f.1) (fs.map (·.1)) :=
        le_layoutEnd _ _
      rw [List.map_cons, layoutEnd] at hend
      unfold packLoop
      rw [hc.1]
      dsimp only
      rw [Op.bind_ok (ffiEncode_ok hv hc.2), if_neg (by omega), if_neg (by omega)]
      refine ih _ hvs ?_
      simpa only [List.length_append, List.length_replicate, Word.length_ofInt] using hend

/-- What was packed is unpacked. -/
theorem unpackLoop_ok (packed : Bool) {cs : Bytes} {fs : Fields} (hcs : Codes A cs fs) :
    ∀ (buf : Bytes) {l : Addr} {lis : List Litem} {h : Heap F}, l < h.next → (h.obj l).l = some lis →
      ∃ h' new, unpackLoop A packed (written A packed buf fs) l cs buf.length h = .ok () h' ∧
        h.next ≤ h'.next ∧ (∀ a < h.next, a ≠ l → h'.obj a = h.obj a) ∧
        (h'.obj l).l = some (lis ++ new) ∧
        List.Forall₂ (fun li f => h'.obj li.o = .ofInt f.2) new fs := by
  induction hcs with
  | nil =>
    intro buf l lis h _ hl
    exact ⟨h, [], rfl, Nat.le_refl _, fun _ _ _ => rfl, by rw [hl, List.append_nil], .nil⟩
  | @cons c f cs fs hc _ ih =>
    obtain ⟨t, i⟩ := f
    intro buf l lis h hlt hl
    have hlen : buf.length + A.pad packed t buf.length + A.size t ≤
        (written A packed buf ((t, i) :: fs)).length := by
      rw [length_written, List.map_cons, layoutEnd]
      exact le_layoutEnd _ _
    have hpos := A.size_pos t
    obtain ⟨rest, hdrop⟩ := drop_written t i fs buf
    have hne : h.next ≠ l := (Nat.ne_of_lt hlt).symm
    -- the new object, and the list with it
    have hlt₁ : l < (h.push (.ofInt i)).next := Nat.lt_succ_of_lt hlt
    have hl₁ : ((h.push (.ofInt i)).obj l).l = some lis := by
      rw [Heap.push_obj_of_ne _ _ hne.symm, hl]
    obtain ⟨h₂, hadd, hre⟩ := listAdd_ok h.next hlt₁ hl₁
    obtain ⟨n, lis₀, lis₁, -, -, -, hset⟩ :=
      (listAdd_returns (G := Anything) l trivial (h.push (.ofInt i))).ok hadd
    have hold : ∀ a ≠ l, h₂.obj a = (h.push (.ofInt i)).obj a := by
      intro a ha
      rw [hset, Heap.set_obj_of_ne _ _ ha]
      rfl
    have hnext : h₂.next = h.next + 1 := hre.next
    obtain ⟨h', new, hrun, hle, hkept, hlis, hnew⟩ := ih (buf ++
      List.replicate (A.pad packed t buf.length) 0 ++ Word.ofInt A.little (A.size t) i)
      (hre.next ▸ hlt₁) hre.items
    refine ⟨h', ⟨(h.push (.ofInt i)).nextLi, h.next⟩ :: new, ?_,
      Nat.le_trans (hnext ▸ Nat.le_succ _) hle, fun a ha hal => ?_, ?_, ?_⟩
    · unfold unpackLoop
      rw [if_neg (by omega), hc.1]
      dsimp only
      rw [if_neg (by omega), hdrop, Op.bind_ok (ffiDecode_ok hc.2 rest), Op.bind_ok hadd]
      rw [List.length_append, List.length_append, List.length_replicate, Word.length_ofInt] at hrun
      exact hrun
    · rw [hkept a (hnext ▸ Nat.lt_succ_of_lt ha) hal, hold a hal, Heap.push_obj_of_ne _ _ (Nat.ne_of_lt ha)]
    · rw [hlis, List.append_assoc]
      rfl
    · refine .cons ?_ hnew
      change h'.obj h.next = .ofInt i
      rw [hkept h.next (hnext ▸ Nat.lt_succ_self _) hne, hold h.next hne, Heap.push_obj_self]

end Loops

/-! ### Both procedures -/

/-- A call with the arguments `as`. -/
structure CallsWith (h : Heap F) (args : Addr) (as : List Addr) : Prop where
  lt : args < h.next
  items : ∃ p lis, (h.obj args).l = some (p :: lis) ∧ lis.map (·.o) = as

/-- A string object. -/
structure IsText (h : Heap F) (a : Addr) (b : Bytes) : Prop where
  lt : a < h.next
  s : (h.obj a).s = some b

/-- The text of a format, with the dot or without it. -/
def formatText (packed : Bool) (cs : Bytes) : Bytes := if packed then 0x2e :: cs else cs

/-- `ffi.pack` with the codes `cs` and objects that are `Given` for the integers of `fs` succeeds with
a buffer that has all fields, and `ffi.unpack` of this buffer with the same format succeeds with
these integers. -/
def RoundTrip (N : Num F) (A : Abi F) (bufProc : Proc) (Given : Heap F → List Addr → List ℤ → Prop)
    (packed : Bool) (cs : Bytes) (fs : Fields) : Prop :=
  ∀ (h : Heap F) (args f : Addr) (vs : List Addr), CallsWith h args (f :: vs) →
    IsText h f (formatText packed cs) → Given h vs (fs.map (·.2)) →
    ∃ buf b h₁, ffiProcPack N A bufProc args h = .ok (.ok, some b) h₁ ∧ IsText h₁ b buf ∧
      List.Forall₂ (fun (p : ℕ × FfiType) i => Placed A packed buf p.1 p.2 i)
        ((offsets A packed 0 (fs.map (·.1))).zip (fs.map (·.1))) (fs.map (·.2)) ∧
      ∀ (h₂ : Heap F) (args₂ f₂ o : Addr), CallsWith h₂ args₂ [f₂, o] →
        IsText h₂ f₂ (formatText packed cs) → IsText h₂ o buf →
        ∃ l lis h₃, ffiProcUnpack N A args₂ h₂ = .ok (.ok, some l) h₃ ∧ (h₃.obj l).l = some lis ∧
          List.Forall₂ (fun li f => h₃.obj li.o = .ofInt f.2) lis fs

section Both

variable {N : Num F} {A : Abi F} {packed : Bool} {cs : Bytes} {fs : Fields} {h : Heap F} {args : Addr}

theorem callsWith_items {as : List Addr} (hcall : CallsWith h args as) :
    ∃ p lis, items args h = .ok (p :: lis) h ∧ lis.map (·.o) = as := by
  obtain ⟨p, lis, hl, hlis⟩ := hcall.items
  exact ⟨p, lis, items_ok hcall.lt hl, hlis⟩

/-- The dot is no code. -/
theorem formatCodes_ok (hcs : Codes A cs fs) (hne : cs ≠ []) :
    formatCodes (formatText packed cs) = some (packed, cs) := by
  cases packed with
  | true =>
    unfold formatText formatCodes
    simp [hne]
  | false =>
    cases hcs with
    | nil => exact absurd rfl hne
    | @cons c f cs fs hc =>
      have hdot : c ≠ 0x2e := by
        rintro rfl
        exact nomatch hc.1
      unfold formatText formatCodes
      simp [hdot]

theorem pack_ok (bufProc : Proc) (hcs : Codes A cs fs) (hne : cs ≠ [])
    (hend : layoutEnd A packed 0 (fs.map (·.1)) ≤ maxStructSz) {f : Addr} {vs : List Addr} {h' : Heap F}
    (hcall : CallsWith h args (f :: vs)) (hf : IsText h f (formatText packed cs))
    (hvs : Reads N vs (fs.map (·.2)) h h') :
    ffiProcPack N A bufProc args h = .ok (.ok, some h'.next)
      (h'.push ((Obj.ofStr (written A packed [] fs)).withProc bufProc)) := by
  obtain ⟨p, lis, hitems, hlis⟩ := callsWith_items hcall
  obtain ⟨fli, vals, rfl, rfl, rfl⟩ := List.map_eq_cons_iff.mp hlis
  have hvals : vals ≠ [] := by
    rintro rfl
    cases hcs with
    | nil => exact hne rfl
    | cons _ _ => exact hvs.elim
  have hargs : packArgs N args h = .ok (formatText packed cs, vals.map (·.o)) h := by
    unfold packArgs
    rw [Op.bind_ok hitems]
    dsimp only
    rw [Op.bind_ok (asStr_of_text hf.lt hf.s), if_neg hvals]
    rfl
  have hbody : (do
      let buf ← packLoop N A packed cs (vals.map (·.o)) []
      let b ← alloc ((Obj.ofStr buf).withProc bufProc)
      returnObj b : Op (Heap F) Reply) h = .ok (.ok, some h'.next)
        (h'.push ((Obj.ofStr (written A packed [] fs)).withProc bufProc)) := by
    rw [Op.bind_ok (packLoop_ok hcs [] hvs hend)]
    rfl
  unfold ffiProcPack
  rw [Op.bind_ok (Op.attempt_ok hargs)]
  dsimp only
  rw [formatCodes_ok hcs hne]
  exact (Op.bind_ok (Op.attempt_ok hbody) _).trans rfl

/-- An argument that is converted to what it is. -/
theorem convert_str {a : Addr} {b : Bytes} (ha : IsText h a b) :
    convertArg N false 's' a h = .ok () h :=
  (Op.bind_ok (asStr_of_text ha.lt ha.s) _).trans rfl

theorem unpack_ok (hcs : Codes A cs fs) (hne : cs ≠ []) {f o : Addr}
    (hcall : CallsWith h args [f, o]) (hf : IsText h f (formatText packed cs))
    (ho : IsText h o (written A packed [] fs)) :
    ∃ l lis h', ffiProcUnpack N A args h = .ok (.ok, some l) h' ∧ (h'.obj l).l = some lis ∧
      List.Forall₂ (fun li f => h'.obj li.o = .ofInt f.2) lis fs := by
  obtain ⟨p, lis, hitems, hlis⟩ := callsWith_items hcall
  obtain ⟨fli, lis', rfl, rfl, hrest⟩ := List.map_eq_cons_iff.mp hlis
  obtain ⟨oli, lis'', rfl, rfl, hnil⟩ := List.map_eq_cons_iff.mp hrest
  obtain rfl := List.map_eq_nil_iff.mp hnil
  have hargs : listVparse N args "oss" true h = .ok [p.o, fli.o, oli.o] h := by
    unfold listVparse
    rw [Op.bind_ok hitems]
    exact vparseFrom_cons (by decide) rfl (vparseFrom_cons (by decide) (convert_str hf)
      (vparseFrom_cons (by decide) (convert_str ho) rfl))
  have hnew : ((h.push (.ofList [])).obj h.next).l = some [] := by
    rw [Heap.push_obj_self]
    rfl
  obtain ⟨h', new, hrun, -, -, hl, hforall⟩ :=
    unpackLoop_ok packed hcs [] (Nat.lt_succ_self h.next) hnew
  have hbody : (do
      let l ← listBuild []
      unpackLoop A packed (written A packed [] fs) l cs 0
      returnObj l : Op (Heap F) Reply) h = .ok (.ok, some h.next) h' := by
    have hlist : listBuild [] h = .ok h.next (h.push (.ofList [])) := rfl
    rw [Op.bind_ok hlist]
    exact (Op.bind_ok hrun _).trans rfl
  refine ⟨h.next, new, h', ?_, hl, hforall⟩
  unfold ffiProcUnpack getArgs getArgsThen
  rw [Op.bind_ok (Op.attempt_ok hargs)]
  dsimp only
  rw [Op.bind_ok (asStr_of_text hf.lt hf.s), Op.bind_ok (asStr_of_text ho.lt ho.s),
    formatCodes_ok hcs hne]
  exact (Op.bind_ok (Op.attempt_ok hbody) _).trans rfl

end Both

/-- **What is packed is unpacked.** For every format with a code and objects whose integers fit their
types, with a layout that fits in `B6B_FFI_MAX_STRUCT_SZ` bytes: `ffi.pack` succeeds, all fields are
in the buffer, without the dot at multiples of their alignments, and `ffi.unpack` of the buffer with
the same format succeeds with the same integers. -/
theorem pack_unpack (N : Num F) (A : Abi F) (bufProc : Proc) (packed : Bool) (cs : Bytes) (fs : Fields)
    (hne : cs ≠ []) (hcs : Codes A cs fs) (hend : layoutEnd A packed 0 (fs.map (·.1)) ≤ maxStructSz) :
    RoundTrip N A bufProc (Ints N) packed cs fs := by
  rintro h args f vs hcall hf ⟨h', hvs⟩
  have hlt : h'.next < (h'.push ((Obj.ofStr (written A packed [] fs)).withProc bufProc)).next :=
    Nat.lt_succ_self _
  refine ⟨written A packed [] fs, h'.next, _, pack_ok bufProc hcs hne hend hcall hf hvs, ⟨hlt, ?_⟩,
    placed_written fs [], fun h₂ args₂ f₂ o hcall₂ hf₂ ho => unpack_ok hcs hne hcall₂ hf₂ ho⟩
  rw [Heap.push_obj_self]
  rfl

/-- The sizes of the types where `long` and pointers are of 64 bits, or of 32. -/
def natural (wide : Bool) : FfiType → ℕ
  | .schar => 1
  | .uchar => 1
  | .sshort => 2
  | .ushort => 2
  | .sint => 4
  | .uint => 4
  | .float => 4
  | .slong => if wide then 8 else 4
  | .ulong => if wide then 8 else 4
  | .pointer => if wide then 8 else 4
  | _ => 8

/-- A platform with such types, all aligned to their sizes. -/
def abi (wide : Bool) : Abi ℤ where
  size := natural wide
  align := natural wide
  little := true
  charSigned := true
  ofFloat _ _ := []
  toFloat _ _ := 0
  size_pos t := by cases wide <;> cases t <;> decide
  align_pos t := by cases wide <;> cases t <;> decide
  align_dvd _ := dvd_rfl

instance (A : Abi F) (t : FfiType) (i : ℤ) : Decidable (Fits A t i) :=
  decidable_of_iff ((t ≠ .float ∧ t ≠ .double) ∧ A.Within t i ∧ -2 ^ 63 ≤ i ∧ i < 2 ^ 63)
    ⟨fun ⟨hkind, hwithin, hge, hlt⟩ => ⟨hkind, hwithin, hge, hlt⟩,
      fun h => ⟨h.kind, h.within, h.ge, h.lt⟩⟩

/-- A heap with a call of a procedure with the objects `os`. -/
def calling (os : List (Obj ℤ)) : Heap ℤ :=
  (os.foldl Heap.push (Heap.empty.push (.ofStr []))).push
    (.ofList ((List.range (os.length + 1)).map fun a => ⟨a, a⟩))

/-- A byte, and an address that is read from its numeral and is aligned. -/
theorem pack_unpack_two : ∃ buf b h₁, ffiProcPack wholeBinary64 (abi true) .obj 4
      (calling [.ofStr (bytes "bp"), .ofInt (-3), .ofStr (bytes "65536")]) = .ok (.ok, some b) h₁ ∧
    IsText h₁ b buf ∧ List.Forall₂ (fun (p : ℕ × FfiType) i => Placed (abi true) false buf p.1 p.2 i)
      [(0, .schar), (8, .pointer)] [-3, 65536] := by
  have haddr : Fits (abi true) .pointer 65536 :=
    (fits_iff_accepts (abi true) rfl _ _).mpr ⟨by decide, .inl rfl, by decide, by decide⟩
  have hround : RoundTrip wholeBinary64 (abi true) .obj (Ints wholeBinary64) false (bytes "bp")
      [(.schar, -3), (.pointer, 65536)] :=
    pack_unpack wholeBinary64 (abi true) .obj false _ _ (by decide)
      (.cons (by decide) (.cons ⟨by decide, haddr⟩ .nil)) (by decide)
  obtain ⟨buf, b, h₁, hpack, htext, hplaced, -⟩ := hround
    (calling [.ofStr (bytes "bp"), .ofInt (-3), .ofStr (bytes "65536")]) 4 1 [2, 3]
    ⟨by decide, ⟨0, 0⟩, [⟨1, 1⟩, ⟨2, 2⟩, ⟨3, 3⟩], rfl, rfl⟩ ⟨by decide, rfl⟩
    ⟨_, _, rfl, _, rfl, rfl⟩
  exact ⟨buf, b, h₁, hpack, htext, hplaced⟩

/-- The integers of the objects that a procedure has returned in a list, or else its string. -/
def returned (x : Outcome (Heap ℤ) Reply) : Option (Option Bytes × Option (List (Option ℤ))) :=
  match x with
  | .ok (.ok, some a) h =>
    some ((h.obj a).s, (h.obj a).l.map fun lis => lis.map fun li => (h.obj li.o).i)
  | _ => none

/-- Objects with the numerals of the integers. -/
def Literals (N : Num F) (h : Heap F) (vs : List Addr) (is : List ℤ) : Prop :=
  List.Forall₂ (fun v i => Numerals.Unread N h v i) vs is

/-- A format without a code is refused; where pointers have 32 bits, an integer that is packed as a
pointer comes back cut; and `9007199254740993` is packed as `9007199254740992`. -/
theorem pack_lost :
    (¬ ∀ (cs : Bytes) (fs : Fields),
      List.Forall₂ (fun c f => ffiType c = some f.1 ∧ Accepts (abi true) f.1 f.2) cs fs →
      layoutEnd (abi true) false 0 (fs.map (·.1)) ≤ maxStructSz →
      RoundTrip wholeNum (abi true) .obj (Ints wholeNum) false cs fs) ∧
    (¬ ∀ (cs : Bytes) (fs : Fields), cs ≠ [] →
      List.Forall₂ (fun c f => ffiType c = some f.1 ∧ Accepts (abi false) f.1 f.2) cs fs →
      layoutEnd (abi false) false 0 (fs.map (·.1)) ≤ maxStructSz →
      RoundTrip wholeNum (abi false) .obj (Ints wholeNum) false cs fs) ∧
    ¬ ∀ (cs : Bytes) (fs : Fields), cs ≠ [] → Codes (abi true) cs fs →
      layoutEnd (abi true) false 0 (fs.map (·.1)) ≤ maxStructSz →
      RoundTrip wholeBinary64 (abi true) .obj (Literals wholeBinary64) false cs fs := by
  refine ⟨fun hall => ?_, fun hall => ?_, fun hall => ?_⟩
  · obtain ⟨buf, b, h₁, hpack, -⟩ := hall [] [] .nil (by decide) (calling [.ofStr []]) 2 1 []
      ⟨by decide, ⟨0, 0⟩, [⟨1, 1⟩], rfl, rfl⟩ ⟨by decide, rfl⟩ ⟨_, rfl⟩
    have hnone : returned (ffiProcPack wholeNum (abi true) .obj 2 (calling [.ofStr []])) = none := by
      decide +kernel
    rw [hpack] at hnone
    cases hnone
  · obtain ⟨buf, b, h₁, hpack, htext, -, hunpack⟩ := hall (bytes "p") [(.pointer, 2 ^ 32)] (by decide)
      (.cons ⟨by decide, ⟨by decide, .inl rfl, by decide, by decide⟩⟩ .nil) (by decide)
      (calling [.ofStr (bytes "p"), .ofInt (2 ^ 32)]) 3 1 [2]
      ⟨by decide, ⟨0, 0⟩, [⟨1, 1⟩, ⟨2, 2⟩], rfl, rfl⟩ ⟨by decide, rfl⟩ ⟨_, _, rfl, rfl⟩
    have hbuf : returned (ffiProcPack wholeNum (abi false) .obj 3
        (calling [.ofStr (bytes "p"), .ofInt (2 ^ 32)])) = some (some [0, 0, 0, 0], none) := by
      decide +kernel
    rw [hpack] at hbuf
    obtain rfl : buf = [0, 0, 0, 0] :=
      Option.some.inj (htext.s.symm.trans (Prod.mk.inj (Option.some.inj hbuf)).1)
    obtain ⟨l, lis, h₃, hrun, hl, hlis⟩ := hunpack
      (calling [.ofStr (bytes "p"), .ofStr [0, 0, 0, 0]]) 3 1 2
      ⟨by decide, ⟨0, 0⟩, [⟨1, 1⟩, ⟨2, 2⟩], rfl, rfl⟩ ⟨by decide, rfl⟩ ⟨by decide, rfl⟩
    have hint : (returned (ffiProcUnpack wholeNum (abi false) 3
        (calling [.ofStr (bytes "p"), .ofStr [0, 0, 0, 0]]))).map (·.2) = some (some [some 0]) := by
      decide +kernel
    rw [hrun] at hint
    obtain ⟨li, lis', hi, hnil, rfl⟩ := List.forall₂_cons_right_iff.mp hlis
    unfold returned at hint
    simp [hl, hi, Obj.ofInt] at hint
  · have hliteral : Numerals.Unread wholeBinary64
        (calling [.ofStr (bytes "q"), .ofStr (fmtInt (2 ^ 53 + 1))]) 2 (2 ^ 53 + 1) :=
      ⟨by decide, rfl, rfl, fun _ hf => by cases hf⟩
    obtain ⟨buf, b, h₁, hpack, htext, hplaced, -⟩ := hall (bytes "q") [(.sint64, 2 ^ 53 + 1)]
      (by decide) (.cons (by decide) .nil) (by decide)
      (calling [.ofStr (bytes "q"), .ofStr (fmtInt (2 ^ 53 + 1))]) 3 1 [2]
      ⟨by decide, ⟨0, 0⟩, [⟨1, 1⟩, ⟨2, 2⟩], rfl, rfl⟩ ⟨by decide, rfl⟩ (.cons hliteral .nil)
    have hbuf : returned (ffiProcPack wholeBinary64 (abi true) .obj 3
        (calling [.ofStr (bytes "q"), .ofStr (fmtInt (2 ^ 53 + 1))])) =
        some (some [0, 0, 0, 0, 0, 0, 32, 0], none) := by
      decide +kernel
    rw [hpack] at hbuf
    obtain rfl : buf = [0, 0, 0, 0, 0, 0, 32, 0] :=
      Option.some.inj (htext.s.symm.trans (Prod.mk.inj (Option.some.inj hbuf)).1)
    obtain ⟨hfield, -⟩ := List.forall₂_cons.mp hplaced
    exact absurd hfield.bytes (by decide)

end Ffi

end B6b
