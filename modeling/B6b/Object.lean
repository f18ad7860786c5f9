/-
# Objects and their representations

An object of `obj.h` has up to four representations, each behind a flag: a list
of items, a string, an integer and a float, and a hash of the string. A
representation is computed when it is asked for and kept (`asStr`, `asList`,
`asFloat`, `asInt`, `objHash`); nothing else about the object changes. Here a flag
is whether the field is there.

The heap maps addresses to objects. Objects are never freed and allocation
succeeds: what is modelled is what they hold. The number formats of the C library
are the parameter `Num`.

Key definitions: `Obj`, `Heap`, `asStr`, `asList`, `asInt`, `istrue`.
-/
import Mathlib.Logic.Function.Basic
import B6b.Lib.Op
import B6b.Text

namespace B6b

/-- An object's address. -/
abbrev Addr := ℕ

/-- `struct b6b_litem`: a place in a list, with an identity of its own. -/
structure Litem where
  id : ℕ
  o : Addr
deriving DecidableEq, Repr

/-- `enum b6b_res`. -/
inductive Res
  | ok
  | err
  | yield
  | brk
  | cont
  | ret
  | exit
deriving DecidableEq, Repr

/-- The procedures of the interpreter that are modelled one by one. -/
inductive Builtin
  | nop | echo | yield | ret | cont | brk | throw | exit | loc | glob | export | eval | repr | call
  | spawn | source
  | not | eq | ne | and | or | xor | cond
  | map | loop | range
  | try
  | proc
  | listNew | listLen | listCopy | listAppend | listExtend | listIndex | listRange | listIn | listPop
  | dictGet | dictSet | dictUnset
  | add | sub | mul | div | mod | bitAnd | bitOr | bitXor | lt | le | gt | ge
deriving DecidableEq

/-- `o->proc`, with what `o->priv` holds for it: what a call of the object does. -/
inductive Proc
  /-- `b6b_obj_proc` -/
  | obj
  | builtin (b : Builtin)
  /-- `b6b_proc_proc` -/
  | user (body priv : Addr)
  /-- A procedure of another module. -/
  | native (n : ℕ)
deriving DecidableEq

/-- The floating point numbers and the formats of the C library. `strtod` is given
the bytes before the first NUL and tells how many of them it read. -/
structure Num (F : Type) where
  strtod : Bytes → F × ℕ
  fmt : F → Bytes
  ofInt : ℤ → F
  /-- `(b6b_int)floor(f)`, unless it raises `FE_INVALID`. -/
  floor : F → Option ℤ
  isZero : F → Bool
  lt : F → F → Bool
  le : F → F → Bool
  add : F → F → F
  sub : F → F → F
  mul : F → F → F
  div : F → F → F
  /-- `remainder(m, n)`, unless it raises `FE_INVALID` or sets `errno`. -/
  rem : F → F → Option F

/-- `"%lld"` -/
def fmtInt (i : ℤ) : Bytes := (toString i).toList.map fun c => UInt8.ofNat c.toNat

/-- The digits at the front of a text. -/
def digits (s : Bytes) : Bytes := s.takeWhile fun c => 0x30 ≤ c && c ≤ 0x39

/-- The numbers of the C library as far as they are whole. -/
def wholeNum : Num ℤ where
  strtod s :=
    let value := fun t => (digits t).foldl (fun n c => 10 * n + (c.toNat - 48 : ℤ)) 0
    match s with
    | 0x2d :: t => if digits t = [] then (0, 0) else (-value t, (digits t).length + 1)
    | t => (value t, (digits t).length)
  fmt i := fmtInt i ++ 0x2e :: List.replicate 12 0x30
  ofInt i := i
  floor i := some i
  isZero i := i = 0
  lt i j := i < j
  le i j := i ≤ j
  add i j := i + j
  sub i j := i - j
  mul i j := i * j
  div i j := i / j
  rem i j := some (i.bmod j.natAbs)

/-- The part of a string that a C string function sees. -/
def cstr (s : Bytes) : Bytes := s.takeWhile (· ≠ 0)

/-- One turn of `b6b_hash_update`. -/
def hashUpdate (hash : UInt32) (c : UInt8) : UInt32 :=
  let hash := hash + (c.toUInt32 + (hash <<< 10))
  hash ^^^ (hash >>> 6)

/-- `b6b_hash_finish` -/
def hashFinish (hash : UInt32) : UInt32 :=
  let hash := hash + (hash <<< 3)
  let hash := hash ^^^ (hash >>> 11)
  hash + (hash <<< 15)

/-- `b6b_hash` -/
def b6bHash (buf : Bytes) : UInt32 := hashFinish (buf.foldl hashUpdate 0)

/-! ### Objects -/

/-- `struct b6b_obj`. A field is there when its flag is set. -/
structure Obj (F : Type) where
  l : Option (List Litem)
  s : Option Bytes
  i : Option ℤ
  f : Option F
  hash : Option UInt32
  proc : Proc
  valid : l.isSome ∨ s.isSome ∨ i.isSome ∨ f.isSome
  hash_eq : ∀ x, hash = some x → ∃ b, s = some b ∧ x = b6bHash b

namespace Obj

variable {F : Type}

def ofStr (b : Bytes) : Obj F := ⟨none, some b, none, none, none, .obj, by simp, by simp⟩

def ofInt (i : ℤ) : Obj F := ⟨none, none, some i, none, none, .obj, by simp, by simp⟩

def ofFloat (f : F) : Obj F := ⟨none, none, none, some f, none, .obj, by simp, by simp⟩

def ofList (l : List Litem) : Obj F := ⟨some l, none, none, none, none, .obj, by simp, by simp⟩

/-- Keep a string. The object had none, so it had no hash. -/
def withStr (o : Obj F) (b : Bytes) : Obj F :=
  { o with s := some b, hash := none, valid := by simp, hash_eq := by simp }

def withInt (o : Obj F) (i : ℤ) : Obj F := { o with i := some i, valid := by simp }

def withFloat (o : Obj F) (f : F) : Obj F := { o with f := some f, valid := by simp }

/-- Keep the hash of the string. -/
def withHash (o : Obj F) : Obj F :=
  match h : o.s with
  | some b => { o with
      hash := some (b6bHash b)
      hash_eq := fun _ hx => ⟨b, h, (Option.some.inj hx).symm⟩ }
  | none => o

/-- Other items, and everything else as it was. -/
def withItems (o : Obj F) (l : List Litem) : Obj F := { o with l := some l, valid := by simp }

/-- `b6b_list_flush` on an object with the items `l`. -/
def flushed (o : Obj F) (l : List Litem) : Obj F :=
  { o with l := some l, s := none, i := none, f := none, hash := none, valid := by simp,
           hash_eq := by simp }

def withProc (o : Obj F) (p : Proc) : Obj F := { o with proc := p }

/-- `b6b_obj_isnull` -/
def isnull (o : Obj F) : Bool :=
  match o.s with
  | some b => b.isEmpty
  | none =>
    match o.l with
    | some l => l.isEmpty
    | none => false

/-- `b6b_obj_istrue` -/
def istrue (N : Num F) (o : Obj F) : Bool :=
  match o.l with
  | some l => !l.isEmpty
  | none =>
    match o.s with
    | some b =>
      if b.isEmpty then false
      else
        let (d, n) := N.strtod (cstr b)
        -- `*p` is the terminator exactly when all of the C string was read
        if n < (cstr b).length then true else !N.isZero d
    | none =>
      match o.i with
      | some i => i ≠ 0
      | none =>
        match o.f with
        | some f => !N.isZero f
        | none => false

end Obj

/-! ### The heap -/

/-- The objects, the next free address and the next identity of a list item. -/
structure Heap (F : Type) where
  obj : Addr → Obj F
  next : Addr
  nextLi : ℕ

namespace Heap

variable {F : Type}

/-- No objects. -/
def empty : Heap F := ⟨fun _ => .ofStr [], 0, 0⟩

/-- The heap with the object `o` at `a`. -/
def set (h : Heap F) (a : Addr) (o : Obj F) : Heap F := { h with obj := Function.update h.obj a o }

@[simp] theorem set_next (h : Heap F) (a : Addr) (o : Obj F) : (h.set a o).next = h.next := rfl

@[simp] theorem set_nextLi (h : Heap F) (a : Addr) (o : Obj F) : (h.set a o).nextLi = h.nextLi := rfl

@[simp] theorem set_obj_self (h : Heap F) (a : Addr) (o : Obj F) : (h.set a o).obj a = o := by
  simp [set]

theorem set_obj_of_ne (h : Heap F) {a b : Addr} (o : Obj F) (hab : b ≠ a) :
    (h.set a o).obj b = h.obj b := by
  simp [set, hab]

/-- The heap with a new object `o`. -/
def push (h : Heap F) (o : Obj F) : Heap F := { h.set h.next o with next := h.next + 1 }

@[simp] theorem push_next (h : Heap F) (o : Obj F) : (h.push o).next = h.next + 1 := rfl

theorem push_obj_self (h : Heap F) (o : Obj F) : (h.push o).obj h.next = o := h.set_obj_self _ _

theorem push_obj_of_ne (h : Heap F) {b : Addr} (o : Obj F) (hb : b ≠ h.next) :
    (h.push o).obj b = h.obj b :=
  h.set_obj_of_ne o hb

end Heap

section Ops

variable {F : Type}

/-- `b6b_new`, and what its caller puts in. -/
def alloc (o : Obj F) : Op (Heap F) Addr := fun h => .ok h.next (h.push o)

/-- The object at `a`. An access to an address that holds none crashes. -/
def load (a : Addr) : Op (Heap F) (Obj F) := fun h => if a < h.next then .ok (h.obj a) h else .crash

/-- Change the object at `a`. -/
def update (a : Addr) (g : Obj F → Obj F) : Op (Heap F) Unit :=
  Op.modify fun h => h.set a (g (h.obj a))

/-- A new place in a list for `o`. -/
def newLitem (o : Addr) : Op (Heap F) Litem := fun h =>
  .ok ⟨h.nextLi, o⟩ { h with nextLi := h.nextLi + 1 }

/-! ### Conversions -/

/-- What `"%.12f"` becomes: trailing zeros go, and the point if it is then the last byte. -/
def stripZeros (s : Bytes) : Bytes :=
  let r := s.reverse.dropWhile (· = 0x30)
  match r with
  | 0x2e :: r => r.reverse
  | r => r.reverse

/-- The text of a number, as the last two branches of `b6b_as_str` write it. -/
def numStr (N : Num F) (o : Obj F) : Bytes :=
  match o.f with
  | some f => stripZeros (N.fmt f)
  | none => fmtInt (o.i.getD 0)

/-- The loop of `b6b_as_str` over the items of a list, with the text so far. -/
def joinLoop (f : Addr → Op (Heap F) Bytes) : List Litem → Option Bytes → Op (Heap F) (Option Bytes)
  | [], s => pure s
  | li :: lis, s => do
    let x ← f li.o
    joinLoop f lis (some (joinItem s x))

/-- `b6b_as_str`, with the string it leaves in `o->s`. The recursion of the source
through a list that contains itself does not end: it is out of fuel when it is deeper
than there are objects. -/
def asStrAux (N : Num F) : ℕ → Addr → Op (Heap F) Bytes
  | 0, _ => Op.crash
  | n + 1, a => do
    let o ← load a
    match o.s with
    | some b => pure b
    | none =>
      match o.l with
      | some l =>
        let s ← joinLoop (asStrAux N n) l none
        let b := s.getD [lbrac, rbrac]
        update a (·.withStr b)
        pure b
      | none =>
        update a (·.withStr (numStr N o))
        pure (numStr N o)

/-- `b6b_as_str` -/
def asStr (N : Num F) (a : Addr) : Op (Heap F) Bytes := fun h => asStrAux N (h.next + 1) a h

/-- The items `b6b_do_as_list` adds: a new string object for each token. -/
def tokenItems : List Bytes → Op (Heap F) (List Litem)
  | [] => pure []
  | x :: xs => do
    let a ← alloc (.ofStr x)
    let li ← newLitem a
    let lis ← tokenItems xs
    pure (li :: lis)

/-- `b6b_as_list`, with the items it leaves in `o->l`. -/
def asList (N : Num F) (a : Addr) : Op (Heap F) (List Litem) := do
  let o ← load a
  match o.l with
  | some l => pure l
  | none =>
    let b ← asStr N a
    match doAsList b with
    | .ok xs =>
      let l ← tokenItems xs
      update a (·.withItems l)
      pure l
    | .error _ => Op.fail

/-- The string branches of `b6b_as_float`: all of the string has to be a number. -/
def strFloat (N : Num F) (b : Bytes) : Option F :=
  if b.isEmpty then none
  else
    let (f, n) := N.strtod (cstr b)
    if n = b.length then some f else none

/-- `b6b_as_float`, with the number it leaves in `o->f`. -/
def asFloat (N : Num F) (a : Addr) : Op (Heap F) F := do
  let o ← load a
  match o.f with
  | some f => pure f
  | none =>
    if o.s.isSome ∨ o.l.isSome then
      let b ← asStr N a
      match strFloat N b with
      | some f =>
        update a (·.withFloat f)
        pure f
      | none => Op.fail
    else
      let f := N.ofInt (o.i.getD 0)
      update a (·.withFloat f)
      pure f

/-- `b6b_as_int`, with the number it leaves in `o->i`. -/
def asInt (N : Num F) (a : Addr) : Op (Heap F) ℤ := do
  let o ← load a
  match o.i with
  | some i => pure i
  | none =>
    let f ← asFloat N a
    match N.floor f with
    | some i =>
      update a (·.withInt i)
      pure i
    | none => Op.fail

/-- `b6b_obj_hash` -/
def objHash (N : Num F) (a : Addr) : Op (Heap F) Unit := do
  let o ← load a
  match o.hash with
  | some _ => pure ()
  | none =>
    let _ ← asStr N a
    update a (·.withHash)

/-- `b6b_obj_eq`, of objects with a hash. -/
def objEq (a b : Addr) : Op (Heap F) Bool := do
  let x ← load a
  let y ← load b
  match x.s, y.s with
  | some s, some t => pure (x.hash == y.hash && s.length == t.length && s == t)
  | _, _ => Op.crash

end Ops

end B6b
