/-
# Reference counts and freed objects

The heap of the other modules keeps every object. Here objects count the references to them, as
`obj.h` has it: `b6b_unref` destroys an object behind the last one, the object gives up what it
holds (its items, and what its procedure keeps), and it is freed. What is freed becomes anything:
the memory is used again. The count is an `int`, and no call may take it beyond `INT_MAX`.

The clients of the objects are the interpreter and the procedures. A client has references of its
own (`Client.roots`) and calls the operations of `b6b_obj.c`, `b6b_list.c` and `b6b_dict.c` on the
objects it can reach (`Fair`). `Client.step` is such a call, with the counts; `Plain.step` is the
same call on the heap that keeps every object.

Key definitions: `Mem`, `Obj.held`, `Mem.unref`, `Act`, `Client.step`, `Plain.step`, `Fair`.
-/
import B6b.Lib.Counts
import B6b.Lib.Runs
import B6b.Container

namespace B6b

variable {F : Type}

/-! ### The memory -/

/-- What the procedure of an object keeps, as `b6b_proc_del` gives it up. -/
def Proc.held : Proc → List Addr
  | .user body priv => [priv, body]
  | _ => []

/-- The references an object holds, as `b6b_destroy` gives them up: its items, then `o->del`. -/
def Obj.held (o : Obj F) : List Addr := (o.l.getD []).map (·.o) ++ o.proc.held

namespace Refs

/-- `INT_MAX`, where `o->refc` ends. -/
def refMax : ℕ := 2 ^ 31 - 1

/-- The objects, with `o->refc` of each: it is 0 where there is no object. Freed addresses are in the
order of `b6b_destroy`. -/
structure Mem (F : Type) where
  heap : Heap F
  refc : Addr → ℕ
  freed : List Addr

namespace Mem

/-- The references the object at `a` holds. -/
def held (m : Mem F) (a : Addr) : List Addr := (m.heap.obj a).held

/-- No objects. -/
def empty : Mem F := ⟨.empty, fun _ => 0, []⟩

/-- The memory behind an operation on objects that has left `h`. `b6b_new` gives every new object one
reference. -/
def grow (m : Mem F) (h : Heap F) : Mem F :=
  { m with heap := h, refc := fun a => if m.heap.next ≤ a ∧ a < h.next then 1 else m.refc a }

/-- An operation that neither takes nor gives up references to objects that were there before. -/
def lift {α : Type} (x : Op (Heap F) α) : Op (Mem F) α := fun m =>
  match x m.heap with
  | .ok a h => .ok a (m.grow h)
  | .fail h => .fail (m.grow h)
  | .crash => .crash

/-- `b6b_ref`. An `int` overflows behind `INT_MAX`. -/
def ref (a : Addr) : Op (Mem F) Addr := fun m =>
  if m.refc a = 0 ∨ m.refc a = refMax then .crash
  else .ok a { m with refc := Function.update m.refc a (m.refc a + 1) }

/-- The objects can count references to all of `os` more. -/
def Room (m : Mem F) (os : List Addr) : Prop := ∀ a ∈ os, m.refc a + os.count a ≤ refMax

instance (m : Mem F) (os : List Addr) : Decidable (m.Room os) :=
  inferInstanceAs (Decidable (∀ a ∈ os, m.refc a + os.count a ≤ refMax))

/-- The memory behind the frees of `c`: what was there is overwritten by `junk`. -/
def free (junk : Addr → Obj F) (c : Refcount.Counts Addr) (m : Mem F) : Mem F where
  heap := { m.heap with obj := fun b => if b ∈ c.freed then junk b else m.heap.obj b }
  refc := c.refc
  freed := m.freed ++ c.freed

/-- `b6b_unref`, with `b6b_destroy` behind the last reference. -/
def unref (junk : Addr → Obj F) (a : Addr) : Op (Mem F) Unit := fun m =>
  match Refcount.unref m.held (m.heap.next + 1) a ⟨m.refc, []⟩ with
  | .ok () c => .ok () (m.free junk c)
  | .fail _ => .crash
  | .crash => .crash

/-! ### Operations that take and give up references -/

/-- `b6b_list_do_add` -/
def listDoAdd (l o : Addr) : Op (Mem F) Unit := do
  let o ← ref o
  lift (B6b.listDoAdd l o)

/-- `b6b_list_add` -/
def listAdd (l o : Addr) : Op (Mem F) Unit := do
  listDoAdd l o
  lift (listFlush l)

/-- The loop of `b6b_list_extend` from the item at `k` on, as in `B6b.listExtendFrom`. -/
def listExtendFrom (l l2 : Addr) : ℕ → ℕ → Op (Mem F) Unit
  | 0, _ => Op.crash
  | fuel + 1, k => do
    let lis ← lift (items l2)
    match lis[k]? with
    | none => pure ()
    | some li =>
      listDoAdd l li.o
      listExtendFrom l l2 fuel (k + 1)

/-- `b6b_list_extend` -/
def listExtend (l l2 : Addr) : Op (Mem F) Unit := do
  let lis ← lift (items l2)
  listExtendFrom l l2 (lis.length + 1) 0
  lift (listFlush l)

/-- `b6b_list_pop`: the reference of the item is the caller's now. -/
def listPop (l : Addr) (li : Option Litem) : Op (Mem F) Addr := lift (B6b.listPop l li)

/-- `b6b_dict_set` -/
def dictSet (N : Num F) (junk : Addr → Obj F) (d k v : Addr) : Op (Mem F) Unit := do
  lift (objHash N k)
  let lis ← lift (items d)
  match ← lift (dictSetSeek N k lis) with
  | some vli =>
    unref junk vli.o
    let v ← ref v
    lift (setItem d vli v)
    lift (listFlush d)
  | none =>
    listAdd d k
    listAdd d v

/-- `b6b_dict_unset` -/
def dictUnset (N : Num F) (junk : Addr → Obj F) (d k : Addr) : Op (Mem F) Unit := do
  lift (objHash N k)
  let lis ← lift (items d)
  match ← lift (dictSeek N k lis) with
  | some (kli, vli) =>
    let x ← listPop d (some kli)
    unref junk x
    let x ← listPop d (some vli)
    unref junk x
  | none => pure ()

/-- The end of `b6b_proc_proc_proc`: a procedure keeps its body and what is in `.` of it. -/
def newProc (n : Bytes) (body priv : Addr) : Op (Mem F) Addr := do
  let body ← ref body
  let priv ← ref priv
  lift (alloc ((Obj.ofStr n).withProc (.user body priv)))

end Mem

/-! ### Clients -/

/-- What a client of the objects calls. -/
inductive Act (F : Type)
  | newStr (b : Bytes)
  | newInt (i : ℤ)
  | newFloat (f : F)
  | newList
  | newProc (n : Bytes) (body priv : Addr)
  | ref (a : Addr)
  | unref (a : Addr)
  | asStr (a : Addr)
  | asList (a : Addr)
  | asInt (a : Addr)
  | asFloat (a : Addr)
  | objHash (a : Addr)
  | listAdd (l o : Addr)
  | listExtend (l l2 : Addr)
  | listPop (l : Addr) (li : Option Litem)
  | dictSet (d k v : Addr)
  | dictGet (d k : Addr)
  | dictUnset (d k : Addr)

/-- What it is told. -/
inductive Answer (F : Type)
  | done
  /-- A reference, which is the client's. -/
  | given (a : Addr)
  /-- An object, without a reference. -/
  | found (a : Option Addr)
  | text (b : Bytes)
  | items (lis : List Litem)
  | int (i : ℤ)
  | float (f : F)

namespace Act

/-- A call. -/
def run (N : Num F) (junk : Addr → Obj F) : Act F → Op (Mem F) (Answer F)
  | newStr b => Op.map .given (Mem.lift (alloc (.ofStr b)))
  | newInt i => Op.map .given (Mem.lift (alloc (.ofInt i)))
  | newFloat f => Op.map .given (Mem.lift (alloc (.ofFloat f)))
  | newList => Op.map .given (Mem.lift (alloc (.ofList [])))
  | newProc n body priv => Op.map .given (Mem.newProc n body priv)
  | ref a => Op.map .given (Mem.ref a)
  | unref a => Op.map (fun _ => .done) (Mem.unref junk a)
  | asStr a => Op.map .text (Mem.lift (B6b.asStr N a))
  | asList a => Op.map .items (Mem.lift (B6b.asList N a))
  | asInt a => Op.map .int (Mem.lift (B6b.asInt N a))
  | asFloat a => Op.map .float (Mem.lift (B6b.asFloat N a))
  | objHash a => Op.map (fun _ => .done) (Mem.lift (B6b.objHash N a))
  | listAdd l o => Op.map (fun _ => .done) (Mem.listAdd l o)
  | listExtend l l2 => Op.map (fun _ => .done) (Mem.listExtend l l2)
  | listPop l li => Op.map .given (Mem.listPop l li)
  | dictSet d k v => Op.map (fun _ => .done) (Mem.dictSet N junk d k v)
  | dictGet d k => Op.map .found (Mem.lift (B6b.dictGet N d k))
  | dictUnset d k => Op.map (fun _ => .done) (Mem.dictUnset N junk d k)

/-- The same call on the heap that keeps every object. -/
def plain (N : Num F) : Act F → Op (Heap F) (Answer F)
  | newStr b => Op.map .given (alloc (.ofStr b))
  | newInt i => Op.map .given (alloc (.ofInt i))
  | newFloat f => Op.map .given (alloc (.ofFloat f))
  | newList => Op.map .given (alloc (.ofList []))
  | newProc n body priv => Op.map .given (alloc ((Obj.ofStr n).withProc (.user body priv)))
  | ref a => pure (.given a)
  | unref _ => pure .done
  | asStr a => Op.map .text (B6b.asStr N a)
  | asList a => Op.map .items (B6b.asList N a)
  | asInt a => Op.map .int (B6b.asInt N a)
  | asFloat a => Op.map .float (B6b.asFloat N a)
  | objHash a => Op.map (fun _ => .done) (B6b.objHash N a)
  | listAdd l o => Op.map (fun _ => .done) (B6b.listAdd l o)
  | listExtend l l2 => Op.map (fun _ => .done) (B6b.listExtend l l2)
  | listPop l li => Op.map .given (B6b.listPop l li)
  | dictSet d k v => Op.map (fun _ => .done) (B6b.dictSet N d k v)
  | dictGet d k => Op.map .found (B6b.dictGet N d k)
  | dictUnset d k => Op.map (fun _ => .done) (B6b.dictUnset N d k)

/-- The references of the client behind a call. -/
def after (R : List Addr) : Act F → Option (Answer F) → List Addr
  | unref a, _ => R.erase a
  | _, some (.given a) => a :: R
  | _, _ => R

/-- The objects a call names. -/
def names : Act F → List Addr
  | newStr _ | newInt _ | newFloat _ | newList => []
  | newProc _ body priv => [body, priv]
  | ref a | unref a | asStr a | asList a | asInt a | asFloat a | objHash a => [a]
  | listAdd l o | listExtend l o => [l, o]
  | listPop l _ => [l]
  | dictSet d k v => [d, k, v]
  | dictGet d k | dictUnset d k => [d, k]

/-- The objects a call may take references to. -/
def takes (h : Heap F) : Act F → List Addr
  | newProc _ body priv => [body, priv]
  | ref a => [a]
  | listAdd _ o => [o]
  | listExtend _ l2 => ((h.obj l2).l.getD []).map (·.o)
  | dictSet _ k v => [k, v]
  | _ => []

/-- The item a call names. -/
def picks : Act F → Option Litem
  | listPop _ li => li
  | _ => none

end Act

/-- The memory, the references of the client, and what it has been told. A call that has failed has
told it nothing. -/
structure Client (F : Type) where
  mem : Mem F
  roots : List Addr
  log : List (Option (Answer F))

namespace Client

/-- At the start there is nothing. -/
def start : Client F := ⟨.empty, [], []⟩

/-- A call, if it returns, with what becomes of the objects it frees. -/
def step (N : Num F) (s : Client F) (p : Act F × (Addr → Obj F)) : Option (Client F) :=
  match Op.attempt (p.1.run N p.2) s.mem with
  | .ok r m => some ⟨m, p.1.after s.roots r, s.log ++ [r]⟩
  | _ => none

/-- The client can reach `a`. -/
def Reaches (s : Client F) (a : Addr) : Prop := Refcount.Reached s.mem.held s.mem.refc s.roots a

/-- The client can reach `a`, and not only by what `d` holds. -/
def ReachesPast (s : Client F) (d a : Addr) : Prop :=
  ∃ r ∈ s.roots, Relation.ReflTransGen (fun b c => b ≠ d ∧ Refcount.Edge s.mem.held s.mem.refc b c) r a

/-- A client names objects it can reach and gives up references it has; an item it takes out of a
list is in the list; and the new value for a key of a dictionary is not held by the dictionary alone,
as `b6b_dict_set` gives up the old value first. -/
def Entitled (s : Client F) (x : Act F) : Prop :=
  match x with
  | .newStr _ | .newInt _ | .newFloat _ | .newList => True
  | .newProc _ body priv => s.Reaches body ∧ s.Reaches priv
  | .unref a => a ∈ s.roots
  | .ref a | .asStr a | .asList a | .asInt a | .asFloat a | .objHash a => s.Reaches a
  | .listAdd l o | .listExtend l o => s.Reaches l ∧ s.Reaches o
  | .listPop l li => s.Reaches l ∧
      ∀ x, li = some x → ∃ lis, (s.mem.heap.obj l).l = some lis ∧ x ∈ lis
  | .dictSet d k v => s.Reaches d ∧ s.Reaches k ∧ s.ReachesPast d v
  | .dictGet d k | .dictUnset d k => s.Reaches d ∧ s.Reaches k

/-- **What the objects ask of their clients.** A client is entitled to what it names, and no object
gets more than `INT_MAX` references. -/
def Fair (s : Client F) (p : Act F × (Addr → Obj F)) : Prop :=
  s.Entitled p.1 ∧ s.mem.Room (p.1.takes s.mem.heap)

/-- A client that has references to all it names. -/
def Owns (s : Client F) (p : Act F × (Addr → Obj F)) : Prop :=
  ((∀ a ∈ p.1.names, a ∈ s.roots) ∧ p.1.picks = none) ∧ s.mem.Room (p.1.takes s.mem.heap)

instance (s : Client F) (p : Act F × (Addr → Obj F)) : Decidable (s.Owns p) :=
  inferInstanceAs (Decidable (((∀ a ∈ p.1.names, a ∈ s.roots) ∧ p.1.picks = none) ∧
    s.mem.Room (p.1.takes s.mem.heap)))

end Client

/-- The heap that keeps every object, and what the client has been told. -/
structure Plain (F : Type) where
  heap : Heap F
  log : List (Option (Answer F))

namespace Plain

def start : Plain F := ⟨.empty, []⟩

/-- A call, if it returns. -/
def step (N : Num F) (s : Plain F) (a : Act F) : Option (Plain F) :=
  match Op.attempt (a.plain N) s.heap with
  | .ok r h => some ⟨h, s.log ++ [r]⟩
  | _ => none

end Plain

end Refs

end B6b
