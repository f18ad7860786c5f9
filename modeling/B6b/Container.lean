/-
# Lists and dictionaries

The operations of `b6b_list.c` and `b6b_dict.c` on the heap, and the parsing of a
procedure's arguments (`listVparse`, `getArgs`). A dictionary is a list of keys and
values in turn.

An operation on the items of an object that is no list would walk an uninitialised
queue, so it crashes here (`items`). A list that is built by one call and not seen by
anybody before it is done is built at once (`listBuild`).

Key definitions: `listAdd`, `listExtend`, `listPop`, `dictSet`, `dictUnset`,
`getArgs`, `listProcPop`.
-/
import B6b.Object

namespace B6b

variable {F : Type}

/-! ### Lists -/

/-- The items of a list. -/
def items (l : Addr) : Op (Heap F) (List Litem) := do
  let o ← load l
  match o.l with
  | some lis => pure lis
  | none => Op.crash

/-- `b6b_list_flush` -/
def listFlush (l : Addr) : Op (Heap F) Unit := do
  let lis ← items l
  update l (·.flushed lis)

/-- `b6b_list_do_add` -/
def listDoAdd (l o : Addr) : Op (Heap F) Unit := do
  let lis ← items l
  let li ← newLitem o
  update l (·.withItems (lis ++ [li]))

/-- `b6b_list_add` -/
def listAdd (l o : Addr) : Op (Heap F) Unit := do
  listDoAdd l o
  listFlush l

/-- The loop of `b6b_list_extend` from the item at `k` on. It goes on while `l2` has a
next item, so it does not end if `l` is `l2`: it is out of fuel then. -/
def listExtendFrom (l l2 : Addr) : ℕ → ℕ → Op (Heap F) Unit
  | 0, _ => Op.crash
  | fuel + 1, k => do
    let lis ← items l2
    match lis[k]? with
    | none => pure ()
    | some li =>
      listDoAdd l li.o
      listExtendFrom l l2 fuel (k + 1)

/-- `b6b_list_extend` -/
def listExtend (l l2 : Addr) : Op (Heap F) Unit := do
  let lis ← items l2
  listExtendFrom l l2 (lis.length + 1) 0
  listFlush l

/-- `b6b_list_remove` -/
def listRemove (l : Addr) (li : Litem) : Op (Heap F) Unit := do
  let lis ← items l
  update l (·.withItems (lis.erase li))

/-- `b6b_list_pop`: remove `li`, or the last item. -/
def listPop (l : Addr) (li : Option Litem) : Op (Heap F) Addr := do
  let lis ← items l
  match li.or lis.getLast? with
  | none => Op.fail
  | some li =>
    listRemove l li
    listFlush l
    pure li.o

/-- New places in a list. -/
def newLitems : List Addr → Op (Heap F) (List Litem)
  | [] => pure []
  | x :: xs => do
    let li ← newLitem x
    let lis ← newLitems xs
    pure (li :: lis)

/-- A new list of `xs`: `b6b_list_new`, and `b6b_list_add` for each. -/
def listBuild (xs : List Addr) : Op (Heap F) Addr := do
  let lis ← newLitems xs
  alloc (.ofList lis)

/-! ### Dictionaries -/

/-- The loop of `b6b_dict_set` over keys and values: the value behind a key equal to `k`. -/
def dictSetSeek (N : Num F) (k : Addr) : List Litem → Op (Heap F) (Option Litem)
  | [] => pure none
  | [kli] => do
    objHash N kli.o
    Op.fail
  | kli :: vli :: lis => do
    objHash N kli.o
    if ← objEq kli.o k then pure (some vli) else dictSetSeek N k lis

/-- `vli->o = v` -/
def setItem (d : Addr) (vli : Litem) (v : Addr) : Op (Heap F) Unit := do
  let lis ← items d
  update d (·.withItems (lis.map fun li => if li = vli then { li with o := v } else li))

/-- `b6b_dict_set` -/
def dictSet (N : Num F) (d k v : Addr) : Op (Heap F) Unit := do
  objHash N k
  let lis ← items d
  match ← dictSetSeek N k lis with
  | some vli =>
    setItem d vli v
    listFlush d
  | none =>
    listAdd d k
    listAdd d v

/-- The loop of `b6b_dict_get` and `b6b_dict_unset`: a key equal to `k`, and its value. -/
def dictSeek (N : Num F) (k : Addr) : List Litem → Op (Heap F) (Option (Litem × Litem))
  | [] => pure none
  | [_] => Op.fail
  | kli :: vli :: lis => do
    objHash N kli.o
    if ← objEq kli.o k then pure (some (kli, vli)) else dictSeek N k lis

/-- `b6b_dict_get` on the items `lis` of a dictionary. -/
def dictGetIn (N : Num F) (lis : List Litem) (k : Addr) : Op (Heap F) (Option Addr) := do
  objHash N k
  match ← dictSeek N k lis with
  | some (_, vli) => pure (some vli.o)
  | none => pure none

/-- `b6b_dict_get` -/
def dictGet (N : Num F) (d k : Addr) : Op (Heap F) (Option Addr) := do
  let lis ← items d
  dictGetIn N lis k

/-- `b6b_dict_unset` -/
def dictUnset (N : Num F) (d k : Addr) : Op (Heap F) Unit := do
  objHash N k
  let lis ← items d
  match ← dictSeek N k lis with
  | some (kli, vli) =>
    let _ ← listPop d (some kli)
    let _ ← listPop d (some vli)
    pure ()
  | none => pure ()

/-! ### Arguments -/

/-- The conversion a format letter of `b6b_list_vparse` asks for. -/
def convert (N : Num F) (c : Char) (a : Addr) : Op (Heap F) Unit :=
  match c with
  | 'o' => pure ()
  | 's' => do let _ ← asStr N a
  | 'l' => do let _ ← asList N a
  | 'i' => do let _ ← asInt N a
  | 'f' => do let _ ← asFloat N a
  | _ => Op.fail

/-- The conversion of an argument, unless the caller passes no pointer for it. -/
def convertArg (N : Num F) (skip : Bool) (c : Char) (a : Addr) : Op (Heap F) Unit :=
  if skip then pure () else convert N c a

/-- The loop of `b6b_list_vparse`, with the arguments it has parsed. `skip` says that
the caller passes no pointer for the first one, which is then left as it is. -/
def vparseFrom (N : Num F) : List Char → List Litem → Bool → Bool → Op (Heap F) (List Addr)
  | [], lis, _, _ => if lis.isEmpty then pure [] else Op.fail
  | c :: p, lis, opt, skip =>
    if c = '|' then vparseFrom N p lis true skip
    else
      match lis with
      | [] => if opt then pure [] else Op.fail
      | li :: lis => do
        convertArg N skip c li.o
        let xs ← vparseFrom N p lis opt false
        pure (li.o :: xs)

/-- `b6b_list_vparse`. The number of arguments it returns is the length of the result. -/
def listVparse (N : Num F) (l : Addr) (fmt : String) (skip : Bool) : Op (Heap F) (List Addr) := do
  let lis ← items l
  vparseFrom N fmt.toList lis false skip

/-- A result and what it leaves in `_`, if anything. -/
abbrev Reply := Res × Option Addr

/-- A text as a byte string. -/
def bytes (s : String) : Bytes := s.toList.map fun c => UInt8.ofNat c.toNat

/-- `b6b_return_str` with a text of the source. -/
def returnStr (s : Bytes) : Op (Heap F) (Option Addr) := do
  let a ← alloc (.ofStr s)
  pure (some a)

/-- What `b6b_proc_get_args` returns to the script when the arguments do not fit. -/
def badCall (N : Num F) (l : Addr) (fmt : String) : Op (Heap F) (Option Addr) := do
  let lis ← items l
  match lis with
  | [] => Op.crash
  | li :: _ =>
    let f ← asStr N li.o
    let s ← asStr N l
    let buf := (fmt.toList.drop 1).intersperse ' '
    returnStr (bytes "bad call: '" ++ cstr s ++ bytes "', expect '" ++ cstr f ++ bytes " " ++
      bytes (String.ofList buf) ++ bytes "'")

/-- `b6b_proc_get_args`, and `body` on the arguments if they fit; `bad` says what becomes of
the error if they do not. -/
def getArgsThen {α : Type} (N : Num F) (l : Addr) (fmt : String) (skip : Bool) (bad : Reply → α)
    (body : List Addr → Op (Heap F) α) : Op (Heap F) α := do
  match ← Op.attempt (listVparse N l fmt skip) with
  | some xs => body xs
  | none =>
    let m ← badCall N l fmt
    pure (bad (.err, m))

/-- `b6b_proc_get_args` of a procedure that has no use for its own object. -/
def getArgs (N : Num F) (l : Addr) (fmt : String) (body : List Addr → Op (Heap F) Reply) :
    Op (Heap F) Reply :=
  getArgsThen N l fmt true id body

/-- `if (x) ..; return B6B_ERR;` for a call that can fail. -/
def orErr (x : Op (Heap F) Reply) : Op (Heap F) Reply := do
  match ← Op.attempt x with
  | some r => pure r
  | none => pure (.err, none)

/-- `b6b_return` of an object. -/
def returnObj (a : Addr) : Op (Heap F) Reply := pure (.ok, some a)

def returnInt (i : ℤ) : Op (Heap F) Reply := do
  let a ← alloc (.ofInt i)
  returnObj a

def returnFloat (f : F) : Op (Heap F) Reply := do
  let a ← alloc (.ofFloat f)
  returnObj a

/-! ### The procedures of lists -/

/-- `b6b_list_proc_new` -/
def listProcNew (args : Addr) : Op (Heap F) Reply := do
  let lis ← items args
  let l ← listBuild (lis.tail.map (·.o))
  returnObj l

/-- `b6b_list_proc_len` -/
def listProcLen (N : Num F) (args : Addr) : Op (Heap F) Reply :=
  getArgs N args "ol" fun
    | [_, l] => do
      let lis ← items l
      returnInt lis.length
    | _ => Op.crash

/-- `b6b_list_proc_append` -/
def listProcAppend (N : Num F) (args : Addr) : Op (Heap F) Reply :=
  getArgs N args "olo" fun
    | [_, l, o] => do
      listAdd l o
      returnObj l
    | _ => Op.crash

/-- `b6b_list_proc_copy` -/
def listProcCopy (N : Num F) (args : Addr) : Op (Heap F) Reply :=
  getArgs N args "ol" fun
    | [_, l] => do
      let lis ← items l
      let l2 ← listBuild (lis.map (·.o))
      returnObj l2
    | _ => Op.crash

/-- `b6b_list_proc_extend` -/
def listProcExtend (N : Num F) (args : Addr) : Op (Heap F) Reply :=
  getArgs N args "oll" fun
    | [_, l, l2] => do
      listExtend l l2
      returnObj l
    | _ => Op.crash

/-- The integer of an object that was converted to one. -/
def intOf (a : Addr) : Op (Heap F) ℤ := do
  let o ← load a
  match o.i with
  | some i => pure i
  | none => Op.crash

/-- The float of an object that was converted to one. -/
def floatOf (a : Addr) : Op (Heap F) F := do
  let o ← load a
  match o.f with
  | some f => pure f
  | none => Op.crash

/-- The string of an object that was converted to one. -/
def strOf (a : Addr) : Op (Heap F) Bytes := do
  let o ← load a
  match o.s with
  | some s => pure s
  | none => Op.crash

/-- The item that `b6b_list_proc_index` finds. -/
def listIndex {α : Type} (xs : List α) (i : ℤ) : Option α := if i < 0 then none else xs[i.toNat]?

/-- `b6b_list_proc_index` -/
def listProcIndex (N : Num F) (args : Addr) : Op (Heap F) Reply :=
  getArgs N args "oli" fun
    | [_, l, i] => do
      let i ← intOf i
      let lis ← items l
      match listIndex lis i with
      | some li => returnObj li.o
      | none => pure (.err, none)
    | _ => Op.crash

/-- `B6B_INT_MAX` -/
def intMax : ℤ := 2 ^ 63 - 1

/-- The items that the loop of `b6b_list_proc_range` adds, behind its checks: it adds the item at
`start` before it looks at `end`. -/
def listRange {α : Type} (xs : List α) (start stop : ℤ) : Option (List α) :=
  if start < 0 ∨ stop < 0 ∨ stop = intMax ∨ start > stop then none
  else
    let ys := (xs.drop start.toNat).take (stop.toNat + 1 - start.toNat)
    if ys.length = stop.toNat + 1 - start.toNat then some ys else none

/-- `b6b_list_proc_range` -/
def listProcRange (N : Num F) (args : Addr) : Op (Heap F) Reply :=
  getArgs N args "olii" fun
    | [_, l, start, stop] => do
      let start ← intOf start
      let stop ← intOf stop
      let lis ← items l
      match listRange lis start stop with
      | some xs =>
        let r ← listBuild (xs.map (·.o))
        returnObj r
      | none => pure (.err, none)
    | _ => Op.crash

/-- The loop of `b6b_list_proc_in`. -/
def listInFrom (N : Num F) (o : Addr) : List Litem → Op (Heap F) Bool
  | [] => pure false
  | li :: lis => do
    objHash N li.o
    if ← objEq o li.o then pure true else listInFrom N o lis

/-- What `b6b_list_proc_pop` does with its arguments: it removes the item without
`b6b_list_flush`. -/
def popBody (l i : Addr) : Op (Heap F) Reply := do
  let i ← intOf i
  if i < 0 then pure (.err, none)
  else
    let lis ← items l
    match lis[i.toNat]? with
    | some li =>
      listRemove l li
      returnObj li.o
    | none =>
      if lis.isEmpty then
        let m ← returnStr (bytes "pop from {}")
        pure (.err, m)
      else pure (.err, none)

/-- `b6b_list_proc_pop` -/
def listProcPop (N : Num F) (args : Addr) : Op (Heap F) Reply :=
  getArgs N args "oli" fun
    | [_, l, i] => popBody l i
    | _ => Op.crash

/-! ### The procedures of dictionaries -/

/-- `b6b_dict_proc_get` -/
def dictProcGet (N : Num F) (args : Addr) : Op (Heap F) Reply :=
  getArgs N args "olo|o" fun
    | _ :: d :: k :: f => orErr do
      match (← dictGet N d k).or f.head? with
      | some v => returnObj v
      | none => Op.fail
    | _ => Op.crash

/-- `b6b_dict_proc_set` -/
def dictProcSet (N : Num F) (args : Addr) : Op (Heap F) Reply :=
  getArgs N args "oloo" fun
    | [_, d, k, v] => orErr do
      dictSet N d k v
      returnObj d
    | _ => Op.crash

/-- `b6b_dict_proc_unset` -/
def dictProcUnset (N : Num F) (args : Addr) : Op (Heap F) Reply :=
  getArgs N args "olo" fun
    | [_, d, k] => orErr do
      dictUnset N d k
      returnObj d
    | _ => Op.crash

end B6b
