/-
# The event loop

`b6b_evloop.c` is a script. An event loop is a procedure with a list in `.`: a poll object, and
four dictionaries of streams and of their handlers, under the descriptors of the streams. `add`
sets the descriptor in all four. `remove` unsets it in the items 1 to 5 of the list, in a `try`
that silences errors and closes the stream; but the list has five items, so there is no item 5,
`list.range` fails, and the dictionaries stay as they are: `consistent_iff`. What the two
procedures find is `listIndex` and `listRange`, as in the interpreter.

The dictionaries are association lists here: `dict.set` is `upsert` and `dict.unset` is `kerase`
(`dictSet_spec`, `dictUnset_spec`), and a descriptor stands for its decimal text. What `epoll_ctl`
answers comes from outside.

Key definitions: `World`, `remove`, `add`, `step`, `Consistent`, `Careful`.
-/
import B6b.Lib.Runs
import B6b.Lib.Upsert
import B6b.Dict

namespace B6b

namespace Evloop

open Upsert

/-! ### The script -/

/-- The dictionaries of an event loop. -/
inductive Table
  | streams | inputs | outputs | errors
deriving DecidableEq

/-- An item of the list in `.`. -/
inductive Item
  | poll
  | table (t : Table)
deriving DecidableEq

/-- `[$list.new [$poll] {} {} {} {}]` -/
def dot : List Item := [.poll, .table .streams, .table .inputs, .table .outputs, .table .errors]

/-- The streams that are open, with their descriptors, and the dictionaries. -/
structure World where
  fds : List ((_ : Addr) × ℤ)
  tables : Table → List ((_ : ℤ) × Addr)

/-- Give a dictionary other entries. -/
def World.setTable (t : Table) (l : List ((_ : ℤ) × Addr)) (w : World) : World :=
  { w with tables := Function.update w.tables t l }

/-- `[$list.index $. i]` -/
def index (i : ℤ) : Op World Item :=
  match listIndex dot i with
  | some x => pure x
  | none => Op.fail

/-- `[$list.range $. start stop]` -/
def range (start stop : ℤ) : Op World (List Item) :=
  match listRange dot start stop with
  | some xs => pure xs
  | none => Op.fail

/-- `$dict.set`. The text of a poll object is a list of odd length. -/
def set (x : Item) (fd : ℤ) (v : Addr) : Op World Unit :=
  match x with
  | .table t => Op.modify fun w => w.setTable t (upsert fd v (w.tables t))
  | .poll => Op.fail

/-- `$dict.unset` -/
def unset (x : Item) (fd : ℤ) : Op World Unit :=
  match x with
  | .table t => Op.modify fun w => w.setTable t ((w.tables t).kerase fd)
  | .poll => Op.fail

/-- `{$map d xs {..}}` -/
def mapItems (f : Item → Op World Unit) : List Item → Op World Unit
  | [] => pure ()
  | x :: xs => do
    f x
    mapItems f xs

/-- `b6b_strm_fd` -/
def strmFd (s : Addr) : Op World ℤ := fun w =>
  match w.fds.dlookup s with
  | some fd => .ok fd w
  | none => .fail w

/-- `b6b_strm_close` -/
def strmClose (s : Addr) : Op World Unit := Op.modify fun w => { w with fds := w.fds.kerase s }

/-- `b6b_poll_proc`, if `epoll_ctl` answers `ok`. -/
def pollCtl (ok : Bool) : Op World Unit := if ok then pure () else Op.fail

/-- `b6b_exc_proc_try` with three blocks, with the option `B6B_OPT_RAISE` or without it. -/
def excTry (raise : Bool) (t e f : Op World Unit) : Op World Unit := do
  match ← Op.attempt t with
  | some () => f
  | none =>
    let eres ← Op.attempt e
    f
    if raise ∨ eres = none then Op.fail else pure ()

/-- `B6B_EVLOOP_REMOVE` -/
def remove (raise : Bool) (s : Addr) (dropped : Bool) : Op World Unit :=
  excTry raise (do
    let fd ← strmFd s
    let _ ← index 0
    pollCtl dropped
    let ds ← range 1 5
    mapItems (unset · fd) ds) (pure ()) (strmClose s)

/-- `B6B_EVLOOP_ADD` -/
def add (s i o e : Addr) (polled : Bool) : Op World Unit := do
  let fd ← strmFd s
  let streams ← index 1
  set streams fd s
  let inputs ← index 2
  set inputs fd i
  let outputs ← index 3
  set outputs fd o
  let errors ← index 4
  set errors fd e
  let _ ← index 0
  pollCtl polled

/-- `B6B_EVLOOP_UPDATE` -/
def update (s i o e : Addr) (dropped polled : Bool) : Op World Unit := do
  let _ ← index 0
  let _ ← strmFd s
  pollCtl dropped
  add s i o e polled

/-- `[$list.len $strms]`: the items of a dictionary are its keys and values. -/
def World.streamsLen (w : World) : ℕ := 2 * (w.tables .streams).length

/-- `wait` returns before it polls. -/
def World.waitReturns (w : World) : Bool := w.streamsLen = 0

/-! ### Runs -/

/-- What happens to an event loop: a stream is opened outside, or an operation is called, with the
answers of `epoll_ctl`. -/
inductive Act
  | opens (s : Addr) (fd : ℤ)
  | add (s i o e : Addr) (polled : Bool)
  | update (s i o e : Addr) (dropped polled : Bool)
  | remove (s : Addr) (dropped : Bool)

/-- A world, and the streams that have been added and not removed since. -/
structure State where
  world : World
  registered : List Addr

/-- No stream is open. -/
def State.start : State := ⟨⟨[], fun _ => []⟩, []⟩

/-- Register a stream, if it is not yet. -/
def register (s : Addr) (rs : List Addr) : List Addr := if s ∈ rs then rs else rs ++ [s]

/-- The state behind an operation, and the streams that are registered then, if it returns `B6B_OK`
or not. -/
def State.after (x : State) (op : Op World Unit) (rs rs' : List Addr) : Option State :=
  match op x.world with
  | .ok () w => some ⟨w, rs⟩
  | .fail w => some ⟨w, rs'⟩
  | .crash => none

/-- One step. No two open streams have the same descriptor. -/
def step (raise : Bool) (x : State) : Act → Option State
  | .opens s fd =>
    if s ∈ x.world.fds.keys ∨ fd ∈ x.world.fds.map (·.2) then none
    else some { x with world := { x.world with fds := ⟨s, fd⟩ :: x.world.fds } }
  | .add s i o e polled => x.after (Evloop.add s i o e polled) (register s x.registered) x.registered
  | .update s i o e dropped polled =>
    x.after (Evloop.update s i o e dropped polled) (register s x.registered) x.registered
  | .remove s dropped =>
    x.after (Evloop.remove raise s dropped) (x.registered.erase s) (x.registered.erase s)

/-- Behind the removal of `s`, no dictionary has an entry for its descriptor, and the entries of the
other streams are unchanged. -/
def Removed (x x' : State) (s : Addr) : Prop := ∀ t fd, x.world.fds.dlookup s = some fd →
  fd ∉ (x'.world.tables t).keys ∧ ∀ s' fd', s' ≠ s → x.world.fds.dlookup s' = some fd' →
    (x'.world.tables t).dlookup fd' = (x.world.tables t).dlookup fd'

/-- Behind the step the dictionary of streams has two items for each stream that is registered,
`wait` returns if there is none, and a stream that has been removed is in no dictionary. -/
def Consistent (raise : Bool) (x : State) (a : Act) : Prop := ∀ x', step raise x a = some x' →
  x'.world.streamsLen = 2 * x'.registered.length ∧
  (x'.registered = [] → x'.world.waitReturns = true) ∧
  ∀ s dropped, a = .remove s dropped → Removed x x' s

/-- Nothing that is registered is removed, and `epoll_ctl` accepts what is new. -/
def Careful (x : State) : Act → Prop
  | .opens _ _ => True
  | .add s _ _ _ polled => s ∈ x.world.fds.keys → polled = true ∨ s ∈ x.registered
  | .update s _ _ _ dropped polled =>
    s ∈ x.world.fds.keys → dropped = true → polled = true ∨ s ∈ x.registered
  | .remove s _ => s ∉ x.registered

/-! ### What the operations do -/

section Steps

variable {w : World} {s i o e : Addr} {fd : ℤ} {raise dropped polled : Bool}

/-- The entries of a stream with its handlers in the four dictionaries. -/
def World.enter (fd : ℤ) (s i o e : Addr) (w : World) : World :=
  { w with tables := fun t => upsert fd (match t with
    | .streams => s
    | .inputs => i
    | .outputs => o
    | .errors => e) (w.tables t) }

theorem strmFd_open (h : w.fds.dlookup s = some fd) : strmFd s w = .ok fd w := by
  unfold strmFd
  rw [h]

theorem strmFd_closed (h : w.fds.dlookup s = none) : strmFd s w = .fail w := by
  unfold strmFd
  rw [h]

theorem index_poll (w : World) : index 0 w = .ok .poll w := rfl

/-- `add` sets the descriptor in all four dictionaries, and then asks the poll object. -/
theorem add_open (h : w.fds.dlookup s = some fd) : add s i o e polled w =
    if polled then .ok () (w.enter fd s i o e) else .fail (w.enter fd s i o e) := by
  have henter : (((w.setTable .streams (upsert fd s (w.tables .streams))).setTable .inputs
      (upsert fd i (w.tables .inputs))).setTable .outputs (upsert fd o (w.tables .outputs))).setTable
      .errors (upsert fd e (w.tables .errors)) = w.enter fd s i o e := by
    unfold World.enter World.setTable
    congr
    funext t
    cases t <;> rfl
  unfold add
  rw [Op.bind_ok (strmFd_open h), ← henter]
  cases polled with
  | true => rfl
  | false => rfl

theorem add_closed (h : w.fds.dlookup s = none) : add s i o e polled w = .fail w := by
  unfold add
  rw [Op.bind_apply, strmFd_closed h]

/-- `update` takes the stream from the poll object, and adds it again. -/
theorem update_open (h : w.fds.dlookup s = some fd) : update s i o e dropped polled w =
    if dropped then add s i o e polled w else .fail w := by
  unfold update
  rw [Op.bind_ok (index_poll w), Op.bind_ok (strmFd_open h)]
  cases dropped with
  | true => rfl
  | false => rfl

theorem update_closed (h : w.fds.dlookup s = none) : update s i o e dropped polled w = .fail w := by
  unfold update
  rw [Op.bind_ok (index_poll w), Op.bind_apply, strmFd_closed h]

/-- There is no item 5. -/
theorem range_fails (w : World) : range 1 5 w = .fail w := by
  have hnone : listRange dot 1 5 = none := by decide
  unfold range
  rw [hnone]
  rfl

/-- **`remove` closes the stream, and leaves the dictionaries as they are.** -/
theorem remove_eq : remove raise s dropped w =
    if raise then .fail { w with fds := w.fds.kerase s } else .ok () { w with fds := w.fds.kerase s } := by
  have hbody : Op.attempt (do
      let fd ← strmFd s
      let _ ← index 0
      pollCtl dropped
      let ds ← range 1 5
      mapItems (unset · fd) ds) w = .ok none w := by
    unfold Op.attempt
    cases h : w.fds.dlookup s with
    | none => rw [Op.bind_apply, strmFd_closed h]
    | some fd =>
      rw [Op.bind_ok (strmFd_open h), Op.bind_ok (index_poll w)]
      cases dropped with
      | true =>
        have hctl : pollCtl true w = .ok () w := rfl
        rw [Op.bind_ok hctl, Op.bind_apply, range_fails]
      | false => rfl
  unfold remove excTry
  rw [Op.bind_ok hbody]
  cases raise with
  | true => rfl
  | false => rfl

end Steps

/-! ### Every run -/

/-- The streams that are registered are open, and the keys of each dictionary are their
descriptors. -/
structure Inv (x : State) : Prop where
  keys : x.world.fds.NodupKeys
  distinct : (x.world.fds.map (·.2)).Nodup
  opened : ∀ s ∈ x.registered, s ∈ x.world.fds.keys
  tables : ∀ t, (x.world.tables t).keys = x.registered.filterMap (x.world.fds.dlookup ·)

section Runs

variable {x x' : State} {s s' i o e : Addr} {fd : ℤ} {raise : Bool}

/-- Two open streams do not have the same descriptor. -/
theorem Inv.fd_inj (h : Inv x) (hs : x.world.fds.dlookup s = some fd)
    (hs' : x.world.fds.dlookup s' = some fd) : s = s' := by
  have hmem := (List.mem_dlookup_iff h.keys).mp hs
  have hmem' := (List.mem_dlookup_iff h.keys).mp hs'
  exact congrArg Sigma.fst (List.inj_on_of_nodup_map h.distinct hmem hmem' rfl)

/-- An open stream is registered exactly if its descriptor is in the dictionaries. -/
theorem Inv.mem_iff (h : Inv x) (hs : x.world.fds.dlookup s = some fd) (t : Table) :
    fd ∈ (x.world.tables t).keys ↔ s ∈ x.registered := by
  rw [h.tables t, List.mem_filterMap]
  constructor
  · rintro ⟨s', hs', hfd⟩
    exact h.fd_inj hs hfd ▸ hs'
  · intro hmem
    exact ⟨s, hmem, hs⟩

/-- The dictionary of streams counts the streams that are registered. -/
theorem Inv.streamsLen (h : Inv x) : x.world.streamsLen = 2 * x.registered.length := by
  have hsome : ∀ s ∈ x.registered, (x.world.fds.dlookup s).isSome := fun s hs =>
    List.dlookup_isSome.mpr (h.opened s hs)
  have hlen : (x.world.tables .streams).length = x.registered.length := by
    calc (x.world.tables .streams).length
        = (x.world.tables .streams).keys.length := (List.length_map _).symm
      _ = (x.registered.filterMap (x.world.fds.dlookup ·)).length := by rw [h.tables .streams]
      _ = x.registered.length := List.filterMap_length_eq_length.mpr hsome
  rw [World.streamsLen, hlen]

/-- So `wait` returns if there is none. -/
theorem waitReturns_of (hlen : x.world.streamsLen = 2 * x.registered.length)
    (hnil : x.registered = []) : x.world.waitReturns = true := by
  rw [hnil, List.length_nil] at hlen
  exact decide_eq_true hlen

theorem Inv.start : Inv State.start where
  keys := List.nodupKeys_nil
  distinct := List.nodup_nil
  opened := fun _ hs => absurd hs List.not_mem_nil
  tables := fun _ => rfl

/-- A stream that is opened is not registered yet. -/
theorem Inv.opens (h : Inv x) (hs : s ∉ x.world.fds.keys) (hfd : fd ∉ x.world.fds.map (·.2)) :
    Inv { x with world := { x.world with fds := ⟨s, fd⟩ :: x.world.fds } } where
  keys := List.nodupKeys_cons.mpr ⟨hs, h.keys⟩
  distinct := List.nodup_cons.mpr ⟨hfd, h.distinct⟩
  opened := fun s' hs' => List.mem_cons_of_mem s (h.opened s' hs')
  tables := fun t => by
    rw [h.tables t]
    refine List.filterMap_congr fun s' hs' => ?_
    have hne : s' ≠ s := fun heq => hs (heq ▸ h.opened s' hs')
    exact (List.dlookup_cons_ne _ _ hne).symm

theorem keys_enter (w : World) (t : Table) : fd ∈ (w.tables t).keys →
    ((w.enter fd s i o e).tables t).keys = (w.tables t).keys :=
  fun hfd => keys_upsert_of_mem _ hfd

theorem keys_enter_new (w : World) (t : Table) (hfd : fd ∉ (w.tables t).keys) :
    ((w.enter fd s i o e).tables t).keys = (w.tables t).keys ++ [fd] := by
  unfold World.enter
  dsimp only
  rw [upsert_of_notMem _ hfd, List.keys, List.map_append]
  rfl

/-- A stream that is registered already keeps its place. -/
theorem Inv.enter_again (h : Inv x) (hfd : x.world.fds.dlookup s = some fd) (hs : s ∈ x.registered) :
    Inv { x with world := x.world.enter fd s i o e } where
  keys := h.keys
  distinct := h.distinct
  opened := h.opened
  tables := fun t => (keys_enter x.world t ((h.mem_iff hfd t).mpr hs)).trans (h.tables t)

/-- A stream that is new goes to the end. -/
theorem Inv.enter_new (h : Inv x) (hfd : x.world.fds.dlookup s = some fd) (hs : s ∉ x.registered) :
    Inv ⟨x.world.enter fd s i o e, x.registered ++ [s]⟩ where
  keys := h.keys
  distinct := h.distinct
  opened := fun s' hs' => by
    rcases List.mem_append.mp hs' with hold | hnew
    · exact h.opened s' hold
    · rw [List.mem_singleton.mp hnew]
      exact List.dlookup_isSome.mp (Option.isSome_of_eq_some hfd)
  tables := fun t => by
    have hnot : fd ∉ (x.world.tables t).keys := fun hmem => hs ((h.mem_iff hfd t).mp hmem)
    have hone : [s].filterMap (x.world.fds.dlookup ·) = [fd] := List.filterMap_cons_some hfd
    calc ((x.world.enter fd s i o e).tables t).keys
        = (x.world.tables t).keys ++ [fd] := keys_enter_new x.world t hnot
      _ = (x.registered ++ [s]).filterMap (x.world.fds.dlookup ·) := by
          rw [h.tables t, List.filterMap_append, hone]

/-- To close a stream that is not registered changes nothing here. -/
theorem Inv.closes (h : Inv x) (hs : s ∉ x.registered) :
    Inv { x with world := { x.world with fds := x.world.fds.kerase s } } where
  keys := h.keys.kerase s
  distinct := h.distinct.sublist ((List.kerase_sublist s x.world.fds).map _)
  opened := fun s' hs' => by
    have hne : s' ≠ s := fun heq => hs (heq ▸ hs')
    exact (List.mem_keys_kerase_of_ne hne).mpr (h.opened s' hs')
  tables := fun t => by
    rw [h.tables t]
    refine List.filterMap_congr fun s' hs' => ?_
    have hne : s' ≠ s := fun heq => hs (heq ▸ hs')
    exact (List.dlookup_kerase_ne hne).symm

/-- What is registered once the poll object has answered. -/
def registeredAs (polled : Bool) (s : Addr) (rs : List Addr) : List Addr :=
  if polled then register s rs else rs

/-- **The entries of an open stream are right exactly if it is registered.** -/
theorem Inv.enters (h : Inv x) (hfd : x.world.fds.dlookup s = some fd) (polled : Bool) :
    (polled = true ∨ s ∈ x.registered →
      Inv ⟨x.world.enter fd s i o e, registeredAs polled s x.registered⟩) ∧
    ((x.world.enter fd s i o e).streamsLen = 2 * (registeredAs polled s x.registered).length →
      polled = true ∨ s ∈ x.registered) := by
  by_cases hs : s ∈ x.registered
  · have hsame : registeredAs polled s x.registered = x.registered := by
      unfold registeredAs register
      rw [if_pos hs, ite_self]
    rw [hsame]
    exact ⟨fun _ => h.enter_again hfd hs, fun _ => Or.inr hs⟩
  · cases polled with
    | true =>
      have hnew : registeredAs true s x.registered = x.registered ++ [s] := if_neg hs
      rw [hnew]
      exact ⟨fun _ => h.enter_new hfd hs, fun _ => Or.inl rfl⟩
    | false =>
      -- the entries are there, and nobody counts them
      have hinv : Inv ⟨x.world.enter fd s i o e, x.registered ++ [s]⟩ := h.enter_new hfd hs
      have hlen := hinv.streamsLen
      rw [List.length_append, List.length_singleton] at hlen
      refine ⟨fun hor => (hor.elim (Bool.noConfusion ·) (absurd · hs)), fun heq => ?_⟩
      have hold : registeredAs false s x.registered = x.registered := rfl
      rw [hold] at heq
      exact absurd (hlen.symm.trans heq) (by omega)

theorem step_add_open (hfd : x.world.fds.dlookup s = some fd) (polled : Bool) :
    step raise x (.add s i o e polled) =
      some ⟨x.world.enter fd s i o e, registeredAs polled s x.registered⟩ := by
  unfold step State.after
  dsimp only
  rw [add_open hfd]
  cases polled with
  | true => rfl
  | false => rfl

theorem step_add_closed (h : x.world.fds.dlookup s = none) (polled : Bool) :
    step raise x (.add s i o e polled) = some x := by
  unfold step State.after
  dsimp only
  rw [add_closed h]

theorem step_update_closed (h : x.world.fds.dlookup s = none) (dropped polled : Bool) :
    step raise x (.update s i o e dropped polled) = some x := by
  unfold step State.after
  dsimp only
  rw [update_closed h]

/-- `update` is `add`, if the poll object lets go of the stream. -/
theorem step_update_open (hfd : x.world.fds.dlookup s = some fd) (dropped polled : Bool) :
    step raise x (.update s i o e dropped polled) =
      if dropped then step raise x (.add s i o e polled) else some x := by
  unfold step State.after
  dsimp only
  rw [update_open hfd]
  cases dropped with
  | true => rfl
  | false => rfl

theorem step_remove (s : Addr) (dropped : Bool) : step raise x (.remove s dropped) =
    some ⟨{ x.world with fds := x.world.fds.kerase s }, x.registered.erase s⟩ := by
  unfold step State.after
  dsimp only
  rw [remove_eq]
  cases raise with
  | true => rfl
  | false => rfl

/-- What a stream that is not registered leaves behind. -/
theorem Inv.removed (h : Inv x) (hs : s ∉ x.registered) (htables : x'.world.tables = x.world.tables) :
    Removed x x' s := by
  intro t fd hfd
  rw [htables]
  exact ⟨fun hmem => hs ((h.mem_iff hfd t).mp hmem), fun _ _ _ _ => rfl⟩

/-- Unless it is a removal, a step is right exactly if the count is. -/
theorem consistent_iff_streamsLen {a : Act} (hstep : step raise x a = some x')
    (ha : ∀ s dropped, a ≠ .remove s dropped) :
    Consistent raise x a ↔ x'.world.streamsLen = 2 * x'.registered.length := by
  constructor
  · intro hc
    exact (hc x' hstep).1
  · intro hlen x₁ hx₁
    obtain rfl := Option.some.inj (hstep.symm.trans hx₁)
    exact ⟨hlen, waitReturns_of hlen, fun s dropped heq => absurd heq (ha s dropped)⟩

/-- A step that leads to a state as it should be is right. -/
theorem Inv.consistent {a : Act} (h : Inv x') (hstep : step raise x a = some x')
    (ha : ∀ s dropped, a ≠ .remove s dropped) : Consistent raise x a :=
  (consistent_iff_streamsLen hstep ha).mpr h.streamsLen

/-- `add` of a stream. -/
theorem Inv.step_add (h : Inv x) (polled : Bool)
    (hstep : step raise x (.add s i o e polled) = some x') :
    (Careful x (.add s i o e polled) → Inv x') ∧
    (Consistent raise x (.add s i o e polled) ↔ Careful x (.add s i o e polled)) := by
  have ha : ∀ s' dropped, Act.add s i o e polled ≠ .remove s' dropped := fun _ _ => Act.noConfusion
  cases hfd : x.world.fds.dlookup s with
  | none =>
    obtain rfl := Option.some.inj ((step_add_closed hfd polled).symm.trans hstep)
    have hclosed : s ∉ x.world.fds.keys := List.dlookup_eq_none.mp hfd
    exact ⟨fun _ => h, iff_of_true (h.consistent hstep ha) fun hopen => absurd hopen hclosed⟩
  | some fd =>
    obtain rfl := Option.some.inj ((step_add_open hfd polled).symm.trans hstep)
    have hopen : s ∈ x.world.fds.keys := List.dlookup_isSome.mp (Option.isSome_of_eq_some hfd)
    obtain ⟨hkeep, hcount⟩ := h.enters (i := i) (o := o) (e := e) hfd polled
    refine ⟨fun hc => hkeep (hc hopen), fun hc => ?_, fun hc => (hkeep (hc hopen)).consistent hstep ha⟩
    exact fun _ => hcount ((consistent_iff_streamsLen hstep ha).mp hc)

/-- `update` of a stream. -/
theorem Inv.step_update (h : Inv x) (dropped polled : Bool)
    (hstep : step raise x (.update s i o e dropped polled) = some x') :
    (Careful x (.update s i o e dropped polled) → Inv x') ∧
    (Consistent raise x (.update s i o e dropped polled) ↔
      Careful x (.update s i o e dropped polled)) := by
  have ha : ∀ s' d, Act.update s i o e dropped polled ≠ .remove s' d := fun _ _ => Act.noConfusion
  cases hfd : x.world.fds.dlookup s with
  | none =>
    obtain rfl := Option.some.inj ((step_update_closed hfd dropped polled).symm.trans hstep)
    have hclosed : s ∉ x.world.fds.keys := List.dlookup_eq_none.mp hfd
    exact ⟨fun _ => h, iff_of_true (h.consistent hstep ha) fun hopen => absurd hopen hclosed⟩
  | some fd =>
    have hupd := (step_update_open hfd dropped polled).symm.trans hstep
    cases dropped with
    | false =>
      obtain rfl := Option.some.inj hupd
      exact ⟨fun _ => h, iff_of_true (h.consistent hstep ha) fun _ hd => Bool.noConfusion hd⟩
    | true =>
      have hadd : step raise x (.add s i o e polled) = some x' := hupd
      obtain ⟨hkeep, hiff⟩ := h.step_add polled hadd
      have hcareful : Careful x (.update s i o e true polled) ↔ Careful x (.add s i o e polled) :=
        forall_congr' fun _ => forall_prop_of_true rfl
      have hadds : ∀ s' d, Act.add s i o e polled ≠ .remove s' d := fun _ _ => Act.noConfusion
      rw [hcareful, ← hiff, consistent_iff_streamsLen hstep ha,
        consistent_iff_streamsLen hadd hadds]
      exact ⟨fun hlen => hkeep (hiff.mp ((consistent_iff_streamsLen hadd hadds).mpr hlen)), Iff.rfl⟩

/-- `remove` of a stream. -/
theorem Inv.step_remove (h : Inv x) (dropped : Bool)
    (hstep : step raise x (.remove s dropped) = some x') :
    (Careful x (.remove s dropped) → Inv x') ∧
    (Consistent raise x (.remove s dropped) ↔ Careful x (.remove s dropped)) := by
  have hx' := Option.some.inj ((Evloop.step_remove s dropped).symm.trans hstep)
  have hkeep : s ∉ x.registered → Inv x' := by
    intro hs
    rw [← hx', List.erase_of_not_mem hs]
    exact h.closes hs
  refine ⟨hkeep, fun hc hs => ?_, fun hs x₁ hx₁ => ?_⟩
  · -- one stream less, and the dictionary is as long as before
    have hlen := (hc x' hstep).1
    have hpos : 0 < x.registered.length := List.length_pos_of_mem hs
    rw [← hx'] at hlen
    have hsame : x.world.streamsLen = 2 * (x.registered.erase s).length := hlen
    rw [h.streamsLen, List.length_erase_of_mem hs] at hsame
    omega
  · obtain rfl := Option.some.inj (hstep.symm.trans hx₁)
    have hlen := (hkeep hs).streamsLen
    refine ⟨hlen, waitReturns_of hlen, fun s' d heq => ?_⟩
    obtain ⟨rfl, rfl⟩ := Act.remove.inj heq
    exact h.removed hs (by rw [← hx'])

/-- One step keeps the invariant if it is careful, and is right exactly then. -/
theorem Inv.step_spec (h : Inv x) {a : Act} (hstep : step raise x a = some x') :
    (Careful x a → Inv x') ∧ (Consistent raise x a ↔ Careful x a) := by
  cases a with
  | opens s fd =>
    have ha : ∀ s' d, Act.opens s fd ≠ .remove s' d := fun _ _ => Act.noConfusion
    have hnew : ¬ (s ∈ x.world.fds.keys ∨ fd ∈ x.world.fds.map (·.2)) := fun hor =>
      Option.some_ne_none x' (hstep.symm.trans (if_pos hor))
    obtain ⟨hs, hfd⟩ := not_or.mp hnew
    have hinv : Inv x' := Option.some.inj ((if_neg hnew).symm.trans hstep) ▸ h.opens hs hfd
    exact ⟨fun _ => hinv, iff_of_true (hinv.consistent hstep ha) trivial⟩
  | add s i o e polled => exact h.step_add polled hstep
  | update s i o e dropped polled => exact h.step_update dropped polled hstep
  | remove s dropped => exact h.step_remove dropped hstep

end Runs

/-- **The registrations are consistent exactly in the runs where no stream that is registered is
removed**, and where `epoll_ctl` accepts what is added. -/
theorem consistent_iff (raise : Bool) (acts : List Act) :
    Runs.EachStep (step raise) (Consistent raise) State.start acts ↔
      Runs.EachStep (step raise) Careful State.start acts :=
  Runs.eachStep_iff_of_inv (fun _ _ _ hinv hstep => hinv.step_spec hstep) Inv.start

/-- A stream is added and removed, and its entries are still there. -/
theorem removed_stream_stays :
    ¬ ∀ raise acts, Runs.EachStep (step raise) (Consistent raise) State.start acts := by
  intro hall
  have hrun := hall false [.opens 7 4, .add 7 8 9 10 true, .remove 7 true]
  have hlast := hrun.2.2.1 _ rfl
  exact absurd hlast.1 (by decide)

end Evloop

end B6b
