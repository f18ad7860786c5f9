/-
# The groups of `map`

`map` goes through its list in groups, with one item for each of the names. It binds the names to
the items one after the other (`mapBind_returns`), so that a name that comes twice has the later
item, and calls its body. If the bodies leave the list as it is, the iterations follow the groups
that it had when `map` was called: `map_groups`.

Key definitions: `Binds`, `MapCall`, `Iterations`, `group`, `values`.
-/
import B6b.Extend
import B6b.Loops
import B6b.Scope
import B6b.Turns

namespace B6b

variable {F S I : Type} {N : Num F}

namespace Groups

open Literals Scope Extend

/-! ### Bindings -/

/-- Of the variables `ls`, those in `ps` are bound, one after the other, and that gives `ls'`. -/
structure Binds (N : Num F) (ps : Locals) (h h' : Heap F) (ls ls' : Locals) : Prop where
  alike : Alike N h h'
  /-- The last variable of a name counts. -/
  bound : ∀ us k v vs b, ps = us ++ (k, v) :: vs → Val N h k b → Unbound N h b vs →
    Finds N h' b ls' (some v)
  others : ∀ b r, Unbound N h b ps → Finds N h b ls r → Finds N h' b ls' r

theorem Binds.nil (N : Num F) (h : Heap F) (ls : Locals) : Binds N [] h h ls ls where
  alike := Alike.refl N h
  bound us k v vs b heq := absurd heq (by simp)
  others _ _ _ hf := hf

theorem Binds.cons {h h₁ h₂ : Heap F} {k v : Addr} {ps ls ls₁ ls₂ : Locals}
    (hfirst : Binds N [(k, v)] h h₁ ls ls₁) (hrest : Binds N ps h₁ h₂ ls₁ ls₂) :
    Binds N ((k, v) :: ps) h h₂ ls ls₂ := by
  have hun : ∀ {b ps}, Unbound N h b ps → Unbound N h₁ b ps := fun hun p hp hv =>
    hun p hp ((hfirst.alike.val _ _).mp hv)
  refine ⟨hfirst.alike.trans hrest.alike, fun us k' v' vs b heq hk hvs => ?_, fun b r hps hf => ?_⟩
  · cases us with
    | nil =>
      obtain ⟨⟨⟩, rfl⟩ := List.cons.inj heq
      exact hrest.others b _ (hun hvs) (hfirst.bound [] k v [] b rfl hk nofun)
    | cons p us =>
      obtain ⟨rfl, rfl⟩ := List.cons.inj heq
      exact hrest.bound us k' v' vs b rfl ((hfirst.alike.val _ _).mpr hk) (hun hvs)
  · obtain ⟨hkv, hps⟩ := List.forall_mem_cons.mp hps
    exact hrest.others b r (hun hps) (hfirst.others b r (List.forall_mem_singleton.mpr hkv) hf)

/-- The loop of `b6b_dict_set` binds one variable. -/
theorem localsSetFrom_returns {k v : Addr} {b : Bytes} : ∀ (ls : Locals) (h : Heap F), Hashed h k b →
    Op.Returns (localsSetFrom N k v ls) h fun ls' h' => Alike N h h' ∧ Finds N h' b ls' (some v) ∧
      ∀ c r, c ≠ b → Finds N h c ls r → Finds N h' c ls' r
  | [], h, hk => by
    refine Op.ends_pure ⟨Alike.refl N h, .here (.str hk.1), fun c r hc hf => ?_⟩
    exact .next (.str hk.1) (Ne.symm hc) hf
  | (k', v') :: ls, h, hk => by
    refine Op.returns_bind (objHash_returns k' h) fun _ h₁ ⟨halike, d, hd, hhash⟩ => ?_
    refine Op.returns_bind (objEq_returns hhash (halike.hashed k b hk)) fun eq h₂ ⟨hh, heq⟩ => ?_
    subst hh
    have hd₂ : Val N h₂ k' d := .str hhash.1
    cases eq with
    | true =>
      obtain rfl : d = b := heq.mp rfl
      refine Op.ends_pure ⟨halike, .here hd₂, fun c r hc hf => ?_⟩
      cases hf with
      | here hk' => exact absurd (hk'.unique hd) hc
      | next _ _ hf => exact .next hd₂ (Ne.symm hc) (hf.of_alike halike)
    | false =>
      have hne : d ≠ b := fun hdb => Bool.false_ne_true (heq.mpr hdb)
      refine Op.returns_bind (localsSetFrom_returns ls h₂ (halike.hashed k b hk)) ?_
      intro ls' h₃ ⟨halike', hfound, hothers⟩
      have hd₃ : Val N h₃ k' d := (halike'.val _ _).mpr hd₂
      refine Op.ends_pure ⟨halike.trans halike', .next hd₃ hne hfound, fun c r hc hf => ?_⟩
      cases hf with
      | here hk' => exact .here ((halike'.val _ _).mpr ((halike.val _ _).mpr hk'))
      | next hk' hne' hf =>
        obtain rfl := hk'.unique hd
        exact .next hd₃ hne' (hothers c r hc (hf.of_alike halike))

/-- `b6b_dict_set` in a frame -/
theorem localsSet_returns (k v : Addr) (ls : Locals) (h : Heap F) :
    Op.Returns (localsSet N k v ls) h fun ls' h' => Binds N [(k, v)] h h' ls ls' := by
  refine Op.returns_bind (objHash_returns k h) fun _ h₁ ⟨halike, b, hb, hhash⟩ => ?_
  refine (localsSetFrom_returns ls h₁ hhash).mono fun ls' h₂ ⟨halike', hfound, hothers⟩ => ?_
  refine ⟨halike.trans halike', fun us k' v' vs c heq hk hvs => ?_, fun c r hun hf => ?_⟩
  · cases us with
    | nil =>
      obtain ⟨⟨⟩, rfl⟩ := List.cons.inj heq
      exact hk.unique hb ▸ hfound
    | cons p us => exact absurd (List.cons.inj heq).2 (by simp)
  · refine hothers c r (fun hcb => ?_) (hf.of_alike halike)
    exact hun (k, v) List.mem_cons_self (hcb ▸ hb)

/-- The current frame has the variables `ls`. -/
def withCurr (σ : Interp S) (ls : Locals) : Interp S := { σ with fg := { σ.fg with curr := ls } }

/-- `b6b_local` -/
theorem setAt_returns (k v : Addr) (σ : Interp S) (h : Heap F) :
    Op.Returns (Interp.setAt N 0 k v σ) h fun σ' h' => (evolve N Reading).Rel h h' ∧
      ∃ ls, σ' = withCurr σ ls ∧ Binds N [(k, v)] h h' σ.fg.curr ls := by
  have hset := (localsSet_returns (N := N) k v σ.fg.curr h).keepsAt
    (localsSet_keeps reading_conv k v _ h)
  exact Op.returns_bind hset fun ls h₁ ⟨hr, hb⟩ => Op.ends_pure ⟨hr, ls, rfl, hb⟩

/-- The names of a call, each with the item in its place. -/
def pairs (kis lis : List Litem) : Locals := List.zipWith (fun kli li => (kli.o, li.o)) kis lis

/-! ### The inner loop -/

section Inner

variable {l : Addr} {lis : List Litem} {h : Heap F}

/-- A list that is not changed in place. -/
theorem isList_kept {P : Touch → Prop} {h' : Heap F} (hc : ∀ a, ¬ P (.change a)) (hp : ∀ a, ¬ P (.pop a))
    (hl : IsList h l lis) (hr : (evolve N P).Rel h h') : IsList h' l lis := by
  refine evolve_invariant (I := fun h => IsList h l lis) (fun t h₁ h₂ ht he hl => ?_) hr hl
  have hnc : t ≠ .change l := fun hte => hc l (hte ▸ ht)
  have hnp : t ≠ .pop l := fun hte => hp l (hte ▸ ht)
  exact ⟨Nat.lt_of_lt_of_le hl.lt he.next_le, he.list_kept hnc hnp hl.lt hl.items⟩

theorem isList_reading {h' : Heap F} (hl : IsList h l lis) (hr : (evolve N Reading).Rel h h') :
    IsList h' l lis :=
  isList_kept nofun nofun hl hr

theorem nextOf_append {li : Litem} {rest : List Litem} : ∀ {us : List Litem},
    ((us ++ li :: rest).map (·.id)).Nodup → nextOf li (us ++ li :: rest) = some rest.head?
  | [], _ => if_pos rfl
  | u :: us, hd => by
    rw [List.cons_append, List.map_cons] at hd
    obtain ⟨hne, hd⟩ := List.nodup_cons.mp hd
    have hmem : li.id ∈ (us ++ li :: rest).map (·.id) := List.mem_map_of_mem (by simp)
    have hid : u.id ≠ li.id := fun he => hne (he ▸ hmem)
    exact (if_neg hid).trans (nextOf_append hd)

theorem find_append {li : Litem} {us rest : List Litem} (hd : ((us ++ li :: rest).map (·.id)).Nodup) :
    (us ++ li :: rest).find? (·.id = li.id) = some li := by
  rw [List.map_append, List.map_cons] at hd
  have hne : ∀ u ∈ us, ¬ decide (u.id = li.id) = true := by
    intro u hu he
    exact (List.nodup_append.mp hd).2.2 u.id (List.mem_map_of_mem hu) li.id List.mem_cons_self
      (of_decide_eq_true he)
  rw [List.find?_append, List.find?_eq_none.mpr hne, Option.none_or]
  exact List.find?_cons_of_pos (decide_eq_true rfl)

theorem itemAt_ok {li : Litem} {us rest : List Litem} (hd : ((us ++ li :: rest).map (·.id)).Nodup)
    (hl : IsList h l (us ++ li :: rest)) : itemAt l li h = .ok li.o h := by
  unfold itemAt
  rw [Op.bind_ok (items_ok hl.lt hl.items), find_append hd]
  rfl

theorem listNext_ok {li : Litem} {us rest : List Litem} (hd : ((us ++ li :: rest).map (·.id)).Nodup)
    (hl : IsList h l (us ++ li :: rest)) : listNext l li h = .ok rest.head? h := by
  unfold listNext
  rw [Op.bind_ok (items_ok hl.lt hl.items), nextOf_append hd]
  rfl

/-- **The inner loop** binds the names to the items from `rest` on, and returns the item behind
them; or there are too few. -/
theorem mapBind_returns (l : Addr) : ∀ (kis us rest : List Litem) (σ : Interp S) (h : Heap F),
    ((us ++ rest).map (·.id)).Nodup → IsList h l (us ++ rest) →
    Op.Returns (Interp.mapBind N l kis rest.head? σ) h fun r h' =>
      match r with
      | some (li', σ') => kis.length ≤ rest.length ∧ li' = (rest.drop kis.length).head? ∧
        ∃ ls, σ' = withCurr σ ls ∧ Binds N (pairs kis rest) h h' σ.fg.curr ls
      | none => rest.length < kis.length
  | [], us, rest, σ, h, _, _ =>
    Op.ends_pure ⟨Nat.zero_le _, rfl, σ.fg.curr, rfl, Binds.nil N h _⟩
  | kli :: kis, us, [], σ, h, _, _ => Op.ends_pure (Nat.zero_lt_succ _)
  | kli :: kis, us, li :: rest, σ, h, hd, hl => by
    unfold Interp.mapBind
    refine Op.ends_bind_ok (itemAt_ok hd hl) ?_
    refine Op.returns_bind (setAt_returns kli.o li.o σ h) fun σ₁ h₁ ⟨hr₁, ls₁, hσ₁, hb₁⟩ => ?_
    subst hσ₁
    have hl₁ : IsList h₁ l (us ++ li :: rest) := isList_reading hl hr₁
    refine Op.ends_bind_ok (listNext_ok hd hl₁) ?_
    rw [List.append_cons] at hd hl₁
    have hrest := mapBind_returns l kis (us ++ [li]) rest (withCurr σ ls₁) h₁ hd hl₁
    refine hrest.mono fun r h₂ hq => ?_
    rcases r with _ | ⟨li', σ₂⟩
    · exact Nat.succ_lt_succ hq
    · obtain ⟨hle, rfl, ls₂, hσ₂, hb₂⟩ := hq
      exact ⟨Nat.succ_le_succ hle, rfl, ls₂, hσ₂, hb₁.cons hb₂⟩

end Inner

/-! ### The loop -/

/-- A call of `map` in the fiber `id`, with the calls `konts` around it. -/
structure MapCall where
  ks : Addr
  l : Addr
  body : Addr
  konts : List Kont
  id : ℕ

section Loop

variable {c : MapCall} {kis lis : List Litem}

/-- `map` is in front of the item `li`, or at the end of its list, with the results `o`. -/
structure At (c : MapCall) (li : Option Litem) (o : List Addr) (σ : Interp S) : Prop where
  fiber : σ.fg.id = c.id
  ctl : σ.fg.ctl = .mapAt c.ks c.l c.body li o
  konts : σ.fg.konts = c.konts

/-- `map` has called its body, and `li` is behind the items of the group. -/
structure InBody (c : MapCall) (li : Option Litem) (o : List Addr) (σ : Interp S) : Prop where
  fiber : σ.fg.id = c.id
  calls : Calls σ c.body
  konts : σ.fg.konts = .map c.ks c.l c.body li o :: c.konts

/-- The names and the items are what they were. -/
structure Kept (c : MapCall) (kis lis : List Litem) (h : Heap F) : Prop where
  names : IsList h c.ks kis
  items : IsList h c.l lis

theorem Kept.reading {h h' : Heap F} (hk : Kept c kis lis h) (hr : (evolve N Reading).Rel h h') :
    Kept c kis lis h' :=
  ⟨isList_reading hk.names hr, isList_reading hk.items hr⟩

/-- `map` has failed, because it has too few items. -/
structure Fails (c : MapCall) (m : Machine F S) : Prop where
  left : Loops.Left .err c.konts c.id m.interp
  text : (m.heap.obj m.interp.fg.ret).s = some (bytes "not enough items")

/-- `map` has returned with a list of `o`. -/
structure Done (c : MapCall) (o : List Addr) (m : Machine F S) : Prop where
  left : Loops.Left .ok c.konts c.id m.interp
  list : ∃ lis, IsList m.heap m.interp.fg.ret lis ∧ lis.map (·.o) = o

/-- The step of the loop, with items left. -/
theorem mapAt_returns {σ : Interp S} {h : Heap F} {us rest : List Litem} (o : List Addr)
    (hd : ((us ++ rest).map (·.id)).Nodup) (hne : rest ≠ []) (hk : Kept c kis (us ++ rest) h) :
    Op.Returns (σ.mapAt N c.ks c.l c.body o rest.head?) h fun σ' h' =>
      (kis.length ≤ rest.length ∧ ∃ ls,
        σ' = (withCurr σ ls).push (.map c.ks c.l c.body (rest.drop kis.length).head? o) (.call c.body) ∧
        (evolve N Reading).Rel h h' ∧ Binds N (pairs kis rest) h h' σ.fg.curr ls) ∨
      (rest.length < kis.length ∧ Loops.Left .err σ.fg.konts σ.fg.id σ' ∧
        (h'.obj σ'.fg.ret).s = some (bytes "not enough items")) := by
  obtain ⟨li, rest, rfl⟩ := List.exists_cons_of_ne_nil hne
  have hbind := (mapBind_returns (N := N) c.l kis us (li :: rest) σ h hd hk.items).keepsAt
    (Interp.mapBind_keeps reading_conv c.l kis _ σ h)
  refine Op.ends_bind_ok (items_ok hk.names.lt hk.names.items) ?_
  refine Op.returns_bind hbind fun r h₁ ⟨hr, hq⟩ => ?_
  rcases r with _ | ⟨li', σ₁⟩
  · have hmsg : returnStr (bytes "not enough items") h₁ =
        .ok (some h₁.next) (h₁.push (.ofStr (bytes "not enough items"))) := rfl
    refine Op.ends_bind_ok hmsg ?_
    exact Op.ends_pure (.inr ⟨hq, ⟨rfl, rfl, rfl⟩, congrArg Obj.s (h₁.push_obj_self _)⟩)
  · obtain ⟨hle, rfl, ls, rfl, hb⟩ := hq
    exact Op.ends_pure (.inl ⟨hle, ls, rfl, hr, hb⟩)

/-- What a step in front of the items `rest` does. -/
theorem step_at {nat : Natives N S I} {m m' : Machine F S} {inp : Input I} {us rest : List Litem}
    {o : List Addr} (hd : ((us ++ rest).map (·.id)).Nodup) (hne : rest ≠ [])
    (hat : At c rest.head? o m.interp) (hk : Kept c kis (us ++ rest) m.heap)
    (hstep : m.step nat inp = some m') :
    (kis.length ≤ rest.length ∧ InBody c (rest.drop kis.length).head? o m'.interp ∧
      Kept c kis (us ++ rest) m'.heap ∧
      Binds N (pairs kis rest) m.heap m'.heap m.interp.fg.curr m'.interp.fg.curr) ∨
    (rest.length < kis.length ∧ Fails c m') := by
  have hok := Machine.step_eq_some hstep
  unfold Interp.step at hok
  rw [hat.ctl] at hok
  rcases (mapAt_returns o hd hne hk).ok hok with ⟨hle, ls, hσ, hr, hb⟩ | ⟨hlt, hleft, htext⟩
  · rw [hσ]
    exact .inl ⟨hle, ⟨hat.fiber, rfl, congrArg _ hat.konts⟩, hk.reading hr, hb⟩
  · rw [hat.fiber, hat.konts] at hleft
    exact .inr ⟨hlt, hleft, htext⟩

/-- A step at the end of the list. -/
theorem step_end (nat : Natives N S I) {m : Machine F S} {o : List Addr} (inp : Input I)
    (hat : At c none o m.interp) : ∃ m', m.step nat inp = some m' ∧ Done c o m' := by
  obtain ⟨n, lis, hbuild, hlis⟩ := listBuild_ok o m.heap
  have hstep : m.interp.step nat inp m.heap =
      .ok (m.interp.finish (.ok, some m.heap.next)) ((m.heap.withLi n).push (.ofList lis)) := by
    unfold Interp.step
    rw [hat.ctl]
    exact Op.bind_ok hbuild _
  refine ⟨_, Machine.step_of_ok hstep, ⟨hat.fiber, rfl, hat.konts⟩, lis, ⟨Nat.lt_succ_self _, ?_⟩, hlis⟩
  exact congrArg Obj.l (Heap.push_obj_self (m.heap.withLi n) _)

/-! ### Iterations -/

/-- What `map` does next when its body has returned with `v` in `_`. -/
def afterBody (c : MapCall) (li : Option Litem) (o : List Addr) (v : Addr) : Res → Ctl S
  | .ok => .mapAt c.ks c.l c.body li (o ++ [v])
  | .cont => .mapAt c.ks c.l c.body li o
  | .brk => .mapAt c.ks c.l c.body none o
  | res => .ret res

/-- The body returns. -/
theorem step_back {nat : Natives N S I} {m m₁ m₂ : Machine F S} {inps : List (Input I)} {inp : Input I}
    {res : Res} {li : Option Litem} {o : List Addr} (hm : InBody c li o m.interp)
    (hcall : callResult nat m inps = some (m₁, res)) (hstep : m₁.step nat inp = some m₂) :
    m₂.interp.fg.id = c.id ∧ m₂.interp.fg.konts = c.konts ∧
      m₂.interp.fg.ctl = afterBody c li o m₁.interp.fg.ret res := by
  have hno := Nesting.Calling.not_returned (.inr ⟨c.body, hm.calls⟩)
  obtain ⟨-, hret⟩ := Nesting.runTo_invariant (P := fun _ => True) (fun _ _ _ _ _ _ => trivial)
    trivial hno hcall
  obtain ⟨hctl, hk, hid⟩ := Nesting.returned_eq_some.mp hret
  rw [hm.konts] at hk
  rw [hm.fiber] at hid
  have htail : m₁.interp.pop.fg.konts = c.konts := by simp [Interp.pop, hk]
  have hres : m₁.interp.pop.resume (F := F) res (.map c.ks c.l c.body li o) =
      pure (m₁.interp.pop.goto (afterBody c li o m₁.interp.fg.ret res)) := by
    cases res <;> rfl
  rw [Machine.step_ret hctl hk hres] at hstep
  obtain rfl := Option.some.inj hstep
  exact ⟨hid, htail, rfl⟩

/-- One iteration. -/
structure Turn (F S : Type) where
  /-- In front of the bindings. -/
  before : Machine F S
  /-- The body is called. -/
  start : Machine F S
  res : Res
  /-- What `_` is behind the body. -/
  value : Addr

/-- The iterations of `map` from `m` on, whose bodies leave the names and the items as they are; and
`m'` is what `map` has made of the last one. -/
inductive Iterations (nat : Natives N S I) (c : MapCall) (kis lis : List Litem) :
    Machine F S → List (Turn F S) → Machine F S → Prop
  | done (m : Machine F S) : Iterations nat c kis lis m [] m
  | turn {m m₁ m₂ m₃ m' : Machine F S} {li : Litem} {o : List Addr} {inp inp' : Input I}
      {inps : List (Input I)} {res : Res} {ts : List (Turn F S)} (hat : At c (some li) o m.interp)
      (hbind : m.step nat inp = some m₁) (hbody : Calls m₁.interp c.body)
      (hcall : callResult nat m₁ inps = some (m₂, res)) (hback : m₂.step nat inp' = some m₃)
      (hkept : Kept c kis lis m₃.heap) (hrest : Iterations nat c kis lis m₃ ts m') :
      Iterations nat c kis lis m (⟨m, m₁, res, m₂.interp.fg.ret⟩ :: ts) m'

/-- The values of `_` behind the iterations that ended with `B6B_OK`. -/
def values (ts : List (Turn F S)) : List Addr :=
  ts.filterMap fun t => if t.res = .ok then some t.value else none

/-- The `j`-th of the groups of `k` items. -/
def group (k j : ℕ) (lis : List Litem) : List Litem := (lis.drop (j * k)).take k

/-- The iterations `ts` went through the groups of `lis`, with the results `o` before them. -/
structure Went (N : Num F) (c : MapCall) (kis lis : List Litem) (o : List Addr) (ts : List (Turn F S))
    (m' : Machine F S) : Prop where
  /-- The names are bound to the items of a group, which is complete. -/
  groups : ∀ j t, ts[j]? = some t → (group kis.length j lis).length = kis.length ∧
    Binds N (pairs kis (group kis.length j lis)) t.before.heap t.start.heap
      t.before.interp.fg.curr t.start.interp.fg.curr
  goes : ∀ t ∈ ts.dropLast, Loops.goesOn t.res = true
  /-- `map` is in front of the next group. -/
  here : (∀ t ∈ ts, Loops.goesOn t.res = true) → ts.length * kis.length ≤ lis.length ∧
    At c (lis.drop (ts.length * kis.length)).head? (o ++ values ts) m'.interp
  broken : ∀ t ∈ ts, t.res = .brk → At c none (o ++ values ts) m'.interp
  left : ∀ t ∈ ts, Loops.goesOn t.res = false → t.res ≠ .brk →
    Loops.Left t.res c.konts c.id m'.interp

theorem pairs_take : ∀ (kis lis : List Litem), pairs kis (lis.take kis.length) = pairs kis lis
  | [], _ => rfl
  | _ :: _, [] => rfl
  | kli :: kis, li :: lis => congrArg ((kli.o, li.o) :: ·) (pairs_take kis lis)

theorem group_succ (k j : ℕ) (lis : List Litem) : group k (j + 1) lis = group k j (lis.drop k) := by
  unfold group
  rw [List.drop_drop, Nat.succ_mul, Nat.add_comm]

theorem values_cons (t : Turn F S) (ts : List (Turn F S)) :
    values (t :: ts) = values [t] ++ values ts := by
  unfold values
  rw [← List.filterMap_append]
  rfl

section Went

variable {rest : List Litem} {o : List Addr} {m' : Machine F S} {t : Turn F S} {ts : List (Turn F S)}

/-- No iteration. -/
theorem Went.nil (hat : At c rest.head? o m'.interp) : Went N c kis rest o [] m' where
  groups j t hj := by simp at hj
  goes t ht := absurd ht List.not_mem_nil
  here _ := by simpa [values] using hat
  broken t ht := absurd ht List.not_mem_nil
  left t ht := absurd ht List.not_mem_nil

/-- What an iteration does with the first of the groups. -/
structure Binding (N : Num F) (kis rest : List Litem) (t : Turn F S) : Prop where
  le : kis.length ≤ rest.length
  binds : Binds N (pairs kis rest) t.before.heap t.start.heap
    t.before.interp.fg.curr t.start.interp.fg.curr

theorem Binding.first (h : Binding N kis rest t) : (group kis.length 0 rest).length = kis.length ∧
    Binds N (pairs kis (group kis.length 0 rest)) t.before.heap t.start.heap
      t.before.interp.fg.curr t.start.interp.fg.curr := by
  unfold group
  rw [Nat.zero_mul, List.drop_zero, pairs_take]
  exact ⟨List.length_take_of_le h.le, h.binds⟩

/-- The last iteration. -/
theorem Went.last (h : Binding N kis rest t) (hno : Loops.goesOn t.res = false)
    (hbrk : t.res = .brk → At c none o m'.interp)
    (hleft : t.res ≠ .brk → Loops.Left t.res c.konts c.id m'.interp) : Went N c kis rest o [t] m' := by
  have hval : values [t] = [] := by
    unfold values
    cases hres : t.res <;> simp_all [Loops.goesOn]
  refine ⟨fun j u hj => ?_, fun u hu => absurd hu List.not_mem_nil, fun hall => ?_, fun u hu hres => ?_,
    fun u hu _ hres => ?_⟩
  · obtain ⟨rfl, rfl⟩ : j = 0 ∧ t = u := by
      cases j with
      | zero => exact ⟨rfl, Option.some.inj hj⟩
      | succ j => simp at hj
    exact h.first
  · rw [hall t List.mem_cons_self] at hno
    cases hno
  · obtain rfl := List.mem_singleton.mp hu
    rw [hval, List.append_nil]
    exact hbrk hres
  · obtain rfl := List.mem_singleton.mp hu
    exact hleft hres

/-- An iteration behind which `map` goes on. -/
theorem Went.cons (h : Binding N kis rest t) (hgo : Loops.goesOn t.res = true)
    (hrest : Went N c kis (rest.drop kis.length) (o ++ values [t]) ts m') :
    Went N c kis rest o (t :: ts) m' := by
  have hvals : o ++ values (t :: ts) = o ++ values [t] ++ values ts := by
    rw [values_cons, List.append_assoc]
  refine ⟨fun j u hj => ?_, fun u hu => ?_, fun hall => ?_, fun u hu hres => ?_, fun u hu hno hres => ?_⟩
  · cases j with
    | zero =>
      obtain rfl := Option.some.inj hj
      exact h.first
    | succ j =>
      rw [group_succ]
      exact hrest.groups j u hj
  · cases ts with
    | nil => exact absurd hu List.not_mem_nil
    | cons t' ts =>
      rcases List.mem_cons.mp hu with rfl | hu
      · exact hgo
      · exact hrest.goes u hu
  · obtain ⟨hle, hat⟩ := hrest.here fun u hu => hall u (List.mem_cons_of_mem _ hu)
    rw [List.length_drop] at hle
    rw [List.drop_drop, Nat.add_comm] at hat
    rw [hvals, List.length_cons, Nat.succ_mul]
    exact ⟨Nat.add_le_of_le_sub h.le hle, hat⟩
  · rw [hvals]
    rcases List.mem_cons.mp hu with rfl | hu
    · rw [hres] at hgo
      cases hgo
    · exact hrest.broken u hu hres
  · rcases List.mem_cons.mp hu with rfl | hu
    · rw [hno] at hgo
      cases hgo
    · exact hrest.left u hu hno hres

end Went

theorem afterBody_goes {li : Option Litem} {o : List Addr} {v : Addr} {res : Res} (m m₁ : Machine F S)
    (hgo : Loops.goesOn res = true) : (afterBody c li o v res : Ctl S) =
      .mapAt c.ks c.l c.body li (o ++ values [⟨m, m₁, res, v⟩]) := by
  cases res with
  | ok => rfl
  | cont =>
    rw [show values [⟨m, m₁, .cont, v⟩] = [] from rfl, List.append_nil]
    rfl
  | _ => cases hgo

theorem afterBody_leaves {li : Option Litem} {o : List Addr} {v : Addr} {res : Res}
    (hno : Loops.goesOn res = false) (hne : res ≠ .brk) :
    (afterBody c li o v res : Ctl S) = .ret res := by
  cases res with
  | ok | cont => cases hno
  | brk => exact absurd rfl hne
  | _ => rfl

/-- Iterations go through the groups. -/
theorem iterations_went {nat : Natives N S I} {lis : List Litem} (hd : (lis.map (·.id)).Nodup)
    {m m' : Machine F S} {ts : List (Turn F S)} (h : Iterations nat c kis lis m ts m') :
    ∀ us rest o, lis = us ++ rest → At c rest.head? o m.interp → Kept c kis lis m.heap →
      Went N c kis rest o ts m' := by
  induction h with
  | done m =>
    intro us rest o hlis hat hk
    exact .nil hat
  | @turn m m₁ m₂ m₃ m' li o' inp inp' inps res ts hat' hbind hbody hcall hback hkept hrest ih =>
    intro us rest o hlis hat hk
    subst hlis
    have hne : rest ≠ [] := by
      rintro rfl
      have hctl := hat.ctl.symm.trans hat'.ctl
      cases hctl
    rcases step_at hd hne hat hk hbind with ⟨hle, hin, hk₁, hb⟩ | ⟨-, hfails⟩
    · obtain ⟨hid, hkonts, hctl⟩ := step_back hin hcall hback
      have hbinding : Binding N kis rest ⟨m, m₁, res, m₂.interp.fg.ret⟩ := ⟨hle, hb⟩
      by_cases hgo : Loops.goesOn res = true
      · rw [afterBody_goes m m₁ hgo] at hctl
        refine .cons hbinding hgo (ih (us ++ rest.take kis.length) _ _ ?_ ⟨hid, hctl, hkonts⟩ hkept)
        rw [List.append_assoc, List.take_append_drop]
      · have hno : Loops.goesOn res = false := Bool.eq_false_iff.mpr hgo
        cases hrest with
        | done =>
          refine .last hbinding hno (fun hbrk => ?_) fun hne => ?_
          · obtain rfl : res = .brk := hbrk
            exact ⟨hid, hctl, hkonts⟩
          · exact ⟨hid, hctl.trans (afterBody_leaves hno hne), hkonts⟩
        | turn hat₃ =>
          have hctl₃ := hctl.symm.trans hat₃.ctl
          cases res <;> first | cases hctl₃ | cases hno
    · have hctl := hfails.left.ctl.symm.trans hbody
      cases hctl

/-! ### Bindings return -/

section Tidy

variable {h : Heap F}

theorem objHash_ne_crash {k : Addr} (ht : Tidy h) (hk : k < h.next) : objHash N k h ≠ .crash := by
  obtain ⟨h', hok⟩ := objHash_ok (N := N) (ht.asStr_ok hk)
  rw [hok]
  exact nofun

theorem localsSetFrom_ne_crash {k v : Addr} {b : Bytes} : ∀ {ls : Locals} {h : Heap F}, Tidy h →
    k < h.next → Hashed h k b → (∀ p ∈ ls, p.1 < h.next) → localsSetFrom N k v ls h ≠ .crash
  | [], _, _, _, _, _ => nofun
  | (k', v') :: ls, h, ht, hk, hkb, hls => by
    obtain ⟨hk', hls⟩ := List.forall_mem_cons.mp hls
    refine Op.bind_ne_crash (objHash_ne_crash ht hk') fun _ h₁ hhash => ?_
    obtain ⟨halike, c, -, hc⟩ := (objHash_returns k' h).ok hhash
    have hg : Grows h h₁ := (keeps_grows (objHash_keeps reading_conv k') h).ok hhash
    have heq := objEq_spec (Nat.lt_of_lt_of_le hk' hg.next) (Nat.lt_of_lt_of_le hk hg.next) hc
      (halike.hashed k b hkb)
    rw [Op.bind_ok heq]
    cases decide (c = b) with
    | true => exact nofun
    | false =>
      refine Op.bind_ne_crash ?_ fun _ _ _ => nofun
      exact localsSetFrom_ne_crash (hg.tidy ht) (Nat.lt_of_lt_of_le hk hg.next) (halike.hashed k b hkb)
        fun p hp => Nat.lt_of_lt_of_le (hls p hp) hg.next

theorem localsSet_ne_crash {k v : Addr} {ls : Locals} (ht : Tidy h) (hk : k < h.next)
    (hls : ∀ p ∈ ls, p.1 < h.next) : localsSet N k v ls h ≠ .crash := by
  refine Op.bind_ne_crash (objHash_ne_crash ht hk) fun _ h₁ hhash => ?_
  obtain ⟨-, b, -, hb⟩ := (objHash_returns k h).ok hhash
  have hg : Grows h h₁ := (keeps_grows (objHash_keeps reading_conv k) h).ok hhash
  exact localsSetFrom_ne_crash (hg.tidy ht) (Nat.lt_of_lt_of_le hk hg.next) hb
    fun p hp => Nat.lt_of_lt_of_le (hls p hp) hg.next

/-- The keys are those there were, and `k`. -/
theorem localsSetFrom_gives (k v : Addr) : ∀ ls : Locals, Op.Gives (localsSetFrom N k v ls) fun ls' =>
    ∀ p ∈ ls', p.1 = k ∨ ∃ q ∈ ls, q.1 = p.1
  | [] => Op.gives_pure fun p hp => .inl (List.mem_singleton.mp hp ▸ rfl)
  | (k', v') :: ls => by
    refine Op.gives_of_bind fun _ => Op.gives_of_bind fun eq => ?_
    cases eq with
    | true =>
      refine Op.gives_pure fun p hp => .inr ?_
      rcases List.mem_cons.mp hp with rfl | hp
      · exact ⟨(k', v'), List.mem_cons_self, rfl⟩
      · exact ⟨p, List.mem_cons_of_mem _ hp, rfl⟩
    | false =>
      refine Op.gives_bind (localsSetFrom_gives k v ls) fun ls' hls' => Op.gives_pure fun p hp => ?_
      rcases List.mem_cons.mp hp with rfl | hp
      · exact .inr ⟨(k', v'), List.mem_cons_self, rfl⟩
      · rcases hls' p hp with rfl | ⟨q, hq, he⟩
        · exact .inl rfl
        · exact .inr ⟨q, List.mem_cons_of_mem _ hq, he⟩

theorem mapBind_ne_crash (l : Addr) : ∀ (kis us rest : List Litem) (σ : Interp S) (h : Heap F),
    ((us ++ rest).map (·.id)).Nodup → IsList h l (us ++ rest) → Tidy h → (∀ kli ∈ kis, kli.o < h.next) →
    (∀ p ∈ σ.fg.curr, p.1 < h.next) → Interp.mapBind N l kis rest.head? σ h ≠ .crash
  | [], _, _, _, _, _, _, _, _, _ => nofun
  | _ :: _, _, [], _, _, _, _, _, _, _ => nofun
  | kli :: kis, us, li :: rest, σ, h, hd, hl, ht, hkis, hσ => by
    obtain ⟨hkli, hkis⟩ := List.forall_mem_cons.mp hkis
    rw [List.head?_cons, Interp.mapBind, Op.bind_ok (itemAt_ok hd hl)]
    refine Op.bind_ne_crash (Op.bind_ne_crash (localsSet_ne_crash ht hkli hσ) fun _ _ _ => nofun) ?_
    intro σ₁ h₁ hset
    obtain ⟨ls, h₂, hls, hpure⟩ := Op.bind_eq_ok.mp hset
    obtain ⟨rfl, rfl⟩ := Outcome.ok.inj hpure
    have hkeeps : Op.Keeps (evolve N Reading) (localsSet N kli.o li.o σ.fg.curr) :=
      localsSet_keeps reading_conv _ _ _
    have hg : Grows h h₂ := (keeps_grows hkeeps h).ok hls
    have hl₂ := isList_reading hl ((hkeeps h).ok hls)
    rw [Op.bind_ok (listNext_ok hd hl₂)]
    rw [List.append_cons] at hd hl₂
    refine mapBind_ne_crash l kis (us ++ [li]) rest _ h₂ hd hl₂ (hg.tidy ht)
      (fun k hk => Nat.lt_of_lt_of_le (hkis k hk) hg.next) fun p hp => ?_
    have hkeys := (Op.gives_of_bind fun _ => localsSetFrom_gives kli.o li.o σ.fg.curr : Op.Gives
      (localsSet N kli.o li.o σ.fg.curr) _).ok hls p hp
    rcases hkeys with he | ⟨q, hq, he⟩
    · rw [he]
      exact Nat.lt_of_lt_of_le hkli hg.next
    · rw [← he]
      exact Nat.lt_of_lt_of_le (hσ q hq) hg.next

/-- The step of the loop returns, where nothing is in itself. -/
theorem step_at_some {nat : Natives N S I} {m : Machine F S} {us rest : List Litem} {o : List Addr}
    (hd : ((us ++ rest).map (·.id)).Nodup) (hne : rest ≠ []) (hat : At c rest.head? o m.interp)
    (hk : Kept c kis (us ++ rest) m.heap) (ht : Tidy m.heap)
    (hcurr : ∀ p ∈ m.interp.fg.curr, p.1 < m.heap.next) (inp : Input I) :
    ∃ m', m.step nat inp = some m' := by
  have hkis : ∀ kli ∈ kis, kli.o < m.heap.next := fun kli hkli =>
    (ht.closed c.ks kli.o ⟨kis, hk.names.items, kli, hkli, rfl⟩).2
  have hret := mapAt_returns (N := N) (σ := m.interp) o hd hne hk
  have hno : m.interp.mapAt N c.ks c.l c.body o rest.head? m.heap ≠ .crash := by
    have hbind := mapBind_ne_crash (N := N) c.l kis us rest m.interp m.heap hd hk.items ht hkis hcurr
    obtain ⟨li, rest, rfl⟩ := List.exists_cons_of_ne_nil hne
    rw [List.head?_cons, Interp.mapAt, Op.bind_ok (items_ok hk.names.lt hk.names.items)]
    refine Op.bind_ne_crash hbind fun r h₁ _ => ?_
    cases r <;> exact nofun
  cases hx : m.interp.mapAt N c.ks c.l c.body o rest.head? m.heap with
  | ok σ h' =>
    refine ⟨⟨h', σ⟩, Machine.step_of_ok ?_⟩
    unfold Interp.step
    rw [hat.ctl]
    exact hx
  | fail h' => exact (hret.fail hx).elim
  | crash => exact absurd hx hno

end Tidy

/-! ### A call -/

/-- `map` starts in front of the first item, unless it has no name. -/
theorem loopProcMap_ok {σ : Interp S} {args : Addr} {p kli lli bli : Litem} {h h₁ h₂ : Heap F}
    (hargs : IsList h args [p, kli, lli, bli]) (hks : asList N kli.o h = .ok kis h₁)
    (hl : asList N lli.o h₁ = .ok lis h₂) (hne : kis ≠ []) :
    σ.loopProcMap N args h = .ok (σ.goto (.mapAt kli.o lli.o bli.o lis.head? [])) h₂ ∧
      IsList h₂ kli.o kis ∧ IsList h₂ lli.o lis := by
  have hparse : listVparse N args "ollo" true h = .ok [p.o, kli.o, lli.o, bli.o] h₂ := by
    unfold listVparse
    rw [Op.bind_ok (items_ok hargs.lt hargs.items)]
    refine vparseFrom_cons (by decide) rfl ?_
    refine vparseFrom_cons (by decide) (Op.bind_ok hks _) ?_
    exact vparseFrom_cons (by decide) (Op.bind_ok hl _) rfl
  have hks₁ : IsList h₁ kli.o kis := ⟨(asList_linked hks).1, (asList_linked hks).2⟩
  have hl₂ : IsList h₂ lli.o lis := ⟨(asList_linked hl).1, (asList_linked hl).2⟩
  have hconv : (evolve N Converting).Rel h₁ h₂ :=
    (asList_keeps (P := Converting) trivial trivial h₁).ok hl
  have hks₂ : IsList h₂ kli.o kis := isList_kept (fun _ => id) (fun _ => id) hks₁ hconv
  refine ⟨?_, hks₂, hl₂⟩
  unfold Interp.loopProcMap Interp.getArgs getArgsThen
  rw [Op.bind_ok (Op.attempt_ok hparse)]
  dsimp only
  rw [Op.bind_ok (items_ok hks₂.lt hks₂.items), if_neg fun hemp => hne (List.isEmpty_iff.mp hemp),
    Op.bind_ok (items_ok hl₂.lt hl₂.items)]
  rfl

theorem Iterations.kept {nat : Natives N S I} {m m' : Machine F S} {ts : List (Turn F S)}
    (h : Iterations nat c kis lis m ts m') (hk : Kept c kis lis m.heap) : Kept c kis lis m'.heap := by
  induction h with
  | done m => exact hk
  | turn _ _ _ _ _ hkept _ ih => exact ih hkept

/-- What `map` does behind iterations after which it goes on. -/
theorem step_next {nat : Natives N S I} {m m' : Machine F S} {inp : Input I} {n : ℕ} {o : List Addr}
    (hne : kis ≠ []) (hids : (lis.map (·.id)).Nodup) (hk : Kept c kis lis m.heap)
    (hle : n * kis.length ≤ lis.length) (hat : At c (lis.drop (n * kis.length)).head? o m.interp)
    (hstep : m.step nat inp = some m') :
    if (n + 1) * kis.length ≤ lis.length then ∃ li, InBody c li o m'.interp
    else if kis.length ∣ lis.length then Done c o m' else Fails c m' := by
  have hpos : 0 < kis.length := List.length_pos_of_ne_nil hne
  have hlen : lis.length = n * kis.length + (lis.drop (n * kis.length)).length := by
    rw [List.length_drop, Nat.add_sub_cancel' hle]
  rw [Nat.succ_mul]
  by_cases hrest : lis.drop (n * kis.length) = []
  · have hall : lis.length = n * kis.length := by
      rw [hlen, hrest]
      rfl
    rw [hrest] at hat
    obtain ⟨m'', hstep', hdone⟩ := step_end nat inp hat
    obtain rfl := Option.some.inj (hstep.symm.trans hstep')
    rw [if_neg (by omega), if_pos (hall ▸ Dvd.intro_left n rfl)]
    exact hdone
  · have hsplit := List.take_append_drop (n * kis.length) lis
    rw [← hsplit] at hids hk
    have hmore : 0 < (lis.drop (n * kis.length)).length := List.length_pos_of_ne_nil hrest
    rcases step_at hids hrest hat hk hstep with ⟨hle', hin, -, -⟩ | ⟨hlt, hfails⟩
    · rw [if_pos (by omega)]
      exact ⟨_, hin⟩
    · have hnot : ¬ kis.length ∣ lis.length := by
        intro hdvd
        rw [hlen] at hdvd
        have hdvd' := (Nat.dvd_add_right (Dvd.intro_left n rfl)).mp hdvd
        exact Nat.not_le_of_lt hlt (Nat.le_of_dvd hmore hdvd')
      rw [if_neg (by omega), if_neg hnot]
      exact hfails

end Loop

/-- **`map` goes through its list in groups.** If it has a name, it starts in front of the first
group. Whatever its iterations are, each has bound the names to the items of its group, if the
bodies leave the names and the items as they are; and it went on behind all but the last (`Went`).
If it went on behind the last one too, it calls its body for the next group if that is complete, and
else returns the values, or fails if the items do not come out even. After `B6B_BREAK` it returns
the values so far. -/
theorem map_groups (nat : Natives N S I) (c : MapCall) (kis lis : List Litem) (hne : kis ≠ [])
    (hids : (lis.map (·.id)).Nodup) :
    (∀ (σ : Interp S) (args : Addr) (p kli lli bli : Litem) (h h₁ h₂ : Heap F),
      IsList h args [p, kli, lli, bli] → asList N kli.o h = .ok kis h₁ →
      asList N lli.o h₁ = .ok lis h₂ → c = ⟨kli.o, lli.o, bli.o, σ.fg.konts, σ.fg.id⟩ →
      ∃ σ', σ.loopProcMap N args h = .ok σ' h₂ ∧ At c lis.head? [] σ' ∧ Kept c kis lis h₂) ∧
    ∀ (m m' : Machine F S) (ts : List (Turn F S)), At c lis.head? [] m.interp →
      Kept c kis lis m.heap → Iterations nat c kis lis m ts m' →
      Went N c kis lis [] ts m' ∧
      ((∀ t ∈ ts, Loops.goesOn t.res = true) → ∀ inp,
        (∀ m'', m'.step nat inp = some m'' →
          if (ts.length + 1) * kis.length ≤ lis.length then ∃ li, InBody c li (values ts) m''.interp
          else if kis.length ∣ lis.length then Done c (values ts) m'' else Fails c m'') ∧
        (Tidy m'.heap → (∀ p ∈ m'.interp.fg.curr, p.1 < m'.heap.next) →
          ∃ m'', m'.step nat inp = some m'')) ∧
      ∀ t ∈ ts, t.res = .brk → ∀ inp, ∃ m'', m'.step nat inp = some m'' ∧ Done c (values ts) m'' := by
  refine ⟨fun σ args p kli lli bli h h₁ h₂ hargs hks hl hc => ?_, fun m m' ts hat hk hits => ?_⟩
  · subst hc
    obtain ⟨hok, hks₂, hl₂⟩ := loopProcMap_ok (σ := σ) hargs hks hl hne
    exact ⟨_, hok, ⟨rfl, rfl, rfl⟩, hks₂, hl₂⟩
  have hwent := iterations_went hids hits [] lis [] rfl hat hk
  have hk' := hits.kept hk
  refine ⟨hwent, fun hall inp => ⟨fun m'' hstep => ?_, fun ht hcurr => ?_⟩, fun t ht hbrk inp => ?_⟩
  · obtain ⟨hle, hat'⟩ := hwent.here hall
    exact step_next hne hids hk' hle hat' hstep
  · obtain ⟨hle, hat'⟩ := hwent.here hall
    by_cases hrest : lis.drop (ts.length * kis.length) = []
    · rw [hrest] at hat'
      obtain ⟨m'', hstep, -⟩ := step_end nat inp hat'
      exact ⟨m'', hstep⟩
    · have hsplit := List.take_append_drop (ts.length * kis.length) lis
      rw [← hsplit] at hids hk'
      exact step_at_some hids hrest hat' hk' ht hcurr inp
  · exact step_end nat inp (hwent.broken t ht hbrk)

/-- Where `map` is, if it is in front of an item. -/
def atItem? (σ : Interp S) : Option (MapCall × Litem × List Addr) :=
  match σ.fg.ctl with
  | .mapAt ks l b (some li) o => some (⟨ks, l, b, σ.fg.konts, σ.fg.id⟩, li, o)
  | _ => none

theorem at_of_eq_some {σ : Interp S} {c : MapCall} {li : Litem} {o : List Addr}
    (h : atItem? σ = some (c, li, o)) : At c (some li) o σ := by
  unfold atItem? at h
  split at h
  next ks l b li' o' hctl =>
    obtain ⟨rfl, rfl, rfl⟩ := Option.some.inj h
    exact ⟨rfl, hctl, rfl⟩
  next => cases h

instance (h : Heap F) (l : Addr) (lis : List Litem) : Decidable (IsList h l lis) :=
  decidable_of_iff (l < h.next ∧ (h.obj l).l = some lis) ⟨fun h => ⟨h.1, h.2⟩, fun h => ⟨h.lt, h.items⟩⟩

/-- `map` of a program that consists of one, in front of the first item. -/
def firstItem (text : String) : Option (Machine ℤ Unit) :=
  (wholeStart shortNames text).bind fun m₀ => Runs.run wholeStep m₀ (quiet 18)

/-- Three items for two names: `map` fails behind the first group. -/
theorem map_groups_odd : ∃ (m m' m'' : Machine ℤ Unit) (c : MapCall) (kis lis : List Litem)
    (t : Turn ℤ Unit), firstItem "{$m {X Y} {1 2 3} {{$o}}}" = some m ∧ kis.length = 2 ∧ lis.length = 3 ∧
      Iterations (Natives.none wholeNum) c kis lis m [t] m' ∧
      wholeStep m' ⟨(), true, none⟩ = some m'' ∧ Fails c m'' := by
  have hrun : ((firstItem "{$m {X Y} {1 2 3} {{$o}}}").bind fun m => (atItem? m.interp).bind fun a =>
      (m.heap.obj a.1.ks).l.bind fun kis => (m.heap.obj a.1.l).l.bind fun lis =>
      (wholeStep m ⟨(), true, none⟩).bind fun m₁ =>
      (callResult (Natives.none wholeNum) m₁ (quiet 20)).bind fun p =>
      (wholeStep p.1 ⟨(), true, none⟩).bind fun m₃ =>
      (wholeStep m₃ ⟨(), true, none⟩).map fun m₄ => (m, a, kis, lis, m₁, p, m₃, m₄)).any
        (fun (m, a, kis, lis, m₁, p, m₃, m₄) => decide (kis.length = 2 ∧ lis.length = 3 ∧
          (lis.map (·.id)).Nodup ∧ lis.head? = some a.2.1 ∧ a.2.2 = [] ∧
          IsList m.heap a.1.ks kis ∧ IsList m.heap a.1.l lis ∧ Calls m₁.interp a.1.body ∧ p.2 = .ok ∧
          IsList m₃.heap a.1.ks kis ∧ IsList m₃.heap a.1.l lis)) = true := by
    decide +kernel
  obtain ⟨p, hp, hreads⟩ := (Option.any_eq_true _ _).mp hrun
  obtain ⟨m, hm, hp⟩ := Option.bind_eq_some_iff.mp hp
  obtain ⟨⟨c, li, o⟩, ha, hp⟩ := Option.bind_eq_some_iff.mp hp
  obtain ⟨kis, -, hp⟩ := Option.bind_eq_some_iff.mp hp
  obtain ⟨lis, -, hp⟩ := Option.bind_eq_some_iff.mp hp
  obtain ⟨m₁, hbind, hp⟩ := Option.bind_eq_some_iff.mp hp
  obtain ⟨⟨m₂, res⟩, hcall, hp⟩ := Option.bind_eq_some_iff.mp hp
  obtain ⟨m₃, hback, hp⟩ := Option.bind_eq_some_iff.mp hp
  obtain ⟨m₄, hlast, rfl⟩ := Option.map_eq_some_iff.mp hp
  obtain ⟨hkis, hlis, hids, hhead, rfl, hks, hl, hbody, rfl, hks₃, hl₃⟩ := of_decide_eq_true hreads
  have hat : At c (some li) [] m.interp := at_of_eq_some ha
  have hits : Iterations (Natives.none wholeNum) c kis lis m [⟨m, m₁, .ok, m₂.interp.fg.ret⟩] m₃ :=
    .turn hat hbind hbody hcall hback ⟨hks₃, hl₃⟩ (.done m₃)
  have hne : kis ≠ [] := List.ne_nil_of_length_pos (hkis ▸ Nat.zero_lt_two)
  have hall := (map_groups (Natives.none wholeNum) c kis lis hne hids).2 m m₃ _ (hhead ▸ hat)
    ⟨hks, hl⟩ hits
  have hgo : ∀ t ∈ [(⟨m, m₁, .ok, m₂.interp.fg.ret⟩ : Turn ℤ Unit)], Loops.goesOn t.res = true :=
    List.forall_mem_singleton.mpr rfl
  have hfails := (hall.2.1 hgo ⟨(), true, none⟩).1 m₄ hlast
  rw [hkis, hlis, List.length_singleton, if_neg (by decide), if_neg (by decide)] at hfails
  exact ⟨m, m₃, m₄, c, kis, lis, _, hm, hkis, hlis, hits, hlast, hfails⟩

end Groups

end B6b
