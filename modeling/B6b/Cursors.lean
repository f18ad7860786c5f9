/-
# Loops over a list that is changed

`map` fetches its next item before it runs its body, `b6b_call` and `b6b_stmt_call` fetch
theirs behind the code that they run. All of them follow the item that they have, so it has to
be in its list still, and the list has to be there (`Held`). `list.append` and `list.extend`
keep every item of a list with its object. `list.pop` and `dict.unset` keep all but those that
they remove (`removes`), `dict.set` gives one item another object (`replaces`), whichever fiber
runs them. A run in which these spare the loops keeps them all: `cursors_linked`.

Key definitions: `keepsBut`, `removes`, `replaces`, `AllLinked`, `AllHeld`, `Spares`.
-/
import B6b.Held
import B6b.Nesting

namespace B6b

variable {F S I : Type} {N : Num F}

namespace Cursors

/-! ### What keeps the items of lists -/

/-- The items of lists stay, except for `R`, with their objects, except for `Q`. -/
def keepsBut (F : Type) (R Q : Cursor → Prop) : Op.Frame (Heap F) where
  Rel h h' := ∀ l li, ItemOf h l li → ¬ R (l, li.id) →
    ∃ li', ItemOf h' l li' ∧ li'.id = li.id ∧ (¬ Q (l, li.id) → li'.o = li.o)
  refl _ _ li hli _ := ⟨li, hli, rfl, fun _ => rfl⟩
  trans h₁ h₂ l li hli hR := by
    obtain ⟨li₁, hli₁, hid₁, ho₁⟩ := h₁ l li hli hR
    obtain ⟨li₂, hli₂, hid₂, ho₂⟩ := h₂ l li₁ hli₁ (hid₁ ▸ hR)
    exact ⟨li₂, hli₂, hid₂.trans hid₁, fun hQ => (ho₂ (hid₁ ▸ hQ)).trans (ho₁ hQ)⟩

/-- A list is not changed in place. -/
def Mild (t : Touch) : Prop := ∀ a, t ≠ .change a ∧ t ≠ .pop a

theorem mild_conv : Mild .conv := fun _ => ⟨nofun, nofun⟩

theorem mild_build : Mild .build := fun _ => ⟨nofun, nofun⟩

theorem mild_list (a : Addr) : Mild (.list a) := fun _ => ⟨nofun, nofun⟩

section Keeps

variable {α : Type} {R Q : Cursor → Prop} {h h' : Heap F}

/-- A change that touches no list in place keeps all items. -/
theorem keepsBut_of_evolve {P : Touch → Prop} (hP : ∀ t, P t → Mild t) (hr : (evolve N P).Rel h h') :
    (keepsBut F R Q).Rel h h' := fun l li hli _ =>
  ⟨li, hli.evolve hr (fun hc => (hP _ hc l).1 rfl) fun hp => (hP _ hp l).2 rfl, rfl, fun _ => rfl⟩

theorem keeps_of_mild {x : Op (Heap F) α} (hx : Op.KeepsAt (evolve N Mild) x h) :
    Op.KeepsAt (keepsBut F R Q) x h :=
  hx.mono (fun _ _ => keepsBut_of_evolve fun _ => id) fun _ => keepsBut_of_evolve fun _ => id

/-- A list has other items, in which those that stay are found again. -/
theorem keepsBut_set {l : Addr} {o : Obj F} {lis lis' : List Litem} (n : ℕ)
    (hl : (h.obj l).l = some lis) (ho : o.l = some lis')
    (hids : ∀ li ∈ lis, ¬ R (l, li.id) →
      ∃ li' ∈ lis', li'.id = li.id ∧ (¬ Q (l, li.id) → li'.o = li.o)) :
    (keepsBut F R Q).Rel h ((h.withLi n).set l o) := by
  rintro a li ⟨hlt, lis₀, hlis₀, hmem⟩ hR
  by_cases ha : a = l
  · subst ha
    obtain rfl := Option.some.inj (hl.symm.trans hlis₀)
    obtain ⟨li', hli', hid, ho'⟩ := hids li hmem hR
    refine ⟨li', ⟨hlt, lis', ?_, hli'⟩, hid, ho'⟩
    rw [Heap.set_obj_self]
    exact ho
  · refine ⟨li, ⟨hlt, lis₀, ?_, hmem⟩, rfl, fun _ => rfl⟩
    rw [Heap.set_obj_of_ne _ _ ha]
    exact hlis₀

/-- Items that stay as they are. -/
theorem keepsBut_sub {l : Addr} {o : Obj F} {lis lis' : List Litem} (n : ℕ)
    (hl : (h.obj l).l = some lis) (ho : o.l = some lis') (hsub : ∀ li ∈ lis, ¬ R (l, li.id) → li ∈ lis') :
    (keepsBut F R Q).Rel h ((h.withLi n).set l o) :=
  keepsBut_set n hl ho fun li hli hR => ⟨li, hsub li hli hR, rfl, fun _ => rfl⟩

end Keeps

/-! ### The operations on lists -/

section Lists

variable {R Q : Cursor → Prop}

theorem items_linked (l : Addr) : Op.Keeps (keepsBut F R Q) (items l) := fun h =>
  (items_returns l h).mono fun _ _ hq => hq.1 ▸ (keepsBut F R Q).refl h

theorem listFlush_linked (l : Addr) : Op.Keeps (keepsBut F R Q) (listFlush l) := by
  intro h
  refine Op.returns_bind (items_returns l h) ?_
  rintro lis _ ⟨rfl, -, hl⟩
  exact keepsBut_sub h.nextLi hl rfl fun li hli _ => hli

theorem listDoAdd_linked (l o : Addr) : Op.Keeps (keepsBut F R Q) (listDoAdd l o) := by
  intro h
  refine Op.returns_bind (items_returns l h) ?_
  rintro lis _ ⟨rfl, -, hl⟩
  exact keepsBut_sub (h.nextLi + 1) hl rfl fun li hli _ => List.mem_append_left _ hli

theorem listAdd_linked (l o : Addr) : Op.Keeps (keepsBut F R Q) (listAdd l o) :=
  Op.keeps_bind (listDoAdd_linked l o) fun _ => listFlush_linked l

theorem listExtendFrom_linked (l l2 : Addr) : ∀ fuel k,
    Op.Keeps (keepsBut F R Q) (listExtendFrom l l2 fuel k)
  | 0, _ => Op.keeps_crash
  | fuel + 1, k => by
    refine Op.keeps_bind (items_linked l2) fun lis => ?_
    cases lis[k]? with
    | none => exact Op.keeps_pure _
    | some li => exact Op.keeps_bind (listDoAdd_linked l li.o) fun _ => listExtendFrom_linked l l2 fuel (k + 1)

theorem listExtend_linked (l l2 : Addr) : Op.Keeps (keepsBut F R Q) (listExtend l l2) :=
  Op.keeps_bind (items_linked l2) fun lis =>
    Op.keeps_bind (listExtendFrom_linked l l2 (lis.length + 1) 0) fun _ => listFlush_linked l

/-- Only the item `li` is removed. -/
theorem listRemove_linked (l : Addr) {li : Litem} (hR : R (l, li.id)) :
    Op.Keeps (keepsBut F R Q) (listRemove l li) := by
  intro h
  refine Op.returns_bind (items_returns l h) ?_
  rintro lis _ ⟨rfl, -, hl⟩
  refine keepsBut_sub h.nextLi hl rfl fun li' hli' hR' => ?_
  exact (List.mem_erase_of_ne fun heq : li' = li => hR' (heq ▸ hR)).mpr hli'

theorem listPop_linked (l : Addr) {li : Litem} (hR : R (l, li.id)) :
    Op.Keeps (keepsBut F R Q) (listPop l (some li)) :=
  Op.keeps_bind (items_linked l) fun _ => Op.keeps_bind (listRemove_linked l hR) fun _ =>
    Op.keeps_bind (listFlush_linked l) fun _ => Op.keeps_pure _

/-- A value is replaced in its place. -/
theorem setItem_linked (d : Addr) {vli : Litem} (v : Addr) (hQ : Q (d, vli.id)) :
    Op.Keeps (keepsBut F R Q) (setItem d vli v) := by
  intro h
  refine Op.returns_bind (items_returns d h) ?_
  rintro lis _ ⟨rfl, -, hl⟩
  refine keepsBut_set h.nextLi hl rfl fun li hli _ => ⟨_, List.mem_map_of_mem hli, ?_⟩
  split
  · next heq => exact ⟨rfl, fun hnot => absurd (heq ▸ hQ) hnot⟩
  · exact ⟨rfl, fun _ => rfl⟩

/-- The search of `b6b_dict_set`. -/
def dictSetFind (N : Num F) (d k : Addr) : Op (Heap F) (Option Litem) := do
  objHash N k
  let lis ← items d
  dictSetSeek N k lis

theorem dictSetFind_mild (d k : Addr) : Op.Keeps (evolve N Mild) (dictSetFind N d k) :=
  Op.keeps_bind (objHash_keeps mild_conv k) fun _ => Op.keeps_bind (items_keeps d) fun lis =>
    dictSetSeek_keeps mild_conv k lis

theorem dictSet_eq (d k v : Addr) : dictSet N d k v = (do
    match ← dictSetFind N d k with
    | some vli =>
      setItem d vli v
      listFlush d
    | none =>
      listAdd d k
      listAdd d v) := by
  unfold dictSet dictSetFind
  rw [Op.bind_assoc]
  exact Op.bind_congr fun _ => (Op.bind_assoc _ _ _).symm

/-- Only the value that is found is replaced. -/
theorem dictSet_linked (d k v : Addr) (h : Heap F)
    (hQ : ∀ vli h', dictSetFind N d k h = .ok (some vli) h' → Q (d, vli.id)) :
    Op.KeepsAt (keepsBut F R Q) (dictSet N d k v) h := by
  rw [dictSet_eq]
  refine Op.keepsAt_bind (keeps_of_mild (dictSetFind_mild d k h)) fun r h₁ hr => ?_
  cases r with
  | some vli => exact Op.keeps_bind (setItem_linked d v (hQ vli h₁ hr)) (fun _ => listFlush_linked d) h₁
  | none => exact Op.keeps_bind (listAdd_linked d k) (fun _ => listAdd_linked d v) h₁

/-- The search of `b6b_dict_unset`. -/
def dictFind (N : Num F) (d k : Addr) : Op (Heap F) (Option (Litem × Litem)) := do
  objHash N k
  let lis ← items d
  dictSeek N k lis

theorem dictFind_mild (d k : Addr) : Op.Keeps (evolve N Mild) (dictFind N d k) :=
  Op.keeps_bind (objHash_keeps mild_conv k) fun _ => Op.keeps_bind (items_keeps d) fun lis =>
    dictSeek_keeps mild_conv k lis

theorem dictUnset_eq (d k : Addr) : dictUnset N d k = dictFind N d k >>= fun
    | some (kli, vli) => do
      let _ ← listPop d (some kli)
      let _ ← listPop d (some vli)
      pure ()
    | none => pure () := by
  unfold dictUnset dictFind
  rw [Op.bind_assoc]
  exact Op.bind_congr fun _ => (Op.bind_assoc _ _ _).symm

/-- Only the key that is found and its value are removed. -/
theorem dictUnset_linked (d k : Addr) (h : Heap F)
    (hR : ∀ kli vli h', dictFind N d k h = .ok (some (kli, vli)) h' → R (d, kli.id) ∧ R (d, vli.id)) :
    Op.KeepsAt (keepsBut F R Q) (dictUnset N d k) h := by
  rw [dictUnset_eq]
  refine Op.keepsAt_bind (keeps_of_mild (dictFind_mild d k h)) fun r h₁ hr => ?_
  rcases r with _ | ⟨kli, vli⟩
  · exact Op.keeps_pure _ h₁
  · obtain ⟨hk, hv⟩ := hR kli vli h₁ hr
    exact Op.keeps_bind (listPop_linked d hk) (fun _ =>
      Op.keeps_bind (listPop_linked d hv) fun _ => Op.keeps_pure _) h₁

theorem orErr_linked {x : Op (Heap F) Reply} {h : Heap F} (hx : Op.KeepsAt (keepsBut F R Q) x h) :
    Op.KeepsAt (keepsBut F R Q) (orErr x) h := by
  refine Op.keepsAt_bind (Op.keepsAt_attempt hx) fun r h₁ _ => ?_
  cases r with
  | none => exact Op.keeps_pure _ h₁
  | some r => exact Op.keeps_pure _ h₁

end Lists

/-! ### The items that a step removes -/

/-- The item that `list.pop` removes. -/
def popRemoves (N : Num F) (args : Addr) (h : Heap F) : List Cursor :=
  match listVparse N args "oli" true h with
  | .ok [_, l, i] h =>
    match (h.obj i).i with
    | some n => if n < 0 then [] else (((h.obj l).l.getD [])[n.toNat]?.map fun li => (l, li.id)).toList
    | none => []
  | _ => []

/-- The key and the value that `dict.unset` removes. -/
def unsetRemoves (N : Num F) (args : Addr) (h : Heap F) : List Cursor :=
  match listVparse N args "olo" true h with
  | .ok [_, d, k] h =>
    match dictFind N d k h with
    | .ok (some (kli, vli)) _ => [(d, kli.id), (d, vli.id)]
    | _ => []
  | _ => []

/-- The item whose object `dict.set` replaces. -/
def setReplaces (N : Num F) (args : Addr) (h : Heap F) : List Cursor :=
  match listVparse N args "oloo" true h with
  | .ok [_, d, k, _] h =>
    match dictSetFind N d k h with
    | .ok (some vli) _ => [(d, vli.id)]
    | _ => []
  | _ => []

/-- The items that the procedure `p` removes, called with `args`. -/
def procRemoves (N : Num F) (p : Proc) (args : Addr) (h : Heap F) : List Cursor :=
  match p with
  | .builtin .listPop => popRemoves N args h
  | .builtin .dictUnset => unsetRemoves N args h
  | _ => []

/-- The items whose objects it replaces. -/
def procReplaces (N : Num F) (p : Proc) (args : Addr) (h : Heap F) : List Cursor :=
  match p with
  | .builtin .dictSet => setReplaces N args h
  | _ => []

/-- What `f` says of the procedure that the next step calls. -/
def ofCalled (f : Proc → Addr → Heap F → List Cursor) (m : Machine F S) : List Cursor :=
  match m.interp.fg.ctl with
  | .invoke args =>
    match (m.heap.obj args).l with
    | some (li :: _) => f (m.heap.obj li.o).proc args m.heap
    | _ => []
  | _ => []

/-- The items that the next step removes from their lists. -/
def removes (N : Num F) (m : Machine F S) : List Cursor := ofCalled (procRemoves N) m

/-- The items whose objects the next step replaces. -/
def replaces (N : Num F) (m : Machine F S) : List Cursor := ofCalled (procReplaces N) m

section Procs

variable {R Q : Cursor → Prop} {args : Addr} {h : Heap F}

theorem vparse_mild (fmt : String) (skip : Bool) : Op.Keeps (evolve N Mild) (listVparse N args fmt skip) :=
  Op.keeps_bind (items_keeps args) fun lis =>
    vparseFrom_keeps mild_conv fmt.toList lis false skip fun a _ => mild_list a

/-- A procedure whose body keeps the items. -/
theorem getArgs_linked {fmt : String} {body : List Addr → Op (Heap F) Reply}
    (hbody : ∀ xs h₁, listVparse N args fmt true h = .ok xs h₁ → Op.KeepsAt (keepsBut F R Q) (body xs) h₁) :
    Op.KeepsAt (keepsBut F R Q) (getArgs N args fmt body) h := by
  have hparse : Op.Keeps (evolve N Mild) (listVparse N args fmt true) := vparse_mild fmt true
  refine Op.keepsAt_bind (keeps_of_mild (Op.keeps_attempt hparse h)) fun r h₁ hr => ?_
  cases r with
  | some xs => exact hbody xs h₁ (Op.attempt_eq_some hr)
  | none =>
    refine Op.keepsAt_bind (keeps_of_mild (badCall_keeps mild_conv args fmt h₁)) fun m h₂ _ => ?_
    exact Op.keeps_pure _ h₂

theorem listProcAppend_linked : Op.KeepsAt (keepsBut F R Q) (listProcAppend N args) h := by
  refine getArgs_linked fun xs h₁ _ => ?_
  split
  · exact Op.keeps_bind (listAdd_linked _ _) (fun _ => Op.keeps_pure _) h₁
  · exact Op.keeps_crash h₁

theorem listProcExtend_linked : Op.KeepsAt (keepsBut F R Q) (listProcExtend N args) h := by
  refine getArgs_linked fun xs h₁ _ => ?_
  split
  · exact Op.keeps_bind (listExtend_linked _ _) (fun _ => Op.keeps_pure _) h₁
  · exact Op.keeps_crash h₁

theorem dictProcSet_linked (hQ : ∀ c ∈ setReplaces N args h, Q c) :
    Op.KeepsAt (keepsBut F R Q) (dictProcSet N args) h := by
  refine getArgs_linked fun xs h₁ hxs => ?_
  split
  · next d k v =>
    unfold setReplaces at hQ
    rw [hxs] at hQ
    refine orErr_linked (Op.keepsAt_bind (dictSet_linked d k v h₁ fun vli h₂ hfind => ?_) fun _ h₂ _ =>
      Op.keeps_pure _ h₂)
    dsimp only at hQ
    rw [hfind] at hQ
    exact hQ _ List.mem_cons_self
  · exact Op.keeps_crash h₁

theorem intOf_value (a : Addr) (h : Heap F) :
    Op.Returns (intOf a) h fun n h' => h = h' ∧ (h.obj a).i = some n := by
  refine ends_load_bind fun _ => ?_
  cases hi : (h.obj a).i with
  | none => exact Op.ends_crash
  | some n => exact Op.ends_pure ⟨rfl, rfl⟩

theorem listProcPop_linked (hR : ∀ c ∈ popRemoves N args h, R c) :
    Op.KeepsAt (keepsBut F R Q) (listProcPop N args) h := by
  refine getArgs_linked fun xs h₁ hxs => ?_
  split
  · next l i =>
    unfold popRemoves at hR
    rw [hxs] at hR
    dsimp only at hR
    refine Op.returns_bind (intOf_value i h₁) ?_
    rintro n _ ⟨rfl, hn⟩
    rw [hn] at hR
    split
    · exact Op.keeps_pure _ h₁
    · next hpos =>
      refine Op.returns_bind (items_returns l h₁) ?_
      rintro lis _ ⟨rfl, -, hl⟩
      cases hli : lis[n.toNat]? with
      | some li =>
        have hmem : (l, li.id) ∈ (if n < 0 then []
            else (((h₁.obj l).l.getD [])[n.toNat]?.map fun li => (l, li.id)).toList) := by
          rw [if_neg hpos, hl, Option.getD_some, hli]
          exact List.mem_singleton.mpr rfl
        exact Op.keeps_bind (listRemove_linked l (hR _ hmem)) (fun _ => Op.keeps_pure _) h₁
      | none =>
        dsimp only
        split
        · exact Op.keeps_bind (fun h => keeps_of_mild (returnStr_keeps (N := N) mild_conv _ h))
            (fun _ => Op.keeps_pure _) h₁
        · exact Op.keeps_pure _ h₁
  · exact Op.keeps_crash h₁

theorem dictProcUnset_linked (hR : ∀ c ∈ unsetRemoves N args h, R c) :
    Op.KeepsAt (keepsBut F R Q) (dictProcUnset N args) h := by
  refine getArgs_linked fun xs h₁ hxs => ?_
  split
  · next d k =>
    unfold unsetRemoves at hR
    rw [hxs] at hR
    refine orErr_linked (Op.keepsAt_bind (dictUnset_linked d k h₁ fun kli vli h₂ hfind => ?_) fun _ h₂ _ =>
      Op.keeps_pure _ h₂)
    dsimp only at hR
    rw [hfind] at hR
    exact ⟨hR _ List.mem_cons_self, hR _ (List.mem_cons_of_mem _ List.mem_cons_self)⟩
  · exact Op.keeps_crash h₁

end Procs

/-! ### One step -/

theorem calls_of_ctlTouches {nat : Natives N S I} {h : Heap F} {t : Touch} {c : Ctl S}
    (ht : CtlTouches nat h t c) (hnot : ¬ Mild t) : ∃ args li lis b, c = .invoke args ∧
      (h.obj args).l = some (li :: lis) ∧ (h.obj li.o).proc = .builtin b ∧ b.Touches (li :: lis) t := by
  have hlist : ∀ a, t ≠ .list a := fun a ha => hnot (ha ▸ mild_list a)
  cases c with
  | call stmts => exact absurd ht (hlist stmts)
  | stmt stmt => exact absurd ht (hlist stmt)
  | invoke args =>
    change InvokeTouches h args ((h.obj args).l.getD []) t at ht
    rcases hl : (h.obj args).l with _ | _ | ⟨li, lis⟩ <;> rw [hl] at ht
    · exact ht.elim
    · exact ht.elim
    · unfold InvokeTouches at ht
      dsimp only [Option.getD_some] at ht
      cases hproc : (h.obj li.o).proc with
      | builtin b =>
        rw [hproc] at ht
        exact ⟨args, li, lis, b, rfl, hl, hproc, ht⟩
      | user body priv =>
        rw [hproc] at ht
        exact absurd ht (hlist args)
      | obj | native =>
        rw [hproc] at ht
        exact ht.elim
  | native s y =>
    cases t with
    | conv => exact absurd mild_conv hnot
    | build => exact absurd mild_build hnot
    | list a => exact absurd rfl (hlist a)
    | change | pop => exact ht.elim
  | _ => exact ht.elim

/-- Only a procedure changes a list in place. -/
theorem calls_of_not_mild {nat : Natives N S I} {m : Machine F S}
    (hm : ¬ ∀ t, m.Touches nat t → Mild t) : ∃ args li lis b, m.interp.fg.ctl = .invoke args ∧
      (m.heap.obj args).l = some (li :: lis) ∧ (m.heap.obj li.o).proc = .builtin b ∧
      (b.changes = true ∨ b = .listPop) := by
  push Not at hm
  obtain ⟨t, ht, hnot⟩ := hm
  cases t with
  | conv => exact absurd mild_conv hnot
  | build => exact absurd mild_build hnot
  | list a => exact absurd (mild_list a) hnot
  | change a =>
    obtain ⟨args, li, lis, b, hctl, hl, hproc, hb⟩ := calls_of_ctlTouches ht hnot
    exact ⟨args, li, lis, b, hctl, hl, hproc, .inl hb.1⟩
  | pop a =>
    obtain ⟨args, li, lis, b, hctl, hl, hproc, hb⟩ := calls_of_ctlTouches ht hnot
    exact ⟨args, li, lis, b, hctl, hl, hproc, .inr hb.1⟩

/-- So does a call of a procedure that changes a list in place. -/
theorem builtin_linked (σ : Interp S) (inp : Input I) {args : Addr} {b : Builtin} {h : Heap F}
    (hb : b.changes = true ∨ b = .listPop) :
    Op.KeepsAt (keepsBut F (· ∈ procRemoves N (.builtin b) args h) (· ∈ procReplaces N (.builtin b) args h))
      (σ.builtin N inp args b) h := by
  have finish : ∀ {x : Op (Heap F) Reply} {R Q : Cursor → Prop}, Op.KeepsAt (keepsBut F R Q) x h →
      Op.KeepsAt (keepsBut F R Q) (do
        let r ← x
        pure (σ.finish r)) h := fun hx => Op.keepsAt_bind hx fun _ h₁ _ => Op.keeps_pure _ h₁
  cases b with
  | listAppend => exact finish listProcAppend_linked
  | listExtend => exact finish listProcExtend_linked
  | dictSet => exact finish (dictProcSet_linked fun _ => id)
  | listPop => exact finish (listProcPop_linked fun _ => id)
  | dictUnset => exact finish (dictProcUnset_linked fun _ => id)
  | _ => exact absurd hb (by decide)

theorem ofCalled_eq {m : Machine F S} {args : Addr} {li : Litem} {lis : List Litem} {p : Proc}
    (hctl : m.interp.fg.ctl = .invoke args) (hl : (m.heap.obj args).l = some (li :: lis))
    (hproc : (m.heap.obj li.o).proc = p) (f : Proc → Addr → Heap F → List Cursor) :
    ofCalled f m = f p args m.heap := by
  unfold ofCalled
  simp only [hctl, hl, hproc]

/-- The items of lists stay with their objects, unless the step removes or replaces them. -/
theorem step_linked (nat : Natives N S I) (m : Machine F S) (inp : Input I) :
    Op.KeepsAt (keepsBut F (· ∈ removes N m) (· ∈ replaces N m)) (m.interp.step nat inp) m.heap := by
  by_cases hmild : ∀ t, m.Touches nat t → Mild t
  · exact (m.step_keepsAt nat inp).mono (fun _ _ => keepsBut_of_evolve hmild)
      fun _ => keepsBut_of_evolve hmild
  · obtain ⟨args, li, lis, b, hctl, hl, hproc, hb⟩ := calls_of_not_mild hmild
    have hremoves : removes N m = procRemoves N (.builtin b) args m.heap := ofCalled_eq hctl hl hproc _
    have hreplaces : replaces N m = procReplaces N (.builtin b) args m.heap := ofCalled_eq hctl hl hproc _
    unfold Interp.step Interp.invoke
    rw [hctl, hremoves, hreplaces]
    refine Op.returns_bind (items_returns args m.heap) ?_
    rintro lis' _ ⟨rfl, -, hl'⟩
    obtain rfl := Option.some.inj (hl.symm.trans hl')
    refine ends_load_bind fun _ => ?_
    rw [hproc]
    exact builtin_linked m.interp inp hb

section Steps

variable {nat : Natives N S I} {m m' : Machine F S} {inp : Input I}

theorem item_of_step (hstep : m.step nat inp = some m') {l : Addr} {li : Litem} (hli : ItemOf m.heap l li)
    (hR : (l, li.id) ∉ removes N m) : ∃ li', ItemOf m'.heap l li' ∧ li'.id = li.id ∧
      ((l, li.id) ∉ replaces N m → li'.o = li.o) :=
  (step_linked nat m inp).ok (Machine.step_eq_some hstep) l li hli hR

theorem linked_of_step (hstep : m.step nat inp = some m') {c : Cursor} (hc : Linked m.heap c)
    (hR : c ∉ removes N m) : Linked m'.heap c := by
  obtain ⟨hlt, lis, hl, hmem⟩ := hc
  obtain ⟨li, hli, hid⟩ := List.mem_map.mp hmem
  have hR' : (c.1, li.id) ∉ removes N m := by rwa [hid]
  obtain ⟨li', hli', hid', -⟩ := item_of_step hstep ⟨hlt, lis, hl, hli⟩ hR'
  have hlinked := hli'.linked
  rwa [hid', hid] at hlinked

/-- A procedure stays what it is. -/
theorem proc_of_step (hstep : m.step nat inp = some m') {a : Addr} (ha : a < m.heap.next) :
    a < m'.heap.next ∧ (m'.heap.obj a).proc = (m.heap.obj a).proc :=
  evolve_invariant (I := fun h => a < h.next ∧ (h.obj a).proc = (m.heap.obj a).proc)
    (fun _ _ _ _ he hi => ⟨Nat.lt_of_lt_of_le hi.1 he.next_le, (he.proc_kept hi.1).trans hi.2⟩)
    ((m.step_keepsAt nat inp).ok (Machine.step_eq_some hstep)) ⟨ha, rfl⟩

end Steps

/-! ### Every run -/

/-- The items that the loops of all fibers use next are in their lists. -/
def AllLinked (m : Machine F S) : Prop := ∀ t ∈ m.interp.fibers, ∀ c ∈ t.cursors, Linked m.heap c

/-- The lists of all loops that may be freed are held. -/
def AllHeld (m : Machine F S) : Prop := ∀ t ∈ m.interp.fibers, ∀ l ∈ t.lends, l.Holds m.heap

/-- The calls of all fibers sit on each other as they should, and the lists of their loops are
held. -/
def AllKept (m : Machine F S) : Prop := ∀ t ∈ m.interp.fibers, Kept m.heap t

/-- What holds the list is none of the items `cs`. -/
def Spared (h : Heap F) (cs : List Cursor) : Lend → Prop
  | .item stmts id _ => (stmts, id) ∉ cs
  | .proc args body => ∀ li ∈ (h.obj args).l.getD [], (args, li.id) ∈ cs →
      (h.obj li.o).proc.body ≠ some body

/-- The step removes no item that a loop is at, and it neither removes nor replaces what holds the
list of a loop: the statement that `b6b_stmt_call` goes through, the procedure whose body
`b6b_call` goes through in the arguments of its call. -/
structure Spares (N : Num F) (m : Machine F S) : Prop where
  cursors : ∀ c ∈ removes N m, ∀ t ∈ m.interp.fibers, c ∉ t.cursors
  lends : ∀ t ∈ m.interp.fibers, ∀ l ∈ t.lends, Spared m.heap (removes N m ++ replaces N m) l

section Turns

variable {h h' : Heap F} {σ : Interp S} {u : Fiber S}

theorem mem_cursors {t : Fiber S} {c : Cursor} :
    c ∈ t.cursors ↔ t.ctl.cursor = some c ∨ ∃ k ∈ t.konts, k.cursor = some c := by
  rw [Fiber.cursors, List.mem_append, Option.mem_toList, List.mem_filterMap]

theorem mem_of_rest {t : Fiber S} {k : Kont} (hk : k ∈ t.rest) : k ∈ t.konts := by
  unfold Fiber.rest at hk
  split at hk
  · exact List.mem_of_mem_tail hk
  · exact hk

/-- Every cursor behind a turn was there before it, or is linked. -/
theorem cursors_turn (ht : Interp.Turn N h h' σ u) {c : Cursor} (hc : c ∈ u.cursors) :
    c ∈ σ.fg.cursors ∨ Linked h' c := by
  have hrest : ∀ k ∈ σ.fg.rest, k.cursor = some c → c ∈ σ.fg.cursors ∨ Linked h' c :=
    fun k hk hcur => .inl (mem_cursors.mpr (.inr ⟨k, mem_of_rest hk, hcur⟩))
  have hold : σ.fg.ctl.cursor = some c → c ∈ σ.fg.cursors ∨ Linked h' c :=
    fun hcur => .inl (mem_cursors.mpr (.inl hcur))
  rcases mem_cursors.mp hc with hctl | ⟨k, hk, hcur⟩
  · cases ht with
    | plain _ _ _ _ _ hplain =>
      rw [Ctl.cursor_of_plain hplain] at hctl
      cases hctl
    | finished res _ _ hc' =>
      rcases hc' with hc' | hc' <;> rw [hc'] at hctl <;> cases hctl
    | callAt stmts li _ _ _ hc' hli =>
      rw [hc'] at hctl
      exact .inr (hli.linked hctl)
    | enter stmt lis _ _ _ _ hc' hlis =>
      rw [hc'] at hctl
      obtain ⟨hlt, hl⟩ := asList_linked hlis
      exact .inr ((linkedAt_head hlt hl).linked hctl)
    | next stmt li li' vs v _ _ _ _ hc' hli =>
      rw [hc'] at hctl
      exact .inr (hli.linked hctl)
    | mapAt ks l b li r _ _ _ hc' hli =>
      rw [hc'] at hctl
      exact hli c hctl
    | proc _ _ _ _ _ hc' | stmt _ _ _ _ hc' | arg _ _ _ _ _ hc' | invoke _ _ _ _ _ _ hc'
    | mapBody _ _ _ _ _ _ _ _ hc' =>
      rw [hc'] at hctl
      cases hctl
  · cases ht with
    | plain new _ _ hk' hnew _ =>
      rw [hk'] at hk
      rcases List.mem_append.mp hk with hk | hk
      · rw [Kont.cursor_of_plain (hnew k hk)] at hcur
        cases hcur
      · exact hrest k hk hcur
    | proc args body _ _ hk' =>
      rw [hk'] at hk
      rcases List.mem_cons.mp hk with rfl | hk
      · cases hcur
      · exact hrest k hk hcur
    | finished _ _ hk' | callAt _ _ _ _ hk' | enter _ _ _ _ _ hk' | next _ _ _ _ _ _ _ _ hk'
    | mapAt _ _ _ _ _ _ _ hk' =>
      exact hrest k (hk' ▸ hk) hcur
    | stmt stmts li hctl hk' =>
      rw [hk'] at hk
      rcases List.mem_cons.mp hk with rfl | hk
      · exact hold (hctl ▸ hcur)
      · exact hrest k hk hcur
    | arg stmt li vs hctl hk' =>
      rw [hk'] at hk
      rcases List.mem_cons.mp hk with rfl | hk
      · exact hold (hctl ▸ hcur)
      · exact hrest k hk hcur
    | invoke _ _ _ _ _ hk' =>
      rw [hk'] at hk
      rcases List.mem_cons.mp hk with rfl | hk
      · cases hcur
      · exact hrest k hk hcur
    | mapBody ks l b li r _ _ hk' _ hli =>
      rw [hk'] at hk
      rcases List.mem_cons.mp hk with rfl | hk
      · exact hli c hcur
      · exact hrest k hk hcur

end Turns

section Runs

variable {nat : Natives N S I} {m m' : Machine F S} {inp : Input I}

theorem AllLinked.step (hm : AllLinked m) (hsp : Spares N m) (hstep : m.step nat inp = some m') :
    AllLinked m' := by
  have hkept : ∀ t ∈ m.interp.fibers, ∀ c ∈ t.cursors, Linked m'.heap c := fun t ht c hc =>
    linked_of_step hstep (hm t ht c hc) fun hR => hsp.cursors c hR t ht hc
  intro u hu c hc
  rcases Machine.step_turns hstep u hu with ⟨v, hv, hor⟩ | ⟨-, ht, -⟩ | ⟨fn, rfl⟩
  · rcases hor with rfl | rfl
    · exact hkept u (Nesting.other_mem hv) c hc
    · exact hkept v (Nesting.other_mem hv) c hc
  · rcases cursors_turn ht hc with hold | hlinked
    · exact hkept _ (Nesting.fg_mem _) c hold
    · exact hlinked
  · cases hc

/-- A step that spares it leaves the list of a loop held. -/
theorem holds_of_step (hstep : m.step nat inp = some m') {l : Lend} (hl : l.Holds m.heap)
    (hsp : Spared m.heap (removes N m ++ replaces N m) l) : l.Holds m'.heap := by
  cases l with
  | item stmts id stmt =>
    obtain ⟨li, hli, rfl, rfl⟩ := hl
    obtain ⟨li', hli', hid, ho⟩ := item_of_step hstep hli fun hR => hsp (List.mem_append_left _ hR)
    exact ⟨li', hli', hid, ho fun hQ => hsp (List.mem_append_right _ hQ)⟩
  | proc args body =>
    obtain ⟨li, hli, hlt, hbody⟩ := hl
    -- the procedure is the object of an item that stays
    have hnot : (args, li.id) ∉ removes N m ++ replaces N m := fun hin =>
      hsp li (itemOf_iff.mp hli).2 hin hbody
    obtain ⟨li', hli', -, ho⟩ := item_of_step hstep hli fun hR => hnot (List.mem_append_left _ hR)
    have ho' : li'.o = li.o := ho fun hQ => hnot (List.mem_append_right _ hQ)
    obtain ⟨hlt', hproc⟩ := proc_of_step hstep hlt
    exact ⟨li', hli', ho' ▸ hlt', by rw [ho', hproc, hbody]⟩

theorem AllKept.step (hm : AllKept m) (hsp : Spares N m) (hstep : m.step nat inp = some m') :
    AllKept m' := by
  have hkept : ∀ t ∈ m.interp.fibers, Kept m'.heap t := fun t ht =>
    ⟨(hm t ht).ctl, (hm t ht).konts, fun l hl =>
      holds_of_step hstep ((hm t ht).lends l hl) (hsp.lends t ht l hl)⟩
  intro u hu
  rcases Machine.step_turns hstep u hu with ⟨v, hv, hor⟩ | ⟨-, ht, -⟩ | ⟨fn, rfl⟩
  · have hv' := hkept v (Nesting.other_mem hv)
    rcases hor with rfl | rfl
    · exact hv'
    · exact ⟨hv'.ctl, hv'.konts, hv'.lends⟩
  · exact (hkept _ (Nesting.fg_mem _)).turn ht
  · exact kept_of rfl rfl (fun _ _ => sits_of_loose rfl _) rfl nofun nofun nofun

/-- The main fiber starts in no loop. -/
theorem start {args : List Bytes} {exts : List ExtObj} {progs : List (Opts × Bytes)}
    (h : Machine.start? N args exts progs = some m) : AllLinked m ∧ AllKept m := by
  have hnone : Op.Gives (interpNew (S := S) N args exts progs)
      fun σ => ∀ t ∈ σ.fibers, t.cursors = [] ∧ ∀ h : Heap F, Kept h t := by
    refine Op.gives_of_bind fun lis => Op.gives_of_bind fun argv => Op.gives_of_bind fun C => ?_
    refine Op.gives_of_bind fun ls => Op.gives_of_bind fun ls' => Op.gives_of_bind fun ps => ?_
    refine Op.gives_pure fun t ht => ?_
    rw [List.mem_singleton.mp ht]
    exact ⟨rfl, fun _ => kept_of rfl rfl nofun rfl nofun nofun nofun⟩
  unfold Machine.start? at h
  rcases hx : interpNew (S := S) N args exts progs Heap.empty with σ | h' | _ <;> rw [hx] at h
  · obtain rfl := Option.some.inj h
    refine ⟨fun t ht c hc => ?_, fun t ht => (hnone.ok hx t ht).2 _⟩
    rw [(hnone.ok hx t ht).1] at hc
    cases hc
  · cases h
  · cases h

end Runs

/-- **Where loops survive a change of their list.** In every run in which no item that a loop of a
fiber is at is removed, and nothing that alone holds the list of a loop is removed or replaced, the
items that the loops use next are in their lists at all times, and these are held, whatever else is
changed. -/
theorem cursors_linked (nat : Natives N S I) (args : List Bytes) (exts : List ExtObj)
    (progs : List (Opts × Bytes)) (m₀ : Machine F S)
    (hstart : Machine.start? N args exts progs = some m₀) (inps : List (Input I))
    (hsp : Runs.EachStep (Machine.step nat) (fun m _ => Spares N m) m₀ inps) :
    Runs.Throughout (Machine.step nat) (fun m => AllLinked m ∧ AllHeld m) m₀ inps :=
  (Runs.throughout_of_eachStep
    (fun _ _ _ hm hsp hstep => And.intro (hm.1.step hsp hstep) (hm.2.step hsp hstep))
    (start hstart) hsp).mono fun _ hm => ⟨hm.1, fun t ht => (hm.2 t ht).lends⟩

instance (h : Heap F) (c : Cursor) : Decidable (Linked h c) :=
  match hl : (h.obj c.1).l with
  | some lis => decidable_of_iff (c.1 < h.next ∧ c.2 ∈ lis.map (·.id)) (by simp [Linked, hl])
  | none => .isFalse (by simp [Linked, hl])

instance (m : Machine F S) : Decidable (AllLinked m) :=
  inferInstanceAs (Decidable (∀ t ∈ m.interp.fibers, ∀ c ∈ t.cursors, Linked m.heap c))

instance (h : Heap F) : DecidablePred (Lend.Holds h)
  | .item stmts id stmt =>
    decidable_of_iff (stmts < h.next ∧ ∃ li ∈ (h.obj stmts).l.getD [], li.id = id ∧ li.o = stmt)
      ⟨fun ⟨hlt, li, hli, hid, ho⟩ => ⟨li, itemOf_iff.mpr ⟨hlt, hli⟩, hid, ho⟩,
        fun ⟨li, hli, hid, ho⟩ => ⟨hli.1, li, (itemOf_iff.mp hli).2, hid, ho⟩⟩
  | .proc args body =>
    decidable_of_iff (args < h.next ∧
        ∃ li ∈ (h.obj args).l.getD [], li.o < h.next ∧ (h.obj li.o).proc.body = some body)
      ⟨fun ⟨hlt, li, hli, hbody⟩ => ⟨li, itemOf_iff.mpr ⟨hlt, hli⟩, hbody⟩,
        fun ⟨li, hli, hbody⟩ => ⟨hli.1, li, (itemOf_iff.mp hli).2, hbody⟩⟩

instance (m : Machine F S) : Decidable (AllHeld m) :=
  inferInstanceAs (Decidable (∀ t ∈ m.interp.fibers, ∀ l ∈ t.lends, l.Holds m.heap))

instance (h : Heap F) (cs : List Cursor) : DecidablePred (Spared h cs)
  | .item .. => inferInstanceAs (Decidable (_ ∉ _))
  | .proc args body => inferInstanceAs (Decidable (∀ li ∈ (h.obj args).l.getD [],
      (args, li.id) ∈ cs → (h.obj li.o).proc.body ≠ some body))

instance (m : Machine F S) : Decidable (Spares N m) :=
  decidable_of_iff ((∀ c ∈ removes N m, ∀ t ∈ m.interp.fibers, c ∉ t.cursors) ∧
      ∀ t ∈ m.interp.fibers, ∀ l ∈ t.lends, Spared m.heap (removes N m ++ replaces N m) l)
    ⟨fun h => ⟨h.1, h.2⟩, fun h => ⟨h.cursors, h.lends⟩⟩

/-- The first loop removes the item that it runs with; the statement that is called then replaces
the one behind it. -/
def behind : String :=
  "{$g L [$n A B]} {$m X $L {{$u $L 0}}} {$g B {{$d $B [$j $B 0] {$o}} {$x}}} {$c $B}"

/-- Up to the end of the program. -/
theorem cursors_linked_behind : ∃ m₀ : Machine ℤ Unit, wholeStart shortNames behind = some m₀ ∧
    (Runs.run wholeStep m₀ (quiet 168)).isSome ∧
    Runs.Throughout wholeStep (fun m => AllLinked m ∧ AllHeld m) m₀ (quiet 168) := by
  have hrun : (wholeStart shortNames behind).any (fun m₀ =>
      decide ((Runs.run wholeStep m₀ (quiet 168)).isSome ∧
        Runs.EachStep wholeStep (fun m _ => Spares wholeNum m) m₀ (quiet 168))) = true := by
    decide +kernel
  obtain ⟨m₀, hm₀, hreads⟩ := (Option.any_eq_true _ _).mp hrun
  obtain ⟨hsome, hsp⟩ := of_decide_eq_true hreads
  exact ⟨m₀, hm₀, hsome, cursors_linked _ _ _ _ m₀ hm₀ _ hsp⟩

/-- A body that removes the next item: the loop goes on with it, and crashes. -/
theorem next_removed : ∃ m₀ m m' : Machine ℤ Unit,
    wholeStart shortNames "{$g L [$n A B]} {$m X $L {{$u $L 1}}}" = some m₀ ∧
    Runs.run wholeStep m₀ (quiet 63) = some m ∧ ¬ AllLinked m ∧
    Runs.run wholeStep m (quiet 5) = some m' ∧ wholeStep m' ⟨(), true, none⟩ = none := by
  have hrun : ((wholeStart shortNames "{$g L [$n A B]} {$m X $L {{$u $L 1}}}").bind fun m₀ =>
      (Runs.run wholeStep m₀ (quiet 63)).bind fun m =>
      (Runs.run wholeStep m (quiet 5)).map fun m' => (m₀, m, m')).any (fun p =>
        decide (¬ AllLinked p.2.1 ∧ (wholeStep p.2.2 ⟨(), true, none⟩).isNone)) = true := by
    decide +kernel
  obtain ⟨p, hp, hreads⟩ := (Option.any_eq_true _ _).mp hrun
  obtain ⟨m₀, hm₀, hp⟩ := Option.bind_eq_some_iff.mp hp
  obtain ⟨m, hm, hp⟩ := Option.bind_eq_some_iff.mp hp
  obtain ⟨m', hm', rfl⟩ := Option.map_eq_some_iff.mp hp
  obtain ⟨hnot, hcrash⟩ := of_decide_eq_true hreads
  exact ⟨m₀, m, m', hm₀, hm, hnot, hm', Option.isNone_iff_eq_none.mp hcrash⟩

/-- A statement that replaces itself: nothing holds its tokens, which `b6b_stmt_call` is in. -/
theorem self_replaced : ∃ m₀ m : Machine ℤ Unit,
    wholeStart shortNames "{$g B {{$o} {$e [$d $B [$j $B 0] X] Y}}} {$c $B}" = some m₀ ∧
    Runs.run wholeStep m₀ (quiet 75) = some m ∧ AllLinked m ∧ ¬ AllHeld m := by
  have hrun : ((wholeStart shortNames "{$g B {{$o} {$e [$d $B [$j $B 0] X] Y}}} {$c $B}").bind fun m₀ =>
      (Runs.run wholeStep m₀ (quiet 75)).map fun m => (m₀, m)).any (fun p =>
        decide (AllLinked p.2 ∧ ¬ AllHeld p.2)) = true := by
    decide +kernel
  obtain ⟨p, hp, hreads⟩ := (Option.any_eq_true _ _).mp hrun
  obtain ⟨m₀, hm₀, hp⟩ := Option.bind_eq_some_iff.mp hp
  obtain ⟨m, hm, rfl⟩ := Option.map_eq_some_iff.mp hp
  exact ⟨m₀, m, hm₀, hm, of_decide_eq_true hreads⟩

/-- A loop may lose the item that it goes on with, and the list that it is in. -/
theorem cursor_removed :
    (¬ ∀ text m₀ inps, wholeStart shortNames text = some m₀ →
      Runs.Throughout wholeStep AllLinked m₀ inps) ∧
    ¬ ∀ text m₀ inps, wholeStart shortNames text = some m₀ →
      Runs.Throughout wholeStep AllHeld m₀ inps := by
  constructor
  · intro hall
    obtain ⟨m₀, m, -, hm₀, hm, hnot, -, -⟩ := next_removed
    exact hnot ((hall _ m₀ _ hm₀).run hm)
  · intro hall
    obtain ⟨m₀, m, hm₀, hm, -, hnot⟩ := self_replaced
    exact hnot ((hall _ m₀ _ hm₀).run hm)

end Cursors

end B6b
