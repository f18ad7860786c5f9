/-
# Strings of lists whose items change

A list keeps its items by reference and its string by value. `Coherent`: where an object
has both, the string is parsed to the strings of the items, or is the one that
`b6b_as_str` would build from them. Conversions keep this (`Event.sound`). A change in
place flushes the changed list, but not the lists that hold it: `coherent_run` says that
every object stays coherent in a run whose changes are `Harmless`, which is when the
string of the changed list is what it was, or no other list with a string reads it.

Key definitions: `Coherent`, `Cmd`, `exec`, `Harmless`, `Careful`.
-/
import B6b.Lib.Runs
import B6b.Flush

namespace B6b

variable {F : Type} {N : Num F}

/-! ### Strings in two heaps -/

/-- The string of `c` is found in the same place in `h'` as in `h`. -/
structure SameText (N : Num F) (h h' : Heap F) (c : Addr) : Prop where
  s : (h'.obj c).s = (h.obj c).s
  l : (h.obj c).s = none → (h'.obj c).l = (h.obj c).l
  num : (h.obj c).s = none → (h.obj c).l = none → numStr N (h'.obj c) = numStr N (h.obj c)

/-- Addresses with which the items are there that their strings are made of, and whose own
strings are the same in `h'`, or found in the same place. -/
structure Transport (N : Num F) (h h' : Heap F) (S : Addr → Prop) : Prop where
  item : ∀ c lis, S c → (h.obj c).s = none → (h.obj c).l = some lis → ∀ li ∈ lis, S li.o
  same : ∀ c, S c → (∀ v, Val N h c v → Val N h' c v) ∨ SameText N h h' c

mutual

theorem Val.transport {h h' : Heap F} {S : Addr → Prop} (ht : Transport N h h' S) {c : Addr}
    {v : Bytes} (hc : S c) : Val N h c v → Val N h' c v
  | .str hs => by
    rcases ht.same c hc with hv | hsame
    · exact hv v (.str hs)
    · exact .str (hsame.s.trans hs)
  | .list hs hl hv => by
    rcases ht.same c hc with hv' | hsame
    · exact hv' _ (.list hs hl hv)
    · have hitems := Vals.transport ht (ht.item c _ hc hs hl) hv
      exact .list (hsame.s.trans hs) ((hsame.l hs).trans hl) hitems
  | .num hs hl => by
    rcases ht.same c hc with hv | hsame
    · exact hv _ (.num hs hl)
    · rw [← hsame.num hs hl]
      exact .num (hsame.s.trans hs) ((hsame.l hs).trans hl)

theorem Vals.transport {h h' : Heap F} {S : Addr → Prop} (ht : Transport N h h' S)
    {lis : List Litem} {vs : List Bytes} (hlis : ∀ li ∈ lis, S li.o) :
    Vals N h lis vs → Vals N h' lis vs
  | .nil => .nil
  | .cons hv hvs =>
    .cons (Val.transport ht (hlis _ List.mem_cons_self) hv)
      (Vals.transport ht (fun li hli => hlis li (List.mem_cons_of_mem _ hli)) hvs)

end

/-! ### The invariant -/

/-- The string that the object keeps beside its items fits them. -/
def Coherent (N : Num F) (h : Heap F) (a : Addr) : Prop :=
  ∀ b lis, (h.obj a).s = some b → (h.obj a).l = some lis →
    ∃ vs, Vals N h lis vs ∧ (doAsList b = .ok vs ∨ b = listStr vs)

/-- A heap of strings and lists, with its items in the heap and every object coherent. -/
structure Sound (N : Num F) (h : Heap F) : Prop where
  items : ∀ a < h.next, ItemsIn (· < h.next) h a
  text : ∀ a < h.next, (h.obj a).s.isSome ∨ (h.obj a).l.isSome
  coherent : ∀ a < h.next, Coherent N h a

/-- Objects with a string or items keep them, and nobody else's string is touched. -/
theorem Sound.transport {h h' : Heap F} (hs : Sound N h)
    (hsame : ∀ c < h.next, (h'.obj c).s = (h.obj c).s ∧
      ((h.obj c).s = none → (h'.obj c).l = (h.obj c).l)) : Transport N h h' (· < h.next) where
  item c lis hc _ hl := hs.items c hc lis hl
  same c hc := .inr
    { s := (hsame c hc).1
      l := (hsame c hc).2
      num := fun hns hnl => by
        rcases hs.text c hc with ht | ht
        · rw [hns] at ht
          cases ht
        · rw [hnl] at ht
          cases ht }

/-- A step that leaves strings and items alone. -/
theorem Sound.of_same {h h' : Heap F} (hs : Sound N h) (hnext : h'.next = h.next)
    (hsame : ∀ c, (h'.obj c).s = (h.obj c).s ∧ (h'.obj c).l = (h.obj c).l) : Sound N h' := by
  have htr : Transport N h h' (· < h.next) := hs.transport fun c _ => ⟨(hsame c).1, fun _ => (hsame c).2⟩
  refine ⟨fun a ha lis hl => ?_, fun a ha => ?_, fun a ha b lis hb hl => ?_⟩
  · rw [hnext] at ha ⊢
    exact hs.items a ha lis ((hsame a).2 ▸ hl)
  · rw [hnext] at ha
    rw [(hsame a).1, (hsame a).2]
    exact hs.text a ha
  · rw [hnext] at ha
    rw [(hsame a).1] at hb
    rw [(hsame a).2] at hl
    obtain ⟨vs, hvs, hfit⟩ := hs.coherent a ha b lis hb hl
    exact ⟨vs, hvs.transport htr (hs.items a ha lis hl), hfit⟩

theorem Sound.strs {h h' : Heap F} (hs : Sound N h) (hst : Strs N h h') : Sound N h' := by
  refine ⟨fun a ha lis hl => ?_, fun a ha => ?_, fun a ha b lis hb hl => ?_⟩
  · rw [hst.next] at ha ⊢
    exact hs.items a ha lis ((hst.l a) ▸ hl)
  · rw [hst.next] at ha
    rw [hst.l]
    rcases hst.obj a with he | ⟨-, b, -, he⟩
    · rw [he]
      exact hs.text a ha
    · rw [he]
      exact .inl rfl
  · rw [hst.next] at ha
    rw [hst.l] at hl
    rcases hst.obj a with he | ⟨hn, c, hv, he⟩
    · rw [he] at hb
      obtain ⟨vs, hvs, hfit⟩ := hs.coherent a ha b lis hb hl
      exact ⟨vs, hvs.strs hst, hfit⟩
    · rw [he] at hb
      obtain rfl : c = b := Option.some.inj hb
      cases hv with
      | str hs' => simp [hn] at hs'
      | list _ hl' hvs =>
        obtain rfl := Option.some.inj (hl'.symm.trans hl)
        exact ⟨_, hvs.strs hst, .inr rfl⟩
      | num _ hl' => simp [hl] at hl'

/-- The new items of a string are strings. -/
theorem vals_of_strs {h : Heap F} : ∀ {lis : List Litem} {xs : List Bytes},
    List.Forall₂ (fun li x => (h.obj li.o).s = some x ∧ li.o < h.next) lis xs → Vals N h lis xs
  | _, _, .nil => .nil
  | _, _, .cons hx hxs => .cons (.str hx.1) (vals_of_strs hxs)

/-- A new object that has a string or items, and not both. -/
theorem Sound.push {h : Heap F} (hs : Sound N h) (o : Obj F) (htext : o.s.isSome ∨ o.l.isSome)
    (hone : o.s = none ∨ o.l = none) (hitems : ∀ lis, o.l = some lis → ∀ li ∈ lis, li.o < h.next) :
    Sound N (h.push o) := by
  have hold : ∀ a < h.next, (h.push o).obj a = h.obj a := fun a ha =>
    h.push_obj_of_ne o (Nat.ne_of_lt ha)
  have htr : Transport N h (h.push o) (· < h.next) := hs.transport fun c hc => by simp [hold c hc]
  have hcase : ∀ a < (h.push o).next, a < h.next ∨ a = h.next := fun a ha =>
    Nat.lt_or_eq_of_le (Nat.le_of_lt_succ ha)
  refine ⟨fun a ha lis hl li hli => ?_, fun a ha => ?_, fun a ha b lis hb hl => ?_⟩
  · rcases hcase a ha with ha | rfl
    · rw [hold a ha] at hl
      exact Nat.lt_succ_of_lt (hs.items a ha lis hl li hli)
    · rw [Heap.push_obj_self] at hl
      exact Nat.lt_succ_of_lt (hitems lis hl li hli)
  · rcases hcase a ha with ha | rfl
    · rw [hold a ha]
      exact hs.text a ha
    · rw [Heap.push_obj_self]
      exact htext
  · rcases hcase a ha with ha | rfl
    · rw [hold a ha] at hb hl
      obtain ⟨vs, hvs, hfit⟩ := hs.coherent a ha b lis hb hl
      exact ⟨vs, hvs.transport htr (hs.items a ha lis hl), hfit⟩
    · rw [Heap.push_obj_self] at hb hl
      rcases hone with hn | hn
      · simp [hn] at hb
      · simp [hn] at hl

/-- A string is read as a list. -/
theorem Sound.setItems {h : Heap F} (hs : Sound N h) {a : Addr} {b : Bytes} {xs : List Bytes}
    {lis : List Litem} (hb : (h.obj a).s = some b) (hl : (h.obj a).l = none)
    (hp : doAsList b = .ok xs)
    (hlis : List.Forall₂ (fun li x => (h.obj li.o).s = some x ∧ li.o < h.next) lis xs) :
    Sound N (h.set a ((h.obj a).withItems lis)) := by
  have hsame : ∀ c, ((h.set a ((h.obj a).withItems lis)).obj c).s = (h.obj c).s ∧
      (c ≠ a → ((h.set a ((h.obj a).withItems lis)).obj c).l = (h.obj c).l) := by
    intro c
    by_cases hc : c = a
    · subst hc
      rw [Heap.set_obj_self]
      exact ⟨rfl, fun hne => absurd rfl hne⟩
    · rw [Heap.set_obj_of_ne _ _ hc]
      exact ⟨rfl, fun _ => rfl⟩
  have hself : ((h.set a ((h.obj a).withItems lis)).obj a).l = some lis := by
    rw [Heap.set_obj_self]
    rfl
  have htr : Transport N h (h.set a ((h.obj a).withItems lis)) (· < h.next) := hs.transport fun c _ =>
    ⟨(hsame c).1, fun hn => (hsame c).2 fun hc => by
      subst hc
      rw [hb] at hn
      cases hn⟩
  have hbound : ∀ {lis xs}, List.Forall₂ (fun (li : Litem) (x : Bytes) =>
      (h.obj li.o).s = some x ∧ li.o < h.next) lis xs → ∀ li ∈ lis, li.o < h.next := by
    intro lis xs hall
    induction hall with
    | nil => exact fun _ hli => nomatch hli
    | cons hx _ ih =>
      intro li hli
      rcases List.mem_cons.mp hli with rfl | hli
      · exact hx.2
      · exact ih li hli
  refine ⟨fun c hc lis' hl' => ?_, fun c hc => ?_, fun c hc b' lis' hb' hl' => ?_⟩
  · by_cases hca : c = a
    · subst hca
      obtain rfl := Option.some.inj (hself.symm.trans hl')
      exact hbound hlis
    · exact hs.items c hc lis' (((hsame c).2 hca) ▸ hl')
  · rw [(hsame c).1]
    by_cases hca : c = a
    · subst hca
      simp [hb]
    · rw [(hsame c).2 hca]
      exact hs.text c hc
  · rw [(hsame c).1] at hb'
    by_cases hca : c = a
    · subst hca
      obtain rfl := Option.some.inj (hself.symm.trans hl')
      obtain rfl := Option.some.inj (hb.symm.trans hb')
      exact ⟨xs, (vals_of_strs hlis).transport htr (hbound hlis), .inl hp⟩
    · rw [(hsame c).2 hca] at hl'
      obtain ⟨vs, hvs, hfit⟩ := hs.coherent c hc b' lis' hb' hl'
      exact ⟨vs, hvs.transport htr (hs.items c hc lis' hl'), hfit⟩

/-- The steps of conversions of strings and lists. -/
def Converting : Touch → Prop
  | .conv => True
  | .list _ => True
  | _ => False

theorem set_same {h : Heap F} {a : Addr} {o : Obj F} (hs : o.s = (h.obj a).s)
    (hl : o.l = (h.obj a).l) (c : Addr) :
    ((h.set a o).obj c).s = (h.obj c).s ∧ ((h.set a o).obj c).l = (h.obj c).l := by
  by_cases hc : c = a
  · subst hc
    rw [Heap.set_obj_self]
    exact ⟨hs, hl⟩
  · rw [Heap.set_obj_of_ne _ _ hc]
    exact ⟨rfl, rfl⟩

/-- **Conversions keep objects coherent.** -/
theorem Event.sound {t : Touch} {h h' : Heap F} (he : Event N t h h') (ht : Converting t)
    (hs : Sound N h) : Sound N h' := by
  cases he with
  | str b => exact hs.push _ (.inl rfl) (.inr rfl) nofun
  | litem => exact hs.of_same rfl fun _ => ⟨rfl, rfl⟩
  | strs hst => exact hs.strs hst
  | float => exact hs.of_same rfl (set_same rfl rfl)
  | int => exact hs.of_same rfl (set_same rfl rfl)
  | hash =>
    refine hs.of_same rfl (set_same ?_ ?_)
    · unfold Obj.withHash
      split <;> rfl
    · unfold Obj.withHash
      split <;> rfl
  | list hb hl hp hlis => exact hs.setItems hb hl hp hlis
  | build | change | pop => exact ht.elim

theorem Sound.converted {h h' : Heap F} (hs : Sound N h) (hr : (evolve N Converting).Rel h h') :
    Sound N h' :=
  evolve_invariant (I := Sound N) (fun _ _ _ ht he => he.sound ht) hr hs

/-! ### A change in place -/

/-- No other list that has a string reads the string of `l`. -/
def Unread (h : Heap F) (l : Addr) : Prop :=
  ∀ a < h.next, a ≠ l → ∀ lis, (h.obj a).s.isSome → (h.obj a).l = some lis →
    ∀ li ∈ lis, ¬ Reads h li.o l

/-- The string of `l` is what it was, or nobody reads it. -/
def Harmless (N : Num F) (l : Addr) (h h' : Heap F) : Prop :=
  (∀ v, Val N h l v → Val N h' l v) ∨ Unread h l

theorem Changed.transport {G : Addr → Prop} {l c : Addr} {h h' : Heap F} (hch : Changed G l h h')
    (hread : Reads h c l → ∀ v, Val N h l v → Val N h' l v) :
    Transport N h h' (Reads h c) := by
  refine ⟨fun a lis ha hn hl li hli => ha.trans (.item hn hl hli (.here li.o)), fun a ha => ?_⟩
  by_cases hal : a = l
  · subst hal
    exact .inl (hread ha)
  · obtain ⟨n, _, lis, -, -, -, rfl⟩ := hch
    have hobj : ((h.withLi n).set l ((h.obj l).flushed lis)).obj a = h.obj a :=
      Heap.set_obj_of_ne _ _ hal
    exact .inr ⟨by rw [hobj], fun _ => by rw [hobj], fun _ _ => by rw [hobj]⟩

/-- Items keep their strings where those who read `l` find the same string there. -/
theorem vals_changed {G : Addr → Prop} {l : Addr} {h h' : Heap F} (hch : Changed G l h h') :
    ∀ {lis : List Litem} {vs : List Bytes},
      (∀ li ∈ lis, Reads h li.o l → ∀ v, Val N h l v → Val N h' l v) →
        Vals N h lis vs → Vals N h' lis vs
  | [], _, _, hvs => by
    cases hvs
    exact .nil
  | li :: lis, _, hread, hvs => by
    cases hvs with
    | cons hv hvs =>
      have htr := hch.transport (N := N) (hread li List.mem_cons_self)
      have hrest := fun li' hli' => hread li' (List.mem_cons_of_mem li hli')
      exact .cons (hv.transport htr (.here li.o)) (vals_changed hch hrest hvs)

/-- **A harmless change keeps objects coherent.** -/
theorem Sound.changed {h h' : Heap F} {l : Addr} (hs : Sound N h)
    (hch : Changed (· < h.next) l h h') (hlt : l < h.next) (hharm : Harmless N l h h') :
    Sound N h' := by
  obtain ⟨n, lis₀, lis', hl₀, hw, -, heq⟩ := id hch
  have hnext : h'.next = h.next := by rw [heq]; rfl
  have hself : h'.obj l = (h.obj l).flushed lis' := by
    rw [heq]
    exact Heap.set_obj_self _ _ _
  have hother : ∀ a, a ≠ l → h'.obj a = h.obj a := fun a ha => by
    rw [heq]
    exact Heap.set_obj_of_ne _ _ ha
  refine ⟨fun a ha lis hl => ?_, fun a ha => ?_, fun a ha b lis hb hl => ?_⟩
  · rw [hnext] at ha ⊢
    by_cases hal : a = l
    · subst hal
      rw [hself] at hl
      obtain rfl : lis' = lis := Option.some.inj hl
      exact hw (hs.items a ha lis₀ hl₀)
    · rw [hother a hal] at hl
      exact hs.items a ha lis hl
  · rw [hnext] at ha
    by_cases hal : a = l
    · subst hal
      rw [hself]
      exact .inr rfl
    · rw [hother a hal]
      exact hs.text a ha
  · rw [hnext] at ha
    by_cases hal : a = l
    · subst hal
      rw [hself] at hb
      cases hb
    · rw [hother a hal] at hb hl
      obtain ⟨vs, hvs, hfit⟩ := hs.coherent a ha b lis hb hl
      have hread : ∀ li ∈ lis, Reads h li.o l → ∀ v, Val N h l v → Val N h' l v := by
        intro li hli hr
        rcases hharm with hsame | hun
        · exact hsame
        · exact absurd hr (hun a ha hal lis (by simp [hb]) hl li hli)
      refine ⟨vs, ?_, hfit⟩
      exact vals_changed hch hread hvs

/-! ### Runs -/

/-- What a script does with strings and lists, `list.pop` left out. -/
inductive Cmd
  | str (b : Bytes)
  | listNew (xs : List Addr)
  | listAppend (l o : Addr)
  | listExtend (l l2 : Addr)
  | listIndex (l i : Addr)
  | dictSet (d k v : Addr)
  | dictUnset (d k : Addr)
  | asStr (a : Addr)

/-- The objects a command is given. -/
def Cmd.args : Cmd → List Addr
  | .str _ => []
  | .listNew xs => xs
  | .listAppend l o => [l, o]
  | .listExtend l l2 => [l, l2]
  | .listIndex l i => [l, i]
  | .dictSet d k v => [d, k, v]
  | .dictUnset d k => [d, k]
  | .asStr a => [a]

/-- A command: the conversions of its arguments, and its operation on them. -/
def exec (N : Num F) : Cmd → Op (Heap F) Unit
  | .str b => do let _ ← alloc (.ofStr b)
  | .listNew xs => do let _ ← listBuild xs
  | .listAppend l o => do
    let _ ← asList N l
    listAdd l o
  | .listExtend l l2 => do
    let _ ← asList N l
    let _ ← asList N l2
    B6b.listExtend l l2
  | .listIndex l i => do
    let _ ← asList N l
    let _ ← asInt N i
  | .dictSet d k v => do
    let _ ← asList N d
    B6b.dictSet N d k v
  | .dictUnset d k => do
    let _ ← asList N d
    B6b.dictUnset N d k
  | .asStr a => do let _ ← B6b.asStr N a

/-- A change in place of a list. -/
inductive Change
  | append (l o : Addr)
  | extend (l l2 : Addr)
  | insert (d k v : Addr)
  | replace (d : Addr) (vli : Litem) (v : Addr)
  | remove (d : Addr) (kli vli : Litem)

def Change.target : Change → Addr
  | .append l _ => l
  | .extend l _ => l
  | .insert d _ _ => d
  | .replace d _ _ => d
  | .remove d _ _ => d

/-- The objects a change is made with. -/
def Change.objs : Change → List Addr
  | .append l o => [l, o]
  | .extend l l2 => [l, l2]
  | .insert d k v => [d, k, v]
  | .replace d _ v => [d, v]
  | .remove d _ _ => [d]

def Change.apply : Change → Op (Heap F) Unit
  | .append l o => listAdd l o
  | .extend l l2 => B6b.listExtend l l2
  | .insert d k v => do
    listAdd d k
    listAdd d v
  | .replace d vli v => do
    setItem d vli v
    listFlush d
  | .remove d kli vli => do
    let _ ← listPop d (some kli)
    let _ ← listPop d (some vli)
    pure ()

/-- What a command does before it changes a list in place, and the change it then makes, if
any. -/
def prepare (N : Num F) : Cmd → Op (Heap F) (Option Change)
  | .listAppend l o => do
    let _ ← asList N l
    pure (some (.append l o))
  | .listExtend l l2 => do
    let _ ← asList N l
    let _ ← asList N l2
    pure (some (.extend l l2))
  | .dictSet d k v => do
    let _ ← asList N d
    objHash N k
    let lis ← items d
    match ← dictSetSeek N k lis with
    | some vli => pure (some (.replace d vli v))
    | none => pure (some (.insert d k v))
  | .dictUnset d k => do
    let _ ← asList N d
    objHash N k
    let lis ← items d
    match ← dictSeek N k lis with
    | some (kli, vli) => pure (some (.remove d kli vli))
    | none => pure none
  | c => do
    exec N c
    pure none

/-- The change, if there is one. -/
def applyOpt : Option Change → Op (Heap F) Unit
  | some ch => ch.apply
  | none => pure ()

/-- A command is its preparation and its change. -/
theorem exec_eq (N : Num F) (c : Cmd) : exec N c = prepare N c >>= applyOpt := by
  cases c with
  | listAppend l o =>
    unfold exec prepare
    rw [Op.bind_assoc]
    rfl
  | listExtend l l2 =>
    unfold exec prepare
    rw [Op.bind_assoc]
    exact Op.bind_congr fun _ => by rw [Op.bind_assoc]; rfl
  | dictSet d k v =>
    unfold exec prepare B6b.dictSet
    simp only [Op.bind_assoc]
    refine Op.bind_congr fun _ => Op.bind_congr fun _ => Op.bind_congr fun lis => ?_
    refine Op.bind_congr fun r => ?_
    cases r <;> rfl
  | dictUnset d k =>
    unfold exec prepare B6b.dictUnset
    simp only [Op.bind_assoc]
    refine Op.bind_congr fun _ => Op.bind_congr fun _ => Op.bind_congr fun lis => ?_
    refine Op.bind_congr fun r => ?_
    cases r <;> rfl
  | str | listNew | listIndex | asStr =>
    simp only [prepare, exec, Op.bind_assoc]
    rfl

/-- What follows a conversion finds a sound heap with more objects. -/
theorem ends_converted {α β : Type} {x : Op (Heap F) α} {f : α → Op (Heap F) β} {h : Heap F}
    {Q : β → Heap F → Prop} (hs : Sound N h) (hx : Op.Keeps (evolve N Converting) x)
    (hf : ∀ a h₁, Sound N h₁ → h.next ≤ h₁.next → Op.Ends (f a) h₁ Q (Sound N)) :
    Op.Ends (x >>= f) h Q (Sound N) := by
  refine Op.ends_bind ((hx h).mono (fun _ _ => id) fun _ hr => hs.converted hr) fun a h₁ hr => ?_
  refine hf a h₁ (hs.converted hr) ?_
  refine evolve_invariant (I := fun h₁ => h.next ≤ h₁.next) ?_ hr (Nat.le_refl _)
  exact fun _ _ _ _ he hle => Nat.le_trans hle he.next_le

/-- The objects of a change are objects of the command. -/
def FromArgs (c : Cmd) (ch : Option Change) : Prop := ∀ ch', ch = some ch' → ch'.objs ⊆ c.args

/-- The preparation keeps objects coherent. -/
theorem prepare_ends (c : Cmd) {h : Heap F} (hs : Sound N h) (hargs : ∀ a ∈ c.args, a < h.next) :
    Op.Ends (prepare N c) h (fun ch h' => Sound N h' ∧ h.next ≤ h'.next ∧ FromArgs c ch) (Sound N) := by
  have hconv : Converting .conv := trivial
  have hlist : ∀ a, Op.Keeps (evolve N Converting) (asList N a) := fun a => asList_keeps hconv trivial
  cases c with
  | str b =>
    refine ends_converted hs (Op.keeps_bind (allocStr_keeps hconv b) fun _ => Op.keeps_pure _) ?_
    exact fun _ h₁ hs₁ hle => Op.ends_pure ⟨hs₁, hle, nofun⟩
  | listNew xs =>
    simp only [prepare, exec, Op.bind_assoc]
    refine Op.returns_bind (listBuild_returns xs h) ?_
    rintro _ _ ⟨rfl, n, lis, rfl, -, rfl⟩
    have hs' : Sound N (h.withLi n) := hs.of_same rfl fun _ => ⟨rfl, rfl⟩
    refine Op.ends_pure ⟨hs'.push _ (.inr rfl) (.inl rfl) ?_, Nat.le_succ _, nofun⟩
    rintro _ ⟨⟩ li hli
    exact hargs li.o (List.mem_map_of_mem hli)
  | listAppend l o =>
    refine ends_converted hs (hlist l) fun _ h₁ hs₁ hle => Op.ends_pure ⟨hs₁, hle, ?_⟩
    rintro _ ⟨⟩
    exact List.Subset.refl _
  | listExtend l l2 =>
    refine ends_converted hs (hlist l) fun _ h₁ hs₁ hle₁ => ?_
    refine ends_converted hs₁ (hlist l2) fun _ h₂ hs₂ hle₂ => ?_
    refine Op.ends_pure ⟨hs₂, Nat.le_trans hle₁ hle₂, ?_⟩
    rintro _ ⟨⟩
    exact List.Subset.refl _
  | listIndex l i =>
    refine ends_converted hs (Op.keeps_bind (hlist l) fun _ =>
      Op.keeps_bind (asInt_keeps hconv i) fun _ => Op.keeps_pure _) ?_
    exact fun _ h₁ hs₁ hle => Op.ends_pure ⟨hs₁, hle, nofun⟩
  | dictSet d k v =>
    refine ends_converted hs (hlist d) fun _ h₁ hs₁ hle₁ => ?_
    refine ends_converted hs₁ (objHash_keeps hconv k) fun _ h₂ hs₂ hle₂ => ?_
    refine ends_converted hs₂ (items_keeps d) fun lis h₃ hs₃ hle₃ => ?_
    refine ends_converted hs₃ (dictSetSeek_keeps hconv k lis) fun r h₄ hs₄ hle₄ => ?_
    have hle := Nat.le_trans (Nat.le_trans hle₁ hle₂) (Nat.le_trans hle₃ hle₄)
    cases r with
    | some vli =>
      refine Op.ends_pure ⟨hs₄, hle, ?_⟩
      rintro _ ⟨⟩
      simp [Change.objs, Cmd.args]
    | none =>
      refine Op.ends_pure ⟨hs₄, hle, ?_⟩
      rintro _ ⟨⟩
      exact List.Subset.refl _
  | dictUnset d k =>
    refine ends_converted hs (hlist d) fun _ h₁ hs₁ hle₁ => ?_
    refine ends_converted hs₁ (objHash_keeps hconv k) fun _ h₂ hs₂ hle₂ => ?_
    refine ends_converted hs₂ (items_keeps d) fun lis h₃ hs₃ hle₃ => ?_
    refine ends_converted hs₃ (dictSeek_keeps hconv k lis) fun r h₄ hs₄ hle₄ => ?_
    have hle := Nat.le_trans (Nat.le_trans hle₁ hle₂) (Nat.le_trans hle₃ hle₄)
    cases r with
    | some p =>
      refine Op.ends_pure ⟨hs₄, hle, ?_⟩
      rintro _ ⟨⟩
      simp [Change.objs, Cmd.args]
    | none => exact Op.ends_pure ⟨hs₄, hle, nofun⟩
  | asStr a =>
    refine ends_converted hs (Op.keeps_bind (asStr_keeps hconv a) fun _ => Op.keeps_pure _) ?_
    exact fun _ h₁ hs₁ hle => Op.ends_pure ⟨hs₁, hle, nofun⟩

/-- A change changes its target, and with nothing that is not there. -/
theorem Change.apply_returns (ch : Change) {h : Heap F} (hs : Sound N h)
    (hobjs : ∀ a ∈ ch.objs, a < h.next) :
    Op.Returns ch.apply h fun _ h' => Changed (· < h.next) ch.target h h' := by
  have hitems : ∀ a < h.next, ItemsIn (· < h.next) h a := hs.items
  cases ch with
  | append l o => exact listAdd_returns (G := (· < h.next)) l (hobjs o (by simp [objs])) h
  | extend l l2 =>
    exact listExtend_returns l l2 h (hitems l (hobjs l (by simp [objs])))
      (hitems l2 (hobjs l2 (by simp [objs])))
  | insert d k v =>
    have hk : k < h.next := hobjs k (by simp [objs])
    have hv : v < h.next := hobjs v (by simp [objs])
    refine Op.returns_bind (listAdd_returns (G := (· < h.next)) d hk h) fun _ h₁ h01 => ?_
    exact (listAdd_returns (G := (· < h.next)) d hv h₁).mono fun _ _ => h01.trans
  | replace d vli v =>
    have hv : v < h.next := hobjs v (by simp [objs])
    refine Op.returns_bind (setItem_returns (G := (· < h.next)) d vli hv h) fun _ h₁ h01 => ?_
    exact (listFlush_returns d h₁).mono fun _ _ => h01.flushed
  | remove d kli vli =>
    refine Op.returns_bind (listPop_returns (G := (· < h.next)) d kli h) fun _ h₁ h01 => ?_
    refine Op.returns_bind (listPop_returns (G := (· < h.next)) d vli h₁) fun _ h₂ h12 => ?_
    exact Op.ends_pure (h01.trans h12)

/-- One command, on objects that exist. -/
def step (N : Num F) (h : Heap F) (c : Cmd) : Option (Heap F) :=
  if ∀ a ∈ c.args, a < h.next then Op.state? (exec N c h) else none

/-- A command whose change, if it makes one, is harmless where it is made. -/
def Careful (N : Num F) (h : Heap F) (c : Cmd) : Prop :=
  ∀ ch h₁ h₂, prepare N c h = .ok (some ch) h₁ → Op.state? (ch.apply h₁) = some h₂ →
    Harmless N ch.target h₁ h₂

theorem sound_empty : Sound N (Heap.empty : Heap F) :=
  ⟨fun _ ha => absurd ha (Nat.not_lt_zero _), fun _ ha => absurd ha (Nat.not_lt_zero _),
    fun _ ha => absurd ha (Nat.not_lt_zero _)⟩

theorem step_sound {h h' : Heap F} {c : Cmd} (hs : Sound N h) (hc : Careful N h c)
    (hstep : step N h c = some h') : Sound N h' := by
  unfold step at hstep
  by_cases hargs : ∀ a ∈ c.args, a < h.next
  · rw [if_pos hargs, exec_eq] at hstep
    have hprep := prepare_ends c hs hargs
    rw [Op.bind_apply] at hstep
    cases hx : prepare N c h with
    | ok ch h₁ =>
      rw [hx] at hstep
      obtain ⟨hs₁, hle, hfrom⟩ := hprep.ok hx
      cases ch with
      | none =>
        obtain rfl : h₁ = h' := Option.some.inj hstep
        exact hs₁
      | some ch =>
        have hobjs : ∀ a ∈ ch.objs, a < h₁.next := fun a ha =>
          Nat.lt_of_lt_of_le (hargs a (hfrom ch rfl ha)) hle
        have htarget : ch.target ∈ ch.objs := by cases ch <;> exact List.mem_cons_self
        have happly := ch.apply_returns hs₁ hobjs
        have hharm : Harmless N ch.target h₁ h' := hc ch h₁ h' hx hstep
        have hch : Changed (· < h₁.next) ch.target h₁ h' := by
          cases hy : ch.apply h₁ with
          | ok u h₂ =>
            simp only [applyOpt, hy] at hstep
            obtain rfl : h₂ = h' := Option.some.inj hstep
            exact happly.ok hy
          | fail h₂ => exact (happly.fail hy).elim
          | crash =>
            simp only [applyOpt, hy] at hstep
            cases hstep
        exact hs₁.changed hch (hobjs _ htarget) hharm
    | fail h₁ =>
      rw [hx] at hstep
      obtain rfl : h₁ = h' := Option.some.inj hstep
      exact hprep.fail hx
    | crash =>
      rw [hx] at hstep
      cases hstep
  · rw [if_neg hargs] at hstep
    cases hstep

/-- **Objects stay coherent.** In every run from no objects at all whose changes in place
are harmless where they are made, every object is coherent in every state. -/
theorem coherent_run (N : Num F) (cmds : List Cmd)
    (hc : Runs.EachStep (step N) (Careful N) Heap.empty cmds) :
    Runs.Throughout (step N) (fun h => ∀ a < h.next, Coherent N h a) Heap.empty cmds := by
  have hrun : Runs.Throughout (step N) (Sound N) Heap.empty cmds :=
    Runs.throughout_of_eachStep (fun _ _ _ hs hc hstep => step_sound hs hc hstep) sound_empty hc
  exact hrun.mono fun _ hs => hs.coherent

/-- A list is read as a string, and an item is appended to it. -/
def appendRead : List Cmd := [.str (bytes "a"), .listNew [0], .asStr 1, .listAppend 1 0]

/-- Nobody reads the string of that list, so every object stays coherent. -/
theorem append_read :
    Runs.Throughout (step wholeNum) (fun h => ∀ a < h.next, Coherent wholeNum h a) Heap.empty
      appendRead := by
  refine coherent_run wholeNum appendRead ⟨?_, ?_, ?_, ?_, trivial⟩
  · rintro _ _ _ ⟨⟩
  · rintro _ _ _ ⟨⟩
  · rintro _ _ _ ⟨⟩
  · rintro _ _ _ ⟨⟩ -
    refine .inr fun a ha hne lis hs hl => ?_
    have hle : a ≤ 1 := Nat.le_of_lt_succ ha
    rcases Nat.le_one_iff_eq_zero_or_eq_one.mp hle with rfl | rfl
    · cases hl
    · exact absurd rfl hne

/-- A list with a string is an item of another that has a string too, and grows. -/
def appendShared : List Cmd :=
  [.str (bytes "a"), .listNew [0], .listNew [1], .asStr 2, .listAppend 1 0]

/-- The string of the other list is then what it was before. -/
theorem append_shared : ¬ ∀ cmds : List Cmd,
    Runs.Throughout (step wholeNum) (fun h => ∀ a < h.next, Coherent wholeNum h a) Heap.empty
      cmds := by
  intro hall
  obtain ⟨-, -, -, -, -, hlast⟩ := hall appendShared
  obtain ⟨vs, hvs, hfit⟩ := hlast 2 (by decide) (bytes "a") _ rfl rfl
  obtain rfl : vs = [listStr [bytes "a", bytes "a"]] := by
    refine hvs.unique ?_
    exact .cons (.list rfl rfl (.cons (.str rfl) (.cons (.str rfl) .nil))) .nil
  rcases hfit with hparse | hstr
  · exact absurd hparse (by decide +kernel)
  · exact absurd hstr (by decide +kernel)

end B6b
