/-
# Truth and conversions

An object has up to four values at once, and both `b6b_obj_istrue` and `b6b_obj_isnull` look at
one of them: a list is true if it has items, before its string or number is looked at; a string
is null if it has no bytes, before its items are. So a conversion can change the answer. It does
so for a string or a number that becomes a list, when the items are there and the value is zero
or the other way round, and for an empty list that becomes the string `{}` (`truth_kept_iff`).

Key definitions: `Conv`, `convs`, `Created`, `Agrees`.
-/
import B6b.Graph
import B6b.Turns
import B6b.Codec

namespace B6b

namespace Truth

variable {F : Type} {N : Num F}

/-- A conversion of an object. -/
inductive Conv
  | str
  | list
  | int
  | float
  | hash
deriving DecidableEq

/-- `b6b_as_str`, `b6b_as_list`, `b6b_as_int`, `b6b_as_float` or `b6b_obj_hash`. -/
def conv (N : Num F) (a : Addr) : Conv → Op (Heap F) Unit
  | .str => do let _ ← asStr N a
  | .list => do let _ ← asList N a
  | .int => do let _ ← asInt N a
  | .float => do let _ ← asFloat N a
  | .hash => objHash N a

/-- Conversions of one object, one after another. -/
def convs (N : Num F) (a : Addr) : List Conv → Op (Heap F) Unit
  | [] => pure ()
  | c :: cs => conv N a c >>= fun _ => convs N a cs

/-- A new object with a string, an integer or items, and any procedure. -/
inductive Created : Obj F → Prop
  | str (b : Bytes) (p : Proc) : Created ((Obj.ofStr b).withProc p)
  | int (i : ℤ) (p : Proc) : Created ((Obj.ofInt i).withProc p)
  | list (lis : List Litem) (p : Proc) : Created ((Obj.ofList lis).withProc p)

/-- The text `b` of the integer `i` is read back by `strtod`, as a number that is zero if `i` is. -/
structure Reads (N : Num F) (b : Bytes) (i : ℤ) : Prop where
  visible : ∃ c ∈ b, isspace c = false
  length : (N.strtod (cstr b)).2 = (cstr b).length
  zero : N.isZero (N.strtod (cstr b)).1 = decide (i = 0)

/-- Both texts that `b6b_as_str` writes for an integer are read back: the one of the integer, and
the one of the float that `b6b_as_float` makes of it. -/
structure Prints (N : Num F) (i : ℤ) : Prop where
  int : Reads N (fmtInt i) i
  float : Reads N (stripZeros (N.fmt (N.ofInt i))) i

/-- The conversions `cs` of the new object `o` agree with what it is: no list without items is
converted to something else, and a string or an integer becomes a list only if it is true, or, a
string, if it is false and has no items. -/
def Agrees (N : Num F) (o : Obj F) (cs : List Conv) : Prop :=
  match o.l, o.s with
  | some lis, _ => lis ≠ [] ∨ ∀ c ∈ cs, c = .list
  | none, some b => .list ∉ cs ∨ (o.istrue N = true ↔ ∃ c ∈ b, isspace c = false)
  | none, none => .list ∉ cs ∨ o.istrue N = true

/-! ### What conversions keep -/

/-- The kinds of steps of conversions of `a`. -/
def Converts (a : Addr) (cs : List Conv) (t : Touch) : Prop := t = .conv ∨ .list ∈ cs ∧ t = .list a

section Convs

variable {a : Addr} {h h' : Heap F} {c : Conv} {cs : List Conv}

theorem conv_keeps {P : Touch → Prop} (hc : P .conv) (hlist : c = .list → P (.list a)) :
    Op.Keeps (evolve N P) (conv N a c) := by
  cases c with
  | str => exact Op.keeps_bind (asStr_keeps hc a) fun _ => Op.keeps_pure _
  | list => exact Op.keeps_bind (asList_keeps hc (hlist rfl)) fun _ => Op.keeps_pure _
  | int => exact Op.keeps_bind (asInt_keeps hc a) fun _ => Op.keeps_pure _
  | float => exact Op.keeps_bind (asFloat_keeps hc a) fun _ => Op.keeps_pure _
  | hash => exact objHash_keeps hc a

theorem convs_keeps {P : Touch → Prop} (hc : P .conv) : ∀ {cs : List Conv},
    (.list ∈ cs → P (.list a)) → Op.Keeps (evolve N P) (convs N a cs)
  | [], _ => Op.keeps_pure _
  | _ :: _, hlist => Op.keeps_bind (conv_keeps hc fun he => hlist (he ▸ List.mem_cons_self)) fun _ =>
      convs_keeps hc fun hin => hlist (List.mem_cons_of_mem _ hin)

/-- What every value that is kept leaves true of the object is true of it at the end. -/
theorem convs_kept (K : Obj F → Prop) (hrun : convs N a cs h = .ok () h') (ha : a < h.next)
    (hk : K (h.obj a))
    (hstr : ∀ (h : Heap F) b, K (h.obj a) → (h.obj a).s = none → Val N h a b → K ((h.obj a).withStr b))
    (hint : ∀ o i, K o → o.i = none → K (o.withInt i))
    (hfloat : ∀ o f, K o → o.f = none → FloatOf N o f → K (o.withFloat f))
    (hhash : ∀ o, K o → K o.withHash)
    (hlist : .list ∈ cs → ∀ o b xs lis, K o → o.s = some b → o.l = none → doAsList b = .ok xs →
      lis.length = xs.length → K (o.withItems lis)) : K (h'.obj a) := by
  have hrel : (evolve N (Converts a cs)).Rel h h' :=
    (convs_keeps (.inl rfl) (fun hin => .inr ⟨hin, rfl⟩) h).ok hrun
  refine (evolve_invariant (I := fun h => a < h.next ∧ K (h.obj a)) ?_ hrel ⟨ha, hk⟩).2
  rintro t h₁ h₂ ht he ⟨ha₁, hk₁⟩
  refine ⟨Nat.lt_of_lt_of_le ha₁ he.next_le, he.kept ha₁ K hk₁ (fun b hn hv => hstr _ b hk₁ hn hv)
    (fun i => hint _ i hk₁) (fun f => hfloat _ f hk₁) (hhash _ hk₁) ?_ ?_ ?_⟩
  · rintro rfl b xs lis
    rcases ht with ht | ⟨hin, -⟩
    · cases ht
    · exact hlist hin _ b xs lis hk₁
  · rintro rfl
    rcases ht with ht | ⟨-, ht⟩ <;> cases ht
  · rintro rfl
    rcases ht with ht | ⟨-, ht⟩ <;> cases ht

/-- Keeping the hash leaves the values as they are. -/
theorem of_withHash {K : Option (List Litem) → Option Bytes → Option ℤ → Option F → Prop} (o : Obj F)
    (hk : K o.l o.s o.i o.f) : K o.withHash.l o.withHash.s o.withHash.i o.withHash.f := by
  unfold Obj.withHash
  split <;> exact hk

/-- Items stay. -/
theorem convs_list_kept (hrun : convs N a cs h = .ok () h') (ha : a < h.next)
    (hl : (h.obj a).l.isSome) : (h'.obj a).l.isSome :=
  convs_kept (·.l.isSome) hrun ha hl (fun _ _ hk _ _ => hk) (fun _ _ hk _ => hk)
    (fun _ _ hk _ _ => hk) (fun o hk => of_withHash (K := fun l _ _ _ => l.isSome) o hk)
    fun _ _ _ _ _ _ _ _ _ _ => rfl

/-- Among the conversions is one to a list, and it has left items. -/
theorem convs_list : ∀ {cs : List Conv} {h h' : Heap F}, .list ∈ cs → convs N a cs h = .ok () h' →
    (h'.obj a).l.isSome
  | c :: cs, h, h', hin, hrun => by
    obtain ⟨_, h₁, hc, hrest⟩ := Op.bind_eq_ok.mp hrun
    by_cases hin' : .list ∈ cs
    · exact convs_list hin' hrest
    · obtain rfl : .list = c := (List.mem_cons.mp hin).resolve_right hin'
      obtain ⟨lis, h₂, hlis, hpure⟩ := Op.bind_eq_ok.mp hc
      cases hpure
      obtain ⟨hlt, hl⟩ := asList_linked hlis
      exact convs_list_kept hrest hlt (by simp [hl])

/-! ### Strings -/

/-- What conversions `cs` leave of a string object. -/
def KeptStr (b : Bytes) (cs : List Conv) (o : Obj F) : Prop :=
  o.s = some b ∧ ∀ lis, o.l = some lis → .list ∈ cs ∧ ∃ xs, doAsList b = .ok xs ∧ lis.length = xs.length

theorem keptStr (b : Bytes) (hrun : convs N a cs h = .ok () h') (ha : a < h.next)
    (hk : KeptStr b cs (h.obj a)) : KeptStr b cs (h'.obj a) := by
  refine convs_kept (KeptStr b cs) hrun ha hk ?_ (fun _ _ hk _ => hk) (fun _ _ hk _ _ => hk) ?_ ?_
  · intro h c hk hn _
    simp [hk.1] at hn
  · exact fun o hk => of_withHash (K := fun l s _ _ => s = some b ∧ ∀ lis, l = some lis →
      Conv.list ∈ cs ∧ ∃ xs, doAsList b = .ok xs ∧ lis.length = xs.length) o hk
  · intro hin o c xs lis hk hs _ hp hlen
    obtain rfl := Option.some.inj (hk.1.symm.trans hs)
    refine ⟨hk.1, fun lis' hl => ⟨hin, xs, hp, ?_⟩⟩
    obtain rfl := Option.some.inj hl
    exact hlen

/-- The items of a text are there exactly if it has a byte that is no whitespace. -/
theorem items_iff {b : Bytes} {xs : List Bytes} {lis : List Litem} (hp : doAsList b = .ok xs)
    (hlen : lis.length = xs.length) : lis.isEmpty = false ↔ ∃ c ∈ b, isspace c = false := by
  have hxs : xs ≠ [] ↔ ∃ c ∈ b, isspace c = false := tokens_ne_nil_iff ((doAsList_iff b xs).mp hp)
  rw [← hxs, List.isEmpty_eq_false_iff, ← List.length_pos_iff, hlen, List.length_pos_iff]

/-- A string keeps its answers exactly if its conversions agree with it. -/
theorem str_kept_iff (b : Bytes) (hs : (h.obj a).s = some b) (hl : (h.obj a).l = none)
    (ha : a < h.next) (hrun : convs N a cs h = .ok () h') :
    ((h'.obj a).istrue N = (h.obj a).istrue N ∧ (h'.obj a).isnull = (h.obj a).isnull) ↔
      (.list ∉ cs ∨ ((h.obj a).istrue N = true ↔ ∃ c ∈ b, isspace c = false)) := by
  obtain ⟨hs', hl'⟩ := keptStr b hrun ha ⟨hs, fun lis h => by simp [hl] at h⟩
  have hnull : (h'.obj a).isnull = (h.obj a).isnull := by
    unfold Obj.isnull
    rw [hs, hs']
  by_cases hin : .list ∈ cs
  · obtain ⟨lis, hlis⟩ := Option.isSome_iff_exists.mp (convs_list hin hrun)
    obtain ⟨-, xs, hp, hlen⟩ := hl' lis hlis
    have htrue : (h'.obj a).istrue N = !lis.isEmpty := by
      unfold Obj.istrue
      rw [hlis]
    rw [and_iff_left hnull, or_iff_right (not_not_intro hin), htrue, ← items_iff hp hlen]
    cases lis.isEmpty <;> cases (h.obj a).istrue N <;> simp
  · have hnone : (h'.obj a).l = none :=
      Option.eq_none_iff_forall_ne_some.mpr fun lis h => hin (hl' lis h).1
    refine iff_of_true ⟨?_, hnull⟩ (.inl hin)
    unfold Obj.istrue
    rw [hs, hs', hl, hnone]

/-! ### Integers -/

/-- What conversions `cs` leave of an integer object. -/
def KeptInt (N : Num F) (i : ℤ) (cs : List Conv) (o : Obj F) : Prop :=
  o.i = some i ∧ (∀ b, o.s = some b → b = fmtInt i ∨ b = stripZeros (N.fmt (N.ofInt i))) ∧
    (o.s = none → o.l = none ∧ (o.f = none ∨ o.f = some (N.ofInt i))) ∧
    ∀ lis, o.l = some lis → .list ∈ cs ∧ ∃ b xs, o.s = some b ∧ doAsList b = .ok xs ∧ lis.length = xs.length

theorem keptInt (i : ℤ) (hrun : convs N a cs h = .ok () h') (ha : a < h.next)
    (hk : KeptInt N i cs (h.obj a)) : KeptInt N i cs (h'.obj a) := by
  refine convs_kept (KeptInt N i cs) hrun ha hk ?_ ?_ ?_ ?_ ?_
  · rintro h b ⟨hi, hs, hnone, hl⟩ hn hv
    obtain ⟨hln, hf⟩ := hnone hn
    refine ⟨hi, fun c hc => ?_, nofun, fun lis h => ?_⟩
    · obtain rfl := Option.some.inj hc
      cases hv with
      | str hs => simp [hn] at hs
      | list _ hl => simp [hln] at hl
      | num =>
        unfold numStr
        rcases hf with hf | hf <;> simp [hf, hi]
    · exact absurd (hln.symm.trans h) nofun
  · rintro o j ⟨hi, -⟩ hn
    simp [hi] at hn
  · rintro o f ⟨hi, hs, hnone, hl⟩ hn hf
    refine ⟨hi, hs, fun h => ⟨(hnone h).1, .inr ?_⟩, hl⟩
    rcases hf with ⟨b, hb, -⟩ | ⟨-, -, rfl⟩
    · exact absurd (hb.symm.trans h) nofun
    · simp [Obj.withFloat, hi]
  · exact fun o hk => of_withHash (K := fun l s j f => j = some i ∧
      (∀ b, s = some b → b = fmtInt i ∨ b = stripZeros (N.fmt (N.ofInt i))) ∧
      (s = none → l = none ∧ (f = none ∨ f = some (N.ofInt i))) ∧ ∀ lis, l = some lis →
        Conv.list ∈ cs ∧ ∃ b xs, s = some b ∧ doAsList b = .ok xs ∧ lis.length = xs.length) o hk
  · rintro hin o b xs lis ⟨hi, hs, -, -⟩ hb - hp hlen
    refine ⟨hi, hs, fun h => absurd (hb.symm.trans h) nofun, fun lis' hl => ⟨hin, b, xs, hb, hp, ?_⟩⟩
    obtain rfl := Option.some.inj hl
    exact hlen

/-- An integer keeps its answers exactly if its conversions agree with it. -/
theorem int_kept_iff (i : ℤ) (hi : (h.obj a).i = some i) (hs : (h.obj a).s = none)
    (hl : (h.obj a).l = none) (hf : (h.obj a).f = none) (hN : Prints N i) (ha : a < h.next)
    (hrun : convs N a cs h = .ok () h') :
    ((h'.obj a).istrue N = (h.obj a).istrue N ∧ (h'.obj a).isnull = (h.obj a).isnull) ↔
      (.list ∉ cs ∨ (h.obj a).istrue N = true) := by
  have htrue : (h.obj a).istrue N = decide (i ≠ 0) := by
    unfold Obj.istrue
    rw [hl, hs, hi]
  have hstart : KeptInt N i cs (h.obj a) :=
    ⟨hi, fun b h => by simp [hs] at h, fun _ => ⟨hl, .inl hf⟩, fun lis h => by simp [hl] at h⟩
  obtain ⟨hi', hs', hnone, hl'⟩ := keptInt i hrun ha hstart
  have hreads : ∀ b, (h'.obj a).s = some b → Reads N b i := by
    intro b hb
    rcases hs' b hb with rfl | rfl
    · exact hN.int
    · exact hN.float
  have hnull : (h'.obj a).isnull = (h.obj a).isnull := by
    unfold Obj.isnull
    rw [hs, hl]
    rcases hb : (h'.obj a).s with _ | b
    · rw [(hnone hb).1]
    · obtain ⟨c, hc, -⟩ := (hreads b hb).visible
      exact List.isEmpty_eq_false_iff.mpr (List.ne_nil_of_mem hc)
  by_cases hin : .list ∈ cs
  · obtain ⟨lis, hlis⟩ := Option.isSome_iff_exists.mp (convs_list hin hrun)
    obtain ⟨-, b, xs, hb, hp, hlen⟩ := hl' lis hlis
    have hitems : lis.isEmpty = false := (items_iff hp hlen).mpr (hreads b hb).visible
    have htrue' : (h'.obj a).istrue N = true := by
      unfold Obj.istrue
      rw [hlis]
      simp [hitems]
    rw [and_iff_left hnull, or_iff_right (not_not_intro hin), htrue', eq_comm]
  · have hln : (h'.obj a).l = none :=
      Option.eq_none_iff_forall_ne_some.mpr fun lis h => hin (hl' lis h).1
    refine iff_of_true ⟨?_, hnull⟩ (.inl hin)
    rw [htrue]
    rcases hb : (h'.obj a).s with _ | b
    · unfold Obj.istrue
      rw [hln, hb, hi']
    · obtain ⟨⟨c, hc, -⟩, hlength, hzero⟩ := hreads b hb
      unfold Obj.istrue
      simp [hln, hb, List.ne_nil_of_mem hc, hlength, hzero]

/-! ### Lists -/

/-- A text that `b6b_as_str` makes of items has a byte. -/
theorem listStr_ne_nil (bs : List Bytes) : listStr bs ≠ [] := by
  cases bs with
  | nil => exact List.cons_ne_nil _ _
  | cons x xs =>
    rw [listStr_cons]
    unfold quote
    split_ifs with hx
    · exact List.cons_ne_nil _ _
    · exact fun h => hx (.inl (List.append_eq_nil_iff.mp h).1)

/-- What conversions leave of a list object. -/
def KeptList (lis : List Litem) (o : Obj F) : Prop := o.l = some lis ∧ ∀ b, o.s = some b → b ≠ []

theorem keptList (lis : List Litem) (hrun : convs N a cs h = .ok () h') (ha : a < h.next)
    (hk : KeptList lis (h.obj a)) : KeptList lis (h'.obj a) := by
  refine convs_kept (KeptList lis) hrun ha hk ?_ (fun _ _ hk _ => hk) (fun _ _ hk _ _ => hk) ?_ ?_
  · rintro h b ⟨hl, -⟩ hn hv
    refine ⟨hl, fun c hc => ?_⟩
    obtain rfl := Option.some.inj hc
    cases hv with
    | str hs => simp [hn] at hs
    | list => exact listStr_ne_nil _
    | num _ hln => simp [hl] at hln
  · exact fun o hk => of_withHash (K := fun l s _ _ => l = some lis ∧ ∀ b, s = some b → b ≠ []) o hk
  · rintro _ o b xs lis' ⟨hl, -⟩ - hn
    simp [hl] at hn

/-- A string stays. -/
theorem convs_str_kept (hrun : convs N a cs h = .ok () h') (ha : a < h.next)
    (hs : (h.obj a).s.isSome) : (h'.obj a).s.isSome :=
  convs_kept (·.s.isSome) hrun ha hs (fun _ _ _ _ _ => rfl) (fun _ _ hk _ => hk)
    (fun _ _ hk _ _ => hk) (fun o hk => of_withHash (K := fun _ s _ _ => s.isSome) o hk)
    fun _ _ _ _ _ hk _ _ _ _ => hk

/-- The object is still there, and has a string. -/
def HasStr (a : Addr) (h : Heap F) : Prop := a < h.next ∧ (h.obj a).s.isSome

theorem HasStr.update {g : Obj F → Obj F} (hg : ∀ o : Obj F, o.s.isSome → (g o).s.isSome)
    (hs : HasStr a h) : HasStr a (h.set a (g (h.obj a))) := by
  refine ⟨hs.1, ?_⟩
  rw [Heap.set_obj_self]
  exact hg _ hs.2

theorem asStr_hasStr (ha : a < h.next) : Op.Returns (asStr N a) h fun _ h' => HasStr a h' :=
  (asStr_returns N a h).mono fun _ _ ⟨hst, _, hs⟩ => ⟨hst.next ▸ ha, Option.isSome_of_eq_some hs⟩

/-- A list without a number gets a string before it gets a number. -/
theorem asFloat_hasStr (hl : (h.obj a).l.isSome) (hf : (h.obj a).f = none) :
    Op.Ends (asFloat N a) h (fun _ h' => HasStr a h') fun _ => True := by
  refine ends_load_bind fun hlt => ?_
  have hsl : (h.obj a).s.isSome ∨ (h.obj a).l.isSome := .inr hl
  rw [hf]
  simp only [if_pos hsl]
  refine Op.returns_bind (asStr_hasStr hlt) fun b h₁ hs => ?_
  rcases strFloat N b with _ | f
  · exact Op.ends_fail trivial
  · refine Op.returns_bind (returns_update a _ h₁) ?_
    rintro _ _ rfl
    exact Op.ends_pure (hs.update (g := (·.withFloat f)) fun _ ho => ho)

/-- A list without other values gets a string when it is converted to something else. -/
theorem conv_hasStr (ha : a < h.next) (hl : (h.obj a).l.isSome) (hf : (h.obj a).f = none) (hi : (h.obj a).i = none)
    (hhash : (h.obj a).hash = none) (hc : c ≠ .list) :
    Op.Ends (conv N a c) h (fun _ h' => HasStr a h') fun _ => True := by
  cases c with
  | str => exact Op.ends_bind_of fun b h₁ hb => Op.ends_pure ((asStr_hasStr ha).ok hb)
  | list => exact absurd rfl hc
  | int =>
    refine Op.ends_bind (Q := fun _ h' => HasStr a h') (E := fun _ => True) ?_ fun _ _ hq => Op.ends_pure hq
    refine ends_load_bind fun hlt => ?_
    rw [hi]
    refine Op.ends_bind (asFloat_hasStr hl hf) fun f h₁ hs => ?_
    rcases N.floor f with _ | i
    · exact Op.ends_fail trivial
    · refine Op.returns_bind (returns_update a _ h₁) ?_
      rintro _ _ rfl
      exact Op.ends_pure (hs.update (g := (·.withInt i)) fun _ ho => ho)
  | float => exact Op.ends_bind (asFloat_hasStr hl hf) fun _ _ hq => Op.ends_pure hq
  | hash =>
    refine ends_load_bind fun hlt => ?_
    rw [hhash]
    refine Op.returns_bind (asStr_hasStr hlt) fun _ h₁ hs => ?_
    refine (returns_update a _ h₁).mono fun _ h₂ he => ?_
    obtain rfl := he
    exact hs.update fun o ho => of_withHash (K := fun _ s _ _ => s.isSome) o ho

/-- A conversion to a list leaves a list as it is. -/
theorem conv_list (ha : a < h.next) {lis : List Litem} (hl : (h.obj a).l = some lis) :
    conv N a .list h = .ok () h := by
  have hlist : asList N a h = .ok lis h := by
    unfold asList
    rw [Op.bind_ok (load_ok ha), hl]
    rfl
  exact Op.bind_ok hlist _

/-- Either all conversions are to lists and nothing has happened, or there is a string now. -/
theorem list_cases {lis : List Litem} (hl : (h.obj a).l = some lis) (hf : (h.obj a).f = none)
    (hi : (h.obj a).i = none) (hhash : (h.obj a).hash = none) (ha : a < h.next) :
    ∀ {cs : List Conv}, convs N a cs h = .ok () h' →
      (∀ c ∈ cs, c = .list) ∧ h' = h ∨ (¬ ∀ c ∈ cs, c = .list) ∧ (h'.obj a).s.isSome
  | [], hrun => by
    cases hrun
    exact .inl ⟨nofun, rfl⟩
  | c :: cs, hrun => by
    obtain ⟨_, h₁, hc, hrest⟩ := Op.bind_eq_ok.mp hrun
    by_cases hlist : c = .list
    · obtain rfl := hlist
      rw [conv_list ha hl] at hc
      cases hc
      rw [List.forall_mem_cons, and_iff_right rfl]
      exact list_cases hl hf hi hhash ha hrest
    · have hs : HasStr a h₁ :=
        (conv_hasStr ha (Option.isSome_of_eq_some hl) hf hi hhash hlist).ok hc
      exact .inr ⟨fun hall => hlist (hall c List.mem_cons_self), convs_str_kept hrest hs.1 hs.2⟩

/-- A list keeps its answers exactly if its conversions agree with it. -/
theorem list_kept_iff {lis : List Litem} (hl : (h.obj a).l = some lis) (hs : (h.obj a).s = none)
    (hf : (h.obj a).f = none) (hi : (h.obj a).i = none) (hhash : (h.obj a).hash = none)
    (ha : a < h.next) (hrun : convs N a cs h = .ok () h') :
    ((h'.obj a).istrue N = (h.obj a).istrue N ∧ (h'.obj a).isnull = (h.obj a).isnull) ↔
      (lis ≠ [] ∨ ∀ c ∈ cs, c = .list) := by
  rcases list_cases hl hf hi hhash ha hrun with ⟨hall, rfl⟩ | ⟨hnot, hsome⟩
  · exact iff_of_true ⟨rfl, rfl⟩ (.inr hall)
  · obtain ⟨hl', hne⟩ := keptList lis hrun ha ⟨hl, fun b h => by simp [hs] at h⟩
    obtain ⟨b, hb⟩ := Option.isSome_iff_exists.mp hsome
    have htrue : (h'.obj a).istrue N = (h.obj a).istrue N := by
      unfold Obj.istrue
      rw [hl, hl']
    have hnull : (h'.obj a).isnull = false := by
      unfold Obj.isnull
      rw [hb]
      exact List.isEmpty_eq_false_iff.mpr (hne b hb)
    have hbefore : (h.obj a).isnull = lis.isEmpty := by
      unfold Obj.isnull
      rw [hs, hl]
    rw [and_iff_right htrue, or_iff_left hnot, hnull, hbefore, eq_comm, List.isEmpty_eq_false_iff]

end Convs

/-! ### Every object -/

/-- **When truth does not depend on conversions.** For every new object, whichever conversions it
goes through, `b6b_obj_istrue` and `b6b_obj_isnull` answer as they did before exactly if the
conversions agree with it. `strtod` reads back the texts of an integer. -/
theorem truth_kept_iff (N : Num F) (h h' : Heap F) (a : Addr) (ha : a < h.next)
    (hcreated : Created (h.obj a)) (hN : ∀ i, (h.obj a).i = some i → Prints N i) (cs : List Conv)
    (hrun : convs N a cs h = .ok () h') :
    ((h'.obj a).istrue N = (h.obj a).istrue N ∧ (h'.obj a).isnull = (h.obj a).isnull) ↔
      Agrees N (h.obj a) cs := by
  generalize ho : h.obj a = o at hcreated
  cases hcreated with
  | str b p =>
    rw [← ho, str_kept_iff b (by rw [ho]; rfl) (by rw [ho]; rfl) ha hrun, ho]
    rfl
  | int i p =>
    rw [← ho, int_kept_iff i (by rw [ho]; rfl) (by rw [ho]; rfl) (by rw [ho]; rfl) (by rw [ho]; rfl)
      (hN i (by rw [ho]; rfl)) ha hrun, ho]
    rfl
  | list lis p =>
    have hl : (h.obj a).l = some lis := by rw [ho]; rfl
    rw [← ho, list_kept_iff hl (by rw [ho]; rfl) (by rw [ho]; rfl) (by rw [ho]; rfl)
      (by rw [ho]; rfl) ha hrun, ho]
    rfl

/-- The heap behind conversions that succeed. -/
def convs? (N : Num F) (a : Addr) (cs : List Conv) (h : Heap F) : Option (Heap F) :=
  match convs N a cs h with
  | .ok _ h' => some h'
  | _ => none

theorem convs?_eq_some {N : Num F} {a : Addr} {cs : List Conv} {h h' : Heap F}
    (hrun : convs? N a cs h = some h') : convs N a cs h = .ok () h' := by
  unfold convs? at hrun
  split at hrun
  · next hok =>
    obtain rfl := Option.some.inj hrun
    exact hok
  · cases hrun

/-- A heap with one object. -/
def only (o : Obj ℤ) : Heap ℤ := Heap.empty.push o

theorem prints_one : Prints wholeNum 1 := ⟨⟨by decide, by decide, by decide⟩, ⟨by decide, by decide, by decide⟩⟩

/-- The integer 1 is true after conversions to everything else. -/
theorem one_kept : ∃ h', convs wholeNum 0 [.float, .str, .list, .hash] (only (.ofInt 1)) = .ok () h' ∧
    (((h'.obj 0).istrue wholeNum = ((only (.ofInt 1)).obj 0).istrue wholeNum ∧
      (h'.obj 0).isnull = ((only (.ofInt 1)).obj 0).isnull) ↔
      Agrees wholeNum ((only (.ofInt 1)).obj 0) [.float, .str, .list, .hash]) := by
  have hsome : (convs? wholeNum 0 [.float, .str, .list, .hash] (only (.ofInt 1))).isSome = true := by
    decide +kernel
  obtain ⟨h', hh⟩ := Option.isSome_iff_exists.mp hsome
  refine ⟨h', convs?_eq_some hh, truth_kept_iff wholeNum (only (.ofInt 1)) h' 0 (by decide) (.int 1 .obj)
    (fun i hi => ?_) _ (convs?_eq_some hh)⟩
  obtain rfl : 1 = i := Option.some.inj hi
  exact prints_one

/-- The string `0` is false, and true as a list. -/
theorem zero_lost : ¬ ∀ (h h' : Heap ℤ) (a : Addr) (cs : List Conv), a < h.next → Created (h.obj a) →
    (∀ i, (h.obj a).i = some i → Prints wholeNum i) → convs wholeNum a cs h = .ok () h' →
    (h'.obj a).istrue wholeNum = (h.obj a).istrue wholeNum ∧ (h'.obj a).isnull = (h.obj a).isnull := by
  intro hall
  have hrun : (convs? wholeNum 0 [.list] (only (.ofStr (bytes "0")))).any (fun h' =>
      decide ((h'.obj 0).istrue wholeNum ≠ ((only (.ofStr (bytes "0"))).obj 0).istrue wholeNum)) = true := by
    decide +kernel
  obtain ⟨h', hh, hne⟩ := (Option.any_eq_true _ _).mp hrun
  exact of_decide_eq_true hne (hall (only (.ofStr (bytes "0"))) h' 0 [.list] (by decide) (.str _ .obj) nofun
    (convs?_eq_some hh)).1

end Truth

end B6b
