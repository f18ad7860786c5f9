/-
# Who releases the items of a text that does not parse

`b6b_do_as_list` gives the object an item for each token, and if a token runs past the end of the
text it releases what the object has (`b6b_destroy_l`): the list still links these items.
`b6b_as_list` sets the `LIST` flag behind the parse, so nobody looks at the list again. The object
of `b6b_list_from` has the flag from the start, and `b6b_destroy` releases its items once more:
`list_from_iff`.

Key definitions: `doAsListInto`, `listFrom`, `asListInto`, `Unclosed`.
-/
import B6b.Spans
import Mathlib.Data.List.Nodup

namespace B6b

namespace Releases

open Scanner Spans

/-! ### One turn of the parser -/

/-- The loop of `b6b_do_as_list` at `s[i]`: the item it makes, if any, and where it goes on. -/
def parseTurn (s : Bytes) (i : ℕ) : Except ParseError (Option Bytes × ℕ) :=
  match read s i with
  | .error e => .error e
  | .ok c =>
    if c = lbrac then
      match bracScan s (i + 1) 1 with
      | .error e => .error e
      | .ok j =>
        match strCopy s (i + 1) j with
        | .error e => .error e
        | .ok x => .ok (some x, i + (j - (i + 1)) + 2)
    else if c = lbrak then
      match brakScan s (i + 1) 1 0 with
      | .error e => .error e
      | .ok j =>
        match strCopy s i (j + 1) with
        | .error e => .error e
        | .ok x => .ok (some x, i + (j + 1 - i) + 0)
    else if isspace c then .ok (none, i + 1)
    else
      match wordEnd s (i + 1) with
      | .error e => .error e
      | .ok j =>
        match strCopy s i j with
        | .error e => .error e
        | .ok x => .ok (some x, i + (j - i) + 1)

/-- A turn goes on behind its byte. -/
theorem lt_of_parseTurn {s : Bytes} {i k : ℕ} {x : Option Bytes} (h : parseTurn s i = .ok (x, k)) :
    i < k := by
  unfold parseTurn at h
  split at h
  · cases h
  · split_ifs at h
    · split at h
      · cases h
      · split at h
        · cases h
        · have hk := (Prod.mk.inj (Except.ok.inj h)).2
          omega
    · split at h
      · cases h
      · rename_i j hj
        split at h
        · cases h
        · have hle := le_brakScan s (i + 1) 1 0 hj
          have hk := (Prod.mk.inj (Except.ok.inj h)).2
          omega
    · have hk := (Prod.mk.inj (Except.ok.inj h)).2
      omega
    · split at h
      · cases h
      · split at h
        · cases h
        · have hk := (Prod.mk.inj (Except.ok.inj h)).2
          omega

/-- The parser, one turn and the rest. -/
theorem doAsListAt_turn {s : Bytes} {i : ℕ} (hlt : i < s.length) : doAsListAt s i =
    match parseTurn s i with
    | .error e => .error e
    | .ok (none, k) => doAsListAt s k
    | .ok (some x, k) => (doAsListAt s k).map (x :: ·) := by
  rw [doAsListAt, if_pos hlt]
  unfold parseTurn
  cases read s i with
  | error e => rfl
  | ok c =>
    dsimp only
    split_ifs
    · cases bracScan s (i + 1) 1 with
      | error e => rfl
      | ok j =>
        dsimp only
        cases strCopy s (i + 1) j <;> rfl
    · split
      · rename_i e he
        rw [he]
      · rename_i j hj
        rw [hj]
        dsimp only
        cases strCopy s i (j + 1) <;> rfl
    · rfl
    · cases wordEnd s (i + 1) with
      | error e => rfl
      | ok j =>
        dsimp only
        cases strCopy s i j <;> rfl

/-! ### Memory -/

/-- What the clean-up looks at in an object: its `LIST` flag, its string if it has the `STR` flag,
and the items that its list links. An item is the number of items made before it. -/
structure Lobj where
  isList : Bool
  s : Option Bytes
  l : List ℕ
  deriving DecidableEq

/-- The object, the strings of the items that have been made, and the items that `b6b_destroy_l` has
released, in their order. -/
structure Mem where
  o : Lobj
  items : List Bytes
  released : List ℕ
  deriving DecidableEq

namespace Mem

/-- `b6b_str_copy` and `b6b_list_do_add`: a new item, of which the list has the only reference. -/
def doAdd (m : Mem) (x : Bytes) : Mem :=
  { m with o := { m.o with l := m.o.l ++ [m.items.length] }, items := m.items ++ [x] }

/-- `b6b_destroy_l`: each item is released, and the list is left as it is. -/
def destroyL (m : Mem) : Mem := { m with released := m.released ++ m.o.l }

/-- `b6b_destroy`, with what it releases. -/
def destroy (m : Mem) : Mem := if m.o.isList then m.destroyL else m

end Mem

/-- The loop of `b6b_do_as_list` from index `i`, with what it returns. -/
def doAsListInto (s : Bytes) (i : ℕ) (m : Mem) : Bool × Mem :=
  if i < s.length then
    match _h : parseTurn s i with
    | .error _ => (false, m.destroyL)
    | .ok (none, k) => doAsListInto s k m
    | .ok (some x, k) => doAsListInto s k (m.doAdd x)
  else (true, m)
termination_by s.length - i
decreasing_by all_goals
  have hlt := lt_of_parseTurn _h
  omega

/-- `b6b_list_new` -/
def listNew : Mem := ⟨⟨true, none, []⟩, [], []⟩

/-- `b6b_list_from`: the object, or `NULL`. -/
def listFrom (s : Bytes) : Option Lobj × Mem :=
  match doAsListInto s 0 listNew with
  | (true, m) => (some m.o, m)
  | (false, m) => (none, m.destroy)

/-- `b6b_as_list` behind `b6b_as_str`, which has left the string `s` in the object, with what it
returns. The list of an object without the `LIST` flag is whatever it is. -/
def asListInto (s : Bytes) (o : Lobj) : Bool × Mem :=
  if o.isList then (true, ⟨o, [], []⟩)
  else
    match doAsListInto s 0 ⟨{ o with l := [] }, [], []⟩ with
    | (true, m) => (true, { m with o := { m.o with isList := true } })
    | (false, m) => (false, m)

/-! ### Tokens that are not closed -/

/-- A `{` or `[` token that runs past the end of the text. -/
def Unclosed (t : Bytes) : Prop :=
  (∃ u, t = lbrac :: u ∧ scanWith (nest lbrac rbrac) 1 u = none) ∨
    ∃ u, t = lbrak :: u ∧ scanWith brakStep (1, 0) u = none

/-- The first token of the text runs past its end. -/
def FirstUnclosed (t : Bytes) : Prop := ∃ gap u, t = gap ++ u ∧ Blank gap ∧ Unclosed u

variable {s t : Bytes} {i k : ℕ} {c : UInt8}

/-- Such a token does not begin with whitespace. -/
theorem Unclosed.not_space (h : Unclosed (c :: t)) : isspace c = false := by
  rcases h with ⟨u, hu, -⟩ | ⟨u, hu, -⟩
  · rw [(List.cons.inj hu).1]
    exact isspace_lbrac
  · rw [(List.cons.inj hu).1]
    exact isspace_lbrak

theorem firstUnclosed_space (hc : isspace c = true) : FirstUnclosed (c :: t) ↔ FirstUnclosed t := by
  constructor
  · rintro ⟨gap, u, hcut, hgap, hu⟩
    cases gap with
    | nil =>
      obtain rfl : c :: t = u := hcut
      rw [hu.not_space] at hc
      cases hc
    | cons d gap =>
      exact ⟨gap, u, (List.cons.inj hcut).2, fun e he => hgap e (List.mem_cons_of_mem _ he), hu⟩
  · rintro ⟨gap, u, rfl, hgap, hu⟩
    exact ⟨c :: gap, u, rfl, blank_cons hc hgap, hu⟩

theorem firstUnclosed_token (hc : isspace c = false) : FirstUnclosed (c :: t) ↔ Unclosed (c :: t) := by
  constructor
  · rintro ⟨gap, u, hcut, hgap, hu⟩
    cases gap with
    | nil =>
      obtain rfl : c :: t = u := hcut
      exact hu
    | cons d gap =>
      obtain ⟨rfl, -⟩ := List.cons.inj hcut
      rw [hgap c List.mem_cons_self] at hc
      cases hc
  · exact fun hu => ⟨[], c :: t, rfl, blank_nil, hu⟩

/-- A turn that fails stands at a token that is not closed. -/
theorem unclosed_of_parseTurn {e : ParseError} (hlt : i < s.length) (h : parseTurn s i = .error e) :
    Unclosed (s.drop i) := by
  have hs := ne_nil_of_lt hlt
  rw [List.drop_eq_getElem_cons hlt]
  unfold parseTurn at h
  rw [read_of_lt hlt] at h
  dsimp only at h
  split_ifs at h with hb hk hsp
  · rw [hb]
    refine .inl ⟨_, rfl, ?_⟩
    split at h
    · rename_i e' he
      rw [bracScan_eq hs] at he
      exact (endOf_error he).1
    · rename_i j hj
      obtain ⟨x, hd, -, hend⟩ := bracScan_ok hlt hj
      rw [strCopy_of_drop hd hlt hend] at h
      cases h
  · rw [hk]
    refine .inr ⟨_, rfl, ?_⟩
    split at h
    · rename_i e' he
      rw [brakScan_eq hs] at he
      exact (endOf_error he).1
    · rename_i j hj
      obtain ⟨x, hd, -, hend⟩ := brakScan_ok hlt hk hj
      rw [strCopy_of_drop hd hlt.le hend] at h
      cases h
  · exfalso
    split at h
    · rename_i e' he
      exact wordEnd_ne_error hlt e' he
    · rename_i j hj
      obtain ⟨w, hd, -, -, hend⟩ := wordScan_ok hlt hb hk (Bool.eq_false_iff.mpr hsp) hj
      rw [strCopy_of_drop hd hlt.le hend] at h
      cases h

/-- A turn that makes no item is at whitespace. -/
theorem space_of_parseTurn (hlt : i < s.length) (h : parseTurn s i = .ok (none, k)) :
    k = i + 1 ∧ isspace s[i] = true := by
  unfold parseTurn at h
  rw [read_of_lt hlt] at h
  dsimp only at h
  split_ifs at h with hb hk hsp
  · split at h
    · cases h
    · split at h <;> cases h
  · split at h
    · cases h
    · split at h <;> cases h
  · exact ⟨(Prod.mk.inj (Except.ok.inj h)).2.symm, hsp⟩
  · split at h
    · cases h
    · split at h <;> cases h

/-- A turn that makes an item is at a token that is closed. -/
theorem closed_of_parseTurn {x : Bytes} (hlt : i < s.length) (h : parseTurn s i = .ok (some x, k)) :
    ¬ FirstUnclosed (s.drop i) := by
  have hs := ne_nil_of_lt hlt
  rw [List.drop_eq_getElem_cons hlt]
  unfold parseTurn at h
  rw [read_of_lt hlt] at h
  dsimp only at h
  split_ifs at h with hb hk hsp
  · rw [hb, firstUnclosed_token isspace_lbrac]
    rintro (⟨u, hu, hnone⟩ | ⟨u, hu, -⟩)
    · obtain rfl := (List.cons.inj hu).2
      rw [bracScan_eq hs, hnone] at h
      cases h
    · exact absurd (List.cons.inj hu).1 (Ne.symm lbrak_ne_lbrac)
  · rw [hk, firstUnclosed_token isspace_lbrak]
    rintro (⟨u, hu, -⟩ | ⟨u, hu, hnone⟩)
    · exact absurd (List.cons.inj hu).1 lbrak_ne_lbrac
    · obtain rfl := (List.cons.inj hu).2
      rw [brakScan_eq hs, hnone] at h
      cases h
  · cases h
  · rw [firstUnclosed_token (Bool.eq_false_iff.mpr hsp)]
    rintro (⟨u, hu, -⟩ | ⟨u, hu, -⟩)
    · exact hb (List.cons.inj hu).1
    · exact hk (List.cons.inj hu).1

/-! ### The parser and its items -/

variable {m m' : Mem} {ok : Bool}

/-- The items of the list are all those that have been made. -/
def Links (m : Mem) : Prop := m.o.l = List.range m.items.length

theorem Links.doAdd (hm : Links m) (x : Bytes) : Links (m.doAdd x) := by
  unfold Links Mem.doAdd at *
  rw [hm, List.length_append, List.length_singleton, List.range_succ]

/-- What the parser leaves of an object that it has given the items behind `i`: the flag and the
string are as they were. If it fails, it has released what the list still links, and it has made no
item if the first token is the one that is not closed. -/
structure Leaves (s : Bytes) (i : ℕ) (m : Mem) (ok : Bool) (m' : Mem) : Prop where
  flag : m'.o.isList = m.o.isList
  str : m'.o.s = m.o.s
  links : Links m'
  accepts : ok = true → m'.released = m.released ∧
    ∃ xs, doAsListAt s i = .ok xs ∧ m'.items = m.items ++ xs
  fails : ok = false → m'.released = m.released ++ m'.o.l ∧ (∃ e, doAsListAt s i = .error e) ∧
    m.items.length ≤ m'.items.length ∧ (m'.items = m.items ↔ FirstUnclosed (s.drop i))

/-- By induction on the run of the parser. -/
theorem doAsListInto_leaves (hm : Links m) :
    Leaves s i m (doAsListInto s i m).1 (doAsListInto s i m).2 := by
  fun_induction doAsListInto s i m with
  | case1 i m hlt e he =>
    refine ⟨rfl, rfl, hm, nofun, fun _ => ⟨rfl, ⟨e, ?_⟩, Nat.le_refl _, iff_of_true rfl ?_⟩⟩
    · rw [doAsListAt_turn hlt, he]
    · exact ⟨[], _, rfl, blank_nil, unclosed_of_parseTurn hlt he⟩
  | case2 i m hlt k hk ih =>
    obtain ⟨rfl, hsp⟩ := space_of_parseTurn hlt hk
    have hturn : doAsListAt s i = doAsListAt s (i + 1) := by rw [doAsListAt_turn hlt, hk]
    have hfirst : FirstUnclosed (s.drop i) ↔ FirstUnclosed (s.drop (i + 1)) := by
      rw [List.drop_eq_getElem_cons hlt]
      exact firstUnclosed_space hsp
    obtain ⟨h1, h2, h3, h4, h5⟩ := ih hm
    refine ⟨h1, h2, h3, ?_, ?_⟩
    · rwa [hturn]
    · rwa [hturn, hfirst]
  | case3 i m hlt x k hk ih =>
    have hturn : doAsListAt s i = (doAsListAt s k).map (x :: ·) := by rw [doAsListAt_turn hlt, hk]
    obtain ⟨h1, h2, h3, h4, h5⟩ := ih (hm.doAdd x)
    refine ⟨h1, h2, h3, fun hok => ?_, fun hok => ?_⟩
    · obtain ⟨hrel, xs, hxs, hitems⟩ := h4 hok
      refine ⟨hrel, x :: xs, ?_, ?_⟩
      · rw [hturn, hxs]
        rfl
      · rw [hitems]
        exact List.append_assoc _ _ _
    · obtain ⟨hrel, ⟨e, he⟩, hlen, -⟩ := h5 hok
      have hmore : m.items.length < (doAsListInto s k (m.doAdd x)).2.items.length := by
        have hadd : (m.doAdd x).items.length = m.items.length + 1 := List.length_append
        omega
      refine ⟨hrel, ⟨e, ?_⟩, Nat.le_of_lt hmore, iff_of_false ?_ (closed_of_parseTurn hlt hk)⟩
      · rw [hturn, he]
        rfl
      · intro heq
        rw [heq] at hmore
        exact Nat.lt_irrefl _ hmore
  | case4 i m hlt =>
    refine ⟨rfl, rfl, hm, fun _ => ⟨rfl, [], ?_, (List.append_nil _).symm⟩, nofun⟩
    exact doAsListAt_end (Nat.le_of_not_lt hlt)

/-! ### The two callers -/

/-- `b6b_list_from` releases each item once, if it fails: the object that it gives to `b6b_destroy` has
none of the items that have been released. -/
structure FromOnce (s : Bytes) : Prop where
  parted : ∀ m, doAsListInto s 0 listNew = (false, m) → ∀ k ∈ m.released, k ∉ m.o.l
  once : ∀ m, listFrom s = (none, m) → ∀ k < m.items.length, m.released.count k = 1

/-- `b6b_as_list` leaves the flags and the string as they are, if it fails, and releases each item
once. -/
structure AsOnce (s : Bytes) : Prop where
  same : ∀ (o : Lobj) m, o.s = some s → asListInto s o = (false, m) →
    m.o.isList = o.isList ∧ m.o.s = some s
  once : ∀ (o : Lobj) m, o.s = some s → asListInto s o = (false, m) →
    ∀ k < m.items.length, m.released.count k = 1

theorem count_range_of_lt {k n : ℕ} (h : k < n) : (List.range n).count k = 1 :=
  List.count_eq_one_of_mem List.nodup_range (List.mem_range.mpr h)

/-- In `b6b_as_list` there is nothing to go wrong. -/
theorem asOnce (s : Bytes) : AsOnce s := by
  have hall : ∀ (o : Lobj) m, asListInto s o = (false, m) →
      (m.o.isList = o.isList ∧ m.o.s = o.s) ∧ m.released = List.range m.items.length := by
    intro o m hrun
    have hl : Leaves s 0 ⟨{ o with l := [] }, [], []⟩ _ _ := doAsListInto_leaves rfl
    unfold asListInto at hrun
    split_ifs at hrun
    · cases hrun
    · split at hrun
      · cases hrun
      · rename_i m' hm'
        obtain rfl := (Prod.mk.inj hrun).2
        rw [hm'] at hl
        have hrel := (hl.fails rfl).1
        exact ⟨⟨hl.flag, hl.str⟩, hrel.trans hl.links⟩
  constructor
  · intro o m hs hrun
    obtain ⟨⟨hflag, hstr⟩, -⟩ := hall o m hrun
    exact ⟨hflag, hstr.trans hs⟩
  · intro o m _ hrun k hk
    rw [(hall o m hrun).2]
    exact count_range_of_lt hk

/-- What `b6b_list_from` has released, if it fails: every item, twice. -/
theorem listFrom_fails {m : Mem} (h : doAsListInto s 0 listNew = (false, m)) :
    listFrom s = (none, { m with released := List.range m.items.length ++ List.range m.items.length }) ∧
      m.o.l = List.range m.items.length ∧ m.released = List.range m.items.length ∧
      (m.items = [] ↔ FirstUnclosed s) := by
  have hl : Leaves s 0 listNew _ _ := doAsListInto_leaves rfl
  rw [h] at hl
  obtain ⟨hrel, -, -, hfirst⟩ := hl.fails rfl
  have hlinks : m.o.l = List.range m.items.length := hl.links
  have hrel' : m.released = List.range m.items.length := hrel.trans hlinks
  refine ⟨?_, hlinks, hrel', hfirst⟩
  unfold listFrom
  rw [h]
  dsimp only
  unfold Mem.destroy Mem.destroyL
  have hflag : m.o.isList = true := hl.flag
  rw [if_pos hflag, hlinks, hrel']

/-- **A parse that fails releases each item once exactly if there is none.** -/
theorem list_from_iff (s : Bytes) : FromOnce s ∧ AsOnce s ↔ (∃ l, Tokens s l) ∨ FirstUnclosed s := by
  have hl : Leaves s 0 listNew _ _ := doAsListInto_leaves rfl
  cases hrun : doAsListInto s 0 listNew with
  | mk ok m =>
    rw [hrun] at hl
    cases ok with
    | true =>
      obtain ⟨-, xs, hxs, -⟩ := hl.accepts rfl
      refine iff_of_true ⟨⟨fun m' hm' => ?_, fun m' hm' => ?_⟩, asOnce s⟩ ?_
      · rw [hrun] at hm'
        cases hm'
      · unfold listFrom at hm'
        rw [hrun] at hm'
        cases hm'
      · exact .inl ⟨xs, (doAsList_iff s xs).mp hxs⟩
    | false =>
      obtain ⟨hfrom, hlinks, hrel, hfirst⟩ := listFrom_fails hrun
      obtain ⟨-, ⟨e, he⟩, -⟩ := hl.fails rfl
      have hnot : ¬ ∃ l, Tokens s l := by
        rintro ⟨l, htok⟩
        have hok : doAsListAt s 0 = .ok l := (doAsList_iff s l).mpr htok
        rw [he] at hok
        cases hok
      rw [or_iff_right hnot, ← hfirst]
      constructor
      · rintro ⟨honce, -⟩
        by_contra hne
        have hpos : 0 < m.items.length := List.length_pos_of_ne_nil hne
        have hmem : 0 ∈ List.range m.items.length := List.mem_range.mpr hpos
        refine honce.parted m hrun 0 ?_ ?_
        · rwa [hrel]
        · rwa [hlinks]
      · intro hnil
        refine ⟨⟨fun m' hm' k hk => ?_, fun m' hm' k hk => ?_⟩, asOnce s⟩
        · obtain rfl := (Prod.mk.inj (hrun.symm.trans hm')).2
          rw [hrel, hnil] at hk
          cases hk
        · obtain rfl := (Prod.mk.inj (hfrom.symm.trans hm')).2
          rw [hnil] at hk
          cases hk

/-- `b6b_list_from("a {", 3)`, which `b6b_eval` calls of `[a {]`: the item `a` is released twice. -/
theorem list_from_twice : ¬ ∀ s, FromOnce s ∧ AsOnce s := by
  intro hall
  have hrun : listFrom [0x61, blank, lbrac] = (none, ⟨⟨true, none, [0]⟩, [[0x61]], [0, 0]⟩) := by
    decide +kernel
  have hcount := (hall [0x61, blank, lbrac]).1.once _ hrun 0 (by decide)
  cases hcount

end Releases

end B6b
