/-
# Expanding escapes

`b6b_str_proc_expand` writes the bytes that a text denotes: `\0`, `\\`, `\n`, `\t`, `\r` and `\xHH` are
escapes, and every byte but a backslash denotes itself. The index it reads at and the index it writes
at run apart with each escape, and its test for a backslash at the end compares the one it writes at
with the end of what it reads; behind an escape that test says nothing, but then it reads the
terminator, which is no escape.

`expand_iff`: it accepts exactly the texts of the grammar, with the bytes they denote.

Key definitions: `expand`, `Escape`, `Expands`, `hexText`.
-/
import B6b.Tokens

namespace B6b

namespace Expand

abbrev backslash : UInt8 := 0x5c

/-! ### The procedure -/

/-- Why it stops: with one of its messages, or with an access outside of the string or of the block
that it writes to. -/
inductive Stop
  | badEscape
  | badHexEscape
  | badHexDigit
  | oob (k : ℕ)
  deriving DecidableEq

/-- `s->s[i]`, up to the terminator. -/
def byteAt (s : Bytes) (i : ℕ) : Except Stop UInt8 :=
  match s[i]? with
  | some c => .ok c
  | none => if i = s.length then .ok 0 else .error (.oob i)

/-- `s2[j] = c`, in a block of `s->slen + 1` bytes. -/
def put (s out : Bytes) (c : UInt8) : Except Stop Bytes :=
  if out.length < s.length + 1 then .ok (out ++ [c]) else .error (.oob out.length)

/-- The value of a hex digit. -/
def hexVal (c : UInt8) : Option UInt8 :=
  if 0x30 ≤ c ∧ c ≤ 0x39 then some (c - 0x30)
  else if 0x61 ≤ c ∧ c ≤ 0x66 then some (c - 0x61 + 10)
  else if 0x41 ≤ c ∧ c ≤ 0x46 then some (c - 0x41 + 10)
  else none

/-- A hex digit at `s[i]`. -/
def hexAt (s : Bytes) (i : ℕ) : Except Stop UInt8 := do
  match hexVal (← byteAt s i) with
  | some v => pure v
  | none => throw .badHexDigit

/-- The switch behind a backslash at `s[i]`: the byte that it denotes, and where the text goes on. -/
def switch (s : Bytes) (i : ℕ) : Except Stop (UInt8 × ℕ) := do
  let c ← byteAt s (i + 1)
  if c = 0x30 then pure (0, i + 2)
  else if c = backslash then pure (backslash, i + 2)
  else if c = 0x6e then pure (0x0a, i + 2)
  else if c = 0x74 then pure (0x09, i + 2)
  else if c = 0x72 then pure (0x0d, i + 2)
  else if c = 0x78 then
    if i + 3 > last s then throw .badHexEscape
    else
      let hi ← hexAt s (i + 2)
      let lo ← hexAt s (i + 3)
      pure (hi <<< 4 ||| lo, i + 4)
  else throw .badEscape

/-- What stands behind a backslash, and the byte that it denotes. -/
inductive Escape : Bytes → UInt8 → Prop
  | nul : Escape [0x30] 0
  | backslash : Escape [0x5c] 0x5c
  | newline : Escape [0x6e] 0x0a
  | tab : Escape [0x74] 0x09
  | ret : Escape [0x72] 0x0d
  | hex {h l hi lo : UInt8} : hexVal h = some hi → hexVal l = some lo →
      Escape [0x78, h, l] (hi <<< 4 ||| lo)

variable {s r t e : Bytes} {i k : ℕ} {c : UInt8}

theorem byteAt_of_drop (h : s.drop i = c :: r) : byteAt s i = .ok c := by
  have hlt := lt_of_drop h
  rw [List.drop_eq_getElem_cons hlt] at h
  unfold byteAt
  rw [List.getElem?_eq_getElem hlt, (List.cons.inj h).1]

theorem byteAt_end : byteAt s s.length = .ok 0 := by
  unfold byteAt
  rw [List.getElem?_eq_none (Nat.le_refl _)]
  exact if_pos rfl

/-- What is read in front of the end is a byte of the string, or its terminator. -/
theorem byteAt_cases (hle : i ≤ s.length) :
    (∃ c, byteAt s i = .ok c ∧ s.drop i = c :: s.drop (i + 1)) ∨ i = s.length ∧ byteAt s i = .ok 0 := by
  rcases Nat.lt_or_eq_of_le hle with hlt | rfl
  · exact .inl ⟨s[i], byteAt_of_drop (List.drop_eq_getElem_cons hlt), List.drop_eq_getElem_cons hlt⟩
  · exact .inr ⟨rfl, byteAt_end⟩

theorem hexAt_of_drop (h : s.drop i = c :: r) : hexAt s i =
    match hexVal c with
    | some v => .ok v
    | none => .error .badHexDigit := by
  unfold hexAt
  rw [byteAt_of_drop h]
  rfl

/-- What the switch does behind a backslash at `s[i]`: it finds the escape that is there, or stops with
a message if there is none. -/
structure Switches (s : Bytes) (i : ℕ) : Prop where
  ok : ∀ c k, switch s i = .ok (c, k) →
    ∃ e, Escape e c ∧ k = i + 1 + e.length ∧ s.drop (i + 1) = e ++ s.drop k
  error : ∀ x, switch s i = .error x → (∀ k, x ≠ .oob k) ∧
    ∀ e c r, s.drop (i + 1) = e ++ r → ¬ Escape e c

/-- The switch at the end of the string. -/
theorem switch_end (h : i + 1 = s.length) : switch s i = .error .badEscape := by
  unfold switch
  rw [h, byteAt_end]
  rfl

theorem switches_end (h : i + 1 = s.length) : Switches s i := by
  have hrun := switch_end h
  refine ⟨fun c k hck => ?_, fun x hx => ?_⟩
  · rw [hrun] at hck
    cases hck
  · obtain rfl := Except.error.inj (hrun.symm.trans hx)
    refine ⟨fun k => nofun, fun e c r hcut he => ?_⟩
    rw [List.drop_eq_nil_of_le (Nat.le_of_eq h.symm)] at hcut
    obtain rfl := (List.append_eq_nil_iff.mp hcut.symm).1
    cases he

/-- The switch at an escape of one byte. -/
theorem switches_one (hd : s.drop (i + 1) = c :: r) {d : UInt8} (he : Escape [c] d)
    (hrun : switch s i = .ok (d, i + 2)) : Switches s i := by
  refine ⟨fun c' k hck => ?_, fun x hx => ?_⟩
  · obtain ⟨rfl, rfl⟩ := Prod.mk.inj (Except.ok.inj (hrun.symm.trans hck))
    have hrest : s.drop (i + 2) = r := drop_drop_append (x := [c]) hd rfl
    refine ⟨[c], he, rfl, ?_⟩
    rw [hd, hrest]
    rfl
  · rw [hrun] at hx
    cases hx

/-- The switch where there is no escape. -/
theorem switches_none {x : Stop} (hx : ∀ k, x ≠ .oob k) (hrun : switch s i = .error x)
    (hno : ∀ e c r, s.drop (i + 1) = e ++ r → ¬ Escape e c) : Switches s i := by
  refine ⟨fun c k hck => ?_, fun y hy => ?_⟩
  · rw [hrun] at hck
    cases hck
  · obtain rfl := Except.error.inj (hrun.symm.trans hy)
    exact ⟨hx, hno⟩

/-- The switch at two hex digits, or at less. -/
theorem switches_hex (hd : s.drop (i + 1) = 0x78 :: r) (hrun : switch s i =
    if i + 3 > last s then .error .badHexEscape
    else do
      let hi ← hexAt s (i + 2)
      let lo ← hexAt s (i + 3)
      pure (hi <<< 4 ||| lo, i + 4)) : Switches s i := by
  have hlt := lt_of_drop hd
  have hr : s.drop (i + 2) = r := drop_drop_append (x := [0x78]) hd rfl
  have hlen : s.length - (i + 2) = r.length := by rw [← hr, List.length_drop]
  have hlast : last s = s.length - 1 := if_neg (by omega)
  -- an escape with this byte takes two more
  have hex_of {e t : Bytes} {c : UInt8} (hcut : s.drop (i + 1) = e ++ t) (he : Escape e c) :
      ∃ h l hi lo, r = h :: l :: t ∧ hexVal h = some hi ∧ hexVal l = some lo := by
    rw [hd] at hcut
    cases he with
    | @hex h l hi lo hh hl => exact ⟨h, l, hi, lo, (List.cons.inj hcut).2, hh, hl⟩
    | nul | backslash | newline | tab | ret => exact absurd (List.cons.inj hcut).1 (by decide)
  by_cases hshort : i + 3 > last s
  · rw [if_pos hshort] at hrun
    refine switches_none (x := .badHexEscape) nofun hrun fun e c t hcut he => ?_
    obtain ⟨h, l, hi, lo, rfl, -⟩ := hex_of hcut he
    rw [List.length_cons, List.length_cons] at hlen
    omega
  · rw [if_neg hshort] at hrun
    rcases r with _ | ⟨h, _ | ⟨l, r⟩⟩
    · rw [List.length_nil] at hlen
      omega
    · rw [List.length_singleton] at hlen
      omega
    have hr' : s.drop (i + 3) = l :: r := drop_drop_append (x := [h]) hr rfl
    have hr'' : s.drop (i + 4) = r := drop_drop_append (x := [l]) hr' rfl
    rw [hexAt_of_drop hr, hexAt_of_drop hr'] at hrun
    cases hh : hexVal h with
    | none =>
      rw [hh] at hrun
      refine switches_none (x := .badHexDigit) nofun hrun fun e c t hcut he => ?_
      obtain ⟨h', l', hi, lo, heq, hhi, -⟩ := hex_of hcut he
      rw [← (List.cons.inj heq).1, hh] at hhi
      cases hhi
    | some hi =>
      cases hl : hexVal l with
      | none =>
        rw [hh, hl] at hrun
        refine switches_none (x := .badHexDigit) nofun hrun fun e c t hcut he => ?_
        obtain ⟨h', l', hi', lo, heq, -, hlo⟩ := hex_of hcut he
        rw [← (List.cons.inj (List.cons.inj heq).2).1, hl] at hlo
        cases hlo
      | some lo =>
        rw [hh, hl] at hrun
        refine ⟨fun c k hck => ?_, fun x hx => ?_⟩
        · obtain ⟨rfl, rfl⟩ := Prod.mk.inj (Except.ok.inj (hrun.symm.trans hck))
          refine ⟨_, .hex hh hl, rfl, ?_⟩
          rw [hd, hr'']
          rfl
        · rw [hrun] at hx
          cases hx

/-- **The switch finds the escapes.** -/
theorem switches (hlt : i < s.length) : Switches s i := by
  rcases byteAt_cases (Nat.succ_le_of_lt hlt) with ⟨c, hc, hd⟩ | ⟨hend, -⟩
  swap
  · exact switches_end hend
  have hrun : switch s i =
      if c = 0x30 then .ok (0, i + 2)
      else if c = backslash then .ok (backslash, i + 2)
      else if c = 0x6e then .ok (0x0a, i + 2)
      else if c = 0x74 then .ok (0x09, i + 2)
      else if c = 0x72 then .ok (0x0d, i + 2)
      else if c = 0x78 then
        if i + 3 > last s then .error .badHexEscape
        else do
          let hi ← hexAt s (i + 2)
          let lo ← hexAt s (i + 3)
          pure (hi <<< 4 ||| lo, i + 4)
      else .error .badEscape := by
    unfold switch
    rw [hc]
    rfl
  split_ifs at hrun with h0 h1 h2 h3 h4 h5 h6
  · exact switches_one (h0 ▸ hd) .nul hrun
  · exact switches_one (h1 ▸ hd) .backslash hrun
  · exact switches_one (h2 ▸ hd) .newline hrun
  · exact switches_one (h3 ▸ hd) .tab hrun
  · exact switches_one (h4 ▸ hd) .ret hrun
  · exact switches_hex (h5 ▸ hd) (by rw [hrun, if_pos h6])
  · exact switches_hex (h5 ▸ hd) (by rw [hrun, if_neg h6])
  · refine switches_none (x := .badEscape) nofun hrun fun e d r hcut he => ?_
    rw [hd] at hcut
    cases he with
    | nul => exact h0 (List.cons.inj hcut).1
    | backslash => exact h1 (List.cons.inj hcut).1
    | newline => exact h2 (List.cons.inj hcut).1
    | tab => exact h3 (List.cons.inj hcut).1
    | ret => exact h4 (List.cons.inj hcut).1
    | hex => exact h5 (List.cons.inj hcut).1

/-- The loop: `out` is what has been written, so that `j` is its length. -/
def expandLoop (s : Bytes) (i : ℕ) (out : Bytes) : Except Stop Bytes :=
  if _hlt : i < s.length then
    match byteAt s i with
    | .error e => .error e
    | .ok c =>
      if c ≠ backslash then
        match put s out c with
        | .error e => .error e
        | .ok out => expandLoop s (i + 1) out
      else if out.length = last s then .error .badEscape
      else
        match _h : switch s i with
        | .error e => .error e
        | .ok (c, k) =>
          match put s out c with
          | .error e => .error e
          | .ok out => expandLoop s k out
  else .ok out
termination_by s.length - i
decreasing_by
  · omega
  · obtain ⟨e, -, hk, -⟩ := (switches _hlt).ok _ _ _h
    omega

/-- `b6b_str_proc_expand`, behind its argument: it puts the terminator behind what it has written. -/
def expand (s : Bytes) : Except Stop Bytes :=
  match expandLoop s 0 [] with
  | .error e => .error e
  | .ok out => if out.length < s.length + 1 then .ok out else .error (.oob out.length)

/-! ### The grammar -/

/-- The texts that denote the bytes. -/
inductive Expands : Bytes → Bytes → Prop
  | nil : Expands [] []
  | plain {c : UInt8} {s t : Bytes} : c ≠ backslash → Expands s t → Expands (c :: s) (c :: t)
  | escape {e s t : Bytes} {c : UInt8} : Escape e c → Expands s t →
      Expands (backslash :: (e ++ s)) (c :: t)

/-- The hex digit of a value, in lower or in upper case. -/
def hexDigit (upper : Bool) (v : UInt8) : UInt8 :=
  if v < 10 then 0x30 + v else if upper then 0x41 + (v - 10) else 0x61 + (v - 10)

/-- The text that writes each byte as `\xHH`, with the cases of its two digits. -/
def hexText (cs : List (UInt8 × Bool × Bool)) : Bytes :=
  cs.flatMap fun (c, u, v) => [backslash, 0x78, hexDigit u (c >>> 4), hexDigit v (c &&& 0x0f)]

/-! ### The loop -/

variable {out u : Bytes}

theorem Escape.ne_nil (h : Escape e c) : e ≠ [] := by
  cases h with
  | nul | backslash | newline | tab | ret | hex => exact List.cons_ne_nil _ _

/-- Behind a backslash there has to be an escape. -/
theorem escape_of_expands (h : Expands (backslash :: r) u) :
    ∃ e c r' u', r = e ++ r' ∧ Escape e c ∧ u = c :: u' ∧ Expands r' u' := by
  cases h with
  | plain hc => exact absurd rfl hc
  | escape he hrest => exact ⟨_, _, _, _, rfl, he, rfl, hrest⟩

theorem tail_of_expands (hc : c ≠ backslash) (h : Expands (c :: r) u) :
    ∃ u', u = c :: u' ∧ Expands r u' := by
  cases h with
  | plain _ hrest => exact ⟨_, rfl, hrest⟩
  | escape => exact absurd rfl hc

/-- An escape is followed by nothing of its own: what stands behind a backslash is one of them only, in
one way. -/
theorem escape_unique {e' r' : Bytes} {c' : UInt8} (h : Escape e c) (h' : Escape e' c')
    (heq : e ++ r = e' ++ r') : e = e' ∧ c = c' ∧ r = r' := by
  cases h with
  | @hex a b hi lo ha hb =>
    cases h' with
    | @hex a' b' hi' lo' ha' hb' =>
      simp only [List.cons_append, List.nil_append, List.cons.injEq, true_and] at heq
      obtain ⟨rfl, rfl, rfl⟩ := heq
      obtain rfl := Option.some.inj (ha.symm.trans ha')
      obtain rfl := Option.some.inj (hb.symm.trans hb')
      exact ⟨rfl, rfl, rfl⟩
    | nul | backslash | newline | tab | ret => exact absurd (List.cons.inj heq).1 (by decide)
  | nul | backslash | newline | tab | ret =>
    cases h' <;> first
      | exact ⟨rfl, rfl, (List.cons.inj heq).2⟩
      | exact absurd (List.cons.inj heq).1 (by decide)

theorem put_ok (h : out.length < s.length + 1) : put s out c = .ok (out ++ [c]) := if_pos h

/-- What the loop does from index `i` on: it stops with a message, or it has written what the rest of
the text denotes, and no more bytes than the text has. -/
structure Decodes (s : Bytes) (i : ℕ) (out : Bytes) : Prop where
  accepts : ∀ t, expandLoop s i out = .ok t → t.length ≤ s.length ∧
    ∃ u, t = out ++ u ∧ Expands (s.drop i) u
  complete : ∀ u, Expands (s.drop i) u → expandLoop s i out = .ok (out ++ u)
  inside : ∀ k, expandLoop s i out ≠ .error (.oob k)

theorem decodes_end (hle : out.length ≤ s.length) : Decodes s s.length out := by
  have hrun : expandLoop s s.length out = .ok out := by
    rw [expandLoop, dif_neg (Nat.lt_irrefl _)]
  have hnil : s.drop s.length = [] := List.drop_length
  refine ⟨fun t ht => ?_, fun u hu => ?_, fun k hk => ?_⟩
  · obtain rfl := Except.ok.inj (hrun.symm.trans ht)
    refine ⟨hle, [], (List.append_nil _).symm, ?_⟩
    rw [hnil]
    exact .nil
  · rw [hnil] at hu
    cases hu
    rw [hrun, List.append_nil]
  · rw [hrun] at hk
    cases hk

/-- A byte that denotes itself. -/
theorem decodes_plain (hd : s.drop i = c :: s.drop (i + 1)) (hc : c ≠ backslash) (hle : out.length ≤ i)
    (hrest : Decodes s (i + 1) (out ++ [c])) : Decodes s i out := by
  have hlt := lt_of_drop hd
  have hrun : expandLoop s i out = expandLoop s (i + 1) (out ++ [c]) := by
    rw [expandLoop, dif_pos hlt, byteAt_of_drop hd]
    dsimp only
    rw [if_pos hc, put_ok (by omega)]
  refine ⟨fun t ht => ?_, fun u hu => ?_, fun k hk => ?_⟩
  · rw [hrun] at ht
    obtain ⟨hlen, u, rfl, hu⟩ := hrest.accepts t ht
    refine ⟨hlen, c :: u, (List.append_cons _ _ _).symm, ?_⟩
    rw [hd]
    exact .plain hc hu
  · rw [hd] at hu
    obtain ⟨u', rfl, hu'⟩ := tail_of_expands hc hu
    rw [hrun, hrest.complete u' hu', ← List.append_cons]
  · rw [hrun] at hk
    exact hrest.inside k hk

/-- A backslash without an escape behind it. -/
theorem decodes_none {x : Stop} (hd : s.drop i = backslash :: s.drop (i + 1))
    (hrun : expandLoop s i out = .error x) (hx : ∀ k, x ≠ .oob k)
    (hno : ∀ e c r, s.drop (i + 1) = e ++ r → ¬ Escape e c) : Decodes s i out := by
  refine ⟨fun t ht => ?_, fun u hu => ?_, fun k hk => ?_⟩
  · rw [hrun] at ht
    cases ht
  · rw [hd] at hu
    obtain ⟨e, c, r, u', hcut, he, -⟩ := escape_of_expands hu
    exact absurd he (hno e c r hcut)
  · exact hx k (Except.error.inj (hrun.symm.trans hk))

/-- An escape. -/
theorem decodes_escape (hd : s.drop i = backslash :: s.drop (i + 1)) (he : Escape e c)
    (hcut : s.drop (i + 1) = e ++ s.drop k) (hrun : expandLoop s i out = expandLoop s k (out ++ [c]))
    (hrest : Decodes s k (out ++ [c])) : Decodes s i out := by
  refine ⟨fun t ht => ?_, fun u hu => ?_, fun m hm => ?_⟩
  · rw [hrun] at ht
    obtain ⟨hlen, u, rfl, hu⟩ := hrest.accepts t ht
    refine ⟨hlen, c :: u, (List.append_cons _ _ _).symm, ?_⟩
    rw [hd, hcut]
    exact .escape he hu
  · rw [hd, hcut] at hu
    obtain ⟨e', c', r', u', hcut', he', rfl, hu'⟩ := escape_of_expands hu
    obtain ⟨rfl, rfl, rfl⟩ := escape_unique he he' hcut'
    rw [hrun, hrest.complete u' hu', ← List.append_cons]
  · rw [hrun] at hm
    exact hrest.inside m hm

/-- The loop at a backslash. -/
theorem expandLoop_backslash (hd : s.drop i = backslash :: s.drop (i + 1)) (hle : out.length ≤ i) :
    expandLoop s i out =
      if out.length = last s then .error .badEscape
      else
        match switch s i with
        | .error x => .error x
        | .ok (c, k) => expandLoop s k (out ++ [c]) := by
  have hlt := lt_of_drop hd
  rw [expandLoop, dif_pos hlt, byteAt_of_drop hd]
  dsimp only
  rw [if_neg (fun h => h rfl)]
  split_ifs with hj
  · rfl
  · split
    · rename_i x hx
      rw [hx]
    · rename_i c k hk
      rw [hk, put_ok (by omega)]

/-- By induction on the run of the loop: it writes no further than it has read. -/
theorem decodes (hle : out.length ≤ i) (hi : i ≤ s.length) : Decodes s i out := by
  have hone {out : Bytes} {c : UInt8} : (out ++ [c]).length = out.length + 1 := List.length_append
  induction hn : s.length - i using Nat.strong_induction_on generalizing i out with
  | _ n ih =>
    subst hn
    rcases byteAt_cases hi with ⟨c, -, hd⟩ | ⟨rfl, -⟩
    swap
    · exact decodes_end hle
    have hlt : i < s.length := lt_of_drop hd
    by_cases hb : c ≠ backslash
    · have hlen : (out ++ [c]).length ≤ i + 1 := by rw [hone]; omega
      exact decodes_plain hd hb hle (ih (s.length - (i + 1)) (by omega) hlen hlt rfl)
    obtain rfl := not_not.mp hb
    have hlast : last s = s.length - 1 := if_neg (by omega)
    have hrun := expandLoop_backslash hd hle
    by_cases hj : out.length = last s
    · -- no escape has come before, so this is the last byte
      rw [if_pos hj] at hrun
      refine decodes_none hd hrun nofun fun e c r hcut he => ?_
      rw [List.drop_eq_nil_of_le (by omega)] at hcut
      exact Escape.ne_nil he (List.append_eq_nil_iff.mp hcut.symm).1
    rw [if_neg hj] at hrun
    obtain ⟨hok, herror⟩ := switches hlt
    cases hsw : switch s i with
    | error x =>
      rw [hsw] at hrun
      obtain ⟨hmsg, hno⟩ := herror x hsw
      exact decodes_none hd hrun hmsg hno
    | ok p =>
      obtain ⟨c, k⟩ := p
      rw [hsw] at hrun
      obtain ⟨e, he, hk, hcut⟩ := hok c k hsw
      have hpos := List.length_pos_of_ne_nil (Escape.ne_nil he)
      have hkle : k ≤ s.length := by
        have hlen := congrArg List.length hcut
        rw [List.length_append, List.length_drop, List.length_drop] at hlen
        omega
      have hlen : (out ++ [c]).length ≤ k := by rw [hone]; omega
      exact decodes_escape hd he hcut hrun (ih (s.length - k) (by omega) hlen hkle rfl)

/-- Of every text the procedure stops with a message, or it has written what the text denotes. -/
theorem expand_eq (s : Bytes) : expand s = expandLoop s 0 [] := by
  have hdec : Decodes s 0 [] := decodes (Nat.le_refl _) (Nat.zero_le _)
  unfold expand
  cases hrun : expandLoop s 0 [] with
  | error e => rfl
  | ok t => exact if_pos (Nat.lt_succ_of_le (hdec.accepts t hrun).1)

/-! ### Bytes as escapes -/

/-- What holds of each of the 256 bytes. -/
theorem forall_byte (p : UInt8 → Prop) (h : ∀ n : Fin 256, p (UInt8.ofFin n)) (c : UInt8) : p c := by
  have hc := h c.toFin
  rwa [UInt8.ofFin_toFin] at hc

theorem hexVal_hexDigit (upper : Bool) (v : UInt8) (hv : v < 16) :
    hexVal (hexDigit upper v) = some v := by
  have hall : ∀ n : Fin 256, UInt8.ofFin n < 16 →
      hexVal (hexDigit upper (UInt8.ofFin n)) = some (UInt8.ofFin n) := by
    cases upper <;> decide +kernel
  exact forall_byte (fun v => v < 16 → hexVal (hexDigit upper v) = some v) hall v hv

/-- A byte is put together of its two halves. -/
theorem halves (c : UInt8) :
    c >>> 4 < 16 ∧ c &&& 0x0f < 16 ∧ (c >>> 4) <<< 4 ||| (c &&& 0x0f) = c := by
  refine forall_byte (fun c => c >>> 4 < 16 ∧ c &&& 0x0f < 16 ∧ (c >>> 4) <<< 4 ||| (c &&& 0x0f) = c) ?_ c
  decide +kernel

/-- The escape of a byte. -/
theorem escape_hex (c : UInt8) (u v : Bool) :
    Escape [0x78, hexDigit u (c >>> 4), hexDigit v (c &&& 0x0f)] c := by
  obtain ⟨hhi, hlo, hc⟩ := halves c
  have he := Escape.hex (hexVal_hexDigit u _ hhi) (hexVal_hexDigit v _ hlo)
  rwa [hc] at he

theorem expands_hexText : ∀ cs : List (UInt8 × Bool × Bool), Expands (hexText cs) (cs.map (·.1))
  | [] => .nil
  | (c, u, v) :: cs => .escape (escape_hex c u v) (expands_hexText cs)

/-- **`str.expand` decodes its grammar.** It accepts a text exactly if it is one of bytes and escapes,
and returns what these denote; it writes no more bytes than the text has, and makes no access outside
of the text with its terminator and of the block that it writes to; and it reads back the text that
writes each byte as `\xHH`. -/
theorem expand_iff (s : Bytes) :
    (∀ t, expand s = .ok t ↔ Expands s t) ∧ (∀ t, expand s = .ok t → t.length ≤ s.length) ∧
      (∀ k, expand s ≠ .error (.oob k)) ∧ ∀ cs, expand (hexText cs) = .ok (cs.map (·.1)) := by
  have hdec (s : Bytes) : Decodes s 0 [] := decodes (Nat.le_refl _) (Nat.zero_le _)
  rw [expand_eq]
  refine ⟨fun t => ⟨fun ht => ?_, (hdec s).complete t⟩, fun t ht => ((hdec s).accepts t ht).1,
    (hdec s).inside, fun cs => ?_⟩
  · obtain ⟨-, u, rfl, hu⟩ := (hdec s).accepts t ht
    exact hu
  · rw [expand_eq]
    exact (hdec _).complete _ (expands_hexText cs)

end Expand

end B6b
