/-
# Parsing arguments into variables

`b6b_list_vparse` with the pointers of its caller: the loop goes through the format, the items of
the list and the pointers at once, and counts. A `|` moves on in the format alone; a `*` hands the
cursor to the caller. Each item is converted when its turn comes, before it is assigned.

`vparse_ok` says what the loop does with a format in front of a rest, and `parse_iff` what the
whole call returns and assigns. `vparseFrom` of `B6b.Container`, which the procedures are
written with, is the same without the variables: `vparse_of_vparseFrom`.

Key definitions: `vparse`, `codes`, `required`, `Fits`, `Assigned`.
-/
import B6b.Acyclic

namespace B6b

namespace Parse

variable {F : Type} {N : Num F}

/-! ### The loop -/

/-- What is assigned through a pointer. -/
inductive Out
  | obj (a : Addr)
  /-- The cursor. -/
  | item (li : Litem)
deriving DecidableEq

/-- The variables of a caller, of which a pointer is one. -/
abbrev Vars := ℕ → Option Out

/-- The loop of `b6b_list_vparse` from `*p` on, at the item in front of `lis`, with the pointers
that `va_arg` has left; and the variables behind it. -/
def vparse (N : Num F) : List Char → List Litem → Bool → ℕ → List (Option ℕ) → Vars →
    Op (Heap F) (ℕ × Vars)
  | [], lis, _, n, _, vars => pure (if lis.isEmpty then n else 0, vars)
  | c :: p, lis, opt, n, ap, vars =>
    if c = '|' then vparse N p lis true n ap vars
    else
      match lis with
      | [] => pure (if opt then n else 0, vars)
      | li :: lis =>
        match ap with
        | [] => Op.crash
        | none :: ap => vparse N p lis opt (n + 1) ap vars
        | some arg :: ap =>
          if c = '*' then pure (n + 1, Function.update vars arg (some (.item li)))
          else do
            match ← Op.attempt (convert N c li.o) with
            | some () => vparse N p lis opt (n + 1) ap (Function.update vars arg (some (.obj li.o)))
            | none => pure (0, vars)

/-- `b6b_list_vparse` -/
def listVparse (N : Num F) (l : Addr) (fmt : String) (ap : List (Option ℕ)) (vars : Vars) :
    Op (Heap F) (ℕ × Vars) := do
  let lis ← items l
  vparse N fmt.toList lis false 0 ap vars

/-! ### What it is for -/

/-- The type codes of a format. -/
def codes (fmt : List Char) : List Char := fmt.filter (· ≠ '|')

/-- How many of them are not optional. -/
def required (fmt : List Char) : ℕ := (fmt.takeWhile (· ≠ '|')).length

/-- A format with the codes `r`, and the optional ones in `o` if there is one. -/
def format (r : List Char) : Option (List Char) → List Char
  | none => r
  | some o => r ++ '|' :: o

/-- The codes of types: an `o` is any object, and for the others the item is converted. -/
def typeCodes : List Char := ['o', 's', 'l', 'i', 'f']

/-- `items` have as many as the format asks for, and each one converts to the type of its code. -/
structure Fits (N : Num F) (r o : List Char) (lis : List Litem) (h h' : Heap F) : Prop where
  required : r.length ≤ lis.length
  optional : lis.length ≤ r.length + o.length
  converts : convertAll N ((r ++ o).zip (lis.map (·.o))) h = .ok () h'

/-- The variables get `os`, one after the other, and no other variable is touched. -/
structure Assigned (ps : List ℕ) (os : List Out) (vars vars' : Vars) : Prop where
  each : ∀ p ∈ ps.zip os, vars' p.1 = some p.2
  others : ∀ v, v ∉ ps.take os.length → vars' v = vars v

/-- One assignment after the other. -/
def assign : Vars → List ℕ → List Out → Vars
  | vars, p :: ps, o :: os => assign (Function.update vars p (some o)) ps os
  | vars, _, _ => vars

/-! ### Assignments -/

theorem assign_nil (vars : Vars) (ps : List ℕ) : assign vars ps [] = vars := by
  cases ps <;> rfl

theorem assign_of_not_mem : ∀ {ps : List ℕ} {os : List Out} {vars : Vars} {v : ℕ},
    v ∉ ps.take os.length → assign vars ps os v = vars v
  | [], _, _, _, _ => rfl
  | _ :: _, [], _, _, _ => rfl
  | p :: ps, o :: os, vars, v, hv => by
    rw [List.length_cons, List.take_succ_cons] at hv
    obtain ⟨hne, hv⟩ := List.ne_and_not_mem_of_not_mem_cons hv
    unfold assign
    rw [assign_of_not_mem hv, Function.update_of_ne hne]

/-- What is assigned through different pointers stays. -/
theorem assigned_assign : ∀ {ps : List ℕ} {os : List Out} {vars : Vars}, ps.Nodup →
    Assigned ps os vars (assign vars ps os)
  | [], _, _, _ => ⟨fun _ hp => absurd hp List.not_mem_nil, fun _ _ => rfl⟩
  | p :: ps, [], vars, _ => ⟨fun _ hp => absurd hp (by simp), fun _ _ => rfl⟩
  | p :: ps, o :: os, vars, hps => by
    obtain ⟨hp, hps⟩ := List.nodup_cons.mp hps
    refine ⟨fun q hq => ?_, fun v hv => assign_of_not_mem hv⟩
    unfold assign
    rw [List.zip_cons_cons] at hq
    rcases List.mem_cons.mp hq with rfl | hq
    · rw [assign_of_not_mem fun hmem => hp (List.mem_of_mem_take hmem), Function.update_self]
    · exact (assigned_assign hps).each q hq

theorem assign_append (os' : List Out) : ∀ {ps : List ℕ} {os : List Out} (vars : Vars),
    os.length ≤ ps.length →
    assign vars ps (os ++ os') = assign (assign vars ps os) (ps.drop os.length) os'
  | ps, [], vars, _ => by
    rw [assign_nil]
    rfl
  | p :: ps, o :: os, vars, h => by
    have hle : os.length ≤ ps.length := Nat.le_of_succ_le_succ h
    have hrest : assign (Function.update vars p (some o)) ps (os ++ os') = _ :=
      assign_append os' _ hle
    exact hrest

/-! ### One turn -/

section Turn

variable {c : Char} {p : List Char} {li : Litem} {lis : List Litem} {opt : Bool} {n arg : ℕ}
  {ap : List (Option ℕ)} {vars : Vars} {h h₁ : Heap F}

theorem vparse_bar : vparse N ('|' :: p) lis opt n ap vars = vparse N p lis true n ap vars := by
  conv_lhs => unfold vparse
  rw [if_pos rfl]

/-- The format ends. -/
theorem vparse_end :
    vparse N [] lis opt n ap vars = pure (if lis.isEmpty then n else 0, vars) := rfl

/-- The list ends in front of the format. -/
theorem vparse_short (hc : c ≠ '|') :
    vparse N (c :: p) [] opt n ap vars = pure (if opt then n else 0, vars) := by
  rw [vparse, if_neg hc]

theorem vparse_star : vparse N ('*' :: p) (li :: lis) opt n (some arg :: ap) vars =
    pure (n + 1, Function.update vars arg (some (.item li))) := by
  rw [vparse, if_neg (by decide), if_pos rfl]

theorem vparse_code (hc : c ≠ '|') (hs : c ≠ '*') :
    vparse N (c :: p) (li :: lis) opt n (some arg :: ap) vars =
    Op.attempt (convert N c li.o) >>= fun
      | some () => vparse N p lis opt (n + 1) ap (Function.update vars arg (some (.obj li.o)))
      | none => pure (0, vars) := by
  rw [vparse, if_neg hc, if_neg hs]

end Turn

/-! ### A format in front of a rest -/

section Loop

variable {h h' : Heap F}

theorem codes_bar (p : List Char) : codes ('|' :: p) = codes p := rfl

theorem codes_cons {c : Char} (hc : c ≠ '|') (p : List Char) : codes (c :: p) = c :: codes p :=
  List.filter_cons_of_pos (decide_eq_true hc)

theorem required_cons {c : Char} (hc : c ≠ '|') (p : List Char) :
    required (c :: p) = required p + 1 := by
  have htake : (c :: p).takeWhile (· ≠ '|') = c :: p.takeWhile (· ≠ '|') :=
    List.takeWhile_cons_of_pos (decide_eq_true hc)
  unfold required
  rw [htake, List.length_cons]

/-- Items that all convert are assigned, up to the end of the format or of the list. -/
theorem vparse_ok (rest : List Char) : ∀ {fmt : List Char} {lis : List Litem} {ps : List ℕ} (n : ℕ)
    (opt : Bool) (vars : Vars) {h : Heap F}, '*' ∉ fmt → (codes fmt).length ≤ ps.length →
    convertAll N ((codes fmt).zip (lis.map (·.o))) h = .ok () h' →
    vparse N (fmt ++ rest) lis opt n (ps.map some) vars h =
      if (codes fmt).length ≤ lis.length then
        vparse N rest (lis.drop (codes fmt).length) (opt || decide ('|' ∈ fmt))
          (n + (codes fmt).length) ((ps.drop (codes fmt).length).map some)
          (assign vars ps ((lis.take (codes fmt).length).map fun li => .obj li.o)) h'
      else .ok (if opt = true ∨ required fmt ≤ lis.length then n + lis.length else 0,
        assign vars ps (lis.map fun li => .obj li.o)) h'
  | [], lis, ps, n, opt, vars, _, _, _, hconv => by
    obtain ⟨-, rfl⟩ := Outcome.ok.inj hconv
    simp [codes, assign_nil]
  | c :: p, lis, ps, n, opt, vars, h, hstar, hps, hconv => by
    obtain ⟨hc, hp⟩ := List.ne_and_not_mem_of_not_mem_cons hstar
    rw [List.cons_append]
    by_cases hbar : c = '|'
    · subst hbar
      rw [codes_bar] at hps hconv ⊢
      rw [vparse_bar, vparse_ok rest n true vars hp hps hconv]
      simp [required]
    · rw [codes_cons hbar] at hps hconv ⊢
      cases lis with
      | nil =>
        obtain ⟨-, rfl⟩ := Outcome.ok.inj hconv
        rw [vparse_short hbar]
        simp [required_cons hbar, assign_nil]
        rfl
      | cons li lis =>
        cases ps with
        | nil => exact absurd hps (Nat.not_succ_le_zero _)
        | cons q ps =>
          obtain ⟨_, h₁, hli, hrest⟩ := Op.bind_eq_ok.mp hconv
          have hle : (codes p).length ≤ ps.length := Nat.le_of_succ_le_succ hps
          rw [List.map_cons, vparse_code hbar hc.symm, Op.bind_ok (Op.attempt_ok hli)]
          dsimp only
          rw [vparse_ok rest _ _ _ hp hle hrest, required_cons hbar]
          simp [assign, Ne.symm hbar, Nat.add_assoc, Nat.add_comm 1]

/-- An item that does not convert ends the loop. -/
theorem vparse_stops (rest : List Char) : ∀ {fmt : List Char} (lis : List Litem) {ps : List ℕ}
    (n : ℕ) (opt : Bool) (vars : Vars) (h : Heap F), '*' ∉ fmt → (codes fmt).length ≤ ps.length →
    match convertAll N ((codes fmt).zip (lis.map (·.o))) h with
    | .ok _ _ => True
    | .fail h' => ∃ vars', vparse N (fmt ++ rest) lis opt n (ps.map some) vars h = .ok (0, vars') h'
    | .crash => vparse N (fmt ++ rest) lis opt n (ps.map some) vars h = .crash
  | [], lis, ps, n, opt, vars, h, _, _ => trivial
  | c :: p, lis, ps, n, opt, vars, h, hstar, hps => by
    obtain ⟨hc, hp⟩ := List.ne_and_not_mem_of_not_mem_cons hstar
    rw [List.cons_append]
    by_cases hbar : c = '|'
    · subst hbar
      rw [codes_bar] at hps ⊢
      rw [vparse_bar]
      exact vparse_stops rest lis n true vars h hp hps
    · rw [codes_cons hbar] at hps ⊢
      cases lis with
      | nil => trivial
      | cons li lis =>
        cases ps with
        | nil => exact absurd hps (Nat.not_succ_le_zero _)
        | cons q ps =>
          have hle : (codes p).length ≤ ps.length := Nat.le_of_succ_le_succ hps
          rw [List.map_cons, List.map_cons, List.zip_cons_cons, vparse_code hbar hc.symm]
          unfold convertAll
          rw [Op.bind_apply, Op.bind_apply]
          unfold Op.attempt
          cases convert N c li.o h with
          | ok u h₁ => exact vparse_stops rest lis _ _ _ h₁ hp hle
          | fail h₁ => exact ⟨vars, rfl⟩
          | crash => rfl

end Loop

/-- The pointers of a caller, which may have none for the first argument. -/
def pointers (skip : Bool) (ps : List ℕ) : List (Option ℕ) :=
  if skip then none :: ps.map some else ps.map some

/-- As many arguments more as are returned, or 0. -/
def Agrees (n : ℕ) : Outcome (Heap F) (List Addr) → Outcome (Heap F) (ℕ × Vars) → Prop
  | .ok xs h', out => ∃ vars', out = .ok (n + xs.length, vars') h'
  | .fail h', out => ∃ vars', out = .ok (0, vars') h'
  | .crash, out => out = .crash

theorem Agrees.cons {n : ℕ} {x : Op (Heap F) (List Addr)} {out : Outcome (Heap F) (ℕ × Vars)}
    (hx : Agrees (n + 1) (x h) out) (a : Addr) :
    Agrees n ((x >>= fun xs => pure (a :: xs)) h) out := by
  rw [Op.bind_apply]
  cases hxh : x h with
  | ok xs h' =>
    rw [hxh] at hx
    obtain ⟨vars', rfl⟩ := hx
    exact ⟨vars', by rw [List.length_cons, Nat.add_assoc, Nat.add_comm 1]⟩
  | fail h' =>
    rw [hxh] at hx
    exact hx
  | crash =>
    rw [hxh] at hx
    exact hx

/-- What the procedures are written with is the same call. -/
theorem vparse_of_vparseFrom : ∀ {fmt : List Char} (lis : List Litem) {ps : List ℕ} (n : ℕ)
    (opt skip : Bool) (vars : Vars) (h : Heap F), '*' ∉ fmt →
    (codes fmt).length ≤ (pointers skip ps).length →
    Agrees n (vparseFrom N fmt lis opt skip h) (vparse N fmt lis opt n (pointers skip ps) vars h)
  | [], lis, _, _, _, _, vars, _, _, _ => by
    unfold vparseFrom
    rw [vparse_end]
    cases lis <;> exact ⟨vars, rfl⟩
  | c :: p, lis, ps, n, opt, skip, vars, h, hstar, hps => by
    obtain ⟨hc, hp⟩ := List.ne_and_not_mem_of_not_mem_cons hstar
    by_cases hbar : c = '|'
    · subst hbar
      exact vparse_of_vparseFrom lis n true skip vars h hp hps
    rw [codes_cons hbar] at hps
    unfold vparseFrom
    rw [if_neg hbar]
    cases lis with
    | nil =>
      rw [vparse_short hbar]
      cases opt <;> exact ⟨vars, rfl⟩
    | cons li lis =>
      cases skip with
      | true =>
        have hle : (codes p).length ≤ (pointers false ps).length := Nat.le_of_succ_le_succ hps
        have hskip : vparse N (c :: p) (li :: lis) opt n (pointers true ps) vars =
            vparse N p lis opt (n + 1) (pointers false ps) vars := by
          conv_lhs => unfold vparse
          rw [if_neg hbar]
          rfl
        rw [hskip]
        exact (vparse_of_vparseFrom lis (n + 1) opt false vars h hp hle).cons li.o
      | false =>
        cases ps with
        | nil => exact absurd hps (Nat.not_succ_le_zero _)
        | cons q ps =>
          have hle : (codes p).length ≤ (pointers false ps).length := Nat.le_of_succ_le_succ hps
          have hcode : vparse N (c :: p) (li :: lis) opt n (pointers false (q :: ps)) vars = _ :=
            vparse_code hbar hc.symm
          rw [hcode, Op.bind_apply]
          dsimp only
          rw [Op.bind_apply]
          unfold convertArg Op.attempt
          rw [if_neg Bool.false_ne_true]
          cases convert N c li.o h with
          | ok u h₁ =>
            exact (vparse_of_vparseFrom lis (n + 1) opt false _ h₁ hp hle).cons li.o
          | fail h₁ => exact ⟨vars, rfl⟩
          | crash => rfl

/-! ### Conversions return -/

section Tidy

variable {h : Heap F} {a : Addr}

theorem tokenItems_ne_crash : ∀ (xs : List Bytes) (h : Heap F), tokenItems xs h ≠ .crash
  | [], _ => nofun
  | x :: xs, h => by
    refine Op.bind_ne_crash (x := alloc (.ofStr x)) nofun fun a h₁ _ => ?_
    refine Op.bind_ne_crash (x := newLitem a) nofun fun li h₂ _ => ?_
    exact Op.bind_ne_crash (tokenItems_ne_crash xs h₂) fun lis h₃ _ => nofun

theorem asStr_ne_crash (ht : Tidy h) (ha : a < h.next) : asStr N a h ≠ .crash := by
  obtain ⟨b, h', hok⟩ := ht.asStr_ok (N := N) ha
  rw [hok]
  exact nofun

theorem asFloat_ne_crash (ht : Tidy h) (ha : a < h.next) : asFloat N a h ≠ .crash := by
  unfold asFloat
  rw [Op.bind_ok (load_ok ha)]
  cases (h.obj a).f with
  | some f => exact nofun
  | none =>
    dsimp only
    split
    · refine Op.bind_ne_crash (asStr_ne_crash ht ha) fun b h₁ _ => ?_
      cases strFloat N b with
      | some f => exact nofun
      | none => exact nofun
    · exact nofun

/-- **A conversion returns** where nothing is in itself. -/
theorem convert_ne_crash (ht : Tidy h) (ha : a < h.next) (c : Char) : convert N c a h ≠ .crash := by
  unfold convert
  split
  · exact nofun
  · exact Op.bind_ne_crash (asStr_ne_crash ht ha) fun _ _ _ => nofun
  · refine Op.bind_ne_crash ?_ fun _ _ _ => nofun
    unfold asList
    rw [Op.bind_ok (load_ok ha)]
    cases (h.obj a).l with
    | some lis => exact nofun
    | none =>
      refine Op.bind_ne_crash (asStr_ne_crash ht ha) fun b h₁ _ => ?_
      cases doAsList b with
      | error e => exact nofun
      | ok xs => exact Op.bind_ne_crash (tokenItems_ne_crash xs h₁) fun _ _ _ => nofun
  · refine Op.bind_ne_crash ?_ fun _ _ _ => nofun
    unfold asInt
    rw [Op.bind_ok (load_ok ha)]
    cases (h.obj a).i with
    | some i => exact nofun
    | none =>
      refine Op.bind_ne_crash (asFloat_ne_crash ht ha) fun f h₁ _ => ?_
      cases N.floor f with
      | some i => exact nofun
      | none => exact nofun
  · exact Op.bind_ne_crash (asFloat_ne_crash ht ha) fun _ _ _ => nofun
  · exact nofun

theorem convert_grows (c : Char) (a : Addr) : Op.Keeps grows (convert N c a) := by
  unfold convert
  split
  · exact Op.keeps_pure _
  · exact Op.keeps_bind (keeps_grows (asStr_keeps reading_conv a)) fun _ => Op.keeps_pure _
  · exact Op.keeps_bind (asList_grows a) fun _ => Op.keeps_pure _
  · exact Op.keeps_bind (keeps_grows (asInt_keeps reading_conv a)) fun _ => Op.keeps_pure _
  · exact Op.keeps_bind (keeps_grows (asFloat_keeps reading_conv a)) fun _ => Op.keeps_pure _
  · exact Op.keeps_fail

theorem convertAll_ne_crash : ∀ {ps : List (Char × Addr)} {h : Heap F}, Tidy h →
    (∀ p ∈ ps, p.2 < h.next) → convertAll N ps h ≠ .crash
  | [], _, _, _ => nofun
  | (c, a) :: ps, h, ht, hps => by
    have hc : convert N c a h ≠ .crash := convert_ne_crash ht (hps (c, a) List.mem_cons_self) c
    refine Op.bind_ne_crash hc fun _ h₁ hok => ?_
    have hg : Grows h h₁ := (convert_grows (N := N) c a h).ok hok
    exact convertAll_ne_crash (hg.tidy ht) fun p hp =>
      Nat.lt_of_lt_of_le (hps p (List.mem_cons_of_mem _ hp)) hg.next

end Tidy

/-! ### A whole call -/

section Call

variable {r : List Char} {o : Option (List Char)} {l : Addr} {lis : List Litem} {ps : List ℕ}
  {vars : Vars} {h : Heap F} {fmt : String}

theorem not_mem_typeCodes {cs : List Char} (hcs : ∀ c ∈ cs, c ∈ typeCodes) : '|' ∉ cs ∧ '*' ∉ cs :=
  ⟨fun hmem => absurd (hcs _ hmem) (by decide), fun hmem => absurd (hcs _ hmem) (by decide)⟩

theorem codes_of_not_mem {cs : List Char} (hcs : '|' ∉ cs) : codes cs = cs :=
  List.filter_eq_self.mpr fun _ hc => decide_eq_true fun he => hcs (he ▸ hc)

theorem required_of_not_mem {cs : List Char} (hcs : '|' ∉ cs) : required cs = cs.length := by
  have hall : ∀ c ∈ cs, decide (c ≠ '|') = true := fun _ hc =>
    decide_eq_true fun he => hcs (he ▸ hc)
  have htake : (cs ++ []).takeWhile (· ≠ '|') = cs ++ [].takeWhile (· ≠ '|') :=
    List.takeWhile_append_of_pos hall
  rw [List.append_nil] at htake
  unfold required
  rw [htake, List.takeWhile_nil, List.append_nil]

/-- A format of type codes. -/
theorem format_codes (hr : ∀ c ∈ r, c ∈ typeCodes) (ho : ∀ os ∈ o, ∀ c ∈ os, c ∈ typeCodes) :
    '*' ∉ format r o ∧ codes (format r o) = r ++ o.getD [] ∧ required (format r o) = r.length := by
  obtain ⟨hbar, hstar⟩ := not_mem_typeCodes hr
  cases o with
  | none => exact ⟨hstar, by simp [format, codes_of_not_mem hbar], required_of_not_mem hbar⟩
  | some os =>
    obtain ⟨hbar', hstar'⟩ := not_mem_typeCodes (ho os rfl)
    refine ⟨by simp [format, hstar, hstar'], ?_, ?_⟩
    · have happ : codes (r ++ '|' :: os) = codes r ++ codes ('|' :: os) := List.filter_append ..
      unfold format
      rw [happ, codes_bar, codes_of_not_mem hbar, codes_of_not_mem hbar']
      rfl
    · have hall : ∀ c ∈ r, decide (c ≠ '|') = true := fun _ hc =>
        decide_eq_true fun he => hbar (he ▸ hc)
      unfold format required
      rw [List.takeWhile_append_of_pos hall]
      simp

theorem listVparse_eq (hl : l < h.next) (hlis : (h.obj l).l = some lis) (ap : List (Option ℕ)) :
    listVparse N l fmt ap vars h = vparse N fmt.toList lis false 0 ap vars h :=
  Op.bind_ok (items_ok hl hlis) _

/-- Enough items and not too many, which all convert. -/
theorem listVparse_fits {h' : Heap F} (hr : ∀ c ∈ r, c ∈ typeCodes)
    (ho : ∀ os ∈ o, ∀ c ∈ os, c ∈ typeCodes) (hl : l < h.next) (hlis : (h.obj l).l = some lis)
    (hps : ps.Nodup) (hfmt : fmt.toList = format r o)
    (hlen : (r ++ o.getD []).length ≤ ps.length) (hfits : Fits N r (o.getD []) lis h h') :
    ∃ vars', listVparse N l fmt (ps.map some) vars h = .ok (lis.length, vars') h' ∧
      Assigned ps (lis.map fun li => .obj li.o) vars vars' := by
  obtain ⟨hstar, hcodes, hreq⟩ := format_codes hr ho
  have hok := vparse_ok [] 0 false vars hstar (hcodes ▸ hlen)
    (hcodes ▸ hfits.converts)
  have hwhole : listVparse N l fmt (ps.map some) vars h =
      .ok (lis.length, assign vars ps (lis.map fun li => .obj li.o)) h' := by
    rw [listVparse_eq hl hlis, hfmt, ← List.append_nil (format r o), hok, hcodes, hreq,
      Nat.zero_add, Nat.zero_add, if_pos (Or.inr hfits.required)]
    split
    next hmax =>
      -- the format ends together with the list
      have hlen' : lis.length = (r ++ o.getD []).length :=
        le_antisymm (by simpa using hfits.optional) hmax
      rw [← hlen', List.drop_length, List.take_length]
      rfl
    next => rfl
  exact ⟨_, hwhole, assigned_assign hps⟩

/-- Too few items, or too many, or one that does not convert. -/
theorem listVparse_zero (hr : ∀ c ∈ r, c ∈ typeCodes) (ho : ∀ os ∈ o, ∀ c ∈ os, c ∈ typeCodes)
    (hl : l < h.next) (hlis : (h.obj l).l = some lis) (hfmt : fmt.toList = format r o)
    (hlen : (r ++ o.getD []).length ≤ ps.length) (hnot : ¬ ∃ h', Fits N r (o.getD []) lis h h')
    (hret : convertAll N ((r ++ o.getD []).zip (lis.map (·.o))) h ≠ .crash) :
    ∃ vars' h', listVparse N l fmt (ps.map some) vars h = .ok (0, vars') h' := by
  obtain ⟨hstar, hcodes, hreq⟩ := format_codes hr ho
  have hstop := vparse_stops (N := N) [] lis 0 false vars h hstar (hcodes ▸ hlen)
  rw [hcodes, List.append_nil] at hstop
  rw [listVparse_eq hl hlis, hfmt]
  cases hconv : convertAll N ((r ++ o.getD []).zip (lis.map (·.o))) h with
  | crash => exact absurd hconv hret
  | fail h' =>
    rw [hconv] at hstop
    obtain ⟨vars', hzero⟩ := hstop
    exact ⟨vars', h', hzero⟩
  | ok u h' =>
    -- they convert, so their number is wrong
    have hok := vparse_ok [] 0 false vars hstar (hcodes ▸ hlen)
      (hcodes ▸ hconv)
    rw [List.append_nil, hcodes, hreq] at hok
    rw [hok]
    split
    next hmax =>
      have hmore : lis.drop (r ++ o.getD []).length ≠ [] := by
        intro hnil
        have hle : lis.length ≤ (r ++ o.getD []).length := List.drop_eq_nil_iff.mp hnil
        rw [List.length_append] at hmax hle
        exact hnot ⟨h', Nat.le_trans (Nat.le_add_right ..) hmax, hle, hconv⟩
      rw [vparse_end, if_neg fun hemp => hmore (List.isEmpty_iff.mp hemp)]
      exact ⟨_, h', rfl⟩
    next hmax =>
      have hfew : ¬r.length ≤ lis.length := fun hle =>
        hnot ⟨h', hle, by rw [List.length_append] at hmax; omega, hconv⟩
      rw [if_neg fun hor => hor.elim Bool.false_ne_true hfew]
      exact ⟨_, h', rfl⟩

/-- A cursor on what is left behind the codes. -/
theorem listVparse_cursor {li : Litem} {lis' : List Litem} {h' : Heap F} (hr : ∀ c ∈ r, c ∈ typeCodes)
    (ho : ∀ os ∈ o, ∀ c ∈ os, c ∈ typeCodes) (hl : l < h.next) (hlis : (h.obj l).l = some lis)
    (hps : ps.Nodup) (hfmt : fmt.toList = format r o ++ ['*'])
    (hlen : (r ++ o.getD []).length < ps.length)
    (hdrop : lis.drop (r ++ o.getD []).length = li :: lis')
    (hconv : convertAll N ((r ++ o.getD []).zip (lis.map (·.o))) h = .ok () h') :
    ∃ vars', listVparse N l fmt (ps.map some) vars h = .ok ((r ++ o.getD []).length + 1, vars') h' ∧
      Assigned ps (((lis.take (r ++ o.getD []).length).map fun li => .obj li.o) ++ [.item li])
        vars vars' := by
  obtain ⟨hstar, hcodes, hreq⟩ := format_codes hr ho
  have hok := vparse_ok ['*'] 0 false vars hstar (hcodes ▸ hlen.le)
    (hcodes ▸ hconv)
  have hmax : (r ++ o.getD []).length ≤ lis.length := by
    by_contra hlt
    rw [List.drop_eq_nil_of_le (Nat.le_of_not_le hlt)] at hdrop
    cases hdrop
  have hitems : ((lis.take (r ++ o.getD []).length).map fun li => Out.obj li.o).length =
      (r ++ o.getD []).length := by
    rw [List.length_map, List.length_take, min_eq_left hmax]
  have hptr : ps.drop (r ++ o.getD []).length =
      ps[(r ++ o.getD []).length] :: ps.drop ((r ++ o.getD []).length + 1) :=
    List.drop_eq_getElem_cons hlen
  have hassign := assign_append [.item li] vars (hitems.trans_le hlen.le)
  rw [hitems, hptr, assign, assign_nil] at hassign
  refine ⟨_, ?_, assigned_assign hps⟩
  rw [listVparse_eq hl hlis, hfmt, hok, hcodes, if_pos hmax, hdrop, hptr, List.map_cons,
    vparse_star, Nat.zero_add, ← hassign]
  rfl

/-- **What `b6b_list_vparse` returns.** With a format `r` or `r|o` and a pointer for each code, it
returns the number of items, and has assigned each to its variable and touched no other, if there
are enough and not too many items and they all convert; else it returns 0. With a `*` behind the
codes it returns one more than there are codes, and a cursor on the next item, if the items in front
of it convert and there is one. And the conversions return, if nothing is in itself. -/
theorem parse_iff (N : Num F) (r : List Char) (o : Option (List Char)) (l : Addr) (lis : List Litem)
    (ps : List ℕ) (vars : Vars) (h : Heap F) (fmt : String) (hr : ∀ c ∈ r, c ∈ typeCodes)
    (ho : ∀ os ∈ o, ∀ c ∈ os, c ∈ typeCodes) (hl : l < h.next) (hlis : (h.obj l).l = some lis)
    (hps : ps.Nodup) :
    (fmt.toList = format r o → (r ++ o.getD []).length ≤ ps.length →
      (∀ h', Fits N r (o.getD []) lis h h' → ∃ vars',
        listVparse N l fmt (ps.map some) vars h = .ok (lis.length, vars') h' ∧
        Assigned ps (lis.map fun li => .obj li.o) vars vars') ∧
      ((¬ ∃ h', Fits N r (o.getD []) lis h h') →
        convertAll N ((r ++ o.getD []).zip (lis.map (·.o))) h ≠ .crash →
        ∃ vars' h', listVparse N l fmt (ps.map some) vars h = .ok (0, vars') h')) ∧
    (fmt.toList = format r o ++ ['*'] → (r ++ o.getD []).length < ps.length → ∀ li lis' h',
      lis.drop (r ++ o.getD []).length = li :: lis' →
      convertAll N ((r ++ o.getD []).zip (lis.map (·.o))) h = .ok () h' → ∃ vars',
        listVparse N l fmt (ps.map some) vars h = .ok ((r ++ o.getD []).length + 1, vars') h' ∧
        Assigned ps (((lis.take (r ++ o.getD []).length).map fun li => .obj li.o) ++ [.item li])
          vars vars') ∧
    (Tidy h → (∀ li ∈ lis, li.o < h.next) →
      convertAll N ((r ++ o.getD []).zip (lis.map (·.o))) h ≠ .crash) := by
  refine ⟨fun hfmt hlen => ⟨fun h' hfits => ?_, fun hnot hret => ?_⟩,
    fun hfmt hlen li lis' h' hdrop hconv => ?_, fun ht hin => ?_⟩
  · exact listVparse_fits hr ho hl hlis hps hfmt hlen hfits
  · exact listVparse_zero hr ho hl hlis hfmt hlen hnot hret
  · exact listVparse_cursor hr ho hl hlis hps hfmt hlen hdrop hconv
  · refine convertAll_ne_crash ht fun p hp => ?_
    obtain ⟨li, hli, heq⟩ := List.mem_map.mp (List.of_mem_zip hp).2
    exact heq ▸ hin li hli

/-- A procedure's name and a string, in a list. -/
def nameAndString : Heap ℤ :=
  ((Heap.empty.push (.ofStr (bytes "echo"))).push (.ofStr (bytes "x"))).push
    (.ofList [⟨0, 0⟩, ⟨1, 1⟩])

/-- Two arguments, for `os|i`: the third variable is left as it is. -/
theorem parse_iff_two : ∃ vars',
    listVparse wholeNum 2 "os|i" ([0, 1, 2].map some) (fun _ => none) nameAndString =
      .ok (2, vars') nameAndString ∧
    Assigned [0, 1, 2] [.obj 0, .obj 1] (fun _ => none) vars' := by
  have h := parse_iff wholeNum ['o', 's'] (some ['i']) 2 [⟨0, 0⟩, ⟨1, 1⟩] [0, 1, 2] (fun _ => none)
    nameAndString "os|i" (by simp [typeCodes]) (by simp [typeCodes]) (by decide) rfl (by decide)
  exact (h.1 rfl (by decide)).1 nameAndString ⟨by decide, by decide, rfl⟩

end Call

end Parse

end B6b
