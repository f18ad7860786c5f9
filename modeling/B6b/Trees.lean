/-
# Lists of lists

A list is written and read one level at a time: `b6b_as_str` writes the texts of its items, and
`b6b_do_as_list` reads items that are texts, to be read again where a list is wanted. So nested lists
survive if the text of each of them survives as an item. It does, unless it is `{}`: that is written
as it stands, and read back as the empty text. An inner list without items is read back from that
too, but one whose only item is the empty text, or such a list, is not; and at the top it is the
other way around.

`nested_iff`: of the nested lists whose texts are safe and have balanced braces, exactly those are
read back from their text that have an item, and no inner list with the text `{}` and an item.

Key definitions: `Tree`, `Tree.str`, `Reads`, `Tree.Kept`.
-/
import B6b.Codec
import B6b.Evolve

namespace B6b

/-- Lists of lists, and the texts in them. -/
inductive Tree
  | text (s : Bytes)
  | list (ts : List Tree)

namespace Tree

open Scanner

/-! ### Writing and reading -/

mutual

/-- What `b6b_as_str` makes of it. -/
def str : Tree → Bytes
  | .text s => s
  | .list ts => listStr (strs ts)

def strs : List Tree → List Bytes
  | [] => []
  | t :: ts => t.str :: strs ts

end

mutual

/-- The text is read as the tree, if `b6b_do_as_list` reads it where the tree has a list. -/
inductive Reads : Tree → Bytes → Prop
  | text (s : Bytes) : Reads (.text s) s
  | list {ts : List Tree} {s : Bytes} {xs : List Bytes} (hok : doAsList s = .ok xs)
      (hts : ReadsAll ts xs) : Reads (.list ts) s

inductive ReadsAll : List Tree → List Bytes → Prop
  | nil : ReadsAll [] []
  | cons {t : Tree} {ts : List Tree} {x : Bytes} {xs : List Bytes} (ht : Reads t x)
      (hts : ReadsAll ts xs) : ReadsAll (t :: ts) (x :: xs)

end

section Heap

variable {F : Type}

mutual

/-- The object at `a` is the tree: its lists have no string, or this one. -/
inductive Holds (N : Num F) (h : Heap F) : Addr → Tree → Prop
  | text {a s} (hv : Val N h a s) : Holds N h a (.text s)
  | list {a lis ts} (hs : ∀ b, (h.obj a).s = some b → b = (list ts).str)
      (hl : (h.obj a).l = some lis) (hts : HoldsAll N h lis ts) : Holds N h a (.list ts)

inductive HoldsAll (N : Num F) (h : Heap F) : List Litem → List Tree → Prop
  | nil : HoldsAll N h [] []
  | cons {li lis t ts} (ht : Holds N h li.o t) (hts : HoldsAll N h lis ts) :
      HoldsAll N h (li :: lis) (t :: ts)

end

variable {N : Num F} {h h' : Heap F}

mutual

theorem Holds.val {a : Addr} {t : Tree} : Holds N h a t → Val N h a t.str
  | .text hv => hv
  | .list hs hl hts => by
    cases hstr : (h.obj a).s with
    | none => exact .list hstr hl hts.vals
    | some b => exact .str (hs b hstr ▸ hstr)

theorem HoldsAll.vals {lis : List Litem} {ts : List Tree} : HoldsAll N h lis ts → Vals N h lis (strs ts)
  | .nil => .nil
  | .cons ht hts => .cons ht.val hts.vals

end

/-- `b6b_as_str` writes the tree. -/
theorem Holds.asStr_eq {a : Addr} {t : Tree} {b : Bytes} (ht : Holds N h a t)
    (hok : asStr N a h = .ok b h') : b = t.str :=
  ((asStr_returns N a h).ok hok).2.1.unique ht.val

end Heap

/-! ### Which trees -/

mutual

/-- Its texts are safe and have balanced braces. -/
def Clean : Tree → Prop
  | .text s => Safe s ∧ BracBalanced s
  | .list ts => CleanAll ts

def CleanAll : List Tree → Prop
  | [] => True
  | t :: ts => t.Clean ∧ CleanAll ts

end

mutual

/-- No list in it has the text `{}` and an item. -/
def Kept : Tree → Prop
  | .text _ => True
  | .list ts => ts ≠ [.text []] ∧ ts ≠ [.list []] ∧ KeptAll ts

def KeptAll : List Tree → Prop
  | [] => True
  | t :: ts => t.Kept ∧ KeptAll ts

end

/-! ### What a text begins and ends with -/

/-- `{}` -/
abbrev braces : Bytes := [lbrac, rbrac]

theorem quote_ne_nil (x : Bytes) : quote x ≠ [] := by
  unfold quote
  split
  · exact List.cons_ne_nil _ _
  · next h => exact fun hx => h (.inl hx)

theorem listStr_ne_nil (xs : List Bytes) : listStr xs ≠ [] := by
  cases xs with
  | nil => exact List.cons_ne_nil _ _
  | cons x xs =>
    rw [listStr_cons]
    exact fun h => quote_ne_nil x (List.append_eq_nil_iff.mp h).1

theorem listStr_singleton (x : Bytes) : listStr [x] = quote x := by
  rw [listStr_cons, tailStr, List.flatMap_nil, List.append_nil]

theorem quote_braces : quote braces = braces := by decide

theorem not_safe_braces : ¬ Safe braces := by
  rintro (h | ⟨h, -⟩ | ⟨-, -, h, -⟩)
  · cases h
  · cases h
  · exact h rfl

theorem balanced_braces : BracBalanced braces := balanced_nil.enclose lbrac_ne_rbrac

/-- Between two items there is a blank. -/
theorem spaced_listStr (x y : Bytes) (xs : List Bytes) : spaced (listStr (x :: y :: xs)) = true := by
  have hmem : blank ∈ listStr (x :: y :: xs) := by
    rw [listStr_cons]
    exact List.mem_append_right _ List.mem_cons_self
  exact List.any_eq_true.mpr ⟨blank, hmem, isspace_blank⟩

theorem balanced_quote {x : Bytes} (hx : BracBalanced x) : BracBalanced (quote x) := by
  unfold quote
  split
  · exact hx.enclose lbrac_ne_rbrac
  · exact hx

theorem balanced_tailStr : ∀ {xs : List Bytes}, (∀ x ∈ xs, BracBalanced x) → BracBalanced (tailStr xs)
  | [], _ => balanced_nil
  | x :: xs, h => by
    obtain ⟨hx, hxs⟩ := List.forall_mem_cons.mp h
    have htail : tailStr (x :: xs) = blank :: (quote x ++ tailStr xs) := by
      rw [tailStr, List.flatMap_cons, List.cons_append]
      rfl
    rw [htail]
    exact ((balanced_quote hx).append (balanced_tailStr hxs)).cons (by decide) (by decide)

/-- The text of a list has balanced braces if those of its items have. -/
theorem balanced_listStr {xs : List Bytes} (h : ∀ x ∈ xs, BracBalanced x) : BracBalanced (listStr xs) := by
  cases xs with
  | nil => exact balanced_braces
  | cons x xs =>
    obtain ⟨hx, hxs⟩ := List.forall_mem_cons.mp h
    rw [listStr_cons]
    exact (balanced_quote hx).append (balanced_tailStr hxs)

mutual

theorem Clean.balanced : ∀ {t : Tree}, t.Clean → BracBalanced t.str
  | .text _, h => h.2
  | .list _, h => balanced_listStr (CleanAll.balanced h)

theorem CleanAll.balanced : ∀ {ts : List Tree}, CleanAll ts → ∀ x ∈ strs ts, BracBalanced x
  | [], _ => nofun
  | _ :: _, h => List.forall_mem_cons.mpr ⟨Clean.balanced h.1, CleanAll.balanced h.2⟩

end

/-- Of the texts, exactly `{}` is not read back as an item. -/
theorem safe_quote_iff {x : Bytes} (hx : Safe x) (hb : BracBalanced x) :
    Safe (quote x) ↔ quote x ≠ braces := by
  by_cases hq : x = [] ∨ spaced x = true
  · have hquote : quote x = lbrac :: x ++ [rbrac] := if_pos hq
    by_cases hnil : x = []
    · subst hnil
      exact iff_of_false not_safe_braces fun h => h rfl
    · have hsp : spaced (quote x) = true := by
        obtain ⟨c, hc, hsc⟩ := List.any_eq_true.mp (hq.resolve_left hnil)
        rw [hquote]
        exact List.any_eq_true.mpr ⟨c, List.mem_append_left _ (List.mem_cons_of_mem _ hc), hsc⟩
      refine iff_of_true (.inr (.inl ⟨hsp, balanced_quote hb⟩)) fun h => ?_
      rw [h] at hsp
      cases hsp
  · have hquote : quote x = x := if_neg hq
    rw [hquote]
    exact iff_of_true hx fun h => not_safe_braces (h ▸ hx)

/-- The text of a tree survives as an item, unless it is `{}`. -/
theorem Clean.safe_iff : ∀ {t : Tree}, t.Clean → (Safe t.str ↔ t.str ≠ braces)
  | .text s, h => iff_of_true h.1 fun hs => not_safe_braces (hs ▸ h.1)
  | .list [], _ => iff_of_false not_safe_braces fun h => h rfl
  | .list [t], h => by
    have hstr : (list [t]).str = quote t.str := listStr_singleton t.str
    rw [hstr]
    by_cases hb : t.str = braces
    · rw [hb, quote_braces]
      exact iff_of_false not_safe_braces fun h => h rfl
    · exact safe_quote_iff (h.1.safe_iff.mpr hb) h.1.balanced
  | .list (t :: u :: ts), h => by
    have hsp : spaced (list (t :: u :: ts)).str = true := spaced_listStr t.str u.str (strs ts)
    refine iff_of_true (.inr (.inl ⟨hsp, h.balanced⟩)) fun hb => ?_
    rw [hb] at hsp
    cases hsp

/-! ### Reading what was written -/

/-- An item as it is read back. -/
def strip (x : Bytes) : Bytes := if x = braces then [] else x

theorem quote_strip (x : Bytes) : quote (strip x) = quote x := by
  unfold strip
  split
  · next h => rw [h, quote_braces]; rfl
  · rfl

theorem tailStr_strip (xs : List Bytes) : tailStr (xs.map strip) = tailStr xs := by
  unfold tailStr
  rw [List.flatMap_map]
  exact congrArg (List.flatMap · xs) (funext fun x => by rw [quote_strip])

theorem listStr_strip {xs : List Bytes} (hne : xs ≠ []) : listStr (xs.map strip) = listStr xs := by
  obtain ⟨x, xs, rfl⟩ := List.exists_cons_of_ne_nil hne
  rw [List.map_cons, listStr_cons, listStr_cons, quote_strip, tailStr_strip]

theorem Clean.safe_strip {t : Tree} (h : t.Clean) : Safe (strip t.str) := by
  unfold strip
  split
  · exact .inl rfl
  · next hb => exact h.safe_iff.mpr hb

theorem CleanAll.safe_strip : ∀ {ts : List Tree}, CleanAll ts → ∀ x ∈ (strs ts).map strip, Safe x
  | [], _ => nofun
  | _ :: _, h => List.forall_mem_cons.mpr ⟨Clean.safe_strip h.1, CleanAll.safe_strip h.2⟩

/-- The items of a list are read back, but for those with the text `{}`. -/
theorem doAsList_str {ts : List Tree} (hne : ts ≠ []) (h : CleanAll ts) :
    doAsList (list ts).str = .ok ((strs ts).map strip) := by
  obtain ⟨t, ts, rfl⟩ := List.exists_cons_of_ne_nil hne
  have hstr : (list (t :: ts)).str = listStr ((strs (t :: ts)).map strip) :=
    (listStr_strip (List.cons_ne_nil t.str (strs ts))).symm
  rw [hstr]
  exact (roundtrip_iff _).mpr ⟨List.cons_ne_nil _ _, h.safe_strip⟩

theorem reads_list_iff {ts : List Tree} {s : Bytes} {xs : List Bytes} (hok : doAsList s = .ok xs) :
    Reads (.list ts) s ↔ ReadsAll ts xs := by
  refine ⟨fun h => ?_, .list hok⟩
  cases h with
  | list hok' hts => exact Except.ok.inj (hok'.symm.trans hok) ▸ hts

theorem readsAll_cons_iff {t : Tree} {ts : List Tree} {x : Bytes} {xs : List Bytes} :
    ReadsAll (t :: ts) (x :: xs) ↔ Reads t x ∧ ReadsAll ts xs := by
  refine ⟨fun h => ?_, fun h => .cons h.1 h.2⟩
  cases h with
  | cons ht hts => exact ⟨ht, hts⟩

theorem readsAll_nil_iff {ts : List Tree} : ReadsAll ts [] ↔ ts = [] := by
  constructor
  · intro h
    cases h
    rfl
  · rintro rfl
    exact .nil

theorem doAsList_nil : doAsList [] = .ok [] := (doAsList_iff [] []).mpr .nil

theorem eq_of_quote {x : Bytes} (h : quote x = braces) : x = [] ∨ x = braces := by
  unfold quote at h
  split at h
  · have hx : x ++ [rbrac] = [rbrac] := (List.cons.inj h).2
    exact .inl (List.append_left_eq_self.mp hx)
  · exact .inr h

/-- A list with the text `{}` is kept only if it has no item. -/
theorem Kept.nil_of_braces : ∀ {ts : List Tree}, CleanAll ts → Kept (.list ts) →
    (list ts).str = braces → ts = []
  | [], _, _, _ => rfl
  | [t], hc, ⟨htext, hlist, hk, _⟩, hb => by
    have hq : quote t.str = braces := (listStr_singleton t.str).symm.trans hb
    cases t with
    | text s =>
      rcases eq_of_quote hq with rfl | hs
      · exact absurd rfl htext
      · exact absurd (hs ▸ hc.1.1) not_safe_braces
    | list us =>
      rcases eq_of_quote hq with hs | hs
      · exact absurd hs (listStr_ne_nil (strs us))
      · obtain rfl := Kept.nil_of_braces hc.1 hk hs
        exact absurd rfl hlist
  | t :: u :: ts, _, _, hb => by
    have hsp : spaced (list (t :: u :: ts)).str = true := spaced_listStr t.str u.str (strs ts)
    rw [hb] at hsp
    cases hsp

mutual

/-- An inner tree is read back exactly if it is kept. -/
theorem Clean.reads_iff : ∀ {t : Tree}, t.Clean → (Reads t (strip t.str) ↔ t.Kept)
  | .text s, h => by
    have hs : strip (text s).str = s := if_neg fun hb : s = braces => not_safe_braces (hb ▸ h.1)
    rw [hs]
    exact iff_of_true (.text s) trivial
  | .list ts, h => by
    by_cases hb : (list ts).str = braces
    · rw [strip, if_pos hb, reads_list_iff doAsList_nil, readsAll_nil_iff]
      refine ⟨?_, fun hk => hk.nil_of_braces h hb⟩
      rintro rfl
      exact ⟨nofun, nofun, trivial⟩
    · have hne : ts ≠ [] := by
        rintro rfl
        exact hb rfl
      rw [strip, if_neg hb, reads_list_iff (doAsList_str hne h), CleanAll.reads_iff h]
      refine ⟨fun hk => ⟨?_, ?_, hk⟩, fun hk => hk.2.2⟩
      · rintro rfl
        exact hb rfl
      · rintro rfl
        exact hb rfl

theorem CleanAll.reads_iff : ∀ {ts : List Tree}, CleanAll ts →
    (ReadsAll ts ((strs ts).map strip) ↔ KeptAll ts)
  | [], _ => iff_of_true .nil trivial
  | t :: ts, h => by
    rw [strs, List.map_cons, readsAll_cons_iff, Clean.reads_iff h.1, CleanAll.reads_iff h.2]
    exact Iff.rfl

end

/-- **Which nested lists are read back from their text.** Of those whose texts are safe and have
balanced braces, the ones with an item, and no list inside that has an item and the text `{}`. -/
theorem nested_iff {F : Type} (N : Num F) {h h' : Heap F} {a : Addr} {ts : List Tree} {b : Bytes}
    (ht : Holds N h a (.list ts)) (hc : CleanAll ts) (hok : asStr N a h = .ok b h') :
    Reads (.list ts) b ↔ ts ≠ [] ∧ KeptAll ts := by
  rw [ht.asStr_eq hok]
  by_cases hne : ts = []
  · subst hne
    have hbraces : doAsList braces = .ok [[]] :=
      (roundtrip_iff [[]]).mpr ⟨List.cons_ne_nil _ _, List.forall_mem_singleton.mpr (.inl rfl)⟩
    refine iff_of_false (fun h => ?_) fun h => h.1 rfl
    have hnil := (reads_list_iff hbraces).mp h
    cases hnil
  · rw [reads_list_iff (doAsList_str hne hc), hc.reads_iff]
    exact (and_iff_right hne).symm

/-- `{a {b c} {}}`, in lists. -/
def sample : Heap ℤ :=
  [.ofStr [0x61], .ofStr [0x62], .ofStr [0x63], .ofList [⟨0, 1⟩, ⟨1, 2⟩], .ofList [],
    .ofList [⟨2, 0⟩, ⟨3, 3⟩, ⟨4, 4⟩]].foldl Heap.push Heap.empty

def sampleTrees : List Tree := [.text [0x61], .list [.text [0x62], .text [0x63]], .list []]

theorem holds_sample : Holds wholeNum sample 5 (.list sampleTrees) :=
  .list nofun rfl (.cons (.text (.str rfl)) (.cons
    (.list nofun rfl (.cons (.text (.str rfl)) (.cons (.text (.str rfl)) .nil)))
    (.cons (.list nofun rfl .nil) .nil)))

/-- The empty list inside is kept. -/
theorem nested_kept : ∃ b h', asStr wholeNum 5 sample = .ok b h' ∧
    (Reads (.list sampleTrees) b ↔ sampleTrees ≠ [] ∧ KeptAll sampleTrees) := by
  have hok : ∃ b h', asStr wholeNum 5 sample = .ok b h' := ⟨_, _, rfl⟩
  obtain ⟨b, h', hok⟩ := hok
  have hletter {c : UInt8} (hc : isspace c = false ∧ c ≠ lbrac ∧ c ≠ rbrac ∧ c ≠ lbrak) :
      Safe [c] ∧ BracBalanced [c] := by
    obtain ⟨hsp, hl, hr, hbrak⟩ := hc
    refine ⟨safe_word ⟨List.cons_ne_nil _ _, fun d hd => ?_, fun h => hl (Option.some.inj h),
      fun h => hbrak (Option.some.inj h)⟩, balanced_nil.cons hl hr⟩
    rw [List.mem_singleton.mp hd]
    exact hsp
  refine ⟨b, h', hok, nested_iff wholeNum holds_sample ⟨?_, ⟨?_, ?_, trivial⟩, trivial, trivial⟩ hok⟩
  · exact hletter (by decide)
  · exact hletter (by decide)
  · exact hletter (by decide)

end Tree

end B6b
