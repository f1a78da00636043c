import Mathlib
import Steenrod.Paged
/-!
The pages of an append-only sequence and the list of what was appended. A sequence is used by three calls; what they answer is told from the list
alone. Main statements: a machine that follows the list in one call follows it in a run; page `k` holds the entries from place `2 ^ k - 1` on, and
the calls keep that; so the sequence answers as the list, and an entry stays where it was put.
-/
namespace Steenrod.Paged

variable {α σ : Type}

section Calls

/-- The calls by which a sequence grows: append an entry, append one that has to land at an index, append up to an index. -/
inductive Call (α : Type)
  | push (x : α)
  | pushAt (x : α) (i : ℕ)
  | extend (last : ℕ) (f : ℕ → α)

/-- What a call answers: the index of the new entry, nothing, or that the entry is refused. -/
inductive Answer
  | index (i : ℕ)
  | done
  | refused
  deriving DecidableEq

/-- The call on the list of the entries. -/
def Call.onList : Call α → List α → Answer × List α
  | push x, l => (.index l.length, l ++ [x])
  | pushAt x i, l => if i = l.length then (.done, l ++ [x]) else (.refused, l)
  | extend last f, l => (.done, l ++ (List.range' l.length (last + 1 - l.length)).map f)

/-- A list of calls, one after the other. -/
def answered : List (Call α) → List α → List Answer × List α
  | [], l => ([], l)
  | c :: cs, l =>
    let rest := answered cs (c.onList l).2
    ((c.onList l).1 :: rest.1, rest.2)

/-- The calls on a machine, which has no answer where it breaks down. -/
def run (step : Call α → σ → Option (Answer × σ)) : List (Call α) → σ → Option (List Answer × σ)
  | [], s => some ([], s)
  | c :: cs, s => do
    let first ← step c s
    let rest ← run step cs first.2
    some (first.1 :: rest.1, rest.2)

theorem Call.prefix_onList (c : Call α) (l : List α) : l <+: (c.onList l).2 := by
  cases c with
  | push x => exact List.prefix_append l [x]
  | pushAt x i =>
    rw [onList]
    split
    · exact List.prefix_append l [x]
    · exact List.prefix_refl l
  | extend last f => exact List.prefix_append l _

theorem prefix_answered (calls : List (Call α)) (l : List α) : l <+: (answered calls l).2 := by
  induction calls generalizing l with
  | nil => exact List.prefix_refl l
  | cons c cs ih => exact (c.prefix_onList l).trans (ih _)

/-- A machine that follows the list in every single call, as long as the list has room, follows it in every run. -/
theorem run_eq {step : Call α → σ → Option (Answer × σ)} {R : σ → List α → Prop} {room : ℕ}
    (hstep : ∀ c s l, R s l → (c.onList l).2.length < room → ∃ s', step c s = some ((c.onList l).1, s') ∧ R s' (c.onList l).2)
    (calls : List (Call α)) {s : σ} {l : List α} (h : R s l) (hroom : (answered calls l).2.length < room) :
    ∃ s', run step calls s = some ((answered calls l).1, s') ∧ R s' (answered calls l).2 := by
  induction calls generalizing s l with
  | nil => exact ⟨s, rfl, h⟩
  | cons c cs ih =>
    have hfirst := lt_of_le_of_lt (prefix_answered cs (c.onList l).2).length_le hroom
    obtain ⟨t, ht, hRt⟩ := hstep c s l h hfirst
    obtain ⟨s', hs', hRs'⟩ := ih hRt hroom
    refine ⟨s', ?_, hRs'⟩
    simp only [run, Option.bind_eq_bind]
    rw [ht, Option.bind_some, hs', Option.bind_some]
    rfl

/-- In two runs, one after the other, a machine answers as the list and shows the list, and what is in a cell after the first run stays there. -/
def Keeps (step : Call α → σ → Option (Answer × σ)) (start : σ) (Shows : σ → List α → Prop) (cell : σ → ℕ → ℕ → Option α)
    (calls later : List (Call α)) : Prop :=
  ∃ s s', run step calls start = some ((answered calls []).1, s) ∧ Shows s (answered calls []).2 ∧
    run step later s = some ((answered later (answered calls []).2).1, s') ∧ Shows s' (answered later (answered calls []).2).2 ∧
    ∀ k o x, cell s k o = some x → cell s' k o = some x

theorem keeps_of_step {step : Call α → σ → Option (Answer × σ)} {R Shows : σ → List α → Prop} (cell : σ → ℕ → ℕ → Option α)
    {room : ℕ} {start : σ} (hstep : ∀ c s l, R s l → (c.onList l).2.length < room → ∃ s', step c s = some ((c.onList l).1, s') ∧ R s' (c.onList l).2)
    (hshows : ∀ {s l}, R s l → l.length < room → Shows s l)
    (hcell : ∀ {s s' l l'}, R s l → R s' l' → l <+: l' → ∀ k o x, cell s k o = some x → cell s' k o = some x)
    (hstart : R start []) {calls later : List (Call α)} (hroom : (answered later (answered calls []).2).2.length < room) :
    Keeps step start Shows cell calls later := by
  have hinitial := prefix_answered later (answered calls []).2
  have hfirst := lt_of_le_of_lt hinitial.length_le hroom
  obtain ⟨s, hs, hR⟩ := run_eq hstep calls hstart hfirst
  obtain ⟨s', hs', hR'⟩ := run_eq hstep later hR hroom
  exact ⟨s, s', hs, hshows hR hfirst, hs', hshows hR' hroom, hcell hR hR' hinitial⟩

end Calls

section Places

variable {i k o : ℕ} {l l' : List α} {x : α}

theorem two_pow_le_of_locate (h : locate i = (k, o)) : 2 ^ k + o = i + 1 ∧ o < 2 ^ k := by
  have hindex := indexOf_locate i
  have hoffset := locate_offset_lt i
  have hpos : 0 < 2 ^ k := Nat.two_pow_pos k
  rw [h, indexOf, Nat.one_shiftLeft] at hindex
  rw [h, Nat.one_shiftLeft] at hoffset
  dsimp only at hindex hoffset
  omega

theorem locate_eq (h : 2 ^ k + o = i + 1) (ho : o < 2 ^ k) : locate i = (k, o) := by
  have hindex : indexOf k o = i := by
    rw [indexOf, Nat.one_shiftLeft]
    omega
  rw [← hindex]
  exact locate_indexOf (by rwa [Nat.one_shiftLeft])

/-- The indices and the places in the pages, page by page, determine each other. -/
theorem bijOn_locate : Set.BijOn locate Set.univ {place | place.2 < 2 ^ place.1} := by
  refine ⟨fun i _ => ?_, fun i _ j _ h => ?_, fun place hplace => ?_⟩
  · exact (two_pow_le_of_locate (rfl : locate i = ((locate i).1, (locate i).2))).2
  · rw [← indexOf_locate i, ← indexOf_locate j, h]
  · have hpos : 0 < 2 ^ place.1 := Nat.two_pow_pos place.1
    exact ⟨2 ^ place.1 + place.2 - 1, Set.mem_univ _, locate_eq (by omega) hplace⟩

theorem getElem?_append_of_ne (h : i ≠ l.length) : (l ++ [x])[i]? = l[i]? := by
  rcases Nat.lt_or_gt_of_ne h with hlt | hgt
  · exact List.getElem?_append_left hlt
  · rw [List.getElem?_eq_none hgt.le, List.getElem?_eq_none]
    rw [List.length_append, List.length_singleton]
    exact hgt

theorem getElem?_mono (h : l <+: l') (hx : l[i]? = some x) : l'[i]? = some x := by
  obtain ⟨rest, rfl⟩ := h
  rw [List.getElem?_append_left (List.getElem?_eq_some_iff.mp hx).1, hx]

/-- One more entry changes no place but that of its index. -/
theorem getElem?_append_of_locate_ne (h : ∀ o < 2 ^ k, locate l.length ≠ (k, o)) (ho : o < 2 ^ k) :
    (l ++ [x])[2 ^ k - 1 + o]? = l[2 ^ k - 1 + o]? := by
  have hpos : 0 < 2 ^ k := Nat.two_pow_pos k
  exact getElem?_append_of_ne fun heq => h o ho (locate_eq (by omega) ho)

/-- One more entry reaches no other page than that of its index. -/
theorem two_pow_le_length_succ (h : ∀ o < 2 ^ k, locate l.length ≠ (k, o)) : 2 ^ k ≤ l.length + 1 ↔ 2 ^ k ≤ l.length := by
  refine ⟨fun hle => ?_, Nat.le_succ_of_le⟩
  have hpos : 0 < 2 ^ k := Nat.two_pow_pos k
  by_contra hlt
  exact h 0 hpos (locate_eq (by omega) hpos)

theorem locate_ne (h : locate i = (k, o)) {j : ℕ} (hj : j ≠ k) : ∀ o' < 2 ^ j, locate i ≠ (j, o') := by
  intro o' _ heq
  rw [h] at heq
  exact hj (Prod.mk.inj heq).1.symm

end Places

section Pages

variable {i k o : ℕ} {l l' : List α} {s s' : Paged α} {x : α}

/-- The entries of the list that belong to a page. -/
def block (k : ℕ) (l : List α) : List α := (l.drop (2 ^ k - 1)).take (2 ^ k)

theorem getElem?_block (k : ℕ) (l : List α) (o : ℕ) : (block k l)[o]? = if o < 2 ^ k then l[2 ^ k - 1 + o]? else none := by
  rw [block, List.getElem?_take]
  split
  · rw [List.getElem?_drop]
  · rfl

/-- The pages that a list reaches hold its entries, and there are no others. -/
structure Stores (s : Paged α) (l : List α) : Prop where
  size : s.size = l.length
  pages : ∀ k, s.pages[k]? = if 2 ^ k ≤ l.length then some (block k l).toArray else none

theorem stores_empty : Stores (empty : Paged α) [] := by
  refine ⟨rfl, fun k => ?_⟩
  have hpos : 0 < 2 ^ k := Nat.two_pow_pos k
  rw [List.length_nil, if_neg (by omega)]
  rfl

/-- The entry at a place of the pages. -/
def cell (s : Paged α) (k o : ℕ) : Option α := s.pages[k]?.bind (·[o]?)

theorem Stores.cell_eq (h : Stores s l) (k o : ℕ) : s.cell k o = if o < 2 ^ k then l[2 ^ k - 1 + o]? else none := by
  rw [cell, h.pages]
  split
  · rw [Option.bind_some, List.getElem?_toArray, getElem?_block]
  · next hpage =>
    rw [Option.bind_none]
    split
    · exact (List.getElem?_eq_none (by omega)).symm
    · rfl

theorem Stores.get? (h : Stores s l) (i : ℕ) : s.get? i = l[i]? := by
  obtain ⟨k, o, hplace⟩ : ∃ k o, locate i = (k, o) := ⟨_, _, rfl⟩
  obtain ⟨hindex, hoffset⟩ := two_pow_le_of_locate hplace
  rw [Paged.get?, h.size, hplace]
  split
  · refine (h.cell_eq k o).trans ?_
    rw [if_pos hoffset, (by omega : 2 ^ k - 1 + o = i)]
  · next hi => exact (List.getElem?_eq_none (not_lt.mp hi)).symm

theorem block_append_of_ne (h : ∀ o < 2 ^ k, locate l.length ≠ (k, o)) : block k (l ++ [x]) = block k l := by
  refine List.ext_getElem? fun o => ?_
  rw [getElem?_block, getElem?_block]
  split
  · next ho => exact getElem?_append_of_locate_ne h ho
  · rfl

theorem block_append (h : locate l.length = (k, o)) : block k (l ++ [x]) = block k l ++ [x] ∧ (block k l).length = o := by
  obtain ⟨hindex, hoffset⟩ := two_pow_le_of_locate h
  have hlength : (l.drop (2 ^ k - 1)).length = o := by
    rw [List.length_drop]
    omega
  have hblock : block k l = l.drop (2 ^ k - 1) := List.take_of_length_le (by omega)
  refine ⟨?_, hblock ▸ hlength⟩
  rw [hblock, block, List.drop_append_of_le_length (by omega), List.take_of_length_le]
  rw [List.length_append, hlength]
  exact hoffset

/-- There are as many pages as the list reaches. -/
theorem Stores.size_pages (h : Stores s l) (hk : 2 ^ k = l.length + 1) : s.pages.size = k := by
  refine le_antisymm (Array.getElem?_eq_none_iff.mp ?_) (not_lt.mp fun hlt => ?_)
  · rw [h.pages, if_neg (by omega)]
  · have hle : 2 ^ (s.pages.size + 1) ≤ 2 ^ k := Nat.pow_le_pow_right (by decide) hlt
    have hpos : 0 < 2 ^ s.pages.size := Nat.two_pow_pos _
    have hnone := h.pages s.pages.size
    rw [pow_succ] at hle
    rw [if_pos (by omega), Array.getElem?_eq_none (le_refl _)] at hnone
    cases hnone

/-- The new entry ends the page of its place, which is opened for the offset 0. The other pages stay. -/
theorem Stores.push (h : Stores s l) (x : α) : Stores (s.push x) (l ++ [x]) := by
  obtain ⟨k, o, hplace⟩ : ∃ k o, locate l.length = (k, o) := ⟨_, _, rfl⟩
  obtain ⟨hindex, hoffset⟩ := two_pow_le_of_locate hplace
  obtain ⟨hblock, hlength⟩ := block_append (x := x) hplace
  have hopen : (s.push x).pages = if o = 0 then s.pages.push #[x] else s.pages.modify k (·.push x) := by
    rw [Paged.push, h.size, hplace]
  refine ⟨?_, fun j => ?_⟩
  · rw [List.length_append, ← h.size]
    rfl
  rw [hopen, List.length_append, List.length_singleton]
  by_cases hj : j = k
  · subst hj
    rw [if_pos (by omega : 2 ^ j ≤ l.length + 1), hblock]
    split
    · next ho =>
      rw [List.eq_nil_of_length_eq_zero (hlength.trans ho), ← h.size_pages (by omega : 2 ^ j = l.length + 1), Array.getElem?_push_size]
      rfl
    · next ho =>
      rw [Array.getElem?_modify, if_pos rfl, h.pages, if_pos (by omega), Option.map_some, List.push_toArray]
  · have hother := locate_ne hplace hj
    have hkept : (if o = 0 then s.pages.push #[x] else s.pages.modify k (·.push x))[j]? = s.pages[j]? := by
      split
      · next ho =>
        rw [Array.getElem?_push, if_neg]
        rw [h.size_pages (by omega : 2 ^ k = l.length + 1)]
        exact hj
      · rw [Array.getElem?_modify, if_neg (Ne.symm hj)]
    rw [hkept, h.pages, block_append_of_ne hother]
    exact if_congr (two_pow_le_length_succ hother).symm rfl rfl

theorem Stores.foldl_push (h : Stores s l) (xs : List α) : Stores (xs.foldl Paged.push s) (l ++ xs) := by
  induction xs generalizing s l with
  | nil => rwa [List.append_nil]
  | cons x xs ih =>
    have hrest := ih (h.push x)
    rwa [List.append_assoc] at hrest

theorem stores_ofList (l : List α) : Stores (ofList l) l := stores_empty.foldl_push l

theorem Stores.extend (h : Stores s l) (last : ℕ) (f : ℕ → α) :
    Stores (s.extend last f) (l ++ (List.range' l.length (last + 1 - l.length)).map f) := by
  have hpushed := h.foldl_push ((List.range' l.length (last + 1 - l.length)).map f)
  rw [Paged.extend, h.size]
  rwa [List.foldl_map] at hpushed

/-- The calls on the pages. -/
def Call.onPages : Call α → Paged α → Answer × Paged α
  | push x, s => (.index s.size, s.push x)
  | pushAt x i, s =>
    match s.pushAt? x i with
    | some s => (.done, s)
    | none => (.refused, s)
  | extend last f, s => (.done, s.extend last f)

theorem Stores.onPages (h : Stores s l) (c : Call α) : (c.onPages s).1 = (c.onList l).1 ∧ Stores (c.onPages s).2 (c.onList l).2 := by
  cases c with
  | push x => exact ⟨congrArg Answer.index h.size, h.push x⟩
  | pushAt x i =>
    simp only [Call.onPages, Call.onList, pushAt?, h.size]
    by_cases hi : i = l.length
    · rw [if_pos hi, if_pos hi]
      exact ⟨rfl, h.push x⟩
    · rw [if_neg hi, if_neg hi]
      exact ⟨rfl, h⟩
  | extend last f => exact ⟨rfl, h.extend last f⟩

end Pages

section Readers

variable {l l' : List α} {s s' : Paged α}

theorem filterMap_getElem? (l : List α) (n : ℕ) : (List.range n).filterMap (fun i => l[i]?) = l.take n := by
  induction n with
  | zero => rfl
  | succ n ih =>
    rw [List.range_succ, List.filterMap_append, ih, List.take_add_one]
    cases h : l[n]? <;> simp [h]

/-- What a sequence answers to its readers, from either end, is read off the list. -/
structure Shows (s : Paged α) (l : List α) : Prop where
  size : s.size = l.length
  get : ∀ i, s.get? i = l[i]?
  last : s.last? = l.getLast?
  forward : s.toList = l
  backward : (List.range s.size).reverse.filterMap s.get? = l.reverse

theorem Stores.shows (h : Stores s l) : Shows s l := by
  have hget : s.get? = fun i => l[i]? := funext h.get?
  have hforward : s.toList = l := by rw [toList, hget, h.size, filterMap_getElem?, List.take_length]
  refine ⟨h.size, h.get?, ?_, hforward, ?_⟩
  · rw [last?, List.getLast?_eq_getElem?, h.size, hget]
    split
    · next hzero => rw [List.eq_nil_of_length_eq_zero hzero, List.getElem?_nil]
    · rfl
  · rw [List.filterMap_reverse]
    exact congrArg List.reverse hforward

/-- An entry that has been stored keeps its page and its offset. -/
theorem Stores.cell_of_prefix (h : Stores s l) (h' : Stores s' l') (hinitial : l <+: l') {k o : ℕ} {x : α} (hx : s.cell k o = some x) :
    s'.cell k o = some x := by
  rw [h.cell_eq] at hx
  rw [h'.cell_eq]
  split at hx
  · next ho => rw [if_pos ho, getElem?_mono hinitial hx]
  · cases hx

theorem keeps (calls later : List (Call α)) : Keeps (fun c s => some (c.onPages s)) empty Shows cell calls later := by
  refine keeps_of_step cell (fun c s l h _ => ?_) (fun h _ => Stores.shows h) (fun h h' hinitial _ _ _ => Stores.cell_of_prefix h h' hinitial)
    stores_empty (Nat.lt_succ_self _)
  obtain ⟨hanswer, hstored⟩ := h.onPages c
  exact ⟨(c.onPages s).2, by rw [← hanswer], hstored⟩

end Readers
end Steenrod.Paged
