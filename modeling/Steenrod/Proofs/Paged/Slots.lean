import Steenrod.Proofs.Paged.Pages
import Steenrod.Proofs.Prime.Words
/-!
Append-only sequences in write-once slots, on a machine whose words have a given number of bits. There is one page for each bit; a page is allocated,
with all its slots, when the first of them is written, and the place of an index is found by counting leading zeros. A step has no answer where a
number leaves the words, where a page or a slot is missing, or where a slot would be written twice. Main statements: the place that is found is that
of `Paged.locate`; as long as the entries can be counted in a word, no step fails; and the slots, like the pages, answer every run of calls as the
list of what was appended, which no later call moves or changes.
-/
namespace Steenrod

/-- A page may not be there yet, and a slot of a page may not be written yet. -/
structure Slots (α : Type) where
  pages : Array (Option (Array (Option α)))
  size : ℕ

namespace Slots

open Paged (Call Answer answered run)

variable {α : Type}

section Machine

variable (bits : ℕ)

/-- A number, if it fits a word. -/
def word (n : ℕ) : Option ℕ := fit (2 ^ bits - 1) n

/-- The page of an index, from the leading zeros of the number after it, and the offset. -/
def locate? (i : ℕ) : Option (ℕ × ℕ) := do
  let shifted ← word bits (i + 1)
  let page ← minus? (bits - 1) (BitVec.ofNat bits shifted).clz.toNat
  let first ← word bits (2 ^ page)
  let offset ← minus? shifted first
  some (page, offset)

def empty : Slots α := ⟨Array.replicate bits none, 0⟩

/-- The entry at an index, or that there is none. -/
def get? (s : Slots α) (i : ℕ) : Option (Option α) :=
  if s.size ≤ i then some none
  else do
    let place ← locate? bits i
    match ← s.pages[place.1]? with
    | none => some none
    | some slots => slots[place.2]?

/-- The entry at an index, which must be there. -/
def index? (s : Slots α) (i : ℕ) : Option α := (s.get? bits i).join

def last? (s : Slots α) : Option (Option α) :=
  match minus? s.size 1 with
  | none => some none
  | some i => s.get? bits i

/-- The entries, as an iterator finds them. -/
def forward? (s : Slots α) : Option (List α) := (List.range s.size).mapM (s.index? bits)

/-- The entries from the last to the first. -/
def backward? (s : Slots α) : Option (List α) := (List.range s.size).reverse.mapM (s.index? bits)

/-- Write the next slot, which must be empty, in a page that is allocated if it is not there. -/
def push? (s : Slots α) (x : α) : Option (ℕ × Slots α) := do
  let place ← locate? bits s.size
  let page ← s.pages[place.1]?
  let slots := page.getD (Array.replicate (2 ^ place.1) none)
  let slot ← slots[place.2]?
  if slot.isSome then none
  else do
    let size ← word bits (s.size + 1)
    some (s.size, ⟨s.pages.setIfInBounds place.1 (some (slots.setIfInBounds place.2 (some x))), size⟩)

/-- The calls on the slots. -/
def onCall : Call α → Slots α → Option (Answer × Slots α)
  | .push x, s => do
    let pushed ← s.push? bits x
    some (.index pushed.1, pushed.2)
  | .pushAt x i, s =>
    if s.size = i then do
      let pushed ← s.push? bits x
      some (.done, pushed.2)
    else some (.refused, s)
  | .extend last f, s => do
    let s ← (List.range' s.size (last + 1 - s.size)).foldlM (fun s i => (s.push? bits (f i)).map Prod.snd) s
    some (.done, s)

end Machine

section Places

variable {bits i : ℕ}

theorem word_of_lt {n : ℕ} (h : n < 2 ^ bits) : word bits n = some n := fit_of_le (by omega)

/-- The leading zeros of a word tell its largest power of 2. -/
theorem clz_ofNat {n k : ℕ} (hlow : 2 ^ k ≤ n) (hhigh : n < 2 ^ (k + 1)) (hn : n < 2 ^ bits) :
    (BitVec.ofNat bits n).clz.toNat + k + 1 = bits := by
  have hk : k < bits := (Nat.pow_lt_pow_iff_right (by decide)).mp (lt_of_le_of_lt hlow hn)
  have hvalue : (BitVec.ofNat bits n).toNat = n := by rw [BitVec.toNat_ofNat, Nat.mod_eq_of_lt hn]
  have hne : BitVec.ofNat bits n ≠ BitVec.ofNat bits 0 := by
    intro h
    have hzero := congrArg BitVec.toNat h
    rw [hvalue, BitVec.toNat_zero] at hzero
    have hpos : 0 < 2 ^ k := Nat.two_pow_pos k
    omega
  have hbelow := BitVec.two_pow_sub_clz_le_toNat_of_ne_zero (by omega) hne
  have habove := BitVec.toNat_lt_two_pow_sub_clz (x := BitVec.ofNat bits n)
  rw [hvalue] at hbelow habove
  have h₁ := (Nat.pow_lt_pow_iff_right (by decide)).mp (lt_of_le_of_lt hbelow hhigh)
  have h₂ := (Nat.pow_lt_pow_iff_right (by decide)).mp (lt_of_le_of_lt hlow habove)
  omega

/-- The words suffice to find the place of every index but the largest word. -/
theorem locate?_eq (h : i + 1 < 2 ^ bits) : locate? bits i = some (Paged.locate i) := by
  obtain ⟨k, o, hplace⟩ : ∃ k o, Paged.locate i = (k, o) := ⟨_, _, rfl⟩
  obtain ⟨hindex, hoffset⟩ := Paged.two_pow_le_of_locate hplace
  have hclz := clz_ofNat (k := k) (n := i + 1) (by omega) (by rw [pow_succ]; omega) h
  simp only [locate?, Option.bind_eq_bind]
  rw [word_of_lt h, Option.bind_some, minus?_of_le (by omega), Option.bind_some,
    (by omega : bits - 1 - (BitVec.ofNat bits (i + 1)).clz.toNat = k), word_of_lt (by omega), Option.bind_some, minus?_of_le (by omega),
    Option.bind_some, hplace, (by omega : i + 1 - 2 ^ k = o)]

end Places

section Cells

variable {bits k o : ℕ} {l l' : List α} {s s' : Slots α} {x : α}

/-- The slots of a page, written as far as the list goes. -/
def slotsOf (k : ℕ) (l : List α) : Array (Option α) := Array.ofFn fun o : Fin (2 ^ k) => l[2 ^ k - 1 + o.val]?

theorem getElem?_slotsOf (k : ℕ) (l : List α) (o : ℕ) : (slotsOf k l)[o]? = if o < 2 ^ k then some l[2 ^ k - 1 + o]? else none := by
  rw [slotsOf, Array.getElem?_ofFn]
  split <;> rfl

theorem size_slotsOf (k : ℕ) (l : List α) : (slotsOf k l).size = 2 ^ k := Array.size_ofFn

/-- A page for each bit; those that the list reaches are allocated and hold its entries. -/
structure Stores (bits : ℕ) (s : Slots α) (l : List α) : Prop where
  size : s.size = l.length
  pages : ∀ k, s.pages[k]? = if k < bits then some (if 2 ^ k ≤ l.length then some (slotsOf k l) else none) else none

theorem stores_empty (bits : ℕ) : Stores bits (empty bits : Slots α) [] := by
  refine ⟨rfl, fun k => ?_⟩
  have hpos : 0 < 2 ^ k := Nat.two_pow_pos k
  rw [empty, Array.getElem?_replicate, List.length_nil, if_neg (by omega : ¬2 ^ k ≤ 0)]

/-- A page that is not reached has empty slots. -/
theorem slotsOf_of_lt (h : l.length < 2 ^ k) : slotsOf k l = Array.replicate (2 ^ k) none := by
  refine Array.ext_getElem? fun o => ?_
  rw [getElem?_slotsOf, Array.getElem?_replicate]
  split
  · rw [List.getElem?_eq_none (by omega)]
  · rfl

theorem slotsOf_append_of_ne (h : ∀ o < 2 ^ k, Paged.locate l.length ≠ (k, o)) : slotsOf k (l ++ [x]) = slotsOf k l := by
  refine Array.ext_getElem? fun o => ?_
  rw [getElem?_slotsOf, getElem?_slotsOf]
  split
  · next ho => rw [Paged.getElem?_append_of_locate_ne h ho]
  · rfl

/-- The new entry fills the slot of its index, which was empty, and no other. -/
theorem slotsOf_append (h : Paged.locate l.length = (k, o)) :
    (slotsOf k l)[o]? = some none ∧ slotsOf k (l ++ [x]) = (slotsOf k l).setIfInBounds o (some x) := by
  obtain ⟨hindex, hoffset⟩ := Paged.two_pow_le_of_locate h
  refine ⟨?_, Array.ext_getElem? fun o' => ?_⟩
  · rw [getElem?_slotsOf, if_pos hoffset, List.getElem?_eq_none (by omega)]
  · rw [Array.getElem?_setIfInBounds, size_slotsOf, getElem?_slotsOf, getElem?_slotsOf]
    by_cases ho' : o = o'
    · subst ho'
      rw [if_pos rfl, if_pos hoffset, if_pos hoffset, (by omega : 2 ^ k - 1 + o = l.length), List.getElem?_concat_length]
    · rw [if_neg ho', Paged.getElem?_append_of_ne (by omega)]

theorem Stores.push (h : Stores bits s l) (hroom : l.length + 1 < 2 ^ bits) (x : α) :
    ∃ s', s.push? bits x = some (l.length, s') ∧ Stores bits s' (l ++ [x]) := by
  obtain ⟨k, o, hplace⟩ : ∃ k o, Paged.locate l.length = (k, o) := ⟨_, _, rfl⟩
  obtain ⟨hindex, hoffset⟩ := Paged.two_pow_le_of_locate hplace
  obtain ⟨hempty, hfilled⟩ := slotsOf_append (x := x) hplace
  have hk : k < bits := (Nat.pow_lt_pow_iff_right (by decide)).mp (lt_of_le_of_lt (by omega) hroom)
  have hslots : (if 2 ^ k ≤ l.length then some (slotsOf k l) else none).getD (Array.replicate (2 ^ k) none) = slotsOf k l := by
    split
    · rfl
    · next hlt => exact (slotsOf_of_lt (not_le.mp hlt)).symm
  have hwide : k < s.pages.size := by
    rw [← not_le, ← Array.getElem?_eq_none_iff, h.pages, if_pos hk]
    exact Option.some_ne_none _
  refine ⟨⟨s.pages.setIfInBounds k (some (slotsOf k (l ++ [x]))), l.length + 1⟩, ?_, ?_, fun j => ?_⟩
  · simp only [push?, Option.bind_eq_bind]
    rw [h.size, locate?_eq hroom, Option.bind_some, hplace, h.pages, if_pos hk, Option.bind_some, hslots, hempty, Option.bind_some,
      Option.isSome_none, if_neg Bool.false_ne_true, word_of_lt hroom, Option.bind_some, hfilled]
  · rw [List.length_append, List.length_singleton]
  · rw [Array.getElem?_setIfInBounds, List.length_append, List.length_singleton]
    by_cases hj : k = j
    · subst hj
      rw [if_pos rfl, if_pos hwide, if_pos hk, if_pos (by omega : 2 ^ k ≤ l.length + 1)]
    · have hother := Paged.locate_ne hplace (Ne.symm hj)
      rw [if_neg hj, h.pages, slotsOf_append_of_ne hother]
      exact if_congr Iff.rfl (congrArg some (if_congr (Paged.two_pow_le_length_succ hother).symm rfl rfl)) rfl

theorem Stores.foldlM_push (h : Stores bits s l) (f : ℕ → α) (is : List ℕ) (hroom : (l ++ is.map f).length < 2 ^ bits) :
    ∃ s', is.foldlM (fun s i => (s.push? bits (f i)).map Prod.snd) s = some s' ∧ Stores bits s' (l ++ is.map f) := by
  induction is generalizing s l with
  | nil => exact ⟨s, rfl, by rwa [List.map_nil, List.append_nil]⟩
  | cons i is ih =>
    rw [List.map_cons, List.append_cons] at hroom ⊢
    have hfirst : l.length + 1 < 2 ^ bits := by
      refine lt_of_le_of_lt ?_ hroom
      rw [List.length_append, List.length_append]
      exact Nat.le_add_right _ _
    obtain ⟨t, ht, hstored⟩ := h.push hfirst (f i)
    obtain ⟨s', hs', hall⟩ := ih hstored hroom
    exact ⟨s', by rw [List.foldlM_cons, ht, Option.map_some, Option.bind_eq_bind, Option.bind_some, hs'], hall⟩

theorem Stores.onCall (c : Call α) (s : Slots α) (l : List α) (h : Stores bits s l) (hroom : (c.onList l).2.length < 2 ^ bits) :
    ∃ s', onCall bits c s = some ((c.onList l).1, s') ∧ Stores bits s' (c.onList l).2 := by
  have hpush : ∀ x, (l ++ [x]).length < 2 ^ bits → ∃ s', s.push? bits x = some (l.length, s') ∧ Stores bits s' (l ++ [x]) := by
    intro x hx
    rw [List.length_append] at hx
    exact h.push hx x
  cases c with
  | push x =>
    obtain ⟨s', hs', hstored⟩ := hpush x hroom
    exact ⟨s', by rw [Slots.onCall, hs']; rfl, hstored⟩
  | pushAt x i =>
    rw [Slots.onCall, Call.onList, h.size] at *
    by_cases hi : i = l.length
    · rw [if_pos hi] at hroom ⊢
      obtain ⟨s', hs', hstored⟩ := hpush x hroom
      exact ⟨s', by rw [if_pos hi.symm, hs']; rfl, hstored⟩
    · rw [if_neg hi]
      exact ⟨s, if_neg (Ne.symm hi), h⟩
  | extend last f =>
    obtain ⟨s', hs', hstored⟩ := h.foldlM_push f _ hroom
    exact ⟨s', by rw [Slots.onCall, h.size, hs']; rfl, hstored⟩

end Cells

section Readers

variable {bits : ℕ} {l l' : List α} {s s' : Slots α}

/-- The entry in a slot of a page. -/
def cell (s : Slots α) (k o : ℕ) : Option α := (s.pages[k]?.join.bind (·[o]?)).join

theorem Stores.cell_eq (h : Stores bits s l) (k o : ℕ) :
    s.cell k o = if k < bits ∧ o < 2 ^ k then l[2 ^ k - 1 + o]? else none := by
  rw [cell, h.pages]
  by_cases hk : k < bits
  · rw [if_pos hk, Option.join_some]
    by_cases hreached : 2 ^ k ≤ l.length
    · rw [if_pos hreached, Option.bind_some, getElem?_slotsOf]
      by_cases ho : o < 2 ^ k
      · rw [if_pos ho, if_pos ⟨hk, ho⟩, Option.join_some]
      · rw [if_neg ho, if_neg fun h => ho h.2, Option.join_none]
    · rw [if_neg hreached, Option.bind_none, Option.join_none, List.getElem?_eq_none (by omega), ite_self]
  · rw [if_neg hk, if_neg fun h => hk h.1, Option.join_none, Option.bind_none, Option.join_none]

/-- An entry that has been stored keeps its slot. -/
theorem Stores.cell_of_prefix (h : Stores bits s l) (h' : Stores bits s' l') (hinitial : l <+: l') {k o : ℕ} {x : α}
    (hx : s.cell k o = some x) : s'.cell k o = some x := by
  rw [h.cell_eq] at hx
  rw [h'.cell_eq]
  split at hx
  · next hplace => rw [if_pos hplace, Paged.getElem?_mono hinitial hx]
  · cases hx

theorem Stores.get? (h : Stores bits s l) (hroom : l.length < 2 ^ bits) (i : ℕ) : s.get? bits i = some l[i]? := by
  obtain ⟨k, o, hplace⟩ : ∃ k o, Paged.locate i = (k, o) := ⟨_, _, rfl⟩
  obtain ⟨hindex, hoffset⟩ := Paged.two_pow_le_of_locate hplace
  rw [Slots.get?, h.size]
  split
  · next hi => rw [List.getElem?_eq_none hi]
  · next hi =>
    have hk : k < bits := (Nat.pow_lt_pow_iff_right (by decide)).mp (lt_of_le_of_lt (by omega) hroom)
    have hpage : s.pages[k]? = some (some (slotsOf k l)) := by rw [h.pages, if_pos hk, if_pos (by omega)]
    simp only [Option.bind_eq_bind]
    rw [locate?_eq (by omega), Option.bind_some, hplace, hpage, Option.bind_some]
    refine (getElem?_slotsOf k l o).trans ?_
    rw [if_pos hoffset, (by omega : 2 ^ k - 1 + o = i)]

theorem mapM_getElem? {is : List ℕ} (h : ∀ i ∈ is, i < l.length) : is.mapM (fun i => l[i]?) = some (is.filterMap fun i => l[i]?) := by
  induction is with
  | nil => rfl
  | cons i is ih =>
    have hi := List.getElem?_eq_getElem (h i List.mem_cons_self)
    rw [List.mapM_cons, hi, ih fun j hj => h j (List.mem_cons_of_mem i hj), List.filterMap_cons_some hi]
    rfl

/-- What a sequence answers to its readers, from either end, without a breakdown, is read off the list. -/
structure Shows (bits : ℕ) (s : Slots α) (l : List α) : Prop where
  size : s.size = l.length
  get : ∀ i, s.get? bits i = some l[i]?
  last : s.last? bits = some l.getLast?
  forward : s.forward? bits = some l
  backward : s.backward? bits = some l.reverse

theorem Stores.shows (h : Stores bits s l) (hroom : l.length < 2 ^ bits) : Shows bits s l := by
  have hindex : s.index? bits = fun i => l[i]? := by
    funext i
    rw [index?, h.get? hroom, Option.join_some]
  refine ⟨h.size, h.get? hroom, ?_, ?_, ?_⟩
  · rw [last?, List.getLast?_eq_getElem?, h.size, minus?]
    split
    · next hnone =>
      split at hnone
      · cases hnone
      · next hzero => rw [(List.eq_nil_of_length_eq_zero (by omega) : l = []), List.getElem?_nil]
    · next i hsome =>
      split at hsome
      · obtain rfl := Option.some.inj hsome
        exact h.get? hroom _
      · cases hsome
  · rw [forward?, hindex, h.size, mapM_getElem? fun i hi => List.mem_range.mp hi, Paged.filterMap_getElem?, List.take_length]
  · rw [backward?, hindex, h.size, mapM_getElem? fun i hi => List.mem_range.mp (List.mem_reverse.mp hi), List.filterMap_reverse,
      Paged.filterMap_getElem?, List.take_length]

end Readers

section Runs

variable (bits : ℕ) (calls later : List (Call α))

theorem keeps (hroom : (answered later (answered calls []).2).2.length < 2 ^ bits) :
    Paged.Keeps (onCall bits) (empty bits) (Shows bits) cell calls later :=
  Paged.keeps_of_step cell Stores.onCall (fun h hroom => h.shows hroom) (fun h h' hinitial _ _ _ => h.cell_of_prefix h' hinitial) (stores_empty bits)
    hroom

/-- An append-only sequence is the list of what was appended, for all calls. Its indices and the places of its pages determine each other. Its pages
answer the calls as the list does and show the list to every reader; what is stored then is shown at the same index, and kept at the same place,
after all later calls. The same holds of write-once slots, on words of any size, as long as a word can count the entries: the place that the
leading zeros tell is that of the pages, no slot is written twice, and nothing breaks down. -/
theorem append_only :
    Set.BijOn Paged.locate Set.univ {place | place.2 < 2 ^ place.1} ∧ (∀ i, i + 1 < 2 ^ bits → locate? bits i = some (Paged.locate i)) ∧
    (answered calls []).2 <+: (answered later (answered calls []).2).2 ∧
    Paged.Keeps (fun c s => some (c.onPages s)) Paged.empty Paged.Shows Paged.cell calls later ∧
    ((answered later (answered calls []).2).2.length < 2 ^ bits → Paged.Keeps (onCall bits) (empty bits) (Shows bits) cell calls later) :=
  ⟨Paged.bijOn_locate, fun _ => locate?_eq, Paged.prefix_answered later _, Paged.keeps calls later, keeps bits calls later⟩

/-- The entries fill three pages; one is refused, since it would leave a gap. -/
theorem append_only_sevenEntries :
    (answered [.push 9, .extend 2 id, .pushAt 8 6] (answered [.push 5, .pushAt 7 3, .pushAt 7 1, .extend 4 fun i => i * i] []).2).2.length < 2 ^ 64 ∧
    ∃ s s' : Slots ℕ,
      run (onCall 64) [.push 5, .pushAt 7 3, .pushAt 7 1, .extend 4 fun i => i * i] (empty 64) = some ([.index 0, .refused, .done, .done], s) ∧
      s.forward? 64 = some [5, 7, 4, 9, 16] ∧ run (onCall 64) [.push 9, .extend 2 id, .pushAt 8 6] s = some ([.index 5, .done, .done], s') ∧
      s'.get? 64 4 = some (some 16) ∧ s'.backward? 64 = some [8, 9, 16, 9, 4, 7, 5] := by
  have hroom : (answered [.push 9, .extend 2 id, .pushAt 8 6]
      (answered [.push 5, .pushAt 7 3, .pushAt 7 1, .extend 4 fun i => i * i] []).2).2.length < 2 ^ 64 := by decide
  obtain ⟨_, _, _, _, hslots⟩ := append_only 64 [.push 5, .pushAt 7 3, .pushAt 7 1, .extend 4 fun i => i * i] [.push 9, .extend 2 id, .pushAt 8 6]
  obtain ⟨s, s', hrun, hshows, hrun', hshows', _⟩ := hslots hroom
  exact ⟨hroom, s, s', hrun, hshows.forward, hrun', hshows'.get 4, hshows'.backward⟩

end Runs
end Slots
end Steenrod
