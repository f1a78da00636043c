import Steenrod.Proofs.Module.View
/-!
The tables that a free module keeps: the basis of each degree, and where the block of each generator starts in it. Two loops fill
them, one when a degree is reached and one when generators arrive later. Main statement: both append the same blocks, so whatever
calls led to it, the tables hold in each degree the blocks of the generators there are, in order.
-/
namespace Steenrod

/-- The entries of a sequence from degree `low` up to `stop` are those of a function. -/
structure Graded.Lists {α : Type} (g : Graded α) (low stop : ℤ) (f : ℤ → α) : Prop where
  minDegree_eq : g.minDegree = low
  nextDegree_eq : g.nextDegree = stop
  get_eq : ∀ d, low ≤ d → d < stop → g.get? d = some (f d)

namespace Graded.Lists

variable {α : Type} {g : Graded α} {low stop : ℤ} {f f' : ℤ → α}

theorem empty (m : ℤ) (f : ℤ → α) : (Graded.empty m : Graded α).Lists m m f :=
  ⟨rfl, by simp [Graded.empty, nextDegree], fun d h h' => by omega⟩

theorem le (h : g.Lists low stop f) : low ≤ stop := by
  rw [← h.nextDegree_eq, ← h.minDegree_eq, nextDegree]
  omega

theorem get?_eq (h : g.Lists low stop f) (d : ℤ) : g.get? d = if low ≤ d ∧ d < stop then some (f d) else none := by
  split
  · next hd => exact h.get_eq d hd.1 hd.2
  · next hd =>
    have hnone : ¬(g.get? d).isSome = true := by rwa [get?_isSome_iff, h.minDegree_eq, h.nextDegree_eq]
    exact Option.not_isSome_iff_eq_none.mp hnone

theorem congr (h : g.Lists low stop f) (hf : ∀ d, low ≤ d → d < stop → f d = f' d) : g.Lists low stop f' :=
  ⟨h.minDegree_eq, h.nextDegree_eq, fun d hd hd' => by rw [h.get_eq d hd hd', hf d hd hd']⟩

theorem push (h : g.Lists low stop f) : (g.push (f stop)).Lists low (stop + 1) f := by
  refine ⟨h.minDegree_eq, by rw [nextDegree_push, h.nextDegree_eq], fun d hd hd' => ?_⟩
  rw [get?_push, h.nextDegree_eq]
  split
  · next he => rw [he]
  · next he => exact h.get_eq d hd (by omega)

/-- An entry is replaced where the function is, also where the entries are only a part of what it gives. -/
theorem set {β : Type} {f : ℤ → β} (part : β → α) (h : g.Lists low stop fun e => part (f e)) (d : ℤ) (x : β) :
    (g.set d (part x)).Lists low stop fun e => part (Function.update f d x e) := by
  have hsize : (g.set d (part x)).minDegree = g.minDegree ∧ (g.set d (part x)).nextDegree = g.nextDegree := by
    unfold Graded.set modify
    split
    · exact ⟨rfl, rfl⟩
    · exact ⟨rfl, by simp [nextDegree]⟩
  refine ⟨hsize.1.trans h.minDegree_eq, hsize.2.trans h.nextDegree_eq, fun e he he' => ?_⟩
  rw [Graded.set, get?_modify, h.get_eq e he he', Option.map_some, Function.update_apply]
  split <;> rfl

end Graded.Lists

namespace FreeModule

/-- A row of the tables: the basis of one degree, where the block of each generator starts in it, and where the next one will. -/
structure Row where
  elements : List (Operation × Generator)
  starts : List ℕ
  offset : ℕ

namespace Row

def empty : Row := ⟨[], [], 0⟩

/-- Append the block of a generator that has `n` operations, of degree `e`. -/
def appendBlock (e : ℤ) (n : ℕ) (r : Row) (g : Generator) : Row :=
  ⟨r.elements ++ (List.range n).map fun k => (⟨e, k⟩, g), r.starts ++ [r.offset], r.offset + n⟩

/-- Append the blocks of the generators of degree `d`. -/
def appendBlocks (e : ℤ) (n : ℕ) (d : ℤ) (count : ℕ) (r : Row) : Row :=
  (List.range count).foldl (fun r i => r.appendBlock e n ⟨d, i⟩) r

end Row

structure Tables where
  names : Graded (List String)
  counts : Graded ℕ
  /-- The number of generators of less degree. -/
  firsts : Graded ℕ
  elements : Graded (List (Operation × Generator))
  starts : Graded (List ℕ)

namespace Tables

def new (m : ℤ) : Tables := ⟨Graded.empty m, Graded.empty m, (Graded.empty m).push 0, Graded.empty m, Graded.empty m⟩

/-- The row of degree `t`, of the generators there are. -/
def newRow (A : Algebra) (T : Tables) (t : ℤ) : Result Row :=
  T.counts.pairs.foldlM (fun r x => do
    let n ← A.dimension (t - x.1)
    .ok (r.appendBlocks (t - x.1) n x.1 x.2)) Row.empty

def pushRow (A : Algebra) (T : Tables) (t : ℤ) : Result Tables := do
  let r ← T.newRow A t
  let starts ← Result.ofOption (T.starts.pushAt? t r.starts)
  .ok { T with elements := T.elements.push r.elements, starts }

/-- Reach the degrees through `d`, one after the other. -/
def extend (A : Algebra) (T : Tables) (d : ℤ) : Result Tables :=
  (GradedModule.degreesBetween T.elements.nextDegree d).foldlM (pushRow A) T

/-- Append the blocks of `count` generators of degree `d` to the row of degree `t`. -/
def appendTo (A : Algebra) (d : ℤ) (count : ℕ) (T : Tables) (t : ℤ) : Result Tables := do
  let elements ← Result.ofOption (T.elements.get? t)
  let starts ← Result.ofOption (T.starts.get? t)
  let n ← A.dimension (t - d)
  let r := Row.appendBlocks (t - d) n d count ⟨elements, starts, elements.length⟩
  .ok { T with elements := T.elements.set t r.elements, starts := T.starts.set t r.starts }

/-- Add the generators of the next degree, to all rows that they have a block in. -/
def add (A : Algebra) (T : Tables) (d : ℤ) (count : ℕ) (names : Option (List String)) : Result Tables := do
  require (T.elements.has d && T.elements.nextDegree ≤ maxSigned)
  let names := names.getD (defaultNames d count)
  require (names.length = count)
  let names ← Result.ofOption (T.names.pushAt? d names)
  let counts ← Result.ofOption (T.counts.pushAt? d count)
  let first ← Result.ofOption (T.firsts.get? d)
  let firsts ← Result.ofOption (T.firsts.pushAt? (d + 1) (first + count))
  (GradedModule.degreesBetween d (T.elements.nextDegree - 1)).foldlM (appendTo A d count) { T with names, counts, firsts }

def dimension (T : Tables) (d : ℤ) : Result ℕ :=
  if d < T.elements.minDegree then .ok 0
  else do
    require (T.elements.has d && T.elements.nextDegree ≤ maxSigned)
    let row ← Result.ofOption (T.elements.get? d)
    .ok row.length

/-- The first index in degree `d` of the elements `a g`. -/
def offset (T : Tables) (d : ℤ) (g : Generator) : Result ℕ := do
  require (T.elements.minDegree ≤ g.degree)
  let count ← Result.ofOption (T.counts.get? g.degree)
  require (g.index < count)
  let row ← Result.ofOption (T.starts.get? d)
  let first ← Result.ofOption (T.firsts.get? g.degree)
  Result.ofOption row[first + g.index]?

/-- The index of `a g`. -/
def indexOf (T : Tables) (a : Operation) (g : Generator) : Result ℕ := do
  require (0 ≤ a.degree)
  let start ← T.offset (a.degree + g.degree) g
  .ok (start + a.index)

def elementAt (T : Tables) (d : ℤ) (i : ℕ) : Result (Operation × Generator) := do
  let row ← Result.ofOption (T.elements.get? d)
  Result.ofOption row[i]?

end Tables

section Rows

variable {p : Prime} {d t : ℤ} {gens more : List Generator} {r : Row}

/-- Append the block that a generator has in degree `d`. -/
def Row.place (p : Prime) (d : ℤ) (r : Row) (g : Generator) : Row :=
  r.appendBlock (d - g.degree) (Milnor.dim p (d - g.degree)) g

/-- The row of degree `d` for some generators. -/
def rowOf (p : Prime) (d : ℤ) (gens : List Generator) : Row := gens.foldl (Row.place p d) Row.empty

theorem Row.appendBlocks_eq (p : Prime) (t d : ℤ) (count : ℕ) (r : Row) :
    r.appendBlocks (t - d) (Milnor.dim p (t - d)) d count = ((List.range count).map (Generator.mk d)).foldl (Row.place p t) r := by
  rw [List.foldl_map]
  rfl

theorem rowOf_append (gens more : List Generator) : rowOf p d (gens ++ more) = more.foldl (Row.place p d) (rowOf p d gens) :=
  List.foldl_append

/-- The next block starts behind the elements there are. -/
theorem offset_rowOf (p : Prime) (d : ℤ) (gens : List Generator) : (rowOf p d gens).offset = (rowOf p d gens).elements.length := by
  induction gens using List.reverseRecOn with
  | nil => rfl
  | append_singleton gens g ih => simp [rowOf_append, Row.place, Row.appendBlock, ih]

end Rows

/-- A loop whose steps answer goes through. -/
theorem foldlM_eq_ok {α σ : Type} {step : σ → α → Result σ} {f : σ → α → σ} {l : List α}
    (h : ∀ x ∈ l, ∀ s, step s x = .ok (f s x)) (s : σ) : l.foldlM step s = .ok (l.foldl f s) := by
  induction l generalizing s with
  | nil => rfl
  | cons x l ih =>
    rw [List.foldlM_cons, h x (by simp), Result.ok_bind, List.foldl_cons]
    exact ih (fun y hy => h y (by simp [hy])) _

theorem generatorsThrough_of_le {F : FreeModule} {d : ℤ} (h : F.nextDegree ≤ d + 1) : F.generatorsThrough d = F.generatorList := by
  rw [generatorsThrough_eq, List.filter_eq_self]
  intro g hg
  have hlt := degree_lt_nextDegree hg
  exact decide_eq_true (by omega)

/-- Generators that are added belong to the rows from their degree on. -/
theorem generatorsThrough_grow (F : FreeModule) (l : List String) (t : ℤ) : (F.grow l).generatorsThrough t =
    F.generatorsThrough t ++ if F.nextDegree ≤ t then (List.range l.length).map (Generator.mk F.nextDegree) else [] := by
  have hlist : (F.grow l).generatorList = F.generatorList ++ (List.range l.length).map (Generator.mk F.nextDegree) :=
    generatorList_push F l
  rw [generatorsThrough_eq, generatorsThrough_eq, hlist, List.filter_append]
  refine congrArg _ ?_
  split
  · next h =>
    refine List.filter_eq_self.mpr fun g hg => ?_
    obtain ⟨i, _, rfl⟩ := List.mem_map.mp hg
    exact decide_eq_true h
  · next h =>
    refine List.filter_eq_nil_iff.mpr fun g hg hle => ?_
    obtain ⟨i, _, rfl⟩ := List.mem_map.mp hg
    exact h (of_decide_eq_true hle)

namespace Tables

variable {A : Algebra} {F : FreeModule} {T T' : Tables} {d t : ℤ} {count : ℕ} {names : Option (List String)}

/-- The tables are those of the generators that the module has, in the degrees that it reaches. -/
structure Hold (A : Algebra) (F : FreeModule) (T : Tables) : Prop where
  nextDegree_le : F.nextDegree ≤ F.tableEnd
  lt_computed : F.tableEnd - 1 - F.minDegree < A.computed
  names_eq : T.names = F.generators
  counts_eq : T.counts = F.generators.map List.length
  firsts : T.firsts.Lists F.minDegree (F.nextDegree + 1) fun d => (F.generatorsThrough (d - 1)).length
  elements : T.elements.Lists F.minDegree F.tableEnd fun d => (rowOf A.prime d (F.generatorsThrough d)).elements
  starts : T.starts.Lists F.minDegree F.tableEnd fun d => (rowOf A.prime d (F.generatorsThrough d)).starts

theorem nextDegree_new (name : String) (m : ℤ) : (FreeModule.new name m).nextDegree = m := by
  simp [FreeModule.nextDegree, FreeModule.new, Graded.empty, Graded.nextDegree]

theorem hold_new (A : Algebra) (name : String) (m : ℤ) : Hold A (FreeModule.new name m) (new m) where
  nextDegree_le := (nextDegree_new name m).le
  lt_computed := by
    simp only [FreeModule.minDegree, FreeModule.new, Graded.empty]
    omega
  names_eq := rfl
  counts_eq := by simp [new, FreeModule.new, Graded.empty, Graded.map]
  firsts := by
    rw [nextDegree_new]
    exact (Graded.Lists.empty m fun _ => 0).push.congr fun _ _ _ => rfl
  elements := Graded.Lists.empty m _
  starts := Graded.Lists.empty m _

namespace Hold

/-- A new row has the blocks of all generators. -/
theorem newRow_eq (h : Hold A F T) (ht : F.nextDegree ≤ t + 1) (hc : t - F.minDegree < A.computed) :
    T.newRow A t = .ok (rowOf A.prime t (F.generatorsThrough t)) := by
  have hstep : ∀ x ∈ F.generators.pairs, ∀ r : Row, (A.dimension (t - x.1) >>= fun n =>
      (Except.ok (r.appendBlocks (t - x.1) n x.1 x.2.length) : Result Row)) =
        .ok (((List.range x.2.length).map (Generator.mk x.1)).foldl (Row.place A.prime t) r) := by
    intro x hx r
    obtain ⟨hlow, _⟩ := Graded.get?_eq_some.mp (Graded.mem_pairs.mp hx)
    have hlow : F.minDegree ≤ x.1 := hlow
    rw [Algebra.dimension_of_lt (by omega), Result.ok_bind, Row.appendBlocks_eq]
  rw [newRow, h.counts_eq, Graded.pairs_map, List.foldlM_map, generatorsThrough_of_le ht, generatorList, rowOf, List.foldl_flatMap]
  exact foldlM_eq_ok hstep Row.empty

theorem pushRow_eq (h : Hold A F T) (hc : F.tableEnd - F.minDegree < A.computed) :
    ∃ T', T.pushRow A F.tableEnd = .ok T' ∧ Hold A { F with tableEnd := F.tableEnd + 1 } T' := by
  have hle := h.nextDegree_le
  have hlow := h.elements.le
  have hstarts : T.starts.pushAt? F.tableEnd (rowOf A.prime F.tableEnd (F.generatorsThrough F.tableEnd)).starts =
      some (T.starts.push (rowOf A.prime F.tableEnd (F.generatorsThrough F.tableEnd)).starts) := by
    rw [Graded.pushAt?, h.starts.nextDegree_eq, if_pos rfl]
  refine ⟨{ T with
    elements := T.elements.push (rowOf A.prime F.tableEnd (F.generatorsThrough F.tableEnd)).elements
    starts := T.starts.push (rowOf A.prime F.tableEnd (F.generatorsThrough F.tableEnd)).starts }, ?_, ?_⟩
  · rw [pushRow, h.newRow_eq (by omega) hc, Result.ok_bind, hstarts]
    rfl
  · exact ⟨h.nextDegree_le.trans (Int.le_add_one le_rfl), (add_sub_cancel_right F.tableEnd 1).symm ▸ hc, h.names_eq,
      h.counts_eq, h.firsts, h.elements.push, h.starts.push⟩

/-- One row after the other. -/
theorem foldlM_pushRow (h : Hold A F T) (n : ℕ) (hc : F.tableEnd + n - 1 - F.minDegree < A.computed) :
    ∃ T', ((List.range n).map fun i : ℕ => F.tableEnd + i).foldlM (pushRow A) T = .ok T' ∧
      Hold A { F with tableEnd := F.tableEnd + n } T' := by
  induction n with
  | zero => exact ⟨T, rfl, by rwa [Nat.cast_zero, add_zero]⟩
  | succ n ih =>
    obtain ⟨T₁, h₁, hold₁⟩ := ih (by omega)
    obtain ⟨T₂, h₂, hold₂⟩ := hold₁.pushRow_eq (by simp only [FreeModule.minDegree] at hc ⊢; omega)
    refine ⟨T₂, ?_, ?_⟩
    · rw [List.range_succ, List.map_append, List.foldlM_append, h₁, Result.ok_bind, List.map_singleton, List.foldlM_cons, h₂]
      rfl
    · rwa [Nat.cast_succ, ← add_assoc]

/-- Both the module and its tables reach the degrees through `d`. -/
theorem extend_eq (h : Hold A F T) (hc : d - F.minDegree < A.computed) :
    ∃ F' T', F.extendTable A d = .ok F' ∧ T.extend A d = .ok T' ∧ Hold A F' T' ∧ F'.generators = F.generators ∧
      F'.tableEnd = max F.tableEnd (d + 1) := by
  obtain ⟨T', hT, hold⟩ := h.foldlM_pushRow (d + 1 - F.tableEnd).toNat (by have := h.lt_computed; omega)
  have hfill : T.extend A d = .ok T' := by
    rw [extend, h.elements.nextDegree_eq]
    exact hT
  by_cases hd : d < F.tableEnd
  · have hzero : (d + 1 - F.tableEnd).toNat = 0 := by omega
    rw [hzero, Nat.cast_zero, add_zero] at hold
    exact ⟨F, T', if_pos hd, hfill, hold, rfl, by omega⟩
  · have hend : F.tableEnd + ((d + 1 - F.tableEnd).toNat : ℤ) = d + 1 := by omega
    rw [hend] at hold
    exact ⟨_, T', extendTable_eq (not_lt.mp hd) hc, hfill, hold, rfl, by rw [max_eq_right (by omega)]⟩

end Hold

/-- The rows `f`, those of the degrees `ts` with blocks for `count` generators of degree `d`. -/
def withBlocks (p : Prime) (d : ℤ) (count : ℕ) (ts : List ℤ) (f : ℤ → Row) (t : ℤ) : Row :=
  if t ∈ ts then (f t).appendBlocks (t - d) (Milnor.dim p (t - d)) d count else f t

theorem withBlocks_cons {p : Prime} {ts : List ℤ} {f : ℤ → Row} (ht : t ∉ ts) :
    withBlocks p d count ts (Function.update f t ((f t).appendBlocks (t - d) (Milnor.dim p (t - d)) d count)) =
      withBlocks p d count (t :: ts) f := by
  funext u
  unfold withBlocks
  by_cases hu : u ∈ ts
  · rw [if_pos hu, if_pos (List.mem_cons_of_mem t hu), Function.update_of_ne (ne_of_mem_of_not_mem hu ht)]
  · rw [if_neg hu]
    by_cases hut : u = t
    · subst hut
      rw [Function.update_self, if_pos List.mem_cons_self]
    · rw [Function.update_of_ne hut, if_neg fun hin => (List.mem_cons.mp hin).elim hut hu]

/-- One turn of the loop appends the blocks to one row. -/
theorem appendTo_eq {low stop : ℤ} {f : ℤ → Row} (hlow : low ≤ t) (hstop : t < stop) (hc : t - d < A.computed)
    (hf : (f t).offset = (f t).elements.length) (he : T.elements.Lists low stop fun t => (f t).elements)
    (hs : T.starts.Lists low stop fun t => (f t).starts) :
    appendTo A d count T t = .ok { T with
      elements := T.elements.set t ((f t).appendBlocks (t - d) (Milnor.dim A.prime (t - d)) d count).elements
      starts := T.starts.set t ((f t).appendBlocks (t - d) (Milnor.dim A.prime (t - d)) d count).starts } := by
  have hrow : (⟨(f t).elements, (f t).starts, (f t).elements.length⟩ : Row) = f t := by rw [← hf]
  rw [appendTo, he.get_eq t hlow hstop, hs.get_eq t hlow hstop, Result.ofOption_some, Result.ok_bind, Result.ofOption_some,
    Result.ok_bind, Algebra.dimension_of_lt hc, Result.ok_bind, hrow]

/-- Blocks are appended to each of the rows of some degrees, and to no others. -/
theorem foldlM_appendTo {low stop : ℤ} {ts : List ℤ} (hts : ts.Nodup) (hrange : ∀ t ∈ ts, low ≤ t ∧ t < stop ∧ t - d < A.computed)
    {f : ℤ → Row} (hf : ∀ t ∈ ts, (f t).offset = (f t).elements.length)
    (he : T.elements.Lists low stop fun t => (f t).elements) (hs : T.starts.Lists low stop fun t => (f t).starts) :
    ∃ T', ts.foldlM (appendTo A d count) T = .ok T' ∧ T'.names = T.names ∧ T'.counts = T.counts ∧ T'.firsts = T.firsts ∧
      (T'.elements.Lists low stop fun t => (withBlocks A.prime d count ts f t).elements) ∧
      T'.starts.Lists low stop fun t => (withBlocks A.prime d count ts f t).starts := by
  induction ts generalizing T f with
  | nil => exact ⟨T, rfl, rfl, rfl, rfl, by simpa [withBlocks] using he, by simpa [withBlocks] using hs⟩
  | cons t ts ih =>
    obtain ⟨ht, hts⟩ := List.nodup_cons.mp hts
    obtain ⟨hlow, hstop, hc⟩ := hrange t List.mem_cons_self
    set r := (f t).appendBlocks (t - d) (Milnor.dim A.prime (t - d)) d count
    -- The rows that are left are those of other degrees, so they still have their lengths as offsets.
    have hf' : ∀ u ∈ ts, (Function.update f t r u).offset = (Function.update f t r u).elements.length := fun u hu => by
      rw [Function.update_of_ne (ne_of_mem_of_not_mem hu ht)]
      exact hf u (List.mem_cons_of_mem t hu)
    obtain ⟨T', hT', hnames, hcounts, hfirsts, helements, hstarts⟩ :=
      ih (T := { T with elements := T.elements.set t r.elements, starts := T.starts.set t r.starts }) hts
        (fun u hu => hrange u (List.mem_cons_of_mem t hu)) hf' (he.set Row.elements t r) (hs.set Row.starts t r)
    rw [withBlocks_cons ht] at helements hstarts
    refine ⟨T', ?_, hnames, hcounts, hfirsts, helements, hstarts⟩
    rw [List.foldlM_cons, appendTo_eq hlow hstop hc (hf t List.mem_cons_self) he hs]
    exact hT'

/-- The loop over the rows gives each new generator its block in every row that it belongs to. -/
theorem Hold.appendTo_eq {U : Tables} (h : Hold A F T) {l : List String} (hl : l.length = count)
    (he : U.elements = T.elements) (hs : U.starts = T.starts) :
    ∃ T', (GradedModule.degreesBetween F.nextDegree (F.tableEnd - 1)).foldlM (appendTo A F.nextDegree count) U = .ok T' ∧
      T'.names = U.names ∧ T'.counts = U.counts ∧ T'.firsts = U.firsts ∧
      (T'.elements.Lists F.minDegree F.tableEnd fun t => (rowOf A.prime t ((F.grow l).generatorsThrough t)).elements) ∧
      T'.starts.Lists F.minDegree F.tableEnd fun t => (rowOf A.prime t ((F.grow l).generatorsThrough t)).starts := by
  subst hl
  have hlow := F.minDegree_le_nextDegree
  have hc := h.lt_computed
  have hmem : ∀ t, t ∈ GradedModule.degreesBetween F.nextDegree (F.tableEnd - 1) ↔ F.nextDegree ≤ t ∧ t < F.tableEnd := fun t => by
    rw [GradedModule.mem_degreesBetween]
    omega
  have hnodup : (GradedModule.degreesBetween F.nextDegree (F.tableEnd - 1)).Nodup :=
    List.nodup_range.map fun i j hij => by simpa using hij
  obtain ⟨T', hT', hnames, hcounts, hfirsts, helements, hstarts⟩ := foldlM_appendTo (A := A) (d := F.nextDegree) (T := U)
    hnodup (fun t ht => by
      have hin := (hmem t).mp ht
      exact ⟨by omega, hin.2, by omega⟩)
    (fun t _ => offset_rowOf A.prime t (F.generatorsThrough t)) (he ▸ h.elements) (hs ▸ h.starts)
  have hrow : ∀ t, F.minDegree ≤ t → t < F.tableEnd →
      withBlocks A.prime F.nextDegree l.length (GradedModule.degreesBetween F.nextDegree (F.tableEnd - 1))
        (fun t => rowOf A.prime t (F.generatorsThrough t)) t = rowOf A.prime t ((F.grow l).generatorsThrough t) := by
    intro t _ ht
    rw [generatorsThrough_grow, withBlocks]
    by_cases hle : F.nextDegree ≤ t
    · rw [if_pos ((hmem t).mpr ⟨hle, ht⟩), if_pos hle, rowOf_append, Row.appendBlocks_eq]
    · rw [if_neg fun hin => hle ((hmem t).mp hin).1, if_neg hle, List.append_nil]
  exact ⟨T', hT', hnames, hcounts, hfirsts, helements.congr fun t ht ht' => by rw [hrow t ht ht'],
    hstarts.congr fun t ht ht' => by rw [hrow t ht ht']⟩

theorem Hold.firsts_grow (h : Hold A F T) (l : List String) :
    (T.firsts.push ((F.generatorsThrough (F.nextDegree - 1)).length + l.length)).Lists F.minDegree (F.nextDegree + 1 + 1)
      fun d => ((F.grow l).generatorsThrough (d - 1)).length := by
  have hold : T.firsts.Lists F.minDegree (F.nextDegree + 1) fun d => ((F.grow l).generatorsThrough (d - 1)).length := by
    refine h.firsts.congr fun d _ hd => ?_
    rw [generatorsThrough_grow, if_neg (by omega), List.append_nil]
  have hcount : ((F.grow l).generatorsThrough (F.nextDegree + 1 - 1)).length =
      (F.generatorsThrough (F.nextDegree - 1)).length + l.length := by
    rw [add_sub_cancel_right, generatorsThrough_grow, if_pos le_rfl, List.length_append, List.length_map, List.length_range,
      generatorsThrough_of_le (by omega), generatorsThrough_of_le (by omega)]
  have hpush := hold.push
  rwa [hcount] at hpush

/-- The tables take in the generators of the next degree. -/
theorem Hold.add_eq (h : Hold A F T) (hlt : F.nextDegree < F.tableEnd) (hmax : F.tableEnd ≤ maxSigned)
    (hnames : (names.getD (defaultNames F.nextDegree count)).length = count) :
    ∃ T', T.add A F.nextDegree count names = .ok T' ∧ Hold A (F.grow (names.getD (defaultNames F.nextDegree count))) T' := by
  set l := names.getD (defaultNames F.nextDegree count) with hl
  have hlow := F.minDegree_le_nextDegree
  have hhas : T.elements.has F.nextDegree = true := by
    simp only [Graded.has, Bool.and_eq_true, decide_eq_true_eq, h.elements.minDegree_eq, h.elements.nextDegree_eq]
    exact ⟨hlow, hlt⟩
  have hfirst : T.firsts.get? F.nextDegree = some (F.generatorsThrough (F.nextDegree - 1)).length :=
    h.firsts.get_eq _ hlow (Int.lt_add_one_iff.mpr le_rfl)
  have hnamesPush : T.names.pushAt? F.nextDegree l = some (T.names.push l) := by
    rw [Graded.pushAt?, h.names_eq]
    exact if_pos rfl
  have hcountsPush : T.counts.pushAt? F.nextDegree count = some (T.counts.push count) := by
    rw [Graded.pushAt?, h.counts_eq]
    exact if_pos (Graded.nextDegree_map _ _).symm
  have hfirstsPush : T.firsts.pushAt? (F.nextDegree + 1) ((F.generatorsThrough (F.nextDegree - 1)).length + count) =
      some (T.firsts.push ((F.generatorsThrough (F.nextDegree - 1)).length + count)) := by
    rw [Graded.pushAt?, h.firsts.nextDegree_eq, if_pos rfl]
  obtain ⟨T', hT', hnames', hcounts', hfirsts', helements, hstarts⟩ := h.appendTo_eq (U := { T with
    names := T.names.push l, counts := T.counts.push count
    firsts := T.firsts.push ((F.generatorsThrough (F.nextDegree - 1)).length + count) }) hnames rfl rfl
  refine ⟨T', ?_, ?_, h.lt_computed, ?_, ?_, ?_, helements, hstarts⟩
  · rw [add, hhas, h.elements.nextDegree_eq, decide_eq_true hmax, Bool.and_self, require_true, Result.ok_bind, ← hl]
    simp only [hnames, decide_true, require_true, Result.ok_bind, hnamesPush, hcountsPush, hfirst, hfirstsPush,
      Result.ofOption_some]
    exact hT'
  · rw [nextDegree_grow]
    exact hlt
  · exact hnames'.trans (congrArg (Graded.push · l) h.names_eq)
  · rw [hcounts', h.counts_eq]
    exact hnames ▸ (Graded.map_push _ _ _).symm
  · rw [hfirsts', nextDegree_grow, ← hnames]
    exact h.firsts_grow l

end Tables

/-- A call on a free module, or on the algebra that it is over. -/
inductive Call
  | compute (d : ℤ)
  | extend (d : ℤ)
  | add (d : ℤ) (count : ℕ) (names : Option (List String))

namespace Call

/-- What a call may rely on: a table is extended as far as the algebra is computed, and generators, with as many names if there are
any, are added degree by degree, after the table has reached their degree. -/
def Allowed (x : Algebra × FreeModule) : Call → Prop
  | compute _ => True
  | extend d => d - x.2.minDegree < x.1.computed
  | add d count names => d = x.2.nextDegree ∧ d < x.2.tableEnd ∧ x.2.tableEnd ≤ maxSigned ∧ ∀ l, names = some l → l.length = count

def run (x : Algebra × FreeModule) : Call → Result (Algebra × FreeModule)
  | compute d => .ok (x.1.extend d, x.2)
  | extend d => do
    let F ← x.2.extendTable x.1 d
    .ok (x.1, F)
  | add d count names => do
    let F ← x.2.addGenerators x.1 d count names
    .ok (x.1, F)

/-- The same call on the tables. -/
def fill (x : Algebra × Tables) : Call → Result (Algebra × Tables)
  | compute d => .ok (x.1.extend d, x.2)
  | extend d => do
    let T ← x.2.extend x.1 d
    .ok (x.1, T)
  | add d count names => do
    let T ← x.2.add x.1 d count names
    .ok (x.1, T)

/-- Each of the calls is allowed when it is made. -/
def AllAllowed : List Call → Algebra × FreeModule → Prop
  | [], _ => True
  | c :: calls, x => Allowed x c ∧ ∀ y, run x c = .ok y → AllAllowed calls y

end Call

/-- Later on the algebra is known at least as far, the table reaches as far, and there may be further generators. -/
structure Later (x y : Algebra × FreeModule) : Prop where
  prime_eq : y.1.prime = x.1.prime
  minDegree_eq : y.2.minDegree = x.2.minDegree
  tableEnd_le : x.2.tableEnd ≤ y.2.tableEnd
  grows : x.2.GrowsFrom x.2.nextDegree y.2
  nextDegree_le : x.2.nextDegree ≤ y.2.nextDegree

namespace Later

variable {x y z : Algebra × FreeModule}

theorem refl (x : Algebra × FreeModule) : Later x x := ⟨rfl, rfl, le_rfl, GrowsFrom.refl _ _, le_rfl⟩

theorem trans (h : Later x y) (h' : Later y z) : Later x z :=
  ⟨h'.prime_eq.trans h.prime_eq, h'.minDegree_eq.trans h.minDegree_eq, h.tableEnd_le.trans h'.tableEnd_le,
    h.grows.trans h'.grows h.nextDegree_le, h.nextDegree_le.trans h'.nextDegree_le⟩

end Later

theorem growsFrom_grow (F : FreeModule) (l : List String) : F.GrowsFrom F.nextDegree (F.grow l) := by
  refine ⟨_, generatorList_push F l, fun g hg => ?_⟩
  obtain ⟨i, _, rfl⟩ := List.mem_map.mp hg
  exact le_rfl

theorem Tables.Hold.compute {A : Algebra} {F : FreeModule} {T : Tables} (h : Tables.Hold A F T) (d : ℤ) :
    Tables.Hold (A.extend d) F T := by
  have hle : (A.computed : ℤ) ≤ (A.extend d).computed := by
    rw [Algebra.computed_extend]
    split <;> omega
  exact ⟨h.nextDegree_le, h.lt_computed.trans_le hle, h.names_eq, h.counts_eq, h.firsts,
    (Algebra.prime_extend A d).symm ▸ h.elements, (Algebra.prime_extend A d).symm ▸ h.starts⟩

/-- A call that is allowed answers, and the tables stay those of the module. -/
theorem Tables.Hold.step {A : Algebra} {F : FreeModule} {T : Tables} {c : Call} (h : Tables.Hold A F T) (hc : c.Allowed (A, F)) :
    ∃ A' F' T', c.run (A, F) = .ok (A', F') ∧ c.fill (A, T) = .ok (A', T') ∧ Tables.Hold A' F' T' ∧ Later (A, F) (A', F') := by
  cases c with
  | compute d =>
    exact ⟨_, F, T, rfl, rfl, h.compute d, Algebra.prime_extend A d, rfl, le_rfl, GrowsFrom.refl _ _, le_rfl⟩
  | extend d =>
    obtain ⟨F', T', hF, hT, hold, hgenerators, hend⟩ := h.extend_eq hc
    refine ⟨A, F', T', ?_, ?_, hold, rfl, ?_, ?_, ?_, ?_⟩
    · rw [Call.run, hF, Result.ok_bind]
    · rw [Call.fill, hT, Result.ok_bind]
    · exact congrArg Graded.minDegree hgenerators
    · exact hend ▸ le_max_left _ _
    · exact ⟨[], by rw [generatorList, generatorList, hgenerators, List.append_nil], fun g hg => absurd hg List.not_mem_nil⟩
    · exact (congrArg Graded.nextDegree hgenerators).ge
  | add d count names =>
    obtain ⟨rfl, hlt, hmax, hlength⟩ := hc
    have hnames : (names.getD (defaultNames F.nextDegree count)).length = count := by
      cases names with
      | none => simp [defaultNames]
      | some l => exact hlength l rfl
    obtain ⟨T', hT, hold⟩ := h.add_eq hlt hmax hnames
    refine ⟨A, _, T', ?_, ?_, hold, rfl, rfl, le_rfl, growsFrom_grow F _, ?_⟩
    · have hlow := F.minDegree_le_nextDegree
      have hcomputed : F.tableEnd - 1 - F.nextDegree < A.computed := by
        have := h.lt_computed
        omega
      rw [Call.run, addGenerators_eq hlt hmax hcomputed hnames, Result.ok_bind]
    · rw [Call.fill, hT, Result.ok_bind]
    · rw [nextDegree_grow]
      exact Int.le_add_one le_rfl

/-- Whatever allowed calls were made, the tables are those of the module. -/
theorem Tables.Hold.run {A : Algebra} {F : FreeModule} {T : Tables} {calls : List Call} (h : Tables.Hold A F T)
    (hcalls : Call.AllAllowed calls (A, F)) :
    ∃ A' F' T', calls.foldlM Call.run (A, F) = .ok (A', F') ∧ calls.foldlM Call.fill (A, T) = .ok (A', T') ∧
      Tables.Hold A' F' T' ∧ Later (A, F) (A', F') := by
  induction calls generalizing A F T with
  | nil => exact ⟨A, F, T, rfl, rfl, h, Later.refl _⟩
  | cons c calls ih =>
    obtain ⟨A₁, F₁, T₁, hrun, hfill, hold, hlater⟩ := h.step hcalls.1
    obtain ⟨A', F', T', hruns, hfills, hold', hlater'⟩ := ih hold (hcalls.2 _ hrun)
    exact ⟨A', F', T', by rw [List.foldlM_cons, hrun, Result.ok_bind, hruns],
      by rw [List.foldlM_cons, hfill, Result.ok_bind, hfills],
      hold', hlater.trans hlater'⟩

end FreeModule
end Steenrod
