import Steenrod.Proofs.Resolution.Hit
import Steenrod.Proofs.Module.Closed
/-!
The entries that a step leaves in the tables of a free module and of the map out of it. Main statements: a step that is
asked for in the next degree succeeds whatever it has to hit, its entries are determined by the map on the older
generators, and two runs that agree in lower degrees write the same entries.
-/
namespace Steenrod

open Vec

namespace Mapped

variable {p : Prime} {T T' : Representation p} {x y x' : Mapped} {m n t d : ℤ} {wanted : Subspace}

/-- The kernel of a matrix, with room for `k` further rows. -/
def kernelWith (p : Prime) (N : Matrix) (k : ℕ) : Subspace :=
  Subspace.span p (N.height + k) (((Augmented.ofMatrix p N).kernel p).basis.map (·.padTo (N.height + k)))

/-- The entries in degree `d` are those of a step that finds the matrix `before` of the older generators, adds what the
image misses of `wanted`, and ends with the matrix `after`. -/
structure EntriesOf (p : Prime) (wanted : Subspace) (before after : Matrix) (x : Mapped) (d : ℤ) : Prop where
  names_eq : x.1.generators.get? d =
    some (FreeModule.defaultNames d (missing (Augmented.ofMatrix p before).space wanted).length)
  outputs_eq : x.2.outputs.get? d = some (missing (Augmented.ofMatrix p before).space wanted)
  kernel_eq : x.2.kernels.get? d = some (kernelWith p before (missing (Augmented.ofMatrix p before).space wanted).length)
  inverse_eq : x.2.quasiInverses.get? d = some (Augmented.ofMatrix p after).quasiInverse

/-- The entries in degree `d` are those of a step that had to hit `wanted`. -/
def RecordedAt (T : Representation p) (wanted : Subspace) (x : Mapped) (d : ℤ) : Prop :=
  ∃ before after, FreeMap.IsMatrixOf p before (lower p x d) (T.dim d) (linear T x d) ∧
    FreeMap.IsMatrixOf p after (dim p x d) (T.dim d) (linear T x d) ∧ EntriesOf p wanted before after x d

/-- The generators of `x` and `x'` in degree `d`, and where they go, are the same. -/
structure SameOutputs (x x' : Mapped) (d : ℤ) : Prop where
  names_eq : x'.1.generators.get? d = x.1.generators.get? d
  outputs_eq : x'.2.outputs.get? d = x.2.outputs.get? d

/-- All entries of `x` and `x'` in degree `d` are the same. -/
structure SameEntries (x x' : Mapped) (d : ℤ) : Prop extends SameOutputs x x' d where
  kernels_eq : x'.2.kernels.get? d = x.2.kernels.get? d
  inverses_eq : x'.2.quasiInverses.get? d = x.2.quasiInverses.get? d

/-- The tables of a free module and of a map of shift 0 out of it, from degree `m` up to degree `n`. -/
structure Built (T : Representation p) (m n : ℤ) (x : Mapped) : Prop where
  source_min : x.1.minDegree = m
  source_next : x.1.nextDegree = n
  table_end : x.1.tableEnd = n
  end_le : m < n → n ≤ maxSigned
  shift_eq : x.2.shift = 0
  map_min : x.2.minDegree = m
  map_next : x.2.nextDegree = n
  kernels_min : x.2.kernels.minDegree = m
  kernels_next : x.2.kernels.nextDegree = n
  inverses_next : x.2.quasiInverses.nextDegree = n
  defined : x.2.DefinedThrough p x.1 T (n - 1)

theorem SameOutputs.count_eq (h : SameOutputs x x' d) : x'.1.count d = x.1.count d := by
  rw [FreeModule.count, FreeModule.count, h.names_eq]

theorem SameOutputs.value_eq {g : Generator} (h : SameOutputs x x' g.degree) (hmin : x'.2.minDegree = x.2.minDegree) :
    x'.2.value p g = x.2.value p g := by
  rw [FreeMap.value, FreeMap.value, hmin, h.outputs_eq]

theorem SameEntries.refl (x : Mapped) (d : ℤ) : SameEntries x x d := ⟨⟨rfl, rfl⟩, rfl, rfl⟩

theorem SameEntries.trans {z : Mapped} (h : SameEntries x x' d) (h' : SameEntries x' z d) : SameEntries x z d :=
  ⟨⟨h'.names_eq.trans h.names_eq, h'.outputs_eq.trans h.outputs_eq⟩, h'.kernels_eq.trans h.kernels_eq,
    h'.inverses_eq.trans h.inverses_eq⟩

/-- The map on what the generators of degree less than `t` span. -/
theorem linear_eq_below {v : ℕ → p.Field}
    (hv : v ∈ p.space ((Representation.free p ((x.1.below t).map (·.degree))).dim d)) :
    linear T x d v = Representation.freeMap T x.2.shift ((x.1.below t).map fun g => (g.degree, x.2.value p g)) d v := by
  have hfst : ((x.1.below t).map fun g => (g.degree, x.2.value p g)).map (·.1) = (x.1.below t).map (·.degree) := by
    rw [List.map_map]
    rfl
  have hrest : rest p ((Representation.free p ((x.1.below t).map (·.degree))).dim d) v = 0 :=
    funext fun i => hv _ (Nat.le_add_right _ i)
  rw [linear, FreeMap.linear, FreeMap.values, ← x.1.below_append_above t, List.map_append, Representation.freeMap_append,
    hfst, hrest, map_zero, add_zero]

/-- The dimension that the generators of less degree have. -/
theorem lower_eq_below (x : Mapped) (d : ℤ) :
    lower p x d = (Representation.free p ((x.1.below d).map (·.degree))).dim d := by
  rw [lower, dim, FreeModule.dim_eq_below_add_count, Nat.add_sub_cancel, FreeModule.total_blocksOf]

/-- Generators above a degree add nothing to its dimension. -/
theorem dim_eq_below (p : Prime) (x : Mapped) (h : d < t) :
    dim p x d = (Representation.free p ((x.1.below t).map (·.degree))).dim d := by
  have habove : (Representation.free p ((x.1.above t).map (·.degree))).dim d = 0 := by
    refine Representation.dim_free_eq_zero fun z hz => ?_
    obtain ⟨g, hg, rfl⟩ := List.mem_map.mp hz
    exact lt_of_lt_of_le h (of_decide_eq_true (List.mem_filter.mp hg).2)
  rw [dim, FreeModule.rep, ← x.1.below_append_above t, List.map_append, Representation.dim_free_append, habove,
    Nat.add_zero]

section Agreement

variable (hx : Built T m n x) {n' : ℤ} (hx' : Built T' m n' x') (hT : T'.AgreeBelow T (d + 1))
variable (hmt : m ≤ t) (hn : t ≤ n) (hn' : t ≤ n') (h : ∀ e, m ≤ e → e < t → SameOutputs x x' e)

include hx hx' hmt hn hn' h

theorem below_eq_of_sameOutputs : x'.1.below t = x.1.below t :=
  FreeModule.below_congr (hx'.source_min.trans hx.source_min.symm) (hx.source_min ▸ hmt) (hx.source_next ▸ hn)
    (hx'.source_next ▸ hn') fun e hme het => (h e (hx.source_min ▸ hme) het).count_eq

theorem rep_agreeBelow_of_sameOutputs : (x'.1.rep p).AgreeBelow (x.1.rep p) t :=
  FreeModule.agreeBelow_of_count_eq (hx'.source_min.trans hx.source_min.symm) (hx.source_min ▸ hmt)
    (hx.source_next ▸ hn) (hx'.source_next ▸ hn') (fun e hme het => (h e (hx.source_min ▸ hme) het).count_eq) p

include hT

/-- Entries of less degree determine the map on what the generators of less degree span. -/
theorem linear_eq_of_sameOutputs {v : ℕ → p.Field}
    (hv : v ∈ p.space ((Representation.free p ((x.1.below t).map (·.degree))).dim d)) :
    linear T' x' d v = linear T x d v := by
  have hbelow := below_eq_of_sameOutputs hx hx' hmt hn hn' h
  rw [linear_eq_below hv, linear_eq_below (hbelow.symm ▸ hv), hbelow, hx'.shift_eq, hx.shift_eq,
    Representation.freeMap_congr hT _ _ (by omega)]
  refine LinearMap.congr_fun (Representation.freeMap_congr_values _ _ Generator.degree _ _ fun g hg _ => ?_) v
  obtain ⟨hg, hlt⟩ := List.mem_filter.mp hg
  have hlow := hx.source_min ▸ FreeModule.minDegree_le hg
  exact (h _ hlow (of_decide_eq_true hlt)).value_eq (hx'.map_min.trans hx.map_min.symm)

end Agreement

/-- Steps that find the same in lower degrees, and have the same to hit, write the same entries. -/
theorem RecordedAt.sameEntries (h : RecordedAt T wanted x d) (h' : RecordedAt T' wanted x' d) {n' : ℤ}
    (hx : Built T m n x) (hx' : Built T' m n' x') (hmd : m ≤ d) (hn : d < n) (hn' : d < n')
    (hT : T'.AgreeBelow T (d + 1))
    (hlow : ∀ e, m ≤ e → e < d → SameOutputs x x' e) : SameEntries x x' d := by
  obtain ⟨before, after, hbefore, hafter, hentries⟩ := h
  obtain ⟨before', after', hbefore', hafter', hentries'⟩ := h'
  have hdimT := hT.dim_eq d (lt_add_one d)
  have hlower : lower p x' d = lower p x d := by
    rw [lower_eq_below, lower_eq_below, below_eq_of_sameOutputs hx hx' hmd hn.le hn'.le hlow]
  rw [hlower, hdimT] at hbefore'
  obtain rfl : before = before' := hbefore.unique hbefore' fun v hv =>
    (linear_eq_of_sameOutputs hx hx' hT hmd hn.le hn'.le hlow (lower_eq_below x d ▸ hv)).symm
  have hnew : SameOutputs x x' d :=
    ⟨hentries'.names_eq.trans hentries.names_eq.symm, hentries'.outputs_eq.trans hentries.outputs_eq.symm⟩
  -- The generators of degree `d` are now known to be the same, which determines the map in the whole degree.
  have hall : ∀ e, m ≤ e → e < d + 1 → SameOutputs x x' e := fun e hme he => by
    rcases lt_or_eq_of_le (Int.lt_add_one_iff.mp he) with hlt | rfl
    · exact hlow e hme hlt
    · exact hnew
  have hdims : dim p x' d = dim p x d :=
    (rep_agreeBelow_of_sameOutputs hx hx' (by omega) (by omega) (by omega) hall).dim_eq d (lt_add_one d)
  rw [hdims, hdimT] at hafter'
  obtain rfl : after = after' := hafter.unique hafter' fun v hv =>
    (linear_eq_of_sameOutputs hx hx' hT (by omega) (by omega) (by omega) hall (dim_eq_below p x (lt_add_one d) ▸ hv)).symm
  exact ⟨hnew, hentries'.kernel_eq.trans hentries.kernel_eq.symm, hentries'.inverse_eq.trans hentries.inverse_eq.symm⟩

section Hit

variable {A : Algebra} {T : Representation A.prime} {M : GradedModule} {rows : List Vec}

theorem exists_addRows {F : FreeModule} {f : FreeMap} {count : ℕ} (hcount : rows.length = F.count t) (hnext : f.nextDegree = t)
    (hM : M.dimension (t - f.shift) = .ok count) (hrows : ∀ r ∈ rows, r.size = count) :
    f.addRows F M t rows = .ok { f with outputs := f.outputs.push rows } := by
  have hloop : ∀ l : List Vec, (∀ r ∈ l, r.size = count) → l.forM (fun r => do
      let n ← M.dimension (t - f.shift)
      require (decide (r.size = n))) = .ok () := by
    intro l
    induction l with
    | nil => intro _; rfl
    | cons r l ih =>
      intro hl
      refine Result.bind_eq_ok.mpr ⟨(), ?_, ih fun z hz => hl z (by simp [hz])⟩
      exact Result.bind_eq_ok.mpr ⟨_, hM, by rw [decide_eq_true (hl r (by simp)), require_true]⟩
  have hpush : f.outputs.pushAt? t rows = some (f.outputs.push rows) := if_pos hnext.symm
  rw [FreeMap.addRows, decide_eq_true hcount, require_true, Result.ok_bind, hloop rows hrows, Result.ok_bind, hpush]
  rfl

theorem Built.definedThrough (hx : Built T m n x) (t : ℤ) : x.2.DefinedThrough A.prime x.1 T t :=
  fun g hg _ hlow =>
    hx.defined g hg (by have := FreeModule.degree_lt_nextDegree hg; have := hx.source_next; omega) hlow

/-- The matrix of the map is found, in a degree that the table of the free module reaches. -/
theorem exists_matrixAt {F : FreeModule} {f : FreeMap} (hF : FreeModule.KnownThrough A F t) (hM : M.Shows T A t)
    (hT : T.ClosedThrough t) (hshift : f.shift = 0) (hA : t - f.minDegree < A.computed)
    (hdef : f.DefinedThrough A.prime F T t) (hnext : F.nextDegree ≤ t + 1) : ∃ N,
      (f.toMap A F M).matrixAt t = .ok N ∧
        FreeMap.IsMatrixOf A.prime N (dim A.prime (F, f) t) (T.dim t) (linear T (F, f) t) := by
  have hval : Representation.ValuesIn T f.shift (f.values A.prime F) := valuesIn (x := (F, f)) hdef hnext
  obtain ⟨N, hN, hmatrix⟩ := FreeMap.matrixAt_eq hF (by rwa [hshift, sub_zero]) hA hdef fun v _ =>
    Representation.freeMap_mem_of_closed hT hval (by omega) v
  rw [hshift, sub_zero] at hmatrix
  exact ⟨N, hN, hmatrix⟩

/-- What a step makes of `x`, from the matrix of the older generators and that of all. -/
def extended (p : Prime) (x : Mapped) (t : ℤ) (rows : List Vec) (before after : Matrix) : Mapped :=
  ({ x.1 with
      generators := x.1.generators.push (FreeModule.defaultNames t rows.length)
      tableEnd := t + 1 },
    { shift := x.2.shift
      outputs := x.2.outputs.push rows
      kernels := x.2.kernels.push (kernelWith p before rows.length)
      quasiInverses := x.2.quasiInverses.push (Augmented.ofMatrix p after).quasiInverse })

theorem grown_extended (p : Prime) (x : Mapped) (t : ℤ) (rows : List Vec) (before after : Matrix) :
    Grown x (extended p x t rows before after) rows :=
  ⟨⟨_, by simp [FreeModule.defaultNames], rfl⟩, rfl, rfl⟩

theorem Built.extended (hx : Built T m t x) (ht : t < maxSigned) {before after : Matrix}
    (hrows : ∀ r ∈ rows, Proper A.prime (T.dim t) r) :
    Built T m (t + 1) (extended A.prime x t rows before after) := by
  have hgrown := grown_extended A.prime x t rows before after
  have hnext : x.1.nextDegree = x.2.nextDegree := hx.source_next.trans hx.map_next.symm
  refine ⟨hx.source_min, ?_, rfl, fun _ => by omega, hx.shift_eq, hx.map_min, ?_, hx.kernels_min, ?_, ?_, ?_⟩
  · exact (Graded.nextDegree_push _ _).trans (congrArg (· + 1) hx.source_next)
  · exact (Graded.nextDegree_push _ _).trans (congrArg (· + 1) hx.map_next)
  · exact (Graded.nextDegree_push _ _).trans (congrArg (· + 1) hx.kernels_next)
  · exact (Graded.nextDegree_push _ _).trans (congrArg (· + 1) hx.inverses_next)
  · intro g hg hd hlow
    rw [hgrown.shift_eq, hx.shift_eq, sub_zero]
    rw [hgrown.generatorList_eq] at hg
    rcases List.mem_append.mp hg with hg | hg
    · rw [hgrown.output_eq_of_lt (FreeModule.degree_lt_nextDegree hg) hnext]
      have hold := hx.definedThrough t g hg (by omega) (hgrown.minDegree_eq ▸ hlow)
      rwa [hx.shift_eq, sub_zero] at hold
    · obtain ⟨i, hi, rfl⟩ := List.mem_map.mp hg
      have hi := List.mem_range.mp hi
      refine ⟨_, hgrown.output_new hi hnext, ?_⟩
      simp only
      rw [hx.source_next]
      exact hrows _ (List.getElem_mem hi)

theorem sameEntries_extended (hx : Built T m t x) (rows : List Vec) (before after : Matrix) (hd : d < t) :
    SameEntries x (Mapped.extended A.prime x t rows before after) d := by
  have hlt : ∀ {α : Type} {g : Graded α} {z : α}, g.nextDegree = t → (g.push z).get? d = g.get? d :=
    fun hnext => by rw [Graded.get?_push, if_neg (by omega)]
  exact ⟨⟨hlt hx.source_next, hlt hx.map_next⟩, hlt hx.kernels_next, hlt hx.inverses_next⟩

/-- The step in the next degree succeeds, whatever it has to hit. -/
theorem exists_hit (hx : Built T m t x) (hm : m ≤ t) (ht : t < maxSigned) (hA : t - m < A.computed)
    (hM : M.Shows T A t) (hT : T.ClosedThrough t) (hS : wanted.Echelon A.prime)
    (hcol : wanted.columns = T.dim t) :
    ∃ y, hit A M wanted t x = .ok y ∧ Built T m (t + 1) y ∧ RecordedAt T wanted y t ∧
      ∀ d < t, SameEntries x y d := by
  have hknown : FreeModule.KnownThrough A { x.1 with tableEnd := t + 1 } t :=
    ⟨lt_add_one t, fun _ => by simp only; omega, hx.source_min.symm ▸ hA⟩
  have hnext : x.1.nextDegree = t := hx.source_next
  have hextend : x.1.extendTable A t = .ok { x.1 with tableEnd := t + 1 } :=
    FreeModule.extendTable_eq (le_of_eq hx.table_end) (hx.source_min.symm ▸ hA)
  have hadd : ∀ k, FreeModule.addGenerators A { x.1 with tableEnd := t + 1 } t k none =
      .ok (FreeModule.grow { x.1 with tableEnd := t + 1 } (FreeModule.defaultNames t k)) := fun k => by
    subst hnext
    have hpos : x.1.nextDegree + 1 - 1 - x.1.nextDegree < (A.computed : ℤ) := by omega
    exact FreeModule.addGenerators_eq (F := { x.1 with tableEnd := x.1.nextDegree + 1 }) (Int.lt_succ _) ht hpos
      (by simp [FreeModule.defaultNames])
  obtain ⟨before, hbefore, hmatrix⟩ := exists_matrixAt hknown hM hT hx.shift_eq (hx.map_min.symm ▸ hA)
    (hx.definedThrough t) (by simp only [FreeModule.nextDegree] at hnext ⊢; omega)
  set rows := missing (Augmented.ofMatrix A.prime before).space wanted with hrows
  have hproper : ∀ r ∈ rows, Proper A.prime (T.dim t) r := by
    intro r hr
    obtain ⟨z, hz, rfl⟩ := List.mem_map.mp hr
    exact hcol ▸ hS.proper z (List.mem_of_mem_filter hz)
  -- The matrix at the end depends on generators and outputs only, so any matrix may stand in for it at first.
  have hbuilt : Built T m (t + 1) (extended A.prime x t rows before before) := hx.extended ht hproper
  have hgrown := grown_extended A.prime x t rows before before
  obtain ⟨after, hafter, hmatrix'⟩ := exists_matrixAt (F := (extended A.prime x t rows before before).1)
    (f := (extended A.prime x t rows before before).2)
    ⟨lt_add_one t, fun _ => by simp only [Mapped.extended]; omega, by rw [hbuilt.source_min]; exact hA⟩ hM hT
    hbuilt.shift_eq (hbuilt.map_min.symm ▸ hA) (hbuilt.definedThrough t) (le_of_eq hbuilt.source_next)
  have hcount : rows.length = (Mapped.extended A.prime x t rows before before).1.count t := by
    rw [hgrown.count_eq, if_pos hnext.symm]
  have hkernel : FreeMap.setKernel { x.2 with outputs := x.2.outputs.push rows } t (kernelWith A.prime before rows.length) =
      .ok { x.2 with
        outputs := x.2.outputs.push rows
        kernels := x.2.kernels.push (kernelWith A.prime before rows.length) } := by
    rw [FreeMap.setKernel, Graded.pushAt?, if_pos hx.kernels_next.symm]
    rfl
  have hinverse : FreeMap.setQuasiInverse { x.2 with
      outputs := x.2.outputs.push rows
      kernels := x.2.kernels.push (kernelWith A.prime before rows.length) } t (Augmented.ofMatrix A.prime after).quasiInverse =
      .ok (Mapped.extended A.prime x t rows before after).2 := by
    rw [FreeMap.setQuasiInverse, Graded.pushAt?, if_pos hx.inverses_next.symm]
    rfl
  refine ⟨extended A.prime x t rows before after, ?_, hx.extended ht hproper, ⟨before, after, ?_, hmatrix', ?_⟩,
    fun d hd => sameEntries_extended hx rows before after hd⟩
  · exact Result.bind_eq_ok.mpr ⟨_, hextend, Result.bind_eq_ok.mpr ⟨_, hbefore,
      Result.bind_eq_ok.mpr ⟨_, hadd rows.length, Result.bind_eq_ok.mpr ⟨_, exists_addRows hcount hx.map_next (by rw [hx.shift_eq, sub_zero]; exact hM.dimension_eq t (le_refl t))
        fun r hr => (hproper r hr).size_eq, Result.bind_eq_ok.mpr ⟨_, hkernel, Result.bind_eq_ok.mpr ⟨_, hafter,
      Result.bind_eq_ok.mpr ⟨_, hinverse, rfl⟩⟩⟩⟩⟩⟩⟩
  · have hlower : lower A.prime (Mapped.extended A.prime x t rows before after) t = dim A.prime x t := by
      rw [lower, (grown_extended A.prime x t rows before after).dim_eq hnext]
      exact hcount ▸ Nat.add_sub_cancel _ _
    rw [hlower]
    refine hmatrix.congr fun v hv => ?_
    have hall : ∀ e, m ≤ e → e < t → SameOutputs x (Mapped.extended A.prime x t rows before after) e :=
      fun e _ he => (sameEntries_extended hx rows before after he).toSameOutputs
    refine (linear_eq_of_sameOutputs hx (hx.extended ht hproper) (Representation.AgreeBelow.refl T _) hm (le_refl t)
      (by omega) hall ?_).symm
    have hbelow : x.1.below t = x.1.generatorList := List.filter_eq_self.mpr fun g hg =>
      decide_eq_true (hnext ▸ FreeModule.degree_lt_nextDegree hg)
    rw [hbelow]
    exact hv
  · have hself : ∀ {α : Type} {g : Graded α} {z : α}, g.nextDegree = t → (g.push z).get? t = some z :=
      fun hnext => by rw [Graded.get?_push, if_pos hnext.symm]
    exact ⟨hself hx.source_next, hself hx.map_next, hself hx.kernels_next, hself hx.inverses_next⟩

end Hit

end Mapped
end Steenrod
