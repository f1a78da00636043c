import Steenrod.Proofs.Map.View
import Steenrod.Proofs.Milnor.Associativity
/-!
Homomorphisms out of a free module in which only some generators have outputs. An operation brings no generator into an
element, so only the outputs of those that occur in it are asked for. Main statement: on such elements the homomorphism is
linear over the algebra, and takes generators to their outputs.
-/
namespace Steenrod

open Vec

namespace FreeModule

variable {p : Prime} {F : FreeModule} {A : Algebra} {d : ℤ} {u : ℕ → p.Field} {g : Generator}

/-- A generator occurs in an element of degree `d`: one of its multiples has a coefficient that is not zero. -/
def Occurs (p : Prime) (F : FreeModule) (d : ℤ) (u : ℕ → p.Field) (g : Generator) : Prop :=
  ∃ i k, u i ≠ 0 ∧ locate? i (blocksOf p d F.generatorList) = some (k, g)

theorem Occurs.mem (h : F.Occurs p d u g) : g ∈ F.generatorList := by
  obtain ⟨i, k, _, hloc⟩ := h
  exact (locate?_spec hloc).1

theorem Occurs.degree_le (h : F.Occurs p d u g) : g.degree ≤ d := by
  obtain ⟨i, k, _, hloc⟩ := h
  have hnonneg : 0 ≤ d - g.degree := (Representation.isBasis_of_lt (locate?_spec hloc).2).nonneg
  omega

theorem Occurs.of_smul {c : p.Field} (h : F.Occurs p d (c • u) g) : F.Occurs p d u g := by
  obtain ⟨i, k, hi, hloc⟩ := h
  exact ⟨i, k, right_ne_zero_of_mul hi, hloc⟩

theorem Occurs.of_combine {n : ℕ} {φ : ℕ → ℕ → p.Field} (h : F.Occurs p d (combine n φ u) g) :
    ∃ i < n, u i ≠ 0 ∧ F.Occurs p d (φ i) g := by
  obtain ⟨j, l, hj, hloc⟩ := h
  rw [combine_apply, Finset.sum_apply] at hj
  obtain ⟨i, hi, hij⟩ := Finset.exists_ne_zero_of_sum_ne_zero hj
  rw [Pi.smul_apply, smul_eq_mul] at hij
  exact ⟨i, Finset.mem_range.mp hi, left_ne_zero_of_mul hij, j, l, right_ne_zero_of_mul hij, hloc⟩

/-- An operation sends a basis element into the block of the same generator. -/
theorem Occurs.eq_of_act_single {a : Operation} {i k : ℕ} {g' : Generator}
    (hkg : locate? i (blocksOf p d F.generatorList) = some (k, g'))
    (h : F.Occurs p (d + a.degree) ((F.rep p).act a d (Pi.single i 1)) g) : g' = g := by
  obtain ⟨j, l, hj, hloc⟩ := h
  obtain ⟨start, hstart⟩ := exists_startOf? (p := p) (d := d + a.degree) (locate?_spec hkg).1
  rw [rep, free_act_single F.nodup_generatorList hkg hstart] at hj
  obtain ⟨hin, _⟩ := ite_ne_right_iff.mp hj
  have hsame := locate?_of_startOf? hstart (k := j - start) (by omega)
  rw [Nat.add_sub_cancel' hin.1, hloc] at hsame
  exact (Prod.mk.inj (Option.some.inj hsame)).2.symm

/-- What occurs after an operation has occurred before it. -/
theorem Occurs.of_act {a : Operation} (hu : u ∈ p.space ((F.rep p).dim d))
    (h : F.Occurs p (d + a.degree) ((F.rep p).act a d u) g) : F.Occurs p d u g := by
  have hunits := map_combine ((F.rep p).act a d) ((F.rep p).dim d) (fun i => Pi.single i 1) u
  rw [combine_units hu] at hunits
  obtain ⟨i, hi, hui, hocc⟩ := Occurs.of_combine (hunits ▸ h)
  rw [rep, ← total_blocksOf] at hi
  obtain ⟨k, g', hkg⟩ := exists_locate? hi
  exact ⟨i, k, hui, hocc.eq_of_act_single hkg ▸ hkg⟩

/-- The generators that occur in a vector are those that its entries other than zero belong to. -/
theorem occurs_iff {v : Vec} (hF : KnownThrough A F d) (hv : Proper A.prime ((F.rep A.prime).dim d) v) :
    F.Occurs A.prime d (v.coords A.prime) g ↔ ∃ i b, v.entry i ≠ 0 ∧ F.elementAt A d i = .ok (b, g) := by
  have hzero : ∀ i, v.coords A.prime i ≠ 0 ↔ v.entry i ≠ 0 := fun i => (coords_eq_zero_iff hv.reduced).not
  constructor
  · rintro ⟨i, k, hi, hloc⟩
    have hlt : i < (F.rep A.prime).dim d := by
      by_contra hle
      exact hi (hv.coords_mem i (not_lt.mp hle))
    obtain ⟨k', g', hloc', hel⟩ := hF.elementAt_eq le_rfl hlt
    obtain ⟨rfl, rfl⟩ := Prod.mk.inj (Option.some.inj (hloc.symm.trans hloc'))
    exact ⟨i, _, (hzero i).mp hi, hel⟩
  · rintro ⟨i, b, hi, hel⟩
    have hlt : i < (F.rep A.prime).dim d := by
      by_contra hle
      exact (hzero i).mpr hi (hv.coords_mem i (not_lt.mp hle))
    obtain ⟨k, g', hloc, hel'⟩ := hF.elementAt_eq le_rfl hlt
    obtain ⟨-, rfl⟩ := Prod.mk.inj (Except.ok.inj (hel.symm.trans hel'))
    exact ⟨i, k, (hzero i).mpr hi, hloc⟩

end FreeModule

namespace FreeMap

section LinearOn

variable {p : Prime} {F : FreeModule} {f : FreeMap} {X : Representation p} {S : Set Generator}

/-- The homomorphism with the values of `f` on the generators in `S`, which sends the others to zero. -/
noncomputable def linearOn (p : Prime) (F : FreeModule) (X : Representation p) (f : FreeMap) (S : Set Generator) (d : ℤ) :
    (ℕ → p.Field) →ₗ[p.Field] (ℕ → p.Field) :=
  Representation.freeMap X f.shift (F.generatorList.map fun g => (g.degree, S.indicator (f.value p) g)) d

theorem linearOn_commutes {top : ℤ} (hX : X.LawfulThrough top) (hS : ∀ g ∈ S, f.DefinedOn p F X g) :
    Representation.Commutes (F.rep p) X f.shift top (f.linearOn p F X S) := by
  have hval : Representation.ValuesIn X f.shift (F.generatorList.map fun g => (g.degree, S.indicator (f.value p) g)) := by
    intro x hx
    obtain ⟨g, _, rfl⟩ := List.mem_map.mp hx
    by_cases hg : g ∈ S
    · simp only [Set.indicator_of_mem hg]
      exact (hS g hg).value_mem
    · simp only [Set.indicator_of_notMem hg]
      exact Submodule.zero_mem _
  have hcommutes := Representation.freeMap_commutes hX hval
  rwa [List.map_map] at hcommutes

end LinearOn

variable {A : Algebra} {F : FreeModule} {f : FreeMap} {M : GradedModule} {X : Representation A.prime} {S : Set Generator}
variable {d top : ℤ}

/-- What is computed for an element in which only generators in `S` occur. -/
theorem apply_eq_linearOn (hF : FreeModule.KnownThrough A F d) (hM : M.Shows X A (d - f.shift))
    (hS : ∀ g ∈ S, f.DefinedOn A.prime F X g) {v : Vec} (hv : Proper A.prime ((F.rep A.prime).dim d) v)
    (hocc : ∀ g, F.Occurs A.prime d (v.coords A.prime) g → g ∈ S) (c : ℕ) :
    ∃ w, (f.toMap A F M).apply c d v = .ok w ∧ Proper A.prime (X.dim (d - f.shift)) w ∧
      w.coords A.prime = (c : A.prime.Field) • f.linearOn A.prime F X S d (v.coords A.prime) := by
  have hbasis : ∀ i < (F.rep A.prime).dim d, v.entry i ≠ 0 → ∀ e : ℕ, ∃ w, f.applyToBasis A F M e d i = .ok w ∧
      Proper A.prime (X.dim (d - f.shift)) w ∧
      w.coords A.prime = (e : A.prime.Field) • f.linearOn A.prime F X S d (Pi.single i 1) := by
    intro i hi hne e
    obtain ⟨k, g, hkg, _⟩ := hF.elementAt_eq le_rfl hi
    have hg : g ∈ S := hocc g ⟨i, k, (coords_eq_zero_iff hv.reduced).not.mpr hne, hkg⟩
    have hsingle := FreeModule.freeMap_single X f.shift (S.indicator (f.value A.prime)) hkg 1
    have hlow := FreeModule.minDegree_le (FreeModule.locate?_spec hkg).1
    have hcomputed := hF.lt_computed
    rw [one_smul, Set.indicator_of_mem hg] at hsingle
    rw [linearOn, hsingle]
    exact applyToBasis_of_definedOn hF hM hi hkg (fun _ => by omega) (hS g hg) e
  exact ModuleMap.apply_eq rfl (hM.dimension_eq _ le_rfl) hbasis hv c

theorem definedOn_of_occurs {n : ℕ} {x : Vec} (hF : FreeModule.KnownThrough A F d) (hn : F.dimension A d = .ok n)
    (hx : Proper A.prime n x)
    (hset : ∀ i b g, x.entry i ≠ 0 → F.elementAt A d i = .ok (b, g) → f.DefinedOn A.prime F X g) :
    ∀ g ∈ {g | F.Occurs A.prime d (x.coords A.prime) g}, f.DefinedOn A.prime F X g := by
  obtain rfl := Except.ok.inj (hn.symm.trans (hF.dimension_eq le_rfl))
  intro g hg
  obtain ⟨i, b, hi, hel⟩ := (FreeModule.occurs_iff hF hx).mp hg
  exact hset i b g hi hel

/-- The image of a basis element. -/
theorem apply_unit (hF : FreeModule.KnownThrough A F d) (hM : M.Shows X A (d - f.shift)) {i : ℕ} {b : Operation} {g : Generator}
    (hi : i < (F.rep A.prime).dim d) (hel : F.elementAt A d i = .ok (b, g)) (hg : f.DefinedOn A.prime F X g) (c : ℕ) :
    ∃ w, (f.toMap A F M).apply c d (Vec.unit ((F.rep A.prime).dim d) i) = .ok w ∧ Proper A.prime (X.dim (d - f.shift)) w ∧
      w.coords A.prime = (c : A.prime.Field) • X.act b (g.degree - f.shift) (f.value A.prime g) := by
  obtain ⟨k, g', hkg, hel'⟩ := hF.elementAt_eq le_rfl hi
  obtain ⟨rfl, rfl⟩ := Prod.mk.inj (Except.ok.inj (hel.symm.trans hel'))
  have hS : ∀ h ∈ ({g} : Set Generator), f.DefinedOn A.prime F X h := fun h hh => Set.mem_singleton_iff.mp hh ▸ hg
  have hocc : ∀ h, F.Occurs A.prime d ((Vec.unit ((F.rep A.prime).dim d) i).coords A.prime) h → h ∈ ({g} : Set Generator) := by
    rintro h ⟨j, l, hj, hloc⟩
    rw [coords_unit hi] at hj
    obtain rfl : j = i := by
      by_contra hne
      exact hj (Pi.single_eq_of_ne hne _)
    exact Set.mem_singleton_iff.mpr (Prod.mk.inj (Option.some.inj (hloc.symm.trans hkg))).2
  obtain ⟨w, hw, hwp, hwc⟩ := apply_eq_linearOn hF hM hS (proper_unit _ _) hocc c
  have hsingle := FreeModule.freeMap_single X f.shift (({g} : Set Generator).indicator (f.value A.prime)) hkg 1
  rw [one_smul, Set.indicator_of_mem (Set.mem_singleton g)] at hsingle
  exact ⟨w, hw, hwp, by rw [hwc, coords_unit hi, linearOn, hsingle]⟩

/-- A homomorphism out of a free module is linear over the algebra, on each element whose generators have outputs. It takes each
generator to its output, and all multiples of a generator below the outputs to zero. -/
theorem apply_act {a : Operation} {n : ℕ} {x : Vec} (hassoc : A.IsAssociative) (hunit : A.IsUnital) (hM : M.Shows X A top)
    (hX : X.LawfulThrough top) (hF : FreeModule.KnownThrough A F (d + a.degree)) (htop : d + a.degree - f.shift ≤ top)
    (ha : a.IsBasis A.prime) (hlt : a.degree < A.computed) (hn : F.dimension A d = .ok n) (hx : Proper A.prime n x)
    (hset : ∀ i b g, x.entry i ≠ 0 → F.elementAt A d i = .ok (b, g) → f.DefinedOn A.prime F X g) (c e : ℕ) :
    (∃ ax y w, (F.toGraded A).act A.prime c a d x = .ok ax ∧ (f.toMap A F M).apply e (d + a.degree) ax = .ok w ∧
      (f.toMap A F M).apply e d x = .ok y ∧ M.act A.prime c a (d - f.shift) y = .ok w) ∧
    (∀ i < n, ∀ g v, F.elementAt A d i = .ok (⟨0, 0⟩, g) → f.output F g = .ok v → Proper A.prime (X.dim (d - f.shift)) v →
      (f.toMap A F M).apply e d (Vec.unit n i) = .ok (v.scale A.prime e)) ∧
    ∀ i < n, ∀ b g, F.elementAt A d i = .ok (b, g) → g.degree < f.minDegree →
      (f.toMap A F M).apply e d (Vec.unit n i) = .ok (Vec.zero (X.dim (d - f.shift))) := by
  have hpos := ha.nonneg
  have hFd := hF.mono (by omega : d ≤ d + a.degree)
  have hMd := hM.mono (by omega : d - f.shift ≤ top)
  have hS := definedOn_of_occurs hFd hn hx hset
  obtain rfl := Except.ok.inj (hn.symm.trans (hFd.dimension_eq le_rfl))
  refine ⟨?_, fun i hi g v hel hv hvp => ?_, fun i hi b g hel hlow => ?_⟩
  · obtain ⟨ax, hax, haxp, haxc⟩ := (hF.shows hassoc hunit).act_eq c a d x ha hlt le_rfl hx
    obtain ⟨w, hw, hwp, hwc⟩ := apply_eq_linearOn hF (hM.mono htop) hS haxp
      (fun g hg => .of_act hx.coords_mem (.of_smul (haxc ▸ hg))) e
    obtain ⟨y, hy, hyp, hyc⟩ := apply_eq_linearOn hFd hMd hS hx (fun g hg => hg) e
    obtain ⟨w', hw', hwp', hwc'⟩ := hM.act_eq c a (d - f.shift) y ha hlt (by omega) hyp
    rw [show d - f.shift + a.degree = d + a.degree - f.shift by omega] at hwp'
    have hsame : w' = w := hwp'.ext hwp (by
      rw [hwc', hyc, map_smul, hwc, haxc, map_smul, (linearOn_commutes hX hS).map_act ha htop hx.coords_mem, smul_comm])
    exact ⟨ax, y, w, hax, hw, hy, hsame ▸ hw'⟩
  · obtain ⟨k, g', _, hel'⟩ := hFd.elementAt_eq le_rfl hi
    obtain ⟨hone, rfl⟩ := Prod.mk.inj (Except.ok.inj (hel.symm.trans hel'))
    obtain ⟨hdegree, _⟩ := Operation.mk.inj hone
    obtain rfl : d = g.degree := by omega
    obtain ⟨w, hw, hwp, hwc⟩ := apply_unit hFd hMd hi hel (fun _ => ⟨v, hv, hvp⟩) e
    rw [value_of_output hv, hX.one_act (by omega) hvp.coords_mem] at hwc
    rw [hw, hwp.ext (Proper.scale hvp.size_eq e) (by rw [hwc, coords_scale])]
  · obtain ⟨w, hw, hwp, hwc⟩ := apply_unit hFd hMd hi hel (fun hle => absurd hlow (not_lt.mpr hle)) e
    rw [value, if_pos hlow, map_zero, smul_zero] at hwc
    rw [hw, hwp.eq_zero hwc]

/-- Generators in degrees 0 and 1, with the table through degree 2. -/
def twoCells : FreeModule := ⟨"F", Graded.ofList 0 [["x"], ["y"]], 3⟩

def oneCell : FreeModule := ⟨"G", Graded.ofList 0 [["z"]], 3⟩

/-- The generator in degree 1 goes to that of `oneCell`; the one in degree 0 is below the outputs. -/
def collapse : FreeMap := { FreeMap.new 0 0 1 with outputs := Graded.ofList 1 [[⟨#[1]⟩]] }

/-- `Sq1` on the sum of `Sq1 x`, which goes to zero, and `y`. -/
theorem apply_act_collapse : ∃ A : Algebra, A = (Algebra.new Prime.two none).extend 2 ∧ ∃ ax,
    (twoCells.toGraded A).act A.prime 1 ⟨1, 0⟩ 1 ⟨#[1, 1]⟩ = .ok ax ∧
    (collapse.toMap A twoCells (oneCell.toGraded A)).apply 1 2 ax = .ok ⟨#[1]⟩ := by
  let A := (Algebra.new Prime.two none).extend 2
  have hassoc : A.IsAssociative := Algebra.isAssociative_of_computed_le (by decide) (by decide)
  have hunit : A.IsUnital := Algebra.isUnital_of_computed_le (by decide) (by decide)
  have hF : FreeModule.KnownThrough A twoCells 2 := ⟨by decide, by decide, by decide⟩
  have hG : FreeModule.KnownThrough A oneCell 1 := ⟨by decide, by decide, by decide⟩
  have hlow : ∀ g ∈ oneCell.generatorList.map (·.degree), (0 : ℤ) ≤ g := by decide
  have hX : (oneCell.rep A.prime).LawfulThrough 1 :=
    (Representation.free_lawful (Algebra.lawfulBelow hassoc hunit) hlow).mono (by decide)
  have hn : twoCells.dimension A 1 = .ok 2 := by decide +kernel
  have hx : Proper A.prime 2 ⟨#[1, 1]⟩ := ⟨rfl, by unfold Reduced; decide⟩
  have hset : ∀ i b g, (⟨#[1, 1]⟩ : Vec).entry i ≠ 0 → twoCells.elementAt A 1 i = .ok (b, g) →
      collapse.DefinedOn A.prime twoCells (oneCell.rep A.prime) g := by
    intro i b g hi hel
    have hlt : i < 2 := by
      by_contra hle
      exact hi (entry_eq_zero_of_size_le (v := ⟨#[1, 1]⟩) (not_lt.mp hle))
    interval_cases i
    · have hzero : twoCells.elementAt A 1 0 = .ok (⟨1, 0⟩, ⟨0, 0⟩) := by decide +kernel
      obtain ⟨-, rfl⟩ := Prod.mk.inj (Except.ok.inj (hel.symm.trans hzero))
      exact fun hlow => absurd hlow (by decide)
    · have hone : twoCells.elementAt A 1 1 = .ok (⟨0, 0⟩, ⟨1, 0⟩) := by decide +kernel
      obtain ⟨-, rfl⟩ := Prod.mk.inj (Except.ok.inj (hel.symm.trans hone))
      exact fun _ => ⟨⟨#[1]⟩, rfl, by decide +kernel, by unfold Reduced; decide⟩
  obtain ⟨⟨ax, y, w, hax, hw, hy, hact⟩, _⟩ := apply_act (f := collapse) (a := ⟨1, 0⟩) hassoc hunit
    (hG.shows hassoc hunit) hX hF (by decide) ⟨by decide, by decide +kernel⟩ (by decide) hn hx hset 1 1
  have hy' : (collapse.toMap A twoCells (oneCell.toGraded A)).apply 1 1 ⟨#[1, 1]⟩ = .ok ⟨#[1]⟩ := by decide +kernel
  obtain rfl := Except.ok.inj (hy.symm.trans hy')
  have hw' : (oneCell.toGraded A).act A.prime 1 ⟨1, 0⟩ 0 ⟨#[1]⟩ = .ok ⟨#[1]⟩ := by decide +kernel
  obtain rfl := Except.ok.inj (hact.symm.trans hw')
  exact ⟨A, rfl, ax, hax, hw⟩

/-- It is linear also for the action of an element of the algebra, given by its coordinates in degree `b`. -/
theorem apply_actByElement {b : ℤ} {m n : ℕ} {z x : Vec} (hassoc : A.IsAssociative) (hunit : A.IsUnital)
    (hM : M.Shows X A top) (hX : X.LawfulThrough top) (hF : FreeModule.KnownThrough A F (d + b))
    (htop : d + b - f.shift ≤ top) (hb : 0 ≤ b) (hm : A.dimension b = .ok m) (hz : Proper A.prime m z)
    (hn : F.dimension A d = .ok n) (hx : Proper A.prime n x)
    (hset : ∀ i b g, x.entry i ≠ 0 → F.elementAt A d i = .ok (b, g) → f.DefinedOn A.prime F X g) (c e : ℕ) :
    ∃ zx y w, (F.toGraded A).actByElement m c b z d x = .ok zx ∧ (f.toMap A F M).apply e (d + b) zx = .ok w ∧
      (f.toMap A F M).apply e d x = .ok y ∧ M.actByElement m c b z (d - f.shift) y = .ok w := by
  have hFd := hF.mono (by omega : d ≤ d + b)
  have hS := definedOn_of_occurs hFd hn hx hset
  obtain rfl := Except.ok.inj (hn.symm.trans (hFd.dimension_eq le_rfl))
  obtain ⟨rfl, hlt⟩ := Algebra.dimension_eq_ok hm
  obtain ⟨zx, hzx, hzxp, hzxc⟩ := (hF.shows hassoc hunit).actByElement_eq hz (hlt hb) le_rfl hx c
  obtain ⟨w, hw, hwp, hwc⟩ := apply_eq_linearOn hF (hM.mono htop) hS hzxp (fun g hg => by
    obtain ⟨i, _, _, hocc⟩ := FreeModule.Occurs.of_combine (FreeModule.Occurs.of_smul (hzxc ▸ hg))
    exact .of_act (a := ⟨b, i⟩) hx.coords_mem hocc) e
  obtain ⟨y, hy, hyp, hyc⟩ := apply_eq_linearOn hFd (hM.mono (by omega)) hS hx (fun g hg => hg) e
  obtain ⟨w', hw', hwp', hwc'⟩ := hM.actByElement_eq hz (hlt hb) (by omega : d - f.shift + b ≤ top) hyp c
  rw [show d - f.shift + b = d + b - f.shift by omega] at hwp'
  have hcomm : ∀ i < Milnor.dim A.prime b, X.act ⟨b, i⟩ (d - f.shift) (y.coords A.prime) =
      ((e : A.prime.Field) • f.linearOn A.prime F X {g | F.Occurs A.prime d (x.coords A.prime) g} (d + b))
        ((F.rep A.prime).act ⟨b, i⟩ d (x.coords A.prime)) := fun i hi => by
    rw [hyc, map_smul]
    exact congrArg _ ((linearOn_commutes hX hS).map_act (a := ⟨b, i⟩) ⟨hb, hi⟩ htop hx.coords_mem).symm
  have hsame : w' = w := hwp'.ext hwp (by
    rw [hwc', combine_congr hcomm fun _ _ => rfl, ← map_combine, LinearMap.smul_apply, hwc, hzxc, map_smul, smul_comm])
  exact ⟨zx, y, w, hzx, hw, hy, hsame ▸ hw'⟩

end FreeMap
end Steenrod
