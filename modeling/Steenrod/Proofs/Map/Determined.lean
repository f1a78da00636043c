import Steenrod.Proofs.Map.System
import Steenrod.Proofs.Module.Closing
import Steenrod.Proofs.Milnor.Growth
/-!
Homomorphisms of finite modules that take given values. Main statements: what is found commutes with the action of the whole algebra and
takes the values that were given last, and values that a homomorphism takes on elements that generate the source determine it: it is
found, and nothing is in the way.
-/
namespace Steenrod

open Vec Steenrod.Representation

namespace Representation

variable {p : Prime}

/-- Nothing smaller than the whole module holds the basis elements of `G` and is closed under the action. -/
def Generates (X : Representation p) (G : Set (ℤ × ℕ)) : Prop :=
  ∀ N : ℤ → Submodule p.Field (ℕ → p.Field), (∀ x ∈ G, x.2 < X.dim x.1 → Pi.single x.2 1 ∈ N x.1) →
    (∀ (a : Operation) (d : ℤ) (v : ℕ → p.Field), a.IsBasis p → v ∈ p.space (X.dim d) → v ∈ N d → X.act a d v ∈ N (d + a.degree)) →
    ∀ d, p.space (X.dim d) ≤ N d

end Representation

namespace PartialMap

variable {A : Algebra} {f : PartialMap} {R R' : Graded Matrix} {E : Subspace} {t d : ℤ}

/-- What is found so far commutes with the action and takes the given values, in the degrees that have been reached. -/
structure Solves (p : Prime) (f : PartialMap) (R : Graded Matrix) (t : ℤ) : Prop extends f.Fits p R t where
  map_act : ∀ (a : Operation) (e : ℤ) (i : ℕ), a.IsBasis p → e + a.degree - f.shift < t → i < f.source.dimension e →
    (f.found R).linear p (e + a.degree) ((f.source.rep p).act a e (Pi.single i 1)) =
      (f.target.rep p).act a (e - f.shift) ((f.found R).linear p e (Pi.single i 1))
  takes : ∀ (e : ℤ) (i : ℕ) (v : Vec), e - f.shift < t → i < f.source.dimension e → f.value? (e, i) = some v →
    (f.found R).linear p e (Pi.single i 1) = v.coords p

/-- The step of `solve` to the next degree of the target. -/
def step (A : Algebra) (f : PartialMap) (R : Graded Matrix) (t : ℤ) : Result (Graded Matrix) := do
  let E ← f.system A (f.source.toGraded A) (f.target.toGraded A) R t
  match E.leads.find? (f.source.dimension (t + f.shift) ≤ ·.1) with
  | some (_, row) => do
    let value ← (f.target.toGraded A).elementText t
      (row.block (f.source.dimension (t + f.shift)) (f.source.dimension (t + f.shift) + f.target.dimension t))
    refuse (.inconsistentMap (.zeroForced (t + f.shift) value))
  | none => .ok (R.push (solution (f.source.dimension (t + f.shift)) (f.target.dimension t) E))

theorem solve_eq (A : Algebra) (f : PartialMap) : f.solve A (f.source.toGraded A) (f.target.toGraded A) = (do
    let R ← f.target.dims.degrees.foldlM (f.step A) (Graded.empty f.target.minDegree)
    .ok (f.found R)) := rfl

/-- Before the first degree there is nothing to find. -/
theorem Solves.empty {p : Prime} (hvalues : f.ValuesFit p) : f.Solves p (Graded.empty f.target.minDegree) f.target.minDegree where
  toFits := Fits.empty p f
  map_act a e i _ _ _ := by
    rw [Fits.linear_eq_zero (Graded.get?_empty _ _), Fits.linear_eq_zero (Graded.get?_empty _ _), map_zero]
  takes e i v hlt _ hv := by
    have hproper : Proper p (f.target.dimension (e - f.shift)) v := hvalues hv
    rw [FiniteModule.dimension_of_lt hlt] at hproper
    rw [Fits.linear_eq_zero (Graded.get?_empty _ _)]
    exact (coords_of_proper_zero hproper).symm

/-- A system that does not force zero to go elsewhere leads to the next degree. -/
theorem Solves.push {p : Prime} (h : f.Solves p R t) (hS : ∀ n, f.source.StoredBelow p n) (hvalues : f.ValuesFit p) (hE : E.Echelon p)
    (hcol : E.columns = f.source.dimension (t + f.shift) + f.target.dimension t)
    (hspace : E.space p = if f.target.dimension t = 0 then ⊥ else Submodule.span p.Field (f.equations p R (t + f.shift)))
    (hlead : ∀ x ∈ E.leads, x.1 < f.source.dimension (t + f.shift)) :
    f.Solves p (R.push (solution (f.source.dimension (t + f.shift)) (f.target.dimension t) E)) (t + 1) := by
  set N := solution (f.source.dimension (t + f.shift)) (f.target.dimension t) E with hN
  have hfits : f.Fits p (R.push N) (t + 1) := h.toFits.push rfl (height_solution _ _ _) (proper_solution hE hcol)
  have hzero : f.target.dimension t = 0 → ∀ e, e - f.shift = t → ∀ v, (f.found (R.push N)).linear p e v = 0 := by
    intro hdim e he v
    have hmem := FiniteMap.linear_mem hfits.hasRows p e v
    rwa [show (f.found (R.push N)).target.dimension (e - (f.found (R.push N)).shift) = 0 from he ▸ hdim, space_zero,
      Submodule.mem_bot] at hmem
  -- What the system demands holds of the new matrix.
  have hnew : f.target.dimension t ≠ 0 → ∀ u w, u ∈ p.space (f.source.dimension (t + f.shift)) →
      glue (f.source.dimension (t + f.shift)) u w ∈ f.equations p R (t + f.shift) → ∀ e, e = t + f.shift →
        (f.found (R.push N)).linear p e u = w := by
    rintro hdim u w hu hmem e rfl
    have hin : glue (f.source.dimension (t + f.shift)) u w ∈ E.space p := by
      rw [hspace, if_neg hdim]
      exact Submodule.subset_span hmem
    have hsolution := linear_solution hE hcol hlead hin
    rw [rest_glue, Matrix.linear, height_solution, ← combine_cut, cut_glue hu] at hsolution
    rw [hfits.linear_push_new (add_sub_cancel_right t f.shift), Matrix.linear, hN, height_solution]
    exact hsolution
  refine ⟨hfits, fun a e i ha hlt hi => ?_, fun e i v hlt hi hv => ?_⟩
  · have hpos := ha.nonneg
    by_cases hold : e + a.degree - f.shift < t
    · rw [h.linear_push (by omega), h.linear_push (by omega)]
      exact h.map_act a e i ha hold hi
    · have hdegree : e + a.degree = t + f.shift := by omega
      rcases hpos.eq_or_lt with hunit | hpos
      · have hsource : (Pi.single i 1 : ℕ → p.Field) ∈ p.space (f.source.dimension e) := fun j hj =>
          Pi.single_eq_of_ne (by omega) _
        have htarget : (f.found (R.push N)).linear p e (Pi.single i 1) ∈ p.space (f.target.dimension (e - f.shift)) :=
          FiniteMap.linear_mem hfits.hasRows p e _
        rw [FiniteModule.rep_act_of_degree_eq_zero hunit.symm hsource, ← hunit, add_zero,
          FiniteModule.rep_act_of_degree_eq_zero hunit.symm htarget]
      · rw [h.linear_push (show e - f.shift ≠ t by omega)]
        by_cases hdim : f.target.dimension t = 0
        · rw [hzero hdim _ (by omega), FiniteModule.rep_act_eq_zero (by rw [← hdim]; congr 1; omega), LinearMap.zero_apply]
        · refine hnew hdim _ _ ?_ (.inl ⟨a, e, i, ha, by omega, hdegree, hi, by rw [equation, hdegree]⟩) _ hdegree
          rw [FiniteModule.rep_act_single _ _ _ hi, ← hdegree]
          exact FiniteModule.stored_mem (hS _) ha (lt_add_one _) hi
  · have hproper : Proper p (f.target.dimension (e - f.shift)) v := hvalues hv
    by_cases hold : e - f.shift < t
    · rw [h.linear_push (by omega)]
      exact h.takes e i v hold hi hv
    · obtain rfl : e = t + f.shift := by omega
      rw [add_sub_cancel_right] at hproper
      by_cases hdim : f.target.dimension t = 0
      · rw [hdim] at hproper
        rw [hzero hdim _ (add_sub_cancel_right t f.shift)]
        exact (coords_of_proper_zero hproper).symm
      · exact hnew hdim _ _ (fun j hj => Pi.single_eq_of_ne (show j ≠ i by omega) _) (.inr ⟨i, v, hi, hv, rfl⟩) _ rfl

/-- What holds for basis elements holds for all elements. -/
theorem Solves.map_act_of_mem {p : Prime} (h : f.Solves p R t) {a : Operation} (ha : a.IsBasis p) (hlt : d + a.degree - f.shift < t)
    {v : ℕ → p.Field} (hv : v ∈ p.space (f.source.dimension d)) :
    (f.found R).linear p (d + a.degree) ((f.source.rep p).act a d v) =
      (f.target.rep p).act a (d - f.shift) ((f.found R).linear p d v) := by
  rw [← combine_units hv]
  simp only [map_combine]
  exact combine_congr (fun i hi => h.map_act a d i ha hlt hi) fun _ _ => rfl

/-- One step of `solve` keeps what is found right. -/
theorem Solves.of_step (h : f.Solves A.prime R t) (hS : ∀ n, f.source.StoredBelow A.prime n)
    (hT : ∀ n, f.target.StoredBelow A.prime n) (hvalues : f.ValuesFit A.prime)
    (hlt : t + f.shift - f.source.minDegree < A.computed) (hstep : f.step A R t = .ok R') : f.Solves A.prime R' (t + 1) := by
  obtain ⟨E, hsystem, hE, hcol, hspace⟩ := f.system_eq (hS _) (hT _) h.toFits hvalues hlt
  rw [step, hsystem, Result.ok_bind] at hstep
  split at hstep
  · obtain ⟨_, _, hrefused⟩ := Result.bind_eq_ok.mp hstep
    cases hrefused
  · next hnone =>
    obtain rfl := Except.ok.inj hstep
    exact h.push hS hvalues hE hcol hspace fun x hx => by simpa using List.find?_eq_none.mp hnone x hx

section Generated

variable {p : Prime} {φ : Family p}

/-- In degrees that have been reached, there is no choice when the values are those of a homomorphism on generators. -/
theorem Solves.eq_of_generates (h : f.Solves p R t) (hφ : ∀ τ, Hom (f.source.rep p) (f.target.rep p) f.shift τ φ)
    (hval : ∀ x v, f.value? x = some v → φ x.1 (Pi.single x.2 1) = v.coords p)
    (hgen : (f.source.rep p).Generates {x | (f.value? x).isSome}) (hd : d - f.shift < t) {v : ℕ → p.Field}
    (hv : v ∈ p.space (f.source.dimension d)) : (f.found R).linear p d v = φ d v := by
  have hall := hgen (fun e => if e - f.shift < t then LinearMap.eqLocus ((f.found R).linear p e) (φ e) else ⊤) ?_ ?_ d hv
  · rwa [if_pos hd] at hall
  · rintro ⟨e, i⟩ hx hi
    obtain ⟨w, hw⟩ := Option.isSome_iff_exists.mp hx
    split
    · next hlt => exact (h.takes e i w hlt hi hw).trans (hval (e, i) w hw).symm
    · trivial
  · intro a e w ha hw hmem
    have hpos := ha.nonneg
    split
    · next hlt =>
      rw [if_pos (by omega)] at hmem
      have heq : (f.found R).linear p e w = φ e w := hmem
      change (f.found R).linear p (e + a.degree) _ = φ (e + a.degree) _
      rw [h.map_act_of_mem ha hlt hw, heq, (hφ (e + a.degree)).map_act ha (le_refl _) hw]
    · trivial

/-- The equations and the values of a homomorphism lie in its graph. -/
theorem rest_eq_of_mem_equations (hS : ∀ n, f.source.StoredBelow p n) (hφ : ∀ τ, Hom (f.source.rep p) (f.target.rep p) f.shift τ φ)
    (hval : ∀ x v, f.value? x = some v → φ x.1 (Pi.single x.2 1) = v.coords p)
    (hbelow : ∀ e < d, ∀ v ∈ p.space (f.source.dimension e), (f.found R).linear p e v = φ e v) {w : ℕ → p.Field}
    (hw : w ∈ f.equations p R d) : rest p (f.source.dimension d) w = φ d (cut p (f.source.dimension d) w) := by
  have hsingle : ∀ {e : ℤ} {i : ℕ}, i < f.source.dimension e → (Pi.single i 1 : ℕ → p.Field) ∈ p.space (f.source.dimension e) :=
    fun {e i} hi j hj => Pi.single_eq_of_ne (by omega) _
  rcases hw with ⟨a, e, i, ha, hlt, rfl, hi, rfl⟩ | ⟨i, v, hi, hv, rfl⟩
  · have hmem : (f.source.rep p).act a e (Pi.single i 1) ∈ p.space (f.source.dimension (e + a.degree)) := by
      rw [FiniteModule.rep_act_single _ _ _ hi]
      exact FiniteModule.stored_mem (hS _) ha (lt_add_one _) hi
    rw [equation, rest_glue, cut_glue hmem, hbelow e hlt _ (hsingle hi), (hφ (e + a.degree)).map_act ha (le_refl _) (hsingle hi)]
  · rw [rest_glue, cut_glue (hsingle hi), ← hval (d, i) v hv]

end Generated

/-- The values of a homomorphism on generators lead to the next degree. -/
theorem Solves.exists_step {φ : Family A.prime} (h : f.Solves A.prime R t) (hS : ∀ n, f.source.StoredBelow A.prime n)
    (hT : ∀ n, f.target.StoredBelow A.prime n) (hvalues : f.ValuesFit A.prime)
    (hlt : t + f.shift - f.source.minDegree < A.computed)
    (hφ : ∀ τ, Hom (f.source.rep A.prime) (f.target.rep A.prime) f.shift τ φ)
    (hval : ∀ x v, f.value? x = some v → φ x.1 (Pi.single x.2 1) = v.coords A.prime)
    (hgen : (f.source.rep A.prime).Generates {x | (f.value? x).isSome}) :
    ∃ R', f.step A R t = .ok R' ∧ f.Solves A.prime R' (t + 1) := by
  obtain ⟨E, hsystem, hE, hcol, hspace⟩ := f.system_eq (hS _) (hT _) h.toFits hvalues hlt
  have hgraph : ∀ w ∈ E.space A.prime, rest A.prime (f.source.dimension (t + f.shift)) w =
      φ (t + f.shift) (cut A.prime (f.source.dimension (t + f.shift)) w) := by
    intro w hw
    rw [hspace] at hw
    split at hw
    · rw [(Submodule.mem_bot _).mp hw, map_zero, map_zero, map_zero]
    · have hequations := LinearMap.eqOn_span' (f := rest A.prime (f.source.dimension (t + f.shift)))
        (g := φ (t + f.shift) ∘ₗ cut A.prime (f.source.dimension (t + f.shift))) fun w hw =>
          rest_eq_of_mem_equations hS hφ hval (fun e he v hv => h.eq_of_generates hφ hval hgen (by omega) hv) hw
      exact hequations hw
  have hlead := lead_lt_of_graph hE hgraph
  refine ⟨_, ?_, h.push hS hvalues hE hcol hspace hlead⟩
  rw [step, hsystem, Result.ok_bind]
  have hnone : E.leads.find? (f.source.dimension (t + f.shift) ≤ ·.1) = none :=
    List.find?_eq_none.mpr fun x hx => by simpa using hlead x hx
  rw [hnone]

section Run

variable (hS : ∀ n, f.source.StoredBelow A.prime n) (hT : ∀ n, f.target.StoredBelow A.prime n) (hvalues : f.ValuesFit A.prime)
  (hA : f.algebraDegree < A.computed)

include hA

theorem lt_computed {c : ℕ} (hc : c < f.target.dims.entries.size) :
    f.target.minDegree + c + f.shift - f.source.minDegree < A.computed := by
  have hmax := le_max_right 0 (f.target.maxDegree + f.shift - f.source.minDegree)
  rw [algebraDegree] at hA
  simp only [FiniteModule.maxDegree, FiniteModule.minDegree, Graded.maxDegree, Graded.nextDegree] at hmax hA ⊢
  omega

include hS hT hvalues

/-- A run of `solve` keeps what is found right, by induction on the number of degrees. -/
theorem Solves.of_foldlM {c : ℕ} (hc : c ≤ f.target.dims.entries.size)
    (h : ((List.range c).map fun i : ℕ => f.target.minDegree + i).foldlM (f.step A) (Graded.empty f.target.minDegree) = .ok R) :
    f.Solves A.prime R (f.target.minDegree + c) := by
  induction c generalizing R with
  | zero =>
    obtain rfl := Except.ok.inj h
    rw [Nat.cast_zero, add_zero]
    exact Solves.empty hvalues
  | succ c ih =>
    rw [List.range_succ, List.map_append, List.foldlM_append] at h
    obtain ⟨R₁, h₁, h⟩ := Result.bind_eq_ok.mp h
    rw [List.map_singleton, List.foldlM_cons] at h
    obtain ⟨R₂, h₂, h⟩ := Result.bind_eq_ok.mp h
    obtain rfl := Except.ok.inj h
    rw [Nat.cast_succ, ← add_assoc]
    exact (ih (by omega) h₁).of_step hS hT hvalues (lt_computed hA hc) h₂

theorem exists_foldlM {φ : Family A.prime} (hφ : ∀ τ, Hom (f.source.rep A.prime) (f.target.rep A.prime) f.shift τ φ)
    (hval : ∀ x v, f.value? x = some v → φ x.1 (Pi.single x.2 1) = v.coords A.prime)
    (hgen : (f.source.rep A.prime).Generates {x | (f.value? x).isSome}) {c : ℕ} (hc : c ≤ f.target.dims.entries.size) :
    ∃ R, ((List.range c).map fun i : ℕ => f.target.minDegree + i).foldlM (f.step A) (Graded.empty f.target.minDegree) = .ok R := by
  induction c with
  | zero => exact ⟨_, rfl⟩
  | succ c ih =>
    obtain ⟨R, hR⟩ := ih (by omega)
    have hsolves := Solves.of_foldlM hS hT hvalues hA (by omega) hR
    obtain ⟨R', hR', _⟩ := hsolves.exists_step hS hT hvalues (lt_computed hA hc) hφ hval hgen
    refine ⟨R', ?_⟩
    rw [List.range_succ, List.map_append, List.foldlM_append, hR, Result.ok_bind, List.map_singleton, List.foldlM_cons, hR']
    rfl

end Run

section Everywhere

variable {p : Prime} (h : f.Solves p R f.target.dims.nextDegree)

include h

/-- Above the target there is nothing to go to. -/
theorem Solves.linear_eq_zero (hd : f.target.dims.nextDegree ≤ d - f.shift) (v : ℕ → p.Field) : (f.found R).linear p d v = 0 := by
  have hmem : (f.found R).linear p d v ∈ p.space (f.target.dimension (d - f.shift)) := FiniteMap.linear_mem h.hasRows p d v
  rwa [FiniteModule.dimension_of_nextDegree_le hd, space_zero, Submodule.mem_bot] at hmem

/-- What is found in all degrees of the target commutes with the action in all degrees. -/
theorem Solves.map_act_everywhere {a : Operation} (ha : a.IsBasis p) {v : ℕ → p.Field} (hv : v ∈ p.space (f.source.dimension d)) :
    (f.found R).linear p (d + a.degree) ((f.source.rep p).act a d v) =
      (f.target.rep p).act a (d - f.shift) ((f.found R).linear p d v) := by
  by_cases hlt : d + a.degree - f.shift < f.target.dims.nextDegree
  · exact h.map_act_of_mem ha hlt hv
  · rw [h.linear_eq_zero (not_lt.mp hlt), FiniteModule.rep_act_eq_zero (FiniteModule.dimension_of_nextDegree_le (by omega)),
      LinearMap.zero_apply]

theorem Solves.takes_everywhere (hvalues : f.ValuesFit p) {i : ℕ} {v : Vec} (hi : i < f.source.dimension d)
    (hv : f.value? (d, i) = some v) : (f.found R).linear p d (Pi.single i 1) = v.coords p := by
  by_cases hlt : d - f.shift < f.target.dims.nextDegree
  · exact h.takes d i v hlt hi hv
  · have hproper : Proper p (f.target.dimension (d - f.shift)) v := hvalues hv
    rw [FiniteModule.dimension_of_nextDegree_le (not_lt.mp hlt)] at hproper
    rw [h.linear_eq_zero (not_lt.mp hlt), coords_of_proper_zero hproper]

theorem Solves.eq_everywhere {φ : Family p} (hφ : ∀ τ, Hom (f.source.rep p) (f.target.rep p) f.shift τ φ)
    (hval : ∀ x v, f.value? x = some v → φ x.1 (Pi.single x.2 1) = v.coords p)
    (hgen : (f.source.rep p).Generates {x | (f.value? x).isSome}) {v : ℕ → p.Field} (hv : v ∈ p.space (f.source.dimension d)) :
    (f.found R).linear p d v = φ d v := by
  by_cases hlt : d - f.shift < f.target.dims.nextDegree
  · exact h.eq_of_generates hφ hval hgen hlt hv
  · have hmem : φ d v ∈ p.space (f.target.dimension (d - f.shift)) := (hφ d).mem (le_refl d) hv
    rw [FiniteModule.dimension_of_nextDegree_le (not_lt.mp hlt), space_zero, Submodule.mem_bot] at hmem
    rw [h.linear_eq_zero (not_lt.mp hlt), hmem]

/-- It is a homomorphism over the algebra, however far that is known. -/
theorem Solves.isLinear (hS : ∀ n, f.source.StoredBelow p n) (hT : ∀ n, f.target.StoredBelow p n) {C : Algebra} (hC : C.prime = p) :
    (f.found R).IsLinear C where
  rows := h.hasRows
  map_act a d x ha hlt hx := by
    subst hC
    have hx : Proper C.prime (f.source.dimension d) x := hx
    have hsum : d + a.degree - f.shift = d - f.shift + a.degree := by omega
    obtain ⟨u, hu, hup, huc⟩ := (FiniteModule.shows (hS _) _).act_eq 1 a d x ha hlt (le_refl _) hx
    obtain ⟨y, hy, hyp, hyc⟩ := FiniteMap.apply_eq h.hasRows C C hx 1
    obtain ⟨w, hw, hwp, hwc⟩ := FiniteMap.apply_eq h.hasRows C C hup 1
    obtain ⟨w', hw', hwp', hwc'⟩ := (FiniteModule.shows (hT _) _).act_eq 1 a (d - f.shift) y ha hlt (le_refl _) hyp
    have hwp : Proper C.prime (f.target.dimension (d + a.degree - f.shift)) w := hwp
    have hwp' : Proper C.prime (f.target.dimension (d - f.shift + a.degree)) w' := hwp'
    rw [hsum] at hwp
    rw [Nat.cast_one, one_smul] at huc hyc hwc hwc'
    obtain rfl : w = w' := hwp.ext hwp' <| by
      rw [hwc, hwc', huc, hyc]
      exact h.map_act_everywhere ha hx.coords_mem
    exact ⟨u, y, w, hu, hw, hy, hw'⟩

/-- Each basis element has an image. -/
theorem Solves.imageOf_eq {i : ℕ} (hi : i < f.source.dimension d) :
    ∃ w, (f.found R).imageOf p d i = .ok w ∧ Proper p (f.target.dimension (d - f.shift)) w ∧
      w.coords p = (f.found R).linear p d (Pi.single i 1) := by
  have hsource : i < (f.found R).source.dimension d := hi
  obtain ⟨w, hw, hproper, hcoords⟩ := FiniteMap.applyToBasis_eq (p := p) h.hasRows hsource 1
  exact ⟨w, hw, hproper, by rw [hcoords, Nat.cast_one, one_smul]⟩

end Everywhere

section Answers

variable {p : Prime} (hp : A.prime = p) (hS : ∀ n, f.source.StoredBelow p n) (hT : ∀ n, f.target.StoredBelow p n)
  (hvalues : f.ValuesFit p) (hA : f.algebraDegree < A.computed)

include hp hS hT hvalues hA

/-- What `solve` answers has been found in all degrees of the target. -/
theorem solves_of_solve {g : FiniteMap} (hg : f.solve A (f.source.toGraded A) (f.target.toGraded A) = .ok g) :
    ∃ R, g = f.found R ∧ f.Solves p R f.target.dims.nextDegree := by
  subst hp
  obtain ⟨R, hR, hg⟩ := Result.bind_eq_ok.mp (f.solve_eq A ▸ hg)
  exact ⟨R, (Except.ok.inj hg).symm, Solves.of_foldlM hS hT hvalues hA le_rfl hR⟩

/-- The values of a homomorphism on generators are enough for `solve` to answer. -/
theorem exists_solve {φ : Family p} (hφ : ∀ τ, Hom (f.source.rep p) (f.target.rep p) f.shift τ φ)
    (hval : ∀ x v, f.value? x = some v → φ x.1 (Pi.single x.2 1) = v.coords p)
    (hgen : (f.source.rep p).Generates {x | (f.value? x).isSome}) :
    ∃ g, f.solve A (f.source.toGraded A) (f.target.toGraded A) = .ok g := by
  subst hp
  obtain ⟨R, hR⟩ := exists_foldlM hS hT hvalues hA hφ hval hgen le_rfl
  exact ⟨f.found R, f.solve_eq A ▸ Result.bind_eq_ok.mpr ⟨R, hR, rfl⟩⟩

end Answers

end PartialMap
end Steenrod
