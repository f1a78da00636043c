import Steenrod.Proofs.Module.Closed
import Steenrod.Proofs.Module.Finite
/-!
Modules with all degrees raised by a constant. Main statements: raising the degrees of generators raises the free module on
them, maps out of it are what they were, and a finite module whose tables are raised gives the raised representation.
-/
namespace Steenrod

open Vec

namespace Representation

variable {p : Prime} {X Y T : Representation p} {k g t : ℤ}

theorem ext_of_eq (hdim : ∀ d, X.dim d = Y.dim d) (hact : ∀ a d, X.act a d = Y.act a d) : X = Y := by
  obtain ⟨dim, act⟩ := X
  obtain ⟨dim', act'⟩ := Y
  obtain rfl : dim = dim' := funext hdim
  obtain rfl : act = act' := funext fun a => funext fun d => hact a d
  rfl

@[simp] theorem shift_dim_add (X : Representation p) (k d : ℤ) : (X.shift k).dim (d + k) = X.dim d :=
  congrArg X.dim (add_sub_cancel_right d k)

theorem shift_shift (X : Representation p) (g k : ℤ) : (X.shift g).shift k = X.shift (g + k) := by
  have hdeg : ∀ d : ℤ, d - k - g = d - (g + k) := fun d => by omega
  exact ext_of_eq (fun d => congrArg X.dim (hdeg d)) fun a d => congrArg (X.act a) (hdeg d)

theorem sum_shift (X Y : Representation p) (k : ℤ) : (X.sum Y).shift k = (X.shift k).sum (Y.shift k) := by
  refine ext_of_eq (fun _ => rfl) fun a d => LinearMap.ext fun v => ?_
  change (X.sum Y).act a (d - k) v = _
  rw [sum_act, sum_act]
  change glue (X.dim (d - k + a.degree)) _ _ = glue (X.dim (d + a.degree - k)) _ _
  rw [(by omega : d - k + a.degree = d + a.degree - k)]
  rfl

/-- Raising the degrees of the generators raises the free module. -/
theorem free_map_add (p : Prime) (gens : List ℤ) (k : ℤ) : free p (gens.map (· + k)) = (free p gens).shift k := by
  induction gens with
  | nil => exact ext_of_eq (fun _ => rfl) fun _ _ => rfl
  | cons g gens ih => rw [List.map_cons, free, free, ih, sum_shift, shift_shift]

/-- A map out of a raised free module is what it was. -/
theorem freeMap_shift (T : Representation p) (k l : ℤ) (gens : List (ℤ × (ℕ → p.Field))) (d : ℤ) :
    freeMap (T.shift k) l (gens.map fun x => (x.1 + k, x.2)) (d + k) = freeMap T l gens d := by
  induction gens with
  | nil => rfl
  | cons x gens ih =>
    obtain ⟨g, y⟩ := x
    refine LinearMap.ext fun v => ?_
    rw [List.map_cons, freeMap_cons, freeMap_cons, ih, add_sub_add_right_eq_sub]
    congr 1
    refine combine_congr (fun i _ => ?_) fun _ _ => rfl
    change T.act _ (g + k - l - k) y = _
    rw [(by omega : g + k - l - k = g - l)]

theorem AgreeBelow.shift (h : X.AgreeBelow Y t) (k : ℤ) : (X.shift k).AgreeBelow (Y.shift k) (t + k) :=
  ⟨fun d hd => h.dim_eq (d - k) (by omega), fun a d ha hd => h.act_eq a (d - k) ha (by omega)⟩

end Representation

/-- The generator with its degree raised. -/
def Generator.raise (k : ℤ) (g : Generator) : Generator := ⟨g.degree + k, g.index⟩

theorem GradedModule.degreesBetween_add (low high k : ℤ) :
    degreesBetween (low + k) (high + k) = (degreesBetween low high).map (· + k) := by
  unfold degreesBetween
  rw [List.map_map, (by omega : high + k + 1 - (low + k) = high + 1 - low)]
  exact List.map_congr_left fun i _ => by simp only [Function.comp_apply]; omega

namespace FreeModule

variable {p : Prime} {F F' : FreeModule} {k t : ℤ}

section Raising

variable (hmin : F'.minDegree = F.minDegree + k) (hle : F.minDegree ≤ t) (hnext : t ≤ F.nextDegree)
variable (hnext' : t + k ≤ F'.nextDegree) (h : ∀ d, F.minDegree ≤ d → d < t → F'.count (d + k) = F.count d)

include hmin hle hnext hnext' h

theorem below_raise : F'.below (t + k) = (F.below t).map (Generator.raise k) := by
  rw [below_eq (by omega) hnext', below_eq hle hnext, hmin, (by omega : t + k - 1 = t - 1 + k),
    GradedModule.degreesBetween_add, List.flatMap_map, List.map_flatMap]
  refine List.flatMap_congr fun d hd => ?_
  have := GradedModule.mem_degreesBetween.mp hd
  rw [h d this.1 (by omega), List.map_map]
  rfl

/-- A free module with as many generators in raised degrees is the raised one, below a degree. -/
theorem agreeBelow_shift (p : Prime) : (F'.rep p).AgreeBelow ((F.rep p).shift k) (t + k) := by
  have hraised := rep_agreeBelow_below p F' (t + k)
  have hdegrees : ((F.below t).map (Generator.raise k)).map (·.degree) = ((F.below t).map (·.degree)).map (· + k) := by
    rw [List.map_map, List.map_map]
    rfl
  rw [below_raise hmin hle hnext hnext' h, hdegrees, Representation.free_map_add] at hraised
  exact hraised.trans ((rep_agreeBelow_below p F t).symm.shift k) (le_refl _)

end Raising

end FreeModule

namespace FiniteModule

variable {p : Prime} {M M' : FiniteModule} {k n : ℤ}

/-- The tables of `M'` are those of `M` with all degrees raised by `k`; the names may be others. -/
structure IsSuspension (k : ℤ) (M M' : FiniteModule) : Prop where
  minDegree_eq : M'.minDegree = M.minDegree + k
  dimension_eq : ∀ d, M'.dimension (d + k) = M.dimension d
  action_eq : ∀ a d i, M'.action? a (d + k) i = M.action? a d i

namespace IsSuspension

variable (h : IsSuspension k M M')

include h

theorem stored_eq (a : Operation) (d : ℤ) (i : ℕ) : M'.stored p a (d + k) i = M.stored p a d i := by
  rw [stored, stored, (by omega : d + k + a.degree = d + a.degree + k), h.dimension_eq, h.action_eq]

theorem rep_eq (p : Prime) : M'.rep p = (M.rep p).shift k := by
  have hdim : ∀ d, M'.dimension d = M.dimension (d - k) := fun d => by rw [← h.dimension_eq, Int.sub_add_cancel]
  refine Representation.ext_of_eq hdim fun a d => ?_
  change combine (M'.dimension d) (M'.stored p a d) = combine (M.dimension (d - k)) (M.stored p a (d - k))
  rw [hdim]
  congr 1
  funext i
  rw [← h.stored_eq, Int.sub_add_cancel]

theorem storedBelow (hM : M.StoredBelow p n) : M'.StoredBelow p n := by
  intro a d i ha hpos hlt hi hdim
  have hdegree : d + a.degree = d - k + a.degree + k := by omega
  rw [← Int.sub_add_cancel d k, h.dimension_eq] at hi
  rw [hdegree, h.dimension_eq] at hdim ⊢
  obtain ⟨v, hv, hsize⟩ := hM a (d - k) i ha hpos hlt hi hdim
  exact ⟨v, by rw [← hv, ← h.action_eq, Int.sub_add_cancel], hsize⟩

end IsSuspension

/-- The module with all degrees raised by `k`. -/
def suspend (k : ℤ) (M : FiniteModule) : FiniteModule where
  name := M.name
  dims := { M.dims with minDegree := M.dims.minDegree + k }
  names := { M.names with minDegree := M.names.minDegree + k }
  actions := ⟨M.actions.minDegree + k, M.actions.entries.map fun g => { g with minDegree := g.minDegree + k }⟩

theorem get?_raise {α : Type} (g : Graded α) (k d : ℤ) : (⟨g.minDegree + k, g.entries⟩ : Graded α).get? (d + k) = g.get? d := by
  unfold Graded.get?
  simp only [add_lt_add_iff_right, add_sub_add_right_eq_sub]

theorem isSuspension_suspend (k : ℤ) (M : FiniteModule) : IsSuspension k M (M.suspend k) where
  minDegree_eq := rfl
  dimension_eq d := congrArg (·.getD 0) (get?_raise M.dims k d)
  action_eq a d i := by
    have hget : (M.suspend k).actions.get? (d + k) =
        (M.actions.get? d).map fun g => { g with minDegree := g.minDegree + k } := by
      rw [← Graded.get?_map]
      exact get?_raise (M.actions.map _) k d
    rw [action?, action?, hget]
    cases M.actions.get? d with
    | none => rfl
    | some outputs =>
      simp only [Option.map_some, Option.bind_eq_bind, Option.bind_some]
      rw [(by omega : d + k + a.degree = d + a.degree + k), get?_raise outputs k (d + a.degree)]

end FiniteModule
end Steenrod
