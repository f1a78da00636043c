import Steenrod.Proofs.Milnor.Relations
import Steenrod.Proofs.Module.Finite
/-!
The table in which a finite module stores its action. Main statements: setting one entry leaves all others as they are, the table
that is laid out at first holds zeros, and what a sum of products of operations does to a basis element is read off the table.
-/
namespace Steenrod

namespace Graded

variable {α : Type}

theorem get?_ofList (m : ℤ) (l : List α) (d : ℤ) :
    (ofList m l).get? d = if d < m then none else l[(d - m).toNat]? := by
  simp [ofList, get?]

end Graded

namespace FiniteModule

open Vec

variable {p : Prime} {M M' M'' : FiniteModule} {a b : Operation} {d e : ℤ} {i j : ℕ} {v : Vec}

theorem action?_eq (M : FiniteModule) (a : Operation) (d : ℤ) (i : ℕ) : M.action? a d i =
    (((M.actions.get? d).bind (·.get? (d + a.degree))).bind (·[a.index]?)).bind (·[i]?) := by
  unfold action?
  simp only [Option.bind_eq_bind, Option.bind_assoc]

theorem action?_setAction (M : FiniteModule) (a b : Operation) (d e : ℤ) (i j : ℕ) (v : Vec) :
    (M.setAction a d i v).action? b e j =
      if b = a ∧ e = d ∧ j = i then (M.action? b e j).map fun _ => v else M.action? b e j := by
  rw [action?_eq, action?_eq, setAction]
  simp only [Graded.get?_modify]
  by_cases he : e = d
  · rw [if_pos he]
    cases M.actions.get? e with
    | none => simp
    | some outputs =>
      simp only [Option.map_some, Option.bind_some, Graded.get?_modify]
      by_cases hdegree : b.degree = a.degree
      · rw [if_pos (by rw [he, hdegree])]
        cases outputs.get? (e + b.degree) with
        | none => simp
        | some operations =>
          simp only [Option.map_some, Option.bind_some, Array.getElem?_modify]
          by_cases hindex : a.index = b.index
          · rw [if_pos hindex]
            obtain rfl : b = a := by
              obtain ⟨_, _⟩ := a
              obtain ⟨_, _⟩ := b
              simp_all
            cases operations[b.index]? with
            | none => simp
            | some inputs =>
              simp only [Option.map_some, Option.bind_some, Array.getElem?_setIfInBounds]
              by_cases hi : i = j
              · subst hi
                rw [if_pos rfl]
                by_cases hlt : i < inputs.size
                · simp [he, hlt]
                · simp [he, hlt]
              · rw [if_neg hi, if_neg fun h => hi h.2.2.symm]
          · rw [if_neg hindex, if_neg fun h => hindex (by rw [h.1])]
      · rw [if_neg (by omega), if_neg fun h => hdegree (by rw [h.1])]
  · rw [if_neg he, if_neg fun h => he h.2.1]

/-- The table has its entries, and they are reduced. -/
def Stores (p : Prime) (M : FiniteModule) : Prop :=
  ∀ ⦃a : Operation⦄ ⦃d : ℤ⦄ ⦃i : ℕ⦄, a.IsBasis p → 0 < a.degree → i < M.dimension d → 0 < M.dimension (d + a.degree) →
    ∃ v, M.action? a d i = some v ∧ Proper p (M.dimension (d + a.degree)) v

theorem Stores.storedBelow (h : M.Stores p) (n : ℤ) : M.StoredBelow p n := by
  intro a d i ha hpos _ hi hdim
  obtain ⟨v, hv, hp⟩ := h ha hpos hi hdim
  exact ⟨v, hv, hp.size_eq⟩

@[simp] theorem dimension_setAction : (M.setAction a d i v).dimension = M.dimension := rfl

theorem Stores.setAction (h : M.Stores p) (hv : Proper p (M.dimension (d + a.degree)) v) : (M.setAction a d i v).Stores p := by
  intro b e j hb hpos hj hdim
  obtain ⟨w, hw, hp⟩ := h hb hpos hj hdim
  rw [action?_setAction]
  split
  · next heq =>
    obtain ⟨rfl, rfl, rfl⟩ := heq
    exact ⟨v, by rw [hw, Option.map_some], hv⟩
  · exact ⟨w, hw, hp⟩

/-- `M'` differs from `M` at most in the actions of some operations on some degrees. -/
structure ChangesOnly (S : Operation → ℤ → Prop) (M M' : FiniteModule) : Prop where
  dims_eq : M'.dims = M.dims
  names_eq : M'.names = M.names
  action?_eq : ∀ a d i, ¬S a d → M'.action? a d i = M.action? a d i

namespace ChangesOnly

variable {S T : Operation → ℤ → Prop}

theorem refl (S : Operation → ℤ → Prop) (M : FiniteModule) : ChangesOnly S M M := ⟨rfl, rfl, fun _ _ _ _ => rfl⟩

theorem trans (h : ChangesOnly S M M') (h' : ChangesOnly S M' M'') : ChangesOnly S M M'' :=
  ⟨h'.dims_eq.trans h.dims_eq, h'.names_eq.trans h.names_eq,
    fun a d i hS => (h'.action?_eq a d i hS).trans (h.action?_eq a d i hS)⟩

theorem mono (h : ChangesOnly S M M') (hle : ∀ a d, S a d → T a d) : ChangesOnly T M M' :=
  ⟨h.dims_eq, h.names_eq, fun a d i hT => h.action?_eq a d i fun hS => hT (hle a d hS)⟩

theorem setAction (hS : S a d) (M : FiniteModule) (i : ℕ) (v : Vec) : ChangesOnly S M (M.setAction a d i v) := by
  refine ⟨rfl, rfl, fun b e j hnot => ?_⟩
  rw [action?_setAction, if_neg]
  rintro ⟨rfl, rfl, _⟩
  exact hnot hS

theorem dimension_eq (h : ChangesOnly S M M') : M'.dimension = M.dimension := by
  unfold FiniteModule.dimension
  rw [h.dims_eq]

theorem stored_eq (h : ChangesOnly S M M') (hS : ¬S a d) (i : ℕ) : M'.stored p a d i = M.stored p a d i := by
  unfold stored
  rw [h.dimension_eq, h.action?_eq a d i hS]

theorem act_eq (h : ChangesOnly S M M') (hS : ¬S a d) : (M'.rep p).act a d = (M.rep p).act a d := by
  refine LinearMap.ext fun f => ?_
  change combine (M'.dimension d) (M'.stored p a d) f = combine (M.dimension d) (M.stored p a d) f
  rw [h.dimension_eq]
  exact combine_congr (fun i _ => h.stored_eq hS i) fun _ _ => rfl

end ChangesOnly

/-- What setting an entry does to the representation. -/
theorem stored_setAction (h : M.Stores p) (ha : a.IsBasis p) (hpos : 0 < a.degree) (hi : i < M.dimension d)
    (hdim : 0 < M.dimension (d + a.degree)) (v : Vec) : (M.setAction a d i v).stored p a d i = v.coords p := by
  obtain ⟨w, hw, _⟩ := h ha hpos hi hdim
  rw [stored, dimension_setAction, if_neg hdim.ne', if_neg hpos.ne', action?_setAction, if_pos ⟨rfl, rfl, rfl⟩, hw]
  rfl

/-- The first row of the table, with zeros for all operations of positive degree. -/
def zeroRow (p : Prime) (dims : Graded ℕ) (input : ℤ) : Graded (Array (Array Vec)) :=
  let n := (dims.get? input).getD 0
  Graded.ofList input (#[(Array.range n).map (Vec.unit n)] ::
    (GradedModule.degreesBetween (input + 1) dims.maxDegree).map fun output =>
      Array.replicate (Milnor.dim p (output - input)) (Array.replicate n (Vec.zero ((dims.get? output).getD 0))))

/-- The module with zeros for all operations of positive degree. -/
def zeroTable (p : Prime) (name : String) (dims : Graded ℕ) : FiniteModule where
  name := name
  dims := dims
  names := Graded.ofList dims.minDegree (dims.pairs.map fun (d, n) => (List.range n).map fun i => s!"x{d}_{i}")
  actions := Graded.ofList dims.minDegree (dims.degrees.map (zeroRow p dims))

theorem run_zeroAction {A A' : Algebra} {dims : Graded ℕ} (name : String)
    (h : (Growing.compute (dims.nextDegree - dims.minDegree)).run A = (.ok (), A'))
    (hlt : dims.nextDegree - dims.minDegree < A'.computed) :
    (zeroAction name dims).run A = (.ok (zeroTable A'.prime name dims), A') := by
  have hrow : ∀ input ∈ dims.degrees, zeroActions A' dims input = .ok (zeroRow A'.prime dims input) := by
    intro input hinput
    obtain ⟨k, hk, rfl⟩ := List.mem_map.mp hinput
    have hcount : ∀ output ∈ GradedModule.degreesBetween (dims.minDegree + k + 1) dims.maxDegree,
        (do
          let count ← A'.dimension (output - (dims.minDegree + k))
          (Except.ok (Array.replicate count (Array.replicate ((dims.get? (dims.minDegree + k)).getD 0)
            (Vec.zero ((dims.get? output).getD 0)))) : Result (Array (Array Vec)))) =
        .ok (Array.replicate (Milnor.dim A'.prime (output - (dims.minDegree + k)))
          (Array.replicate ((dims.get? (dims.minDegree + k)).getD 0) (Vec.zero ((dims.get? output).getD 0)))) := by
      intro output houtput
      have hrange := GradedModule.mem_degreesBetween.mp houtput
      unfold Graded.maxDegree at hrange
      rw [Algebra.dimension_of_lt (by omega), Result.ok_bind]
    exact Result.bind_eq_ok.mpr ⟨_, Result.mapM_eq_ok hcount, rfl⟩
  rw [zeroAction, Growing.run_bind, h]
  simp only
  rw [Growing.run_bind, Growing.run_read, Result.mapM_eq_ok hrow]
  rfl

theorem of_run_zeroAction {A A' : Algebra} {dims : Graded ℕ} {name : String} (h : (zeroAction name dims).run A = (.ok M, A')) :
    M = zeroTable A.prime name dims ∧ Growing.Follows A A' ∧ dims.nextDegree - dims.minDegree < A'.computed := by
  rcases Growing.run_compute (dims.nextDegree - dims.minDegree) A with ⟨e, hrun⟩ | ⟨B, hrun, hfollows, hlt⟩
  · obtain ⟨_, _, hcompute, _⟩ := Growing.run_bind_eq_ok.mp h
    rw [hrun] at hcompute
    cases hcompute
  · obtain ⟨hM, rfl⟩ := Prod.mk.inj ((run_zeroAction name hrun hlt).symm.trans h)
    exact ⟨hfollows.prime_eq ▸ (Except.ok.inj hM).symm, hfollows, hlt⟩

theorem action?_zeroTable {dims : Graded ℕ} (name : String) (ha : a.IsBasis p) (hpos : 0 < a.degree)
    (hi : i < (zeroTable p name dims).dimension d) (hdim : 0 < (zeroTable p name dims).dimension (d + a.degree)) :
    (zeroTable p name dims).action? a d i = some (Vec.zero ((zeroTable p name dims).dimension (d + a.degree))) := by
  have hdims : ∀ {e k : _}, k < (zeroTable p name dims).dimension e → dims.minDegree ≤ e ∧ e < dims.nextDegree := by
    intro e k hk
    refine (dims.get?_isSome_iff e).mp ?_
    cases hget : dims.get? e with
    | none =>
      have hzero : (zeroTable p name dims).dimension e = 0 := by
        change (dims.get? e).getD 0 = 0
        rw [hget, Option.getD_none]
      omega
    | some _ => rfl
  have hd := hdims hi
  have he := hdims hdim
  have hrow : (zeroTable p name dims).actions.get? d = some (zeroRow p dims d) := by
    have hlt : (d - dims.minDegree).toNat < dims.entries.size := by
      have := hd.2
      unfold Graded.nextDegree at this
      omega
    change (Graded.ofList dims.minDegree (dims.degrees.map (zeroRow p dims))).get? d = _
    rw [Graded.get?_ofList, if_neg (by omega), List.getElem?_map, Graded.degrees, List.getElem?_map, List.getElem?_range hlt,
      Option.map_some, Option.map_some, Int.toNat_of_nonneg (by omega), add_sub_cancel]
  obtain ⟨k, hk⟩ : ∃ k : ℕ, a.degree = k + 1 := ⟨(a.degree - 1).toNat, by omega⟩
  have houtput : (zeroRow p dims d).get? (d + a.degree) = some (Array.replicate (Milnor.dim p a.degree)
      (Array.replicate ((dims.get? d).getD 0) (Vec.zero ((dims.get? (d + a.degree)).getD 0)))) := by
    have hplace : (d + a.degree - d).toNat = k + 1 := by omega
    have hdegree : d + 1 + (k : ℤ) = d + a.degree := by omega
    rw [zeroRow, Graded.get?_ofList, if_neg (by omega), hplace, List.getElem?_cons_succ, List.getElem?_map,
      GradedModule.getElem?_degreesBetween, if_pos (by unfold Graded.maxDegree; omega), Option.map_some, hdegree, add_sub_cancel_left]
  have hindex := ha.index_lt
  have hi' : i < (dims.get? d).getD 0 := hi
  rw [action?_eq, hrow, Option.bind_some, houtput, Option.bind_some, Array.getElem?_replicate, if_pos hindex, Option.bind_some,
    Array.getElem?_replicate, if_pos hi']
  rfl

theorem stores_zeroTable (p : Prime) (name : String) (dims : Graded ℕ) : (zeroTable p name dims).Stores p :=
  fun _ _ _ ha hpos hi hdim => ⟨_, action?_zeroTable name ha hpos hi hdim, Proper.zero⟩

/-- What a sum of products of operations does to elements of degree `d`. -/
def termAct (X : Representation p) (terms : List Term) (d : ℤ) : (ℕ → p.Field) →ₗ[p.Field] (ℕ → p.Field) :=
  (terms.map fun t => (t.coefficient : p.Field) • (X.act t.left (d + t.right.degree) ∘ₗ X.act t.right d)).sum

@[simp] theorem termAct_nil (X : Representation p) (d : ℤ) : termAct X [] d = 0 := rfl

theorem termAct_cons (X : Representation p) (t : Term) (terms : List Term) (d : ℤ) : termAct X (t :: terms) d =
    (t.coefficient : p.Field) • (X.act t.left (d + t.right.degree) ∘ₗ X.act t.right d) + termAct X terms d := by
  simp [termAct]

theorem Stores.act_mem (h : M.Stores p) (ha : a.IsBasis p) (v : ℕ → p.Field) : (M.rep p).act a d v ∈ p.space (M.dimension (d + a.degree)) :=
  combine_mem (fun _ hi => stored_mem (h.storedBelow (a.degree + 1)) ha (by omega) hi) v

theorem Stores.termAct_mem (h : M.Stores p) {terms : List Term} {D : ℤ} (hterms : ∀ t ∈ terms, t.LiesIn p D) (v : ℕ → p.Field) :
    termAct (M.rep p) terms d v ∈ p.space (M.dimension (d + D)) := by
  induction terms with
  | nil => exact Submodule.zero_mem _
  | cons t terms ih =>
    obtain ⟨hleft, _, hdegree⟩ := hterms t (by simp)
    have hproduct := h.act_mem (d := d + t.right.degree) hleft ((M.rep p).act t.right d v)
    rw [(by omega : d + t.right.degree + t.left.degree = d + D)] at hproduct
    rw [termAct_cons]
    exact Submodule.add_mem _ (Submodule.smul_mem _ _ hproduct) (ih fun t' ht' => hterms t' (by simp [ht']))

/-- A sum of products acts as the table says. -/
theorem actByTerms_eq {A : Algebra} (h : M.StoredBelow A.prime A.computed) {D : ℤ} (hD : D < A.computed)
    (hi : i < M.dimension d) {terms : List Term} (hterms : ∀ t ∈ terms, t.LiesIn A.prime D) {u : Vec}
    (hu : Proper A.prime (M.dimension (d + D)) u) :
    ∃ w, M.actByTerms A terms d i u = .ok w ∧ Proper A.prime (M.dimension (d + D)) w ∧
      w.coords A.prime = u.coords A.prime + termAct (M.rep A.prime) terms d (Pi.single i 1) := by
  induction terms generalizing u with
  | nil => exact ⟨u, rfl, hu, by rw [termAct_nil, LinearMap.zero_apply, add_zero]⟩
  | cons t terms ih =>
    obtain ⟨hleft, hright, hdegree⟩ := hterms t (by simp)
    have hl₀ := hleft.nonneg
    have hr₀ := hright.nonneg
    obtain ⟨v, hv, hvp, hvc⟩ := actOnBasis_eq h hright (by omega) hi 1
    obtain ⟨w, hw, hwp, hwc⟩ := (shows h (d + D)).act_eq t.coefficient t.left (d + t.right.degree) v hleft (by omega) (by omega) hvp
    rw [Nat.cast_one, one_smul] at hvc
    have hdeg : d + t.right.degree + t.left.degree = d + D := by omega
    have hwp : Proper A.prime (M.dimension (d + D)) w := hdeg ▸ hwp
    obtain ⟨r, hr, hrp, hrc⟩ := ih (fun t' ht' => hterms t' (by simp [ht'])) (hu.add 1 w)
    refine ⟨r, ?_, hrp, ?_⟩
    · rw [actByTerms, List.foldlM_cons, hv, Result.ok_bind, hw]
      exact hr
    · rw [hrc, hu.coords_add 1 hwp, hwc, hvc, Nat.cast_one, one_smul, termAct_cons, LinearMap.add_apply, LinearMap.smul_apply,
        LinearMap.comp_apply, add_assoc]

/-- What is added up stays a vector of its size. -/
theorem actByTerms_proper {A : Algebra} {terms : List Term} {start w : Vec} {n : ℕ} (hstart : Proper p n start) (hp : A.prime = p)
    (h : M.actByTerms A terms d i start = .ok w) : Proper p n w := by
  subst hp
  induction terms generalizing start with
  | nil =>
    obtain rfl := Except.ok.inj h
    exact hstart
  | cons t terms ih =>
    rw [actByTerms, List.foldlM_cons] at h
    obtain ⟨u, hu, h⟩ := Result.bind_eq_ok.mp h
    obtain ⟨x, _, hu⟩ := Result.bind_eq_ok.mp hu
    obtain ⟨y, _, hu⟩ := Result.bind_eq_ok.mp hu
    obtain rfl := Except.ok.inj hu
    exact ih h (hstart.add 1 y)

end FiniteModule
end Steenrod
