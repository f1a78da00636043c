import Steenrod.Module.Difference
import Steenrod.Proofs.Module.DerivedNames
import Steenrod.Proofs.Module.Genuine
/-!
The part of a finite module in degrees up to some degree. Main statements: there is only one, a part of a part is a part, a module is
the part of itself up to its top degree, and cutting off anything that is seen as a finite module makes its part.
-/
namespace Steenrod

open Vec Milnor Growing

/-- A family is the list of its entries. -/
theorem Graded.eq_ofList {α : Type} (g : Graded α) (x : α) :
    g = ofList g.minDegree ((GradedModule.degreesBetween g.minDegree g.maxDegree).map fun d => (g.get? d).getD x) := by
  refine ext_get? rfl fun d => ?_
  have hrange := get?_isSome_iff g d
  rw [FiniteModule.get?_ofList_degrees fun d => (g.get? d).getD x]
  unfold maxDegree
  cases hget : g.get? d with
  | none =>
    rw [hget, Option.isSome_none] at hrange
    rw [if_neg fun hd => Bool.false_ne_true (hrange.mpr ⟨hd.1, by omega⟩)]
  | some y =>
    rw [hget, Option.isSome_some] at hrange
    obtain ⟨hlow, hhigh⟩ := hrange.mp rfl
    rw [if_pos ⟨hlow, by omega⟩, Option.getD_some]

namespace FiniteModule

variable {p : Prime} {M K K' : FiniteModule} {N : GradedModule} {A A' : Algebra} {a b top d : ℤ} {i : ℕ}

/-- The names of the basis elements of a degree. -/
def namesIn (M : FiniteModule) (d : ℤ) : List String := (M.names.get? d).getD []

theorem nameOf_eq (M : FiniteModule) (d : ℤ) (i : ℕ) : M.nameOf d i = Result.ofOption (M.namesIn d)[i]? := by
  rw [nameOf, namesIn]
  cases M.names.get? d <;> simp

theorem Labelled.length_namesIn (h : M.Labelled) (d : ℤ) : (M.namesIn d).length = M.dimension d := by
  rw [namesIn]
  cases hget : M.names.get? d with
  | some l => exact h.named hget
  | none =>
    by_contra hne
    obtain ⟨x, hx⟩ := h.mp (Nat.pos_of_ne_zero (Ne.symm hne))
    obtain ⟨l, hl, _⟩ := nameOf_eq_ok.mp hx
    rw [hget] at hl
    cases hl

/-- The names of a degree are listed by asking for one after the other. -/
theorem Labelled.mapM_nameOf (h : M.Labelled) (d : ℤ) : (List.range (M.dimension d)).mapM (M.nameOf d) = .ok (M.namesIn d) := by
  have hlist : M.namesIn d = (List.range (M.dimension d)).map fun i => ((M.namesIn d)[i]?).getD "" := by
    refine List.ext_getElem (by rw [List.length_map, List.length_range, h.length_namesIn]) fun i hi _ => ?_
    rw [List.getElem_map, List.getElem_range, List.getElem?_eq_getElem hi, Option.getD_some]
  rw [hlist]
  refine Result.mapM_eq_ok fun i hi => ?_
  have hi : i < (M.namesIn d).length := h.length_namesIn d ▸ List.mem_range.mp hi
  rw [nameOf_eq, List.getElem?_eq_getElem hi]
  rfl

/-- The table as it is laid out for the dimensions and names of a module, with zeros. -/
def frame (p : Prime) (M : FiniteModule) : FiniteModule := { zeroTable p M.name M.dims with names := M.names }

theorem Entered.frame_eq (h : Entered M K) (hM : frame p M = M) : frame p K = M := by
  rw [← hM, frame, frame, h.name_eq, h.dims_eq, h.names_eq]

/-- Storing the images of a degree enters actions. -/
theorem entered_of_cutStep {x : ℤ × ℤ} (hlt : x.1 < x.2) (h : cutStep A N M x = .ok K) : Entered M K := by
  have htarget : x.1 + (x.2 - x.1) = x.2 := by omega
  have hactions : ∀ {count : ℕ}, M.dimension x.2 ≠ 0 → cutActions A N x M count = .ok K → Entered M K := by
    intro count hroom h
    refine Result.foldlM_invariant (I := Entered M) (fun i _ s s' hs h => ?_) .refl h
    refine Result.foldlM_invariant (I := Entered M) (fun k _ s s' hs h => ?_) hs h
    obtain ⟨v, _, h⟩ := Result.bind_eq_ok.mp h
    obtain rfl := Except.ok.inj h
    refine .set i _ hs (by simp only; omega) ?_
    simp only
    rw [htarget]
    exact Nat.pos_of_ne_zero hroom
  unfold cutStep at h
  split at h
  · obtain rfl := Except.ok.inj h
    exact .refl
  · next hroom =>
    split at h
    · exact hactions hroom h
    · obtain ⟨count, _, h⟩ := Result.bind_eq_ok.mp h
      exact hactions hroom h

/-- What is cut off is a table as it is laid out, with actions entered, under the name of the module. -/
theorem entered_of_run_truncate (h : (truncate N top).run A = (.ok K, A')) : K.name = N.name ∧ Entered (frame A.prime K) K := by
  obtain ⟨dims, B, hread, h₁⟩ := run_bind_eq_ok.mp ((congrArg (·.run A) (truncate_eq N top)).symm.trans h)
  obtain ⟨_, rfl⟩ := run_read_eq_ok.mp hread
  obtain ⟨M₀, C, hzero, h₂⟩ := run_bind_eq_ok.mp h₁
  obtain ⟨names, D, hread', h₃⟩ := run_bind_eq_ok.mp h₂
  obtain ⟨_, rfl⟩ := run_read_eq_ok.mp hread'
  obtain ⟨hcut, _⟩ := run_read_eq_ok.mp h₃
  obtain ⟨rfl, _⟩ := of_run_zeroAction hzero
  let M₀ : FiniteModule := { zeroTable B.prime N.name (Graded.ofList N.minDegree dims) with names := Graded.ofList N.minDegree names }
  have hentered : Entered M₀ K := Result.foldlM_invariant (s := M₀) (I := Entered M₀)
    (fun x hx s s' hs hstep => hs.trans (entered_of_cutStep (mem_closingOrder.mp hx).2.1 hstep)) .refl hcut
  exact ⟨hentered.name_eq, (hentered.frame_eq (p := B.prime) (rfl : frame B.prime M₀ = M₀)).symm ▸ hentered⟩

/-- Cutting off only extends the algebra. -/
theorem onlyExtends_truncate (N : GradedModule) (top : ℤ) : OnlyExtends (truncate N top) := by
  rw [truncate_eq]
  refine (onlyExtends_read _).bind fun dims => OnlyExtends.bind ?_ fun M => (onlyExtends_read _).bind fun names => onlyExtends_read _
  exact (onlyExtends_compute _).bind fun _ => (onlyExtends_read _).bind fun _ => onlyExtends_pure _

/-- A module does not differ from itself. -/
theorem difference?_self (A : Algebra) (M : FiniteModule) : difference? A A.prime M M = .ok none := by
  have hdims : M.dimensionDifference? M = none := by simp [dimensionDifference?]
  have hnames : M.nameDifference? M = none := by
    refine List.findSome?_eq_none_iff.mpr fun x hx => ?_
    have hget := Graded.mem_pairs.mp hx
    simp [hget]
  rw [difference?, hdims, hnames]
  simp only [and_self, if_true]

/-- `K` is what the module `M` is in degrees up to `top`. -/
structure IsPart (p : Prime) (M : FiniteModule) (top : ℤ) (K : FiniteModule) : Prop where
  name_eq : K.name = M.name
  dims_eq : K.dims = Graded.ofList M.minDegree ((GradedModule.degreesBetween M.minDegree top).map M.dimension)
  names_eq : K.names = Graded.ofList M.minDegree ((GradedModule.degreesBetween M.minDegree top).map M.namesIn)
  entered : Entered (frame p K) K
  stores : K.Stores p
  stored_eq : ∀ {a : Operation} {d : ℤ} {i : ℕ}, a.IsBasis p → i < K.dimension d → 0 < K.dimension (d + a.degree) →
    K.stored p a d i = M.stored p a d i

namespace IsPart

theorem dimension_eq (h : IsPart p M top K) (d : ℤ) : K.dimension d = if M.minDegree ≤ d ∧ d ≤ top then M.dimension d else 0 := by
  rw [dimension, h.dims_eq, get?_ofList_degrees]
  split <;> rfl

theorem dimension_of_le (h : IsPart p M top K) (hd : d ≤ top) : K.dimension d = M.dimension d := by
  rw [h.dimension_eq]
  split
  · rfl
  · next hnot => exact (dimension_of_lt (by omega)).symm

theorem minDegree_eq (h : IsPart p M top K) : K.minDegree = M.minDegree := by
  rw [minDegree, h.dims_eq]
  rfl

theorem maxDegree_eq (h : IsPart p M top K) : K.maxDegree = max top (M.minDegree - 1) := by
  rw [maxDegree, h.dims_eq]
  simp only [Graded.maxDegree, Graded.nextDegree, Graded.ofList, List.size_toArray, List.length_map, GradedModule.length_degreesBetween]
  omega

theorem namesIn_of_le (h : IsPart p M top K) (hM : M.Labelled) (hd : d ≤ top) : K.namesIn d = M.namesIn d := by
  rw [namesIn, h.names_eq, get?_ofList_degrees]
  split
  · rfl
  · next hnot =>
    have hlength := hM.length_namesIn d
    rw [dimension_of_lt (by omega)] at hlength
    exact (List.length_eq_zero_iff.mp hlength).symm

theorem stored_of_le (h : IsPart p M top K) {x : Operation} (hx : x.IsBasis p) (hd : d + x.degree ≤ top) (hi : i < K.dimension d) :
    K.stored p x d i = M.stored p x d i := by
  rcases Nat.eq_zero_or_pos (K.dimension (d + x.degree)) with hzero | hroom
  · rw [stored, stored, if_pos hzero, if_pos (h.dimension_of_le hd ▸ hzero)]
  · exact h.stored_eq hx hi hroom

/-- A module has one part only. -/
theorem unique (h : IsPart p M top K) (h' : IsPart p M top K') : K = K' := by
  have hdims := h.dims_eq.trans h'.dims_eq.symm
  have hframe : frame p K' = frame p K := by
    rw [frame, frame, h.name_eq, h'.name_eq, hdims, h.names_eq, h'.names_eq]
  have hentered := h'.entered
  rw [hframe] at hentered
  refine h.entered.ext hentered h.stores h'.stores (fun a d i v hv ha => ?_) fun a d i ha hi => ?_
  · have hv : (zeroTable p K.name K.dims).action? a d i = some v := hv
    exact of_action?_zeroTable hv ha
  · have hdim : K'.dimension = K.dimension := by
      unfold dimension
      rw [hdims]
    have hi : i < K.dimension d := hi
    rcases Nat.eq_zero_or_pos (K.dimension (d + a.degree)) with hzero | hroom
    · rw [stored, stored, hdim, if_pos hzero, if_pos hzero]
    · rw [h.stored_eq ha hi hroom, h'.stored_eq ha (hdim ▸ hi) (hdim ▸ hroom)]

/-- A part of a part is a part. -/
theorem trans (h : IsPart p M b K) (h' : IsPart p K a K') (hM : M.Labelled) (hle : a ≤ b) : IsPart p M a K' where
  name_eq := h'.name_eq.trans h.name_eq
  dims_eq := by
    rw [h'.dims_eq, h.minDegree_eq]
    refine congrArg _ (List.map_congr_left fun d hd => h.dimension_of_le ?_)
    exact (GradedModule.mem_degreesBetween.mp hd).2.trans hle
  names_eq := by
    rw [h'.names_eq, h.minDegree_eq]
    refine congrArg _ (List.map_congr_left fun d hd => h.namesIn_of_le hM ?_)
    exact (GradedModule.mem_degreesBetween.mp hd).2.trans hle
  entered := h'.entered
  stores := h'.stores
  stored_eq {x d i} hx hi hroom := by
    have hkept : ∀ {e k}, k < K'.dimension e → k < K.dimension e := fun {e k} hk => by
      rw [h'.dimension_eq] at hk
      split at hk
      · exact hk
      · exact absurd hk (Nat.not_lt_zero k)
    rw [h'.stored_eq hx hi hroom, h.stored_eq hx (hkept hi) (hkept hroom)]

/-- Below the least degree all parts are the same. -/
theorem of_lt (h : IsPart p M b K) (ha : a < M.minDegree) (hb : b < M.minDegree) : IsPart p M a K := by
  have hnone : GradedModule.degreesBetween M.minDegree a = GradedModule.degreesBetween M.minDegree b := by
    unfold GradedModule.degreesBetween
    rw [(by omega : (a + 1 - M.minDegree).toNat = (b + 1 - M.minDegree).toNat)]
  exact ⟨h.name_eq, hnone ▸ h.dims_eq, hnone ▸ h.names_eq, h.entered, h.stores, h.stored_eq⟩

/-- Cutting off a part is cutting off the whole. -/
theorem cut_twice {L : FiniteModule} {m : ℤ} (hM : M.Labelled) (hab : a ≤ b) (hL : IsPart p M (min m b) L)
    (hK' : IsPart p L (min L.maxDegree a) K') (hK : IsPart p M (min m a) K) : K' = K := by
  have hmax := hL.maxDegree_eq
  by_cases hlow : M.minDegree - 1 ≤ min m b
  · rw [(by omega : min L.maxDegree a = min m a)] at hK'
    exact (hL.trans hK' hM (by omega)).unique hK
  · -- nothing is left, and it makes no difference where that ends
    have hnone := hL.of_lt (a := M.minDegree - 1) (by omega) (by omega)
    exact ((hnone.trans hK' hM (by omega)).of_lt (by omega) (by omega)).unique hK

end IsPart

/-- Where the laws of a module hold, the decompositions and the relations between the generators do. -/
theorem closed_of_isFiniteModule (hp : p.val < 1073741824) (hM : M.Stores p) {low high : ℤ} (h : (M.rep p).IsFiniteModule low high) :
    M.Closed p where
  stores := hM
  closedAt x hx ht := by
    have hlt := (mem_closingOrder.mp hx).2.1
    refine ⟨fun k i hk _ hi _ => ?_, fun rel hrel i hi => h.termAct_relation hp hrel ht (single_mem_space hi)⟩
    have ha : (⟨x.2 - x.1, k⟩ : Operation).IsBasis p := ⟨by simp only; omega, hk⟩
    have hdecomposition := h.termAct_decomposition hp ha (by simp only; omega) ht (single_mem_space hi)
    rw [FilledAt, hdecomposition, rep_act_single _ _ _ hi]

/-- A module over the algebra: a table as it is laid out and as the laws of a module have it, and a name for each basis element. -/
structure Genuine (p : Prime) (M : FiniteModule) : Prop where
  entered : Entered (frame p M) M
  named : M.names.map List.length = M.dims
  stores : M.Stores p
  lawful : (M.rep p).IsFiniteModule M.minDegree M.maxDegree

namespace Genuine

theorem closed (h : M.Genuine p) (hp : p.val < 1073741824) : M.Closed p := closed_of_isFiniteModule hp h.stores h.lawful

theorem length_names (h : M.Genuine p) (d : ℤ) : (M.names.get? d).map List.length = M.dims.get? d := by
  rw [← h.named, Graded.get?_map]

theorem labelled (h : M.Genuine p) : M.Labelled := by
  intro d i
  have hlength := h.length_names d
  rw [dimension, ← hlength]
  simp only [nameOf_eq_ok]
  cases M.names.get? d with
  | none => simp
  | some l => simp [List.getElem?_eq_some_iff]

/-- A module is the part of itself up to its top degree. -/
theorem isPart (h : M.Genuine p) : IsPart p M M.maxDegree M where
  name_eq := rfl
  dims_eq := M.dims.eq_ofList 0
  names_eq := by
    have hmin : M.names.minDegree = M.minDegree := congrArg (·.minDegree) h.named
    have hmax : M.names.maxDegree = M.maxDegree := by
      unfold maxDegree Graded.maxDegree
      rw [← h.named, Graded.nextDegree_map]
    have hlist := M.names.eq_ofList []
    rwa [hmin, hmax] at hlist
  entered := h.entered
  stores := h.stores
  stored_eq _ _ _ := rfl

end Genuine

/-- Everything that is built is a module. -/
theorem genuine_of_run_build {P : Presentation} (hp : A.prime.val < 1073741824) (h : P.build.run A = (.ok M, A')) : M.Genuine A.prime where
  entered := by
    have hentered := Presentation.entered_of_run_build h
    rwa [hentered.frame_eq rfl]
  named := by
    have hentered := Presentation.entered_of_run_build h
    rw [hentered.names_eq, hentered.dims_eq]
    refine Graded.ext_get? rfl fun d => ?_
    change ((Graded.ofList P.minDegree ((GradedModule.degreesBetween P.minDegree P.maxDegree).map P.namesIn)).map List.length).get? d =
      (Graded.ofList P.minDegree ((GradedModule.degreesBetween P.minDegree P.maxDegree).map P.dimension)).get? d
    rw [Graded.get?_map, get?_ofList_degrees, get?_ofList_degrees]
    split
    · exact congrArg some (List.length_map _)
    · rfl
  stores := (Presentation.closed_of_run_build hp h).stores
  lawful := (Presentation.closed_of_run_build hp h).isFiniteModule hp

end FiniteModule

/-- The view `N` shows the finite module `M` in degrees up to `top`: its basis elements, their names, and how they are acted on. -/
structure GradedModule.Mirrors (N : GradedModule) (M : FiniteModule) (A : Algebra) (top : ℤ) : Prop where
  name_eq : N.name = M.name
  prime_eq : N.prime = A.prime
  minDegree_eq : N.minDegree = M.minDegree
  dimension_eq : ∀ d ≤ top, N.dimension d = .ok (M.dimension d)
  nameOf_eq : ∀ d ≤ top, ∀ i < M.dimension d, N.nameOf d i = M.nameOf d i
  actOnBasis_eq : ∀ (c : ℕ) (a : Operation) (d : ℤ) (i : ℕ), a.IsBasis A.prime → a.degree < A.computed → a.degree < trackedBelow →
    d + a.degree ≤ top → i < M.dimension d → N.actOnBasis A.prime c a d i = M.actOnBasis A A.prime c a d i

namespace GradedModule.Mirrors

open FiniteModule

variable {N : GradedModule} {M K : FiniteModule} {A : Algebra} {top low d : ℤ}

theorem mono (h : N.Mirrors M A top) (hle : low ≤ top) : N.Mirrors M A low where
  name_eq := h.name_eq
  prime_eq := h.prime_eq
  minDegree_eq := h.minDegree_eq
  dimension_eq d hd := h.dimension_eq d (hd.trans hle)
  nameOf_eq d hd := h.nameOf_eq d (hd.trans hle)
  actOnBasis_eq c a d i ha hA ht hd := h.actOnBasis_eq c a d i ha hA ht (hd.trans hle)

/-- The view of a finite module shows it. -/
theorem of_finite (M : FiniteModule) (A : Algebra) (top : ℤ) : (M.toGraded A).Mirrors M A top where
  name_eq := rfl
  prime_eq := rfl
  minDegree_eq := rfl
  dimension_eq _ _ := rfl
  nameOf_eq _ _ _ _ := rfl
  actOnBasis_eq _ _ _ _ _ _ _ _ _ := rfl

theorem names_eq (h : N.Mirrors M A top) (hM : M.Labelled) (hd : d ≤ top) : N.names d = .ok (M.namesIn d) := by
  rw [names, h.dimension_eq d hd, Result.ok_bind, ← hM.mapM_nameOf d]
  exact Result.mapM_congr fun i hi => h.nameOf_eq d hd i (List.mem_range.mp hi)

/-- What a view shows of a finite module it shows of the part of that. -/
theorem of_isPart (h : N.Mirrors M A top) (hM : M.Labelled) (hS : M.Stores A.prime) (hK : IsPart A.prime M top K) :
    N.Mirrors K A top where
  name_eq := h.name_eq.trans hK.name_eq.symm
  prime_eq := h.prime_eq
  minDegree_eq := h.minDegree_eq.trans hK.minDegree_eq.symm
  dimension_eq d hd := by rw [h.dimension_eq d hd, hK.dimension_of_le hd]
  nameOf_eq d hd i hi := by
    rw [hK.dimension_of_le hd] at hi
    rw [h.nameOf_eq d hd i hi]
    rw [FiniteModule.nameOf_eq, FiniteModule.nameOf_eq, hK.namesIn_of_le hM hd]
  actOnBasis_eq c a d i ha hA ht hd hi := by
    have ha₀ := ha.nonneg
    have hi' : i < M.dimension d := by rwa [hK.dimension_of_le (by omega)] at hi
    obtain ⟨w, hw, hproper, hcoords⟩ := FiniteModule.actOnBasis_eq (hS.storedBelow _) ha hA hi' c
    obtain ⟨w', hw', hproper', hcoords'⟩ := FiniteModule.actOnBasis_eq (hK.stores.storedBelow _) ha hA hi c
    rw [rep_act_single _ _ _ hi'] at hcoords
    rw [rep_act_single _ _ _ hi, hK.stored_of_le ha hd hi, ← hcoords] at hcoords'
    rw [hK.dimension_of_le hd] at hproper'
    rw [h.actOnBasis_eq c a d i ha hA ht hd hi', hw, hw', hproper'.ext hproper hcoords']

/-- Cutting off what is shown of a finite module makes the part of it. -/
theorem exists_run_truncate (h : N.Mirrors M A top) (hp : A.prime.val < 1073741824) (hM : M.Labelled) (hS : M.Stores A.prime)
    (hA : top - M.minDegree < A.computed) (ht : top - M.minDegree < trackedBelow) :
    ∃ K A', (truncate N top).run A = (.ok K, A') ∧ IsPart A.prime M top K ∧ Follows A A' := by
  have hmin := h.minDegree_eq
  have hact : ∀ (a : Operation) (d : ℤ) (i : ℕ), a.IsBasis A.prime → d + a.degree ≤ top → i < M.dimension d →
      ∃ w, N.actOnBasis A.prime 1 a d i = .ok w ∧ Proper A.prime (M.dimension (d + a.degree)) w ∧
        w.coords A.prime = M.stored A.prime a d i := by
    intro a d i ha hd hi
    have hlow := (degrees_of_lt_dimension hi).1
    obtain ⟨w, hw, hproper, hcoords⟩ := FiniteModule.actOnBasis_eq (hS.storedBelow _) ha (by omega) hi 1
    rw [Nat.cast_one, one_smul, rep_act_single _ _ _ hi] at hcoords
    exact ⟨w, (h.actOnBasis_eq 1 a d i ha (by omega) (by omega) hd hi).trans hw, hproper, hcoords⟩
  obtain ⟨K, A', hrun, hcut⟩ := FiniteModule.exists_run_truncate (N := N) (D := M.dimension) hp
    (by have htracked : (trackedBelow : ℤ) ≤ maxSigned := by decide
        omega)
    (fun d _ hd => h.dimension_eq d hd) (fun d _ hd => h.names_eq hM hd) fun a d i ha _ _ hd hi => by
      obtain ⟨w, hw, hproper, _⟩ := hact a d i ha hd hi
      exact ⟨w, hw, hproper⟩
  obtain ⟨hname, hentered⟩ := entered_of_run_truncate hrun
  have hfollows := (onlyExtends_truncate N top).follows hrun
  refine ⟨K, A', hrun, ⟨hname.trans h.name_eq, hmin ▸ hcut.dims_eq, hmin ▸ hcut.names_eq, hentered, hcut.stores, fun {a d i} ha hi hroom => ?_⟩, hfollows⟩
  obtain ⟨_, _, hdim⟩ := hcut.of_lt_dimension hi
  obtain ⟨_, hhigh, hdim'⟩ := hcut.of_lt_dimension hroom
  rcases ha.nonneg.eq_or_lt with hzero | hpos
  · have hroom' : M.dimension (d + a.degree) ≠ 0 := hdim' ▸ hroom.ne'
    rw [stored, stored, if_neg hroom.ne', if_pos hzero.symm, if_neg hroom', if_pos hzero.symm]
  · obtain ⟨w, hw, _, hcoords⟩ := hact a d i ha hhigh (hdim ▸ hi)
    rw [hcut.stored_eq ha hpos hi hroom, imageOf_eq hw, hcoords]

end GradedModule.Mirrors

/-- The view `N` is zero above degree `m`; above it operations make nothing of what is below. -/
structure GradedModule.EndsIn (N : GradedModule) (M : FiniteModule) (A : Algebra) (m : ℤ) : Prop where
  dimension_eq : ∀ d, m < d → N.dimension d = .ok 0
  actOnBasis_eq : ∀ (c : ℕ) (a : Operation) (d : ℤ) (i : ℕ), a.IsBasis A.prime → a.degree < A.computed → d ≤ m → m < d + a.degree →
    i < M.dimension d → N.actOnBasis A.prime c a d i = .ok (Vec.zero 0)

/-- In degrees up to `top` the view `N` is the finite module `K`: it has the dimensions and names of that, and every operation into
these degrees that is known to the algebra makes the same of every basis element. -/
structure GradedModule.AgreesWith (N : GradedModule) (K : FiniteModule) (A : Algebra) (top : ℤ) : Prop where
  name_eq : N.name = K.name
  minDegree_eq : N.minDegree = K.minDegree
  dimension_eq : ∀ d ≤ top, N.dimension d = .ok (K.dimension d)
  names_eq : ∀ d ≤ top, N.names d = .ok (K.namesIn d)
  actOnBasis_eq : ∀ (c : ℕ) (a : Operation) (d : ℤ) (i : ℕ), a.IsBasis A.prime → a.degree < A.computed → d + a.degree ≤ top →
    i < K.dimension d → N.actOnBasis A.prime c a d i = K.actOnBasis A A.prime c a d i

namespace FiniteModule

variable {M : FiniteModule} {A : Algebra} {a : Operation} {m d : ℤ} {i : ℕ}

theorem actOnBasis_of_empty (ha : a.IsBasis A.prime) (hA : a.degree < A.computed) (hi : i < M.dimension d)
    (hzero : M.dimension (d + a.degree) = 0) (c : ℕ) : M.actOnBasis A A.prime c a d i = .ok (Vec.zero 0) := by
  rw [actOnBasis, Algebra.dimension_of_lt hA, Result.ok_bind, decide_eq_true ha.index_lt, require_true, Result.ok_bind, decide_eq_true hi,
    require_true, Result.ok_bind]
  simp only
  rw [if_pos hzero]

/-- A finite module ends in its top degree. -/
theorem endsIn (M : FiniteModule) (A : Algebra) (h : ∀ d, m < d → M.dimension d = 0) : (M.toGraded A).EndsIn M A m where
  dimension_eq d hd := congrArg Except.ok (h d hd)
  actOnBasis_eq c _ _ _ ha hA _ hd hi := actOnBasis_of_empty ha hA hi (h _ hd) c

end FiniteModule

namespace GradedModule.Mirrors

open FiniteModule

variable {N : GradedModule} {M : FiniteModule} {A : Algebra} {top m : ℤ}

theorem agreesWith (h : N.Mirrors M A top) (hM : M.Labelled) (hspan : top - M.minDegree < trackedBelow) : N.AgreesWith M A top where
  name_eq := h.name_eq
  minDegree_eq := h.minDegree_eq
  dimension_eq := h.dimension_eq
  names_eq _ hd := h.names_eq hM hd
  actOnBasis_eq c a d i ha hA hd hi := by
    have hlow := (degrees_of_lt_dimension hi).1
    exact h.actOnBasis_eq c a d i ha hA (by omega) hd hi

/-- Where a view ends, it agrees in all degrees. -/
theorem agreesWith_above (h : N.Mirrors M A m) (hM : M.Labelled) (hspan : m - M.minDegree < trackedBelow) (hend : N.EndsIn M A m)
    (hzero : ∀ d, m < d → M.dimension d = 0) (top : ℤ) : N.AgreesWith M A top where
  name_eq := h.name_eq
  minDegree_eq := h.minDegree_eq
  dimension_eq d _ := by
    by_cases hd : d ≤ m
    · exact h.dimension_eq d hd
    · rw [hend.dimension_eq d (by omega), hzero d (by omega)]
  names_eq d _ := by
    by_cases hd : d ≤ m
    · exact h.names_eq hM hd
    · have hempty := hM.length_namesIn d
      rw [hzero d (by omega)] at hempty
      rw [names, hend.dimension_eq d (by omega), List.length_eq_zero_iff.mp hempty]
      rfl
  actOnBasis_eq c a d i ha hA _ hi := by
    by_cases hd : d + a.degree ≤ m
    · exact (h.agreesWith hM hspan).actOnBasis_eq c a d i ha hA hd hi
    · have hlow : d ≤ m := by
        by_contra hlt
        rw [hzero d (by omega)] at hi
        exact absurd hi (Nat.not_lt_zero i)
      rw [hend.actOnBasis_eq c a d i ha hA hlow (by omega) hi, actOnBasis_of_empty ha hA hi (hzero _ (by omega))]

end GradedModule.Mirrors
end Steenrod
