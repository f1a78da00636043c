import Steenrod.Proofs.Module.DirectSum
import Steenrod.Proofs.Module.Measured
import Steenrod.Proofs.Module.Naming
/-!
Names in modules that are cut off from products and sums. Main statement: they are those of the products and sums, so that basis elements
are found by them exactly where no two of those that are kept get the same one.
-/
namespace Steenrod

open Growing

theorem Graded.get?_of_mapM {α : Type} {f : ℤ → Result α} {low high d : ℤ} {l : List α} {a : α}
    (h : (GradedModule.degreesBetween low high).mapM f = .ok l) :
    (Graded.ofList low l).get? d = some a ↔ (low ≤ d ∧ d ≤ high) ∧ f d = .ok a := by
  rw [Graded.get?_ofList]
  by_cases hlow : d < low
  · rw [if_pos hlow]
    exact ⟨fun h => (Option.some_ne_none _ h.symm).elim, fun h => by omega⟩
  · have hplace : low + ((d - low).toNat : ℤ) = d := by omega
    rw [if_neg hlow, Result.getElem?_of_mapM h, GradedModule.getElem?_degreesBetween, hplace]
    by_cases hhigh : d ≤ high
    · simp [hhigh, not_lt.mp hlow]
    · simp [hhigh]

/-- The names of a degree are those of its basis elements. -/
theorem GradedModule.getElem?_names {N : GradedModule} {d : ℤ} {l : List String} {i : ℕ} {x : String} (h : N.names d = .ok l) :
    l[i]? = some x ↔ (∃ n, N.dimension d = .ok n ∧ i < n) ∧ N.nameOf d i = .ok x := by
  obtain ⟨n, hn, hnames⟩ := Result.bind_eq_ok.mp h
  rw [Result.getElem?_of_mapM hnames, hn]
  simp [List.getElem?_eq_some_iff]

namespace FiniteModule

variable {N : GradedModule} {M : FiniteModule} {A A' : Algebra} {top d : ℤ} {i : ℕ} {x : String}

/-- What is cut off has the basis elements of the degrees that are kept. -/
theorem lt_dimension_of_run_truncate (h : (truncate N top).run A = (.ok M, A')) :
    i < M.dimension d ↔ (N.minDegree ≤ d ∧ d ≤ top) ∧ ∃ n, N.dimension d = .ok n ∧ i < n := by
  obtain ⟨dims, names, hdims, _, hM, _⟩ := of_run_truncate h
  rw [dimension, hM]
  cases hget : (Graded.ofList N.minDegree dims).get? d with
  | some n =>
    obtain ⟨hd, hn⟩ := (Graded.get?_of_mapM hdims).mp hget
    rw [Option.getD_some]
    refine ⟨fun hi => ⟨hd, n, hn, hi⟩, fun h => ?_⟩
    obtain ⟨_, m, hm, hi⟩ := h
    exact Except.ok.inj (hn.symm.trans hm) ▸ hi
  | none =>
    rw [Option.getD_none]
    refine ⟨fun hi => absurd hi (Nat.not_lt_zero i), fun h => ?_⟩
    obtain ⟨hd, n, hn, _⟩ := h
    rw [(Graded.get?_of_mapM hdims).mpr ⟨hd, hn⟩] at hget
    cases hget

/-- They have the names that they had. -/
theorem nameOf_of_run_truncate (h : (truncate N top).run A = (.ok M, A')) :
    M.nameOf d i = .ok x ↔ i < M.dimension d ∧ N.nameOf d i = .ok x := by
  rw [lt_dimension_of_run_truncate h]
  obtain ⟨_, names, _, hnames, _, hM, _⟩ := of_run_truncate h
  rw [nameOf_eq_ok, hM]
  constructor
  · rintro ⟨l, hl, hx⟩
    obtain ⟨hd, hl⟩ := (Graded.get?_of_mapM hnames).mp hl
    obtain ⟨hi, hx⟩ := (GradedModule.getElem?_names hl).mp hx
    exact ⟨⟨hd, hi⟩, hx⟩
  · rintro ⟨⟨hd, hi⟩, hx⟩
    obtain ⟨l, hl⟩ := Result.exists_of_mapM hnames (GradedModule.mem_degreesBetween.mpr hd)
    exact ⟨l, (Graded.get?_of_mapM hnames).mpr ⟨hd, hl⟩, (GradedModule.getElem?_names hl).mpr ⟨hi, hx⟩⟩

theorem stores_of_run_truncate (h : (truncate N top).run A = (.ok M, A')) : M.Stores A.prime := by
  obtain ⟨_, _, _, _, _, _, hstores⟩ := of_run_truncate h
  exact hstores

theorem labelled_of_run_truncate (h : (truncate N top).run A = (.ok M, A')) : M.Labelled := by
  intro d i
  refine ⟨fun hi => ?_, fun ⟨x, hx⟩ => ((nameOf_of_run_truncate h).mp hx).1⟩
  obtain ⟨_, names, _, hnames, _, _⟩ := of_run_truncate h
  obtain ⟨hd, n, hn, hlt⟩ := (lt_dimension_of_run_truncate h).mp hi
  obtain ⟨l, hl⟩ := Result.exists_of_mapM hnames (GradedModule.mem_degreesBetween.mpr hd)
  obtain ⟨m, hm, hall⟩ := Result.bind_eq_ok.mp hl
  obtain rfl := Except.ok.inj (hn.symm.trans hm)
  obtain ⟨x, hx⟩ := Result.exists_of_mapM hall (List.mem_range.mpr hlt)
  exact ⟨x, (nameOf_of_run_truncate h).mpr ⟨hi, hx⟩⟩

end FiniteModule

theorem Text.toList_joined (x y : String) : s!"{x}.{y}".toList = x.toList ++ '.' :: y.toList := by
  change (x ++ "." ++ y).toList = _
  rw [String.toList_append, String.toList_append, List.append_assoc]
  rfl

theorem Text.isName_joined {x y : String} (hx : isName x = true) (hy : isName y = true) : isName s!"{x}.{y}" = true := by
  obtain ⟨c, cs, hc, hstart, hcs⟩ := exists_of_isName hx
  rw [isName, toList_joined, hc, List.cons_append]
  simp only
  rw [hstart, Bool.true_and, List.all_eq_true]
  intro d hd
  rcases List.mem_append.mp hd with hd | hd
  · exact hcs d hd
  · rcases List.mem_cons.mp hd with rfl | hd
    · decide
    · exact isNameChar_of_mem hy hd

/-- Where the first parts have no dot, names are joined to different ones. -/
theorem Text.joined_inj {x y u v : String} (hx : '.' ∉ x.toList) (hu : '.' ∉ u.toList) (h : s!"{x}.{y}" = s!"{u}.{v}") : x = u ∧ y = v := by
  have hlist := congrArg String.toList h
  rw [toList_joined, toList_joined] at hlist
  have hfirst : ∀ {a b : List Char}, '.' ∉ a → (a ++ '.' :: b).takeWhile (· != '.') = a := fun {a b} ha => by
    have hne : ∀ c ∈ a, (c != '.') = true := fun c hc => bne_iff_ne.mpr (by rintro rfl; exact ha hc)
    rw [List.takeWhile_append_of_pos hne, List.takeWhile_cons_of_neg (by simp), List.append_nil]
  have hleft : x.toList = u.toList := by rw [← hfirst (b := y.toList) hx, hlist, hfirst hu]
  rw [hleft, List.append_right_inj, List.cons_inj_right] at hlist
  exact ⟨String.toList_inj.mp hleft, String.toList_inj.mp hlist⟩

namespace Tensor

open FiniteModule TensorTable

variable {L R M : FiniteModule} {A B B' : Algebra} {T : TensorTable} {top t l r : ℤ} {i j n : ℕ} {x y z : String}

/-- Pairs of basis elements of degrees that add up to at most `top` have names that do not join to the same one. -/
def JoinsApart (L R : FiniteModule) (top : ℤ) : Prop :=
  ∀ ⦃l l' r r' : ℤ⦄ ⦃i i' j j' : ℕ⦄ ⦃x y u v : String⦄, L.nameOf l i = .ok x → R.nameOf r j = .ok y → l + r ≤ top →
    L.nameOf l' i' = .ok u → R.nameOf r' j' = .ok v → l' + r' ≤ top → s!"{x}.{y}" = s!"{u}.{v}" → (l = l' ∧ i = i') ∧ r = r' ∧ j = j'

/-- It is enough that the names of the left factor have no dots. -/
theorem joinsApart_of_no_dots (hL : L.Distinct) (hR : R.Distinct) (hdots : ∀ l i x, L.nameOf l i = .ok x → '.' ∉ x.toList) (top : ℤ) :
    JoinsApart L R top := by
  intro l l' r r' i i' j j' x y u v hx hy _ hu hv _ heq
  obtain ⟨rfl, rfl⟩ := Text.joined_inj (hdots l i x hx) (hdots l' i' u hu) heq
  exact ⟨hL hx hu, hR hy hv⟩

section Cut

variable (hL : L.Labelled) (hR : R.Labelled) (hT : Records L R T)
variable (h : (truncate (toGraded A (L.toGraded A) (R.toGraded A) T) top).run B = (.ok M, B'))

include hL hR hT h

/-- A pair of basis elements gives one of the product. -/
theorem exists_place (hx : L.nameOf l i = .ok x) (hy : R.nameOf r j = .ok y) (htop : l + r ≤ top) :
    ∃ k, leftDegree L k = l ∧ j < rowLength L R (l + r) k ∧ M.nameOf (l + r) (rowStart L R (l + r) k i + j) = .ok s!"{x}.{y}" := by
  have hi := hL.mpr ⟨x, hx⟩
  have hj := hR.mpr ⟨y, hy⟩
  obtain ⟨hlow, hhigh⟩ := degrees_of_lt_dimension hi
  obtain ⟨hlow', _⟩ := degrees_of_lt_dimension hj
  obtain ⟨k, rfl⟩ : ∃ k, leftDegree L k = l := ⟨(l - L.minDegree).toNat, by unfold leftDegree; omega⟩
  have hright : leftDegree L k + r - leftDegree L k = r := add_sub_cancel_left _ _
  have hk : k < span L := by
    unfold span
    unfold leftDegree at hhigh
    omega
  have hj : j < rowLength L R (leftDegree L k + r) k := by rwa [rowLength, hright]
  have hy : R.nameOf (leftDegree L k + r - leftDegree L k) j = .ok y := by rwa [hright]
  have hplace := rowStart_add_lt_total hk hi hj
  obtain ⟨dims, _, hdims, _⟩ := of_run_truncate h
  have hdegree : L.minDegree + R.minDegree ≤ leftDegree L k + r := by omega
  obtain ⟨n, hn⟩ := Result.exists_of_mapM hdims (GradedModule.mem_degreesBetween.mpr ⟨hdegree, htop⟩)
  obtain ⟨rfl, hreach⟩ := hT.of_dimension hn
  refine ⟨k, rfl, hj, (nameOf_of_run_truncate h).mpr ⟨(lt_dimension_of_run_truncate h).mpr ⟨⟨hdegree, htop⟩, _, hn, hplace⟩, ?_⟩⟩
  exact hT.nameOf_eq A (hreach (Nat.zero_lt_of_lt hplace)).2 hi hj hx hy

/-- Every basis element of the product comes from a pair. -/
theorem exists_pair (hz : M.nameOf t n = .ok z) :
    ∃ k i j x y, L.nameOf (leftDegree L k) i = .ok x ∧ R.nameOf (t - leftDegree L k) j = .ok y ∧ t ≤ top ∧ n = rowStart L R t k i + j ∧
      z = s!"{x}.{y}" := by
  obtain ⟨hn, hz⟩ := (nameOf_of_run_truncate h).mp hz
  obtain ⟨⟨hlow, hhigh⟩, m, hm, hlt⟩ := (lt_dimension_of_run_truncate h).mp hn
  obtain ⟨rfl, hreach⟩ := hT.of_dimension hm
  obtain ⟨k, hk, i, hi, j, hj, rfl⟩ := exists_row hlt
  obtain ⟨x, hx⟩ := hL.mp hi
  obtain ⟨y, hy⟩ := hR.mp hj
  have hname := hT.nameOf_eq A (hreach (Nat.zero_lt_of_lt hlt)).2 hi hj hx hy
  exact ⟨k, i, j, x, y, hx, hy, hhigh, rfl, Except.ok.inj (hz.symm.trans hname)⟩

/-- Names identify the basis elements of what is cut off from a product exactly where no two of them are joined to the same one. -/
theorem identified_iff_joinsApart : M.Identified ↔ JoinsApart L R top := by
  rw [(labelled_of_run_truncate h).identified_iff]
  constructor
  · intro hM l l' r r' i i' j j' x y u v hx hy htop hu hv htop' heq
    obtain ⟨k, rfl, hj, hname⟩ := exists_place hL hR hT h hx hy htop
    obtain ⟨k', rfl, hj', hname'⟩ := exists_place hL hR hT h hu hv htop'
    rw [← heq] at hname'
    obtain ⟨hdegree, hplace⟩ := hM hname hname'
    rw [← hdegree] at hj' hplace
    obtain ⟨rfl, rfl, rfl⟩ := rowStart_inj (hL.mpr ⟨x, hx⟩) hj (hL.mpr ⟨u, hu⟩) hj' hplace
    exact ⟨⟨rfl, rfl⟩, add_left_cancel hdegree, rfl⟩
  · intro hapart t t' n n' z hz hz'
    obtain ⟨k, i, j, x, y, hx, hy, htop, rfl, rfl⟩ := exists_pair hL hR hT h hz
    obtain ⟨k', i', j', u, v, hu, hv, htop', rfl, heq⟩ := exists_pair hL hR hT h hz'
    obtain ⟨⟨hleft, rfl⟩, hright, rfl⟩ := hapart hx hy (by omega) hu hv (by omega) heq
    obtain rfl : k = k' := by
      unfold leftDegree at hleft
      omega
    obtain rfl : t = t' := by omega
    exact ⟨rfl, rfl⟩

end Cut

end Tensor

namespace SumTable

/-- The dimensions of the members of a list, and zero after its end. -/
def widths (Ms : List FiniteModule) (d : ℤ) (j : ℕ) : ℕ := (Ms[j]?.map (·.dimension d)).getD 0

theorem widths_eq {Ms : List FiniteModule} {j : ℕ} {M : FiniteModule} (h : Ms[j]? = some M) (d : ℤ) : widths Ms d j = M.dimension d := by
  rw [widths, h, Option.map_some, Option.getD_some]

/-- Every table that was extended some number of times is a table of the sum. -/
theorem records_of_foldlM {Ms : List FiniteModule} {low : ℤ} {T : SumTable} {steps : List (Algebra × ℤ)}
    (h : steps.foldlM (fun T x => T.extend (Ms.map (·.toGraded x.1)) x.2) (SumTable.new low) = .ok T) :
    Records low Ms.length (widths Ms) T := by
  refine Result.foldlM_invariant (fun x _ T T' hT hstep => (hT.extend (List.length_map _) (fun j N hN d _ _ => ?_) hstep).1)
    (records_new low _ _) h
  rw [List.getElem?_map] at hN
  obtain ⟨M, hM, rfl⟩ := Option.map_eq_some_iff.mp hN
  rw [widths_eq hM]
  exact FiniteModule.summandDimension_toGraded M x.1 d

end SumTable

namespace DirectSum

open FiniteModule SumTable

variable {Ms : List FiniteModule} {M N : FiniteModule} {p : Prime} {A B B' : Algebra} {T : SumTable} {low top d : ℤ} {i j n : ℕ} {x z : String}

/-- Basis elements in degrees from `low` through `top` have names that no other one has, in the same or another summand. -/
def NamesApart (Ms : List FiniteModule) (low top : ℤ) : Prop :=
  ∀ ⦃j j' : ℕ⦄ ⦃N N' : FiniteModule⦄ ⦃d d' : ℤ⦄ ⦃i i' : ℕ⦄ ⦃x : String⦄, Ms[j]? = some N → Ms[j']? = some N' → low ≤ d → d ≤ top →
    N.nameOf d i = .ok x → low ≤ d' → d' ≤ top → N'.nameOf d' i' = .ok x → j = j' ∧ d = d' ∧ i = i'

section Cut

variable (hMs : ∀ N ∈ Ms, N.Labelled) (hT : Records low Ms.length (widths Ms) T) (hnext : top < T.offsets.nextDegree)
variable (h : (truncate (toGraded p (Ms.map (·.toGraded A)) T) top).run B = (.ok M, B'))

include hMs hT hnext h

omit hMs in
theorem nameOf_eq (hN : Ms[j]? = some N) (hi : i < N.dimension d) (hlow : low ≤ d) (htop : d ≤ top) :
    M.nameOf d (blockStart (widths Ms d) j + i) = .ok x ↔ N.nameOf d i = .ok x := by
  have hj : j < Ms.length := (List.getElem?_eq_some_iff.mp hN).1
  have hwidth : i < widths Ms d j := by rwa [widths_eq hN]
  have hdim : (toGraded p (Ms.map (·.toGraded A)) T).dimension d = .ok (blockStart (widths Ms d) Ms.length) :=
    congrArg Except.ok (hT.dimension_of_le hlow (by omega))
  have hplace : blockStart (widths Ms d) j + i < blockStart (widths Ms d) Ms.length :=
    (Nat.add_lt_add_left hwidth _).trans_le (blockStart_add_le hj)
  have hmin : (toGraded p (Ms.map (·.toGraded A)) T).minDegree = low := hT.minDegree_eq
  have hname : (toGraded p (Ms.map (·.toGraded A)) T).nameOf d (blockStart (widths Ms d) j + i) = N.nameOf d i := by
    change nameOf (Ms.map (·.toGraded A)) T d _ = _
    rw [nameOf, hT.locate_eq hlow (by omega) hj hwidth, Result.ok_bind]
    simp only
    rw [List.getElem?_map, hN]
    rfl
  rw [nameOf_of_run_truncate h, hname, lt_dimension_of_run_truncate h, hmin]
  exact ⟨fun hx => hx.2, fun hx => ⟨⟨⟨hlow, htop⟩, _, hdim, hplace⟩, hx⟩⟩

omit hMs in
/-- Every basis element of the sum is one of a summand. -/
theorem exists_part (hz : M.nameOf d n = .ok z) :
    ∃ j N i, Ms[j]? = some N ∧ low ≤ d ∧ d ≤ top ∧ N.nameOf d i = .ok z ∧ n = blockStart (widths Ms d) j + i := by
  have hmin : (toGraded p (Ms.map (·.toGraded A)) T).minDegree = low := hT.minDegree_eq
  obtain ⟨⟨hlow, htop⟩, m, hm, hlt⟩ := (lt_dimension_of_run_truncate h).mp ((nameOf_of_run_truncate h).mp hz).1
  rw [hmin] at hlow
  obtain rfl := Except.ok.inj (hm.symm.trans (congrArg Except.ok (hT.dimension_of_le hlow (by omega))))
  obtain ⟨j, hj, i, hi, rfl⟩ := exists_block hlt
  have hN := List.getElem?_eq_getElem hj
  rw [widths_eq hN] at hi
  exact ⟨j, _, i, hN, hlow, htop, (nameOf_eq hT hnext h hN hi hlow htop).mp hz, rfl⟩

/-- Names identify the basis elements of what is cut off from a sum exactly where the summands share none. -/
theorem identified_iff_namesApart : M.Identified ↔ NamesApart Ms low top := by
  rw [(labelled_of_run_truncate h).identified_iff]
  constructor
  · intro hM j j' N N' d d' i i' x hN hN' hlow htop hx hlow' htop' hx'
    have hi := (hMs N (List.mem_of_getElem? hN)).mpr ⟨x, hx⟩
    have hi' := (hMs N' (List.mem_of_getElem? hN')).mpr ⟨x, hx'⟩
    obtain ⟨rfl, hplace⟩ := hM ((nameOf_eq hT hnext h hN hi hlow htop).mpr hx) ((nameOf_eq hT hnext h hN' hi' hlow' htop').mpr hx')
    obtain ⟨rfl, rfl⟩ := block_inj (by rwa [widths_eq hN]) (by rwa [widths_eq hN']) hplace
    exact ⟨rfl, rfl, rfl⟩
  · intro hapart d d' n n' z hz hz'
    obtain ⟨j, N, i, hN, hlow, htop, hx, rfl⟩ := exists_part hT hnext h hz
    obtain ⟨j', N', i', hN', hlow', htop', hx', rfl⟩ := exists_part hT hnext h hz'
    obtain ⟨rfl, rfl, rfl⟩ := hapart hN hN' hlow htop hx hlow' htop' hx'
    exact ⟨rfl, rfl⟩

end Cut

end DirectSum

namespace FiniteModule

open Presentation

/-- The finite modules that the builder made of its calls or of a document, and what is cut off from products and sums of such modules as
far as their tables reach. -/
inductive Made (p : Prime) : FiniteModule → Prop
  | build {name : String} {gens : List (String × ℤ)} {texts : List String} {A A' : Algebra} {M : FiniteModule} (prime_eq : A.prime = p)
      (run : (buildFrom name gens texts).run A = (.ok M, A')) : Made p M
  | document {j : Json} {A A' : Algebra} {M : FiniteModule} (prime_eq : A.prime = p) (run : (ofJson j).run A = (.ok M, A')) : Made p M
  | product {L R M : FiniteModule} {T : TensorTable} {steps : List (Algebra × ℤ)} {A A' : Algebra} {top : ℤ} (left : Made p L)
      (right : Made p R) (prime_eq : A.prime = p)
      (table : steps.foldlM (fun T x => T.extend (L.toGraded x.1) (R.toGraded x.1) x.2) (TensorTable.new (L.toGraded A) (R.toGraded A)) = .ok T)
      (run : (truncate (Tensor.toGraded A (L.toGraded A) (R.toGraded A) T) top).run A = (.ok M, A')) : Made p M
  | sum {Ms : List FiniteModule} {M : FiniteModule} {T : SumTable} {steps : List (Algebra × ℤ)} {A A' : Algebra} {low top : ℤ}
      (summands : ∀ N ∈ Ms, Made p N) (prime_eq : A.prime = p)
      (table : steps.foldlM (fun T x => T.extend (Ms.map (·.toGraded x.1)) x.2) (SumTable.new low) = .ok T)
      (reaches : top < T.offsets.nextDegree)
      (run : (truncate (DirectSum.toGraded p (Ms.map (·.toGraded A)) T) top).run A = (.ok M, A')) : Made p M

variable {p : Prime} {M : FiniteModule}

theorem Made.labelled (h : Made p M) : M.Labelled := by
  cases h with
  | build _ run =>
    obtain ⟨P, B, _, _, _, _, _, hbuild⟩ := of_run_buildFrom run
    exact labelled_of_run_build hbuild
  | document _ run =>
    obtain ⟨P, B, _, _, hbuild⟩ := of_run_ofJson run
    exact labelled_of_run_build hbuild
  | product _ _ _ _ run => exact labelled_of_run_truncate run
  | sum _ _ _ _ run => exact labelled_of_run_truncate run

theorem Made.validNames (h : Made p M) : M.ValidNames := by
  induction h with
  | build _ run =>
    obtain ⟨P, B, hnamed, _, _, _, _, hbuild⟩ := of_run_buildFrom run
    exact hnamed.validNames_of_run_build hbuild
  | document _ run =>
    obtain ⟨P, B, hnamed, _, hbuild⟩ := of_run_ofJson run
    exact hnamed.validNames_of_run_build hbuild
  | product left right _ table run hleft hright =>
    intro t n z hz
    obtain ⟨k, i, j, x, y, hx, hy, _, _, rfl⟩ := Tensor.exists_pair left.labelled right.labelled (TensorTable.records_of_foldlM table) run hz
    exact Text.isName_joined (hleft hx) (hright hy)
  | sum _ _ table reaches run hsummands =>
    intro t n z hz
    obtain ⟨j, N, i, hN, _, _, hx, _⟩ := DirectSum.exists_part (SumTable.records_of_foldlM table) reaches run hz
    exact hsummands N (List.mem_of_getElem? hN) hx

theorem Made.stores (hp : p.val < 1073741824) (h : Made p M) : M.Stores p := by
  cases h with
  | build hprime run =>
    obtain ⟨P, B, _, _, _, hB, _, hbuild⟩ := of_run_buildFrom run
    obtain rfl : B.prime = p := hB.trans hprime
    exact (closed_of_run_build hp hbuild).stores
  | document hprime run =>
    obtain ⟨P, B, _, hB, hbuild⟩ := of_run_ofJson run
    obtain rfl : B.prime = p := hB.trans hprime
    exact (closed_of_run_build hp hbuild).stores
  | product _ _ hprime _ run =>
    subst hprime
    exact stores_of_run_truncate run
  | sum _ hprime _ _ run =>
    subst hprime
    exact stores_of_run_truncate run

/-- Names identify the basis elements of what the builder made, and those of what is cut off from products and sums exactly where no two
that are kept get the same one; and where they do, a document lists each basis element once and each can be given a value by its name. -/
theorem names_identify (p : Prime) :
    (∀ ⦃name : String⦄ ⦃gens : List (String × ℤ)⦄ ⦃texts : List String⦄ ⦃A A' : Algebra⦄ ⦃M : FiniteModule⦄,
      (buildFrom name gens texts).run A = (.ok M, A') → M.Identified) ∧
    (∀ ⦃j : Json⦄ ⦃A A' : Algebra⦄ ⦃M : FiniteModule⦄, (ofJson j).run A = (.ok M, A') → M.Identified) ∧
    (∀ ⦃L R M : FiniteModule⦄ ⦃T : TensorTable⦄ ⦃steps : List (Algebra × ℤ)⦄ ⦃A A' : Algebra⦄ ⦃top : ℤ⦄, Made p L → Made p R →
      steps.foldlM (fun T x => T.extend (L.toGraded x.1) (R.toGraded x.1) x.2) (TensorTable.new (L.toGraded A) (R.toGraded A)) = .ok T →
      (truncate (Tensor.toGraded A (L.toGraded A) (R.toGraded A) T) top).run A = (.ok M, A') →
      (M.Identified ↔ Tensor.JoinsApart L R top)) ∧
    (∀ ⦃Ms : List FiniteModule⦄ ⦃M : FiniteModule⦄ ⦃T : SumTable⦄ ⦃steps : List (Algebra × ℤ)⦄ ⦃A A' : Algebra⦄ ⦃low top : ℤ⦄,
      (∀ N ∈ Ms, Made p N) → steps.foldlM (fun T x => T.extend (Ms.map (·.toGraded x.1)) x.2) (SumTable.new low) = .ok T →
      top < T.offsets.nextDegree → (truncate (DirectSum.toGraded p (Ms.map (·.toGraded A)) T) top).run A = (.ok M, A') →
      (M.Identified ↔ DirectSum.NamesApart Ms low top)) ∧
    ∀ ⦃M : FiniteModule⦄, Made p M → M.Identified →
      (∀ (A A' : Algebra) (j : Json), M.toJson.run A = (.ok j, A') → M.ListedOnce j) ∧
      (p.val < 2 ^ 30 → M.maxDegree - M.minDegree < 2 ^ 25 - 1 → ∀ A : Algebra, A.prime = p → ∃ j A', M.toJson.run A = (.ok j, A')) ∧
      ∀ (d : ℤ) (i : ℕ), i < M.dimension d → ∃ x, M.nameOf d i = .ok x ∧ PartialMap.lookup M x = .ok (d, i) ∧
        ∀ f : PartialMap, f.source = M → (∃ f', f.set p x "0" = .ok f') ∧
          ∀ text f', f.set p x text = .ok f' → ∃ v, f' = { f with values := ((d, i), v) :: f.values } := by
  refine ⟨fun _ _ _ _ _ _ h => ?_, fun _ _ _ _ h => ?_, fun _ _ _ _ _ _ _ _ hL hR hT h => ?_, fun _ _ _ _ _ _ _ _ hMs hT hnext h => ?_,
    fun M hmade hM => ⟨fun _ _ _ h => hM.distinct.listedOnce h, fun hp hrange A hA => ?_, fun d i hi => ?_⟩⟩
  · obtain ⟨P, B, hnamed, _, _, _, _, hbuild⟩ := of_run_buildFrom h
    exact hnamed.identified_of_run_build hbuild
  · obtain ⟨P, B, hnamed, _, hbuild⟩ := of_run_ofJson h
    exact hnamed.identified_of_run_build hbuild
  · exact Tensor.identified_iff_joinsApart hL.labelled hR.labelled (TensorTable.records_of_foldlM hT) h
  · exact DirectSum.identified_iff_namesApart (fun N hN => (hMs N hN).labelled) (SumTable.records_of_foldlM hT) hnext h
  · have htracked : ((2 : ℤ) ^ 25 - 1) = Milnor.trackedBelow := by decide
    obtain ⟨j, A', hrun, _⟩ := hM.exists_toJson hmade.validNames hp (hmade.stores hp) (htracked ▸ hrange) hA
    exact ⟨j, A', hrun⟩
  · obtain ⟨x, hx⟩ := hM.labelled.mp hi
    refine ⟨x, hx, PartialMap.lookup_eq_ok.mpr (hM.find?_eq hx), fun f hf => ?_⟩
    subst hf
    exact PartialMap.set_of_identified hM hx

/-- In the product of two cells with themselves, whose names have no dots, names identify the basis elements. -/
theorem names_identify_twoCells :
    ∃ L M A A' T, (buildFrom "M" [("x", 0), ("y", 1)] ["Sq1 x = y"]).run (Algebra.new Prime.two none) = (.ok L, A) ∧
      (TensorTable.new (L.toGraded A) (L.toGraded A)).extend (L.toGraded A) (L.toGraded A) 1 = .ok T ∧
      (truncate (Tensor.toGraded A (L.toGraded A) (L.toGraded A) T) 1).run A = (.ok M, A') ∧ M.dimension 1 = 2 ∧ M.Identified := by
  have hrun : (match (buildFrom "M" [("x", 0), ("y", 1)] ["Sq1 x = y"]).run (Algebra.new Prime.two none) with
      | (.ok L, A) => match (TensorTable.new (L.toGraded A) (L.toGraded A)).extend (L.toGraded A) (L.toGraded A) 1 with
        | .ok T => match (truncate (Tensor.toGraded A (L.toGraded A) (L.toGraded A) T) 1).run A with
          | (.ok M, _) => decide (M.dimension 1 = 2)
          | (.error _, _) => false
        | .error _ => false
      | (.error _, _) => false) = true := by decide +kernel
  split at hrun
  · next L A hL =>
    split at hrun
    · next T hT =>
      split at hrun
      · next M A' hM =>
        have hmade : Made Prime.two L := .build rfl hL
        have hdistinct : L.Distinct := ((names_identify Prime.two).1 hL).distinct
        have hdots : ∀ l i x, L.nameOf l i = .ok x → '.' ∉ x.toList := fun l i x hx =>
          (by decide : ∀ g ∈ [("x", (0 : ℤ)), ("y", 1)], '.' ∉ g.1.toList) _ (mem_of_run_buildFrom hL hx)
        have htable : [(A, (1 : ℤ))].foldlM (fun T x => T.extend (L.toGraded x.1) (L.toGraded x.1) x.2)
            (TensorTable.new (L.toGraded A) (L.toGraded A)) = .ok T := Result.bind_eq_ok.mpr ⟨T, hT, rfl⟩
        have hapart := Tensor.joinsApart_of_no_dots hdistinct hdistinct hdots 1
        exact ⟨L, M, A, A', T, hL, hT, hM, of_decide_eq_true hrun, ((names_identify Prime.two).2.2.1 hmade hmade htable hM).mpr hapart⟩
      · cases hrun
    · cases hrun
  · cases hrun

/-- In the sum of a module with itself, and in a product of modules that have names with dots, a basis element has a name by which another
one is found. -/
theorem exists_not_identified :
    (∃ L M A A' T, (buildFrom "M" [("x", 0)] []).run (Algebra.new Prime.two none) = (.ok L, A) ∧
      (SumTable.new 0).extend [L.toGraded A, L.toGraded A] 0 = .ok T ∧
      (truncate (DirectSum.toGraded Prime.two [L.toGraded A, L.toGraded A] T) 0).run A = (.ok M, A') ∧
      1 < M.dimension 0 ∧ M.nameOf 0 1 = .ok "x" ∧ M.find? "x" = some (0, 0)) ∧
    ∃ L R M A B A' T, (buildFrom "L" [("a", 0), ("a.b", 0)] []).run (Algebra.new Prime.two none) = (.ok L, A) ∧
      (buildFrom "R" [("b.c", 0), ("c", 0)] []).run A = (.ok R, B) ∧
      (TensorTable.new (L.toGraded B) (R.toGraded B)).extend (L.toGraded B) (R.toGraded B) 0 = .ok T ∧
      (truncate (Tensor.toGraded B (L.toGraded B) (R.toGraded B) T) 0).run B = (.ok M, A') ∧
      3 < M.dimension 0 ∧ M.nameOf 0 3 = .ok "a.b.c" ∧ M.find? "a.b.c" = some (0, 0) := by
  constructor
  · have hrun : (match (buildFrom "M" [("x", 0)] []).run (Algebra.new Prime.two none) with
        | (.ok L, A) => match (SumTable.new 0).extend [L.toGraded A, L.toGraded A] 0 with
          | .ok T => match (truncate (DirectSum.toGraded Prime.two [L.toGraded A, L.toGraded A] T) 0).run A with
            | (.ok M, _) => decide (1 < M.dimension 0 ∧ M.nameOf 0 1 = .ok "x" ∧ M.find? "x" = some (0, 0))
            | (.error _, _) => false
          | .error _ => false
        | (.error _, _) => false) = true := by decide +kernel
    split at hrun
    · next L A hL =>
      split at hrun
      · next T hT =>
        split at hrun
        · next M A' hM => exact ⟨L, M, A, A', T, hL, hT, hM, of_decide_eq_true hrun⟩
        · cases hrun
      · cases hrun
    · cases hrun
  · have hrun : (match (buildFrom "L" [("a", 0), ("a.b", 0)] []).run (Algebra.new Prime.two none) with
        | (.ok L, A) => match (buildFrom "R" [("b.c", 0), ("c", 0)] []).run A with
          | (.ok R, B) => match (TensorTable.new (L.toGraded B) (R.toGraded B)).extend (L.toGraded B) (R.toGraded B) 0 with
            | .ok T => match (truncate (Tensor.toGraded B (L.toGraded B) (R.toGraded B) T) 0).run B with
              | (.ok M, _) => decide (3 < M.dimension 0 ∧ M.nameOf 0 3 = .ok "a.b.c" ∧ M.find? "a.b.c" = some (0, 0))
              | (.error _, _) => false
            | .error _ => false
          | (.error _, _) => false
        | (.error _, _) => false) = true := by decide +kernel
    split at hrun
    · next L A hL =>
      split at hrun
      · next R B hR =>
        split at hrun
        · next T hT =>
          split at hrun
          · next M A' hM => exact ⟨L, R, M, A, B, A', T, hL, hR, hT, hM, of_decide_eq_true hrun⟩
          · cases hrun
        · cases hrun
      · cases hrun
    · cases hrun

end FiniteModule
end Steenrod
