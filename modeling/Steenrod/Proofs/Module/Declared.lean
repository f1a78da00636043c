import Steenrod.Session.Modules
import Steenrod.Proofs.Module.Genuine
import Steenrod.Proofs.Module.Named
/-!
Genuine modules are accepted as they are written. Main statement: declaring the basis of a finite module over the algebra under distinct
names, and then relations that state all non-zero actions of generators of the algebra and nothing that is not true, in any order, makes
the builder return a module, and that module acts as the given one does.
-/
namespace Steenrod

open Vec Milnor

namespace Growing

/-- Looking up a name only computes the basis of a degree. -/
theorem onlyExtends_elementNamed (text : String) : OnlyExtends (elementNamed text) := by
  unfold elementNamed
  refine onlyExtends_get.bind fun A => ?_
  split
  · exact onlyExtends_pure _
  · simp only
    split
    · exact onlyExtends_pure _
    · split
      · exact onlyExtends_pure _
      · split
        · exact onlyExtends_pure _
        · split
          · exact onlyExtends_throw _
          · exact (onlyExtends_compute _).bind fun _ => onlyExtends_get.bind fun _ => onlyExtends_pure _

/-- The name of a basis element is understood, whatever is computed. -/
theorem run_elementNamed {A : Algebra} (hp : A.prime.val < 1073741824) {text : String} {product : Product} {x : MilnorElement}
    {d : ℤ} {i : ℕ} (hparse : Product.parse text = .ok product) (hsquares : ¬(product.usesSquares ∧ A.prime.isOdd))
    (hx : elementOf? A.prime 0 product.factors = some x) (hlength : ¬A.prime.xiDegrees.length < x.exponents.length)
    (hd : x.wordDegree? A.prime = some d) (hi : index? A.prime d x = some i) :
    ∃ A', (elementNamed text).run A = (.ok (some ⟨d, i⟩), A') := by
  refine ⟨A.extend d, run_elementNamed_of_index? hp ?_ hd hi⟩
  rw [elementIn?, hparse]
  simp only
  rw [if_neg hsquares, hx, Option.filter_some, if_pos (by simpa using hlength)]

end Growing

namespace Presentation

open FiniteModule Growing

variable {p : Prime} {P : Presentation} {X : Representation p} {low high : ℤ} {A : Algebra}

/-- Declare generators and relations as they are written, and build the module. -/
def buildFrom (name : String) (generators : List (String × ℤ)) (relations : List String) : Growing FiniteModule := do
  let P ← generators.foldlM (fun P (name, d) => Growing.read fun _ => P.addGenerator d name) (empty name)
  let P ← relations.foldlM addAction P
  P.build

/-- That is how modules are made in a session. -/
theorem session_build_eq (as name : String) (generators : List (String × ℤ)) (relations : List String) :
    Session.build as name generators relations = (do
      let M ← Session.growing Session.ownAlgebra (buildFrom name generators relations)
      Session.addModule as Session.ownAlgebra (.finite M)) := rfl

/-- Generators of distinct valid names are declared. -/
theorem run_addGenerators {gens : List (String × ℤ)} (hnames : ∀ g ∈ gens, Text.isName g.1) (hdistinct : (gens.map Prod.fst).Nodup)
    (P : Presentation) (hnew : ∀ g ∈ gens, g.1 ∉ P.generators.map Prod.snd) (A : Algebra) :
    (gens.foldlM (fun P (name, d) => Growing.read fun _ => P.addGenerator d name) P : Growing Presentation).run A =
      (.ok { P with generators := P.generators ++ gens.map Prod.swap }, A) := by
  induction gens generalizing P with
  | nil => rw [List.map_nil, List.append_nil]; rfl
  | cons g gens ih =>
    obtain ⟨hg, hgens⟩ := List.nodup_cons.mp hdistinct
    have hfresh : P.generators.any (·.2 == g.1) = false := by
      rw [List.any_eq_false]
      intro h hmem heq
      refine hnew g (by simp) (List.mem_map.mpr ⟨h, hmem, ?_⟩)
      simpa using heq
    have hadd : P.addGenerator g.2 g.1 = .ok { P with generators := P.generators ++ [g.swap] } := by
      rw [addGenerator, hnames g (by simp), hfresh]
      rfl
    rw [List.foldlM_cons]
    refine run_bind_eq_ok.mpr ⟨_, A, run_read_eq_ok.mpr ⟨hadd, rfl⟩, ?_⟩
    rw [ih (fun h hmem => hnames h (by simp [hmem])) hgens]
    · simp
    · intro h hmem hin
      rw [List.map_append, List.mem_append] at hin
      rcases hin with hin | hin
      · exact hnew h (by simp [hmem]) hin
      · have heq : h.1 = g.1 := by simpa using hin
        exact hg (heq ▸ List.mem_map_of_mem (f := Prod.fst) hmem)

/-- A text is read as an action: it is a relation, and its operation is understood whatever is computed of the algebra. -/
def Reads (p : Prime) (text : String) (a : Action) : Prop :=
  ∃ operation, Relation.parse text = .ok ⟨operation, a.input, a.output⟩ ∧ a.text = text ∧
    ∀ B : Algebra, B.prime = p → ∃ B', (elementNamed operation).run B = (.ok (some a.operation), B')

theorem run_addAction {text : String} {a : Action} (h : Reads p text a) (P : Presentation) (hA : A.prime = p) :
    ∃ A', (P.addAction text).run A = (.ok { P with actions := P.actions ++ [a] }, A') ∧ Follows A A' := by
  obtain ⟨operation, hparse, rfl, hnamed⟩ := h
  obtain ⟨A', hrun⟩ := hnamed A hA
  have hfollows := (onlyExtends_elementNamed operation).follows hrun
  refine ⟨A', ?_, hfollows⟩
  rw [addAction, hparse]
  exact run_bind_eq_ok.mpr ⟨_, A', hrun, rfl⟩

/-- Relations are declared in the order in which they are written. -/
theorem run_addActions {texts : List String} {actions : List Action} (h : List.Forall₂ (Reads p) texts actions) (P : Presentation)
    (hA : A.prime = p) :
    ∃ A', (texts.foldlM addAction P).run A = (.ok { P with actions := P.actions ++ actions }, A') ∧ Follows A A' := by
  induction h generalizing P A with
  | nil => exact ⟨A, by rw [List.append_nil]; rfl, Follows.refl A⟩
  | cons hread _ ih =>
    obtain ⟨B, hrun, hfollows⟩ := run_addAction hread P hA
    obtain ⟨A', hrun', hfollows'⟩ := ih { P with actions := P.actions ++ [_] } (hfollows.prime_eq.symm.trans hA)
    refine ⟨A', ?_, hfollows.trans hfollows'⟩
    rw [List.foldlM_cons]
    refine run_bind_eq_ok.mpr ⟨_, B, hrun, ?_⟩
    rw [hrun', List.append_assoc]
    rfl

/-- True relations that include the non-zero actions of the generators of the algebra make the builder return a module with the operators
as its action. -/
theorem exists_run_buildFrom (hp : p.val < 1073741824) (hA : A.prime = p) (hcap : ∀ cap ∈ A.cap, P.maxDegree - P.minDegree ≤ cap)
    (hX : X.IsFiniteModule low high) (hrange : high - low < trackedBelow) (hsigned : ∀ d, X.dim d ≠ 0 → isSigned (d + 1))
    (hdim : P.dimension = X.dim) (hnames : ∀ g ∈ P.generators, Text.isName g.2) (hdistinct : (P.generators.map Prod.snd).Nodup)
    {texts : List String} (hreads : List.Forall₂ (Reads p) texts P.actions) (htrue : ∀ r ∈ P.actions, States X P r)
    (hall : ∀ a d i, a.IsBasis p → IsGenerator p a → i < X.dim d → X.act a d (Pi.single i 1) ≠ 0 →
      ∃ r ∈ P.actions, r.operation = a ∧ P.lookup? r.input = some (d, i)) :
    ∃ M B A', (buildFrom P.name (P.generators.map Prod.swap) texts).run A = (.ok M, A') ∧ B.prime = p ∧ P.build.run B = (.ok M, A') ∧
      Matches X M [] := by
  have hswapped : ∀ g ∈ P.generators.map Prod.swap, Text.isName g.1 := by
    intro g hg
    obtain ⟨x, hx, rfl⟩ := List.mem_map.mp hg
    exact hnames x hx
  have hgenerators := run_addGenerators hswapped (by rwa [List.map_map]) (empty P.name) (fun _ _ => List.not_mem_nil) A
  obtain ⟨B, hactions, hfollows⟩ := run_addActions hreads { empty P.name with generators := P.generators } hA
  have hB : B.prime = p := hfollows.prime_eq.symm.trans hA
  obtain ⟨M, A', hbuild, hM⟩ := exists_build hp hB (hfollows.cap_eq ▸ hcap) hX hrange hsigned hdim htrue hall
  refine ⟨M, B, A', run_bind_eq_ok.mpr ⟨_, A, hgenerators, run_bind_eq_ok.mpr ⟨P, B, ?_, hbuild⟩⟩, hB, hbuild, hM⟩
  rw [List.map_map, Prod.swap_swap_eq, List.map_id]
  exact hactions

/-- Every finite module over the algebra is accepted when its basis is declared under distinct names and true relations that
include the non-zero actions of the generators of the algebra are, and it is what is built. -/
theorem exists_buildFrom (hp : p.val < 2 ^ 30) (hA : A.prime = p) (hcap : A.cap = none) (hX : X.IsFiniteModule low high)
    (hrange : high - low < 2 ^ 25 - 1) (hsigned : ∀ d, X.dim d ≠ 0 → isSigned (d + 1)) (hdim : P.dimension = X.dim)
    (hnames : ∀ g ∈ P.generators, Text.isName g.2) (hdistinct : (P.generators.map Prod.snd).Nodup) {texts : List String}
    (hreads : List.Forall₂ (Reads p) texts P.actions) (htrue : ∀ r ∈ P.actions, States X P r)
    (hall : ∀ a d i, a.IsBasis p → IsGenerator p a → i < X.dim d → X.act a d (Pi.single i 1) ≠ 0 →
      ∃ r ∈ P.actions, r.operation = a ∧ P.lookup? r.input = some (d, i)) :
    ∃ M A', (buildFrom P.name (P.generators.map Prod.swap) texts).run A = (.ok M, A') ∧ M.dimension = X.dim ∧
      ∀ C : Algebra, C.prime = p → ∀ (a : Operation) (d : ℤ) (i c : ℕ), a.IsBasis p → a.degree < C.computed → i < X.dim d →
        ∃ w, M.actOnBasis C p c a d i = .ok w ∧ Proper p (X.dim (d + a.degree)) w ∧
          w.coords p = (c : p.Field) • X.act a d (Pi.single i 1) := by
  have htracked : ((2 : ℤ) ^ 25 - 1) = trackedBelow := by decide
  rw [htracked] at hrange
  obtain ⟨M, _, A', hrun, _, _, hM⟩ := exists_run_buildFrom hp hA (by simp [hcap]) hX hrange hsigned hdim hnames hdistinct hreads htrue hall
  refine ⟨M, A', hrun, hM.dim_eq, fun C hC a d i c ha hlt hi => ?_⟩
  subst hC
  have hi' : i < M.dimension d := by rwa [hM.dim_eq]
  obtain ⟨w, hw, hwp, hwc⟩ := M.actOnBasis_eq (hM.stores.storedBelow _) ha hlt hi' c
  refine ⟨w, hw, by rwa [hM.dim_eq] at hwp, ?_⟩
  rw [hwc, rep_act_single _ _ _ hi', hM.visited a d ha List.not_mem_nil i hi']

/-- Three generators, the operations that join them in no order, and one that is forced by the others. -/
def fullQuestionMark : Presentation :=
  ⟨"Q", [(0, "x"), (1, "y"), (3, "z")], [⟨⟨2, 0⟩, "y", [(1, "z")], "Sq2 y = z"⟩, ⟨⟨3, 1⟩, "x", [(1, "z")], "Sq(0,1) x = z"⟩,
    ⟨⟨1, 0⟩, "x", [(1, "y")], "Sq1 x = y"⟩]⟩

theorem exists_build_fullQuestionMark :
    ∃ M A', fullQuestionMark.build.run (Algebra.new Prime.two none) = (.ok M, A') ∧ M.dims = fullQuestionMark.dims ∧
      ∀ r ∈ fullQuestionMark.actions, ∀ x ∈ fullQuestionMark.lookup? r.input, M.action? r.operation x.1 x.2 = some (Vec.unit 1 0) := by
  have hbuild : (match (fullQuestionMark.build.run (Algebra.new Prime.two none)).1 with
      | .ok M => decide (M.dims = fullQuestionMark.dims ∧
        ∀ r ∈ fullQuestionMark.actions, ∀ x ∈ fullQuestionMark.lookup? r.input, M.action? r.operation x.1 x.2 = some (Vec.unit 1 0))
      | .error _ => false) = true := by decide +kernel
  generalize fullQuestionMark.build.run (Algebra.new Prime.two none) = r at hbuild
  obtain ⟨M | M, A'⟩ := r
  · cases hbuild
  · exact ⟨M, A', rfl, of_decide_eq_true hbuild⟩

/-- A name with a basis element of degree `d` at place `i` is understood, once its parts have been looked up. -/
theorem reads_of_parse {text operation input : String} {output : ModuleSum} {product : Product} {x : MilnorElement} {d : ℤ} {i : ℕ}
    (hp : p.val < 1073741824) (htext : Relation.parse text = .ok ⟨operation, input, output⟩)
    (hparse : Product.parse operation = .ok product) (hsquares : ¬(product.usesSquares ∧ p.isOdd))
    (hx : elementOf? p 0 product.factors = some x) (hlength : ¬p.xiDegrees.length < x.exponents.length)
    (hd : x.wordDegree? p = some d) (hi : index? p d x = some i) : Reads p text ⟨⟨d, i⟩, input, output, text⟩ := by
  refine ⟨operation, htext, rfl, fun B hB => ?_⟩
  subst hB
  exact run_elementNamed hp hparse hsquares hx hlength hd hi

theorem reads_fullQuestionMark :
    List.Forall₂ (Reads Prime.two) ["Sq2 y = z", "Sq(0,1) x = z", "Sq1 x = y"] fullQuestionMark.actions := by
  refine .cons ?_ (.cons ?_ (.cons ?_ .nil))
  · have hparse : Product.parse "Sq2" = .ok ⟨[.power 2], true⟩ := by decide +kernel
    exact reads_of_parse (x := ⟨0, [2]⟩) (by decide) (by decide +kernel) hparse (by decide) (by decide +kernel) (by decide +kernel)
      (by decide +kernel) (by decide +kernel)
  · have hparse : Product.parse "Sq(0,1)" = .ok ⟨[.powers [0, 1]], true⟩ := by decide +kernel
    exact reads_of_parse (x := ⟨0, [0, 1]⟩) (by decide) (by decide +kernel) hparse (by decide) (by decide +kernel) (by decide +kernel)
      (by decide +kernel) (by decide +kernel)
  · have hparse : Product.parse "Sq1" = .ok ⟨[.power 1], true⟩ := by decide +kernel
    exact reads_of_parse (x := ⟨0, [1]⟩) (by decide) (by decide +kernel) hparse (by decide) (by decide +kernel) (by decide +kernel)
      (by decide +kernel) (by decide +kernel)

/-- A module that has been built is built again from relations that are true of it. -/
theorem exists_buildFrom_fullQuestionMark :
    ∃ M A', (buildFrom "Q" [("x", 0), ("y", 1), ("z", 3)] ["Sq2 y = z", "Sq(0,1) x = z", "Sq1 x = y"]).run
      (Algebra.new Prime.two none) = (.ok M, A') ∧
      ∃ N B, fullQuestionMark.build.run (Algebra.new Prime.two none) = (.ok N, B) ∧ M.dimension = N.dimension ∧
        ∀ C : Algebra, C.prime = Prime.two → ∀ (a : Operation) (d : ℤ) (i c : ℕ), a.IsBasis Prime.two → a.degree < C.computed →
          i < N.dimension d → ∃ w, M.actOnBasis C Prime.two c a d i = .ok w ∧ Proper Prime.two (N.dimension (d + a.degree)) w ∧
            w.coords Prime.two = (c : Prime.two.Field) • (N.rep Prime.two).act a d (Pi.single i 1) := by
  obtain ⟨N, B, hbuild, hdims, hactions⟩ := exists_build_fullQuestionMark
  have hclosed := closed_of_run_build (A := Algebra.new Prime.two none) (by decide) hbuild
  have hX : (N.rep Prime.two).IsFiniteModule N.minDegree N.maxDegree := hclosed.isFiniteModule (by decide)
  have hdim : fullQuestionMark.dimension = N.dimension := by
    rw [← dimension_start Prime.two]
    unfold FiniteModule.dimension
    rw [hdims]
    rfl
  have hmin : N.minDegree = 0 := by rw [FiniteModule.minDegree, hdims]; rfl
  have hmax : N.maxDegree = 3 := by rw [FiniteModule.maxDegree, hdims]; rfl
  have hdegrees : ∀ d, N.dimension d ≠ 0 → d = 0 ∨ d = 1 ∨ d = 3 := by
    intro d hd
    obtain ⟨hlow, hhigh⟩ := FiniteModule.degrees_of_lt_dimension (Nat.pos_of_ne_zero hd)
    rw [hmin] at hlow
    rw [hmax] at hhigh
    have htwo : d ≠ 2 := by
      rintro rfl
      rw [← hdim] at hd
      exact hd rfl
    omega
  have htrue : ∀ r ∈ fullQuestionMark.actions, States (N.rep Prime.two) fullQuestionMark r := by
    intro r hr
    have hlooked : ∀ r ∈ fullQuestionMark.actions, ∃ d, fullQuestionMark.lookup? r.input = some (d, 0) ∧
        (∀ t ∈ r.output, t.1 = 1 ∧ fullQuestionMark.lookup? t.2 = some (d + r.operation.degree, 0)) ∧ r.output.length = 1 ∧
        0 < r.operation.degree ∧ r.operation.index < dim Prime.two r.operation.degree ∧
        0 < fullQuestionMark.dimension d ∧ 0 < fullQuestionMark.dimension (d + r.operation.degree) := by
      intro r hr
      simp only [fullQuestionMark, List.mem_cons, List.not_mem_nil, or_false] at hr
      rcases hr with rfl | rfl | rfl
      · exact ⟨1, by decide +kernel⟩
      · exact ⟨0, by decide +kernel⟩
      · exact ⟨0, by decide +kernel⟩
    obtain ⟨d, hinput, houtput, hlength, hpos, hindex, hdom, hroom⟩ := hlooked r hr
    refine ⟨⟨hpos.le, hindex⟩, d, 0, hinput, fun t ht => ⟨0, (houtput t ht).2⟩, ?_⟩
    obtain ⟨t, ht⟩ := List.length_eq_one_iff.mp hlength
    have hterm := houtput t (by rw [ht]; simp)
    rw [hdim] at hdom hroom
    rw [rep_act_single _ _ _ hdom, stored, if_neg hroom.ne', if_neg hpos.ne', hactions r hr (d, 0) hinput, Option.getD_some,
      coords_unit one_pos, coordsOfSum, ht, List.map_singleton, List.sum_singleton, hterm.1, hterm.2, Nat.cast_one, one_smul]
    rfl
  have hall : ∀ a d i, a.IsBasis Prime.two → IsGenerator Prime.two a → i < N.dimension d →
      (N.rep Prime.two).act a d (Pi.single i 1) ≠ 0 →
      ∃ r ∈ fullQuestionMark.actions, r.operation = a ∧ fullQuestionMark.lookup? r.input = some (d, i) := by
    intro a d i ha hgen hi hne
    have htarget : N.dimension (d + a.degree) ≠ 0 := fun hzero => hne (by rw [rep_act_eq_zero hzero]; rfl)
    have hpos := degree_pos_of_isGenerator hgen
    have hzero : i = 0 := by
      have hone : N.dimension d = 1 := by
        rw [← hdim]
        rcases hdegrees d (by omega) with rfl | rfl | rfl <;> rfl
      omega
    obtain ⟨hodd, _⟩ | ⟨v, hv⟩ := hgen
    · cases hodd
    · have hdegree : a.degree = 2 ^ v := by
        rw [hv, letter]
        simp [step, Prime.two, Prime.isOdd]
      have hthree : ((2 : ℤ) ^ v) ≠ 3 := by
        intro h
        rcases v with _ | v
        · simp at h
        · rw [pow_succ] at h
          omega
      have hcases : (d = 0 ∧ a.degree = 1) ∨ (d = 1 ∧ a.degree = 2) := by
        rcases hdegrees d (by omega) with rfl | rfl | rfl <;> rcases hdegrees _ htarget with h | h | h <;> omega
      have hv' : 2 ^ v = a.degree.toNat := by rw [hdegree]; norm_cast
      rcases hcases with ⟨rfl, hone⟩ | ⟨rfl, htwo⟩
      · refine ⟨⟨⟨1, 0⟩, "x", [(1, "y")], "Sq1 x = y"⟩, by decide +kernel, ?_, by rw [hzero]; decide +kernel⟩
        rw [hv, show Prime.two.val ^ v = 1 from hv'.trans (by rw [hone]; rfl)]
        decide +kernel
      · refine ⟨⟨⟨2, 0⟩, "y", [(1, "z")], "Sq2 y = z"⟩, by decide +kernel, ?_, by rw [hzero]; decide +kernel⟩
        rw [hv, show Prime.two.val ^ v = 2 from hv'.trans (by rw [htwo]; rfl)]
        decide +kernel
  obtain ⟨M, A', hM⟩ := exists_buildFrom (P := fullQuestionMark) (A := Algebra.new Prime.two none) (by decide) rfl rfl hX
    (by rw [hmin, hmax]; decide) (fun d hd => by rcases hdegrees d hd with rfl | rfl | rfl <;> decide) hdim (by decide +kernel)
    (by decide +kernel) reads_fullQuestionMark htrue hall
  exact ⟨M, A', hM.1, N, B, hbuild, hM.2⟩

end Presentation
end Steenrod
