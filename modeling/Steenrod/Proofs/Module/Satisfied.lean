import Steenrod.Proofs.Module.Finishing
import Steenrod.Proofs.Module.Naming
/-!
What is built satisfies what was declared, and nothing more. Main statement: every relation that was accepted holds in the module,
generators of the algebra act as zero where no relation says what they do, and the basis consists of the declared generators in the
order of their declaration.
-/
namespace Steenrod

open Vec

/-- A reduced vector has the remainders of whatever its coordinates are written as. -/
theorem Vec.Proper.entry_eq {p : Prime} {n : ℕ} {v : Vec} (hv : Proper p n v) {j m : ℕ} (h : v.coords p j = (m : p.Field)) :
    v.entry j = m % p.val := by
  have hmod := (ZMod.natCast_eq_natCast_iff' (v.entry j) m p.val).mp h
  rwa [Nat.mod_eq_of_lt (reduced_iff.mp hv.reduced j)] at hmod

/-- The coefficient that a relation gives to a basis element. -/
def Action.coefficient (r : Action) (name : String) : ℕ := ((r.output.filter (·.2 = name)).map (·.1)).sum

namespace FiniteModule

variable {p : Prime} {M : FiniteModule} {C : Algebra} {a : Operation} {d : ℤ} {i : ℕ} {v : Vec}

/-- What an operation does is nothing where there is no room, the identity for the unit, and else what the table holds. -/
def GivenBy (M : FiniteModule) (a : Operation) (d : ℤ) (i : ℕ) (v : Vec) : Prop :=
  M.dimension (d + a.degree) = 0 ∨ (a.degree = 0 ∧ v = Vec.unit (M.dimension (d + a.degree)) i) ∨
    (a.degree ≠ 0 ∧ M.action? a d i = some v)

theorem actOnBasis_of_givenBy (hC : C.prime = p) (ha : a.IsBasis p) (hlt : a.degree < C.computed) (hi : i < M.dimension d)
    (hv : Proper p (M.dimension (d + a.degree)) v) (h : M.GivenBy a d i v) (c : ℕ) :
    ∃ w, M.actOnBasis C p c a d i = .ok w ∧ Proper p (M.dimension (d + a.degree)) w ∧ w.coords p = (c : p.Field) • v.coords p := by
  subst hC
  rw [actOnBasis, Algebra.dimension_of_lt hlt, Result.ok_bind, decide_eq_true ha.index_lt, require_true, Result.ok_bind,
    decide_eq_true hi, require_true, Result.ok_bind]
  simp only
  by_cases hm : M.dimension (d + a.degree) = 0
  · rw [hm] at hv ⊢
    have hzero : v.coords C.prime = 0 := funext fun j => hv.coords_mem j (Nat.zero_le j)
    exact ⟨_, rfl, Proper.zero, by rw [coords_zero, hzero, smul_zero]⟩
  · rw [if_neg hm]
    rcases h.resolve_left hm with ⟨hdegree, rfl⟩ | ⟨hdegree, hentry⟩
    · have hi' : i < M.dimension (d + a.degree) := by rwa [hdegree, add_zero]
      rw [if_pos hdegree]
      refine ⟨_, rfl, Proper.zero.addAt i c, ?_⟩
      rw [coords_addAt (by rw [size_zero]; exact hi'), coords_zero, zero_add, coords_unit hi', ← Pi.single_smul', smul_eq_mul, mul_one]
    · rw [if_neg hdegree, hentry]
      refine ⟨_, rfl, Proper.zero.add c v, ?_⟩
      rw [Proper.zero.coords_add c hv, coords_zero, zero_add]

end FiniteModule

namespace Presentation

open FiniteModule Growing

variable {p : Prime} {P : Presentation} {M : FiniteModule} {A A' C : Algebra} {r : Action} {a : Operation} {d : ℤ} {i j : ℕ} {name : String}

/-- The place of a name among those of its degree. -/
theorem getElem?_namesIn (h : P.lookup? name = some (d, i)) : (P.namesIn d)[i]? = some name := by
  have hi := lt_dimension_of_lookup h
  obtain ⟨g, hfind, heq⟩ := Option.map_eq_some_iff.mp h
  obtain ⟨rfl, rfl⟩ := Prod.mk.inj heq
  have hplace := List.findIdx_getElem (w := hi)
  rw [namesIn, List.getElem?_map, List.getElem?_eq_getElem hi]
  exact congrArg some (by simpa using hplace)

/-- The names in a relation that resolves. -/
theorem names_of_resolve {x : (ℤ × ℕ) × Vec} (h : P.resolve p r = .ok x) : P.lookup? r.input = some x.1 ∧
    ∀ t ∈ r.output, ∃ j, P.lookup? t.2 = some (x.1.1 + r.operation.degree, j) := by
  have hlookup : ∀ {n y}, P.lookup n = .ok y → P.lookup? n = some y := by
    intro n y hy
    rw [lookup] at hy
    split at hy
    · next hfound => exact hfound.trans (congrArg some (Except.ok.inj hy))
    · cases hy
  obtain ⟨input, hinput, h⟩ := Result.bind_eq_ok.mp h
  obtain ⟨output, houtput, h⟩ := Result.bind_eq_ok.mp h
  obtain rfl := Except.ok.inj h
  refine ⟨hlookup hinput, ?_⟩
  -- Every name is looked up in a step of the loop, which goes on only if its degree is right.
  have hloop : ∀ (l : ModuleSum) (v : Vec), l.foldlM (fun v (t : ℕ × String) => do
      let x ← P.lookup t.2
      if x.1 ≠ input.1 + r.operation.degree then
        refuse (.invalidRelation r.text (.wrongDegree t.2 x.1 (input.1 + r.operation.degree)))
      else (Except.ok (v.addAt p x.2 t.1) : Result Vec)) v = .ok output →
      ∀ t ∈ l, ∃ j, P.lookup? t.2 = some (input.1 + r.operation.degree, j) := by
    intro l
    induction l with
    | nil => exact fun _ _ t ht => absurd ht List.not_mem_nil
    | cons t l ih =>
      intro v h
      rw [List.foldlM_cons] at h
      obtain ⟨w, hstep, hrest⟩ := Result.bind_eq_ok.mp h
      refine List.forall_mem_cons.mpr ⟨?_, ih w hrest⟩
      obtain ⟨x, hx, hstep⟩ := Result.bind_eq_ok.mp hstep
      split at hstep
      · cases hstep
      · next hdegree => exact ⟨x.2, (hlookup hx).trans (congrArg some (Prod.ext (not_not.mp hdegree) rfl))⟩
  exact hloop r.output _ houtput

/-- The coordinates of an output are the sums of the coefficients that are given. -/
theorem WellNamed.coordsOfSum_apply (hP : P.WellNamed) (hout : ∀ t ∈ r.output, ∃ j, P.lookup? t.2 = some (d, j))
    (hname : (P.namesIn d)[j]? = some name) : coordsOfSum p P r.output j = (r.coefficient name : p.Field) := by
  have hj := hP.lookup?_getElem hname
  rw [Action.coefficient, coordsOfSum]
  generalize r.output = l at hout
  induction l with
  | nil => simp
  | cons t l ih =>
    obtain ⟨⟨k, hk⟩, hl⟩ := List.forall_mem_cons.mp hout
    rw [List.map_cons, List.sum_cons, Pi.add_apply, ih hl, hk, Option.elim_some, Pi.smul_apply, smul_eq_mul, List.filter_cons]
    by_cases hsame : t.2 = name
    · obtain rfl : k = j := (Prod.mk.inj (Option.some.inj (hk.symm.trans (hsame ▸ hj)))).2
      rw [Pi.single_eq_same, mul_one, if_pos (decide_eq_true hsame), List.map_cons, List.sum_cons, Nat.cast_add]
    · have hne : j ≠ k := fun heq => hsame (Option.some.inj ((getElem?_namesIn hk).symm.trans (heq ▸ hname)))
      rw [Pi.single_eq_of_ne hne, mul_zero, zero_add, if_neg (by simpa using hsame)]

/-- What a relation says is what is given. -/
theorem givenBy_of_resolve {l : List Declared} {v : Vec} (hM : M.dimension = P.dimension) (hl : Collects p P P.actions l)
    (hholds : ∀ x ∈ l, M.HoldsEntry x) (hr : r ∈ P.actions) (hresolve : P.resolve p r = .ok ((d, i), v)) :
    M.GivenBy r.operation d i v := by
  have hsize : v.size = M.dimension (d + r.operation.degree) := by
    rw [hM]
    exact (proper_of_resolve hresolve).size_eq
  have hentry : P.asks p r = if v.size = 0 then .ok none else if r.operation.degree = 0 then
      if v = Vec.unit v.size i then .ok none else refuse (.invalidRelation r.text .notIdentity)
      else .ok (some ⟨r.operation, (d, i), v, r.text⟩) := by
    rw [asks, hresolve]
    rfl
  rw [GivenBy, ← hsize]
  by_cases hzero : v.size = 0
  · exact .inl hzero
  · rw [if_neg hzero] at hentry
    refine .inr ?_
    by_cases hdegree : r.operation.degree = 0
    · rw [if_pos hdegree] at hentry
      refine .inl ⟨hdegree, ?_⟩
      by_contra hne
      rw [if_neg hne] at hentry
      rcases hl.complete r hr with h | ⟨_, h, _⟩ <;> cases hentry.symm.trans h
    · rw [if_neg hdegree] at hentry
      refine .inr ⟨hdegree, ?_⟩
      rcases hl.complete r hr with h | ⟨x, hx, y, hy, hcontent⟩
      · cases hentry.symm.trans h
      · obtain rfl := Option.some.inj (Except.ok.inj (hentry.symm.trans hx))
        obtain ⟨hkey, houtput⟩ := Prod.mk.inj hcontent
        obtain ⟨hop, hinput⟩ := Prod.mk.inj hkey
        have hy := hholds y hy
        rw [HoldsEntry, hop, hinput, houtput] at hy
        exact hy

theorem dimension_of_run_build (h : P.build.run A = (.ok M, A')) : M.dimension = P.dimension :=
  (entered_of_run_build h).dimension_eq.trans (dimension_start A.prime P)

/-- Every relation holds in the module that is built. -/
theorem holds_of_run_build (hP : P.WellNamed) (hbasis : ∀ a ∈ P.actions, a.operation.IsBasis A.prime) (h : P.build.run A = (.ok M, A'))
    (hr : r ∈ P.actions) : ∃ d i, M.nameOf d i = .ok r.input ∧ (∀ t ∈ r.output, ∃ j, M.nameOf (d + r.operation.degree) j = .ok t.2) ∧
      ∀ (C : Algebra) (c : ℕ), C.prime = A.prime → r.operation.degree < C.computed →
        ∃ w, M.actOnBasis C A.prime c r.operation d i = .ok w ∧ w.size = M.dimension (d + r.operation.degree) ∧
          ∀ j n, M.nameOf (d + r.operation.degree) j = .ok n → w.entry j = c * r.coefficient n % A.prime.val := by
  obtain ⟨l, hl, hholds, -⟩ := entries_of_run_build hbasis h
  have hdim := dimension_of_run_build h
  have hname : ∀ {d i n}, M.nameOf d i = .ok n ↔ (P.namesIn d)[i]? = some n := nameOf_of_run_build h
  obtain ⟨⟨⟨d, i⟩, v⟩, hresolve⟩ : ∃ x, P.resolve A.prime r = .ok x := by
    obtain ⟨e, he⟩ := hl.consistent.resolves r hr
    obtain ⟨x, hx, _⟩ := Result.bind_eq_ok.mp he
    exact ⟨x, hx⟩
  obtain ⟨hinput, houtput⟩ := names_of_resolve hresolve
  refine ⟨d, i, hname.mpr (getElem?_namesIn hinput), fun t ht => ?_, fun C c hC hlt => ?_⟩
  · obtain ⟨j, hj⟩ := houtput t ht
    exact ⟨j, hname.mpr (getElem?_namesIn hj)⟩
  · obtain ⟨v', hv', hproper, hcoords⟩ := resolve_eq (p := A.prime) hinput houtput
    cases hresolve.symm.trans hv'
    rw [← hdim] at hproper
    obtain ⟨w, hw, hwp, hwc⟩ := actOnBasis_of_givenBy hC (hbasis r hr) hlt (hdim ▸ lt_dimension_of_lookup hinput) hproper
      (givenBy_of_resolve hdim hl hholds hr hresolve) c
    refine ⟨w, hw, hwp.size_eq, fun j n hn => hwp.entry_eq ?_⟩
    rw [hwc, hcoords, Pi.smul_apply, hP.coordsOfSum_apply houtput (hname.mp hn), Nat.cast_mul, smul_eq_mul]

/-- A generator of the algebra acts as zero on a basis element of which no relation says what it does to that. -/
theorem zero_of_run_build (hbasis : ∀ a ∈ P.actions, a.operation.IsBasis A.prime) (h : P.build.run A = (.ok M, A'))
    (hlisted : listed A.prime a = true) (ha : a.IsBasis A.prime) (hi : i < M.dimension d)
    (hnone : ∀ r ∈ P.actions, r.operation = a → M.nameOf d i ≠ .ok r.input) (hC : C.prime = A.prime) (hlt : a.degree < C.computed) (c : ℕ) :
    M.actOnBasis C A.prime c a d i = .ok (Vec.zero (M.dimension (d + a.degree))) := by
  obtain ⟨l, hl, -, hothers⟩ := entries_of_run_build hbasis h
  have hdim := dimension_of_run_build h
  have hkey : ∀ x ∈ l, x.key ≠ (a, d, i) := fun x hx hkey => by
    obtain ⟨r, hr, hentry⟩ := hl.sound x hx
    obtain ⟨_, hresolve, hop⟩ := asks_eq_some hentry
    obtain ⟨hop', hinput⟩ := Prod.mk.inj hkey
    have hfound := (names_of_resolve hresolve).1
    rw [hinput] at hfound
    exact hnone r hr (hop.symm.trans hop') ((nameOf_of_run_build h).mpr (getElem?_namesIn hfound))
  have hgiven : M.GivenBy a d i (Vec.zero (M.dimension (d + a.degree))) := by
    by_cases hroom : M.dimension (d + a.degree) = 0
    · exact .inl hroom
    · have hpos := degree_pos_of_listed hlisted
      rw [hdim] at hi hroom ⊢
      refine .inr (.inr ⟨hpos.ne', ?_⟩)
      rw [hothers a d i hlisted hkey]
      exact action?_start ha hpos hi (Nat.pos_of_ne_zero hroom)
  obtain ⟨w, hw, hwp, hwc⟩ := actOnBasis_of_givenBy hC ha hlt hi Proper.zero hgiven c
  rw [coords_zero, smul_zero] at hwc
  rw [hw, hwp.eq_zero hwc]

/-- A call that declares a generator or a relation. -/
inductive Call
  | generator (d : ℤ) (name : String)
  | relation (text : String)
  deriving DecidableEq, Repr

namespace Call

def make (P : Presentation) : Call → Growing Presentation
  | generator d name => Growing.read fun _ => P.addGenerator d name
  | relation text => P.addAction text

def generator? : Call → Option (ℤ × String)
  | generator d name => some (d, name)
  | relation _ => none

def text? : Call → Option String
  | generator _ _ => none
  | relation text => some text

end Call

/-- What has been declared by some calls that were accepted. -/
theorem declared_of_run_calls {P' : Presentation} {calls : List Call} (hP : P.WellNamed)
    (h : (calls.foldlM Call.make P).run A = (.ok P', A')) : ∃ actions, List.Forall₂ (Accepts A) (calls.filterMap Call.text?) actions ∧
      P'.WellNamed ∧ P' = ⟨P.name, P.generators ++ calls.filterMap Call.generator?, P.actions ++ actions⟩ ∧ A' = extendFor A actions := by
  induction calls generalizing P A with
  | nil =>
    obtain ⟨hP', rfl⟩ := Prod.mk.inj h
    obtain rfl := Except.ok.inj hP'
    exact ⟨[], .nil, hP, by simp, rfl⟩
  | cons c calls ih =>
    rw [List.foldlM_cons] at h
    obtain ⟨P₁, B, hcall, hrest⟩ := run_bind_eq_ok.mp h
    cases c with
    | generator d n =>
      obtain ⟨hadd, rfl⟩ := run_read_eq_ok.mp hcall
      obtain ⟨hP₁, rfl⟩ := hP.addGenerator hadd
      obtain ⟨actions, haccepts, hnamed, rfl, rfl⟩ := ih hP₁ hrest
      refine ⟨actions, haccepts, hnamed, ?_, rfl⟩
      simp only [List.append_assoc, List.singleton_append]
      rfl
    | relation text =>
      obtain ⟨r, hr, rfl, rfl⟩ := run_addAction_eq_ok.mp hcall
      obtain ⟨actions, haccepts, hnamed, rfl, rfl⟩ := ih (P := { P with actions := P.actions ++ [r] }) ⟨hP.valid, hP.distinct⟩ hrest
      refine ⟨r :: actions, .cons hr (haccepts.imp fun _ _ => (accepts_extend_iff hr.canCompute).mp), hnamed, ?_, rfl⟩
      simp only [List.append_assoc, List.singleton_append]
      rfl

/-- A module that is built satisfies all relations that were accepted, with coefficients modulo the prime; on it the generators of the
algebra act as zero on the basis elements of which no relation says what they do to them; and its basis consists of the declared
generators, in each degree in the order of their declaration. -/
theorem built_as_declared {calls : List Call} (h : (calls.foldlM Call.make (empty name) >>= build).run A = (.ok M, A')) :
    ∃ actions, List.Forall₂ (Accepts A) (calls.filterMap Call.text?) actions ∧
      (∀ r ∈ actions, ∃ d i, M.nameOf d i = .ok r.input ∧
        (∀ t ∈ r.output, ∃ j, M.nameOf (d + r.operation.degree) j = .ok t.2) ∧
        ∀ (C : Algebra) (c : ℕ), C.prime = A.prime → r.operation.degree < C.computed →
          ∃ w, M.actOnBasis C A.prime c r.operation d i = .ok w ∧ w.size = M.dimension (d + r.operation.degree) ∧
            ∀ j n, M.nameOf (d + r.operation.degree) j = .ok n → w.entry j = c * r.coefficient n % A.prime.val) ∧
      (∀ (a : Operation) (B B' : Algebra) (ks : List ℕ), B.prime = A.prime → (Growing.generators a.degree).run B = (.ok ks, B') →
        a.index ∈ ks → a.IsBasis A.prime → ∀ d i, i < M.dimension d →
        (∀ r ∈ actions, r.operation = a → M.nameOf d i ≠ .ok r.input) → ∀ (C : Algebra) (c : ℕ), C.prime = A.prime →
          a.degree < C.computed → M.actOnBasis C A.prime c a d i = .ok (Vec.zero (M.dimension (d + a.degree)))) ∧
      ((calls.filterMap Call.generator?).map Prod.snd).Nodup ∧ ∀ d,
        M.dimension d = ((calls.filterMap Call.generator?).filter (·.1 = d)).length ∧
        ∀ i n, M.nameOf d i = .ok n ↔ (((calls.filterMap Call.generator?).filter (·.1 = d)).map Prod.snd)[i]? = some n := by
  obtain ⟨P, B, hcalls, hbuild⟩ := run_bind_eq_ok.mp h
  have hempty : (empty name).WellNamed := ⟨fun g hg => absurd hg List.not_mem_nil, List.nodup_nil⟩
  obtain ⟨actions, haccepts, hnamed, hP, rfl⟩ := declared_of_run_calls hempty hcalls
  have hgens : P.generators = calls.filterMap Call.generator? := congrArg Presentation.generators hP
  obtain rfl : P.actions = actions := congrArg Presentation.actions hP
  have hbasis : ∀ a ∈ P.actions, a.operation.IsBasis (extendFor A P.actions).prime := by
    rw [prime_extendFor]
    exact isBasis_of_accepts haccepts
  have hprime : (extendFor A P.actions).prime = A.prime := prime_extendFor A P.actions
  rw [← hgens]
  refine ⟨P.actions, haccepts, fun r hr => hprime ▸ holds_of_run_build hnamed hbasis hbuild hr,
    fun a B B' ks hB hks hmem ha d i hi hnone C c hC hlt => ?_, hnamed.distinct,
    fun d => ⟨by rw [dimension_of_run_build hbuild, dimension], fun i n => by rw [nameOf_of_run_build hbuild, namesIn]⟩⟩
  have hlisted : listed A.prime a = true := by
    have hks := generatorsOf_eq_ok hks
    rw [hB] at hks
    rw [listed, hks]
    exact List.contains_iff_mem.mpr hmem
  rw [← hprime] at hlisted ha hC ⊢
  exact zero_of_run_build hbasis hbuild hlisted ha hi hnone hC hlt c

/-- Relations of all kinds, before and after the generators: of generators of the algebra and others, one into a degree without
generators, and one of the unit. -/
def questionMarkCalls : List Call :=
  [.generator 0 "x", .relation "Sq1 x = y", .generator 1 "y", .relation "Sq2 x = 0", .generator 3 "z", .relation "Sq2 y = z",
    .relation "Sq(0,1) x = z", .relation "1 y = y"]

theorem built_as_declared_questionMark : ∃ M A', (questionMarkCalls.foldlM Call.make (empty "Q") >>= build).run
    (Algebra.new Prime.two none) = (.ok M, A') ∧ M.dimension 3 = 1 ∧ ∃ actions,
      List.Forall₂ (Accepts (Algebra.new Prime.two none)) (questionMarkCalls.filterMap Call.text?) actions ∧ actions.length = 5 ∧
      ∀ r ∈ actions, ∃ d i, M.nameOf d i = .ok r.input := by
  have hbuild : (match (questionMarkCalls.foldlM Call.make (empty "Q") >>= build).run (Algebra.new Prime.two none) with
      | (.ok M, _) => decide (M.dimension 3 = 1)
      | (.error _, _) => false) = true := by decide +kernel
  split at hbuild
  · next M A' hrun =>
    obtain ⟨actions, haccepts, hholds, -⟩ := built_as_declared hrun
    refine ⟨M, A', hrun, of_decide_eq_true hbuild, actions, haccepts, haccepts.length_eq.symm, fun r hr => ?_⟩
    obtain ⟨d, i, hname, -⟩ := hholds r hr
    exact ⟨d, i, hname⟩
  · cases hbuild

end Presentation
end Steenrod
