import Steenrod.Proofs.Resolution.Progress
/-!
Sequences of requests to a resolution, in any order and some of them refused. Main statement: no request fails but by
refusal, and then it changes nothing; a bidegree is computed exactly if a request that was met asked for it; and what is
recorded there is what one request to a new resolution records.
-/
namespace Steenrod
namespace Resolution

open Vec Growing

variable {p : Prime} {X : Representation p} {m t d : ℤ} {R R' : Resolution} {s i : ℕ} {A B C : Algebra}
variable {M : Algebra → GradedModule}

/-- Whether budget and cap admit a request for degree `t` to a resolution of a module of least degree `m`. -/
def Admits (budget cap : Option ℤ) (m t : ℤ) : Prop := (∀ b ∈ budget, t ≤ b) ∧ ∀ c ∈ cap, max 0 (t - m) ≤ c

/-- The preparation of a request fails by refusal only. -/
theorem run_prepare_cases (hp : 0 ≤ A.prime.signed) (ht : t - R.minDegree ≤ maxSigned) :
    Admits R.budget A.cap R.minDegree t ∧ (R.prepare t).run A = (.ok (), A.extend (max 0 (t - R.minDegree))) ∨
      ¬Admits R.budget A.cap R.minDegree t ∧ ∃ e, (R.prepare t).run A = (.error (.refused e), A) := by
  have hmax : (0 : ℤ) ≤ maxSigned := by decide
  have hensure : (∀ c ∈ A.cap, max 0 (t - R.minDegree) ≤ c) ∧
        (ensure (max 0 (t - R.minDegree))).run A = (.ok (), A.extend (max 0 (t - R.minDegree))) ∨
      (¬∀ c ∈ A.cap, max 0 (t - R.minDegree) ≤ c) ∧
        ∃ e, (ensure (max 0 (t - R.minDegree))).run A = (.error (.refused e), A) := by
    unfold ensure
    rw [run_bind, run_get]
    simp only
    cases hcap : A.cap with
    | none => exact .inl ⟨by simp, run_compute_of_signed hp (by omega)⟩
    | some cap =>
      simp only [Option.mem_some_iff, forall_eq']
      by_cases hlt : cap < max 0 (t - R.minDegree)
      · rw [if_pos hlt]
        exact .inr ⟨by omega, _, rfl⟩
      · rw [if_neg hlt]
        exact .inl ⟨by omega, run_compute_of_signed hp (by omega)⟩
  unfold prepare Admits
  cases hbudget : R.budget with
  | none => simpa using hensure
  | some budget =>
    simp only [Option.mem_some_iff, forall_eq']
    by_cases hlt : budget < t
    · simp only [if_pos hlt]
      exact .inr ⟨fun h => by omega, _, rfl⟩
    · simp only [if_neg hlt]
      rcases hensure with ⟨hcap, hrun⟩ | ⟨hcap, e, hrun⟩
      · exact .inl ⟨⟨by omega, hcap⟩, hrun⟩
      · exact .inr ⟨fun h => hcap h.2, e, hrun⟩

/-- A request to a resolution, for all bidegrees up to one or for all stages and degrees up to a number. -/
inductive Request
  | through (s : ℕ) (t : ℤ)
  | throughDegree (n : ℤ)
  deriving DecidableEq, Repr

namespace Request

/-- The bidegree up to which a request asks. -/
def bidegree : Request → ℕ × ℤ
  | through s t => (s, t)
  | throughDegree n => (n.toNat, n)

/-- What a request to a resolution of `M` answers. -/
def answer (M : Algebra → GradedModule) (x : Algebra × Resolution) (r : Request) : Result Resolution × Algebra :=
  (x.2.request M r.bidegree.1 r.bidegree.2).run x.1

/-- The request asks for bidegree `(s, t)`. -/
def Covers (r : Request) (s : ℕ) (t : ℤ) : Prop := s ≤ r.bidegree.1 ∧ t ≤ r.bidegree.2

end Request

/-- The algebra and the resolution after a request; one that fails leaves the resolution as it was. -/
def serve (M : Algebra → GradedModule) (x : Algebra × Resolution) (r : Request) : Algebra × Resolution :=
  ((r.answer M x).2, (r.answer M x).1.toOption.getD x.2)

/-- The requests that are met, of some that are made one after the other. -/
def met (M : Algebra → GradedModule) : Algebra × Resolution → List Request → List Request
  | _, [] => []
  | x, r :: rs => if (r.answer M x).1.toOption.isSome then r :: met M (serve M x r) rs else met M (serve M x r) rs

/-- What a map out of a free module has recorded in degree `t`. -/
def entriesAt (f : FreeMap) (t : ℤ) : Option (List Vec) × Option Subspace × Option QuasiInverse :=
  (f.outputs.get? t, f.kernels.get? t, f.quasiInverses.get? t)

/-- In bidegree `(s, t)` two resolutions have the same generators, and have recorded the same outputs, kernel and
quasi-inverse of the differential, and of the augmentation for stage 0. -/
structure AgreeAt (R R' : Resolution) (s : ℕ) (t : ℤ) : Prop where
  stage_eq : ∃ x x' names, R.stages[s]? = some x ∧ R'.stages[s]? = some x' ∧ x.module.generators.get? t = some names ∧
    x'.module.generators.get? t = some names ∧ entriesAt x.differential t = entriesAt x'.differential t
  augmentation_eq : s = 0 → entriesAt R.augmentation t = entriesAt R'.augmentation t

/-- The module that is resolved, and the algebra, as far as any request asks for them. -/
structure Setting (C : Algebra) (X : Representation C.prime) (m : ℤ) (M : Algebra → GradedModule) : Prop where
  answers : C.Answers
  prime_le : C.prime.val ≤ maxSigned
  zero_below : ∀ d < m, X.dim d = 0
  shows : ∀ (A : Algebra) (t : ℤ), A.prime = C.prime → A.computed ≤ C.computed → t - m < A.computed →
    (M A).Shows X A t

/-- The degree arithmetic of a request for degree `t` fits into signed words, and `C` is known that far if the request
is admitted. -/
structure Fits (C : Algebra) (budget cap : Option ℤ) (m t : ℤ) : Prop where
  lt_max : t < maxSigned
  sub_le_max : t - m ≤ maxSigned
  lt_computed : Admits budget cap m t → max 0 (t - m) < C.computed

/-- What is true of algebra and resolution after any requests. -/
structure Kept (C : Algebra) (X : Representation C.prime) (m : ℤ) (budget cap : Option ℤ) (x : Algebra × Resolution) :
    Prop where
  prime_eq : x.1.prime = C.prime
  computed_le : x.1.computed ≤ C.computed
  cap_eq : x.1.cap = cap
  budget_eq : x.2.budget = budget
  built : x.2.Built X m

section Serving

variable {X : Representation C.prime} {budget cap : Option ℤ} {x : Algebra × Resolution} {r : Request}

theorem provided_of_prime_eq {X : Representation p} (hp : A.prime = p) (hR : R.Built X m) (hA : A.Answers)
    (hlt : t - m < A.computed) (hmax : t < maxSigned) {N : GradedModule} (hN : N.Shows X A t)
    (hX : ∀ d < m, X.dim d = 0) (s : ℕ) :
    ∃ R', R.computeThrough A N s t = .ok R' ∧ R'.Built X m ∧ R'.budget = R.budget ∧
      ∀ i, R'.next i = if i ≤ s then max (R.next i) (t + 1) else R.next i := by
  subst hp
  exact exists_computeThrough hR ⟨hA, hlt, hmax, hN, hX⟩ s

/-- A request that is admitted is met; any other is refused and changes nothing. -/
theorem Kept.answer (h : Kept C X m budget cap x) (hS : Setting C X m M) (hr : Fits C budget cap m r.bidegree.2) :
    (Admits budget cap m r.bidegree.2 ∧ ∃ R A, r.answer M x = (.ok R, A) ∧ Kept C X m budget cap (A, R) ∧
      ∀ i, R.next i = if i ≤ r.bidegree.1 then max (x.2.next i) (r.bidegree.2 + 1) else x.2.next i) ∨
    (¬Admits budget cap m r.bidegree.2 ∧ ∃ e, r.answer M x = (.error (.refused e), x.1)) := by
  obtain ⟨A, R⟩ := x
  have hmin : R.minDegree = m := h.built.minDegree_eq
  have hp : A.prime = C.prime := h.prime_eq
  have hcomputed : A.computed ≤ C.computed := h.computed_le
  have hsigned : 0 ≤ A.prime.signed := signed_nonneg (hp ▸ hS.prime_le)
  have hcases := run_prepare_cases (R := R) hsigned (hmin.symm ▸ hr.sub_le_max)
  rw [hmin, show R.budget = budget from h.budget_eq, show A.cap = cap from h.cap_eq] at hcases
  unfold Request.answer request
  rw [run_bind]
  rcases hcases with ⟨hadmits, hrun⟩ | ⟨hnot, e, hrun⟩
  · refine .inl ⟨hadmits, ?_⟩
    set B := A.extend (max 0 (r.bidegree.2 - m)) with hB
    have hpB : B.prime = C.prime := (A.prime_extend _).trans hp
    have hcB : B.computed = if max 0 (r.bidegree.2 - m) < A.computed then A.computed
        else (max 0 (r.bidegree.2 - m) + 1).toNat := A.computed_extend _
    have hfits := hr.lt_computed hadmits
    have hle : B.computed ≤ C.computed := by
      rw [hcB]
      split <;> omega
    have hlt : r.bidegree.2 - m < B.computed := by
      rw [hcB]
      split <;> omega
    obtain ⟨R', hok, hR', hbudget, hnext⟩ := provided_of_prime_eq hpB h.built (hS.answers.restrict hpB hle) hlt
      hr.lt_max (hS.shows B _ hpB hle hlt) hS.zero_below r.bidegree.1
    refine ⟨R', B, ?_, ⟨hpB, hle, (A.cap_extend _).trans h.cap_eq, hbudget.trans h.budget_eq, hR'⟩, hnext⟩
    rw [hrun]
    exact (run_read _ B).trans (congrArg (·, B) hok)
  · exact .inr ⟨hnot, e, by rw [hrun]⟩

/-- The degrees that are computed after a sequence of requests. -/
theorem Kept.serveAll (hS : Setting C X m M) (rs : List Request) (hrs : ∀ r ∈ rs, Fits C budget cap m r.bidegree.2)
    (h : Kept C X m budget cap x) : Kept C X m budget cap (rs.foldl (serve M) x) ∧
      ∀ i d, d < (rs.foldl (serve M) x).2.next i ↔ d < x.2.next i ∨ ∃ r ∈ met M x rs, r.Covers i d := by
  induction rs generalizing x with
  | nil => exact ⟨h, fun i d => by simp [met]⟩
  | cons r rs ih =>
    have hrest : ∀ r ∈ rs, Fits C budget cap m r.bidegree.2 := fun z hz => hrs z (by simp [hz])
    rcases h.answer hS (hrs r (by simp)) with ⟨_, R, A, hok, hkept, hnext⟩ | ⟨_, e, herror⟩
    · have hserve : serve M x r = (A, R) := by rw [serve, hok]; rfl
      obtain ⟨hkept', hiff⟩ := ih hrest hkept
      rw [List.foldl_cons, hserve]
      refine ⟨hkept', fun i d => ?_⟩
      rw [hiff, met, hok, hserve]
      simp only [Except.toOption, Option.isSome_some, if_true, List.mem_cons, exists_eq_or_imp]
      rw [← or_assoc]
      refine or_congr_left ?_
      rw [Request.Covers, hnext]
      split <;> omega
    · have hserve : serve M x r = x := by rw [serve, herror]; rfl
      rw [List.foldl_cons, hserve, met, herror, hserve]
      exact ih hrest h

/-- Requests that are met are admitted. -/
theorem Kept.admits_of_mem_met (hS : Setting C X m M) (rs : List Request) (hrs : ∀ r ∈ rs, Fits C budget cap m r.bidegree.2)
    (h : Kept C X m budget cap x) : ∀ r ∈ met M x rs, r ∈ rs ∧ Admits budget cap m r.bidegree.2 := by
  induction rs generalizing x with
  | nil => exact fun r hr => absurd hr List.not_mem_nil
  | cons q rs ih =>
    have hrest : ∀ r ∈ rs, Fits C budget cap m r.bidegree.2 := fun z hz => hrs z (by simp [hz])
    intro r hr
    rcases h.answer hS (hrs q (by simp)) with ⟨hadmits, R, A, hok, hkept, _⟩ | ⟨_, e, herror⟩
    · have hserve : serve M x q = (A, R) := by rw [serve, hok]; rfl
      rw [met, hok, hserve] at hr
      simp only [Except.toOption, Option.isSome_some, if_true, List.mem_cons] at hr
      rcases hr with rfl | hr
      · exact ⟨by simp, hadmits⟩
      · obtain ⟨hmem, had⟩ := ih hrest hkept r hr
        exact ⟨by simp [hmem], had⟩
    · have hserve : serve M x q = x := by rw [serve, herror]; rfl
      rw [met, herror, hserve] at hr
      obtain ⟨hmem, had⟩ := ih hrest h r hr
      exact ⟨by simp [hmem], had⟩

theorem kept_new (hA : A.prime = C.prime) (hle : A.computed ≤ C.computed) (name : String) (budget : Option ℤ) :
    Kept C X m budget A.cap (A, Resolution.new name m budget) := ⟨hA, hle, rfl, rfl, built_new X m name budget⟩

end Serving

/-- Resolutions that have the same entries agree. -/
theorem Built.agreeAt {X : Representation p} (h : R.Built X m) (h' : R'.Built X m)
    (hm : m ≤ t) (ht : t < R.next s) (ht' : t < R'.next s) : AgreeAt R R' s t := by
  have hsame := h.sameEntries h' hm ht ht'
  have hs := h.lt_size_of_lt_next (by omega : m < R.next s)
  have hs' := h'.lt_size_of_lt_next (by omega : m < R'.next s)
  obtain ⟨names, hnames⟩ := Option.isSome_iff_exists.mp ((Graded.get?_isSome_iff (R.stageAt s).module.generators t).mpr
    ⟨(h.stage s).source_min.trans_le hm, ht⟩)
  have hmapped : entriesAt (R.mappedAt s).2 t = entriesAt (R'.mappedAt s).2 t := by
    rw [entriesAt, entriesAt, hsame.outputs_eq, hsame.kernels_eq, hsame.inverses_eq]
  refine ⟨⟨_, _, names, getElem?_stages hs, getElem?_stages hs', hnames, hsame.names_eq.trans hnames, ?_⟩, fun h0 => ?_⟩
  · cases s with
    | zero =>
      have hcount : (R'.stageAt 0).module.count t = (R.stageAt 0).module.count t := hsame.toSameOutputs.count_eq
      rw [entriesAt, entriesAt, h.zero_map.outputs_eq t hm ht, h'.zero_map.outputs_eq t hm ht', hcount,
        h.zero_map.kernels_eq, h'.zero_map.kernels_eq, h.zero_map.inverses_eq, h'.zero_map.inverses_eq]
    | succ s => exact hmapped
  · subst h0
    exact hmapped

/-- The order of requests does not matter, and none gets stuck. After any requests to a new resolution, another one is
met or refused, and when it is refused nothing changes; a bidegree is computed exactly if a request that was met covers
it; such a request to a new resolution is met as well, and whichever request to a new resolution covers a bidegree, it
leaves the same entries there. -/
theorem requests_order_independent {X : Representation C.prime} (hS : Setting C X m M) (rs : List Request)
    (name : String) (budget : Option ℤ) (hA : A.prime = C.prime) (hle : A.computed ≤ C.computed)
    (hrs : ∀ r ∈ rs, Fits C budget A.cap m r.bidegree.2) :
    let start := (A, Resolution.new name m budget)
    let x := rs.foldl (serve M) start
    (∀ r : Request, Fits C budget A.cap m r.bidegree.2 →
      (∃ R A', r.answer M x = (.ok R, A')) ∨ ∃ e, (r.answer M x).1 = .error (.refused e) ∧ serve M x r = x) ∧
    ∀ s t, m ≤ t → (x.2.hasComputed s t = true ↔ ∃ r ∈ met M start rs, r.Covers s t) ∧
      (x.2.hasComputed s t = true → ∃ r ∈ met M start rs, r.Covers s t ∧ ∃ R A', r.answer M start = (.ok R, A')) ∧
      ∀ (r : Request) (A₁ A' : Algebra) (name₁ : String) (budget₁ : Option ℤ) (R : Resolution),
        x.2.hasComputed s t = true → r.Covers s t → Fits C budget₁ A₁.cap m r.bidegree.2 → A₁.prime = C.prime →
        A₁.computed ≤ C.computed → r.answer M (A₁, Resolution.new name₁ m budget₁) = (.ok R, A') → AgreeAt x.2 R s t := by
  intro start x
  have hstart : Kept C X m budget A.cap start := kept_new hA hle name budget
  obtain ⟨hx, hnext⟩ := hstart.serveAll hS rs hrs
  have hiff : ∀ s t, m ≤ t → (x.2.hasComputed s t = true ↔ ∃ r ∈ met M start rs, r.Covers s t) := by
    intro s t hm
    rw [hx.built.hasComputed_iff hm, hnext s t, next_new]
    exact or_iff_right (by omega)
  refine ⟨fun r hr => ?_, fun s t hm => ⟨hiff s t hm, fun hcomputed => ?_, ?_⟩⟩
  · rcases hx.answer hS hr with ⟨_, R, A', hok, _⟩ | ⟨_, e, herror⟩
    · exact .inl ⟨R, A', hok⟩
    · exact .inr ⟨e, by rw [herror], by rw [serve, herror]; rfl⟩
  · obtain ⟨r, hr, hcovers⟩ := (hiff s t hm).mp hcomputed
    obtain ⟨hmem, hadmits⟩ := hstart.admits_of_mem_met hS rs hrs r hr
    rcases hstart.answer hS (hrs r hmem) with ⟨_, R, A', hok, _⟩ | ⟨hnot, _⟩
    · exact ⟨r, hr, hcovers, R, A', hok⟩
    · exact absurd hadmits hnot
  · intro r A₁ A' name₁ budget₁ R hcomputed hcovers hr hA₁ hle₁ hok
    have hfresh : Kept C X m budget₁ A₁.cap (A₁, Resolution.new name₁ m budget₁) := kept_new hA₁ hle₁ name₁ budget₁
    rcases hfresh.answer hS hr with ⟨hadmits, R', A'', hok', hkept, hnext'⟩ | ⟨_, e, herror⟩
    · rw [hok, Prod.mk.injEq, Except.ok.injEq] at hok'
      obtain ⟨rfl, rfl⟩ := hok'
      have hlt : t < R.next s := by
        have hs := hcovers.1
        have ht := hcovers.2
        rw [hnext', if_pos hs]
        omega
      exact hx.built.agreeAt hkept.built hm ((hx.built.hasComputed_iff hm).mp hcomputed) hlt
    · rw [hok] at herror
      simp at herror

/-- Every finite module whose table of actions is complete is a setting, whether or not its action is associative. -/
theorem setting_of_finite {N : FiniteModule} (hC : C.Answers) (hp : C.prime.val ≤ maxSigned)
    (hN : N.StoredBelow C.prime C.computed) : Setting C (N.rep C.prime) N.minDegree N.toGraded where
  answers := hC
  prime_le := hp
  zero_below _ hd := FiniteModule.dimension_of_lt hd
  shows _ t hpA hle _ := hpA ▸ FiniteModule.shows (fun a d i ha hpos hlt hi hdim =>
    hN a d i (hpA ▸ ha) hpos (by omega) hi hdim) t

/-- Four requests to a resolution of the sphere with budget 1. The second is beyond it and refused; what the others leave
in bidegree `(1, 1)` is what one request leaves. -/
theorem requests_order_independent_ofSphere :
    let requests := [.through 1 0, .throughDegree 5, .through 0 1, .throughDegree 1]
    let start := (Algebra.first, Resolution.new "S" 0 (some 1))
    let x := requests.foldl (serve FiniteModule.sphere.toGraded) start
    met FiniteModule.sphere.toGraded start requests = [.through 1 0, .through 0 1, .throughDegree 1] ∧
      x.2.hasComputed 1 1 = true ∧ AgreeAt x.2 ofSphere 1 1 := by
  intro requests start x
  have setting : Setting Algebra.first (FiniteModule.sphere.rep Algebra.first.prime) 0 FiniteModule.sphere.toGraded :=
    setting_of_finite (Algebra.isAssociative_first.answers Algebra.isUnital_first) (by decide)
      FiniteModule.isModule_sphere.stored
  have hfits : ∀ r ∈ requests, Fits Algebra.first (some 1) Algebra.first.cap 0 r.bidegree.2 := by
    intro r hr
    have hcases : r.bidegree.2 = 0 ∨ r.bidegree.2 = 5 ∨ r.bidegree.2 = 1 := by
      simp only [requests, List.mem_cons, List.not_mem_nil, or_false] at hr
      obtain rfl | rfl | rfl | rfl := hr <;> simp [Request.bidegree]
    refine ⟨by simp only [maxSigned]; omega, by simp only [maxSigned]; omega, fun h => ?_⟩
    have hbudget := h.1 1 rfl
    rw [Algebra.computed_first]
    omega
  have hmet : met FiniteModule.sphere.toGraded start requests = [.through 1 0, .through 0 1, .throughDegree 1] := by
    decide +kernel
  obtain ⟨hiff, _, hagree⟩ := (requests_order_independent setting requests "S" (some 1) rfl (le_refl _) hfits).2 1 1 (by decide)
  have hcomputed : x.2.hasComputed 1 1 = true := hiff.mpr ⟨.throughDegree 1, by rw [hmet]; simp, by decide, by decide⟩
  exact ⟨hmet, hcomputed, hagree (.through 1 1) Algebra.first Algebra.first "S" none ofSphere hcomputed
    ⟨by decide, by decide⟩ ⟨by decide, by decide, fun _ => by decide⟩ rfl (le_refl _) run_request_ofSphere⟩

end Resolution
end Steenrod
