import Mathlib.Data.List.Perm.Basic
import Mathlib.Data.List.Sort
import Steenrod.Proofs.Module.Answering
import Steenrod.Proofs.Module.RoundTrip
/-!
The order of relations does not matter. Main statements: the entries that relations ask for are the same in every order, they come into
the table and are compared with it in the same way; and building from the same generators and relations in another order gives the
same module, or is refused as well.
-/
namespace Steenrod

/-- Whether there is something to tell about a failure. -/
def Failure.told : Failure → Bool
  | refused _ => true
  | breach => false

namespace Result

variable {α β : Type} {r s : Result α} {f g : α → Result β}

/-- A result without the words of a refusal. -/
def verdict (r : Result α) : Except Bool α := r.mapError Failure.told

@[simp] theorem verdict_ok (x : α) : verdict (.ok x) = .ok x := rfl

@[simp] theorem verdict_refuse (e : Error) : verdict (refuse e : Result α) = .error true := rfl

theorem verdict_bind (r : Result α) (f : α → Result β) : (r >>= f).verdict = r.verdict >>= fun x => (f x).verdict := by
  cases r <;> rfl

/-- Two results with one verdict. -/
theorem verdict_cases (h : r.verdict = s.verdict) : (∃ x, r = .ok x ∧ s = .ok x) ∨ (∃ e e', r = refuse e ∧ s = refuse e') ∨
    r = breach ∧ s = breach := by
  rcases r with (e | _) | x <;> rcases s with (e' | _) | y <;> cases h
  · exact .inr (.inl ⟨e, e', rfl, rfl⟩)
  · exact .inr (.inr ⟨rfl, rfl⟩)
  · exact .inl ⟨x, rfl, rfl⟩

/-- Steps with the same verdicts on lists that agree as far as the verdicts go. -/
theorem verdict_forM_congr {κ : Type} {f : α → Result Unit} {k : α → κ} {l l' : List α}
    (hf : ∀ x y, k x = k y → (f x).verdict = (f y).verdict) (h : l.map k = l'.map k) : (l.forM f).verdict = (l'.forM f).verdict := by
  induction l generalizing l' with
  | nil =>
    obtain rfl := List.map_eq_nil_iff.mp h.symm
    rfl
  | cons x l ih =>
    obtain ⟨y, l', rfl, hxy, hl⟩ := List.map_eq_cons_iff.mp h.symm
    change (f x >>= fun _ => l.forM f).verdict = (f y >>= fun _ => l'.forM f).verdict
    rw [verdict_bind, verdict_bind, hf x y hxy.symm, ih hl.symm]

end Result

namespace Growing

variable {α β : Type} {A : Algebra} {x y : Growing α} {f g : α → Growing β}

/-- Both end with the same verdict and the same algebra. -/
def Concur (A : Algebra) (x y : Growing α) : Prop := (x.run A).1.verdict = (y.run A).1.verdict ∧ (x.run A).2 = (y.run A).2

theorem Concur.refl (A : Algebra) (x : Growing α) : Concur A x x := ⟨rfl, rfl⟩

/-- One after the other, from what the first ones agree on. -/
theorem Concur.bind (h : Concur A x y) (hstep : ∀ a B, x.run A = (.ok a, B) → y.run A = (.ok a, B) → Concur B (f a) (g a)) :
    Concur A (x >>= f) (y >>= g) := by
  obtain ⟨hverdict, halgebra⟩ := h
  rw [Concur, run_bind, run_bind]
  rcases hx : x.run A with ⟨r, B⟩
  rcases hy : y.run A with ⟨s, C⟩
  rw [hx, hy] at hverdict halgebra
  obtain rfl : B = C := halgebra
  rcases Result.verdict_cases hverdict with ⟨a, rfl, rfl⟩ | ⟨e, e', rfl, rfl⟩ | ⟨rfl, rfl⟩
  · exact hstep a B hx hy
  · exact ⟨rfl, rfl⟩
  · exact ⟨rfl, rfl⟩

theorem concur_read {f g : Algebra → Result α} (h : (f A).verdict = (g A).verdict) : Concur A (read f) (read g) := by
  rw [Concur, run_read, run_read]
  exact ⟨h, rfl⟩

end Growing

namespace FiniteModule

variable {M : FiniteModule} {l l' : List Declared} {x y : Declared} {A : Algebra}

/-- Entries at different places may be put into the table in any order. -/
theorem enter_comm (hxy : x.key ≠ y.key) : (M.enter x).enter y = (M.enter y).enter x := by
  have hactions : ((M.enter x).enter y).actions = ((M.enter y).enter x).actions := by
    refine actions_ext ?_ fun a d i => ?_
    · simp only [enter, shape_setAction]
    · simp only [action?_enter]
      by_cases hx : x.key = (a, d, i)
      · have hy : y.key ≠ (a, d, i) := fun hy => hxy (hx.trans hy.symm)
        rw [if_neg hy, if_pos hx, if_pos hx, if_neg hy]
      · rw [if_neg hx, if_neg hx]
  exact congrArg (fun actions => { M with actions := actions }) hactions

/-- The entries that are asked for come into the table in whatever order. -/
theorem foldl_enter_perm (hdistinct : (l.map Declared.key).Nodup) (h : (l.map Declared.content).Perm (l'.map Declared.content))
    (M : FiniteModule) : l.foldl enter M = l'.foldl enter M := by
  -- Both lists are folded as lists of contents.
  let put (M : FiniteModule) (c : (Operation × (ℤ × ℕ)) × Vec) : FiniteModule := M.enter ⟨c.1.1, c.1.2, c.2, ""⟩
  have hput : ∀ l : List Declared, l.foldl enter M = (l.map Declared.content).foldl put M := fun l => by
    rw [List.foldl_map]
    rfl
  rw [hput, hput]
  refine h.foldl_eq' (fun c hc c' hc' M => ?_) M
  obtain ⟨x, hx, rfl⟩ := List.mem_map.mp hc
  obtain ⟨y, hy, rfl⟩ := List.mem_map.mp hc'
  by_cases hxy : x.key = y.key
  · rw [Declared.eq_of_key_eq hdistinct hx hy hxy]
  · exact enter_comm hxy

end FiniteModule

namespace Presentation

open FiniteModule Growing Milnor

variable {p : Prime} {P : Presentation} {M : FiniteModule} {A : Algebra} {l l' : List Declared} {x y z : Declared}
  {actions actions' : List Action} {texts texts' : List String}

/-- By what the entries are sorted before they are checked. -/
def checkKey (x : Declared) : List ℤ := [x.input.1, x.input.2, x.operation.degree, x.operation.index]

theorem checkBefore_iff : checkBefore x y = true ↔ checkKey x ≤ checkKey y := by
  have h : checkBefore x y = !(checkKey y).lex (checkKey x) fun m n => decide (m < n) := rfl
  rw [h, Bool.not_eq_true', ← Bool.not_eq_true, List.lex_eq_true_iff_lt]
  exact not_lt

theorem key_eq_of_checkKey_eq (h : checkKey x = checkKey y) : x.key = y.key := by
  obtain ⟨⟨n, k⟩, ⟨d, i⟩, v, text⟩ := x
  obtain ⟨⟨n', k'⟩, ⟨d', i'⟩, v', text'⟩ := y
  simp only [checkKey, List.cons.injEq, Nat.cast_inj, and_true] at h
  obtain ⟨rfl, rfl, rfl, rfl⟩ := h
  rfl

/-- The entries that are checked come in one order. -/
theorem mergeSort_perm (hdistinct : (l.map Declared.key).Nodup) (h : (l.map Declared.content).Perm (l'.map Declared.content)) :
    (l.mergeSort checkBefore).map Declared.content = (l'.mergeSort checkBefore).map Declared.content := by
  have hsorted : ∀ l : List Declared, ((l.mergeSort checkBefore).map Declared.content).Pairwise
      fun c c' => checkKey ⟨c.1.1, c.1.2, c.2, ""⟩ ≤ checkKey ⟨c'.1.1, c'.1.2, c'.2, ""⟩ := fun l => by
    refine List.pairwise_map.mpr ((List.pairwise_mergeSort ?_ ?_ l).imp checkBefore_iff.mp)
    · exact fun x y z hxy hyz => checkBefore_iff.mpr ((checkBefore_iff.mp hxy).trans (checkBefore_iff.mp hyz))
    · exact fun x y => (Bool.or_eq_true _ _).mpr ((le_total (checkKey x) (checkKey y)).imp checkBefore_iff.mpr checkBefore_iff.mpr)
  have hmem : ∀ c ∈ (l.mergeSort checkBefore).map Declared.content, ∃ x ∈ l, x.content = c := fun c hc => by
    obtain ⟨x, hx, rfl⟩ := List.mem_map.mp hc
    exact ⟨x, List.mem_mergeSort.mp hx, rfl⟩
  have hperm := (((List.mergeSort_perm l checkBefore).map _).trans h).trans ((List.mergeSort_perm l' checkBefore).map _).symm
  refine hperm.eq_of_pairwise (fun c c' hc hc' hle hge => ?_) (hsorted l) (hsorted l')
  obtain ⟨x, hx, rfl⟩ := hmem c hc
  obtain ⟨y, hy, rfl⟩ := hmem c' (hperm.mem_iff.mpr hc')
  rw [Declared.eq_of_key_eq hdistinct hx hy (key_eq_of_checkKey_eq (le_antisymm hle hge))]

/-- Whether an entry passes does not depend on the words of its relation. -/
theorem verdict_checkForced (h : x.content = y.content) : (checkForced A M x).verdict = (checkForced A M y).verdict := by
  obtain ⟨hkey, houtput⟩ := Prod.mk.inj h
  obtain ⟨hop, hinput⟩ := Prod.mk.inj hkey
  rw [checkForced, checkForced, hop, hinput, houtput, Result.verdict_bind, Result.verdict_bind]
  refine bind_congr fun v => ?_
  split
  · rfl
  · rw [Result.verdict_bind, Result.verdict_bind]
    rfl

theorem filter_content_perm (h : (l.map Declared.content).Perm (l'.map Declared.content)) (keep : Operation → Bool) :
    ((l.filter (keep ·.operation)).map Declared.content).Perm ((l'.filter (keep ·.operation)).map Declared.content) := by
  have hfilter : ∀ l : List Declared, (l.filter (keep ·.operation)).map Declared.content =
      (l.map Declared.content).filter fun c => keep c.1.1 := fun l => by
    rw [List.filter_map]
    rfl
  rw [hfilter, hfilter]
  exact h.filter _

/-- Entries settle in the same way in every order. -/
theorem concur_settle (hdistinct : (l.map Declared.key).Nodup) (h : (l.map Declared.content).Perm (l'.map Declared.content))
    (M : FiniteModule) (A : Algebra) : Concur A (settle p l M) (settle p l' M) := by
  have hsub : ∀ keep : Operation → Bool, ((l.filter (keep ·.operation)).map Declared.key).Nodup := fun keep =>
    hdistinct.sublist (List.filter_sublist.map _)
  rw [settle, settle, foldl_enter_perm (hsub (listed p)) (filter_content_perm h (listed p))]
  refine (Concur.refl A _).bind fun N B _ _ => ?_
  have hsorted := mergeSort_perm (hsub fun a => !listed p a) (filter_content_perm h fun a => !listed p a)
  refine (concur_read (Result.verdict_forM_congr (fun x y => verdict_checkForced) hsorted)).bind fun _ C _ _ => .refl C _

theorem sortable_perm (h : (l.map Declared.content).Perm (l'.map Declared.content)) : sortable p l = sortable p l' := by
  have hall : ∀ l : List Declared, sortable p l = (l.map Declared.content).all fun c => (generatorsOf p c.1.1.degree).isOk := fun l => by
    rw [List.all_map]
    rfl
  rw [hall, hall, h.all_eq]

theorem concur_finish (hdistinct : (l.map Declared.key).Nodup) (hl : ∀ x ∈ l, P.Fitting A.prime x) (hl' : ∀ x ∈ l', P.Fitting A.prime x)
    (h : (l.map Declared.content).Perm (l'.map Declared.content)) : Concur A (P.finish l) (P.finish l') := by
  rw [Concur, run_finish_eq hl, run_finish_eq hl', sortable_perm h]
  refine (Concur.refl A _).bind fun _ B _ _ => (Concur.refl B _).bind fun M C _ _ => ?_
  split
  · exact concur_settle hdistinct h M C
  · exact .refl C _

/-- The relations are taken in in both orders, or refused in both. -/
theorem foldlM_declare_cases (hperm : actions.Perm actions') :
    (∃ l l', actions.foldlM (P.declare p) [] = .ok l ∧ actions'.foldlM (P.declare p) [] = .ok l' ∧
      (l.map Declared.content).Perm (l'.map Declared.content)) ∨
    ∃ e e', actions.foldlM (P.declare p) [] = refuse e ∧ actions'.foldlM (P.declare p) [] = refuse e' := by
  have hfails : ∀ actions : List Action, (∃ l, actions.foldlM (P.declare p) [] = .ok l) ∨
      ∃ e, actions.foldlM (P.declare p) [] = refuse e := fun actions => by
    have hne := Result.foldlM_ne_breach (P.declare_ne_breach p) actions []
    rcases h : actions.foldlM (P.declare p) [] with (e | _) | l
    · exact .inr ⟨e, rfl⟩
    · exact absurd h hne
    · exact .inl ⟨l, rfl⟩
  rcases hfails actions with ⟨l, hl⟩ | ⟨e, he⟩
  · obtain ⟨l', hl', hcontent⟩ := foldlM_declare_perm hperm hl
    exact .inl ⟨l, l', hl, hl', hcontent⟩
  · rcases hfails actions' with ⟨l', hl'⟩ | ⟨e', he'⟩
    · obtain ⟨l, hl, _⟩ := foldlM_declare_perm hperm.symm hl'
      cases he.symm.trans hl
    · exact .inr ⟨e, e', he, he'⟩

/-- Building from relations that are accepted ends in the same way in every order. -/
theorem concur_build {name : String} {gens : List (ℤ × String)} (hperm : actions.Perm actions') (A : Algebra) :
    Concur A (build ⟨name, gens, actions⟩) (build ⟨name, gens, actions'⟩) := by
  rw [build_eq, build_eq]
  refine (Concur.refl A _).bind fun B C hget _ => ?_
  rw [run_get] at hget
  obtain ⟨hB, rfl⟩ := Prod.mk.inj hget
  obtain rfl := Except.ok.inj hB
  refine (Concur.refl _ _).bind fun _ D hrequire _ => ?_
  obtain ⟨_, rfl⟩ := run_read_eq_ok.mp hrequire
  -- Neither what is declared nor how it is finished reads the list of actions.
  let P : Presentation := ⟨name, gens, actions⟩
  change Concur D (Growing.read (fun _ => actions.foldlM (P.declare D.prime) []) >>= P.finish)
    (Growing.read (fun _ => actions'.foldlM (P.declare D.prime) []) >>= P.finish)
  rcases foldlM_declare_cases (p := D.prime) (P := P) hperm with ⟨l, l', hl, hl', hcontent⟩ | ⟨e, e', he, he'⟩
  · have hcollects := collects_of_foldlM hl
    rw [Concur, run_bind, run_bind, run_read, run_read, hl, hl']
    exact concur_finish hcollects.distinct hcollects.fitting (collects_of_foldlM hl').fitting hcontent
  · refine (concur_read ?_).bind fun l E hread _ => ?_
    · rw [he, he', Result.verdict_refuse, Result.verdict_refuse]
    · cases he.symm.trans (run_read_eq_ok.mp hread).1

/-- Texts that are accepted declare relations, in whatever order they come. -/
theorem exists_forall₂_accepts (haccepts : ∀ text ∈ texts, ∃ a, Accepts A text a) : ∃ actions, List.Forall₂ (Accepts A) texts actions := by
  induction texts with
  | nil => exact ⟨[], .nil⟩
  | cons text texts ih =>
    obtain ⟨⟨a, ha⟩, hrest⟩ := List.forall_mem_cons.mp haccepts
    obtain ⟨actions, hactions⟩ := ih hrest
    exact ⟨a :: actions, .cons ha hactions⟩

theorem run_addActions_of_accepts (h : List.Forall₂ (Accepts A) texts actions) (P : Presentation) :
    (texts.foldlM addAction P).run A = (.ok { P with actions := P.actions ++ actions }, extendFor A actions) :=
  run_addActions_eq_ok.mpr ⟨actions, h, rfl, rfl⟩

/-- What a module is built from has been accepted. -/
theorem accepts_of_run_buildFrom {name : String} {gens : List (String × ℤ)} {A' : Algebra}
    (h : (buildFrom name gens texts).run A = (.ok M, A')) : ∀ text ∈ texts, ∃ a, Accepts A text a := by
  obtain ⟨P, B, hgens, h⟩ := run_bind_eq_ok.mp h
  obtain ⟨P', C, hactions, _⟩ := run_bind_eq_ok.mp h
  obtain ⟨_, _, rfl⟩ := of_run_addGenerators (P := empty name) ⟨fun g hg => absurd hg List.not_mem_nil, List.nodup_nil⟩ hgens
  obtain ⟨actions, haccepts, _⟩ := run_addActions_eq_ok.mp hactions
  intro text htext
  obtain ⟨i, hi, rfl⟩ := List.getElem_of_mem htext
  exact ⟨_, haccepts.get hi (haccepts.length_eq ▸ hi)⟩

theorem concur_buildFrom (name : String) (gens : List (String × ℤ)) (hperm : texts.Perm texts')
    (haccepts : ∀ text ∈ texts, ∃ a, Accepts A text a) : Concur A (buildFrom name gens texts) (buildFrom name gens texts') := by
  obtain ⟨actions, hactions⟩ := exists_forall₂_accepts haccepts
  obtain ⟨actions', hactions', hperm'⟩ := List.perm_comp_forall₂ hperm.symm hactions
  refine (Concur.refl A _).bind fun P B hgens _ => ?_
  obtain ⟨_, rfl, rfl⟩ := of_run_addGenerators (P := empty name) ⟨fun g hg => absurd hg List.not_mem_nil, List.nodup_nil⟩ hgens
  rw [Concur, run_bind, run_bind, run_addActions_of_accepts hactions, run_addActions_of_accepts hactions', extendFor_perm hperm']
  exact concur_build hperm'.symm _

/-- As long as the prime is small enough, and the degrees are and are close to each other, building from relations that are accepted
gives a module or says why there is none. -/
theorem answers_buildFrom (name : String) {gens : List (String × ℤ)} (haccepts : ∀ text ∈ texts, ∃ a, Accepts A text a)
    (hp : A.prime.val < 2 ^ 30) (hsigned : ∀ g ∈ gens, isSigned (g.2 + 1) = true)
    (hrange : ∀ g ∈ gens, ∀ h ∈ gens, g.2 - h.2 < 2 ^ 25 - 1) : Answers A (buildFrom name gens texts) := by
  obtain ⟨actions, hactions⟩ := exists_forall₂_accepts haccepts
  have hgens : ∀ (gens : List (String × ℤ)) (P : Presentation),
      Answers A (gens.foldlM (fun P g => Growing.read fun _ => P.addGenerator g.2 g.1) P) := by
    intro gens
    induction gens with
    | nil => exact fun P => answers_of_run (run_pure _ _) (Result.ok_ne_breach _)
    | cons g gens ih =>
      intro P
      rw [List.foldlM_cons]
      refine (answers_read ?_).bind fun P' B hadd => ?_
      · rw [addGenerator]
        split
        · exact Result.refuse_ne_breach _
        · split
          · exact Result.refuse_ne_breach _
          · exact Result.ok_ne_breach _
      · obtain ⟨_, rfl⟩ := run_read_eq_ok.mp hadd
        exact ih P'
  refine (hgens gens _).bind fun P B hrun => ?_
  obtain ⟨_, rfl, rfl⟩ := of_run_addGenerators (P := empty name) ⟨fun g hg => absurd hg List.not_mem_nil, List.nodup_nil⟩ hrun
  have hdeclared := run_addActions_of_accepts hactions { empty name with generators := gens.map Prod.swap }
  refine (answers_of_run hdeclared (Result.ok_ne_breach _)).bind fun P C hrun' => ?_
  obtain ⟨hP, rfl⟩ := Prod.mk.inj (hdeclared.symm.trans hrun')
  obtain rfl := Except.ok.inj hP
  set P : Presentation := ⟨name, gens.map Prod.swap, actions⟩ with hP
  have hmem : ∀ g ∈ P.generators, ∃ x ∈ gens, x.2 = g.1 := fun g hg => by
    obtain ⟨x, hx, rfl⟩ := List.mem_map.mp hg
    exact ⟨x, hx, rfl⟩
  have hwidth : P.maxDegree - P.minDegree < trackedBelow := P.width_lt (by decide) fun g hg h hh => by
    obtain ⟨x, hx, hxg⟩ := hmem g hg
    obtain ⟨y, hy, hyh⟩ := hmem h hh
    exact hxg ▸ hyh ▸ hrange x hx y hy
  refine answers_build (P := P) ?_ ?_ (P.isSigned_of_width (fun d hd => ?_) hwidth) hwidth
  · rwa [prime_extendFor]
  · rw [prime_extendFor]
    exact isBasis_of_accepts hactions
  · obtain ⟨g, hg, rfl⟩ := exists_generator (Nat.pos_of_ne_zero hd)
    obtain ⟨x, hx, hxg⟩ := hmem g hg
    exact hxg ▸ hsigned x hx

end Presentation
end Steenrod
