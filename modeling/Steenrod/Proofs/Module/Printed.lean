import Steenrod.Module.Document
import Steenrod.Proofs.Milnor.Coproduct
import Steenrod.Proofs.Module.Declared
import Steenrod.Proofs.Module.Ordered
import Steenrod.Proofs.Text.Factors
/-!
What is printed of a finite module. Main statements: a generator of the algebra is printed as a text from which it is understood; a
non-zero action of one is printed as a relation that is read as that action; and the relations that are printed of a module are true of it
and include all non-zero actions of generators.
-/
namespace Steenrod

open Vec Milnor Growing Presentation

section Operations

variable {p : Prime} {a : Operation} {n : ℕ}

/-- A text that is printed for a basis element of the algebra, and from which it is understood. -/
structure Spells (p : Prime) (text : String) (a : Operation) : Prop where
  isOperationText : Text.IsOperationText text
  shortNameOf : ∀ A : Algebra, A.prime = p → a.degree < A.computed → A.shortNameOf a = .ok text
  reads : ∀ {full input : String} {output : ModuleSum}, Relation.parse full = .ok ⟨text, input, output⟩ → Reads p full ⟨a, input, output, full⟩

theorem shortNameOf_eq {A : Algebra} {x : MilnorElement} (hx : element? A.prime a = some x) (hlt : a.degree < A.computed) :
    A.shortNameOf a = .ok (x.shortName A.prime) := by
  obtain ⟨y, hy, hy'⟩ := A.element_of_isBasis (mem_basis_of_element? hx).1 hlt
  obtain rfl := Option.some.inj (hx.symm.trans hy')
  rw [Algebra.shortNameOf, hy]
  rfl

/-- The first dual generator is tracked if a power is. -/
theorem xiDegrees_ne_nil (hp : p.val < 1073741824) (ht : step p < trackedBelow) : 0 < p.xiDegrees.length := by
  have hstep := step_pos p
  have hbound : placeWeight p 0 < (trackedBelow - 1) / step p + 1 := by
    have hone : placeWeight p 0 = 1 := by simp [placeWeight]
    rw [hone, Nat.lt_succ_iff, Nat.le_div_iff_mul_le hstep]
    omega
  have hget := (weightsBelow hp).getElem?_eq 0 hbound
  obtain ⟨hlt, _⟩ := List.getElem?_eq_some_iff.mp hget
  rwa [weights, List.length_map] at hlt

theorem spells_power (hp : p.val < 1073741824) (hn : 0 < n) (ht : step p * n < trackedBelow) :
    Spells p (Text.powerLetters (!p.isOdd) ++ n.repr) (letter p 0 n) := by
  have htrim : trim [n] = [n] := by simp [trim, hn.ne']
  have helement : element? p (letter p 0 n) = some ⟨0, [n]⟩ := htrim ▸ element?_letter p.bockstein_zero hp
  have hdegree : (letter p 0 n).degree = (step p * n : ℕ) := rfl
  have hstep : step p ≤ step p * n := Nat.le_mul_of_pos_right _ hn
  have hle : n ≤ step p * n := Nat.le_mul_of_pos_left _ (step_pos p)
  have hwords : trackedBelow ≤ maxWord ∧ (trackedBelow : ℤ) ≤ maxSigned := by decide
  refine ⟨Text.isOperationText_of_isName (Text.isName_power _ n), fun A hA hlt => ?_, fun {full input output} hfull => ?_⟩
  · subst hA
    rw [shortNameOf_eq helement hlt, MilnorElement.shortName]
    cases hodd : A.prime.isOdd <;> rfl
  · have hparse : Product.parse (Text.powerLetters (!p.isOdd) ++ n.repr) = .ok ⟨[.power n], !p.isOdd⟩ := Product.parse_power _ (by omega)
    have hx : elementOf? p 0 [.power n] = some ⟨0, [n]⟩ := by rw [elementOf?, htrim]
    have hword := wordDegree?_of_element? hp helement (by omega)
    refine reads_of_parse hp hfull hparse (by simp) hx ?_ hword (index?_of_element? hp helement (by omega))
    have := xiDegrees_ne_nil hp (by omega)
    simp only [List.length_singleton]
    omega

theorem spells_bockstein (hp : p.val < 1073741824) (hodd : p.isOdd) : Spells p "b" (letter p 1 0) := by
  have htracked : 1 < trackedBelow := by decide
  have helement : element? p (letter p 1 0) = some ⟨1, []⟩ := element?_letter (.inr ⟨hodd, rfl⟩) hp
  have hdegree : (letter p 1 0).degree = 1 := by simp [letter]
  have hindex := index?_of_element? hp helement (by omega)
  refine ⟨Text.isOperationText_of_isName (by decide), fun A hA hlt => ?_, fun {full input output} hfull => ?_⟩
  · subst hA
    rw [shortNameOf_eq helement hlt, MilnorElement.shortName, hodd]
    rfl
  · have hparse : Product.parse "b" = .ok ⟨[.exterior 0], false⟩ := by decide
    have hx : elementOf? p 0 [.exterior 0] = some ⟨1, []⟩ := by
      rw [elementOf?, if_pos ⟨hodd, by decide, by decide⟩]
      rfl
    exact reads_of_parse hp hfull hparse (by simp) hx (by simp) (wordDegree?_of_element? hp helement (by omega)) hindex

theorem isBasis_of_isGenerator (hp : p.val < 1073741824) (hgen : IsGenerator p a) : a.IsBasis p := by
  obtain ⟨hodd, rfl⟩ | ⟨v, rfl⟩ := hgen
  · exact isBasis_letter (.inr ⟨hodd, rfl⟩) hp
  · exact isBasis_letter p.bockstein_zero hp

/-- Generators of the algebra are understood from their short names. -/
theorem exists_spells (hp : p.val < 1073741824) (hgen : IsGenerator p a) (ht : a.degree < trackedBelow) : ∃ text, Spells p text a := by
  obtain ⟨hodd, rfl⟩ | ⟨v, rfl⟩ := hgen
  · exact ⟨_, spells_bockstein hp hodd⟩
  · have hdegree : (letter p 0 (p.val ^ v)).degree = (step p * p.val ^ v : ℕ) := rfl
    exact ⟨_, spells_power hp (Nat.pow_pos p.pos) (by omega)⟩

end Operations

section Lists

variable {α β : Type} {R : α → β → Prop} {l : List α}

/-- A list of steps that all answer has a list of answers, one for each of them. -/
theorem Result.exists_mapM_forall₂ {f : α → Result β} (h : ∀ x ∈ l, ∃ y, f x = .ok y ∧ R x y) :
    ∃ ys, l.mapM f = .ok ys ∧ List.Forall₂ R l ys := by
  induction l with
  | nil => exact ⟨[], rfl, .nil⟩
  | cons x l ih =>
    obtain ⟨y, hy, hR⟩ := h x (by simp)
    obtain ⟨ys, hys, hRs⟩ := ih fun z hz => h z (by simp [hz])
    exact ⟨y :: ys, by rw [List.mapM_cons, hy, Result.ok_bind, hys]; rfl, .cons hR hRs⟩

theorem Growing.exists_run_mapM {p : Prime} {f : α → Growing β} {A : Algebra}
    (h : ∀ x ∈ l, ∀ B : Algebra, B.prime = p → ∃ y B', (f x).run B = (.ok y, B') ∧ B'.prime = p ∧ R x y) (hA : A.prime = p) :
    ∃ ys A', (l.mapM f).run A = (.ok ys, A') ∧ A'.prime = p ∧ List.Forall₂ R l ys := by
  induction l generalizing A with
  | nil => exact ⟨[], A, rfl, hA, .nil⟩
  | cons x l ih =>
    obtain ⟨y, B, hy, hB, hR⟩ := h x (by simp) A hA
    obtain ⟨ys, A', hys, hA', hRs⟩ := ih (fun z hz => h z (by simp [hz])) hB
    refine ⟨y :: ys, A', ?_, hA', .cons hR hRs⟩
    rw [List.mapM_cons]
    exact run_bind_eq_ok.mpr ⟨y, B, hy, run_bind_eq_ok.mpr ⟨ys, A', hys, rfl⟩⟩

end Lists

/-- Texts that are read as actions, all of them true of the operators, and with the non-zero ones at some places among them. -/
def Prints {p : Prime} (X : Representation p) (P : Presentation) (S : Operation → ℤ → ℕ → Prop) (texts : List String) : Prop :=
  ∃ actions, List.Forall₂ (Reads p) texts actions ∧ (∀ r ∈ actions, States X P r) ∧
    ∀ a d i, S a d i → X.act a d (Pi.single i 1) ≠ 0 → ∃ r ∈ actions, r.operation = a ∧ P.lookup? r.input = some (d, i)

namespace Prints

variable {p : Prime} {X : Representation p} {P : Presentation} {S T : Operation → ℤ → ℕ → Prop} {texts texts' : List String}

theorem nil (h : ∀ a d i, S a d i → X.act a d (Pi.single i 1) = 0) : Prints X P S [] :=
  ⟨[], .nil, by simp, fun a d i hS hne => absurd (h a d i hS) hne⟩

theorem mono (h : Prints X P S texts) (hle : ∀ a d i, T a d i → S a d i) : Prints X P T texts := by
  obtain ⟨actions, hreads, htrue, hall⟩ := h
  exact ⟨actions, hreads, htrue, fun a d i hT => hall a d i (hle a d i hT)⟩

theorem of_ne_zero (h : Prints X P (fun a d i => S a d i ∧ X.act a d (Pi.single i 1) ≠ 0) texts) : Prints X P S texts := by
  obtain ⟨actions, hreads, htrue, hall⟩ := h
  exact ⟨actions, hreads, htrue, fun a d i hS hne => hall a d i ⟨hS, hne⟩ hne⟩

theorem append (h : Prints X P S texts) (h' : Prints X P T texts') : Prints X P (fun a d i => S a d i ∨ T a d i) (texts ++ texts') := by
  obtain ⟨actions, hreads, htrue, hall⟩ := h
  obtain ⟨actions', hreads', htrue', hall'⟩ := h'
  refine ⟨actions ++ actions', List.rel_append hreads hreads', List.forall_mem_append.mpr ⟨htrue, htrue'⟩, fun a d i hST hne => ?_⟩
  rcases hST with hS | hT
  · obtain ⟨r, hr, hkey⟩ := hall a d i hS hne
    exact ⟨r, List.mem_append_left _ hr, hkey⟩
  · obtain ⟨r, hr, hkey⟩ := hall' a d i hT hne
    exact ⟨r, List.mem_append_right _ hr, hkey⟩

theorem flatten {α : Type} {S : α → Operation → ℤ → ℕ → Prop} {l : List α} {lists : List (List String)}
    (h : List.Forall₂ (fun x => Prints X P (S x)) l lists) : Prints X P (fun a d i => ∃ x ∈ l, S x a d i) lists.flatten := by
  induction h with
  | nil => exact nil (by simp)
  | cons hx _ ih => exact (hx.append ih).mono (by simp)

theorem filterMap {α : Type} {S : α → Operation → ℤ → ℕ → Prop} {l : List α} {options : List (Option String)}
    (h : List.Forall₂ (fun x o => Prints X P (S x) o.toList) l options) :
    Prints X P (fun a d i => ∃ x ∈ l, S x a d i) (options.filterMap id) := by
  have hlists : options.filterMap id = (options.map Option.toList).flatten := by
    rw [← List.flatMap_def, List.filterMap_eq_flatMap_toList]
    rfl
  rw [hlists]
  exact flatten (List.forall₂_map_right_iff.mpr h)

end Prints

namespace FiniteModule

variable {p : Prime} {M : FiniteModule} {P : Presentation} {A : Algebra} {a : Operation} {d : ℤ} {i : ℕ} {v : Vec}

/-- The basis of a module as it has been declared. -/
structure HasBasis (M : FiniteModule) (P : Presentation) : Prop where
  wellNamed : P.WellNamed
  dimension_eq : M.dimension = P.dimension
  names_eq : ∀ d, 0 < P.dimension d → M.names.get? d = some (P.namesIn d)

/-- Basis elements have names, and these are looked up. -/
theorem HasBasis.exists_name (h : M.HasBasis P) (hi : i < M.dimension d) :
    ∃ name, M.nameOf d i = .ok name ∧ Text.isName name = true ∧ P.lookup? name = some (d, i) := by
  rw [h.dimension_eq] at hi
  have hget := List.getElem?_eq_getElem (l := P.namesIn d) (i := i) (by rwa [length_namesIn])
  refine ⟨_, ?_, h.wellNamed.isName (List.mem_of_getElem? hget), h.wellNamed.lookup?_getElem hget⟩
  rw [nameOf, h.names_eq d (Nat.zero_lt_of_lt hi), Option.bind_some, hget, Result.ofOption_some]

/-- An element that is not zero is printed as a sum, and this is the sum of its terms. -/
theorem HasBasis.exists_elementText (h : M.HasBasis P) (hp : p.val < 1073741824) (hv : Proper p (M.dimension d) v) (hne : v.isZero = false)
    (A : Algebra) : ∃ ts : ModuleSum, M.elementText A d v = .ok (" + ".intercalate (ts.map Text.termText)) ∧ ts ≠ [] ∧
      (∀ t ∈ ts, t.1 ≤ maxWord ∧ Text.isName t.2 = true) ∧ (∀ t ∈ ts, ∃ j, P.lookup? t.2 = some (d, j)) ∧
      P.coordsOfSum p ts = v.coords p := by
  choose! name hname hvalid hlookup using fun j (hj : j < M.dimension d) => h.exists_name hj
  have hlt : ∀ x ∈ v.nonzero, x.1 < M.dimension d := fun x hx => hv.size_eq ▸ lt_size_of_mem_nonzero hx
  let ts : ModuleSum := v.nonzero.map fun x => (x.2, name x.1)
  have hts : ts ≠ [] := by
    intro hnil
    have hfirst : v.firstNonzero? = none := by rw [firstNonzero?, List.map_eq_nil_iff.mp hnil, List.head?_nil]
    rw [firstNonzero?_eq_none.mp hfirst] at hne
    cases hne
  have hterms : ∀ t ∈ ts, t.1 ≤ maxWord ∧ Text.isName t.2 = true := by
    intro t ht
    obtain ⟨x, hx, rfl⟩ := List.mem_map.mp ht
    refine ⟨?_, hvalid _ (hlt x hx)⟩
    have hreduced := reduced_iff.mp hv.reduced x.1
    rw [(mem_nonzero.mp hx).1] at hreduced
    exact (hreduced.trans hp).le.trans (by decide)
  refine ⟨ts, ?_, hts, hterms, fun t ht => ?_, ?_⟩
  · have hmap : v.nonzero.mapM (fun x => do
        let name ← M.nameOf d x.1
        (Except.ok (if x.2 = 1 then name else s!"{x.2} {name}") : Result String)) = .ok (v.nonzero.map fun x => Text.termText (x.2, name x.1)) :=
      Result.mapM_eq_ok fun x hx => by
        rw [hname _ (hlt x hx)]
        rfl
    have hempty : (" + ".intercalate (ts.map Text.termText)).isEmpty = false := by
      obtain ⟨t, us, hcons⟩ := List.exists_cons_of_ne_nil hts
      obtain ⟨c, hc, _⟩ := Text.exists_mem_termText (hterms t (by rw [hcons]; simp)).2
      rw [String.isEmpty_eq_false_iff]
      intro hnil
      have hlist := Text.toList_intercalate_cons " + " Text.termText t us
      rw [← hcons, hnil] at hlist
      exact List.append_ne_nil_of_left_ne_nil (List.ne_nil_of_mem hc) _ hlist.symm
    rw [elementText, GradedModule.elementText]
    refine Result.bind_eq_ok.mpr ⟨_, hmap, ?_⟩
    rw [List.map_map] at hempty
    change Except.ok (if (" + ".intercalate (v.nonzero.map (Text.termText ∘ fun x => (x.2, name x.1)))).isEmpty then "0"
      else " + ".intercalate (v.nonzero.map (Text.termText ∘ fun x => (x.2, name x.1)))) = _
    rw [hempty, List.map_map]
    rfl
  · obtain ⟨x, hx, rfl⟩ := List.mem_map.mp ht
    exact ⟨x.1, hlookup _ (hlt x hx)⟩
  · have hsum := sum_nonzero (p := p) (fun j => Pi.single j (1 : p.Field)) v
    rw [hv.size_eq, combine_units hv.coords_mem] at hsum
    rw [Presentation.coordsOfSum, List.map_map, ← hsum]
    refine congrArg List.sum (List.map_congr_left fun x hx => ?_)
    rw [Function.comp_apply, hlookup _ (hlt x hx)]
    rfl

/-- The text of the action of one operation on one basis element, unless that is zero. -/
def actionText? (A : Algebra) (M : FiniteModule) (input output : ℤ) (k i : ℕ) : Result (Option String) := do
  let a : Operation := ⟨output - input, k⟩
  let v ← Result.ofOption (M.action? a input i)
  if v.isZero then .ok none
  else do
    let operation ← A.shortNameOf a
    let name ← M.nameOf input i
    let value ← M.elementText A output v
    .ok (some s!"{operation} {name} = {value}")

/-- The texts of the actions of generators from one degree to another. -/
def textsBetween (M : FiniteModule) (input output : ℤ) : Growing (List String) := do
  if M.dimension output = 0 then pure []
  else
    let generators ← Growing.generators (output - input)
    Growing.read fun A => do
      let texts ← generators.mapM fun k => (List.range (M.dimension input)).mapM (actionText? A M input output k)
      .ok (texts.flatten.filterMap id)

theorem actionTexts_eq (M : FiniteModule) : M.actionTexts = (do
    let texts ← (GradedModule.degreesBetween M.minDegree M.maxDegree).mapM fun input =>
      (GradedModule.degreesBetween (input + 1) M.maxDegree).mapM (M.textsBetween input)
    pure texts.flatten.flatten) := rfl

section Relations

variable {input output : ℤ} {k : ℕ} (hp : p.val < 1073741824) (h : M.HasBasis P) (hM : M.Stores p) (hlt : input < output)
  (ht : output - input < trackedBelow)

include hp h hM hlt ht

/-- The text of the action of a generator is read as that action. -/
theorem exists_actionText (hA : A.prime = p) (hcomputed : output - input < A.computed) (ha : Operation.IsBasis p ⟨output - input, k⟩)
    (hgen : IsGenerator p ⟨output - input, k⟩) (hi : i < M.dimension input) (hroom : 0 < M.dimension output) :
    ∃ text, actionText? A M input output k i = .ok text ∧
      Prints (M.rep p) P (fun a d j => a = ⟨output - input, k⟩ ∧ d = input ∧ j = i) text.toList := by
  have htarget : input + (output - input) = output := by omega
  obtain ⟨v, hv, hvp⟩ := hM ha (by simp only; omega) hi (by simp only; rwa [htarget])
  have hact : (M.rep p).act ⟨output - input, k⟩ input (Pi.single i 1) = v.coords p := by
    rw [rep_act_single _ _ _ hi, stored, if_neg (by simp only; rw [htarget]; omega), if_neg (by simp only; omega), hv, Option.getD_some]
  simp only [htarget] at hvp
  rw [actionText?, hv, Result.ofOption_some, Result.ok_bind]
  cases hzero : v.isZero with
  | true =>
    refine ⟨none, rfl, Prints.nil ?_⟩
    rintro a d j ⟨rfl, rfl, rfl⟩
    rw [hact, (isZero_iff hvp.reduced).mp hzero]
  | false =>
    obtain ⟨operation, hspells⟩ := exists_spells hp hgen ht
    obtain ⟨name, hname, hvalid, hlookup⟩ := h.exists_name hi
    obtain ⟨ts, hvalue, hne, hts, houtput, hcoords⟩ := h.exists_elementText hp hvp hzero A
    have hparse := Relation.parse_printed hspells.isOperationText hvalid hne hts
    refine ⟨some (operation ++ " " ++ name ++ " = " ++ " + ".intercalate (ts.map Text.termText)), ?_,
      [⟨⟨output - input, k⟩, name, ts, _⟩], .cons (hspells.reads hparse) .nil, List.forall_mem_singleton.mpr ⟨ha, input, i, hlookup, ?_, ?_⟩, ?_⟩
    · rw [hspells.shortNameOf A hA hcomputed, hname, hvalue]
      rfl
    · simp only
      rwa [htarget]
    · rw [hact]
      exact hcoords
    · rintro a d j ⟨rfl, rfl, rfl⟩ _
      exact ⟨_, List.mem_singleton_self _, rfl, hlookup⟩

theorem exists_textsBetween (hA : A.prime = p) :
    ∃ texts A', (M.textsBetween input output).run A = (.ok texts, A') ∧ A'.prime = p ∧
      Prints (M.rep p) P (fun a d i => a.IsBasis p ∧ IsGenerator p a ∧ d = input ∧ a.degree = output - input ∧ i < M.dimension d) texts := by
  have htarget : input + (output - input) = output := by omega
  rw [textsBetween]
  by_cases hroom : M.dimension output = 0
  · rw [if_pos hroom]
    refine ⟨[], A, rfl, hA, Prints.nil ?_⟩
    rintro a d i ⟨_, _, rfl, hdegree, _⟩
    rw [rep_act_eq_zero (by rw [hdegree, htarget, hroom])]
    rfl
  · rw [if_neg hroom]
    subst hA
    obtain ⟨ks, hks, hmem⟩ := run_generators hp (d := output - input) (by omega) ht
    have hprime := A.prime_extend (output - input)
    have hcomputed : output - input < (A.extend (output - input)).computed := by
      rw [A.computed_extend]
      split <;> omega
    generalize A.extend (output - input) = B at hks hprime hcomputed
    obtain ⟨lists, hlists, hprints⟩ := Result.exists_mapM_forall₂ (l := ks)
      (f := fun k => (List.range (M.dimension input)).mapM (actionText? B M input output k))
      (R := fun k texts => Prints (M.rep A.prime) P (fun a d i => a = ⟨output - input, k⟩ ∧ d = input ∧ i < M.dimension d) (texts.filterMap id))
      fun k hk => by
        have hgen := (hmem k).mp hk
        obtain ⟨texts, htexts, hprints⟩ := Result.exists_mapM_forall₂ (l := List.range (M.dimension input)) fun i hi =>
          exists_actionText hp h hM hlt ht hprime hcomputed (isBasis_of_isGenerator hp hgen) hgen (List.mem_range.mp hi)
            (Nat.pos_of_ne_zero hroom)
        exact ⟨texts, htexts, (Prints.filterMap hprints).mono fun a d i ⟨ha, hd, hi⟩ => ⟨i, List.mem_range.mpr (hd ▸ hi), ha, hd, rfl⟩⟩
    refine ⟨lists.flatten.filterMap id, B, run_bind_eq_ok.mpr ⟨ks, B, hks, run_read_eq_ok.mpr ⟨Result.bind_eq_ok.mpr ⟨lists, hlists, rfl⟩, rfl⟩⟩,
      hprime, ?_⟩
    rw [List.filterMap_flatten]
    refine (Prints.flatten (List.forall₂_map_right_iff.mpr hprints)).mono ?_
    rintro a d i ⟨ha, hgen, rfl, hdegree, hi⟩
    obtain ⟨e, k⟩ := a
    obtain rfl : e = output - d := hdegree
    exact ⟨k, (hmem k).mpr hgen, rfl, rfl, hi⟩

end Relations

/-- All non-zero actions of generators are printed, and nothing that is not true. -/
theorem exists_actionTexts (hp : p.val < 1073741824) (h : M.HasBasis P) (hM : M.Stores p) (hrange : M.maxDegree - M.minDegree < trackedBelow)
    (hA : A.prime = p) : ∃ texts A', M.actionTexts.run A = (.ok texts, A') ∧ A'.prime = p ∧
      Prints (M.rep p) P (fun a d i => a.IsBasis p ∧ IsGenerator p a ∧ i < M.dimension d) texts := by
  obtain ⟨lists, A', hlists, hA', hprints⟩ := exists_run_mapM (l := GradedModule.degreesBetween M.minDegree M.maxDegree)
    (f := fun input => (GradedModule.degreesBetween (input + 1) M.maxDegree).mapM (M.textsBetween input))
    (R := fun input texts => Prints (M.rep p) P (fun a d i => ∃ output ∈ GradedModule.degreesBetween (input + 1) M.maxDegree,
      a.IsBasis p ∧ IsGenerator p a ∧ d = input ∧ a.degree = output - input ∧ i < M.dimension d) texts.flatten)
    (fun input hinput B hB => by
      have hlow := GradedModule.mem_degreesBetween.mp hinput
      obtain ⟨texts, B', htexts, hB', hprints⟩ := exists_run_mapM (l := GradedModule.degreesBetween (input + 1) M.maxDegree)
        (fun output houtput C hC => by
          have hhigh := GradedModule.mem_degreesBetween.mp houtput
          have hlt : input < output := by omega
          have ht : output - input < trackedBelow := by omega
          exact exists_textsBetween hp h hM hlt ht hC) hB
      exact ⟨texts, B', htexts, hB', Prints.flatten hprints⟩) hA
  refine ⟨lists.flatten.flatten, A', ?_, hA', ?_⟩
  · rw [actionTexts_eq]
    exact run_bind_eq_ok.mpr ⟨lists, A', hlists, rfl⟩
  · have hflat : lists.flatten.flatten = (lists.map List.flatten).flatten := List.flatten_flatten
    rw [hflat]
    refine Prints.of_ne_zero ((Prints.flatten (List.forall₂_map_right_iff.mpr hprints)).mono ?_)
    rintro a d i ⟨⟨ha, hgen, hi⟩, hne⟩
    have hroom : 0 < M.dimension (d + a.degree) := by
      refine Nat.pos_of_ne_zero fun hzero => hne ?_
      rw [rep_act_eq_zero hzero]
      rfl
    have hpos := degree_pos_of_isGenerator hgen
    obtain ⟨hlow, hhigh⟩ := degrees_of_lt_dimension hi
    obtain ⟨_, hhigh'⟩ := degrees_of_lt_dimension hroom
    exact ⟨d, GradedModule.mem_degreesBetween.mpr ⟨hlow, hhigh⟩, d + a.degree, GradedModule.mem_degreesBetween.mpr ⟨by omega, hhigh'⟩, ha, hgen,
      rfl, by omega, hi⟩

end FiniteModule
end Steenrod
