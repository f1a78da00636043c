import Steenrod.Proofs.Module.Entries
import Steenrod.Proofs.Module.Printed
/-!
Finite modules as documents. Main statement: the document that is printed of a module which the builder made is read back as that module,
with the same dimensions, the same names in the same order, and the same action of the algebra.
-/
namespace Steenrod

open Milnor Growing

namespace Json

variable {members acc : List (String × Json)}

/-- Members of distinct keys make up an object as they are. -/
theorem collect_of_nodup (h : (members.map Prod.fst).Nodup) : collect members = obj members := by
  have hfold : ∀ (l acc : List (String × Json)), ((acc ++ l).map Prod.fst).Nodup →
      l.foldl (fun acc m => put acc m.1 m.2) acc = acc ++ l := by
    intro l
    induction l with
    | nil => exact fun acc _ => (List.append_nil acc).symm
    | cons m l ih =>
      intro acc hnodup
      obtain ⟨k, v⟩ := m
      have hnew : acc.any (·.1 == k) = false := by
        rw [List.any_eq_false]
        intro x hx heq
        rw [List.map_append, List.map_cons] at hnodup
        refine (List.nodup_append.mp hnodup).2.2 x.1 (List.mem_map_of_mem hx) k List.mem_cons_self ?_
        simpa using heq
      have hput : put acc k v = acc ++ [(k, v)] := by rw [put, hnew]; rfl
      rw [List.foldl_cons]
      simp only
      rw [hput, ih _ (by rwa [List.append_assoc]), List.append_assoc]
      rfl
  exact congrArg obj (hfold members [] h)

end Json

namespace FiniteModule

variable {p : Prime} {name : String} {gens : List (ℤ × String)} {texts : List String} {A : Algebra}

/-- The document that says of a module what its generators are and how the algebra acts on them. -/
def document (name : String) (p : Prime) (gens : List (ℤ × String)) (texts : List String) : Json :=
  .obj [("type", .str "finite dimensional module"), ("name", .str name), ("p", .ofNat p.val),
    ("gens", .obj (gens.map fun g => (g.2, .int g.1))), ("actions", .arr (texts.map .str))]

theorem ofJson?_document (hp : p.val < 1073741824) :
    ModuleDocument.ofJson? (document name p gens texts) = some ⟨some name, some p.val, gens.map fun g => (g.2, .int g.1), texts⟩ := by
  have hword : (Json.ofNat p.val).word? = some p.val := by
    rw [Json.word?, Json.ofNat, Json.integerIn?, if_pos ⟨Int.natCast_nonneg _, by unfold maxWord; omega⟩]
    rfl
  have htexts : (texts.map Json.str).mapM Json.string? = some texts := by
    induction texts with
    | nil => rfl
    | cons text texts ih =>
      rw [List.map_cons, List.mapM_cons, ih]
      rfl
  have hp : ModuleDocument.field? (some none) (Json.optional? Json.word?) (some (.ofNat p.val)) = some (some p.val) := by
    rw [ModuleDocument.field?, Json.ofNat, Json.optional?, ← Json.ofNat, hword]
    · rfl
    · simp
  have hactions : ModuleDocument.field? (some []) ModuleDocument.actions? (some (.arr (texts.map .str))) = some texts := htexts
  change ModuleDocument.ofFields? (some (.str name)) (some (.ofNat p.val)) (some (.obj (gens.map fun g => (g.2, .int g.1))))
    (some (.arr (texts.map .str))) = _
  rw [ModuleDocument.ofFields?, hp, hactions]
  rfl

/-- The same steps on lists that list the same. -/
theorem foldlM_map_congr {α β γ δ : Type} {m : Type → Type} [Monad m] [LawfulMonad m] {f : δ → α → m δ} {g : δ → β → m δ} {h : γ → α}
    {k : γ → β} {l : List γ} (hstep : ∀ c ∈ l, ∀ s, f s (h c) = g s (k c)) (s : δ) : (l.map h).foldlM f s = (l.map k).foldlM g s := by
  induction l generalizing s with
  | nil => rfl
  | cons c l ih =>
    rw [List.map_cons, List.map_cons, List.foldlM_cons, List.foldlM_cons, hstep c (by simp)]
    exact bind_congr fun s => ih (fun c hc => hstep c (by simp [hc])) s

/-- A document presents a module as the builder is told of it. -/
theorem run_ofJson_document (hp : p.val < 1073741824) (hA : A.prime = p) (hsigned : ∀ g ∈ gens, isSigned g.1 = true) :
    (ofJson (document name p gens texts)).run A = (Presentation.buildFrom name (gens.map Prod.swap) texts).run A := by
  have hword : ∀ g ∈ gens, (Json.int g.1).signedWord? = some g.1 := by
    intro g hg
    have h := hsigned g hg
    simp only [isSigned, Bool.and_eq_true, decide_eq_true_eq] at h
    exact if_pos ⟨by unfold maxSigned; omega, h.2⟩
  subst hA
  rw [ofJson, ofJson?_document hp]
  simp only
  rw [run_bind, run_get]
  simp only [ne_eq, not_true_eq_false, if_false]
  rw [Presentation.buildFrom]
  refine congrArg (fun x : Growing Presentation => (x >>= fun P => texts.foldlM Presentation.addAction P >>= Presentation.build).run A) ?_
  refine foldlM_map_congr (fun g hg P => ?_) _
  simp only [hword g hg]
  rfl

/-- What is printed of a module with a declared basis. -/
theorem run_toJson {M : FiniteModule} {P : Presentation} {A' : Algebra} (h : P.WellNamed) (hnames : M.names = (P.start p).names)
    (hactions : M.actionTexts.run A = (.ok texts, A')) (hA' : A'.prime = p) :
    M.toJson.run A = (.ok (document M.name p P.ordered texts), A') := by
  have hmembers : ((GradedModule.degreesBetween P.minDegree P.maxDegree).flatMap fun d => (P.namesIn d).map fun n => (n, Json.int d)) =
      P.ordered.map fun g => (g.2, Json.int g.1) := by
    rw [Presentation.ordered, List.map_flatMap]
    refine List.flatMap_congr fun d _ => ?_
    rw [Presentation.namesIn, List.map_map]
    refine List.map_congr_left fun g hg => ?_
    obtain rfl : g.1 = d := by simpa using List.of_mem_filter hg
    rfl
  have hkeys : ((P.ordered.map fun g => (g.2, Json.int g.1)).map Prod.fst).Nodup := by
    rw [List.map_map]
    exact (P.ordered_perm.map Prod.snd).nodup_iff.mpr h.distinct
  refine run_bind_eq_ok.mpr ⟨texts, A', hactions, ?_⟩
  rw [run_bind, run_get]
  simp only
  rw [hnames, Presentation.pairs_names_start, List.flatMap_map]
  simp only
  rw [hmembers, Json.collect_of_nodup hkeys, hA']
  rfl

end FiniteModule

namespace Presentation

open FiniteModule

variable {P P' : Presentation} {M : FiniteModule} {A A' : Algebra} {gens : List (String × ℤ)} {texts : List String} {name : String}

theorem WellNamed.addGenerator (h : P.WellNamed) {d : ℤ} (hadd : P.addGenerator d name = .ok P') :
    P'.WellNamed ∧ P' = { P with generators := P.generators ++ [(d, name)] } := by
  unfold Presentation.addGenerator at hadd
  split at hadd
  · cases hadd
  · next hvalid =>
    split at hadd
    · cases hadd
    · next hnew =>
      obtain rfl := Except.ok.inj hadd
      refine ⟨⟨List.forall_mem_append.mpr ⟨h.valid, List.forall_mem_singleton.mpr (by simpa using hvalid)⟩, ?_⟩, rfl⟩
      rw [List.map_append, List.nodup_append]
      refine ⟨h.distinct, List.nodup_singleton _, fun n hn n' hn' heq => hnew ?_⟩
      obtain ⟨g, hg, rfl⟩ := List.mem_map.mp hn
      obtain rfl : n' = name := by simpa using hn'
      exact List.any_eq_true.mpr ⟨g, hg, by simpa using heq⟩

/-- Declared generators have distinct valid names, and are those that were asked for. -/
theorem of_run_addGenerators (h : P.WellNamed)
    (hrun : (gens.foldlM (fun P (name, d) => Growing.read fun _ => P.addGenerator d name) P : Growing Presentation).run A = (.ok P', A')) :
    P'.WellNamed ∧ P' = { P with generators := P.generators ++ gens.map Prod.swap } ∧ A' = A := by
  induction gens generalizing P with
  | nil =>
    obtain ⟨hP, rfl⟩ := Prod.mk.inj hrun
    obtain rfl := Except.ok.inj hP
    exact ⟨h, by rw [List.map_nil, List.append_nil], rfl⟩
  | cons g gens ih =>
    rw [List.foldlM_cons] at hrun
    obtain ⟨P₁, B, hadd, hrun⟩ := run_bind_eq_ok.mp hrun
    obtain ⟨hg, rfl⟩ := run_read_eq_ok.mp hadd
    obtain ⟨hP₁, rfl⟩ := h.addGenerator hg
    obtain ⟨hP', hgenerators, hA⟩ := ih hP₁ hrun
    refine ⟨hP', ?_, hA⟩
    rw [hgenerators, List.map_cons]
    simp only
    rw [List.append_assoc]
    rfl

/-- Declaring relations leaves the generators as they are. -/
theorem of_run_addActions (hrun : (texts.foldlM addAction P).run A = (.ok P', A')) :
    P'.name = P.name ∧ P'.generators = P.generators ∧ Follows A A' := by
  induction texts generalizing P A with
  | nil =>
    obtain ⟨hP, rfl⟩ := Prod.mk.inj hrun
    obtain rfl := Except.ok.inj hP
    exact ⟨rfl, rfl, Follows.refl A⟩
  | cons text texts ih =>
    rw [List.foldlM_cons] at hrun
    obtain ⟨P₁, B, hadd, hrun⟩ := run_bind_eq_ok.mp hrun
    obtain ⟨hname, hgenerators, hfollows⟩ := ih hrun
    rw [addAction] at hadd
    split at hadd
    · cases hadd
    · next relation _ =>
      obtain ⟨a, C, hnamed, hadd⟩ := run_bind_eq_ok.mp hadd
      have hfollows' := (onlyExtends_elementNamed relation.operation).follows hnamed
      cases a with
      | none => cases hadd
      | some a =>
        obtain ⟨hP₁, rfl⟩ := Prod.mk.inj hadd
        obtain rfl := Except.ok.inj hP₁
        exact ⟨hname, hgenerators, hfollows'.trans hfollows⟩

theorem of_run_buildFrom (h : (buildFrom name gens texts).run A = (.ok M, A')) :
    ∃ (P : Presentation) (B : Algebra), P.WellNamed ∧ P.name = name ∧ P.generators = gens.map Prod.swap ∧ B.prime = A.prime ∧ B.cap = A.cap ∧
      P.build.run B = (.ok M, A') := by
  obtain ⟨P₁, B, hgens, h⟩ := run_bind_eq_ok.mp h
  obtain ⟨P, C, hactions, hbuild⟩ := run_bind_eq_ok.mp h
  obtain ⟨hnamed, rfl, rfl⟩ := of_run_addGenerators (P := empty name) ⟨fun g hg => absurd hg List.not_mem_nil, List.nodup_nil⟩ hgens
  obtain ⟨hname, hgenerators, hfollows⟩ := of_run_addActions hactions
  have hgenerators : P.generators = gens.map Prod.swap := hgenerators
  exact ⟨P, C, ⟨by rw [hgenerators]; exact hnamed.valid, by rw [hgenerators]; exact hnamed.distinct⟩, hname, hgenerators,
    hfollows.prime_eq.symm, hfollows.cap_eq.symm, hbuild⟩

/-- The degrees of what has been built lie in those of the generators. -/
theorem exists_generator {d : ℤ} (hd : 0 < P.dimension d) : ∃ g ∈ P.generators, g.1 = d := by
  obtain ⟨g, hg⟩ := List.exists_mem_of_length_pos hd
  exact ⟨g, List.mem_of_mem_filter hg, by simpa using List.of_mem_filter hg⟩

/-- The cap admits what it admitted before. -/
theorem le_cap_of_run_ensure {d : ℤ} (h : (ensure d).run A = (.ok (), A')) : ∀ cap ∈ A.cap, d ≤ cap := by
  intro cap hcap
  rw [ensure, run_bind, run_get] at h
  simp only at h
  rw [hcap] at h
  simp only at h
  split at h
  · cases h
  · next hle => exact not_lt.mp hle

/-- What has been built has the declared basis, also if that is listed degree by degree. -/
theorem hasBasis_of_run_build (h : P.WellNamed) (hrun : P.build.run A = (.ok M, A')) (actions : List Action) :
    M.HasBasis ⟨P.name, P.ordered, actions⟩ := by
  have hentered := entered_of_run_build hrun
  have hfilter := P.filter_ordered
  have hordered : (⟨P.name, P.ordered, actions⟩ : Presentation).dimension = P.dimension := funext fun d => congrArg List.length (hfilter d)
  refine ⟨h.of_ordered rfl, (hentered.dimension_eq.trans (dimension_start A.prime P)).trans hordered.symm, fun d hd => ?_⟩
  rw [hentered.names_eq, get?_names_start A.prime P (by rwa [← hordered]), namesIn, namesIn, hfilter]

theorem degrees_of_run_build (hrun : P.build.run A = (.ok M, A')) : M.minDegree = P.minDegree ∧ M.maxDegree = P.maxDegree := by
  have hentered := entered_of_run_build hrun
  rw [FiniteModule.minDegree, FiniteModule.maxDegree, hentered.dims_eq]
  exact ⟨rfl, maxDegree_start A.prime P⟩

/-- Degrees that are close to each other span a short range. -/
theorem width_lt {n : ℤ} (hpos : 0 < n) (h : ∀ g ∈ P.generators, ∀ g' ∈ P.generators, g.1 - g'.1 < n) : P.maxDegree - P.minDegree < n := by
  rcases P.degrees_eq with ⟨hmin, hmax⟩ | ⟨hmin, hmax⟩
  · omega
  · obtain ⟨g, hg, hgmin⟩ := exists_generator hmin
    obtain ⟨g', hg', hgmax⟩ := exists_generator hmax
    have := h g' hg' g hg
    omega

theorem isSigned_succ (hwords : (isSigned (P.maxDegree + 1) && isSigned (P.maxDegree + 1 - P.minDegree)) = true)
    (hsigned : ∀ g ∈ P.generators, isSigned g.1 = true) {d : ℤ} (hd : P.dimension d ≠ 0) : isSigned (d + 1) = true := by
  obtain ⟨g, hg, rfl⟩ := exists_generator (Nat.pos_of_ne_zero hd)
  have hlow := hsigned g hg
  have hhigh := (degree_mem hg).2
  simp only [isSigned, Bool.and_eq_true, decide_eq_true_eq] at hwords hlow ⊢
  omega

/-- What has been built is printed as a document that is read back as it. -/
theorem exists_document {C D : Algebra} (hp : A.prime.val < 1073741824) (hnamed : P.WellNamed) (hrun : P.build.run A = (.ok M, A'))
    (hsigned : ∀ g ∈ P.generators, isSigned g.1 = true) (hrange : P.maxDegree - P.minDegree < trackedBelow) (hC : C.prime = A.prime)
    (hD : D.prime = A.prime) (hcap : D.cap = A.cap) :
    ∃ j C' D', M.toJson.run C = (.ok j, C') ∧ (ofJson j).run D = (.ok M, D') := by
  obtain ⟨declared, sorted, hsteps⟩ := steps_of_run_build hrun
  have hclosed := closed_of_run_build hp hrun
  have hentered := entered_of_run_build hrun
  obtain ⟨hmin, hmax⟩ := degrees_of_run_build hrun
  have hdim : M.dimension = P.dimension := hentered.dimension_eq.trans (dimension_start A.prime P)
  obtain ⟨texts, C', htexts, hC', actions, hreads, htrue, hall⟩ :=
    exists_actionTexts hp (hasBasis_of_run_build hnamed hrun []) hclosed.stores (by omega) hC
  have hjson := run_toJson hnamed hentered.names_eq htexts hC'
  rw [hentered.name_eq] at hjson
  -- The relations that are printed present a module on the same basis, and it is the same one.
  let P' : Presentation := ⟨P.name, P.ordered, actions⟩
  have hbasis : M.HasBasis P' := hasBasis_of_run_build hnamed hrun actions
  have hcap : ∀ cap ∈ D.cap, P'.maxDegree - P'.minDegree ≤ cap := by
    obtain ⟨hlow, hhigh⟩ := degrees_congr (hbasis.dimension_eq.symm.trans hdim)
    obtain ⟨B, hB⟩ := hsteps.ensures
    rw [hlow, hhigh, hcap]
    exact le_cap_of_run_ensure hB
  obtain ⟨N, B, D', hread, hB, hN, hmatches⟩ := exists_run_buildFrom (P := P') hp hD hcap (hclosed.isFiniteModule hp) (by omega)
    (fun d hd => isSigned_succ hsteps.words hsigned (by rwa [← hdim])) hbasis.dimension_eq.symm hbasis.wellNamed.valid
    hbasis.wellNamed.distinct hreads (fun r hr => ⟨(htrue r hr).isBasis, (htrue r hr).exists_input⟩)
    (fun a d i ha hgen hi hne => hall a d i ⟨ha, hgen, hi⟩ hne)
  have heq : M = N := eq_of_run_build hp hrun hN hB (start_congr rfl P.filter_ordered) fun a d i ha hi => by
    have hi : i < M.dimension d := by rwa [hdim]
    rw [← rep_act_single _ _ _ hi, hmatches.visited a d ha List.not_mem_nil i (by rwa [hmatches.dim_eq])]
  refine ⟨_, C', D', hjson, ?_⟩
  rw [heq]
  exact (run_ofJson_document hp hD fun g hg => hsigned g (P.ordered_perm.mem_iff.mp hg)).trans hread

/-- The document that is printed of a module which the builder made is read back as that module. -/
theorem ofJson_toJson {A₁ C D : Algebra} (hp : A.prime.val < 2 ^ 30) (hbuild : (buildFrom name gens texts).run A = (.ok M, A₁))
    (hsigned : ∀ g ∈ gens, isSigned g.2 = true) (hrange : ∀ g ∈ gens, ∀ h ∈ gens, g.2 - h.2 < 2 ^ 25 - 1) (hC : C.prime = A.prime)
    (hD : D.prime = A.prime) (hcap : D.cap = A.cap) :
    ∃ j C' D', M.toJson.run C = (.ok j, C') ∧ (ofJson j).run D = (.ok M, D') := by
  obtain ⟨P, B, hnamed, rfl, hgens, hB, hBcap, hrun⟩ := of_run_buildFrom hbuild
  have hmem : ∀ g ∈ P.generators, ∃ x ∈ gens, x.2 = g.1 := by
    rw [hgens]
    intro g hg
    obtain ⟨x, hx, rfl⟩ := List.mem_map.mp hg
    exact ⟨x, hx, rfl⟩
  refine exists_document (hB ▸ hp) hnamed hrun (fun g hg => ?_) (width_lt (by decide) fun g hg g' hg' => ?_) (hC.trans hB.symm)
    (hD.trans hB.symm) (hcap.trans hBcap.symm)
  · obtain ⟨x, hx, hxg⟩ := hmem g hg
    exact hxg ▸ hsigned x hx
  · obtain ⟨x, hx, hxg⟩ := hmem g hg
    obtain ⟨y, hy, hyg⟩ := hmem g' hg'
    exact hxg ▸ hyg ▸ hrange x hx y hy

/-- Three cells in degrees that are partly negative and not declared in order, with a gap. -/
theorem ofJson_toJson_threeCells :
    ∃ M A₁, (buildFrom "Q" [("z", 1), ("x", -2), ("y", -1)] ["Sq1 x = y", "Sq2 y = z"]).run (Algebra.new Prime.two none) = (.ok M, A₁) ∧
      M.dimension (-2) = 1 ∧ ∃ j C' D', M.toJson.run A₁ = (.ok j, C') ∧ (ofJson j).run (Algebra.new Prime.two none) = (.ok M, D') := by
  have hbuild : (match (buildFrom "Q" [("z", 1), ("x", -2), ("y", -1)] ["Sq1 x = y", "Sq2 y = z"]).run (Algebra.new Prime.two none) with
      | (.ok M, A₁) => decide (M.dimension (-2) = 1 ∧ A₁.prime = Prime.two)
      | (.error _, _) => false) = true := by decide +kernel
  split at hbuild
  · next M A₁ hrun =>
    obtain ⟨hdim, hprime⟩ := of_decide_eq_true hbuild
    exact ⟨M, A₁, hrun, hdim, ofJson_toJson (by decide) hrun (by decide) (by decide) hprime rfl rfl⟩
  · cases hbuild

end Presentation
end Steenrod
