import Steenrod.Proofs.Session.Assembled
/-!
Cutting off modules of workspaces that are put together. Main statements: where words suffice, a module can be cut off at every degree;
cutting off in two steps is cutting off at once, however far tables are computed; what is left is the module in the degrees that are left;
and a finite module that is cut off at or above its top degree is the same.
-/
namespace Steenrod

open Milnor Growing FiniteModule
open Session (ownAlgebra)

/-- Cut off a module, and look at what that makes. -/
def Session.truncated (as name : String) (top : ℤ) : Session FiniteModule := do
  let _ ← truncate as name top
  let made ← finiteModule as
  pure made.2

namespace Workspace

variable {p : Prime} {X : Wholes} {w w' : Workspace} {q : ℕ} {a b cut d m : ℤ} {A : Algebra} {K : FiniteModule} {as name : String}

theorem isSigned_iff : isSigned d = true ↔ -2147483648 ≤ d ∧ d ≤ 2147483647 := by
  rw [isSigned, maxSigned, Bool.and_eq_true, decide_eq_true_eq, decide_eq_true_eq]

/-- What fits where something was there, fits where it still is. -/
theorem Fits.of_found {low : ℕ → ℤ} {place : ℕ} (h : w.Fits low place d)
    (hsame : ∀ s node, w.modules.get? s = some node → w'.modules.get? s = some node) : w'.Fits low place d := by
  induction h with
  | intro hnode hsigned _ ih => exact .intro (hsame _ _ hnode) hsigned ih

/-- Finite modules are the same, whatever is computed. -/
theorem Alike.get?_finite (h : Alike w w') {s k : ℕ} {M : FiniteModule} (hs : w.modules.get? s = some ⟨k, .finite M⟩) :
    w'.modules.get? s = some ⟨k, .finite M⟩ := by
  have hsame := h.modules s
  rw [hs] at hsame
  cases hget : w'.modules.get? s with
  | none =>
    rw [hget] at hsame
    cases hsame
  | some node =>
    rw [hget] at hsame
    obtain ⟨hk, hshape⟩ := Option.rel_some_some.mp hsame
    obtain ⟨k', shape⟩ := node
    cases shape <;> simp_all [Shape.Alike]

/-- From `w` to `w'` nothing has changed but what is computed, and that the module at place `q`, cut off at degree `cut`, has been put on the
shelf as `K` under a name. -/
structure Cuts (p : Prime) (X : Wholes) (w : Workspace) (q : ℕ) (as : String) (cut : ℤ) (K : FiniteModule) (w' : Workspace) : Prop where
  isPart : IsPart p (X q).1 cut K
  genuine : K.Genuine p
  stands : w'.Stands p (X.put w.modules.entries.size (K, K.maxDegree))
  holds : w'.Holds p ownAlgebra (X.put w.modules.entries.size (K, K.maxDegree)) q cut
  size : w'.modules.entries.size = w.modules.entries.size + 1
  found : w'.modules.find? as = some w.modules.entries.size
  others : ∀ other, other ≠ as → w'.modules.find? other = w.modules.find? other
  node : w'.modules.get? w.modules.entries.size = some ⟨ownAlgebra, .finite K⟩
  finites : ∀ s M, w.modules.get? s = some ⟨ownAlgebra, .finite M⟩ → w'.modules.get? s = some ⟨ownAlgebra, .finite M⟩
  fits : ∀ low place d, w.Fits low place d → w'.Fits low place d

/-- What is known of a workspace after tables have been computed is known of it as it was before. -/
theorem Cuts.of_grows {v : Workspace} (h : Cuts p X v q as cut K w') (hgrows : Grows p ownAlgebra X (q + 1) w v) (halike : Alike w v) :
    Cuts p X w q as cut K w' where
  isPart := h.isPart
  genuine := h.genuine
  stands := hgrows.size ▸ h.stands
  holds := hgrows.size ▸ h.holds
  size := hgrows.size ▸ h.size
  found := hgrows.size ▸ h.found
  others other hother := by rw [h.others other hother, Shelf.find?, hgrows.names, Shelf.find?]
  node := hgrows.size ▸ h.node
  finites s M hs := h.finites s M (halike.get?_finite hs)
  fits low place d hfits := h.fits low place d (hfits.alike halike)

namespace Stands

/-- Where words suffice, the part of a module through a degree is made. -/
theorem exists_run_cutOff (h : w.Stands p X) (hp : p.val < 1073741824) (as : String) (hq : q < w.modules.entries.size)
    (hcut : cut ≤ (X q).2) (htracked : (X q).2 - X.low q < trackedBelow) (hfits : w.Fits X.low q cut) :
    ∃ K text w', (cutOff as q (X.low q) cut).run.run w = (.ok text, w') ∧ Cuts p X w q as cut K w' := by
  obtain ⟨A, hA, hprime, hcap⟩ := h.algebra
  obtain ⟨t, ht⟩ := h.holds q hq
  have hlow : X.low q = (X q).1.minDegree := rfl
  have hword : max 0 (cut - X.low q) ≤ maxSigned := by
    have htracked' : (trackedBelow : ℤ) ≤ maxSigned := by decide
    have hzero : (0 : ℤ) ≤ maxSigned := by decide
    omega
  have hensure := run_ensure_of_le (A := A) (hprime ▸ hp) (by simp [hcap]) hword
  obtain ⟨hfollows, hcomputed⟩ := follows_of_run_ensure hensure
  generalize A.extend (max 0 (cut - X.low q)) = A₁ at hensure hfollows hcomputed
  have h₁ := h.setAlgebra hA hfollows
  have hA₁ := getElem?_setAlgebra hA A₁
  have ht₁ : (w.withAlgebra ownAlgebra A₁).Holds p ownAlgebra X q t := ht.congr (fun _ _ => rfl) fun _ _ => rfl
  have hfits₁ : (w.withAlgebra ownAlgebra A₁).Fits X.low q cut := hfits.of_found fun _ _ hs => hs
  obtain ⟨w₂, hcompute⟩ := ht₁.exists_compute hp hA₁ (hfollows.prime_eq ▸ hprime) hfits₁
  obtain ⟨h₂, hreaches, hgrows⟩ := h₁.compute hp hq hcompute
  have hA₂ : w₂.algebras[ownAlgebra]? = some A₁ := hgrows.algebras ▸ hA₁
  obtain ⟨N, K, A₃, hN, hrun, hpart, hfollows₃⟩ := h₂.exists_truncate hp hA₂ hreaches (by omega) (by omega)
  have hgenuine := hpart.genuine hp ht.ends.closed ht.ends.labelled (by omega)
  let w₃ := w₂.withAlgebra ownAlgebra A₃
  have h₃ : w₃.Stands p X := h₂.setAlgebra hA₂ hfollows₃
  have hreaches₃ : w₃.Holds p ownAlgebra X q cut := hreaches.congr (fun _ _ => rfl) fun _ _ => rfl
  have hsize : w₃.modules.entries.size = w.modules.entries.size := hgrows.size
  have hnames : w₃.modules.names = w.modules.names := hgrows.names
  let w₄ := w₃.withModule as ⟨ownAlgebra, .finite K⟩
  have hnode : w₄.modules.get? w₃.modules.entries.size = some ⟨ownAlgebra, .finite K⟩ := get?_withModule_self w₃ as _
  have hview : w₄.view w₃.modules.entries.size = .ok (K.toGraded A₃) := view_finite hnode (getElem?_setAlgebra hA₂ A₃)
  refine ⟨K, K.name, w₄, ?_, hpart, hgenuine, ?_, ?_, ?_, ?_, ?_, ?_, ?_, ?_⟩
  · rw [cutOff, Session.run_bind_of_ok (Session.run_growing_of_ok hA hensure),
      Session.run_bind_of_ok (Session.run_update_of_ok (f := (·.compute q cut)) hcompute),
      Session.run_bind_of_ok (Session.run_read_of_ok (f := (·.view q)) hN), Session.run_bind_of_ok (Session.run_growing_of_ok hA₂ hrun)]
    exact Session.run_addModule hview
  · exact hsize ▸ h₃.add_finite hp as hgenuine
  · exact hsize ▸ holds_put hreaches₃ (hsize.symm ▸ hq) as _ (K, K.maxDegree)
  · rw [size_withModule, hsize]
  · rw [find?_withModule_self, hsize]
  · intro other hother
    rw [find?_withModule_of_ne w₃ _ hother, Shelf.find?, hnames, Shelf.find?]
  · rw [← hsize, hnode]
  · intro s M hs
    have hs : w₃.modules.get? s = some ⟨ownAlgebra, .finite M⟩ := (alike_compute hcompute).1.get?_finite hs
    rw [get?_withModule_of_lt w₃ as _ (Array.getElem?_eq_some_iff.mp hs).1, hs]
  · intro low place d hplace
    have hplace₁ : (w.withAlgebra ownAlgebra A₁).Fits low place d := hplace.of_found fun _ _ hs => hs
    refine (hplace₁.alike (alike_compute hcompute).1).of_found fun s node hs => ?_
    have hs : w₃.modules.get? s = some node := hs
    rw [get?_withModule_of_lt w₃ as _ (Array.getElem?_eq_some_iff.mp hs).1, hs]

/-- Where words suffice, a module can be cut off. -/
theorem exists_run_truncate (h : w.Stands p X) (hp : p.val < 1073741824) (as : String) (hname : w.modules.find? name = some q)
    (htracked : (X q).2 - X.low q < trackedBelow) {top : ℤ} (hfits : ∀ d, min (X q).2 top ≤ d → d ≤ (X q).2 → w.Fits X.low q d) :
    ∃ K text w', (Session.truncate as name top).run.run w = (.ok text, w') ∧ Cuts p X w q as (min (X q).2 top) K w' := by
  obtain ⟨A, hA, hprime, _⟩ := h.algebra
  have hq := h.named name q hname
  obtain ⟨t, ht⟩ := h.holds q hq
  obtain ⟨shape, hshape⟩ := ht.exists_node
  obtain ⟨N, hN, hmax, hmin⟩ := h.exists_view hp hq
  have hcut : cutDegree N top = min (X q).2 top := by rw [cutDegree, hmax]
  rw [Session.truncate, Session.run_bind_of_ok (Session.run_module_of_some hname), Session.run_bind_of_ok (Session.run_algebraPlace hshape),
    Session.run_bind_of_ok (Session.run_read_of_ok (f := (·.view q)) hN)]
  simp only [hmax, hcut, hmin]
  have hcutFits := hfits _ le_rfl (min_le_left _ _)
  split
  · obtain ⟨v, hcompute⟩ := ht.exists_compute hp hA hprime (hfits _ (min_le_left _ _) le_rfl)
    obtain ⟨hv, _, hgrows⟩ := h.compute hp hq hcompute
    have halike := (alike_compute hcompute).1
    obtain ⟨K, text, w', hrun, hcuts⟩ := hv.exists_run_cutOff hp as (hgrows.size.symm ▸ hq) (min_le_left _ _) htracked (hcutFits.alike halike)
    rw [Session.run_bind_of_ok (Session.run_update_of_ok (f := (·.compute q (X q).2)) hcompute)]
    exact ⟨K, text, w', hrun, hcuts.of_grows hgrows halike⟩
  · exact h.exists_run_cutOff hp as hq (min_le_left _ _) htracked hcutFits

/-- Where words suffice, a module can be cut off and what that makes be looked at. -/
theorem exists_run_truncated (h : w.Stands p X) (hp : p.val < 1073741824) (as : String) (hname : w.modules.find? name = some q)
    (htracked : (X q).2 - X.low q < trackedBelow) {top : ℤ} (hfits : ∀ d, min (X q).2 top ≤ d → d ≤ (X q).2 → w.Fits X.low q d) :
    ∃ K w', (Session.truncated as name top).run.run w = (.ok K, w') ∧ Cuts p X w q as (min (X q).2 top) K w' := by
  obtain ⟨K, text, w', hrun, hcuts⟩ := h.exists_run_truncate hp as hname htracked hfits
  have hK : w'.finiteAt? w.modules.entries.size = some K := by
    rw [finiteAt?, hcuts.node]
    rfl
  refine ⟨K, w', ?_, hcuts⟩
  rw [Session.truncated, Session.run_bind_of_ok hrun, Session.run_bind_of_ok (Session.run_finiteModule hcuts.found hK)]
  rfl

end Stands

/-- What is cut off from a module is that module in the degrees that are left. -/
theorem Cuts.exists_agreesWith {top : ℤ} (h : Cuts p X w q as (min (X q).2 top) K w') (hp : p.val < 1073741824)
    (hq : q < w.modules.entries.size) (htracked : (X q).2 - X.low q < trackedBelow) :
    ∃ A N, w'.algebras[ownAlgebra]? = some A ∧ w'.view q = .ok N ∧ N.AgreesWith K A top := by
  obtain ⟨A, hA, hprime, _⟩ := h.stands.algebra
  subst hprime
  obtain ⟨N, hN, _, hmirrors, hend⟩ := h.holds.exists_view hp hA rfl
  have hends := h.holds.ends
  rw [X.put_of_lt hq] at hmirrors hend hends
  have hlow : X.low q = (X q).1.minDegree := rfl
  have hmin := h.isPart.minDegree_eq
  have hmirrorsK := hmirrors.of_isPart hends.labelled hends.closed.stores h.isPart
  have hlabelledK := h.genuine.labelled
  refine ⟨A, N, hA, hN, ?_⟩
  rcases le_total (X q).2 top with hle | hle
  · rw [min_eq_left hle] at hmirrorsK hend
    have hpart := h.isPart
    rw [min_eq_left hle] at hpart
    have hend := hend le_rfl
    have hendK : N.EndsIn K A (X q).2 := ⟨hend.dimension_eq, fun c a d i ha hA hd hgap hi =>
      hend.actOnBasis_eq c a d i ha hA hd hgap (hpart.dimension_of_le hd ▸ hi)⟩
    refine hmirrorsK.agreesWith_above hlabelledK (by omega) hendK (fun d hd => ?_) top
    rw [hpart.dimension_eq, if_neg (by omega)]
  · rw [min_eq_right hle] at hmirrorsK
    exact hmirrorsK.agreesWith hlabelledK (by omega)

/-- The least degree of the module at a place. -/
def leastDegree (w : Workspace) (place : ℕ) : ℤ :=
  match w.view place with
  | .ok N => N.minDegree
  | .error _ => 0

theorem Stands.leastDegree_eq (h : w.Stands p X) (hp : p.val < 1073741824) {place : ℕ} (hplace : place < w.modules.entries.size) :
    w.leastDegree place = X.low place := by
  obtain ⟨N, hN, _, hmin⟩ := h.exists_view hp hplace
  rw [leastDegree, hN]
  exact hmin

theorem Assembled.tracks (h : w.Assembled p) : w.Tracks := by
  cases h with
  | new =>
    intro place N m hN
    obtain ⟨_, _, hnode, _⟩ := view_eq_ok hN
    cases hnode
  | step _ _ _ htracks => exact htracks

theorem finiteAt?_eq {place : ℕ} {M : FiniteModule} : w.finiteAt? place = some M ↔ ∃ k, w.modules.get? place = some ⟨k, .finite M⟩ := by
  rw [finiteAt?]
  cases w.modules.get? place with
  | none => simp
  | some node =>
    obtain ⟨k, shape⟩ := node
    cases shape <;> simp

theorem Stands.run_difference_self (h : w.Stands p X) {left right : String} {l r : ℕ} (hl : w.modules.find? left = some l)
    (hr : w.modules.find? right = some r) (hL : w.modules.get? l = some ⟨ownAlgebra, .finite K⟩)
    (hR : w.modules.get? r = some ⟨ownAlgebra, .finite K⟩) : (Session.difference left right).run.run w = (.ok none, w) := by
  obtain ⟨A, hA, _⟩ := h.algebra
  have halgebra : ∀ {q : ℕ}, w.modules.get? q = some ⟨ownAlgebra, .finite K⟩ → w.algebraOf q = .ok A := fun hq => by
    rw [algebraOf, Workspace.node, hq, Result.ofOption_some, Result.ok_bind, Workspace.algebra, hA, Result.ofOption_some]
  rw [Session.difference, Session.run_bind_of_ok (Session.run_finiteModule hl (finiteAt?_eq.mpr ⟨_, hL⟩))]
  simp only
  rw [Session.run_bind_of_ok (Session.run_finiteModule hr (finiteAt?_eq.mpr ⟨_, hR⟩))]
  simp only
  rw [Session.run_bind_of_ok (Session.run_read_of_ok (f := (·.algebraOf l)) (halgebra hL)),
    Session.run_bind_of_ok (Session.run_read_of_ok (f := (·.algebraOf r)) (halgebra hR)), difference?_self]
  rfl

namespace Cuts

variable {L : FiniteModule} {place : ℕ} {y : String}

/-- What fits, fits after something has been cut off. -/
theorem fits_put (h : Cuts p X w q as cut K w') (hplace : place < w.modules.entries.size) (hfits : w.Fits X.low place d) :
    w'.Fits (X.put w.modules.entries.size (K, K.maxDegree)).low place d := by
  obtain ⟨t, ht⟩ := h.stands.holds place (by rw [h.size]; omega)
  refine (h.fits _ _ _ hfits).of_low (fun i s hi _ => ?_) ht
  rw [Wholes.low, Wholes.low, X.put_of_lt (hi.trans hplace)]

/-- What has been cut off can be cut off again. -/
theorem exists_run_truncated (h : Cuts p X w q as cut L w') (hp : p.val < 1073741824) (y : String)
    (htracked : L.maxDegree - L.minDegree < trackedBelow) (hsigned : ∀ d, min L.maxDegree a ≤ d → d ≤ L.maxDegree → isSigned d = true) :
    ∃ K w₂, (Session.truncated y as a).run.run w' = (.ok K, w₂) ∧ IsPart p L (min L.maxDegree a) K ∧
      Cuts p (X.put w.modules.entries.size (L, L.maxDegree)) w' w.modules.entries.size y (min L.maxDegree a) K w₂ := by
  have hstands := h.stands
  have hself := X.put_self w.modules.entries.size (L, L.maxDegree)
  generalize X.put w.modules.entries.size (L, L.maxDegree) = X' at hstands hself ⊢
  have hspan : (X' w.modules.entries.size).2 - X'.low w.modules.entries.size < trackedBelow := by rwa [Wholes.low, hself]
  obtain ⟨K, w₂, hrun, hcuts⟩ := hstands.exists_run_truncated hp y h.found hspan fun d hlow hhigh =>
    .intro h.node (hsigned d (by rwa [hself] at hlow) (by rwa [hself] at hhigh)) fun _ hx => absurd hx List.not_mem_nil
  have hpart := hcuts.isPart
  rw [hself] at hcuts hpart
  exact ⟨K, w₂, hrun, hpart, hcuts⟩

end Cuts

/-- A product of two modules that are there. -/
theorem run_making_tensor {as left right : String} {l r : ℕ} {shape : Shape} {L R : GradedModule} (hl : w.modules.find? left = some l)
    (hr : w.modules.find? right = some r) (hL : w.view l = .ok L) (hR : w.view r = .ok R)
    (hnode : w.modules.get? l = some ⟨ownAlgebra, shape⟩) :
    (Making.tensor as left right).run w = w.withModule as ⟨ownAlgebra, .tensor l r (TensorTable.new L R)⟩ := by
  rw [Making.run, Session.tensor, Session.run_bind_of_ok (Session.run_module_of_some hl), Session.run_bind_of_ok (Session.run_module_of_some hr),
    Session.run_bind_of_ok (Session.run_read_of_ok (f := (·.view l)) hL), Session.run_bind_of_ok (Session.run_read_of_ok (f := (·.view r)) hR),
    Session.run_bind_of_ok (Session.run_algebraPlace hnode), Session.state_addModule]

theorem Tracks.of_views (h : ∀ place < w.modules.entries.size, ∃ N m, w.view place = .ok N ∧ N.maxDegree = some m ∧
    m - N.minDegree < trackedBelow) : w.Tracks := by
  intro place N m hN hm
  obtain ⟨_, _, hnode, _⟩ := view_eq_ok hN
  obtain ⟨N', m', hN', hm', hspan⟩ := h place (Array.getElem?_eq_some_iff.mp hnode).1
  obtain rfl := Except.ok.inj (hN.symm.trans hN')
  obtain rfl := Option.some.inj (hm.symm.trans hm')
  exact hspan

section Squared

variable (M : FiniteModule)

/-- A finite module and its product with itself. -/
def squared : Workspace :=
  (Making.tensor "T" "Q" "Q").run ((Making.finite "Q" M).run (Workspace.new (Algebra.new Prime.two none)))

/-- The view of a finite module over the algebra before anything of that is computed. -/
def atStart : GradedModule := M.toGraded (Algebra.new Prime.two none)

theorem run_finite : (Making.finite "Q" M).run (Workspace.new (Algebra.new Prime.two none)) =
    (Workspace.new (Algebra.new Prime.two none)).withModule "Q" ⟨ownAlgebra, .finite M⟩ :=
  Session.state_addModule _ "Q" ownAlgebra (.finite M)

theorem view_run_finite : ((Making.finite "Q" M).run (Workspace.new (Algebra.new Prime.two none))).view 0 = .ok (atStart M) := by
  rw [run_finite]
  exact view_finite (get?_withModule_self _ "Q" _) rfl

theorem squared_eq : squared M = ((Workspace.new (Algebra.new Prime.two none)).withModule "Q" ⟨ownAlgebra, .finite M⟩).withModule "T"
    ⟨ownAlgebra, .tensor 0 0 (TensorTable.new (atStart M) (atStart M))⟩ := by
  have hview := view_run_finite M
  rw [squared]
  rw [run_finite] at hview ⊢
  exact run_making_tensor (find?_withModule_self _ "Q" _) (find?_withModule_self _ "Q" _) hview hview (get?_withModule_self _ "Q" _)

theorem node_squared : (squared M).modules.get? 0 = some ⟨ownAlgebra, .finite M⟩ ∧
    (squared M).modules.get? 1 = some ⟨ownAlgebra, .tensor 0 0 (TensorTable.new (atStart M) (atStart M))⟩ := by
  rw [squared_eq]
  exact ⟨get?_withModule_of_lt _ "T" _ Nat.zero_lt_one, get?_withModule_self _ "T" _⟩

theorem view_squared : (squared M).view 0 = .ok (atStart M) ∧ (squared M).view 1 =
    .ok (Tensor.toGraded (Algebra.new Prime.two none) (atStart M) (atStart M) (TensorTable.new (atStart M) (atStart M))) := by
  obtain ⟨hnode, hnode'⟩ := node_squared M
  have hA : (squared M).algebras[ownAlgebra]? = some (Algebra.new Prime.two none) := by rw [squared_eq]; rfl
  have hview := view_finite hnode hA
  exact ⟨hview, view_tensor hnode' hA (by decide) (by decide) hview hview⟩

variable {M}

theorem assembled_squared (hM : M.Genuine Prime.two) (hspan : M.maxDegree + M.maxDegree - (M.minDegree + M.minDegree) < trackedBelow) :
    (squared M).Assembled Prime.two := by
  have htracked : (0 : ℤ) < trackedBelow := by decide
  have hspan' : M.maxDegree - M.minDegree < trackedBelow := by omega
  obtain ⟨hview, hview'⟩ := view_squared M
  refine .step _ (.step _ .new (fun as N h => ?_) (.of_views fun place hplace => ?_)) (fun as N h => nomatch h) (.of_views fun place hplace => ?_)
  · obtain rfl := (Making.finite.inj h).2
    exact hM
  · rw [run_finite] at hplace
    obtain rfl : place = 0 := Nat.lt_one_iff.mp hplace
    exact ⟨_, _, view_run_finite M, rfl, hspan'⟩
  · change place < (squared M).modules.entries.size at hplace
    rw [squared_eq] at hplace
    rcases Nat.le_one_iff_eq_zero_or_eq_one.mp (Nat.le_of_lt_succ hplace) with rfl | rfl
    · exact ⟨_, _, hview, rfl, hspan'⟩
    · exact ⟨_, _, hview', rfl, hspan⟩

theorem fits_squared (hmin : M.minDegree = 0) (hd : isSigned d = true) : (squared M).Fits (squared M).leastDegree 1 d := by
  obtain ⟨hnode, hnode'⟩ := node_squared M
  have hleast : (squared M).leastDegree 0 = 0 := by
    rw [leastDegree, (view_squared M).1]
    exact hmin
  have hfactor : (squared M).Fits (squared M).leastDegree 0 d := .intro hnode hd fun _ hx => absurd hx List.not_mem_nil
  refine .intro hnode' hd fun x hx => ?_
  rw [Shape.asks, hleast, Int.sub_zero] at hx
  rcases List.mem_pair.mp hx with rfl | rfl <;> exact hfactor

end Squared

end Workspace
end Steenrod
