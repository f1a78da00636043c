import Steenrod.Proofs.Session.Held
import Steenrod.Proofs.Session.Running
/-!
Workspaces that are put together from finite modules by products, sums and cuts. Main statement: whatever is asked of such a workspace, in
whatever order and with whatever outcome, each of its modules stays the product, the sum or the cut that it was made as.
-/
namespace Steenrod

open Milnor Growing FiniteModule
open Session (ownAlgebra)

namespace Wholes

/-- With another module at a place. -/
def put (X : Wholes) (place : ℕ) (W : FiniteModule × ℤ) : Wholes := fun q => if q = place then W else X q

theorem put_self (X : Wholes) (place : ℕ) (W : FiniteModule × ℤ) : X.put place W place = W := if_pos rfl

theorem put_of_lt (X : Wholes) {place q : ℕ} (h : q < place) (W : FiniteModule × ℤ) : X.put place W q = X q := if_neg h.ne

end Wholes

namespace Workspace

/-- The algebra of the workspace is one over `p` without a cap, all modules are what `X` names them, and names stand for them. -/
structure Stands (p : Prime) (X : Wholes) (w : Workspace) : Prop where
  algebra : ∃ A, w.algebras[ownAlgebra]? = some A ∧ A.prime = p ∧ A.cap = none
  holds : ∀ place < w.modules.entries.size, ∃ t, w.Holds p ownAlgebra X place t
  named : ∀ (name : String) (place : ℕ), w.modules.find? name = some place → place < w.modules.entries.size

/-- Every module of the workspace spans few enough degrees for the algebra to be tracked in all of them. -/
def Tracks (w : Workspace) : Prop :=
  ∀ (place : ℕ) (N : GradedModule) (m : ℤ), w.view place = .ok N → N.maxDegree = some m → m - N.minDegree < trackedBelow

variable {p : Prime} {X : Wholes} {w w' : Workspace} {place q : ℕ} {d t cut : ℤ} {A A' : Algebra} {shape : Shape} {W : FiniteModule × ℤ}

namespace Stands

theorem grows (h : w.Stands p X) (hgrows : Grows p ownAlgebra X q w w') : w'.Stands p X where
  algebra := hgrows.algebras ▸ h.algebra
  holds place hplace := by
    obtain ⟨t, ht⟩ := h.holds place (hgrows.size ▸ hplace)
    exact ⟨t, hgrows.keeps place t ht⟩
  named name place hname := by
    rw [Shelf.find?, hgrows.names] at hname
    exact hgrows.size.symm ▸ h.named name place hname

/-- Computing what is there keeps all that is there. -/
theorem compute (h : w.Stands p X) (hp : p.val < 1073741824) (hq : q < w.modules.entries.size) (hw' : w.compute q d = .ok w') :
    w'.Stands p X ∧ w'.Holds p ownAlgebra X q d ∧ Grows p ownAlgebra X (q + 1) w w' := by
  obtain ⟨A, hA, hprime, _⟩ := h.algebra
  obtain ⟨t, ht⟩ := h.holds q hq
  obtain ⟨hgrows, hreaches⟩ := ht.of_compute hp hA hprime hw'
  exact ⟨h.grows hgrows, hreaches, hgrows⟩

theorem getElem?_setAlgebra (hA : w.algebras[ownAlgebra]? = some A) (A' : Algebra) :
    (w.algebras.setIfInBounds ownAlgebra A')[ownAlgebra]? = some A' :=
  Array.getElem?_setIfInBounds_self_of_lt (Array.getElem?_eq_some_iff.mp hA).1

/-- Extending the algebra keeps all that is there. -/
theorem setAlgebra (h : w.Stands p X) (hA : w.algebras[ownAlgebra]? = some A) (hfollows : Follows A A') :
    (w.withAlgebra ownAlgebra A').Stands p X where
  algebra := by
    obtain ⟨B, hB, hprime, hcap⟩ := h.algebra
    obtain rfl := Option.some.inj (hA.symm.trans hB)
    exact ⟨A', getElem?_setAlgebra hA A', hfollows.prime_eq ▸ hprime, hfollows.cap_eq ▸ hcap⟩
  holds place hplace := by
    obtain ⟨t, ht⟩ := h.holds place hplace
    exact ⟨t, ht.congr (fun _ _ => rfl) fun _ _ => rfl⟩
  named := h.named

/-- What was there is there when another module has been put on the shelf. -/
theorem holds_put (h : w.Holds p ownAlgebra X q t) (hq : q < w.modules.entries.size) (name : String) (node : Node) (W : FiniteModule × ℤ) :
    (w.withModule name node).Holds p ownAlgebra (X.put w.modules.entries.size W) q t :=
  h.congr (fun _ hs => get?_withModule_of_lt w name node (hs.trans_lt hq)) fun _ hs => X.put_of_lt (hs.trans_lt hq) W

/-- A module may be added if it is made of those that are there. -/
theorem put (h : w.Stands p X) (name : String) (hsound : shape.Sound p (X.put w.modules.entries.size W) w.modules.entries.size t)
    (hends : W.1.Ends p W.2)
    (hparts : ∀ x ∈ shape.asks (X.put w.modules.entries.size W).low t,
      x.1 < w.modules.entries.size ∧ w.Holds p ownAlgebra X x.1 x.2) :
    (w.withModule name ⟨ownAlgebra, shape⟩).Stands p (X.put w.modules.entries.size W) where
  algebra := h.algebra
  holds place hplace := by
    by_cases hlt : place < w.modules.entries.size
    · obtain ⟨s, hs⟩ := h.holds place hlt
      exact ⟨s, holds_put hs hlt name _ W⟩
    · rw [size_withModule] at hplace
      obtain rfl : place = w.modules.entries.size := by omega
      refine ⟨t, .intro (get?_withModule_self w name _) hsound ?_ (fun x hx => (hparts x hx).1) fun x hx => ?_⟩
      · rwa [X.put_self]
      · exact holds_put (hparts x hx).2 (hparts x hx).1 name _ W
  named other place hother := by
    rw [size_withModule]
    by_cases hname : other = name
    · rw [hname, find?_withModule_self] at hother
      have := Option.some.inj hother
      omega
    · rw [find?_withModule_of_ne w _ hname] at hother
      exact (h.named other place hother).trans (Nat.lt_succ_self _)

/-- The module at a place as it is seen. -/
theorem exists_view (h : w.Stands p X) (hp : p.val < 1073741824) (hq : q < w.modules.entries.size) :
    ∃ N, w.view q = .ok N ∧ N.maxDegree = some (X q).2 ∧ N.minDegree = X.low q := by
  obtain ⟨A, hA, hprime, _⟩ := h.algebra
  obtain ⟨t, ht⟩ := h.holds q hq
  obtain ⟨N, hN, hmax, hmirrors, _⟩ := ht.exists_view hp hA hprime
  exact ⟨N, hN, hmax, hmirrors.minDegree_eq⟩

theorem tracked (h : w.Stands p X) (hp : p.val < 1073741824) (htracks : w.Tracks) (hq : q < w.modules.entries.size) :
    (X q).2 - X.low q < trackedBelow := by
  obtain ⟨N, hN, hmax, hmin⟩ := h.exists_view hp hq
  exact hmin ▸ htracks q N _ hN hmax

/-- What spans few degrees when another module has been put on the shelf spans few degrees. -/
theorem tracked_of_withModule (h : w.Stands p X) (hp : p.val < 1073741824) {name : String} {node : Node} (hq : q < w.modules.entries.size)
    (htracks : (w.withModule name node).Tracks) : (X q).2 - X.low q < trackedBelow := by
  obtain ⟨A, hA, hprime, _⟩ := h.algebra
  obtain ⟨t, ht⟩ := h.holds q hq
  have hA' : (w.withModule name node).algebras[ownAlgebra]? = some A := hA
  obtain ⟨N, hN, hmax, hmirrors, _⟩ := (holds_put ht hq name node (X q)).exists_view hp hA' hprime
  rw [X.put_of_lt hq] at hmax hmirrors
  have hmin : N.minDegree = X.low q := hmirrors.minDegree_eq
  exact hmin ▸ htracks q N _ hN hmax

/-- Finite modules may be added. -/
theorem add_finite (h : w.Stands p X) (hp : p.val < 1073741824) (name : String) {M : FiniteModule} (hM : M.Genuine p) :
    (w.withModule name ⟨ownAlgebra, .finite M⟩).Stands p (X.put w.modules.entries.size (M, M.maxDegree)) := by
  refine h.put (t := 0) name ?_ (hM.ends hp) fun _ hx => absurd hx List.not_mem_nil
  rw [Shape.Sound, X.put_self]
  exact ⟨rfl, rfl, hM⟩

/-- A product is zero above the sum of the degrees in which its factors end. -/
theorem total_eq_zero_of_ends {L R : FiniteModule} {l r : ℤ} (hL : L.Ends p l) (hR : R.Ends p r) (hd : l + r < d) :
    TensorTable.total L R d = 0 := by
  by_contra hne
  obtain ⟨e, hleft, hright⟩ := TensorTable.exists_of_lt_total (Nat.pos_of_ne_zero hne)
  by_cases he : l < e
  · rw [hL.dimension_eq_zero he] at hleft
    exact absurd hleft (Nat.lt_irrefl 0)
  · rw [hR.dimension_eq_zero (by omega)] at hright
    exact absurd hright (Nat.lt_irrefl 0)

/-- Products of modules that are there may be added. -/
theorem add_tensor (h : w.Stands p X) (hp : p.val < 1073741824) (name : String) {l r : ℕ} {L R : GradedModule}
    (hl : l < w.modules.entries.size) (hr : r < w.modules.entries.size) (hL : w.view l = .ok L) (hR : w.view r = .ok R)
    (htracks : (w.withModule name ⟨ownAlgebra, .tensor l r (TensorTable.new L R)⟩).Tracks) :
    ∃ X', (w.withModule name ⟨ownAlgebra, .tensor l r (TensorTable.new L R)⟩).Stands p X' := by
  obtain ⟨A, hA, hprime, _⟩ := h.algebra
  obtain ⟨s, hs⟩ := h.holds l hl
  obtain ⟨t, ht⟩ := h.holds r hr
  have hlowL := hs.minDegree_view hp hA hprime hL
  have hlowR := ht.minDegree_view hp hA hprime hR
  let v := w.withModule name ⟨ownAlgebra, .tensor l r (TensorTable.new L R)⟩
  have hAv : v.algebras[ownAlgebra]? = some A := hA
  have hrecords : TensorTable.Records (X l).1 (X r).1 (TensorTable.new L R) := by
    rw [TensorTable.new, hlowL, hlowR]
    exact TensorTable.records_new A
  have htracked : (X l).2 + (X r).2 - ((X l).1.minDegree + (X r).1.minDegree) < trackedBelow := by
    have hsv : v.Holds p ownAlgebra _ l s := holds_put hs hl name _ (X l)
    have htv : v.Holds p ownAlgebra _ r t := holds_put ht hr name _ (X l)
    obtain ⟨L', hL', hmax, hmirrors, _⟩ := hsv.exists_view hp hAv hprime
    obtain ⟨R', hR', hmax', hmirrors', _⟩ := htv.exists_view hp hAv hprime
    rw [X.put_of_lt hl] at hmax hmirrors
    rw [X.put_of_lt hr] at hmax' hmirrors'
    have hview := view_tensor (w := v) (get?_withModule_self w name ⟨ownAlgebra, .tensor l r (TensorTable.new L R)⟩) hAv hl hr hL' hR'
    have hend : (Tensor.toGraded A L' R' (TensorTable.new L R)).maxDegree = some ((X l).2 + (X r).2) := by
      change Tensor.maxDegree? L' R' = _
      rw [Tensor.maxDegree?, hmax, hmax']
      rfl
    have hspan := htracks _ _ _ hview hend
    have hmin : (Tensor.toGraded A L' R' (TensorTable.new L R)).minDegree = L'.minDegree + R'.minDegree := rfl
    rwa [hmin, hmirrors.minDegree_eq, hmirrors'.minDegree_eq] at hspan
  obtain ⟨M, hmin, hmax, hclosed, hlabelled, hM⟩ := Tensor.exists_isProduct hp hs.ends.closed ht.ends.closed hs.ends.labelled ht.ends.labelled
    (fun d hd => total_eq_zero_of_ends hs.ends ht.ends hd) htracked
  let top := min (min (s + X.low r) (t + X.low l)) ((TensorTable.new L R).offsets.nextDegree - 1)
  refine ⟨X.put w.modules.entries.size (M, (X l).2 + (X r).2), h.put (t := top) name ?_ ⟨hclosed, hlabelled, by rw [hmax, hmin]⟩ fun x hx => ?_⟩
  · simp only [Shape.Sound, X.put_self, X.put_of_lt hl, X.put_of_lt hr]
    exact ⟨hrecords, by omega, hM, trivial⟩
  · have hlow : (X.put w.modules.entries.size (M, (X l).2 + (X r).2)).low l = X.low l := by rw [Wholes.low, X.put_of_lt hl]; rfl
    have hlow' : (X.put w.modules.entries.size (M, (X l).2 + (X r).2)).low r = X.low r := by rw [Wholes.low, X.put_of_lt hr]; rfl
    simp only [Shape.asks, hlow, hlow', List.mem_cons, List.not_mem_nil, or_false] at hx
    rcases hx with rfl | rfl
    · exact ⟨hl, hs.mono (by omega)⟩
    · exact ⟨hr, ht.mono (by omega)⟩

/-- Some modules are known through one degree. -/
theorem exists_common (h : w.Stands p X) {ids : List ℕ} (hids : ∀ i ∈ ids, i < w.modules.entries.size) (high : ℤ) :
    ∃ t, t < high ∧ ∀ i ∈ ids, w.Holds p ownAlgebra X i t := by
  induction ids with
  | nil => exact ⟨high - 1, by omega, fun _ hi => absurd hi List.not_mem_nil⟩
  | cons i ids ih =>
    obtain ⟨t, hhigh, ht⟩ := ih fun j hj => hids j (by simp [hj])
    obtain ⟨s, hs⟩ := h.holds i (hids i (by simp))
    refine ⟨min s t, by omega, fun j hj => ?_⟩
    rcases List.mem_cons.mp hj with rfl | hj
    · exact hs.mono (min_le_left s t)
    · exact (ht j hj).mono (min_le_right s t)

/-- Sums of modules that are there may be added. -/
theorem add_sum (h : w.Stands p X) (hp : p.val < 1073741824) (name : String) {ids : List ℕ} (hids : ∀ i ∈ ids, i < w.modules.entries.size)
    (low : ℤ) (htracks : (w.withModule name ⟨ownAlgebra, .sum ids (SumTable.new low)⟩).Tracks) :
    ∃ X', (w.withModule name ⟨ownAlgebra, .sum ids (SumTable.new low)⟩).Stands p X' := by
  obtain ⟨A, hA, hprime, _⟩ := h.algebra
  obtain ⟨t, hlow, ht⟩ := h.exists_common hids low
  let v := w.withModule name ⟨ownAlgebra, .sum ids (SumTable.new low)⟩
  have hAv : v.algebras[ownAlgebra]? = some A := hA
  let top := (ids.map fun i => (X i).2).foldl max (low - 1)
  have htracked : top - low < trackedBelow := by
    have hview : ∀ i ∈ ids, ∃ N, v.view i = .ok N ∧ N.maxDegree = some (X i).2 := fun i hi => by
      have hiv : v.Holds p ownAlgebra _ i t := holds_put (ht i hi) (hids i hi) name _ (X i)
      obtain ⟨N, hN, hmax, _⟩ := hiv.exists_view hp hAv hprime
      rw [X.put_of_lt (hids i hi)] at hmax
      exact ⟨N, hN, hmax⟩
    have : Nonempty GradedModule := ⟨(X 0).1.toGraded A⟩
    choose! N hN hmax using hview
    have hview := view_sum (w := v) (get?_withModule_self w name ⟨ownAlgebra, .sum ids (SumTable.new low)⟩) hAv hids
      (Result.mapM_eq_ok hN)
    exact htracks _ _ top hview (Holds.maxDegree_views hmax low)
  have hle : ∀ i ∈ ids, (X i).2 ≤ top := fun i hi => (Presentation.le_foldl_max _ _).2 _ (List.mem_map_of_mem hi)
  have hmodules : ∀ {Q : FiniteModule → Prop}, (∀ i ∈ ids, Q (X i).1) → ∀ N ∈ X.modules ids, Q N := fun hQ N hN => by
    obtain ⟨i, hi, rfl⟩ := List.mem_map.mp hN
    exact hQ i hi
  have hallClosed : ∀ N ∈ X.modules ids, N.Closed p := hmodules fun i hi => (ht i hi).ends.closed
  obtain ⟨M, hmin, hmax, hclosed, hlabelled, hM⟩ := DirectSum.exists_isSum hp hallClosed (hmodules fun i hi => (ht i hi).ends.labelled)
    (hmodules fun i hi d hd => (ht i hi).ends.dimension_eq_zero ((hle i hi).trans_lt hd)) htracked
  let X' := X.put w.modules.entries.size (M, top)
  have hsame : ∀ i ∈ ids, X' i = X i := fun i hi => X.put_of_lt (hids i hi) (M, top)
  have hmodules' : X'.modules ids = X.modules ids := List.map_congr_left fun i hi => congrArg Prod.fst (hsame i hi)
  have htops : (ids.map fun i => (X' i).2) = ids.map fun i => (X i).2 := List.map_congr_left fun i hi => congrArg Prod.snd (hsame i hi)
  refine ⟨X', h.put (t := t) name ?_ ⟨hclosed, hlabelled, by rw [hmax, hmin]⟩ fun x hx => ?_⟩
  · change Shape.Sound p X' w.modules.entries.size t _
    have hself : X' w.modules.entries.size = (M, top) := X.put_self _ _
    have hnext : (SumTable.new low).offsets.nextDegree = low := Int.add_zero low
    simp only [Shape.Sound, hmodules', htops, hself]
    exact ⟨SumTable.records_new low _ _, by omega, hM, rfl⟩
  · obtain ⟨i, hi, rfl⟩ := List.mem_map.mp hx
    exact ⟨hids i hi, ht i hi⟩

end Stands

/-- Steps that put modules together: a finite module, a product, a sum, more of the tables of a module, or what a module is in degrees up to
some degree. -/
inductive Making
  | finite (as : String) (M : FiniteModule)
  | tensor (as left right : String)
  | directSum (as : String) (summands : List String) (minDegree : ℤ)
  | compute (name : String) (d : ℤ)
  | truncate (as name : String) (top : ℤ)

/-- The workspace after a step, however that ends. -/
def Making.run : Making → Workspace → Workspace
  | .finite as M, w => ((Session.addModule as ownAlgebra (.finite M)).run.run w).2
  | .tensor as left right, w => ((Session.tensor as left right).run.run w).2
  | .directSum as summands minDegree, w => ((Session.directSum as summands minDegree).run.run w).2
  | .compute name d, w => ((Session.computeBasis name d).run.run w).2
  | .truncate as name top, w => ((Session.truncate as name top).run.run w).2

/-- Workspaces that are put together, step by step, from nothing but an algebra over `p` without a cap and finite modules over that, and whose
modules span few enough degrees at every moment. -/
inductive Assembled (p : Prime) : Workspace → Prop
  | new : Assembled p (Workspace.new (Algebra.new p none))
  | step {w : Workspace} (c : Making) (assembled : Assembled p w) (genuine : ∀ as M, c = .finite as M → M.Genuine p)
      (tracks : (c.run w).Tracks) : Assembled p (c.run w)

namespace Stands

theorem of_new (p : Prime) : (Workspace.new (Algebra.new p none)).Stands p X where
  algebra := ⟨_, rfl, rfl, rfl⟩
  holds place hplace := absurd hplace (Nat.not_lt_zero place)
  named _ _ hname := nomatch hname

theorem of_tensor (h : w.Stands p X) (hp : p.val < 1073741824) (as left right : String) :
    ((Session.tensor as left right).run.run w).2.Tracks → ∃ X', ((Session.tensor as left right).run.run w).2.Stands p X' := by
  let P : Workspace → Prop := fun v => v.Tracks → ∃ X', v.Stands p X'
  have hkept : P w := fun _ => ⟨X, h⟩
  refine Session.after_module (P := P) hkept fun l hl => Session.after_module (P := P) hkept fun r hr =>
    Session.after_read (P := P) hkept fun L hL => Session.after_read (P := P) hkept fun R hR =>
    Session.after_algebraPlace (P := P) hkept fun node hnode => ?_
  have hl := h.named _ l hl
  have hr := h.named _ r hr
  obtain ⟨t, ht⟩ := h.holds l hl
  obtain ⟨shape, hshape⟩ := ht.exists_node
  obtain rfl := Option.some.inj (hnode.symm.trans hshape)
  rw [Session.state_addModule]
  exact h.add_tensor hp as hl hr hL hR

/-- Asking for places changes nothing, and what is answered is there. -/
theorem exists_run_mapM_module (h : w.Stands p X) (names : List String) : ∃ r, (names.mapM Session.module).run.run w = (r, w) ∧
    ∀ ids, r = .ok ids → ∀ i ∈ ids, i < w.modules.entries.size := by
  induction names with
  | nil => exact ⟨.ok [], rfl, fun ids hids i hi => by cases hids; cases hi⟩
  | cons name names ih =>
    rw [List.mapM_cons]
    cases hname : w.modules.find? name with
    | none => exact ⟨_, Session.run_bind_of_error (Session.run_module_of_none hname) _, fun ids hids => nomatch hids⟩
    | some i =>
      rw [Session.run_bind_of_ok (Session.run_module_of_some hname)]
      obtain ⟨r, hr, hall⟩ := ih
      cases r with
      | error e => exact ⟨_, Session.run_bind_of_error hr _, fun ids hids => nomatch hids⟩
      | ok ids =>
        rw [Session.run_bind_of_ok hr]
        refine ⟨.ok (i :: ids), rfl, fun _ hids j hj => ?_⟩
        cases hids
        rcases List.mem_cons.mp hj with rfl | hj
        · exact h.named name j hname
        · exact hall ids rfl j hj

theorem of_directSum (h : w.Stands p X) (hp : p.val < 1073741824) (as : String) (summands : List String) (low : ℤ) :
    ((Session.directSum as summands low).run.run w).2.Tracks → ∃ X', ((Session.directSum as summands low).run.run w).2.Stands p X' := by
  obtain ⟨r, hr, hids⟩ := h.exists_run_mapM_module summands
  cases r with
  | error e =>
    rw [Session.directSum, Session.run_bind_of_error hr]
    exact fun _ => ⟨X, h⟩
  | ok ids =>
    rw [Session.directSum, Session.run_bind_of_ok hr, Session.state_addModule]
    exact h.add_sum hp as (hids ids rfl) low

theorem of_compute (h : w.Stands p X) (hp : p.val < 1073741824) (name : String) (d : ℤ) :
    ((Session.computeBasis name d).run.run w).2.Stands p X := by
  refine Session.after_module (P := fun v => v.Stands p X) h fun q hq => ?_
  cases hcompute : w.compute q d with
  | error e =>
    have hrun := Session.run_update_of_error (f := (·.compute q d)) hcompute
    rwa [hrun]
  | ok w' =>
    have hrun := Session.run_update_of_ok (f := (·.compute q d)) hcompute
    rw [hrun]
    exact (h.compute hp (h.named name q hq) hcompute).1

end Stands

/-- Make the part of the module at a place through degree `cut`. -/
def cutOff (as : String) (q : ℕ) (low cut : ℤ) : Session String := do
  Session.growing ownAlgebra (ensure (max 0 (cut - low)))
  Session.update (·.compute q cut)
  let N ← Session.read (·.view q)
  let M ← Session.growing ownAlgebra (truncate N cut)
  Session.addModule as ownAlgebra (.finite M)

namespace Stands

/-- Where the algebra and the tables are known far enough, the part of a module can be made. -/
theorem exists_truncate (h : w.Stands p X) (hp : p.val < 1073741824) (hA : w.algebras[ownAlgebra]? = some A)
    (hq : w.Holds p ownAlgebra X q cut) (hcomputed : cut - X.low q < A.computed) (htracked : cut - X.low q < trackedBelow) :
    ∃ N K A', w.view q = .ok N ∧ (truncate N cut).run A = (.ok K, A') ∧ IsPart p (X q).1 cut K ∧ Follows A A' := by
  obtain ⟨B, hB, hprime, _⟩ := h.algebra
  obtain rfl := Option.some.inj (hA.symm.trans hB)
  subst hprime
  obtain ⟨N, hN, _, hmirrors, _⟩ := hq.exists_view hp hA rfl
  obtain ⟨K, A', hrun, hpart, hfollows⟩ := hmirrors.exists_run_truncate hp hq.ends.labelled hq.ends.closed.stores hcomputed htracked
  exact ⟨N, K, A', hN, hrun, hpart, hfollows⟩

theorem of_cutOff (h : w.Stands p X) (hp : p.val < 1073741824) (as : String) (hq : q < w.modules.entries.size) (hcut : cut ≤ (X q).2) :
    ((cutOff as q (X.low q) cut).run.run w).2.Tracks → ∃ X', ((cutOff as q (X.low q) cut).run.run w).2.Stands p X' := by
  let P : Workspace → Prop := fun v => v.Tracks → ∃ X', v.Stands p X'
  obtain ⟨A, hA, hprime, hcap⟩ := h.algebra
  have h₁ := h.setAlgebra hA (onlyExtends_ensure (max 0 (cut - X.low q)) A)
  refine Session.after_growing (P := P) hA (fun _ => ⟨X, h₁⟩) fun _ hensure => ?_
  obtain ⟨A₁, hrun₁⟩ : ∃ A₁, (ensure (max 0 (cut - X.low q))).run A = (.ok (), A₁) := ⟨_, Prod.ext hensure rfl⟩
  obtain ⟨_, hcomputed⟩ := follows_of_run_ensure hrun₁
  have hA₁ := getElem?_setAlgebra hA A₁
  rw [hrun₁] at h₁ ⊢
  refine Session.after_update (P := P) (fun _ => ⟨X, h₁⟩) fun w₂ hcompute => ?_
  obtain ⟨h₂, hreaches, hgrows⟩ := h₁.compute hp hq hcompute
  have hA₂ : w₂.algebras[ownAlgebra]? = some A₁ := hgrows.algebras ▸ hA₁
  refine Session.after_read (P := P) (fun _ => ⟨X, h₂⟩) fun N hN => ?_
  have h₃ := h₂.setAlgebra hA₂ (onlyExtends_truncate N cut A₁)
  refine Session.after_growing (P := P) hA₂ (fun _ => ⟨X, h₃⟩) fun K hK => ?_
  have hq₃ : q < (w₂.withAlgebra ownAlgebra ((truncate N cut).run A₁).2).modules.entries.size := hgrows.size.symm ▸ hq
  rw [Session.state_addModule]
  intro htracks
  have htracked := h₃.tracked_of_withModule hp hq₃ htracks
  obtain ⟨N', K', A', hN', hrun, hpart, _⟩ := h₂.exists_truncate hp hA₂ hreaches (by omega) (by omega)
  obtain rfl := Except.ok.inj (hN.symm.trans hN')
  rw [hrun] at hK
  obtain rfl := Except.ok.inj hK
  have hends := hreaches.ends
  have hlow : X.low q = (X q).1.minDegree := rfl
  exact ⟨_, h₃.add_finite hp as (hpart.genuine hp hends.closed hends.labelled (by omega))⟩

theorem of_truncate (h : w.Stands p X) (hp : p.val < 1073741824) (as name : String) (top : ℤ) :
    ((Session.truncate as name top).run.run w).2.Tracks → ∃ X', ((Session.truncate as name top).run.run w).2.Stands p X' := by
  let P : Workspace → Prop := fun v => v.Tracks → ∃ X', v.Stands p X'
  have hkept : P w := fun _ => ⟨X, h⟩
  refine Session.after_module (P := P) hkept fun q hq => Session.after_algebraPlace (P := P) hkept fun node hnode =>
    Session.after_read (P := P) hkept fun N hN => ?_
  have hq := h.named _ q hq
  obtain ⟨t, ht⟩ := h.holds q hq
  obtain ⟨shape, hshape⟩ := ht.exists_node
  obtain rfl := Option.some.inj (hnode.symm.trans hshape)
  obtain ⟨N', hN', hmax, hmin⟩ := h.exists_view hp hq
  obtain rfl := Except.ok.inj (hN.symm.trans hN')
  have hcut : cutDegree N top = min (X q).2 top := by rw [cutDegree, hmax]
  simp only [hmax, hcut, hmin]
  split
  · refine Session.after_update (P := P) hkept fun v hcompute => ?_
    obtain ⟨hv, _, hgrows⟩ := h.compute hp hq hcompute
    exact hv.of_cutOff hp as (hgrows.size.symm ▸ hq) (min_le_left _ _)
  · exact h.of_cutOff hp as hq (min_le_left _ _)

end Stands

/-- Whatever is asked of a workspace that is put together, each of its modules stays what it was made as. -/
theorem Assembled.stands (hp : p.val < 1073741824) (h : w.Assembled p) : ∃ X, w.Stands p X := by
  induction h with
  | new => exact ⟨fun _ => (⟨"", ⟨0, #[]⟩, ⟨0, #[]⟩, ⟨0, #[]⟩⟩, 0), .of_new p⟩
  | @step w c _ hgenuine htracks ih =>
    obtain ⟨X, h⟩ := ih
    cases c with
    | finite as M =>
      rw [Making.run, Session.state_addModule]
      exact ⟨_, h.add_finite hp as (hgenuine as M rfl)⟩
    | tensor as left right => exact h.of_tensor hp as left right htracks
    | directSum as summands low => exact h.of_directSum hp as summands low htracks
    | compute name d => exact ⟨X, h.of_compute hp name d⟩
    | truncate as name top => exact h.of_truncate hp as name top htracks

end Workspace
end Steenrod
