import Steenrod.Proofs.Module.Wholes
import Steenrod.Proofs.Session.Alike
/-!
What products and sums that a workspace holds are as finite modules, however far their tables reach. Main statements: the view of such a
module shows it as far as its tables are known, computing tables keeps all of them what they are, and it is answered where words suffice
for the degrees that it asks for.
-/
namespace Steenrod

open Vec Milnor

/-- The finite module `M` is closed, has names, and ends in degree `m`; where it has no degrees, `m` may be anything below its least one. -/
structure FiniteModule.Ends (p : Prime) (M : FiniteModule) (m : ℤ) : Prop where
  closed : M.Closed p
  labelled : M.Labelled
  maxDegree_eq : M.maxDegree = max m (M.minDegree - 1)

theorem FiniteModule.Ends.dimension_eq_zero {p : Prime} {M : FiniteModule} {m d : ℤ} (h : M.Ends p m) (hd : m < d) : M.dimension d = 0 := by
  by_contra hne
  have hrange := degrees_of_lt_dimension (Nat.pos_of_ne_zero hne)
  have hmax := h.maxDegree_eq
  omega

theorem FiniteModule.Genuine.ends {p : Prime} {M : FiniteModule} (h : M.Genuine p) (hp : p.val < 1073741824) : M.Ends p M.maxDegree where
  closed := h.closed hp
  labelled := h.labelled
  maxDegree_eq := by
    unfold maxDegree minDegree Graded.maxDegree Graded.nextDegree
    omega

/-- The places of a workspace with a module and the degree in which that ends. -/
abbrev Wholes := ℕ → FiniteModule × ℤ

namespace Wholes

variable (X : Wholes)

def low (place : ℕ) : ℤ := (X place).1.minDegree

def modules (ids : List ℕ) : List FiniteModule := ids.map fun i => (X i).1

theorem length_modules (ids : List ℕ) : (X.modules ids).length = ids.length := List.length_map _

theorem getElem?_modules (ids : List ℕ) (j : ℕ) : (X.modules ids)[j]? = ids[j]?.map fun i => (X i).1 := List.getElem?_map ..

end Wholes

namespace Shape

/-- The modules that one asks when it is computed through degree `d`, with the degrees; `low` has the least degrees of modules. -/
def asks (low : ℕ → ℤ) (d : ℤ) : Shape → List (ℕ × ℤ)
  | .tensor l r _ => [(l, d - low r), (r, d - low l)]
  | .sum ids _ => ids.map fun i => (i, d)
  | _ => []

theorem Alike.asks_eq {s s' : Shape} (h : s.Alike s') (low : ℕ → ℤ) (d : ℤ) : s.asks low d = s'.asks low d := by
  cases s <;> cases s' <;> simp_all [Alike, asks]

/-- Less is asked for lower degrees. -/
theorem exists_asks_of_le {low : ℕ → ℤ} {d e : ℤ} {s : Shape} (hle : d ≤ e) {x : ℕ × ℤ} (hx : x ∈ s.asks low d) :
    ∃ y ∈ s.asks low e, y.1 = x.1 ∧ x.2 ≤ y.2 := by
  cases s with
  | tensor l r T =>
    rcases List.mem_pair.mp hx with rfl | rfl
    · exact ⟨_, List.mem_pair.mpr (.inl rfl), rfl, by omega⟩
    · exact ⟨_, List.mem_pair.mpr (.inr rfl), rfl, by omega⟩
  | sum ids T =>
    obtain ⟨i, hi, rfl⟩ := List.mem_map.mp hx
    exact ⟨_, List.mem_map_of_mem hi, rfl, hle⟩
  | _ => cases hx

/-- What is stored at a place is the module that `X` names, or makes it of those at other places, with a table of what that is that
reaches degree `t`. -/
def Sound (p : Prime) (X : Wholes) (place : ℕ) (t : ℤ) : Shape → Prop
  | .finite M => (X place).1 = M ∧ (X place).2 = M.maxDegree ∧ M.Genuine p
  | .tensor l r T => TensorTable.Records (X l).1 (X r).1 T ∧ t < T.offsets.nextDegree ∧
      Tensor.IsProduct p (X l).1 (X r).1 (X place).1 ∧ (X place).2 = (X l).2 + (X r).2
  | .sum ids T => SumTable.Records T.offsets.minDegree (X.modules ids).length (SumTable.widths (X.modules ids)) T ∧
      t < T.offsets.nextDegree ∧ DirectSum.IsSum p T.offsets.minDegree (X.modules ids) (X place).1 ∧
      (X place).2 = (ids.map fun i => (X i).2).foldl max (T.offsets.minDegree - 1)
  | _ => False

theorem Sound.mono {p : Prime} {X : Wholes} {place : ℕ} {t low : ℤ} {s : Shape} (h : s.Sound p X place t) (hle : low ≤ t) :
    s.Sound p X place low := by
  cases s with
  | tensor l r T => exact ⟨h.1, by have := h.2.1; omega, h.2.2⟩
  | sum ids T => exact ⟨h.1, by have := h.2.1; omega, h.2.2⟩
  | _ => exact h

end Shape

namespace Workspace

/-- The module at a place, over the algebra at place `k`, is the finite module that `X` names, or a product or a sum of such modules, and
its tables are known through degree `t`. -/
inductive Holds (p : Prime) (k : ℕ) (X : Wholes) (w : Workspace) : ℕ → ℤ → Prop
  | intro {place : ℕ} {t : ℤ} {shape : Shape} (found : w.modules.get? place = some ⟨k, shape⟩) (sound : shape.Sound p X place t)
      (ends : (X place).1.Ends p (X place).2) (lt : ∀ x ∈ shape.asks X.low t, x.1 < place)
      (parts : ∀ x ∈ shape.asks X.low t, Holds p k X w x.1 x.2) : Holds p k X w place t

/-- The degrees that a module and those that it is made of are asked for, when it is computed through some degree, are words. -/
inductive Fits (low : ℕ → ℤ) (w : Workspace) : ℕ → ℤ → Prop
  | intro {place : ℕ} {d : ℤ} {node : Node} (found : w.modules.get? place = some node) (signed : isSigned d = true)
      (parts : ∀ x ∈ node.shape.asks low d, Fits low w x.1 x.2) : Fits low w place d

variable {p : Prime} {k : ℕ} {X X' : Wholes} {w w' : Workspace} {place q l r : ℕ} {ids : List ℕ} {d t low : ℤ} {A : Algebra}
variable {low' : ℕ → ℤ}
variable {shape shape' : Shape} {M : FiniteModule} {L R : GradedModule} {views : List GradedModule}

theorem view_finite (hnode : w.modules.get? place = some ⟨k, .finite M⟩) (hA : w.algebras[k]? = some A) :
    w.view place = .ok (M.toGraded A) := by
  rw [view, node, hnode, Result.ofOption_some, Result.ok_bind, algebra, hA]
  rfl

theorem view_tensor {T : TensorTable} (hnode : w.modules.get? place = some ⟨k, .tensor l r T⟩) (hA : w.algebras[k]? = some A)
    (hl : l < place) (hr : r < place) (hL : w.view l = .ok L) (hR : w.view r = .ok R) :
    w.view place = .ok (Tensor.toGraded A L R T) := by
  rw [view, node, hnode, Result.ofOption_some, Result.ok_bind, algebra, hA, Result.ofOption_some, Result.ok_bind]
  simp only
  rw [dif_pos ⟨hl, hr⟩, hL, hR]
  rfl

theorem view_sum {T : SumTable} (hnode : w.modules.get? place = some ⟨k, .sum ids T⟩) (hA : w.algebras[k]? = some A)
    (hids : ∀ i ∈ ids, i < place) (hviews : ids.mapM w.view = .ok views) :
    w.view place = .ok (DirectSum.toGraded A.prime views T) := by
  rw [view, node, hnode, Result.ofOption_some, Result.ok_bind, algebra, hA, Result.ofOption_some, Result.ok_bind]
  simp only
  rw [Result.mapM_congr fun i hi => dif_pos (hids i hi), hviews]
  rfl

theorem get?_setShape {node : Node} (hnode : w.modules.get? q = some node) (node' : Node) (shape : Shape) (place : ℕ) :
    (w.setShape q node' shape).modules.get? place = if place = q then some { node' with shape } else w.modules.get? place := by
  have hlt : q < w.modules.entries.size := (Array.getElem?_eq_some_iff.mp hnode).1
  change (w.modules.entries.setIfInBounds q { node' with shape })[place]? = if place = q then _ else w.modules.entries[place]?
  rw [Array.getElem?_setIfInBounds]
  by_cases hplace : q = place
  · rw [if_pos hplace, if_pos (hplace ▸ hlt), if_pos hplace.symm]
  · rw [if_neg hplace, if_neg (Ne.symm hplace)]

namespace Holds

theorem ends (h : w.Holds p k X place t) : (X place).1.Ends p (X place).2 := by
  cases h
  assumption

theorem exists_node (h : w.Holds p k X place t) : ∃ shape, w.modules.get? place = some ⟨k, shape⟩ := by
  cases h
  exact ⟨_, ‹_›⟩

theorem sound {k' : ℕ} (h : w.Holds p k X place t) (hnode : w.modules.get? place = some ⟨k', shape⟩) : shape.Sound p X place t := by
  obtain @⟨_, _, shape', hnode', hsound, _, _, _⟩ := h
  obtain rfl : shape' = shape := congrArg Node.shape (Option.some.inj (hnode'.symm.trans hnode))
  exact hsound

theorem mono (h : w.Holds p k X place t) (hle : low ≤ t) : w.Holds p k X place low := by
  induction h generalizing low with
  | intro hnode hsound hends hlt hparts ih =>
    refine .intro hnode (hsound.mono hle) hends (fun x hx => ?_) fun x hx => ?_
    · obtain ⟨y, hy, hsame, _⟩ := Shape.exists_asks_of_le hle hx
      exact hsame ▸ hlt y hy
    · obtain ⟨y, hy, hsame, hdegree⟩ := Shape.exists_asks_of_le hle hx
      exact hsame ▸ ih y hy hdegree

/-- A module that ends somewhere has views of its parts that end there. -/
theorem maxDegree_views {ids : List ℕ} {N : ℕ → GradedModule} (h : ∀ i ∈ ids, (N i).maxDegree = some (X i).2) (low : ℤ) :
    DirectSum.maxDegree? (ids.map N) low = some ((ids.map fun i => (X i).2).foldl max (low - 1)) := by
  unfold DirectSum.maxDegree?
  generalize low - 1 = start
  induction ids generalizing start with
  | nil => rfl
  | cons i ids ih =>
    rw [List.map_cons, List.map_cons, List.foldlM_cons, List.foldl_cons, h i (by simp), ← ih (fun j hj => h j (by simp [hj]))]
    rfl

/-- The views of modules in a row. -/
theorem allMirror_views (h : ∀ i ∈ ids, ∃ N, w.view i = .ok N ∧ N.Mirrors (X i).1 A t) (hviews : ids.mapM w.view = .ok views) :
    GradedModule.AllMirror views (X.modules ids) A t := by
  refine ⟨(Result.of_mapM_eq_ok hviews).length_eq.symm.trans (X.length_modules ids).symm, fun j N M hN hM => ?_⟩
  obtain ⟨i, hi, hview⟩ := (Result.getElem?_of_mapM hviews).mp hN
  rw [X.getElem?_modules, hi] at hM
  obtain rfl := Option.some.inj hM
  obtain ⟨N', hN', hmirrors⟩ := h i (List.mem_of_getElem? hi)
  obtain rfl := Except.ok.inj (hview.symm.trans hN')
  exact hmirrors

/-- The view of what is held shows it as far as its tables are known, and where these reach its end, ends there. -/
theorem exists_view (hp : p.val < 1073741824) (hA : w.algebras[k]? = some A) (hprime : A.prime = p) (h : w.Holds p k X place t) :
    ∃ N, w.view place = .ok N ∧ N.maxDegree = some (X place).2 ∧ N.Mirrors (X place).1 A t ∧
      ((X place).2 ≤ t → N.EndsIn (X place).1 A (X place).2) := by
  subst hprime
  induction h with
  | @intro place t shape hnode hsound hends hlt hparts ih =>
    have hzero : ∀ d, (X place).2 < d → (X place).1.dimension d = 0 := fun d hd => hends.dimension_eq_zero hd
    cases shape with
    | finite M =>
      obtain ⟨hM, hmax, _⟩ := hsound
      rw [hM, hmax] at hzero ⊢
      exact ⟨M.toGraded A, view_finite hnode hA, rfl, .of_finite M A t, fun _ => M.endsIn A hzero⟩
    | tensor l r T =>
      obtain ⟨hT, hreach, hwhole, hmax⟩ := hsound
      obtain ⟨L, hL, hLmax, hLmirrors, _⟩ := ih (l, t - X.low r) (by simp [Shape.asks])
      obtain ⟨R, hR, hRmax, hRmirrors, _⟩ := ih (r, t - X.low l) (by simp [Shape.asks])
      have hLends := (hparts (l, t - X.low r) (by simp [Shape.asks])).ends
      have hRends := (hparts (r, t - X.low l) (by simp [Shape.asks])).ends
      have hview := view_tensor hnode hA (hlt (l, t - X.low r) (by simp [Shape.asks])) (hlt (r, t - X.low l) (by simp [Shape.asks])) hL hR
      have hmaxDegree : (Tensor.toGraded A L R T).maxDegree = some (X place).2 := by
        rw [hmax]
        change Tensor.maxDegree? L R = _
        rw [Tensor.maxDegree?, hLmax, hRmax]
        rfl
      have hmirrors := Tensor.mirrors_of_mirrors hLmirrors hRmirrors ⟨_, hLmax, hLends.maxDegree_eq⟩ ⟨_, hRmax, hRends.maxDegree_eq⟩ hT
        hreach hp ((hwhole rfl hT).mono (by omega))
      exact ⟨_, hview, hmaxDegree, hmirrors, fun hle => Tensor.endsIn hmirrors hmaxDegree hle⟩
    | sum ids T =>
      obtain ⟨hT, hreach, hwhole, hmax⟩ := hsound
      have hsummand : ∀ i ∈ ids, ∃ N, w.view i = .ok N ∧ N.maxDegree = some (X i).2 ∧ N.Mirrors (X i).1 A t := fun i hi => by
        obtain ⟨N, hN, hNmax, hNmirrors, _⟩ := ih (i, t) (List.mem_map_of_mem hi)
        exact ⟨N, hN, hNmax, hNmirrors⟩
      have : Nonempty GradedModule := ⟨(X place).1.toGraded A⟩
      choose! N hN hNmax hNmirrors using hsummand
      have hviews : ids.mapM w.view = .ok (ids.map N) := Result.mapM_eq_ok hN
      have hview := view_sum hnode hA (fun i hi => hlt (i, t) (List.mem_map_of_mem hi)) hviews
      have hall := allMirror_views (fun i hi => ⟨N i, hN i hi, hNmirrors i hi⟩) hviews
      have hfinite := hwhole (A := A) rfl hT
      have hmirrors := DirectSum.mirrors_of_mirrors hall hT hreach (hfinite.mono (by omega))
      have hmaxDegree : (DirectSum.toGraded A.prime (ids.map N) T).maxDegree = some (X place).2 := by
        rw [hmax]
        exact maxDegree_views hNmax _
      exact ⟨_, hview, hmaxDegree, hmirrors, fun _ => DirectSum.endsIn hfinite hzero _⟩
    | _ => exact hsound.elim

end Holds

theorem Holds.minDegree_view {N : GradedModule} (hp : p.val < 1073741824) (hA : w.algebras[k]? = some A) (hprime : A.prime = p)
    (h : w.Holds p k X place t) (hN : w.view place = .ok N) : N.minDegree = X.low place := by
  obtain ⟨N', hN', _, hmirrors, _⟩ := h.exists_view hp hA hprime
  obtain rfl := Except.ok.inj (hN.symm.trans hN')
  exact hmirrors.minDegree_eq

/-- A module may be replaced by one that asks the same of others and has the same modules for what it is. -/
theorem Holds.setShape (hnode : w.modules.get? q = some ⟨k, shape⟩) (hasks : ∀ d, shape'.asks X.low d = shape.asks X.low d)
    (hsound : ∀ t, shape.Sound p X q t → shape'.Sound p X q t) (h : w.Holds p k X place t) :
    (w.setShape q ⟨k, shape⟩ shape').Holds p k X place t := by
  induction h with
  | @intro place t shape₁ hnode₁ hsound₁ hends hlt _ ih =>
    have hget := get?_setShape hnode ⟨k, shape⟩ shape' place
    by_cases hplace : place = q
    · subst hplace
      obtain rfl : shape = shape₁ := congrArg Node.shape (Option.some.inj (hnode.symm.trans hnode₁))
      rw [if_pos rfl] at hget
      exact .intro hget (hsound t hsound₁) hends (hasks t ▸ hlt) (hasks t ▸ ih)
    · rw [if_neg hplace] at hget
      exact .intro (hget.trans hnode₁) hsound₁ hends hlt ih

theorem compute_finite (hnode : w.modules.get? q = some ⟨k, .finite M⟩) (hd : isSigned d = true) : w.compute q d = .ok w := by
  rw [compute, hd, require_true, Result.ok_bind, Workspace.node, hnode]
  rfl

theorem of_compute_finite (hnode : w.modules.get? q = some ⟨k, .finite M⟩) (h : w.compute q d = .ok w') : w' = w := by
  rw [compute] at h
  obtain ⟨_, _, h⟩ := Result.bind_eq_ok.mp h
  rw [Workspace.node, hnode] at h
  exact (Except.ok.inj h).symm

theorem compute_tensor_eq_ok {T : TensorTable} (hnode : w.modules.get? q = some ⟨k, .tensor l r T⟩) (hl : l < q) (hr : r < q) :
    w.compute q d = .ok w' ↔ isSigned d = true ∧ ∃ L R w₁ w₂ L' R' T', w.view l = .ok L ∧ w.view r = .ok R ∧
      w.compute l (d - R.minDegree) = .ok w₁ ∧ w₁.compute r (d - L.minDegree) = .ok w₂ ∧ w₂.view l = .ok L' ∧ w₂.view r = .ok R' ∧
      T.extend L' R' d = .ok T' ∧ w' = w₂.setShape q ⟨k, .tensor l r T⟩ (.tensor l r T') := by
  rw [compute, Workspace.node, hnode]
  simp only [Result.bind_eq_ok, require_eq_ok, exists_const, Result.ofOption_some, Result.ok_bind, dif_pos (And.intro hl hr),
    Except.ok.injEq, eq_comm (b := w'), exists_and_left]

theorem compute_sum_eq_ok {T : SumTable} (hnode : w.modules.get? q = some ⟨k, .sum ids T⟩) (hids : ∀ i ∈ ids, i < q) :
    w.compute q d = .ok w' ↔ isSigned d = true ∧ ∃ w₁ views T', ids.foldlM (fun w i => w.compute i d) w = .ok w₁ ∧
      ids.mapM w₁.view = .ok views ∧ T.extend views d = .ok T' ∧ w' = w₁.setShape q ⟨k, .sum ids T⟩ (.sum ids T') := by
  have hfold : ids.foldlM (fun w i => if _h : i < q then compute w i d else breach) w = ids.foldlM (fun w i => w.compute i d) w :=
    Algebra.foldlM_congr (fun i hi w => dif_pos (hids i hi)) w
  rw [compute, Workspace.node, hnode]
  simp only [Result.bind_eq_ok, require_eq_ok, exists_const, Result.ofOption_some, Result.ok_bind, hfold, Except.ok.injEq, eq_comm (b := w'),
    exists_and_left]

/-- From `w` to `w'` nothing from place `q` on is touched, and all that is held, is still held under its name. -/
structure Grows (p : Prime) (k : ℕ) (X : Wholes) (q : ℕ) (w w' : Workspace) : Prop where
  algebras : w'.algebras = w.algebras
  names : w'.modules.names = w.modules.names
  size : w'.modules.entries.size = w.modules.entries.size
  later : ∀ s, q ≤ s → w'.modules.get? s = w.modules.get? s
  keeps : ∀ s t, w.Holds p k X s t → w'.Holds p k X s t

namespace Grows

theorem refl (w : Workspace) : Grows p k X q w w := ⟨rfl, rfl, rfl, fun _ _ => rfl, fun _ _ h => h⟩

theorem trans {w₁ : Workspace} (h : Grows p k X q w w₁) (h' : Grows p k X q w₁ w') : Grows p k X q w w' where
  algebras := h'.algebras.trans h.algebras
  names := h'.names.trans h.names
  size := h'.size.trans h.size
  later s hs := (h'.later s hs).trans (h.later s hs)
  keeps s t hs := h'.keeps s t (h.keeps s t hs)

theorem mono (h : Grows p k X l w w') (hle : l ≤ q) : Grows p k X q w w' :=
  ⟨h.algebras, h.names, h.size, fun s hs => h.later s (hle.trans hs), h.keeps⟩

/-- Replacing a module by one that is as good, where what it asks of others in degree `d` is known. -/
theorem setShape (hq : w.Holds p k X q t) (hnode : w.modules.get? q = some ⟨k, shape⟩)
    (hasks : ∀ d, shape'.asks X.low d = shape.asks X.low d) (hsound : ∀ t, shape.Sound p X q t → shape'.Sound p X q t)
    (hreaches : shape'.Sound p X q d) (hlt : ∀ x ∈ shape.asks X.low d, x.1 < q) (hparts : ∀ x ∈ shape.asks X.low d, w.Holds p k X x.1 x.2) :
    Grows p k X (q + 1) w (w.setShape q ⟨k, shape⟩ shape') ∧ (w.setShape q ⟨k, shape⟩ shape').Holds p k X q d := by
  have hget := get?_setShape hnode ⟨k, shape⟩ shape'
  have hself := hget q
  rw [if_pos rfl] at hself
  refine ⟨⟨rfl, rfl, Array.size_setIfInBounds, fun s hs => ?_, fun _ _ hs => hs.setShape hnode hasks hsound⟩, ?_⟩
  · rw [hget, if_neg (by omega)]
  · exact .intro hself hreaches hq.ends (hasks d ▸ hlt) fun x hx => (hparts x (hasks d ▸ hx)).setShape hnode hasks hsound

/-- Computing summands one after the other. -/
theorem of_foldlM (hids : ∀ i ∈ ids, i < q)
    (hstep : ∀ i ∈ ids, ∀ v v' : Workspace, v.algebras = w.algebras → v.Holds p k X i t → v.compute i d = .ok v' →
      Grows p k X (i + 1) v v' ∧ v'.Holds p k X i d)
    (hw : ∀ i ∈ ids, w.Holds p k X i t) (h : ids.foldlM (fun w i => w.compute i d) w = .ok w') :
    Grows p k X q w w' ∧ ∀ i ∈ ids, w'.Holds p k X i d := by
  induction ids generalizing w with
  | nil =>
    obtain rfl := Except.ok.inj h
    exact ⟨refl w, fun _ hi => absurd hi List.not_mem_nil⟩
  | cons i ids ih =>
    rw [List.foldlM_cons] at h
    obtain ⟨v, hv, h⟩ := Result.bind_eq_ok.mp h
    obtain ⟨hfirst, hreach⟩ := hstep i (by simp) w v rfl (hw i (by simp)) hv
    obtain ⟨hrest, hreaches⟩ := ih (fun j hj => hids j (by simp [hj]))
      (fun j hj u u' hu => hstep j (by simp [hj]) u u' (hu.trans hfirst.algebras)) (fun j hj => hfirst.keeps j t (hw j (by simp [hj]))) h
    refine ⟨(hfirst.mono (hids i (by simp))).trans hrest, fun j hj => ?_⟩
    rcases List.mem_cons.mp hj with rfl | hj
    · exact hrest.keeps j d hreach
    · exact hreaches j hj

end Grows

/-- Extending the table of a product, where its factors are known far enough. -/
theorem Grows.extend_tensor {T T' : TensorTable} {L R : GradedModule} (hA : w.algebras[k]? = some A) (hp : p.val < 1073741824)
    (hprime : A.prime = p) (hq : w.Holds p k X q t) (hnode : w.modules.get? q = some ⟨k, .tensor l r T⟩) (hl : l < q) (hr : r < q)
    (hleft : w.Holds p k X l (d - X.low r)) (hright : w.Holds p k X r (d - X.low l)) (hL : w.view l = .ok L) (hR : w.view r = .ok R)
    (h : T.extend L R d = .ok T') : Grows p k X (q + 1) w (w.setShape q ⟨k, .tensor l r T⟩ (.tensor l r T')) ∧
      (w.setShape q ⟨k, .tensor l r T⟩ (.tensor l r T')).Holds p k X q d := by
  obtain ⟨_, hN, hmax, hmirrors, _⟩ := hleft.exists_view hp hA hprime
  obtain rfl := Except.ok.inj (hL.symm.trans hN)
  obtain ⟨_, hN, hmax', hmirrors', _⟩ := hright.exists_view hp hA hprime
  obtain rfl := Except.ok.inj (hR.symm.trans hN)
  rw [TensorTable.extend_of_measures (hmirrors.measures ⟨_, hmax, hleft.ends.maxDegree_eq⟩)
    (hmirrors'.measures ⟨_, hmax', hright.ends.maxDegree_eq⟩) A le_rfl] at h
  obtain ⟨hT, hreach, hwhole, hend⟩ := hq.sound hnode
  obtain ⟨hT', hnext⟩ := hT.extend h
  refine Grows.setShape hq hnode (fun _ => rfl) (fun t hs => ⟨hT', ?_, hwhole, hend⟩) ⟨hT', by omega, hwhole, hend⟩ ?_ ?_
  · have := hs.2.1
    omega
  · simp [Shape.asks, hl, hr]
  · simp only [Shape.asks, List.forall_mem_cons, List.not_mem_nil, false_implies, implies_true, and_true]
    exact ⟨hleft, hright⟩

/-- Extending the table of a sum, where its summands are known far enough. -/
theorem Grows.extend_sum {T T' : SumTable} {views : List GradedModule} (hA : w.algebras[k]? = some A) (hp : p.val < 1073741824)
    (hprime : A.prime = p) (hq : w.Holds p k X q t) (hnode : w.modules.get? q = some ⟨k, .sum ids T⟩) (hids : ∀ i ∈ ids, i < q)
    (hsummands : ∀ i ∈ ids, w.Holds p k X i d) (hviews : ids.mapM w.view = .ok views) (h : T.extend views d = .ok T') :
    Grows p k X (q + 1) w (w.setShape q ⟨k, .sum ids T⟩ (.sum ids T')) ∧
      (w.setShape q ⟨k, .sum ids T⟩ (.sum ids T')).Holds p k X q d := by
  have hall : GradedModule.AllMirror views (X.modules ids) A d := Holds.allMirror_views (fun i hi => by
    obtain ⟨N, hN, _, hmirrors, _⟩ := (hsummands i hi).exists_view hp hA hprime
    exact ⟨N, hN, hmirrors⟩) hviews
  rw [SumTable.extend_of_mirrors hall le_rfl] at h
  obtain ⟨hT, hreach, hwhole, hend⟩ := hq.sound hnode
  obtain ⟨hT', hnext⟩ := hT.extend_finite h
  have hlow : T'.offsets.minDegree = T.offsets.minDegree := hT'.minDegree_eq
  refine Grows.setShape hq hnode (fun _ => rfl) (fun t hs => ⟨hlow ▸ hT', ?_, hlow ▸ hwhole, hlow ▸ hend⟩)
    ⟨hlow ▸ hT', by omega, hlow ▸ hwhole, hlow ▸ hend⟩ ?_ ?_
  · have := hs.2.1
    omega
  · simpa only [Shape.asks, List.forall_mem_map] using hids
  · simpa only [Shape.asks, List.forall_mem_map] using hsummands

/-- Computing what is held keeps everything and reaches the degree that was asked for. -/
theorem Holds.of_compute (hp : p.val < 1073741824) (hA : w.algebras[k]? = some A) (hprime : A.prime = p) (hq : w.Holds p k X q t)
    (h : w.compute q d = .ok w') : Grows p k X (q + 1) w w' ∧ w'.Holds p k X q d := by
  induction q using Nat.strong_induction_on generalizing w w' d t with
  | _ q ih =>
    obtain @⟨_, _, shape, hnode, hsound, hends, hlt, hparts⟩ := hq
    have hq : w.Holds p k X q t := .intro hnode hsound hends hlt hparts
    cases shape with
    | finite M =>
      obtain rfl := of_compute_finite hnode h
      exact ⟨.refl w', .intro hnode hsound hends (fun _ hx => absurd hx List.not_mem_nil) fun _ hx => absurd hx List.not_mem_nil⟩
    | tensor l r T =>
      simp only [Shape.asks, List.forall_mem_cons, List.not_mem_nil, false_implies, implies_true, and_true] at hlt hparts
      obtain ⟨hl, hr⟩ := hlt
      obtain ⟨hleft, hright⟩ := hparts
      obtain ⟨_, L, R, w₁, w₂, L', R', T', hL, hR, h₁, h₂, hL', hR', hextend, rfl⟩ := (compute_tensor_eq_ok hnode hl hr).mp h
      rw [hright.minDegree_view hp hA hprime hR] at h₁
      rw [hleft.minDegree_view hp hA hprime hL] at h₂
      obtain ⟨hgrows₁, hleft₁⟩ := ih l hl hA hleft h₁
      have hA₁ : w₁.algebras[k]? = some A := hgrows₁.algebras ▸ hA
      obtain ⟨hgrows₂, hright₂⟩ := ih r hr hA₁ (hgrows₁.keeps _ _ hright) h₂
      have hA₂ : w₂.algebras[k]? = some A := hgrows₂.algebras ▸ hA₁
      have hgrows := (hgrows₁.mono hl).trans (hgrows₂.mono hr)
      obtain ⟨hset, hreached⟩ := Grows.extend_tensor hA₂ hp hprime (hgrows.keeps _ _ hq) ((hgrows.later q le_rfl).trans hnode) hl hr
        (hgrows₂.keeps _ _ hleft₁) hright₂ hL' hR' hextend
      exact ⟨(hgrows.mono q.le_succ).trans hset, hreached⟩
    | sum ids T =>
      simp only [Shape.asks, List.forall_mem_map] at hlt hparts
      obtain ⟨_, w₁, views, T', hfold, hviews, hextend, rfl⟩ := (compute_sum_eq_ok hnode hlt).mp h
      obtain ⟨hgrows, hsummands⟩ := Grows.of_foldlM hlt (fun i hi v v' hv hvi hstep => ih i (hlt i hi) (hv ▸ hA) hvi hstep) hparts hfold
      obtain ⟨hset, hreached⟩ := Grows.extend_sum (hgrows.algebras ▸ hA) hp hprime (hgrows.keeps _ _ hq)
        ((hgrows.later q le_rfl).trans hnode) hlt hsummands hviews hextend
      exact ⟨(hgrows.mono q.le_succ).trans hset, hreached⟩
    | _ => exact hsound.elim

namespace Fits

theorem signed (h : w.Fits low' place d) : isSigned d = true := by
  cases h
  assumption

theorem alike (h : w.Fits low' place d) (halike : Alike w w') : w'.Fits low' place d := by
  induction h with
  | @intro place d node hnode hsigned _ ih =>
    have hsame := halike.modules place
    rw [hnode] at hsame
    cases hnode' : w'.modules.get? place with
    | none =>
      rw [hnode'] at hsame
      cases hsame
    | some node' =>
      rw [hnode'] at hsame
      have hasks := (Option.rel_some_some.mp hsame).2.asks_eq low' d
      exact .intro hnode' hsigned (hasks ▸ ih)

/-- The least degrees matter where something is held only. -/
theorem of_low (h : w.Fits low' place d) (hlow : ∀ i t, i < place → w.Holds p k X i t → low' i = X.low i) (hplace : w.Holds p k X place t) :
    w.Fits X.low place d := by
  induction h generalizing t with
  | @intro place d node hnode hsigned _ ih =>
    obtain @⟨_, _, shape, hnode', _, _, hlt, hparts⟩ := hplace
    obtain rfl := Option.some.inj (hnode'.symm.trans hnode)
    refine .intro hnode hsigned ?_
    cases shape with
    | tensor l r T =>
      simp only [Shape.asks, List.forall_mem_cons, List.not_mem_nil, false_implies, implies_true, and_true] at hlt hparts ih ⊢
      obtain ⟨hl, hr⟩ := hlt
      obtain ⟨hleft, hright⟩ := hparts
      rw [hlow l _ hl hleft, hlow r _ hr hright] at ih
      exact ⟨ih.1 (fun i s hi => hlow i s (hi.trans hl)) hleft, ih.2 (fun i s hi => hlow i s (hi.trans hr)) hright⟩
    | sum ids T =>
      simp only [Shape.asks, List.forall_mem_map] at hlt hparts ih ⊢
      exact fun i hi => ih i hi (fun j s hj => hlow j s (hj.trans (hlt i hi))) (hparts i hi)
    | _ => exact fun _ hx => absurd hx List.not_mem_nil

end Fits

/-- Computing summands one after the other is answered. -/
theorem exists_foldlM (hstep : ∀ i ∈ ids, ∀ v : Workspace, v.algebras = w.algebras → v.Holds p k X i t → v.Fits X.low i d →
      ∃ v', v.compute i d = .ok v' ∧ Grows p k X (i + 1) v v')
    (hw : ∀ i ∈ ids, w.Holds p k X i t) (hfits : ∀ i ∈ ids, w.Fits X.low i d) :
    ∃ w', ids.foldlM (fun w i => w.compute i d) w = .ok w' := by
  induction ids generalizing w with
  | nil => exact ⟨w, rfl⟩
  | cons i ids ih =>
    obtain ⟨v, hv, hgrows⟩ := hstep i (by simp) w rfl (hw i (by simp)) (hfits i (by simp))
    obtain ⟨w', hw'⟩ := ih (fun j hj u hu => hstep j (by simp [hj]) u (hu.trans hgrows.algebras))
      (fun j hj => hgrows.keeps j t (hw j (by simp [hj]))) fun j hj => (hfits j (by simp [hj])).alike (alike_compute hv).1
    exact ⟨w', by rw [List.foldlM_cons, hv]; exact hw'⟩

/-- Computing what is held is answered where the degrees asked for are words. -/
theorem Holds.exists_compute (hp : p.val < 1073741824) (hA : w.algebras[k]? = some A) (hprime : A.prime = p) (hq : w.Holds p k X q t)
    (hfits : w.Fits X.low q d) : ∃ w', w.compute q d = .ok w' := by
  induction q using Nat.strong_induction_on generalizing w d t with
  | _ q ih =>
    obtain @⟨_, _, shape, hnode, hsound, hends, hlt, hparts⟩ := hq
    obtain @⟨_, _, node, hnode', hsigned, hasked⟩ := hfits
    obtain rfl := Option.some.inj (hnode.symm.trans hnode')
    cases shape with
    | finite M => exact ⟨w, compute_finite hnode hsigned⟩
    | tensor l r T =>
      simp only [Shape.asks, List.forall_mem_cons, List.not_mem_nil, false_implies, implies_true, and_true] at hlt hparts hasked
      obtain ⟨hl, hr⟩ := hlt
      obtain ⟨hleft, hright⟩ := hparts
      obtain ⟨L, hL, _, hmirrorsL, _⟩ := hleft.exists_view hp hA hprime
      obtain ⟨R, hR, _, hmirrorsR, _⟩ := hright.exists_view hp hA hprime
      obtain ⟨w₁, h₁⟩ := ih l hl hA hleft hasked.1
      obtain ⟨hgrows₁, hleft₁⟩ := hleft.of_compute hp hA hprime h₁
      have hA₁ : w₁.algebras[k]? = some A := hgrows₁.algebras ▸ hA
      have hright₁ := hgrows₁.keeps _ _ hright
      obtain ⟨w₂, h₂⟩ := ih r hr hA₁ hright₁ (hasked.2.alike (alike_compute h₁).1)
      obtain ⟨hgrows₂, hright₂⟩ := hright₁.of_compute hp hA₁ hprime h₂
      have hA₂ : w₂.algebras[k]? = some A := hgrows₂.algebras ▸ hA₁
      obtain ⟨L', hL', hmax, hmirrors, _⟩ := (hgrows₂.keeps _ _ hleft₁).exists_view hp hA₂ hprime
      obtain ⟨R', hR', hmax', hmirrors', _⟩ := hright₂.exists_view hp hA₂ hprime
      obtain ⟨T', hextend⟩ := TensorTable.exists_extend A T (L := (X l).1) (R := (X r).1) d
      rw [← TensorTable.extend_of_measures (hmirrors.measures ⟨_, hmax, hleft.ends.maxDegree_eq⟩)
        (hmirrors'.measures ⟨_, hmax', hright.ends.maxDegree_eq⟩) A le_rfl] at hextend
      have hlowL : L.minDegree = X.low l := hmirrorsL.minDegree_eq
      have hlowR : R.minDegree = X.low r := hmirrorsR.minDegree_eq
      exact ⟨_, (compute_tensor_eq_ok hnode hl hr).mpr
        ⟨hsigned, L, R, w₁, w₂, L', R', T', hL, hR, hlowR ▸ h₁, hlowL ▸ h₂, hL', hR', hextend, rfl⟩⟩
    | sum ids T =>
      simp only [Shape.asks, List.forall_mem_map] at hlt hparts hasked
      obtain ⟨w₁, hfold⟩ := exists_foldlM (fun i hi v hv hvi hvfits => by
        obtain ⟨v', hv'⟩ := ih i (hlt i hi) (hv ▸ hA) hvi hvfits
        exact ⟨v', hv', (hvi.of_compute hp (hv ▸ hA) hprime hv').1⟩) hparts hasked
      obtain ⟨hgrows, hsummands⟩ := Grows.of_foldlM hlt (fun i _ v v' hv hvi hstep => hvi.of_compute hp (hv ▸ hA) hprime hstep) hparts hfold
      have hview : ∀ i ∈ ids, ∃ N, w₁.view i = .ok N ∧ N.Mirrors (X i).1 A d := fun i hi => by
        obtain ⟨N, hN, _, hmirrors, _⟩ := (hsummands i hi).exists_view hp (hgrows.algebras ▸ hA) hprime
        exact ⟨N, hN, hmirrors⟩
      have : Nonempty GradedModule := ⟨(X q).1.toGraded A⟩
      choose! N hN hmirrors using hview
      have hviews : ids.mapM w₁.view = .ok (ids.map N) := Result.mapM_eq_ok hN
      obtain ⟨T', hextend⟩ := SumTable.exists_extend (X.modules ids) A T d
      rw [← SumTable.extend_of_mirrors (Holds.allMirror_views (fun i hi => ⟨N i, hN i hi, hmirrors i hi⟩) hviews) le_rfl] at hextend
      exact ⟨_, (compute_sum_eq_ok hnode hlt).mpr ⟨hsigned, w₁, ids.map N, T', hfold, hviews, hextend, rfl⟩⟩
    | _ => exact hsound.elim

/-- What is held depends on what is at its place and before it only. -/
theorem Holds.congr (h : w.Holds p k X place t) (hsame : ∀ s ≤ place, w'.modules.get? s = w.modules.get? s)
    (hX : ∀ s ≤ place, X' s = X s) : w'.Holds p k X' place t := by
  induction h with
  | @intro place t shape hnode hsound hends hlt hparts ih =>
    have hasked : ∀ x ∈ shape.asks X.low t, w'.Holds p k X' x.1 x.2 := fun x hx =>
      ih x hx (fun s hs => hsame s (hs.trans (hlt x hx).le)) fun s hs => hX s (hs.trans (hlt x hx).le)
    have hnode' := (hsame place le_rfl).trans hnode
    rw [← hX place le_rfl] at hends
    cases shape with
    | finite M =>
      refine .intro hnode' ?_ hends (fun _ hx => absurd hx List.not_mem_nil) fun _ hx => absurd hx List.not_mem_nil
      simp only [Shape.Sound, hX place le_rfl]
      exact hsound
    | tensor l r T =>
      have hl : X' l = X l := hX l (hlt (l, t - X.low r) (by simp [Shape.asks])).le
      have hr : X' r = X r := hX r (hlt (r, t - X.low l) (by simp [Shape.asks])).le
      have hasks : (Shape.tensor l r T).asks X'.low t = (Shape.tensor l r T).asks X.low t := by
        simp only [Shape.asks, Wholes.low, hl, hr]
      refine .intro hnode' ?_ hends (hasks ▸ hlt) (hasks ▸ hasked)
      simp only [Shape.Sound, hX place le_rfl, hl, hr]
      exact hsound
    | sum ids T =>
      have hids : ∀ i ∈ ids, X' i = X i := fun i hi => hX i (hlt (i, t) (List.mem_map_of_mem hi)).le
      have hmodules : X'.modules ids = X.modules ids := List.map_congr_left fun i hi => congrArg Prod.fst (hids i hi)
      have htops : (ids.map fun i => (X' i).2) = ids.map fun i => (X i).2 := List.map_congr_left fun i hi => congrArg Prod.snd (hids i hi)
      refine .intro hnode' ?_ hends hlt hasked
      simp only [Shape.Sound, hX place le_rfl, hmodules, htops]
      exact hsound
    | _ => exact hsound.elim

end Workspace
end Steenrod
