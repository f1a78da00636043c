import Steenrod.Session.Lifts
import Steenrod.Proofs.Session.Keeping
/-!
Workspaces that differ in what is computed only. Main statement: computing the tables of a module changes the least degree of none.
-/
namespace Steenrod

/-- The same module, with tables that may reach differently far. -/
def Shape.Alike : Shape → Shape → Prop
  | .tensor l r _, .tensor l' r' _ => l = l' ∧ r = r'
  | .sum ids T, .sum ids' T' => ids = ids' ∧ T.offsets.minDegree = T'.offsets.minDegree
  | s, s' => s = s'

theorem Shape.Alike.refl (s : Shape) : s.Alike s := by
  cases s <;> simp [Shape.Alike]

theorem Shape.Alike.symm {s s' : Shape} (h : s.Alike s') : s'.Alike s := by
  cases s <;> cases s' <;> simp_all [Shape.Alike]

theorem Shape.Alike.trans {s s' s'' : Shape} (h : s.Alike s') (h' : s'.Alike s'') : s.Alike s'' := by
  cases s <;> cases s' <;> cases s'' <;> simp_all [Shape.Alike]

namespace Workspace

variable {w w' w'' : Workspace} {place : ℕ} {d : ℤ}

/-- The same objects, with tables that may reach differently far. -/
structure Alike (w w' : Workspace) : Prop where
  algebras : w.algebras.size = w'.algebras.size
  resolutions : w.resolutions = w'.resolutions
  modules : ∀ place, Option.Rel (fun n n' => n.algebra = n'.algebra ∧ n.shape.Alike n'.shape) (w.modules.get? place)
    (w'.modules.get? place)

theorem Alike.refl (w : Workspace) : Alike w w where
  algebras := rfl
  resolutions := rfl
  modules place := by
    cases w.modules.get? place with
    | none => exact .none
    | some n => exact .some ⟨rfl, .refl _⟩

theorem Alike.trans (h : Alike w w') (h' : Alike w' w'') : Alike w w'' where
  algebras := h.algebras.trans h'.algebras
  resolutions := h.resolutions.trans h'.resolutions
  modules place := by
    have h₁ := h.modules place
    have h₂ := h'.modules place
    generalize w.modules.get? place = o at h₁ ⊢
    generalize w'.modules.get? place = o' at h₁ h₂
    generalize w''.modules.get? place = o'' at h₂ ⊢
    cases h₁ with
    | none => exact h₂
    | some hn =>
      cases h₂ with
      | some hn' => exact .some ⟨hn.1.trans hn'.1, hn.2.trans hn'.2⟩

theorem Alike.symm (h : Alike w w') : Alike w' w where
  algebras := h.algebras.symm
  resolutions := h.resolutions.symm
  modules place := by
    have hnode := h.modules place
    generalize w.modules.get? place = o at hnode ⊢
    generalize w'.modules.get? place = o' at hnode ⊢
    cases hnode with
    | none => exact .none
    | some hn => exact .some ⟨hn.1.symm, hn.2.symm⟩

theorem Alike.freeAt? (h : Alike w w') (place : ℕ) : w.freeAt? place = w'.freeAt? place := by
  unfold Workspace.freeAt?
  rw [h.resolutions]
  have hnode := h.modules place
  generalize w.modules.get? place = o at hnode ⊢
  generalize w'.modules.get? place = o' at hnode ⊢
  cases hnode with
  | none => rfl
  | @some n n' hn =>
    obtain ⟨-, hshape⟩ := hn
    simp only [bind, Option.bind]
    generalize n.shape = s at hshape ⊢
    generalize n'.shape = s' at hshape ⊢
    cases s <;> cases s' <;> simp_all [Shape.Alike]

/-- What a module is seen as, by its shape. -/
theorem view_eq_ok {N : GradedModule} (h : w.view place = .ok N) :
    ∃ node A, w.modules.get? place = some node ∧ w.algebras[node.algebra]? = some A ∧
      match node.shape with
      | .finite M => N = M.toGraded A
      | .free F => N = F.toGraded A
      | .stage _ _ => ∃ F, w.freeAt? place = some F ∧ N = F.toGraded A
      | .tensor l r table => l < place ∧ r < place ∧ ∃ L R, w.view l = .ok L ∧ w.view r = .ok R ∧ N = Tensor.toGraded A L R table
      | .sum _ table => ∃ summands, N = DirectSum.toGraded A.prime summands table := by
  rw [Workspace.view] at h
  obtain ⟨node, hnode, h⟩ := Result.bind_eq_ok.mp h
  obtain ⟨A, hA, h⟩ := Result.bind_eq_ok.mp h
  refine ⟨node, A, Result.ofOption_eq_ok.mp hnode, Result.ofOption_eq_ok.mp hA, ?_⟩
  cases hshape : node.shape with
  | finite M =>
    rw [hshape] at h
    exact (Except.ok.inj h).symm
  | free F =>
    rw [hshape] at h
    exact (Except.ok.inj h).symm
  | stage r s =>
    rw [hshape] at h
    obtain ⟨F, hF, h⟩ := Result.bind_eq_ok.mp h
    exact ⟨F, Result.ofOption_eq_ok.mp hF, (Except.ok.inj h).symm⟩
  | tensor l r table =>
    rw [hshape] at h
    by_cases hlt : l < place ∧ r < place
    · simp only [dif_pos hlt] at h
      obtain ⟨L, hL, h⟩ := Result.bind_eq_ok.mp h
      obtain ⟨R, hR, h⟩ := Result.bind_eq_ok.mp h
      exact ⟨hlt.1, hlt.2, L, R, hL, hR, (Except.ok.inj h).symm⟩
    · simp only [dif_neg hlt] at h
      cases h
  | sum ids table =>
    rw [hshape] at h
    obtain ⟨summands, -, h⟩ := Result.bind_eq_ok.mp h
    exact ⟨summands, (Except.ok.inj h).symm⟩

/-- Modules that are alike start in the same degree. -/
theorem Alike.minDegree_eq (h : Alike w w') {N N' : GradedModule} (hN : w.view place = .ok N) (hN' : w'.view place = .ok N') :
    N.minDegree = N'.minDegree := by
  induction place using Nat.strong_induction_on generalizing N N' with
  | _ place ih =>
    obtain ⟨node, A, hnode, -, hshape⟩ := view_eq_ok hN
    obtain ⟨node', A', hnode', -, hshape'⟩ := view_eq_ok hN'
    have hsame := h.modules place
    rw [hnode, hnode'] at hsame
    obtain ⟨-, hsame⟩ := Option.rel_some_some.mp hsame
    rw [← h.freeAt? place] at hshape'
    generalize node.shape = s at hsame hshape
    generalize node'.shape = s' at hsame hshape'
    cases s <;> cases s' <;> simp only [Shape.Alike, reduceCtorEq] at hsame
    case finite.finite =>
      cases hsame
      rw [hshape, hshape']
      rfl
    case free.free =>
      cases hsame
      rw [hshape, hshape']
      rfl
    case stage.stage =>
      obtain ⟨F, hF, rfl⟩ := hshape
      obtain ⟨F', hF', rfl⟩ := hshape'
      obtain rfl := Option.some.inj (hF.symm.trans hF')
      rfl
    case tensor.tensor =>
      obtain ⟨rfl, rfl⟩ := hsame
      obtain ⟨hl, hr, L, R, hL, hR, rfl⟩ := hshape
      obtain ⟨-, -, L', R', hL', hR', rfl⟩ := hshape'
      exact congrArg₂ (· + ·) (ih _ hl hL hL') (ih _ hr hR hR')
    case sum.sum =>
      obtain ⟨summands, rfl⟩ := hshape
      obtain ⟨summands', rfl⟩ := hshape'
      exact hsame.2

/-- A module may be replaced by one that is alike. -/
theorem Alike.setShape (h : Alike w w') {node : Node} {shape : Shape} (hnode : w.modules.get? place = some node)
    (hshape : node.shape.Alike shape) : Alike w (w'.setShape place node shape) where
  algebras := h.algebras
  resolutions := h.resolutions
  modules q := by
    have hlt : place < w'.modules.entries.size := by
      have hsome := h.modules place
      rw [hnode] at hsome
      cases hget : w'.modules.get? place with
      | none =>
        rw [hget] at hsome
        cases hsome
      | some _ => exact (Array.getElem?_eq_some_iff.mp hget).1
    have hget : (w'.modules.set place { node with shape }).get? q =
        if q = place then some { node with shape } else w'.modules.get? q := by
      simp only [Shelf.get?, Shelf.set, Array.getElem?_setIfInBounds]
      by_cases hq : place = q
      · rw [if_pos hq, if_pos (hq ▸ hlt), if_pos hq.symm]
      · rw [if_neg hq, if_neg (Ne.symm hq)]
    change Option.Rel _ _ ((w'.modules.set place { node with shape }).get? q)
    rw [hget]
    split
    · next heq =>
      rw [heq, hnode]
      exact .some ⟨rfl, hshape⟩
    · exact h.modules q

theorem minDegree_extend_sum {summands : List GradedModule} {T T' : SumTable} (h : T.extend summands d = .ok T') :
    T.offsets.minDegree = T'.offsets.minDegree := by
  obtain ⟨rows, -, h⟩ := Result.bind_eq_ok.mp h
  obtain rfl := Except.ok.inj h
  exact (Graded.minDegree_foldl_push T.offsets rows).symm

/-- Computing tables leaves everything else as it is. -/
theorem alike_compute (h : w.compute place d = .ok w') : Alike w w' ∧ w'.algebras = w.algebras := by
  induction place using Nat.strong_induction_on generalizing w w' d with
  | _ place ih =>
    rw [Workspace.compute] at h
    obtain ⟨_, -, h⟩ := Result.bind_eq_ok.mp h
    obtain ⟨node, hnode, h⟩ := Result.bind_eq_ok.mp h
    have hnode := Result.ofOption_eq_ok.mp hnode
    split at h
    · next l r table heq =>
      split at h
      · next hlt =>
        obtain ⟨L, -, h⟩ := Result.bind_eq_ok.mp h
        obtain ⟨R, -, h⟩ := Result.bind_eq_ok.mp h
        obtain ⟨w₁, h₁, h⟩ := Result.bind_eq_ok.mp h
        obtain ⟨w₂, h₂, h⟩ := Result.bind_eq_ok.mp h
        obtain ⟨L', -, h⟩ := Result.bind_eq_ok.mp h
        obtain ⟨R', -, h⟩ := Result.bind_eq_ok.mp h
        obtain ⟨table', -, h⟩ := Result.bind_eq_ok.mp h
        obtain rfl := Except.ok.inj h
        obtain ⟨halike₁, halgebras₁⟩ := ih l hlt.1 h₁
        obtain ⟨halike₂, halgebras₂⟩ := ih r hlt.2 h₂
        refine ⟨(halike₁.trans halike₂).setShape hnode ?_, halgebras₂.trans halgebras₁⟩
        rw [heq]
        exact ⟨rfl, rfl⟩
      · cases h
    · next ids table heq =>
      obtain ⟨w₁, h₁, h⟩ := Result.bind_eq_ok.mp h
      obtain ⟨summands, -, h⟩ := Result.bind_eq_ok.mp h
      obtain ⟨table', htable, h⟩ := Result.bind_eq_ok.mp h
      obtain rfl := Except.ok.inj h
      have hids : Alike w w₁ ∧ w₁.algebras = w.algebras := by
        refine Result.foldlM_invariant (I := fun v : Workspace => Alike w v ∧ v.algebras = w.algebras) (fun i _ v v' hv hstep => ?_)
          ⟨.refl w, rfl⟩ h₁
        split at hstep
        · next hlt =>
          obtain ⟨halike, halgebras⟩ := ih i hlt hstep
          exact ⟨hv.1.trans halike, halgebras.trans hv.2⟩
        · cases hstep
      refine ⟨hids.1.setShape hnode ?_, hids.2⟩
      rw [heq]
      exact ⟨rfl, minDegree_extend_sum htable⟩
    · obtain rfl := Except.ok.inj h
      exact ⟨.refl w, rfl⟩

end Workspace
end Steenrod
