import Steenrod.Proofs.Module.Finishing
import Steenrod.Proofs.Module.Naming
/-!
Building answers: as long as the prime and the degrees are small enough, it gives a module or tells why there is none. Main statements:
relations are taken in or refused; the closure finds all that it reads in the table, and has names for what it complains about; and so
do the checks after it.
-/
namespace Steenrod

namespace Result

variable {α β σ : Type} {r : Result α} {f : α → Result β}

theorem ok_ne_breach (x : α) : (.ok x : Result α) ≠ breach := by
  rintro ⟨⟩

theorem refuse_ne_breach (e : Error) : (refuse e : Result α) ≠ breach := by
  rintro ⟨⟩

theorem bind_ne_breach (hr : r ≠ breach) (hf : ∀ x, r = .ok x → f x ≠ breach) : r >>= f ≠ breach := by
  rcases r with (e | _) | x
  · exact refuse_ne_breach e
  · exact absurd rfl hr
  · exact hf x rfl

theorem foldlM_ne_breach {g : σ → α → Result σ} (hg : ∀ s x, g s x ≠ breach) (l : List α) (s : σ) : l.foldlM g s ≠ breach := by
  induction l generalizing s with
  | nil => exact ok_ne_breach _
  | cons x l ih =>
    rw [List.foldlM_cons]
    exact bind_ne_breach (hg s x) fun s' _ => ih s'

theorem forM_ne_breach {g : α → Result Unit} {l : List α} (hg : ∀ x ∈ l, g x ≠ breach) : l.forM g ≠ breach := by
  induction l with
  | nil => exact ok_ne_breach _
  | cons x l ih =>
    obtain ⟨hx, hl⟩ := List.forall_mem_cons.mp hg
    exact bind_ne_breach hx fun _ _ => ih hl

theorem mapM_ne_breach {l : List α} (hf : ∀ x ∈ l, f x ≠ breach) : l.mapM f ≠ breach := by
  induction l with
  | nil => exact ok_ne_breach _
  | cons x l ih =>
    obtain ⟨hx, hl⟩ := List.forall_mem_cons.mp hf
    rw [List.mapM_cons]
    exact bind_ne_breach hx fun _ _ => bind_ne_breach (ih hl) fun _ _ => ok_ne_breach _

end Result

namespace Growing

variable {α β : Type} {A B : Algebra} {x : Growing α} {f : α → Growing β}

/-- There is a value, or something to tell. -/
def Answers (A : Algebra) (x : Growing α) : Prop := (x.run A).1 ≠ breach

theorem answers_of_run {r : Result α} (h : x.run A = (r, B)) (hr : r ≠ breach) : Answers A x := by
  rw [Answers, h]
  exact hr

theorem answers_read {f : Algebra → Result α} (h : f A ≠ breach) : Answers A (read f) := answers_of_run (run_read f A) h

theorem Answers.bind (hx : Answers A x) (hf : ∀ a B, x.run A = (.ok a, B) → Answers B (f a)) : Answers A (x >>= f) := by
  rw [Answers, run_bind]
  rcases hrun : x.run A with ⟨(e | _) | a, B⟩
  · exact Result.refuse_ne_breach e
  · rw [Answers, hrun] at hx
    exact absurd rfl hx
  · exact hf a B hrun

/-- A degree is computed, or it is told that the cap is too low for that. -/
theorem answers_ensure {d : ℤ} (hp : A.prime.val < 1073741824) (hd : d ≤ maxSigned) : Answers A (ensure d) := by
  have hcompute := run_compute_of_le hp hd
  rw [Answers, ensure, run_bind, run_get]
  simp only
  split
  · split
    · exact Result.refuse_ne_breach _
    · rw [hcompute]
      exact Result.ok_ne_breach _
  · rw [hcompute]
    exact Result.ok_ne_breach _

end Growing

namespace FiniteModule

open Growing Vec Milnor

variable {p : Prime} {M N : FiniteModule} {A : Algebra} {d input output : ℤ} {v : Vec} {x : ℤ × ℤ}

/-- What has the size of its degree has a text. -/
theorem elementText_ne_breach (hM : M.Labelled) (hv : v.size = M.dimension d) : M.elementText A d v ≠ breach := by
  refine Result.bind_ne_breach (Result.mapM_ne_breach fun t ht => ?_) fun _ _ => Result.ok_ne_breach _
  obtain ⟨name, hname⟩ := hM.mp (hv ▸ lt_size_of_mem_nonzero ht)
  refine Result.bind_ne_breach ?_ fun _ _ => Result.ok_ne_breach _
  change M.nameOf d t.1 ≠ breach
  rw [hname]
  exact Result.ok_ne_breach _

theorem termText_ne_breach {t : Term} {D : ℤ} (ht : t.LiesIn A.prime D) (hD : D < A.computed) : termText A t ≠ breach := by
  have hl := ht.left.nonneg
  have hr := ht.right.nonneg
  have hsum := ht.degree_eq
  have hname : ∀ a : Operation, a.IsBasis A.prime → a.degree < A.computed → A.nameOf a ≠ breach := fun a ha hlt => by
    obtain ⟨y, hy, _⟩ := A.element_of_isBasis ha hlt
    rw [Algebra.nameOf, hy]
    exact Result.ok_ne_breach _
  exact Result.bind_ne_breach (hname _ ht.left (by omega)) fun _ _ =>
    Result.bind_ne_breach (hname _ ht.right (by omega)) fun _ _ => Result.ok_ne_breach _

/-- The relations are checked, and what is said of one that is broken can be said. -/
theorem answers_checkRelations (hp : A.prime.val < 1073741824) (hM : M.Stores A.prime) (hnames : M.Labelled) (hlt : input < output)
    (ht : output - input < trackedBelow) (hA : output - input < A.computed) : Answers A (M.checkRelations input output) := by
  have htarget : input + (output - input) = output := by omega
  refine (answers_read ?_).bind fun _ B hrequire => ?_
  · rw [decide_eq_true hlt]
    exact Result.ok_ne_breach _
  obtain ⟨_, rfl⟩ := run_read_eq_ok.mp hrequire
  obtain ⟨rels, C, hrun, hfollows, hrels⟩ := exists_run_relations hp (d := output - input) (by omega) ht
  refine (answers_of_run hrun (Result.ok_ne_breach _)).bind fun rels' C' hrun' => ?_
  obtain ⟨hrels', rfl⟩ := Prod.mk.inj (hrun.symm.trans hrun')
  obtain rfl := Except.ok.inj hrels'
  have hcomputed : output - input < C.computed := by
    have := hfollows.computed_le
    omega
  refine answers_read (Result.forM_ne_breach fun i hi => Result.forM_ne_breach fun rel hrel => ?_)
  have hi := List.mem_range.mp hi
  have hliesIn := ((hrels rel).mp hrel).liesIn hp
  rw [hfollows.prime_eq] at hM hliesIn
  obtain ⟨v, hv, hvp, _⟩ := actByTerms_eq (hM.storedBelow _) hcomputed hi hliesIn (u := Vec.zero (M.dimension output))
    (by rw [htarget]; exact Proper.zero)
  rw [htarget] at hvp
  rw [hv, Result.ok_bind]
  split
  · exact Result.ok_ne_breach _
  · refine Result.bind_ne_breach (Result.mapM_ne_breach fun t ht => termText_ne_breach (hliesIn t ht) hcomputed) fun _ _ => ?_
    refine Result.bind_ne_breach (elementText_ne_breach hnames hvp.size_eq) fun _ _ => ?_
    obtain ⟨name, hname⟩ := hnames.mp hi
    rw [hname]
    exact Result.refuse_ne_breach _

theorem answers_closeStep (hp : A.prime.val < 1073741824) (hM : M.Stores A.prime) (hnames : M.Labelled) (hlt : x.1 < x.2)
    (ht : x.2 - x.1 < trackedBelow) (hA : x.2 - x.1 < A.computed) : Answers A (M.closeStep x) := by
  obtain ⟨M₁, B, hextend, hextending, _⟩ := run_extendActions hp hM hlt ht
  have hfollows := (onlyExtends_extendActions M x.1 x.2).follows hextend
  have hle : A.computed ≤ B.computed := hfollows.computed_le
  have hprime : A.prime = B.prime := hfollows.prime_eq
  refine (answers_of_run hextend (Result.ok_ne_breach _)).bind fun M' B' hextend' => ?_
  obtain ⟨hM', rfl⟩ := Prod.mk.inj (hextend.symm.trans hextend')
  obtain rfl := Except.ok.inj hM'
  refine (answers_checkRelations (hprime ▸ hp) (hprime ▸ hextending.stores) ((entered_of_run_extendActions hlt hextend).labelled hnames) hlt ht
    (by omega)).bind fun _ _ _ => answers_of_run (run_pure _ _) (Result.ok_ne_breach _)

/-- Closing answers. -/
theorem answers_close (hp : A.prime.val < 1073741824) (hM : M.Stores A.prime) (hnames : M.Labelled)
    (ht : M.maxDegree - M.minDegree < trackedBelow) (hA : M.maxDegree - M.minDegree < A.computed) : Answers A M.close := by
  have hsteps : ∀ (l : List (ℤ × ℤ)) (M : FiniteModule) (A : Algebra), A.prime.val < 1073741824 → M.Stores A.prime → M.Labelled →
      (∀ x ∈ l, x.1 < x.2 ∧ x.2 - x.1 < trackedBelow ∧ x.2 - x.1 < A.computed) → Answers A (l.foldlM closeStep M) := by
    intro l
    induction l with
    | nil => exact fun M A _ _ _ _ => answers_of_run (run_pure _ _) (Result.ok_ne_breach _)
    | cons x l ih =>
      intro M A hp hM hnames hl
      obtain ⟨⟨hlt, ht, hA⟩, hl⟩ := List.forall_mem_cons.mp hl
      rw [List.foldlM_cons]
      refine (answers_closeStep hp hM hnames hlt ht hA).bind fun M' B hstep => ?_
      obtain ⟨_, hstores, _⟩ := of_run_closeStep hp rfl hM hlt hA hstep
      have hfollows := (onlyExtends_closeStep M x).follows hstep
      have hle : A.computed ≤ B.computed := hfollows.computed_le
      have hprime : A.prime = B.prime := hfollows.prime_eq
      obtain ⟨M₁, C, hextend, hcheck⟩ := run_bind_eq_ok.mp hstep
      obtain ⟨_, D, _, hpure⟩ := run_bind_eq_ok.mp hcheck
      obtain rfl := Except.ok.inj (Prod.mk.inj hpure).1
      refine ih M₁ B (hprime ▸ hp) (hprime ▸ hstores) ((entered_of_run_extendActions hlt hextend).labelled hnames) fun y hy => ?_
      have := hl y hy
      omega
  rw [close_eq]
  refine hsteps _ M A hp hM hnames fun x hx => ?_
  obtain ⟨hlow, hlt, hhigh⟩ := mem_closingOrder.mp hx
  omega

end FiniteModule

namespace Presentation

open FiniteModule Growing Milnor

variable {p : Prime} {P : Presentation} {M : FiniteModule} {A : Algebra} {l : List Declared} {x : Declared}

theorem lookup_ne_breach (P : Presentation) (name : String) : P.lookup name ≠ breach := by
  rw [lookup]
  split
  · exact Result.ok_ne_breach _
  · exact Result.refuse_ne_breach _

/-- A relation that cannot be taken in is refused. -/
theorem declare_ne_breach (p : Prime) (P : Presentation) (l : List Declared) (a : Action) : P.declare p l a ≠ breach := by
  have hresolve : P.resolve p a ≠ breach := by
    refine Result.bind_ne_breach (P.lookup_ne_breach _) fun input _ => Result.bind_ne_breach ?_ fun _ _ => Result.ok_ne_breach _
    refine Result.foldlM_ne_breach (fun v t => Result.bind_ne_breach (P.lookup_ne_breach _) fun x _ => ?_) _ _
    simp only
    split
    · exact Result.refuse_ne_breach _
    · exact Result.ok_ne_breach _
  rw [declare]
  refine Result.bind_ne_breach hresolve fun x _ => ?_
  simp only
  repeat' split
  all_goals first | exact Result.ok_ne_breach _ | exact Result.refuse_ne_breach _

/-- Entries that fit are entered, and the table stays complete. -/
theorem stores_foldl_enter (hl : ∀ x ∈ l, P.Fitting p x) (hdim : M.dimension = P.dimension) (hM : M.Stores p) :
    (l.foldl enter M).Stores p ∧ Entered M (l.foldl enter M) := by
  induction l generalizing M with
  | nil => exact ⟨hM, .refl⟩
  | cons x l ih =>
    obtain ⟨hx, hl⟩ := List.forall_mem_cons.mp hl
    obtain ⟨hstores, hentered⟩ := ih (M := M.enter x) hl hdim (hM.setAction (hdim ▸ hx.fits))
    exact ⟨hstores, .trans (.set _ _ .refl hx.degree_ne (hdim ▸ hx.room)) hentered⟩

/-- Whether an entry is forced can be told. -/
theorem checkForced_ne_breach (hx : P.Fitting p x) (hbasis : x.operation.IsBasis p) (hdim : M.dimension = P.dimension) (hM : M.Stores p)
    (hnames : M.Labelled) (A : Algebra) : checkForced A M x ≠ breach := by
  obtain ⟨v, hv, hvp⟩ := hM hbasis (lt_of_le_of_ne hbasis.nonneg hx.degree_ne.symm) (hdim ▸ hx.input_lt) (hdim ▸ hx.room)
  rw [checkForced, hv]
  change (if v = x.output then .ok () else do
    let value ← M.elementText A (x.input.1 + x.operation.degree) v
    refuse (.invalidRelation x.text (.forced value)) : Result Unit) ≠ breach
  split
  · exact Result.ok_ne_breach _
  · exact Result.bind_ne_breach (elementText_ne_breach hnames hvp.size_eq) fun _ _ => Result.refuse_ne_breach _

/-- Settling answers. -/
theorem answers_settle (hp : A.prime.val < 1073741824) (hl : ∀ x ∈ l, P.Fitting A.prime x ∧ x.operation.IsBasis A.prime)
    (hdim : M.dimension = P.dimension) (hM : M.Stores A.prime) (hnames : M.Labelled) (ht : M.maxDegree - M.minDegree < trackedBelow)
    (hA : M.maxDegree - M.minDegree < A.computed) : Answers A (settle A.prime l M) := by
  obtain ⟨hstores, hentered⟩ := stores_foldl_enter (l := l.filter (listed A.prime ·.operation))
    (fun x hx => (hl x (List.mem_of_mem_filter hx)).1) hdim hM
  have hdegrees : ((l.filter (listed A.prime ·.operation)).foldl enter M).minDegree = M.minDegree ∧
      ((l.filter (listed A.prime ·.operation)).foldl enter M).maxDegree = M.maxDegree := by
    simp only [FiniteModule.minDegree, FiniteModule.maxDegree, hentered.dims_eq, and_self]
  rw [settle]
  generalize (l.filter (listed A.prime ·.operation)).foldl enter M = M₁ at hstores hentered hdegrees
  rw [← hdegrees.1, ← hdegrees.2] at ht hA
  refine (answers_close hp hstores (hentered.labelled hnames) ht hA).bind fun N B hclose => ?_
  have hN := entered_of_run_close hclose
  obtain ⟨_, hNstores, _, _⟩ := of_run_closeSteps hp (pairwise_closingOrder M₁) rfl hstores (fun x hx => by
    obtain ⟨hlow, hlt, hhigh⟩ := mem_closingOrder.mp hx
    omega) (close_eq M₁ ▸ hclose)
  refine (answers_read (Result.forM_ne_breach fun x hx => ?_)).bind fun _ _ _ => answers_of_run (run_pure _ _) (Result.ok_ne_breach _)
  obtain ⟨hx, hbasis⟩ := hl x (List.mem_of_mem_filter (List.mem_mergeSort.mp hx))
  exact checkForced_ne_breach hx hbasis ((hentered.trans hN).dimension_eq.trans hdim) hNstores (hN.labelled (hentered.labelled hnames)) B

/-- The entries of basis elements that fit can be sorted. -/
theorem sortable_of_isBasis (hp : p.val < 1073741824) (hl : ∀ x ∈ l, P.Fitting p x ∧ x.operation.IsBasis p)
    (ht : P.maxDegree - P.minDegree < trackedBelow) : sortable p l = true := by
  refine List.all_eq_true.mpr fun x hx => ?_
  obtain ⟨hx, hbasis⟩ := hl x hx
  have hdegree := hx.degree_le
  obtain ⟨ks, hks, _⟩ := run_generators (A := Algebra.new p none) hp (lt_of_le_of_ne hbasis.nonneg hx.degree_ne.symm) (by omega)
  have hks := generatorsOf_eq_ok hks
  rw [Algebra.new] at hks
  rw [hks]
  rfl

/-- Building gives a module or says why there is none. -/
theorem answers_build (hp : A.prime.val < 1073741824) (hbasis : ∀ a ∈ P.actions, a.operation.IsBasis A.prime)
    (hwords : (isSigned (P.maxDegree + 1) && isSigned (P.maxDegree + 1 - P.minDegree)) = true)
    (ht : P.maxDegree - P.minDegree < trackedBelow) : Answers A P.build := by
  have htracked : (trackedBelow : ℤ) < maxSigned := by decide
  rw [build_eq]
  refine (answers_of_run (run_get _) (Result.ok_ne_breach _)).bind fun B C hget => ?_
  rw [run_get] at hget
  obtain ⟨hB, rfl⟩ := Prod.mk.inj hget
  obtain rfl := Except.ok.inj hB
  refine (answers_read (hwords ▸ Result.ok_ne_breach _)).bind fun _ C hrequire => ?_
  obtain ⟨_, rfl⟩ := run_read_eq_ok.mp hrequire
  refine (answers_read (Result.foldlM_ne_breach (P.declare_ne_breach _) _ _)).bind fun l D hread => ?_
  obtain ⟨hdeclared, rfl⟩ := run_read_eq_ok.mp hread
  have hcollects := collects_of_foldlM hdeclared
  have hl : ∀ x ∈ l, P.Fitting D.prime x ∧ x.operation.IsBasis D.prime := fun x hx => by
    obtain ⟨a, ha, hentry⟩ := hcollects.sound x hx
    obtain ⟨hfits, _, hop⟩ := asks_eq_some hentry
    exact ⟨hfits, hop ▸ hbasis a ha⟩
  rw [Answers, run_finish_eq fun x hx => (hl x hx).1]
  refine (answers_ensure hp (by omega)).bind fun _ A₁ hensure => ?_
  have hprime : A₁.prime = D.prime := (follows_of_run_ensure hensure).1.prime_eq.symm
  have hle := P.minDegree_le
  have hcompute := run_compute_of_le (A := A₁) (hprime ▸ hp) (d := P.maxDegree + 1 - P.minDegree) (by omega)
  have hcomputed : P.maxDegree + 1 - P.minDegree < (A₁.extend (P.maxDegree + 1 - P.minDegree)).computed := by
    rw [A₁.computed_extend]
    split <;> omega
  have hprime' : (A₁.extend (P.maxDegree + 1 - P.minDegree)).prime = D.prime := (A₁.prime_extend _).trans hprime
  have hunderlying := run_underlying hcompute hcomputed
  generalize A₁.extend (P.maxDegree + 1 - P.minDegree) = A₂ at hunderlying hcomputed hprime'
  refine Answers.bind (answers_of_run hunderlying (Result.ok_ne_breach _)) fun M B hrun => ?_
  obtain ⟨hM, rfl⟩ := Prod.mk.inj (hunderlying.symm.trans hrun)
  obtain rfl := Except.ok.inj hM
  rw [if_pos (sortable_of_isBasis hp hl ht), ← hprime']
  rw [← hprime'] at hp hl
  have hmin : (P.start A₂.prime).minDegree = P.minDegree := rfl
  have hmax := maxDegree_start A₂.prime P
  exact answers_settle hp hl (dimension_start _ P) (stores_start _ P) (labelled_start _ P) (by omega) (by omega)

end Presentation
end Steenrod
