import Steenrod.Proofs.Module.Accepted
/-!
A module that has been built is determined by how it acts. Main statements: entering actions keeps the shape of the table and all
entries elsewhere; building enters actions only; and two modules that came from one by entering actions are equal if the operations
act in the same way.
-/
namespace Steenrod

namespace Graded

variable {α β : Type}

theorem ext_get? {g h : Graded α} (hmin : g.minDegree = h.minDegree) (hget : ∀ d, g.get? d = h.get? d) : g = h := by
  obtain ⟨m, entries⟩ := g
  obtain ⟨n, entries'⟩ := h
  obtain rfl : m = n := hmin
  refine congrArg (Graded.mk m) (Array.ext_getElem? fun k => ?_)
  have hplace : ¬m + (k : ℤ) < m := by omega
  have hk := hget (m + k)
  simpa only [get?, if_neg hplace, add_sub_cancel_left, Int.toNat_natCast] using hk

theorem map_modify (g : Graded α) (d : ℤ) {f : α → β} {u : α → α} (hu : ∀ x, f (u x) = f x) : (g.modify d u).map f = g.map f := by
  refine ext_get? ?_ fun e => ?_
  · change (g.modify d u).minDegree = g.minDegree
    unfold modify
    split <;> rfl
  · rw [get?_map, get?_map, get?_modify]
    split
    · cases g.get? e with
      | none => rfl
      | some x => rw [Option.map_some, Option.map_some, Option.map_some, hu]
    · rfl

end Graded

namespace FiniteModule

open Vec Growing

variable {p : Prime} {M N N' : FiniteModule} {A A' : Algebra} {a : Operation} {d : ℤ} {i : ℕ}

/-- How many inputs there are in each row of the table. -/
def shape (M : FiniteModule) : Graded (Graded (Array ℕ)) := M.actions.map (·.map (·.map Array.size))

theorem shape_setAction (M : FiniteModule) (a : Operation) (d : ℤ) (i : ℕ) (v : Vec) : (M.setAction a d i v).shape = M.shape := by
  refine Graded.map_modify _ _ fun outputs => Graded.map_modify _ _ fun operations => ?_
  refine Array.ext_getElem? fun k => ?_
  rw [Array.getElem?_map, Array.getElem?_map, Array.getElem?_modify]
  split
  · cases operations[k]? with
    | none => rfl
    | some inputs => rw [Option.map_some, Option.map_some, Option.map_some, Array.size_setIfInBounds]
  · rfl

/-- Tables of one shape with the same entries are equal. -/
theorem actions_ext (hshape : M.shape = N.shape) (h : ∀ a d i, M.action? a d i = N.action? a d i) : M.actions = N.actions := by
  have hmin : M.shape.minDegree = N.shape.minDegree := congrArg Graded.minDegree hshape
  refine Graded.ext_get? hmin fun d => ?_
  have hrow := congrArg (·.get? d) hshape
  simp only [shape, Graded.get?_map] at hrow
  cases hM : M.actions.get? d with
  | none =>
    rw [hM, Option.map_none, eq_comm, Option.map_eq_none_iff] at hrow
    rw [hrow]
  | some outputs =>
    rw [hM, Option.map_some, eq_comm, Option.map_eq_some_iff] at hrow
    obtain ⟨outputs', hN, hsizes⟩ := hrow
    rw [hN]
    have hleast : outputs'.minDegree = outputs.minDegree := congrArg (fun sizes : Graded (Array ℕ) => sizes.minDegree) hsizes
    refine congrArg some (Graded.ext_get? hleast.symm fun e => ?_)
    have hcell := congrArg (·.get? e) hsizes
    simp only [Graded.get?_map] at hcell
    cases hM' : outputs.get? e with
    | none =>
      rw [hM', Option.map_none, Option.map_eq_none_iff] at hcell
      rw [hcell]
    | some operations =>
      rw [hM', Option.map_some, Option.map_eq_some_iff] at hcell
      obtain ⟨operations', hN', hcounts⟩ := hcell
      rw [hN']
      refine congrArg some (Array.ext_getElem? fun k => ?_)
      have hcount := congrArg (·[k]?) hcounts
      simp only [Array.getElem?_map] at hcount
      have hdegree : d + (e - d) = e := by omega
      cases hM'' : operations[k]? with
      | none =>
        rw [hM'', Option.map_none, Option.map_eq_none_iff] at hcount
        rw [hcount]
      | some inputs =>
        rw [hM'', Option.map_some, Option.map_eq_some_iff] at hcount
        obtain ⟨inputs', hN'', _⟩ := hcount
        rw [hN'']
        refine congrArg some (Array.ext_getElem? fun i => ?_)
        have hentry := h ⟨e - d, k⟩ d i
        simp only [action?_eq, hM, hN, Option.bind_some, hdegree, hM', hN', hM'', hN''] at hentry
        exact hentry

/-- `N` is `M` with actions entered, from degrees to others that are not zero. -/
inductive Entered (M : FiniteModule) : FiniteModule → Prop
  | refl : Entered M M
  | set {N : FiniteModule} {a : Operation} {d : ℤ} (i : ℕ) (v : Vec) : Entered M N → a.degree ≠ 0 → 0 < M.dimension (d + a.degree) →
    Entered M (N.setAction a d i v)

namespace Entered

theorem dims_eq (h : Entered M N) : N.dims = M.dims := by
  induction h with
  | refl => rfl
  | set i v _ _ _ ih => exact ih

theorem dimension_eq (h : Entered M N) : N.dimension = M.dimension := by
  unfold FiniteModule.dimension
  rw [h.dims_eq]

theorem name_eq (h : Entered M N) : N.name = M.name := by
  induction h with
  | refl => rfl
  | set i v _ _ _ ih => exact ih

theorem names_eq (h : Entered M N) : N.names = M.names := by
  induction h with
  | refl => rfl
  | set i v _ _ _ ih => exact ih

theorem shape_eq (h : Entered M N) : N.shape = M.shape := by
  induction h with
  | refl => rfl
  | set i v _ _ _ ih => rw [shape_setAction, ih]

theorem trans (h : Entered M N) (h' : Entered N N') : Entered M N' := by
  induction h' with
  | refl => exact h
  | set i v _ ha hroom ih => exact .set i v ih ha (h.dimension_eq ▸ hroom)

/-- Entries elsewhere are as they were. -/
theorem action?_eq (h : Entered M N) (ha : a.degree = 0 ∨ M.dimension (d + a.degree) = 0) (i : ℕ) :
    N.action? a d i = M.action? a d i := by
  induction h with
  | refl => rfl
  | set j v _ hb hroom ih =>
    rw [action?_setAction, if_neg, ih]
    rintro ⟨rfl, rfl, _⟩
    omega

/-- No entries are added. -/
theorem action?_eq_none (h : Entered M N) (hnone : M.action? a d i = none) : N.action? a d i = none := by
  induction h with
  | refl => exact hnone
  | set j v _ _ _ ih =>
    rw [action?_setAction, ih, Option.map_none, ite_self]

/-- Where the entries are those of the operations of the algebra, it is enough that these act in the same way. -/
theorem ext (hN : Entered M N) (hN' : Entered M N') (hS : N.Stores p) (hS' : N'.Stores p)
    (hplaces : ∀ a d i v, M.action? a d i = some v → a.degree ≠ 0 → a.IsBasis p ∧ i < M.dimension d)
    (h : ∀ a d i, a.IsBasis p → i < M.dimension d → N.stored p a d i = N'.stored p a d i) : N = N' := by
  have hentries : ∀ a d i, N.action? a d i = N'.action? a d i := by
    intro a d i
    by_cases hzero : a.degree = 0 ∨ M.dimension (d + a.degree) = 0
    · rw [hN.action?_eq hzero, hN'.action?_eq hzero]
    · obtain ⟨hdegree, hroom⟩ := not_or.mp hzero
      cases hM : M.action? a d i with
      | none => rw [hN.action?_eq_none hM, hN'.action?_eq_none hM]
      | some v =>
        obtain ⟨ha, hi⟩ := hplaces a d i v hM hdegree
        have hnonneg := ha.nonneg
        obtain ⟨x, hx, hxp⟩ := hS ha (by omega) (by rwa [hN.dimension_eq]) (by rw [hN.dimension_eq]; omega)
        obtain ⟨y, hy, hyp⟩ := hS' ha (by omega) (by rwa [hN'.dimension_eq]) (by rw [hN'.dimension_eq]; omega)
        have heq := h a d i ha hi
        rw [stored, stored, hN.dimension_eq, hN'.dimension_eq, if_neg hroom, if_neg hroom, if_neg hdegree, if_neg hdegree, hx, hy,
          Option.getD_some, Option.getD_some] at heq
        rw [hN.dimension_eq] at hxp
        rw [hN'.dimension_eq] at hyp
        rw [hx, hy, hxp.ext hyp heq]
  have hactions := actions_ext (hN.shape_eq.trans hN'.shape_eq.symm) hentries
  have hname := hN.name_eq.trans hN'.name_eq.symm
  have hdims := hN.dims_eq.trans hN'.dims_eq.symm
  have hnames := hN.names_eq.trans hN'.names_eq.symm
  obtain ⟨name, dims, names, actions⟩ := N
  obtain ⟨name', dims', names', actions'⟩ := N'
  simp only at hactions hname hdims hnames
  rw [hactions, hname, hdims, hnames]

end Entered

/-- What a row of the table is laid out for. -/
theorem of_get?_zeroRow {dims : Graded ℕ} {e : ℤ} {operations : Array (Array Vec)} (h : (zeroRow p dims d).get? e = some operations) (he : e ≠ d) :
    d < e ∧ operations = Array.replicate (Milnor.dim p (e - d)) (Array.replicate ((dims.get? d).getD 0) (Vec.zero ((dims.get? e).getD 0))) := by
  rw [zeroRow, Graded.get?_ofList] at h
  split at h
  · cases h
  · obtain ⟨k, hk⟩ : ∃ k : ℕ, e - d = k + 1 := ⟨(e - d - 1).toNat, by omega⟩
    rw [(by omega : (e - d).toNat = k + 1), List.getElem?_cons_succ, List.getElem?_map, GradedModule.getElem?_degreesBetween] at h
    split at h
    · obtain rfl := Option.some.inj h
      rw [(by omega : d + 1 + (k : ℤ) = e)]
      exact ⟨by omega, rfl⟩
    · cases h

theorem eq_zeroRow_of_get? {name : String} {dims : Graded ℕ} {outputs : Graded (Array (Array Vec))}
    (h : (zeroTable p name dims).actions.get? d = some outputs) : outputs = zeroRow p dims d := by
  obtain ⟨hmin, _⟩ := ((zeroTable p name dims).actions.get?_isSome_iff d).mp (Option.isSome_of_eq_some h)
  have hmin : dims.minDegree ≤ d := hmin
  change (Graded.ofList dims.minDegree (dims.degrees.map (zeroRow p dims))).get? d = _ at h
  rw [Graded.get?_ofList, if_neg (by omega), List.getElem?_map, Option.map_eq_some_iff] at h
  obtain ⟨e, he, rfl⟩ := h
  rw [Graded.degrees, List.getElem?_map, Option.map_eq_some_iff] at he
  obtain ⟨k, hk, rfl⟩ := he
  obtain ⟨_, rfl⟩ := List.getElem?_eq_some_iff.mp hk
  rw [List.getElem_range]
  congr 1
  omega

/-- The entries of the table that is laid out at first are those of the operations of the algebra. -/
theorem of_action?_zeroTable {name : String} {dims : Graded ℕ} {v : Vec} (h : (zeroTable p name dims).action? a d i = some v)
    (ha : a.degree ≠ 0) : a.IsBasis p ∧ i < (zeroTable p name dims).dimension d := by
  rw [FiniteModule.action?_eq] at h
  obtain ⟨inputs, h, hinput⟩ := Option.bind_eq_some_iff.mp h
  obtain ⟨operations, h, hoperation⟩ := Option.bind_eq_some_iff.mp h
  obtain ⟨outputs, hd, houtput⟩ := Option.bind_eq_some_iff.mp h
  obtain rfl := eq_zeroRow_of_get? hd
  obtain ⟨hlt, rfl⟩ := of_get?_zeroRow houtput (by omega)
  rw [add_sub_cancel_left, Array.getElem?_replicate] at hoperation
  split at hoperation
  · next hindex =>
    obtain rfl := Option.some.inj hoperation
    rw [Array.getElem?_replicate] at hinput
    split at hinput
    · next hi => exact ⟨⟨by omega, hindex⟩, hi⟩
    · cases hinput
  · cases hoperation

/-- Extending the actions from one degree to another enters actions. -/
theorem entered_of_run_extendActions {input output : ℤ} (hlt : input < output)
    (h : (M.extendActions input output).run A = (.ok N, A')) : Entered M N := by
  have htarget : input + (output - input) = output := by omega
  rw [extendActions] at h
  simp only at h
  split at h
  · obtain rfl := Except.ok.inj (Prod.mk.inj h).1
    exact .refl
  · next hroom =>
    obtain ⟨ks, B, _, h⟩ := run_bind_eq_ok.mp h
    obtain ⟨h, _⟩ := run_read_eq_ok.mp h
    obtain ⟨count, _, h⟩ := Result.bind_eq_ok.mp h
    refine Result.foldlM_invariant (I := Entered M) (fun i _ s s' hs h => ?_) .refl h
    refine Result.foldlM_invariant (I := Entered M) (fun k _ s s' hs h => ?_) hs h
    obtain ⟨terms, _, h⟩ := Result.bind_eq_ok.mp h
    obtain ⟨v, _, h⟩ := Result.bind_eq_ok.mp h
    obtain rfl := Except.ok.inj h
    refine .set i v hs (by simp only; omega) ?_
    simp only
    rw [htarget]
    exact Nat.pos_of_ne_zero fun hzero => hroom (.inl hzero)

/-- Closing a module enters actions. -/
theorem entered_of_run_close (h : M.close.run A = (.ok N, A')) : Entered M N :=
  close_invariant (I := Entered M) rfl .refl h fun hlt _ hN hextend => hN.trans (entered_of_run_extendActions hlt hextend)

end FiniteModule

namespace Presentation

open FiniteModule

variable {p : Prime} {P : Presentation} {M N : FiniteModule} {A A' B B' : Algebra}

/-- What is built is the module without actions, with actions entered. -/
theorem entered_of_run_build (h : P.build.run A = (.ok M, A')) : Entered (P.start A.prime) M := by
  obtain ⟨declared, sorted, hsteps⟩ := steps_of_run_build h
  obtain ⟨_, _, _, _, hclose⟩ := hsteps.closes
  refine Entered.trans ?_ (entered_of_run_close hclose)
  have hfold : ∀ (l : List (Declared × Bool)) (N : FiniteModule), Entered (P.start A.prime) N → (∀ x ∈ l, P.Enters A.prime x.1) →
      Entered (P.start A.prime) (l.foldl (fun M x => M.setAction x.1.operation x.1.input.1 x.1.input.2 x.1.output) N) := by
    intro l
    induction l with
    | nil => exact fun N hN _ => hN
    | cons x l ih =>
      intro N hN hl
      have hx := hl x (by simp)
      exact ih _ (.set _ _ hN hx.degree_ne (by rw [dimension_start]; exact hx.room)) fun y hy => hl y (by simp [hy])
  exact hfold _ _ .refl fun x hx => hsteps.enters x (List.mem_of_mem_filter hx)

/-- Two modules that are built on the same basis are equal if the algebra acts on them in the same way. -/
theorem eq_of_run_build {P' : Presentation} (hp : A.prime.val < 1073741824) (hM : P.build.run A = (.ok M, A'))
    (hN : P'.build.run B = (.ok N, B')) (hprime : B.prime = A.prime) (hstart : P'.start A.prime = P.start A.prime)
    (h : ∀ a d i, a.IsBasis A.prime → i < P.dimension d → M.stored A.prime a d i = N.stored A.prime a d i) : M = N := by
  have hMS := (closed_of_run_build hp hM).stores
  have hNS := (closed_of_run_build (hprime.symm ▸ hp) hN).stores
  have hM := entered_of_run_build hM
  have hN := entered_of_run_build hN
  rw [hprime] at hNS hN
  rw [hstart] at hN
  refine hM.ext hN hMS hNS (fun a d i v hv ha => ?_) fun a d i ha hi => h a d i ha (by rwa [dimension_start] at hi)
  have hv : (zeroTable A.prime P.name P.dims).action? a d i = some v := hv
  exact of_action?_zeroTable hv ha

end Presentation
end Steenrod
