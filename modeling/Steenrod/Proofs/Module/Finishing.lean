import Steenrod.Proofs.Module.Declaring
import Steenrod.Proofs.Module.Entries
/-!
How a module is made of the entries that its relations ask for. Main statements: the entries of generators of the algebra are put into
the table, where closing leaves them as they are; and all others are compared with what the closed table holds.
-/
namespace Steenrod

namespace FiniteModule

/-- Put an entry into the table. -/
def enter (M : FiniteModule) (x : Declared) : FiniteModule := M.setAction x.operation x.input.1 x.input.2 x.output

/-- The table holds the entry. -/
def HoldsEntry (M : FiniteModule) (x : Declared) : Prop := M.action? x.operation x.input.1 x.input.2 = some x.output

variable {M M' : FiniteModule} {l : List Declared} {x : Declared} {a : Operation} {d : ℤ} {i : ℕ}

theorem action?_enter (M : FiniteModule) (x : Declared) (a : Operation) (d : ℤ) (i : ℕ) :
    (M.enter x).action? a d i = if x.key = (a, d, i) then (M.action? a d i).map fun _ => x.output else M.action? a d i := by
  rw [enter, action?_setAction]
  refine if_congr ?_ rfl rfl
  rw [Declared.key, Prod.mk.injEq, Prod.ext_iff]
  exact ⟨fun ⟨h, h', h''⟩ => ⟨h.symm, h'.symm, h''.symm⟩, fun ⟨h, h', h''⟩ => ⟨h.symm, h'.symm, h''.symm⟩⟩

theorem action?_foldl_enter_of_forall_ne (h : ∀ x ∈ l, x.key ≠ (a, d, i)) : (l.foldl enter M).action? a d i = M.action? a d i := by
  induction l generalizing M with
  | nil => rfl
  | cons x l ih =>
    obtain ⟨hx, hl⟩ := List.forall_mem_cons.mp h
    rw [List.foldl_cons, ih hl, action?_enter, if_neg hx]

/-- Entries at different places do not get into each other's way. -/
theorem action?_foldl_enter (hdistinct : (l.map Declared.key).Nodup) (hx : x ∈ l) :
    (l.foldl enter M).action? x.operation x.input.1 x.input.2 =
      (M.action? x.operation x.input.1 x.input.2).map fun _ => x.output := by
  induction l generalizing M with
  | nil => exact absurd hx List.not_mem_nil
  | cons y l ih =>
    obtain ⟨hy, hl⟩ := List.nodup_cons.mp hdistinct
    rw [List.foldl_cons]
    rcases List.mem_cons.mp hx with rfl | hmem
    · have hne : ∀ z ∈ l, z.key ≠ (x.operation, x.input.1, x.input.2) := fun z hz heq => hy (List.mem_map.mpr ⟨z, hz, heq⟩)
      rw [action?_foldl_enter_of_forall_ne hne, action?_enter]
      exact if_pos rfl
    · have hne : y.key ≠ (x.operation, x.input.1, x.input.2) := fun heq => hy (List.mem_map.mpr ⟨x, hmem, heq.symm⟩)
      rw [ih hl hmem, action?_enter, if_neg hne]

end FiniteModule

namespace Growing

/-- Whether an operation is one of the generators of the algebra. -/
def listed (p : Prime) (a : Operation) : Bool :=
  match generatorsOf p a.degree with
  | .ok ks => ks.contains a.index
  | .error _ => false

theorem degree_pos_of_listed {p : Prime} {a : Operation} (h : listed p a = true) : 0 < a.degree := by
  by_contra hneg
  rw [listed, generatorsOf, if_pos (not_lt.mp hneg)] at h
  cases h

end Growing

namespace FiniteModule

open Growing

variable {p : Prime} {M M' N : FiniteModule} {A A' : Algebra} {input output : ℤ} {x : ℤ × ℤ}

/-- Extending the actions leaves those of the generators as they are. -/
theorem keeps_listed_of_run_extendActions (hA : A.prime = p) (h : (M.extendActions input output).run A = (.ok M', A')) :
    ChangesOnly (fun a _ => listed p a = false) M M' := by
  rw [extendActions] at h
  simp only at h
  split at h
  · obtain rfl := Except.ok.inj (Prod.mk.inj h).1
    exact .refl _ M
  · obtain ⟨ks, B, hks, h⟩ := run_bind_eq_ok.mp h
    have hlisted : ∀ k, listed p ⟨output - input, k⟩ = ks.contains k := fun k => by
      rw [listed, ← hA, generatorsOf_eq_ok hks]
    obtain ⟨h, _⟩ := run_read_eq_ok.mp h
    obtain ⟨count, _, h⟩ := Result.bind_eq_ok.mp h
    refine Result.foldlM_invariant (I := ChangesOnly (fun a _ => listed p a = false) M) (fun i _ s s' hs h => ?_) (.refl _ M) h
    refine Result.foldlM_invariant (I := ChangesOnly (fun a _ => listed p a = false) M) (fun k hk s s' hs h => ?_) hs h
    obtain ⟨terms, _, h⟩ := Result.bind_eq_ok.mp h
    obtain ⟨v, _, h⟩ := Result.bind_eq_ok.mp h
    obtain rfl := Except.ok.inj h
    refine hs.trans (.setAction ?_ s i v)
    rw [hlisted]
    simpa using List.of_mem_filter hk

/-- Closing a module leaves the actions of the generators as they are. -/
theorem keeps_listed_of_run_close (hA : A.prime = p) (h : M.close.run A = (.ok M', A')) :
    ChangesOnly (fun a _ => listed p a = false) M M' ∧ A'.prime = p := by
  refine ⟨?_, ((onlyExtends_close M).follows h).prime_eq.symm.trans hA⟩
  exact close_invariant (I := ChangesOnly (fun a _ => listed p a = false) M) hA (.refl _ M) h fun _ hB hN hextend =>
    hN.trans (keeps_listed_of_run_extendActions hB hextend)

end FiniteModule

namespace Presentation

open FiniteModule Growing

variable {p : Prime} {P : Presentation} {M N : FiniteModule} {A A' : Algebra} {l : List Declared} {x : Declared} {a : Action}

/-- Build a module once the relations are taken in. -/
def finish (P : Presentation) (declared : List Declared) : Growing FiniteModule := do
  Growing.ensure (P.maxDegree - P.minDegree)
  let M ← P.underlying
  let sorted ← sort declared
  let M := (sorted.filter (·.2)).foldl
    (fun M (x, _) => M.setAction x.operation x.input.1 x.input.2 x.output) M
  let M ← M.close
  let others := ((sorted.filter (!·.2)).map (·.1)).mergeSort checkBefore
  Growing.read fun A => others.forM (checkForced A M)
  pure M

theorem build_eq (P : Presentation) : P.build = (do
    let p := (← get).prime
    Growing.read fun _ => require (isSigned (P.maxDegree + 1) && isSigned (P.maxDegree + 1 - P.minDegree))
    let declared ← Growing.read fun _ => P.actions.foldlM (P.declare p) []
    P.finish declared) := rfl

/-- Put the entries of generators into the table, close it, and compare it with the others. -/
def settle (p : Prime) (l : List Declared) (M : FiniteModule) : Growing FiniteModule := do
  let M ← ((l.filter (listed p ·.operation)).foldl enter M).close
  Growing.read fun A => ((l.filter (!listed p ·.operation)).mergeSort checkBefore).forM (checkForced A M)
  pure M

/-- What a relation asks for fits into the table, and starts from a basis element. -/
structure Fitting (p : Prime) (P : Presentation) (x : Declared) : Prop extends P.Enters p x where
  input_lt : x.input.2 < P.dimension x.input.1

theorem Fitting.degree_le (h : P.Fitting p x) : x.operation.degree ≤ P.maxDegree - P.minDegree := by
  have hinput : ¬(x.input.1 < P.minDegree ∨ P.maxDegree < x.input.1) := fun hout => by
    have := dimension_eq_zero hout
    have := h.input_lt
    omega
  have houtput : ¬(x.input.1 + x.operation.degree < P.minDegree ∨ P.maxDegree < x.input.1 + x.operation.degree) := fun hout => by
    have := dimension_eq_zero hout
    have := h.room
    omega
  omega

/-- What is asked for by a relation. -/
theorem asks_eq_some (h : P.asks p a = .ok (some x)) : P.Fitting p x ∧ P.resolve p a = .ok (x.input, x.output) ∧
    x.operation = a.operation := by
  obtain ⟨⟨input, output⟩, hresolve, h⟩ := Result.bind_eq_ok.mp h
  have hproper := proper_of_resolve hresolve
  simp only at h hproper
  split at h
  · cases h
  · next hsize =>
    split at h
    · split at h <;> cases h
    · next hdegree =>
      obtain rfl := Option.some.inj (Except.ok.inj h)
      refine ⟨⟨⟨hproper, hdegree, ?_⟩, ?_⟩, hresolve, rfl⟩
      · rw [hproper.size_eq] at hsize
        exact Nat.pos_of_ne_zero hsize
      · obtain ⟨input', hlookup, hrest⟩ := Result.bind_eq_ok.mp hresolve
        obtain ⟨_, _, heq⟩ := Result.bind_eq_ok.mp hrest
        obtain rfl := (Prod.mk.inj (Except.ok.inj heq)).1
        rw [lookup] at hlookup
        split at hlookup
        · next hfound => exact Except.ok.inj hlookup ▸ lt_dimension_of_lookup hfound
        · cases hlookup

/-- Whether the generators of the degrees of all entries are found. -/
def sortable (p : Prime) (l : List Declared) : Bool := l.all fun x => (generatorsOf p x.operation.degree).isOk

theorem run_sort_eq (h : ∀ x ∈ l, x.operation.degree < A.computed) : (sort l).run A =
    (if sortable A.prime l then .ok (l.map fun x => (x, listed A.prime x.operation)) else breach, A) := by
  induction l with
  | nil => rfl
  | cons x l ih =>
    obtain ⟨hx, hl⟩ := List.forall_mem_cons.mp h
    have ih := ih hl
    rw [sort] at ih ⊢
    rw [List.mapM_cons, run_bind, run_bind, run_generators_of_lt hx, sortable, List.all_cons, List.map_cons, listed]
    cases hks : generatorsOf A.prime x.operation.degree with
    | error e =>
      rw [generatorsOf_error hks]
      rfl
    | ok ks =>
      simp only [run_pure]
      rw [run_bind, ih]
      change _ = (if sortable A.prime l then _ else _, A)
      by_cases hsort : sortable A.prime l
      · rw [if_pos hsort, if_pos hsort]
        rfl
      · rw [if_neg hsort, if_neg hsort]
        rfl

/-- Where the generators go is all that the order of the entries is read for before the closure. -/
theorem run_finish_eq (h : ∀ x ∈ l, P.Fitting A.prime x) : (P.finish l).run A = (do
    Growing.ensure (P.maxDegree - P.minDegree)
    let M ← P.underlying
    if sortable A.prime l then settle A.prime l M else throw Failure.breach : Growing FiniteModule).run A := by
  rw [finish, run_bind, run_bind (ensure _)]
  have hfollows := onlyExtends_ensure (P.maxDegree - P.minDegree) A
  rcases hensure : (ensure (P.maxDegree - P.minDegree)).run A with ⟨_ | _, B⟩
  · rfl
  · rw [hensure] at hfollows
    simp only at hfollows ⊢
    rw [run_bind, run_bind P.underlying]
    cases hunderlying : P.underlying.run B with
    | mk M C =>
      cases M with
      | error e => rfl
      | ok M =>
        obtain ⟨_, hfollows', hcomputed⟩ := of_run_underlying hunderlying
        have hprime : C.prime = A.prime := (hfollows.trans hfollows').prime_eq.symm
        have hdegrees : ∀ x ∈ l, x.operation.degree < C.computed := fun x hx => by
          have := (h x hx).degree_le
          omega
        simp only
        rw [run_bind, run_sort_eq hdegrees, hprime]
        by_cases hsort : sortable A.prime l
        · rw [if_pos hsort, if_pos hsort, settle]
          have hfst : ((fun y : Declared × Bool => y.1) ∘ fun x => (x, listed A.prime x.operation)) = id := rfl
          simp only [List.filter_map, List.foldl_map, List.map_map, hfst, List.map_id]
          rfl
        · rw [if_neg hsort, if_neg hsort]
          rfl

/-- Before anything is entered the operations of positive degree give zero. -/
theorem action?_start {d : ℤ} {i : ℕ} {b : Operation} (hb : b.IsBasis p) (hpos : 0 < b.degree) (hi : i < P.dimension d)
    (hroom : 0 < P.dimension (d + b.degree)) : (P.start p).action? b d i = some (Vec.zero (P.dimension (d + b.degree))) := by
  have hdim : (zeroTable p P.name P.dims).dimension = P.dimension := dimension_start p P
  have hi : i < (zeroTable p P.name P.dims).dimension d := hdim ▸ hi
  have h := action?_zeroTable P.name hb hpos hi (hdim ▸ hroom)
  rw [hdim] at h
  exact h

theorem Collects.fitting {actions : List Action} (h : Collects p P actions l) : ∀ x ∈ l, P.Fitting p x := fun x hx => by
  obtain ⟨_, _, hentry⟩ := h.sound x hx
  exact (asks_eq_some hentry).1

theorem holdsEntry_of_checkForced (h : checkForced A M x = .ok ()) : M.HoldsEntry x := by
  obtain ⟨v, hv, h⟩ := Result.bind_eq_ok.mp h
  split at h
  · next heq =>
    rw [HoldsEntry, ← heq]
    exact Result.ofOption_eq_ok.mp hv
  · obtain ⟨_, _, h⟩ := Result.bind_eq_ok.mp h
    cases h

/-- What is settled holds all entries, and no others of generators of the algebra. -/
theorem of_run_settle (hA : A.prime = p) (hdistinct : (l.map Declared.key).Nodup)
    (hplace : ∀ x ∈ l, ∃ v, M.action? x.operation x.input.1 x.input.2 = some v) (h : (settle p l M).run A = (.ok N, A')) :
    (∀ x ∈ l, N.HoldsEntry x) ∧ ∀ a d i, listed p a = true → (∀ x ∈ l, x.key ≠ (a, d, i)) → N.action? a d i = M.action? a d i := by
  obtain ⟨N', B, hclose, h⟩ := run_bind_eq_ok.mp h
  obtain ⟨_, C, hcheck, h⟩ := run_bind_eq_ok.mp h
  obtain rfl := Except.ok.inj (Prod.mk.inj h).1
  obtain ⟨hforced, rfl⟩ := run_read_eq_ok.mp hcheck
  obtain ⟨hchanges, _⟩ := keeps_listed_of_run_close hA hclose
  have hkept : ∀ a d i, listed p a = true →
      N'.action? a d i = ((l.filter (listed p ·.operation)).foldl enter M).action? a d i := fun a d i ha =>
    hchanges.action?_eq a d i (by simp [ha])
  refine ⟨fun x hx => ?_, fun a d i ha hne => ?_⟩
  · by_cases hlisted : listed p x.operation = true
    · obtain ⟨v, hv⟩ := hplace x hx
      have hmem : x ∈ l.filter (listed p ·.operation) := List.mem_filter.mpr ⟨hx, hlisted⟩
      rw [HoldsEntry, hkept _ _ _ hlisted, action?_foldl_enter (hdistinct.sublist (List.filter_sublist.map _)) hmem, hv]
      rfl
    · refine holdsEntry_of_checkForced (Result.forM_eq_ok.mp hforced x ?_)
      exact List.mem_mergeSort.mpr (List.mem_filter.mpr ⟨hx, by simp [hlisted]⟩)
  · rw [hkept a d i ha, action?_foldl_enter_of_forall_ne fun x hx => hne x (List.mem_of_mem_filter hx)]

/-- A module that is built holds all entries that its relations ask for, and no others of generators of the algebra. -/
theorem entries_of_run_build (hbasis : ∀ a ∈ P.actions, a.operation.IsBasis A.prime) (h : P.build.run A = (.ok M, A')) :
    ∃ l, Collects A.prime P P.actions l ∧ (∀ x ∈ l, M.HoldsEntry x) ∧ ∀ a d i, listed A.prime a = true →
      (∀ x ∈ l, x.key ≠ (a, d, i)) → M.action? a d i = (P.start A.prime).action? a d i := by
  rw [build_eq, run_bind, run_get] at h
  simp only at h
  obtain ⟨_, A₁, hrequire, h₁⟩ := run_bind_eq_ok.mp h
  obtain ⟨_, rfl⟩ := run_read_eq_ok.mp hrequire
  obtain ⟨l, A₂, hread, h₂⟩ := run_bind_eq_ok.mp h₁
  obtain ⟨hdeclared, rfl⟩ := run_read_eq_ok.mp hread
  have hl := collects_of_foldlM hdeclared
  rw [run_finish_eq hl.fitting] at h₂
  obtain ⟨_, A₃, hensure, h₃⟩ := run_bind_eq_ok.mp h₂
  obtain ⟨M₀, A₄, hunderlying, h₄⟩ := run_bind_eq_ok.mp h₃
  obtain ⟨rfl, hfollows, _⟩ := of_run_underlying hunderlying
  have hprime : A₃.prime = A₂.prime := (follows_of_run_ensure hensure).1.prime_eq.symm
  split at h₄
  · rw [hprime] at h₄
    refine ⟨l, hl, of_run_settle (hfollows.prime_eq.symm.trans hprime) hl.distinct (fun x hx => ?_) h₄⟩
    obtain ⟨a, ha, hentry⟩ := hl.sound x hx
    obtain ⟨hfits, _, hop⟩ := asks_eq_some hentry
    have hx : x.operation.IsBasis A₂.prime := hop ▸ hbasis a ha
    exact ⟨_, action?_start hx (lt_of_le_of_ne hx.nonneg hfits.degree_ne.symm) hfits.input_lt hfits.room⟩
  · cases h₄

end Presentation
end Steenrod
