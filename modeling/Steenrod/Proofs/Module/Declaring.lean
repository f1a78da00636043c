import Steenrod.Proofs.Milnor.Extent
import Steenrod.Proofs.Module.Declared
/-!
What relations declare. Main statements: texts are accepted one by one, whatever was accepted before; and the builder takes the
relations if each of them resolves and no two contradict each other, and then holds one of each.
-/
namespace Steenrod
namespace Presentation

open Growing

variable {p : Prime} {P P' : Presentation} {A A' : Algebra} {text : String} {texts : List String} {a b : Action} {d : ℤ}

/-- The text is a relation whose operation is found in the algebra, which may have to compute its degree. -/
def Accepts (A : Algebra) (text : String) (a : Action) : Prop :=
  a.text = text ∧ ∃ operation B, Relation.parse text = .ok ⟨operation, a.input, a.output⟩ ∧
    (elementNamed operation).run A = (.ok (some a.operation), B)

/-- The algebra after some actions have been accepted. -/
def extendFor (A : Algebra) (actions : List Action) : Algebra := actions.foldl (fun A a => A.extend a.operation.degree) A

@[simp] theorem prime_extendFor (A : Algebra) (actions : List Action) : (extendFor A actions).prime = A.prime := by
  induction actions generalizing A with
  | nil => rfl
  | cons a actions ih => exact (ih _).trans (A.prime_extend a.operation.degree)

theorem Accepts.canCompute (h : Accepts A text a) : A.CanCompute a.operation.degree := by
  obtain ⟨-, _, _, -, hnamed⟩ := h
  exact (run_elementNamed_eq_ok.mp hnamed).2.1

theorem Accepts.isBasis (h : Accepts A text a) : a.operation.IsBasis A.prime := by
  obtain ⟨-, _, _, -, hnamed⟩ := h
  exact (run_elementNamed_eq_ok.mp hnamed).1.isBasis

theorem isBasis_of_accepts {actions : List Action} (h : List.Forall₂ (Accepts A) texts actions) :
    ∀ a ∈ actions, a.operation.IsBasis A.prime := by
  induction h with
  | nil => exact fun _ ha => absurd ha List.not_mem_nil
  | cons h _ ih => exact List.forall_mem_cons.mpr ⟨h.isBasis, ih⟩

/-- What is accepted does not depend on how far the algebra has been computed. -/
theorem accepts_extend_iff (hd : A.CanCompute d) : Accepts (A.extend d) text a ↔ Accepts A text a := by
  unfold Accepts
  simp only [run_elementNamed_eq_ok, A.prime_extend, Algebra.canCompute_extend hd]
  constructor
  · rintro ⟨htext, operation, _, hparse, hfinds, hcan, -⟩
    exact ⟨htext, operation, _, hparse, hfinds, hcan, rfl⟩
  · rintro ⟨htext, operation, _, hparse, hfinds, hcan, -⟩
    exact ⟨htext, operation, _, hparse, hfinds, hcan, rfl⟩

theorem run_addAction_eq_ok : (P.addAction text).run A = (.ok P', A') ↔
    ∃ a, Accepts A text a ∧ P' = { P with actions := P.actions ++ [a] } ∧ A' = A.extend a.operation.degree := by
  rw [addAction]
  constructor
  · intro h
    split at h
    · cases h
    · next relation hparse =>
      obtain ⟨found, B, hnamed, h⟩ := run_bind_eq_ok.mp h
      cases found with
      | none => cases h
      | some x =>
        obtain ⟨hP', rfl⟩ := Prod.mk.inj h
        exact ⟨⟨x, relation.input, relation.output, text⟩, ⟨rfl, _, _, hparse, hnamed⟩, (Except.ok.inj hP').symm,
          (run_elementNamed_eq_ok.mp hnamed).2.2⟩
  · rintro ⟨a, ⟨rfl, operation, B, hparse, hnamed⟩, rfl, rfl⟩
    rw [hparse]
    exact run_bind_eq_ok.mpr ⟨_, _, hnamed, congrArg (_, ·) (run_elementNamed_eq_ok.mp hnamed).2.2⟩

/-- Relations are accepted one by one. -/
theorem run_addActions_eq_ok : (texts.foldlM addAction P).run A = (.ok P', A') ↔ ∃ actions, List.Forall₂ (Accepts A) texts actions ∧
    P' = { P with actions := P.actions ++ actions } ∧ A' = extendFor A actions := by
  induction texts generalizing P A with
  | nil =>
    simp only [List.foldlM_nil, run_pure, Prod.mk.injEq, Except.ok.injEq, List.forall₂_nil_left_iff, exists_eq_left, List.append_nil]
    exact ⟨fun ⟨h, h'⟩ => ⟨h.symm, h'.symm⟩, fun ⟨h, h'⟩ => ⟨h.symm, h'.symm⟩⟩
  | cons text texts ih =>
    rw [List.foldlM_cons]
    constructor
    · intro h
      obtain ⟨P₁, B, hadd, hrest⟩ := run_bind_eq_ok.mp h
      obtain ⟨a, ha, rfl, rfl⟩ := run_addAction_eq_ok.mp hadd
      obtain ⟨actions, hactions, rfl, rfl⟩ := ih.mp hrest
      refine ⟨a :: actions, .cons ha (hactions.imp fun _ _ => (accepts_extend_iff ha.canCompute).mp), ?_, rfl⟩
      simp only [List.append_assoc, List.singleton_append]
    · rintro ⟨_, hactions, rfl, rfl⟩
      obtain ⟨a, actions, ha, hrest, rfl⟩ := List.forall₂_cons_left_iff.mp hactions
      refine run_bind_eq_ok.mpr ⟨_, _, run_addAction_eq_ok.mpr ⟨a, ha, rfl, rfl⟩, ih.mpr ⟨actions, ?_, ?_, rfl⟩⟩
      · exact hrest.imp fun _ _ => (accepts_extend_iff ha.canCompute).mpr
      · simp only [List.append_assoc, List.singleton_append]

/-- What the algebra is after some actions does not depend on their order. -/
theorem extendFor_perm {actions actions' : List Action} (h : actions.Perm actions') : extendFor A actions = extendFor A actions' :=
  h.foldl_eq' (fun a _ b _ A => by rw [A.extend_extend, A.extend_extend, max_comm]) A

end Presentation

namespace Declared

variable {l : List Declared} {x y : Declared}

/-- Which entry of the table a relation is about. -/
def key (x : Declared) : Operation × (ℤ × ℕ) := (x.operation, x.input)

/-- What a relation says, without its words. -/
def content (x : Declared) : (Operation × (ℤ × ℕ)) × Vec := (x.key, x.output)

theorem nodup_content (h : (l.map key).Nodup) : (l.map content).Nodup := by
  refine List.Nodup.of_map Prod.fst ?_
  rwa [List.map_map]

theorem eq_of_key_eq (h : (l.map key).Nodup) (hx : x ∈ l) (hy : y ∈ l) (hkey : x.key = y.key) : x = y :=
  List.inj_on_of_nodup_map h hx hy hkey

end Declared

namespace Presentation

variable {p : Prime} {P : Presentation} {l l' : List Declared} {actions actions' : List Action} {a b : Action} {x y : Declared}

/-- The entry that a relation asks for, if it asks for one: nothing is entered where there is no room, nor for the unit, which has to
act as the identity. -/
def asks (p : Prime) (P : Presentation) (a : Action) : Result (Option Declared) := do
  let x ← P.resolve p a
  if x.2.size = 0 then .ok none
  else if a.operation.degree = 0 then
    if x.2 = Vec.unit x.2.size x.1.2 then .ok none else refuse (.invalidRelation a.text .notIdentity)
  else .ok (some ⟨a.operation, x.1, x.2, a.text⟩)

/-- Take an entry into the list, unless it is there already. -/
def place (l : List Declared) : Option Declared → Result (List Declared)
  | none => .ok l
  | some x =>
    match l.find? fun y => y.operation = x.operation ∧ y.input = x.input with
    | some y => if y.output = x.output then .ok l else refuse (.invalidRelation x.text (.conflict y.text))
    | none => .ok (l ++ [x])

theorem declare_eq_bind (p : Prime) (P : Presentation) (l : List Declared) (a : Action) :
    P.declare p l a = P.asks p a >>= place l := by
  rw [declare, asks]
  cases P.resolve p a with
  | error e => rfl
  | ok x =>
    simp only [Result.ok_bind]
    split
    · rfl
    · split
      · split <;> rfl
      · rfl

/-- An entry that is asked for is there with its value, is there with another one, or is new. -/
theorem place_cases (l : List Declared) (x : Declared) :
    (∃ y ∈ l, y.key = x.key ∧ y.output = x.output ∧ place l (some x) = .ok l) ∨
      (∃ y ∈ l, y.key = x.key ∧ y.output ≠ x.output ∧ place l (some x) = refuse (.invalidRelation x.text (.conflict y.text))) ∨
      (∀ y ∈ l, y.key ≠ x.key) ∧ place l (some x) = .ok (l ++ [x]) := by
  rw [place]
  cases hfind : l.find? fun y => y.operation = x.operation ∧ y.input = x.input with
  | none =>
    refine .inr (.inr ⟨fun y hy hkey => ?_, rfl⟩)
    have := List.find?_eq_none.mp hfind y hy
    exact this (decide_eq_true (Prod.mk.inj hkey))
  | some y =>
    have hy := List.mem_of_find?_eq_some hfind
    have hkey : y.key = x.key := by
      have h := List.find?_some hfind
      obtain ⟨hop, hinput⟩ := of_decide_eq_true h
      exact Prod.ext hop hinput
    simp only
    by_cases houtput : y.output = x.output
    · exact .inl ⟨y, hy, hkey, houtput, if_pos houtput⟩
    · exact .inr (.inl ⟨y, hy, hkey, houtput, if_neg houtput⟩)

/-- The list holds one entry for each that the relations ask for. -/
structure Collects (p : Prime) (P : Presentation) (actions : List Action) (l : List Declared) : Prop where
  distinct : (l.map Declared.key).Nodup
  sound : ∀ x ∈ l, ∃ a ∈ actions, P.asks p a = .ok (some x)
  complete : ∀ a ∈ actions, P.asks p a = .ok none ∨ ∃ x, P.asks p a = .ok (some x) ∧ ∃ y ∈ l, y.content = x.content

theorem Collects.nil : Collects p P [] [] := ⟨List.nodup_nil, by simp, by simp⟩

/-- One more relation, which asks for an entry that is there or for a new one. -/
theorem Collects.declare (h : Collects p P actions l) (hdeclare : P.declare p l a = .ok l') : Collects p P (actions ++ [a]) l' := by
  rw [declare_eq_bind] at hdeclare
  obtain ⟨e, he, hplace⟩ := Result.bind_eq_ok.mp hdeclare
  have hsound : ∀ x ∈ l, ∃ b ∈ actions ++ [a], P.asks p b = .ok (some x) := fun x hx => by
    obtain ⟨b, hb, hentry⟩ := h.sound x hx
    exact ⟨b, List.mem_append_left _ hb, hentry⟩
  cases e with
  | none =>
    obtain rfl := Except.ok.inj hplace
    exact ⟨h.distinct, hsound, List.forall_mem_append.mpr ⟨h.complete, List.forall_mem_singleton.mpr (.inl he)⟩⟩
  | some x =>
    rcases place_cases l x with ⟨y, hy, hkey, houtput, hok⟩ | ⟨y, hy, hkey, houtput, hrefused⟩ | ⟨hnew, hok⟩
    · obtain rfl := Except.ok.inj (hok.symm.trans hplace)
      refine ⟨h.distinct, hsound, List.forall_mem_append.mpr ⟨h.complete, List.forall_mem_singleton.mpr (.inr ⟨x, he, y, hy, ?_⟩)⟩⟩
      exact Prod.ext hkey houtput
    · cases hrefused.symm.trans hplace
    · obtain rfl := Except.ok.inj (hok.symm.trans hplace)
      refine ⟨?_, List.forall_mem_append.mpr ⟨hsound, List.forall_mem_singleton.mpr ⟨a, by simp, he⟩⟩,
        List.forall_mem_append.mpr ⟨fun b hb => ?_, List.forall_mem_singleton.mpr (.inr ⟨x, he, x, by simp, rfl⟩)⟩⟩
      · rw [List.map_append, List.map_singleton, List.nodup_append]
        refine ⟨h.distinct, List.nodup_singleton _, fun k hk k' hk' heq => ?_⟩
        obtain ⟨y, hy, rfl⟩ := List.mem_map.mp hk
        exact hnew y hy (heq.trans (List.mem_singleton.mp hk'))
      · refine (h.complete b hb).imp_right fun ⟨z, hz, y, hy, hcontent⟩ => ⟨z, hz, y, List.mem_append_left _ hy, hcontent⟩

/-- What the builder has taken in. -/
theorem collects_of_foldlM (h : actions.foldlM (P.declare p) [] = .ok l) : Collects p P actions l := by
  have hsteps : ∀ (rest done : List Action) (l₀ : List Declared), Collects p P done l₀ → rest.foldlM (P.declare p) l₀ = .ok l →
      Collects p P (done ++ rest) l := by
    intro rest
    induction rest with
    | nil =>
      intro done l₀ hl₀ h
      rw [List.append_nil]
      exact Except.ok.inj h ▸ hl₀
    | cons a rest ih =>
      intro done l₀ hl₀ h
      rw [List.foldlM_cons] at h
      obtain ⟨l₁, hdeclare, hrest⟩ := Result.bind_eq_ok.mp h
      have := ih (done ++ [a]) l₁ (hl₀.declare hdeclare) hrest
      rwa [List.append_assoc] at this
  exact hsteps actions [] [] .nil h

/-- Each relation resolves, and no two ask for different values of one entry. -/
structure Consistent (p : Prime) (P : Presentation) (actions : List Action) : Prop where
  resolves : ∀ a ∈ actions, ∃ e, P.asks p a = .ok e
  agree : ∀ a ∈ actions, ∀ b ∈ actions, ∀ x y, P.asks p a = .ok (some x) → P.asks p b = .ok (some y) → x.key = y.key →
    x.output = y.output

theorem Collects.consistent (h : Collects p P actions l) : Consistent p P actions where
  resolves a ha := (h.complete a ha).elim (fun he => ⟨_, he⟩) fun ⟨_, he, _⟩ => ⟨_, he⟩
  agree a ha b hb x y hx hy hkey := by
    have hcontent : ∀ a ∈ actions, ∀ x, P.asks p a = .ok (some x) → ∃ z ∈ l, z.content = x.content := fun a ha x hx => by
      rcases h.complete a ha with hnone | ⟨x', hx', hz⟩
      · cases hnone.symm.trans hx
      · cases hx'.symm.trans hx
        exact hz
    obtain ⟨z, hz, hzx⟩ := hcontent a ha x hx
    obtain ⟨w, hw, hwy⟩ := hcontent b hb y hy
    obtain rfl := Declared.eq_of_key_eq h.distinct hz hw ((Prod.mk.inj hzx).1.trans (hkey.trans (Prod.mk.inj hwy).1.symm))
    exact (Prod.mk.inj hzx).2.symm.trans (Prod.mk.inj hwy).2

/-- Consistent relations are taken in, in whatever order they come. -/
theorem Consistent.exists_foldlM (h : Consistent p P actions) : ∃ l, actions.foldlM (P.declare p) [] = .ok l := by
  have hsteps : ∀ (rest done : List Action) (l₀ : List Declared), Collects p P done l₀ → (∀ a ∈ done ++ rest, a ∈ actions) →
      ∃ l, rest.foldlM (P.declare p) l₀ = .ok l := by
    intro rest
    induction rest with
    | nil => exact fun done l₀ _ _ => ⟨l₀, rfl⟩
    | cons a rest ih =>
      intro done l₀ hl₀ hmem
      have ha : a ∈ actions := hmem a (by simp)
      obtain ⟨l₁, hdeclare⟩ : ∃ l₁, P.declare p l₀ a = .ok l₁ := by
        obtain ⟨e, he⟩ := h.resolves a ha
        rw [declare_eq_bind, he, Result.ok_bind]
        cases e with
        | none => exact ⟨l₀, rfl⟩
        | some x =>
          rcases place_cases l₀ x with ⟨_, _, _, _, hok⟩ | ⟨y, hy, hkey, houtput, _⟩ | ⟨_, hok⟩
          · exact ⟨_, hok⟩
          · obtain ⟨b, hb, hentry⟩ := hl₀.sound y hy
            exact absurd (h.agree b (hmem b (List.mem_append_left _ hb)) a ha y x hentry he hkey) houtput
          · exact ⟨_, hok⟩
      obtain ⟨l, hl⟩ := ih (done ++ [a]) l₁ (hl₀.declare hdeclare) (by simpa using hmem)
      exact ⟨l, by rw [List.foldlM_cons, hdeclare]; exact hl⟩
  exact hsteps actions [] [] .nil fun _ ha => ha

theorem Consistent.perm (h : Consistent p P actions) (hperm : actions.Perm actions') : Consistent p P actions' where
  resolves a ha := h.resolves a (hperm.mem_iff.mpr ha)
  agree a ha b hb := h.agree a (hperm.mem_iff.mpr ha) b (hperm.mem_iff.mpr hb)

theorem Collects.mem_content_iff (h : Collects p P actions l) {c : (Operation × (ℤ × ℕ)) × Vec} :
    c ∈ l.map Declared.content ↔ ∃ a ∈ actions, ∃ x, P.asks p a = .ok (some x) ∧ x.content = c := by
  constructor
  · intro hc
    obtain ⟨x, hx, rfl⟩ := List.mem_map.mp hc
    obtain ⟨a, ha, hentry⟩ := h.sound x hx
    exact ⟨a, ha, x, hentry, rfl⟩
  · rintro ⟨a, ha, x, hx, rfl⟩
    rcases h.complete a ha with hnone | ⟨x', hx', y, hy, hcontent⟩
    · cases hnone.symm.trans hx
    · cases hx'.symm.trans hx
      exact List.mem_map.mpr ⟨y, hy, hcontent⟩

/-- In another order the relations are taken in as well, and the same entries are asked for. -/
theorem foldlM_declare_perm (hperm : actions.Perm actions') (h : actions.foldlM (P.declare p) [] = .ok l) :
    ∃ l', actions'.foldlM (P.declare p) [] = .ok l' ∧ (l.map Declared.content).Perm (l'.map Declared.content) := by
  have hl := collects_of_foldlM h
  obtain ⟨l', h'⟩ := (hl.consistent.perm hperm).exists_foldlM
  have hl' := collects_of_foldlM h'
  refine ⟨l', h', (List.perm_ext_iff_of_nodup (Declared.nodup_content hl.distinct) (Declared.nodup_content hl'.distinct)).mpr fun c => ?_⟩
  rw [hl.mem_content_iff, hl'.mem_content_iff]
  simp only [hperm.mem_iff]

end Presentation
end Steenrod
