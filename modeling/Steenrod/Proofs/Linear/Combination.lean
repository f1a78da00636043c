import Steenrod.Proofs.Linear.Coordinates
/-!
Loops over the entries of a vector that are not zero. Main statement: a loop that adds a multiple of the `i`-th
of some vectors for the entry at `i` adds up the linear combination that the vector stands for.
-/
namespace Steenrod

/-- A computation answers when both of its parts do. -/
theorem Result.bind_eq_ok {α β : Type} {x : Result α} {f : α → Result β} {b : β} :
    (x >>= f) = .ok b ↔ ∃ a, x = .ok a ∧ f a = .ok b := by
  cases x with
  | error e => simp [bind, Except.bind]
  | ok a => simp [bind, Except.bind]

@[simp] theorem Result.ok_bind {α β : Type} (a : α) (f : α → Result β) :
    ((Except.ok a : Result α) >>= f) = f a := rfl

theorem Result.ofOption_eq_ok {α : Type} {x : Option α} {a : α} :
    Result.ofOption x = .ok a ↔ x = some a := by
  cases x <;> simp [breach]

theorem Result.mapM_eq_ok {α β : Type} {f : α → Result β} {g : α → β} {l : List α}
    (h : ∀ x ∈ l, f x = .ok (g x)) : l.mapM f = .ok (l.map g) := by
  induction l with
  | nil => rfl
  | cons x l ih =>
    rw [List.mapM_cons, h x (by simp), ih fun y hy => h y (by simp [hy])]
    rfl

theorem Result.mapM_congr {α β : Type} {f g : α → Result β} {l : List α} (h : ∀ x ∈ l, f x = g x) : l.mapM f = l.mapM g := by
  induction l with
  | nil => rfl
  | cons x l ih => rw [List.mapM_cons, List.mapM_cons, h x (by simp), ih fun y hy => h y (by simp [hy])]

theorem Result.of_mapM_eq_ok {α β : Type} {f : α → Result β} {l : List α} {r : List β} (h : l.mapM f = .ok r) :
    List.Forall₂ (fun x y => f x = .ok y) l r := by
  induction l generalizing r with
  | nil =>
    obtain rfl := Except.ok.inj h
    exact .nil
  | cons x l ih =>
    rw [List.mapM_cons] at h
    obtain ⟨y, hy, h⟩ := Result.bind_eq_ok.mp h
    obtain ⟨r', hr', h⟩ := Result.bind_eq_ok.mp h
    obtain rfl := Except.ok.inj h
    exact .cons hy (ih hr')

theorem Result.getElem?_of_mapM {α β : Type} {f : α → Result β} {l : List α} {r : List β} (h : l.mapM f = .ok r) {i : ℕ} {b : β} :
    r[i]? = some b ↔ ∃ a, l[i]? = some a ∧ f a = .ok b := by
  obtain ⟨hlength, hget⟩ := List.forall₂_iff_get.mp (of_mapM_eq_ok h)
  constructor
  · intro hb
    obtain ⟨hi, rfl⟩ := List.getElem?_eq_some_iff.mp hb
    exact ⟨_, List.getElem?_eq_getElem (hlength ▸ hi), hget i (hlength ▸ hi) hi⟩
  · rintro ⟨a, ha, hfa⟩
    obtain ⟨hi, rfl⟩ := List.getElem?_eq_some_iff.mp ha
    have hstep := hget i hi (hlength ▸ hi)
    rw [List.getElem?_eq_getElem (hlength ▸ hi)]
    exact congrArg some (Except.ok.inj (hstep.symm.trans hfa))

theorem Result.exists_of_mapM {α β : Type} {f : α → Result β} {l : List α} {r : List β} (h : l.mapM f = .ok r) {a : α} (ha : a ∈ l) :
    ∃ b, f a = .ok b := by
  obtain ⟨i, hi⟩ := List.mem_iff_getElem?.mp ha
  obtain ⟨hlength, _⟩ := List.forall₂_iff_get.mp (of_mapM_eq_ok h)
  have hlt : i < r.length := hlength ▸ (List.getElem?_eq_some_iff.mp hi).1
  obtain ⟨a', ha', hfa⟩ := (getElem?_of_mapM h).mp (List.getElem?_eq_getElem hlt)
  obtain rfl := Option.some.inj (hi.symm.trans ha')
  exact ⟨_, hfa⟩

theorem Result.ofOption_foldlM {α σ : Type} (f : σ → α → Option σ) (l : List α) (s : σ) :
    Result.ofOption (l.foldlM f s) = l.foldlM (fun s x => Result.ofOption (f s x)) s := by
  induction l generalizing s with
  | nil => rfl
  | cons x l ih =>
    rw [List.foldlM_cons, List.foldlM_cons]
    cases f s x with
    | none => rfl
    | some s => exact ih s

/-- If the elements with a property come first in a list, they are a beginning of it. -/
theorem filter_eq_take {α : Type} {q : α → Bool} {l : List α} (h : l.Pairwise fun a b => q b = true → q a = true) :
    l.filter q = l.take (l.countP q) ∧ l.filter (fun a => !q a) = l.drop (l.countP q) := by
  induction l with
  | nil => exact ⟨rfl, rfl⟩
  | cons a l ih =>
    obtain ⟨ha, hl⟩ := List.pairwise_cons.mp h
    obtain ⟨htake, hdrop⟩ := ih hl
    cases hq : q a with
    | true => simp [hq, htake, hdrop]
    | false =>
      have hnone : ∀ b ∈ a :: l, ¬q b = true := by
        intro b hb
        rcases List.mem_cons.mp hb with rfl | hb
        · exact Bool.eq_false_iff.mp hq
        · exact fun hqb => Bool.eq_false_iff.mp hq (ha b hb hqb)
      rw [List.countP_eq_zero.mpr hnone, List.take_zero, List.drop_zero, List.filter_eq_nil_iff, List.filter_eq_self]
      exact ⟨hnone, fun b hb => by simpa using hnone b hb⟩

/-- What every step of a loop keeps holds in the end. -/
theorem Result.foldlM_invariant {σ α : Type} {step : σ → α → Result σ} {I : σ → Prop} {l : List α}
    (hstep : ∀ x ∈ l, ∀ s s', I s → step s x = .ok s' → I s') {s s' : σ} (hs : I s)
    (h : l.foldlM step s = .ok s') : I s' := by
  induction l generalizing s with
  | nil =>
    obtain rfl := Except.ok.inj h
    exact hs
  | cons x l ih =>
    rw [List.foldlM_cons] at h
    obtain ⟨t, ht, h⟩ := Result.bind_eq_ok.mp h
    exact ih (fun y hy => hstep y (by simp [hy])) (hstep x (by simp) s t hs ht) h

theorem require_eq_ok {b : Bool} {u : Unit} : require b = .ok u ↔ b = true := by
  cases b <;> simp [breach]

/-- The combination of `φ 0, φ 1, …` with the first `n` coordinates. -/
def combine {K V : Type} [CommRing K] [AddCommGroup V] [Module K V] (n : ℕ) (φ : ℕ → V) : (ℕ → K) →ₗ[K] V where
  toFun f := ∑ i ∈ Finset.range n, f i • φ i
  map_add' f g := by simp only [Pi.add_apply, add_smul, Finset.sum_add_distrib]
  map_smul' c f := by simp only [Pi.smul_apply, smul_eq_mul, mul_smul, Finset.smul_sum, RingHom.id_apply]

theorem combine_apply {K V : Type} [CommRing K] [AddCommGroup V] [Module K V] (n : ℕ) (φ : ℕ → V)
    (f : ℕ → K) : combine n φ f = ∑ i ∈ Finset.range n, f i • φ i := rfl

theorem combine_single {K V : Type} [CommRing K] [AddCommGroup V] [Module K V] {n i : ℕ} (h : i < n)
    (φ : ℕ → V) (c : K) : combine n φ (Pi.single i c) = c • φ i := by
  rw [combine_apply, Finset.sum_eq_single_of_mem i (Finset.mem_range.mpr h)]
  · rw [Pi.single_eq_same]
  · intro j _ hj
    rw [Pi.single_eq_of_ne hj, zero_smul]

theorem combine_congr {K V : Type} [CommRing K] [AddCommGroup V] [Module K V] {n : ℕ} {φ ψ : ℕ → V}
    {f g : ℕ → K} (hφ : ∀ i < n, φ i = ψ i) (hf : ∀ i < n, f i = g i) : combine n φ f = combine n ψ g := by
  rw [combine_apply, combine_apply]
  refine Finset.sum_congr rfl fun i hi => ?_
  rw [hφ i (Finset.mem_range.mp hi), hf i (Finset.mem_range.mp hi)]

theorem map_combine {K V W : Type} [CommRing K] [AddCommGroup V] [Module K V] [AddCommGroup W] [Module K W]
    (h : V →ₗ[K] W) (n : ℕ) (φ : ℕ → V) (f : ℕ → K) : h (combine n φ f) = combine n (fun i => h (φ i)) f := by
  rw [combine_apply, map_sum]
  exact Finset.sum_congr rfl fun i _ => map_smul h (f i) (φ i)

theorem combine_mem {K V : Type} [CommRing K] [AddCommGroup V] [Module K V] {S : Submodule K V} {n : ℕ}
    {φ : ℕ → V} (h : ∀ i < n, φ i ∈ S) (f : ℕ → K) : combine n φ f ∈ S := by
  rw [combine_apply]
  exact Submodule.sum_mem _ fun i hi => Submodule.smul_mem _ _ (h i (Finset.mem_range.mp hi))

/-- The unit vectors give back what they are combined with. -/
theorem combine_units {K : Type} [CommRing K] {n : ℕ} {f : ℕ → K} (h : ∀ i, n ≤ i → f i = 0) :
    combine n (fun i => Pi.single i (1 : K)) f = f := by
  funext j
  rw [combine_apply, Finset.sum_apply]
  by_cases hj : j < n
  · rw [Finset.sum_eq_single_of_mem j (Finset.mem_range.mpr hj)]
    · simp
    · intro i _ hi
      simp [Pi.single_eq_of_ne (Ne.symm hi)]
  · rw [h j (by omega), Finset.sum_eq_zero]
    intro i hi
    have hi := Finset.mem_range.mp hi
    simp [Pi.single_eq_of_ne (show j ≠ i by omega)]

namespace Vec

variable {p : Prime} {n m : ℕ} {v w : Vec}

theorem mem_nonzero {i x : ℕ} : (i, x) ∈ v.nonzero ↔ v.entry i = x ∧ x ≠ 0 := by
  have hmem : (x, i) ∈ v.toList.zipIdx ↔ v.entries[i]? = some x := by
    rw [List.mk_mem_zipIdx_iff_getElem?, toList, Array.getElem?_toList]
  constructor
  · intro h
    obtain ⟨⟨y, j⟩, hy, hx⟩ := List.mem_filterMap.mp h
    by_cases hz : y = 0
    · simp [hz] at hx
    · simp only [hz, if_false, Option.some.injEq, Prod.mk.injEq] at hx
      obtain ⟨rfl, rfl⟩ := hx
      exact ⟨by rw [entry, hmem.mp hy, Option.getD_some], hz⟩
  · rintro ⟨rfl, hx⟩
    refine List.mem_filterMap.mpr ⟨(v.entry i, i), hmem.mpr ?_, by simp [hx]⟩
    have hi : i < v.size := by
      by_contra hi
      exact hx (entry_eq_zero_of_size_le (by omega))
    rw [entry_of_lt hi, Array.getElem?_eq_getElem hi]

theorem lt_size_of_mem_nonzero {i x : ℕ} (h : (i, x) ∈ v.nonzero) : i < v.size := by
  obtain ⟨rfl, hx⟩ := mem_nonzero.mp h
  by_contra hi
  exact hx (entry_eq_zero_of_size_le (by omega))

theorem sum_nonzero_zipIdx {V : Type} [AddCommMonoid V] [Module p.Field V] (φ : ℕ → V) (l : List ℕ) (k : ℕ) :
    (((l.zipIdx k).filterMap fun (x, i) => if x = 0 then none else some (i, x)).map
        fun ix : ℕ × ℕ => (ix.2 : p.Field) • φ ix.1).sum =
      ∑ i ∈ Finset.range l.length, ((l[i]?.getD 0 : ℕ) : p.Field) • φ (k + i) := by
  induction l generalizing k with
  | nil => simp
  | cons x l ih =>
    have hrest : ∑ i ∈ Finset.range l.length, ((l[i]?.getD 0 : ℕ) : p.Field) • φ (k + 1 + i) =
        ∑ i ∈ Finset.range l.length, (((x :: l)[i + 1]?.getD 0 : ℕ) : p.Field) • φ (k + (i + 1)) := by
      refine Finset.sum_congr rfl fun i _ => ?_
      rw [List.getElem?_cons_succ, (by omega : k + 1 + i = k + (i + 1))]
    rw [List.length_cons, Finset.sum_range_succ', ← hrest, ← ih (k + 1), List.zipIdx_cons]
    by_cases hx : x = 0
    · simp [hx]
    · simp [hx, add_comm]

/-- The entries that are not zero carry the whole combination. -/
theorem sum_nonzero {V : Type} [AddCommGroup V] [Module p.Field V] (φ : ℕ → V) (v : Vec) :
    (v.nonzero.map fun ix : ℕ × ℕ => (ix.2 : p.Field) • φ ix.1).sum =
      combine v.size φ (v.coords p) := by
  have h := sum_nonzero_zipIdx (p := p) φ v.toList 0
  unfold nonzero
  rw [h]
  simp [combine_apply, coords, entry, toList, size]

/-- A loop over a list whose steps each add a vector adds them all, also to what a linear map makes of the result. -/
theorem foldlM_map_add {α V : Type} [AddCommGroup V] [Module p.Field V] (φ : (ℕ → p.Field) →ₗ[p.Field] V)
    {step : Vec → α → Result Vec} {ψ : α → V} (l : List α)
    (hstep : ∀ a ∈ l, ∀ w, Proper p m w →
      ∃ r, step w a = .ok r ∧ Proper p m r ∧ φ (r.coords p) = φ (w.coords p) + ψ a)
    (hw : Proper p m w) :
    ∃ r, l.foldlM step w = .ok r ∧ Proper p m r ∧ φ (r.coords p) = φ (w.coords p) + (l.map ψ).sum := by
  induction l generalizing w with
  | nil => exact ⟨w, rfl, hw, by simp⟩
  | cons a l ih =>
    obtain ⟨r₁, h₁, hp₁, hc₁⟩ := hstep a (by simp) w hw
    obtain ⟨r₂, h₂, hp₂, hc₂⟩ := ih (fun b hb => hstep b (by simp [hb])) hp₁
    refine ⟨r₂, ?_, hp₂, ?_⟩
    · rw [List.foldlM_cons, h₁]
      exact h₂
    · rw [hc₂, hc₁, List.map_cons, List.sum_cons, add_assoc]

theorem foldlM_add {α : Type} {step : Vec → α → Result Vec} {ψ : α → ℕ → p.Field} (l : List α)
    (hstep : ∀ a ∈ l, ∀ w, Proper p m w →
      ∃ r, step w a = .ok r ∧ Proper p m r ∧ r.coords p = w.coords p + ψ a)
    (hw : Proper p m w) :
    ∃ r, l.foldlM step w = .ok r ∧ Proper p m r ∧ r.coords p = w.coords p + (l.map ψ).sum :=
  foldlM_map_add LinearMap.id l hstep hw

/-- If such a loop answers, it has added up what its steps add. -/
theorem foldlM_add_eq_ok {α : Type} {step : Vec → α → Result Vec} {ψ : α → ℕ → p.Field} {r : Vec} (l : List α)
    (hstep : ∀ a ∈ l, ∀ w r, Proper p m w → step w a = .ok r →
      Proper p m r ∧ r.coords p = w.coords p + ψ a)
    (hw : Proper p m w) (h : l.foldlM step w = .ok r) :
    Proper p m r ∧ r.coords p = w.coords p + (l.map ψ).sum := by
  induction l generalizing w with
  | nil =>
    obtain rfl := Except.ok.inj h
    exact ⟨hw, by simp⟩
  | cons a l ih =>
    rw [List.foldlM_cons] at h
    obtain ⟨r₁, h₁, h₂⟩ := Result.bind_eq_ok.mp h
    obtain ⟨hp₁, hc₁⟩ := hstep a (by simp) w r₁ hw h₁
    obtain ⟨hp₂, hc₂⟩ := ih (fun b hb => hstep b (by simp [hb])) hp₁ h₂
    exact ⟨hp₂, by rw [hc₂, hc₁, List.map_cons, List.sum_cons, add_assoc]⟩

theorem foldlM_nonzero_eq_ok {step : Vec → ℕ × ℕ → Result Vec} {φ : ℕ → ℕ → p.Field} {r : Vec}
    (hstep : ∀ i x, (i, x) ∈ v.nonzero → ∀ w r, Proper p m w → step w (i, x) = .ok r →
      Proper p m r ∧ r.coords p = w.coords p + (x : p.Field) • φ i)
    (hw : Proper p m w) (h : v.nonzero.foldlM step w = .ok r) :
    Proper p m r ∧ r.coords p = w.coords p + combine v.size φ (v.coords p) := by
  rw [← sum_nonzero]
  exact foldlM_add_eq_ok v.nonzero (fun ix hix w r hw => hstep ix.1 ix.2 hix w r hw) hw h

/-- A loop over the entries that are not zero adds up a combination, also of what a linear map makes of the result. -/
theorem foldlM_map_nonzero {V : Type} [AddCommGroup V] [Module p.Field V] (χ : (ℕ → p.Field) →ₗ[p.Field] V)
    {f : Vec → ℕ × ℕ → Result Vec} {φ : ℕ → V}
    (hstep : ∀ i x, (i, x) ∈ v.nonzero → ∀ w, Proper p m w →
      ∃ r, f w (i, x) = .ok r ∧ Proper p m r ∧ χ (r.coords p) = χ (w.coords p) + (x : p.Field) • φ i)
    (hw : Proper p m w) :
    ∃ r, v.nonzero.foldlM f w = .ok r ∧ Proper p m r ∧
      χ (r.coords p) = χ (w.coords p) + combine v.size φ (v.coords p) := by
  rw [← sum_nonzero]
  exact foldlM_map_add χ v.nonzero (fun ix hix w hw => hstep ix.1 ix.2 hix w hw) hw

theorem foldlM_nonzero {step : Vec → ℕ × ℕ → Result Vec} {φ : ℕ → ℕ → p.Field}
    (hstep : ∀ i x, (i, x) ∈ v.nonzero → ∀ w, Proper p m w →
      ∃ r, step w (i, x) = .ok r ∧ Proper p m r ∧ r.coords p = w.coords p + (x : p.Field) • φ i)
    (hw : Proper p m w) :
    ∃ r, v.nonzero.foldlM step w = .ok r ∧ Proper p m r ∧
      r.coords p = w.coords p + combine v.size φ (v.coords p) :=
  foldlM_map_nonzero LinearMap.id hstep hw

theorem firstNonzero?_eq_none : v.firstNonzero? = none ↔ v.isZero = true := by
  rw [firstNonzero?, List.head?_eq_none_iff, isZero_iff_entry]
  constructor
  · intro h i
    by_contra hi
    have hmem : (i, v.entry i) ∈ v.nonzero := mem_nonzero.mpr ⟨rfl, hi⟩
    simp [h] at hmem
  · intro h
    refine List.eq_nil_iff_forall_not_mem.mpr fun ix hix => ?_
    obtain ⟨h₁, h₂⟩ := mem_nonzero.mp (show (ix.1, ix.2) ∈ v.nonzero from hix)
    exact h₂ (h₁ ▸ h ix.1)

theorem firstNonzero?_eq_some {c x : ℕ} (h : v.firstNonzero? = some (c, x)) :
    v.entry c = x ∧ x ≠ 0 ∧ ∀ j < c, v.entry j = 0 := by
  have hmem : (c, x) ∈ v.nonzero := List.mem_of_mem_head? h
  obtain ⟨h₁, h₂⟩ := mem_nonzero.mp hmem
  refine ⟨h₁, h₂, fun j hj => ?_⟩
  unfold firstNonzero? nonzero at h
  rw [List.head?_filterMap, List.findSome?_eq_some_iff] at h
  obtain ⟨l₁, a, l₂, hl, ha, hnone⟩ := h
  have hpos : a.2 = l₁.length ∧ a.2 = c := by
    have hget : v.toList.zipIdx[l₁.length]? = some a := by
      rw [hl, List.getElem?_append_right (le_refl _), Nat.sub_self, List.getElem?_cons_zero]
    have hidx := List.getElem?_zipIdx (l := v.toList) (i := 0) (j := l₁.length)
    rw [hget] at hidx
    obtain ⟨y, _, hy⟩ := Option.map_eq_some_iff.mp hidx.symm
    by_cases hz : a.1 = 0
    · simp [hz] at ha
    · simp only [hz, if_false, Option.some.injEq, Prod.mk.injEq] at ha
      exact ⟨by rw [← hy]; simp, ha.1⟩
  by_contra hne
  have hlt : j < l₁.length := by omega
  have hget : v.toList.zipIdx[j]? = some l₁[j] := by
    rw [hl, List.getElem?_append_left hlt, List.getElem?_eq_getElem hlt]
  have hidx := List.getElem?_zipIdx (l := v.toList) (i := 0) (j := j)
  rw [hget] at hidx
  obtain ⟨y, hy, hyl⟩ := Option.map_eq_some_iff.mp hidx.symm
  have hzero := hnone _ (List.getElem_mem hlt)
  rw [← hyl] at hzero
  have hyz : y = 0 := by
    by_contra hy0
    simp [hy0] at hzero
  refine hne ?_
  rw [toList, Array.getElem?_toList] at hy
  rw [entry, hy, Option.getD_some, hyz]

end Vec
end Steenrod
