import Steenrod.Proofs.Resolution.Minimality
import Steenrod.Proofs.Resolution.Recorded
import Steenrod.Resolution.Chart
import Mathlib.Data.List.DropRight
/-!
The vanishing line of a minimal resolution. Main statement: stage `s` is zero in the degrees that are less than `s` above
the least degree of the module, and so a chart, whose line for this stage starts there, shows all generators.
-/
namespace Steenrod

/-- What is cut off at the end of a list is there by default. -/
theorem getD_rdropWhile {α : Type} {p : α → Bool} {x : α} {l : List α} (h : ∀ y ∈ l, p y = true → y = x) (k : ℕ) :
    (l.rdropWhile p)[k]?.getD x = l[k]?.getD x := by
  induction l using List.reverseRecOn with
  | nil => rfl
  | append_singleton l y ih =>
    by_cases hy : p y = true
    · rw [List.rdropWhile_concat_pos _ _ _ hy, ih fun z hz => h z (List.mem_append_left _ hz)]
      obtain rfl : y = x := h y (by simp) hy
      rcases lt_trichotomy k l.length with hk | rfl | hk
      · rw [List.getElem?_append_left hk]
      · simp
      · rw [List.getElem?_eq_none hk.le, List.getElem?_eq_none (by simpa using hk)]
    · rw [List.rdropWhile_concat_neg _ _ _ hy]

/-- Only the number zero has a blank sign. -/
theorem isBlank_tally {n : ℕ} (h : Text.isBlank (tally n) = true) : tally n = ' ' ∧ n = 0 := by
  unfold tally at h ⊢
  split at h <;> first | exact ⟨rfl, rfl⟩ | exact absurd h (by decide)

theorem tally_ne_blank {n : ℕ} (h : n ≠ 0) : tally n ≠ ' ' := fun heq => h (isBlank_tally (heq ▸ rfl)).2

theorem FreeModule.lt_nextDegree_of_count {F : FreeModule} {t : ℤ} (h : F.count t ≠ 0) : t < F.nextDegree :=
  FreeModule.degree_lt_nextDegree (g := ⟨t, 0⟩) (FreeModule.mem_generatorList.mpr (Nat.pos_of_ne_zero h))

theorem FreeModule.below_eq_nil {F : FreeModule} {t : ℤ} (h : ∀ d < t, F.count d = 0) : F.below t = [] := by
  refine List.filter_eq_nil_iff.mpr fun g hg hlt => ?_
  have hindex := FreeModule.mem_generatorList.mp hg
  rw [h g.degree (of_decide_eq_true hlt)] at hindex
  exact absurd hindex (Nat.not_lt_zero _)

theorem Representation.dim_free_nil (p : Prime) (t : ℤ) : (Representation.free p []).dim t = 0 :=
  Representation.dim_free_eq_zero fun _ hx => absurd hx List.not_mem_nil

namespace Chart

variable {low : ℤ} {s : ℕ} {F : FreeModule}

/-- The sign in a column of a line, which is blank behind its end. -/
def signAt (line : String) (k : ℕ) : Char := line.toList[k]?.getD ' '

/-- A list of characters with blanks between them. -/
def spaced (cs : List Char) : List Char := [' '].intercalate (cs.map fun c => [c])

theorem spaced_cons_cons (c d : Char) (cs : List Char) : spaced (c :: d :: cs) = c :: ' ' :: spaced (d :: cs) := by
  simp [spaced, List.intercalate]

theorem getD_spaced (cs : List Char) (k : ℕ) : (spaced cs)[2 * k]?.getD ' ' = cs[k]?.getD ' ' := by
  induction cs generalizing k with
  | nil => rfl
  | cons c cs ih =>
    cases cs with
    | nil => cases k <;> simp [spaced, List.intercalate]
    | cons d cs =>
      rw [spaced_cons_cons]
      cases k with
      | zero => rfl
      | succ k => exact ih k

theorem mem_spaced {cs : List Char} {c : Char} (h : c ∈ spaced cs) : c = ' ' ∨ c ∈ cs := by
  induction cs with
  | nil => exact absurd h List.not_mem_nil
  | cons d cs ih =>
    cases cs with
    | nil => exact .inr h
    | cons e cs =>
      rw [spaced_cons_cons, List.mem_cons, List.mem_cons] at h
      rcases h with rfl | rfl | h
      · exact .inr List.mem_cons_self
      · exact .inl rfl
      · exact (ih h).imp_right fun h => List.mem_cons_of_mem d h

/-- The signs of the line of a stage. -/
def signs (low : ℤ) (s : ℕ) (F : FreeModule) : List Char :=
  (GradedModule.degreesBetween (low + s) (F.nextDegree - 1)).map fun t => tally (F.count t)

theorem toList_line (low : ℤ) (s : ℕ) (F : FreeModule) :
    (line low s F).toList = (spaced (signs low s F)).rdropWhile Text.isBlank := by
  rw [line, String.toList_ofList, String.toList_intercalate, spaced, signs, List.map_map, List.map_map]
  have hsingle : (String.toList ∘ fun t => String.singleton (tally (F.count t))) =
      (fun c => [c]) ∘ fun t => tally (F.count t) := funext fun t => String.toList_singleton _
  rw [hsingle]
  rfl

theorem mem_spaced_signs {c : Char} (h : c ∈ spaced (signs low s F)) : ∃ n, c = tally n := by
  rcases mem_spaced h with rfl | h
  · exact ⟨0, rfl⟩
  · obtain ⟨t, _, rfl⟩ := List.mem_map.mp h
    exact ⟨_, rfl⟩

/-- The line of a stage shows the numbers of its generators from the degree `low + s` on. -/
theorem signAt_line (k : ℕ) : signAt (line low s F) (2 * k) = tally (F.count (low + s + k)) := by
  have hblank : ∀ c ∈ spaced (signs low s F), Text.isBlank c = true → c = ' ' := fun c hc hb => by
    obtain ⟨n, rfl⟩ := mem_spaced_signs hc
    exact (isBlank_tally hb).1
  rw [signAt, toList_line, getD_rdropWhile hblank, getD_spaced, signs, List.getElem?_map,
    GradedModule.getElem?_degreesBetween]
  by_cases hk : low + s + k ≤ F.nextDegree - 1
  · rw [if_pos hk]
    rfl
  · have hzero : F.count (low + s + k) = 0 := by
      by_contra hne
      exact hk (Int.le_sub_one_of_lt (FreeModule.lt_nextDegree_of_count hne))
    rw [if_neg hk, hzero]
    rfl

theorem newline_notMem_line : '\n' ∉ (line low s F).toList := by
  rw [toList_line]
  intro h
  obtain ⟨n, hn⟩ := mem_spaced_signs ((List.rdropWhile_prefix Text.isBlank _).subset h)
  have hblank : Text.isBlank (tally n) = true := hn ▸ rfl
  exact absurd (hn.trans (isBlank_tally hblank).1) (by decide)

end Chart

namespace Resolution

/-- A chart consists of lines, and the line of a stage shows the numbers of its generators from the degree on that is
as far above the least one as the stage is above stage 0. -/
theorem chart_eq (R : Resolution) : ∃ lines : List String, R.chart = String.join (lines.map (· ++ "\n")) ∧
    (∀ l ∈ lines, '\n' ∉ l.toList) ∧ ∀ s x, R.stage s = .ok x → ∀ k : ℕ,
      Chart.signAt (lines.reverse[s]?.getD "") (2 * k) = tally (x.module.count (R.minDegree + s + k)) := by
  set all := R.stages.toList.zipIdx.map fun x => Chart.line R.minDegree x.2 x.1.module with hall
  refine ⟨all.reverse.dropWhile (·.isEmpty), rfl, fun l hl => ?_, fun s x hx k => ?_⟩
  · obtain ⟨x, _, rfl⟩ := List.mem_map.mp (List.mem_reverse.mp ((List.dropWhile_suffix _).subset hl))
    exact Chart.newline_notMem_line
  · have hline : all[s]? = some (Chart.line R.minDegree s x.module) := by
      rw [hall, List.getElem?_map, List.getElem?_zipIdx, Array.getElem?_toList, Result.ofOption_eq_ok.mp hx]
      simp
    have hkept : (all.reverse.dropWhile (·.isEmpty)).reverse = all.rdropWhile (·.isEmpty) := rfl
    rw [hkept, getD_rdropWhile fun l _ hl => String.isEmpty_iff.mp hl, hline]
    exact Chart.signAt_line k

namespace Resolves

variable {p : Prime} {X : Representation p} {m t : ℤ} {R : Resolution} {s : ℕ}

/-- If a stage has no generators through degree `t - 1` then the map out of it is injective in degree `t`: an element of the
kernel has no coefficients on the generators of degree `t`, and it has no others. -/
theorem kernel_eq_bot (h : R.Resolves X m) (ht : t < R.next s)
    (hlow : ∀ d < t, (R.mappedAt s).1.count d = 0) :
    Mapped.kernel (R.target X s) (R.mappedAt s) t = ⊥ := by
  have hlower : Mapped.lower p (R.mappedAt s) t = 0 := by
    rw [Mapped.lower_eq_below, FreeModule.below_eq_nil hlow]
    exact Representation.dim_free_nil p t
  rw [Submodule.eq_bot_iff]
  intro v hv
  obtain ⟨hmem, hzero⟩ := Mapped.mem_kernel.mp hv
  have := (h.minimal_through ht).1 v hmem (hzero ▸ Submodule.zero_mem _)
  rwa [hlower, space_zero, Submodule.mem_bot] at this

/-- No stage has a generator below the line, by induction on the stage. -/
theorem count_eq_zero_of_lt_line (h : R.Resolves X m) (hX : ∀ d < m, X.dim d = 0)
    (hline : t < m + s) (ht : t < R.next s) : (R.mappedAt s).1.count t = 0 := by
  induction s generalizing t with
  | zero => exact FreeModule.count_eq_zero_of_lt (by rw [(h.computed 0).source_min]; omega)
  | succ s ih =>
    have ht' := lt_of_lt_of_le ht (h.next_succ_le s)
    have hkernel : R.cycles X (s + 1) t = ⊥ :=
      h.kernel_eq_bot ht' fun d hd => ih (by omega) (by omega)
    have hfinrank := (h.minimal_through ht).2
    rw [h.exact_through ht hX, hkernel, finrank_bot] at hfinrank
    exact Nat.eq_zero_of_add_eq_zero_left hfinrank

end Resolves

variable {p : Prime} {X : Representation p} {m : ℤ} {R : Resolution} {A : Algebra}

/-- In every state and every computed bidegree `(s, t)` with `t` less than `m + s`, stage `s` has no generator in degree
`t` and is zero there. So all generators are in the chart: the one line of it for a stage has their number in the
column of their degree, counted from `m + s`. -/
theorem Reachable.vanishing (h : Reachable X m A R) (hX : ∀ d < m, X.dim d = 0) (h₁ : A.IsAssociative)
    (h₂ : A.IsUnital) :
    (∀ (s : ℕ) (t : ℤ), R.hasComputed s t = true → t < m + s →
      ∃ x, R.stage s = .ok x ∧ x.module.count t = 0 ∧ x.module.dimension A t = .ok 0) ∧
    ∃ lines : List String, R.chart = String.join (lines.map (· ++ "\n")) ∧ (∀ l ∈ lines, '\n' ∉ l.toList) ∧
      ∀ s x, R.stage s = .ok x → ∀ t, x.module.count t ≠ 0 → ∃ k : ℕ, t = m + s + k ∧
        Chart.signAt (lines.reverse[s]?.getD "") (2 * k) = tally (x.module.count t) ∧ tally (x.module.count t) ≠ ' ' := by
  obtain ⟨rfl, hR, hn⟩ := h.resolves hX h₁ h₂
  have hzero : ∀ (s : ℕ) (t : ℤ), t < R.next s → t < m + s → (R.mappedAt s).1.count t = 0 := fun s t ht hline => by
    by_cases hmt : m ≤ t
    · have hle := next_le_zero hR s
      exact hR.count_eq_zero_of_lt_line hX hline ht
    · exact FreeModule.count_eq_zero_of_lt (by rw [(hR.computed s).source_min]; omega)
  refine ⟨fun s t hc hline => ?_, ?_⟩
  · obtain ⟨hs, ht⟩ := (hasComputed_iff hR).mp hc
    refine ⟨_, stage_eq hs, hzero s t ht hline, ?_⟩
    have hbelow : (R.mappedAt s).1.below (t + 1) = [] :=
      FreeModule.below_eq_nil fun d hd => hzero s d (by omega) (by omega)
    have hdim : Mapped.dim A.prime (R.mappedAt s) t = 0 := by
      rw [Mapped.dim_eq_below A.prime _ (lt_add_one t), hbelow]
      exact Representation.dim_free_nil A.prime t
    exact hdim ▸ (hR.knownThrough hn ht).dimension_of_prime_eq rfl (le_refl t)
  · obtain ⟨lines, hchart, hlines, hshown⟩ := R.chart_eq
    refine ⟨lines, hchart, hlines, fun s x hx t hne => ?_⟩
    obtain ⟨hs, rfl⟩ := stage_eq_ok hx
    have hline : m + s ≤ t := by
      by_contra hlt
      exact hne (hzero s t (FreeModule.lt_nextDegree_of_count hne) (not_le.mp hlt))
    have ht : t = m + s + (t - (m + s)).toNat := by omega
    have hsign := hshown s _ hx (t - (m + s)).toNat
    rw [hR.minDegree_eq, ← ht] at hsign
    exact ⟨_, ht, hsign, tally_ne_blank hne⟩

/-- Stage 1 of the resolution of the sphere has nothing in degree 0. -/
theorem vanishing_ofSphere : ofSphere.hasComputed 1 0 = true ∧ ∃ x, ofSphere.stage 1 = .ok x ∧ x.module.count 0 = 0 := by
  have hcomputed : ofSphere.hasComputed 1 0 = true := by decide +kernel
  obtain ⟨hzero, _⟩ := Reachable.vanishing reachable_ofSphere FiniteModule.dimension_sphere_of_neg
    Algebra.isAssociative_first Algebra.isUnital_first
  obtain ⟨x, hx, hcount, _⟩ := hzero 1 0 hcomputed (by decide)
  exact ⟨hcomputed, x, hx, hcount⟩

end Resolution
end Steenrod
