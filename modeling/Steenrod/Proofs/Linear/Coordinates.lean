import Steenrod.Proofs.Prime.Field
import Steenrod.Linear.Vec
/-!
The coordinates of a vector in the field of its prime, as a function of the position that is zero beyond the
end. Main statements: what the operations on vectors do to coordinates, and that a reduced vector is
determined by its size and its coordinates.
-/
namespace Steenrod

/-- The coordinates of the vectors of size `n`. -/
def Prime.space (p : Prime) (n : ℕ) : Submodule p.Field (ℕ → p.Field) where
  carrier := {f | ∀ i, n ≤ i → f i = 0}
  add_mem' hf hg i hi := by simp [hf i hi, hg i hi]
  zero_mem' _ _ := rfl
  smul_mem' c f hf i hi := by simp [hf i hi]

theorem space_zero {p : Prime} : p.space 0 = ⊥ :=
  (Submodule.eq_bot_iff _).mpr fun f hf => funext fun i => hf i (Nat.zero_le i)

namespace Vec

variable {p : Prime} {n m : ℕ} {v w : Vec}

/-- A reduced vector of size `n`. -/
structure Proper (p : Prime) (n : ℕ) (v : Vec) : Prop where
  size_eq : v.size = n
  reduced : v.Reduced p

def coords (p : Prime) (v : Vec) : ℕ → p.Field := fun i => v.entry i

/-- The vector of size `n` with the given coordinates. -/
def ofCoords (p : Prime) (n : ℕ) (f : ℕ → p.Field) : Vec := ⟨Array.ofFn fun i : Fin n => (f i).val⟩

theorem entry_of_lt {i : ℕ} (h : i < v.entries.size) : v.entry i = v.entries[i] := by
  unfold entry
  rw [Array.getElem?_eq_getElem h, Option.getD_some]

theorem reduced_iff : v.Reduced p ↔ ∀ i, v.entry i < p.val := by
  constructor
  · intro h i
    by_cases hi : i < v.size
    · rw [entry_of_lt hi]
      exact h _ (Array.getElem_mem hi)
    · rw [entry_eq_zero_of_size_le (by omega)]
      exact p.pos
  · intro h x hx
    obtain ⟨i, hi, rfl⟩ := Array.mem_iff_getElem.mp hx
    rw [← entry_of_lt hi]
    exact h i

theorem coords_apply (v : Vec) (i : ℕ) : v.coords p i = (v.entry i : p.Field) := rfl

theorem coords_of_size_le {i : ℕ} (h : v.size ≤ i) : v.coords p i = 0 := by
  rw [coords, entry_eq_zero_of_size_le h, Nat.cast_zero]

theorem coords_eq_zero_iff (hv : v.Reduced p) {i : ℕ} : v.coords p i = 0 ↔ v.entry i = 0 :=
  p.cast_eq_zero_iff (reduced_iff.mp hv i)

theorem ext_entry (hs : v.size = w.size) (h : ∀ i, v.entry i = w.entry i) : v = w := by
  cases v with
  | mk a =>
    cases w with
    | mk b =>
      congr 1
      refine Array.ext hs fun i ha hb => ?_
      have hi := h i
      rw [entry_of_lt ha, entry_of_lt hb] at hi
      exact hi

namespace Proper

theorem coords_mem (hv : Proper p n v) : v.coords p ∈ p.space n :=
  fun _ hi => coords_of_size_le (hv.size_eq ▸ hi)

/-- A proper vector is determined by its coordinates. -/
theorem ext (hv : Proper p n v) (hw : Proper p n w) (h : v.coords p = w.coords p) : v = w := by
  refine ext_entry (hv.size_eq.trans hw.size_eq.symm) fun i => ?_
  exact p.eq_of_cast_eq (reduced_iff.mp hv.reduced i) (reduced_iff.mp hw.reduced i) (congrFun h i)

theorem zero : Proper p n (zero n) := ⟨size_zero n, reduced_zero p n⟩

theorem add (hv : Proper p n v) (c : ℕ) (w : Vec) : Proper p n (v.add p c w) :=
  ⟨(size_add p v c w).trans hv.size_eq, reduced_add p hv.reduced c w⟩

theorem scale (hv : v.size = n) (c : ℕ) : Proper p n (v.scale p c) :=
  ⟨(size_scale p c v).trans hv, reduced_scale p c v⟩

end Proper

theorem proper_ofCoords (f : ℕ → p.Field) : Proper p n (ofCoords p n f) := by
  refine ⟨by simp [ofCoords, size], fun x hx => ?_⟩
  simp only [ofCoords, Array.mem_ofFn] at hx
  obtain ⟨i, rfl⟩ := hx
  exact ZMod.val_lt _

theorem coords_ofCoords {f : ℕ → p.Field} (hf : f ∈ p.space n) : (ofCoords p n f).coords p = f := by
  funext i
  have hs : (ofCoords p n f).size = n := (proper_ofCoords f).size_eq
  by_cases hi : i < n
  · have hlt : i < (ofCoords p n f).size := by omega
    rw [coords_apply, entry_of_lt hlt]
    simp [ofCoords]
  · rw [coords_of_size_le (by omega), hf i (by omega)]

/-- The proper vectors of size `n` have all coordinates of the space. -/
theorem exists_proper {f : ℕ → p.Field} (hf : f ∈ p.space n) : ∃ v, Proper p n v ∧ v.coords p = f :=
  ⟨_, proper_ofCoords f, coords_ofCoords hf⟩

@[simp] theorem coords_zero (n : ℕ) : (zero n).coords p = 0 := by
  funext i
  simp [coords]

theorem Proper.eq_zero (hv : Proper p n v) (h : v.coords p = 0) : v = Vec.zero n :=
  hv.ext Proper.zero (by rw [h, coords_zero])

theorem coords_add (hv : v.Reduced p) (c : ℕ) (hw : w.size ≤ v.size) :
    (v.add p c w).coords p = v.coords p + (c : p.Field) • w.coords p := by
  funext i
  by_cases hi : i < v.size
  · simp [coords, entry_add p v c w i (reduced_iff.mp hv i) hi]
  · have h₁ : (v.add p c w).coords p i = 0 := coords_of_size_le (by rw [size_add]; omega)
    have h₂ : v.coords p i = 0 := coords_of_size_le (by omega)
    have h₃ : w.coords p i = 0 := coords_of_size_le (by omega)
    simp [h₁, h₂, h₃]

theorem Proper.coords_add (hv : Proper p n v) (c : ℕ) (hw : Proper p n w) :
    (v.add p c w).coords p = v.coords p + (c : p.Field) • w.coords p :=
  Vec.coords_add hv.reduced c (by rw [hv.size_eq, hw.size_eq])

theorem coords_scale (c : ℕ) (v : Vec) : (v.scale p c).coords p = (c : p.Field) • v.coords p := by
  funext i
  simp [coords, entry_scale, mul_comm]

theorem entry_unit (n i j : ℕ) : (unit n i).entry j = if j < n ∧ j = i then 1 else 0 := by
  unfold entry unit
  by_cases hj : j < n
  · by_cases hij : i = j
    · simp [hij, hj]
    · simp [hij, Ne.symm hij, hj]
  · simp [hj]

theorem proper_unit (n i : ℕ) : Proper p n (unit n i) := by
  have htwo := p.two_le
  refine ⟨size_unit n i, reduced_iff.mpr fun j => ?_⟩
  rw [entry_unit]
  split <;> omega

theorem coords_unit {i : ℕ} (h : i < n) : (unit n i).coords p = Pi.single i 1 := by
  funext j
  rw [coords, entry_unit]
  by_cases hj : j = i
  · subst hj
    simp [h]
  · simp [hj]

theorem entry_addAt (v : Vec) (i c j : ℕ) :
    (v.addAt p i c).entry j = if j < v.size ∧ j = i then p.sum (v.entry j) c else v.entry j := by
  by_cases hj : j < v.size
  · have hm : j < (v.addAt p i c).size := by rw [size_addAt]; exact hj
    rw [entry_of_lt hm, entry_of_lt hj]
    simp only [addAt, Array.getElem_modify]
    by_cases hij : i = j
    · simp only [hij, hj, and_self, if_true]
      rfl
    · simp only [hij, Ne.symm hij, and_false, if_false]
      rfl
  · rw [entry_eq_zero_of_size_le (by rw [size_addAt]; omega), entry_eq_zero_of_size_le (by omega)]
    simp [hj]

theorem Proper.addAt (hv : Proper p n v) (i c : ℕ) : Proper p n (v.addAt p i c) := by
  refine ⟨(size_addAt p v i c).trans hv.size_eq, reduced_iff.mpr fun j => ?_⟩
  rw [entry_addAt]
  split
  · exact p.sum_lt _ _
  · exact reduced_iff.mp hv.reduced j

theorem coords_addAt {i : ℕ} (hi : i < v.size) (c : ℕ) :
    (v.addAt p i c).coords p = v.coords p + Pi.single i (c : p.Field) := by
  funext j
  rw [coords, entry_addAt]
  by_cases hj : j = i
  · subst hj
    simp [hi, coords]
  · simp [hj, coords]

theorem entry_append (v w : Vec) (i : ℕ) :
    (v.append w).entry i = if i < v.size then v.entry i else w.entry (i - v.size) := by
  simp only [entry, append, Array.getElem?_append, size]
  exact apply_ite (fun x : Option ℕ => x.getD 0) _ _ _

theorem Proper.append (hv : Proper p n v) (hw : Proper p m w) : Proper p (n + m) (v.append w) := by
  refine ⟨by rw [size_append, hv.size_eq, hw.size_eq], reduced_iff.mpr fun i => ?_⟩
  rw [entry_append]
  split
  · exact reduced_iff.mp hv.reduced i
  · exact reduced_iff.mp hw.reduced _

theorem coords_append (v w : Vec) (i : ℕ) :
    (v.append w).coords p i = if i < v.size then v.coords p i else w.coords p (i - v.size) := by
  simp only [coords, entry_append]
  split <;> rfl

theorem entry_block (v : Vec) (a b i : ℕ) :
    (v.block a b).entry i = if i < b - a then v.entry (a + i) else 0 := by
  simp only [entry, block, Array.getElem?_extract]
  split
  · next h => rw [if_pos (by omega)]
  · next h =>
    split
    · have : v.entries.size ≤ a + i := by omega
      simp [this]
    · rfl

theorem Proper.block {a b : ℕ} (hv : Proper p n v) (hb : b ≤ n) : Proper p (b - a) (v.block a b) := by
  refine ⟨by rw [size_block, hv.size_eq, Nat.min_eq_left hb], reduced_iff.mpr fun i => ?_⟩
  rw [entry_block]
  split
  · exact reduced_iff.mp hv.reduced _
  · exact p.pos

theorem coords_block (v : Vec) (a b i : ℕ) :
    (v.block a b).coords p i = if i < b - a then v.coords p (a + i) else 0 := by
  simp only [coords, entry_block]
  split <;> simp

theorem entry_padTo (v : Vec) (k i : ℕ) : (v.padTo k).entry i = v.entry i := by
  by_cases hi : i < v.size
  · unfold entry padTo size at *
    simp [Array.getElem?_append, hi]
  · rw [entry_eq_zero_of_size_le (v := v) (by omega)]
    unfold entry padTo size at *
    simp only [Array.getElem?_append, hi, if_false, Array.getElem?_replicate]
    split <;> rfl

theorem Proper.padTo {k : ℕ} (hv : Proper p n v) (hk : n ≤ k) : Proper p k (v.padTo k) := by
  refine ⟨by rw [size_padTo, hv.size_eq, Nat.max_eq_right hk], reduced_iff.mpr fun i => ?_⟩
  rw [entry_padTo]
  exact reduced_iff.mp hv.reduced i

@[simp] theorem coords_padTo (v : Vec) (k : ℕ) : (v.padTo k).coords p = v.coords p := by
  funext i
  simp only [coords, entry_padTo]

theorem entry_splice {start : ℕ} (h : start + w.size ≤ v.size) (i : ℕ) :
    (v.splice start w).entry i =
      if start ≤ i ∧ i < start + w.size then w.entry (i - start) else v.entry i := by
  have hs : min start v.size - 0 = start := by omega
  simp only [splice, entry_append, size_append, size_block, entry_block, hs]
  by_cases h₁ : i < start
  · have h₂ : i < start + w.size := by omega
    have h₃ : ¬start ≤ i := by omega
    simp [h₁, h₂, h₃]
  · by_cases h₂ : i < start + w.size
    · have h₃ : start ≤ i := by omega
      simp [h₁, h₂, h₃]
    · simp only [h₁, h₂, if_false, and_false]
      split
      · congr 1
        omega
      · rw [entry_eq_zero_of_size_le (by omega)]

theorem Proper.splice {start : ℕ} (hv : Proper p n v) (hw : w.Reduced p) (h : start + w.size ≤ n) :
    Proper p n (v.splice start w) := by
  have hs := hv.size_eq
  refine ⟨?_, reduced_iff.mpr fun i => ?_⟩
  · simp only [Vec.splice, size_append, size_block]
    omega
  · rw [entry_splice (by omega)]
    split
    · exact reduced_iff.mp hw _
    · exact reduced_iff.mp hv.reduced _

theorem coords_splice {start : ℕ} (h : start + w.size ≤ v.size) (i : ℕ) :
    (v.splice start w).coords p i =
      if start ≤ i ∧ i < start + w.size then w.coords p (i - start) else v.coords p i := by
  simp only [coords, entry_splice h]
  split <;> rfl

theorem isZero_iff_entry : v.isZero = true ↔ ∀ i, v.entry i = 0 := by
  unfold isZero
  rw [Array.all_eq_true]
  constructor
  · intro h i
    by_cases hi : i < v.size
    · rw [entry_of_lt hi]
      simpa using h i hi
    · exact entry_eq_zero_of_size_le (by omega)
  · intro h i hi
    have := h i
    rw [entry_of_lt hi] at this
    simp [this]

theorem isZero_iff (hv : v.Reduced p) : v.isZero = true ↔ v.coords p = 0 := by
  rw [isZero_iff_entry, funext_iff]
  exact forall_congr' fun i => (coords_eq_zero_iff hv).symm

end Vec
end Steenrod
