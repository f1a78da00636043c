import Steenrod.Proofs.Linear.Complement
import Steenrod.Linear.Matrix
/-!
Row reduction column by column. Main statements: an echelon basis is determined by its span; sweeping the columns
from the left, each time with the first row that has an entry there made to lead, keeps the echelon form of the
rows done and the span of all; it ends with the rows and pivots that inserting the rows one after the other gives.
-/
namespace Steenrod

open Vec

/-- What some vectors span. -/
def spanOf (p : Prime) (rows : List Vec) : Submodule p.Field (ℕ → p.Field) :=
  Submodule.span p.Field {f | ∃ v ∈ rows, v.coords p = f}

section Spans

variable {p : Prime} {n : ℕ}

theorem mem_spanOf {rows : List Vec} {v : Vec} (h : v ∈ rows) : v.coords p ∈ spanOf p rows :=
  Submodule.subset_span ⟨v, h, rfl⟩

theorem spanOf_le {rows : List Vec} {V : Submodule p.Field (ℕ → p.Field)} :
    spanOf p rows ≤ V ↔ ∀ v ∈ rows, v.coords p ∈ V := by
  refine Submodule.span_le.trans ⟨fun h v hv => h ⟨v, hv, rfl⟩, ?_⟩
  rintro h f ⟨v, hv, rfl⟩
  exact h v hv

theorem spanOf_append (l l' : List Vec) : spanOf p (l ++ l') = spanOf p l ⊔ spanOf p l' := by
  refine le_antisymm (spanOf_le.mpr fun v hv => ?_) (sup_le ?_ ?_)
  · rcases List.mem_append.mp hv with hv | hv
    · exact Submodule.mem_sup_left (mem_spanOf hv)
    · exact Submodule.mem_sup_right (mem_spanOf hv)
  · exact spanOf_le.mpr fun v hv => mem_spanOf (List.mem_append_left _ hv)
  · exact spanOf_le.mpr fun v hv => mem_spanOf (List.mem_append_right _ hv)

theorem spanOf_cons (v : Vec) (rows : List Vec) :
    spanOf p (v :: rows) = Submodule.span p.Field {v.coords p} ⊔ spanOf p rows := by
  have hone : spanOf p [v] = Submodule.span p.Field {v.coords p} := by
    unfold spanOf
    congr 1
    ext f
    simp [eq_comm]
  rw [← hone, ← spanOf_append, List.singleton_append]

theorem spanOf_perm {l l' : List Vec} (h : l.Perm l') : spanOf p l = spanOf p l' :=
  le_antisymm (spanOf_le.mpr fun _ hv => mem_spanOf (h.mem_iff.mp hv))
    (spanOf_le.mpr fun _ hv => mem_spanOf (h.mem_iff.mpr hv))

theorem spanOf_zero {rows : List Vec} (h : ∀ v ∈ rows, v.coords p = 0) : spanOf p rows = ⊥ :=
  le_bot_iff.mp (spanOf_le.mpr fun v hv => by rw [h v hv]; exact Submodule.zero_mem _)

end Spans

namespace Subspace

variable {p : Prime} {S T : Subspace}

theorem space_eq_spanOf (S : Subspace) : S.space p = spanOf p S.basis := by
  unfold space spanOf basis
  congr 1
  ext f
  constructor
  · rintro ⟨x, hx, rfl⟩
    exact ⟨x.2, List.mem_map.mpr ⟨x, hx, rfl⟩, rfl⟩
  · rintro ⟨v, hv, rfl⟩
    obtain ⟨x, hx, rfl⟩ := List.mem_map.mp hv
    exact ⟨x, hx, rfl⟩

/-- A row is the only element of the span with its entries in the leading columns. -/
theorem Echelon.row_eq (hS : Echelon p S) {f : ℕ → p.Field} (hf : f ∈ S.space p) {x : ℕ × Vec}
    (hx : x ∈ S.leads) (hlead : f x.1 = 1) (hzero : ∀ y ∈ S.leads, y.1 ≠ x.1 → f y.1 = 0) :
    f = x.2.coords p := by
  have hdiff : f - x.2.coords p ∈ S.space p := Submodule.sub_mem _ hf (Submodule.subset_span ⟨x, hx, rfl⟩)
  refine sub_eq_zero.mp ?_
  rw [← hS.mem_space_iff.mp hdiff]
  refine expand_eq_zero fun y hy => ?_
  by_cases hyx : y.1 = x.1
  · rw [Pi.sub_apply, hyx, hlead, hS.leading x hx, sub_self]
  · rw [Pi.sub_apply, hzero y hy hyx, hS.cleared y hy x hx hyx, sub_self]

/-- Each row of one echelon basis of a space is a row of every other. -/
theorem Echelon.mem_of_mem (hS : Echelon p S) (hT : Echelon p T) (hcolumns : S.columns = T.columns)
    (hspace : S.space p = T.space p) {x : ℕ × Vec} (hx : x ∈ S.leads) : x ∈ T.leads := by
  have hsame : ∀ c, (∃ y ∈ S.leads, y.1 = c) ↔ ∃ y ∈ T.leads, y.1 = c := by
    intro c
    rw [hS.exists_lead_iff, hT.exists_lead_iff, hspace]
  obtain ⟨y, hy, hyx⟩ := (hsame x.1).mp ⟨x, hx, rfl⟩
  have hmem : x.2.coords p ∈ T.space p := hspace ▸ Submodule.subset_span ⟨x, hx, rfl⟩
  have hcoords : x.2.coords p = y.2.coords p := by
    refine hT.row_eq hmem hy (by rw [hyx, hS.leading x hx]) fun z hz hzy => ?_
    obtain ⟨w, hw, hwz⟩ := (hsame z.1).mpr ⟨z, hz, rfl⟩
    rw [← hwz]
    exact hS.cleared w hw x hx (by rw [hwz, ← hyx]; exact hzy)
  have hrow : x.2 = y.2 := (hS.proper x hx).ext (hcolumns ▸ hT.proper y hy) hcoords
  rw [Prod.ext hyx.symm hrow]
  exact hy

/-- A space has one echelon basis. -/
theorem Echelon.eq_of_space_eq (hS : Echelon p S) (hT : Echelon p T) (hcolumns : S.columns = T.columns)
    (hspace : S.space p = T.space p) : S = T := by
  have hnodup : ∀ {U : Subspace}, Echelon p U → U.leads.Nodup := fun hU => hU.nodup_columns.of_map _
  have hperm : S.leads.Perm T.leads := by
    refine (List.perm_ext_iff_of_nodup (hnodup hS) (hnodup hT)).mpr fun x => ?_
    exact ⟨hS.mem_of_mem hT hcolumns hspace, hT.mem_of_mem hS hcolumns.symm hspace.symm⟩
  have hleads : S.leads = T.leads := by
    refine hperm.eq_of_pairwise (fun x y _ _ hxy hyx => ?_) hS.sorted hT.sorted
    exact absurd hxy (Nat.lt_asymm hyx)
  cases S
  cases T
  simp only [mk.injEq]
  exact ⟨hcolumns, hleads⟩

end Subspace

namespace Matrix

/-- Elimination when some columns are done: the rows that lead, the rows left, and for each column the row that
leads in it. -/
structure Sweep where
  leads : List (ℕ × Vec)
  rest : List Vec
  pivots : List (Option ℕ)
  deriving DecidableEq, Repr

namespace Sweep

/-- Subtract the multiple of `u` that clears column `c`, where `u` leads. -/
def clear (p : Prime) (c : ℕ) (u row : Vec) : Vec := row.add p (p.negate (row.entry c)) u

/-- The rows without the `k`-th, with the first in its place. -/
def exchange (k : ℕ) (rows : List Vec) : List Vec := (rows.set k (rows.headD (Vec.zero 0))).tail

/-- Let `u`, which comes from the `k`-th of the rows left, lead in column `c`, and clear the column elsewhere. -/
def lead (p : Prime) (s : Sweep) (c k : ℕ) (u : Vec) : Sweep where
  leads := Subspace.clearWith p c u s.leads ++ [(c, u)]
  rest := (exchange k s.rest).map (clear p c u)
  pivots := s.pivots.set c (some s.leads.length)

/-- Do one column: the first row left with an entry there is made to lead with 1; without such a row nothing
happens. -/
def column (p : Prime) (s : Sweep) (c : ℕ) : Sweep :=
  match s.rest.findIdx? fun row => row.entry c != 0 with
  | none => s
  | some k =>
    let row := s.rest[k]?.getD (Vec.zero 0)
    s.lead p c k (row.scale p (p.inverse (row.entry c)))

end Sweep

def startSweep (M : Matrix) : Sweep := ⟨[], M.rows, List.replicate M.columns none⟩

/-- Do all columns, from the left. -/
def sweep (p : Prime) (M : Matrix) : Sweep := (List.range M.columns).foldl (Sweep.column p) M.startSweep

namespace Sweep

variable {p : Prime} {M : Matrix} {s : Sweep} {c : ℕ}

theorem perm_exchange {k : ℕ} {rows : List Vec} (hk : k < rows.length) : rows.Perm (rows[k] :: exchange k rows) := by
  have hswap : (exchange k rows).Perm (rows.eraseIdx k) := by
    cases rows with
    | nil => exact absurd hk (Nat.not_lt_zero k)
    | cons v rows =>
      cases k with
      | zero => exact List.Perm.refl _
      | succ k =>
        exact List.set_perm_cons_eraseIdx (Nat.lt_of_succ_lt_succ hk) v
  exact (List.getElem_cons_eraseIdx_perm hk).symm.trans (hswap.symm.cons _)

theorem coords_clear {n : ℕ} {u row : Vec} (hu : Vec.Proper p n u) (hrow : Vec.Proper p n row) :
    (clear p c u row).coords p = row.coords p - row.coords p c • u.coords p := by
  rw [clear, hrow.coords_add _ hu, Prime.cast_negate, neg_smul, sub_eq_add_neg]
  rfl

/-- Beside `u`, clearing with `u` does not change what rows span. -/
theorem sup_spanOf_clear {n : ℕ} {u : Vec} {rows : List Vec} {V : Submodule p.Field (ℕ → p.Field)}
    (hu : Vec.Proper p n u) (hrows : ∀ r ∈ rows, Vec.Proper p n r) (hV : u.coords p ∈ V) :
    V ⊔ spanOf p (rows.map (clear p c u)) = V ⊔ spanOf p rows := by
  refine le_antisymm (sup_le le_sup_left (spanOf_le.mpr ?_)) (sup_le le_sup_left (spanOf_le.mpr ?_))
  · intro v hv
    obtain ⟨r, hr, rfl⟩ := List.mem_map.mp hv
    rw [coords_clear hu (hrows r hr)]
    exact Submodule.sub_mem _ (Submodule.mem_sup_right (mem_spanOf hr))
      (Submodule.mem_sup_left (Submodule.smul_mem _ _ hV))
  · intro r hr
    have hsplit : r.coords p = (clear p c u r).coords p + r.coords p c • u.coords p := by
      rw [coords_clear hu (hrows r hr), sub_add_cancel]
    rw [hsplit]
    exact Submodule.add_mem _ (Submodule.mem_sup_right (mem_spanOf (List.mem_map.mpr ⟨r, hr, rfl⟩)))
      (Submodule.mem_sup_left (Submodule.smul_mem _ _ hV))

/-- The columns before `c` are done. -/
structure Done (p : Prime) (M : Matrix) (c : ℕ) (s : Sweep) : Prop where
  echelon : Subspace.Echelon p ⟨M.columns, s.leads⟩
  lt_column : ∀ x ∈ s.leads, x.1 < c
  proper : ∀ r ∈ s.rest, Vec.Proper p M.columns r
  zero : ∀ r ∈ s.rest, ∀ j < c, r.coords p j = 0
  span_eq : Subspace.space p ⟨M.columns, s.leads⟩ ⊔ spanOf p s.rest = spanOf p M.rows
  height_eq : s.leads.length + s.rest.length = M.height
  pivots_eq : s.pivots = Subspace.pivots ⟨M.columns, s.leads⟩

theorem done_start (h : ∀ r ∈ M.rows, Vec.Proper p M.columns r) : Done p M 0 M.startSweep where
  echelon := Subspace.echelon_empty M.columns
  lt_column x hx := absurd hx (by simp [startSweep])
  proper := h
  zero _ _ j hj := absurd hj (Nat.not_lt_zero j)
  span_eq := by
    have hempty : Subspace.space p ⟨M.columns, M.startSweep.leads⟩ = ⊥ := Subspace.space_empty M.columns
    rw [hempty, bot_sup_eq]
    rfl
  height_eq := by simp [startSweep, height]
  pivots_eq := by simp [startSweep, Subspace.pivots, List.map_const']

namespace Done

/-- A row left with an entry in the next column, made to lead with 1. -/
theorem fresh (h : Done p M c s) (hc : c < M.columns) {row : Vec} (hrow : row ∈ s.rest) (hne : row.entry c ≠ 0) :
    Subspace.Fresh p ⟨M.columns, s.leads⟩ c (row.scale p (p.inverse (row.entry c))) ∧
      Submodule.span p.Field {(row.scale p (p.inverse (row.entry c))).coords p} =
        Submodule.span p.Field {row.coords p} := by
  have hp := h.proper row hrow
  have hcast : (row.entry c : p.Field) ≠ 0 := fun hz => hne ((coords_eq_zero_iff hp.reduced).mp hz)
  refine ⟨⟨Vec.Proper.scale hp.size_eq _, hc, ?_, fun j hj => ?_, fun x hx => ?_⟩, ?_⟩
  · rw [coords_scale, Pi.smul_apply, coords_apply, smul_eq_mul, p.cast_inverse _ hcast, inv_mul_cancel₀ hcast]
  · rw [coords_scale, Pi.smul_apply, h.zero row hrow j hj, smul_zero]
  · rw [coords_scale, Pi.smul_apply, h.zero row hrow _ (h.lt_column x hx), smul_zero]
  · rw [coords_scale, p.cast_inverse _ hcast, Submodule.span_singleton_smul_eq (inv_ne_zero hcast).isUnit]

theorem skip (h : Done p M c s) (hnone : ∀ r ∈ s.rest, r.entry c = 0) : Done p M (c + 1) s where
  echelon := h.echelon
  lt_column x hx := Nat.lt_succ_of_lt (h.lt_column x hx)
  proper := h.proper
  zero r hr j hj := by
    rcases Nat.lt_or_eq_of_le (Nat.le_of_lt_succ hj) with hlt | rfl
    · exact h.zero r hr j hlt
    · rw [coords_apply, hnone r hr, Nat.cast_zero]
  span_eq := h.span_eq
  height_eq := h.height_eq
  pivots_eq := h.pivots_eq

/-- A column that comes after all others goes to the end. -/
theorem place_eq_append {u : Vec} {leads : List (ℕ × Vec)} (h : ∀ x ∈ leads, x.1 < c) :
    Subspace.place c u leads = leads ++ [(c, u)] := by
  induction leads with
  | nil => rfl
  | cons x leads ih =>
    have hx := h x (by simp)
    rw [Subspace.place, if_neg (Nat.lt_asymm hx), ih fun y hy => h y (by simp [hy]), List.cons_append]

theorem pivots_append {n : ℕ} {u v : Vec} {leads : List (ℕ × Vec)} (h : ∀ x ∈ leads, x.1 < c) :
    Subspace.pivots ⟨n, Subspace.clearWith p c v leads ++ [(c, u)]⟩ =
      (Subspace.pivots ⟨n, leads⟩).set c (some leads.length) := by
  have hsame : ∀ d, (Subspace.clearWith p c v leads).findIdx? (·.1 == d) = leads.findIdx? (·.1 == d) := by
    intro d
    rw [Subspace.clearWith, List.findIdx?_map]
    rfl
  have hlast : leads.findIdx? (·.1 == c) = none := by
    refine List.findIdx?_eq_none_iff.mpr fun x hx => ?_
    exact beq_false_of_ne (Nat.ne_of_lt (h x hx))
  refine List.ext_getElem (by simp [Subspace.pivots]) fun d hd hd' => ?_
  rw [List.getElem_set]
  simp only [Subspace.pivots, List.getElem_map, List.getElem_range, List.findIdx?_append, hsame]
  by_cases hdc : c = d
  · subst hdc
    simp [hlast, Subspace.clearWith]
  · simp [hdc]

theorem lead (h : Done p M c s) {k : ℕ} (hk : k < s.rest.length) {u : Vec}
    (hu : Subspace.Fresh p ⟨M.columns, s.leads⟩ c u)
    (hspan : Submodule.span p.Field {u.coords p} = Submodule.span p.Field {s.rest[k].coords p}) :
    Done p M (c + 1) (s.lead p c k u) := by
  have hperm := perm_exchange hk
  have hothers : ∀ r ∈ exchange k s.rest, r ∈ s.rest := fun r hr =>
    hperm.mem_iff.mpr (List.mem_cons_of_mem _ hr)
  have hcleared : ∀ r ∈ (s.lead p c k u).rest, ∃ r' ∈ s.rest, r = clear p c u r' := by
    intro r hr
    obtain ⟨r', hr', rfl⟩ := List.mem_map.mp hr
    exact ⟨r', hothers r' hr', rfl⟩
  have hplace : Subspace.place c u (Subspace.clearWith p c u s.leads) = (s.lead p c k u).leads := by
    refine place_eq_append fun x hx => ?_
    obtain ⟨y, hy, rfl⟩ := List.mem_map.mp hx
    exact h.lt_column y hy
  constructor
  case echelon =>
    rw [← hplace]
    exact hu.echelon h.echelon
  case lt_column =>
    intro x hx
    rcases List.mem_append.mp hx with hx | hx
    · obtain ⟨y, hy, rfl⟩ := List.mem_map.mp hx
      exact Nat.lt_succ_of_lt (h.lt_column y hy)
    · rw [List.mem_singleton.mp hx]
      exact Nat.lt_succ_self c
  case proper =>
    intro r hr
    obtain ⟨r', hr', rfl⟩ := hcleared r hr
    exact (h.proper r' hr').add _ u
  case zero =>
    intro r hr j hj
    obtain ⟨r', hr', rfl⟩ := hcleared r hr
    rw [coords_clear hu.proper (h.proper r' hr'), Pi.sub_apply, Pi.smul_apply, smul_eq_mul]
    rcases Nat.lt_or_eq_of_le (Nat.le_of_lt_succ hj) with hlt | rfl
    · rw [h.zero r' hr' j hlt, hu.before j hlt, mul_zero, sub_zero]
    · rw [hu.leading, mul_one, sub_self]
  case span_eq =>
    have hmem : u.coords p ∈ Subspace.space p ⟨M.columns, s.leads⟩ ⊔ Submodule.span p.Field {u.coords p} :=
      Submodule.mem_sup_right (Submodule.mem_span_singleton_self _)
    have hspace : Subspace.space p ⟨M.columns, (s.lead p c k u).leads⟩ =
        Subspace.space p ⟨M.columns, s.leads⟩ ⊔ Submodule.span p.Field {u.coords p} := by
      rw [← hplace]
      exact hu.space_eq h.echelon
    calc Subspace.space p ⟨M.columns, (s.lead p c k u).leads⟩ ⊔ spanOf p (s.lead p c k u).rest
        = Subspace.space p ⟨M.columns, s.leads⟩ ⊔ Submodule.span p.Field {u.coords p} ⊔
            spanOf p ((exchange k s.rest).map (clear p c u)) := by rw [hspace]; rfl
      _ = Subspace.space p ⟨M.columns, s.leads⟩ ⊔ Submodule.span p.Field {u.coords p} ⊔
            spanOf p (exchange k s.rest) :=
          sup_spanOf_clear hu.proper (fun r hr => h.proper r (hothers r hr)) hmem
      _ = Subspace.space p ⟨M.columns, s.leads⟩ ⊔ spanOf p s.rest := by
          rw [hspan, sup_assoc, ← spanOf_cons, ← spanOf_perm hperm]
      _ = spanOf p M.rows := h.span_eq
  case height_eq =>
    have hlength := hperm.length_eq
    have hheight := h.height_eq
    rw [List.length_cons] at hlength
    simp only [Sweep.lead, Subspace.clearWith, List.length_append, List.length_map, List.length_singleton]
    omega
  case pivots_eq =>
    rw [Sweep.lead, h.pivots_eq]
    exact (pivots_append h.lt_column).symm

/-- One column of the sweep. -/
theorem column (h : Done p M c s) (hc : c < M.columns) : Done p M (c + 1) (s.column p c) := by
  unfold Sweep.column
  split
  · next hnone =>
    refine h.skip fun r hr => ?_
    simpa using List.findIdx?_eq_none_iff.mp hnone r hr
  · next k hk =>
    obtain ⟨hlt, hne, _⟩ := List.findIdx?_eq_some_iff_getElem.mp hk
    obtain ⟨hfresh, hspan⟩ := h.fresh hc (List.getElem_mem hlt) (by simpa using hne)
    simp only [List.getElem?_eq_getElem hlt, Option.getD_some]
    exact h.lead hlt hfresh hspan

end Done

theorem done_sweep (h : ∀ r ∈ M.rows, Vec.Proper p M.columns r) : Done p M M.columns (M.sweep p) := by
  have hrun : ∀ c ≤ M.columns, Done p M c ((List.range c).foldl (Sweep.column p) M.startSweep) := by
    intro c
    induction c with
    | zero => exact fun _ => done_start h
    | succ c ih =>
      intro hc
      rw [List.range_succ, List.foldl_append, List.foldl_cons, List.foldl_nil]
      exact (ih (by omega)).column hc
  exact hrun M.columns le_rfl

/-- When all columns are done the rows left are zero. -/
theorem Done.rest_eq (h : Done p M M.columns s) : s.rest = List.replicate s.rest.length (Vec.zero M.columns) := by
  refine List.eq_replicate_of_mem fun r hr => (h.proper r hr).eq_zero ?_
  funext j
  rcases Nat.lt_or_ge j M.columns with hj | hj
  · exact h.zero r hr j hj
  · exact (h.proper r hr).coords_mem j hj

theorem Done.space_eq (h : Done p M M.columns s) :
    Subspace.space p ⟨M.columns, s.leads⟩ = spanOf p M.rows := by
  have hzero : spanOf p s.rest = ⊥ := by
    refine spanOf_zero fun r hr => ?_
    rw [h.rest_eq] at hr
    rw [List.eq_of_mem_replicate hr, coords_zero]
  rw [← h.span_eq, hzero, sup_bot_eq]

end Sweep

/-- The sweep gives the rows, the pivots and the rank of the reduced form. -/
theorem sweep_eq {p : Prime} {M : Matrix} (h : ∀ r ∈ M.rows, Vec.Proper p M.columns r) :
    (M.sweep p).leads.map (·.2) ++ (M.sweep p).rest = (M.rowReduce p).rows ∧
      (M.sweep p).pivots = (M.rowSpace p).pivots ∧ (M.sweep p).leads.length = M.rank p := by
  have hdone := Sweep.done_sweep h
  have hS : (⟨M.columns, (M.sweep p).leads⟩ : Subspace) = M.rowSpace p := by
    refine hdone.echelon.eq_of_space_eq (Subspace.echelon_span h) (Subspace.columns_span ..).symm ?_
    rw [hdone.space_eq]
    exact (Subspace.space_span h).symm
  have hleads : (M.sweep p).leads = (M.rowSpace p).leads := congrArg Subspace.leads hS
  have hlength : (M.sweep p).rest.length = M.height - (M.rowSpace p).dimension := by
    have hheight := hdone.height_eq
    rw [hleads] at hheight
    unfold Subspace.dimension
    omega
  refine ⟨?_, ?_, congrArg List.length hleads⟩
  · rw [hdone.rest_eq, hlength, hleads]
    rfl
  · rw [hdone.pivots_eq, hS]

end Matrix
end Steenrod
