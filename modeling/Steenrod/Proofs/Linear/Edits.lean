import Steenrod.Linear.Document
import Steenrod.Proofs.Linear.Combination
/-!
The vectors that come of the constructors and the operations, a step at a time, also inside of a block. Main statement: an entry of such a
vector is below the prime, or it stands in a document that was read; where the documents that were read are reduced, the entries decide
whether a vector is zero, where it begins and whether it is equal to another one.
-/
namespace Steenrod
namespace Vec

/-- An operation that changes a vector in place. -/
inductive Edit
  | set (i c : ℕ)
  | addAt (i c : ℕ)
  | add (c : ℕ) (w : Vec)
  | addTensor (offset c : ℕ) (left right : Vec)
  | scale (c : ℕ)
  | clear
  | assign (w : Vec)
  | within (start stop : ℕ) (e : Edit)

namespace Edit

/-- The vectors that an operation takes besides the one it changes. -/
def operands : Edit → List Vec
  | add _ w => [w]
  | addTensor _ _ left right => [left, right]
  | assign w => [w]
  | within _ _ e => e.operands
  | _ => []

/-- The vector after the operation; no vector where the operation breaks a promise. -/
def after? (p : Prime) : Edit → Vec → Option Vec
  | set i c, v => v.set? p i c
  | addAt i c, v => v.addAt? p i c
  | add c w, v => some (v.add p c w)
  | addTensor offset c left right, v => v.addTensor? p offset c left right
  | scale c, v => some (v.scale p c)
  | clear, v => some (Vec.zero v.size)
  | assign w, v => v.assign? w
  | within start stop e, v => do
    let b ← v.block? start stop
    let b ← e.after? p b
    v.splice? start b

end Edit

/-- All entries satisfy `good`. -/
def All (good : ℕ → Prop) (v : Vec) : Prop := ∀ x ∈ v.entries, good x

section Entries

variable {p : Prime} {good : ℕ → Prop} {v w : Vec}

theorem All.append (hv : v.All good) (hw : w.All good) : (v.append w).All good :=
  fun x hx => (Array.mem_append.mp hx).elim (hv x) (hw x)

theorem All.block (hv : v.All good) (start stop : ℕ) : (v.block start stop).All good := by
  intro x hx
  obtain ⟨i, hi, rfl⟩ := Array.mem_iff_getElem.mp hx
  simp only [Vec.block, Array.getElem_extract]
  exact hv _ (Array.getElem_mem _)

theorem All.block? (hv : v.All good) {start stop : ℕ} (h : v.block? start stop = some w) : w.All good := by
  obtain ⟨_, h⟩ := Option.ite_none_right_eq_some.mp h
  obtain rfl := Option.some.inj h
  exact hv.block start stop

theorem All.splice (hv : v.All good) (hw : w.All good) (start : ℕ) : (v.splice start w).All good :=
  ((hv.block 0 start).append hw).append (hv.block _ _)

variable (hgood : ∀ x < p.val, good x)

include hgood

theorem all_zero (n : ℕ) : (Vec.zero n).All good := fun x hx => hgood x (reduced_zero p n x hx)

theorem all_ofList (l : List ℕ) : (ofList p l).All good := fun x hx => hgood x (reduced_ofList p l x hx)

theorem all_scale (c : ℕ) (v : Vec) : (v.scale p c).All good := fun x hx => hgood x (reduced_scale p c v x hx)

theorem All.padTo (hv : v.All good) (n : ℕ) : (v.padTo n).All good := hv.append (all_zero hgood (n - v.size))

theorem All.add (hv : v.All good) (c : ℕ) (w : Vec) : (v.add p c w).All good := by
  unfold Vec.add
  split
  · exact hv
  · intro x hx
    obtain ⟨i, hi, rfl⟩ := Array.mem_mapIdx.mp hx
    split
    · exact hgood _ (Nat.mod_lt _ p.pos)
    · exact hv _ (Array.getElem_mem hi)

theorem All.addAt (hv : v.All good) (i c : ℕ) : (v.addAt p i c).All good := by
  intro x hx
  obtain ⟨j, hj, rfl⟩ := Array.mem_iff_getElem.mp hx
  simp only [Vec.addAt, Array.getElem_modify]
  split
  · exact hgood _ (p.sum_lt _ _)
  · exact hv _ (Array.getElem_mem _)

theorem All.set? (hv : v.All good) {i c : ℕ} (h : v.set? p i c = some w) : w.All good := by
  obtain ⟨_, h⟩ := Option.ite_none_right_eq_some.mp h
  obtain rfl := Option.some.inj h
  intro x hx
  rcases Array.mem_or_eq_of_mem_setIfInBounds hx with hmem | rfl
  · exact hv x hmem
  · exact hgood _ (Nat.mod_lt _ p.pos)

theorem All.addBlock? (hv : v.All good) {start c : ℕ} {u : Vec} (h : v.addBlock? p start c u = some w) : w.All good := by
  obtain ⟨b, hb, h⟩ := Option.bind_eq_some_iff.mp h
  obtain rfl := Option.some.inj h
  exact hv.splice ((hv.block? hb).add hgood c u) start

theorem All.addTensor? (hv : v.All good) {offset c : ℕ} {left right : Vec} (h : v.addTensor? p offset c left right = some w) :
    w.All good := by
  have hfold := (Result.ofOption_foldlM _ left.nonzero v).symm.trans (congrArg Result.ofOption h)
  refine Result.foldlM_invariant (I := All good) (fun x _ s s' hs hstep => ?_) hv hfold
  exact hs.addBlock? hgood (Result.ofOption_eq_ok.mp hstep)

/-- An operation keeps the entries good, if those of its operands are. -/
theorem All.after? {e : Edit} (hv : v.All good) (he : ∀ u ∈ e.operands, u.All good) (h : e.after? p v = some w) : w.All good := by
  induction e generalizing v w with
  | set i c => exact hv.set? hgood h
  | addAt i c =>
    obtain ⟨_, h⟩ := Option.ite_none_right_eq_some.mp h
    obtain rfl := Option.some.inj h
    exact hv.addAt hgood i c
  | add c u =>
    obtain rfl := Option.some.inj h
    exact hv.add hgood c u
  | addTensor offset c left right => exact hv.addTensor? hgood h
  | scale c =>
    obtain rfl := Option.some.inj h
    exact all_scale hgood c v
  | clear =>
    obtain rfl := Option.some.inj h
    exact all_zero hgood v.size
  | assign u =>
    obtain ⟨_, h⟩ := Option.ite_none_right_eq_some.mp h
    obtain rfl := Option.some.inj h
    exact he u (List.mem_singleton_self u)
  | within start stop e ih =>
    obtain ⟨b, hb, h⟩ := Option.bind_eq_some_iff.mp h
    obtain ⟨b', hb', h⟩ := Option.bind_eq_some_iff.mp h
    obtain ⟨_, h⟩ := Option.ite_none_right_eq_some.mp h
    obtain rfl := Option.some.inj h
    exact hv.splice (ih (hv.block? hb) he hb') start

end Entries

/-- The vectors over a prime that are constructed, read from one of the documents, or found from others by operations. -/
inductive Obtained (p : Prime) (texts : Set String) : Vec → Prop
  | zero (n : ℕ) : Obtained p texts (Vec.zero n)
  | ofList (l : List ℕ) : Obtained p texts (Vec.ofList p l)
  | ofText {text : String} {v : Vec} (htext : text ∈ texts) (hv : Vec.ofText text = .ok (some (p, v))) : Obtained p texts v
  | padTo {v : Vec} (hv : Obtained p texts v) (n : ℕ) : Obtained p texts (v.padTo n)
  | block {v w : Vec} (hv : Obtained p texts v) {start stop : ℕ} (hw : v.block? start stop = some w) : Obtained p texts w
  | edit {v w : Vec} (hv : Obtained p texts v) {e : Edit} (he : ∀ u ∈ e.operands, Obtained p texts u) (hw : e.after? p v = some w) :
    Obtained p texts w

/-- The entries of the vectors over a prime that stand in the documents. -/
def Written (p : Prime) (texts : Set String) (x : ℕ) : Prop := ∃ text ∈ texts, ∃ v, Vec.ofText text = .ok (some (p, v)) ∧ x ∈ v.entries

section Obtained

variable {p : Prime} {texts : Set String} {v w : Vec}

/-- No operation gives rise to an entry that is not reduced. -/
theorem Obtained.lt_or_written (h : Obtained p texts v) : v.All fun x => x < p.val ∨ Written p texts x := by
  have hgood : ∀ x < p.val, x < p.val ∨ Written p texts x := fun _ => .inl
  induction h with
  | zero n => exact all_zero hgood n
  | ofList l => exact all_ofList hgood l
  | ofText htext hv => exact fun x hx => .inr ⟨_, htext, _, hv, hx⟩
  | padTo _ n ih => exact ih.padTo hgood n
  | block _ hw ih => exact ih.block? hw
  | edit _ _ hw ih ihe => exact ih.after? hgood ihe hw

theorem Obtained.reduced (h : Obtained p texts v) (htexts : ∀ x, Written p texts x → x < p.val) : v.Reduced p :=
  fun x hx => (h.lt_or_written x hx).elim id (htexts x)

/-- The first entry that is not zero is at the first coordinate that is not zero, and is its residue. -/
theorem firstNonzero?_eq_some_iff (hv : v.Reduced p) {i x : ℕ} : v.firstNonzero? = some (i, x) ↔
    v.coords p i ≠ 0 ∧ (∀ j < i, v.coords p j = 0) ∧ (v.coords p i).val = x := by
  have hzero : ∀ j, v.coords p j = 0 ↔ v.entry j = 0 := fun j => coords_eq_zero_iff hv
  have hval : ∀ j, (v.coords p j).val = v.entry j := fun j => ZMod.val_natCast_of_lt (reduced_iff.mp hv j)
  simp only [ne_eq, hzero, hval]
  constructor
  · intro h
    obtain ⟨hentry, hne, hbefore⟩ := firstNonzero?_eq_some h
    exact ⟨hentry ▸ hne, hbefore, hentry⟩
  · rintro ⟨hne, hbefore, rfl⟩
    cases hfirst : v.firstNonzero? with
    | none => exact absurd (isZero_iff_entry.mp (firstNonzero?_eq_none.mp hfirst) i) hne
    | some found =>
      obtain ⟨j, y⟩ := found
      obtain ⟨rfl, hne', hbefore'⟩ := firstNonzero?_eq_some hfirst
      rcases lt_trichotomy i j with hlt | rfl | hlt
      · exact absurd (hbefore' i hlt) hne
      · rfl
      · exact absurd (hbefore j hlt) hne'

theorem eq_iff_coords (hv : v.Reduced p) (hw : w.Reduced p) : v = w ↔ v.size = w.size ∧ v.coords p = w.coords p := by
  constructor
  · rintro rfl
    exact ⟨rfl, rfl⟩
  · rintro ⟨hsize, hcoords⟩
    exact Proper.ext ⟨hsize, hv⟩ ⟨rfl, hw⟩ hcoords

/-- The entries of a vector are below the prime, apart from those that stand in a document that was read. Where these are below the prime, too,
the entries decide as the elements of the vector space do. -/
theorem Obtained.decides (hv : Obtained p texts v) (hw : Obtained p texts w) :
    (∀ x ∈ v.entries, x < p.val ∨ Written p texts x) ∧
    ((∀ x, Written p texts x → x < p.val) → v.Reduced p ∧ (v.isZero = true ↔ v.coords p = 0) ∧
      (v.firstNonzero? = none ↔ v.coords p = 0) ∧
      (∀ i x, v.firstNonzero? = some (i, x) ↔ v.coords p i ≠ 0 ∧ (∀ j < i, v.coords p j = 0) ∧ (v.coords p i).val = x) ∧
      (v = w ↔ v.size = w.size ∧ v.coords p = w.coords p)) := by
  refine ⟨hv.lt_or_written, fun htexts => ?_⟩
  have hreduced := hv.reduced htexts
  exact ⟨hreduced, isZero_iff hreduced, firstNonzero?_eq_none.trans (isZero_iff hreduced), fun _ _ => firstNonzero?_eq_some_iff hreduced,
    eq_iff_coords hreduced (hw.reduced htexts)⟩

end Obtained

/-- A document for a vector of two entries, and the vector after one of them has been changed inside of a block. -/
theorem Obtained.decides_twoEntries : ∃ (texts : Set String) (v w : Vec), Obtained Prime.two texts v ∧ Obtained Prime.two texts w ∧
    (∀ x, Written Prime.two texts x → x < Prime.two.val) ∧ v.Reduced Prime.two ∧ v.firstNonzero? = some (0, 1) ∧ v ≠ w ∧
    (v = w ↔ v.size = w.size ∧ v.coords Prime.two = w.coords Prime.two) := by
  have hread : Vec.ofText "\x7b\"p\":2,\"entries\":[1,0]\x7d" = .ok (some (Prime.two, ⟨#[1, 0]⟩)) := by decide +kernel
  have hv : Obtained Prime.two {"\x7b\"p\":2,\"entries\":[1,0]\x7d"} ⟨#[1, 0]⟩ := .ofText rfl hread
  have hw : Obtained Prime.two {"\x7b\"p\":2,\"entries\":[1,0]\x7d"} ⟨#[1, 1]⟩ :=
    hv.edit (e := .within 1 2 (.addAt 0 3)) (fun _ h => absurd h List.not_mem_nil) (by decide)
  have hwritten : ∀ x, Written Prime.two {"\x7b\"p\":2,\"entries\":[1,0]\x7d"} x → x < Prime.two.val := by
    rintro x ⟨_, rfl, u, hu, hx⟩
    obtain rfl : (⟨#[1, 0]⟩ : Vec) = u := (Prod.mk.inj (Option.some.inj (Except.ok.inj (hread.symm.trans hu)))).2
    have hle : x = 1 ∨ x = 0 := by simpa using hx
    have : Prime.two.val = 2 := rfl
    omega
  obtain ⟨_, hreduced⟩ := Obtained.decides hv hw
  obtain ⟨hreduced, _, _, _, heq⟩ := hreduced hwritten
  exact ⟨_, _, _, hv, hw, hwritten, hreduced, by decide, by decide, heq⟩

/-- A document that is read with an entry that is not reduced: a vector that is not the zero vector, although it has its coordinates. -/
theorem Obtained.exists_not_reduced : ∃ (text : String) (v : Vec), Vec.ofText text = .ok (some (Prime.two, v)) ∧
    Obtained Prime.two {text} v ∧ ¬v.Reduced Prime.two ∧ v.coords Prime.two = 0 ∧ v.isZero = false ∧ v.firstNonzero? = some (0, 2) ∧
    v ≠ Vec.zero v.size := by
  have hread : Vec.ofText "\x7b\"p\":2,\"entries\":[2]\x7d" = .ok (some (Prime.two, ⟨#[2]⟩)) := by decide +kernel
  refine ⟨_, _, hread, .ofText rfl hread, fun h => absurd (h 2 (by simp)) (by decide), funext fun i => ?_, by simp [isZero], by decide, by decide⟩
  rw [coords_apply]
  cases i with
  | zero => exact ZMod.natCast_self 2
  | succ i => exact Nat.cast_zero

end Vec
end Steenrod
