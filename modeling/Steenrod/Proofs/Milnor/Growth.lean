import Steenrod.Proofs.Milnor.Enumeration
/-!
Computations that may extend the algebra. Main statement: what they leave behind is the same algebra, computed at least as
far as before.
-/
namespace Steenrod
namespace Growing

variable {α β : Type} {A A' : Algebra}

theorem run_bind (x : Growing α) (f : α → Growing β) (A : Algebra) :
    (x >>= f).run A = match x.run A with
      | (.ok a, B) => (f a).run B
      | (.error e, B) => (.error e, B) := by
  change (ExceptT.bindCont f (x.run A).1).run (x.run A).2 = _
  rcases x.run A with ⟨_ | a, B⟩ <;> rfl

@[simp] theorem run_pure (a : α) (A : Algebra) : (pure a : Growing α).run A = (.ok a, A) := rfl

@[simp] theorem run_throw (e : Failure) (A : Algebra) : (throw e : Growing α).run A = (.error e, A) := rfl

@[simp] theorem run_get (A : Algebra) : (get : Growing Algebra).run A = (.ok A, A) := rfl

@[simp] theorem run_set (A B : Algebra) : (set B : Growing PUnit).run A = (.ok ⟨⟩, B) := rfl

theorem run_read (f : Algebra → Result α) (A : Algebra) : (read f).run A = (f A, A) := by
  unfold read
  rw [run_bind, run_get]
  simp only
  cases f A <;> rfl

/-- `A'` has all that is computed in `A`, and as much beyond as a request made it. -/
structure Follows (A A' : Algebra) : Prop where
  prime_eq : A.prime = A'.prime
  cap_eq : A.cap = A'.cap
  computed_le : A.computed ≤ A'.computed

theorem Follows.refl (A : Algebra) : Follows A A := ⟨rfl, rfl, le_refl _⟩

theorem follows_extend (A : Algebra) (d : ℤ) : Follows A (A.extend d) where
  prime_eq := (A.prime_extend d).symm
  cap_eq := (A.cap_extend d).symm
  computed_le := by
    rw [A.computed_extend]
    split <;> omega

theorem run_compute (d : ℤ) (A : Algebra) : (∃ e, (compute d).run A = (.error e, A)) ∨
    ∃ A', (compute d).run A = (.ok (), A') ∧ Follows A A' ∧ d < A'.computed := by
  unfold compute
  rw [run_bind, run_get]
  simp only
  split
  · next h => exact .inr ⟨A, rfl, Follows.refl A, h⟩
  · next h =>
    split
    · exact .inl ⟨_, rfl⟩
    · refine .inr ⟨_, rfl, follows_extend A d, ?_⟩
      rw [A.computed_extend, if_neg h]
      omega

theorem run_compute_of_lt {d : ℤ} (h : d < A.computed) : (compute d).run A = (.ok (), A) := by
  rw [compute, run_bind, run_get]
  simp only
  rw [if_pos h]
  rfl

/-- Degrees that are signed words can be computed, if the prime is one. -/
theorem run_compute_of_signed (hp : 0 ≤ A.prime.signed) {d : ℤ} (h : d ≤ maxSigned) : (compute d).run A = (.ok (), A.extend d) := by
  rw [compute, run_bind, run_get]
  simp only
  split
  · next hlt =>
    rw [Algebra.extend, if_pos hlt]
    rfl
  · rw [if_neg (by omega)]
    rfl

theorem signed_nonneg {p : Prime} (hp : (p.val : ℤ) ≤ maxSigned) : 0 ≤ p.signed := by
  have hsigned : p.signed = p.val := signed32_of_small hp
  omega

theorem run_compute_of_le (hp : A.prime.val < 1073741824) {d : ℤ} (h : d ≤ maxSigned) :
    (compute d).run A = (.ok (), A.extend d) :=
  run_compute_of_signed (signed_nonneg (by unfold maxSigned; omega)) h

/-- Degrees below the tracked bound can be computed. -/
theorem run_compute_tracked (hp : A.prime.val < 1073741824) {d : ℤ} (h : d < Milnor.trackedBelow) :
    (compute d).run A = (.ok (), A.extend d) := by
  have htracked : (Milnor.trackedBelow : ℤ) ≤ maxSigned := by decide
  exact run_compute_of_le hp (by omega)

theorem run_ensure_of_signed (hcap : A.cap = none) (hp : (A.prime.val : ℤ) ≤ maxSigned) {d : ℤ} (h : d ≤ maxSigned) :
    (ensure d).run A = (.ok (), A.extend d) := by
  rw [ensure, run_bind, run_get]
  simp only
  rw [hcap]
  exact run_compute_of_signed (signed_nonneg hp) h

/-- Degrees that the cap admits can be asked for. -/
theorem run_ensure_of_le (hp : A.prime.val < 1073741824) {d : ℤ} (hcap : ∀ cap ∈ A.cap, d ≤ cap) (h : d ≤ maxSigned) :
    (ensure d).run A = (.ok (), A.extend d) := by
  rw [ensure, run_bind, run_get]
  simp only
  split
  · next cap hsome =>
    rw [if_neg (not_lt.mpr (hcap cap hsome))]
    exact run_compute_of_le hp h
  · exact run_compute_of_le hp h

theorem run_ensure_of_lt {d : ℤ} (h : d < A.computed) (hcap : A.cap = none) : (ensure d).run A = (.ok (), A) := by
  rw [ensure, run_bind, run_get]
  simp only
  rw [hcap]
  exact run_compute_of_lt h

theorem run_ensure (d : ℤ) (A : Algebra) : (∃ e, (ensure d).run A = (.error e, A)) ∨
    ∃ A', (ensure d).run A = (.ok (), A') ∧ Follows A A' ∧ d < A'.computed := by
  unfold ensure
  rw [run_bind, run_get]
  simp only
  split
  · split
    · exact .inl ⟨_, rfl⟩
    · exact run_compute d A
  · exact run_compute d A

theorem follows_of_run_ensure {A' : Algebra} {d : ℤ} (h : (ensure d).run A = (.ok (), A')) : Follows A A' ∧ d < A'.computed := by
  obtain ⟨e, he⟩ | ⟨A₁, hA₁, hfollows, hcomputed⟩ := run_ensure d A
  · cases h.symm.trans he
  · obtain rfl : A' = A₁ := congrArg Prod.snd (h.symm.trans hA₁)
    exact ⟨hfollows, hcomputed⟩

theorem Follows.trans {A A' A'' : Algebra} (h : Follows A A') (h' : Follows A' A'') : Follows A A'' :=
  ⟨h.prime_eq.trans h'.prime_eq, h.cap_eq.trans h'.cap_eq, h.computed_le.trans h'.computed_le⟩

/-- Whatever comes of a computation, it leaves the algebra computed at least as far as before. -/
def OnlyExtends (x : Growing α) : Prop := ∀ A, Follows A (x.run A).2

theorem OnlyExtends.follows {x : Growing α} {r : Except Failure α} (hx : OnlyExtends x) (h : x.run A = (r, A')) : Follows A A' := by
  have hfollows := hx A
  rwa [h] at hfollows

theorem onlyExtends_pure (a : α) : OnlyExtends (pure a : Growing α) := fun A => Follows.refl A

theorem onlyExtends_throw (e : Failure) : OnlyExtends (throw e : Growing α) := fun A => Follows.refl A

theorem onlyExtends_get : OnlyExtends (get : Growing Algebra) := fun A => Follows.refl A

theorem onlyExtends_read (f : Algebra → Result α) : OnlyExtends (read f) := fun A => by
  rw [run_read]
  exact Follows.refl A

theorem onlyExtends_compute (d : ℤ) : OnlyExtends (compute d) := fun A => by
  rcases run_compute d A with ⟨e, h⟩ | ⟨A', h, hA', _⟩
  · rw [h]
    exact Follows.refl A
  · rw [h]
    exact hA'

theorem onlyExtends_ensure (d : ℤ) : OnlyExtends (ensure d) := fun A => by
  rcases run_ensure d A with ⟨e, h⟩ | ⟨A', h, hA', _⟩
  · rw [h]
    exact Follows.refl A
  · rw [h]
    exact hA'

theorem OnlyExtends.bind {x : Growing α} {f : α → Growing β} (hx : OnlyExtends x) (hf : ∀ a, OnlyExtends (f a)) :
    OnlyExtends (x >>= f) := fun A => by
  have h := hx A
  rw [run_bind]
  split
  · next a B hrun =>
    rw [hrun] at h
    exact h.trans (hf a B)
  · next e B hrun =>
    rw [hrun] at h
    exact h

theorem onlyExtends_mapM {f : α → Growing β} (h : ∀ a, OnlyExtends (f a)) (l : List α) : OnlyExtends (l.mapM f) := by
  induction l with
  | nil => exact onlyExtends_pure []
  | cons a l ih =>
    rw [List.mapM_cons]
    exact (h a).bind fun b => ih.bind fun bs => onlyExtends_pure _

theorem onlyExtends_foldlM {σ : Type} {f : σ → α → Growing σ} (h : ∀ s a, OnlyExtends (f s a)) (l : List α) (s : σ) :
    OnlyExtends (l.foldlM f s) := by
  induction l generalizing s with
  | nil => exact onlyExtends_pure s
  | cons a l ih =>
    rw [List.foldlM_cons]
    exact (h s a).bind ih

/-- A computation that went through, taken apart. -/
theorem run_bind_eq_ok {x : Growing α} {f : α → Growing β} {b : β} :
    (x >>= f).run A = (.ok b, A') ↔ ∃ a B, x.run A = (.ok a, B) ∧ (f a).run B = (.ok b, A') := by
  rw [run_bind]
  constructor
  · intro h
    split at h
    · next a B hrun => exact ⟨a, B, hrun, h⟩
    · next e B hrun => cases h
  · rintro ⟨a, B, hrun, h⟩
    rw [hrun]
    exact h

theorem run_read_eq_ok {f : Algebra → Result α} {a : α} : (read f).run A = (.ok a, A') ↔ f A = .ok a ∧ A' = A := by
  rw [run_read, Prod.mk.injEq, eq_comm (a := A)]

end Growing
end Steenrod
