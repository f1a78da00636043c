import Steenrod.Proofs.Module.RoundTrip
/-!
What a computation with a state keeps, however it ends. Main statement: what every step keeps is kept by the whole, and a step may rely
on what the steps before it answered.
-/
namespace Steenrod

variable {ε σ α β : Type} {J I : σ → Prop} {Q : α → Prop} {R : β → Prop}

/-- Where the state is as `J` says, `x` leaves it as `I` says, also where it fails; what it answers is as `Q` says. -/
def Leads (J I : σ → Prop) (x : ExceptT ε (StateM σ) α) (Q : α → Prop) : Prop :=
  ∀ s, J s → I (x.run.run s).2 ∧ ∀ a, (x.run.run s).1 = .ok a → Q a

/-- What holds of the state holds of it whatever becomes of `x`. -/
def Keeps (I : σ → Prop) (x : ExceptT ε (StateM σ) α) (Q : α → Prop) : Prop := Leads I I x Q

/-- The end of a computation may do with less than what the steps before it keep. -/
theorem Leads.bind {x : ExceptT ε (StateM σ) α} {f : α → ExceptT ε (StateM σ) β} (hJ : ∀ s, J s → I s) (hx : Keeps J x Q)
    (hf : ∀ a, Q a → Leads J I (f a) R) : Leads J I (x >>= f) R := by
  intro s hs
  obtain ⟨hkept, hanswer⟩ := hx s hs
  rw [ExceptT.run_bind, StateT.run_bind]
  revert hkept hanswer
  rcases x.run.run s with ⟨_ | a, t⟩
  · exact fun hkept _ => ⟨hJ t hkept, fun _ hb => nomatch hb⟩
  · exact fun hkept hanswer => hf a (hanswer a rfl) t hkept

theorem Leads.of_keeps {x : ExceptT ε (StateM σ) α} (hJ : ∀ s, J s → I s) (h : Keeps I x Q) : Leads J I x Q :=
  fun s hs => h s (hJ s hs)

namespace Keeps

theorem pure {a : α} (h : Q a) : Keeps I (pure a : ExceptT ε (StateM σ) α) Q := by
  intro s hs
  refine ⟨hs, fun b hb => ?_⟩
  cases hb
  exact h

theorem throw (e : ε) : Keeps I (throw e : ExceptT ε (StateM σ) α) Q := fun _ hs => ⟨hs, fun _ hb => nomatch hb⟩

theorem get : Keeps I (MonadState.get : ExceptT ε (StateM σ) σ) I := by
  intro s hs
  refine ⟨hs, fun b hb => ?_⟩
  cases hb
  exact hs

theorem set {s : σ} (h : I s) : Keeps I (MonadStateOf.set s : ExceptT ε (StateM σ) PUnit) fun _ => True :=
  fun _ _ => ⟨h, fun _ _ => trivial⟩

theorem modify {f : σ → σ} (h : ∀ s, I s → I (f s)) : Keeps I (modify f : ExceptT ε (StateM σ) PUnit) fun _ => True :=
  fun s hs => ⟨h s hs, fun _ _ => trivial⟩

theorem bind {x : ExceptT ε (StateM σ) α} {f : α → ExceptT ε (StateM σ) β} (hx : Keeps I x Q) (hf : ∀ a, Q a → Keeps I (f a) R) :
    Keeps I (x >>= f) R :=
  Leads.bind (fun _ h => h) hx hf

theorem mono {Q' : α → Prop} {x : ExceptT ε (StateM σ) α} (hx : Keeps I x Q) (h : ∀ a, Q a → Q' a) : Keeps I x Q' :=
  fun s hs => ⟨(hx s hs).1, fun a ha => h a ((hx s hs).2 a ha)⟩

/-- What is known of successful runs is known of the answers. -/
theorem of_run {Q' : α → Prop} {x : ExceptT ε (StateM σ) α} (hx : Keeps I x Q)
    (h : ∀ s a s', I s → x.run.run s = (.ok a, s') → Q' a) : Keeps I x Q' :=
  fun s hs => ⟨(hx s hs).1, fun a ha => h s a _ hs (Prod.ext ha rfl)⟩

/-- More may be known of the state at the start, and differ from state to state. -/
theorem of_leads {x : ExceptT ε (StateM σ) α} (h : ∀ s, I s → ∃ J : σ → Prop, J s ∧ Leads J I x Q) : Keeps I x Q := by
  intro s hs
  obtain ⟨J, hJ, hleads⟩ := h s hs
  exact hleads s hJ

/-- A loop keeps what its body keeps, and carries along what the body carries along. -/
theorem foldlM {step : β → α → ExceptT ε (StateM σ) β} {l : List α} (h : ∀ b, ∀ a ∈ l, R b → Keeps I (step b a) R) {b : β} (hb : R b) :
    Keeps I (l.foldlM step b) R := by
  induction l generalizing b with
  | nil => exact pure hb
  | cons a l ih =>
    rw [List.foldlM_cons]
    exact (h b a (by simp) hb).bind fun c hc => ih (fun b a ha => h b a (by simp [ha])) hc

theorem mapM {f : α → ExceptT ε (StateM σ) β} {l : List α} (h : ∀ a ∈ l, Keeps I (f a) fun _ => True) :
    Keeps I (l.mapM f) fun _ => True := by
  induction l with
  | nil => exact pure trivial
  | cons a l ih =>
    rw [List.mapM_cons]
    exact (h a (by simp)).bind fun b _ => (ih fun a ha => h a (by simp [ha])).bind fun bs _ => pure trivial

end Keeps

end Steenrod
