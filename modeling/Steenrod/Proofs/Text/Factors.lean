import Steenrod.Proofs.Text.Printed
/-!
Products of algebra elements as they are printed. Main statement: a product of at least one factor is read back, if its numbers are words.
-/
namespace Steenrod

/-- The numbers in a factor. -/
def Factor.numbers : Factor → List ℕ
  | .exterior k => [k]
  | .power n => [n]
  | .powers r => r
  | .unit => []

namespace Text

variable {f : Factor}

/-- A factor as it is printed. -/
def factorText (square : Bool) : Factor → String
  | .exterior k => "Q_" ++ k.repr
  | .power n => powerLetters square ++ n.repr
  | .powers r => powerLetters square ++ "(" ++ ",".intercalate (r.map Nat.repr) ++ ")"
  | .unit => "1"

/-- Whether a factor is read as a square. -/
def readSquare (square : Bool) : Factor → Bool
  | .power _ | .powers _ => square
  | .exterior _ | .unit => false

/-- Numbers between commas are exponents. -/
theorem isExponents_intercalate {r : List ℕ} (hr : ∀ n ∈ r, n ≤ maxWord) : IsExponents (",".intercalate (r.map Nat.repr)).toList r := by
  by_cases hne : r = []
  · rw [hne]
    exact .none
  · have hcomma : IsSign ',' ",".toList () := rfl
    have hpadded : ∀ n ∈ r, Padded IsNumeral n.repr.toList n := by
      intro n hn
      have h : Padded IsNumeral ([] ++ (n.repr.toList ++ [])) n := .intro (by simp [IsGap]) (isNumeral_repr (hr n hn)) (by simp [IsGap])
      rwa [List.nil_append, List.append_nil] at h
    have hlist := isListOf_intercalate hcomma hne hpadded
    exact .some (by rwa [List.map_id'] at hlist)

theorem isFactor_factorText (square : Bool) (hf : ∀ n ∈ f.numbers, n ≤ maxWord) :
    IsFactor (factorText square f).toList (f, readSquare square f) := by
  cases f with
  | exterior k =>
    have htext : (factorText square (.exterior k)).toList = 'Q' :: (['_'] ++ k.repr.toList) := by simp [factorText]
    rw [htext]
    exact .exterior (.inr rfl) (isNumeral_repr (hf k (by simp [Factor.numbers])))
  | power n =>
    rw [factorText, String.toList_append]
    exact .power square (isNumeral_repr (hf n (by simp [Factor.numbers])))
  | powers r =>
    have htext : (factorText square (.powers r)).toList = (powerLetters square).toList ++ '(' :: ((",".intercalate (r.map Nat.repr)).toList ++ [')']) := by
      simp [factorText]
    rw [htext]
    exact .powers square (isExponents_intercalate hf)
  | unit =>
    have htext : (factorText square .unit).toList = ['1'] := by simp [factorText]
    rw [htext]
    exact .unit

/-- The ends of a printed factor are not blank. -/
theorem isBlank_ends_factorText (square : Bool) (f : Factor) : (factorText square f).toList ≠ [] ∧
    (∀ c ∈ (factorText square f).toList.head?, isBlank c = false) ∧ ∀ c ∈ (factorText square f).toList.getLast?, isBlank c = false := by
  have hletters : (powerLetters square).toList ≠ [] ∧ ∀ c ∈ (powerLetters square).toList.head?, isBlank c = false := by
    cases square
    · exact ⟨by simp [powerLetters], by simp [powerLetters]; decide⟩
    · exact ⟨by simp [powerLetters], by simp [powerLetters]; decide⟩
  have hrepr : ∀ n : ℕ, ∀ c ∈ n.repr.toList.getLast?, isBlank c = false :=
    fun n c hc => isBlank_of_isDigit (isDigit_of_mem_repr (List.mem_of_getLast? hc))
  cases f with
  | exterior k =>
    rw [factorText, String.toList_append, List.head?_append_of_ne_nil _ (by simp), List.getLast?_append_of_ne_nil _ (repr_ne_nil k)]
    exact ⟨by simp, by simp; decide, hrepr k⟩
  | power n =>
    rw [factorText, String.toList_append, List.head?_append_of_ne_nil _ hletters.1, List.getLast?_append_of_ne_nil _ (repr_ne_nil n)]
    exact ⟨List.append_ne_nil_of_left_ne_nil hletters.1 _, hletters.2, hrepr n⟩
  | powers r =>
    rw [factorText, String.toList_append, List.getLast?_append_of_ne_nil _ (by simp), String.toList_append, String.toList_append,
      List.append_assoc, List.append_assoc, List.head?_append_of_ne_nil _ hletters.1]
    exact ⟨List.append_ne_nil_of_left_ne_nil hletters.1 _, hletters.2, by simp; decide⟩
  | unit => exact ⟨by simp [factorText], by simp [factorText]; decide, by simp [factorText]; decide⟩

end Text

open Text

/-- A printed product of at least one factor is read back. -/
theorem Product.parse_printed {fs : List Factor} (hne : fs ≠ []) (hfs : ∀ f ∈ fs, ∀ n ∈ f.numbers, n ≤ maxWord) (square : Bool) :
    Product.parse (" ".intercalate (fs.map (factorText square))) = .ok ⟨fs, fs.any (readSquare square)⟩ := by
  obtain ⟨htext, hhead, hlast⟩ := isBlank_ends_intercalate " " hne fun f _ => isBlank_ends_factorText square f
  have hspace : IsSpaces " ".toList () := ⟨by simp, by simp [IsGap]⟩
  have hlist := isListOf_intercalate hspace hne fun f hf => isFactor_factorText square (hfs f hf)
  have hfactors : (fs.map fun f => (f, readSquare square f)).map (·.1) = fs := by rw [List.map_map]; exact List.map_id fs
  have hsquares : (fs.map fun f => (f, readSquare square f)).any (·.2) = fs.any (readSquare square) := by rw [List.any_map]; rfl
  have hproduct := IsProduct.intro hlist
  rw [hfactors, hsquares] at hproduct
  rwa [Product.parse, whole_eq_ok_iff, trim_eq_self htext hhead hlast, product_eq_some_iff]

theorem Text.isName_power (square : Bool) (n : ℕ) : isName (powerLetters square ++ n.repr) = true := by
  have hdigits : ∀ c ∈ n.repr.toList, isNameChar c = true := fun c hc => isNameChar_of_isDigit (isDigit_of_mem_repr hc)
  cases square with
  | true =>
    have hlist : (powerLetters true ++ n.repr).toList = 'S' :: 'q' :: n.repr.toList := by rw [String.toList_append]; rfl
    rw [isName, hlist, Bool.and_eq_true, List.all_eq_true]
    refine ⟨by decide, fun c hc => ?_⟩
    rcases List.mem_cons.mp hc with rfl | hc
    · decide
    · exact hdigits c hc
  | false =>
    have hlist : (powerLetters false ++ n.repr).toList = 'P' :: n.repr.toList := by rw [String.toList_append]; rfl
    rw [isName, hlist, Bool.and_eq_true, List.all_eq_true]
    exact ⟨by decide, hdigits⟩

/-- The short name of a power is read back. -/
theorem Product.parse_power (square : Bool) {n : ℕ} (hn : n ≤ maxWord) :
    Product.parse (powerLetters square ++ n.repr) = .ok ⟨[.power n], square⟩ := by
  have hread := Product.parse_printed (List.cons_ne_nil (Factor.power n) []) (by simpa [Factor.numbers]) square
  have htext : " ".intercalate ([Factor.power n].map (factorText square)) = powerLetters square ++ n.repr := by
    simp [factorText]
  rw [htext] at hread
  simpa [readSquare] using hread

end Steenrod
