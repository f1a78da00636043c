import Mathlib
import Steenrod.Text.Expression
/-!
The pieces that texts are read in: classes of characters, numbers, names, and the ends of a text. Main statements: what the classes have in
common, the longest prefix of a class is taken off, and blanks at the ends are cut off.
-/
namespace Steenrod
namespace Text

variable {s : String} {rest : List Char} {n : ℕ} {c : Char}

section Characters

theorem isBlank_eq_false (hlow : 33 ≤ c.toNat) (hhigh : c.toNat ≤ 126) : isBlank c = false := by
  simp only [isBlank, Bool.or_eq_false_iff, Bool.and_eq_false_iff, decide_eq_false_iff_not, beq_eq_false_iff_ne]
  omega

theorem toNat_of_isNameChar (h : isNameChar c = true) : 46 ≤ c.toNat ∧ c.toNat ≤ 122 := by
  simp only [isNameChar, Char.isAlphanum, Char.isAlpha, Char.isUpper, Char.isLower, Char.isDigit, Bool.or_eq_true, Bool.and_eq_true,
    decide_eq_true_eq, beq_iff_eq, ge_iff_le, UInt32.le_iff_toNat_le] at h
  have hcodes : 'A'.val.toNat = 65 ∧ 'Z'.val.toNat = 90 ∧ 'a'.val.toNat = 97 ∧ 'z'.val.toNat = 122 ∧ '0'.val.toNat = 48 ∧
      '9'.val.toNat = 57 := by decide
  change 46 ≤ c.val.toNat ∧ c.val.toNat ≤ 122
  rcases h with ((((h | h) | h) | rfl) | rfl)
  · omega
  · omega
  · omega
  · decide
  · decide

theorem isBlank_of_isNameChar (h : isNameChar c = true) : isBlank c = false := by
  have hrange := toNat_of_isNameChar h
  exact isBlank_eq_false (by omega) (by omega)

theorem isNameChar_of_isDigit (h : c.isDigit = true) : isNameChar c = true := by
  simp [isNameChar, Char.isAlphanum, h]

theorem isNameChar_of_isNameStart (h : isNameStart c = true) : isNameChar c = true := by
  simp only [isNameStart, Bool.or_eq_true] at h
  rcases h with h | h <;> simp [isNameChar, Char.isAlphanum, h]

theorem isDigit_of_isNameStart (h : isNameStart c = true) : c.isDigit = false := by
  simp only [isNameStart, Char.isAlpha, Char.isUpper, Char.isLower, Bool.or_eq_true, Bool.and_eq_true, decide_eq_true_eq, beq_iff_eq,
    ge_iff_le, UInt32.le_iff_toNat_le] at h
  have hcodes : 'A'.val.toNat = 65 ∧ 'a'.val.toNat = 97 ∧ '_'.val.toNat = 95 ∧ '9'.val.toNat = 57 := by decide
  simp only [Char.isDigit, Bool.and_eq_false_iff, decide_eq_false_iff_not, ge_iff_le, UInt32.le_iff_toNat_le]
  rcases h with (h | h) | rfl
  · omega
  · omega
  · decide

theorem isSpace_eq_false (h : isNameChar c = true) : isSpace c = false := by
  cases hspace : isSpace c with
  | false => rfl
  | true => exact absurd (isBlank_of_isSpace hspace) (by rw [isBlank_of_isNameChar h]; decide)

theorem ne_of_isNameChar (h : isNameChar c = true) {d : Char} (hd : isNameChar d = false) : c ≠ d := by
  rintro rfl
  rw [hd] at h
  cases h

theorem isBlank_of_isDigit {c : Char} (h : c.isDigit = true) : isBlank c = false := isBlank_of_isNameChar (isNameChar_of_isDigit h)

end Characters

section Pieces

theorem takeWhile_stop {q : Char → Bool} {l : List Char} (hl : ∀ c ∈ l, q c = true) (hrest : ∀ c ∈ rest.head?, q c = false) :
    (l ++ rest).takeWhile q = l ∧ (l ++ rest).dropWhile q = rest := by
  rw [List.takeWhile_append_of_pos hl, List.dropWhile_append_of_pos hl]
  cases rest with
  | nil => simp
  | cons c rest =>
    have hc := hrest c rfl
    simp [hc]

theorem skipSpaces_of_head (h : ∀ c ∈ rest.head?, isSpace c = false) : skipSpaces rest = rest :=
  (takeWhile_stop (l := []) (by simp) h).2

theorem decimal_eq (cs : List Char) : decimal cs = Nat.ofDigitChars 10 cs 0 := by
  rw [decimal, Nat.ofDigitChars]
  congr 1
  funext k c
  rw [digitValue, Nat.mul_comm]
  rfl

theorem decimal_repr (n : ℕ) : decimal n.repr.toList = n := by
  rw [decimal_eq, Nat.repr, String.toList_ofList, Nat.ofDigitChars_toDigits (by decide) (by decide)]

theorem isDigit_of_mem_repr {c : Char} (h : c ∈ n.repr.toList) : c.isDigit = true := by
  rw [Nat.repr, String.toList_ofList] at h
  exact Nat.isDigit_of_mem_toDigits (by decide) (by decide) h

theorem repr_ne_nil (n : ℕ) : n.repr.toList ≠ [] := by
  rw [Nat.repr, String.toList_ofList]
  exact Nat.toDigits_ne_nil

theorem isDigit_head_repr (n : ℕ) (rest : List Char) : ∃ c cs, n.repr.toList ++ rest = c :: cs ∧ c.isDigit = true := by
  obtain ⟨c, cs, h⟩ := List.exists_cons_of_ne_nil (repr_ne_nil n)
  have hc : c ∈ n.repr.toList := h ▸ List.mem_cons_self
  exact ⟨c, cs ++ rest, by rw [h]; rfl, isDigit_of_mem_repr hc⟩

theorem mem_skipSpaces {cs : List Char} (hc : c ∈ cs) (hspace : isSpace c = false) : c ∈ skipSpaces cs := by
  rw [← List.takeWhile_append_dropWhile (p := isSpace) (l := cs)] at hc
  rcases List.mem_append.mp hc with hc | hc
  · exact absurd (List.mem_takeWhile_imp hc) (by simp [hspace])
  · exact hc

/-- A valid name starts as a name and goes on as one. -/
theorem exists_of_isName (h : isName s = true) : ∃ c cs, s.toList = c :: cs ∧ isNameStart c = true ∧ ∀ d ∈ cs, isNameChar d = true := by
  rw [isName] at h
  split at h
  · cases h
  · next c cs hs =>
    rw [Bool.and_eq_true, List.all_eq_true] at h
    exact ⟨c, cs, hs, h.1, h.2⟩

theorem isNameChar_of_mem (h : isName s = true) (hc : c ∈ s.toList) : isNameChar c = true := by
  obtain ⟨d, ds, hs, hd, hds⟩ := exists_of_isName h
  rw [hs] at hc
  rcases List.mem_cons.mp hc with rfl | hc
  · exact isNameChar_of_isNameStart hd
  · exact hds c hc

theorem name_append (h : isName s = true) (hrest : ∀ c ∈ rest.head?, isNameChar c = false) : name (s.toList ++ rest) = some (s, rest) := by
  obtain ⟨c, cs, hs, hc, hcs⟩ := exists_of_isName h
  obtain ⟨htake, hdrop⟩ := takeWhile_stop hcs hrest
  rw [hs, List.cons_append, name, if_pos hc, htake, hdrop, ← hs, String.ofList_toList]

end Pieces

section Whole

/-- Blanks at the ends are cut off, and nothing else. -/
theorem trim_append {a l b : List Char} (hne : l ≠ []) (ha : ∀ c ∈ a, isBlank c = true) (hb : ∀ c ∈ b, isBlank c = true)
    (hhead : ∀ c ∈ l.head?, isBlank c = false) (hlast : ∀ c ∈ l.getLast?, isBlank c = false) : trim (a ++ l ++ b) = l := by
  have hstart : trimStart (a ++ l ++ b) = l ++ b := by
    rw [List.append_assoc]
    exact (takeWhile_stop ha (by rwa [List.head?_append_of_ne_nil _ hne])).2
  have hend : trimStart (b.reverse ++ l.reverse) = l.reverse :=
    (takeWhile_stop (fun c hc => hb c (List.mem_reverse.mp hc)) (by rwa [List.head?_reverse])).2
  rw [trim, hstart, trimEnd, List.reverse_append, hend, List.reverse_reverse]

theorem trim_eq_self {l : List Char} (hne : l ≠ []) (hhead : ∀ c ∈ l.head?, isBlank c = false)
    (hlast : ∀ c ∈ l.getLast?, isBlank c = false) : trim l = l := by
  have h := trim_append (a := []) (b := []) hne (by simp) (by simp) hhead hlast
  rwa [List.nil_append, List.append_nil] at h

theorem splitFirst_append {sep : Char → Bool} {a b : List Char} (ha : ∀ c ∈ a, sep c = false) (hc : sep c = true) :
    splitFirst sep (a ++ c :: b) = some (a, b) := by
  induction a with
  | nil => rw [List.nil_append, splitFirst, if_pos hc]
  | cons d a ih =>
    rw [List.cons_append, splitFirst, if_neg (by rw [ha d (by simp)]; decide), ih fun e he => ha e (by simp [he])]
    rfl

theorem splitLast_append {sep : Char → Bool} {a b : List Char} (hb : ∀ c ∈ b, sep c = false) (hc : sep c = true) :
    splitLast sep (a ++ c :: b) = some (a, b) := by
  rw [splitLast, List.reverse_append, List.reverse_cons, List.append_assoc, List.singleton_append,
    splitFirst_append (fun d hd => hb d (List.mem_reverse.mp hd)) hc]
  simp

end Whole

end Text
end Steenrod
