import Steenrod.Proofs.Text.Grammar
/-!
What is printed is read back, since it is of the grammar. Main statements: printed lists, terms and sums are of the grammar, and so a sum is
read back, and a relation `operation generator = sum`.
-/
namespace Steenrod
namespace Text

section Lists

variable {α β : Type} {form : Form β} {between : Form Unit} {gap : String} {text : α → String} {value : α → β} {as : List α}

/-- The characters of a list are those of its first item and then those of each further item after a gap. -/
theorem toList_intercalate_cons (gap : String) (text : α → String) (a : α) (as : List α) :
    (gap.intercalate ((a :: as).map text)).toList = (text a).toList ++ as.flatMap fun b => gap.toList ++ (text b).toList := by
  rw [String.toList_intercalate, List.map_map, List.map_cons]
  induction as generalizing a with
  | nil => simp [List.intercalate]
  | cons b bs ih =>
    rw [List.map_cons, List.intercalate_cons_cons, ih, List.flatMap_cons]
    simp

/-- Printed items with a separator between them are a list. -/
theorem isListOf_intercalate (hgap : between gap.toList ()) (hne : as ≠ []) (h : ∀ a ∈ as, form (text a).toList (value a)) :
    IsListOf between form (gap.intercalate (as.map text)).toList (as.map value) := by
  obtain ⟨a, bs, rfl⟩ := List.exists_cons_of_ne_nil hne
  induction bs generalizing a with
  | nil =>
    rw [toList_intercalate_cons, List.flatMap_nil, List.append_nil]
    exact .one (h a (by simp))
  | cons b bs ih =>
    have hrest := ih b (by simp) fun c hc => h c (List.mem_cons_of_mem a hc)
    rw [toList_intercalate_cons] at hrest
    rw [toList_intercalate_cons, List.flatMap_cons, List.append_assoc]
    exact .more (h a (by simp)) hgap hrest

/-- A list of items that are not blank has no blanks at its ends. -/
theorem isBlank_ends_intercalate (gap : String) (hne : as ≠ [])
    (h : ∀ a ∈ as, (text a).toList ≠ [] ∧ (∀ c ∈ (text a).toList.head?, isBlank c = false) ∧
      ∀ c ∈ (text a).toList.getLast?, isBlank c = false) :
    (gap.intercalate (as.map text)).toList ≠ [] ∧ (∀ c ∈ (gap.intercalate (as.map text)).toList.head?, isBlank c = false) ∧
      ∀ c ∈ (gap.intercalate (as.map text)).toList.getLast?, isBlank c = false := by
  obtain ⟨a, bs, rfl⟩ := List.exists_cons_of_ne_nil hne
  obtain ⟨hane, hahead, halast⟩ := h a (by simp)
  rw [toList_intercalate_cons]
  refine ⟨List.append_ne_nil_of_left_ne_nil hane _, by rwa [List.head?_append_of_ne_nil _ hane], ?_⟩
  rcases List.eq_nil_or_concat bs with rfl | ⟨cs, b, rfl⟩
  · rwa [List.flatMap_nil, List.append_nil]
  · obtain ⟨hbne, _, hblast⟩ := h b (by simp)
    rw [List.concat_eq_append, List.flatMap_append, List.flatMap_singleton, ← List.append_assoc, ← List.append_assoc,
      List.getLast?_append_of_ne_nil _ hbne]
    exact hblast

end Lists

section Sums

/-- A term as it is printed: a coefficient 1 is left out. -/
def termText (t : ℕ × String) : String := if t.1 = 1 then t.2 else s!"{t.1} {t.2}"

theorem toList_termText (t : ℕ × String) :
    (termText t).toList = if t.1 = 1 then t.2.toList else t.1.repr.toList ++ ' ' :: t.2.toList := by
  rw [termText]
  split
  · rfl
  · simp [toString]

variable {n : ℕ} {t : ℕ × String}

theorem isNumeral_repr (hn : n ≤ maxWord) : IsNumeral n.repr.toList n where
  ne_nil := repr_ne_nil n
  isDigit _ := isDigit_of_mem_repr
  value := (decimal_eq _).symm.trans (decimal_repr n)
  le_word := hn

theorem isTerm_termText (hc : t.1 ≤ maxWord) (hs : isName t.2 = true) : IsTerm (termText t).toList t := by
  have hname : IsName t.2.toList t.2 := isName_eq_true_iff.mpr ⟨hs, rfl⟩
  have hgap : Padded (IsOptionalSign '*') ([' '] ++ ([] ++ [])) () := .intro (by simp [IsGap]) (.inl rfl) (by simp [IsGap])
  rw [toList_termText]
  split
  · next hone =>
    obtain ⟨m, s⟩ := t
    obtain rfl : m = 1 := hone
    exact .single hname
  · rw [List.append_cons]
    exact .multiple (.intro (isNumeral_repr hc) hgap) hname

theorem exists_mem_termText (hs : isName t.2 = true) : ∃ c ∈ (termText t).toList, isNameStart c = true := by
  obtain ⟨d, ds, hd, hstart, _⟩ := exists_of_isName hs
  refine ⟨d, ?_, hstart⟩
  rw [toList_termText, hd]
  split <;> simp

/-- The ends of a printed term are not blank. -/
theorem isBlank_ends_termText (hs : isName t.2 = true) : (termText t).toList ≠ [] ∧
    (∀ c ∈ (termText t).toList.head?, isBlank c = false) ∧ ∀ c ∈ (termText t).toList.getLast?, isBlank c = false := by
  obtain ⟨d, ds, hd, hstart, _⟩ := exists_of_isName hs
  have hname : t.2.toList ≠ [] := by rw [hd]; simp
  have hlast : ∀ c ∈ t.2.toList.getLast?, isBlank c = false := fun c hc =>
    isBlank_of_isNameChar (isNameChar_of_mem hs (List.mem_of_getLast? hc))
  rw [toList_termText]
  split
  · refine ⟨hname, fun c hc => ?_, hlast⟩
    exact isBlank_of_isNameChar (isNameChar_of_mem hs (List.mem_of_head? hc))
  · obtain ⟨e, es, he, hdigit⟩ := isDigit_head_repr t.1 (' ' :: t.2.toList)
    refine ⟨by simp, fun c hc => ?_, ?_⟩
    · rw [he, List.head?_cons] at hc
      exact Option.some.inj hc ▸ isBlank_of_isNameChar (isNameChar_of_isDigit hdigit)
    · rw [List.append_cons, List.getLast?_append_of_ne_nil _ hname]
      exact hlast

/-- A sum of at least one term is read back. -/
theorem moduleSum_intercalate {ts : List (ℕ × String)} (hne : ts ≠ []) (hts : ∀ t ∈ ts, t.1 ≤ maxWord ∧ isName t.2 = true) :
    moduleSum (" + ".intercalate (ts.map termText)).toList = some (ts, []) := by
  have hplus : Padded (IsSign '+') " + ".toList () := by
    change Padded (IsSign '+') ([' '] ++ (['+'] ++ [' '])) ()
    exact .intro (by simp [IsGap]) rfl (by simp [IsGap])
  have hlist := isListOf_intercalate hplus hne fun t ht => isTerm_termText (hts t ht).1 (hts t ht).2
  obtain ⟨_, hhead, hlast⟩ := isBlank_ends_intercalate " + " hne fun t ht => isBlank_ends_termText (hts t ht).2
  rw [moduleSum_eq_some_iff hhead hlast]
  exact .terms (by rwa [List.map_id'] at hlist)

end Sums

end Text

open Text

/-- An operation as it is printed: without the sign of a relation, and with no blanks at its ends. -/
structure Text.IsOperationText (s : String) : Prop where
  ne_nil : s.toList ≠ []
  noEquals : ∀ c ∈ s.toList, c ≠ '='
  head : ∀ c ∈ s.toList.head?, isBlank c = false
  last : ∀ c ∈ s.toList.getLast?, isBlank c = false

/-- A printed relation is read back. -/
theorem Relation.parse_printed {operation input : String} {ts : List (ℕ × String)} (hoperation : IsOperationText operation)
    (hinput : isName input = true) (hne : ts ≠ []) (hts : ∀ t ∈ ts, t.1 ≤ maxWord ∧ isName t.2 = true) :
    Relation.parse (operation ++ " " ++ input ++ " = " ++ " + ".intercalate (ts.map termText)) = .ok ⟨operation, input, ts⟩ := by
  obtain ⟨d, ds, hd, _, _⟩ := exists_of_isName hinput
  have hchars : ∀ c ∈ input.toList, isNameChar c = true := fun c hc => isNameChar_of_mem hinput hc
  have hinputne : input.toList ≠ [] := by rw [hd]; simp
  have hhead : ∀ c ∈ input.toList.head?, isBlank c = false := fun c hc => isBlank_of_isNameChar (hchars c (List.mem_of_head? hc))
  have hlast : ∀ c ∈ input.toList.getLast?, isBlank c = false := fun c hc => isBlank_of_isNameChar (hchars c (List.mem_of_getLast? hc))
  obtain ⟨hnonempty, hfirst, hend⟩ := isBlank_ends_intercalate " + " hne fun t ht => isBlank_ends_termText (hts t ht).2
  have htext : (operation ++ " " ++ input ++ " = " ++ " + ".intercalate (ts.map termText)).toList =
      (operation.toList ++ ' ' :: input.toList ++ [' ']) ++ '=' :: ' ' :: (" + ".intercalate (ts.map termText)).toList := by
    simp
  have hleft : ∀ c ∈ operation.toList ++ ' ' :: input.toList ++ [' '], (c == '=') = false := by
    intro c hc
    rw [List.mem_append, List.mem_append, List.mem_cons, List.mem_singleton] at hc
    rw [beq_eq_false_iff_ne]
    rcases hc with (hc | rfl | hc) | rfl
    · exact hoperation.noEquals c hc
    · decide
    · exact ne_of_isNameChar (hchars c hc) (by decide)
    · decide
  have htrim : trim (operation.toList ++ ' ' :: input.toList ++ [' ']) = operation.toList ++ ' ' :: input.toList := by
    refine trim_append (a := []) (l := operation.toList ++ ' ' :: input.toList) (by simp) (by simp) (by simp; decide) ?_ ?_
    · rw [List.head?_append_of_ne_nil _ hoperation.ne_nil]
      exact hoperation.head
    · rw [List.getLast?_append_of_ne_nil _ (by simp), List.getLast?_cons_of_ne_nil hinputne]
      exact hlast
  have hwhole : whole moduleSum (String.ofList (' ' :: (" + ".intercalate (ts.map termText)).toList)) = .ok ts := by
    have hsum := trim_append (a := [' ']) (b := []) hnonempty (by simp; decide) (by simp) hfirst hend
    rw [List.append_nil, List.singleton_append] at hsum
    rw [whole, String.toList_ofList, hsum, moduleSum_intercalate hne hts]
  have hfirst : splitFirst (· == '=') (operation.toList ++ ' ' :: input.toList ++ [' '] ++
      '=' :: ' ' :: (" + ".intercalate (ts.map termText)).toList) = _ := splitFirst_append hleft rfl
  have hsplit : splitLast isBlank (operation.toList ++ ' ' :: input.toList) = _ :=
    splitLast_append (fun c hc => isBlank_of_isNameChar (hchars c hc)) (by decide)
  rw [Relation.parse, htext, hfirst]
  simp only
  rw [htrim, hsplit]
  simp only
  rw [trim_eq_self hoperation.ne_nil hoperation.head hoperation.last, trim_eq_self hinputne hhead hlast, String.ofList_toList,
    String.ofList_toList, if_neg (by simp [hoperation.ne_nil, hinputne]), if_neg (by simp [hinput]), hwhole]

/-- What could be the name of a generator is an operation text too. -/
theorem Text.isOperationText_of_isName {s : String} (h : isName s = true) : IsOperationText s := by
  obtain ⟨d, ds, hd, _, _⟩ := exists_of_isName h
  exact
    { ne_nil := by rw [hd]; simp
      noEquals := fun c hc => ne_of_isNameChar (isNameChar_of_mem h hc) (by decide)
      head := fun c hc => isBlank_of_isNameChar (isNameChar_of_mem h (List.mem_of_head? hc))
      last := fun c hc => isBlank_of_isNameChar (isNameChar_of_mem h (List.mem_of_getLast? hc)) }

end Steenrod
