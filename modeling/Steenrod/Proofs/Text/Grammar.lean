import Steenrod.Proofs.Text.Pieces
/-!
The grammar of sums and products, as relations between a text and what it denotes. A reader of a form takes a text of that form off the
front, provided that what follows does not continue it, and takes off nothing else. Main statements: so does each reader of the library,
and the whole texts that are read as a sum or a product are those of the grammar.
-/
namespace Steenrod
namespace Text

/-- What the texts of one kind denote. -/
abbrev Form (α : Type) := List Char → α → Prop

/-- The letters before the number of a power. -/
def powerLetters (square : Bool) : String := if square then "Sq" else "P"

section Grammar

variable {α : Type}

/-- Spaces and tabs, or nothing. -/
def IsGap (cs : List Char) : Prop := ∀ c ∈ cs, c = ' ' ∨ c = '\t'

def IsSpaces : Form Unit := fun cs _ => cs ≠ [] ∧ IsGap cs

def IsSign (c : Char) : Form Unit := fun cs _ => cs = [c]

def IsOptionalSign (c : Char) : Form Unit := fun cs _ => cs = [] ∨ cs = [c]

/-- Decimal digits, of a number of one word. -/
structure IsNumeral (cs : List Char) (n : ℕ) : Prop where
  ne_nil : cs ≠ []
  isDigit : ∀ c ∈ cs, c.isDigit = true
  value : Nat.ofDigitChars 10 cs 0 = n
  le_word : n ≤ 4294967295

/-- A letter or underscore, and then letters, digits, underscores and dots. -/
inductive IsName : Form String
  | intro {c : Char} {cs : List Char} (hc : c.isAlpha = true ∨ c = '_') (hcs : ∀ d ∈ cs, d.isAlphanum = true ∨ d = '_' ∨ d = '.') :
      IsName (c :: cs) (String.ofList (c :: cs))

/-- A text with gaps around it. -/
inductive Padded (form : Form α) : Form α
  | intro {before cs after : List Char} {a : α} (hbefore : IsGap before) (h : form cs a) (hafter : IsGap after) :
      Padded form (before ++ (cs ++ after)) a

/-- One or more items, with separators between them. -/
inductive IsListOf (separator : Form Unit) (form : Form α) : Form (List α)
  | one {cs : List Char} {a : α} (h : form cs a) : IsListOf separator form cs [a]
  | more {cs gap ds : List Char} {a : α} {as : List α} (h : form cs a) (hgap : separator gap ())
      (hmore : IsListOf separator form ds as) : IsListOf separator form (cs ++ (gap ++ ds)) (a :: as)

/-- A number, perhaps with a star after it. -/
inductive IsCoefficient : Form ℕ
  | intro {ds cs : List Char} {n : ℕ} (hds : IsNumeral ds n) (hcs : Padded (IsOptionalSign '*') cs ()) : IsCoefficient (ds ++ cs) n

/-- A name, perhaps with a coefficient before it. -/
inductive IsTerm : Form (ℕ × String)
  | single {cs : List Char} {s : String} (h : IsName cs s) : IsTerm cs (1, s)
  | multiple {ds cs : List Char} {n : ℕ} {s : String} (hds : IsCoefficient ds n) (h : IsName cs s) : IsTerm (ds ++ cs) (n, s)

inductive IsSum : Form ModuleSum
  | empty : IsSum ['0'] []
  | terms {cs : List Char} {ts : ModuleSum} (h : IsListOf (Padded (IsSign '+')) IsTerm cs ts) : IsSum cs ts

/-- Exponents between commas, or none. -/
inductive IsExponents : Form (List ℕ)
  | none : IsExponents [] []
  | some {cs : List Char} {r : List ℕ} (h : IsListOf (IsSign ',') (Padded IsNumeral) cs r) : IsExponents cs r

/-- A factor, and whether it is written as a square. -/
inductive IsFactor : Form (Factor × Bool)
  | bockstein : IsFactor ['b'] (.exterior 0, false)
  | exterior {mark ds : List Char} {k : ℕ} (hmark : IsOptionalSign '_' mark ()) (hds : IsNumeral ds k) :
      IsFactor ('Q' :: (mark ++ ds)) (.exterior k, false)
  | powers (square : Bool) {cs : List Char} {r : List ℕ} (h : IsExponents cs r) :
      IsFactor ((powerLetters square).toList ++ '(' :: (cs ++ [')'])) (.powers r, square)
  | power (square : Bool) {ds : List Char} {n : ℕ} (hds : IsNumeral ds n) :
      IsFactor ((powerLetters square).toList ++ ds) (.power n, square)
  | unit : IsFactor ['1'] (.unit, false)

inductive IsProduct : Form Product
  | intro {cs : List Char} {fs : List (Factor × Bool)} (h : IsListOf IsSpaces IsFactor cs fs) :
      IsProduct cs ⟨fs.map (·.1), fs.any (·.2)⟩

/-- What remains of a text without the blanks at its ends. -/
structure IsTrimmed (text cs : List Char) : Prop where
  eq_append : ∃ a b, text = a ++ cs ++ b ∧ (∀ c ∈ a, isBlank c = true) ∧ ∀ c ∈ b, isBlank c = true
  head : ∀ c ∈ cs.head?, isBlank c = false
  last : ∀ c ∈ cs.getLast?, isBlank c = false

end Grammar

/-- The text goes on with a character outside a class. -/
def Opens (stop : Char → Bool) (cs : List Char) : Prop := ∃ c ds, cs = c :: ds ∧ stop c = false

theorem Opens.head {stop : Char → Bool} {cs : List Char} (h : Opens stop cs) (rest : List Char) :
    ∀ c ∈ (cs ++ rest).head?, stop c = false := by
  obtain ⟨c, ds, rfl, hc⟩ := h
  simpa using hc

theorem Opens.ne_nil {stop : Char → Bool} {cs : List Char} (h : Opens stop cs) : cs ≠ [] := by
  obtain ⟨c, ds, rfl, _⟩ := h
  simp

theorem head_append {stop : Char → Bool} {cs rest : List Char} (hcs : ∀ c ∈ cs, stop c = false) (hrest : ∀ c ∈ rest.head?, stop c = false) :
    ∀ c ∈ (cs ++ rest).head?, stop c = false := by
  cases cs with
  | nil => exact hrest
  | cons c cs => simpa using hcs c List.mem_cons_self

theorem opens_of_forall {stop : Char → Bool} {cs : List Char} (hne : cs ≠ []) (h : ∀ c ∈ cs, stop c = false) : Opens stop cs := by
  obtain ⟨c, ds, rfl⟩ := List.exists_cons_of_ne_nil hne
  exact ⟨c, ds, rfl, h c List.mem_cons_self⟩

/-- The reader takes off texts of a form only. -/
def TakesOnly {α : Type} (r : Reader α) (form : Form α) : Prop :=
  ∀ {cs rest : List Char} {a : α}, r cs = some (a, rest) → ∃ t, cs = t ++ rest ∧ form t a

/-- The reader takes off texts of a form only, and each of them in front of anything that does not go on in a class of characters. -/
structure Reads {α : Type} (r : Reader α) (form : Form α) (stop : Char → Bool) : Prop where
  sound : TakesOnly r form
  complete : ∀ {t rest : List Char} {a : α}, form t a → (∀ c ∈ rest.head?, stop c = false) → r (t ++ rest) = some (a, rest)

section Pieces

theorem isGap_iff {cs : List Char} : IsGap cs ↔ ∀ c ∈ cs, isSpace c = true := by
  simp [IsGap, isSpace]

theorem skipSpaces_append {gap : List Char} (hgap : IsGap gap) (rest : List Char) : skipSpaces (gap ++ rest) = skipSpaces rest :=
  List.dropWhile_append_of_pos (isGap_iff.mp hgap)

/-- What is skipped is a gap. -/
theorem exists_skipSpaces (cs : List Char) : ∃ gap, IsGap gap ∧ cs = gap ++ skipSpaces cs :=
  ⟨cs.takeWhile isSpace, isGap_iff.mpr fun _ => List.mem_takeWhile_imp, List.takeWhile_append_dropWhile.symm⟩

theorem IsSign.mem {c : Char} {cs : List Char} {u : Unit} (h : IsSign c cs u) : ∀ d ∈ cs, d = c := by
  rw [h]
  simp

theorem IsOptionalSign.mem {c : Char} {cs : List Char} {u : Unit} (h : IsOptionalSign c cs u) : ∀ d ∈ cs, d = c := by
  rcases h with rfl | rfl <;> simp

theorem IsSign.ne_nil {c : Char} {cs : List Char} {u : Unit} (h : IsSign c cs u) : cs ≠ [] := by
  rw [h]
  simp

/-- A sign with gaps around it holds spaces, tabs and the sign. -/
theorem Padded.mem {form : Form Unit} {cs : List Char} {c : Char} (h : Padded form cs ()) (hform : ∀ {t}, form t () → ∀ d ∈ t, d = c) :
    ∀ d ∈ cs, d = ' ' ∨ d = '\t' ∨ d = c := by
  obtain ⟨hbefore, h, hafter⟩ := h
  intro d hd
  rw [List.mem_append, List.mem_append] at hd
  rcases hd with hd | hd | hd
  · exact (hbefore d hd).imp_right .inl
  · exact .inr (.inr (hform h d hd))
  · exact (hafter d hd).imp_right .inl

theorem Padded.ne_nil {α : Type} {form : Form α} {cs : List Char} {a : α} (h : Padded form cs a) (hform : ∀ {t a}, form t a → t ≠ []) :
    cs ≠ [] := by
  obtain ⟨_, h, _⟩ := h
  simp [hform h]

theorem reads_char (c : Char) : Reads (char c) (IsSign c) fun _ => false where
  sound {cs rest _} h := by
    cases cs with
    | nil => cases h
    | cons d cs =>
      rw [char] at h
      split at h
      · next hd =>
        obtain ⟨_, rfl⟩ := Prod.mk.inj (Option.some.inj h)
        exact ⟨[d], rfl, by rw [IsSign, hd]⟩
      · cases h
  complete h _ := by
    rw [h, List.singleton_append, char, if_pos rfl]

/-- A sign that may be left out is skipped if it is there. -/
theorem exists_optionalSign (c : Char) (cs : List Char) : ∃ mark, IsOptionalSign c mark () ∧ cs = mark ++ ((char c cs).map (·.2)).getD cs := by
  cases hchar : char c cs with
  | none => exact ⟨[], .inl rfl, rfl⟩
  | some x =>
    obtain ⟨mark, hread, hmark⟩ := (reads_char c).sound hchar
    exact ⟨mark, .inr hmark, hread⟩

theorem reads_digits : Reads digits IsNumeral Char.isDigit where
  sound {cs rest n} h := by
    rw [digits] at h
    split at h
    · cases h
    · next hword =>
      rw [not_or, List.isEmpty_iff, not_lt] at hword
      obtain ⟨rfl, rfl⟩ := Prod.mk.inj (Option.some.inj h)
      exact ⟨cs.takeWhile Char.isDigit, List.takeWhile_append_dropWhile.symm, hword.1, fun _ => List.mem_takeWhile_imp,
        (decimal_eq _).symm, hword.2⟩
  complete {t rest n} h hrest := by
    obtain ⟨htake, hdrop⟩ := takeWhile_stop h.isDigit hrest
    have hvalue : decimal t = n := (decimal_eq t).trans h.value
    have hword : ¬(t.isEmpty = true ∨ maxWord < n) := by
      rw [not_or, List.isEmpty_iff, not_lt]
      exact ⟨h.ne_nil, h.le_word⟩
    rw [digits, htake, hdrop, hvalue, if_neg hword]

theorem IsNumeral.opens {cs : List Char} {n : ℕ} (h : IsNumeral cs n) {stop : Char → Bool}
    (hstop : ∀ c, c.isDigit = true → stop c = false) : Opens stop cs := by
  obtain ⟨c, ds, rfl⟩ := List.exists_cons_of_ne_nil h.ne_nil
  exact ⟨c, ds, rfl, hstop c (h.isDigit c List.mem_cons_self)⟩

theorem isName_eq_true_iff {cs : List Char} {s : String} : IsName cs s ↔ isName s = true ∧ cs = s.toList := by
  constructor
  · rintro ⟨hc, hcs⟩
    rw [isName, String.toList_ofList]
    refine ⟨?_, rfl⟩
    simpa [isNameStart, isNameChar, or_assoc] using ⟨hc, hcs⟩
  · rintro ⟨h, rfl⟩
    obtain ⟨c, cs, hs, hc, hcs⟩ := exists_of_isName h
    have hname : IsName (c :: cs) (String.ofList (c :: cs)) :=
      .intro (by simpa [isNameStart] using hc) fun d hd => by simpa [isNameChar, or_assoc] using hcs d hd
    rwa [← hs, String.ofList_toList] at hname

theorem IsName.opens {cs : List Char} {s : String} (h : IsName cs s) {stop : Char → Bool}
    (hstop : ∀ c, isNameStart c = true → stop c = false) : Opens stop cs := by
  obtain ⟨hname, rfl⟩ := isName_eq_true_iff.mp h
  obtain ⟨c, ds, hs, hc, _⟩ := exists_of_isName hname
  exact ⟨c, ds, hs, hstop c hc⟩

theorem reads_name : Reads name IsName isNameChar where
  sound {cs rest s} h := by
    cases cs with
    | nil => cases h
    | cons c cs =>
      rw [name] at h
      split at h
      · next hc =>
        obtain ⟨rfl, rfl⟩ := Prod.mk.inj (Option.some.inj h)
        refine ⟨c :: cs.takeWhile isNameChar, by rw [List.cons_append, List.takeWhile_append_dropWhile], .intro ?_ fun d hd => ?_⟩
        · simpa [isNameStart] using hc
        · simpa [isNameChar, or_assoc] using List.mem_takeWhile_imp hd
      · cases h
  complete h hrest := by
    obtain ⟨hname, rfl⟩ := isName_eq_true_iff.mp h
    exact name_append hname hrest

theorem reads_spaces : Reads spaces IsSpaces isSpace where
  sound {cs rest _} h := by
    cases cs with
    | nil => cases h
    | cons c cs =>
      rw [spaces] at h
      split at h
      · next hc =>
        obtain ⟨gap, hgap, hcs⟩ := exists_skipSpaces cs
        obtain ⟨_, rfl⟩ := Prod.mk.inj (Option.some.inj h)
        refine ⟨c :: gap, by rw [List.cons_append, ← hcs], by simp, ?_⟩
        rw [isGap_iff] at hgap ⊢
        simpa [hc] using hgap
      · cases h
  complete {t rest _} h hrest := by
    obtain ⟨hne, hgap⟩ := h
    obtain ⟨c, gap, rfl⟩ := List.exists_cons_of_ne_nil hne
    have hspaces := isGap_iff.mp hgap
    have htail : IsGap gap := isGap_iff.mpr fun d hd => hspaces d (List.mem_cons_of_mem c hd)
    rw [List.cons_append, spaces, if_pos (hspaces c List.mem_cons_self), skipSpaces_append htail, skipSpaces_of_head hrest]

variable {α : Type} {r : Reader α} {form : Form α} {stop : Char → Bool}

/-- Gaps around a text are skipped, if the text neither begins nor goes on with a space. -/
theorem reads_spaced (h : Reads r form stop) (hopens : ∀ {t a}, form t a → Opens isSpace t) (hspace : ∀ c, isSpace c = true → stop c = false) :
    Reads (spaced r) (Padded form) fun c => stop c || isSpace c where
  sound {cs rest a} hread := by
    obtain ⟨⟨b, ds⟩, hr, heq⟩ := Option.map_eq_some_iff.mp hread
    obtain ⟨rfl, rfl⟩ := Prod.mk.inj heq
    obtain ⟨t, ht, hform⟩ := h.sound hr
    obtain ⟨before, hbefore, hcs⟩ := exists_skipSpaces cs
    obtain ⟨after, hafter, hds⟩ := exists_skipSpaces ds
    refine ⟨before ++ (t ++ after), ?_, .intro hbefore hform hafter⟩
    rw [List.append_assoc, List.append_assoc, ← hds, ← ht, ← hcs]
  complete {t rest a} hform hrest := by
    obtain ⟨hbefore, hform, hafter⟩ := hform
    rename_i before cs after
    have hstop : ∀ c ∈ rest.head?, stop c = false := fun c hc => (Bool.or_eq_false_iff.mp (hrest c hc)).1
    have hskip : skipSpaces rest = rest := skipSpaces_of_head fun c hc => (Bool.or_eq_false_iff.mp (hrest c hc)).2
    have hhead : ∀ c ∈ (after ++ rest).head?, stop c = false := head_append (fun c hc => hspace c (isGap_iff.mp hafter c hc)) hstop
    rw [spaced, List.append_assoc, List.append_assoc, skipSpaces_append hbefore, skipSpaces_of_head ((hopens hform).head _),
      h.complete hform hhead, Option.map_some]
    simp only
    rw [skipSpaces_append hafter, hskip]

end Pieces

section Lists

variable {α : Type} {separator : Reader Unit} {item : Reader α} {gap : Form Unit} {form : Form α} {beyond stop : Char → Bool}
  {cs rest t g : List Char} {as : List α}

/-- Separators and items can be told apart by their first characters. -/
structure ReadsList (separator : Reader Unit) (item : Reader α) (gap : Form Unit) (form : Form α) (beyond stop : Char → Bool) : Prop where
  separator : Reads separator gap beyond
  item : Reads item form stop
  opens_gap : ∀ {g}, gap g () → Opens stop g
  opens_item : ∀ {t a}, form t a → Opens beyond t

theorem moreItems_of_none (hend : separator rest = none) (fuel : ℕ) : moreItems separator item fuel rest = ([], rest) := by
  cases fuel with
  | zero => rfl
  | succ fuel => rw [moreItems, hend, Option.bind_none]

namespace ReadsList

/-- What is read of further items is a list after a separator, or nothing. -/
theorem moreItems_sound (h : ReadsList separator item gap form beyond stop) {fuel : ℕ} (hread : moreItems separator item fuel cs = (as, rest)) :
    (as = [] ∧ rest = cs) ∨ ∃ g t, cs = g ++ (t ++ rest) ∧ gap g () ∧ IsListOf gap form t as := by
  induction fuel generalizing cs as with
  | zero =>
    obtain ⟨rfl, rfl⟩ := Prod.mk.inj hread
    exact .inl ⟨rfl, rfl⟩
  | succ fuel ih =>
    rw [moreItems] at hread
    split at hread
    · obtain ⟨rfl, rfl⟩ := Prod.mk.inj hread
      exact .inl ⟨rfl, rfl⟩
    · next a ds hfirst =>
      obtain ⟨⟨u, es⟩, hseparator, hitem⟩ := Option.bind_eq_some_iff.mp hfirst
      obtain ⟨g, rfl, hg⟩ := h.separator.sound hseparator
      obtain ⟨t, rfl, ht⟩ := h.item.sound hitem
      obtain ⟨rfl, rfl⟩ := Prod.mk.inj hread
      refine .inr ⟨g, ?_⟩
      rcases ih rfl with ⟨hnil, hrest⟩ | ⟨g', t', hds, hg', hlist⟩
      · exact ⟨t, by rw [hrest], hg, by rw [hnil]; exact .one ht⟩
      · exact ⟨t ++ (g' ++ t'), by simp only [List.append_assoc]; rw [← hds], hg, .more ht hg' hlist⟩

/-- Further items are read to the end of their list. -/
theorem moreItems_complete (h : ReadsList separator item gap form beyond stop) (hlist : IsListOf gap form t as) (hg : gap g ())
    (hrest : ∀ c ∈ rest.head?, stop c = false) (hend : separator rest = none) {fuel : ℕ} (hfuel : t.length ≤ fuel) :
    moreItems separator item fuel (g ++ (t ++ rest)) = (as, rest) := by
  induction hlist generalizing g fuel with
  | one hform =>
    -- Items are not empty, so that the fuel lasts as long as the text.
    have hpos := List.length_pos_iff.mpr (h.opens_item hform).ne_nil
    obtain ⟨k, rfl⟩ : ∃ k, fuel = k + 1 := ⟨fuel - 1, by omega⟩
    rw [moreItems, h.separator.complete hg ((h.opens_item hform).head _), Option.bind_some]
    simp only
    rw [h.item.complete hform hrest]
    simp only
    rw [moreItems_of_none hend]
  | more hform hgap hmore ih =>
    have hpos := List.length_pos_iff.mpr (h.opens_item hform).ne_nil
    rw [List.length_append, List.length_append] at hfuel
    obtain ⟨k, rfl⟩ : ∃ k, fuel = k + 1 := ⟨fuel - 1, by omega⟩
    rw [moreItems, List.append_assoc, List.append_assoc, h.separator.complete hg ((h.opens_item hform).head _), Option.bind_some]
    simp only
    rw [h.item.complete hform ((h.opens_gap hgap).head _)]
    simp only
    rw [ih hgap (by omega)]

theorem separated_sound (h : ReadsList separator item gap form beyond stop) (hread : separated separator item cs = some (as, rest)) :
    ∃ t, cs = t ++ rest ∧ IsListOf gap form t as := by
  obtain ⟨⟨a, ds⟩, hitem, heq⟩ := Option.map_eq_some_iff.mp hread
  obtain ⟨rfl, rfl⟩ := Prod.mk.inj heq
  obtain ⟨t, rfl, ht⟩ := h.item.sound hitem
  rcases h.moreItems_sound rfl with ⟨hnil, hrest⟩ | ⟨g, t', hds, hg, hlist⟩
  · exact ⟨t, by rw [hrest], by rw [hnil]; exact .one ht⟩
  · exact ⟨t ++ (g ++ t'), by simp only [List.append_assoc]; rw [← hds], .more ht hg hlist⟩

theorem separated_complete (h : ReadsList separator item gap form beyond stop) (hlist : IsListOf gap form t as)
    (hrest : ∀ c ∈ rest.head?, stop c = false) (hend : separator rest = none) : separated separator item (t ++ rest) = some (as, rest) := by
  cases hlist with
  | one hform =>
    rw [separated, h.item.complete hform hrest, Option.map_some]
    simp only
    rw [moreItems_of_none hend]
  | more hform hgap hmore =>
    rw [List.append_assoc, List.append_assoc, separated, h.item.complete hform ((h.opens_gap hgap).head _), Option.map_some]
    simp only
    rw [h.moreItems_complete hmore hgap hrest hend (by simp only [List.length_append]; omega)]

/-- The whole texts that are read as a list are the lists. -/
theorem separated_end_iff (h : ReadsList separator item gap form beyond stop) (hend : separator [] = none) :
    separated separator item cs = some (as, []) ↔ IsListOf gap form cs as := by
  constructor
  · intro hread
    obtain ⟨t, rfl, hlist⟩ := h.separated_sound hread
    rwa [List.append_nil]
  · intro hlist
    have hread := h.separated_complete hlist (by simp) hend
    rwa [List.append_nil] at hread

end ReadsList

end Lists

section Sums

theorem isSpace_of_isDigit {c : Char} (h : c.isDigit = true) : isSpace c = false := isSpace_eq_false (isNameChar_of_isDigit h)

theorem isSpace_of_isNameStart {c : Char} (h : isNameStart c = true) : isSpace c = false := isSpace_eq_false (isNameChar_of_isNameStart h)

/-- A coefficient goes on with digits, spaces or its star. -/
def isCoefficientChar (c : Char) : Bool := c.isDigit || isSpace c || c == '*'

theorem reads_coefficient : Reads coefficient IsCoefficient isCoefficientChar where
  sound {cs rest n} h := by
    obtain ⟨⟨m, ds⟩, hdigits, h⟩ := Option.bind_eq_some_iff.mp h
    obtain ⟨⟨u, es⟩, hstar, h⟩ := Option.bind_eq_some_iff.mp h
    obtain ⟨rfl, rfl⟩ := Prod.mk.inj (Option.some.inj h)
    obtain ⟨t, rfl, ht⟩ := reads_digits.sound hdigits
    rw [spaced, Option.map_some] at hstar
    obtain ⟨_, rfl⟩ := Prod.mk.inj (Option.some.inj hstar)
    obtain ⟨before, hbefore, hds⟩ := exists_skipSpaces ds
    obtain ⟨star, hstar, hread⟩ := exists_optionalSign '*' (skipSpaces ds)
    obtain ⟨after, hafter, hes⟩ := exists_skipSpaces (((char '*' (skipSpaces ds)).map (·.2)).getD (skipSpaces ds))
    refine ⟨t ++ (before ++ (star ++ after)), ?_, .intro ht (.intro hbefore hstar hafter)⟩
    rw [List.append_assoc, List.append_assoc, List.append_assoc, ← hes, ← hread, ← hds]
  complete {t rest n} h hrest := by
    obtain ⟨hds, hcs⟩ := h
    have hmarks := hcs.mem IsOptionalSign.mem
    obtain ⟨hbefore, hstar, hafter⟩ := hcs
    rename_i ds before star after
    simp only [isCoefficientChar, Bool.or_eq_false_iff, beq_eq_false_iff_ne] at hrest
    have hskip : skipSpaces rest = rest := skipSpaces_of_head fun c hc => (hrest c hc).1.2
    have hdigit : ∀ c ∈ before ++ (star ++ after), c.isDigit = false := by
      intro c hc
      rcases hmarks c hc with rfl | rfl | rfl <;> decide
    have hread : spaced (fun cs => some ((), ((char '*' cs).map (·.2)).getD cs)) ((before ++ (star ++ after)) ++ rest) = some ((), rest) := by
      rw [spaced, List.append_assoc, List.append_assoc, skipSpaces_append hbefore]
      rcases hstar with rfl | rfl
      · have hnone : char '*' rest = none := by
          cases rest with
          | nil => rfl
          | cons c rest => rw [char, if_neg (hrest c rfl).2]
        rw [List.nil_append, skipSpaces_append hafter, hskip, hnone]
        simp [hskip]
      · rw [skipSpaces_of_head (by simp; decide), List.singleton_append, char, if_pos rfl]
        simp [skipSpaces_append hafter, hskip]
    rw [List.append_assoc, coefficient, reads_digits.complete hds (head_append hdigit fun c hc => (hrest c hc).1.1)]
    simp only [Option.bind_eq_bind, Option.bind_some]
    rw [hread]
    rfl

theorem IsCoefficient.opens {cs : List Char} {n : ℕ} (h : IsCoefficient cs n) {stop : Char → Bool}
    (hstop : ∀ c, c.isDigit = true → stop c = false) : Opens stop cs := by
  obtain ⟨hds, _⟩ := h
  obtain ⟨c, ds, rfl, hc⟩ := hds.opens hstop
  exact ⟨c, _, rfl, hc⟩

theorem isCoefficientChar_of_isNameStart {c : Char} (h : isNameStart c = true) : isCoefficientChar c = false := by
  have hstar : (c == '*') = false := beq_eq_false_iff_ne.mpr (ne_of_isNameChar (isNameChar_of_isNameStart h) (by decide))
  rw [isCoefficientChar, isDigit_of_isNameStart h, isSpace_of_isNameStart h, hstar]
  rfl

theorem reads_term : Reads term IsTerm isNameChar where
  sound {cs rest t} h := by
    obtain ⟨⟨s, es⟩, hname, h⟩ := Option.bind_eq_some_iff.mp h
    obtain ⟨rfl, rfl⟩ := Prod.mk.inj (Option.some.inj h)
    obtain ⟨u, hread, hu⟩ := reads_name.sound hname
    cases hcoefficient : coefficient cs with
    | none =>
      rw [hcoefficient] at hread
      exact ⟨u, hread, .single hu⟩
    | some x =>
      obtain ⟨v, hcs, hv⟩ := reads_coefficient.sound hcoefficient
      rw [hcoefficient] at hread
      have hrest : x.2 = u ++ es := hread
      exact ⟨v ++ u, by rw [hcs, hrest, List.append_assoc], .multiple hv hu⟩
  complete {t rest a} h hrest := by
    cases h with
    | single h =>
      -- A coefficient is tried first; a name does not begin with a digit.
      have hnone : coefficient (t ++ rest) = none := by
        have hopens : Opens Char.isDigit t := h.opens fun c hc => isDigit_of_isNameStart hc
        obtain ⟨c, ds, rfl, hc⟩ := hopens
        rw [coefficient, digits, List.cons_append, List.takeWhile_cons_of_neg (by rw [hc]; decide)]
        rfl
      rw [term, hnone, Option.getD_none]
      simp only
      rw [reads_name.complete h hrest]
      rfl
    | multiple hds h =>
      rw [List.append_assoc, term, reads_coefficient.complete hds ((h.opens fun c hc => isCoefficientChar_of_isNameStart hc).head _),
        Option.getD_some]
      simp only
      rw [reads_name.complete h hrest]
      rfl

theorem IsTerm.opens {cs : List Char} {t : ℕ × String} (h : IsTerm cs t) : Opens isSpace cs := by
  cases h with
  | single h => exact h.opens fun c hc => isSpace_of_isNameStart hc
  | multiple hds h =>
    obtain ⟨c, ds, rfl, hc⟩ := hds.opens fun c hc => isSpace_of_isDigit hc
    exact ⟨c, _, rfl, hc⟩

theorem readsList_terms : ReadsList (spaced (char '+')) term (Padded (IsSign '+')) IsTerm isSpace isNameChar where
  separator := reads_spaced (reads_char '+') (fun h => ⟨'+', [], h, by decide⟩) fun _ _ => rfl
  item := reads_term
  opens_gap h := by
    refine opens_of_forall (h.ne_nil IsSign.ne_nil) fun c hc => ?_
    rcases h.mem IsSign.mem c hc with rfl | rfl | rfl <;> decide
  opens_item h := h.opens

/-- A term has the first character of a name in it. -/
theorem IsTerm.exists_mem {cs : List Char} {t : ℕ × String} (h : IsTerm cs t) : ∃ c ∈ cs, isNameStart c = true := by
  have hname : ∀ {cs : List Char} {s : String}, IsName cs s → ∃ c ∈ cs, isNameStart c = true := by
    rintro _ _ ⟨hc, _⟩
    exact ⟨_, List.mem_cons_self, by simpa [isNameStart] using hc⟩
  cases h with
  | single h => exact hname h
  | multiple hds h =>
    obtain ⟨c, hc, hstart⟩ := hname h
    exact ⟨c, List.mem_append_right _ hc, hstart⟩

theorem IsListOf.exists_mem {gap : Form Unit} {cs : List Char} {ts : ModuleSum} (h : IsListOf gap IsTerm cs ts) :
    ∃ c ∈ cs, isNameStart c = true := by
  cases h with
  | one h => exact h.exists_mem
  | more h _ _ =>
    obtain ⟨c, hc, hstart⟩ := h.exists_mem
    exact ⟨c, List.mem_append_left _ hc, hstart⟩

theorem IsGap.blank {gap : List Char} (h : IsGap gap) : ∀ c ∈ gap, isBlank c = true :=
  fun c hc => isBlank_of_isSpace (isGap_iff.mp h c hc)

/-- A gap without a blank at one of its ends is empty. -/
theorem IsGap.eq_nil {gap : List Char} (h : IsGap gap) (hends : (∀ c ∈ gap.head?, isBlank c = false) ∨ ∀ c ∈ gap.getLast?, isBlank c = false) :
    gap = [] := by
  by_contra hne
  rcases hends with hhead | hlast
  · obtain ⟨c, ds, rfl⟩ := List.exists_cons_of_ne_nil hne
    exact absurd (h.blank c List.mem_cons_self) (by rw [hhead c rfl]; decide)
  · have hmem := List.getLast_mem hne
    exact absurd (h.blank _ hmem) (by rw [hlast _ (List.getLast?_eq_getLast_of_ne_nil hne)]; decide)

/-- A text with anything but spaces and zeros in it is not the empty sum. -/
theorem emptySum_eq_none {c : Char} {cs : List Char} (hc : c ∈ cs) (hspace : isSpace c = false) (hzero : c ≠ '0') : emptySum cs = none := by
  have hmem := mem_skipSpaces hc hspace
  rw [emptySum, spaced]
  cases hskip : skipSpaces cs with
  | nil => rfl
  | cons d ds =>
    by_cases hd : d = '0'
    · rw [hskip, hd] at hmem
      obtain ⟨e, es, hrest⟩ := List.exists_cons_of_ne_nil
        (List.ne_nil_of_mem (mem_skipSpaces ((List.mem_cons.mp hmem).resolve_left hzero) hspace))
      rw [char, if_pos hd, Option.map_some]
      simp only
      rw [hrest]
    · rw [char, if_neg hd]
      rfl

/-- Without blanks at its ends the empty sum is written in one way. -/
theorem emptySum_eq_some {cs : List Char} {ts : ModuleSum} (hhead : ∀ c ∈ cs.head?, isBlank c = false)
    (hlast : ∀ c ∈ cs.getLast?, isBlank c = false) (h : emptySum cs = some (ts, [])) : cs = ['0'] ∧ ts = [] := by
  have hzero := reads_spaced (reads_char '0') (fun h => ⟨'0', [], h, by decide⟩) fun _ _ => rfl
  rw [emptySum] at h
  split at h
  · next u hread =>
    obtain ⟨t, ht, hform⟩ := hzero.sound hread
    obtain ⟨hbefore, hsign, hafter⟩ := hform
    rename_i before sign after
    obtain rfl : sign = ['0'] := hsign
    obtain rfl : cs = before ++ (['0'] ++ after) := by rw [ht, List.append_nil]
    have hbefore : before = [] := hbefore.eq_nil (.inl fun c hc => hhead c (by
      cases before with
      | nil => cases hc
      | cons d ds => exact hc))
    have hafter : after = [] := hafter.eq_nil (.inr fun c hc => hlast c (by
      rw [← List.append_assoc, List.getLast?_append, hc]
      rfl))
    rw [hbefore, hafter]
    exact ⟨rfl, (Prod.mk.inj (Option.some.inj h)).1.symm⟩
  · cases h

/-- A text without blanks at its ends is read as a sum if and only if it is one. -/
theorem moduleSum_eq_some_iff {cs : List Char} {ts : ModuleSum} (hhead : ∀ c ∈ cs.head?, isBlank c = false)
    (hlast : ∀ c ∈ cs.getLast?, isBlank c = false) : moduleSum cs = some (ts, []) ↔ IsSum cs ts := by
  constructor
  · intro h
    rcases Option.or_eq_some_iff.mp h with h | ⟨_, h⟩
    · obtain ⟨rfl, rfl⟩ := emptySum_eq_some hhead hlast h
      exact .empty
    · exact .terms ((readsList_terms.separated_end_iff rfl).mp h)
  · intro h
    cases h with
    | empty => rfl
    | terms h =>
      -- The empty sum is tried first; it has no names in it.
      obtain ⟨c, hmem, hstart⟩ := h.exists_mem
      have hempty : emptySum cs = none :=
        emptySum_eq_none hmem (isSpace_of_isNameStart hstart) (by rintro rfl; exact absurd hstart (by decide))
      rw [moduleSum, either, hempty, Option.none_or]
      exact (readsList_terms.separated_end_iff rfl).mpr h

end Sums

section Factors

theorem TakesOnly.either {α : Type} {r s : Reader α} {form : Form α} (hr : TakesOnly r form) (hs : TakesOnly s form) :
    TakesOnly (either r s) form := by
  intro cs rest a h
  rcases Option.or_eq_some_iff.mp h with h | ⟨_, h⟩
  · exact hr h
  · exact hs h

theorem word_eq_some {w cs rest : List Char} {u : Unit} (h : word w cs = some (u, rest)) : cs = w ++ rest := by
  induction w generalizing cs with
  | nil => exact (Prod.mk.inj (Option.some.inj h)).2
  | cons c w ih =>
    obtain ⟨⟨v, ds⟩, hc, hw⟩ := Option.bind_eq_some_iff.mp h
    obtain ⟨t, rfl, ht⟩ := (reads_char c).sound hc
    rw [ht, ih hw]
    rfl

theorem powerLetter_append (square : Bool) (rest : List Char) :
    powerLetter ((powerLetters square).toList ++ rest) = some (square, rest) := by
  cases square <;> rfl

/-- What begins with the letters of a power begins with no other factor. -/
theorem factor_of_letters (square : Bool) (rest : List Char) : factor ((powerLetters square).toList ++ rest) =
    ((powersFactor ((powerLetters square).toList ++ rest)).or (powerFactor ((powerLetters square).toList ++ rest))) := by
  have hother : bockstein ((powerLetters square).toList ++ rest) = none ∧ exteriorFactor ((powerLetters square).toList ++ rest) = none ∧
      unitFactor ((powerLetters square).toList ++ rest) = none := by
    cases square <;> exact ⟨rfl, rfl, rfl⟩
  obtain ⟨hbockstein, hexterior, hunit⟩ := hother
  rw [factor, either, hbockstein, Option.none_or, either, hexterior, Option.none_or, either, either, hunit, Option.or_none]

theorem powerLetter_eq_some {cs rest : List Char} {square : Bool} (h : powerLetter cs = some (square, rest)) :
    cs = (powerLetters square).toList ++ rest := by
  rcases Option.or_eq_some_iff.mp h with h | ⟨_, h⟩
  · obtain ⟨⟨u, ds⟩, hword, heq⟩ := Option.map_eq_some_iff.mp h
    obtain ⟨rfl, rfl⟩ := Prod.mk.inj heq
    exact word_eq_some hword
  · obtain ⟨⟨u, ds⟩, hchar, heq⟩ := Option.map_eq_some_iff.mp h
    obtain ⟨rfl, rfl⟩ := Prod.mk.inj heq
    obtain ⟨t, rfl, ht⟩ := (reads_char 'P').sound hchar
    rw [ht]
    rfl

theorem readsList_exponents : ReadsList (char ',') (spaced digits) (IsSign ',') (Padded IsNumeral) (fun _ => false)
    fun c => c.isDigit || isSpace c where
  separator := reads_char ','
  item := reads_spaced reads_digits (fun h => h.opens fun _ => isSpace_of_isDigit) fun c hc => by
    cases hdigit : c.isDigit with
    | false => rfl
    | true => exact absurd hc (by rw [isSpace_of_isDigit hdigit]; decide)
  opens_gap h := ⟨',', [], h, by decide⟩
  opens_item h := opens_of_forall (h.ne_nil IsNumeral.ne_nil) fun _ _ => rfl

/-- Exponents between brackets. -/
theorem exponentList_eq_some_iff {cs rest : List Char} {r : List ℕ} :
    exponentList cs = some (r, rest) ↔ ∃ t, cs = '(' :: (t ++ ')' :: rest) ∧ IsExponents t r := by
  constructor
  · intro h
    obtain ⟨⟨u, ds⟩, hopen, h⟩ := Option.bind_eq_some_iff.mp h
    obtain ⟨⟨r', es⟩, hlist, h⟩ := Option.bind_eq_some_iff.mp h
    obtain ⟨⟨u', fs⟩, hclose, h⟩ := Option.bind_eq_some_iff.mp h
    obtain ⟨rfl, rfl⟩ := Prod.mk.inj (Option.some.inj h)
    obtain ⟨t, rfl, ht⟩ := (reads_char '(').sound hopen
    obtain ⟨t', hes, ht'⟩ := (reads_char ')').sound hclose
    rw [ht, List.singleton_append]
    rw [ht', List.singleton_append] at hes
    rw [separatedOrNone] at hlist
    cases hread : separated (char ',') (spaced digits) ds with
    | none =>
      rw [hread, Option.getD_none] at hlist
      obtain ⟨rfl, rfl⟩ := Prod.mk.inj (Option.some.inj hlist)
      exact ⟨[], by rw [hes]; rfl, .none⟩
    | some x =>
      rw [hread, Option.getD_some] at hlist
      obtain rfl := Option.some.inj hlist
      obtain ⟨v, hv, hform⟩ := readsList_exponents.separated_sound hread
      exact ⟨v, by rw [hv, hes], .some hform⟩
  · rintro ⟨t, rfl, ht⟩
    have hlist : separatedOrNone (char ',') (spaced digits) (t ++ ')' :: rest) = some (r, ')' :: rest) := by
      rw [separatedOrNone]
      cases ht with
      | none => rfl
      | some h =>
        rw [readsList_exponents.separated_complete h (by simp; decide) rfl, Option.getD_some]
    rw [exponentList, char, if_pos rfl]
    simp only [Option.bind_eq_bind, Option.bind_some]
    rw [hlist]
    rfl

theorem takesOnly_bockstein : TakesOnly bockstein IsFactor := by
  intro cs rest f h
  obtain ⟨⟨u, ds⟩, hchar, heq⟩ := Option.map_eq_some_iff.mp h
  obtain ⟨rfl, rfl⟩ := Prod.mk.inj heq
  obtain ⟨t, rfl, ht⟩ := (reads_char 'b').sound hchar
  exact ⟨t, rfl, by rw [ht]; exact .bockstein⟩

theorem takesOnly_unitFactor : TakesOnly unitFactor IsFactor := by
  intro cs rest f h
  obtain ⟨⟨u, ds⟩, hchar, heq⟩ := Option.map_eq_some_iff.mp h
  obtain ⟨rfl, rfl⟩ := Prod.mk.inj heq
  obtain ⟨t, rfl, ht⟩ := (reads_char '1').sound hchar
  exact ⟨t, rfl, by rw [ht]; exact .unit⟩

theorem takesOnly_exteriorFactor : TakesOnly exteriorFactor IsFactor := by
  intro cs rest f h
  obtain ⟨⟨u, ds⟩, hchar, h⟩ := Option.bind_eq_some_iff.mp h
  obtain ⟨⟨k, es⟩, hdigits, h⟩ := Option.bind_eq_some_iff.mp h
  obtain ⟨rfl, rfl⟩ := Prod.mk.inj (Option.some.inj h)
  obtain ⟨t, rfl, ht⟩ := (reads_char 'Q').sound hchar
  obtain ⟨mark, hmark, hds⟩ := exists_optionalSign '_' ds
  obtain ⟨v, hread, hv⟩ := reads_digits.sound hdigits
  refine ⟨'Q' :: (mark ++ v), ?_, .exterior hmark hv⟩
  rw [ht, hds, hread]
  simp

theorem takesOnly_powersFactor : TakesOnly powersFactor IsFactor := by
  intro cs rest f h
  obtain ⟨⟨square, ds⟩, hletters, h⟩ := Option.bind_eq_some_iff.mp h
  obtain ⟨⟨r, es⟩, hlist, h⟩ := Option.bind_eq_some_iff.mp h
  obtain ⟨rfl, rfl⟩ := Prod.mk.inj (Option.some.inj h)
  obtain ⟨t, hds, ht⟩ := exponentList_eq_some_iff.mp hlist
  refine ⟨_, ?_, .powers square ht⟩
  rw [powerLetter_eq_some hletters, hds]
  simp

theorem takesOnly_powerFactor : TakesOnly powerFactor IsFactor := by
  intro cs rest f h
  obtain ⟨⟨square, ds⟩, hletters, h⟩ := Option.bind_eq_some_iff.mp h
  obtain ⟨⟨n, es⟩, hdigits, h⟩ := Option.bind_eq_some_iff.mp h
  obtain ⟨rfl, rfl⟩ := Prod.mk.inj (Option.some.inj h)
  obtain ⟨t, rfl, ht⟩ := reads_digits.sound hdigits
  refine ⟨_, ?_, .power square ht⟩
  rw [powerLetter_eq_some hletters, List.append_assoc]

theorem reads_factor : Reads factor IsFactor Char.isDigit where
  sound := takesOnly_bockstein.either (takesOnly_exteriorFactor.either
    (takesOnly_powersFactor.either (takesOnly_powerFactor.either takesOnly_unitFactor)))
  complete {t rest f} h hrest := by
    cases h with
    | bockstein => rfl
    | exterior hmark hds =>
      rename_i mark ds k
      have hskip : ((char '_' (mark ++ (ds ++ rest))).map (·.2)).getD (mark ++ (ds ++ rest)) = ds ++ rest := by
        rcases hmark with rfl | rfl
        · have hopens : Opens (fun c => c == '_') ds := hds.opens fun c hc => by
            rw [beq_eq_false_iff_ne]
            rintro rfl
            exact absurd hc (by decide)
          obtain ⟨c, es, rfl, hc⟩ := hopens
          rw [List.nil_append, List.cons_append, char, if_neg (beq_eq_false_iff_ne.mp hc)]
          rfl
        · rfl
      have hread : exteriorFactor ('Q' :: (mark ++ (ds ++ rest))) = some ((.exterior k, false), rest) := by
        change (digits (((char '_' (mark ++ (ds ++ rest))).map (·.2)).getD (mark ++ (ds ++ rest)))).bind _ = _
        rw [hskip, reads_digits.complete hds hrest]
        rfl
      have hbockstein : bockstein ('Q' :: (mark ++ (ds ++ rest))) = none := rfl
      rw [List.cons_append, List.append_assoc, factor, either, hbockstein, Option.none_or, either, hread, Option.some_or]
    | powers square hcs =>
      rename_i cs r
      have hlist : exponentList ('(' :: (cs ++ ')' :: rest)) = some (r, rest) := exponentList_eq_some_iff.mpr ⟨cs, rfl, hcs⟩
      have htext : (powerLetters square).toList ++ '(' :: (cs ++ [')']) ++ rest = (powerLetters square).toList ++ '(' :: (cs ++ ')' :: rest) := by
        simp
      rw [htext, factor_of_letters, powersFactor, powerLetter_append]
      simp only [Option.bind_eq_bind, Option.bind_some]
      rw [hlist]
      rfl
    | power square hds =>
      rename_i ds n
      -- Exponents in brackets are tried first; a numeral does not begin with a bracket.
      have hbracket : exponentList (ds ++ rest) = none := by
        rw [Option.eq_none_iff_forall_ne_some]
        rintro ⟨r, es⟩ hread
        obtain ⟨t, ht, _⟩ := exponentList_eq_some_iff.mp hread
        have hopens : Opens (fun c => c == '(') ds := hds.opens fun c hc => by
          rw [beq_eq_false_iff_ne]
          rintro rfl
          exact absurd hc (by decide)
        obtain ⟨c, fs, rfl, hc⟩ := hopens
        exact beq_eq_false_iff_ne.mp hc (List.cons.inj ht).1
      rw [List.append_assoc, factor_of_letters, powersFactor, powerFactor, powerLetter_append]
      simp only [Option.bind_eq_bind, Option.bind_some]
      rw [hbracket, reads_digits.complete hds hrest]
      rfl
    | unit => rfl

theorem IsFactor.opens {cs : List Char} {f : Factor × Bool} (h : IsFactor cs f) : Opens isSpace cs := by
  have hletters : ∀ (square : Bool) (ds : List Char), Opens isSpace ((powerLetters square).toList ++ ds) := by
    rintro (_ | _) ds
    · exact ⟨'P', ds, rfl, by decide⟩
    · exact ⟨'S', 'q' :: ds, rfl, by decide⟩
  cases h with
  | bockstein => exact ⟨'b', [], rfl, by decide⟩
  | exterior _ _ => exact ⟨'Q', _, rfl, by decide⟩
  | powers square _ => exact hletters square _
  | power square _ => exact hletters square _
  | unit => exact ⟨'1', [], rfl, by decide⟩

theorem readsList_factors : ReadsList spaces factor IsSpaces IsFactor isSpace Char.isDigit where
  separator := reads_spaces
  item := reads_factor
  opens_gap h := opens_of_forall h.1 fun c hc => by rcases h.2 c hc with rfl | rfl <;> decide
  opens_item h := h.opens

theorem product_eq_some_iff {cs : List Char} {q : Product} : product cs = some (q, []) ↔ IsProduct cs q := by
  constructor
  · intro h
    obtain ⟨⟨fs, ds⟩, hread, heq⟩ := Option.map_eq_some_iff.mp h
    obtain ⟨rfl, rfl⟩ := Prod.mk.inj heq
    exact .intro ((readsList_factors.separated_end_iff rfl).mp hread)
  · rintro ⟨hlist⟩
    rw [product, (readsList_factors.separated_end_iff rfl).mpr hlist]
    rfl

end Factors

section Whole

theorem dropWhile_head (q : Char → Bool) (cs : List Char) : ∀ c ∈ (cs.dropWhile q).head?, q c = false := by
  intro c hc
  have h := List.head?_dropWhile_not q cs
  rw [Option.mem_def.mp hc] at h
  simpa using h

theorem isTrimmed_trim (text : List Char) : IsTrimmed text (trim text) where
  eq_append := by
    refine ⟨text.takeWhile isBlank, ((trimStart text).reverse.takeWhile isBlank).reverse, ?_, fun _ => List.mem_takeWhile_imp,
      fun c hc => List.mem_takeWhile_imp (List.mem_reverse.mp hc)⟩
    have hstart : text = text.takeWhile isBlank ++ trimStart text := List.takeWhile_append_dropWhile.symm
    have hend : (trimStart text).reverse = (trimStart text).reverse.takeWhile isBlank ++ trimStart (trimStart text).reverse :=
      List.takeWhile_append_dropWhile.symm
    rw [List.append_assoc, trim, trimEnd, ← List.reverse_append, ← hend, List.reverse_reverse, ← hstart]
  head c hc := by
    have hprefix : trim text <+: trimStart text := by
      rw [trim, trimEnd, ← List.reverse_suffix, List.reverse_reverse]
      exact List.dropWhile_suffix isBlank
    obtain ⟨ds, hds⟩ := hprefix
    refine dropWhile_head isBlank text c ?_
    rw [trimStart] at hds
    rw [← hds, List.head?_append, hc]
    rfl
  last c hc := by
    rw [trim, trimEnd, List.getLast?_reverse] at hc
    exact dropWhile_head isBlank _ c hc

theorem IsTrimmed.eq_trim {text cs : List Char} (h : IsTrimmed text cs) : cs = trim text := by
  obtain ⟨a, b, rfl, ha, hb⟩ := h.eq_append
  by_cases hne : cs = []
  · have hblank : trimStart (a ++ cs ++ b) = [] := by
      rw [trimStart, List.dropWhile_eq_nil_iff, hne, List.append_nil]
      exact fun c hc => (List.mem_append.mp hc).elim (ha c) (hb c)
    rw [trim, hblank, hne]
    rfl
  · exact (trim_append hne ha hb h.head h.last).symm

theorem exists_isTrimmed_iff {text : List Char} {q : List Char → Prop} : (∃ cs, IsTrimmed text cs ∧ q cs) ↔ q (trim text) := by
  constructor
  · rintro ⟨cs, hcs, h⟩
    exact hcs.eq_trim ▸ h
  · intro h
    exact ⟨_, isTrimmed_trim text, h⟩

theorem whole_eq_ok_iff {α : Type} {r : Reader α} {text : String} {a : α} :
    asError (whole r text) = .ok a ↔ r (trim text.toList) = some (a, []) := by
  rw [whole]
  split <;> simp_all [asError]

theorem whole_eq_error {α : Type} (r : Reader α) (text : String) : (∃ a, asError (whole r text) = .ok a) ∨
    ∃ fault, asError (whole r text) = .error (.malformed (String.ofList (trim text.toList)) fault) := by
  rw [whole]
  split
  · exact .inl ⟨_, rfl⟩
  · exact .inr ⟨_, rfl⟩
  · exact .inr ⟨_, rfl⟩

end Whole

/-- A text is read as a sum or as a product if and only if it is one without the blanks at its ends, and as what it denotes. Every other text
is malformed. -/
theorem parse_iff_grammar (text : String) :
    (∀ ts, ModuleSum.parse text = .ok ts ↔ ∃ cs, IsTrimmed text.toList cs ∧ IsSum cs ts) ∧
    (∀ q, Product.parse text = .ok q ↔ ∃ cs, IsTrimmed text.toList cs ∧ IsProduct cs q) ∧
    ((∃ ts, ModuleSum.parse text = .ok ts) ∨
      ∃ cs fault, IsTrimmed text.toList cs ∧ ModuleSum.parse text = .error (.malformed (String.ofList cs) fault)) ∧
    ((∃ q, Product.parse text = .ok q) ∨
      ∃ cs fault, IsTrimmed text.toList cs ∧ Product.parse text = .error (.malformed (String.ofList cs) fault)) := by
  have htrim := isTrimmed_trim text.toList
  refine ⟨fun ts => ?_, fun q => ?_, ?_, ?_⟩
  · rw [ModuleSum.parse, whole_eq_ok_iff, moduleSum_eq_some_iff htrim.head htrim.last, exists_isTrimmed_iff]
  · rw [Product.parse, whole_eq_ok_iff, product_eq_some_iff, exists_isTrimmed_iff]
  · refine (whole_eq_error moduleSum text).imp_right ?_
    rintro ⟨fault, h⟩
    exact ⟨_, fault, htrim, h⟩
  · refine (whole_eq_error product text).imp_right ?_
    rintro ⟨fault, h⟩
    exact ⟨_, fault, htrim, h⟩

end Text
end Steenrod
