/-! White space: the characters of the Unicode property `White_Space`, and texts without it at their ends. -/
namespace Steenrod
namespace Text

def isBlank (c : Char) : Bool :=
  let n := c.toNat
  (9 ≤ n && n ≤ 13) || n == 0x20 || n == 0x85 || n == 0xA0 || n == 0x1680 ||
    (0x2000 ≤ n && n ≤ 0x200A) || n == 0x2028 || n == 0x2029 || n == 0x202F || n == 0x205F || n == 0x3000

/-- Space or tab. -/
def isSpace (c : Char) : Bool := c == ' ' || c == '\t'

def trimStart (cs : List Char) : List Char := cs.dropWhile isBlank

def trimEnd (cs : List Char) : List Char := (trimStart cs.reverse).reverse

def trim (cs : List Char) : List Char := trimEnd (trimStart cs)

def trimString (s : String) : String := String.ofList (trim s.toList)

/-- What stands before and after the first character with property `sep`. -/
def splitFirst (sep : Char → Bool) : List Char → Option (List Char × List Char)
  | [] => none
  | c :: cs => if sep c then some ([], cs) else (splitFirst sep cs).map fun (a, b) => (c :: a, b)

/-- What stands before and after the last character with property `sep`. -/
def splitLast (sep : Char → Bool) (cs : List Char) : Option (List Char × List Char) :=
  (splitFirst sep cs.reverse).map fun (a, b) => (b.reverse, a.reverse)

theorem isBlank_of_isSpace {c : Char} (h : isSpace c = true) : isBlank c = true := by
  simp only [isSpace, Bool.or_eq_true, beq_iff_eq] at h
  rcases h with rfl | rfl <;> decide

theorem splitFirst_eq_some {sep : Char → Bool} {cs a b : List Char}
    (h : splitFirst sep cs = some (a, b)) :
    (∀ c ∈ a, sep c = false) ∧ ∃ c, sep c = true ∧ cs = a ++ c :: b := by
  induction cs generalizing a with
  | nil => simp [splitFirst] at h
  | cons c cs ih =>
    unfold splitFirst at h
    split at h
    · next hc =>
      simp only [Option.some.injEq, Prod.mk.injEq] at h
      obtain ⟨rfl, rfl⟩ := h
      exact ⟨by simp, c, hc, rfl⟩
    · next hc =>
      obtain ⟨⟨a', b'⟩, h', heq⟩ := Option.map_eq_some_iff.1 h
      simp only [Prod.mk.injEq] at heq
      obtain ⟨rfl, rfl⟩ := heq
      obtain ⟨h1, d, hd, rfl⟩ := ih h'
      refine ⟨?_, d, hd, rfl⟩
      intro x hx
      rcases List.mem_cons.1 hx with rfl | hx
      · simpa using hc
      · exact h1 x hx

end Text
end Steenrod
