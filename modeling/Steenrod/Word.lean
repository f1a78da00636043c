/-! Machine words: the range of 32-bit numbers and the signed reading of one. -/
namespace Steenrod

/-- The number of words of 32 bits. -/
def wordCount : Nat := 4294967296

/-- The largest unsigned word. -/
def maxWord : Nat := 4294967295

/-- The largest signed word. -/
def maxSigned : Int := 2147483647

/-- Whether a number is a signed word. -/
def isSigned (n : Int) : Bool := -2147483648 ≤ n && n ≤ maxSigned

/-- The result of signed arithmetic, if it is a signed word. -/
def word? (n : Int) : Option Int := if isSigned n then some n else none

/-- The sum of signed words, if all partial sums are signed words. -/
def wordSum? (l : List Int) : Option Int := l.foldlM (fun sum n => word? (sum + n)) 0

/-- The signed word with the same residue. -/
def signed32 (n : Int) : Int := n.bmod wordCount

/-- The unsigned word with the same residue. -/
def unsigned32 (n : Int) : Nat := (n % (wordCount : Int)).toNat

theorem signed32_of_small {n : Nat} (h : (n : Int) ≤ maxSigned) : signed32 n = n := by
  unfold maxSigned at h
  rw [signed32, wordCount, Int.bmod_def]
  split <;> omega

theorem unsigned32_le (n : Int) : unsigned32 n ≤ maxWord := by
  unfold unsigned32 wordCount maxWord
  omega

theorem unsigned32_of_le {n : Nat} (h : n ≤ maxWord) : unsigned32 n = n := by
  unfold maxWord at h
  unfold unsigned32 wordCount
  omega

end Steenrod
