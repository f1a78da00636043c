import Steenrod.Failure
import Steenrod.Word
/-!
Prime numbers of one machine word and the arithmetic of their fields. Residues are natural numbers; every
operation accepts any representative and answers with the one below the prime. Main statements: a prime
is at least 2, the operations answer below the prime, and `power` is the power.
-/
namespace Steenrod

/-- Trial division by `d`, `d + 1`, …, as long as their squares do not exceed `n`. Without an answer
once `fuel` divisors are used up: the square of the next one does not fit a word. -/
def trialDivision (n : Nat) : (d fuel : Nat) → Option Bool
  | _, 0 => none
  | d, fuel + 1 =>
    if n < d * d then some true
    else if n % d = 0 then some false
    else trialDivision n (d + 1) fuel

/-- The divisors from 2 on whose squares fit a 32-bit word. -/
def wordDivisors : Nat := 65534

def isPrime? (n : Nat) : Option Bool :=
  if n < 2 then some false else trialDivision n 2 wordDivisors

structure Prime where
  val : Nat
  isPrime : isPrime? val = some true
  deriving DecidableEq

/-- A number that should be a prime and is not. -/
structure NotPrime where
  number : Nat
  deriving DecidableEq, Repr

def NotPrime.message (e : NotPrime) : String := s!"{e.number} is not a valid prime"

namespace Prime

def two : Prime := ⟨2, by decide⟩

/-- The prime of that value, if it is one; a breach where trial division leaves the words. -/
def ofNat (n : Nat) : Result (Option Prime) :=
  match h : isPrime? n with
  | none => breach
  | some false => .ok none
  | some true => .ok (some ⟨n, h⟩)

theorem two_le (p : Prime) : 2 ≤ p.val := by
  have h := p.isPrime
  unfold isPrime? at h
  by_cases hp : p.val < 2
  · simp [hp] at h
  · omega

theorem pos (p : Prime) : 0 < p.val := Nat.lt_of_lt_of_le (by decide) p.two_le

/-- The prime read as a signed word. -/
def signed (p : Prime) : Int := signed32 p.val

def isOdd (p : Prime) : Bool := p.val != 2

def sum (p : Prime) (a b : Nat) : Nat := (a + b) % p.val

def product (p : Prime) (a b : Nat) : Nat := a * b % p.val

def negate (p : Prime) (a : Nat) : Nat := (p.val - a % p.val) % p.val

/-- `b ^ e`, by squaring. -/
def power (p : Prime) (b e : Nat) : Nat :=
  if e = 0 then 1
  else
    let half := power p (p.product b b) (e / 2)
    if e % 2 = 1 then p.product b half else half
  termination_by e
  decreasing_by omega

/-- The inverse of a number that `p` does not divide. -/
def inverse (p : Prime) (a : Nat) : Nat := p.power a (p.val - 2)

/-- `(-1) ^ n`. -/
def sign (p : Prime) (n : Int) : Nat := if n % 2 = 0 then 1 else p.val - 1

theorem sum_lt (p : Prime) (a b : Nat) : p.sum a b < p.val := Nat.mod_lt _ p.pos

theorem product_lt (p : Prime) (a b : Nat) : p.product a b < p.val := Nat.mod_lt _ p.pos

theorem negate_lt (p : Prime) (a : Nat) : p.negate a < p.val := Nat.mod_lt _ p.pos

theorem sign_lt (p : Prime) (n : Int) : p.sign n < p.val := by
  have := p.two_le
  unfold sign
  split <;> omega

theorem sum_negate (p : Prime) (a : Nat) : p.sum a (p.negate a) = 0 := by
  have hp := p.pos
  have hr : a % p.val < p.val := Nat.mod_lt _ hp
  unfold sum negate
  by_cases h : a % p.val = 0
  · rw [h, Nat.sub_zero, Nat.mod_self, Nat.add_zero, h]
  · rw [Nat.mod_eq_of_lt (by omega : p.val - a % p.val < p.val), Nat.add_mod,
      Nat.mod_eq_of_lt (by omega : p.val - a % p.val < p.val),
      (by omega : a % p.val + (p.val - a % p.val) = p.val), Nat.mod_self]

theorem power_eq (p : Prime) (b e : Nat) : p.power b e = Nat.pow b e % p.val := by
  rw [Nat.pow_eq]
  have hp := p.two_le
  induction e using Nat.strongRecOn generalizing b with
  | ind e ih =>
    unfold power
    split
    · next h => subst h; rw [Nat.pow_zero, Nat.mod_eq_of_lt (by omega)]
    · next h =>
      have hhalf := ih (e / 2) (by omega) (p.product b b)
      rw [hhalf]
      simp only [product]
      rw [← Nat.pow_mod, ← Nat.pow_two, ← Nat.pow_mul]
      split
      · next h1 =>
        rw [Nat.mul_mod_mod, ← Nat.pow_succ', (by omega : (2 * (e / 2)).succ = e)]
      · next h0 => rw [(by omega : 2 * (e / 2) = e)]

theorem power_lt (p : Prime) (b e : Nat) : p.power b e < p.val := by
  rw [power_eq]
  exact Nat.mod_lt _ p.pos

end Prime
end Steenrod
