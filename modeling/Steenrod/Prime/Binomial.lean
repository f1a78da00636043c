import Steenrod.Prime
import Steenrod.Total
/-!
Binomial and multinomial coefficients mod a prime, digit by digit in base `p`: the coefficient is the
product of the coefficients of the digits, and zero where a carry occurs.
-/
namespace Steenrod
namespace Prime

/-- `binom n k` for digits `k ≤ n < p`. -/
def digitBinomial (p : Prime) (n k : Nat) : Nat :=
  let above := Nat.fold k (fun i _ acc => acc * (n - i) % p.val) 1
  let below := Nat.fold k (fun i _ acc => acc * (i + 1) % p.val) 1
  above * p.inverse below % p.val

theorem div_add_div_lt (p : Prime) {n k : Nat} (h : ¬(n = 0 ∧ k = 0)) :
    n / p.val + k / p.val < n + k := by
  have hp := p.two_le
  have hn : n / p.val ≤ n / 2 := Nat.div_le_div_left hp (by decide)
  have hk : k / p.val ≤ k / 2 := Nat.div_le_div_left hp (by decide)
  omega

/-- `binom n k`, the product over the digits of `n` and `k`. -/
def lucas (p : Prime) (n k : Nat) : Nat :=
  if _h : n = 0 ∧ k = 0 then 1
  else if n % p.val < k % p.val then 0
  else p.product (p.digitBinomial (n % p.val) (k % p.val)) (lucas p (n / p.val) (k / p.val))
  termination_by n + k
  decreasing_by exact p.div_add_div_lt _h

/-- `binom n k`, zero where `k` is out of range. -/
def binomial (p : Prime) (n k : Int) : Nat :=
  if k < 0 ∨ n < k then 0 else p.lucas n.toNat k.toNat

/-- The multinomial coefficient of the lowest digits, started at the running total `total`: zero on a
carry, and nothing where a total outgrows a word. -/
def digitMultinomial (p : Prime) (total : Nat) : List Nat → Option Nat
  | [] => some 1
  | n :: ns =>
    let sum := total + n % p.val
    if maxWord < sum then none
    else if p.val ≤ sum then some 0
    else (digitMultinomial p sum ns).map (p.product (p.digitBinomial sum (n % p.val)))

/-- All numbers of a list without their lowest digit. -/
def dropDigit (p : Prime) (l : List Nat) : List Nat := l.map (· / p.val)

theorem total_dropDigit_lt (p : Prime) {l : List Nat} (h : l.any (0 < ·) = true) :
    total (p.dropDigit l) < total l := by
  have hp := p.two_le
  unfold dropDigit
  induction l with
  | nil => simp at h
  | cons n l ih =>
    have hn := Nat.div_le_self n p.val
    have hl := total_map_le (fun n => Nat.div_le_self n p.val) l
    simp only [List.any_cons, Bool.or_eq_true, decide_eq_true_eq] at h
    simp only [List.map_cons, total_cons]
    rcases h with h | h
    · have : n / p.val < n := Nat.div_lt_self h hp
      omega
    · have := ih h
      omega

/-- The multinomial coefficient `(Σ l)! / Π l!`; nothing where a sum of digits outgrows a word. -/
def multinomial? (p : Prime) (l : List Nat) : Option Nat :=
  if _h : l.any (0 < ·) = true then
    match p.digitMultinomial 0 l with
    | none => none
    | some 0 => some 0
    | some c => (multinomial? p (p.dropDigit l)).map (p.product c)
  else some 1
  termination_by total l
  decreasing_by exact p.total_dropDigit_lt _h

/-- The multinomial coefficient, for primes with room for the sum of two digits in a word. -/
def multinomial (p : Prime) (l : List Nat) : Nat := (p.multinomial? l).getD 0

end Prime
end Steenrod
