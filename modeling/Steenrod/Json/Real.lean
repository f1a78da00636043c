/-!
Binary floating point numbers of 64 bits as they occur in documents: the number nearest to a decimal, and the
shortest decimal that reads back as a number.
-/
namespace Steenrod
namespace Json

/-- `significand * 10 ^ exponent` by one multiplication or division by a power of ten, dividing by
`10 ^ 308` first while the exponent is below the range of such powers. Nothing on overflow. -/
def scaleReal (x : Float) (exponent : Int) : (fuel : Nat) → Option Float
  | 0 => some x
  | fuel + 1 =>
    if exponent.natAbs ≤ 308 then
      let power := Float.ofScientific 1 false exponent.natAbs
      if 0 ≤ exponent then
        let y := x * power
        if y.isInf then none else some y
      else some (x / power)
    else if x == 0.0 then some x
    else if 0 ≤ exponent then none
    else scaleReal (x / Float.ofScientific 1 false 308) (exponent + 308) fuel

/-- The bits of the number written with that sign, significand and decimal exponent. -/
def realBits? (negative : Bool) (significand : Nat) (exponent : Int) : Option UInt64 := do
  let x ← scaleReal (Float.ofNat significand) exponent 8
  some (if negative then -x else x).toBits

/-- A finite number `mantissa * 2 ^ exponent`. -/
structure Binary where
  negative : Bool
  mantissa : Nat
  exponent : Int
  deriving DecidableEq, Repr

def Binary.ofBits (bits : UInt64) : Binary :=
  let n := bits.toNat
  let fraction : Nat := n % (1 <<< 52)
  let biased : Nat := (n >>> 52) % 2048
  let negative : Bool := n >>> 63 == 1
  if biased = 0 then ⟨negative, fraction, -1074⟩
  else ⟨negative, (1 <<< 52) + fraction, (biased : Int) - 1075⟩

/-- A decimal `digits * 10 ^ exponent`. -/
structure Decimal where
  digits : Nat
  exponent : Int
  deriving DecidableEq, Repr

def tenTo (n : Nat) : Nat := Nat.pow 10 n

/-- The least `k` with `num / den < 10 ^ k`, counted from `k` up or down. -/
def decimalSize (num den : Nat) : (fuel : Nat) → Int → Int
  | 0, k => k
  | fuel + 1, k =>
    let less (k : Int) : Bool := num * tenTo (-k).toNat < den * tenTo k.toNat
    if less k then
      if less (k - 1) then decimalSize num den fuel (k - 1) else k
    else decimalSize num den fuel (k + 1)

/-- The decimal nearest to `mantissa * 2 ^ exponent` among those with the fewest digits that read back
as it. Of these 17 digits always are enough. -/
def Binary.shortest (b : Binary) : Decimal :=
  let m := 4 * b.mantissa
  let below := if b.mantissa = 1 <<< 52 ∧ -1074 < b.exponent then m - 1 else m - 2
  let above := m + 2
  let num := 1 <<< (b.exponent - 2).toNat
  let den := 1 <<< (2 - b.exponent).toNat
  let size := decimalSize (m * num) den 700 0
  let inside (x : Nat) (k : Int) : Bool :=
    let lhs := x * tenTo k.toNat * den
    let unit := num * tenTo (-k).toNat
    if b.mantissa % 2 = 0 then below * unit ≤ lhs && lhs ≤ above * unit
    else below * unit < lhs && lhs < above * unit
  let rec search : (fuel count : Nat) → Decimal
    | 0, count => ⟨0, size - count⟩
    | fuel + 1, count =>
      let k := size - count
      let scaled := m * num * tenTo (-k).toNat
      let unit := den * tenTo k.toNat
      let low := scaled / unit
      let rest := scaled % unit
      let (first, second) :=
        if 2 * rest < unit ∨ (2 * rest = unit ∧ low % 2 = 0) then (low, low + 1) else (low + 1, low)
      if inside first k then ⟨first, k⟩
      else if inside second k then ⟨second, k⟩
      else search fuel (count + 1)
  search 17 1

/-- A decimal without trailing zeros in its digits. -/
def Decimal.strip (d : Decimal) : (fuel : Nat) → Decimal
  | 0 => d
  | fuel + 1 =>
    if d.digits ≠ 0 ∧ d.digits % 10 = 0 then Decimal.strip ⟨d.digits / 10, d.exponent + 1⟩ fuel else d

/-- Positional from `10 ^ -5` up to `10 ^ 16`, with at least one place after the point; else with an
exponent that shows its sign. -/
def Decimal.text (d : Decimal) : String :=
  let digits := Nat.repr d.digits
  let length : Int := digits.length
  let point := length + d.exponent
  let zeros (n : Int) : String := String.ofList (List.replicate n.toNat '0')
  let cut (n : Int) : String :=
    String.ofList (digits.toList.take n.toNat) ++ "." ++ String.ofList (digits.toList.drop n.toNat)
  if 0 ≤ d.exponent ∧ point ≤ 16 then digits ++ zeros d.exponent ++ ".0"
  else if 0 < point ∧ point ≤ 16 then cut point
  else if -5 < point ∧ point ≤ 0 then "0." ++ zeros (-point) ++ digits
  else
    let sign := if 0 < point then "+" else ""
    (if length = 1 then digits else cut 1) ++ "e" ++ sign ++ (point - 1).repr

def realText (bits : UInt64) : String :=
  let b := Binary.ofBits bits
  let sign := if b.negative then "-" else ""
  if b.mantissa = 0 then sign ++ "0.0" else sign ++ (b.shortest.strip 20).text

end Json
end Steenrod
