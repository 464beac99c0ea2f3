namespace HttpRouting

structure Decimal where
  digits : Nat
  scale : Int
  deriving DecidableEq, Repr

namespace Decimal

/-- A positive number in quarters of the spacing of floating point numbers around it, and the ends
of the interval that rounds to it. The interval includes its ends when `even` holds. -/
structure Rounding where
  value : Nat
  lower : Nat
  upper : Nat
  exponent : Int
  even : Bool

def hiddenBit : Nat := 4503599627370496

def Rounding.ofBits (bits : Nat) : Rounding :=
  let fraction := bits % hiddenBit
  let power := bits / hiddenBit
  let mantissa := if power = 0 then fraction else fraction + hiddenBit
  let narrow := fraction = 0 ∧ 1 < power
  { value := 4 * mantissa
    lower := 4 * mantissa - if narrow then 1 else 2
    upper := 4 * mantissa + 2
    exponent := Int.ofNat (max power 1) - 1077
    even := mantissa % 2 = 0 }

def ratio (base : Nat) (exponent : Int) : Nat × Nat :=
  (Nat.pow base exponent.toNat, Nat.pow base (-exponent).toNat)

def leadingExponent (num den : Nat) : Int :=
  if den ≤ num then ((Nat.toDigits 10 (num / den)).length : Int) - 1
  else
    match (List.range 400).find? fun j => den ≤ num * Nat.pow 10 (j + 1) with
    | some j => -((j : Int) + 1)
    | none => 0

def onGrid (r : Rounding) (scale : Int) : Option Decimal :=
  let (up, down) := ratio 2 r.exponent
  let (gridUp, gridDown) := ratio 10 scale
  let unit := up * gridDown
  let grid := down * gridUp
  let inside := fun c =>
    let low := r.lower * unit
    let high := r.upper * unit
    if r.even then low ≤ c * grid && c * grid ≤ high else low < c * grid && c * grid < high
  let below := r.value * unit / grid
  let rest := 2 * (r.value * unit % grid)
  let nearest := if rest < grid ∨ rest = grid ∧ below % 2 = 0 then below else below + 1
  let other := if nearest = below then below + 1 else below
  ([nearest, other].find? fun c => 0 < c && inside c).map (⟨·, scale⟩)

def trim : Nat → Decimal → Decimal
  | 0, d => d
  | fuel + 1, d =>
      if d.digits ≠ 0 ∧ d.digits % 10 = 0 then trim fuel ⟨d.digits / 10, d.scale + 1⟩ else d

def shortest (r : Rounding) : Decimal :=
  let (up, down) := ratio 2 r.exponent
  let leading := leadingExponent (r.value * up) down
  let grids := (List.range 17).map fun n => leading - Int.ofNat n
  trim 20 ((grids.findSome? (onGrid r)).getD ⟨0, 0⟩)

def positionalDigits : Int := 16

def leadingZeros : Int := 5

def exponentText (n : Int) : String := (if 0 ≤ n then "+" else "") ++ toString n

/-- Positional notation near one, and an exponent elsewhere. A point always has digits around it. -/
def text (d : Decimal) : String :=
  let digits := (toString d.digits).toList
  let before := (digits.length : Int) + d.scale
  let zeros := fun n : Int => List.replicate n.toNat '0'
  if 0 ≤ d.scale ∧ before ≤ positionalDigits then
    String.ofList (digits ++ zeros d.scale ++ ['.', '0'])
  else if 0 < before ∧ before ≤ positionalDigits then
    String.ofList (digits.take before.toNat ++ ['.'] ++ digits.drop before.toNat)
  else if -leadingZeros < before ∧ before ≤ 0 then
    String.ofList (['0', '.'] ++ zeros (-before) ++ digits)
  else
    let tail := digits.drop 1
    let point := if tail.isEmpty then [] else '.' :: tail
    String.ofList (digits.take 1 ++ point ++ ['e']) ++ exponentText (before - 1)

end Decimal

end HttpRouting
