/-!
# Decimal texts of binary64 numbers

**Input.**  A binary64 number.

**Algorithm.**  A finite number other than zero is `m · 2 ^ q`.  Its *rounding interval*
holds the reals that round to it; the ends belong to it exactly when `m` is even.  On the
decimal grids of 1, 2, … 17 significant digits the two grid points next to the number are
compared with the interval in exact integer arithmetic.  The first grid with a point
inside gives the digits: the nearer of two such points, and of two equally near ones the
greater.

**Results.**
* `Decimal.ofFloat?` decomposes a finite number into a sign, digits without trailing
  zeros, and the place of the decimal point.
* `Spelling.render` lays such a decimal out; `Spelling.plain` and `Spelling.listing` are
  the two layouts in use.
-/

namespace ReverseMode
namespace Text

/-- A decimal `0.d₁d₂d₃… · 10 ^ point`, with a sign.  Zero has no digits. -/
structure Decimal where
  negative : Bool
  digits : List Char
  point : Int
deriving DecidableEq

section Shortest

/-- A positive number `mantissa · 2 ^ exponent`, with what its rounding interval depends on. -/
structure Magnitude where
  mantissa : Nat
  exponent : Int
  /-- Whether the next smaller number is only half as far away as the next greater one. -/
  narrowBelow : Bool

/-- The factors `(p, b)` such that `d · 10 ^ i` and `x · 2 ^ e` compare as `d · p` and
`x · b`. -/
def scales (i e : Int) : Nat × Nat :=
  (Nat.pow 10 i.toNat <<< (-e).toNat, Nat.pow 10 (-i).toNat <<< e.toNat)

/-- The point of the grid `10 ^ i` nearest to `v` among the two neighbours of `v` that lie
in its rounding interval. -/
def gridPoint? (v : Magnitude) (i : Int) : Option Nat :=
  let (p, b) := scales i (v.exponent - 2)
  let value := 4 * v.mantissa * b
  let low := (4 * v.mantissa - (if v.narrowBelow then 1 else 2)) * b
  let high := (4 * v.mantissa + 2) * b
  let inside (x : Nat) : Bool :=
    if v.mantissa % 2 = 0 then low ≤ x && x ≤ high else low < x && x < high
  let below := value / p
  let above := below + 1
  if inside (below * p) && !(inside (above * p) && above * p - value ≤ value - below * p) then
    some below
  else if inside (above * p) then some above
  else none

/-- The `k` with `10 ^ (k - 1) ≤ num / den < 10 ^ k`. -/
def magnitudePoint (num den : Nat) : Int :=
  if den ≤ num then (Nat.toDigits 10 (num / den)).length
  else 1 - ((Nat.toDigits 10 ((den + num - 1) / num - 1)).length : Int)

/-- The shortest decimal in the rounding interval of `v`, as digits and point. -/
def shortest (v : Magnitude) : List Char × Int :=
  let k := magnitudePoint (v.mantissa <<< v.exponent.toNat) (1 <<< (-v.exponent).toNat)
  let found := (List.range 17).findSome? fun (n : Nat) =>
    let i := k - 1 - (n : Int)
    (gridPoint? v i).map fun d => (d, i)
  match found with
  | some (d, i) =>
      let ds := Nat.toDigits 10 d
      ((ds.reverse.dropWhile (· == '0')).reverse, i + ds.length)
  | none => ([], 0)

end Shortest

section Binary64

/-- Whether the sign bit is set. -/
def signBit (x : Float) : Bool :=
  x.toBits >>> 63 = 1

/-- The magnitude of a finite number other than zero. -/
def magnitude (x : Float) : Magnitude :=
  let fraction := (x.toBits % 0x10000000000000).toNat
  let biased := (x.toBits >>> 52 % 0x800).toNat
  if biased = 0 then
    { mantissa := fraction, exponent := -1074, narrowBelow := false }
  else
    { mantissa := 0x10000000000000 + fraction
      exponent := (biased : Int) - 1075
      narrowBelow := fraction = 0 && 1 < biased }

/-- The shortest decimal that reads back as `x`; nothing for an infinity or a NaN. -/
def Decimal.ofFloat? (x : Float) : Option Decimal :=
  if !x.isFinite then none
  else if x == 0.0 then some { negative := signBit x, digits := [], point := 0 }
  else
    let (digits, point) := shortest (magnitude x)
    some { negative := signBit x, digits, point }

end Binary64

section Layout

/-- How a number is laid out. -/
structure Spelling where
  /-- Whether an integer is written with the fraction `.0`. -/
  markInteger : Bool
  /-- The points of the decimals written without an exponent; all of them if absent. -/
  positional : Option (Int × Int)

/-- `d₁.d₂d₃…` with a decimal point after `k` digits, and zeros where digits are missing. -/
def Spelling.positionalText (s : Spelling) (digits : List Char) (k : Int) : String :=
  let whole :=
    if k ≤ 0 then ['0']
    else digits.take k.toNat ++ List.replicate (k.toNat - digits.length) '0'
  let fraction := List.replicate (-k).toNat '0' ++ digits.drop k.toNat
  if digits.length ≤ k.toNat then
    String.ofList whole ++ (if s.markInteger then ".0" else "")
  else
    String.ofList (whole ++ '.' :: fraction)

/-- `d₁.d₂d₃…e` and the exponent. -/
def exponentText (digits : List Char) (k : Int) : String :=
  let significand :=
    match digits with
    | d :: r@(_ :: _) => String.ofList (d :: '.' :: r)
    | ds => String.ofList ds
  significand ++ "e" ++ toString (k - 1)

/-- The text of a number.  NaN has no sign; an infinity has. -/
def Spelling.render (s : Spelling) (x : Float) : String :=
  if x.isNaN then "NaN"
  else
    match Decimal.ofFloat? x with
    | none => if signBit x then "-inf" else "inf"
    | some d =>
        let sign := if d.negative then "-" else ""
        match s.positional with
        | none => sign ++ s.positionalText d.digits d.point
        | some (least, greatest) =>
            if d.digits.isEmpty || (least ≤ d.point && d.point ≤ greatest) then
              sign ++ s.positionalText d.digits d.point
            else sign ++ exponentText d.digits d.point

/-- Terms and messages write every number without an exponent and integers without a
fraction. -/
def Spelling.plain : Spelling where
  markInteger := false
  positional := none

/-- Listings of operations mark integers with `.0`, and write an exponent below `1e-4` and
from `1e16` on. -/
def Spelling.listing : Spelling where
  markInteger := true
  positional := some (-3, 16)

end Layout

/-- Numbers that have a text in terms and one in listings of operations. -/
class Numeral (α : Type) where
  plain : α → String
  listing : α → String

instance : Numeral Float where
  plain := Spelling.plain.render
  listing := Spelling.listing.render

end Text
end ReverseMode
