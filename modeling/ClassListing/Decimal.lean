/-!
# Floating point text

A bit pattern of the single or double format is a sign, a mantissa and a power of two. A finite
value is written with the fewest decimal digits that read back as it, and of those with the nearest;
all comparisons are exact. The notation is positional where the leading digit stands for `10 ^ -4`
up to `10 ^ 15`, and scientific elsewhere.
-/

namespace ClassListing.Decimal

/-! ## Binary formats -/

/-- The widths of the fraction and exponent fields of a binary format. -/
structure BinaryFormat where
  fractionBits : Nat
  exponentBits : Nat
deriving DecidableEq

def BinaryFormat.single : BinaryFormat := ⟨23, 8⟩

def BinaryFormat.double : BinaryFormat := ⟨52, 11⟩

/--
A magnitude `mantissa * 2 ^ exponent`. The next smaller magnitude of the format is half as far
away as the next larger one when `narrowBelow` holds.
-/
structure Magnitude where
  mantissa : Nat
  exponent : Int
  narrowBelow : Bool
deriving DecidableEq

inductive BinaryValue
  | nan
  | infinite (negative : Bool)
  | finite (negative : Bool) (magnitude : Magnitude)
deriving DecidableEq

/-- The exponent that belongs to the exponent field one, and to zero as well. -/
def BinaryFormat.leastExponent (format : BinaryFormat) : Int :=
  2 - (Nat.pow 2 (format.exponentBits - 1) : Int) - format.fractionBits

def BinaryFormat.decode (format : BinaryFormat) (bits : Nat) : BinaryValue :=
  let unit := Nat.pow 2 format.fractionBits
  let fields := Nat.pow 2 format.exponentBits
  let fraction := bits % unit
  let field := bits / unit % fields
  let negative := bits / unit / fields % 2 == 1
  if field + 1 = fields then
    if fraction = 0 then .infinite negative else .nan
  else if field = 0 then .finite negative ⟨fraction, format.leastExponent, false⟩
  else .finite negative
    ⟨unit + fraction, format.leastExponent + field - 1, fraction = 0 && 1 < field⟩

/-! ## Shortest decimals -/

/-- The number `digits * 10 ^ exponent`. -/
structure Numeral where
  digits : Nat
  exponent : Int
deriving DecidableEq

/--
A decimal grid beside a magnitude: the grid point `n` and the quarter unit `x` of the
magnitude compare as `n * point` and `x * quarter` do.
-/
structure Grid where
  point : Nat
  quarter : Nat

def Magnitude.grid (magnitude : Magnitude) (exponent : Int) : Grid :=
  let binary := magnitude.exponent - 2
  ⟨Nat.pow 2 (-binary).toNat * Nat.pow 10 exponent.toNat,
    Nat.pow 2 binary.toNat * Nat.pow 10 (-exponent).toNat⟩

/--
Whether the grid point `n` reads back as the magnitude: it lies between the midpoints to the two
neighbours, which themselves belong to an even mantissa.
-/
def Magnitude.readsBack (magnitude : Magnitude) (grid : Grid) (n : Nat) : Bool :=
  let low := (4 * magnitude.mantissa - if magnitude.narrowBelow then 1 else 2) * grid.quarter
  let high := (4 * magnitude.mantissa + 2) * grid.quarter
  let here := n * grid.point
  if magnitude.mantissa % 2 = 0 then low ≤ here && here ≤ high else low < here && here < high

/-- The nearer of the two grid points around the magnitude that read back; a tie goes up. -/
def Magnitude.nearest? (magnitude : Magnitude) (grid : Grid) : Option Nat :=
  let here := 4 * magnitude.mantissa * grid.quarter
  let below := here / grid.point
  let gap := here % grid.point
  match magnitude.readsBack grid below, magnitude.readsBack grid (below + 1) with
  | true, true => some (if 2 * gap < grid.point then below else below + 1)
  | true, false => some below
  | false, true => some (below + 1)
  | false, false => none

/-- A power of ten above the magnitude, by no more than two places. -/
def Magnitude.decimalBound (magnitude : Magnitude) : Int :=
  (magnitude.mantissa.log2 + magnitude.exponent) * 30103 / 100000 + 2

/-- The most grids that are tried; seventeen digits always suffice. -/
def maxGrids : Nat := 20

def Magnitude.shortest (magnitude : Magnitude) : Numeral :=
  let exponents := (List.range maxGrids).map fun (step : Nat) => magnitude.decimalBound - step
  let hit? := exponents.findSome? fun exponent =>
    (magnitude.nearest? (magnitude.grid exponent)).map fun digits => (⟨digits, exponent⟩ : Numeral)
  hit?.getD ⟨0, 0⟩

/-! ## Notation -/

structure Words where
  nan : String
  infinity : String
deriving DecidableEq

/-- Digits in positional notation, where `exponent` is that of the last one. -/
def positional (digits : List Char) (exponent : Int) : List Char :=
  if 0 ≤ exponent then digits ++ List.replicate exponent.toNat '0' ++ ['.', '0']
  else
    let places := (-exponent).toNat
    if places < digits.length then
      digits.take (digits.length - places) ++ '.' :: digits.drop (digits.length - places)
    else '0' :: '.' :: List.replicate (places - digits.length) '0' ++ digits

def scientific (digits : List Char) (exponent : Int) : List Char :=
  let fraction := digits.drop 1
  digits.take 1 ++ (if fraction.isEmpty then [] else '.' :: fraction) ++
    'e' :: (toString exponent).toList

def Numeral.layout (numeral : Numeral) : List Char :=
  let digits := Nat.toDigits 10 numeral.digits
  let leading := numeral.exponent + digits.length - 1
  if -4 ≤ leading && leading < 16 then positional digits numeral.exponent
  else scientific digits leading

def Magnitude.layout (magnitude : Magnitude) : List Char :=
  if magnitude.mantissa = 0 then ['0', '.', '0'] else magnitude.shortest.layout

def BinaryValue.text (words : Words) : BinaryValue → String
  | .nan => words.nan
  | .infinite negative => (if negative then "-" else "") ++ words.infinity
  | .finite negative magnitude =>
      (if negative then "-" else "") ++ String.ofList magnitude.layout

def floatText (words : Words) (bits : UInt32) : String :=
  (BinaryFormat.single.decode bits.toNat).text words

def doubleText (words : Words) (bits : UInt64) : String :=
  (BinaryFormat.double.decode bits.toNat).text words

end ClassListing.Decimal
