/-!
# Doubles

A double is carried by its 64 bits; arithmetic is not the business of a column. What is asked of
one is whether it equals another in the sense of IEEE 754, which double stands for a number that is
written in decimal, and how a double is written in full.
-/

namespace UnitOfWork

/-- An IEEE 754 binary64 number, given by its bits. -/
structure Double where
  bits : UInt64
  deriving DecidableEq, Repr

namespace Double

def signBit : Nat := 0x8000000000000000

/-- The lowest bit of the exponent, which is also the leading bit of a normal significand. -/
def hiddenBit : Nat := 0x0010000000000000

/-- The bits without the sign. -/
def magnitude (d : Double) : Nat := d.bits.toNat % signBit

/-- All exponent bits set and a nonzero fraction. -/
def isNaN (d : Double) : Bool := 0x7ff0000000000000 < d.magnitude

/-- Neither a NaN nor infinite. -/
def isFinite (d : Double) : Bool := d.magnitude < 0x7ff0000000000000

/-- IEEE equality: a NaN equals nothing, and the two zeros are equal. -/
def equals (a b : Double) : Bool :=
  !a.isNaN && !b.isNaN && (a.bits == b.bits || (a.magnitude == 0 && b.magnitude == 0))

/-- The quotient `n / d`, rounded to the nearest whole number; a tie goes to the even one. -/
def roundQuotient (n d : Nat) : Nat :=
  let down := n / d
  let rest := n % d
  if d < 2 * rest ∨ (d = 2 * rest ∧ down % 2 = 1) then down + 1 else down

/-- The magnitude bits of the double nearest to the fraction `n / d`. -/
def nearestMagnitude (n d : Nat) : Nat :=
  if n = 0 then 0
  else
    let guess : Int := n.log2 - d.log2
    let below := if guess < 0 then n <<< guess.natAbs < d else n < d <<< guess.natAbs
    let exponent := max (if below then guess - 1 else guess) (-1022)
    let shift := 52 - exponent
    let fraction :=
      if shift < 0 then roundQuotient n (d <<< shift.natAbs)
      else roundQuotient (n <<< shift.natAbs) d
    min ((exponent + 1022).toNat * hiddenBit + fraction) 0x7ff0000000000000

def ofMagnitude (negative : Bool) (magnitude : Nat) : Double :=
  ⟨UInt64.ofNat ((if negative then signBit else 0) + magnitude)⟩

def ofInt (n : Int) : Double := ofMagnitude (n < 0) (nearestMagnitude n.natAbs 1)

/-- The magnitude of a finite double is `significand * 2 ^ power`. -/
def significand (d : Double) : Nat :=
  d.magnitude % hiddenBit + if d.magnitude < hiddenBit then 0 else hiddenBit

def power (d : Double) : Int := (max (d.magnitude / hiddenBit) 1 : Nat) - 1075

/-- The magnitude of a finite double is `numerator / denominator`. -/
def numerator (d : Double) : Nat := d.significand <<< d.power.toNat

def denominator (d : Double) : Nat := 1 <<< (-d.power).toNat

/-- The double nearest to the product of the magnitudes of two finite doubles. -/
def times (a b : Double) : Double :=
  ofMagnitude false (nearestMagnitude (a.numerator * b.numerator) (a.denominator * b.denominator))

/-- The double nearest to the quotient of the magnitudes of two finite doubles. -/
def dividedBy (a b : Double) : Double :=
  ofMagnitude false (nearestMagnitude (a.numerator * b.denominator) (a.denominator * b.numerator))

/-- The largest power of ten that is a double. -/
def maxTenth : Nat := 308

def tenTo (exponent : Nat) : Double := ofMagnitude false (nearestMagnitude (Nat.pow 10 exponent) 1)

/-- Divides by a power of ten, in as many steps as it takes powers that are doubles. -/
def overTenTo (d : Double) (exponent : Nat) : Double :=
  if exponent ≤ maxTenth then d.dividedBy (tenTo exponent)
  else if d.magnitude = 0 then d
  else overTenTo (d.dividedBy (tenTo maxTenth)) (exponent - maxTenth)
termination_by exponent
decreasing_by simp only [maxTenth] at *; omega

/-- Multiplies by a power of ten; a power that is no double takes all but zero out of range. -/
def timesTenTo (d : Double) (exponent : Nat) : Double :=
  if exponent ≤ maxTenth then d.times (tenTo exponent)
  else if d.magnitude = 0 then d
  else ofMagnitude false 0x7ff0000000000000

/-- The double for `significand * 10 ^ exponent`, with a sign. The significand is rounded first and
its product or quotient by the power of ten once more, so that the result can be a neighbour of the
nearest double. -/
def ofDecimal (negative : Bool) (significand : Nat) (exponent : Int) : Double :=
  let d := ofMagnitude false (nearestMagnitude significand 1)
  let scaled := if exponent < 0 then d.overTenTo exponent.natAbs else d.timesTenTo exponent.natAbs
  ofMagnitude negative scaled.magnitude

/-- A finite double in full, in decimal notation. -/
def toDecimal (d : Double) : String :=
  let sign := if d.bits.toNat < signBit then "" else "-"
  if 0 ≤ d.power then sign ++ toString d.numerator ++ ".0"
  else
    let common := Nat.gcd d.numerator d.denominator
    let places := (d.denominator / common).log2
    let digits := Nat.toDigits 10 (d.numerator / common * Nat.pow 5 places)
    let padded := List.replicate (places + 1 - digits.length) '0' ++ digits
    let point := padded.length - places
    let fraction := if places = 0 then ['0'] else padded.drop point
    sign ++ String.ofList (padded.take point ++ '.' :: fraction)

end Double

end UnitOfWork
