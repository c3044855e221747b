/-!
# Shortest decimals

The shortest decimal that reads back as a given single-precision number. A finite number is
`mantissa * 2 ^ exponent`; the reals that round to it form an interval, whose ends belong to it iff
the mantissa is even. `shortest` takes the coarsest decimal grid with a point in that interval and
there the point nearest to the number, the upper one of two. `text` writes it without an exponent.
-/

namespace PartitionLog.Decimal

/-- A finite number of single precision, `mantissa * 2 ^ (exponent - 149)`, without its sign. -/
structure Single where
  mantissa : Nat
  exponent : Nat
  deriving DecidableEq, Repr

namespace Single

/-- Smallest mantissa of a number with a full-length mantissa. -/
def fullMantissa : Nat := 1 <<< 23

/-- Everything below is counted in quarters of the smallest step, so that ends are integers. -/
def scaled (x : Single) : Nat := (4 * x.mantissa) <<< x.exponent

/-- Lower end of the interval: halfway to the next smaller number, which is nearer below a power
of two. -/
def lower (x : Single) : Nat :=
  if x.mantissa = fullMantissa ∧ 0 < x.exponent then x.scaled - 1 <<< x.exponent
  else x.scaled - 2 <<< x.exponent

def upper (x : Single) : Nat := x.scaled + 2 <<< x.exponent

end Single

/-- A decimal `digits * 10 ^ exponent`. -/
structure Point where
  digits : Nat
  exponent : Int
  deriving DecidableEq, Repr

/-- One in the unit of `Single.scaled`. -/
def unit : Nat := 1 <<< 151

/-- The point in that unit, over the denominator `10 ^ -exponent` if the exponent is negative. -/
def Point.numerator (p : Point) : Nat := p.digits * Nat.pow 10 p.exponent.toNat * unit

def Point.denominator (p : Point) : Nat := Nat.pow 10 (-p.exponent).toNat

/-- Whether a point reads back as `x`. -/
def ReadsBack (x : Single) (p : Point) : Prop :=
  if x.mantissa % 2 = 0 then
    x.lower * p.denominator ≤ p.numerator ∧ p.numerator ≤ x.upper * p.denominator
  else x.lower * p.denominator < p.numerator ∧ p.numerator < x.upper * p.denominator

instance (x : Single) (p : Point) : Decidable (ReadsBack x p) := by
  unfold ReadsBack; infer_instance

/-- The point of the grid of this exponent at or below `x`. -/
def floorPoint (x : Single) (exponent : Int) : Point :=
  ⟨x.scaled * Nat.pow 10 (-exponent).toNat / (Nat.pow 10 exponent.toNat * unit), exponent⟩

/-- The nearer of a point below and the one above it, if they read back. -/
def onGrid (x : Single) (exponent : Int) : Option Point :=
  let below := floorPoint x exponent
  let above : Point := { below with digits := below.digits + 1 }
  match decide (ReadsBack x below), decide (ReadsBack x above) with
  | true, true =>
    if 2 * (x.scaled * below.denominator) < below.numerator + above.numerator then some below
    else some above
  | true, false => some below
  | false, true => some above
  | false, false => none

/-- From the grid of exponent `38` down, which every number of single precision is below. -/
def shortest (x : Single) : Point :=
  ((List.range 100).findSome? fun (k : Nat) => onGrid x (38 - k)).getD ⟨0, 0⟩

/-- Positional, with no point in an integer. -/
def Point.text (p : Point) : String :=
  let digits := toString p.digits
  if 0 ≤ p.exponent then digits ++ String.ofList (List.replicate p.exponent.toNat '0')
  else
    let places := (-p.exponent).toNat
    let padded := List.replicate (places + 1 - digits.length) '0' ++ digits.toList
    let whole := padded.length - places
    String.ofList (padded.take whole) ++ "." ++ String.ofList (padded.drop whole)

/-- The text of a number of single precision. -/
def text (x : Float32) : String :=
  let bits := x.toBits.toNat
  let sign := if 1 <<< 31 ≤ bits then "-" else ""
  let exponent := bits >>> 23 % 256
  let fraction := bits % Single.fullMantissa
  if exponent = 255 then (if fraction = 0 then sign ++ "inf" else "NaN")
  else if exponent = 0 then
    if fraction = 0 then sign ++ "0" else sign ++ (shortest ⟨fraction, 0⟩).text
  else sign ++ (shortest ⟨Single.fullMantissa + fraction, exponent - 1⟩).text

end PartitionLog.Decimal
