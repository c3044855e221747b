/-!
# The text of a span of time

`Elapsed.text` writes a count of nanoseconds in the largest unit that is not zero, with the fraction
down to the nanosecond and no trailing zeros: `0ns`, `1.5µs`, `3ms`, `1.234567ms`, `61s`.
-/

namespace PartitionLog.Elapsed

/-- The lowest `width` decimal digits of `n`. -/
def digits : (width : Nat) → Nat → List Char
  | 0, _ => []
  | width + 1, n => digits width (n / 10) ++ [Nat.digitChar (n % 10)]

/-- The digits after the point, without trailing zeros. -/
def fraction (width n : Nat) : List Char :=
  ((digits width n).reverse.dropWhile (· == '0')).reverse

/-- `n` counted in units of `10 ^ width`. -/
def inUnit (n width : Nat) (unit : String) : String :=
  let rest := fraction width (n % Nat.pow 10 width)
  let whole := toString (n / Nat.pow 10 width)
  if rest.isEmpty then whole ++ unit else whole ++ "." ++ String.ofList rest ++ unit

def text (ns : Nat) : String :=
  if 1000000000 ≤ ns then inUnit ns 9 "s"
  else if 1000000 ≤ ns then inUnit ns 6 "ms"
  else if 1000 ≤ ns then inUnit ns 3 "µs"
  else inUnit ns 0 "ns"

end PartitionLog.Elapsed
