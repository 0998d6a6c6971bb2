/-!
# DynScope.Number.Decimal

**The shortest decimal that reads back.** Many decimals round to a given double. Among
them this module picks one with the fewest significant digits and, of those, the one
nearest to the double; of two equally near ones, the larger.

How it works: the reals that round to the double `m * 2 ^ q` form an interval. For one
digit, two digits and so on, the double has two neighbours on the grid of decimals with
that many digits; the first grid with a neighbour inside the interval decides. All
comparisons are between natural numbers, so nothing is lost to rounding on the way.

Magnitudes are positive throughout. Signs, zero and the exceptional values belong to the
layout (`DynScope.Number.Layout`).
-/

namespace DynScope

/-- The positive decimal `coefficient * 10 ^ scale`. -/
structure Decimal where
  /-- The significant digits, read as one number. -/
  coefficient : Nat
  /-- The power of ten of the last digit. -/
  scale : Int
deriving DecidableEq, Repr, Inhabited

namespace Decimal

/-- The significant digits, most significant first. -/
def digits (d : Decimal) : List Char := Nat.toDigits 10 d.coefficient

/-- The decimal exponent `E` of `d.ddd * 10 ^ E`. -/
def exponent (d : Decimal) : Int := d.scale + d.digits.length - 1

/-! ### The interval of reals that round to a double -/

/-- A positive double `m * 2 ^ q` with the ends of the interval of reals that round to it,
all counted in quarters of `2 ^ q`. -/
structure Target where
  /-- Lower end of the interval. -/
  low : Nat
  /-- The double itself. -/
  value : Nat
  /-- Upper end of the interval. -/
  high : Nat
  /-- Whether the two ends round to the double as well. -/
  closed : Bool
  /-- Exponent of the quarter unit. -/
  unit : Int

/-- The interval of the double `m * 2 ^ q`. The ends lie half way to the neighbouring
doubles; the lower neighbour of a power of two is only half as far away, unless the double
is at the bottom of the range. A tie goes to the even mantissa. -/
def Target.of (m : Nat) (q : Int) : Target where
  low := if m = Nat.pow 2 52 ∧ -1074 < q then 4 * m - 1 else 4 * m - 2
  value := 4 * m
  high := 4 * m + 2
  closed := m % 2 = 0
  unit := q - 2

/-- The factors that bring a count of `10 ^ s` and a count of `2 ^ r` to one unit:
`c * 10 ^ s ≤ t * 2 ^ r` holds exactly when `c * (factors s r).1 ≤ t * (factors s r).2`. -/
def factors (s r : Int) : Nat × Nat :=
  (Nat.pow 10 s.toNat * Nat.pow 2 (-r).toNat, Nat.pow 2 r.toNat * Nat.pow 10 (-s).toNat)

namespace Target

/-- The decimal exponent of the double: the `E` with `10 ^ E ≤ value < 10 ^ (E + 1)`. A
number of `k` binary places becomes whole when it is multiplied by `10 ^ k`, and then its
digits can be counted. -/
def exponent (t : Target) : Int :=
  let places := (-t.unit).toNat
  (Nat.toDigits 10 (t.value * Nat.pow 2 t.unit.toNat * Nat.pow 5 places)).length - 1 - places

/-- Whether the decimal `c * 10 ^ s` lies in the interval. -/
def contains (t : Target) (c : Nat) (s : Int) : Bool :=
  let (a, b) := factors s t.unit
  if t.closed then t.low * b ≤ c * a && c * a ≤ t.high * b
  else t.low * b < c * a && c * a < t.high * b

/-- Of the two neighbours `c * 10 ^ s` and `(c + 1) * 10 ^ s` of the double, the nearer
one; the upper one when both are equally near. -/
def nearer (t : Target) (c : Nat) (s : Int) : Nat :=
  let (a, b) := factors s t.unit
  if t.value * b - c * a < (c + 1) * a - t.value * b then c else c + 1

/-- The greatest decimal `c * 10 ^ s` that does not exceed the double, as its `c`. -/
def below (t : Target) (s : Int) : Nat :=
  let (a, b) := factors s t.unit
  t.value * b / a

/-- The neighbour of the double on the grid of multiples of `10 ^ s` that reads back; the
nearer one if both do. -/
def onGrid? (t : Target) (s : Int) : Option Nat :=
  let c := t.below s
  match t.contains c s, t.contains (c + 1) s with
  | true, true => some (t.nearer c s)
  | true, false => some c
  | false, true => some (c + 1)
  | false, false => none

end Target

/-- Write `c * 10 ^ s` without the trailing zeros that `c` has as a power of ten: a
coefficient of `10 ^ n` is the digit one. -/
def ofGrid (n c : Nat) (s : Int) : Decimal :=
  if c = Nat.pow 10 n then ⟨1, s + n⟩ else ⟨c, s⟩

/-- The decimal with at most `n` digits chosen for a double with decimal exponent `e`, if
one of that length reads back. -/
def withDigits? (t : Target) (e : Int) (n : Nat) : Option Decimal :=
  let s := e - n + 1
  (t.onGrid? s).map (ofGrid n · s)

/-- The shortest decimal that reads back as `m * 2 ^ q`. Seventeen digits tell any two
doubles apart, so the search never goes further. -/
def shortest (m : Nat) (q : Int) : Decimal :=
  let t := Target.of m q
  let e := t.exponent
  ((List.range' 1 17).findSome? (withDigits? t e)).getD ⟨t.below (e - 16), e - 16⟩

end Decimal

end DynScope
