/-!
# DynScope.Number.Exact

**Arithmetic on numbers through their exact values.** The numbers of the language are
IEEE doubles. A finite double is an integer times a power of two, and the operations here
compute with that pair and round once, at the end:

* `wholePart?`, the integer that truncation toward zero leaves;
* `remainder`, the remainder of truncated division, which needs no rounding at all;
* `hypotenuse`, the root of a sum of squares, rounded once from the exact sum.

The exceptional values are decided first, in the order in which the match lists them.
-/

namespace DynScope.Number

open Float.Model (UnpackedFloat Format)
open Float.Model.UnpackedFloat (Sign)

/-- The number that is not a number. -/
def nan : Float := Float.ofBits 0x7ff8000000000000

/-- Positive infinity. -/
def infinity : Float := Float.ofBits 0x7ff0000000000000

/-- The double that an exactly known result rounds to. -/
def ofUnpacked (u : UnpackedFloat) : Float := Float.ofModel (Float.Model.pack u)

/-- The double nearest to `± m * 2 ^ e`, ties to even. A zero keeps the sign. -/
def ofScaled (sign : Sign) (m : Nat) (e : Int) : Float :=
  ofUnpacked (UnpackedFloat.round .binary64 sign m e)

/-- The magnitude of a number as `m * 2 ^ e`; none for infinities and NaN. -/
def magnitude? (x : Float) : Option (Nat × Int) :=
  match x.toModel.unpack with
  | .notANumber => none
  | .infinity _ => none
  | .zero _ => some (0, 0)
  | .finite _ m e _ => some (m, e)

/-! ### Whole part -/

/-- `m * 2 ^ e` without its fraction. -/
def scaledFloor (m : Nat) (e : Int) : Nat :=
  if 0 ≤ e then m <<< e.toNat else m >>> (-e).toNat

/-- The integer that is left of a number when its fraction is dropped, so that values
between `-1` and `1` give zero; none for infinities and NaN. -/
def wholePart? (x : Float) : Option Int :=
  match x.toModel.unpack with
  | .notANumber => none
  | .infinity _ => none
  | .zero _ => some 0
  | .finite .positive m e _ => some (scaledFloor m e)
  | .finite .negative m e _ => some (-(scaledFloor m e : Int))

/-! ### Remainder -/

/-- Two magnitudes written over the same power of two: both mantissas, then the common
exponent. -/
def align (m₁ : Nat) (e₁ : Int) (m₂ : Nat) (e₂ : Int) : Nat × Nat × Int :=
  let e := min e₁ e₂
  (m₁ <<< (e₁ - e).toNat, m₂ <<< (e₂ - e).toNat, e)

/-- The remainder of `x / y` with the quotient truncated toward zero. It has the sign of
`x`, is exact, and is `x` itself when `y` is infinite. -/
def remainder (x y : Float) : Float :=
  match x.toModel.unpack, y.toModel.unpack with
  | .notANumber, _ => nan
  | _, .notANumber => nan
  | .infinity _, _ => nan
  | _, .zero _ => nan
  | .zero _, _ => x
  | .finite .., .infinity _ => x
  | .finite sign m₁ e₁ _, .finite _ m₂ e₂ _ =>
    let (a, b, e) := align m₁ e₁ m₂ e₂
    ofScaled sign (a % b) e

/-! ### Hypotenuse -/

/-- The double nearest to the square root of `n * 2 ^ (2 * e)`. -/
def sqrtScaled (n : Nat) (e : Int) : Float :=
  let (root, e', accuracy) := UnpackedFloat.sqrtCore .binary64 n (2 * e)
  ofUnpacked (UnpackedFloat.roundWithAccuracy .binary64 .positive root e' accuracy)

/-- The root of `x² + y²`. An infinite side makes it infinite even beside a NaN; otherwise
a NaN makes it NaN. -/
def hypotenuse (x y : Float) : Float :=
  if x.isInf || y.isInf then infinity
  else
    match magnitude? x, magnitude? y with
    | some (m₁, e₁), some (m₂, e₂) =>
      let (a, b, e) := align m₁ e₁ m₂ e₂
      sqrtScaled (a * a + b * b) e
    | _, _ => nan

end DynScope.Number
