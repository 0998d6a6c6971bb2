import DynScope.Number.Decimal

/-!
# DynScope.Number.Layout

**How a number is written.** The digits are always those of the shortest decimal that
reads back; a `Layout` decides everything else. The language writes numbers in three
places, and each has its own layout:

* `Layout.display`, for printed values;
* `Layout.plain`, inside the text of an index error;
* `Layout.diagnostic`, in the diagnostic text of a value.

Whether a number is written positionally or with an exponent depends only on the decimal
exponent `E` of its shortest decimal `d.ddd * 10 ^ E`.
-/

namespace DynScope

/-- The decisions that turn a sign and a shortest decimal into text. -/
structure Layout where
  /-- Which decimal exponents are written positionally. -/
  positional : Int → Bool
  /-- What follows the digits of a whole number in positional notation. -/
  wholeEnd : String
  /-- What stands between `e` and an exponent that is not negative. -/
  plus : String
  /-- Whether a zero shows its sign. -/
  signedZero : Bool
  /-- How infinity is written, without its sign. -/
  infinity : String

namespace Layout

/-- Printed values: positional for exponents from -6 to 20, otherwise with a signed
exponent; whole numbers without a fraction, and zero without a sign. -/
def display : Layout :=
  ⟨fun e => -6 ≤ e && e ≤ 20, "", "+", false, "Infinity"⟩

/-- Error texts: never an exponent; whole numbers without a fraction. -/
def plain : Layout := ⟨fun _ => true, "", "", true, "inf"⟩

/-- Diagnostics: positional for exponents from -4 to 15, and there always with a
fraction. -/
def diagnostic : Layout :=
  ⟨fun e => -4 ≤ e && e ≤ 15, ".0", "", true, "inf"⟩

/-- Digits `ds` with decimal exponent `e`, without an exponent part. -/
def positionalText (l : Layout) (ds : List Char) (e : Int) : String :=
  if e < 0 then
    "0." ++ String.ofList (List.replicate (-e - 1).toNat '0' ++ ds)
  else
    let whole := (e + 1).toNat
    if ds.length ≤ whole then
      String.ofList (ds ++ List.replicate (whole - ds.length) '0') ++ l.wholeEnd
    else
      String.ofList (ds.take whole ++ '.' :: ds.drop whole)

/-- Digits `ds` as a mantissa with one digit before the point, then the exponent `e`. -/
def exponentText (l : Layout) (ds : List Char) (e : Int) : String :=
  let fraction := ds.drop 1
  let point := if fraction.isEmpty then [] else ['.']
  String.ofList (ds.take 1 ++ point ++ fraction) ++ "e" ++
    (if e < 0 then "-" else l.plus) ++ toString e.natAbs

/-- The text of a positive decimal. -/
def decimalText (l : Layout) (d : Decimal) : String :=
  if l.positional d.exponent then l.positionalText d.digits d.exponent
  else l.exponentText d.digits d.exponent

open Float.Model.UnpackedFloat (Sign)

/-- What stands in front of a number of the given sign. -/
def signText : Sign → String
  | .negative => "-"
  | .positive => ""

/-- The text of a number. -/
def render (l : Layout) (x : Float) : String :=
  match x.toModel.unpack with
  | .notANumber => "NaN"
  | .infinity sign => signText sign ++ l.infinity
  | .zero sign => (if l.signedZero then signText sign else "") ++ l.positionalText ['0'] 0
  | .finite sign m q _ => signText sign ++ l.decimalText (Decimal.shortest m q)

end Layout

end DynScope
