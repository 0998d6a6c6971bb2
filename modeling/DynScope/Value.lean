import DynScope.Error
import DynScope.Program

/-!
# DynScope.Value

**Runtime values.** A value is a number, a boolean, an array, a host function or a
user-defined function.

Design points:

* Values are immutable trees. Where the identity of an object can be observed it is a
  number inside the value: the serial number of a function's declaration, the serial
  number of a built-in, the label of an array. The evaluator compares arrays by content
  only and leaves the arrays that it makes unlabelled.
* The type of host functions is open. `η` is a type of codes for the host functions that
  an application adds to the numeric ones, and the class `Host` says what a code does.
* Truthiness, equality and the printed text are total functions of the value.
-/

namespace DynScope

/-- The numeric functions that the language comes with. -/
inductive MathFn where
  | sin | cos | hypot | sqrt | exp | ln
deriving DecidableEq, Repr

/-- A host function: one of the numeric ones, or one that the application adds. -/
inductive HostFn (η : Type) where
  /-- A numeric function. -/
  | math (f : MathFn)
  /-- An added function, by its code. -/
  | custom (code : η)
deriving DecidableEq, Repr

/-- A host function under the name it is shown by. -/
structure Builtin (η : Type) where
  /-- The name in printed text. It need not be the name that a program calls it by. -/
  name : String
  /-- Tells built-ins of one name apart. Serial zero is left to preludes. -/
  serial : Nat
  /-- What a call runs. -/
  fn : HostFn η

/-- Whether two built-ins are one object. -/
def Builtin.sameObject {η : Type} (b b' : Builtin η) : Bool :=
  b.name == b'.name && b.serial == b'.serial

/-- Runtime values. -/
inductive Value (η : Type) where
  /-- A number. -/
  | number (x : Float)
  /-- A boolean. -/
  | bool (b : Bool)
  /-- An array, with a label where its identity is tracked. -/
  | array (label : Option Nat) (elements : List (Value η))
  /-- A host function. -/
  | builtin (b : Builtin η)
  /-- A user-defined function. It captures no bindings: its body runs against those of
  the caller. -/
  | function (decl : FunctionDecl)

namespace Value

variable {η : Type}

instance : Inhabited (Value η) := ⟨.bool false⟩

/-- The kind of a value. -/
def kind : Value η → Kind
  | .number _ => .number
  | .bool _ => .boolean
  | .array .. => .array
  | .builtin _ => .builtin
  | .function _ => .function

/-- What a condition takes a value for. A number is false if it is zero or NaN, and
everything else but the boolean `false` is true. -/
def isTruthy : Value η → Bool
  | .number x => !(x == 0) && !x.isNaN
  | .bool b => b
  | .array .. | .builtin _ | .function _ => true

/-- The number that a value is, if it is one. -/
def number? : Value η → Option Float
  | .number x => some x
  | _ => none

/-- The elements of an array. -/
def elements? : Value η → Option (List (Value η))
  | .array _ es => some es
  | _ => none

/-- The declaration of a user-defined function. -/
def decl? : Value η → Option FunctionDecl
  | .function d => some d
  | _ => none

/-! ### Equality -/

mutual
/-- Equality of values: numbers as numbers, arrays by content, functions of either sort by
identity. There is no short cut for an array compared with itself, so one that holds a NaN
differs from itself. -/
def beq : Value η → Value η → Bool
  | .number x, .number y => x == y
  | .bool a, .bool b => a == b
  | .array _ es, .array _ es' => beqAll es es'
  | .builtin b, .builtin b' => b.sameObject b'
  | .function d, .function d' => d.sameObject d'
  | _, _ => false
/-- Equality of sequences: equal lengths and pairwise equal values. -/
def beqAll : List (Value η) → List (Value η) → Bool
  | [], [] => true
  | v :: vs, w :: ws => beq v w && beqAll vs ws
  | _, _ => false
end

instance : BEq (Value η) := ⟨beq⟩

/-- Whether two objects of one sort are the same object; none for numbers, booleans and
values of different kinds. An array without a label is the same object as no other. -/
def sameObject? : Value η → Value η → Option Bool
  | .array l _, .array l' _ => some (l.isSome && l == l')
  | .builtin b, .builtin b' => some (b.sameObject b')
  | .function d, .function d' => some (d.sameObject d')
  | _, _ => none

/-! ### Text -/

/-- The text of a boolean. -/
def boolText (b : Bool) : String := if b then "true" else "false"

/-- A sequence of texts in brackets. -/
def bracketed (texts : List String) : String := "[" ++ ", ".intercalate texts ++ "]"

mutual
/-- The text that printing a value writes. -/
def display : Value η → String
  | .number x => Layout.display.render x
  | .bool b => boolText b
  | .array _ es => bracketed (displayAll es)
  | .builtin b => "<builtin " ++ b.name ++ ">"
  | .function _ => "<function>"
/-- The texts of the elements of an array. -/
def displayAll : List (Value η) → List String
  | [] => []
  | v :: vs => display v :: displayAll vs
end

mutual
/-- The diagnostic text of a value, which names its kind and tells functions apart. -/
def diagnostic : Value η → String
  | .number x => "Number(" ++ Layout.diagnostic.render x ++ ")"
  | .bool b => "Bool(" ++ boolText b ++ ")"
  | .array _ es => "Array(" ++ bracketed (diagnosticAll es) ++ ")"
  | .builtin b => "Builtin(<builtin " ++ b.name ++ ">)"
  | .function d => "Function(<function " ++ d.name.diagnostic ++ "/" ++ toString d.arity ++ ">)"
/-- The diagnostic texts of the elements of an array. -/
def diagnosticAll : List (Value η) → List String
  | [] => []
  | v :: vs => diagnostic v :: diagnosticAll vs
end

end Value

end DynScope
