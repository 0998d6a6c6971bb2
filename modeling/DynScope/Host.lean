import DynScope.Number.Exact
import DynScope.Value

/-!
# DynScope.Host

**Calling host functions.** A host function is a pure function of its argument values. It
checks the number and the kinds of its arguments itself and reports errors under its own
name, whatever name a program called it by.

An application adds host functions of its own by an instance of `Host` for its type of
codes. `Empty` is the instance that adds none.
-/

namespace DynScope

/-- What the codes of added host functions do. -/
class Host (η : Type) where
  /-- The result of calling the function of a code. -/
  call : η → List (Value η) → Except EvalError (Value η)

/-- The application that adds no host function. -/
instance : Host Empty := ⟨nofun⟩

variable {η : Type}

namespace MathFn

/-- Every numeric function. -/
def all : List MathFn := [.sin, .cos, .hypot, .sqrt, .exp, .ln]

/-- The name that a numeric function reports errors under. -/
def name : MathFn → String
  | .sin => "sin"
  | .cos => "cos"
  | .hypot => "hypot"
  | .sqrt => "sqrt"
  | .exp => "exp"
  | .ln => "ln"

/-- A function of exactly one number. The kind of a lone argument is checked; any other
number of arguments is an arity error, whatever they are. -/
def ofOne (name : String) (f : Float → Float) (args : List (Value η)) :
    Except EvalError (Value η) :=
  match args with
  | [.number x] => .ok (.number (f x))
  | [v] => .error (.typeError (.argument name v.kind))
  | _ => .error (.arityMismatch name 1 args.length)

/-- The root of the sum of the squares of all arguments, taken two at a time from the left
and rounded at each step. -/
def hypotAll (acc : Float) : List (Value η) → Except EvalError (Value η)
  | [] => .ok (.number acc)
  | .number x :: rest => hypotAll (Number.hypotenuse acc x) rest
  | v :: _ => .error (.typeError (.argument "hypot" v.kind))

/-- The result of calling a numeric function. -/
def call (f : MathFn) (args : List (Value η)) : Except EvalError (Value η) :=
  match f with
  | .sin => ofOne "sin" Float.sin args
  | .cos => ofOne "cos" Float.cos args
  | .hypot => hypotAll 0 args
  | .sqrt => ofOne "sqrt" Float.sqrt args
  | .exp => ofOne "exp" Float.exp args
  | .ln => ofOne "ln" Float.log args

end MathFn

/-- The result of calling a host function. -/
def HostFn.call [Host η] : HostFn η → List (Value η) → Except EvalError (Value η)
  | .math f, args => f.call args
  | .custom c, args => Host.call c args

/-- The result of calling a built-in. -/
def Builtin.call [Host η] (b : Builtin η) (args : List (Value η)) :
    Except EvalError (Value η) := b.fn.call args

end DynScope
