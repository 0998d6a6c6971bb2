import DynScope.Number.Layout
import DynScope.Operator

/-!
# DynScope.Error

**What can go wrong in a run.** An error is a cause with the facts of the case; its
wording is the business of `message` alone. Every error ends the run it arises in.

Errors carry identifier texts and not names, since some of them come from host functions,
which know no names.
-/

namespace DynScope

/-- A kind of value, which is what it is called in error messages. The language has the
five kinds in `Kind.all`; a host function may call its arguments what it likes. -/
structure Kind where
  /-- The name of the kind. -/
  text : String
deriving DecidableEq, Repr, Inhabited

namespace Kind

/-- Numbers. -/
def number : Kind := ⟨"number"⟩

/-- Booleans. -/
def boolean : Kind := ⟨"boolean"⟩

/-- Arrays. -/
def array : Kind := ⟨"array"⟩

/-- Host functions. -/
def builtin : Kind := ⟨"builtin"⟩

/-- User-defined functions. -/
def function : Kind := ⟨"function"⟩

/-- The kinds of the language. -/
def all : List Kind := [number, boolean, array, builtin, function]

theorem nodup_all : all.Nodup := by decide

end Kind

/-- A value of the wrong kind: where it was met. -/
inductive TypeFault where
  /-- An arithmetic operator got something else than two numbers. -/
  | arithmetic (op : BinaryOp) (left right : Kind)
  /-- An ordering operator got something else than two numbers. -/
  | ordering (op : BinaryOp) (left right : Kind)
  /-- The negation of something else than a number. -/
  | negation (operand : Kind)
  /-- A subscript into something else than an array. -/
  | subscripted (base : Kind)
  /-- An index that is not a number. -/
  | index (index : Kind)
  /-- An argument of a numeric host function that is not a number. -/
  | argument (function : String) (got : Kind)
deriving Repr

namespace TypeFault

/-- The wording of a type fault. -/
def message : TypeFault → String
  | .arithmetic op l r =>
    "arithmetic on non-number: cannot apply `" ++ op.symbol ++ "` to " ++ l.text ++
      " and " ++ r.text
  | .ordering op l r =>
    "comparison on non-number: cannot apply `" ++ op.symbol ++ "` to " ++ l.text ++
      " and " ++ r.text
  | .negation k => "cannot negate " ++ k.text
  | .subscripted k => "cannot subscript " ++ k.text
  | .index k => "array index must be a number, got " ++ k.text
  | .argument f k => f ++ " expects number arguments, got " ++ k.text

/-- Type faults are equal if they read the same. -/
def beq (f f' : TypeFault) : Bool := f.message == f'.message

instance : BEq TypeFault := ⟨beq⟩

end TypeFault

/-- A failure of a run. -/
inductive EvalError where
  /-- The name is bound already. -/
  | duplicateDeclaration (name : String)
  /-- The name is not bound. -/
  | unboundVariable (name : String)
  /-- The name is bound to a value that cannot be called. -/
  | notCallable (name : String) (kind : Kind)
  /-- A call with the wrong number of arguments. -/
  | arityMismatch (name : String) (expected got : Nat)
  /-- A value of the wrong kind. -/
  | typeError (fault : TypeFault)
  /-- An index that selects no element of an array of the given length. -/
  | indexOutOfRange (index : Float) (length : Nat)
deriving Repr

namespace EvalError

/-- The text of an error. -/
def message : EvalError → String
  | .duplicateDeclaration n => "variable already declared: " ++ n
  | .unboundVariable n => "unknown variable: " ++ n
  | .notCallable n k => n ++ " is not callable: it is a " ++ k.text
  | .arityMismatch n expected got =>
    n ++ " expects " ++ toString expected ++ " argument(s), got " ++ toString got
  | .typeError f => "type error: " ++ f.message
  | .indexOutOfRange i n =>
    "index " ++ Layout.plain.render i ++ " out of range for array of length " ++ toString n

/-- Equality of errors. Type faults compare by their wording, and indices as numbers, so
that an error about a NaN index differs from itself. -/
def beq : EvalError → EvalError → Bool
  | .duplicateDeclaration n, .duplicateDeclaration n' => n == n'
  | .unboundVariable n, .unboundVariable n' => n == n'
  | .notCallable n k, .notCallable n' k' => n == n' && k == k'
  | .arityMismatch n e g, .arityMismatch n' e' g' => n == n' && e == e' && g == g'
  | .typeError f, .typeError f' => f == f'
  | .indexOutOfRange i n, .indexOutOfRange i' n' => i == i' && n == n'
  | _, _ => false

instance : BEq EvalError := ⟨beq⟩

end EvalError

end DynScope
