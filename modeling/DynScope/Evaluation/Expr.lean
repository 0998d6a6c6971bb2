import DynScope.Evaluation
import DynScope.Host
import DynScope.Interner
import DynScope.Value.Operation

/-!
# DynScope.Evaluation.Expr

**Evaluating expressions.** Evaluation is strict and goes from left to right. Only the
conditional skips a part of itself; the logical operators evaluate both operands.

Design points:

* `Expr.evalWith` recurses on the tree. What a call of a user-defined function does is its
  parameter, so that everything but calls is structural.
* `applyFunction` carries a call out. It recurses on the fuel, which bounds how deeply
  calls may nest, and hands itself with one unit less to the evaluation of the body.
* The body of a function runs against the bindings of the caller, with the parameters in
  an overlay of their own. Functions capture nothing.
* A user-defined function is checked for the number of arguments before any of them is
  evaluated; a host function gets its arguments evaluated and checks them itself.
-/

namespace DynScope

variable {η : Type}

/-- The error that a refused binding of `n` becomes. -/
def BindingError.report (texts : Interner) (n : Name) : BindingError → EvalError
  | .duplicate => .duplicateDeclaration (texts.text n)
  | .unbound => .unboundVariable (texts.text n)

/-- What a call of a user-defined function does with its evaluated arguments. -/
abbrev Application (η : Type) := FunctionDecl → List (Value η) → Evaluation η (Value η)

/-- Come to the value that a name is bound to. -/
def Evaluation.lookup (texts : Interner) (n : Name) : Evaluation η (Value η) := fun s =>
  match s.env.lookup? n with
  | some v => .done v s
  | none => .failed (BindingError.unbound.report texts n) s

namespace Expr

variable [Host η]

mutual
/-- Evaluate an expression, with calls of user-defined functions carried out by `apply`. -/
def evalWith (texts : Interner) (apply : Application η) : Expr → Evaluation η (Value η)
  | .numeral x => pure (.number x)
  | .bool b => pure (.bool b)
  | .identifier n => Evaluation.lookup texts n
  | .binary op l r => do
    let l ← evalWith texts apply l
    let r ← evalWith texts apply r
    Evaluation.ofExcept (Value.binary op l r)
  | .unary op e => do
    let v ← evalWith texts apply e
    Evaluation.ofExcept (Value.unary op v)
  | .conditional test consequent alternate => do
    let v ← evalWith texts apply test
    if v.isTruthy then evalWith texts apply consequent else evalWith texts apply alternate
  | .call callee args => do
    match ← Evaluation.lookup texts callee with
    | .builtin b =>
      let vs ← evalAllWith texts apply args
      Evaluation.ofExcept (b.call vs)
    | .function d =>
      if args.length = d.arity then
        let vs ← evalAllWith texts apply args
        apply d vs
      else
        Evaluation.fail (.arityMismatch (texts.text callee) d.arity args.length)
    | v => Evaluation.fail (.notCallable (texts.text callee) v.kind)
  | .array es => do
    let vs ← evalAllWith texts apply es
    return .array none vs
  | .subscript base index => do
    let base ← evalWith texts apply base
    let index ← evalWith texts apply index
    Evaluation.ofExcept (Value.subscript base index)
/-- Evaluate expressions from left to right, up to the first failure. -/
def evalAllWith (texts : Interner) (apply : Application η) :
    List Expr → Evaluation η (List (Value η))
  | [] => pure []
  | e :: es => do
    let v ← evalWith texts apply e
    let vs ← evalAllWith texts apply es
    return v :: vs
end

end Expr

variable [Host η]

/-- Call a user-defined function: bind the parameters in a new overlay, evaluate the body,
and drop the overlay. At most `fuel` calls may be nested in each other. -/
def applyFunction (texts : Interner) : Nat → Application η
  | 0, _, _ => Evaluation.exhausted
  | fuel + 1, d, vs => Evaluation.withFrame do
    Evaluation.modifyEnv (·.bindAll d.params vs)
    d.body.evalWith texts (applyFunction texts fuel)

/-- Evaluate an expression in which at most `fuel` calls are nested in each other. -/
def Expr.eval (texts : Interner) (fuel : Nat) (e : Expr) : Evaluation η (Value η) :=
  e.evalWith texts (applyFunction texts fuel)

end DynScope
