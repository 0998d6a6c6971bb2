import DynScope.Value

/-!
# DynScope.Literal

**Making values from descriptions.** A `Literal` describes a value without identities.
Making the value gives every array, built-in and function in it an identity of its own,
so that two makings of one literal never share an object.

Identities are numbers from a `Supply`, a counter that only grows. It starts at one:
serial zero is left to the built-ins of a prelude.
-/

namespace DynScope

/-- Computations that draw fresh identities. The state is the next one. -/
abbrev Supply := StateM Nat

namespace Supply

/-- The first identity that a supply hands out. -/
def first : Nat := 1

/-- An identity that was not handed out before. -/
def fresh : Supply Nat := fun next => (next, next + 1)

end Supply

/-- A description of a value. -/
inductive Literal (η : Type) where
  /-- A number. -/
  | number (x : Float)
  /-- A boolean. -/
  | bool (b : Bool)
  /-- A new array. -/
  | array (elements : List (Literal η))
  /-- A new built-in that is shown as `name`. -/
  | builtin (name : String) (fn : HostFn η)
  /-- A function with a new declaration. -/
  | function (name : Name) (params : List Name) (body : Expr)

variable {η : Type}

/-- A declaration with an identity of its own. -/
def FunctionDecl.fresh (name : Name) (params : List Name) (body : Expr) :
    Supply FunctionDecl := do
  let serial ← Supply.fresh
  return { name, serial, params, body }

namespace Literal

mutual
/-- The described value, with identities of its own throughout. -/
def make : Literal η → Supply (Value η)
  | .number x => return .number x
  | .bool b => return .bool b
  | .array ls => do
    let label ← Supply.fresh
    let es ← makeAll ls
    return .array (some label) es
  | .builtin name fn => do
    let serial ← Supply.fresh
    return .builtin { name, serial, fn }
  | .function name params body => do
    let d ← FunctionDecl.fresh name params body
    return .function d
/-- The described values, made from left to right. -/
def makeAll : List (Literal η) → Supply (List (Value η))
  | [] => return []
  | l :: ls => do
    let v ← make l
    let vs ← makeAll ls
    return v :: vs
end

end Literal

end DynScope
