import DynScope.Host
import DynScope.Literal
import DynScope.Value.Operation

/-!
# DynScope.Workbench

**Building values step by step.** A workbench holds values in numbered registers and
declarations in numbered slots. Every operation either puts one new value into the next
register, or one new declaration into the next slot, or changes nothing.

The workbench tracks identities. Operations that create an object give it a fresh
identity; operations that select or pass on a value keep the one it has. Arrays that a
host function makes come back without a label, and are labelled on arrival.
-/

namespace DynScope

variable {η : Type}

namespace Value

mutual
/-- Give every array without a label a fresh one. -/
def withLabels : Value η → Supply (Value η)
  | .array none es => do
    let label ← Supply.fresh
    let es ← withLabelsAll es
    return .array (some label) es
  | v => return v
/-- Label the values of a list from left to right. -/
def withLabelsAll : List (Value η) → Supply (List (Value η))
  | [] => return []
  | v :: vs => do
    let v ← withLabels v
    let vs ← withLabelsAll vs
    return v :: vs
end

end Value

/-- Registers, declarations, and the supply of identities. -/
structure Workbench (η : Type) where
  /-- The values made so far. -/
  registers : Array (Value η)
  /-- The declarations made so far. -/
  decls : Array FunctionDecl
  /-- The next identity. -/
  next : Nat

namespace Workbench

/-- The workbench without registers and declarations. -/
def empty : Workbench η := ⟨#[], #[], Supply.first⟩

/-- One operation. Registers and declarations are named by their numbers. -/
inductive Op (η : Type) where
  /-- A new value from a description. -/
  | literal (l : Literal η)
  /-- A new array of existing values. -/
  | array (elements : List Nat)
  /-- The very value of a register. -/
  | clone (register : Nat)
  /-- A function value of an existing declaration. -/
  | function (decl : Nat)
  /-- A binary operator. -/
  | binary (op : BinaryOp) (left right : Nat)
  /-- A unary operator. -/
  | unary (op : UnaryOp) (operand : Nat)
  /-- A call of a built-in. -/
  | call (callee : Nat) (args : List Nat)
  /-- An element of an array. -/
  | get (array index : Nat)
  /-- A new declaration. -/
  | declare (name : Name) (params : List Name) (body : Expr)

/-- What an operation answers. -/
inductive Reply (η : Type) where
  /-- The register that was filled, and its value. -/
  | made (register : Nat) (v : Value η)
  /-- The slot of a new declaration, and the declaration. -/
  | declared (slot : Nat) (decl : FunctionDecl)
  /-- The operation failed. -/
  | failed (e : EvalError)
  /-- There is no such value. -/
  | nothing

/-- The value of a register. -/
def register? (w : Workbench η) (r : Nat) : Option (Value η) := w.registers[r]?

/-- Draw identities for a computation. -/
def draw {α : Type} (w : Workbench η) (m : Supply α) : α × Workbench η :=
  let (a, next) := m w.next
  (a, { w with next })

/-- Put a value into the next register. -/
def put (w : Workbench η) (v : Value η) : Reply η × Workbench η :=
  (.made w.registers.size v, { w with registers := w.registers.push v })

/-- Put the result of an operation into the next register, if it has one. -/
def settle (w : Workbench η) : Except EvalError (Value η) → Reply η × Workbench η
  | .ok v => w.put v
  | .error e => (.failed e, w)

/-- Put a value into the next register, if there is one. -/
def putSome (w : Workbench η) : Option (Value η) → Reply η × Workbench η
  | some v => w.put v
  | none => (.nothing, w)

/-- Carry out one operation. An operation on a register, a declaration or a kind of value
that is not there answers `nothing`. -/
def step [Host η] (w : Workbench η) : Op η → Reply η × Workbench η
  | .literal l =>
    let (v, w) := w.draw l.make
    w.put v
  | .array rs =>
    match rs.mapM w.register? with
    | some vs =>
      let (label, w) := w.draw .fresh
      w.put (.array (some label) vs)
    | none => (.nothing, w)
  | .clone r => w.putSome (w.register? r)
  | .function k => w.putSome (w.decls[k]?.map .function)
  | .binary op l r =>
    match w.register? l, w.register? r with
    | some l, some r => w.settle (Value.binary op l r)
    | _, _ => (.nothing, w)
  | .unary op r =>
    match w.register? r with
    | some v => w.settle (Value.unary op v)
    | none => (.nothing, w)
  | .call f rs =>
    match w.register? f, rs.mapM w.register? with
    | some (.builtin b), some vs =>
      match b.call vs with
      | .ok v =>
        let (v, w) := w.draw v.withLabels
        w.put v
      | .error e => (.failed e, w)
    | _, _ => (.nothing, w)
  | .get r i => w.putSome (do (← (← w.register? r).elements?)[i]?)
  | .declare name params body =>
    let (d, w) := w.draw (FunctionDecl.fresh name params body)
    (.declared w.decls.size d, { w with decls := w.decls.push d })

end Workbench

end DynScope
