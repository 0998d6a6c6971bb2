import DynScope.Name
import DynScope.Operator

/-!
# DynScope.Expr

**Expressions.** They are finite trees over names, operators and literals. No expression
declares anything, so evaluating one can only read the bindings around it.

Two expressions are equal when they have the same shape, with numerals compared as
numbers: `0` and `-0` are one numeral, and a tree that holds a NaN numeral differs even
from itself.
-/

namespace DynScope

/-- Expressions. -/
inductive Expr where
  /-- A number literal. -/
  | numeral (value : Float)
  /-- A boolean literal. -/
  | bool (value : Bool)
  /-- The value of a variable. -/
  | identifier (name : Name)
  /-- A binary operator; both operands are evaluated, whatever the operator. -/
  | binary (op : BinaryOp) (left right : Expr)
  /-- A unary operator. -/
  | unary (op : UnaryOp) (operand : Expr)
  /-- `test ? consequent : alternate`, the only form that skips a part of itself. -/
  | conditional (test consequent alternate : Expr)
  /-- A call of the value that `callee` is bound to. -/
  | call (callee : Name) (args : List Expr)
  /-- An array literal. -/
  | array (elements : List Expr)
  /-- `array[index]`. -/
  | subscript (array index : Expr)
deriving Inhabited

namespace Expr

mutual
/-- Equality of trees, with numerals compared as numbers. -/
def beq : Expr → Expr → Bool
  | .numeral x, .numeral y => x == y
  | .bool a, .bool b => a == b
  | .identifier n, .identifier n' => n == n'
  | .binary op l r, .binary op' l' r' => op == op' && beq l l' && beq r r'
  | .unary op e, .unary op' e' => op == op' && beq e e'
  | .conditional t c a, .conditional t' c' a' => beq t t' && beq c c' && beq a a'
  | .call f es, .call f' es' => f == f' && beqAll es es'
  | .array es, .array es' => beqAll es es'
  | .subscript a i, .subscript a' i' => beq a a' && beq i i'
  | _, _ => false
/-- Equality of lists of trees: equal lengths and pairwise equal trees. -/
def beqAll : List Expr → List Expr → Bool
  | [], [] => true
  | e :: es, e' :: es' => beq e e' && beqAll es es'
  | _, _ => false
end

instance : BEq Expr := ⟨beq⟩

end Expr

end DynScope
