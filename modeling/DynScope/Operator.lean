/-!
# DynScope.Operator

**The operators of the language and their source symbols.** A symbol determines its
operator: `ofSymbol?` searches the list of all operators for the one written that way,
so the two directions cannot drift apart.

Each binary operator belongs to one `Family`, and the family alone decides which operands
it takes: arithmetic and ordering take two numbers, equality and the logical operators
take anything.
-/

namespace DynScope

/-- Binary operators. -/
inductive BinaryOp where
  | add | sub | mul | div | rem | pow
  | lt | le | eq | ne | ge | gt
  | and | or
deriving DecidableEq, Repr, Inhabited

namespace BinaryOp

/-- What a binary operator computes with. -/
inductive Family where
  /-- Two numbers give a number. -/
  | arithmetic
  /-- Two numbers give a boolean. -/
  | ordering
  /-- Any two values give a boolean. -/
  | equality
  /-- Any two values give one of the two. -/
  | logical
deriving DecidableEq, Repr

/-- Every binary operator, in the order in which the language lists them. -/
def all : List BinaryOp :=
  [.add, .sub, .mul, .div, .rem, .pow, .lt, .le, .eq, .ne, .ge, .gt, .and, .or]

/-- The family of an operator. -/
def family : BinaryOp → Family
  | .add | .sub | .mul | .div | .rem | .pow => .arithmetic
  | .lt | .le | .ge | .gt => .ordering
  | .eq | .ne => .equality
  | .and | .or => .logical

/-- How an operator is written in source text. -/
def symbol : BinaryOp → String
  | .add => "+"
  | .sub => "-"
  | .mul => "*"
  | .div => "/"
  | .rem => "%"
  | .pow => "**"
  | .lt => "<"
  | .le => "<="
  | .eq => "=="
  | .ne => "!="
  | .ge => ">="
  | .gt => ">"
  | .and => "&&"
  | .or => "||"

/-- The operator written as `s`, if there is one. -/
def ofSymbol? (s : String) : Option BinaryOp := all.find? (·.symbol == s)

/-- The place of an operator in `all`, counted from zero. -/
def position (op : BinaryOp) : Nat := all.idxOf op

theorem mem_all (op : BinaryOp) : op ∈ all := by cases op <;> decide

theorem ofSymbol?_symbol (op : BinaryOp) : ofSymbol? op.symbol = some op := by
  cases op <;> decide

end BinaryOp

/-- Unary operators. -/
inductive UnaryOp where
  | neg | not
deriving DecidableEq, Repr, Inhabited

namespace UnaryOp

/-- Every unary operator. -/
def all : List UnaryOp := [.neg, .not]

/-- How an operator is written in source text. -/
def symbol : UnaryOp → String
  | .neg => "-"
  | .not => "!"

/-- The operator written as `s`, if there is one. -/
def ofSymbol? (s : String) : Option UnaryOp := all.find? (·.symbol == s)

theorem ofSymbol?_symbol (op : UnaryOp) : ofSymbol? op.symbol = some op := by
  cases op <;> decide

end UnaryOp

end DynScope
