import DynScope.Expr

/-!
# DynScope.Program

**Statements, function declarations and programs.**

* A block groups statements and nothing more: it opens no scope of its own.
* A function declaration is an object. Whoever builds the tree gives it a serial number,
  so that two declarations that read the same stay two functions; `sameObject` compares
  identities and `==` compares what is written, and neither looks at what the other one
  does.
-/

namespace DynScope

/-- A function declaration: its name, its parameters in order, and the expression that a
call evaluates. -/
structure FunctionDecl where
  /-- The name the declaration binds. -/
  name : Name
  /-- Tells declarations of one name apart. -/
  serial : Nat
  /-- Parameter names; one name may stand more than once. -/
  params : List Name
  /-- The body. -/
  body : Expr

namespace FunctionDecl

/-- How many arguments a call has to pass. -/
def arity (d : FunctionDecl) : Nat := d.params.length

/-- Whether two declarations are one object. -/
def sameObject (d d' : FunctionDecl) : Bool := d.name == d'.name && d.serial == d'.serial

/-- Equality as written: name, parameters and body, and not the identity. -/
def beq (d d' : FunctionDecl) : Bool :=
  d.name == d'.name && d.params == d'.params && d.body == d'.body

instance : BEq FunctionDecl := ⟨beq⟩

end FunctionDecl

/-- Statements. -/
inductive Stmt where
  /-- A nested block. -/
  | block (body : List Stmt)
  /-- Declare a new variable. -/
  | declare (name : Name) (initializer : Expr)
  /-- Assign to a variable that exists. -/
  | assign (target : Name) (source : Expr)
  /-- Print a value. -/
  | print (value : Expr)
  /-- Run the body as long as the condition is truthy. -/
  | loop (condition : Expr) (body : List Stmt)
  /-- Declare a function. -/
  | function (decl : FunctionDecl)
deriving Inhabited

/-- A sequence of statements. -/
abbrev Block := List Stmt

namespace Stmt

mutual
/-- Equality of trees, with numerals compared as numbers and function declarations as
they are written. -/
def beq : Stmt → Stmt → Bool
  | .block b, .block b' => beqAll b b'
  | .declare n e, .declare n' e' => n == n' && e == e'
  | .assign n e, .assign n' e' => n == n' && e == e'
  | .print e, .print e' => e == e'
  | .loop c b, .loop c' b' => c == c' && beqAll b b'
  | .function d, .function d' => d == d'
  | _, _ => false
/-- Equality of blocks: equal lengths and pairwise equal statements. -/
def beqAll : List Stmt → List Stmt → Bool
  | [], [] => true
  | s :: b, s' :: b' => beq s s' && beqAll b b'
  | _, _ => false
end

instance : BEq Stmt := ⟨beq⟩

end Stmt

/-- A program is the block it runs. -/
structure Program where
  /-- The statements at top level. -/
  body : Block
deriving Inhabited

namespace Program

/-- How many statements stand at top level. -/
def size (p : Program) : Nat := p.body.length

/-- Whether a program has no statement. -/
def isEmpty (p : Program) : Bool := p.body.isEmpty

/-- Equality of programs as trees. -/
def beq (p p' : Program) : Bool := Stmt.beqAll p.body p'.body

instance : BEq Program := ⟨beq⟩

end Program

end DynScope
