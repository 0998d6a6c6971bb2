import DynScope.Interpreter

/-!
# DynScope.Proofs.Copying

**An interpreter that copies.** A second definition of the language, over one flat map from
names to values in place of a stack of frames. A call of a user-defined function evaluates
its arguments in the caller's map, then its body in a private copy of that map, overwritten
by the parameters; the copy is thrown away however the body ends.

Design points:

* An expression is given the map and hands none back, so that nothing that a call does to
  its copy can reach the caller.
* A declaration or an assignment looks at its target once, before anything is evaluated.
* Fuel has the meaning that it has for the evaluator: it bounds the nesting of calls and the
  turns of each loop.
-/

namespace DynScope

variable {η : Type}

/-- Go on from where a computation is done. A failure is final. -/
def Outcome.andThen {σ α β : Type} (o : Outcome σ α) (next : α → σ → Outcome σ β) :
    Outcome σ β :=
  match o with
  | .done a s => next a s
  | .failed e s => .failed e s
  | .outOfFuel => .outOfFuel

namespace Copying

/-! ### Stores and results -/

/-- All bindings there are: the value of each name that is bound. -/
abbrev Store (η : Type) := Name → Option (Value η)

namespace Store

/-- The store without bindings. -/
def empty : Store η := fun _ => none

/-- Bind a name, whatever it is bound to. -/
def insert (m : Store η) (n : Name) (v : Value η) : Store η :=
  fun k => if n = k then some v else m k

/-- Bind names to values from left to right; of several bindings of one name the last
counts. -/
def insertAll (m : Store η) : List Name → List (Value η) → Store η
  | n :: ns, v :: vs => (m.insert n v).insertAll ns vs
  | _, _ => m

end Store

/-- What an expression comes to: a value or an error, or nothing for want of fuel. -/
abbrev Result (α : Type) := ExceptT EvalError Option α

/-- The result of a computation that needs no fuel. -/
def Result.ofExcept {α : Type} (r : Except EvalError α) : Result α := some r

/-! ### Expressions -/

/-- The value of a name, or the error that it has none. -/
def read (texts : Interner) (m : Store η) (n : Name) : Result (Value η) :=
  match m n with
  | some v => pure v
  | none => throw (.unboundVariable (texts.text n))

section Expressions

variable [Host η]

mutual
/-- Evaluate an expression in a store. The call of a user-defined function is carried out by
`call`, which is given the caller's store. -/
def evalWith (texts : Interner) (call : Store η → FunctionDecl → List (Value η) → Result (Value η))
    (m : Store η) : Expr → Result (Value η)
  | .numeral x => return .number x
  | .bool b => return .bool b
  | .identifier n => read texts m n
  | .binary op l r => do
    let l ← evalWith texts call m l
    let r ← evalWith texts call m r
    .ofExcept (Value.binary op l r)
  | .unary op e => do
    let v ← evalWith texts call m e
    .ofExcept (Value.unary op v)
  | .conditional test consequent alternate => do
    let v ← evalWith texts call m test
    if v.isTruthy then evalWith texts call m consequent else evalWith texts call m alternate
  | .call callee args => do
    match ← read texts m callee with
    | .builtin b =>
      let vs ← evalAllWith texts call m args
      .ofExcept (b.call vs)
    | .function d =>
      if args.length = d.arity then
        let vs ← evalAllWith texts call m args
        call m d vs
      else
        throw (.arityMismatch (texts.text callee) d.arity args.length)
    | v => throw (.notCallable (texts.text callee) v.kind)
  | .array es => do
    let vs ← evalAllWith texts call m es
    return .array none vs
  | .subscript base index => do
    let base ← evalWith texts call m base
    let index ← evalWith texts call m index
    .ofExcept (Value.subscript base index)
/-- Evaluate expressions from left to right, up to the first failure. -/
def evalAllWith (texts : Interner)
    (call : Store η → FunctionDecl → List (Value η) → Result (Value η)) (m : Store η) :
    List Expr → Result (List (Value η))
  | [] => return []
  | e :: es => do
    let v ← evalWith texts call m e
    let vs ← evalAllWith texts call m es
    return v :: vs
end

/-- Call a user-defined function: evaluate the body in a copy of the caller's store that the
parameters overwrite. At most `fuel` calls may be nested in each other. -/
def call (texts : Interner) :
    Nat → Store η → FunctionDecl → List (Value η) → Result (Value η)
  | 0, _, _, _ => none
  | fuel + 1, m, d, vs => evalWith texts (call texts fuel) (m.insertAll d.params vs) d.body

/-- Evaluate an expression in a store. -/
def eval (texts : Interner) (fuel : Nat) (m : Store η) (e : Expr) : Result (Value η) :=
  evalWith texts (call texts fuel) m e

end Expressions

/-! ### Statements -/

/-- The one map of a run, and the values printed so far. -/
structure State (η : Type) where
  /-- The bindings. -/
  vars : Store η
  /-- The printed values in order. -/
  output : List (Value η)

/-- Go on from the value of an expression. An error ends the run in the state at hand. -/
def State.proceed {α : Type} (s : State η) (r : Result α)
    (next : α → Outcome (State η) Unit) : Outcome (State η) Unit :=
  match (r : Option (Except EvalError α)) with
  | some (.ok a) => next a
  | some (.error e) => .failed e s
  | none => .outOfFuel

/-- Run `body` for as long as `condition` comes to a true value, at most `turns` times. -/
def repeatWhile (condition : Store η → Result (Value η))
    (body : State η → Outcome (State η) Unit) : Nat → State η → Outcome (State η) Unit
  | 0, _ => .outOfFuel
  | turns + 1, s => s.proceed (condition s.vars) fun v =>
    if v.isTruthy then (body s).andThen fun _ => repeatWhile condition body turns
    else .done () s

section Statements

variable [Host η]

mutual
/-- Execute a statement. -/
def exec (texts : Interner) (fuel : Nat) : Stmt → State η → Outcome (State η) Unit
  | .block body, s => execAll texts fuel body s
  | .declare n e, s =>
    if (s.vars n).isSome then .failed (.duplicateDeclaration (texts.text n)) s
    else s.proceed (eval texts fuel s.vars e) fun v =>
      .done () { s with vars := s.vars.insert n v }
  | .assign n e, s =>
    if (s.vars n).isSome then
      s.proceed (eval texts fuel s.vars e) fun v =>
        .done () { s with vars := s.vars.insert n v }
    else .failed (.unboundVariable (texts.text n)) s
  | .print e, s =>
    s.proceed (eval texts fuel s.vars e) fun v => .done () { s with output := s.output ++ [v] }
  | .loop condition body, s =>
    repeatWhile (eval texts fuel · condition) (execAll texts fuel body) fuel s
  | .function d, s =>
    if (s.vars d.name).isSome then .failed (.duplicateDeclaration (texts.text d.name)) s
    else .done () { s with vars := s.vars.insert d.name (.function d) }
/-- Execute the statements of a block in order, up to the first failure. -/
def execAll (texts : Interner) (fuel : Nat) : Block → State η → Outcome (State η) Unit
  | [], s => .done () s
  | st :: rest, s => (exec texts fuel st s).andThen fun _ => execAll texts fuel rest
end

end Statements

/-! ### Programs -/

/-- Bind the entries of a prelude in order, under the names of their texts. -/
def bindEntries (t : Interner) (m : Store η) :
    List (String × Value η) → Interner × Store η
  | [] => (t, m)
  | (name, v) :: rest =>
    let (n, t) := t.intern name
    bindEntries t (m.insert n v) rest

/-- Run a program in a store that holds a prelude and nothing else. -/
def interpret [Host η] (prelude : Prelude η) (t : Interner) (fuel : Nat) (p : Program) :
    Outcome (State η) Unit :=
  let (texts, vars) := bindEntries t .empty prelude.entries
  execAll texts fuel p.body { vars, output := [] }

end Copying

end DynScope
