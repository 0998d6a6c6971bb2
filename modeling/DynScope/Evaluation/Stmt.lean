import DynScope.Evaluation.Expr

/-!
# DynScope.Evaluation.Stmt

**Executing statements.** Statements change the bindings and print; all of them act on the
one environment of the run, since blocks and loops open no frames.

Design points:

* Declarations and assignments look at the target before they evaluate anything, and the
  environment looks again when the value is there.
* A loop evaluates its condition anew before every turn. Its fuel bounds the number of
  turns and is not used up by what happens inside.
* Execution recurses on the tree; the only other recursion is that of a loop on its turns.
-/

namespace DynScope

variable {η : Type}

namespace Evaluation

/-- Change the bindings of `n` by an operation that may refuse to. -/
def rebind (texts : Interner) (n : Name)
    (f : Environment η → Except BindingError (Environment η)) : Evaluation η Unit := fun s =>
  match f s.env with
  | .ok env => .done () { s with env }
  | .error e => .failed (e.report texts n) s

/-- Fail unless a name is bound or not, as asked. -/
def expectBound (texts : Interner) (n : Name) (expected : Bool) : Evaluation η Unit := fun s =>
  match expected, s.env.isBound n with
  | true, false => .failed (BindingError.unbound.report texts n) s
  | false, true => .failed (BindingError.duplicate.report texts n) s
  | _, _ => .done () s

/-- Run `body` for as long as `condition` comes to true, at most `turns` times. -/
def repeatWhile (condition : Evaluation η Bool) (body : Evaluation η Unit) :
    Nat → Evaluation η Unit
  | 0 => exhausted
  | turns + 1 => do
    if ← condition then
      body
      repeatWhile condition body turns
    else
      return ()

end Evaluation

namespace Stmt

variable [Host η]

/-- Evaluate an expression as a condition. -/
def evalCondition (texts : Interner) (fuel : Nat) (e : Expr) : Evaluation η Bool := do
  return (← e.eval texts fuel).isTruthy

mutual
/-- Execute a statement. -/
def exec (texts : Interner) (fuel : Nat) : Stmt → Evaluation η Unit
  | .block body => execAll texts fuel body
  | .declare n e => do
    Evaluation.expectBound texts n false
    let v ← e.eval texts fuel
    Evaluation.rebind texts n (·.declare n v)
  | .assign n e => do
    Evaluation.expectBound texts n true
    let v ← e.eval texts fuel
    Evaluation.rebind texts n (·.assign n v)
  | .print e => do
    let v ← e.eval texts fuel
    Evaluation.print v
  | .loop condition body =>
    Evaluation.repeatWhile (evalCondition texts fuel condition) (execAll texts fuel body) fuel
  | .function d => Evaluation.rebind texts d.name (·.declare d.name (.function d))
/-- Execute the statements of a block in order, up to the first failure. -/
def execAll (texts : Interner) (fuel : Nat) : Block → Evaluation η Unit
  | [] => pure ()
  | s :: rest => do
    exec texts fuel s
    execAll texts fuel rest
end

end Stmt

/-! ### The forms of statements -/

section Equations

variable [Host η] (texts : Interner) (fuel : Nat)

@[simp] theorem Stmt.execAll_nil :
    Stmt.execAll texts fuel [] = (pure () : Evaluation η Unit) := by simp [Stmt.execAll]

theorem Stmt.execAll_cons (s : Stmt) (rest : Block) :
    Stmt.execAll texts fuel (s :: rest) =
      (do s.exec texts fuel; Stmt.execAll texts fuel rest : Evaluation η Unit) := by
  simp [Stmt.execAll]

/-- A sequence of blocks runs one after the other. -/
theorem Stmt.execAll_append (b b' : Block) :
    Stmt.execAll texts fuel (b ++ b') =
      (do Stmt.execAll texts fuel b; Stmt.execAll texts fuel b' : Evaluation η Unit) := by
  induction b with
  | nil => simp
  | cons s rest ih => simp [Stmt.execAll_cons, ih]

end Equations

end DynScope
