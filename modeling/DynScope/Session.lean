import DynScope.Interpreter

/-!
# DynScope.Session

**Using one interpreter for a while.** A session is a tree of steps: runs, looks at what a
run left, actions on the sink, and call frames around further steps.

A frame step pushes an overlay, takes its inner steps, and restores. A run among the inner
steps replaces the whole environment by a fresh one without overlays; restoring then finds
nothing above the recorded count and changes nothing.
-/

namespace DynScope.Session

variable {η : Type}

/-- One step of a session. -/
inductive Step (η : Type) where
  /-- Run a program. -/
  | interpret (p : Program)
  /-- Look at the output. -/
  | output
  /-- Take the output, so that none is left. -/
  | takeOutput
  /-- Look at the environment and at some names. -/
  | env (names : List Name)
  /-- Look at the text that the sink keeps. -/
  | captured
  /-- Clear the sink. -/
  | clear
  /-- Print a value past the interpreter. -/
  | print (v : Value η)
  /-- Collect the text for standard output. -/
  | collect
  /-- Take steps inside a call frame. -/
  | frame (steps : List (Step η))

/-- What a step answers. -/
inductive Reply (η : Type) where
  /-- How a run ended, the lines of its output, and the depth of its environment. -/
  | ran (error : Option EvalError) (lines : List String) (depth : Nat)
  /-- The values of an output. -/
  | values (vs : List (Value η))
  /-- The depth of the environment, and names with their values. -/
  | env (depth : Nat) (vars : List (Name × Option (Value η)))
  /-- A text. -/
  | text (s : String)
  /-- The step was taken; there is nothing to tell. -/
  | taken
  /-- The depth inside a frame before its inner steps, their replies, and the depth after
  the frame. -/
  | frame (entered : Nat) (inner : List (Reply η)) (depth : Nat)

/-- A run as a step: its end is part of the reply, and only want of fuel stops a session. -/
def interpret [Host η] (fuel : Nat) (p : Program) (i : Interpreter η) :
    Option (Reply η × Interpreter η) :=
  match i.interpret fuel p with
  | .done () i => some (.ran none (i.output.map Value.display) i.env.depth, i)
  | .failed e i => some (.ran (some e) (i.output.map Value.display) i.env.depth, i)
  | .outOfFuel => none

mutual
/-- Take one step. -/
def step [Host η] (fuel : Nat) (i : Interpreter η) :
    Step η → Option (Reply η × Interpreter η)
  | .interpret p => interpret fuel p i
  | .output => some (.values i.output, i)
  | .takeOutput =>
    let (vs, i) := i.takeOutput
    some (.values vs, i)
  | .env names => some (.env i.env.depth (names.map fun n => (n, i.env.lookup? n)), i)
  | .captured => some (.text i.state.sink.captured, i)
  | .clear => some (.taken, i.modifySink .clear)
  | .print v => some (.taken, i.modifySink (.writeLine v.display))
  | .collect =>
    let (text, sink) := i.state.sink.collect
    some (.text text, i.modifySink fun _ => sink)
  | .frame steps => do
    let (token, env) := i.env.snapshot
    let entered := i.modifyEnv fun _ => env
    let (inner, i) ← run fuel entered steps
    let i := i.modifyEnv (·.restore token)
    return (.frame entered.env.depth inner i.env.depth, i)
/-- Take steps in order. -/
def run [Host η] (fuel : Nat) (i : Interpreter η) :
    List (Step η) → Option (List (Reply η) × Interpreter η)
  | [] => some ([], i)
  | s :: rest => do
    let (reply, i) ← step fuel i s
    let (replies, i) ← run fuel i rest
    return (reply :: replies, i)
end

end DynScope.Session
