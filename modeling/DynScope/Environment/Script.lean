import DynScope.Environment

/-!
# DynScope.Environment.Script

**Sequences of environment operations.** A script operates on one environment and answers
every operation. Snapshots are numbered in the order in which the script takes them, and
any of them may be restored at any later point, in any order and repeatedly.
-/

namespace DynScope.Environment

variable {η : Type}

/-- One operation. -/
inductive Op (η : Type) where
  /-- Declare a name. -/
  | declare (n : Name) (v : Value η)
  /-- Assign to a name. -/
  | assign (n : Name) (v : Value η)
  /-- Bind a name in the innermost frame. -/
  | bind (n : Name) (v : Value η)
  /-- Bind a name in the global frame. -/
  | bindGlobal (n : Name) (v : Value η)
  /-- Read a name. -/
  | lookup (n : Name)
  /-- Ask whether a name is bound. -/
  | isBound (n : Name)
  /-- Push an overlay. -/
  | snapshot
  /-- Restore the `k`-th snapshot that the script took, counted from zero. -/
  | restore (k : Nat)

/-- What an operation answers. -/
inductive Answer (η : Type) where
  /-- The operation was carried out. -/
  | ok
  /-- The operation was refused and changed nothing. -/
  | refused (e : BindingError)
  /-- The value of a name, if it is bound. -/
  | value (v : Option (Value η))
  /-- Whether a name is bound. -/
  | bound (b : Bool)
  /-- The number of a new snapshot. -/
  | taken (k : Nat)

/-- An environment with the snapshots taken so far. -/
structure Scripted (η : Type) where
  /-- The environment. -/
  env : Environment η
  /-- The snapshots in the order in which they were taken. -/
  taken : Array Snapshot

/-- The start of every script: an empty environment and no snapshots. -/
def Scripted.start : Scripted η := ⟨Environment.empty, #[]⟩

namespace Op

/-- The outcome of a binding operation: the new environment, or the old one and a refusal. -/
def settle (s : Scripted η) : Except BindingError (Environment η) → Answer η × Scripted η
  | .ok env => (.ok, { s with env })
  | .error e => (.refused e, s)

/-- Carry out one operation. Restoring a snapshot that was never taken changes nothing. -/
def step (s : Scripted η) : Op η → Answer η × Scripted η
  | .declare n v => settle s (s.env.declare n v)
  | .assign n v => settle s (s.env.assign n v)
  | .bind n v => (.ok, { s with env := s.env.bind n v })
  | .bindGlobal n v => (.ok, { s with env := s.env.bindGlobal n v })
  | .lookup n => (.value (s.env.lookup? n), s)
  | .isBound n => (.bound (s.env.isBound n), s)
  | .snapshot =>
    let (token, env) := s.env.snapshot
    (.taken s.taken.size, { env, taken := s.taken.push token })
  | .restore k =>
    match s.taken[k]? with
    | some token => (.ok, { s with env := s.env.restore token })
    | none => (.ok, s)

/-- Carry out a script: the answers, and what is there at the end. -/
def run (s : Scripted η) : List (Op η) → List (Answer η) × Scripted η
  | [] => ([], s)
  | op :: rest =>
    let (a, s) := op.step s
    let (as, s) := run s rest
    (a :: as, s)

end Op

end DynScope.Environment
