import DynScope.Evaluation.Stmt
import DynScope.Prelude

/-!
# DynScope.Interpreter

**Running programs.** An interpreter owns an interner, a prelude and the state of its
latest run. It may run many programs in turn; every run starts from a fresh environment,
which holds the prelude and nothing else, and from an empty output.

Design points:

* Interpreters are put together by a sequence of `Setting`s. Each builds on those before
  it: starting over from an empty prelude drops whatever was registered so far.
* The texts of the prelude are interned anew at the start of each run. Texts that have a
  name keep it, so names handed out earlier stay good.
* A failed run leaves behind what was bound and printed before the failure.
-/

namespace DynScope

variable {η : Type}

/-! ### Putting an interpreter together -/

/-- One decision about an interpreter. -/
inductive Setting (η : Type) where
  /-- Register a host function. -/
  | host (name : String) (fn : HostFn η)
  /-- Register a value. -/
  | constant (name : String) (v : Value η)
  /-- Start over from an empty prelude. -/
  | emptyPrelude
  /-- Choose where printed lines go. -/
  | sink (s : Sink)

/-- What has been decided about an interpreter. -/
structure Setup (η : Type) where
  /-- The values bound at the start of each run. -/
  prelude : Prelude η
  /-- Where printed lines go. -/
  sink : Sink

namespace Setup

/-- The standard prelude and a sink that drops every line. -/
def standard : Setup η := ⟨.standard, .discard⟩

/-- Take one more decision. -/
def add (c : Setup η) : Setting η → Setup η
  | .host name fn => { c with prelude := c.prelude.insertHost name fn }
  | .constant name v => { c with prelude := c.prelude.insert name v }
  | .emptyPrelude => { c with prelude := .empty }
  | .sink s => { c with sink := s }

/-- The result of decisions taken in order. -/
def ofSettings (settings : List (Setting η)) : Setup η := settings.foldl add standard

end Setup

/-! ### The environment that a run starts from -/

namespace Prelude

/-- Bind entries globally, in order, under the names of their texts. -/
def bindEntries (t : Interner) (env : Environment η) :
    List (String × Value η) → Interner × Environment η
  | [] => (t, env)
  | (name, v) :: rest =>
    let (n, t) := t.intern name
    bindEntries t (env.bindGlobal n v) rest

/-- The environment that holds the entries of a prelude and nothing else, with the interner
that names them. -/
def environment (p : Prelude η) (t : Interner) : Interner × Environment η :=
  bindEntries t .empty p.entries

end Prelude

/-! ### Interpreters -/

/-- An interpreter between two runs. -/
structure Interpreter (η : Type) where
  /-- The names of identifiers, shared with the programs it runs. -/
  interner : Interner
  /-- The values bound at the start of each run. -/
  prelude : Prelude η
  /-- Bindings, output and sink as the latest run left them. -/
  state : State η

namespace Interpreter

/-- The interpreter of a setup, before its first run. -/
def new (t : Interner) (c : Setup η) : Interpreter η where
  interner := t
  prelude := c.prelude
  state := { env := .empty, output := #[], sink := c.sink }

/-- The environment of the latest run. -/
def env (i : Interpreter η) : Environment η := i.state.env

/-- The values that the latest run printed. -/
def output (i : Interpreter η) : List (Value η) := i.state.output.toList

/-- Hand the output over, so that none is left. -/
def takeOutput (i : Interpreter η) : List (Value η) × Interpreter η :=
  (i.output, { i with state := { i.state with output := #[] } })

/-- Act on the sink. -/
def modifySink (f : Sink → Sink) (i : Interpreter η) : Interpreter η :=
  { i with state := { i.state with sink := f i.state.sink } }

/-- Act on the bindings. -/
def modifyEnv (f : Environment η → Environment η) (i : Interpreter η) : Interpreter η :=
  { i with state := { i.state with env := f i.state.env } }

variable [Host η]

/-- Run a program from a fresh environment, with `fuel` bounding the nesting of calls and
the turns of each loop. -/
def interpret (fuel : Nat) (p : Program) (i : Interpreter η) :
    Outcome (Interpreter η) Unit :=
  let (interner, env) := i.prelude.environment i.interner
  let start : State η := { env, output := #[], sink := i.state.sink }
  (Stmt.execAll interner fuel p.body start).mapState fun state =>
    { interner, prelude := i.prelude, state }

end Interpreter

/-- Run one program on an interpreter of its own, with the standard prelude. -/
def Program.run [Host η] (fuel : Nat) (t : Interner) (p : Program) :
    Outcome (Interpreter η) Unit :=
  (Interpreter.new t Setup.standard).interpret fuel p

end DynScope
