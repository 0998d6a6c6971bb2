import DynScope.Proofs.Steps

/-!
# DynScope.Proofs.Printing

**What has been printed does not matter to a run.** No step looks at the output or at the
sink: printing adds to both, and that is all that ever happens to them. So a run that
starts with something in them is the run that starts with nothing, with what it printed
added at the end (`Stmt.execAll_printedOnto`).

How it works: a map of states is a `Bystander` if it keeps the bindings, does not mind
their being changed and goes with printing. Every step commutes with every bystander
(`compositional_commutes`), and adding to an output and a sink is one.
-/

namespace DynScope

variable {η : Type}

/-- A map of states that no step can tell from doing nothing. -/
structure State.Bystander (f : State η → State η) : Prop where
  /-- It keeps the bindings. -/
  env_eq : ∀ s, (f s).env = s.env
  /-- Changing the bindings goes before or after. -/
  withEnv : ∀ s env, f { s with env } = { f s with env }
  /-- Printing goes before or after. -/
  print : ∀ (v : Value η) s,
    (Evaluation.print v s).mapState f = Evaluation.print v (f s)

/-- What a state has printed, added to an output and a sink that were there before. -/
def State.printedOnto (output : Array (Value η)) (sink : Sink) (s : State η) : State η where
  env := s.env
  output := output ++ s.output
  sink := s.output.foldl (fun k v => k.writeLine v.display) sink

theorem State.bystander_printedOnto (output : Array (Value η)) (sink : Sink) :
    Bystander (State.printedOnto output sink) where
  env_eq _ := rfl
  withEnv _ _ := rfl
  print v s := by
    simp only [Evaluation.print, Outcome.mapState, State.printedOnto, Array.append_push,
      Array.foldl_push]

namespace Evaluation

variable {α β : Type}

/-- The map goes before or after the step. -/
def Commutes (f : State η → State η) (m : Evaluation η α) : Prop :=
  ∀ s, (m s).mapState f = m (f s)

variable {f : State η → State η}

theorem Commutes.bind {m : Evaluation η α} {k : α → Evaluation η β} (hm : Commutes f m)
    (hk : ∀ a, Commutes f (k a)) : Commutes f (m >>= k) := by
  intro s
  rw [bind_apply, bind_apply, ← hm s]
  cases m s with
  | done a s' => exact hk a s'
  | failed e s' => rfl
  | outOfFuel => rfl

theorem Commutes.reading (hf : State.Bystander f) (r : Copying.Store η → Copying.Result α) :
    Commutes f (reading r) := by
  intro s
  simp only [Evaluation.reading, hf.env_eq]
  rcases r s.env.lookup? with _ | _ | _ <;> rfl

theorem Commutes.rebind (hf : State.Bystander f) (texts : Interner) (n : Name)
    (g : Environment η → Except BindingError (Environment η)) :
    Commutes f (rebind texts n g) := by
  intro s
  simp only [Evaluation.rebind, hf.env_eq]
  cases g s.env with
  | ok env =>
      have henv := hf.withEnv s env
      exact congrArg (Outcome.done ()) henv
  | error e => rfl

/-- A bystander goes before or after every step. -/
theorem compositional_commutes (hf : State.Bystander f) :
    Compositional fun _ m => Commutes f m where
  bind := Commutes.bind
  reading := Commutes.reading hf
  declare texts n _ := Commutes.rebind hf texts n _
  assign texts n _ := Commutes.rebind hf texts n _
  print := hf.print

end Evaluation

/-- **What has been printed does not matter to a run.** To start with an output and a sink
is to start with none and to add what was printed at the end. -/
theorem Stmt.execAll_printedOnto [Host η] (texts : Interner) (fuel : Nat) (b : Block)
    (env : Environment η) (output : Array (Value η)) (sink : Sink) :
    Stmt.execAll texts fuel b { env, output, sink } =
      (Stmt.execAll texts fuel b { env, output := #[], sink := .discard }).mapState
        (State.printedOnto output sink) := by
  have hcommutes := Stmt.execAll_of_compositional
    (Evaluation.compositional_commutes (State.bystander_printedOnto output sink)) texts fuel b
  rw [hcommutes]
  simp only [State.printedOnto, Array.append_empty, Array.foldl_empty]

end DynScope
