import DynScope.Environment
import DynScope.Sink

/-!
# DynScope.Evaluation

**Steps of a run.** An `Evaluation` takes the state of a run to an `Outcome`: it is done
with a value, it has failed with an error, or the fuel ran out before either.

Design points:

* A failure keeps the state that it left. Nothing that happened before it is undone.
* Running out of fuel carries no state, since it is no answer of the language. A run that
  never ends is one that runs out of fuel whatever the amount.
-/

namespace DynScope

/-- How a computation over states `σ` ends. -/
inductive Outcome (σ α : Type) where
  /-- It came to a value. -/
  | done (value : α) (state : σ)
  /-- It failed. -/
  | failed (error : EvalError) (state : σ)
  /-- It was cut short. -/
  | outOfFuel

namespace Outcome

variable {σ τ α : Type}

/-- Change the state that an outcome carries. -/
@[inline] def mapState (f : σ → τ) : Outcome σ α → Outcome τ α
  | .done a s => .done a (f s)
  | .failed e s => .failed e (f s)
  | .outOfFuel => .outOfFuel

/-- The state that an outcome carries. -/
def state? : Outcome σ α → Option σ
  | .done _ s => some s
  | .failed _ s => some s
  | .outOfFuel => none

theorem mapState_mapState {ρ : Type} (o : Outcome σ α) (f : σ → τ) (g : τ → ρ) :
    (o.mapState f).mapState g = o.mapState (g ∘ f) := by
  cases o <;> rfl

theorem state?_mapState (o : Outcome σ α) (f : σ → τ) :
    (o.mapState f).state? = o.state?.map f := by
  cases o <;> rfl

end Outcome

/-- The state of a run. -/
structure State (η : Type) where
  /-- The bindings. -/
  env : Environment η
  /-- The values printed so far. -/
  output : Array (Value η)
  /-- Where printed lines go. -/
  sink : Sink

/-- A step of a run that comes to an `α`. -/
def Evaluation (η α : Type) := State η → Outcome (State η) α

namespace Evaluation

variable {η α β : Type}

/-- Come to `a` at once. -/
@[always_inline, inline] def pure (a : α) : Evaluation η α := fun s => .done a s

/-- Go on from the value that `m` comes to. A failure of `m` is final. -/
@[always_inline, inline] def bind (m : Evaluation η α) (f : α → Evaluation η β) :
    Evaluation η β := fun s =>
  match m s with
  | .done a s => f a s
  | .failed e s => .failed e s
  | .outOfFuel => .outOfFuel

instance : Monad (Evaluation η) where
  pure := Evaluation.pure
  bind := Evaluation.bind

/-- Fail with `e`. -/
@[inline] def fail (e : EvalError) : Evaluation η α := fun s => .failed e s

/-- Give up for want of fuel. -/
@[inline] def exhausted : Evaluation η α := fun _ => .outOfFuel

/-- Come to the result of a computation that touches no state. -/
@[inline] def ofExcept : Except EvalError α → Evaluation η α
  | .ok a => pure a
  | .error e => fail e

/-- Change the bindings. -/
@[inline] def modifyEnv (f : Environment η → Environment η) : Evaluation η Unit :=
  fun s => .done () { s with env := f s.env }

/-- Give the line of a value to the sink and record the value. -/
def print (v : Value η) : Evaluation η Unit := fun s =>
  .done () { s with
    output := s.output.push v
    sink := s.sink.writeLine v.display }

/-- Run `m` in an overlay of its own, which is dropped again however `m` ends. -/
@[inline] def withFrame (m : Evaluation η α) : Evaluation η α := fun s =>
  let (token, env) := s.env.snapshot
  (m { s with env }).mapState fun s => { s with env := s.env.restore token }

/-! ### Running a step -/

@[simp] theorem pure_apply (a : α) (s : State η) :
    (Pure.pure a : Evaluation η α) s = .done a s := rfl

theorem bind_apply (m : Evaluation η α) (f : α → Evaluation η β) (s : State η) :
    (m >>= f) s = match m s with
      | .done a s => f a s
      | .failed e s => .failed e s
      | .outOfFuel => .outOfFuel := rfl

@[simp] theorem fail_apply (e : EvalError) (s : State η) :
    (fail e : Evaluation η α) s = .failed e s := rfl

@[simp] theorem exhausted_apply (s : State η) :
    (exhausted : Evaluation η α) s = .outOfFuel := rfl

/-- Nothing is lost by coming to the value just come to. -/
theorem bind_pure_comp_id (m : Evaluation η α) : bind m (fun a => pure (id a)) = m := by
  funext s
  unfold bind
  cases m s <;> rfl

/-- Steps may be grouped either way. -/
theorem bind_assoc {γ : Type} (m : Evaluation η α) (f : α → Evaluation η β)
    (g : β → Evaluation η γ) : bind (bind m f) g = bind m fun a => bind (f a) g := by
  funext s
  unfold bind
  cases m s <;> rfl

instance : LawfulMonad (Evaluation η) :=
  LawfulMonad.mk' _ bind_pure_comp_id (fun _ _ => rfl) bind_assoc

end Evaluation

end DynScope
