import DynScope.Proofs.Correspondence
import DynScope.Proofs.Fuel

/-!
# DynScope.Proofs.TwoRuns

**Two copying runs side by side.** What the forms of statements have in common when two runs
are compared: a relation `R` of their states is carried over sequences, over the evaluation
of an expression and over the turns of a loop. What remains for a particular `R` are the
bindings and the prints.
-/

namespace DynScope

variable {η σ τ α β : Type}

namespace Outcome

variable {R : σ → τ → Prop}

theorem Agree.andThen {o : Outcome σ α} {o' : Outcome τ α} {f : α → σ → Outcome σ β}
    {f' : α → τ → Outcome τ β} (h : Agree R o o')
    (hf : ∀ a s s', R s s' → Agree R (f a s) (f' a s')) :
    Agree R (o.andThen f) (o'.andThen f') := by
  cases h with
  | done a hs => exact hf a _ _ hs
  | failed e hs => exact .failed e hs
  | outOfFuel => exact .outOfFuel

theorem Agree.mapState {σ' τ' : Type} {S : σ' → τ' → Prop} {f : σ → σ'} {g : τ → τ'}
    {o : Outcome σ α} {o' : Outcome τ α} (h : Agree R o o') (hf : ∀ s s', R s s' → S (f s) (g s')) :
    Agree S (o.mapState f) (o'.mapState g) := by
  cases h with
  | done a hs => exact .done a (hf _ _ hs)
  | failed e hs => exact .failed e (hf _ _ hs)
  | outOfFuel => exact .outOfFuel

end Outcome

/-- Both runs go on for ever, or both succeed, or both fail with one error; if they end, it is
in states that stand in `R`. -/
def EndAlike (R : σ → τ → Prop) (run : Nat → Outcome σ Unit) (run' : Nat → Outcome τ Unit) :
    Prop :=
  (Diverges run ∧ Diverges run') ∨
    ∃ s s', ((EndsAs run (.done () s) ∧ EndsAs run' (.done () s')) ∨
      ∃ e, EndsAs run (.failed e s) ∧ EndsAs run' (.failed e s')) ∧ R s s'

namespace Copying

theorem Result.Agree.mono {P Q : α → β → Prop} {r : Result α} {r' : Result β}
    (h : Result.Agree P r r') (hPQ : ∀ a b, P a b → Q a b) : Result.Agree Q r r' := by
  cases h with
  | value hab => exact .value (hPQ _ _ hab)
  | error e => exact .error e
  | exhausted => exact .exhausted

variable {R : State η → State η → Prop}

theorem proceed_agree {P : α → β → Prop} {s s' : State η} {r : Result α} {r' : Result β}
    {next : α → Outcome (State η) Unit} {next' : β → Outcome (State η) Unit} (hs : R s s')
    (h : Result.Agree P r r') (hnext : ∀ a b, P a b → Outcome.Agree R (next a) (next' b)) :
    Outcome.Agree R (s.proceed r next) (s'.proceed r' next') := by
  cases h with
  | value hab => exact hnext _ _ hab
  | error e => exact .failed e hs
  | exhausted => exact .outOfFuel

/-- Loops keep two states related if their bodies do and their conditions are true together. -/
theorem repeatWhile_agree {condition condition' : Store η → Result (Value η)}
    {body body' : State η → Outcome (State η) Unit}
    (hcondition : ∀ {s s'}, R s s' → Result.Agree (fun v v' => v.isTruthy = v'.isTruthy)
      (condition s.vars) (condition' s'.vars))
    (hbody : ∀ {s s'}, R s s' → Outcome.Agree R (body s) (body' s')) (turns : Nat)
    {s s' : State η} (hs : R s s') :
    Outcome.Agree R (repeatWhile condition body turns s)
      (repeatWhile condition' body' turns s') := by
  induction turns generalizing s s' with
  | zero => exact .outOfFuel
  | succ turns ih =>
      simp only [repeatWhile]
      refine proceed_agree hs (hcondition hs) fun v v' hv => ?_
      rw [hv]
      split
      · exact (hbody hs).andThen fun _ _ _ => ih
      · exact .done () hs

end Copying

end DynScope
