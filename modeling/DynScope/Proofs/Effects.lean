import DynScope.Proofs.Refinement

/-!
# DynScope.Proofs.Effects

**Executions as lists of events.** Only four forms of statements do anything, and each does
one thing when it completes: it declares a name, assigns to one, or prints. `Stmt.Runs` says
how statements are executed in those terms: which primitive statements complete, in what
order and with what effect, how the execution ends, and in which environment. Blocks and
loops contribute the events of their parts, and a statement that fails contributes none.

The relation mentions neither fuel nor output. All the same, whatever ends is explained by
some events: with any amount of fuel, an execution is cut short or comes to the state and the
error that a list of events makes (`Stmt.execAll_explained`). The induction follows the
statements, and for loops the turns.
-/

namespace DynScope

variable {η : Type}

/-! ### Effects and events -/

/-- What a primitive statement did. -/
inductive Effect (η : Type) where
  /-- It declared a name. -/
  | declare (n : Name) (v : Value η)
  /-- It assigned to a name. -/
  | assign (n : Name) (v : Value η)
  /-- It printed a value. -/
  | print (v : Value η)

/-- A primitive statement that was executed to its end, with what it did. -/
structure Event (η : Type) where
  /-- The statement. -/
  stmt : Stmt
  /-- Its effect. -/
  effect : Effect η

namespace Effect

/-- Have the effect on an environment, by the operation that the statement uses. -/
def carryOut (env : Environment η) : Effect η → Except BindingError (Environment η)
  | .declare n v => env.declare n v
  | .assign n v => env.assign n v
  | .print _ => .ok env

/-- The value that was printed, if one was. -/
def printed? : Effect η → Option (Value η)
  | .print v => some v
  | .declare .. | .assign .. => none

end Effect

/-- The values that were printed, in order. -/
def Event.printed (es : List (Event η)) : List (Value η) := es.filterMap (·.effect.printed?)

/-- Have the effects of events on an environment, one after the other. -/
def Environment.replay (env : Environment η) :
    List (Event η) → Except BindingError (Environment η)
  | [] => .ok env
  | e :: rest => do
    let env ← e.effect.carryOut env
    env.replay rest

/-- Add to a state what the events printed, and put `env` for its bindings. -/
def State.advance (s : State η) (es : List (Event η)) (env : Environment η) : State η where
  env := env
  output := s.output ++ (Event.printed es).toArray
  sink := (Event.printed es).foldl (fun k v => k.writeLine v.display) s.sink

/-- How an execution ends that fails with `error`, or succeeds if there is none. -/
def Outcome.ended {σ : Type} (error : Option EvalError) (s : σ) : Outcome σ Unit :=
  match error with
  | none => .done () s
  | some e => .failed e s

theorem Event.printed_append (es es' : List (Event η)) :
    Event.printed (es ++ es') = Event.printed es ++ Event.printed es' := by
  rw [printed, printed, printed, List.filterMap_append]

@[simp] theorem State.advance_nil (s : State η) : s.advance [] s.env = s := by
  simp [advance, Event.printed]

theorem State.advance_append (s : State η) (es es' : List (Event η)) (env env' : Environment η) :
    (s.advance es env).advance es' env' = s.advance (es ++ es') env' := by
  simp [advance, Event.printed_append]

@[simp] theorem Outcome.mapState_ended {σ τ : Type} (f : σ → τ) (error : Option EvalError)
    (s : σ) : (ended error s).mapState f = ended error (f s) := by
  cases error <;> rfl

/-! ### Evaluation, whatever the fuel -/

section Relation

variable [Host η] (texts : Interner)

/-- In an environment, the expression comes to `v`, and changes nothing. -/
def Expr.ComesTo (env : Environment η) (e : Expr) (v : Value η) : Prop :=
  ∀ s : State η, s.env = env → EndsAs (e.eval texts · s) (.done v s)

/-- In an environment, the expression fails with `err`, and changes nothing. -/
def Expr.FailsWith (env : Environment η) (e : Expr) (err : EvalError) : Prop :=
  ∀ s : State η, s.env = env → EndsAs (e.eval texts · s) (.failed err s)

/-- The primitive statement looks at its target, evaluates its expression, and goes on to
have the effect. -/
inductive Stmt.Completes (env : Environment η) : Stmt → Effect η → Prop
  | declare {n e v} : env.isBound n = false → Expr.ComesTo texts env e v →
      Stmt.Completes env (.declare n e) (.declare n v)
  | assign {n e v} : env.isBound n = true → Expr.ComesTo texts env e v →
      Stmt.Completes env (.assign n e) (.assign n v)
  | print {e v} : Expr.ComesTo texts env e v → Stmt.Completes env (.print e) (.print v)
  | function (d : FunctionDecl) :
      Stmt.Completes env (.function d) (.declare d.name (.function d))

/-- The statement fails before it has done anything: it refuses its target, or its
expression fails. For a loop that is the condition. -/
inductive Stmt.Breaks (env : Environment η) : Stmt → EvalError → Prop
  | duplicate {n e} : env.isBound n = true →
      Stmt.Breaks env (.declare n e) (.duplicateDeclaration (texts.text n))
  | initializer {n e err} : env.isBound n = false → Expr.FailsWith texts env e err →
      Stmt.Breaks env (.declare n e) err
  | unbound {n e} : env.isBound n = false →
      Stmt.Breaks env (.assign n e) (.unboundVariable (texts.text n))
  | source {n e err} : env.isBound n = true → Expr.FailsWith texts env e err →
      Stmt.Breaks env (.assign n e) err
  | print {e err} : Expr.FailsWith texts env e err → Stmt.Breaks env (.print e) err
  | condition {c body err} : Expr.FailsWith texts env c err →
      Stmt.Breaks env (.loop c body) err
  | function {d : FunctionDecl} : env.isBound d.name = true →
      Stmt.Breaks env (.function d) (.duplicateDeclaration (texts.text d.name))

mutual
/-- Executed in `env`, the statement makes the events, ends with the error, if there is one,
and leaves `env'`. -/
inductive Stmt.Runs :
    (env : Environment η) → Stmt → List (Event η) → Option EvalError → Environment η → Prop
  | completes {env env' st effect} : Stmt.Completes texts env st effect →
      effect.carryOut env = .ok env' → Stmt.Runs env st [⟨st, effect⟩] none env'
  | breaks {env st err} : Stmt.Breaks texts env st err → Stmt.Runs env st [] (some err) env
  | block {env b es error env'} : Stmt.RunsAll env b es error env' →
      Stmt.Runs env (.block b) es error env'
  | stop {env c b v} : Expr.ComesTo texts env c v → v.isTruthy = false →
      Stmt.Runs env (.loop c b) [] none env
  | bodyBreaks {env c b v es err env'} : Expr.ComesTo texts env c v → v.isTruthy = true →
      Stmt.RunsAll env b es (some err) env' → Stmt.Runs env (.loop c b) es (some err) env'
  | turn {env c b v es env₁ es' error env'} : Expr.ComesTo texts env c v → v.isTruthy = true →
      Stmt.RunsAll env b es none env₁ → Stmt.Runs env₁ (.loop c b) es' error env' →
      Stmt.Runs env (.loop c b) (es ++ es') error env'
/-- Executed in `env`, the statements of a block make the events one after the other. -/
inductive Stmt.RunsAll :
    (env : Environment η) → Block → List (Event η) → Option EvalError → Environment η → Prop
  | nil {env} : Stmt.RunsAll env [] [] none env
  | headBreaks {env st rest es err env'} : Stmt.Runs env st es (some err) env' →
      Stmt.RunsAll env (st :: rest) es (some err) env'
  | cons {env st rest es env₁ es' error env'} : Stmt.Runs env st es none env₁ →
      Stmt.RunsAll env₁ rest es' error env' → Stmt.RunsAll env (st :: rest) (es ++ es') error env'
end

end Relation

/-! ### Evaluation ends in one of two ways -/

section Evaluation

variable [Host η] {texts : Interner}

/-- What an evaluation comes to with some fuel, it comes to in every state with these
bindings. -/
theorem Expr.eval_cases (texts : Interner) (fuel : Nat) (e : Expr) (s : State η) :
    e.eval texts fuel s = .outOfFuel ∨
      (∃ v, Expr.ComesTo texts s.env e v ∧ e.eval texts fuel s = .done v s) ∨
      ∃ err, Expr.FailsWith texts s.env e err ∧ e.eval texts fuel s = .failed err s := by
  have heval : ∀ s' : State η, s'.env = s.env → e.eval texts fuel s' =
      Evaluation.ofResult (Copying.eval texts fuel s.env.lookup? e) s' := by
    intro s' hs'
    rw [Expr.eval_eq_reading, Evaluation.reading_apply, hs']
  -- An outcome with this fuel is final, and it depends on nothing but the bindings.
  have hends : ∀ s' : State η, e.eval texts fuel s' ≠ .outOfFuel →
      EndsAs (e.eval texts · s') (e.eval texts fuel s') :=
    fun s' => (Expr.eval_fuelMonotone texts e s').endsAs
  rcases hr : Copying.eval texts fuel s.env.lookup? e with _ | err | v
  all_goals simp only [hr, Evaluation.ofResult] at heval
  · exact Or.inl (heval s rfl)
  · refine Or.inr (Or.inr ⟨err, fun s' hs' => ?_, heval s rfl⟩)
    have hs := heval s' hs'
    have hne : e.eval texts fuel s' ≠ .outOfFuel := by
      rw [hs]
      exact Outcome.failed_ne_outOfFuel err s'
    exact hs ▸ hends s' hne
  · refine Or.inr (Or.inl ⟨v, fun s' hs' => ?_, heval s rfl⟩)
    have hs := heval s' hs'
    have hne : e.eval texts fuel s' ≠ .outOfFuel := by
      rw [hs]
      exact Outcome.done_ne_outOfFuel v s'
    exact hs ▸ hends s' hne

theorem Expr.state_eq_of_eval {fuel : Nat} {e : Expr} {s s' : State η}
    (h : (e.eval texts fuel s).state? = some s') : s' = s := by
  rcases Expr.eval_cases texts fuel e s with heval | ⟨v, -, heval⟩ | ⟨err, -, heval⟩
  all_goals rw [heval] at h
  · cases h
  · exact (Option.some.inj h).symm
  · exact (Option.some.inj h).symm

end Evaluation

/-! ### Whatever ends has its events -/

/-- The outcome is that of some events which `R` allows, unless the fuel ran out. -/
def State.Explains (s : State η) (R : List (Event η) → Option EvalError → Environment η → Prop)
    (o : Outcome (State η) Unit) : Prop :=
  o = .outOfFuel ∨ ∃ es error env', R es error env' ∧ o = .ended error (s.advance es env')

section Explains

variable {s : State η} {R R' : List (Event η) → Option EvalError → Environment η → Prop}

theorem State.Explains.mono {o : Outcome (State η) Unit} (h : s.Explains R o)
    (hR : ∀ es error env', R es error env' → R' es error env') : s.Explains R' o := by
  rcases h with h | ⟨es, error, env', hes, h⟩
  · exact Or.inl h
  · exact Or.inr ⟨es, error, env', hR _ _ _ hes, h⟩

/-- Nothing has happened. -/
theorem State.Explains.of_nil {error : Option EvalError} (h : R [] error s.env) :
    s.Explains R (.ended error s) := by
  refine Or.inr ⟨[], error, s.env, h, ?_⟩
  rw [State.advance_nil]

/-- The events of two steps are those of the first and, if it is done, those of the second. -/
theorem State.Explains.bind {m next : Evaluation η Unit} (hm : s.Explains R' (m s))
    (hfailed : ∀ es err env', R' es (some err) env' → R es (some err) env')
    (hdone : ∀ es env₁, R' es none env₁ → (s.advance es env₁).Explains
      (fun es' error env' => R (es ++ es') error env') (next (s.advance es env₁))) :
    s.Explains R ((m >>= fun _ => next) s) := by
  rw [Evaluation.bind_apply]
  rcases hm with h | ⟨es, error, env₁, hes, h⟩
  · rw [h]
    exact Or.inl rfl
  · rw [h]
    cases error with
    | some err => exact Or.inr ⟨es, some err, env₁, hfailed _ _ _ hes, rfl⟩
    | none =>
        rcases hdone es env₁ hes with h' | ⟨es', error, env', hes', h'⟩
        · exact Or.inl h'
        · refine Or.inr ⟨es ++ es', error, env', hes', ?_⟩
          rw [← State.advance_append]
          exact h'

end Explains

section Soundness

open Evaluation

variable [Host η] {texts : Interner} {fuel : Nat} {s : State η}

theorem State.Explains.of_breaks {st : Stmt} {err : EvalError}
    (h : Stmt.Breaks texts s.env st err) :
    s.Explains (Stmt.Runs texts s.env st) (.failed err s) :=
  .of_nil (Stmt.Runs.breaks h)

theorem State.Explains.of_completes {st : Stmt} {effect : Effect η} {env' : Environment η}
    (h : Stmt.Completes texts s.env st effect) (henv : effect.carryOut s.env = .ok env') :
    s.Explains (Stmt.Runs texts s.env st) (.done () (s.advance [⟨st, effect⟩] env')) :=
  Or.inr ⟨_, none, env', .completes h henv, rfl⟩

/-- A statement that evaluates an expression and goes on with its value is explained by the
failure of the expression or by what it goes on to do. -/
theorem State.Explains.of_eval {R : List (Event η) → Option EvalError → Environment η → Prop}
    {e : Expr} {next : Value η → Evaluation η Unit}
    (hfails : ∀ err, Expr.FailsWith texts s.env e err → s.Explains R (.failed err s))
    (hcomes : ∀ v, Expr.ComesTo texts s.env e v → s.Explains R (next v s)) :
    s.Explains R ((e.eval texts fuel >>= next) s) := by
  rw [bind_apply]
  rcases Expr.eval_cases texts fuel e s with h | ⟨v, hv, h⟩ | ⟨err, herr, h⟩
  all_goals rw [h]
  · exact Or.inl rfl
  · exact hcomes v hv
  · exact hfails err herr

/-- Turn by turn, a loop is explained by its conditions and by what its body does. -/
theorem Stmt.loop_explained {c : Expr} {b : Block} {body : Evaluation η Unit}
    (hbody : ∀ s : State η, s.Explains (Stmt.RunsAll texts s.env b) (body s)) (turns : Nat)
    (s : State η) : s.Explains (Stmt.Runs texts s.env (.loop c b))
      (repeatWhile (Stmt.evalCondition texts fuel c) body turns s) := by
  induction turns generalizing s with
  | zero => exact Or.inl rfl
  | succ turns ih =>
      simp only [repeatWhile, Stmt.evalCondition, LawfulMonad.bind_assoc, LawfulMonad.pure_bind]
      refine .of_eval (fun err h => .of_breaks (.condition h)) fun v hv => ?_
      cases htrue : v.isTruthy with
      | false => exact .of_nil (Stmt.Runs.stop hv htrue)
      | true =>
          refine (hbody s).bind (fun _ _ _ h => .bodyBreaks hv htrue h) fun es env₁ h => ?_
          exact (ih _).mono fun _ _ _ h' => .turn hv htrue h h'

variable (texts fuel)

mutual
theorem Stmt.exec_explained : ∀ (st : Stmt) (s : State η),
    s.Explains (Stmt.Runs texts s.env st) (st.exec texts fuel s)
  | .block b, s => by
      simp only [Stmt.exec]
      exact (Stmt.execAll_explained b s).mono fun _ _ _ h => .block h
  | .declare n e, s => by
      simp only [Stmt.exec]
      rw [bind_expectBound_false_apply]
      cases hb : s.env.isBound n with
      | true => exact .of_breaks (.duplicate hb)
      | false =>
          refine .of_eval (fun err h => .of_breaks (.initializer hb h)) fun v hv => ?_
          simp only [rebind_declare_apply, hb]
          exact .of_completes (.declare hb hv) (Environment.declare_of_unbound hb v)
  | .assign n e, s => by
      simp only [Stmt.exec]
      rw [bind_expectBound_true_apply]
      cases hb : s.env.isBound n with
      | false => exact .of_breaks (.unbound hb)
      | true =>
          refine .of_eval (fun err h => .of_breaks (.source hb h)) fun v hv => ?_
          simp only [rebind_assign_apply, hb]
          exact .of_completes (.assign hb hv) (Environment.assign_of_bound hb v)
  | .print e, s => by
      simp only [Stmt.exec]
      refine .of_eval (fun err h => .of_breaks (.print h)) fun v hv => ?_
      exact .of_completes (.print hv) rfl
  | .loop c b, s => by
      simp only [Stmt.exec]
      exact Stmt.loop_explained (fun s => Stmt.execAll_explained b s) fuel s
  | .function d, s => by
      simp only [Stmt.exec]
      rw [rebind_declare_apply]
      cases hb : s.env.isBound d.name with
      | true => exact .of_breaks (.function hb)
      | false =>
          exact .of_completes (.function d) (Environment.declare_of_unbound hb (.function d))
/-- **Whatever ends has its events.** If the execution of a block is not cut short, it ends in
the state and with the error, if any, of events that it makes one after the other. -/
theorem Stmt.execAll_explained : ∀ (b : Block) (s : State η),
    s.Explains (Stmt.RunsAll texts s.env b) (Stmt.execAll texts fuel b s)
  | [], s => by
      simp only [Stmt.execAll]
      exact .of_nil Stmt.RunsAll.nil
  | st :: rest, s => by
      simp only [Stmt.execAll]
      refine (Stmt.exec_explained st s).bind (fun _ _ _ h => .headBreaks h) fun es env₁ h => ?_
      exact (Stmt.execAll_explained rest _).mono fun _ _ _ h' => .cons h h'
end

end Soundness

end DynScope
