import DynScope.Proofs.Points

/-!
# DynScope.Proofs.Tracing

**Runs that keep a record.** The evaluator is given once more, as one that notes where it is:
at which expression, in which environment, and during which calls, whenever the evaluation of
an expression begins and whenever it ends, with a value or with a failure. The calls are handed
down beside the recursion and are looked at by nothing, so that the record and the environment
are kept independently of each other.

Without its records a traced run is the run itself (`Interpreter.erase_trace`). A run that
diverges has a record for every amount of fuel: what it passed through before it was cut short.
-/

namespace DynScope

variable {η : Type}

/-! ### Steps with records -/

/-- A step of a run that makes records of type `ρ`, in order. -/
def Traced (ρ η α : Type) := State η → List ρ × Outcome (State η) α

namespace Traced

variable {ρ α β : Type}

/-- Come to `a` at once, without a record. -/
protected def pure (a : α) : Traced ρ η α := fun s => ([], .done a s)

/-- Go on from the value that `m` comes to, adding to its records. -/
protected def bind (m : Traced ρ η α) (f : α → Traced ρ η β) : Traced ρ η β := fun s =>
  match m s with
  | (rs, .done a s') => (rs ++ (f a s').1, (f a s').2)
  | (rs, .failed e s') => (rs, .failed e s')
  | (rs, .outOfFuel) => (rs, .outOfFuel)

instance : Monad (Traced ρ η) where
  pure := Traced.pure
  bind := Traced.bind

/-- A step that makes no record. -/
def silent (m : Evaluation η α) : Traced ρ η α := fun s => ([], m s)

/-- The step without its records. -/
def erase (m : Traced ρ η α) : Evaluation η α := fun s => (m s).2

/-- Run `m` in an overlay of its own, which is dropped again however `m` ends. -/
def withFrame (m : Traced ρ η α) : Traced ρ η α := fun s =>
  let (token, env) := s.env.snapshot
  let (rs, o) := m { s with env }
  (rs, o.mapState fun s => { s with env := s.env.restore token })

/-- Run `body` for as long as `condition` comes to true, at most `turns` times. -/
def repeatWhile (condition : Traced ρ η Bool) (body : Traced ρ η Unit) : Nat → Traced ρ η Unit
  | 0 => silent Evaluation.exhausted
  | turns + 1 => do
    if ← condition then
      body
      repeatWhile condition body turns
    else
      return ()

/-! ### Records may be dropped -/

@[simp] theorem erase_apply (m : Traced ρ η α) (s : State η) : m.erase s = (m s).2 := rfl

@[simp] theorem erase_pure (a : α) : (Pure.pure a : Traced ρ η α).erase = Pure.pure a := rfl

@[simp] theorem erase_silent (m : Evaluation η α) : (silent m : Traced ρ η α).erase = m := rfl

@[simp] theorem erase_bind (m : Traced ρ η α) (f : α → Traced ρ η β) :
    (m >>= f).erase = m.erase >>= fun a => (f a).erase := by
  funext s
  simp only [erase, Evaluation.bind_apply]
  change (Traced.bind m f s).2 = _
  unfold Traced.bind
  rcases m s with ⟨rs, _ | _ | _⟩
  all_goals rfl

@[simp] theorem erase_ite {c : Prop} [Decidable c] (m m' : Traced ρ η α) :
    (if c then m else m').erase = if c then m.erase else m'.erase := by
  split <;> rfl

@[simp] theorem erase_withFrame (m : Traced ρ η α) :
    m.withFrame.erase = Evaluation.withFrame m.erase := rfl

@[simp] theorem erase_repeatWhile (condition : Traced ρ η Bool) (body : Traced ρ η Unit)
    (turns : Nat) : (repeatWhile condition body turns).erase =
      Evaluation.repeatWhile condition.erase body.erase turns := by
  induction turns with
  | zero => rfl
  | succ turns ih => simp only [repeatWhile, Evaluation.repeatWhile, erase_bind, erase_ite, ih,
      erase_pure]

@[simp] theorem records_silent (m : Evaluation η α) (s : State η) :
    ((silent m : Traced ρ η α) s).1 = [] := rfl

/-- The records of two steps are those of the first and, if it is done, those of the second. -/
theorem records_bind (m : Traced ρ η α) (f : α → Traced ρ η β) (s : State η) :
    ((m >>= f) s).1 = (m s).1 ∨
      ∃ a s', (m s).2 = .done a s' ∧ ((m >>= f) s).1 = (m s).1 ++ (f a s').1 := by
  change (Traced.bind m f s).1 = _ ∨ ∃ a s', _ ∧ (Traced.bind m f s).1 = _
  unfold Traced.bind
  rcases m s with ⟨rs, a | _ | _⟩
  · exact Or.inr ⟨_, _, rfl, rfl⟩
  · exact Or.inl rfl
  · exact Or.inl rfl

/-- Two steps that are done were done one after the other, and have the records of both. -/
theorem bind_eq_done {m : Traced ρ η α} {f : α → Traced ρ η β} {s s'' : State η} {b : β}
    (h : ((m >>= f) s).2 = .done b s'') :
    ∃ a s', (m s).2 = .done a s' ∧ (f a s').2 = .done b s'' ∧
      ((m >>= f) s).1 = (m s).1 ++ (f a s').1 := by
  change (Traced.bind m f s).2 = _ at h
  change ∃ a s', _ ∧ _ ∧ (Traced.bind m f s).1 = _
  unfold Traced.bind at h ⊢
  generalize m s = end₁ at h ⊢
  rcases end₁ with ⟨rs, a | _ | _⟩
  · exact ⟨_, _, rfl, h, rfl⟩
  · cases h
  · cases h

end Traced

/-! ### Points of an evaluation -/

/-- A moment of a run at which the evaluation of an expression begins or ends. -/
structure Point (η : Type) where
  /-- The calls of user-defined functions whose bodies are being evaluated, innermost first. -/
  calls : List (Call η)
  /-- The bindings. -/
  env : Environment η
  /-- The expression. -/
  expr : Expr

/-- Evaluate `e` by `m` during the given calls, and note where this begins and ends. -/
def Traced.passing {α : Type} (calls : List (Call η)) (e : Expr)
    (m : Traced (Point η) η α) : Traced (Point η) η α := fun s =>
  let (ps, o) := m s
  (⟨calls, s.env, e⟩ :: ps ++ (o.state?.map fun s' => ⟨calls, s'.env, e⟩).toList, o)

@[simp] theorem Traced.erase_passing {α : Type} (calls : List (Call η)) (e : Expr)
    (m : Traced (Point η) η α) : (passing calls e m).erase = m.erase := rfl

/-- What a call of a user-defined function does during other calls. -/
abbrev TracedApplication (η : Type) :=
  List (Call η) → FunctionDecl → List (Value η) → Traced (Point η) η (Value η)

section Expressions

open Traced

variable [Host η]

namespace Expr

mutual
/-- Evaluate an expression during the given calls, with a record. -/
def traceWith (texts : Interner) (apply : TracedApplication η) (calls : List (Call η)) :
    Expr → Traced (Point η) η (Value η)
  | .numeral x => passing calls (.numeral x) (pure (.number x))
  | .bool b => passing calls (.bool b) (pure (.bool b))
  | .identifier n => passing calls (.identifier n) (silent (Evaluation.lookup texts n))
  | .binary op l r => passing calls (.binary op l r) do
    let l ← traceWith texts apply calls l
    let r ← traceWith texts apply calls r
    silent (Evaluation.ofExcept (Value.binary op l r))
  | .unary op e => passing calls (.unary op e) do
    let v ← traceWith texts apply calls e
    silent (Evaluation.ofExcept (Value.unary op v))
  | .conditional test consequent alternate =>
    passing calls (.conditional test consequent alternate) do
      let v ← traceWith texts apply calls test
      if v.isTruthy then traceWith texts apply calls consequent
      else traceWith texts apply calls alternate
  | .call callee args => passing calls (.call callee args) do
    match ← silent (Evaluation.lookup texts callee) with
    | .builtin b =>
      let vs ← traceAllWith texts apply calls args
      silent (Evaluation.ofExcept (b.call vs))
    | .function d =>
      if args.length = d.arity then
        let vs ← traceAllWith texts apply calls args
        apply calls d vs
      else
        silent (Evaluation.fail (.arityMismatch (texts.text callee) d.arity args.length))
    | v => silent (Evaluation.fail (.notCallable (texts.text callee) v.kind))
  | .array es => passing calls (.array es) do
    let vs ← traceAllWith texts apply calls es
    return .array none vs
  | .subscript base index => passing calls (.subscript base index) do
    let base ← traceWith texts apply calls base
    let index ← traceWith texts apply calls index
    silent (Evaluation.ofExcept (Value.subscript base index))
/-- Evaluate expressions from left to right during the given calls, with a record. -/
def traceAllWith (texts : Interner) (apply : TracedApplication η) (calls : List (Call η)) :
    List Expr → Traced (Point η) η (List (Value η))
  | [] => pure []
  | e :: es => do
    let v ← traceWith texts apply calls e
    let vs ← traceAllWith texts apply calls es
    return v :: vs
end

end Expr

/-- Call a user-defined function, with a record. Its body is evaluated during one call more. -/
def traceCall (texts : Interner) : Nat → TracedApplication η
  | 0, _, _, _ => silent Evaluation.exhausted
  | fuel + 1, calls, d, vs => withFrame do
    silent (Evaluation.modifyEnv (·.bindAll d.params vs))
    d.body.traceWith texts (traceCall texts fuel) (⟨d, vs⟩ :: calls)

/-- Evaluate an expression outside of all calls, with a record. -/
def Expr.trace (texts : Interner) (fuel : Nat) (e : Expr) : Traced (Point η) η (Value η) :=
  e.traceWith texts (traceCall texts fuel) []

variable {texts : Interner}

mutual
theorem Expr.erase_traceWith {traced : TracedApplication η} {apply : Application η}
    (h : ∀ calls d vs, (traced calls d vs).erase = apply d vs) (calls : List (Call η)) :
    ∀ e : Expr, (e.traceWith texts traced calls).erase = e.evalWith texts apply
  | .numeral _ => rfl
  | .bool _ => rfl
  | .identifier _ => rfl
  | .binary op l r => by
      simp only [Expr.traceWith, Expr.evalWith, erase_passing, erase_bind, erase_silent,
        Expr.erase_traceWith h calls l, Expr.erase_traceWith h calls r]
  | .unary op e => by
      simp only [Expr.traceWith, Expr.evalWith, erase_passing, erase_bind, erase_silent,
        Expr.erase_traceWith h calls e]
  | .conditional test consequent alternate => by
      simp only [Expr.traceWith, Expr.evalWith, erase_passing, erase_bind, erase_ite,
        Expr.erase_traceWith h calls test, Expr.erase_traceWith h calls consequent,
        Expr.erase_traceWith h calls alternate]
  | .call callee args => by
      have hargs := Expr.erase_traceAllWith h calls args
      simp only [Expr.traceWith, Expr.evalWith, erase_passing, erase_bind, erase_silent]
      congr 1
      funext v
      cases v with
      | function d => simp only [erase_ite, erase_bind, erase_silent, hargs, h]
      | _ => simp only [erase_bind, erase_silent, hargs]
  | .array es => by
      simp only [Expr.traceWith, Expr.evalWith, erase_passing, erase_bind, erase_pure,
        Expr.erase_traceAllWith h calls es]
  | .subscript base index => by
      simp only [Expr.traceWith, Expr.evalWith, erase_passing, erase_bind, erase_silent,
        Expr.erase_traceWith h calls base, Expr.erase_traceWith h calls index]
theorem Expr.erase_traceAllWith {traced : TracedApplication η} {apply : Application η}
    (h : ∀ calls d vs, (traced calls d vs).erase = apply d vs) (calls : List (Call η)) :
    ∀ es : List Expr,
      (Expr.traceAllWith texts traced calls es).erase = Expr.evalAllWith texts apply es
  | [] => rfl
  | e :: es => by
      simp only [Expr.traceAllWith, Expr.evalAllWith, erase_bind, erase_pure,
        Expr.erase_traceWith h calls e, Expr.erase_traceAllWith h calls es]
end

theorem erase_traceCall (texts : Interner) (fuel : Nat) (calls : List (Call η))
    (d : FunctionDecl) (vs : List (Value η)) :
    (traceCall texts fuel calls d vs).erase = applyFunction texts fuel d vs := by
  induction fuel generalizing calls d vs with
  | zero => rfl
  | succ fuel ih =>
      rw [traceCall, applyFunction, erase_withFrame, erase_bind, erase_silent]
      simp only [Expr.erase_traceWith ih]

/-- Without its record, the traced evaluation of an expression is its evaluation, whatever the
calls during which it takes place. -/
theorem Expr.erase_traceWith_traceCall (texts : Interner) (fuel : Nat) (calls : List (Call η))
    (e : Expr) :
    (e.traceWith texts (traceCall texts fuel) calls).erase = e.eval texts fuel :=
  Expr.erase_traceWith (erase_traceCall texts fuel) calls e

end Expressions

/-! ### Episodes of a run -/

/-- What a run passes through while a primitive statement is executed, or while a loop looks at
its condition. -/
structure Episode (η : Type) where
  /-- The statement. -/
  stmt : Stmt
  /-- The bindings that it starts with; for a loop, those that this turn starts with. -/
  start : Environment η
  /-- The points of its expression. -/
  points : List (Point η)

/-- Execute a statement by `m`, as an episode of its own. -/
def Traced.within {α : Type} (st : Stmt) (m : Traced (Point η) η α) : Traced (Episode η) η α :=
  fun s => ([⟨st, s.env, (m s).1⟩], (m s).2)

@[simp] theorem Traced.erase_within {α : Type} (st : Stmt) (m : Traced (Point η) η α) :
    (within st m).erase = m.erase := rfl

section Statements

open Traced

variable [Host η]

namespace Stmt

mutual
/-- Execute a statement, with a record. -/
def trace (texts : Interner) (fuel : Nat) : Stmt → Traced (Episode η) η Unit
  | .block body => traceAll texts fuel body
  | .declare n e => within (.declare n e) do
    silent (Evaluation.expectBound texts n false)
    let v ← e.trace texts fuel
    silent (Evaluation.rebind texts n (·.declare n v))
  | .assign n e => within (.assign n e) do
    silent (Evaluation.expectBound texts n true)
    let v ← e.trace texts fuel
    silent (Evaluation.rebind texts n (·.assign n v))
  | .print e => within (.print e) do
    let v ← e.trace texts fuel
    silent (Evaluation.print v)
  | .loop condition body =>
    repeatWhile
      (within (.loop condition body) do return (← condition.trace texts fuel).isTruthy)
      (traceAll texts fuel body) fuel
  | .function d =>
    within (.function d) (silent (Evaluation.rebind texts d.name (·.declare d.name (.function d))))
/-- Execute the statements of a block in order, with a record. -/
def traceAll (texts : Interner) (fuel : Nat) : Block → Traced (Episode η) η Unit
  | [] => pure ()
  | s :: rest => do
    trace texts fuel s
    traceAll texts fuel rest
end

variable (texts : Interner) (fuel : Nat)

mutual
theorem erase_trace : ∀ st : Stmt, (st.trace texts fuel).erase = st.exec (η := η) texts fuel
  | .block body => by
      simp only [trace, exec]
      exact erase_traceAll body
  | .declare n e => by
      simp only [trace, exec, erase_within, erase_bind, erase_silent, Expr.trace,
        Expr.erase_traceWith_traceCall]
  | .assign n e => by
      simp only [trace, exec, erase_within, erase_bind, erase_silent, Expr.trace,
        Expr.erase_traceWith_traceCall]
  | .print e => by
      simp only [trace, exec, erase_within, erase_bind, erase_silent, Expr.trace,
        Expr.erase_traceWith_traceCall]
  | .loop condition body => by
      simp only [trace, exec, erase_repeatWhile, erase_within, erase_bind, erase_pure, Expr.trace,
        Expr.erase_traceWith_traceCall, erase_traceAll body, evalCondition]
  | .function d => by simp only [trace, exec, erase_within, erase_silent]
theorem erase_traceAll : ∀ b : Block,
    (traceAll texts fuel b).erase = execAll (η := η) texts fuel b
  | [] => by simp only [traceAll, execAll, erase_pure]
  | st :: rest => by
      simp only [traceAll, execAll, erase_bind, erase_trace st, erase_traceAll rest]
end

end Stmt

/-- Run a program, with a record. -/
def Interpreter.trace (fuel : Nat) (p : Program) (i : Interpreter η) :
    List (Episode η) × Outcome (Interpreter η) Unit :=
  let (interner, env) := i.prelude.environment i.interner
  let (episodes, o) := Stmt.traceAll interner fuel p.body
    { env, output := #[], sink := i.state.sink }
  (episodes, o.mapState fun state => { interner, prelude := i.prelude, state })

/-- **A traced run is the run**, its records apart. -/
theorem Interpreter.erase_trace (fuel : Nat) (p : Program) (i : Interpreter η) :
    (i.trace fuel p).2 = i.interpret fuel p := by
  simp only [trace, interpret, ← Stmt.erase_traceAll, erase_apply]

end Statements

end DynScope
