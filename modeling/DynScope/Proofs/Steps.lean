import DynScope.Proofs.Purity

/-!
# DynScope.Proofs.Steps

**What executions are made of.** Whatever a statement does comes down to four kinds of steps,
put in sequence: looking at the bindings, giving a value to a name that has none, giving a
new one to a name that has one, and printing. A property of steps that these four have and
that sequencing keeps (`Evaluation.Compositional`) is one of every execution.

The induction over the statements and over the turns of loops is made here once.
-/

namespace DynScope

variable {η : Type}

namespace Evaluation

/-- A property of steps that statements pass on from their parts to the whole. -/
structure Compositional (P : ∀ α : Type, Evaluation η α → Prop) : Prop where
  bind : ∀ {α β : Type} {m : Evaluation η α} {f : α → Evaluation η β},
    P α m → (∀ a, P β (f a)) → P β (m >>= f)
  reading : ∀ {α : Type} (r : Copying.Store η → Copying.Result α), P α (reading r)
  declare : ∀ texts n v, P Unit (rebind texts n (·.declare n v))
  assign : ∀ texts n v, P Unit (rebind texts n (·.assign n v))
  print : ∀ v, P Unit (print v)

/-- To check whether a name is bound is to look at the bindings. -/
theorem expectBound_eq_reading (texts : Interner) (n : Name) (expected : Bool) :
    (expectBound texts n expected : Evaluation η Unit) = reading fun m =>
      match expected, (m n).isSome with
      | true, false => throw (BindingError.unbound.report texts n)
      | false, true => throw (BindingError.duplicate.report texts n)
      | _, _ => Pure.pure () := by
  funext s
  simp only [expectBound, reading, Environment.isBound]
  cases expected <;> cases (s.env.lookup? n).isSome <;> rfl

namespace Compositional

variable {P : ∀ α : Type, Evaluation η α → Prop}

theorem pure (h : Compositional P) {α : Type} (a : α) : P α (Pure.pure a) := by
  rw [← reading_pure]
  exact h.reading _

theorem expectBound (h : Compositional P) (texts : Interner) (n : Name) (expected : Bool) :
    P Unit (expectBound texts n expected) := by
  rw [expectBound_eq_reading]
  exact h.reading _

theorem repeatWhile (h : Compositional P) {condition : Evaluation η Bool}
    {body : Evaluation η Unit} (hc : P Bool condition) (hb : P Unit body) (turns : Nat) :
    P Unit (repeatWhile condition body turns) := by
  induction turns with
  | zero =>
      -- Giving up is a reading too, of the result that there is none.
      have hnone : (exhausted : Evaluation η Unit) = Evaluation.reading fun _ => none := rfl
      rw [Evaluation.repeatWhile, hnone]
      exact h.reading _
  | succ turns ih =>
      rw [Evaluation.repeatWhile]
      refine h.bind hc fun v => ?_
      cases v with
      | false => exact h.pure ()
      | true => exact h.bind hb fun _ => ih

end Compositional

end Evaluation

section Statements

open Evaluation

variable [Host η] {P : ∀ α : Type, Evaluation η α → Prop}

theorem Expr.eval_of_compositional (h : Compositional P) (texts : Interner) (fuel : Nat)
    (e : Expr) : P (Value η) (e.eval texts fuel) := by
  rw [Expr.eval_eq_reading]
  exact h.reading _

mutual
theorem Stmt.exec_of_compositional (h : Compositional P) (texts : Interner) (fuel : Nat) :
    ∀ st : Stmt, P Unit (st.exec texts fuel)
  | .block body => by
      simp only [Stmt.exec]
      exact Stmt.execAll_of_compositional h texts fuel body
  | .declare n e => by
      have he := Expr.eval_of_compositional h texts fuel e
      simp only [Stmt.exec]
      exact h.bind (h.expectBound _ _ _) fun _ => h.bind he fun v => h.declare texts n v
  | .assign n e => by
      have he := Expr.eval_of_compositional h texts fuel e
      simp only [Stmt.exec]
      exact h.bind (h.expectBound _ _ _) fun _ => h.bind he fun v => h.assign texts n v
  | .print e => by
      have he := Expr.eval_of_compositional h texts fuel e
      simp only [Stmt.exec]
      exact h.bind he h.print
  | .loop condition body => by
      have hcondition := Expr.eval_of_compositional h texts fuel condition
      have hbody := Stmt.execAll_of_compositional h texts fuel body
      simp only [Stmt.exec, Stmt.evalCondition]
      exact h.repeatWhile (h.bind hcondition fun v => h.pure v.isTruthy) hbody fuel
  | .function d => by
      simp only [Stmt.exec]
      exact h.declare texts d.name (.function d)
/-- A property that the four kinds of steps have and that sequencing keeps is one of every
execution. -/
theorem Stmt.execAll_of_compositional (h : Compositional P) (texts : Interner) (fuel : Nat) :
    ∀ b : Block, P Unit (Stmt.execAll texts fuel b)
  | [] => by
      simp only [Stmt.execAll]
      exact h.pure ()
  | st :: rest => by
      simp only [Stmt.execAll]
      exact h.bind (Stmt.exec_of_compositional h texts fuel st) fun _ =>
        Stmt.execAll_of_compositional h texts fuel rest
end

end Statements

end DynScope
