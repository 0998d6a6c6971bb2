import DynScope.Proofs.Effects
import Mathlib.Data.List.Forall2

/-!
# DynScope.Proofs.Points

**The points of an evaluation.** While an expression is evaluated, other expressions are:
its parts, in the environment at hand, and the bodies of the functions that it calls, each
in an overlay on the environment of its call. `Expr.Reaches` says which ones are, in which
environment, and during which calls. It speaks of evaluations that fail or never end as well
as of those that come to a value.

Whatever is reached is really evaluated: if it fails, then the whole evaluation fails with
its error (`Expr.Reaches.failsWith`).
-/

namespace DynScope

variable {η : Type}

/-- A call of a user-defined function, with the values of its arguments. -/
structure Call (η : Type) where
  /-- The function. -/
  decl : FunctionDecl
  /-- The values of the arguments in order. -/
  args : List (Value η)

/-- The environment of the body of a call that is made in `env`. -/
def Call.enter (c : Call η) (env : Environment η) : Environment η :=
  env.snapshot.2.bindAll c.decl.params c.args

section Relation

variable [Host η] (texts : Interner) (env : Environment η)

/-- The expressions come to the values, one by one. -/
def Expr.AllComeTo : List Expr → List (Value η) → Prop := List.Forall₂ (Expr.ComesTo texts env)

/-- To evaluate the first expression is to evaluate the second one on the way, in the same
environment: what stands before it has come to values that lead there. -/
inductive Expr.Part : Expr → Expr → Prop
  | left {op l r} : Expr.Part (.binary op l r) l
  | right {op l r v} : Expr.ComesTo texts env l v → Expr.Part (.binary op l r) r
  | operand {op e} : Expr.Part (.unary op e) e
  | test {t c a} : Expr.Part (.conditional t c a) t
  | consequent {t c a v} : Expr.ComesTo texts env t v → v.isTruthy = true →
      Expr.Part (.conditional t c a) c
  | alternate {t c a v} : Expr.ComesTo texts env t v → v.isTruthy = false →
      Expr.Part (.conditional t c a) a
  | hostArgument {callee b before e after vs} : env.lookup? callee = some (.builtin b) →
      Expr.AllComeTo texts env before vs → Expr.Part (.call callee (before ++ e :: after)) e
  | argument {callee d before e after vs} : env.lookup? callee = some (.function d) →
      (before ++ e :: after).length = d.arity → Expr.AllComeTo texts env before vs →
      Expr.Part (.call callee (before ++ e :: after)) e
  | element {before e after vs} : Expr.AllComeTo texts env before vs →
      Expr.Part (.array (before ++ e :: after)) e
  | base {b i} : Expr.Part (.subscript b i) b
  | index {b i v} : Expr.ComesTo texts env b v → Expr.Part (.subscript b i) i

/-- To evaluate the expression is to make the call: its arguments have come to values. -/
inductive Expr.Invokes : Expr → Call η → Prop
  | call {callee d args vs} : env.lookup? callee = some (.function d) →
      args.length = d.arity → Expr.AllComeTo texts env args vs →
      Expr.Invokes (.call callee args) ⟨d, vs⟩

/-- To evaluate `e` in `env` is to evaluate an expression in an environment, in the course of
some calls, the innermost of which comes first. -/
inductive Expr.Reaches (e : Expr) : List (Call η) → Environment η → Expr → Prop
  | here : Expr.Reaches e [] env e
  | part {calls env' e' e''} : Expr.Reaches e calls env' e' → Expr.Part texts env' e' e'' →
      Expr.Reaches e calls env' e''
  | body {calls env' e' c} : Expr.Reaches e calls env' e' → Expr.Invokes texts env' e' c →
      Expr.Reaches e (c :: calls) (c.enter env') c.decl.body

end Relation

/-! ### Frames -/

theorem Call.globals_enter (c : Call η) (env : Environment η) :
    (c.enter env).globals = env.globals := by
  obtain ⟨hglobals, -⟩ :=
    Environment.bindAll_overlay c.decl.params c.args (Environment.overlays_snapshot env)
  exact hglobals

section Reached

variable [Host η] {texts : Interner} {env env' : Environment η} {e e' : Expr}
  {calls : List (Call η)}

/-- **Calls leave the top level alone.** However deep in calls a point is, the global frame is
the one that the evaluation started with. -/
theorem Expr.Reaches.globals_eq (h : Expr.Reaches texts env e calls env' e') :
    env'.globals = env.globals := by
  induction h with
  | here => rfl
  | part _ _ ih => exact ih
  | body _ _ ih => rw [Call.globals_enter, ih]

/-! ### A failure at a point is the failure of the whole -/

theorem Expr.evalAll_comeTo {es : List Expr} {vs : List (Value η)}
    (h : Expr.AllComeTo texts env es vs) (s : State η) (hs : s.env = env) :
    EndsAs (fun fuel => Expr.evalAllWith texts (applyFunction texts fuel) es s) (.done vs s) := by
  induction h with
  | nil =>
      simp only [Expr.evalAllWith]
      exact .of_done [] s
  | cons hv _ ih =>
      simp only [Expr.evalAllWith]
      exact .bind_done (hv s hs) (.bind_done ih (.of_done _ s))

theorem Expr.evalAll_failsWith {before after : List Expr} {vs : List (Value η)}
    {err : EvalError} (hbefore : Expr.AllComeTo texts env before vs)
    (he : Expr.FailsWith texts env e err) (s : State η) (hs : s.env = env) :
    EndsAs (fun fuel => Expr.evalAllWith texts (applyFunction texts fuel) (before ++ e :: after) s)
      (.failed err s) := by
  induction hbefore with
  | nil =>
      simp only [List.nil_append, Expr.evalAllWith]
      exact .bind_failed (he s hs)
  | cons hv _ ih =>
      simp only [List.cons_append, Expr.evalAllWith]
      exact .bind_done (hv s hs) (.bind_failed ih)

theorem Expr.Part.failsWith {err : EvalError} (h : Expr.Part texts env e e')
    (hfails : Expr.FailsWith texts env e' err) : Expr.FailsWith texts env e err := by
  intro s hs
  cases h with
  | left =>
      simp only [Expr.eval, Expr.evalWith]
      exact .bind_failed (hfails s hs)
  | right hl =>
      simp only [Expr.eval, Expr.evalWith]
      exact .bind_done (hl s hs) (.bind_failed (hfails s hs))
  | operand =>
      simp only [Expr.eval, Expr.evalWith]
      exact .bind_failed (hfails s hs)
  | test =>
      simp only [Expr.eval, Expr.evalWith]
      exact .bind_failed (hfails s hs)
  | consequent ht htrue =>
      simp only [Expr.eval, Expr.evalWith]
      refine .bind_done (ht s hs) ?_
      simp only [htrue, if_true]
      exact hfails s hs
  | alternate ht htrue =>
      simp only [Expr.eval, Expr.evalWith]
      refine .bind_done (ht s hs) ?_
      simp only [htrue]
      exact hfails s hs
  | hostArgument hcallee hbefore =>
      simp only [Expr.eval, Expr.evalWith]
      refine .bind_done (Evaluation.endsAs_lookup texts (hs ▸ hcallee)) ?_
      exact .bind_failed (Expr.evalAll_failsWith hbefore hfails s hs)
  | argument hcallee harity hbefore =>
      simp only [Expr.eval, Expr.evalWith]
      refine .bind_done (Evaluation.endsAs_lookup texts (hs ▸ hcallee)) ?_
      simp only [harity, if_true]
      exact .bind_failed (Expr.evalAll_failsWith hbefore hfails s hs)
  | element hbefore =>
      simp only [Expr.eval, Expr.evalWith]
      exact .bind_failed (Expr.evalAll_failsWith hbefore hfails s hs)
  | base =>
      simp only [Expr.eval, Expr.evalWith]
      exact .bind_failed (hfails s hs)
  | index hb =>
      simp only [Expr.eval, Expr.evalWith]
      exact .bind_done (hb s hs) (.bind_failed (hfails s hs))

/-- A body that fails in the overlay of a call makes the call fail, in the caller's state. -/
theorem Call.failsWith {c : Call η} {err : EvalError}
    (h : Expr.FailsWith texts (c.enter env) c.decl.body err) (s : State η) (hs : s.env = env) :
    EndsAs (applyFunction texts · c.decl c.args s) (.failed err s) := by
  refine endsAs_succ_iff.mp ?_
  obtain ⟨-, least, hbody⟩ := h { s with env := c.enter env } rfl
  refine ⟨Outcome.failed_ne_outOfFuel err s, least, fun fuel hle => ?_⟩
  have hrestore := Environment.restore_bindAll_snapshot c.decl.params c.args env
  have hframe : s.env.snapshot.2.bindAll c.decl.params c.args = c.enter env := by
    rw [hs, Call.enter]
  have hback : (c.enter env).restore s.env.snapshot.1 = s.env := by
    rw [hs]
    exact hrestore
  have hend := hbody fuel hle
  simp only [Expr.eval] at hend
  simp only [applyFunction, Evaluation.withFrame, Evaluation.bind_apply, Evaluation.modifyEnv,
    hframe, hend, Outcome.mapState, hback]

theorem Expr.Invokes.failsWith {c : Call η} {err : EvalError} (h : Expr.Invokes texts env e c)
    (hfails : Expr.FailsWith texts (c.enter env) c.decl.body err) :
    Expr.FailsWith texts env e err := by
  intro s hs
  cases h with
  | call hcallee harity hargs =>
      simp only [Expr.eval, Expr.evalWith]
      refine .bind_done (Evaluation.endsAs_lookup texts (hs ▸ hcallee)) ?_
      simp only [harity, if_true]
      exact .bind_done (Expr.evalAll_comeTo hargs s hs) (Call.failsWith hfails s hs)

/-- **Whatever is reached is evaluated.** If it fails, the whole evaluation fails with its
error, from however deep in calls. -/
theorem Expr.Reaches.failsWith {err : EvalError} (h : Expr.Reaches texts env e calls env' e')
    (hfails : Expr.FailsWith texts env' e' err) : Expr.FailsWith texts env e err := by
  induction h with
  | here => exact hfails
  | part _ hpart ih => exact ih (hpart.failsWith hfails)
  | body _ hcall ih => exact ih (hcall.failsWith hfails)

end Reached

end DynScope
