import DynScope.Proofs.Effects

/-!
# DynScope.Proofs.Adequacy

**The events of an execution are the ones it really has.** `Stmt.RunsAll` is defined without
fuel and without a word about states. Where it gives a block some events, the block ends as
they say, with every amount of fuel that is large enough (`Stmt.RunsAll.endsAs`); and it gives
a block only one list of events from an environment (`Stmt.RunsAll.unique`). So the list that
explains a run, by `Stmt.execAll_explained`, is the only one.
-/

namespace DynScope

variable {η : Type}

/-! ### Whatever has its events ends -/

section Completeness

open Evaluation

variable [Host η] {texts : Interner} {s : State η}

/-- A primitive statement that completes ends in the state after its effect. -/
theorem Stmt.Completes.endsAs {st : Stmt} {effect : Effect η} {env' : Environment η}
    (h : Stmt.Completes texts s.env st effect) (henv : effect.carryOut s.env = .ok env') :
    EndsAs (st.exec texts · s) (.done () (s.advance [⟨st, effect⟩] env')) := by
  cases h with
  | @declare n e v hb hv =>
      obtain rfl : s.env.bind n v = env' :=
        Except.ok.inj ((Environment.declare_of_unbound hb v).symm.trans henv)
      simp only [Stmt.exec, bind_expectBound_false_apply, hb]
      refine .bind_done (hv s rfl) ?_
      simp only [rebind_declare_apply, hb]
      exact .of_done () _
  | @assign n e v hb hv =>
      obtain rfl : s.env.bind n v = env' :=
        Except.ok.inj ((Environment.assign_of_bound hb v).symm.trans henv)
      simp only [Stmt.exec, bind_expectBound_true_apply, hb]
      refine .bind_done (hv s rfl) ?_
      simp only [rebind_assign_apply, hb]
      exact .of_done () _
  | print hv =>
      obtain rfl : s.env = env' := Except.ok.inj henv
      simp only [Stmt.exec]
      exact .bind_done (hv s rfl) (.of_done () _)
  | function d =>
      simp only [Effect.carryOut] at henv
      simp only [Stmt.exec, rebind, henv]
      exact .of_done () _

/-- A loop ends as its rest does, once the condition has come to a value. -/
theorem Stmt.loop_endsAs {c : Expr} {b : Block} {v : Value η} {o : Outcome (State η) Unit}
    (hv : EndsAs (c.eval texts · s) (.done v s))
    (h : EndsAs (fun fuel => (if v.isTruthy then do
        Stmt.execAll texts (fuel + 1) b
        repeatWhile (Stmt.evalCondition texts (fuel + 1) c) (Stmt.execAll texts (fuel + 1) b) fuel
      else Pure.pure () : Evaluation η Unit) s) o) :
    EndsAs ((Stmt.loop c b).exec texts · s) o := by
  refine endsAs_succ_iff.mp ?_
  simp only [Stmt.exec, repeatWhile, Stmt.evalCondition, LawfulMonad.bind_assoc,
    LawfulMonad.pure_bind]
  exact .bind_done (endsAs_succ_iff.mpr hv) h

/-- A loop whose condition comes to a falsy value is done. -/
theorem Stmt.loop_endsAs_stop {c : Expr} {b : Block} {v : Value η}
    (hv : EndsAs (c.eval texts · s) (.done v s)) (htrue : v.isTruthy = false) :
    EndsAs ((Stmt.loop c b).exec texts · s) (.done () s) := by
  refine Stmt.loop_endsAs hv ?_
  simp only [htrue]
  exact .of_done () s

/-- A loop fails where its condition fails. -/
theorem Stmt.loop_endsAs_condition {c : Expr} {b : Block} {err : EvalError}
    (h : EndsAs (c.eval texts · s) (.failed err s)) :
    EndsAs ((Stmt.loop c b).exec texts · s) (.failed err s) := by
  refine endsAs_succ_iff.mp ?_
  simp only [Stmt.exec, repeatWhile, Stmt.evalCondition, LawfulMonad.bind_assoc]
  exact .bind_failed (endsAs_succ_iff.mpr h)

/-- A loop fails where its body fails. -/
theorem Stmt.loop_endsAs_body {c : Expr} {b : Block} {v : Value η} {err : EvalError}
    {s' : State η} (hv : EndsAs (c.eval texts · s) (.done v s)) (htrue : v.isTruthy = true)
    (h : EndsAs (Stmt.execAll texts · b s) (.failed err s')) :
    EndsAs ((Stmt.loop c b).exec texts · s) (.failed err s') := by
  refine Stmt.loop_endsAs hv ?_
  simp only [htrue, if_true]
  exact .bind_failed (endsAs_succ_iff.mpr h)

/-- A loop that has taken a turn ends as the loop does that starts after it. -/
theorem Stmt.loop_endsAs_turn {c : Expr} {b : Block} {v : Value η} {s₁ : State η}
    {o : Outcome (State η) Unit} (hv : EndsAs (c.eval texts · s) (.done v s))
    (htrue : v.isTruthy = true) (h : EndsAs (Stmt.execAll texts · b s) (.done () s₁))
    (hrest : EndsAs ((Stmt.loop c b).exec texts · s₁) o) :
    EndsAs ((Stmt.loop c b).exec texts · s) o := by
  refine Stmt.loop_endsAs hv ?_
  simp only [htrue, if_true]
  refine .bind_done (endsAs_succ_iff.mpr h) ?_
  -- The rest of the loop is left with one turn less, but with more fuel for every turn.
  refine hrest.of_approx fun fuel => ?_
  simp only [Stmt.exec]
  refine Approx.repeatWhile ?_ ?_ (Nat.le_refl fuel) _
  · exact Stmt.evalCondition_approx (Nat.le_succ fuel) _
  · exact Stmt.execAll_approx (Nat.le_succ fuel) _

/-- A statement that breaks ends in the state at hand. -/
theorem Stmt.Breaks.endsAs {st : Stmt} {err : EvalError} (h : Stmt.Breaks texts s.env st err) :
    EndsAs (st.exec texts · s) (.failed err s) := by
  cases h with
  | duplicate hb =>
      simp only [Stmt.exec, bind_expectBound_false_apply, hb]
      exact .of_failed _ s
  | initializer hb h =>
      simp only [Stmt.exec, bind_expectBound_false_apply, hb]
      exact .bind_failed (h s rfl)
  | unbound hb =>
      simp only [Stmt.exec, bind_expectBound_true_apply, hb]
      exact .of_failed _ s
  | source hb h =>
      simp only [Stmt.exec, bind_expectBound_true_apply, hb]
      exact .bind_failed (h s rfl)
  | print h =>
      simp only [Stmt.exec]
      exact .bind_failed (h s rfl)
  | condition h => exact Stmt.loop_endsAs_condition (h s rfl)
  | function hb =>
      simp only [Stmt.exec, rebind_declare_apply, hb]
      exact .of_failed _ s

mutual
theorem Stmt.Runs.endsAs : ∀ {env env' : Environment η} {st : Stmt} {es : List (Event η)}
    {error : Option EvalError}, Stmt.Runs texts env st es error env' → ∀ s : State η, s.env = env →
      EndsAs (st.exec texts · s) (.ended error (s.advance es env'))
  | _, _, _, _, _, .completes h henv, s, hs => by
      subst hs
      exact h.endsAs henv
  | _, _, _, _, _, .breaks h, s, hs => by
      subst hs
      rw [State.advance_nil]
      exact h.endsAs
  | _, _, _, _, _, .block h, s, hs => by
      simp only [Stmt.exec]
      exact h.endsAs s hs
  | _, _, _, _, _, .stop hv htrue, s, hs => by
      rw [← hs, State.advance_nil]
      exact Stmt.loop_endsAs_stop (hv s hs) htrue
  | _, _, _, _, _, .bodyBreaks hv htrue h, s, hs =>
      Stmt.loop_endsAs_body (hv s hs) htrue (h.endsAs s hs)
  | _, _, _, _, _, .turn hv htrue h h', s, hs => by
      rw [← State.advance_append]
      exact Stmt.loop_endsAs_turn (hv s hs) htrue (h.endsAs s hs) (h'.endsAs _ rfl)
theorem Stmt.RunsAll.endsAs : ∀ {env env' : Environment η} {b : Block} {es : List (Event η)}
    {error : Option EvalError}, Stmt.RunsAll texts env b es error env' →
    ∀ s : State η, s.env = env →
      EndsAs (Stmt.execAll texts · b s) (.ended error (s.advance es env'))
  | _, _, _, _, _, .nil, s, rfl => by
      rw [State.advance_nil]
      simp only [Stmt.execAll]
      exact .of_done () _
  | _, _, _, _, _, .headBreaks h, s, hs => by
      simp only [Stmt.execAll]
      exact .bind_failed (h.endsAs s hs)
  | _, _, _, _, _, .cons h h', s, hs => by
      simp only [Stmt.execAll]
      rw [← State.advance_append]
      exact .bind_done (h.endsAs s hs) (h'.endsAs _ rfl)
end

end Completeness

/-! ### The events are determined -/

section Uniqueness

variable [Host η] {texts : Interner} {env : Environment η}

/-- A state to evaluate in. -/
def Environment.bare (env : Environment η) : State η := ⟨env, #[], .discard⟩

theorem Expr.ComesTo.unique {e : Expr} {v v₂ : Value η} (h : Expr.ComesTo texts env e v)
    (h₂ : Expr.ComesTo texts env e v₂) : v = v₂ := by
  cases (h env.bare rfl).unique (h₂ env.bare rfl)
  rfl

theorem Expr.FailsWith.unique {e : Expr} {err err₂ : EvalError}
    (h : Expr.FailsWith texts env e err) (h₂ : Expr.FailsWith texts env e err₂) : err = err₂ := by
  cases (h env.bare rfl).unique (h₂ env.bare rfl)
  rfl

theorem Expr.ComesTo.not_failsWith {e : Expr} {v : Value η} {err : EvalError}
    (h : Expr.ComesTo texts env e v) : ¬ Expr.FailsWith texts env e err := fun h₂ =>
  nomatch (h env.bare rfl).unique (h₂ env.bare rfl)

theorem Stmt.Completes.unique {st : Stmt} {effect effect₂ : Effect η}
    (h : Stmt.Completes texts env st effect) (h₂ : Stmt.Completes texts env st effect₂) :
    effect = effect₂ := by
  cases h with
  | declare _ hv =>
      cases h₂ with
      | declare _ hv₂ => rw [hv.unique hv₂]
  | assign _ hv =>
      cases h₂ with
      | assign _ hv₂ => rw [hv.unique hv₂]
  | print hv =>
      cases h₂ with
      | print hv₂ => rw [hv.unique hv₂]
  | function d =>
      cases h₂
      rfl

theorem Stmt.Completes.not_breaks {st : Stmt} {effect : Effect η} {env' : Environment η}
    {err : EvalError} (h : Stmt.Completes texts env st effect)
    (henv : effect.carryOut env = .ok env') : ¬ Stmt.Breaks texts env st err := by
  intro hbreaks
  cases hbreaks with
  | duplicate hb =>
      cases h with
      | declare hfree _ => simp [hb] at hfree
  | initializer _ hfails =>
      cases h with
      | declare _ hv => exact hv.not_failsWith hfails
  | unbound hb =>
      cases h with
      | assign hbound _ => simp [hb] at hbound
  | source _ hfails =>
      cases h with
      | assign _ hv => exact hv.not_failsWith hfails
  | print hfails =>
      cases h with
      | print hv => exact hv.not_failsWith hfails
  | condition _ => cases h
  | function hb =>
      cases h with
      | function d => simp [Effect.carryOut, Environment.declare, hb] at henv

theorem Stmt.Breaks.unique {st : Stmt} {err err₂ : EvalError} (h : Stmt.Breaks texts env st err)
    (h₂ : Stmt.Breaks texts env st err₂) : err = err₂ := by
  -- Both failures are how the statement ends.
  cases (Stmt.Breaks.endsAs (s := env.bare) h).unique (Stmt.Breaks.endsAs (s := env.bare) h₂)
  rfl

mutual
theorem Stmt.Runs.unique : ∀ {env env' env₂ : Environment η} {st : Stmt}
    {es es₂ : List (Event η)} {error error₂ : Option EvalError},
    Stmt.Runs texts env st es error env' → Stmt.Runs texts env st es₂ error₂ env₂ →
      es = es₂ ∧ error = error₂ ∧ env' = env₂
  | _, _, _, _, _, _, _, _, .completes h henv, h₂ => by
      cases h₂ with
      | completes h₂ henv₂ =>
          obtain rfl := h.unique h₂
          exact ⟨rfl, rfl, Except.ok.inj (henv.symm.trans henv₂)⟩
      | breaks h₂ => exact (h.not_breaks henv h₂).elim
      | block _ | stop _ _ | bodyBreaks _ _ _ | turn _ _ _ _ => cases h
  | _, _, _, _, _, _, _, _, .breaks h, h₂ => by
      cases h₂ with
      | completes h₂ henv₂ => exact (h₂.not_breaks henv₂ h).elim
      | breaks h₂ => exact ⟨rfl, congrArg some (h.unique h₂), rfl⟩
      | block _ => cases h
      | stop hv _ | bodyBreaks hv _ _ | turn hv _ _ _ =>
          cases h with
          | condition h => exact (hv.not_failsWith h).elim
  | _, _, _, _, _, _, _, _, .block h, h₂ => by
      cases h₂ with
      | completes h₂ _ => cases h₂
      | breaks h₂ => cases h₂
      | block h₂ => exact h.unique h₂
  | _, _, _, _, _, _, _, _, .stop hv htrue, h₂ => by
      cases h₂ with
      | completes h₂ _ => cases h₂
      | breaks h₂ =>
          cases h₂ with
          | condition h₂ => exact (hv.not_failsWith h₂).elim
      | stop _ _ => exact ⟨rfl, rfl, rfl⟩
      | bodyBreaks hv₂ htrue₂ _ | turn hv₂ htrue₂ _ _ =>
          simp [hv.unique hv₂, htrue₂] at htrue
  | _, _, _, _, _, _, _, _, .bodyBreaks hv htrue h, h₂ => by
      cases h₂ with
      | completes h₂ _ => cases h₂
      | breaks h₂ =>
          cases h₂ with
          | condition h₂ => exact (hv.not_failsWith h₂).elim
      | stop hv₂ htrue₂ => simp [hv.unique hv₂, htrue₂] at htrue
      | bodyBreaks _ _ h₂ => exact h.unique h₂
      | turn _ _ h₂ _ =>
          obtain ⟨-, herror, -⟩ := h.unique h₂
          cases herror
  | _, _, _, _, _, _, _, _, .turn hv htrue h h', h₂ => by
      cases h₂ with
      | completes h₂ _ => cases h₂
      | breaks h₂ =>
          cases h₂ with
          | condition h₂ => exact (hv.not_failsWith h₂).elim
      | stop hv₂ htrue₂ => simp [hv.unique hv₂, htrue₂] at htrue
      | bodyBreaks _ _ h₂ =>
          obtain ⟨-, herror, -⟩ := h.unique h₂
          cases herror
      | turn _ _ h₂ h₂' =>
          obtain ⟨rfl, -, rfl⟩ := h.unique h₂
          obtain ⟨rfl, rfl, rfl⟩ := h'.unique h₂'
          exact ⟨rfl, rfl, rfl⟩
/-- **The events are determined.** A block makes one list of events from an environment, and
ends in one way. -/
theorem Stmt.RunsAll.unique : ∀ {env env' env₂ : Environment η} {b : Block}
    {es es₂ : List (Event η)} {error error₂ : Option EvalError},
    Stmt.RunsAll texts env b es error env' → Stmt.RunsAll texts env b es₂ error₂ env₂ →
      es = es₂ ∧ error = error₂ ∧ env' = env₂
  | _, _, _, _, _, _, _, _, .nil, .nil => ⟨rfl, rfl, rfl⟩
  | _, _, _, _, _, _, _, _, .headBreaks h, h₂ => by
      cases h₂ with
      | headBreaks h₂ => exact h.unique h₂
      | cons h₂ _ =>
          obtain ⟨-, herror, -⟩ := h.unique h₂
          cases herror
  | _, _, _, _, _, _, _, _, .cons h h', h₂ => by
      cases h₂ with
      | headBreaks h₂ =>
          obtain ⟨-, herror, -⟩ := h.unique h₂
          cases herror
      | cons h₂ h₂' =>
          obtain ⟨rfl, -, rfl⟩ := h.unique h₂
          obtain ⟨rfl, rfl, rfl⟩ := h'.unique h₂'
          exact ⟨rfl, rfl, rfl⟩
end

end Uniqueness

end DynScope
