import DynScope.Proofs.Adequacy
import DynScope.Proofs.Transition

/-!
# DynScope.Proofs.Replay

**A finished run is the replay of what completed in it.** However deep in blocks, loops and
calls a run ends, and whether it succeeds or fails, the statements that completed have left
exactly their effects: the bindings at the end are those effects on a fresh environment, one
after the other, and what was printed are the printed values (`Interpreter.interpret_replays`).

How it works: `Event.Chain` is a sequence of events of which each completes where the ones
before it have led. The events of every execution form one (`Stmt.RunsAll.chain`), whatever
the shape of the program, and an execution that fails does so in a statement of the program
that breaks at the end of the chain (`Stmt.RunsAll.culprit`).
-/

namespace DynScope

variable {η : Type}

/-! ### The statements of a program -/

mutual
/-- A statement with all the statements inside it. -/
def Stmt.parts : Stmt → List Stmt
  | .block b => .block b :: Stmt.partsAll b
  | .loop c b => .loop c b :: Stmt.partsAll b
  | .declare n e => [.declare n e]
  | .assign n e => [.assign n e]
  | .print e => [.print e]
  | .function d => [.function d]
/-- The statements of a block with all the statements inside them. -/
def Stmt.partsAll : Block → List Stmt
  | [] => []
  | st :: rest => st.parts ++ Stmt.partsAll rest
end

namespace Stmt

variable {st part : Stmt} {b : Block}

theorem mem_parts_self (st : Stmt) : st ∈ st.parts := by
  cases st <;> simp [parts]

theorem mem_parts_block (h : part ∈ partsAll b) : part ∈ (Stmt.block b).parts := by
  rw [parts]
  exact List.mem_cons_of_mem _ h

theorem mem_parts_loop {c : Expr} (h : part ∈ partsAll b) : part ∈ (Stmt.loop c b).parts := by
  rw [parts]
  exact List.mem_cons_of_mem _ h

theorem mem_partsAll_head (h : part ∈ st.parts) : part ∈ partsAll (st :: b) := by
  rw [partsAll]
  exact List.mem_append_left _ h

theorem mem_partsAll_tail (h : part ∈ partsAll b) : part ∈ partsAll (st :: b) := by
  rw [partsAll]
  exact List.mem_append_right _ h

end Stmt

/-! ### Chains of events -/

section Chain

variable [Host η] (texts : Interner)

/-- Each of the events completes in the environment that those before it have led to. -/
inductive Event.Chain : Environment η → List (Event η) → Environment η → Prop
  | nil {env} : Event.Chain env [] env
  | cons {env env₁ env' e rest} : Stmt.Completes texts env e.stmt e.effect →
      e.effect.carryOut env = .ok env₁ → Event.Chain env₁ rest env' →
      Event.Chain env (e :: rest) env'

variable {texts} {env env₁ env' : Environment η}

namespace Event.Chain

theorem append {es es' : List (Event η)} (h : Chain texts env es env₁)
    (h' : Chain texts env₁ es' env') : Chain texts env (es ++ es') env' := by
  induction h with
  | nil => exact h'
  | cons hdone henv _ ih => exact .cons hdone henv (ih h')

/-- A chain may be taken apart anywhere. -/
theorem split {before after : List (Event η)} (h : Chain texts env (before ++ after) env') :
    ∃ env₁, Chain texts env before env₁ ∧ Chain texts env₁ after env' := by
  induction before generalizing env with
  | nil => exact ⟨env, .nil, h⟩
  | cons e rest ih =>
      cases h with
      | cons hdone henv hrest =>
          obtain ⟨env₂, hbefore, hafter⟩ := ih hrest
          exact ⟨env₂, .cons hdone henv hbefore, hafter⟩

/-- A chain leads where the replay of its events leads. -/
theorem replay_eq {es : List (Event η)} (h : Chain texts env es env') :
    env.replay es = .ok env' := by
  induction h with
  | nil => rfl
  | cons _ henv _ ih =>
      rw [Environment.replay, henv]
      exact ih

/-- Every event of a chain completes in the environment that replaying the earlier ones
makes. -/
theorem completes_of_split {es before after : List (Event η)} {e : Event η}
    (h : Chain texts env es env') (hes : es = before ++ e :: after) :
    ∃ env₁, env.replay before = .ok env₁ ∧ Stmt.Completes texts env₁ e.stmt e.effect := by
  subst hes
  obtain ⟨env₁, hbefore, hafter⟩ := h.split
  cases hafter with
  | cons hdone _ _ => exact ⟨env₁, hbefore.replay_eq, hdone⟩

end Event.Chain

end Chain

/-! ### The events of an execution -/

section Executions

variable [Host η] {texts : Interner}

mutual
theorem Stmt.Runs.chain : ∀ {env env' : Environment η} {st : Stmt} {es : List (Event η)}
    {error : Option EvalError}, Stmt.Runs texts env st es error env' →
      Event.Chain texts env es env'
  | _, _, _, _, _, .completes h henv => .cons h henv .nil
  | _, _, _, _, _, .breaks _ => .nil
  | _, _, _, _, _, .block h => h.chain
  | _, _, _, _, _, .stop _ _ => .nil
  | _, _, _, _, _, .bodyBreaks _ _ h => h.chain
  | _, _, _, _, _, .turn _ _ h h' => h.chain.append h'.chain
/-- The events of an execution form a chain from its start to its end. -/
theorem Stmt.RunsAll.chain : ∀ {env env' : Environment η} {b : Block} {es : List (Event η)}
    {error : Option EvalError}, Stmt.RunsAll texts env b es error env' →
      Event.Chain texts env es env'
  | _, _, _, _, _, .nil => .nil
  | _, _, _, _, _, .headBreaks h => h.chain
  | _, _, _, _, _, .cons h h' => h.chain.append h'.chain
end

mutual
theorem Stmt.Runs.mem_parts : ∀ {env env' : Environment η} {st : Stmt} {es : List (Event η)}
    {error : Option EvalError}, Stmt.Runs texts env st es error env' →
      ∀ e ∈ es, e.stmt ∈ st.parts
  | _, _, st, _, _, .completes _ _, e, he => by
      rw [List.mem_singleton.mp he]
      exact st.mem_parts_self
  | _, _, _, _, _, .breaks _, e, he => nomatch he
  | _, _, _, _, _, .block h, e, he => Stmt.mem_parts_block (h.mem_partsAll e he)
  | _, _, _, _, _, .stop _ _, e, he => nomatch he
  | _, _, _, _, _, .bodyBreaks _ _ h, e, he => Stmt.mem_parts_loop (h.mem_partsAll e he)
  | _, _, _, _, _, .turn _ _ h h', e, he => by
      rcases List.mem_append.mp he with he | he
      · exact Stmt.mem_parts_loop (h.mem_partsAll e he)
      · exact h'.mem_parts e he
/-- Whatever completes stands in the program. -/
theorem Stmt.RunsAll.mem_partsAll : ∀ {env env' : Environment η} {b : Block}
    {es : List (Event η)} {error : Option EvalError}, Stmt.RunsAll texts env b es error env' →
      ∀ e ∈ es, e.stmt ∈ Stmt.partsAll b
  | _, _, _, _, _, .nil, e, he => nomatch he
  | _, _, _, _, _, .headBreaks h, e, he => Stmt.mem_partsAll_head (h.mem_parts e he)
  | _, _, _, _, _, .cons h h', e, he => by
      rcases List.mem_append.mp he with he | he
      · exact Stmt.mem_partsAll_head (h.mem_parts e he)
      · exact Stmt.mem_partsAll_tail (h'.mem_partsAll e he)
end

mutual
theorem Stmt.Runs.culprit : ∀ {env env' : Environment η} {st : Stmt} {es : List (Event η)}
    {error : Option EvalError}, Stmt.Runs texts env st es error env' → ∀ err, error = some err →
      ∃ culprit ∈ st.parts, Stmt.Breaks texts env' culprit err
  | _, _, _, _, _, .completes _ _, _, herr => nomatch herr
  | _, _, st, _, _, .breaks h, err, herr => ⟨st, st.mem_parts_self, Option.some.inj herr ▸ h⟩
  | _, _, _, _, _, .block h, err, herr => by
      obtain ⟨culprit, hmem, hbreaks⟩ := h.culprit err herr
      exact ⟨culprit, Stmt.mem_parts_block hmem, hbreaks⟩
  | _, _, _, _, _, .stop _ _, _, herr => nomatch herr
  | _, _, _, _, _, .bodyBreaks _ _ h, err, herr => by
      obtain ⟨culprit, hmem, hbreaks⟩ := h.culprit err herr
      exact ⟨culprit, Stmt.mem_parts_loop hmem, hbreaks⟩
  | _, _, _, _, _, .turn _ _ _ h', err, herr => h'.culprit err herr
/-- An execution that fails does so in one of its statements, in the environment that the
completed ones have left. -/
theorem Stmt.RunsAll.culprit : ∀ {env env' : Environment η} {b : Block} {es : List (Event η)}
    {error : Option EvalError}, Stmt.RunsAll texts env b es error env' →
      ∀ err, error = some err → ∃ culprit ∈ Stmt.partsAll b, Stmt.Breaks texts env' culprit err
  | _, _, _, _, _, .nil, _, herr => nomatch herr
  | _, _, _, _, _, .headBreaks h, err, herr => by
      obtain ⟨culprit, hmem, hbreaks⟩ := h.culprit err herr
      exact ⟨culprit, Stmt.mem_partsAll_head hmem, hbreaks⟩
  | _, _, _, _, _, .cons _ h', err, herr => by
      obtain ⟨culprit, hmem, hbreaks⟩ := h'.culprit err herr
      exact ⟨culprit, Stmt.mem_partsAll_tail hmem, hbreaks⟩
end

end Executions

/-! ### Runs -/

section Runs

variable [Host η]

/-- When the value is there, the target is bound or not as it was before: the second look at
it, on declaring or assigning, never refuses what the first one let pass. -/
theorem Expr.second_look {texts : Interner} {fuel : Nat} {e : Expr} {s s' : State η}
    {v : Value η} (h : e.eval texts fuel s = .done v s') (n : Name) :
    (s.env.isBound n = false → s'.env.declare n v = .ok (s'.env.bind n v)) ∧
      (s.env.isBound n = true → s'.env.assign n v = .ok (s'.env.bind n v)) := by
  have hstate : (e.eval texts fuel s).state? = some s' := by
    rw [h]
    rfl
  obtain rfl := Expr.state_eq_of_eval hstate
  constructor
  · intro hb
    exact Environment.declare_of_unbound hb v
  · intro hb
    exact Environment.assign_of_bound hb v

/-- A run diverges, or it ends as its body does that makes some events. -/
theorem Interpreter.interpret_explained (i : Interpreter η) (p : Program) :
    Diverges (i.interpret · p) ∨
      ∃ (i' : Interpreter η) (error : Option EvalError) (es : List (Event η)),
        EndsAs (i.interpret · p) (.ended error i') ∧
        Stmt.RunsAll (i.prelude.environment i.interner).1 (i.prelude.environment i.interner).2
          p.body es error i'.env ∧
        i'.output = Event.printed es ∧
        i'.state.sink = (Event.printed es).foldl (fun k v => k.writeLine v.display)
          i.state.sink := by
  by_cases hd : Diverges (i.interpret · p)
  · exact Or.inl hd
  obtain ⟨fuel, hne⟩ := Classical.not_forall.mp hd
  have hends := (i.interpret_fuelMonotone p).endsAs hne
  let start : State η :=
    { env := (i.prelude.environment i.interner).2, output := #[], sink := i.state.sink }
  have hrun : i.interpret fuel p =
      (Stmt.execAll (i.prelude.environment i.interner).1 fuel p.body start).mapState fun state =>
        { interner := (i.prelude.environment i.interner).1, prelude := i.prelude, state } := rfl
  rcases Stmt.execAll_explained (i.prelude.environment i.interner).1 fuel p.body start with
    h | ⟨es, error, env', hes, h⟩
  · exact absurd (hrun.trans (congrArg _ h)) hne
  · rw [hrun, h, Outcome.mapState_ended] at hends
    refine Or.inr ⟨_, error, es, hends, hes, ?_, rfl⟩
    simp [Interpreter.output, State.advance, start]

theorem Outcome.ended_ne_outOfFuel {σ : Type} (error : Option EvalError) (s : σ) :
    Outcome.ended error s ≠ .outOfFuel := by
  cases error with
  | none => exact Outcome.done_ne_outOfFuel () s
  | some err => exact Outcome.failed_ne_outOfFuel err s

theorem Outcome.ended_inj {σ : Type} {error error' : Option EvalError} {s s' : σ}
    (h : Outcome.ended error s = .ended error' s') : error = error' ∧ s = s' := by
  cases error <;> cases error' <;> cases h
  · exact ⟨rfl, rfl⟩
  · exact ⟨rfl, rfl⟩

/-- A run that ends with some fuel ends as its body does that makes some events. -/
theorem Interpreter.exists_runsAll {i i' : Interpreter η} {p : Program} {fuel : Nat}
    {error : Option EvalError} (h : i.interpret fuel p = .ended error i') :
    ∃ es, Stmt.RunsAll (i.prelude.environment i.interner).1 (i.prelude.environment i.interner).2
        p.body es error i'.env ∧
      i'.output = Event.printed es ∧
      i'.state.sink = (Event.printed es).foldl (fun k v => k.writeLine v.display)
        i.state.sink := by
  have hne := Outcome.ended_ne_outOfFuel error i'
  have hends : EndsAs (i.interpret · p) (.ended error i') := by
    rw [← h]
    exact (i.interpret_fuelMonotone p).endsAs (h ▸ hne)
  rcases i.interpret_explained p with hd | ⟨i'', error', es, hends', hruns, houtput, hsink⟩
  · exact absurd (h.symm.trans (hd fuel)) hne
  · obtain ⟨rfl, rfl⟩ := Outcome.ended_inj (hends.unique hends')
    exact ⟨es, hruns, houtput, hsink⟩

/-- **A finished run is the replay of what completed in it.** A run diverges, or it ends in
success or failure with one list of events, which are the primitive statements that completed.
Having their effects on a fresh environment, one after the other, makes the environment at the
end; what was printed are the printed values, and the sink got their lines. Each event is that
of a statement of the program, whose expression comes to the value in question in the
environment that replaying the earlier events makes. If the run failed, then a statement of
the program breaks in the environment that all of them make; and that is never for the second
look that declarations and assignments take at their target. -/
theorem Interpreter.interpret_replays (i : Interpreter η) (p : Program) :
    Diverges (i.interpret · p) ∨
      ∃ (i' : Interpreter η) (error : Option EvalError) (es : List (Event η)),
        let texts := (i.prelude.environment i.interner).1
        let fresh := (i.prelude.environment i.interner).2
        EndsAs (i.interpret · p) (.ended error i') ∧
        Stmt.RunsAll texts fresh p.body es error i'.env ∧
        (∀ es₂ error₂ env₂, Stmt.RunsAll texts fresh p.body es₂ error₂ env₂ → es = es₂) ∧
        fresh.replay es = .ok i'.env ∧
        i'.output = Event.printed es ∧
        i'.state.sink = (Event.printed es).foldl (fun k v => k.writeLine v.display)
          i.state.sink ∧
        (∀ before e after, es = before ++ e :: after → e.stmt ∈ Stmt.partsAll p.body ∧
          ∃ env, fresh.replay before = .ok env ∧ Stmt.Completes texts env e.stmt e.effect) ∧
        (∀ err, error = some err →
          ∃ culprit ∈ Stmt.partsAll p.body, Stmt.Breaks texts i'.env culprit err) ∧
        ∀ (fuel : Nat) (e : Expr) (s s' : State η) (v : Value η),
          e.eval texts fuel s = .done v s' → ∀ n,
            (s.env.isBound n = false → s'.env.declare n v = .ok (s'.env.bind n v)) ∧
            (s.env.isBound n = true → s'.env.assign n v = .ok (s'.env.bind n v)) := by
  rcases i.interpret_explained p with hd | ⟨i', error, es, hends, hruns, houtput, hsink⟩
  · exact Or.inl hd
  refine Or.inr ⟨i', error, es, hends, hruns, ?_, hruns.chain.replay_eq, houtput, hsink, ?_,
    hruns.culprit, ?_⟩
  · intro es₂ error₂ env₂ hruns₂
    exact (hruns.unique hruns₂).1
  · intro before e after hes
    have hmem : e ∈ es := by simp [hes]
    exact ⟨hruns.mem_partsAll e hmem, hruns.chain.completes_of_split hes⟩
  · exact fun fuel e s s' v h => Expr.second_look h

end Runs

end DynScope
