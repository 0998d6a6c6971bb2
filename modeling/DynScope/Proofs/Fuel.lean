import DynScope.Interpreter

/-!
# DynScope.Proofs.Fuel

**More fuel keeps a finished answer.** Fuel stands for no part of the language: it only
makes evaluation total. A run that has come to an end is not changed by more of it, so
every run either ends in one way, which all large enough amounts agree on, or diverges,
which no amount is enough for.

How it works: `Outcome.Approx o o'` says that `o` is `o'` or was cut short before. Every
form of the language keeps this order in its parts, so the induction follows the tree, the
fuel of calls and the turns of loops.
-/

namespace DynScope

variable {η σ τ α β : Type}

/-! ### The order on outcomes -/

/-- `o` is `o'`, or was cut short before it came to it. -/
def Outcome.Approx (o o' : Outcome σ α) : Prop := o = .outOfFuel ∨ o = o'

namespace Outcome

theorem Approx.refl (o : Outcome σ α) : o.Approx o := Or.inr rfl

theorem Approx.outOfFuel (o : Outcome σ α) : Outcome.outOfFuel.Approx o := Or.inl rfl

theorem Approx.mapState {o o' : Outcome σ α} (h : o.Approx o') (f : σ → τ) :
    (o.mapState f).Approx (o'.mapState f) := by
  rcases h with rfl | rfl
  · exact .outOfFuel _
  · exact .refl _

theorem done_ne_outOfFuel (a : α) (s : σ) : Outcome.done a s ≠ .outOfFuel := by
  intro h
  cases h

theorem failed_ne_outOfFuel (err : EvalError) (s : σ) :
    (Outcome.failed err s : Outcome σ α) ≠ .outOfFuel := by
  intro h
  cases h

/-- Nothing but itself lies above an outcome that was not cut short. -/
theorem Approx.eq_of_ne {o o' : Outcome σ α} (h : o.Approx o') (hne : o ≠ .outOfFuel) :
    o = o' := h.resolve_left hne

end Outcome

namespace Evaluation

/-- From every state, `m` comes to what `m'` comes to, or is cut short before. -/
def Approx (m m' : Evaluation η α) : Prop := ∀ s, (m s).Approx (m' s)

theorem Approx.refl (m : Evaluation η α) : m.Approx m := fun s => .refl (m s)

theorem Approx.exhausted (m : Evaluation η α) : (exhausted : Evaluation η α).Approx m :=
  fun s => .outOfFuel (m s)

theorem Approx.bind {m m' : Evaluation η α} {f f' : α → Evaluation η β} (hm : m.Approx m')
    (hf : ∀ a, (f a).Approx (f' a)) : (m >>= f).Approx (m' >>= f') := by
  intro s
  rw [bind_apply, bind_apply]
  rcases hm s with h | h
  · rw [h]
    exact .outOfFuel _
  · rw [← h]
    cases m s with
    | done a s => exact hf a s
    | failed e s => exact .refl _
    | outOfFuel => exact .refl _

theorem Approx.withFrame {m m' : Evaluation η α} (h : m.Approx m') :
    (withFrame m).Approx (withFrame m') := fun _ => (h _).mapState _

/-- A loop comes no less far with better approximations of its parts and more turns. -/
theorem Approx.repeatWhile {c c' : Evaluation η Bool} {b b' : Evaluation η Unit}
    (hc : c.Approx c') (hb : b.Approx b') {turns turns' : Nat} (hle : turns ≤ turns') :
    (repeatWhile c b turns).Approx (repeatWhile c' b' turns') := by
  induction turns generalizing turns' with
  | zero => exact .exhausted _
  | succ turns ih =>
      obtain ⟨more, rfl⟩ : ∃ more, turns' = more + 1 := ⟨turns' - 1, by omega⟩
      have hrest : (Evaluation.repeatWhile c b turns).Approx
          (Evaluation.repeatWhile c' b' more) := ih (by omega)
      -- Both loops take their first turn together; the rest is the induction hypothesis.
      refine hc.bind fun v => ?_
      cases v with
      | false => exact .refl _
      | true => exact hb.bind fun _ => hrest

end Evaluation

/-! ### Expressions -/

section Expressions

variable [Host η] {texts : Interner}

open Evaluation

mutual
theorem Expr.evalWith_approx {apply apply' : Application η}
    (h : ∀ d vs, (apply d vs).Approx (apply' d vs)) :
    ∀ e : Expr, (e.evalWith texts apply).Approx (e.evalWith texts apply')
  | .numeral _ => .refl _
  | .bool _ => .refl _
  | .identifier _ => .refl _
  | .binary op l r => by
      simp only [Expr.evalWith]
      exact (Expr.evalWith_approx h l).bind fun _ =>
        (Expr.evalWith_approx h r).bind fun _ => .refl _
  | .unary op e => by
      simp only [Expr.evalWith]
      exact (Expr.evalWith_approx h e).bind fun _ => .refl _
  | .conditional test consequent alternate => by
      simp only [Expr.evalWith]
      refine (Expr.evalWith_approx h test).bind fun v => ?_
      split
      · exact Expr.evalWith_approx h consequent
      · exact Expr.evalWith_approx h alternate
  | .call callee args => by
      have hargs := Expr.evalAllWith_approx h args
      simp only [Expr.evalWith]
      refine (Approx.refl _).bind fun v => ?_
      cases v with
      | builtin b => exact hargs.bind fun _ => .refl _
      | function d =>
          dsimp only
          split
          · exact hargs.bind fun vs => h d vs
          · exact .refl _
      | _ => exact .refl _
  | .array es => by
      simp only [Expr.evalWith]
      exact (Expr.evalAllWith_approx h es).bind fun _ => .refl _
  | .subscript base index => by
      simp only [Expr.evalWith]
      exact (Expr.evalWith_approx h base).bind fun _ =>
        (Expr.evalWith_approx h index).bind fun _ => .refl _
theorem Expr.evalAllWith_approx {apply apply' : Application η}
    (h : ∀ d vs, (apply d vs).Approx (apply' d vs)) :
    ∀ es : List Expr, (Expr.evalAllWith texts apply es).Approx (Expr.evalAllWith texts apply' es)
  | [] => .refl _
  | e :: es => by
      simp only [Expr.evalAllWith]
      exact (Expr.evalWith_approx h e).bind fun _ =>
        (Expr.evalAllWith_approx h es).bind fun _ => .refl _
end

theorem applyFunction_approx {fuel fuel' : Nat} (hle : fuel ≤ fuel') (d : FunctionDecl)
    (vs : List (Value η)) :
    (applyFunction texts fuel d vs).Approx (applyFunction texts fuel' d vs) := by
  induction fuel generalizing fuel' d vs with
  | zero => exact .exhausted _
  | succ fuel ih =>
      obtain ⟨more, rfl⟩ : ∃ more, fuel' = more + 1 := ⟨fuel' - 1, by omega⟩
      have hcall : ∀ d vs, (applyFunction texts fuel d vs : Evaluation η (Value η)).Approx
          (applyFunction texts more d vs) := ih (by omega)
      -- The bodies are evaluated with one unit less each, which keeps the order of the fuels.
      rw [applyFunction, applyFunction]
      refine ((Approx.refl _).bind fun _ => ?_).withFrame
      exact Expr.evalWith_approx hcall d.body

theorem Expr.eval_approx {fuel fuel' : Nat} (hle : fuel ≤ fuel') (e : Expr) :
    (e.eval texts fuel : Evaluation η (Value η)).Approx (e.eval texts fuel') :=
  Expr.evalWith_approx (applyFunction_approx hle) e

end Expressions

/-! ### Statements and programs -/

section Statements

variable [Host η] {texts : Interner} {fuel fuel' : Nat}

open Evaluation

theorem Stmt.evalCondition_approx (hle : fuel ≤ fuel') (e : Expr) :
    (Stmt.evalCondition texts fuel e : Evaluation η Bool).Approx
      (Stmt.evalCondition texts fuel' e) :=
  (Expr.eval_approx hle e).bind fun _ => .refl _

mutual
theorem Stmt.exec_approx (hle : fuel ≤ fuel') : ∀ st : Stmt,
    (st.exec texts fuel : Evaluation η Unit).Approx (st.exec texts fuel')
  | .block body => by
      simp only [Stmt.exec]
      exact Stmt.execAll_approx hle body
  | .declare n e => by
      simp only [Stmt.exec]
      exact (Approx.refl _).bind fun _ => (Expr.eval_approx hle e).bind fun _ => .refl _
  | .assign n e => by
      simp only [Stmt.exec]
      exact (Approx.refl _).bind fun _ => (Expr.eval_approx hle e).bind fun _ => .refl _
  | .print e => by
      simp only [Stmt.exec]
      exact (Expr.eval_approx hle e).bind fun _ => .refl _
  | .loop condition body => by
      simp only [Stmt.exec]
      exact .repeatWhile (Stmt.evalCondition_approx hle condition)
        (Stmt.execAll_approx hle body) hle
  | .function _ => by
      simp only [Stmt.exec]
      exact .refl _
theorem Stmt.execAll_approx (hle : fuel ≤ fuel') : ∀ b : Block,
    (Stmt.execAll texts fuel b : Evaluation η Unit).Approx (Stmt.execAll texts fuel' b)
  | [] => by
      simp only [Stmt.execAll]
      exact .refl _
  | st :: rest => by
      simp only [Stmt.execAll]
      exact (Stmt.exec_approx hle st).bind fun _ => Stmt.execAll_approx hle rest
end

/-- A run with less fuel approximates a run with more. -/
theorem Interpreter.interpret_approx (hle : fuel ≤ fuel') (i : Interpreter η) (p : Program) :
    (i.interpret fuel p).Approx (i.interpret fuel' p) :=
  (Stmt.execAll_approx hle p.body _).mapState _

end Statements

/-! ### Ends of runs -/

/-- No amount of fuel is enough for the run to end. -/
def Diverges (run : Nat → Outcome σ α) : Prop := ∀ fuel, run fuel = .outOfFuel

/-- The run ends with the outcome `o`, as every large enough amount of fuel shows. -/
def EndsAs (run : Nat → Outcome σ α) (o : Outcome σ α) : Prop :=
  o ≠ .outOfFuel ∧ ∃ least, ∀ fuel, least ≤ fuel → run fuel = o

/-- Less fuel makes approximations of what more fuel makes. -/
def FuelMonotone (run : Nat → Outcome σ α) : Prop :=
  ∀ fuel fuel', fuel ≤ fuel' → (run fuel).Approx (run fuel')

/-- What a run comes to with some amount of fuel is how it ends. -/
theorem FuelMonotone.endsAs {run : Nat → Outcome σ α} (h : FuelMonotone run) {fuel : Nat}
    (hne : run fuel ≠ .outOfFuel) : EndsAs run (run fuel) :=
  ⟨hne, fuel, fun fuel' hle => ((h fuel fuel' hle).eq_of_ne hne).symm⟩

/-- A run diverges or ends. -/
theorem FuelMonotone.diverges_or_endsAs {run : Nat → Outcome σ α} (h : FuelMonotone run) :
    Diverges run ∨ ∃ o, EndsAs run o := by
  by_cases hd : Diverges run
  · exact Or.inl hd
  · obtain ⟨fuel, hne⟩ := Classical.not_forall.mp hd
    exact Or.inr ⟨run fuel, h.endsAs hne⟩

theorem FuelMonotone.mapState {run : Nat → Outcome σ α} (h : FuelMonotone run) (f : σ → τ) :
    FuelMonotone fun fuel => (run fuel).mapState f :=
  fun fuel fuel' hle => (h fuel fuel' hle).mapState f

/-- A run ends in one way only. -/
theorem EndsAs.unique {run : Nat → Outcome σ α} {o o' : Outcome σ α} (h : EndsAs run o)
    (h' : EndsAs run o') : o = o' := by
  obtain ⟨-, least, hrun⟩ := h
  obtain ⟨-, least', hrun'⟩ := h'
  exact (hrun _ (Nat.le_max_left least least')).symm.trans (hrun' _ (Nat.le_max_right ..))

/-- A run goes on for ever exactly if there is no way in which it ends. -/
theorem FuelMonotone.diverges_iff {run : Nat → Outcome σ α} (h : FuelMonotone run) :
    Diverges run ↔ ∀ o, ¬ EndsAs run o := by
  constructor
  · rintro hd o ⟨hne, least, hrun⟩
    exact hne ((hrun least (Nat.le_refl least)).symm.trans (hd least))
  · intro hnone
    exact h.diverges_or_endsAs.resolve_right fun ⟨o, ho⟩ => hnone o ho

theorem EndsAs.of_done (a : α) (s : σ) : EndsAs (fun _ => .done a s) (.done a s) :=
  ⟨Outcome.done_ne_outOfFuel a s, 0, fun _ _ => rfl⟩

theorem EndsAs.of_failed (err : EvalError) (s : σ) :
    EndsAs (fun _ => (.failed err s : Outcome σ α)) (.failed err s) :=
  ⟨Outcome.failed_ne_outOfFuel err s, 0, fun _ _ => rfl⟩

/-- A run with one unit of fuel more ends in the same way. -/
theorem endsAs_succ_iff {run : Nat → Outcome σ α} {o : Outcome σ α} :
    EndsAs (fun fuel => run (fuel + 1)) o ↔ EndsAs run o := by
  constructor
  · rintro ⟨hne, least, h⟩
    refine ⟨hne, least + 1, fun fuel hle => ?_⟩
    obtain ⟨less, rfl⟩ : ∃ less, fuel = less + 1 := ⟨fuel - 1, by omega⟩
    exact h less (by omega)
  · rintro ⟨hne, least, h⟩
    exact ⟨hne, least, fun fuel hle => h (fuel + 1) (by omega)⟩

/-- What has ended is not changed by better approximations. -/
theorem EndsAs.of_approx {run run' : Nat → Outcome σ α} {o : Outcome σ α}
    (h : EndsAs run o) (happrox : ∀ fuel, (run fuel).Approx (run' fuel)) : EndsAs run' o := by
  obtain ⟨hne, least, h⟩ := h
  refine ⟨hne, least, fun fuel hle => ?_⟩
  have hrun := h fuel hle
  rw [← hrun]
  exact ((happrox fuel).eq_of_ne (hrun ▸ hne)).symm

/-- Where the first of two steps comes to a value, they end as the second one does. -/
theorem EndsAs.bind_done {m : Nat → Evaluation η α} {f : Nat → α → Evaluation η β}
    {s s' : State η} {a : α} {o : Outcome (State η) β} (hm : EndsAs (m · s) (.done a s'))
    (hf : EndsAs (f · a s') o) : EndsAs (fun fuel => (m fuel >>= f fuel) s) o := by
  obtain ⟨-, least, hm⟩ := hm
  obtain ⟨hne, least', hf⟩ := hf
  refine ⟨hne, max least least', fun fuel hle => ?_⟩
  have hm := hm fuel (by omega)
  have hf := hf fuel (by omega)
  simp only [Evaluation.bind_apply, hm, hf]

theorem EndsAs.bind_failed {m : Nat → Evaluation η α} {f : Nat → α → Evaluation η β}
    {s s' : State η} {err : EvalError} (hm : EndsAs (m · s) (.failed err s')) :
    EndsAs (fun fuel => (m fuel >>= f fuel) s) (.failed err s') := by
  obtain ⟨-, least, hm⟩ := hm
  refine ⟨Outcome.failed_ne_outOfFuel err s', least, fun fuel hle => ?_⟩
  have hm := hm fuel hle
  simp only [Evaluation.bind_apply, hm]

/-- Of two steps, either the first fails, and that is the end, or it comes to a value, and the
end is that of the second. -/
theorem endsAs_bind_iff {m : Nat → Evaluation η α} {f : Nat → α → Evaluation η β} {s : State η}
    {o : Outcome (State η) β} (hm : FuelMonotone (m · s))
    (hf : ∀ a s', FuelMonotone (f · a s')) :
    EndsAs (fun fuel => (m fuel >>= f fuel) s) o ↔
      (∃ a s', EndsAs (m · s) (.done a s') ∧ EndsAs (f · a s') o) ∨
        ∃ err s', EndsAs (m · s) (.failed err s') ∧ o = .failed err s' := by
  constructor
  · rintro ⟨hne, least, hrun⟩
    have hleast : (m least >>= f least) s = o := hrun least (Nat.le_refl least)
    have hends : m least s ≠ .outOfFuel → EndsAs (m · s) (m least s) := hm.endsAs
    rw [Evaluation.bind_apply] at hleast
    cases hfirst : m least s with
    | outOfFuel =>
        rw [hfirst] at hleast
        exact absurd hleast.symm hne
    | failed err s' =>
        rw [hfirst] at hleast hends
        exact Or.inr ⟨err, s', hends (Outcome.failed_ne_outOfFuel err s'), hleast.symm⟩
    | done a s' =>
        rw [hfirst] at hleast hends
        obtain rfl : f least a s' = o := hleast
        exact Or.inl ⟨a, s', hends (Outcome.done_ne_outOfFuel a s'), (hf a s').endsAs hne⟩
  · rintro (⟨a, s', hfirst, hsecond⟩ | ⟨err, s', hfirst, rfl⟩)
    · exact hfirst.bind_done hsecond
    · exact hfirst.bind_failed

/-- Two steps go on for ever if the first does, or if it comes to a value and the second does. -/
theorem diverges_bind_iff {m : Nat → Evaluation η α} {f : Nat → α → Evaluation η β}
    {s : State η} (hm : FuelMonotone (m · s)) (hf : ∀ a s', FuelMonotone (f · a s')) :
    Diverges (fun fuel => (m fuel >>= f fuel) s) ↔
      Diverges (m · s) ∨ ∃ a s', EndsAs (m · s) (.done a s') ∧ Diverges (f · a s') := by
  constructor
  · intro hd
    rcases hm.diverges_or_endsAs with hfirst | ⟨o, ho⟩
    · exact Or.inl hfirst
    · obtain ⟨least, hleast⟩ := ho.2
      cases o with
      | outOfFuel => exact absurd rfl ho.1
      | failed err s' =>
          have hrun := hd least
          simp only [Evaluation.bind_apply, hleast least (Nat.le_refl least)] at hrun
          exact absurd hrun (Outcome.failed_ne_outOfFuel err s')
      | done a s' =>
          refine Or.inr ⟨a, s', ho, fun fuel => ?_⟩
          -- With enough fuel for the first step, what is cut short is the second one.
          have hrun := hd (max least fuel)
          simp only [Evaluation.bind_apply, hleast _ (Nat.le_max_left least fuel)] at hrun
          rcases hf a s' fuel _ (Nat.le_max_right least fuel) with h | h
          · exact h
          · exact h.trans hrun
  · rintro (hfirst | ⟨a, s', ⟨-, least, hleast⟩, hsecond⟩) fuel
    · have hrun := hfirst fuel
      simp only [Evaluation.bind_apply, hrun]
    · -- The first step is cut short with this fuel, or it comes to the value already.
      have hrun := hleast _ (Nat.le_max_right fuel least)
      rcases hm fuel _ (Nat.le_max_left fuel least) with h | h
      · simp only [Evaluation.bind_apply, h]
      · simp only [Evaluation.bind_apply, h, hrun]
        exact hsecond fuel

theorem Evaluation.endsAs_lookup (texts : Interner) {s : State η} {n : Name} {v : Value η}
    (h : s.env.lookup? n = some v) : EndsAs (fun _ => lookup texts n s) (.done v s) := by
  simp only [lookup, h]
  exact .of_done v s

/-! ### Runs that end alike -/

/-- Both computations are done, or fail with one error, or are cut short, in states that
stand in `R`. -/
inductive Outcome.Agree (R : σ → τ → Prop) : Outcome σ α → Outcome τ α → Prop
  | done (a : α) {s s'} : R s s' → Agree R (.done a s) (.done a s')
  | failed (e : EvalError) {s s'} : R s s' → Agree R (.failed e s) (.failed e s')
  | outOfFuel : Agree R .outOfFuel .outOfFuel

theorem Outcome.agree_mapState {R : σ → τ → Prop} {f : σ → τ} (h : ∀ s, R s (f s))
    (o : Outcome σ α) : Outcome.Agree R o (o.mapState f) := by
  cases o with
  | done a s => exact .done a (h s)
  | failed e s => exact .failed e (h s)
  | outOfFuel => exact .outOfFuel

theorem Outcome.Agree.of_mapState {σ₁ τ₁ : Type} {R : σ₁ → τ₁ → Prop} {f : σ → σ₁}
    {f' : τ → τ₁} {o : Outcome σ α} {o' : Outcome τ α}
    (h : Outcome.Agree R (o.mapState f) (o'.mapState f')) :
    Outcome.Agree (fun s s' => R (f s) (f' s')) o o' := by
  cases o <;> cases o' <;> cases h
  · next hs => exact .done _ hs
  · next hs => exact .failed _ hs
  · exact .outOfFuel

/-- Runs that agree for every amount of fuel diverge together or end alike. -/
theorem FuelMonotone.ends_agree {R : σ → τ → Prop} {run : Nat → Outcome σ Unit}
    {run' : Nat → Outcome τ Unit} (h : FuelMonotone run) (h' : FuelMonotone run')
    (hagree : ∀ fuel, Outcome.Agree R (run fuel) (run' fuel)) :
    (Diverges run ∧ Diverges run') ∨
      ∃ s s', ((EndsAs run (.done () s) ∧ EndsAs run' (.done () s')) ∨
        ∃ e, EndsAs run (.failed e s) ∧ EndsAs run' (.failed e s')) ∧ R s s' := by
  by_cases hd : Diverges run
  · refine Or.inl ⟨hd, fun fuel => ?_⟩
    have hfuel := hagree fuel
    rw [hd fuel] at hfuel
    generalize run' fuel = o' at hfuel ⊢
    cases hfuel
    rfl
  · obtain ⟨fuel, hne⟩ := Classical.not_forall.mp hd
    have hends := h.endsAs hne
    have hends' : run' fuel ≠ .outOfFuel → EndsAs run' (run' fuel) := h'.endsAs
    have hfuel := hagree fuel
    generalize run fuel = o, run' fuel = o' at hne hends hends' hfuel
    cases hfuel with
    | done a hs => exact Or.inr ⟨_, _, Or.inl ⟨hends, hends' nofun⟩, hs⟩
    | failed e hs => exact Or.inr ⟨_, _, Or.inr ⟨e, hends, hends' nofun⟩, hs⟩
    | outOfFuel => exact absurd rfl hne

theorem Expr.eval_fuelMonotone [Host η] (texts : Interner) (e : Expr) (s : State η) :
    FuelMonotone (e.eval texts · s) := fun _ _ hle => Expr.eval_approx hle e s

theorem Stmt.exec_fuelMonotone [Host η] (texts : Interner) (st : Stmt) (s : State η) :
    FuelMonotone (st.exec texts · s) := fun _ _ hle => Stmt.exec_approx hle st s

theorem Stmt.execAll_fuelMonotone [Host η] (texts : Interner) (b : Block) (s : State η) :
    FuelMonotone (Stmt.execAll texts · b s) := fun _ _ hle => Stmt.execAll_approx hle b s

theorem Interpreter.interpret_fuelMonotone [Host η] (i : Interpreter η) (p : Program) :
    FuelMonotone (i.interpret · p) := fun _ _ hle => Interpreter.interpret_approx hle i p

end DynScope
