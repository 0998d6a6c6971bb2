import DynScope.Proofs.Adequacy

/-!
# DynScope.Proofs.Iteration

**A loop takes the turns that its condition asks for.** It is done after some number of turns
if the condition is falsy then, it fails where the condition or the body fails after some
number of turns, and otherwise it goes on for ever (`Stmt.loop_ends_iff`). Neither a turn too
many nor one too few is taken, and the state at the end is the one that the turns have led to.

How it works: `Stmt.Turns` counts whole turns, of which each starts in the state that the one
before it has left. From turns to the end of the loop the induction is on their number, with
one lemma for each way in which a loop starts (`Stmt.loop_endsAs_turn` and its siblings). The
other way round it is on the turns that the fuel allows.
-/

namespace DynScope

variable {η : Type} [Host η] (texts : Interner)

/-- Evaluated in `s`, the expression comes to a value that a condition takes for `truth`. -/
def Expr.CountsAs (e : Expr) (s : State η) (truth : Bool) : Prop :=
  ∃ v s', EndsAs (e.eval texts · s) (.done v s') ∧ v.isTruthy = truth

namespace Stmt

variable (c : Expr) (b : Block)

/-- A turn of the loop takes `s` to `s'`: the condition is truthy in `s`, and the body comes
to its end from there and leaves `s'`. -/
structure Turn (s s' : State η) : Prop where
  condition : c.CountsAs texts s true
  body : EndsAs (execAll texts · b s) (.done () s')

/-- The turns of the loop lead from `s` to `s'` in `n` of them, by way of the states `ss i`. -/
def Turns (n : Nat) (s s' : State η) : Prop :=
  ∃ ss : Nat → State η, ss 0 = s ∧ ss n = s' ∧ ∀ i < n, Turn texts c b (ss i) (ss (i + 1))

/-- After some number of turns from `s` the condition is falsy, in the state `s'`. -/
def LoopStops (s s' : State η) : Prop := ∃ n, Turns texts c b n s s' ∧ c.CountsAs texts s' false

/-- After some number of turns from `s` the condition fails with `err`, and `s'` is the state
then; or the condition is truthy once more, and the body fails with `err` and leaves `s'`. -/
def LoopBreaks (s : State η) (err : EvalError) (s' : State η) : Prop :=
  ∃ n sₙ, Turns texts c b n s sₙ ∧
    ((sₙ = s' ∧ ∃ t, EndsAs (c.eval texts · sₙ) (.failed err t)) ∨
      (c.CountsAs texts sₙ true ∧ EndsAs (execAll texts · b sₙ) (.failed err s')))

end Stmt

/-! ### Conditions -/

section Conditions

variable {texts} {s s' : State η} {e : Expr}

/-- However an evaluation ends, it does so in the state that it started from. -/
theorem Expr.state?_of_endsAs {o : Outcome (State η) (Value η)}
    (h : EndsAs (e.eval texts · s) o) : o.state? = some s := by
  obtain ⟨hne, fuel, hrun⟩ := h
  have hfuel : e.eval texts fuel s = o := hrun fuel (Nat.le_refl fuel)
  rcases Expr.eval_cases texts fuel e s with heval | ⟨v, -, heval⟩ | ⟨err, -, heval⟩
  · exact absurd (hfuel.symm.trans heval) hne
  · rw [← hfuel, heval]
    rfl
  · rw [← hfuel, heval]
    rfl

theorem Expr.CountsAs.exists_endsAs {truth : Bool} (h : e.CountsAs texts s truth) :
    ∃ v, EndsAs (e.eval texts · s) (.done v s) ∧ v.isTruthy = truth := by
  obtain ⟨v, s', hv, htruth⟩ := h
  obtain rfl : s' = s := Option.some.inj (Expr.state?_of_endsAs hv)
  exact ⟨v, hv, htruth⟩

end Conditions

/-! ### Turns -/

namespace Stmt

variable {texts} {c : Expr} {b : Block} {n : Nat} {s s₁ s' : State η} {err : EvalError}

theorem turns_zero (s : State η) : Turns texts c b 0 s s :=
  ⟨fun _ => s, rfl, rfl, fun _ hi => absurd hi (Nat.not_lt_zero _)⟩

/-- The first of several turns comes before the others. -/
theorem turns_succ_iff : Turns texts c b (n + 1) s s' ↔
    ∃ s₁, Turn texts c b s s₁ ∧ Turns texts c b n s₁ s' := by
  constructor
  · rintro ⟨ss, rfl, rfl, hss⟩
    refine ⟨ss 1, hss 0 (Nat.succ_pos n), fun i => ss (i + 1), rfl, rfl, fun i hi => ?_⟩
    exact hss (i + 1) (Nat.succ_lt_succ hi)
  · rintro ⟨s₁, hturn, ss, rfl, rfl, hss⟩
    refine ⟨fun i => i.casesOn s ss, rfl, rfl, fun i hi => ?_⟩
    cases i with
    | zero => exact hturn
    | succ i => exact hss i (Nat.lt_of_succ_lt_succ hi)

theorem Turn.stops (h : Turn texts c b s s₁) (hrest : LoopStops texts c b s₁ s') :
    LoopStops texts c b s s' := by
  obtain ⟨n, hturns, hfalsy⟩ := hrest
  exact ⟨n + 1, turns_succ_iff.mpr ⟨s₁, h, hturns⟩, hfalsy⟩

theorem Turn.breaks (h : Turn texts c b s s₁) (hrest : LoopBreaks texts c b s₁ err s') :
    LoopBreaks texts c b s err s' := by
  obtain ⟨n, sₙ, hturns, hbreaks⟩ := hrest
  exact ⟨n + 1, sₙ, turns_succ_iff.mpr ⟨s₁, h, hturns⟩, hbreaks⟩

/-! ### From turns to the end of the loop -/

/-- Turns that the loop has taken do not change how it ends. -/
theorem Turns.loop_endsAs {o : Outcome (State η) Unit} (h : Turns texts c b n s s')
    (hrest : EndsAs ((Stmt.loop c b).exec texts · s') o) :
    EndsAs ((Stmt.loop c b).exec texts · s) o := by
  induction n generalizing s with
  | zero =>
      obtain ⟨ss, rfl, rfl, -⟩ := h
      exact hrest
  | succ n ih =>
      obtain ⟨s₁, hturn, hturns⟩ := turns_succ_iff.mp h
      obtain ⟨v, hv, htrue⟩ := hturn.condition.exists_endsAs
      exact loop_endsAs_turn hv htrue hturn.body (ih hturns)

theorem LoopStops.loop_endsAs (h : LoopStops texts c b s s') :
    EndsAs ((Stmt.loop c b).exec texts · s) (.done () s') := by
  obtain ⟨n, hturns, hfalsy⟩ := h
  obtain ⟨v, hv, hfalse⟩ := hfalsy.exists_endsAs
  exact hturns.loop_endsAs (loop_endsAs_stop hv hfalse)

theorem LoopBreaks.loop_endsAs (h : LoopBreaks texts c b s err s') :
    EndsAs ((Stmt.loop c b).exec texts · s) (.failed err s') := by
  obtain ⟨n, sₙ, hturns, ⟨rfl, t, hfails⟩ | ⟨htruthy, hbody⟩⟩ := h
  · obtain rfl : t = sₙ := Option.some.inj (Expr.state?_of_endsAs hfails)
    exact hturns.loop_endsAs (loop_endsAs_condition hfails)
  · obtain ⟨v, hv, htrue⟩ := htruthy.exists_endsAs
    exact hturns.loop_endsAs (loop_endsAs_body hv htrue hbody)

/-! ### From the end of the loop to turns -/

variable (texts c b)

/-- Whatever a loop comes to with some fuel, whole turns have led to it. -/
theorem repeatWhile_cases (fuel turns : Nat) (s : State η) :
    let o := Evaluation.repeatWhile (evalCondition texts fuel c) (execAll texts fuel b) turns s
    o = .outOfFuel ∨ (∃ s', LoopStops texts c b s s' ∧ o = .done () s') ∨
      ∃ err s', LoopBreaks texts c b s err s' ∧ o = .failed err s' := by
  induction turns generalizing s with
  | zero => exact Or.inl rfl
  | succ turns ih =>
      simp only [Evaluation.repeatWhile, evalCondition, LawfulMonad.bind_assoc,
        LawfulMonad.pure_bind]
      rw [Evaluation.bind_apply]
      rcases Expr.eval_cases texts fuel c s with heval | ⟨v, hv, heval⟩ | ⟨err, herr, heval⟩
      all_goals simp only [heval]
      · exact Or.inl trivial
      · cases htruth : v.isTruthy with
        | false => exact Or.inr (Or.inl ⟨s, ⟨0, turns_zero s, v, s, hv s rfl, htruth⟩, rfl⟩)
        | true =>
            have htruthy : c.CountsAs texts s true := ⟨v, s, hv s rfl, htruth⟩
            -- What the body comes to with this fuel is how it ends.
            have hends (hne : execAll texts fuel b s ≠ .outOfFuel) :=
              (execAll_fuelMonotone texts b s).endsAs hne
            simp only [if_true, Evaluation.bind_apply]
            cases hbody : execAll texts fuel b s with
            | outOfFuel => exact Or.inl rfl
            | failed err s' =>
                rw [hbody] at hends
                have hfails := hends (Outcome.failed_ne_outOfFuel err s')
                exact Or.inr (Or.inr
                  ⟨err, s', ⟨0, s, turns_zero s, Or.inr ⟨htruthy, hfails⟩⟩, rfl⟩)
            | done a s₁ =>
                rw [hbody] at hends
                have hturn : Turn texts c b s s₁ :=
                  ⟨htruthy, hends (Outcome.done_ne_outOfFuel a s₁)⟩
                rcases ih s₁ with h | ⟨s', hstops, h⟩ | ⟨err, s', hbreaks, h⟩
                · exact Or.inl h
                · exact Or.inr (Or.inl ⟨s', hturn.stops hstops, h⟩)
                · exact Or.inr (Or.inr ⟨err, s', hturn.breaks hbreaks, h⟩)
      · exact Or.inr (Or.inr
          ⟨err, s, ⟨0, s, turns_zero s, Or.inl ⟨rfl, s, herr s rfl⟩⟩, rfl⟩)

/-- A loop that ends has stopped or broken after some number of turns. -/
theorem loop_endsAs_cases {o : Outcome (State η) Unit}
    (h : EndsAs ((Stmt.loop c b).exec texts · s) o) :
    (∃ s', LoopStops texts c b s s' ∧ o = .done () s') ∨
      ∃ err s', LoopBreaks texts c b s err s' ∧ o = .failed err s' := by
  obtain ⟨hne, fuel, hrun⟩ := h
  have hfuel : (Stmt.loop c b).exec texts fuel s = o := hrun fuel (Nat.le_refl fuel)
  simp only [Stmt.exec] at hfuel
  have hcases := repeatWhile_cases texts c b fuel fuel s
  rw [hfuel] at hcases
  exact hcases.resolve_left hne

/-- **A loop does exactly the turns that its condition asks for.** It is done in a state if
some number of turns lead there and the condition is falsy then. It fails with an error if
some number of turns lead to a state in which the condition fails with it, and leaves that
state; or to one in which the condition is truthy and the body fails with it, and leaves what
the body left. In all other cases it goes on for ever. The condition changes no state. -/
theorem loop_ends_iff (s : State η) :
    (∀ s', EndsAs ((Stmt.loop c b).exec texts · s) (.done () s') ↔ LoopStops texts c b s s') ∧
    (∀ err s', EndsAs ((Stmt.loop c b).exec texts · s) (.failed err s') ↔
      LoopBreaks texts c b s err s') ∧
    (Diverges ((Stmt.loop c b).exec texts · s) ↔
      (∀ s', ¬ LoopStops texts c b s s') ∧ ∀ err s', ¬ LoopBreaks texts c b s err s') ∧
    ∀ (t : State η) (o : Outcome (State η) (Value η)),
      EndsAs (c.eval texts · t) o → o.state? = some t := by
  have hdone : ∀ s', EndsAs ((Stmt.loop c b).exec texts · s) (.done () s') →
      LoopStops texts c b s s' := by
    intro s' h
    rcases loop_endsAs_cases texts c b h with ⟨t, hstops, ho⟩ | ⟨err, t, -, ho⟩
    · cases ho
      exact hstops
    · cases ho
  have hfailed : ∀ err s', EndsAs ((Stmt.loop c b).exec texts · s) (.failed err s') →
      LoopBreaks texts c b s err s' := by
    intro err s' h
    rcases loop_endsAs_cases texts c b h with ⟨t, -, ho⟩ | ⟨err', t, hbreaks, ho⟩
    · cases ho
    · cases ho
      exact hbreaks
  refine ⟨fun s' => ⟨hdone s', LoopStops.loop_endsAs⟩,
    fun err s' => ⟨hfailed err s', LoopBreaks.loop_endsAs⟩, ?_,
    fun _ _ => Expr.state?_of_endsAs⟩
  rw [(exec_fuelMonotone texts (.loop c b) s).diverges_iff]
  constructor
  · intro hnone
    exact ⟨fun s' hstops => hnone _ hstops.loop_endsAs,
      fun err s' hbreaks => hnone _ hbreaks.loop_endsAs⟩
  · rintro ⟨hstops, hbreaks⟩ o ho
    rcases loop_endsAs_cases texts c b ho with ⟨s', h, -⟩ | ⟨err, s', h, -⟩
    · exact hstops s' h
    · exact hbreaks err s' h

end Stmt

end DynScope
