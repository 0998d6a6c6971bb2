import DynScope.Proofs.Fuel
import DynScope.Proofs.Prelude
import DynScope.Proofs.Purity

/-!
# DynScope.Proofs.Refinement

**Overlay frames implement calls that copy.** `State.flat` forgets how the bindings of a
run are spread over frames and keeps what every name looks up to. Executing a statement and
then forgetting is the same as forgetting first and executing with the copying interpreter
(`Stmt.exec_flat`), for every amount of fuel. So a run of a program and a copying run of it
diverge together or end alike (`Interpreter.interpret_agrees_copying`).

Expressions need no induction of their own here: `Expr.eval_eq_reading` says that their
evaluation is the copying one at the visible bindings. What is left is the order of checks
and writes in each statement, and the turns of loops.
-/

namespace DynScope

variable {η : Type}

open Copying (Store Result)

/-! ### Forgetting the frames -/

/-- What every name looks up to, and the printed values. -/
def State.flat (s : State η) : Copying.State η := ⟨s.env.lookup?, s.output.toList⟩

/-- What an interpreter shows of its latest run: the bindings and the printed values. -/
def Interpreter.flat (i : Interpreter η) : Copying.State η := ⟨i.env.lookup?, i.output⟩

theorem State.isSome_flat_vars (s : State η) (n : Name) :
    (s.flat.vars n).isSome = s.env.isBound n := rfl

theorem State.flat_bind (s : State η) (n : Name) (v : Value η) :
    { s with env := s.env.bind n v }.flat = { s.flat with vars := s.flat.vars.insert n v } := by
  simp only [State.flat, Environment.lookup?_bind_eq_insert]

/-- A prelude binds the same values under the same names in either kind of store. -/
theorem Prelude.bindEntries_flat (entries : List (String × Value η)) (t : Interner)
    {env : Environment η} (h : env.overlays = []) :
    Copying.bindEntries t env.lookup? entries =
      ((Prelude.bindEntries t env entries).1,
        (Prelude.bindEntries t env entries).2.lookup?) := by
  induction entries generalizing t env with
  | nil => rfl
  | cons entry rest ih =>
      obtain ⟨name, v⟩ := entry
      simp only [Copying.bindEntries, Prelude.bindEntries]
      rw [← ih _ (by rw [Environment.overlays_bindGlobal, h]),
        Environment.bindGlobal_eq_bind h, Environment.lookup?_bind_eq_insert]

/-- A run starts from the same bindings in either kind of store. -/
theorem Prelude.environment_flat (p : Prelude η) (t : Interner) :
    Copying.bindEntries t Store.empty p.entries =
      ((p.environment t).1, (p.environment t).2.lookup?) := by
  have hempty : (Environment.empty : Environment η).lookup? = Store.empty := by
    funext n
    exact Environment.lookup?_empty n
  rw [← hempty]
  exact bindEntries_flat _ _ rfl

/-! ### Steps under a view of the state -/

namespace Evaluation

variable {α β τ : Type}

/-- A sequence of steps, seen through `view`, is the sequence of what is seen of them. -/
theorem mapState_bind {m : Evaluation η α} {f : α → Evaluation η β} {view : State η → τ}
    {g : α → τ → Outcome τ β} (h : ∀ a s, (f a s).mapState view = g a (view s))
    (s : State η) : ((m >>= f) s).mapState view = ((m s).mapState view).andThen g := by
  rw [bind_apply]
  cases m s with
  | done a s' => exact h a s'
  | failed e s' => rfl
  | outOfFuel => rfl

/-- Reading and going on, with the frames forgotten, is going on from the result at the
forgotten state. -/
theorem mapState_flat_reading_bind {r : Store η → Result α} {f : α → Evaluation η Unit}
    {g : α → Outcome (Copying.State η) Unit} {s : State η}
    (h : ∀ a, (f a s).mapState State.flat = g a) :
    ((reading r >>= f) s).mapState State.flat = s.flat.proceed (r s.flat.vars) g := by
  simp only [bind_apply, reading, ofResult, Copying.State.proceed, State.flat]
  rcases r s.env.lookup? with _ | _ | a
  · rfl
  · rfl
  · exact h a

theorem bind_expectBound_false_apply (texts : Interner) (n : Name) (f : Unit → Evaluation η α)
    (s : State η) : (expectBound texts n false >>= f) s =
      if s.env.isBound n then .failed (.duplicateDeclaration (texts.text n)) s else f () s := by
  simp only [bind_apply, expectBound]
  cases s.env.isBound n <;> rfl

theorem bind_expectBound_true_apply (texts : Interner) (n : Name) (f : Unit → Evaluation η α)
    (s : State η) : (expectBound texts n true >>= f) s =
      if s.env.isBound n then f () s else .failed (.unboundVariable (texts.text n)) s := by
  simp only [bind_apply, expectBound]
  cases s.env.isBound n <;> rfl

theorem rebind_declare_apply (texts : Interner) (n : Name) (v : Value η) (s : State η) :
    rebind texts n (·.declare n v) s =
      if s.env.isBound n then .failed (.duplicateDeclaration (texts.text n)) s
      else .done () { s with env := s.env.bind n v } := by
  simp only [rebind, Environment.declare]
  by_cases hb : s.env.isBound n
  · simp only [hb, if_true]
    rfl
  · simp only [hb, if_false, Bool.false_eq_true]

theorem rebind_assign_apply (texts : Interner) (n : Name) (v : Value η) (s : State η) :
    rebind texts n (·.assign n v) s =
      if s.env.isBound n then .done () { s with env := s.env.bind n v }
      else .failed (.unboundVariable (texts.text n)) s := by
  simp only [rebind, Environment.assign]
  by_cases hb : s.env.isBound n
  · simp only [hb, if_true]
  · simp only [hb, if_false, Bool.false_eq_true]
    rfl

/-- A loop, with the frames forgotten, is the loop of the copying interpreter. -/
theorem repeatWhile_flat {condition : Store η → Result (Value η)} {body : Evaluation η Unit}
    {body' : Copying.State η → Outcome (Copying.State η) Unit}
    (hbody : ∀ s, (body s).mapState State.flat = body' s.flat) (turns : Nat) (s : State η) :
    (repeatWhile (do return (← reading condition).isTruthy) body turns s).mapState State.flat =
      Copying.repeatWhile condition body' turns s.flat := by
  induction turns generalizing s with
  | zero => rfl
  | succ turns ih =>
      -- The condition and its truth are one step of the copying loop and two of the other.
      simp only [repeatWhile, Copying.repeatWhile, LawfulMonad.bind_assoc, LawfulMonad.pure_bind]
      refine mapState_flat_reading_bind fun v => ?_
      split
      · rw [mapState_bind (fun _ => ih), hbody]
      · rfl

end Evaluation

/-! ### Statements -/

section Statements

open Evaluation

variable [Host η] (texts : Interner) (fuel : Nat)

mutual
/-- **Simulation.** Executing a statement on frames and forgetting them is executing it on
what every name looks up to. -/
theorem Stmt.exec_flat : ∀ (st : Stmt) (s : State η),
    (st.exec texts fuel s).mapState State.flat = Copying.exec texts fuel st s.flat
  | .block body, s => by
      simp only [Stmt.exec, Copying.exec]
      exact Stmt.execAll_flat body s
  | .declare n e, s => by
      simp only [Stmt.exec, Copying.exec, Expr.eval_eq_reading]
      rw [bind_expectBound_false_apply]
      by_cases hb : s.env.isBound n
      · rw [if_pos hb, if_pos (State.isSome_flat_vars s n ▸ hb), Outcome.mapState]
      · rw [if_neg hb, if_neg (State.isSome_flat_vars s n ▸ hb)]
        -- The name is still unbound when the value is there: evaluating changed nothing.
        refine mapState_flat_reading_bind fun v => ?_
        rw [rebind_declare_apply, if_neg hb, Outcome.mapState, State.flat_bind]
  | .assign n e, s => by
      simp only [Stmt.exec, Copying.exec, Expr.eval_eq_reading]
      rw [bind_expectBound_true_apply]
      by_cases hb : s.env.isBound n
      · rw [if_pos hb, if_pos (State.isSome_flat_vars s n ▸ hb)]
        refine mapState_flat_reading_bind fun v => ?_
        rw [rebind_assign_apply, if_pos hb, Outcome.mapState, State.flat_bind]
      · rw [if_neg hb, if_neg (State.isSome_flat_vars s n ▸ hb), Outcome.mapState]
  | .print e, s => by
      simp only [Stmt.exec, Copying.exec, Expr.eval_eq_reading]
      refine mapState_flat_reading_bind fun v => ?_
      simp only [Evaluation.print, Outcome.mapState, State.flat, Array.toList_push]
  | .loop condition body, s => by
      simp only [Stmt.exec, Copying.exec, Stmt.evalCondition, Expr.eval_eq_reading]
      exact repeatWhile_flat (fun s => Stmt.execAll_flat body s) fuel s
  | .function d, s => by
      simp only [Stmt.exec, Copying.exec]
      rw [rebind_declare_apply]
      by_cases hb : s.env.isBound d.name
      · rw [if_pos hb, if_pos (State.isSome_flat_vars s d.name ▸ hb), Outcome.mapState]
      · rw [if_neg hb, if_neg (State.isSome_flat_vars s d.name ▸ hb), Outcome.mapState,
          State.flat_bind]
theorem Stmt.execAll_flat : ∀ (b : Block) (s : State η),
    (Stmt.execAll texts fuel b s).mapState State.flat = Copying.execAll texts fuel b s.flat
  | [], s => by
      simp only [Stmt.execAll, Copying.execAll]
      rfl
  | st :: rest, s => by
      simp only [Stmt.execAll, Copying.execAll]
      rw [mapState_bind (fun _ => Stmt.execAll_flat rest), Stmt.exec_flat st]
end

end Statements

/-! ### Programs -/

section Programs

variable [Host η]

/-- A run on frames, with the frames forgotten, is the copying run. -/
theorem Interpreter.interpret_flat (i : Interpreter η) (fuel : Nat) (p : Program) :
    (i.interpret fuel p).mapState Interpreter.flat =
      Copying.interpret i.prelude i.interner fuel p := by
  unfold Interpreter.interpret Copying.interpret
  rw [Prelude.environment_flat]
  dsimp only
  rw [show ([] : List (Value η)) = (#[] : Array (Value η)).toList from rfl]
  exact (Outcome.mapState_mapState _ _ _).trans (Stmt.execAll_flat _ fuel p.body _)

/-- **Overlay frames implement calls that copy.** For every interpreter, whatever its
prelude, and every program, the run on frames and the run that hands every call a private
copy of all bindings either both go on for ever, or both succeed, or both fail with one
error; and then they have printed the same values and bound every name alike. -/
theorem Interpreter.interpret_agrees_copying (i : Interpreter η) (p : Program) :
    (Diverges (i.interpret · p) ∧ Diverges (Copying.interpret i.prelude i.interner · p)) ∨
      ∃ (i' : Interpreter η) (s : Copying.State η),
        ((EndsAs (i.interpret · p) (.done () i') ∧
            EndsAs (Copying.interpret i.prelude i.interner · p) (.done () s)) ∨
          ∃ e, EndsAs (i.interpret · p) (.failed e i') ∧
            EndsAs (Copying.interpret i.prelude i.interner · p) (.failed e s)) ∧
        i'.output = s.output ∧ ∀ n, i'.env.lookup? n = s.vars n := by
  have hmono := Interpreter.interpret_fuelMonotone i p
  have hflat : (Copying.interpret i.prelude i.interner · p) =
      fun fuel => (i.interpret fuel p).mapState Interpreter.flat := by
    funext fuel
    exact (Interpreter.interpret_flat i fuel p).symm
  rw [hflat]
  refine hmono.ends_agree (hmono.mapState _) fun fuel => ?_
  exact Outcome.agree_mapState (fun i' => ⟨rfl, fun _ => rfl⟩) _

end Programs

end DynScope
