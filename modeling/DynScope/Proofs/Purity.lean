import DynScope.Proofs.Copying

/-!
# DynScope.Proofs.Purity

**Expressions only read.** The evaluator threads a state through every expression, and a
call really pushes an overlay, binds its parameters there and drops it again. All the same
an evaluation leaves the state exactly as it was, on every way out, and what it comes to
depends on nothing but what the names look up to.

How it works: `Evaluation.reading f` is the step that looks at the visible bindings, comes
to what `f` makes of them and touches nothing. Such steps are closed under sequencing
(`reading_bind`), a call frame around one is one again (`withFrame_reading`), and so the
evaluation of every expression is one, with the copying evaluator for `f`
(`Expr.eval_eq_reading`). The induction follows the tree, and for the bodies of functions
the fuel.
-/

namespace DynScope

variable {η : Type}

open Copying (Store Result)

/-! ### Parameters in an overlay -/

namespace Environment

theorem lookup?_bind_eq_insert (e : Environment η) (n : Name) (v : Value η) :
    (e.bind n v).lookup? = Store.insert e.lookup? n v := by
  funext k
  exact lookup?_bind e n k v

theorem lookup?_bindAll (ns : List Name) (vs : List (Value η)) (e : Environment η) :
    (e.bindAll ns vs).lookup? = Store.insertAll e.lookup? ns vs := by
  induction ns generalizing e vs with
  | nil => simp only [bindAll, Store.insertAll]
  | cons n ns ih =>
      cases vs with
      | nil => rfl
      | cons v vs => simp only [bindAll, Store.insertAll, ih, lookup?_bind_eq_insert]

/-- An empty overlay hides nothing. -/
theorem lookup?_snapshot (e : Environment η) : e.snapshot.2.lookup? = e.lookup? := by
  funext k
  simp [lookup?, snapshot]

/-- Binding names while there is an overlay touches that overlay alone. -/
theorem bindAll_overlay (ns : List Name) (vs : List (Value η)) {e : Environment η}
    {f : Frame η} {rest : List (Frame η)} (h : e.overlays = f :: rest) :
    (e.bindAll ns vs).globals = e.globals ∧
      ∃ f', (e.bindAll ns vs).overlays = f' :: rest := by
  induction ns generalizing e f vs with
  | nil => exact ⟨by simp only [bindAll], f, by simp only [bindAll, h]⟩
  | cons n ns ih =>
      cases vs with
      | nil => exact ⟨rfl, f, h⟩
      | cons v vs =>
          obtain ⟨g, o, k, hk⟩ := e
          obtain rfl : o = f :: rest := h
          exact ih vs (e := bind ⟨g, f :: rest, k, hk⟩ n v) rfl

/-- Dropping the overlay of a call gives the caller's environment back, whatever was bound
in it. -/
theorem restore_bindAll_snapshot (ns : List Name) (vs : List (Value η))
    (e : Environment η) : (e.snapshot.2.bindAll ns vs).restore e.snapshot.1 = e := by
  obtain ⟨hg, f, ho⟩ := bindAll_overlay ns vs (overlays_snapshot e)
  ext1
  · exact hg
  · rw [overlays_restore, ho]
    simp [snapshot, e.height_eq]

end Environment

/-! ### Steps that only read -/

namespace Evaluation

variable {α β : Type}

/-- Come to a result in the state at hand. -/
def ofResult (r : Result α) : Evaluation η α := fun s =>
  match (r : Option (Except EvalError α)) with
  | some (.ok a) => .done a s
  | some (.error e) => .failed e s
  | none => .outOfFuel

/-- Come to what `f` makes of the visible bindings. -/
def reading (f : Store η → Result α) : Evaluation η α := fun s => ofResult (f s.env.lookup?) s

theorem reading_apply (f : Store η → Result α) (s : State η) :
    reading f s = ofResult (f s.env.lookup?) s := rfl

theorem reading_pure (a : α) :
    (reading fun _ => Pure.pure a : Evaluation η α) = Pure.pure a := rfl

theorem reading_throw (e : EvalError) :
    (reading fun _ => throw e : Evaluation η α) = fail e := rfl

theorem reading_ofExcept (r : Except EvalError α) :
    (reading fun _ => .ofExcept r : Evaluation η α) = ofExcept r := by
  cases r <;> rfl

theorem reading_read (texts : Interner) (n : Name) :
    (reading fun m => Copying.read texts m n : Evaluation η (Value η)) = lookup texts n := by
  funext s
  simp only [reading, lookup, Copying.read]
  cases s.env.lookup? n <;> rfl

/-- Reading and then reading on is reading. -/
theorem reading_bind (f : Store η → Result α) (g : α → Store η → Result β) :
    (reading f >>= fun a => reading (g a)) = reading fun m => f m >>= fun a => g a m := by
  funext s
  -- The first reading leaves the state alone, so the second one reads the same bindings.
  rcases h : f s.env.lookup? with _ | _ | a
  all_goals simp only [bind_apply, reading, ofResult, h]; rfl

theorem reading_ite {c : Prop} [Decidable c] (f g : Store η → Result α) :
    (reading fun m => if c then f m else g m) = if c then reading f else reading g := by
  split <;> rfl

/-- Reading in a call frame, with parameters bound in it, is reading. -/
theorem withFrame_reading (ns : List Name) (vs : List (Value η)) (f : Store η → Result α) :
    (withFrame do modifyEnv (·.bindAll ns vs); reading f) =
      reading fun m => f (m.insertAll ns vs) := by
  funext s
  have hread : (s.env.snapshot.2.bindAll ns vs).lookup? = Store.insertAll s.env.lookup? ns vs := by
    rw [Environment.lookup?_bindAll, Environment.lookup?_snapshot]
  -- Whatever the result is, the overlay that held the parameters is dropped.
  have hback := Environment.restore_bindAll_snapshot ns vs s.env
  simp only [withFrame, bind_apply, modifyEnv, reading, hread]
  rcases f (Store.insertAll s.env.lookup? ns vs) with _ | _ | _
  all_goals simp only [ofResult, Outcome.mapState, hback]

end Evaluation

/-! ### Expressions -/

section Expressions

open Evaluation

variable [Host η] {texts : Interner} {apply : Application η}
  {call : Store η → FunctionDecl → List (Value η) → Result (Value η)}

mutual
theorem Expr.evalWith_eq_reading (hcall : ∀ d vs, apply d vs = reading (call · d vs)) :
    ∀ e : Expr, e.evalWith texts apply = reading (Copying.evalWith texts call · e)
  | .numeral x => by simp only [Expr.evalWith, Copying.evalWith, reading_pure]
  | .bool b => by simp only [Expr.evalWith, Copying.evalWith, reading_pure]
  | .identifier n => by simp only [Expr.evalWith, Copying.evalWith, reading_read]
  | .binary op l r => by
      simp only [Expr.evalWith, Copying.evalWith, ← reading_bind, ← reading_ofExcept,
        Expr.evalWith_eq_reading hcall l, Expr.evalWith_eq_reading hcall r]
  | .unary op e => by
      simp only [Expr.evalWith, Copying.evalWith, ← reading_bind, ← reading_ofExcept,
        Expr.evalWith_eq_reading hcall e]
  | .conditional test consequent alternate => by
      simp only [Expr.evalWith, Copying.evalWith, ← reading_bind, reading_ite,
        Expr.evalWith_eq_reading hcall test, Expr.evalWith_eq_reading hcall consequent,
        Expr.evalWith_eq_reading hcall alternate]
  | .call callee args => by
      have hargs := Expr.evalAllWith_eq_reading hcall args
      simp only [Expr.evalWith, Copying.evalWith, ← reading_read, ← reading_bind]
      congr 1
      funext v
      cases v with
      | builtin b => simp only [hargs, ← reading_bind, ← reading_ofExcept]
      | function d =>
          simp only [hargs, reading_ite, hcall, ← reading_bind, reading_throw]
      | number x => simp only [reading_throw]
      | bool b => simp only [reading_throw]
      | array l es => simp only [reading_throw]
  | .array es => by
      simp only [Expr.evalWith, Copying.evalWith, ← reading_bind, reading_pure,
        Expr.evalAllWith_eq_reading hcall es]
  | .subscript base index => by
      simp only [Expr.evalWith, Copying.evalWith, ← reading_bind, ← reading_ofExcept,
        Expr.evalWith_eq_reading hcall base, Expr.evalWith_eq_reading hcall index]
theorem Expr.evalAllWith_eq_reading (hcall : ∀ d vs, apply d vs = reading (call · d vs)) :
    ∀ es : List Expr, Expr.evalAllWith texts apply es = reading (Copying.evalAllWith texts call · es)
  | [] => by simp only [Expr.evalAllWith, Copying.evalAllWith, reading_pure]
  | e :: es => by
      simp only [Expr.evalAllWith, Copying.evalAllWith, ← reading_bind, reading_pure,
        Expr.evalWith_eq_reading hcall e, Expr.evalAllWith_eq_reading hcall es]
end

/-- A call of a user-defined function only reads: its overlay is gone when it is done. -/
theorem applyFunction_eq_reading (texts : Interner) (fuel : Nat) (d : FunctionDecl)
    (vs : List (Value η)) :
    applyFunction texts fuel d vs = reading (Copying.call texts fuel · d vs) := by
  induction fuel generalizing d vs with
  | zero => rfl
  | succ fuel ih =>
      rw [applyFunction, Expr.evalWith_eq_reading ih, withFrame_reading]
      rfl

/-- **Evaluating an expression only reads.** It comes to what the copying evaluator makes
of the visible bindings, and changes nothing. -/
theorem Expr.eval_eq_reading (texts : Interner) (fuel : Nat) (e : Expr) :
    (e.eval texts fuel : Evaluation η (Value η)) = reading (Copying.eval texts fuel · e) :=
  Expr.evalWith_eq_reading (applyFunction_eq_reading texts fuel) e

/-- **Expression evaluation restores the state exactly.** An evaluation comes to the value or
the error that the copying evaluator makes of the visible bindings, and it does so in the
very state that it started from: the frames with their bindings, the output and the text
that the sink keeps are those of before. It is cut short only where that one is. -/
theorem Expr.eval_restores_state (texts : Interner) (fuel : Nat) (e : Expr) (s : State η) :
    (∃ v, Copying.eval texts fuel s.env.lookup? e = some (.ok v) ∧
        e.eval texts fuel s = .done v s) ∨
      (∃ err, Copying.eval texts fuel s.env.lookup? e = some (.error err) ∧
        e.eval texts fuel s = .failed err s) ∨
      (Copying.eval texts fuel s.env.lookup? e = none ∧ e.eval texts fuel s = .outOfFuel) := by
  rw [Expr.eval_eq_reading, reading_apply]
  rcases Copying.eval texts fuel s.env.lookup? e with _ | err | v
  · exact Or.inr (Or.inr ⟨rfl, rfl⟩)
  · exact Or.inr (Or.inl ⟨err, rfl, rfl⟩)
  · exact Or.inl ⟨v, rfl, rfl⟩

end Expressions

end DynScope
