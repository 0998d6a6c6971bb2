import DynScope.Proofs.Prelude
import DynScope.Proofs.Steps

/-!
# DynScope.Proofs.Transition

**What every run keeps.** Four things can happen to the state of a run: a name that was
unbound gets a value, a name that was bound gets a new one, a value is printed, or nothing.
A reflexive and transitive relation of states that allows these (`Transition`) holds from
the start of every execution to its end, a failing one included (`Stmt.execAll_transition`).
A property of runs then needs no more than these cases.
-/

namespace DynScope

variable {η : Type}

/-- The state after a value has been printed. -/
def State.printed (s : State η) (v : Value η) : State η :=
  { s with output := s.output.push v, sink := s.sink.writeLine v.display }

/-- A relation of states that every step of a run stays in. -/
structure Transition (R : State η → State η → Prop) : Prop where
  refl : ∀ s, R s s
  trans : ∀ {s s' s''}, R s s' → R s' s'' → R s s''
  /-- A name that was unbound gets a value. -/
  declare : ∀ s n v, s.env.isBound n = false → R s { s with env := s.env.bind n v }
  /-- A name that was bound gets a new value. -/
  assign : ∀ s n v, s.env.isBound n = true → R s { s with env := s.env.bind n v }
  print : ∀ s v, R s (s.printed v)

namespace Evaluation

variable {α β : Type} {R : State η → State η → Prop}

/-- The step stays in the relation, whether it is done or fails. -/
def StaysIn (R : State η → State η → Prop) (m : Evaluation η α) : Prop :=
  ∀ s s', (m s).state? = some s' → R s s'

theorem StaysIn.bind (hR : Transition R) {m : Evaluation η α} {f : α → Evaluation η β}
    (hm : StaysIn R m) (hf : ∀ a, StaysIn R (f a)) : StaysIn R (m >>= f) := by
  intro s s' h
  rw [bind_apply] at h
  cases hms : m s with
  | done a s₁ =>
      rw [hms] at h
      exact hR.trans (hm s s₁ (by rw [hms]; rfl)) (hf a s₁ s' h)
  | failed e s₁ =>
      rw [hms] at h
      exact hm s s' (by rw [hms]; exact h)
  | outOfFuel =>
      rw [hms] at h
      cases h

theorem StaysIn.reading (hR : Transition R) (r : Copying.Store η → Copying.Result α) :
    StaysIn R (reading r) := by
  intro s s' h
  unfold Evaluation.reading ofResult at h
  rcases hr : r s.env.lookup? with _ | _ | _
  · rw [hr] at h
    cases h
  all_goals
    rw [hr] at h
    obtain rfl : s = s' := Option.some.inj h
    exact hR.refl s

theorem StaysIn.rebind_declare (hR : Transition R) (texts : Interner) (n : Name)
    (v : Value η) : StaysIn R (rebind texts n (·.declare n v)) := by
  intro s s' h
  cases hb : s.env.isBound n with
  | true =>
      simp only [rebind, Environment.declare, hb, if_true] at h
      obtain rfl : s = s' := Option.some.inj h
      exact hR.refl s
  | false =>
      simp only [rebind, Environment.declare, hb, if_false, Bool.false_eq_true] at h
      obtain rfl := Option.some.inj h
      exact hR.declare s n v hb

theorem StaysIn.rebind_assign (hR : Transition R) (texts : Interner) (n : Name)
    (v : Value η) : StaysIn R (rebind texts n (·.assign n v)) := by
  intro s s' h
  cases hb : s.env.isBound n with
  | true =>
      simp only [rebind, Environment.assign, hb, if_true] at h
      obtain rfl := Option.some.inj h
      exact hR.assign s n v hb
  | false =>
      simp only [rebind, Environment.assign, hb, if_false, Bool.false_eq_true] at h
      obtain rfl : s = s' := Option.some.inj h
      exact hR.refl s

theorem StaysIn.print (hR : Transition R) (v : Value η) : StaysIn R (print v) := by
  intro s s' h
  obtain rfl := Option.some.inj h
  exact hR.print s v

/-- Every step stays in a transition. -/
theorem compositional_staysIn (hR : Transition R) :
    Compositional fun _ (m : Evaluation η _) => StaysIn R m where
  bind := StaysIn.bind hR
  reading := StaysIn.reading hR
  declare := StaysIn.rebind_declare hR
  assign := StaysIn.rebind_assign hR
  print := StaysIn.print hR

end Evaluation

/-- **Every execution stays in a transition**, whether it succeeds or fails. -/
theorem Stmt.execAll_transition [Host η] {R : State η → State η → Prop} (hR : Transition R)
    (texts : Interner) (fuel : Nat) (b : Block) {s s' : State η}
    (h : (Stmt.execAll texts fuel b s).state? = some s') : R s s' :=
  Stmt.execAll_of_compositional (Evaluation.compositional_staysIn hR) texts fuel b s s' h

/-! ### Frames -/

theorem Environment.overlays_bind_eq_nil {e : Environment η} (h : e.overlays = [])
    (n : Name) (v : Value η) : (e.bind n v).overlays = [] := by
  obtain ⟨g, o, k, hk⟩ := e
  obtain rfl : o = [] := h
  rfl

/-- Where there are no overlays there are none to drop, however late a snapshot is restored. -/
theorem Environment.restore_of_overlays_nil {e : Environment η} (h : e.overlays = [])
    (token : Snapshot) : e.restore token = e := by
  ext1
  · rfl
  · rw [overlays_restore, h, List.drop_nil]

/-- Execution at top level stays there. -/
theorem transition_overlays_nil :
    Transition fun s s' : State η => s.env.overlays = [] → s'.env.overlays = [] where
  refl _ h := h
  trans h h' hs := h' (h hs)
  declare _ n v _ h := Environment.overlays_bind_eq_nil h n v
  assign _ n v _ h := Environment.overlays_bind_eq_nil h n v
  print _ _ h := h

/-- What a run leaves is what executing the body leaves, with the interner that names the
prelude. -/
theorem Interpreter.state?_interpret_eq_some [Host η] {i i' : Interpreter η} {fuel : Nat}
    {p : Program} (h : (i.interpret fuel p).state? = some i') :
    ∃ s, (Stmt.execAll (i.prelude.environment i.interner).1 fuel p.body
        { env := (i.prelude.environment i.interner).2, output := #[],
          sink := i.state.sink }).state? = some s ∧
      i' = { interner := (i.prelude.environment i.interner).1, prelude := i.prelude,
             state := s } := by
  unfold Interpreter.interpret at h
  dsimp only at h
  rw [Outcome.state?_mapState, Option.map_eq_some_iff] at h
  obtain ⟨s, hs, hi'⟩ := h
  exact ⟨s, hs, hi'.symm⟩

/-- A run leaves no overlay behind, whether it succeeds or fails. -/
theorem Interpreter.overlays_of_interpret [Host η] {i i' : Interpreter η} {fuel : Nat}
    {p : Program} (h : (i.interpret fuel p).state? = some i') : i'.env.overlays = [] := by
  obtain ⟨s, hs, rfl⟩ := Interpreter.state?_interpret_eq_some h
  have hstart := i.prelude.overlays_environment i.interner
  exact Stmt.execAll_transition transition_overlays_nil _ fuel p.body hs hstart

end DynScope
