import DynScope.Proofs.Printing
import DynScope.Proofs.Transition
import DynScope.Session

/-!
# DynScope.Proofs.History

**A run depends neither on what came before it nor on the frames around it.** Whatever an
interpreter has been used for, a run on it ends as it would have ended as the very first
one (`Session.run_independent`), and the frames around a run find nothing left to drop.

How it works:

* `Interpreter.Kin i j` says that `j` prepares its runs as `i` does. Every step of a session
  keeps it, and kin interpreters show the same of a run (`Kin.interpret_shown`).
* `runsAll` lists the runs that a session makes, inside its frames too, with what each left.
  `Account` is the invariant of a session: what its steps did, told by that list. There is
  one lemma for each way to take a step, and one for steps in sequence.
* A frame restores the environment that its last run left. That has no overlays, so there is
  nothing to drop, however many frames are open (`Account.frame`).
-/

namespace DynScope

variable {η : Type}

/-! ### Kin interpreters -/

namespace Interpreter

/-- What an interpreter shows of its latest run: the environment and the printed values. -/
def shown (i : Interpreter η) : Environment η × List (Value η) := (i.env, i.output)

/-- `j` prepares its runs as `i` does: they have the same prelude, and its texts have the
same names when a run begins. -/
structure Kin (i j : Interpreter η) : Prop where
  prelude_eq : j.prelude = i.prelude
  environment_eq : i.prelude.environment j.interner = i.prelude.environment i.interner

theorem Kin.refl (i : Interpreter η) : Kin i i := ⟨rfl, rfl⟩

theorem Kin.trans {i j k : Interpreter η} (h : Kin i j) (h' : Kin j k) : Kin i k where
  prelude_eq := h'.prelude_eq.trans h.prelude_eq
  environment_eq := by
    have hjk := h'.environment_eq
    rw [h.prelude_eq] at hjk
    exact hjk.trans h.environment_eq

variable [Host η]

/-- What a run starts from and what it leaves, with the parts named. -/
theorem interpret_eq (i : Interpreter η) (fuel : Nat) (p : Program) {t : Interner}
    {env : Environment η} (h : i.prelude.environment i.interner = (t, env)) :
    i.interpret fuel p =
      (Stmt.execAll t fuel p.body { env, output := #[], sink := i.state.sink }).mapState
        fun state => { interner := t, prelude := i.prelude, state } := by
  simp only [interpret, h]

/-- An interpreter that was left by a run, successful or not, prepares further runs alike. -/
theorem kin_of_interpret {i i' : Interpreter η} {fuel : Nat} {p : Program}
    (h : (i.interpret fuel p).state? = some i') : Kin i i' := by
  obtain ⟨s, -, rfl⟩ := state?_interpret_eq_some h
  exact ⟨rfl, i.prelude.environment_environment i.interner⟩

/-- Kin interpreters show the same of a run, whatever has been printed to their sinks. -/
theorem Kin.interpret_shown {i j : Interpreter η} (h : Kin i j) (fuel : Nat) (p : Program) :
    (j.interpret fuel p).mapState shown = (i.interpret fuel p).mapState shown := by
  rcases henv : i.prelude.environment i.interner with ⟨t, env⟩
  have hj : j.prelude.environment j.interner = (t, env) := by
    rw [h.prelude_eq, h.environment_eq, henv]
  rw [interpret_eq i fuel p henv, interpret_eq j fuel p hj]
  -- The two runs start alike but for their sinks, which hold what earlier runs printed.
  rw [Stmt.execAll_printedOnto t fuel p.body env #[] i.state.sink,
    Stmt.execAll_printedOnto t fuel p.body env #[] j.state.sink]
  simp only [Outcome.mapState_mapState]
  rfl

end Interpreter

namespace Session

/-! ### The runs of a session -/

/-- How a run ended, the lines of its output, and the depth of its environment. -/
abbrev End := Option EvalError × List String × Nat

/-- A run that was made as a step of a session. -/
structure Run (η : Type) where
  /-- The program. -/
  program : Program
  /-- The error that ended the run, if one did. -/
  error : Option EvalError
  /-- The interpreter as the run left it. -/
  left : Interpreter η

namespace Run

/-- The outcome of the run. -/
def outcome (r : Run η) : Outcome (Interpreter η) Unit :=
  match r.error with
  | none => .done () r.left
  | some e => .failed e r.left

/-- What the step answers. -/
def ending (r : Run η) : End := (r.error, r.left.output.map Value.display, r.left.env.depth)

theorem state?_outcome (r : Run η) : r.outcome.state? = some r.left := by
  obtain ⟨p, error, i⟩ := r
  cases error <;> rfl

end Run

/-- The interpreter inside a call frame, before any step is taken there. -/
def entered (i : Interpreter η) : Interpreter η := i.modifyEnv (·.snapshot.2)

mutual
/-- The runs that a step makes, in order. -/
def runs [Host η] (fuel : Nat) (i : Interpreter η) : Step η → List (Run η)
  | .interpret p =>
    match i.interpret fuel p with
    | .done () i => [⟨p, none, i⟩]
    | .failed e i => [⟨p, some e, i⟩]
    | .outOfFuel => []
  | .frame steps => runsAll fuel (entered i) steps
  | _ => []
/-- The runs that steps make one after the other. -/
def runsAll [Host η] (fuel : Nat) (i : Interpreter η) : List (Step η) → List (Run η)
  | [] => []
  | s :: rest => runs fuel i s ++
    match step fuel i s with
    | some (_, i) => runsAll fuel i rest
    | none => []
end

mutual
/-- The programs that a step asks to run, in order. -/
def programs : Step η → List Program
  | .interpret p => [p]
  | .frame steps => programsAll steps
  | _ => []
/-- The programs that steps ask to run. -/
def programsAll : List (Step η) → List Program
  | [] => []
  | s :: rest => programs s ++ programsAll rest
end

mutual
/-- The ends of runs that a reply tells of, in order. -/
def ends : Reply η → List End
  | .ran error lines depth => [(error, lines, depth)]
  | .frame _ inner _ => endsAll inner
  | _ => []
/-- The ends of runs that replies tell of. -/
def endsAll : List (Reply η) → List End
  | [] => []
  | r :: rest => ends r ++ endsAll rest
end

/-- The environment that the last of the runs left; `env` if there is none. -/
def lastEnv (env : Environment η) (rs : List (Run η)) : Environment η :=
  (rs.getLast?.map (·.left.env)).getD env

theorem lastEnv_append (env : Environment η) (rs rs' : List (Run η)) :
    lastEnv env (rs ++ rs') = lastEnv (lastEnv env rs) rs' := by
  simp only [lastEnv, List.getLast?_append]
  cases rs'.getLast? <;> simp

/-! ### The account of a session -/

variable [Host η]

/-- What the steps from `i` to `i'` did, told by the runs among them. -/
structure Account (fuel : Nat) (i : Interpreter η) (ps : List Program) (es : List End)
    (rs : List (Run η)) (i' : Interpreter η) : Prop where
  /-- Later runs are prepared alike. -/
  kin : i.Kin i'
  /-- The runs are those asked for. -/
  programs_eq : rs.map Run.program = ps
  /-- The answers are those of the runs. -/
  ends_eq : rs.map Run.ending = es
  /-- Nothing but the last run decides the environment. -/
  env_eq : i'.env = lastEnv i.env rs
  /-- Each run was made on an interpreter that prepares it as `i` does. -/
  made : ∀ r ∈ rs, ∃ j, i.Kin j ∧ j.interpret fuel r.program = r.outcome

namespace Account

variable {fuel : Nat} {i j i' : Interpreter η} {ps ps' : List Program} {es es' : List End}
  {rs rs' : List (Run η)}

/-- A run leaves an environment without overlays. -/
theorem overlays_left (h : Account fuel i ps es rs i') {r : Run η} (hr : r ∈ rs) :
    r.left.env.overlays = [] := by
  obtain ⟨j, -, hj⟩ := h.made r hr
  have hleft := r.state?_outcome
  rw [← hj] at hleft
  exact Interpreter.overlays_of_interpret hleft

theorem depth_left (h : Account fuel i ps es rs i') {r : Run η} (hr : r ∈ rs) :
    r.left.env.depth = 1 := by
  rw [Environment.depth_eq, h.overlays_left hr, List.length_nil]

/-- A run ends as it does on `i`. -/
theorem interpret_shown (h : Account fuel i ps es rs i') {r : Run η} (hr : r ∈ rs) :
    (i.interpret fuel r.program).mapState Interpreter.shown =
      r.outcome.mapState Interpreter.shown := by
  obtain ⟨j, hkin, hj⟩ := h.made r hr
  rw [← hj, hkin.interpret_shown]

/-- A step that leaves interner, prelude and environment alone. -/
theorem quiet (hinterner : i'.interner = i.interner) (hprelude : i'.prelude = i.prelude)
    (henv : i'.env = i.env) : Account fuel i [] [] [] i' where
  kin := ⟨hprelude, congrArg _ hinterner⟩
  programs_eq := rfl
  ends_eq := rfl
  env_eq := henv
  made _ h := by cases h

theorem quiet_step {reply reply' : Reply η} (h : some (reply, j) = some (reply', i'))
    (hends : ends reply = []) (hinterner : j.interner = i.interner)
    (hprelude : j.prelude = i.prelude) (henv : j.env = i.env) :
    Account fuel i [] (ends reply') [] i' := by
  obtain ⟨rfl, rfl⟩ := Prod.mk.inj (Option.some.inj h)
  rw [hends]
  exact .quiet hinterner hprelude henv

/-- A step that is a run. -/
theorem interpret {r : Run η} (h : i.interpret fuel r.program = r.outcome) :
    Account fuel i [r.program] [r.ending] [r] r.left where
  kin := Interpreter.kin_of_interpret (h ▸ r.state?_outcome)
  programs_eq := rfl
  ends_eq := rfl
  env_eq := rfl
  made r' hr := by
    obtain rfl := List.mem_singleton.mp hr
    exact ⟨i, .refl i, h⟩

/-- Steps taken one after the other. -/
theorem append (h : Account fuel i ps es rs j) (h' : Account fuel j ps' es' rs' i') :
    Account fuel i (ps ++ ps') (es ++ es') (rs ++ rs') i' where
  kin := h.kin.trans h'.kin
  programs_eq := by rw [List.map_append, h.programs_eq, h'.programs_eq]
  ends_eq := by rw [List.map_append, h.ends_eq, h'.ends_eq]
  env_eq := by rw [h'.env_eq, h.env_eq, lastEnv_append]
  made r hr := by
    rcases List.mem_append.mp hr with hr | hr
    · exact h.made r hr
    · obtain ⟨k, hk, hrun⟩ := h'.made r hr
      exact ⟨k, h.kin.trans hk, hrun⟩

/-- Steps taken inside a frame, which is dropped after them. -/
theorem frame (h : Account fuel (entered i) ps es rs j) :
    Account fuel i ps es rs (j.modifyEnv (·.restore i.env.snapshot.1)) where
  kin := ⟨h.kin.prelude_eq, h.kin.environment_eq⟩
  programs_eq := h.programs_eq
  ends_eq := h.ends_eq
  made r hr := by
    obtain ⟨k, hk, hrun⟩ := h.made r hr
    exact ⟨k, ⟨hk.prelude_eq, hk.environment_eq⟩, hrun⟩
  env_eq := by
    have hj : (j.modifyEnv (·.restore i.env.snapshot.1)).env =
        (lastEnv (entered i).env rs).restore i.env.snapshot.1 := by
      rw [← h.env_eq]
      rfl
    rw [hj]
    cases hlast : rs.getLast? with
    | none =>
        -- The overlay of the frame is still on top, and nothing is above it.
        simp only [lastEnv, hlast, Option.map_none, Option.getD_none]
        exact i.env.restore_snapshot
    | some r =>
        -- The last run made an environment of its own, without the overlay of the frame.
        simp only [lastEnv, hlast, Option.map_some, Option.getD_some]
        exact Environment.restore_of_overlays_nil (h.overlays_left (List.mem_of_getLast? hlast)) _

end Account

/-! ### Sessions -/

section Steps

variable {fuel : Nat} {i i' : Interpreter η}

theorem step_interpret_eq_some {p : Program} {reply : Reply η}
    (h : step fuel i (.interpret p) = some (reply, i')) :
    ∃ error, i.interpret fuel p = (Run.mk p error i').outcome ∧
      reply = .ran error (i'.output.map Value.display) i'.env.depth := by
  simp only [step, interpret] at h
  cases hrun : i.interpret fuel p with
  | done a j =>
      rw [hrun] at h
      obtain ⟨rfl, rfl⟩ := Prod.mk.inj (Option.some.inj h)
      exact ⟨none, rfl, rfl⟩
  | failed e j =>
      rw [hrun] at h
      obtain ⟨rfl, rfl⟩ := Prod.mk.inj (Option.some.inj h)
      exact ⟨some e, rfl, rfl⟩
  | outOfFuel =>
      rw [hrun] at h
      cases h

theorem step_frame_eq_some {steps : List (Step η)} {reply : Reply η}
    (h : step fuel i (.frame steps) = some (reply, i')) :
    ∃ inner j, run fuel (entered i) steps = some (inner, j) ∧
      i' = j.modifyEnv (·.restore i.env.snapshot.1) ∧
      reply = .frame (i.env.depth + 1) inner i'.env.depth := by
  simp only [step, Option.bind_eq_bind, Option.bind_eq_some_iff] at h
  obtain ⟨⟨inner, j⟩, hrun, h⟩ := h
  obtain ⟨rfl, rfl⟩ := Prod.mk.inj (Option.some.inj h)
  exact ⟨inner, j, hrun, rfl, rfl⟩

theorem run_cons_eq_some {s : Step η} {rest : List (Step η)} {replies : List (Reply η)}
    (h : run fuel i (s :: rest) = some (replies, i')) :
    ∃ reply j later, step fuel i s = some (reply, j) ∧ run fuel j rest = some (later, i') ∧
      replies = reply :: later := by
  simp only [run, Option.bind_eq_bind, Option.bind_eq_some_iff] at h
  obtain ⟨⟨reply, j⟩, hstep, ⟨later, k⟩, hrest, h⟩ := h
  obtain ⟨rfl, rfl⟩ := Prod.mk.inj (Option.some.inj h)
  exact ⟨reply, j, later, hstep, hrest, rfl⟩

end Steps

mutual
theorem step_account {fuel : Nat} : ∀ {s : Step η} {i i' : Interpreter η} {reply : Reply η},
    step fuel i s = some (reply, i') →
      Account fuel i (programs s) (ends reply) (runs fuel i s) i'
  | .interpret p, i, i', reply, h => by
      obtain ⟨error, hrun, rfl⟩ := step_interpret_eq_some h
      have hruns : runs fuel i (.interpret p) = [⟨p, error, i'⟩] := by
        rw [runs, hrun]
        cases error <;> rfl
      rw [hruns, programs, ends]
      exact Account.interpret (r := ⟨p, error, i'⟩) hrun
  | .frame steps, i, i', reply, h => by
      obtain ⟨inner, j, hrun, rfl, rfl⟩ := step_frame_eq_some h
      rw [runs, programs, ends]
      exact (run_account hrun).frame
  | .output, _, _, _, h => .quiet_step h rfl rfl rfl rfl
  | .takeOutput, _, _, _, h => .quiet_step h rfl rfl rfl rfl
  | .env _, _, _, _, h => .quiet_step h rfl rfl rfl rfl
  | .captured, _, _, _, h => .quiet_step h rfl rfl rfl rfl
  | .clear, _, _, _, h => .quiet_step h rfl rfl rfl rfl
  | .print _, _, _, _, h => .quiet_step h rfl rfl rfl rfl
  | .collect, _, _, _, h => .quiet_step h rfl rfl rfl rfl
theorem run_account {fuel : Nat} : ∀ {steps : List (Step η)} {i i' : Interpreter η}
    {replies : List (Reply η)}, run fuel i steps = some (replies, i') →
      Account fuel i (programsAll steps) (endsAll replies) (runsAll fuel i steps) i'
  | [], i, i', replies, h => by
      obtain ⟨rfl, rfl⟩ := Prod.mk.inj (Option.some.inj h)
      exact .quiet rfl rfl rfl
  | s :: rest, i, i', replies, h => by
      obtain ⟨reply, j, later, hstep, hrest, rfl⟩ := run_cons_eq_some h
      simp only [runsAll, programsAll, endsAll, hstep]
      exact (step_account hstep).append (run_account hrest)
end

/-! ### Independence -/

/-- What holds of a session that takes `steps` from `first` to `last`, however they are
nested. -/
structure Independent (fuel : Nat) (first : Interpreter η) (steps : List (Step η))
    (replies : List (Reply η)) (last : Interpreter η) : Prop where
  /-- The runs made are those asked for. -/
  programs_eq : (runsAll fuel first steps).map Run.program = programsAll steps
  /-- The replies tell how these runs ended. -/
  ends_eq : endsAll replies = (runsAll fuel first steps).map Run.ending
  /-- Each run came to the same result, with the same output and the same bindings, as it
  would have as the first step. -/
  run_shown : ∀ r ∈ runsAll fuel first steps,
    r.outcome.mapState Interpreter.shown =
      (first.interpret fuel r.program).mapState Interpreter.shown
  /-- Each run left no overlay, however many frames were around it. -/
  depth_left : ∀ r ∈ runsAll fuel first steps, r.left.env.depth = 1
  /-- Inside a frame there is one overlay more than before it. -/
  depth_entered : ∀ (i i' : Interpreter η) (inner : List (Step η)) (reply : Reply η),
    step fuel i (.frame inner) = some (reply, i') →
      ∃ answers, reply = .frame (i.env.depth + 1) answers i'.env.depth
  /-- A frame with no run inside leaves the environment as it was. -/
  frame_without_run : ∀ (i i' : Interpreter η) (inner : List (Step η)) (reply : Reply η),
    step fuel i (.frame inner) = some (reply, i') → programsAll inner = [] → i'.env = i.env
  /-- A frame with runs inside leaves the environment that the last of them left. -/
  frame_after_run : ∀ (i i' : Interpreter η) (inner : List (Step η)) (reply : Reply η),
    step fuel i (.frame inner) = some (reply, i') → programsAll inner ≠ [] →
      ∃ r, (runs fuel i (.frame inner)).getLast? = some r ∧ i'.env = r.left.env
  /-- Outside all frames there are no overlays. -/
  depth_last : last.env.depth = 1

/-- The environment after a frame is decided by the runs inside it. -/
theorem step_frame_env {fuel : Nat} {i i' : Interpreter η} {inner : List (Step η)}
    {reply : Reply η} (h : step fuel i (.frame inner) = some (reply, i')) :
    (programsAll inner = [] ∧ i'.env = i.env) ∨
      ∃ r, programsAll inner ≠ [] ∧ (runs fuel i (.frame inner)).getLast? = some r ∧
        i'.env = r.left.env := by
  have hacc := step_account h
  have hprograms : (runs fuel i (.frame inner)).map Run.program = programsAll inner := by
    rw [hacc.programs_eq, programs]
  cases hlast : (runs fuel i (.frame inner)).getLast? with
  | none =>
      have hnil := List.getLast?_eq_none_iff.mp hlast
      refine Or.inl ⟨by rw [← hprograms, hnil, List.map_nil], ?_⟩
      rw [hacc.env_eq, hnil]
      rfl
  | some r =>
      refine Or.inr ⟨r, ?_, rfl, ?_⟩
      · rw [← hprograms]
        exact fun hnil => List.ne_nil_of_mem (List.mem_of_getLast? hlast) (List.map_eq_nil_iff.mp hnil)
      · rw [hacc.env_eq, lastEnv, hlast]
        rfl

/-- **Runs are independent of history and of frames.** Whatever is decided about an
interpreter, and whatever steps are taken on it in whatever nesting, every run is the run
that the unused interpreter makes, every frame leaves the environment of before or of its
last run, and outside all frames there are no overlays. -/
theorem run_independent (t : Interner) (settings : List (Setting η)) (fuel : Nat)
    (steps : List (Step η)) (replies : List (Reply η)) (last : Interpreter η)
    (h : run fuel (Interpreter.new t (.ofSettings settings)) steps = some (replies, last)) :
    Independent fuel (Interpreter.new t (.ofSettings settings)) steps replies last := by
  have hacc := run_account h
  refine {
    programs_eq := hacc.programs_eq
    ends_eq := hacc.ends_eq.symm
    run_shown := fun r hr => (hacc.interpret_shown hr).symm
    depth_left := fun r hr => hacc.depth_left hr
    depth_entered := ?_
    frame_without_run := ?_
    frame_after_run := ?_
    depth_last := ?_ }
  · intro i i' inner reply hstep
    obtain ⟨answers, j, -, rfl, rfl⟩ := step_frame_eq_some hstep
    exact ⟨answers, rfl⟩
  · intro i i' inner reply hstep hnone
    rcases step_frame_env hstep with ⟨-, henv⟩ | ⟨r, hsome, -⟩
    · exact henv
    · exact absurd hnone hsome
  · intro i i' inner reply hstep hsome
    rcases step_frame_env hstep with ⟨hnone, -⟩ | ⟨r, -, hlast, henv⟩
    · exact absurd hnone hsome
    · exact ⟨r, hlast, henv⟩
  · rw [hacc.env_eq, lastEnv]
    cases hlast : (runsAll fuel (Interpreter.new t (.ofSettings settings)) steps).getLast? with
    | none => rfl
    | some r => exact hacc.depth_left (List.mem_of_getLast? hlast)

/-- A run that succeeds, then one inside two frames that fails, a run after it in the outer
frame, and a frame without runs. -/
def nestedFrames : List (Step Empty) :=
  [.interpret ⟨[.declare ⟨0⟩ (.bool true)]⟩,
    .frame [.frame [.interpret ⟨[.print (.bool false), .print (.identifier ⟨0⟩)]⟩],
      .interpret ⟨[.print (.bool true)]⟩],
    .clear, .frame [.output]]

theorem run_independent_nestedFrames :
    ∃ (replies : List (Reply Empty)) (last : Interpreter Empty),
      run 1 (Interpreter.new .empty (.ofSettings [.emptyPrelude])) nestedFrames =
        some (replies, last) ∧
      Independent 1 (Interpreter.new .empty (.ofSettings [.emptyPrelude])) nestedFrames
        replies last :=
  ⟨_, _, rfl, run_independent .empty [.emptyPrelude] 1 nestedFrames _ _ rfl⟩

end Session

end DynScope
