import DynScope.Proofs.History
import DynScope.Proofs.Replay
import Mathlib.Data.List.DropRight
import Mathlib.Data.List.Forall2

/-!
# DynScope.Proofs.Records

**Two records of one printing.** What a statement prints is recorded twice: as a value in the
output of the run, and as a line in the text that the sink keeps. The two have different
lifetimes. The output starts anew with each run and is empty once it was taken; the text lives
on over runs, gets the lines of values that are printed past the interpreter too, and goes with
the next clearing. At every moment of a session both are determined by what has happened up to
then, and the choice of the sink affects neither results nor outputs nor environments
(`Session.records_in_step`).

How it works:

* `Session.momentsAll` lists the moments of a session: what was done last, and the interpreter
  that it left. `Act.Does` says what each act means for the records, as a list of `Mark`s; for
  a run these are the values of the print statements that completed in it.
* `Ledger` is the pair of the records, and `Ledger.add` what a mark does to it. Each act takes
  the ledger of the interpreter along its marks, and so does a session (`Session.run_kept`).
* `Session.Hushed i j` says that `j` is `i` with a sink that keeps nothing. Every step of a
  session does the same to both (`Session.run_hushed`).
-/

namespace DynScope

variable {η : Type}

/-! ### Marks -/

/-- What happens to the records of printed values. -/
inductive Mark (η : Type) where
  /-- A run began. -/
  | began
  /-- A statement printed a value. -/
  | printed (v : Value η)
  /-- A value was printed past the interpreter. -/
  | direct (v : Value η)
  /-- The text that the sink keeps was cleared. -/
  | cleared
  /-- The output was taken. -/
  | taken

namespace Mark

/-- The value whose line went to the sink. -/
def line? : Mark η → Option (Value η)
  | .printed v => some v
  | .direct v => some v
  | .began => none
  | .cleared => none
  | .taken => none

/-- The value that went to the output. -/
def recorded? : Mark η → Option (Value η)
  | .printed v => some v
  | .direct _ => none
  | .began => none
  | .cleared => none
  | .taken => none

/-- Whether the text starts anew. -/
def clearsText : Mark η → Bool
  | .cleared => true
  | .began => false
  | .printed _ => false
  | .direct _ => false
  | .taken => false

/-- Whether the output starts anew. -/
def clearsOutput : Mark η → Bool
  | .began => true
  | .taken => true
  | .printed _ => false
  | .direct _ => false
  | .cleared => false

/-- The values that `f` picks from the marks after the last one at which `stop` holds. -/
def since (stop : Mark η → Bool) (f : Mark η → Option (Value η)) (ms : List (Mark η)) :
    List (Value η) :=
  (ms.rtakeWhile (!stop ·)).filterMap f

/-- The values printed since the text was last cleared, by statements or otherwise. -/
def sinceCleared : List (Mark η) → List (Value η) := since clearsText line?

/-- The values printed by statements since the last run began; none, if the output was taken
since. -/
def ofLatestRun : List (Mark η) → List (Value η) := since clearsOutput recorded?

theorem since_concat (stop : Mark η → Bool) (f : Mark η → Option (Value η))
    (ms : List (Mark η)) (m : Mark η) :
    since stop f (ms ++ [m]) = if stop m then [] else since stop f ms ++ (f m).toList := by
  rw [since, List.rtakeWhile_concat]
  cases hstop : stop m with
  | true => simp
  | false => cases hf : f m <;> simp [since, hf]

end Mark

/-- The lines of values: the text of each, and the end of the line. -/
def Value.lines (vs : List (Value η)) : String := String.join (vs.map fun v => v.display ++ "\n")

@[simp] theorem Value.lines_nil : Value.lines ([] : List (Value η)) = "" := rfl

theorem Value.lines_append (vs vs' : List (Value η)) :
    Value.lines (vs ++ vs') = Value.lines vs ++ Value.lines vs' := by
  rw [lines, List.map_append, String.join_append]
  rfl

theorem Value.lines_singleton (v : Value η) : Value.lines [v] = v.display ++ "\n" := by
  simp [lines, String.join_cons]

/-! ### Ledgers -/

/-- The two records: the text that the sink keeps, and the output. -/
structure Ledger (η : Type) where
  /-- The text. -/
  text : String
  /-- The output. -/
  output : List (Value η)

namespace Ledger

/-- What a mark does to the records. -/
def add (l : Ledger η) : Mark η → Ledger η
  | .began => { l with output := [] }
  | .printed v => { text := l.text ++ v.display ++ "\n", output := l.output ++ [v] }
  | .direct v => { l with text := l.text ++ v.display ++ "\n" }
  | .cleared => { l with text := "" }
  | .taken => { l with output := [] }

/-- From empty records, the text is that of the lines since the last clearing, and the output
is that of the latest run. -/
theorem foldl_add_empty (ms : List (Mark η)) :
    ms.foldl add ⟨"", []⟩ = ⟨Value.lines (Mark.sinceCleared ms), Mark.ofLatestRun ms⟩ := by
  induction ms using List.reverseRecOn with
  | nil => rfl
  | append_singleton ms m ih =>
      rw [List.foldl_append, List.foldl_cons, List.foldl_nil, ih]
      simp only [Mark.sinceCleared, Mark.ofLatestRun, Mark.since_concat]
      cases m <;> simp [add, Mark.clearsText, Mark.clearsOutput, Mark.line?, Mark.recorded?,
        Value.lines_append, Value.lines_singleton, String.append_assoc]

/-- The values that a run prints are added to both records. -/
theorem foldl_add_printed (vs : List (Value η)) (l : Ledger η) :
    vs.foldl (fun k v => k.writeLine v.display) (Sink.capture l.text) =
        Sink.capture ((vs.map Mark.printed).foldl add l).text ∧
      ((vs.map Mark.printed).foldl add l).output = l.output ++ vs := by
  induction vs generalizing l with
  | nil => exact ⟨rfl, (List.append_nil _).symm⟩
  | cons v vs ih =>
      obtain ⟨htext, houtput⟩ := ih (l.add (.printed v))
      refine ⟨htext, houtput.trans ?_⟩
      simp [add]

end Ledger

/-- The records of the interpreter, whose sink keeps text. -/
structure Interpreter.Holds (i : Interpreter η) (l : Ledger η) : Prop where
  sink_eq : i.state.sink = .capture l.text
  output_eq : i.output = l.output

/-! ### Moments of a session -/

/-- How a computation ended: the error, if it failed, and the state. -/
def Outcome.end? {σ : Type} : Outcome σ Unit → Option (Option EvalError × σ)
  | .done () s => some (none, s)
  | .failed e s => some (some e, s)
  | .outOfFuel => none

@[simp] theorem Outcome.end?_ended {σ : Type} (error : Option EvalError) (s : σ) :
    (ended error s).end? = some (error, s) := by
  cases error <;> rfl

theorem Outcome.eq_ended_or {σ : Type} (o : Outcome σ Unit) :
    o = .outOfFuel ∨ ∃ error s, o = .ended error s := by
  cases o with
  | done a s => exact Or.inr ⟨none, s, rfl⟩
  | failed e s => exact Or.inr ⟨some e, s, rfl⟩
  | outOfFuel => exact Or.inl rfl

namespace Session

/-- What is done in a session. -/
inductive Act (η : Type) where
  /-- A program was run from a fresh environment, and ended. -/
  | ran (texts : Interner) (fresh : Environment η) (p : Program) (error : Option EvalError)
  /-- Something was looked at. -/
  | looked
  /-- The output was taken. -/
  | took
  /-- The sink was cleared. -/
  | cleared
  /-- A value was printed past the interpreter. -/
  | printed (v : Value η)
  /-- A call frame was entered. -/
  | entered
  /-- A call frame was left. -/
  | left

/-- A moment of a session: the latest act, and the interpreter after it. -/
structure Moment (η : Type) where
  /-- The act. -/
  act : Act η
  /-- The interpreter. -/
  left : Interpreter η

variable [Host η]

/-- What an act means for the records. A run prints the values of the print statements that
complete in it, whether it fails or not. -/
inductive Act.Does : Act η → List (Mark η) → Prop
  | ran {texts fresh p error es env} : Stmt.RunsAll texts fresh p.body es error env →
      Act.Does (.ran texts fresh p error) (.began :: (Event.printed es).map .printed)
  | looked : Act.Does .looked []
  | took : Act.Does .took [.taken]
  | cleared : Act.Does .cleared [.cleared]
  | printed (v : Value η) : Act.Does (.printed v) [.direct v]
  | entered : Act.Does .entered []
  | left : Act.Does .left []

/-- What an act means is determined. -/
theorem Act.Does.unique {a : Act η} {ks ks' : List (Mark η)} (h : a.Does ks) (h' : a.Does ks') :
    ks = ks' := by
  cases h with
  | ran hruns =>
      cases h' with
      | ran hruns' => rw [(hruns.unique hruns').1]
  | _ =>
      cases h'
      rfl

mutual
/-- The moments of a step, in order. -/
def moments (fuel : Nat) (i : Interpreter η) : Step η → List (Moment η)
  | .interpret p =>
    let fresh := i.prelude.environment i.interner
    (i.interpret fuel p).end?.toList.map fun r => ⟨.ran fresh.1 fresh.2 p r.1, r.2⟩
  | .output => [⟨.looked, i⟩]
  | .takeOutput => [⟨.took, i.takeOutput.2⟩]
  | .env _ => [⟨.looked, i⟩]
  | .captured => [⟨.looked, i⟩]
  | .clear => [⟨.cleared, i.modifySink .clear⟩]
  | .print v => [⟨.printed v, i.modifySink (.writeLine v.display)⟩]
  | .collect => [⟨.looked, i.modifySink fun _ => i.state.sink.collect.2⟩]
  | .frame steps =>
    ⟨.entered, entered i⟩ :: momentsAll fuel (entered i) steps ++
      (run fuel (entered i) steps).toList.map fun r =>
        ⟨.left, r.2.modifyEnv (·.restore i.env.snapshot.1)⟩
/-- The moments of steps that are taken one after the other. A step that does not end is the
last. -/
def momentsAll (fuel : Nat) (i : Interpreter η) : List (Step η) → List (Moment η)
  | [] => []
  | s :: rest => moments fuel i s ++
    (step fuel i s).elim [] fun r => momentsAll fuel r.2 rest
end

/-! ### The records of a session -/

/-- The acts take the records from one ledger to another, each along its marks, and every
interpreter on the way holds them. -/
inductive Kept : Ledger η → List (Moment η) → Ledger η → Prop
  | nil {l} : Kept l [] l
  | cons {l m ks rest l'} : m.act.Does ks → m.left.Holds (ks.foldl Ledger.add l) →
      Kept (ks.foldl Ledger.add l) rest l' → Kept l (m :: rest) l'

namespace Kept

variable {l l₁ l' : Ledger η} {ms ms' : List (Moment η)}

theorem append (h : Kept l ms l₁) (h' : Kept l₁ ms' l') : Kept l (ms ++ ms') l' := by
  induction h with
  | nil => exact h'
  | cons hdoes hholds _ ih => exact .cons hdoes hholds (ih h')

/-- The marks of all acts, and the ledger after each of them. -/
theorem exists_marks (h : Kept l ms l') :
    ∃ marks, List.Forall₂ (fun m ks => m.act.Does ks) ms marks ∧ ∀ (n : Nat) (m : Moment η),
      ms[n]? = some m → m.left.Holds ((marks.take (n + 1)).flatten.foldl Ledger.add l) := by
  induction h with
  | nil => exact ⟨[], .nil, fun n m h => by cases h⟩
  | @cons l m ks rest l' hdoes hholds _ ih =>
      obtain ⟨marks, hmarks, hrest⟩ := ih
      refine ⟨ks :: marks, .cons hdoes hmarks, fun n m' hm' => ?_⟩
      rw [List.take_succ_cons, List.flatten_cons, List.foldl_append]
      cases n with
      | zero =>
          obtain rfl := Option.some.inj hm'
          exact hholds
      | succ n => exact hrest n m' hm'

end Kept

section Step

variable {fuel : Nat} {i : Interpreter η} {l : Ledger η}

/-- A run takes the records along the marks of its events. -/
theorem holds_of_interpret {j : Interpreter η} {p : Program} {error : Option EvalError}
    (hi : i.Holds l) (h : i.interpret fuel p = .ended error j) :
    ∃ ks, Act.Does (.ran (i.prelude.environment i.interner).1
        (i.prelude.environment i.interner).2 p error) ks ∧ j.Holds (ks.foldl Ledger.add l) := by
  obtain ⟨es, hruns, houtput, hsink⟩ := Interpreter.exists_runsAll h
  obtain ⟨htext, hvalues⟩ := Ledger.foldl_add_printed (Event.printed es) (l.add .began)
  rw [hi.sink_eq] at hsink
  exact ⟨_, .ran hruns, hsink.trans htext, houtput.trans hvalues.symm⟩

/-- A step that is a single act. -/
theorem Kept.single {s : Step η} {m : Moment η} {ks : List (Mark η)} {reply : Reply η}
    (hmoments : moments fuel i s = [m]) (hstep : step fuel i s = some (reply, m.left))
    (hdoes : m.act.Does ks) (hholds : m.left.Holds (ks.foldl Ledger.add l)) :
    ∃ l', Kept l (moments fuel i s) l' ∧
      ∀ reply j, step fuel i s = some (reply, j) → j.Holds l' := by
  refine ⟨ks.foldl Ledger.add l, ?_, fun reply' j h => ?_⟩
  · rw [hmoments]
    exact .cons hdoes hholds .nil
  · obtain ⟨-, rfl⟩ := Prod.mk.inj (Option.some.inj (hstep.symm.trans h))
    exact hholds

end Step

mutual
theorem step_kept (fuel : Nat) : ∀ (s : Step η) {i : Interpreter η} {l : Ledger η}, i.Holds l →
    ∃ l', Kept l (moments fuel i s) l' ∧
      ∀ reply j, step fuel i s = some (reply, j) → j.Holds l'
  | .interpret p, i, l, hi => by
      rcases (i.interpret fuel p).eq_ended_or with hrun | ⟨error, j, hrun⟩
      · refine ⟨l, ?_, fun reply j hstep => ?_⟩
        · simp only [moments, hrun, Outcome.end?]
          exact .nil
        · simp only [step, interpret, hrun] at hstep
          cases hstep
      · obtain ⟨ks, hdoes, hholds⟩ := holds_of_interpret hi hrun
        have hstep : step fuel i (.interpret p) =
            some (.ran error (j.output.map Value.display) j.env.depth, j) := by
          simp only [step, interpret, hrun]
          cases error <;> rfl
        refine Kept.single (m := ⟨_, j⟩) ?_ hstep hdoes hholds
        simp only [moments, hrun, Outcome.end?_ended, Option.toList_some, List.map_cons,
          List.map_nil]
  | .output, _, _, hi => Kept.single rfl rfl .looked hi
  | .takeOutput, _, _, hi => Kept.single rfl rfl .took ⟨hi.sink_eq, rfl⟩
  | .env _, _, _, hi => Kept.single rfl rfl .looked hi
  | .captured, _, _, hi => Kept.single rfl rfl .looked hi
  | .clear, i, _, hi => by
      refine Kept.single (m := ⟨_, i.modifySink .clear⟩) rfl rfl .cleared ⟨?_, hi.output_eq⟩
      exact congrArg Sink.clear hi.sink_eq
  | .print v, i, _, hi => by
      refine Kept.single (m := ⟨_, i.modifySink (.writeLine v.display)⟩) rfl rfl (.printed v)
        ⟨?_, hi.output_eq⟩
      exact congrArg (Sink.writeLine v.display) hi.sink_eq
  | .collect, i, _, hi => by
      refine Kept.single (m := ⟨_, i.modifySink fun _ => i.state.sink.collect.2⟩) rfl rfl .looked
        ⟨?_, hi.output_eq⟩
      exact congrArg (fun k => (Sink.collect k).2) hi.sink_eq
  | .frame steps, i, l, hi => by
      have hentered : (entered i).Holds l := ⟨hi.sink_eq, hi.output_eq⟩
      obtain ⟨l', hkept, hlast⟩ := run_kept fuel steps hentered
      have hinside : Kept l (⟨.entered, entered i⟩ :: momentsAll fuel (entered i) steps) l' :=
        .cons .entered hentered hkept
      cases hrun : run fuel (entered i) steps with
      | none =>
          refine ⟨l', ?_, fun reply j hstep => ?_⟩
          · simpa only [moments, hrun, Option.toList_none, List.map_nil, List.append_nil]
              using hinside
          · obtain ⟨inner, k, hrun', -⟩ := step_frame_eq_some hstep
            cases hrun.symm.trans hrun'
      | some r =>
          obtain ⟨inner, k⟩ := r
          have hk := hlast inner k hrun
          have hleft : (k.modifyEnv (·.restore i.env.snapshot.1)).Holds l' :=
            ⟨hk.sink_eq, hk.output_eq⟩
          refine ⟨l', ?_, fun reply j hstep => ?_⟩
          · simp only [moments, hrun, Option.toList_some, List.map_cons, List.map_nil]
            exact hinside.append (.cons .left hleft .nil)
          · obtain ⟨inner', k', hrun', rfl, -⟩ := step_frame_eq_some hstep
            cases hrun.symm.trans hrun'
            exact hleft
/-- **A session takes the records along its marks.** -/
theorem run_kept (fuel : Nat) : ∀ (steps : List (Step η)) {i : Interpreter η} {l : Ledger η},
    i.Holds l → ∃ l', Kept l (momentsAll fuel i steps) l' ∧
      ∀ replies j, run fuel i steps = some (replies, j) → j.Holds l'
  | [], i, l, hi => by
      refine ⟨l, .nil, fun replies j h => ?_⟩
      obtain ⟨-, rfl⟩ := Prod.mk.inj (Option.some.inj h)
      exact hi
  | s :: rest, i, l, hi => by
      obtain ⟨l₁, hkept, hlast⟩ := step_kept fuel s hi
      cases hstep : step fuel i s with
      | none =>
          refine ⟨l₁, ?_, fun replies j hrun => ?_⟩
          · simpa only [momentsAll, hstep, Option.elim_none, List.append_nil] using hkept
          · obtain ⟨reply, k, later, hstep', -, -⟩ := run_cons_eq_some hrun
            cases hstep.symm.trans hstep'
      | some r =>
          obtain ⟨reply, k⟩ := r
          obtain ⟨l', hrest, hlast'⟩ := run_kept fuel rest (hlast reply k hstep)
          refine ⟨l', ?_, fun replies j hrun => ?_⟩
          · simp only [momentsAll, hstep, Option.elim_some]
            exact hkept.append hrest
          · obtain ⟨reply', k', later, hstep', hrun', -⟩ := run_cons_eq_some hrun
            cases hstep.symm.trans hstep'
            exact hlast' later j hrun'
end

/-! ### The moments lead to the end of the session -/

/-- The interpreter after some moments; `i` if there are none. -/
def after (i : Interpreter η) (ms : List (Moment η)) : Interpreter η :=
  (ms.getLast?.map (·.left)).getD i

omit [Host η] in
theorem after_append (i : Interpreter η) (ms ms' : List (Moment η)) :
    after i (ms ++ ms') = after (after i ms) ms' := by
  simp only [after, List.getLast?_append]
  cases ms'.getLast? <;> simp

theorem after_moments {fuel : Nat} {i j : Interpreter η} {s : Step η} {reply : Reply η}
    (h : step fuel i s = some (reply, j)) : after i (moments fuel i s) = j := by
  cases s with
  | interpret p =>
      obtain ⟨error, hrun, -⟩ := step_interpret_eq_some h
      have hend : (i.interpret fuel p).end? = some (error, j) := by
        rw [hrun]
        cases error <;> rfl
      simp only [moments, hend]
      rfl
  | frame steps =>
      obtain ⟨inner, k, hrun, rfl, -⟩ := step_frame_eq_some h
      simp only [moments, hrun, after_append]
      rfl
  | _ =>
      obtain ⟨-, rfl⟩ := Prod.mk.inj (Option.some.inj h)
      rfl

theorem after_momentsAll {fuel : Nat} {i j : Interpreter η} {steps : List (Step η)}
    {replies : List (Reply η)} (h : run fuel i steps = some (replies, j)) :
    after i (momentsAll fuel i steps) = j := by
  induction steps generalizing i replies with
  | nil =>
      obtain ⟨-, rfl⟩ := Prod.mk.inj (Option.some.inj h)
      rfl
  | cons s rest ih =>
      obtain ⟨reply, k, later, hstep, hrest, -⟩ := run_cons_eq_some h
      simp only [momentsAll, hstep, Option.elim_some, after_append, after_moments hstep]
      exact ih hrest

/-! ### Sinks that keep nothing -/

end Session

/-- The sink keeps no text, whatever is printed. -/
inductive Sink.Mute : Sink → Prop
  | discard : Sink.Mute .discard
  | forward (pending : String) : Sink.Mute (.forward pending)

namespace Sink.Mute

variable {k : Sink}

theorem captured_eq (h : k.Mute) : k.captured = "" := by
  cases h <;> rfl

theorem writeLine (h : k.Mute) (line : String) : (k.writeLine line).Mute := by
  cases h with
  | discard => exact .discard
  | forward pending => exact .forward _

theorem clear (h : k.Mute) : k.clear.Mute := by
  cases h with
  | discard => exact .discard
  | forward pending => exact .forward pending

theorem collect (h : k.Mute) : k.collect.2.Mute := by
  cases h with
  | discard => exact .discard
  | forward pending => exact .forward ""

theorem foldl_writeLine (h : k.Mute) (vs : Array (Value η)) :
    (vs.foldl (fun k v => k.writeLine v.display) k).Mute :=
  Array.foldl_induction (fun _ k => Sink.Mute k) h fun _ _ h => h.writeLine _

end Sink.Mute

/-- The interpreter with another sink. -/
def Interpreter.withSink (k : Sink) (i : Interpreter η) : Interpreter η := i.modifySink fun _ => k

/-- A run with another sink is the same run, and the sink gets the lines of its output. -/
theorem Interpreter.interpret_withSink [Host η] (i : Interpreter η) (k : Sink) (fuel : Nat)
    (p : Program) : (i.withSink k).interpret fuel p = (i.interpret fuel p).mapState fun j =>
      j.withSink (j.state.output.foldl (fun k v => k.writeLine v.display) k) := by
  rcases henv : i.prelude.environment i.interner with ⟨t, env⟩
  have hwith : (i.withSink k).prelude.environment (i.withSink k).interner = (t, env) := henv
  rw [interpret_eq i fuel p henv, interpret_eq _ fuel p hwith]
  rw [Stmt.execAll_printedOnto t fuel p.body env #[] i.state.sink,
    Stmt.execAll_printedOnto t fuel p.body env #[] (i.withSink k).state.sink]
  simp only [Outcome.mapState_mapState]
  congr 1
  funext s
  simp only [Function.comp, State.printedOnto, withSink, modifySink, Array.empty_append]

namespace Session

variable [Host η]

mutual
/-- A reply without the texts that it tells. -/
def untold : Reply η → Reply η
  | .text _ => .text ""
  | .frame entered inner depth => .frame entered (untoldAll inner) depth
  | .ran error lines depth => .ran error lines depth
  | .values vs => .values vs
  | .env depth vars => .env depth vars
  | .taken => .taken
/-- Replies without the texts that they tell. -/
def untoldAll : List (Reply η) → List (Reply η)
  | [] => []
  | r :: rest => untold r :: untoldAll rest
end

/-- The second interpreter is the first one with a sink that keeps nothing. -/
inductive Hushed : Interpreter η → Interpreter η → Prop
  | mk (i : Interpreter η) {k : Sink} : k.Mute → Hushed i (i.withSink k)

/-- The same was done, and left the same but for the sink. -/
def Moment.Hushed (m m' : Moment η) : Prop := m'.act = m.act ∧ Session.Hushed m.left m'.left

/-- Both steps do not end, or they answer the same and leave the same but for the sink. -/
def HushedEnds {ρ : Type} (f : ρ → ρ) : Option (ρ × Interpreter η) →
    Option (ρ × Interpreter η) → Prop :=
  Option.Rel fun r r' => f r'.1 = f r.1 ∧ Hushed r.2 r'.2

/-- What a frame answers and leaves is made from what its inner steps answer and leave. -/
theorem step_frame_eq (fuel : Nat) (i : Interpreter η) (steps : List (Step η)) :
    step fuel i (.frame steps) = (run fuel (entered i) steps).map fun r =>
      let j := r.2.modifyEnv (·.restore i.env.snapshot.1)
      (.frame (i.env.depth + 1) r.1 j.env.depth, j) := by
  simp only [step]
  change (run fuel (entered i) steps).bind _ = _
  cases run fuel (entered i) steps <;> rfl

namespace Hushed

omit [Host η]

variable {i j : Interpreter η}

theorem modifyEnv (h : Hushed i j) (f : Environment η → Environment η) :
    Hushed (i.modifyEnv f) (j.modifyEnv f) := by
  cases h with
  | mk hk => exact .mk (i.modifyEnv f) hk

theorem env_eq (h : Hushed i j) : j.env = i.env := by
  cases h
  rfl

theorem output_eq (h : Hushed i j) : j.output = i.output := by
  cases h
  rfl

theorem captured_eq (h : Hushed i j) : j.state.sink.captured = "" := by
  cases h with
  | mk hk => exact hk.captured_eq

end Hushed

mutual
theorem step_hushed (fuel : Nat) : ∀ (s : Step η) {i j : Interpreter η}, Hushed i j →
    HushedEnds untold (step fuel i s) (step fuel j s) ∧
      List.Forall₂ Moment.Hushed (moments fuel i s) (moments fuel j s)
  | .interpret p, _, _, .mk i (k := k) hk => by
      have hrun := i.interpret_withSink k fuel p
      rcases (i.interpret fuel p).eq_ended_or with h | ⟨error, j, h⟩
      · rw [h] at hrun
        constructor
        · simp only [step, interpret, h, hrun, Outcome.mapState]
          exact .none
        · simp only [moments, h, hrun, Outcome.mapState, Outcome.end?]
          exact .nil
      · rw [h, Outcome.mapState_ended] at hrun
        have hj := Hushed.mk j (hk.foldl_writeLine j.state.output)
        constructor
        · cases error <;> simp only [step, interpret, h, hrun, Outcome.ended]
          all_goals exact .some ⟨rfl, hj⟩
        · simp only [moments, h, hrun, Outcome.end?_ended]
          exact .cons ⟨rfl, hj⟩ .nil
  | .output, _, _, .mk i hk => ⟨.some ⟨rfl, .mk i hk⟩, .cons ⟨rfl, .mk i hk⟩ .nil⟩
  | .takeOutput, _, _, .mk i hk =>
      have h := Hushed.mk i.takeOutput.2 hk
      ⟨.some ⟨rfl, h⟩, .cons ⟨rfl, h⟩ .nil⟩
  | .env _, _, _, .mk i hk => ⟨.some ⟨rfl, .mk i hk⟩, .cons ⟨rfl, .mk i hk⟩ .nil⟩
  | .captured, _, _, .mk i hk => ⟨.some ⟨rfl, .mk i hk⟩, .cons ⟨rfl, .mk i hk⟩ .nil⟩
  | .clear, _, _, .mk i hk =>
      have h := Hushed.mk (i.modifySink .clear) hk.clear
      ⟨.some ⟨rfl, h⟩, .cons ⟨rfl, h⟩ .nil⟩
  | .print v, _, _, .mk i hk =>
      have h := Hushed.mk (i.modifySink (.writeLine v.display)) (hk.writeLine v.display)
      ⟨.some ⟨rfl, h⟩, .cons ⟨rfl, h⟩ .nil⟩
  | .collect, _, _, .mk i hk =>
      have h := Hushed.mk (i.modifySink fun _ => i.state.sink.collect.2) hk.collect
      ⟨.some ⟨rfl, h⟩, .cons ⟨rfl, h⟩ .nil⟩
  | .frame steps, i, j, h => by
      have hentered : Hushed (entered i) (entered j) := h.modifyEnv _
      obtain ⟨hends, hinside⟩ := run_hushed fuel steps hentered
      simp only [step_frame_eq, moments, h.env_eq]
      generalize run fuel (entered i) steps = r, run fuel (entered j) steps = r' at hends ⊢
      have hbegun : List.Forall₂ Moment.Hushed
          (⟨.entered, entered i⟩ :: momentsAll fuel (entered i) steps)
          (⟨.entered, entered j⟩ :: momentsAll fuel (entered j) steps) :=
        .cons ⟨rfl, hentered⟩ hinside
      cases hends with
      | none => exact ⟨.none, List.rel_append hbegun .nil⟩
      | some hr =>
          obtain ⟨hinner, hleft⟩ := hr
          have hleft := hleft.modifyEnv (·.restore i.env.snapshot.1)
          refine ⟨.some ⟨?_, hleft⟩, List.rel_append hbegun (.cons ⟨rfl, hleft⟩ .nil)⟩
          simp only [untold, hinner, hleft.env_eq]
theorem run_hushed (fuel : Nat) : ∀ (steps : List (Step η)) {i j : Interpreter η}, Hushed i j →
    HushedEnds untoldAll (run fuel i steps) (run fuel j steps) ∧
      List.Forall₂ Moment.Hushed (momentsAll fuel i steps) (momentsAll fuel j steps)
  | [], _, _, h => ⟨.some ⟨rfl, h⟩, .nil⟩
  | s :: rest, i, j, h => by
      obtain ⟨hstep, hmoments⟩ := step_hushed fuel s h
      simp only [run, momentsAll]
      generalize step fuel i s = r, step fuel j s = r' at hstep ⊢
      cases hstep with
      | none => exact ⟨.none, List.rel_append hmoments .nil⟩
      | @some r r' hr =>
          obtain ⟨hreply, hleft⟩ := hr
          obtain ⟨hrest, hlater⟩ := run_hushed fuel rest hleft
          refine ⟨?_, List.rel_append hmoments hlater⟩
          simp only [Option.bind_eq_bind, Option.bind_some]
          generalize run fuel r.2 rest = q, run fuel r'.2 rest = q' at hrest ⊢
          cases hrest with
          | none => exact .none
          | some hq => exact .some ⟨by simp only [untoldAll, hreply, hq.1], hq.2⟩
end

/-- **The two records stay in step, and the sink affects nothing else.** Let a session be taken
on an interpreter whose sink keeps text. The moments of the session lead to its end, and what
was done up to each of them has a meaning for the records, one only. At every moment the text
that the sink keeps consists of the lines of the values printed since the last clearing, by
statements of runs, of failed ones up to the failure, and past the interpreter; and the output
consists of the values printed by the latest run, or is empty if it was taken. With a sink that
drops lines or passes them on, the same session answers the same, its texts apart, and has the
same results, environments and outputs at every moment, and that sink never keeps any text. -/
theorem records_in_step (t : Interner) (c : Setup η) (fuel : Nat) (steps : List (Step η)) :
    let buffered := Interpreter.new t { c with sink := .capture "" }
    (∀ replies last, run fuel buffered steps = some (replies, last) →
      after buffered (momentsAll fuel buffered steps) = last) ∧
    (∃ marks, List.Forall₂ (fun m ks => m.act.Does ks) (momentsAll fuel buffered steps) marks ∧
      (∀ marks', List.Forall₂ (fun m ks => m.act.Does ks) (momentsAll fuel buffered steps) marks' →
        marks' = marks) ∧
      ∀ (n : Nat) (m : Moment η), (momentsAll fuel buffered steps)[n]? = some m →
        let sofar := (marks.take (n + 1)).flatten
        m.left.state.sink.captured = Value.lines (Mark.sinceCleared sofar) ∧
        m.left.output = Mark.ofLatestRun sofar) ∧
    ∀ k, k = .discard ∨ k = .forward "" →
      let plain := Interpreter.new t { c with sink := k }
      (run fuel plain steps).map (untoldAll ·.1) = (run fuel buffered steps).map (untoldAll ·.1) ∧
      List.Forall₂ (fun m m' => m'.act = m.act ∧ m'.left.env = m.left.env ∧
          m'.left.output = m.left.output ∧ m'.left.state.sink.captured = "")
        (momentsAll fuel buffered steps) (momentsAll fuel plain steps) := by
  intro buffered
  have hstart : buffered.Holds ⟨"", []⟩ := ⟨rfl, rfl⟩
  obtain ⟨l, hkept, -⟩ := run_kept fuel steps hstart
  obtain ⟨marks, hmarks, hholds⟩ := hkept.exists_marks
  refine ⟨fun replies last h => after_momentsAll h, ⟨marks, hmarks, ?_, fun n m hm => ?_⟩, ?_⟩
  · intro marks' hmarks'
    have hunique : Relator.RightUnique fun (m : Moment η) ks => m.act.Does ks :=
      fun _ _ _ h h' => h.unique h'
    exact List.right_unique_forall₂' hunique hmarks' hmarks
  · have hm := hholds n m hm
    rw [Ledger.foldl_add_empty] at hm
    refine ⟨?_, hm.output_eq⟩
    rw [hm.sink_eq]
    rfl
  · intro k hk plain
    have hmute : k.Mute := by
      rcases hk with rfl | rfl
      · exact .discard
      · exact .forward ""
    have hhushed : Hushed buffered plain := .mk buffered hmute
    obtain ⟨hends, hmoments⟩ := run_hushed fuel steps hhushed
    refine ⟨?_, hmoments.imp fun m m' h => ?_⟩
    · generalize run fuel buffered steps = r, run fuel plain steps = r' at hends ⊢
      cases hends with
      | none => rfl
      | some h => exact congrArg some h.1
    · obtain ⟨hact, hleft⟩ := h
      exact ⟨hact, hleft.env_eq, hleft.output_eq, hleft.captured_eq⟩

/-- A run that prints, with the output taken after it; a value printed past the interpreter; and a
clearing: the text that the sink keeps, and how many values the output has. -/
example :
    let i : Interpreter Empty := .new .empty ⟨.empty, .capture ""⟩
    let steps := [.interpret ⟨[.print (.bool true)]⟩, .takeOutput, .print (.bool false), .clear]
    (momentsAll 1 i steps).map (fun m => (m.left.state.sink.captured, m.left.output.length)) =
      [("true\n", 1), ("true\n", 0), ("true\nfalse\n", 0), ("", 0)] := by
  decide +kernel

end Session

end DynScope
